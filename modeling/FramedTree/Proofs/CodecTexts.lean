import FramedTree.Codec.Json
import FramedTree.Proofs.Decimals
import FramedTree.Proofs.JsonNames

/-! # Codec settings in JSON texts

Settings that are written as JSON are read back, whatever is done to the text that JSON lets one do:
the fields may come in any order and with any blanks, names may be spelled in any way, fields of
other names may stand anywhere, and a field that is left out takes its default. A limit of zero is
never read.
-/

namespace FramedTree

namespace Json

variable {rest : Bytes}

private theorem toNat_le_of_isDigit {c : Char} (h : c.isDigit = true) :
    48 ≤ c.toNat ∧ c.toNat ≤ 57 := by
  simp only [Char.isDigit, Bool.and_eq_true, decide_eq_true_eq] at h
  exact ⟨UInt32.le_iff_toNat_le.1 h.1, UInt32.le_iff_toNat_le.1 h.2⟩

private theorem bytesOf_toString (n : Nat) :
    bytesOf (toString n) = (Nat.toDigits 10 n).map byte := by
  rw [bytesOf_eq, bytesOfChars_ascii, Decimal.toList_toString]
  intro c hc
  exact Nat.lt_of_le_of_lt (toNat_le_of_isDigit (Decimal.isDigit_of_mem hc)).2 (by decide)

private theorem toNat_byte {c : Char} (h : c.toNat < 256) :
    (byte c).toNat = c.toNat := UInt8.toNat_ofNat_of_lt' h

private theorem isDigit_of_mem_toString {n : Nat} {b : UInt8} (hb : b ∈ bytesOf (toString n)) :
    isDigit b = true := by
  rw [bytesOf_toString] at hb
  obtain ⟨c, hc, rfl⟩ := List.mem_map.1 hb
  have hdigit := toNat_le_of_isDigit (Nat.isDigit_of_mem_toDigits (by decide) (by decide) hc)
  rw [isDigit_iff, toNat_byte (by omega)]
  exact hdigit

private theorem toString_first (n : Nat) :
    n = 0 ∧ bytesOf (toString n) = [byte '0'] ∨
      ∃ first others, bytesOf (toString n) = first :: others ∧ first ≠ byte '0' := by
  obtain ⟨first, others, hdigits, hzero⟩ := Decimal.toDigits_cons n
  by_cases hfirst : first = '0'
  · obtain rfl := hzero hfirst
    exact .inl ⟨rfl, by decide⟩
  · refine .inr ⟨byte first, others.map byte, by rw [bytesOf_toString, hdigits, List.map_cons], ?_⟩
    have hdigit : first.isDigit = true :=
      Nat.isDigit_of_mem_toDigits (n := n) (by decide) (by decide) (hdigits ▸ List.mem_cons_self)
    have := toNat_le_of_isDigit hdigit
    intro heq
    have hnat := congrArg UInt8.toNat heq
    rw [toNat_byte (by omega), toNat_byte (by decide)] at hnat
    exact hfirst (Char.toNat_inj.1 hnat)

private theorem Value.ne_nil {bytes : Bytes} (h : Value bytes) : bytes ≠ [] := by
  obtain ⟨b, rest, rfl, -⟩ := h.starts
  exact List.cons_ne_nil _ _

private theorem value_toString (n : Nat) : Value (bytesOf (toString n)) := by
  have hwhole : Whole (bytesOf (toString n)) := by
    rcases toString_first n with ⟨-, h⟩ | ⟨first, others, h, hfirst⟩
    · rw [h]
      exact .zero
    · have hdigits : ∀ b ∈ first :: others, isDigit b = true :=
        fun b hb => isDigit_of_mem_toString (h ▸ hb)
      rw [h]
      exact .digits (hdigits first List.mem_cons_self) hfirst fun b hb =>
        hdigits b (List.mem_cons_of_mem _ hb)
  have hmagnitude := Magnitude.mk hwhole .none .none
  rw [List.append_nil, List.append_nil] at hmagnitude
  exact .number hmagnitude

private theorem absorb_digits (digits : List Char) (n : Nat)
    (hfits : Nat.ofDigitChars 10 digits n < UInt64.size) :
    absorb n (digits.map fun c => c.toNat - 48) =
      (Nat.ofDigitChars 10 digits n, digits.length) := by
  induction digits generalizing n with
  | nil => rw [List.map_nil, absorb, Nat.ofDigitChars_nil, List.length_nil]
  | cons c digits ih =>
    rw [Nat.ofDigitChars_cons] at hfits ⊢
    change Nat.ofDigitChars 10 digits (10 * n + (c.toNat - 48)) < UInt64.size at hfits
    have hgrows : 10 * n + (c.toNat - 48) ≤
      Nat.ofDigitChars 10 digits (10 * n + (c.toNat - 48)) := by
      rw [Nat.ofDigitChars_eq_ofDigitChars_zero]
      exact Nat.le_trans (Nat.le_mul_of_pos_left _ (Nat.pow_pos (by decide))) (Nat.le_add_right _ _)
    rw [List.map_cons, absorb, if_neg (by omega), ih _ hfits]
    rfl

private theorem absorb_toString {n : Nat} (hn : n < UInt64.size) :
    absorb 0 ((bytesOf (toString n)).map (·.toNat - 48)) = (n, (bytesOf (toString n)).length) := by
  have hvalues : (bytesOf (toString n)).map (·.toNat - 48) = (Nat.toDigits 10 n).map fun c =>
    c.toNat - 48 := by
    rw [bytesOf_toString, List.map_map]
    refine List.map_congr_left fun c hc => ?_
    have := toNat_le_of_isDigit (Nat.isDigit_of_mem_toDigits (by decide) (by decide) hc)
    exact congrArg (· - 48) (toNat_byte (by omega))
  have hn' : Nat.ofDigitChars 10 (Nat.toDigits 10 n) 0 = n := Nat.ofDigitChars_ten_toDigits
  rw [hvalues, absorb_digits _ _ (by rwa [hn']), hn', bytesOf_toString, List.length_map]

private theorem readNumber_toString {n : Nat} (hn : n < UInt64.size) (hrest : Ends rest) :
    readNumber false (bytesOf (toString n) ++ rest) = .ok (.natural n, rest) := by
  obtain ⟨hstop, hpoint, hlower, hupper⟩ := hrest.no_number
  have hdigits : readDigits (bytesOf (toString n) ++ rest) = _ :=
    readDigits_append (fun b hb => isDigit_of_mem_toString hb) hstop
  have habsorb := absorb_toString hn
  obtain ⟨first, others, hbytes, hplain⟩ : ∃ first others, bytesOf (toString n) = first :: others ∧
      ¬ (((first :: others).map (·.toNat - 48)).head? = some 0 ∧
        1 < ((first :: others).map (·.toNat - 48)).length) := by
    rcases toString_first n with ⟨-, h⟩ | ⟨first, others, h, hfirst⟩
    · exact ⟨_, _, h, by decide⟩
    · refine ⟨first, others, h, ?_⟩
      rintro ⟨hzero, -⟩
      have hdigit :=
        isDigit_iff.1 (isDigit_of_mem_toString (n := n) (b := first) (h ▸ List.mem_cons_self))
      have hzero : first.toNat - 48 = 0 := by simpa using hzero
      exact hfirst (UInt8.toNat_inj.1 (show first.toNat = 48 by omega))
  have hfirst : isDigit first = true :=
    isDigit_of_mem_toString (n := n) (hbytes ▸ List.mem_cons_self)
  rw [hbytes] at hdigits habsorb ⊢
  rw [List.cons_append] at hdigits ⊢
  rw [readNumber, bind_of_ok (peek_apply _), List.head?_cons]
  dsimp only
  rw [if_neg (by rw [hfirst]; decide), bind_of_ok hdigits, if_neg hplain, habsorb]
  dsimp only
  rw [bind_of_ok (peek_apply _), if_neg hpoint, if_neg (not_or.2 ⟨hlower, hupper⟩), List.length_map,
    Nat.sub_self]
  rfl

private theorem readUInt32_toString {blank : Bytes} (hblank : Blank blank) (n : UInt32)
    (hrest : Ends rest) :
    readUInt32 (blank ++ (bytesOf (toString n.toNat) ++ rest)) = .ok (n, rest) := by
  have hsmall : n.toNat < UInt32.size := n.toNat_lt
  have hnumber := readNumber_toString (Nat.lt_trans hsmall (by decide)) hrest
  obtain ⟨first, others, hbytes⟩ := List.exists_cons_of_ne_nil (value_toString n.toNat).ne_nil
  have hfirst : isDigit first = true :=
    isDigit_of_mem_toString (n := n.toNat) (hbytes ▸ List.mem_cons_self)
  have hminus : ¬ first = byte '-' := by
    rintro rfl
    exact absurd hfirst (by decide)
  rw [hbytes, List.cons_append] at hnumber ⊢
  rw [readUInt32, bind_of_ok (peekToken_cons hblank (starts_of_isDigit hfirst).1 _)]
  dsimp only
  rw [if_pos (.inr hfirst), if_neg hminus, decide_eq_false hminus]
  refine (bind_of_ok hnumber).trans ?_
  dsimp only
  rw [if_pos hsmall]
  exact congrArg (fun n => Except.ok (n, rest)) (UInt32.ofNat_toNat)

private theorem readBool_word {blank : Bytes} (hblank : Blank blank) (value : Bool) (rest : Bytes) :
    readBool (blank ++ (bytesOf (if value then "true" else "false") ++ rest)) =
      .ok (value, rest) := by
  cases value
  · have hword := readWord_append ['a', 'l', 's', 'e'] rest
    rw [readBool, show bytesOf _ =
      ['f', 'a', 'l', 's', 'e'].map byte
        by decide, List.map_cons, List.cons_append, bind_of_ok (peekToken_cons hblank (by decide) _)]
    exact (bind_of_ok (advance_cons _ _)).trans (bind_of_ok hword)
  · have hword := readWord_append ['r', 'u', 'e'] rest
    rw [readBool, show bytesOf _ =
      ['t', 'r', 'u', 'e'].map byte
        by decide, List.map_cons, List.cons_append, bind_of_ok (peekToken_cons hblank (by decide) _)]
    exact (bind_of_ok (advance_cons _ _)).trans (bind_of_ok hword)

end Json

namespace Codec

open Json

variable {codec : Codec} {fields : Fields} {name : String} {names : List String}
  {value bytes rest : Bytes}

def members (codec : Codec) : List (String × Bytes) :=
  [(limitField, bytesOf (toString codec.maxFrameLen.toNat)),
    (verifyField, bytesOf (if codec.verifyTrailer then "true" else "false"))]

/-- The field is not one of settings. -/
def IsOther (member : String × Bytes) : Prop := member.1 ≠ limitField ∧ member.1 ≠ verifyField

/-- The fields of these names are those of the settings, and the others are as they were. -/
def Fields.taking (fields : Fields) (codec : Codec) (names : List String) : Fields :=
  { limit := if limitField ∈ names then some codec.maxFrameLen else fields.limit
    verify := if verifyField ∈ names then some codec.verifyTrailer else fields.verify }

/-- No field of settings is among these names more than once, or again. -/
structure Fits (names : List String) (fields : Fields) : Prop where
  limit : names.count limitField + fields.limit.toList.length ≤ 1
  verify : names.count verifyField + fields.verify.toList.length ≤ 1

private theorem Fields.taking_cons (fields : Fields) (codec : Codec) (name : String)
    (names : List String) :
    (fields.taking codec [name]).taking codec names = fields.taking codec (name :: names) := by
  simp only [Fields.taking, List.mem_cons, List.not_mem_nil, or_false]
  congr 1 <;>
  · split
    · rw [if_pos (.inr ‹_›)]
    · simp only [*, or_false]

private theorem Fits.head (h : Fits (name :: names) fields) :
    (name = limitField → fields.limit = none) ∧ (name = verifyField → fields.verify = none) := by
  obtain ⟨hlimit, hverify⟩ := h
  constructor
  · rintro rfl
    rw [List.count_cons_self] at hlimit
    exact Option.toList_eq_nil_iff.1 (List.eq_nil_of_length_eq_zero (by omega))
  · rintro rfl
    rw [List.count_cons_self] at hverify
    exact Option.toList_eq_nil_iff.1 (List.eq_nil_of_length_eq_zero (by omega))

private theorem Fits.tail (h : Fits (name :: names) fields) :
    Fits names (fields.taking codec [name]) := by
  obtain ⟨hlimit, hverify⟩ := h
  rw [List.count_cons] at hlimit hverify
  constructor <;> simp only [Fields.taking, List.mem_singleton]
  · by_cases hname : limitField = name
    · subst hname
      simp only [beq_self_eq_true, if_true, Option.toList_some, List.length_singleton] at hlimit ⊢
      omega
    · rw [if_neg hname]
      omega
  · by_cases hname : verifyField = name
    · subst hname
      simp only [beq_self_eq_true, if_true, Option.toList_some, List.length_singleton] at hverify ⊢
      omega
    · rw [if_neg hname]
      omega

private theorem readColon_append {between : Bytes} (hbetween : Blank between) (rest : Bytes) :
    readColon (between ++ byte ':' :: rest) = .ok ((), rest) := by
  rw [readColon, bind_of_ok (peekToken_cons hbetween (by decide) _)]
  exact congrFun (if_pos rfl) _

private theorem readField_append {between after : Bytes} (hbetween : Blank between)
    (hafter : Blank after) (hvalue : Value value)
    (hmember : (name, value) ∈ codec.members ∨ IsOther (name, value))
    (hfits : Fits (name :: names) fields) (hrest : Ends rest) :
    readField name fields (between ++ byte ':' :: (after ++ (value ++ rest))) =
      .ok (fields.taking codec [name], rest) := by
  obtain ⟨hlimit, hverify⟩ := hfits.head
  rcases hmember with hown | ⟨hnoLimit, hnoVerify⟩
  · simp only [members, List.mem_cons, List.not_mem_nil, or_false, Prod.mk.injEq] at hown
    rcases hown with ⟨rfl, rfl⟩ | ⟨rfl, rfl⟩
    · rw [readField, if_pos rfl, if_neg (by rw [hlimit rfl]; decide)]
      dsimp only
      rw [bind_of_ok (readColon_append hbetween _), bind_of_ok (readUInt32_toString hafter _ hrest)]
      rfl
    · rw [readField, if_neg (by decide), if_pos rfl, if_neg (by rw [hverify rfl]; decide)]
      dsimp only
      rw [bind_of_ok (readColon_append hbetween _), bind_of_ok (readBool_word hafter _ _)]
      rfl
  · have hsame : fields.taking codec [name] = fields := by
      simp only [Fields.taking, List.mem_singleton, if_neg (Ne.symm hnoLimit),
        if_neg (Ne.symm hnoVerify)]
    rw [readField, if_neg hnoLimit, if_neg hnoVerify, bind_of_ok (readColon_append hbetween _),
      bind_of_ok (skipValue_append hafter hvalue hrest), hsame]
    rfl

/-- What stands in front of the quote of a key, after blanks or a comma. -/
inductive Opens : Bool → Bytes → Prop where
  | first : Opens true []
  | comma {behind : Bytes} (hbehind : Blank behind) : Opens false (behind ++ [byte ','])

private theorem hasField_opens {isFirst : Bool} {opening before : Bytes} (h : Opens isFirst opening)
    (hbefore : Blank before) (rest : Bytes) :
    hasField isFirst (opening ++ (before ++ byte '"' :: rest)) = .ok (true, byte '"' :: rest) := by
  cases h with
  | first =>
    rw [List.nil_append, hasField, bind_of_ok (peekToken_cons hbefore (by decide) _)]
    rfl
  | comma hbehind =>
    rw [List.append_assoc, List.singleton_append, hasField,
      bind_of_ok (peekToken_cons hbehind (by decide) _)]
    dsimp only
    rw [if_neg (by decide), if_neg (by decide), if_pos rfl, bind_of_ok (advance_cons _ _),
      bind_of_ok (peekToken_cons hbefore (by decide) _)]
    rfl

private theorem hasField_closing {behind : Bytes} (hbehind : Blank behind) (isFirst : Bool)
    (rest : Bytes) :
    hasField isFirst (behind ++ byte '\x7d' :: rest) = .ok (false, byte '\x7d' :: rest) := by
  rw [hasField, bind_of_ok (peekToken_cons hbehind (by decide) _)]
  rfl

private theorem readFields_closing {behind : Bytes} (hbehind : Blank behind) (isFirst : Bool)
    (fields : Fields) (f : UInt8) (fuel rest : Bytes) :
    readFields (f :: fuel) isFirst fields (behind ++ byte '\x7d' :: rest) = .ok (fields, rest) := by
  rw [readFields, bind_of_ok (hasField_closing hbehind isFirst rest)]
  rfl

private theorem readFields_member {isFirst : Bool} {opening : Bytes}
    (hopening : Opens isFirst opening) (h : Member name value bytes)
    (hmember : (name, value) ∈ codec.members ∨ IsOther (name, value))
    (hfits : Fits (name :: names) fields) (hrest : Ends rest) :
    ∃ behind, Blank behind ∧ behind.length < bytes.length ∧ ∀ f fuel,
      readFields (f :: fuel) isFirst fields (opening ++ (bytes ++ rest)) =
        readFields fuel false (fields.taking codec [name]) (behind ++ rest) := by
  obtain @⟨before, key, between, after, behind, hbefore, hkey, hbetween, hafter, hvalue, hbehind⟩ :=
    h
  refine ⟨behind, hbehind, ?_, fun f fuel => ?_⟩
  · simp only [inQuotes, List.length_append, List.length_cons]
    omega
  · have hfield := readField_append hbetween hafter hvalue hmember hfits (hrest.of_blank hbehind)
    simp only [inQuotes, List.append_assoc, List.cons_append, List.nil_append]
    rw [readFields, bind_of_ok (hasField_opens hopening hbefore _), if_pos rfl,
      bind_of_ok (advance_cons _ _), bind_of_ok (readString_append hkey _), bind_of_ok hfield]

private theorem readFields_members {members : List (String × Bytes)} {isFirst : Bool}
    {opening fuel : Bytes} (h : Members members bytes)
    (hmembers : ∀ member ∈ members, member ∈ codec.members ∨ IsOther member)
    (hfits : Fits (members.map Prod.fst) fields) (hopening : Opens isFirst opening)
    (hfuel : (bytes ++ byte '\x7d' :: rest).length ≤ fuel.length) :
    readFields fuel isFirst fields (opening ++ (bytes ++ byte '\x7d' :: rest)) =
      .ok (fields.taking codec (members.map Prod.fst), rest) := by
  induction h generalizing fields isFirst opening fuel with
  | @last name value bytes hmember =>
    obtain ⟨behind, hbehind, hlength, hread⟩ :=
      readFields_member hopening hmember (hmembers _ List.mem_cons_self)
      hfits (ends_closing .object rest)
    simp only [List.length_append, List.length_cons] at hfuel
    obtain ⟨f, fuel, rfl⟩ := List.exists_cons_of_length_pos (l := fuel) (by omega)
    obtain ⟨g, fuel, rfl⟩ :=
      List.exists_cons_of_length_pos (l := fuel) (by rw [List.length_cons] at hfuel; omega)
    exact (hread f _).trans (readFields_closing hbehind _ _ _ _ _)
  | @more name value bytes others members hmember _ ih =>
    obtain ⟨hfirst, hmembers⟩ := List.forall_mem_cons.1 hmembers
    obtain ⟨behind, hbehind, hlength, hread⟩ := readFields_member hopening hmember hfirst hfits
      (ends_comma (others ++ byte '\x7d' :: rest))
    simp only [List.length_append, List.length_cons] at hfuel
    obtain ⟨f, fuel, rfl⟩ := List.exists_cons_of_length_pos (l := fuel) (by omega)
    have hleft : (others ++ byte '\x7d' :: rest).length ≤ fuel.length := by
      simp only [List.length_append, List.length_cons] at hfuel ⊢
      omega
    have hfits' : Fits (members.map Prod.fst) (fields.taking codec [name]) := hfits.tail
    have hothers := ih hmembers hfits' (.comma hbehind) hleft
    rw [Fields.taking_cons] at hothers
    rw [List.append_assoc, List.cons_append]
    refine (hread f fuel).trans ?_
    rw [List.append_assoc, List.singleton_append] at hothers
    exact hothers

/-- The settings with a default for every field that is not among these. -/
def keeping (codec : Codec) (names : List String) : Codec :=
  { maxFrameLen := if limitField ∈ names then codec.maxFrameLen else ({} : Codec).maxFrameLen
    verifyTrailer :=
      if verifyField ∈ names then codec.verifyTrailer else ({} : Codec).verifyTrailer }

def checked (codec : Codec) : Except CodecError Codec :=
  if codec.maxFrameLen = 0 then .error .zeroLimit else .ok codec

private theorem toCodec_taking (codec : Codec) (names : List String) :
    (({} : Fields).taking codec names).toCodec = codec.keeping names := by
  simp only [Fields.toCodec, Fields.taking, keeping]
  congr 1 <;> split <;> rfl

private theorem readCodec_object {members : List (String × Bytes)} {before : Bytes}
    (hbefore : Blank before) (h : Object members bytes)
    (hmembers : ∀ member ∈ members, member ∈ codec.members ∨ IsOther member)
    (hfits : Fits (members.map Prod.fst) {}) (rest : Bytes) :
    readCodec (before ++ (bytes ++ rest)) =
      .ok (({} : Fields).taking codec (members.map Prod.fst), rest) := by
  cases h with
  | @empty blank hblank =>
    have hread : ∀ fuel : Bytes, 0 < fuel.length →
        readFields fuel true {} (blank ++ ([byte '\x7d'] ++ rest)) = .ok ({}, rest) := by
      intro fuel hfuel
      obtain ⟨f, fuel, rfl⟩ := List.exists_cons_of_length_pos hfuel
      exact readFields_closing hblank true {} f fuel rest
    rw [List.cons_append, List.append_assoc, readCodec,
      bind_of_ok (peekToken_cons hbefore (by decide) _)]
    dsimp only
    rw [if_neg (by decide), if_pos rfl, bind_of_ok (advance_cons _ _), bind_of_ok (get_apply _)]
    refine hread _ ?_
    simp only [List.length_append, List.length_singleton]
    omega
  | @fields _ bytes h =>
    rw [List.cons_append, List.append_assoc, readCodec,
      bind_of_ok (peekToken_cons hbefore (by decide) _)]
    dsimp only
    rw [if_neg (by decide), if_pos rfl, bind_of_ok (advance_cons _ _), bind_of_ok (get_apply _)]
    exact readFields_members h hmembers hfits .first (Nat.le_refl _)

private theorem ofJson_objectText {members : List (String × Bytes)} {text : Bytes}
    (h : ObjectText members text)
    (hmembers : ∀ member ∈ members, member ∈ codec.members ∨ IsOther member)
    (hfits : Fits (members.map Prod.fst) {}) :
    ofJson text = (codec.keeping (members.map Prod.fst)).checked := by
  obtain @⟨before, object, after, hbefore, hobject, hafter⟩ := h
  have hread : readWhole (before ++ (object ++ after)) =
    .ok (({} : Fields).taking codec (members.map Prod.fst), []) := by
    rw [readWhole, bind_of_ok (readCodec_object hbefore hobject hmembers hfits after),
      bind_of_ok (peekToken_end hafter)]
    rfl
  have hrun : readWhole.run' (before ++ (object ++ after)) =
    .ok (({} : Fields).taking codec (members.map Prod.fst)) :=
    congrArg (Prod.fst <$> ·) hread
  rw [ofJson, hrun, ← toCodec_taking]
  rfl

private theorem spells_self (text : List Char)
    (htext : text.all fun c => decide (c ≠ '"' ∧ c ≠ '\\' ∧ 32 ≤ c.toNat)) :
    Spells text (bytesOfChars text) := by
  induction text with
  | nil => exact .nil
  | cons c text ih =>
    rw [List.all_cons, Bool.and_eq_true, decide_eq_true_eq] at htext
    obtain ⟨⟨hquote, hslash, hcontrol⟩, htext⟩ := htext
    exact .plain hquote hslash hcontrol (ih htext)

private theorem spells_names :
    Spells limitField.toList (bytesOf limitField) ∧
    Spells verifyField.toList (bytesOf verifyField) := by
  rw [bytesOf_eq, bytesOf_eq]
  exact ⟨spells_self _ (by decide), spells_self _ (by decide)⟩

private theorem value_verify (codec : Codec) :
    Value (bytesOf (if codec.verifyTrailer then "true" else "false")) := by
  cases codec.verifyTrailer
  · exact .false
  · exact .true

private theorem objectText_toJson (codec : Codec) :
    ObjectText codec.members (bytesOf codec.toJson) := by
  have hindent : Blank [10, 32, 32] := by decide
  have hblank : Blank [32] := by decide
  have hend : Blank [10] := by decide
  have hlimit : Member limitField (bytesOf (toString codec.maxFrameLen.toNat)) _ :=
    .mk hindent spells_names.1 blank_nil hblank (value_toString _) blank_nil
  have hverify : Member verifyField (bytesOf (if codec.verifyTrailer then "true" else "false")) _ :=
    .mk hindent spells_names.2 blank_nil hblank (value_verify codec) hend
  have htext := ObjectText.mk blank_nil (.fields (.more hlimit (.last hverify))) blank_nil
  have hopening : bytesOf "\x7b\n  \"" = [byte '\x7b', 10, 32, 32, byte '"'] := by decide
  have hcolon : bytesOf "\": " = [byte '"', byte ':', 32] := by decide
  have hcomma : bytesOf ",\n  \"" = [byte ',', 10, 32, 32, byte '"'] := by decide
  have hclosing : bytesOf "\n\x7d" = [10, byte '\x7d'] := by decide
  simp only [inQuotes, List.append_assoc, List.cons_append, List.nil_append,
    List.append_nil] at htext
  simp only [toJson, bytesOf_append, hopening, hcolon, hcomma, hclosing, List.append_assoc,
    List.cons_append, List.nil_append]
  exact htext

private theorem count_names_members (codec : Codec) {name : String}
    (hname : name = limitField ∨ name = verifyField) :
    (codec.members.map Prod.fst).count name = 1 := by
  rcases hname with rfl | rfl <;> rfl

private theorem mem_names_iff {own others members : List (String × Bytes)} {name : String}
    (hname : name = limitField ∨ name = verifyField) (hothers : ∀ member ∈ others, IsOther member)
    (hperm : members.Perm (own ++ others)) :
    name ∈ members.map Prod.fst ↔ name ∈ own.map Prod.fst := by
  have hnot : name ∉ others.map Prod.fst := by
    intro hmem
    obtain ⟨member, hmember, rfl⟩ := List.mem_map.1 hmem
    rcases hname with h | h
    · exact (hothers member hmember).1 h
    · exact (hothers member hmember).2 h
  rw [(hperm.map Prod.fst).mem_iff, List.map_append, List.mem_append, or_iff_left hnot]

private theorem keeping_perm {own others members : List (String × Bytes)}
    (hothers : ∀ member ∈ others, IsOther member) (hperm : members.Perm (own ++ others))
    (codec : Codec) :
    codec.keeping (members.map Prod.fst) = codec.keeping (own.map Prod.fst) := by
  simp only [keeping, mem_names_iff (.inl rfl) hothers hperm,
    mem_names_iff (.inr rfl) hothers hperm]

private theorem fits_perm {own others members : List (String × Bytes)}
    (hown : own.Sublist codec.members) (hothers : ∀ member ∈ others, IsOther member)
    (hperm : members.Perm (own ++ others)) :
    Fits (members.map Prod.fst) {} := by
  have honce {name : String} (hname : name = limitField ∨ name = verifyField) :
      (members.map Prod.fst).count name ≤ 1 := by
    have hnone : (others.map Prod.fst).count name = 0 := by
      refine List.count_eq_zero.2 fun hmem => ?_
      have hiff := mem_names_iff hname hothers (List.Perm.refl ([] ++ others))
      exact List.not_mem_nil (hiff.1 hmem)
    calc (members.map Prod.fst).count name
        = (own.map Prod.fst).count name + (others.map Prod.fst).count name := by
          rw [(hperm.map Prod.fst).count_eq, List.map_append, List.count_append]
      _ ≤ (codec.members.map Prod.fst).count name := by
          rw [hnone]
          exact (hown.map Prod.fst).count_le name
      _ = 1 := count_names_members codec hname
  exact ⟨honce (.inl rfl), honce (.inr rfl)⟩

private theorem keeping_members (codec : Codec) :
    codec.keeping (codec.members.map Prod.fst) = codec := rfl

private theorem ofJson_limit {text : Bytes} (h : ofJson text = .ok codec) :
    codec.maxFrameLen ≠ 0 := by
  rw [ofJson] at h
  split at h
  · cases h
  · split at h
    · cases h
    · rename_i hlimit
      cases h
      exact hlimit

/-- Settings are read back from what they are written as, unless their limit is zero, which is
refused. So they are from any text of an object that has some of their fields and any others, in any
order: fields that are left out take their defaults. A limit of zero is read from no text at all. -/
theorem ofJson_settings :
    (∀ codec : Codec, ObjectText codec.members (bytesOf codec.toJson) ∧
      ofJson (bytesOf codec.toJson) = if codec.maxFrameLen = 0 then .error .zeroLimit
        else .ok codec) ∧
    (∀ (codec : Codec) (own others members : List (String × Bytes)) (text : Bytes),
      own.Sublist codec.members →
      (∀ member ∈ others, IsOther member) → members.Perm (own ++ others) → ObjectText members text →
      ofJson text = if (codec.keeping (own.map Prod.fst)).maxFrameLen = 0 then .error .zeroLimit
        else .ok (codec.keeping (own.map Prod.fst))) ∧
    ∀ (text : Bytes) (codec : Codec), ofJson text = .ok codec → codec.maxFrameLen ≠ 0 := by
  have hany (codec : Codec) (own others members : List (String × Bytes)) (text : Bytes)
      (hown : own.Sublist codec.members) (hothers : ∀ member ∈ others, IsOther member)
      (hperm : members.Perm (own ++ others)) (htext : ObjectText members text) :
      ofJson text = (codec.keeping (own.map Prod.fst)).checked := by
    have hmembers : ∀ member ∈ members, member ∈ codec.members ∨ IsOther member := by
      intro member hmember
      rcases List.mem_append.1 (hperm.mem_iff.1 hmember) with h | h
      · exact .inl (hown.subset h)
      · exact .inr (hothers member h)
    rw [ofJson_objectText htext hmembers (fits_perm hown hothers hperm), keeping_perm hothers hperm]
  refine ⟨fun codec => ⟨objectText_toJson codec, ?_⟩, hany, fun _ _ => ofJson_limit⟩
  have hwhole := hany codec codec.members [] codec.members _ (List.Sublist.refl _) nofun
    (by rw [List.append_nil]) (objectText_toJson codec)
  rwa [keeping_members] at hwhole

/-- An object without a limit: its first field is of no interest, and blanks stand in unusual
places. -/
theorem ofJson_settings_without_limit :
    ofJson (bytesOf "\x7b\"note\":[1,\x7b\"a\":null\x7d] ,\"verify_trailer\" : false\x7d\n") =
      .ok { verifyTrailer := false } := by
  have hblank : Blank [32] := by decide
  have hend : Blank [10] := by decide
  have hone : Magnitude ([byte '1'] ++ ([] ++ [])) :=
    .mk (.digits (by decide) (by decide) nofun) .none .none
  have hkey : Body [byte 'a'] := .plain (by decide) (by decide) (by decide) .nil
  have hobject :=
    Value.items .object (.object blank_nil hkey blank_nil blank_nil) (.last .object .null blank_nil)
  have hlist := Value.items .list (.list blank_nil)
    (.more .list (.number hone) blank_nil (.list blank_nil) (.last .list hobject blank_nil))
  have hnote : Member "note" _ _ :=
    .mk blank_nil (spells_self "note".toList (by decide)) blank_nil blank_nil hlist hblank
  have hverify : Member verifyField (bytesOf "false") _ :=
    .mk blank_nil spells_names.2 hblank hblank .false blank_nil
  have htext := ObjectText.mk blank_nil (.fields (.more hnote (.last hverify))) hend
  have hkept := ofJson_settings.2.1 { maxFrameLen := 5, verifyTrailer := false }
    [(verifyField, bytesOf "false")]
    [("note", _)] _ _ (.cons _ (List.Sublist.refl _)) (by unfold IsOther; decide)
      (.swap _ _ _) htext
  rw [if_neg (by decide)] at hkept
  exact hkept

end Codec
end FramedTree
