import Mathlib.Tactic.ByContra
import FramedTree.Proofs.JsonTexts

/-! # Values are skipped

A reader that is not interested in a value leaves out exactly its bytes, whatever the value: of any
depth, with numbers of any size and strings of any kind. Where a number ends shows only from what
follows it, so that a value is skipped if it is followed by what may follow a value.
-/

namespace FramedTree.Json

variable {α β : Type} {input bytes digits rest : Bytes}

theorem bind_of_ok {reader : JsonReader α} {next : α → JsonReader β} {value : α}
    (h : reader input = .ok (value, rest)) : (reader >>= next) input = next value rest := by
  change (reader input >>= fun pair => next pair.1 pair.2) = _
  rw [h]
  rfl

theorem peek_apply (input : Bytes) : peek input = .ok (input.head?, input) := rfl

theorem advance_cons (b : UInt8) (rest : Bytes) : advance (b :: rest) = .ok ((), rest) := rfl

theorem next_cons (b : UInt8) (rest : Bytes) : next (b :: rest) = .ok (some b, rest) := rfl

theorem get_apply (input : Bytes) : (get : JsonReader Bytes) input = .ok (input, input) := rfl

private theorem peekToken_blank {blank : Bytes} (hblank : Blank blank) (input : Bytes) :
    peekToken (blank ++ input) = peekToken input := by
  have hdrop : (blank ++ input).dropWhile isBlank = input.dropWhile isBlank :=
    List.dropWhile_append_of_pos hblank
  change Except.ok (((blank ++ input).dropWhile isBlank).head?,
    (blank ++ input).dropWhile isBlank) =
    Except.ok ((input.dropWhile isBlank).head?, input.dropWhile isBlank)
  rw [hdrop]

/-- The next token is behind the blanks. -/
theorem peekToken_cons {blank : Bytes} {b : UInt8} (hblank : Blank blank) (hb : isBlank b = false)
    (rest : Bytes) :
    peekToken (blank ++ b :: rest) = .ok (some b, b :: rest) := by
  rw [peekToken_blank hblank]
  change Except.ok (((b :: rest).dropWhile isBlank).head?, (b :: rest).dropWhile isBlank) = _
  rw [List.dropWhile_cons_of_neg (by simp [hb])]
  rfl

theorem peekToken_end {blank : Bytes} (hblank : Blank blank) :
    peekToken blank = .ok (none, []) := by
  rw [← List.append_nil blank, peekToken_blank hblank]
  rfl

theorem readWord_append (word : List Char) (rest : Bytes) :
    readWord word (word.map byte ++ rest) = .ok ((), rest) := by
  induction word with
  | nil => rfl
  | cons c word ih =>
    rw [readWord, List.map_cons, List.cons_append, bind_of_ok (next_cons _ _)]
    dsimp only
    rw [if_pos rfl, ih]

/-- No digit comes next. -/
def NoDigit (rest : Bytes) : Prop := ∀ b ∈ rest.head?, isDigit b = false

theorem readDigits_append (hdigits : ∀ b ∈ digits, isDigit b) (hrest : NoDigit rest) :
    readDigits (digits ++ rest) = .ok (digits.map (·.toNat - 48), rest) := by
  have hstop : rest.takeWhile isDigit = [] ∧ rest.dropWhile isDigit = rest := by
    cases rest with
    | nil => exact ⟨rfl, rfl⟩
    | cons b rest => simp [hrest b rfl]
  rw [readDigits, List.takeWhile_append_of_pos hdigits, List.dropWhile_append_of_pos hdigits,
    hstop.1, hstop.2, List.append_nil]

private theorem skipDigits_append (hdigits : Digits digits) (hrest : NoDigit rest) :
    skipDigits (digits ++ rest) = .ok ((), rest) := by
  have hsome : ¬ (digits.map (·.toNat - 48)).isEmpty = true := by
    rw [List.isEmpty_iff, List.map_eq_nil_iff]
    exact hdigits.1
  rw [skipDigits, bind_of_ok (readDigits_append hdigits.2 hrest), if_neg hsome]
  rfl

/-- What follows a value does not go on with a number. -/
theorem Ends.no_number (h : Ends rest) :
    NoDigit rest ∧ rest.head? ≠ some (byte '.') ∧ rest.head? ≠ some (byte 'e') ∧
    rest.head? ≠ some (byte 'E') := by
  cases rest with
  | nil => exact ⟨nofun, nofun, nofun, nofun⟩
  | cons b rest =>
    have hb := h b rfl
    have hnot {c : UInt8} (hblank : isBlank c = false)
        (hc : c ≠ byte ',' ∧ c ≠ byte ']' ∧ c ≠ byte '\x7d') : b ≠ c := by
      rintro rfl
      rw [hblank] at hb
      rcases hb with hb | hb | hb | hb
      · cases hb
      · exact hc.1 hb
      · exact hc.2.1 hb
      · exact hc.2.2 hb
    refine ⟨?_, ?_, ?_, ?_⟩
    · rintro _ ⟨⟩
      by_contra hdigit
      obtain ⟨hblank, hc⟩ := starts_of_isDigit (Bool.of_not_eq_false hdigit)
      exact hnot hblank hc rfl
    all_goals
      intro heq
      exact hnot (by decide) (by decide) (Option.some.inj heq)

private theorem Exponent.noDigit {exponent : Bytes} (h : Exponent exponent) (hrest : Ends rest) :
    NoDigit (exponent ++ rest) := by
  cases h with
  | none => exact hrest.no_number.1
  | digits hmark =>
    rintro _ ⟨⟩
    rcases hmark with rfl | rfl <;> decide

private theorem Exponent.head?_ne {exponent : Bytes} (h : Exponent exponent) (hrest : Ends rest) :
    (exponent ++ rest).head? ≠ some (byte '.') := by
  cases h with
  | none => exact hrest.no_number.2.1
  | digits hmark =>
    intro heq
    rcases hmark with rfl | rfl <;> exact absurd (Option.some.inj heq) (by decide)

private theorem skipExponent_append {exponent : Bytes} (h : Exponent exponent) (hrest : Ends rest) :
    skipExponent (exponent ++ rest) = .ok ((), rest) := by
  cases h with
  | none =>
    obtain ⟨-, -, hlower, hupper⟩ := hrest.no_number
    rw [List.nil_append, skipExponent, bind_of_ok (peek_apply _),
      if_neg (not_or.2 ⟨hlower, hupper⟩)]
    rfl
  | @digits mark sign digits hmark hsign hdigits =>
    have hmark' : some mark = some (byte 'e') ∨ some mark = some (byte 'E') := by
      rcases hmark with rfl | rfl
      · exact .inl rfl
      · exact .inr rfl
    rw [skipExponent, List.cons_append, bind_of_ok (peek_apply _), List.head?_cons, if_pos hmark',
      bind_of_ok (advance_cons _ _), bind_of_ok (peek_apply _)]
    have hskip := skipDigits_append hdigits hrest.no_number.1
    rcases hsign with rfl | rfl | rfl
    · -- Without a sign the next byte is the first digit.
      obtain ⟨first, others, rfl⟩ := List.exists_cons_of_ne_nil hdigits.1
      have hfirst := hdigits.2 first List.mem_cons_self
      have hne : ¬ (some first = some (byte '+') ∨ some first = some (byte '-')) := by
        rintro (heq | heq) <;>
        · cases heq
          exact absurd hfirst (by decide)
      exact (congrFun (if_neg hne) _).trans hskip
    · exact hskip
    · exact hskip

private theorem skipNumber_append (h : Magnitude bytes) (hrest : Ends rest) :
    skipNumber (bytes ++ rest) = .ok ((), rest) := by
  obtain @⟨whole, fraction, exponent, hwhole, hfraction, hexponent⟩ := h
  -- The digits of the whole part end where the fraction, the exponent or what follows begins.
  have hstop : NoDigit (fraction ++ (exponent ++ rest)) := by
    cases hfraction with
    | none => exact hexponent.noDigit hrest
    | digits =>
      rintro _ ⟨⟩
      decide
  have hdigits : ∀ b ∈ whole, isDigit b := by
    cases hwhole with
    | zero =>
      intro b hb
      rw [List.mem_singleton.1 hb]
      decide
    | digits hfirst _ hothers => exact List.forall_mem_cons.2 ⟨hfirst, hothers⟩
  have hplain : ¬ ((whole.map (·.toNat - 48)).isEmpty = true ∨
      (whole.map (·.toNat - 48)).head? = some 0 ∧ 1 < (whole.map (·.toNat - 48)).length) := by
    cases hwhole with
    | zero => decide
    | @digits first others hfirst hne _ =>
      rintro (hempty | ⟨hzero, -⟩)
      · cases hempty
      · rw [isDigit_iff] at hfirst
        have hfirst' : first.toNat = (byte '0').toNat := by
          have hzero : first.toNat - 48 = 0 := by simpa using hzero
          have : (byte '0').toNat = 48 := by decide
          omega
        exact hne (UInt8.toNat_inj.1 hfirst')
  rw [skipNumber, List.append_assoc, List.append_assoc,
    bind_of_ok (readDigits_append hdigits hstop)]
  dsimp only
  rw [if_neg hplain, bind_of_ok (peek_apply _)]
  cases hfraction with
  | none =>
    rw [List.nil_append, if_neg (hexponent.head?_ne hrest)]
    exact skipExponent_append hexponent hrest
  | digits hdigits =>
    rw [List.cons_append, List.head?_cons, if_pos rfl, bind_of_ok (advance_cons _ _)]
    exact (bind_of_ok (skipDigits_append hdigits (hexponent.noDigit hrest))).trans
      (skipExponent_append hexponent hrest)

theorem simpleEscape?_byte {letter meaning : Char} (h : (letter, meaning) ∈ letters) :
    simpleEscape? (byte letter) = some (byte meaning) := by
  have hall : ∀ pair ∈ letters, simpleEscape? (byte pair.1) = some (byte pair.2) := by decide
  exact hall _ h

private theorem hexValue?_of_hexDigit {b : UInt8} {n : Nat} (h : HexDigit b n) :
    hexValue? b = some n := by
  rw [hexValue?]
  rcases h with ⟨hn, hb⟩ | ⟨hn, hlt, hb | hb⟩
  · rw [if_pos (by omega)]
    exact congrArg some (by omega)
  · rw [if_neg (by omega), if_neg (by omega), if_pos (by omega)]
    exact congrArg some (by omega)
  · rw [if_neg (by omega), if_pos (by omega)]
    exact congrArg some (by omega)

theorem readHex_append {hex : Bytes} {n : Nat} (h : HexUnit hex n) (rest : Bytes) :
    readHex (hex ++ rest) = .ok (n, rest) := by
  obtain ⟨ha, hb, hc, hd⟩ := h
  change readHex (_ :: _ :: _ :: _ :: rest) = _
  simp only [readHex, hexValue?_of_hexDigit ha, hexValue?_of_hexDigit hb, hexValue?_of_hexDigit hc,
    hexValue?_of_hexDigit hd]

section Reading

variable {escape : JsonReader Bytes} {f b : UInt8} {fuel content contents : Bytes}

theorem readStringWith_end (escape : JsonReader Bytes) (f : UInt8) (fuel rest : Bytes) :
    readStringWith escape (f :: fuel) (byte '"' :: rest) = .ok ([], rest) := by
  rw [readStringWith, bind_of_ok (next_cons _ _)]
  rfl

theorem readStringWith_plain (hquote : b ≠ byte '"') (hslash : b ≠ byte '\\')
    (hcontrol : 32 ≤ b.toNat) (h : readStringWith escape fuel input = .ok (contents, rest)) :
    readStringWith escape (f :: fuel) (b :: input) = .ok (b :: contents, rest) := by
  rw [readStringWith, bind_of_ok (next_cons _ _)]
  dsimp only
  rw [if_neg hquote, if_neg hslash, if_neg (Nat.not_lt_of_le hcontrol), bind_of_ok h]
  rfl

theorem readStringWith_escape {between : Bytes} (hescape : escape input = .ok (content, between))
    (h : readStringWith escape fuel between = .ok (contents, rest)) :
    readStringWith escape (f :: fuel) (byte '\\' :: input) = .ok (content ++ contents, rest) := by
  rw [readStringWith, bind_of_ok (next_cons _ _)]
  dsimp only
  rw [if_neg (by decide), if_pos rfl, bind_of_ok hescape, bind_of_ok h]
  rfl

end Reading

private theorem skipEscape_letter {letter meaning : Char} (h : (letter, meaning) ∈ letters)
    (rest : Bytes) :
    skipEscape (byte letter :: rest) = .ok ([], rest) := by
  rw [skipEscape, bind_of_ok (next_cons _ _)]
  dsimp only
  rw [simpleEscape?_byte h]
  rfl

private theorem skipEscape_unit {hex : Bytes} {n : Nat} (h : HexUnit hex n) (rest : Bytes) :
    skipEscape (byte 'u' :: (hex ++ rest)) = .ok ([], rest) := by
  have hhex : (discard readHex : JsonReader Unit) (hex ++ rest) = .ok ((), rest) := by
    change (readHex (hex ++ rest) >>= fun pair => Except.ok ((), pair.2)) = _
    rw [readHex_append h]
    rfl
  rw [skipEscape, bind_of_ok (next_cons _ _)]
  dsimp only
  rw [if_neg (by decide), if_pos rfl, bind_of_ok hhex]
  rfl

private theorem readStringWith_body {body fuel : Bytes} (h : Body body)
    (hfuel : body.length < fuel.length) (rest : Bytes) :
    ∃ content, readStringWith skipEscape fuel (body ++ byte '"' :: rest) = .ok (content, rest) := by
  induction h generalizing fuel with
  | nil =>
    obtain ⟨f, fuel, rfl⟩ := List.exists_cons_of_length_pos (Nat.zero_lt_of_lt hfuel)
    exact ⟨[], readStringWith_end _ f fuel rest⟩
  | plain hquote hslash hcontrol _ ih =>
    obtain ⟨f, fuel, rfl⟩ := List.exists_cons_of_length_pos (Nat.zero_lt_of_lt hfuel)
    obtain ⟨content, hread⟩ := ih (Nat.lt_of_succ_lt_succ hfuel)
    exact ⟨_, readStringWith_plain hquote hslash hcontrol hread⟩
  | letter hletter _ ih =>
    obtain ⟨f, fuel, rfl⟩ := List.exists_cons_of_length_pos (Nat.zero_lt_of_lt hfuel)
    rw [List.length_cons, List.length_cons, List.length_cons] at hfuel
    obtain ⟨content, hread⟩ := @ih fuel (by omega)
    exact ⟨_, readStringWith_escape (skipEscape_letter hletter _) hread⟩
  | unit hhex _ ih =>
    obtain ⟨f, fuel, rfl⟩ := List.exists_cons_of_length_pos (Nat.zero_lt_of_lt hfuel)
    rw [List.length_cons, List.length_cons, List.length_cons, List.length_append] at hfuel
    obtain ⟨content, hread⟩ := @ih fuel (by omega)
    rw [List.cons_append, List.cons_append, List.append_assoc]
    exact ⟨_, readStringWith_escape (skipEscape_unit hhex _) hread⟩

private theorem skipString_append {body : Bytes} (h : Body body) (rest : Bytes) :
    skipString (body ++ byte '"' :: rest) = .ok ((), rest) := by
  have hfuel : body.length < (body ++ byte '"' :: rest).length := by
    rw [List.length_append, List.length_cons]
    omega
  obtain ⟨content, hread⟩ := readStringWith_body h hfuel rest
  rw [skipString, bind_of_ok (get_apply _)]
  change (readStringWith skipEscape _ _ >>= fun pair => Except.ok ((), pair.2)) = _
  rw [hread]
  rfl

private theorem skipKey_append {before body between : Bytes} (hbefore : Blank before)
    (hbody : Body body) (hbetween : Blank between) (rest : Bytes) :
    skipKey (before ++ (inQuotes body ++ (between ++ byte ':' :: rest))) = .ok ((), rest) := by
  have hquoted : inQuotes body ++ (between ++ byte ':' :: rest) =
      byte '"' :: (body ++ byte '"' :: (between ++ byte ':' :: rest)) := by
    rw [inQuotes, List.cons_append, List.append_assoc]
    rfl
  rw [hquoted, skipKey, bind_of_ok (peekToken_cons hbefore (by decide) _)]
  dsimp only
  rw [if_neg (by decide), bind_of_ok (advance_cons _ _), bind_of_ok (skipString_append hbody _),
    bind_of_ok (peekToken_cons hbetween (by decide) _)]
  exact congrFun (if_pos rfl) _

private theorem skipToValue_append {bracket : Bracket} {lead : Bytes} (h : Lead bracket lead)
    (input : Bytes) :
    ∃ blank, Blank blank ∧ blank.length ≤ lead.length ∧
      bracket.skipToValue (lead ++ input) = .ok ((), blank ++ input) := by
  cases h with
  | list h => exact ⟨lead, h, Nat.le_refl _, rfl⟩
  | object hbefore hbody hbetween hafter =>
    refine ⟨_, hafter, ?_, ?_⟩
    · simp only [List.length_append, List.length_cons]
      omega
    · simp only [List.append_assoc, List.cons_append]
      exact skipKey_append hbefore hbody hbetween _

private theorem skipOpening_append {bracket : Bracket} {lead : Bytes} {b : UInt8}
    (h : Lead bracket lead) (hb : Starts b) (outer : List Bracket) (rest : Bytes) :
    ∃ blank, Blank blank ∧ blank.length ≤ lead.length ∧
      skipOpening bracket outer (bracket.opening :: (lead ++ b :: rest)) =
        .ok ((.value, bracket :: outer), blank ++ b :: rest) := by
  cases h with
  | list h =>
    refine ⟨[], nofun, Nat.zero_le _, ?_⟩
    rw [skipOpening, bind_of_ok (advance_cons _ _), bind_of_ok (peekToken_cons h hb.1 _)]
    dsimp only
    exact congrFun (if_neg hb.2.2.1) _
  | object hbefore hbody hbetween hafter =>
    refine ⟨_, hafter, by simp only [List.length_append, List.length_cons]; omega, ?_⟩
    have hkey := skipKey_append blank_nil hbody hbetween
    simp only [List.append_assoc, List.cons_append, List.nil_append, inQuotes] at hkey ⊢
    rw [skipOpening, bind_of_ok (advance_cons _ _),
      bind_of_ok (peekToken_cons hbefore (by decide) _)]
    dsimp only
    rw [if_neg (by decide)]
    exact bind_of_ok (hkey _)

private theorem skipOpening_closing (bracket : Bracket) {blank : Bytes} (h : Blank blank)
    (outer : List Bracket) (rest : Bytes) :
    skipOpening bracket outer (bracket.opening :: (blank ++ bracket.closing :: rest)) =
      .ok ((.behind, outer), rest) := by
  have hblank : isBlank bracket.closing = false := by cases bracket <;> decide
  rw [skipOpening, bind_of_ok (advance_cons _ _), bind_of_ok (peekToken_cons h hblank _)]
  dsimp only
  rw [if_pos rfl]
  rfl

private theorem skipBehind_comma {bracket : Bracket} {blank lead : Bytes} (hblank : Blank blank)
    (h : Lead bracket lead) (outer : List Bracket) (rest : Bytes) :
    ∃ blank', Blank blank' ∧ blank'.length ≤ lead.length ∧
      skipBehind bracket outer (blank ++ byte ',' :: (lead ++ rest)) =
        .ok ((.value, bracket :: outer), blank' ++ rest) := by
  obtain ⟨blank', hblank', hlength, hskip⟩ := skipToValue_append h rest
  refine ⟨blank', hblank', hlength, ?_⟩
  rw [skipBehind, bind_of_ok (peekToken_cons hblank (by decide) _)]
  dsimp only
  rw [if_pos rfl, bind_of_ok (advance_cons _ _), bind_of_ok hskip]
  rfl

private theorem skipBehind_closing (bracket : Bracket) {blank : Bytes} (hblank : Blank blank)
    (outer : List Bracket) (rest : Bytes) :
    skipBehind bracket outer (blank ++ bracket.closing :: rest) = .ok ((.behind, outer), rest) := by
  have hb : isBlank bracket.closing = false ∧ bracket.closing ≠ byte ',' := by
    cases bracket <;> decide
  rw [skipBehind, bind_of_ok (peekToken_cons hblank hb.1 _)]
  dsimp only
  rw [if_neg hb.2, if_pos rfl]
  rfl

/-- Values without parts are left out in one step. -/
inductive Plain : Bytes → Prop where
  | word {first : Char} {others : List Char}
      (h : (first, others) ∈ [('n', ['u', 'l', 'l']), ('t', ['r', 'u', 'e']),
      ('f', ['a', 'l', 's', 'e'])]) : Plain ((first :: others).map byte)
  | number {bytes : Bytes} (h : Magnitude bytes) : Plain bytes
  | negative {bytes : Bytes} (h : Magnitude bytes) : Plain (byte '-' :: bytes)
  | string {body : Bytes} (h : Body body) : Plain (inQuotes body)

private theorem skipStart_plain {blank : Bytes} (hblank : Blank blank) (h : Plain bytes)
    (hrest : Ends rest) (stack : List Bracket) :
    skipStart stack (blank ++ (bytes ++ rest)) = .ok ((.behind, stack), rest) := by
  cases h with
  | @word first others h =>
    have hword := readWord_append others rest
    simp only [List.mem_cons, List.not_mem_nil, or_false, Prod.mk.injEq] at h
    rw [List.map_cons, List.cons_append, skipStart]
    rcases h with ⟨rfl, rfl⟩ | ⟨rfl, rfl⟩ | ⟨rfl, rfl⟩ <;>
    · rw [bind_of_ok (peekToken_cons hblank (by decide) _)]
      exact (bind_of_ok (advance_cons _ _)).trans (bind_of_ok hword)
  | negative h =>
    rw [List.cons_append, skipStart, bind_of_ok (peekToken_cons hblank (by decide) _)]
    exact (bind_of_ok (advance_cons _ _)).trans (bind_of_ok (skipNumber_append h hrest))
  | @string body h =>
    have hquoted : inQuotes body ++ rest = byte '"' :: (body ++ byte '"' :: rest) := by
      rw [inQuotes, List.cons_append, List.append_assoc]
      rfl
    rw [hquoted, skipStart, bind_of_ok (peekToken_cons hblank (by decide) _)]
    exact (bind_of_ok (advance_cons _ _)).trans (bind_of_ok (skipString_append h rest))
  | number h =>
    obtain ⟨b, others, rfl, hb⟩ := h.starts
    have hskip := skipNumber_append h hrest
    have hne {c : Char} (hc : isDigit (byte c) = false) : ¬ b = byte c := by
      rintro rfl
      rw [hb] at hc
      cases hc
    rw [List.cons_append] at hskip ⊢
    rw [skipStart, bind_of_ok (peekToken_cons hblank (starts_of_isDigit hb).1 _)]
    dsimp only
    rw [if_neg (hne (by decide)), if_neg (hne (by decide)), if_neg (hne (by decide)),
      if_neg (hne (by decide)), if_neg (hne (by decide)), if_neg (hne (by decide)), if_pos hb,
      bind_of_ok hskip]
    rfl

private theorem skipStart_bracket {bracket : Bracket} {blank : Bytes} (hblank : Blank blank)
    (stack : List Bracket) (rest : Bytes) : skipStart stack (blank ++ bracket.opening :: rest) =
      skipOpening bracket stack (bracket.opening :: rest) := by
  cases bracket <;>
  · rw [skipStart, bind_of_ok (peekToken_cons hblank (by decide) _)]
    rfl

section Steps

variable {phase : Phase} {stack outer : List Bracket} {bracket : Bracket} {fuel : Bytes}

private theorem skipFrom_value (h : skipStart stack input = .ok ((phase, outer), rest))
    (hrest : rest.length < input.length) (hfuel : input.length ≤ fuel.length) :
    ∃ left : Bytes, rest.length ≤ left.length ∧
      skipFrom fuel .value stack input = skipFrom left phase outer rest := by
  obtain ⟨f, fuel, rfl⟩ :=
    List.exists_cons_of_length_pos (Nat.lt_of_lt_of_le (Nat.zero_lt_of_lt hrest) hfuel)
  refine ⟨fuel, Nat.le_of_lt_succ (Nat.lt_of_lt_of_le hrest hfuel), ?_⟩
  rw [skipFrom, bind_of_ok h]

private theorem skipFrom_behind (h : skipBehind bracket outer input = .ok ((phase, stack), rest))
    (hrest : rest.length < input.length) (hfuel : input.length ≤ fuel.length) :
    ∃ left : Bytes, rest.length ≤ left.length ∧
      skipFrom fuel .behind (bracket :: outer) input = skipFrom left phase stack rest := by
  obtain ⟨f, fuel, rfl⟩ :=
    List.exists_cons_of_length_pos (Nat.lt_of_lt_of_le (Nat.zero_lt_of_lt hrest) hfuel)
  refine ⟨fuel, Nat.le_of_lt_succ (Nat.lt_of_lt_of_le hrest hfuel), ?_⟩
  rw [skipFrom, bind_of_ok h]

end Steps

/-- A skipping reader at the value goes on behind it, in whatever brackets, with fuel enough for the
rest. -/
def Skipped (bytes : Bytes) : Prop :=
  ∀ blank rest stack (fuel : Bytes),
    Blank blank → Ends rest → (blank ++ (bytes ++ rest)).length ≤ fuel.length →
    ∃ left : Bytes, rest.length ≤ left.length ∧
      skipFrom fuel .value stack (blank ++ (bytes ++ rest)) = skipFrom left .behind stack rest

/-- The same for all values up to the end of a list or object. -/
def SkippedUpTo (bracket : Bracket) (bytes : Bytes) : Prop :=
  ∀ blank rest outer (fuel : Bytes),
    Blank blank → (blank ++ (bytes ++ bracket.closing :: rest)).length ≤ fuel.length →
    ∃ left : Bytes, rest.length ≤ left.length ∧
      skipFrom fuel .value (bracket :: outer) (blank ++ (bytes ++ bracket.closing :: rest)) =
        skipFrom left .behind outer rest

private theorem Plain.length_pos (h : Plain bytes) : 0 < bytes.length := by
  cases h with
  | word | negative | string => exact Nat.succ_pos _
  | number h =>
    obtain ⟨b, rest, rfl, -⟩ := h.starts
    exact Nat.succ_pos _

private theorem skipped_plain (h : Plain bytes) : Skipped bytes := by
  intro blank rest stack fuel hblank hrest hfuel
  refine skipFrom_value (skipStart_plain hblank h hrest stack) ?_ hfuel
  have := h.length_pos
  simp only [List.length_append]
  omega

private theorem skipped_empty (bracket : Bracket) {blank : Bytes} (h : Blank blank) :
    Skipped (bracket.opening :: (blank ++ [bracket.closing])) := by
  intro before rest stack fuel hbefore hrest hfuel
  have hopen : skipStart stack
    (before ++ (bracket.opening :: (blank ++ [bracket.closing]) ++ rest)) =
      .ok ((.behind, stack), rest) := by
    rw [List.cons_append, skipStart_bracket hbefore, List.append_assoc]
    exact skipOpening_closing bracket h stack rest
  refine skipFrom_value hopen ?_ hfuel
  simp only [List.length_append, List.length_cons]
  omega

private theorem skipped_items {bracket : Bracket} {lead items : Bytes} (hlead : Lead bracket lead)
    (hitems : Items bracket items) (h : SkippedUpTo bracket items) :
    Skipped (bracket.opening :: (lead ++ (items ++ [bracket.closing]))) := by
  intro before rest stack fuel hbefore hrest hfuel
  obtain ⟨b, others, rfl, hb⟩ := hitems.starts
  obtain ⟨blank, hblank, hlength, hopening⟩ :=
    skipOpening_append hlead hb stack (others ++ bracket.closing :: rest)
  have hopen : skipStart stack
    (before ++ (bracket.opening :: (lead ++ (b :: others ++ [bracket.closing])) ++ rest)) =
      .ok ((.value, bracket :: stack), blank ++ (b :: others ++ bracket.closing :: rest)) := by
    rw [List.cons_append, skipStart_bracket hbefore, List.append_assoc, List.append_assoc]
    exact hopening
  have hshorter : (blank ++ (b :: others ++ bracket.closing :: rest)).length <
      (before ++
        (bracket.opening :: (lead ++ (b :: others ++ [bracket.closing])) ++ rest)).length := by
    simp only [List.length_append, List.length_cons, List.length_nil]
    omega
  obtain ⟨left, hleft, hfirst⟩ := skipFrom_value hopen hshorter hfuel
  obtain ⟨last, hlast, hinner⟩ := h blank rest stack left hblank hleft
  exact ⟨last, hlast, hfirst.trans hinner⟩

private theorem skippedUpTo_last {bracket : Bracket} {value behind : Bytes} (h : Skipped value)
    (hbehind : Blank behind) :
    SkippedUpTo bracket (value ++ behind) := by
  intro blank rest outer fuel hblank hfuel
  rw [List.append_assoc] at hfuel ⊢
  obtain ⟨left, hleft, hvalue⟩ :=
    h blank (behind ++ bracket.closing :: rest) (bracket :: outer) fuel hblank
    ((ends_closing bracket rest).of_blank hbehind) hfuel
  have hshorter : rest.length < (behind ++ bracket.closing :: rest).length := by
    rw [List.length_append, List.length_cons]
    omega
  obtain ⟨last, hlast, hclosing⟩ :=
    skipFrom_behind (skipBehind_closing bracket hbehind outer rest) hshorter hleft
  exact ⟨last, hlast, hvalue.trans hclosing⟩

private theorem skippedUpTo_more {bracket : Bracket} {value behind lead items : Bytes}
    (h : Skipped value) (hbehind : Blank behind) (hlead : Lead bracket lead)
    (hitems : SkippedUpTo bracket items) :
    SkippedUpTo bracket (value ++ (behind ++ byte ',' :: (lead ++ items))) := by
  intro blank rest outer fuel hblank hfuel
  simp only [List.append_assoc, List.cons_append] at hfuel ⊢
  obtain ⟨left, hleft, hvalue⟩ :=
    h blank (behind ++ byte ',' :: (lead ++ (items ++ bracket.closing :: rest)))
    (bracket :: outer) fuel hblank ((ends_comma _).of_blank hbehind) hfuel
  obtain ⟨blank', hblank', hlength, hcomma⟩ :=
    skipBehind_comma hbehind hlead outer (items ++ bracket.closing :: rest)
  have hshorter : (blank' ++ (items ++ bracket.closing :: rest)).length <
      (behind ++ byte ',' :: (lead ++ (items ++ bracket.closing :: rest))).length := by
    simp only [List.length_append, List.length_cons]
    omega
  obtain ⟨between, hbetween, hnext⟩ := skipFrom_behind hcomma hshorter hleft
  obtain ⟨last, hlast, hothers⟩ := hitems blank' rest outer between hblank' hbetween
  exact ⟨last, hlast, hvalue.trans (hnext.trans hothers)⟩

mutual

private theorem skipped_value {bytes : Bytes} : Value bytes → Skipped bytes
  | .null => skipped_plain (.word (.head _))
  | .true => skipped_plain (.word (.tail _ (.head _)))
  | .false => skipped_plain (.word (.tail _ (.tail _ (.head _))))
  | .number h => skipped_plain (.number h)
  | .negative h => skipped_plain (.negative h)
  | .string h => skipped_plain (.string h)
  | .empty bracket h => skipped_empty bracket h
  | .items _ hlead h => skipped_items hlead h (skippedUpTo_items h)

private theorem skippedUpTo_items {bracket : Bracket} {bytes : Bytes} :
    Items bracket bytes → SkippedUpTo bracket bytes
  | .last _ h hbehind => skippedUpTo_last (skipped_value h) hbehind
  | .more _ h hbehind hlead hrest =>
    skippedUpTo_more (skipped_value h) hbehind hlead (skippedUpTo_items hrest)

end

/-- Whatever a value is, exactly its bytes and the blanks in front of it are left out. -/
theorem skipValue_append {blank value rest : Bytes} (hblank : Blank blank) (h : Value value)
    (hrest : Ends rest) :
    skipValue (blank ++ (value ++ rest)) = .ok ((), rest) := by
  obtain ⟨left, -, hskip⟩ :=
    skipped_value h blank rest [] (blank ++ (value ++ rest)) hblank hrest (Nat.le_refl _)
  rw [skipValue, bind_of_ok (get_apply _), hskip]
  cases left <;> rfl

end FramedTree.Json
