import Mathlib.Algebra.Group.Nat.Defs
import FramedTree.Header

/-! # Messages read back

A reader takes some bytes to a value if it does so whatever follows the bytes. Readers that take
bytes to values can be put together in the way in which wire forms are, and every header can be read
back from its wire form.
-/

namespace FramedTree

variable {α β : Type}

namespace Varint

private theorem decodeFrom_encode_append (place n : Nat) (rest : Bytes)
    (hplace : place < maxSize) (h : n * 128 ^ place < 2 ^ 64) :
    decodeFrom place (encode n ++ rest) = some (n, (encode n).length) := by
  fun_induction encode n generalizing place with
  | case1 n hn =>
    have hb : n.toUInt8.toNat = n := by simp [Nat.toUInt8, Nat.mod_eq_of_lt (show n < 256 by omega)]
    have hlast : ¬ (place + 1 = maxSize ∧ 1 < n) := by
      rintro ⟨heq, hbig⟩
      have : place = 9 := by simp only [maxSize] at heq; omega
      subst this
      omega
    simp only [List.cons_append, List.nil_append, decodeFrom, hb, hn, if_true, if_neg hlast,
      List.length_cons, List.length_nil]
  | case2 n hn ih =>
    have hb : (n % 128 + 128).toUInt8.toNat = n % 128 + 128 := by
      simp [Nat.toUInt8, Nat.mod_eq_of_lt (show n % 128 + 128 < 256 by omega)]
    have hlast : place + 1 ≠ maxSize := by
      intro heq
      have : place = 9 := by simp only [maxSize] at heq; omega
      subst this
      omega
    have hrest : n / 128 * 128 ^ (place + 1) < 2 ^ 64 := by
      refine Nat.lt_of_le_of_lt ?_ h
      rw [Nat.pow_succ, Nat.mul_comm (128 ^ place), ← Nat.mul_assoc]
      exact Nat.mul_le_mul_right _ (Nat.div_mul_le_self n 128)
    have hgo := ih (place + 1) (by omega) hrest
    rw [List.cons_append, decodeFrom, hb, if_neg (by omega), if_neg hlast, hgo]
    simp only [Option.map_some, Option.some.injEq, Prod.mk.injEq, List.length_cons, and_true]
    omega

/-- A varint reads back, whatever follows it. -/
theorem decode_encode_append (n : Nat) (rest : Bytes) (h : n < 2 ^ 64) :
    decode (encode n ++ rest) = some (n, size n) := by
  rw [← length_encode]
  exact decodeFrom_encode_append 0 n rest (by decide) (by simpa using h)

end Varint

/-- The reader takes exactly these bytes, whatever follows them, and gives the value. -/
def Reads (reader : Reader α) (bytes : Bytes) (value : α) : Prop :=
  ∀ rest, reader (.ofBytes (bytes ++ rest)) = .ok (value, .ofBytes rest)

namespace Reads

private theorem pure (value : α) : Reads (Pure.pure value) [] value := fun _ => rfl

private theorem bind {reader : Reader α} {next : α → Reader β} {bytes more : Bytes} {value : α}
    {result : β} (h : Reads reader bytes value) (hnext : Reads (next value) more result) :
    Reads (reader >>= next) (bytes ++ more) result := by
  intro rest
  have hfirst := h (more ++ rest)
  rw [← List.append_assoc] at hfirst
  change (reader (.ofBytes (bytes ++ more ++ rest))).bind (fun pair => next pair.1 pair.2) = _
  rw [hfirst]
  exact hnext rest

private theorem bind_last {reader : Reader α} {next : α → Reader β} {bytes : Bytes} {value : α}
    {result : β} (h : Reads reader bytes value) (hnext : Reads (next value) [] result) :
    Reads (reader >>= next) bytes result := by
  have hbind := Reads.bind h hnext
  rwa [List.append_nil] at hbind

private theorem bind_first {reader : Reader α} {next : α → Reader β} {bytes : Bytes} {value : α}
    {result : β} (h : Reads reader [] value) (hnext : Reads (next value) bytes result) :
    Reads (reader >>= next) bytes result := Reads.bind h hnext

private theorem bind_pure {reader : Reader α} {bytes : Bytes} {value : α} (f : α → β)
    (h : Reads reader bytes value) : Reads (do return f (← reader)) bytes (f value) :=
  Reads.bind_last h (Reads.pure (f value))

private theorem within {reader : Reader α} {bytes : Bytes} {value : α} (owner field : String)
    (h : Reads reader bytes value) : Reads (Reader.within owner field reader) bytes value := by
  intro rest
  rw [Reader.within, h rest]
  rfl

private theorem varint {n : Nat} (h : n < 2 ^ 64) : Reads Varint.read (Varint.encode n) n := by
  intro rest
  rw [Varint.read, Input.bytes_ofBytes, Varint.decode_encode_append n rest h]
  simp [← Varint.length_encode]

private theorem key {key : Key} (htag : 0 < key.tag) (hsize : key.tag < 2 ^ 28) :
    Reads Key.read key.encode key := by
  have hcode : key.wire.code < 8 := by
    cases key.wire <;> decide
  have hlt : key.toNat < UInt32.size := by
    rw [Key.toNat, UInt32.size]
    omega
  have hmod : key.toNat % 8 = key.wire.code := by
    rw [Key.toNat]
    omega
  have hdiv : key.toNat / 8 = key.tag := by
    rw [Key.toNat]
    omega
  refine Reads.bind_last (Reads.varint (Nat.lt_trans hlt (by decide))) fun rest => ?_
  simp only [hmod, hdiv, WireType.ofCode?_code, if_neg (Nat.not_le_of_lt hlt),
    if_neg (Nat.ne_of_gt htag)]
  rfl

private theorem expect (wire : WireType) : Reads (Field.expect wire wire) [] () := by
  rw [Field.expect, if_pos rfl]
  exact Reads.pure ()

private theorem word (word : UInt64) :
    Reads (Field.readWord .varint) (Varint.encode word.toNat) word := by
  have hread := Reads.bind_pure Nat.toUInt64 (Reads.varint word.toNat_lt)
  rw [Nat.toUInt64, UInt64.ofNat_toNat] at hread
  exact Reads.bind_first (Reads.expect .varint) hread

private theorem bytes (data : Bytes) : Reads (Field.readBytes data.length) data data := by
  intro rest
  have hsize : ¬ (data ++ rest).length < data.length := by simp
  rw [Field.readBytes, Input.size_ofBytes, if_neg hsize]
  simp

private theorem text {text : String} (h : (IdentityHeader.textBytes text).length < 2 ^ 64) :
    Reads (Field.readText .lengthDelimited)
      (Varint.encode (IdentityHeader.textBytes text).length ++ IdentityHeader.textBytes text)
        text := by
  have hutf8 : String.fromUTF8? ⟨(IdentityHeader.textBytes text).toArray⟩ = some text := by
    rw [IdentityHeader.textBytes, Array.toArray_toList, String.fromUTF8?, dif_pos text.isValidUTF8]
    rfl
  refine Reads.bind_first (Reads.expect .lengthDelimited) (Reads.bind (Reads.varint h)
    (Reads.bind_last (Reads.bytes (IdentityHeader.textBytes text)) fun rest => ?_))
  simp only [hutf8]
  rfl

end Reads

/-- The step takes the bytes item by item, from one value to another. -/
inductive Steps (step : α → Reader α) : Bytes → α → α → Prop where
  | done (value : α) : Steps step [] value value
  | next {item rest : Bytes} {first second last : α} (hitem : item ≠ [])
      (hread : Reads (step first) item second)
      (hrest : Steps step rest second last) : Steps step (item ++ rest) first last

namespace Steps

variable {step : α → Reader α} {bytes more : Bytes} {first second last : α}

private theorem append (h : Steps step bytes first second) (hmore : Steps step more second last) :
    Steps step (bytes ++ more) first last := by
  induction h with
  | done => exact hmore
  | next hitem hread hrest ih =>
    rw [List.append_assoc]
    exact .next hitem hread (ih hmore)

private theorem single (hitem : bytes ≠ []) (hread : Reads (step first) bytes last) :
    Steps step bytes first last := by
  have hsteps := Steps.next hitem hread (.done last)
  rwa [List.append_nil] at hsteps

private theorem repeatUntil (h : Steps step bytes first last) (rest : Bytes) {steps : Nat}
    (hsteps : bytes.length ≤ steps) :
    Field.repeatUntil rest.length step steps first (.ofBytes (bytes ++ rest)) =
      .ok (last, .ofBytes rest) := by
  induction h generalizing steps with
  | done value => cases steps <;> simp [Field.repeatUntil]
  | @next item others first second last hitem hread hrest ih =>
    have hlong : 0 < item.length := List.length_pos_iff.2 hitem
    rw [List.length_append] at hsteps
    cases steps with
    | zero => omega
    | succ steps =>
      have hleft : rest.length < (item ++ (others ++ rest)).length := by
        simp only [List.length_append]
        omega
      unfold Field.repeatUntil
      simp only [Input.size_ofBytes, List.append_assoc, if_pos hleft]
      change (step first (.ofBytes (item ++ (others ++ rest)))).bind (fun pair =>
        Field.repeatUntil rest.length step steps pair.1 pair.2) = _
      rw [hread]
      exact ih (by omega)

private theorem delimited (h : Steps step bytes first last) (hlength : bytes.length < 2 ^ 64) :
    Reads (Field.readDelimited step first) (Varint.encode bytes.length ++ bytes) last := by
  refine Reads.bind (Reads.varint hlength) fun rest => ?_
  have hleft : (bytes ++ rest).length - bytes.length = rest.length := by simp
  have hsize : ¬ (bytes ++ rest).length < bytes.length := by simp
  change (if (Input.ofBytes (bytes ++ rest)).size < bytes.length then DecodeFault.underflow.raise
    else Field.repeatUntil ((Input.ofBytes (bytes ++ rest)).size - bytes.length) step
      (Input.ofBytes (bytes ++ rest)).size first) (.ofBytes (bytes ++ rest)) = _
  rw [Input.size_ofBytes, if_neg hsize, hleft]
  exact h.repeatUntil rest (by simp)

private theorem decode [Message α] {payload : Bytes} {draft : α}
    (h : Steps (Message.mergeNext Field.nestingBudget) payload Message.unset draft) :
    Message.decode payload = .ok (Message.settle draft) := by
  have hread := h.repeatUntil [] (Nat.le_refl _)
  rw [List.append_nil] at hread
  have hsettle : (Message.settle <$> Field.repeatUntil 0 (Message.mergeNext Field.nestingBudget)
      payload.length (Message.unset : α)) (.ofBytes payload) =
      .ok (Message.settle draft, .ofBytes []) := by
    change (Field.repeatUntil 0 _ payload.length Message.unset (.ofBytes payload)).bind _ = _
    rw [show Field.repeatUntil 0 _ payload.length Message.unset (.ofBytes payload) = _ from hread]
    rfl
  rw [Message.decode, StateT.run', hsettle]
  rfl

private theorem field [Message α] {budget : Nat} {key : Key} {value : Bytes} {first last : α}
    (htag : 0 < key.tag) (hsize : key.tag < 2 ^ 28)
    (h : Reads (Message.mergeField budget key first) value last) :
    Steps (Message.mergeNext budget) (key.encode ++ value) first last := by
  apply Steps.single
  · intro hnil
    have hlength := congrArg List.length hnil
    rw [List.length_append, Key.encode, Varint.length_encode, Varint.size,
      List.length_nil] at hlength
    omega
  · exact Reads.bind (Reads.key htag hsize) h

private theorem words (words sofar : List UInt64) :
    Steps (fun sofar => do return (← Field.readWord .varint) :: sofar)
      (words.flatMap fun word => Varint.encode word.toNat) sofar (words.reverse ++ sofar) := by
  induction words generalizing sofar with
  | nil => exact .done sofar
  | cons word words ih =>
    rw [List.flatMap_cons, List.reverse_cons, List.append_assoc]
    refine .next ?_ (Reads.bind_pure (· :: sofar) (Reads.word word)) (ih (word :: sofar))
    rw [Varint.encode]
    split <;> simp

private theorem nested [Message α] {budget : Nat} {payload : Bytes} {first last : α}
    (h : Steps (Message.mergeNext budget) payload first last) (hlength : payload.length < 2 ^ 64) :
    Reads (Message.mergeNested (budget + 1) .lengthDelimited first)
      (Varint.encode payload.length ++ payload) last :=
  Reads.bind_first (Reads.expect .lengthDelimited) (h.delimited hlength)

end Steps

namespace Field

private theorem key_size {tag : Nat} (htag : tag < 15) (wire : WireType) :
    (Key.encode ⟨tag, wire⟩).length = Varint.size (8 * tag) := by
  have hone {n : Nat} (hn : n < 128) : Varint.size n = 1 := by
    rw [← Varint.length_encode, Varint.encode, if_pos hn]
    rfl
  have hcode : wire.code < 8 := by
    cases wire <;> decide
  rw [Key.encode, Varint.length_encode]
  change Varint.size (8 * tag + wire.code) = _
  rw [hone (by omega), hone (by omega)]

private theorem length_encodeWord {tag : Nat} (htag : tag < 15) (word : UInt64) :
    (encodeWord tag word).length = wordSize tag word := by
  rw [encodeWord, List.length_append, key_size htag, Varint.length_encode, wordSize]

private theorem length_encodeDelimited {tag : Nat} (htag : tag < 15) (payload : Bytes) :
    (encodeDelimited tag payload).length = delimitedSize tag payload.length := by
  rw [encodeDelimited, List.length_append, List.length_append, key_size htag, Varint.length_encode,
    delimitedSize]

private theorem length_flatMap {encode : α → Bytes} {size : α → Nat}
    (h : ∀ value, (encode value).length = size value) (values : List α) :
    (values.flatMap encode).length = values.foldr (fun value total => size value + total) 0 := by
  induction values with
  | nil => rfl
  | cons value values ih => rw [List.flatMap_cons, List.length_append, ih, h, List.foldr_cons]

private theorem length_encodeWords {tag : Nat} (htag : tag < 15) (words : List UInt64) :
    (encodeWords tag words).length = wordsSize tag words := by
  rw [encodeWords, wordsSize]
  split
  · rfl
  · rw [length_encodeDelimited htag,
      length_flatMap fun word : UInt64 => Varint.length_encode word.toNat]

private theorem length_le_encodeDelimited (tag : Nat) (payload : Bytes) :
    payload.length ≤ (encodeDelimited tag payload).length := by
  rw [encodeDelimited, List.length_append]
  exact Nat.le_add_left _ _

private theorem steps_word [Message α] {budget tag : Nat} {word : UInt64} {first last : α}
    (htag : 0 < tag) (hsize : tag < 15)
    (h : Reads (Message.mergeField budget ⟨tag, .varint⟩ first) (Varint.encode word.toNat) last) :
    Steps (Message.mergeNext budget) (encodeWord tag word) first last :=
  Steps.field htag (Nat.lt_trans hsize (by decide)) h

private theorem steps_delimited [Message α] {budget tag : Nat} {payload : Bytes} {first last : α}
    (htag : 0 < tag) (hsize : tag < 15)
    (h : Reads (Message.mergeField budget ⟨tag, .lengthDelimited⟩ first)
      (Varint.encode payload.length ++ payload) last) :
    Steps (Message.mergeNext budget) (encodeDelimited tag payload) first last := by
  rw [encodeDelimited, List.append_assoc]
  exact Steps.field htag (Nat.lt_trans hsize (by decide)) h

private theorem steps_words [Message α] {budget tag : Nat} {words sofar : List UInt64}
    (put : List UInt64 → α) (htag : 0 < tag) (hsize : tag < 15)
    (hlength : (encodeWords tag words).length < 2 ^ 64)
    (h : ∀ {bytes : Bytes} {result : List UInt64},
      Reads (readWords .lengthDelimited sofar) bytes result →
      Reads (Message.mergeField budget ⟨tag, .lengthDelimited⟩ (put sofar)) bytes (put result)) :
    Steps (Message.mergeNext budget) (encodeWords tag words) (put sofar)
      (put (words.reverse ++ sofar)) := by
  rw [encodeWords] at hlength ⊢
  split
  case isTrue hempty =>
    rw [List.isEmpty_iff.1 hempty]
    exact .done _
  case isFalse hempty =>
    rw [if_neg hempty] at hlength
    have hpayload := Nat.lt_of_le_of_lt (length_le_encodeDelimited _ _) hlength
    apply steps_delimited htag hsize
    apply h
    exact (Steps.words words sofar).delimited hpayload

end Field

/-- Messages that are read back from their wire form, as long as its length fits a 64-bit number. -/
class LawfulMessage (α : Type) [Message α] : Prop where
  length_encode : ∀ value : α, (Message.encode value).length = Message.encodedLen value
  decode_encode : ∀ value : α, (Message.encode value).length < 2 ^ 64 →
    Message.decode (Message.encode value) = .ok value

namespace Descriptor

private theorem steps (descriptor : Descriptor) (sofar : List UInt64) (budget : Nat)
    (hlength : (Message.encode descriptor).length < 2 ^ 64) :
    Steps (Message.mergeNext budget) (Message.encode descriptor) (⟨sofar⟩ : Descriptor)
      ⟨descriptor.coordinates.reverse ++ sofar⟩ :=
  Field.steps_words Descriptor.mk (by decide) (by decide) hlength
    fun h => Reads.within _ _ (Reads.bind_pure Descriptor.mk h)

instance : LawfulMessage Descriptor where
  length_encode value := Field.length_encodeWords (by decide) _
  decode_encode value hlength := by
    rw [(steps value [] _ hlength).decode]
    simp [Message.settle, settle]

end Descriptor

namespace DocumentHeader

instance : LawfulMessage DocumentHeader where
  length_encode value := Field.length_encodeWords (by decide) _
  decode_encode value hlength := by
    have hsteps : Steps (Message.mergeNext Field.nestingBudget) (Message.encode value)
        (Message.unset : DocumentHeader) ⟨value.entries.reverse ++ []⟩ :=
      Field.steps_words DocumentHeader.mk (by decide) (by decide) hlength
        fun h => Reads.within _ _ (Reads.bind_pure DocumentHeader.mk h)
    rw [hsteps.decode]
    simp [Message.settle, settle]

end DocumentHeader

namespace IdentityHeader

private theorem yearOfWord_yearToWord (year : Int32) : yearOfWord (yearToWord year) = year := by
  unfold yearOfWord yearToWord
  apply Int32.toBitVec_inj.1
  apply BitVec.eq_of_getLsbD_eq
  intro i hi
  have hwide : i < 64 := Nat.lt_trans hi (by decide)
  simp only [UInt32.toBitVec_toInt32, UInt64.toBitVec_toUInt32, Int64.toBitVec_toUInt64,
    Int32.toBitVec_toInt64, BitVec.getLsbD_setWidth, BitVec.getLsbD_signExtend, hi, hwide, if_true,
    decide_true, Bool.true_and]

instance : LawfulMessage IdentityHeader where
  length_encode value := by
    change (encode value).length = encodedLen value
    rw [encode, encodedLen, List.length_append]
    congr 1
    · cases value.firstName with
      | none => rfl
      | some name => exact Field.length_encodeDelimited (by decide) _
    · cases value.birthYear with
      | none => rfl
      | some year => exact Field.length_encodeWord (by decide) _
  decode_encode value hlength := by
    obtain ⟨firstName, birthYear⟩ := value
    have hname : Steps (Message.mergeNext Field.nestingBudget)
        (firstName.elim [] fun name => Field.encodeDelimited 1 (textBytes name))
        ({} : IdentityHeader) { firstName } := by
      cases firstName with
      | none => exact .done _
      | some name =>
        have hshort : (textBytes name).length < 2 ^ 64 := by
          refine Nat.lt_of_le_of_lt ?_ hlength
          refine Nat.le_trans (Field.length_le_encodeDelimited 1 _) ?_
          change _ ≤ (encode { firstName := some name, birthYear }).length
          rw [encode, List.length_append]
          exact Nat.le_add_right _ _
        exact Field.steps_delimited (by decide) (by decide) (Reads.within _ _ (Reads.bind_pure
          (fun name => ({ firstName := some name } : IdentityHeader)) (Reads.text hshort)))
    have hyear : Steps (Message.mergeNext Field.nestingBudget)
        (birthYear.elim [] fun year => Field.encodeWord 2 (yearToWord year))
        ({ firstName } : IdentityHeader) { firstName, birthYear } := by
      cases birthYear with
      | none => exact .done _
      | some year =>
        have hread := Reads.within "IdentityHeader" "birth_year" (Reads.bind_pure
          (fun word => ({ firstName, birthYear := some (yearOfWord word) } : IdentityHeader))
          (Reads.word (yearToWord year)))
        rw [yearOfWord_yearToWord] at hread
        exact Field.steps_word (by decide) (by decide) hread
    exact (hname.append hyear).decode

end IdentityHeader

namespace EntryHeader

private theorem steps_identification (word : UInt64) :
    Steps (Message.mergeNext Field.nestingBudget)
      (if word = 0 then [] else Field.encodeWord 1 word) ({} : EntryHeader)
      { identification := word } := by
  split
  case isTrue h =>
    rw [h]
    exact .done _
  case isFalse =>
    exact Field.steps_word (by decide) (by decide) (Reads.within _ _
      (Reads.bind_pure (fun word => ({ identification := word } : EntryHeader)) (Reads.word word)))

private theorem steps_secretIdentity (header : EntryHeader) (position : Option UInt64)
    (hunset : header.secretIdentity = none) :
    Steps (Message.mergeNext Field.nestingBudget)
      (position.elim [] fun position => Field.encodeWord 2 position)
      header { header with secretIdentity := position } := by
  obtain ⟨identification, secretIdentity, approver, reviewers⟩ := header
  cases hunset
  cases position with
  | none => exact .done _
  | some word =>
    exact Field.steps_word (by decide) (by decide) (Reads.within _ _
      (Reads.bind_pure
        (fun word => (⟨identification, some word, approver, reviewers⟩ : EntryHeader))
        (Reads.word word)))

private theorem reads_nested {descriptor : Descriptor}
    (hlength : (Message.encode descriptor).length < 2 ^ 64) :
    Reads (Message.mergeNested Field.nestingBudget .lengthDelimited (Message.unset : Descriptor))
      (Varint.encode (Message.encode descriptor).length ++ Message.encode descriptor)
        descriptor.settle := by
  have hsteps := Descriptor.steps descriptor [] 99 hlength
  rw [List.append_nil] at hsteps
  exact hsteps.nested hlength

private theorem steps_approver (header : EntryHeader) (approver : Option Descriptor)
    (hunset : header.approver = none)
    (hlength : ∀ descriptor,
      approver = some descriptor → (Message.encode descriptor).length < 2 ^ 64) :
    Steps (Message.mergeNext Field.nestingBudget)
      (approver.elim [] fun approver => Field.encodeDelimited 3 (Message.encode approver))
      header { header with approver := approver.map Descriptor.settle } := by
  obtain ⟨identification, secretIdentity, unset, reviewers⟩ := header
  cases hunset
  cases approver with
  | none => exact .done _
  | some descriptor =>
    have hnested := reads_nested (hlength descriptor rfl)
    exact Field.steps_delimited (by decide) (by decide) (Reads.within "DataHeader" "approver"
      (Reads.bind_pure
        (fun draft => (⟨identification, secretIdentity, some draft, reviewers⟩ : EntryHeader))
        hnested))

private theorem steps_reviewers (header : EntryHeader) (reviewers : List Descriptor)
    (hlength : ∀ descriptor ∈ reviewers, (Message.encode descriptor).length < 2 ^ 64) :
    Steps (Message.mergeNext Field.nestingBudget)
      (reviewers.flatMap fun reviewer => Field.encodeDelimited 4 (Message.encode reviewer))
      header
      { header with reviewers := (reviewers.map Descriptor.settle).reverse ++ header.reviewers } := by
  induction reviewers generalizing header with
  | nil => exact .done _
  | cons descriptor reviewers ih =>
    have hnested := reads_nested (hlength descriptor List.mem_cons_self)
    have hone : Steps (Message.mergeNext Field.nestingBudget)
        (Field.encodeDelimited 4 (Message.encode descriptor)) header
        { header with reviewers := descriptor.settle :: header.reviewers } :=
      Field.steps_delimited (by decide) (by decide) (Reads.within "DataHeader" "reviewers"
        (Reads.bind_pure
          (fun draft => ({ header with reviewers := draft :: header.reviewers } : EntryHeader))
          hnested))
    have hrest := ih { header with reviewers := descriptor.settle :: header.reviewers }
      fun other hother => hlength other (List.mem_cons_of_mem _ hother)
    rw [List.flatMap_cons, List.map_cons, List.reverse_cons, List.append_assoc]
    exact hone.append hrest

private theorem settle_settle (descriptor : Descriptor) :
    descriptor.settle.settle = descriptor := by
  simp [Descriptor.settle]

private theorem length_reviewers (reviewers : List Descriptor) :
    (reviewers.flatMap fun reviewer => Field.encodeDelimited 4 (Message.encode reviewer)).length =
      reviewers.foldr
        (fun reviewer total => Field.delimitedSize 4 (Message.encodedLen reviewer) + total) 0 := by
  apply Field.length_flatMap
  intro reviewer
  rw [Field.length_encodeDelimited (by decide), LawfulMessage.length_encode]

instance : LawfulMessage EntryHeader where
  length_encode value := by
    change (encode value).length = encodedLen value
    rw [encode, encodedLen, List.length_append, List.length_append, List.length_append,
      length_reviewers]
    congr 3
    · split
      · rfl
      · exact Field.length_encodeWord (by decide) _
    · cases value.secretIdentity with
      | none => rfl
      | some word => exact Field.length_encodeWord (by decide) _
    · cases value.approver with
      | none => rfl
      | some descriptor =>
        change (Field.encodeDelimited 3 (Message.encode descriptor)).length = _
        rw [Field.length_encodeDelimited (by decide), LawfulMessage.length_encode]
        rfl
  decode_encode value hlength := by
    obtain ⟨identification, secretIdentity, approver, reviewers⟩ := value
    have happrover (descriptor : Descriptor) (h : approver = some descriptor) :
        (Message.encode descriptor).length < 2 ^ 64 := by
      refine Nat.lt_of_le_of_lt (Field.length_le_encodeDelimited 3 _)
        (Nat.lt_of_le_of_lt ?_ hlength)
      subst h
      change _ ≤ (encode _).length
      rw [encode, List.length_append, List.length_append]
      exact Nat.le_trans (Nat.le_add_left _ _) (Nat.le_add_right _ _)
    have hreviewers (descriptor : Descriptor) (h : descriptor ∈ reviewers) :
        (Message.encode descriptor).length < 2 ^ 64 := by
      refine Nat.lt_of_le_of_lt (Field.length_le_encodeDelimited 4 _)
        (Nat.lt_of_le_of_lt ?_ hlength)
      change _ ≤ (encode _).length
      rw [encode, List.length_append, List.flatMap_def]
      refine Nat.le_trans (List.sublist_flatten_of_mem ?_).length_le (Nat.le_add_left _ _)
      exact List.mem_map.2 ⟨descriptor, h, rfl⟩
    have hsteps := (((steps_identification identification).append
      (steps_secretIdentity _ secretIdentity rfl)).append
      (steps_approver _ approver rfl happrover)).append (steps_reviewers _ reviewers hreviewers)
    change Message.decode (encode _) = _
    rw [encode, hsteps.decode]
    simp [Message.settle, settle, settle_settle, Function.comp_def]

end EntryHeader

private theorem LawfulMessage.eq_of_encode_eq [Message α] [LawfulMessage α] {message other : α}
    (hlength : Message.encodedLen message < 2 ^ 64)
    (h : Message.encode other = Message.encode message) :
    other = message := by
  rw [← LawfulMessage.length_encode] at hlength
  have hother := LawfulMessage.decode_encode other (by rwa [h])
  rw [h, LawfulMessage.decode_encode message hlength] at hother
  exact (Except.ok.inj hother).symm

/-- Whatever its kind and its fields, a header's wire form has the length that is announced for it.
It holds the header, as long as that length is a 64-bit number, as all lengths are: it is decoded to
the same header, and no other header of the kind has it, so that a field that is absent, one that is
zero and one that is empty stay apart. -/
theorem header_wire_faithful (header : Header) : header.use fun message =>
    (Message.encode message).length = Message.encodedLen message ∧
    (Message.encodedLen message < 2 ^ 64 →
      Message.decode (Message.encode message) = .ok message ∧
      ∀ other, Message.encode other = Message.encode message → other = message) := by
  have hwire {β : Type} [Message β] [LawfulMessage β] (message : β) :
      (Message.encode message).length = Message.encodedLen message ∧
      (Message.encodedLen message < 2 ^ 64 →
        Message.decode (Message.encode message) = .ok message ∧
        ∀ other, Message.encode other = Message.encode message → other = message) := by
    have hlength := LawfulMessage.length_encode message
    refine ⟨hlength, fun hsize => ⟨?_, fun other => LawfulMessage.eq_of_encode_eq hsize⟩⟩
    exact LawfulMessage.decode_encode message (by rwa [hlength])
  cases header <;> exact hwire _

/-- An entry at position 0 whose secret identity is there as well, with an approver and a reviewer
without coordinates. -/
def sparseEntry : EntryHeader where
  secretIdentity := some 0
  approver := some ⟨[]⟩
  reviewers := [⟨[]⟩, ⟨[1, 18446744073709551615]⟩]

/-- The position 0 of the identification is left out; that of the secret identity, and the empty
addresses, are not. -/
theorem header_wire_faithful_sparse :
    Message.encode sparseEntry =
      [16, 0, 26, 0, 34, 0, 34, 13, 10, 11, 1, 255, 255, 255, 255, 255, 255, 255, 255, 255, 1] ∧
    Message.encodedLen sparseEntry = 21 ∧
    Message.decode (Message.encode sparseEntry) = .ok sparseEntry ∧
    ∀ other : EntryHeader, Message.encode other = Message.encode sparseEntry →
      other = sparseEntry := by
  have hwire := header_wire_faithful (.entry sparseEntry)
  have hlength : Message.encodedLen sparseEntry = 21 := by decide +kernel
  obtain ⟨hdecode, hother⟩ := hwire.2 (by decide +kernel)
  exact ⟨by decide +kernel, hlength, hdecode, hother⟩

end FramedTree
