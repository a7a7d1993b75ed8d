import FramedTree.Proofs.JsonSkips

/-! # Names are read

A key in whatever spelling is read as the text that it spells. A character may stand for itself,
behind a backslash as one letter, as four hexadecimal digits, or as two halves of four digits each.
-/

namespace FramedTree.Json

variable {text : List Char}

def bytesOfChars (text : List Char) : Bytes := text.flatMap String.utf8EncodeChar

theorem bytesOf_eq (text : String) : bytesOf text = bytesOfChars text.toList := by
  have hbytes : text.toByteArray = (bytesOfChars text.toList).toByteArray := by
    rw [← String.utf8Encode_toList]
    rfl
  rw [bytesOf, hbytes]
  exact List.toList_data_toByteArray

theorem bytesOf_append (first second : String) :
    bytesOf (first ++ second) = bytesOf first ++ bytesOf second := by
  simp only [bytesOf_eq, bytesOfChars, String.toList_append, List.flatMap_append]

/-- An ASCII character is one byte. -/
theorem bytesOfChars_ascii (htext : ∀ c ∈ text, c.toNat < 128) :
    bytesOfChars text = text.map byte := by
  induction text with
  | nil => rfl
  | cons c text ih =>
    obtain ⟨hc, htext⟩ := List.forall_mem_cons.1 htext
    have hone : String.utf8EncodeChar c = [byte c] := if_pos (Nat.le_of_lt_succ hc)
    rw [bytesOfChars, List.flatMap_cons, hone, List.map_cons, ← ih htext]
    rfl

/-- A byte that stands for itself in a string. -/
def PlainByte (b : UInt8) : Prop := b ≠ byte '"' ∧ b ≠ byte '\\' ∧ 32 ≤ b.toNat

private theorem plainByte_of_large {n : Nat} (hlow : 128 ≤ n) (hhigh : n < 256) :
    PlainByte (UInt8.ofNat n) := by
  have hn : (UInt8.ofNat n).toNat = n := UInt8.toNat_ofNat_of_lt' hhigh
  have hne {c : Char} (hc : (byte c).toNat < 128) : UInt8.ofNat n ≠ byte c := by
    intro heq
    rw [← heq, hn] at hc
    omega
  exact ⟨hne (by decide), hne (by decide), by omega⟩

private theorem plainByte_of_mem {c : Char} {b : UInt8} (hquote : c ≠ '"') (hslash : c ≠ '\\')
    (hcontrol : 32 ≤ c.toNat) (hb : b ∈ String.utf8EncodeChar c) : PlainByte b := by
  simp only [String.utf8EncodeChar] at hb
  change 32 ≤ c.val.toNat at hcontrol
  split at hb
  case isTrue hascii =>
    have hval : (UInt8.ofNat c.val.toNat).toNat = c.val.toNat :=
      UInt8.toNat_ofNat_of_lt' (Nat.lt_of_le_of_lt hascii (by decide))
    have hne {d : Char} (hd : (byte d).toNat = d.val.toNat) (hcd : c ≠ d) :
      UInt8.ofNat c.val.toNat ≠ byte d := by
      intro heq
      rw [← heq, hval] at hd
      exact hcd (Char.ext (UInt32.toNat_inj.1 hd))
    rw [List.mem_singleton.1 hb]
    exact ⟨hne (by decide) hquote, hne (by decide) hslash, by omega⟩
  case isFalse =>
    have hlarge : ∃ n, 128 ≤ n ∧ n < 256 ∧ b = UInt8.ofNat n := by
      split at hb
      · simp only [List.mem_cons, List.not_mem_nil, or_false] at hb
        rcases hb with rfl | rfl <;> exact ⟨_, by omega, by omega, rfl⟩
      · split at hb
        · simp only [List.mem_cons, List.not_mem_nil, or_false] at hb
          rcases hb with rfl | rfl | rfl <;> exact ⟨_, by omega, by omega, rfl⟩
        · simp only [List.mem_cons, List.not_mem_nil, or_false] at hb
          rcases hb with rfl | rfl | rfl | rfl <;> exact ⟨_, by omega, by omega, rfl⟩
    obtain ⟨n, hlow, hhigh, rfl⟩ := hlarge
    exact plainByte_of_large hlow hhigh

private theorem utf8_toNat (c : Char) : utf8 c.toNat = String.utf8EncodeChar c := by
  have hc : Char.ofNat c.toNat = c := Char.ofNat_toNat c
  change bytesOf (String.singleton (Char.ofNat c.toNat)) = _
  rw [hc, bytesOf_eq]
  simp [bytesOfChars]

private theorem expectInString_append (c : Char) (rest : Bytes) :
    expectInString c (byte c :: rest) = .ok ((), rest) := by
  rw [expectInString, bind_of_ok (next_cons _ _)]
  exact congrFun (if_pos rfl) _

private theorem readEscape_letter {letter c : Char} (h : (letter, c) ∈ letters) (rest : Bytes) :
    readEscape (byte letter :: rest) = .ok (String.utf8EncodeChar c, rest) := by
  have hone : ∀ pair ∈ letters, [byte pair.2] = String.utf8EncodeChar pair.2 := by decide
  rw [readEscape, bind_of_ok (next_cons _ _)]
  dsimp only
  rw [simpleEscape?_byte h, ← hone _ h]
  rfl

private theorem readEscape_codePoint {bytes contents rest : Bytes}
    (h : readCodePoint bytes = .ok (contents, rest)) :
    readEscape (byte 'u' :: bytes) = .ok (contents, rest) := by
  rw [readEscape, bind_of_ok (next_cons _ _)]
  dsimp only
  rw [show simpleEscape? (byte 'u') = none by decide]
  exact (congrFun (if_pos rfl) _).trans h

private theorem readCodePoint_unit {c : Char} {hex : Bytes} (h : HexUnit hex c.toNat)
    (rest : Bytes) :
    readCodePoint (hex ++ rest) = .ok (String.utf8EncodeChar c, rest) := by
  have hvalid : c.toNat < 0xD800 ∨ 0xDFFF < c.toNat := by
    rcases c.valid with hlow | ⟨hhigh, -⟩
    · exact .inl hlow
    · exact .inr hhigh
  rw [readCodePoint, bind_of_ok (readHex_append h rest), if_neg (by omega), if_pos (by omega),
    utf8_toNat]
  rfl

private theorem readCodePoint_halves {c : Char} {high low : Bytes} (hlarge : 0x10000 ≤ c.toNat)
    (hhigh : HexUnit high (0xD800 + (c.toNat - 0x10000) / 0x400))
    (hlow : HexUnit low (0xDC00 + (c.toNat - 0x10000) % 0x400)) (rest : Bytes) :
    readCodePoint (high ++ byte '\\' :: byte 'u' :: (low ++ rest)) =
      .ok (String.utf8EncodeChar c, rest) := by
  have hvalid : c.toNat < 0x110000 := by
    rcases c.valid with hlow | ⟨-, hhigh⟩
    · exact Nat.lt_trans hlow (by decide)
    · exact hhigh
  have hwhole : 0x10000 + 0x400 * (0xD800 + (c.toNat - 0x10000) / 0x400 - 0xD800) +
      (0xDC00 + (c.toNat - 0x10000) % 0x400 - 0xDC00) = c.toNat := by omega
  rw [readCodePoint, bind_of_ok (readHex_append hhigh _), if_neg (by omega), if_neg (by omega),
    bind_of_ok (expectInString_append '\\' _), bind_of_ok (expectInString_append 'u' _),
    bind_of_ok (readHex_append hlow rest), if_neg (by omega), hwhole, utf8_toNat]
  rfl

private theorem readStringWith_plains {escape : JsonReader Bytes}
    {plains fuel input contents rest : Bytes} (hplains : ∀ b ∈ plains, PlainByte b)
    (h : readStringWith escape fuel input = .ok (contents, rest)) (used : Bytes)
    (hused : used.length = plains.length) :
    readStringWith escape (used ++ fuel) (plains ++ input) = .ok (plains ++ contents, rest) := by
  induction plains generalizing used with
  | nil => rw [List.eq_nil_of_length_eq_zero hused]; exact h
  | cons b plains ih =>
    obtain ⟨f, used, rfl⟩ := List.exists_cons_of_length_eq_add_one hused
    obtain ⟨⟨hquote, hslash, hcontrol⟩, hplains⟩ := List.forall_mem_cons.1 hplains
    exact readStringWith_plain hquote hslash hcontrol (ih hplains used (Nat.succ.inj hused))

private theorem exists_fuel {fuel : Bytes} {used left : Nat} (h : used + left < fuel.length) :
    ∃ first second : Bytes,
      fuel = first ++ second ∧ first.length = used ∧ left < second.length := by
  refine ⟨fuel.take used, fuel.drop used, (List.take_append_drop used fuel).symm, ?_, ?_⟩
  · rw [List.length_take]
    omega
  · rw [List.length_drop]
    omega

private theorem readStringWith_spells {key fuel : Bytes} (h : Spells text key)
    (hfuel : key.length < fuel.length) (rest : Bytes) :
    readStringWith readEscape fuel (key ++ byte '"' :: rest) = .ok (bytesOfChars text, rest) := by
  -- An escape takes one step for several bytes, so that the fuel lasts.
  have hescape {c : Char} {text : List Char} {escaped spelled : Bytes} {fuel : Bytes}
      (hread : ∀ rest, readEscape (escaped ++ rest) = .ok (String.utf8EncodeChar c, rest))
      (hfuel : (byte '\\' :: (escaped ++ spelled)).length < fuel.length)
      (ih : ∀ {fuel : Bytes}, spelled.length < fuel.length →
        readStringWith readEscape fuel (spelled ++ byte '"' :: rest) =
          .ok (bytesOfChars text, rest)) :
      readStringWith readEscape fuel (byte '\\' :: (escaped ++ spelled) ++ byte '"' :: rest) =
        .ok (bytesOfChars (c :: text), rest) := by
    obtain ⟨f, fuel, rfl⟩ := List.exists_cons_of_length_pos (Nat.zero_lt_of_lt hfuel)
    rw [List.length_cons, List.length_cons, List.length_append] at hfuel
    rw [List.cons_append, List.append_assoc]
    exact readStringWith_escape (hread _) (ih (by omega))
  induction h generalizing fuel with
  | nil =>
    obtain ⟨f, fuel, rfl⟩ := List.exists_cons_of_length_pos (Nat.zero_lt_of_lt hfuel)
    exact readStringWith_end _ f fuel rest
  | @plain c text spelled hquote hslash hcontrol _ ih =>
    rw [List.length_append] at hfuel
    obtain ⟨used, fuel, rfl, hused, hleft⟩ := exists_fuel hfuel
    rw [List.append_assoc]
    exact readStringWith_plains (fun _ hb => plainByte_of_mem hquote hslash hcontrol hb)
      (ih hleft) used hused
  | @letter letter c text spelled hletter _ ih =>
    have hread (rest : Bytes) :
      readEscape ([byte letter] ++ rest) = .ok (String.utf8EncodeChar c, rest) :=
      readEscape_letter hletter rest
    exact hescape hread hfuel ih
  | @unit c text hex spelled hhex _ ih =>
    have hread (rest : Bytes) :
      readEscape ((byte 'u' :: hex) ++ rest) = .ok (String.utf8EncodeChar c, rest) :=
      readEscape_codePoint (readCodePoint_unit hhex rest)
    exact hescape hread hfuel ih
  | @halves c text high low spelled hlarge hhigh hlow _ ih =>
    have hread (rest : Bytes) :
      readEscape ((byte 'u' :: (high ++ byte '\\' :: byte 'u' :: low)) ++ rest) =
        .ok (String.utf8EncodeChar c, rest) := by
      rw [List.cons_append, List.append_assoc]
      exact readEscape_codePoint (readCodePoint_halves hlarge hhigh hlow rest)
    have hkey : byte 'u' :: (high ++ byte '\\' :: byte 'u' :: (low ++ spelled)) =
        (byte 'u' :: (high ++ byte '\\' :: byte 'u' :: low)) ++ spelled := by simp
    rw [hkey] at hfuel ⊢
    exact hescape hread hfuel ih

/-- A key is read as the name that it spells. -/
theorem readString_append {name : String} {key : Bytes} (h : Spells name.toList key)
    (rest : Bytes) :
    readString (key ++ byte '"' :: rest) = .ok (name, rest) := by
  have hfuel : key.length < (key ++ byte '"' :: rest).length := by
    rw [List.length_append, List.length_cons]
    omega
  have hname : (⟨(bytesOfChars name.toList).toArray⟩ : ByteArray) = name.toByteArray := by
    rw [← bytesOf_eq]
    rfl
  have hvalid : String.fromUTF8? ⟨(bytesOfChars name.toList).toArray⟩ = some name := by
    rw [hname]
    exact dif_pos name.isValidUTF8
  rw [readString, bind_of_ok (get_apply _), bind_of_ok (readStringWith_spells h hfuel rest), hvalid]
  rfl

end FramedTree.Json
