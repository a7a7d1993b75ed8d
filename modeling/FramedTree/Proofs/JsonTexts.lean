import FramedTree.Json.Skip

/-! # JSON texts

The texts that are JSON, said without a reader. A value is a word, a number, a string, or values
between brackets; in an object each of them has a key in front. Blanks may stand between any two
tokens. What a key spells is a text; inside a value that is of no interest a string may hold any
bytes and any halves of characters.
-/

namespace FramedTree.Json

def bytesOf (text : String) : Bytes := text.toByteArray.data.toList

def Blank (bytes : Bytes) : Prop := ∀ b ∈ bytes, isBlank b

instance (bytes : Bytes) : Decidable (Blank bytes) :=
  decidable_of_iff (bytes.all isBlank = true) List.all_eq_true

theorem blank_nil : Blank [] := nofun

def Digits (bytes : Bytes) : Prop := bytes ≠ [] ∧ ∀ b ∈ bytes, isDigit b

/-- The digits in front of a point. Only zero begins with the digit zero. -/
inductive Whole : Bytes → Prop where
  | zero : Whole [byte '0']
  | digits {first : UInt8} {rest : Bytes} (hfirst : isDigit first) (hne : first ≠ byte '0')
      (hrest : ∀ b ∈ rest, isDigit b) : Whole (first :: rest)

inductive Fraction : Bytes → Prop where
  | none : Fraction []
  | digits {bytes : Bytes} (h : Digits bytes) : Fraction (byte '.' :: bytes)

inductive Exponent : Bytes → Prop where
  | none : Exponent []
  | digits {mark : UInt8} {sign bytes : Bytes} (hmark : mark = byte 'e' ∨ mark = byte 'E')
      (hsign : sign = [] ∨ sign = [byte '+'] ∨ sign = [byte '-']) (h : Digits bytes) :
      Exponent (mark :: (sign ++ bytes))

inductive Magnitude : Bytes → Prop where
  | mk {whole fraction exponent : Bytes} (hwhole : Whole whole) (hfraction : Fraction fraction)
      (hexponent : Exponent exponent) : Magnitude (whole ++ (fraction ++ exponent))

/-- The letters behind a backslash, and what they stand for. -/
def letters : List (Char × Char) :=
  [('"', '"'), ('\\', '\\'), ('/', '/'), ('b', '\x08'), ('f', '\x0c'), ('n', '\n'), ('r', '\r'),
    ('t', '\t')]

def HexDigit (b : UInt8) (n : Nat) : Prop :=
  n < 10 ∧ b.toNat = 48 + n ∨ 10 ≤ n ∧ n < 16 ∧ (b.toNat = 55 + n ∨ b.toNat = 87 + n)

inductive HexUnit : Bytes → Nat → Prop where
  | mk {a b c d : UInt8} {w x y z : Nat} (ha : HexDigit a w) (hb : HexDigit b x) (hc : HexDigit c y)
      (hd : HexDigit d z) : HexUnit [a, b, c, d] (4096 * w + 256 * x + 16 * y + z)

/-- What stands between the quotes of a string that is of no interest. -/
inductive Body : Bytes → Prop where
  | nil : Body []
  | plain {b : UInt8} {rest : Bytes} (hquote : b ≠ byte '"') (hslash : b ≠ byte '\\')
      (hcontrol : 32 ≤ b.toNat)
      (h : Body rest) : Body (b :: rest)
  | letter {letter meaning : Char} {rest : Bytes} (hletter : (letter, meaning) ∈ letters)
      (h : Body rest) :
      Body (byte '\\' :: byte letter :: rest)
  | unit {hex rest : Bytes} {n : Nat} (hhex : HexUnit hex n) (h : Body rest) :
      Body (byte '\\' :: byte 'u' :: (hex ++ rest))

/-- What stands between the quotes of a string that spells a text. A character beyond 16 bits may be
spelled as two halves. -/
inductive Spells : List Char → Bytes → Prop where
  | nil : Spells [] []
  | plain {c : Char} {text : List Char} {rest : Bytes} (hquote : c ≠ '"') (hslash : c ≠ '\\')
      (hcontrol : 32 ≤ c.toNat)
      (h : Spells text rest) : Spells (c :: text) (String.utf8EncodeChar c ++ rest)
  | letter {letter c : Char} {text : List Char} {rest : Bytes} (hletter : (letter, c) ∈ letters)
      (h : Spells text rest) : Spells (c :: text) (byte '\\' :: byte letter :: rest)
  | unit {c : Char} {text : List Char} {hex rest : Bytes} (hhex : HexUnit hex c.toNat)
      (h : Spells text rest) :
      Spells (c :: text) (byte '\\' :: byte 'u' :: (hex ++ rest))
  | halves {c : Char} {text : List Char} {high low rest : Bytes} (hlarge : 0x10000 ≤ c.toNat)
      (hhigh : HexUnit high (0xD800 + (c.toNat - 0x10000) / 0x400))
      (hlow : HexUnit low (0xDC00 + (c.toNat - 0x10000) % 0x400)) (h : Spells text rest) :
      Spells (c :: text) (byte '\\' :: byte 'u' :: (high ++ byte '\\' :: byte 'u' :: (low ++ rest)))

def inQuotes (body : Bytes) : Bytes := byte '"' :: (body ++ [byte '"'])

def Bracket.opening : Bracket → UInt8
  | list => byte '['
  | object => byte '\x7b'

/-- What stands in front of a value in a list or object: blanks, and a key with its colon in an
object. -/
inductive Lead : Bracket → Bytes → Prop where
  | list {blank : Bytes} (h : Blank blank) : Lead .list blank
  | object {before body between after : Bytes} (hbefore : Blank before) (hbody : Body body)
      (hbetween : Blank between)
      (hafter : Blank after) :
        Lead .object (before ++ (inQuotes body ++ (between ++ byte ':' :: after)))

mutual

/-- The bytes are a value, without blanks around it. -/
inductive Value : Bytes → Prop where
  | null : Value (bytesOf "null")
  | true : Value (bytesOf "true")
  | false : Value (bytesOf "false")
  | number {bytes : Bytes} (h : Magnitude bytes) : Value bytes
  | negative {bytes : Bytes} (h : Magnitude bytes) : Value (byte '-' :: bytes)
  | string {body : Bytes} (h : Body body) : Value (inQuotes body)
  | empty (bracket : Bracket) {blank : Bytes} (h : Blank blank) :
      Value (bracket.opening :: (blank ++ [bracket.closing]))
  | items (bracket : Bracket) {lead items : Bytes} (hlead : Lead bracket lead)
      (h : Items bracket items) :
      Value (bracket.opening :: (lead ++ (items ++ [bracket.closing])))

/-- The bytes are values of a list or object, without what stands in front of the first. -/
inductive Items : Bracket → Bytes → Prop where
  | last (bracket : Bracket) {value behind : Bytes} (h : Value value) (hbehind : Blank behind) :
      Items bracket (value ++ behind)
  | more (bracket : Bracket) {value behind lead rest : Bytes} (h : Value value)
      (hbehind : Blank behind)
      (hlead : Lead bracket lead) (hrest : Items bracket rest) :
      Items bracket (value ++ (behind ++ byte ',' :: (lead ++ rest)))

end

/-- The bytes are a field of an object: its name in some spelling, and its value, with blanks around
all tokens. -/
inductive Member (name : String) (value : Bytes) : Bytes → Prop where
  | mk {before key between after behind : Bytes} (hbefore : Blank before)
      (hkey : Spells name.toList key)
      (hbetween : Blank between) (hafter : Blank after) (hvalue : Value value)
      (hbehind : Blank behind) :
      Member name value
        (before ++ (inQuotes key ++ (between ++ byte ':' :: (after ++ (value ++ behind)))))

/-- The bytes are fields with these names and values, in this order. -/
inductive Members : List (String × Bytes) → Bytes → Prop where
  | last {name : String} {value bytes : Bytes} (h : Member name value bytes) :
      Members [(name, value)] bytes
  | more {name : String} {value bytes rest : Bytes} {members : List (String × Bytes)}
      (h : Member name value bytes)
      (hrest : Members members rest) :
        Members ((name, value) :: members) (bytes ++ byte ',' :: rest)

inductive Object : List (String × Bytes) → Bytes → Prop where
  | empty {blank : Bytes} (h : Blank blank) : Object [] (byte '\x7b' :: (blank ++ [byte '\x7d']))
  | fields {members : List (String × Bytes)} {bytes : Bytes} (h : Members members bytes) :
      Object members (byte '\x7b' :: (bytes ++ [byte '\x7d']))

/-- The whole text is an object with these fields. -/
inductive ObjectText (members : List (String × Bytes)) : Bytes → Prop where
  | mk {before object after : Bytes} (hbefore : Blank before) (h : Object members object)
      (hafter : Blank after) :
      ObjectText members (before ++ (object ++ after))

/-- No blank, and nothing that separates or ends values. -/
def Starts (b : UInt8) : Prop := isBlank b = false ∧ b ≠ byte ',' ∧ b ≠ byte ']' ∧ b ≠ byte '\x7d'

/-- The end of the text, or what may follow a value. -/
def Ends (rest : Bytes) : Prop :=
  ∀ b ∈ rest.head?, isBlank b ∨ b = byte ',' ∨ b = byte ']' ∨ b = byte '\x7d'

theorem isDigit_iff {b : UInt8} : isDigit b = true ↔ 48 ≤ b.toNat ∧ b.toNat ≤ 57 := by
  rw [isDigit, decide_eq_true_iff]

theorem starts_of_isDigit {b : UInt8} (h : isDigit b = true) : Starts b := by
  rw [isDigit_iff] at h
  refine ⟨?_, ?_, ?_, ?_⟩
  · simp only [isBlank, Bool.or_eq_false_iff, beq_eq_false_iff_ne, ne_eq]
    refine ⟨⟨⟨?_, ?_⟩, ?_⟩, ?_⟩ <;>
    · rintro rfl
      exact absurd h (by decide)
  all_goals
    rintro rfl
    exact absurd h (by decide)

theorem Magnitude.starts {bytes : Bytes} (h : Magnitude bytes) :
    ∃ b rest, bytes = b :: rest ∧ isDigit b = true := by
  obtain ⟨hwhole, -, -⟩ := h
  cases hwhole with
  | zero => exact ⟨_, _, rfl, by decide⟩
  | digits hfirst _ _ => exact ⟨_, _, rfl, hfirst⟩

theorem Value.starts {bytes : Bytes} (h : Value bytes) :
    ∃ b rest, bytes = b :: rest ∧ Starts b := by
  have hstarts {b : UInt8} {rest : Bytes} (h : Starts b) : ∃ b' rest',
    b :: rest = b' :: rest' ∧ Starts b' :=
    ⟨b, rest, rfl, h⟩
  cases h with
  | null | true | false | negative => exact hstarts (by unfold Starts; decide)
  | string => exact hstarts (by unfold Starts; decide)
  | number h =>
    obtain ⟨b, rest, rfl, hb⟩ := h.starts
    exact hstarts (starts_of_isDigit hb)
  | empty bracket | items bracket => cases bracket <;> exact hstarts (by unfold Starts; decide)

theorem Items.starts {bracket : Bracket} {bytes : Bytes} (h : Items bracket bytes) :
    ∃ b rest, bytes = b :: rest ∧ Starts b := by
  cases h with
  | last _ h _ | more _ h _ _ _ =>
    obtain ⟨b, rest, rfl, hb⟩ := h.starts
    exact ⟨b, _, rfl, hb⟩

theorem Ends.of_blank {blank rest : Bytes} (hblank : Blank blank) (h : Ends rest) :
    Ends (blank ++ rest) := by
  cases blank with
  | nil => exact h
  | cons first blank =>
    rintro b ⟨⟩
    exact .inl (hblank first List.mem_cons_self)

theorem ends_comma (rest : Bytes) : Ends (byte ',' :: rest) := by
  rintro b ⟨⟩
  exact .inr (.inl rfl)

theorem ends_closing (bracket : Bracket) (rest : Bytes) : Ends (bracket.closing :: rest) := by
  rintro b ⟨⟩
  cases bracket
  · exact .inr (.inr (.inl rfl))
  · exact .inr (.inr (.inr rfl))

end FramedTree.Json
