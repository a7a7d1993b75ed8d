import Mathlib
import FramedTree.Outline
import FramedTree.Proofs.Decimals

/-! # Values told from their texts

A quoted text, a number and a path can each be told from how they are written, whatever they are;
none of them is written with a line break. A path has to consist of whole steps, since a number left
over is not written.
-/

namespace FramedTree

/-- Where a list goes on only up to the first item without a property, it is clear where it ends. -/
theorem append_inj_of_stop {α : Type} {p : α → Bool} {xs ys rest rest' : List α}
    (hxs : ∀ x ∈ xs, p x = true) (hys : ∀ y ∈ ys, p y = true)
    (hrest : ∀ x ∈ rest.head?, p x = false) (hrest' : ∀ x ∈ rest'.head?, p x = false)
    (h : xs ++ rest = ys ++ rest') : xs = ys ∧ rest = rest' := by
  have hstop {zs : List α} (hzs : ∀ x ∈ zs.head?, p x = false) : zs.takeWhile p = [] := by
    cases zs with
    | nil => rfl
    | cons z zs => exact List.takeWhile_cons_of_neg (by rw [hzs z rfl]; decide)
  have htake := congrArg (List.takeWhile p) h
  rw [List.takeWhile_append_of_pos hxs, List.takeWhile_append_of_pos hys, hstop hrest, hstop hrest',
    List.append_nil, List.append_nil] at htake
  exact ⟨htake, List.append_cancel_left (htake ▸ h)⟩

/-- Parts in a row can be told from it, if each can be told where it begins, and where it ends is
clear. -/
theorem flatMap_inj {α β : Type} {part : α → List β} {xs ys : List α} (hpart : ∀ x, part x ≠ [])
    (hinj : ∀ x ∈ xs, ∀ y ∈ ys, ∀ rest rest', part x ++ rest = part y ++ rest' → x = y ∧ rest = rest')
    (h : xs.flatMap part = ys.flatMap part) : xs = ys := by
  induction xs generalizing ys with
  | nil =>
    cases ys with
    | nil => rfl
    | cons y ys => exact absurd (List.append_eq_nil_iff.1 h.symm).1 (hpart y)
  | cons x xs ih =>
    cases ys with
    | nil => exact absurd (List.append_eq_nil_iff.1 h).1 (hpart x)
    | cons y ys =>
      obtain ⟨rfl, hrest⟩ := hinj x List.mem_cons_self y List.mem_cons_self _ _ h
      rw [ih (fun x hx y hy => hinj x (List.mem_cons_of_mem _ hx) y
        (List.mem_cons_of_mem _ hy)) hrest]

def OnLine (text : String) : Prop := '\n' ∉ text.toList

instance (text : String) : Decidable (OnLine text) :=
  inferInstanceAs (Decidable (¬ '\n' ∈ text.toList))

theorem OnLine.append {first second : String} (h : OnLine first) (h' : OnLine second) :
    OnLine (first ++ second) := by
  rw [OnLine, String.toList_append, List.mem_append]
  exact not_or.2 ⟨h, h'⟩

namespace Text

/-- The letters behind a backslash, and what they stand for. -/
def escapes : List (Char × Char) :=
  [('0', '\x00'), ('t', '\t'), ('r', '\r'), ('n', '\n'), ('"', '"'), ('\\', '\\')]

/-- How a character is written: as itself, behind a backslash as a letter, or by its number. -/
inductive Spelled (c : Char) : List Char → Prop where
  | plain (hslash : c ≠ '\\') (hquote : c ≠ '"') (hbreak : c ≠ '\n') : Spelled c [c]
  | letter {letter : Char} (h : (letter, c) ∈ escapes) : Spelled c ['\\', letter]
  | number : Spelled c (['\\', 'u', '\x7b'] ++ hexDigits c.toNat ++ ['\x7d'])

private theorem spelled_escapeChar (c : Char) : Spelled c (escapeChar c) := by
  unfold escapeChar
  split_ifs with hnull htab hreturn hbreak hquote hslash hhidden
  · exact .letter (by rw [hnull]; decide)
  · exact .letter (by rw [htab]; decide)
  · exact .letter (by rw [hreturn]; decide)
  · exact .letter (by rw [hbreak]; decide)
  · exact .letter (by rw [hquote]; decide)
  · exact .letter (by rw [hslash]; decide)
  · exact .number
  · exact .plain hslash hquote hbreak

private theorem hexDigits_ne_closing {n : Nat} {c : Char} (h : c ∈ hexDigits n) :
    (c != '\x7d') = true ∧ c ≠ '\n' := by
  obtain ⟨d, hd, rfl⟩ := Decimal.mem_toDigits (by decide) h
  have hall : ∀ d : Fin 16, (d.val.digitChar != '\x7d') = true ∧ d.val.digitChar ≠ '\n' := by decide
  exact hall ⟨d, hd⟩

private theorem Spelled.unique {c d : Char} {spelling spelling' rest rest' : List Char}
    (h : Spelled c spelling) (h' : Spelled d spelling')
    (heq : spelling ++ rest = spelling' ++ rest') : c = d ∧ rest = rest' := by
  have hletter : ∀ pair ∈ escapes, ∀ pair' ∈ escapes,
    pair.1 = pair'.1 → pair.2 = pair'.2 := by decide
  have hnumber : ∀ pair ∈ escapes, pair.1 ≠ 'u' := by decide
  cases h with
  | plain hslash =>
    cases h' with
    | plain => exact ⟨(List.cons.inj heq).1, (List.cons.inj heq).2⟩
    | letter | number => exact absurd (List.cons.inj heq).1 hslash
  | letter hc =>
    cases h' with
    | plain hslash => exact absurd (List.cons.inj heq).1.symm hslash
    | letter hd =>
      obtain ⟨hsame, hrest⟩ := List.cons.inj (List.cons.inj heq).2
      exact ⟨hletter _ hc _ hd hsame, hrest⟩
    | number => exact absurd (List.cons.inj (List.cons.inj heq).2).1 (hnumber _ hc)
  | number =>
    cases h' with
    | plain hslash => exact absurd (List.cons.inj heq).1.symm hslash
    | letter hd => exact absurd (List.cons.inj (List.cons.inj heq).2).1.symm (hnumber _ hd)
    | number =>
      have hdigits : hexDigits c.toNat ++ '\x7d' :: rest =
        hexDigits d.toNat ++ '\x7d' :: rest' := by
        simpa using heq
      obtain ⟨hsame, hrest⟩ := append_inj_of_stop (fun _ h => (hexDigits_ne_closing h).1)
        (fun _ h => (hexDigits_ne_closing h).1) (by rintro _ ⟨⟩; rfl) (by rintro _ ⟨⟩; rfl) hdigits
      exact ⟨Char.toNat_inj.1 (Decimal.toDigits_injective (by decide) (by decide) hsame),
        (List.cons.inj hrest).2⟩

private theorem Spelled.ne_nil {c : Char} {spelling : List Char} (h : Spelled c spelling) :
    spelling ≠ [] := by
  cases h <;> exact List.cons_ne_nil _ _

private theorem Spelled.on_line {c : Char} {spelling : List Char} (h : Spelled c spelling) :
    '\n' ∉ spelling := by
  have hletter : ∀ pair ∈ escapes, '\n' ≠ pair.1 := by decide
  cases h with
  | plain _ _ hbreak => exact fun h => hbreak (List.mem_singleton.1 h).symm
  | letter hc =>
    simp only [List.mem_cons, List.not_mem_nil, or_false, not_or]
    exact ⟨by decide, hletter _ hc⟩
  | number =>
    simp only [List.mem_append, List.mem_cons, List.not_mem_nil, or_false, not_or]
    exact ⟨⟨⟨by decide, by decide, by decide⟩, fun h => (hexDigits_ne_closing h).2 rfl⟩, by decide⟩

private theorem escaped_inj {text text' : List Char}
    (h : text.flatMap escapeChar = text'.flatMap escapeChar) : text = text' :=
  flatMap_inj (fun c => (spelled_escapeChar c).ne_nil)
    (fun c _ d _ _ _ => (spelled_escapeChar c).unique (spelled_escapeChar d)) h

theorem toList_quoted (text : String) :
    (quoted text).toList = '"' :: (text.toList.flatMap escapeChar ++ ['"']) := by
  simp only [quoted, String.toList_append, String.toList_ofList, List.append_assoc]
  rfl

/-- The text between the quotes can be read back. -/
theorem quoted_injective : Function.Injective quoted := by
  intro text text' h
  have hlist := congrArg String.toList h
  rw [toList_quoted, toList_quoted] at hlist
  exact String.toList_inj.1 (escaped_inj (List.append_cancel_right (List.cons.inj hlist).2))

theorem quoted_onLine (text : String) : OnLine (quoted text) := by
  rw [OnLine, toList_quoted]
  simp only [List.mem_cons, List.mem_append, List.mem_flatMap, List.not_mem_nil, or_false, not_or,
    not_exists, not_and]
  exact ⟨by decide, fun c _ => (spelled_escapeChar c).on_line, by decide⟩

end Text

theorem int_toString_injective :
    Function.Injective (toString : Int → String) := fun _ _ h => Int.repr_injective h

def IsNumeric (c : Char) : Bool := c.isDigit || c == '-' || c == '/' || c == ':'

private theorem isNumeric_of_isDigit {c : Char} (h : c.isDigit = true) : IsNumeric c = true := by
  rw [IsNumeric, h, Bool.true_or, Bool.true_or, Bool.true_or]

theorem isNumeric_toString {n : Int} {c : Char} (h : c ∈ (toString n).toList) :
    IsNumeric c = true := by
  have hnat {n : Nat} (h : c ∈ n.repr.toList) : IsNumeric c = true :=
    isNumeric_of_isDigit (Decimal.isDigit_of_mem (n := n) h)
  rw [Int.toString_eq_repr, Int.repr_eq_if] at h
  split at h
  · exact hnat h
  · rw [String.toList_append] at h
    rcases List.mem_append.1 h with hsign | hdigits
    · rw [List.mem_singleton.1 hsign]
      rfl
    · exact hnat hdigits

namespace Path

def stepText (step : UInt64 × UInt64) : String := s!"/{step.1.toNat}:{step.2.toNat}"

private theorem toList_stepText (step : UInt64 × UInt64) :
    (stepText step).toList =
      '/' :: ((toString step.1.toNat).toList ++ ':' :: (toString step.2.toNat).toList) := by
  simp only [stepText, String.toList_append]
  change ['/'] ++ _ ++ [':'] ++ _ = _
  simp only [List.append_assoc, List.cons_append, List.nil_append]

private theorem steps_inj {steps steps' : List (UInt64 × UInt64)}
    (h : steps.flatMap (fun step => (stepText step).toList) =
      steps'.flatMap fun step => (stepText step).toList) :
    steps = steps' := by
  have hslash (steps : List (UInt64 × UInt64)) :
      ∀ c ∈ (steps.flatMap fun step => (stepText step).toList).head?, c.isDigit = false := by
    cases steps with
    | nil => nofun
    | cons step steps =>
      rw [List.flatMap_cons, toList_stepText]
      rintro _ ⟨⟩
      rfl
  have hdigits (n : UInt64) : ∀ c ∈ (toString n.toNat).toList, c.isDigit = true :=
    fun _ => Decimal.isDigit_of_mem
  have hnumber {n m : UInt64} (h : (toString n.toNat).toList = (toString m.toNat).toList) : n = m :=
    UInt64.toNat_inj.1 (Nat.repr_injective (String.toList_inj.1 h))
  induction steps generalizing steps' with
  | nil =>
    cases steps' with
    | nil => rfl
    | cons step' steps' =>
      rw [List.flatMap_cons, toList_stepText] at h
      cases h
  | cons step steps ih =>
    cases steps' with
    | nil =>
      rw [List.flatMap_cons, toList_stepText] at h
      cases h
    | cons step' steps' =>
      rw [List.flatMap_cons, List.flatMap_cons, toList_stepText, toList_stepText, List.cons_append,
        List.cons_append, List.append_assoc, List.append_assoc, List.cons_append,
        List.cons_append] at h
      obtain ⟨hfield, hbehind⟩ := append_inj_of_stop (hdigits _) (hdigits _) (by rintro _ ⟨⟩; rfl)
        (by rintro _ ⟨⟩; rfl) (List.cons.inj h).2
      obtain ⟨hindex, hrest⟩ := append_inj_of_stop (hdigits _) (hdigits _) (hslash _) (hslash _)
        (List.cons.inj hbehind).2
      rw [Prod.ext (hnumber hfield) (hnumber hindex), ih hrest]

def IsWhole (path : Path) : Prop := path.coordinates.length % 2 = 0

private theorem pairs_inj : ∀ {coordinates coordinates' : List UInt64}, coordinates.length % 2 = 0 →
    coordinates'.length % 2 = 0 → pairs coordinates = pairs coordinates' →
      coordinates = coordinates'
  | [], [], _, _, _ => rfl
  | [], _ :: _ :: _, _, _, h => nomatch h
  | _ :: _ :: _, [], _, _, h => nomatch h
  | _ :: _ :: rest, _ :: _ :: rest', hrest, hrest', h => by
    simp only [List.length_cons] at hrest hrest'
    obtain ⟨hstep, hsteps⟩ := List.cons.inj h
    obtain ⟨rfl, rfl⟩ := Prod.mk.inj hstep
    rw [pairs_inj (by omega) (by omega) hsteps]
  | [_], _, hodd, _, _ => absurd hodd Nat.one_ne_zero
  | _, [_], _, hodd, _ => absurd hodd Nat.one_ne_zero

private theorem toList_text (path : Path) : path.text.toList =
    if path.isRoot then ['/'] else path.steps.flatMap fun step => (stepText step).toList := by
  rw [text]
  split
  · rfl
  · rw [String.toList_join, List.flatMap_map]
    rfl

private theorem ne_root_text {path : Path} (h : path.IsWhole) (hroot : path.isRoot = false) :
    ['/'] ≠ path.steps.flatMap fun step => (stepText step).toList := by
  obtain ⟨coordinates⟩ := path
  match coordinates, h, hroot with
  | [_], hodd, _ => exact absurd hodd Nat.one_ne_zero
  | field :: index :: rest, _, _ =>
    rw [steps, pairs, List.flatMap_cons, toList_stepText, List.cons_append, List.append_assoc]
    intro heq
    exact List.cons_ne_nil _ _ (List.append_eq_nil_iff.1 (List.cons.inj heq).2.symm).2

/-- A path of whole steps can be told from its text; the root's is shorter than that of any
other. -/
theorem text_inj {path path' : Path} (h : path.IsWhole) (h' : path'.IsWhole)
    (heq : path.text = path'.text) :
    path = path' := by
  have hlist := congrArg String.toList heq
  rw [toList_text, toList_text] at hlist
  cases hroot : path.isRoot <;> cases hroot' : path'.isRoot <;> rw [hroot, hroot'] at hlist
  · exact congrArg Path.mk (pairs_inj h h' (steps_inj hlist))
  · exact absurd hlist.symm (ne_root_text h hroot)
  · exact absurd hlist (ne_root_text h' hroot')
  · exact congrArg Path.mk ((List.isEmpty_iff.1 hroot).trans (List.isEmpty_iff.1 hroot').symm)

theorem isNumeric_text {path : Path} {c : Char} (h : c ∈ path.text.toList) :
    IsNumeric c = true := by
  have hnumber {n : UInt64} (h : c ∈ (toString n.toNat).toList) : IsNumeric c = true :=
    isNumeric_of_isDigit (Decimal.isDigit_of_mem h)
  rw [toList_text] at h
  split at h
  · rw [List.mem_singleton.1 h]
    rfl
  · obtain ⟨step, -, hc⟩ := List.mem_flatMap.1 h
    rw [toList_stepText] at hc
    simp only [List.mem_cons, List.mem_append] at hc
    rcases hc with rfl | hfield | rfl | hindex
    · rfl
    · exact hnumber hfield
    · rfl
    · exact hnumber hindex

end Path
end FramedTree
