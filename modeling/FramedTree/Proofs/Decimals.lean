import Mathlib.Logic.Function.Basic

/-! # Numbers in digits

The digits of a number tell which number it is, and in decimal only the number zero begins with the
digit zero.
-/

namespace FramedTree.Decimal

theorem toList_toString (n : Nat) : (toString n).toList = Nat.toDigits 10 n := Nat.toList_repr

theorem isDigit_of_mem {n : Nat} {c : Char} (h : c ∈ (toString n).toList) : c.isDigit = true := by
  rw [toList_toString] at h
  exact Nat.isDigit_of_mem_toDigits (by decide) (by decide) h

/-- The first digit stays the first when the number gets longer. -/
theorem toDigits_cons (n : Nat) :
    ∃ first rest, Nat.toDigits 10 n = first :: rest ∧ (first = '0' → n = 0) := by
  induction n using Nat.strongRecOn with
  | ind n ih =>
    rcases Nat.lt_or_ge n 10 with hn | hn
    · rw [Nat.toDigits_of_lt_base hn]
      exact ⟨_, _, rfl, Nat.digitChar_eq_zero.1⟩
    · obtain ⟨first, rest, hdigits, hzero⟩ := ih (n / 10) (by omega)
      rw [Nat.toDigits_of_base_le (by decide) hn, hdigits]
      refine ⟨first, _, rfl, fun hfirst => ?_⟩
      have := hzero hfirst
      omega

section Base

variable {b n m : Nat}

private theorem toDigits_last (hb : 1 < b) (n : Nat) :
    Nat.toDigits b n = (if n < b then [] else Nat.toDigits b (n / b)) ++ [(n % b).digitChar] := by
  rw [Nat.toDigits_eq_if hb]
  split
  · rw [Nat.mod_eq_of_lt ‹n < b›, List.nil_append]
  · rfl

theorem mem_toDigits (hb : 1 < b) {c : Char} (h : c ∈ Nat.toDigits b n) :
    ∃ d < b, c = d.digitChar := by
  induction n using Nat.strongRecOn with
  | ind n ih =>
    rw [toDigits_last hb] at h
    rcases List.mem_append.1 h with hinit | hlast
    · split at hinit
      · cases hinit
      · exact ih (n / b) (Nat.div_lt_self (by omega) hb) hinit
    · exact ⟨n % b, Nat.mod_lt _ (by omega), List.mem_singleton.1 hlast⟩

private theorem digitChar_inj (hn : n < 16) (hm : m < 16) (h : n.digitChar = m.digitChar) :
    n = m := by
  have hall : ∀ i j : Fin 16, i.val.digitChar = j.val.digitChar → i = j := by decide
  exact congrArg Fin.val (hall ⟨n, hn⟩ ⟨m, hm⟩ h)

theorem toDigits_injective (hb : 1 < b) (hb' : b ≤ 16) : Function.Injective (Nat.toDigits b) := by
  intro n
  induction n using Nat.strongRecOn with
  | ind n ih =>
    intro m h
    rw [toDigits_last hb, toDigits_last hb m] at h
    obtain ⟨hinit, hlast⟩ := List.append_inj' h rfl
    have hmod : n % b = m % b := digitChar_inj (Nat.lt_of_lt_of_le (Nat.mod_lt _ (by omega)) hb')
      (Nat.lt_of_lt_of_le (Nat.mod_lt _ (by omega)) hb') (List.singleton_inj.1 hlast)
    split at hinit
    case isTrue hn =>
      split at hinit
      · rwa [Nat.mod_eq_of_lt hn, Nat.mod_eq_of_lt ‹m < b›] at hmod
      · exact absurd hinit.symm Nat.toDigits_ne_nil
    case isFalse hn =>
      split at hinit
      · exact absurd hinit Nat.toDigits_ne_nil
      · have hdiv : n / b = m / b := ih (n / b) (Nat.div_lt_self (by omega) hb) hinit
        rw [← Nat.div_add_mod n b, ← Nat.div_add_mod m b, hdiv, hmod]

end Base

end FramedTree.Decimal
