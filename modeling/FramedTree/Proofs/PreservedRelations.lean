import Mathlib.Order.Defs.Unbundled
import FramedTree.Proofs.Activity

/-! # What activities keep

An activity keeps a relation if the state before and the state after are always related, whatever
comes of the activity. The relations of interest are preorders, so that what each step of an
activity keeps is kept by the whole. The rules below follow the ways in which activities are put
together: in sequence, on a part of a node, on a slot, on a lazy cell.
-/

namespace FramedTree

variable {ε σ τ ν μ α β : Type}

/-- The state before the activity is related to the state after it, whatever comes of it. -/
def Keeps (R : σ → σ → Prop) (activity : EStateM ε σ α) : Prop :=
  ∀ state, R state (stateAfter (activity state))

/-- The same for an activity that cannot fail. -/
def Safely (R : σ → σ → Prop) (activity : StateM σ α) : Prop := ∀ state, R state (activity state).2

/-- A relation on nodes, seen on nodes with their surroundings. -/
def OnNode (R : ν → ν → Prop) (before after : ν × σ) : Prop := R before.1 after.1

instance (R : ν → ν → Prop) [IsPreorder ν R] : IsPreorder (ν × σ) (OnNode R) where
  refl state := refl_of R state.1
  trans _ _ _ hab hbc := trans_of R hab hbc

namespace Keeps

section Sequence

variable {R : σ → σ → Prop} [IsPreorder σ R]

theorem pure (value : α) : Keeps R (Pure.pure value : EStateM ε σ α) := fun state => refl_of R state

theorem throw (error : ε) : Keeps R (MonadExcept.throw error : EStateM ε σ α) :=
  fun state => refl_of R state

theorem get : Keeps R (MonadState.get : EStateM ε σ σ) := fun state => refl_of R state

theorem bind {activity : EStateM ε σ α} {next : α → EStateM ε σ β} (h : Keeps R activity)
    (hnext : ∀ value, Keeps R (next value)) : Keeps R (activity >>= next) := by
  intro state
  have hfirst := h state
  rw [bind_apply]
  cases hrun : activity state with
  | ok value between =>
    rw [hrun] at hfirst
    exact trans_of R hfirst (hnext value between)
  | error error between =>
    rw [hrun] at hfirst
    exact hfirst

omit [IsPreorder σ R] in
theorem map {activity : EStateM ε σ α} (f : α → β) (h : Keeps R activity) :
    Keeps R (f <$> activity) := by
  intro state
  have hfirst := h state
  rw [map_apply]
  cases hrun : activity state with
  | ok value between | error error between =>
    rw [hrun] at hfirst
    exact hfirst

end Sequence

section Nodes

variable {R : ν → ν → Prop}

theorem edit {f : ν → ν} (h : ∀ node, R node (f node)) :
    Keeps (OnNode R) (Access.edit f : Access σ ν Unit) := fun state => h state.1

theorem and {R' : ν → ν → Prop} {access : Access σ ν α} (h : Keeps (OnNode R) access)
    (h' : Keeps (OnNode R') access) :
    Keeps (OnNode fun before after => R before after ∧ R' before after)
      access := fun state => ⟨h state, h' state⟩

theorem around {get : τ → σ} {put : σ → τ → τ} {access : Access σ ν α}
    (h : Keeps (OnNode R) access) :
    Keeps (OnNode R) (Access.around get put access) := by
  rintro ⟨node, whole⟩
  rw [Access.around_apply, stateAfter_mapState]
  exact h (node, get whole)

theorem attempt {access : Access σ ν α} (h : Keeps (OnNode R) access) :
    Keeps (OnNode R) (Access.attempt access) := by
  intro state
  have hrun := h state
  unfold Access.attempt
  cases hresult : access state with
  | ok value after | error error after =>
    rw [hresult] at hrun
    exact hrun

/-- The same, when the work on the part, and what it keeps, depend on the node. -/
theorem node_within {Q : ν → μ → μ → Prop} {get : ν → μ} {put : μ → ν → ν}
    {access : ν → Access σ μ α} (h : ∀ node, Keeps (OnNode (Q node)) (access node))
    (hput : ∀ node part, Q node (get node) part → R node (put part node)) :
    Keeps (OnNode R) (do Access.within get put (access (← Access.node))) := by
  rintro ⟨node, whole⟩
  rw [Access.node_bind_apply, Access.within_apply, stateAfter_mapState]
  exact hput node _ (h node (get node, whole))

variable [IsPreorder ν R]

theorem node : Keeps (OnNode R) (Access.node : Access σ ν ν) := bind get fun _ => pure _

theorem lift (activity : EStateM Error σ α) :
    Keeps (OnNode R) (Access.lift activity : Access σ ν α) := by
  rintro ⟨node, around⟩
  rw [Access.lift_apply, stateAfter_mapState]
  exact refl_of R node

end Nodes
end Keeps

namespace Safely

variable {R : σ → σ → Prop} [IsPreorder σ R]

theorem pure (value : α) : Safely R (Pure.pure value : StateM σ α) := fun state => refl_of R state

theorem bind {activity : StateM σ α} {next : α → StateM σ β} (h : Safely R activity)
    (hnext : ∀ value, Safely R (next value)) : Safely R (activity >>= next) := fun state =>
  trans_of R (h state) (hnext (activity state).1 (activity state).2)

end Safely

theorem optionRel_refl {R : α → α → Prop} [IsPreorder α R] (value : Option α) :
    Option.Rel R value value := by
  cases value with
  | none => exact .none
  | some value => exact .some (refl_of R value)

/-- Rows of the same size whose values are related slot by slot. -/
structure Slots.Pointwise (Q : Nat → α → β → Prop) (before : Slots α) (after : Slots β) : Prop where
  size_eq : after.size = before.size
  slot : ∀ i, Option.Rel (Q i) (before.get? i) (after.get? i)

namespace Keeps

section Slots

variable {Q : Nat → α → α → Prop} [∀ i, IsPreorder α (Q i)]

/-- Work on one slot leaves the others alone. -/
theorem slot {i : Nat} {inner : Access σ α β} (h : Keeps (OnNode (Q i)) inner) :
    Keeps (OnNode (Slots.Pointwise Q)) (Slots.access i inner) := by
  rintro ⟨slots, around⟩
  cases hget : slots.get? i with
  | none =>
    rw [Slots.access_apply_none hget]
    exact ⟨rfl, fun j => optionRel_refl _⟩
  | some value =>
    have hinner := map some h (value, around)
    rw [Slots.access_apply_some hget, stateAfter_mapState]
    refine ⟨Slots.size_modify .., fun j => ?_⟩
    rw [Slots.get?_modify]
    split
    case isTrue hj =>
      subst hj
      rw [hget]
      exact .some hinner
    case isFalse hj => exact optionRel_refl _

private theorem accessFrom {inner : Nat → Access σ α β} (h : ∀ i, Keeps (OnNode (Q i)) (inner i))
    (i : Nat) (cells : List (Option α)) (around : σ) :
    let after := (stateAfter (Slots.accessFrom inner i cells around)).1
    after.length = cells.length ∧ ∀ j, Option.Rel (Q (i + j)) cells[j]?.join after[j]?.join := by
  induction cells generalizing i around with
  | nil => exact ⟨rfl, fun j => optionRel_refl _⟩
  | cons cell cells ih =>
    have hcons (first first' : Option α) (rest : List (Option α))
        (hfirst : Option.Rel (Q i) first first')
        (hrest : rest.length = cells.length ∧
          ∀ j, Option.Rel (Q (i + 1 + j)) cells[j]?.join rest[j]?.join) :
        (first' :: rest).length = (first :: cells).length ∧
          ∀ j, Option.Rel (Q (i + j)) (first :: cells)[j]?.join (first' :: rest)[j]?.join := by
      refine ⟨by simp [hrest.1], fun j => ?_⟩
      cases j with
      | zero => exact hfirst
      | succ j =>
        have := hrest.2 j
        rwa [Nat.add_right_comm, Nat.add_assoc] at this
    cases cell with
    | none =>
      rw [Slots.accessFrom_gap, stateAfter_mapState]
      exact hcons none none _ .none (ih (i + 1) around)
    | some value =>
      have hvalue := h i (value, around)
      cases hinner : inner i (value, around) with
      | error error after =>
        rw [hinner] at hvalue
        rw [Slots.accessFrom_of_error hinner]
        exact hcons _ (some after.1) cells (.some hvalue) ⟨rfl, fun j => optionRel_refl _⟩
      | ok result after =>
        rw [hinner] at hvalue
        rw [Slots.accessFrom_of_ok hinner, stateAfter_mapState, stateAfter_mapValue]
        exact hcons _ (some after.1) _ (.some hvalue) (ih (i + 1) after.2)

theorem accessAll {inner : Nat → Access σ α β} (h : ∀ i, Keeps (OnNode (Q i)) (inner i)) :
    Keeps (OnNode (Slots.Pointwise Q)) (Slots.accessAll inner) := by
  rintro ⟨slots, around⟩
  rw [Slots.accessAll_apply, stateAfter_mapState]
  obtain ⟨hlength, hcells⟩ := accessFrom h 0 slots.cells.toList around
  refine ⟨?_, fun i => ?_⟩
  · rw [Slots.size_ofCells, hlength, Slots.length_cells]
  · have hi := hcells i
    rwa [Nat.zero_add, Slots.join_cells, ← Slots.get?_ofCells] at hi

end Slots
end Keeps

/-- What may happen to a cell: a value that is there stays, changed by `Q` at most, and one that
comes to be there is a `Good` one, changed by `Q` at most. -/
structure Lazy.Grows (Good : α → Prop) (Q : α → α → Prop) (before after : Lazy α) : Prop where
  kept : ∀ value, before.peek = some value → ∃ later, after.peek = some later ∧ Q value later
  new : before.peek = none → ∀ value, after.peek = some value → ∃ first, Good first ∧ Q first value

instance (Good : α → Prop) (Q : α → α → Prop) [IsPreorder α Q] :
    IsPreorder (Lazy α) (Lazy.Grows Good Q) where
  refl cell := ⟨fun value h => ⟨value, h, refl_of Q value⟩, fun h value h' => by simp [h] at h'⟩
  trans a b c hab hbc := by
    constructor
    · intro value hvalue
      obtain ⟨between, hbetween, hfirst⟩ := hab.kept value hvalue
      obtain ⟨later, hlater, hsecond⟩ := hbc.kept between hbetween
      exact ⟨later, hlater, trans_of Q hfirst hsecond⟩
    · intro hnone value hvalue
      cases hb : b.peek with
      | none => exact hbc.new hb value hvalue
      | some between =>
        obtain ⟨first, hgood, hfirst⟩ := hab.new hnone between hb
        obtain ⟨later, hlater, hsecond⟩ := hbc.kept between hb
        cases hlater.symm.trans hvalue
        exact ⟨first, hgood, trans_of Q hfirst hsecond⟩

theorem Lazy.Grows.isLoaded {Good : α → Prop} {Q : α → α → Prop} {before after : Lazy α}
    (h : Lazy.Grows Good Q before after) (hbefore : before.isLoaded) : after.isLoaded := by
  obtain ⟨value, hvalue⟩ := Option.isSome_iff_exists.1 hbefore
  obtain ⟨later, hlater, -⟩ := h.kept value hvalue
  exact Option.isSome_iff_exists.2 ⟨later, hlater⟩

/-- Opening a cell keeps its growth, if loaders give good values and the work inside keeps `Q`. -/
theorem Keeps.opens {Good : α → Prop} {Q : α → α → Prop} [IsPreorder α Q]
    {load : Option Origin → EStateM Error σ α} {inner : Access σ α β} {access : Access σ (Lazy α) β}
    (hopens : Lazy.Opens load inner access)
    (hload : ∀ origin around value after, load origin around = .ok value after → Good value)
    (hinner : Keeps (OnNode Q) inner) : Keeps (OnNode (Lazy.Grows Good Q)) access := by
  rintro ⟨cell, around⟩
  cases hfetch : cell.fetch load around with
  | error error after =>
    rw [hopens.failed hfetch]
    exact refl_of (Lazy.Grows Good Q) cell
  | ok value after =>
    obtain ⟨kept, -, hrun⟩ := hopens.fetched hfetch
    have hvalue := hinner (value, after)
    rw [hrun, stateAfter_mapState]
    constructor
    · intro first hfirst
      rw [Lazy.fetch_of_peek hfirst] at hfetch
      cases hfetch
      exact ⟨_, Lazy.peek_putBack _ _, hvalue⟩
    · intro hnone last hlast
      rw [Lazy.fetch_of_unloaded hnone] at hfetch
      rw [Lazy.peek_putBack] at hlast
      cases hlast
      exact ⟨value, hload _ _ _ _ hfetch, hvalue⟩

end FramedTree
