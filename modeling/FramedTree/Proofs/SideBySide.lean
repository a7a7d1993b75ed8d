import FramedTree.Proofs.MoveTrails
import FramedTree.Proofs.RelationalRules

/-! # Runs side by side

Two runs go side by side as long as they give the same and their states agree. The first may fail
alone; the second then goes on without it, and what is known of the two stays known. What it means
that states agree is left open: the rules here follow the ways in which activities are put together.
-/

namespace FramedTree

variable {σ ν μ α β γ δ : Type}

/-- How two runs are compared: states that go side by side, states in which both have failed, and
states of which the first has failed alone. A run that goes on alone makes moves of its own. -/
structure Escort (σ : Type) where
  Beside : σ → σ → Prop
  Failed : σ → σ → Prop
  Parted : Error → σ → σ → Prop
  Onward : σ → σ → Prop
  onward : IsPreorder σ Onward
  parted : ∀ {error state between after},
    Parted error state between → Onward between after → Parted error state after

attribute [instance] Escort.onward

namespace Escort

variable {e : Escort σ}

def on (e : Escort σ) (V : ν → ν → Prop) : Escort (ν × σ) where
  Beside := Both V e.Beside
  Failed state state' := e.Failed state.2 state'.2
  Parted error state state' := e.Parted error state.2 state'.2
  Onward := OnAround e.Onward
  onward := inferInstance
  parted := e.parted

/-- Ends that two runs come to: the second has not failed unless the first has. -/
inductive Ends (e : Escort σ) (A : α → β → Prop) :
    EStateM.Result Error σ α → EStateM.Result Error σ β → Prop where
  | ok {value : α} {value' : β} {state state' : σ} (hvalue : A value value')
      (hstate : e.Beside state state') :
      Ends e A (.ok value state) (.ok value' state')
  | error {error : Error} {state state' : σ} (hstate : e.Failed state state') :
      Ends e A (.error error state) (.error error state')
  | parted {error : Error} {state : σ} {result : EStateM.Result Error σ β}
      (hstate : e.Parted error state (stateAfter result)) : Ends e A (.error error state) result

/-- If both never fail together, the first has failed alone. -/
theorem Ends.parted_of {A : α → β → Prop} {error : Error} {state : σ}
    {result : EStateM.Result Error σ β} (h : e.Ends A (.error error state) result)
    (hfailed : ∀ state', ¬ e.Failed state state') :
    e.Parted error state (stateAfter result) := by
  cases h with
  | error hstate => exact absurd hstate (hfailed _)
  | parted hstate => exact hstate

private theorem Ends.mapState {e' : Escort μ} {f g : σ → μ} {A : α → β → Prop}
    {result : EStateM.Result Error σ α} {result' : EStateM.Result Error σ β}
    (h : e.Ends A result result')
    (hbeside : ∀ state state', e.Beside state state' → e'.Beside (f state) (g state'))
    (hfailed : ∀ state state', e.Failed state state' → e'.Failed (f state) (g state'))
    (hparted : ∀ error state state',
      e.Parted error state state' → e'.Parted error (f state) (g state')) :
    e'.Ends A (FramedTree.mapState f result) (FramedTree.mapState g result') := by
  cases h with
  | ok hvalue hstate => exact .ok hvalue (hbeside _ _ hstate)
  | error hstate => exact .error (hfailed _ _ hstate)
  | parted hstate =>
    refine .parted ?_
    rw [stateAfter_mapState]
    exact hparted _ _ _ hstate

private theorem Ends.mapValue {f : α → γ} {g : β → δ} {A : α → β → Prop} {B : γ → δ → Prop}
    {result : EStateM.Result Error σ α} {result' : EStateM.Result Error σ β}
    (h : e.Ends A result result')
    (hvalue : ∀ value value', A value value' → B (f value) (g value')) :
    e.Ends B (FramedTree.mapValue f result) (FramedTree.mapValue g result') := by
  cases h with
  | ok hrelated hstate => exact .ok (hvalue _ _ hrelated) hstate
  | error hstate => exact .error hstate
  | parted hstate =>
    refine .parted ?_
    rw [stateAfter_mapValue]
    exact hstate

end Escort

/-- Two activities that go side by side. -/
structure Escorts (e : Escort σ) (first second : EStateM Error σ α) : Prop where
  ends : ∀ state state', e.Beside state state' → e.Ends Eq (first state) (second state')
  onward : Keeps e.Onward second

namespace Escorts

section Sequence

variable {e : Escort σ}

theorem pure (value : α) : Escorts e (Pure.pure value) (Pure.pure value) :=
  ⟨fun _ _ hstate => .ok rfl hstate, Keeps.pure value⟩

theorem bind {first second : EStateM Error σ α} {next next' : α → EStateM Error σ β}
    (h : Escorts e first second) (hnext : ∀ value, Escorts e (next value) (next' value)) :
    Escorts e (first >>= next) (second >>= next') := by
  refine ⟨fun state state' hstate => ?_, Keeps.bind h.onward fun value => (hnext value).onward⟩
  have hfirst := h.ends state state' hstate
  rw [bind_apply, bind_apply]
  generalize first state = result at hfirst ⊢
  generalize second state' = result' at hfirst ⊢
  cases hfirst with
  | ok hvalue hbetween =>
    subst hvalue
    exact (hnext _).ends _ _ hbetween
  | error hafter => exact .error hafter
  | parted hafter =>
    refine .parted ?_
    cases result' with
    | error error after => exact hafter
    | ok value between => exact e.parted hafter ((hnext value).onward between)

theorem map (f : α → β) {first second : EStateM Error σ α} (h : Escorts e first second) :
    Escorts e (f <$> first) (f <$> second) := bind h fun _ => pure _

end Sequence

section Nodes

variable {e : Escort σ} {V : ν → ν → Prop}

theorem lift {first second : EStateM Error σ α} (h : Escorts e first second) :
    Escorts (e.on V) (Access.lift first) (Access.lift second) := by
  constructor
  · intro ⟨node, around⟩ ⟨node', around'⟩ ⟨hnode, haround⟩
    rw [Access.lift_apply, Access.lift_apply]
    exact (h.ends around around' haround).mapState (fun _ _ hafter => ⟨hnode, hafter⟩)
      (fun _ _ hafter => hafter)
      fun _ _ _ hafter => hafter
  · intro ⟨node, around⟩
    rw [Access.lift_apply, stateAfter_mapState]
    exact h.onward around

theorem node_bind {next next' : ν → Access σ ν α}
    (h : ∀ node node', V node node' → Escorts (e.on V) (next node) (next' node'))
    (honward : ∀ node, Keeps (OnAround e.Onward) (next' node)) :
    Escorts (e.on V) (Access.node >>= next) (Access.node >>= next') :=
  ⟨fun state state' hstate => (h _ _ hstate.1).ends state state' hstate,
    fun state => honward state.1 state⟩

/-- Work on a part that depends on the node. -/
theorem node_within {U : ν → ν → μ → μ → Prop} {get : ν → μ} {put : μ → ν → ν}
    {access access' : ν → Access σ μ α}
    (h : ∀ node node', V node node' → Escorts (e.on (U node node')) (access node) (access' node'))
    (honward : ∀ node, Keeps (OnAround e.Onward) (access' node))
    (hget : ∀ node node', V node node' → U node node' (get node) (get node'))
    (hput : ∀ node node' part part',
      V node node' → U node node' part part' → V (put part node) (put part' node')) :
    Escorts (e.on V) (do Access.within get put (access (← Access.node)))
      (do Access.within get put (access' (← Access.node))) := by
  constructor
  · intro ⟨node, around⟩ ⟨node', around'⟩ ⟨hnode, haround⟩
    rw [Access.node_bind_apply, Access.node_bind_apply, Access.within_apply, Access.within_apply]
    refine ((h node node' hnode).ends (get node, around) (get node', around')
      ⟨hget node node' hnode, haround⟩).mapState
      (fun state state' hstate => ⟨hput node node' _ _ hnode hstate.1, hstate.2⟩)
        (fun _ _ hafter => hafter)
      fun _ _ _ hafter => hafter
  · intro ⟨node, around⟩
    rw [Access.node_bind_apply, Access.within_apply, stateAfter_mapState]
    exact honward node (get node, around)

/-- Cells whose values are got side by side, and are related. -/
def Fetches (e : Escort σ) (V : ν → ν → Prop) (load : Option Origin → EStateM Error σ ν)
    (cell cell' : Lazy ν) : Prop :=
  ∀ state state', e.Beside state state' → e.Ends V (cell.fetch load state) (cell'.fetch load state')

theorem fetches_of_peek {load : Option Origin → EStateM Error σ ν} {cell cell' : Lazy ν}
    {value value' : ν} (h : cell.peek = some value) (h' : cell'.peek = some value')
    (hvalue : V value value') :
    Fetches e V load cell cell' := by
  intro state state' hstate
  rw [Lazy.fetch_of_peek h, Lazy.fetch_of_peek h']
  exact .ok hvalue hstate

/-- Opening cells whose values are got side by side. -/
theorem opens {load : Option Origin → EStateM Error σ ν} {inner : Access σ ν α}
    (hload : ∀ origin, Keeps e.Onward (load origin)) (hinner : Escorts (e.on V) inner inner) :
    Escorts (e.on (Fetches e V load)) (Lazy.access load inner) (Lazy.access load inner) := by
  have hopens := Lazy.access_opens load inner
  have hfetch (cell : Lazy ν) : Keeps e.Onward (cell.fetch load) := by
    unfold Lazy.fetch
    split
    · exact Keeps.pure _
    · exact hload _
  have honward : Keeps (OnAround e.Onward) (Lazy.access load inner) := by
    intro ⟨cell, around⟩
    have hfirst := hfetch cell around
    cases hrun : cell.fetch load around with
    | error error after =>
      rw [hrun] at hfirst
      rw [hopens.failed hrun]
      exact hfirst
    | ok value after =>
      rw [hrun] at hfirst
      obtain ⟨kept, -, heq⟩ := hopens.fetched hrun
      rw [heq, stateAfter_mapState]
      exact trans_of e.Onward hfirst (hinner.onward (value, after))
  refine ⟨fun ⟨cell, around⟩ ⟨cell', around'⟩ ⟨hcell, haround⟩ => ?_, honward⟩
  have hfetched := hcell around around' haround
  cases hrun : cell.fetch load around with
  | error error after =>
    rw [hrun] at hfetched
    rw [hopens.failed hrun]
    generalize hrun' : cell'.fetch load around' = result' at hfetched
    cases hfetched with
    | error hafter =>
      rw [hopens.failed hrun']
      exact .error hafter
    | parted hafter =>
      refine .parted ?_
      cases result' with
      | error error' after' =>
        rw [hopens.failed hrun']
        exact hafter
      | ok value' after' =>
        obtain ⟨kept', -, heq'⟩ := hopens.fetched hrun'
        rw [heq', stateAfter_mapState]
        exact e.parted hafter (hinner.onward (value', after'))
  | ok value after =>
    rw [hrun] at hfetched
    generalize hrun' : cell'.fetch load around' = result' at hfetched
    cases hfetched with
    | ok hvalue hafter =>
      obtain ⟨kept, -, heq⟩ := hopens.fetched hrun
      obtain ⟨kept', -, heq'⟩ := hopens.fetched hrun'
      rw [heq, heq']
      refine (hinner.ends _ _ ⟨hvalue, hafter⟩).mapState (fun state state' hstate => ⟨?_, hstate.2⟩)
        (fun _ _ hlast => hlast) fun _ _ _ hlast => hlast
      exact fetches_of_peek (Lazy.peek_putBack _ _) (Lazy.peek_putBack _ _) hstate.1

/-- Work on one slot of related rows. -/
theorem slot {i : Nat} {inner : Access σ ν α} (h : Escorts (e.on V) inner inner) :
    Escorts (e.on fun slots slots' : Slots ν => Option.Rel V (slots.get? i) (slots'.get? i))
      (Slots.access i inner)
      (Slots.access i inner) := by
  constructor
  · intro ⟨slots, around⟩ ⟨slots', around'⟩ ⟨hslots, haround⟩
    dsimp only at hslots
    generalize hfound : slots.get? i = found at hslots
    generalize hfound' : slots'.get? i = found' at hslots
    cases hslots with
    | none =>
      rw [Slots.access_apply_none hfound, Slots.access_apply_none hfound']
      refine .ok rfl ⟨?_, haround⟩
      dsimp only
      rw [hfound, hfound']
      exact .none
    | some hvalue =>
      rw [Slots.access_apply_some hfound, Slots.access_apply_some hfound']
      refine ((map some h).ends _ _ ⟨hvalue, haround⟩).mapState
        (fun state state' hstate => ⟨?_, hstate.2⟩)
        (fun _ _ hlast => hlast) fun _ _ _ hlast => hlast
      dsimp only
      rw [Slots.get?_modify, Slots.get?_modify, if_pos rfl, if_pos rfl, hfound, hfound']
      exact .some hstate.1
  · intro ⟨slots, around⟩
    cases hfound : slots.get? i with
    | none =>
      rw [Slots.access_apply_none hfound]
      exact refl_of e.Onward around
    | some value =>
      rw [Slots.access_apply_some hfound, stateAfter_mapState]
      exact (map some h).onward (value, around)

variable {Q : Nat → ν → ν → Prop} {inner : Nat → Access σ ν α}

private theorem onward_accessFrom (h : ∀ i, Keeps (OnAround e.Onward) (inner i)) (i : Nat)
    (cells : List (Option ν)) (around : σ) :
    e.Onward around (stateAfter (Slots.accessFrom inner i cells around)).2 := by
  induction cells generalizing i around with
  | nil => exact refl_of e.Onward around
  | cons cell cells ih =>
    cases cell with
    | none =>
      rw [Slots.accessFrom_gap, stateAfter_mapState]
      exact ih (i + 1) around
    | some value =>
      have hvalue := h i (value, around)
      cases hinner : inner i (value, around) with
      | error error after =>
        rw [hinner] at hvalue
        rw [Slots.accessFrom_of_error hinner]
        exact hvalue
      | ok result after =>
        rw [hinner] at hvalue
        rw [Slots.accessFrom_of_ok hinner, stateAfter_mapState, stateAfter_mapValue]
        exact trans_of e.Onward hvalue (ih (i + 1) after.2)

private theorem accessFrom (h : ∀ i, Escorts (e.on (Q i)) (inner i) (inner i)) {i : Nat}
    {cells cells' : List (Option ν)} {around around' : σ}
    (hcells : Mirrors.CellsFrom Q i cells cells') (haround : e.Beside around around') :
    (e.on (Mirrors.CellsFrom Q i)).Ends Eq (Slots.accessFrom inner i cells around)
      (Slots.accessFrom inner i cells' around') := by
  have honward (i : Nat) : Keeps (OnAround e.Onward) (inner i) := (h i).onward
  -- The surroundings change with every cell; all that the next one needs is that they stay side by
  -- side.
  induction cells generalizing i cells' around around' with
  | nil =>
    cases cells' with
    | nil => exact .ok rfl ⟨trivial, haround⟩
    | cons cell' cells' => exact hcells.elim
  | cons cell cells ih =>
    cases cells' with
    | nil => exact hcells.elim
    | cons cell' cells' =>
      obtain ⟨hcell, hrest⟩ := hcells
      cases hcell with
      | none =>
        rw [Slots.accessFrom_gap, Slots.accessFrom_gap]
        exact (ih hrest haround).mapState (fun _ _ hafter => ⟨⟨.none, hafter.1⟩, hafter.2⟩)
          (fun _ _ hafter => hafter)
          fun _ _ _ hafter => hafter
      | @some value value' hvalue =>
        have hfirst := (h i).ends (value, around) (value', around') ⟨hvalue, haround⟩
        generalize hrun : inner i (value, around) = result at hfirst
        generalize hrun' : inner i (value', around') = result' at hfirst
        cases hfirst with
        | error hafter =>
          rw [Slots.accessFrom_of_error hrun, Slots.accessFrom_of_error hrun']
          exact .error hafter
        | parted hafter =>
          rw [Slots.accessFrom_of_error hrun]
          refine .parted ?_
          cases result' with
          | error error after' =>
            rw [Slots.accessFrom_of_error hrun']
            exact hafter
          | ok found after' =>
            rw [Slots.accessFrom_of_ok hrun', stateAfter_mapState, stateAfter_mapValue]
            exact e.parted hafter (onward_accessFrom honward (i + 1) cells' after'.2)
        | ok hfound hafter =>
          rw [Slots.accessFrom_of_ok hrun, Slots.accessFrom_of_ok hrun']
          have hothers := (ih hrest hafter.2).mapValue fun _ _ hvalues =>
            congrArg₂ List.cons hfound hvalues
          exact hothers.mapState (fun _ _ hlast => ⟨⟨.some hafter.1, hlast.1⟩, hlast.2⟩)
            (fun _ _ hlast => hlast)
            fun _ _ _ hlast => hlast

theorem accessAll (h : ∀ i, Escorts (e.on (Q i)) (inner i) (inner i)) :
    Escorts (e.on (Slots.Pointwise Q)) (Slots.accessAll inner) (Slots.accessAll inner) := by
  constructor
  · intro ⟨slots, around⟩ ⟨slots', around'⟩ ⟨hslots, haround⟩
    have hrows := Mirrors.cellsFrom_of_pointwise hslots
    rw [Slots.accessAll_apply, Slots.accessAll_apply]
    exact (accessFrom h hrows haround).mapState
      (fun state state' hstate => ⟨Mirrors.pointwise_of_cellsFrom hstate.1, hstate.2⟩)
        (fun _ _ hlast => hlast)
      fun _ _ _ hlast => hlast
  · intro ⟨slots, around⟩
    rw [Slots.accessAll_apply, stateAfter_mapState]
    exact onward_accessFrom (fun i => (h i).onward) 0 slots.cells.toList around

end Nodes
end Escorts

end FramedTree
