import Mathlib.Data.List.Forall2
import FramedTree.Proofs.PreservedRelations

/-! # Activities that mirror each other

Two activities mirror each other if, from related states, both come to the same kind of end: with
related values or with related failures, and again in related states. The rules here follow the ways
in which activities are put together.
-/

namespace FramedTree

variable {σ τ ν μ α β γ δ : Type} {E : Error → Error → Prop}

/-- Ends of the same kind. -/
inductive Matching (E : Error → Error → Prop) (S : σ → σ → Prop) (A : α → β → Prop) :
    EStateM.Result Error σ α → EStateM.Result Error σ β → Prop where
  | ok {value : α} {value' : β} {state state' : σ} (hvalue : A value value')
      (hstate : S state state') :
      Matching E S A (.ok value state) (.ok value' state')
  | error {error error' : Error} {state state' : σ} (herror : E error error')
      (hstate : S state state') :
      Matching E S A (.error error state) (.error error' state')

/-- The activities come to the same kind of end from all related states. -/
def Mirrors (E : Error → Error → Prop) (S : σ → σ → Prop) (A : α → β → Prop)
    (first : EStateM Error σ α) (second : EStateM Error σ β) : Prop :=
  ∀ state state', S state state' → Matching E S A (first state) (second state')

theorem Matching.mapState {S : σ → σ → Prop} {T : τ → τ → Prop} {A : α → β → Prop} {f g : σ → τ}
    {result : EStateM.Result Error σ α} {result' : EStateM.Result Error σ β}
    (h : Matching E S A result result')
    (hstate : ∀ state state', S state state' → T (f state) (g state')) :
    Matching E T A (FramedTree.mapState f result) (FramedTree.mapState g result') := by
  cases h with
  | ok hvalue hrelated => exact .ok hvalue (hstate _ _ hrelated)
  | error herror hrelated => exact .error herror (hstate _ _ hrelated)

private theorem Matching.mapValue {S : σ → σ → Prop} {A : α → β → Prop} {B : γ → δ → Prop}
    {f : α → γ} {g : β → δ} {result : EStateM.Result Error σ α} {result' : EStateM.Result Error σ β}
    (h : Matching E S A result result')
    (hvalue : ∀ value value', A value value' → B (f value) (g value')) :
    Matching E S B (FramedTree.mapValue f result) (FramedTree.mapValue g result') := by
  cases h with
  | ok hrelated hstate => exact .ok (hvalue _ _ hrelated) hstate
  | error herror hstate => exact .error herror hstate

namespace Mirrors

variable {S : σ → σ → Prop} {A : α → β → Prop} {B : γ → δ → Prop}

theorem pure {value : α} {value' : β} (h : A value value') :
    Mirrors E S A (Pure.pure value) (Pure.pure value') := fun _ _ hstate => .ok h hstate

theorem throw {error error' : Error} (h : E error error') :
    Mirrors E S A (MonadExcept.throw error) (MonadExcept.throw error') :=
      fun _ _ hstate => .error h hstate

theorem bind {first : EStateM Error σ α} {second : EStateM Error σ β} {next : α → EStateM Error σ γ}
    {next' : β → EStateM Error σ δ} (h : Mirrors E S A first second)
    (hnext : ∀ value value', A value value' → Mirrors E S B (next value) (next' value')) :
    Mirrors E S B (first >>= next) (second >>= next') := by
  intro state state' hstate
  have hrun := h state state' hstate
  rw [bind_apply, bind_apply]
  generalize first state = result at hrun ⊢
  generalize second state' = result' at hrun ⊢
  cases hrun with
  | ok hvalue hbetween => exact hnext _ _ hvalue _ _ hbetween
  | error herror hafter => exact .error herror hafter

theorem map {first : EStateM Error σ α} {second : EStateM Error σ β} {f : α → γ} {g : β → δ}
    (h : Mirrors E S A first second)
    (hfg : ∀ value value', A value value' → B (f value) (g value')) :
    Mirrors E S B (f <$> first) (g <$> second) :=
  bind h fun _ _ hvalue => pure (hfg _ _ hvalue)

theorem get : Mirrors E S S MonadState.get MonadState.get := fun _ _ hstate => .ok hstate hstate

theorem modifyGet {f : σ → α × σ} {g : σ → β × σ}
    (h : ∀ state state', S state state' → A (f state).1 (g state').1 ∧ S (f state).2 (g state').2) :
    Mirrors E S A (MonadStateOf.modifyGet f) (MonadStateOf.modifyGet g) := by
  intro state state' hstate
  obtain ⟨hvalue, hafter⟩ := h state state' hstate
  exact .ok hvalue hafter

end Mirrors

/-- Results of attempts: related values, or related failures. -/
inductive Attempts (E : Error → Error → Prop) (A : α → β → Prop) :
    Except Error α → Except Error β → Prop where
  | ok {value : α} {value' : β} (hvalue : A value value') : Attempts E A (.ok value) (.ok value')
  | error {error error' : Error} (herror : E error error') :
      Attempts E A (.error error) (.error error')

/-- Related nodes in related surroundings. -/
def Both (V : ν → ν → Prop) (T : σ → σ → Prop) (state state' : ν × σ) : Prop :=
  V state.1 state'.1 ∧ T state.2 state'.2

namespace Mirrors

variable {V : ν → ν → Prop} {T : σ → σ → Prop} {A : α → β → Prop} {B : γ → δ → Prop}

theorem node :
    Mirrors E (Both V T) V Access.node Access.node := fun _ _ hstate => .ok hstate.1 hstate

theorem edit {f g : ν → ν} (h : ∀ node node', V node node' → V (f node) (g node')) :
    Mirrors E (Both V T) Eq (Access.edit f) (Access.edit g) :=
  fun _ _ hstate => .ok rfl ⟨h _ _ hstate.1, hstate.2⟩

theorem lift {first : EStateM Error σ α} {second : EStateM Error σ β}
    (h : Mirrors E T A first second) :
    Mirrors E (Both V T) A (Access.lift first) (Access.lift second) := by
  rintro ⟨node, around⟩ ⟨node', around'⟩ ⟨hnode, haround⟩
  rw [Access.lift_apply, Access.lift_apply]
  exact (h around around' haround).mapState fun _ _ hafter => ⟨hnode, hafter⟩

/-- Work on a part that depends on the node. -/
theorem node_within {U : ν → ν → μ → μ → Prop} {get : ν → μ} {put : μ → ν → ν}
    {access : ν → Access σ μ α} {access' : ν → Access σ μ β}
    (h : ∀ node node', V node node' →
      Mirrors E (Both (U node node') T) A (access node) (access' node'))
    (hget : ∀ node node', V node node' → U node node' (get node) (get node'))
    (hput : ∀ node node' part part', V node node' → U node node' part part' →
      V (put part node) (put part' node')) :
    Mirrors E (Both V T) A (do Access.within get put (access (← Access.node)))
      (do Access.within get put (access' (← Access.node))) := by
  rintro ⟨node, around⟩ ⟨node', around'⟩ ⟨hnode, haround⟩
  rw [Access.node_bind_apply, Access.node_bind_apply, Access.within_apply, Access.within_apply]
  refine (h node node' hnode (get node, around) (get node', around')
    ⟨hget node node' hnode, haround⟩).mapState ?_
  intro state state' hstate
  exact ⟨hput node node' _ _ hnode hstate.1, hstate.2⟩

theorem around {T' : τ → τ → Prop} {get : τ → σ} {put : σ → τ → τ} {access : Access σ ν α}
    {access' : Access σ ν β} (h : Mirrors E (Both V T) A access access')
    (hget : ∀ whole whole', T' whole whole' → T (get whole) (get whole'))
    (hput : ∀ whole whole' part part', T' whole whole' → T part part' →
      T' (put part whole) (put part' whole')) :
    Mirrors E (Both V T') A (Access.around get put access) (Access.around get put access') := by
  rintro ⟨node, whole⟩ ⟨node', whole'⟩ ⟨hnode, hwhole⟩
  rw [Access.around_apply, Access.around_apply]
  refine (h (node, get whole) (node', get whole') ⟨hnode, hget whole whole' hwhole⟩).mapState ?_
  intro state state' hstate
  exact ⟨hstate.1, hput whole whole' _ _ hwhole hstate.2⟩

theorem attempt {E' : Error → Error → Prop} {access : Access σ ν α} {access' : Access σ ν β}
    (h : Mirrors E (Both V T) A access access') :
    Mirrors E' (Both V T) (Attempts E A) (Access.attempt access) (Access.attempt access') := by
  intro state state' hstate
  have hrun := h state state' hstate
  unfold Access.attempt
  generalize access state = result at hrun ⊢
  generalize access' state' = result' at hrun ⊢
  cases hrun with
  | ok hvalue hafter => exact .ok (.ok hvalue) hafter
  | error herror hafter => exact .ok (.error herror) hafter

/-- Opening related cells, if fetching gives related values. -/
theorem opens {C : Lazy ν → Lazy ν → Prop} {load load' : Option Origin → EStateM Error σ ν}
    {inner : Access σ ν α} {inner' : Access σ ν β} {access : Access σ (Lazy ν) α}
    {access' : Access σ (Lazy ν) β} (hopens : Lazy.Opens load inner access)
    (hopens' : Lazy.Opens load' inner' access')
    (hfetch : ∀ cell cell', C cell cell' → Mirrors E T V (cell.fetch load) (cell'.fetch load'))
    (hput : ∀ cell cell' value value', cell.peek = some value → cell'.peek = some value' →
      V value value' → C cell cell')
    (hinner : Mirrors E (Both V T) A inner inner') : Mirrors E (Both C T) A access access' := by
  rintro ⟨cell, around⟩ ⟨cell', around'⟩ ⟨hcell, haround⟩
  have hfetched := hfetch cell cell' hcell around around' haround
  cases hrun : cell.fetch load around with
  | error error after =>
    rw [hrun] at hfetched
    cases hrun' : cell'.fetch load' around' with
    | ok value after' =>
      rw [hrun'] at hfetched
      cases hfetched
    | error error' after' =>
      rw [hrun'] at hfetched
      rw [hopens.failed hrun, hopens'.failed hrun']
      cases hfetched with
      | error herror hafter => exact .error herror ⟨hcell, hafter⟩
  | ok value after =>
    rw [hrun] at hfetched
    cases hrun' : cell'.fetch load' around' with
    | error error' after' =>
      rw [hrun'] at hfetched
      cases hfetched
    | ok value' after' =>
      rw [hrun'] at hfetched
      obtain ⟨kept, -, heq⟩ := hopens.fetched hrun
      obtain ⟨kept', -, heq'⟩ := hopens'.fetched hrun'
      rw [heq, heq']
      cases hfetched with
      | ok hvalue hafter =>
        refine (hinner (value, after) (value', after') ⟨hvalue, hafter⟩).mapState ?_
        intro state state' hstate
        exact ⟨hput _ _ _ _ (Lazy.peek_putBack _ _) (Lazy.peek_putBack _ _) hstate.1, hstate.2⟩

section Slots

/-- Work on one slot of related rows. -/
theorem slot {i : Nat} {W : Slots ν → Slots ν → Prop} {inner : Access σ ν α} {inner' : Access σ ν β}
    (h : Mirrors E (Both V T) A inner inner')
    (hget : ∀ slots slots', W slots slots' → Option.Rel V (slots.get? i) (slots'.get? i))
    (hput : ∀ slots slots' value value',
      W slots slots' → (slots.get? i).isSome → (slots'.get? i).isSome →
      V value value' → W (slots.modify i fun _ => value) (slots'.modify i fun _ => value')) :
    Mirrors E (Both W T) (Option.Rel A) (Slots.access i inner) (Slots.access i inner') := by
  rintro ⟨slots, around⟩ ⟨slots', around'⟩ ⟨hslots, haround⟩
  have hslot := hget slots slots' hslots
  cases hfound : slots.get? i with
  | none =>
    rw [hfound] at hslot
    cases hfound' : slots'.get? i with
    | some value' =>
      rw [hfound'] at hslot
      cases hslot
    | none =>
      rw [Slots.access_apply_none hfound, Slots.access_apply_none hfound']
      exact .ok .none ⟨hslots, haround⟩
  | some value =>
    rw [hfound] at hslot
    cases hfound' : slots'.get? i with
    | none =>
      rw [hfound'] at hslot
      cases hslot
    | some value' =>
      rw [hfound'] at hslot
      cases hslot with
      | some hvalue =>
        rw [Slots.access_apply_some hfound, Slots.access_apply_some hfound']
        have hinner : Mirrors E (Both V T) (Option.Rel A) (some <$> inner) (some <$> inner') :=
          map h fun _ _ hresult => .some hresult
        refine (hinner (value, around) (value', around') ⟨hvalue, haround⟩).mapState ?_
        intro state state' hstate
        refine ⟨hput slots slots' _ _ hslots ?_ ?_ hstate.1, hstate.2⟩
        · rw [hfound]
          rfl
        · rw [hfound']
          rfl

variable {Q : Nat → ν → ν → Prop}

theorem pointwise {i : Nat} {inner : Access σ ν α} {inner' : Access σ ν β}
    (h : Mirrors E (Both (Q i) T) A inner inner') :
    Mirrors E (Both (Slots.Pointwise Q) T) (Option.Rel A) (Slots.access i inner)
      (Slots.access i inner') := by
  refine slot h (fun slots slots' hslots => hslots.slot i) ?_
  intro slots slots' value value' hslots hfound hfound' hvalue
  obtain ⟨first, hfirst⟩ := Option.isSome_iff_exists.1 hfound
  obtain ⟨first', hfirst'⟩ := Option.isSome_iff_exists.1 hfound'
  refine ⟨?_, fun j => ?_⟩
  · rw [Slots.size_modify, Slots.size_modify]
    exact hslots.size_eq
  · rw [Slots.get?_modify, Slots.get?_modify]
    by_cases hj : j = i
    · subst hj
      rw [if_pos rfl, if_pos rfl, hfirst, hfirst']
      exact .some hvalue
    · rw [if_neg hj, if_neg hj]
      exact hslots.slot j

/-- Rows of cells of which the first have number `i`, related cell by cell. -/
def CellsFrom (Q : Nat → ν → ν → Prop) : Nat → List (Option ν) → List (Option ν) → Prop
  | _, [], [] => True
  | i, cell :: cells, cell' :: cells' =>
    Option.Rel (Q i) cell cell' ∧ CellsFrom Q (i + 1) cells cells'
  | _, _, _ => False

private theorem cellsFrom_iff {i : Nat} {cells cells' : List (Option ν)} :
    CellsFrom Q i cells cells' ↔ cells'.length = cells.length ∧
      ∀ j, Option.Rel (Q (i + j)) cells[j]?.join cells'[j]?.join := by
  induction cells generalizing i cells' with
  | nil =>
    cases cells' with
    | nil => exact ⟨fun _ => ⟨rfl, fun _ => .none⟩, fun _ => trivial⟩
    | cons cell' cells' => exact ⟨fun h => h.elim, fun h => nomatch h.1⟩
  | cons cell cells ih =>
    cases cells' with
    | nil => exact ⟨fun h => h.elim, fun h => nomatch h.1⟩
    | cons cell' cells' =>
      simp only [CellsFrom, ih]
      constructor
      · rintro ⟨hcell, hlength, hcells⟩
        refine ⟨congrArg Nat.succ hlength, fun j => ?_⟩
        cases j with
        | zero => exact hcell
        | succ j =>
          have hj := hcells j
          rw [show i + 1 + j = i + (j + 1) by omega] at hj
          exact hj
      · rintro ⟨hlength, hcells⟩
        refine ⟨hcells 0, Nat.succ.inj hlength, fun j => ?_⟩
        have hj := hcells (j + 1)
        rw [show i + (j + 1) = i + 1 + j by omega] at hj
        exact hj

theorem cellsFrom_of_pointwise {slots slots' : Slots ν} (h : Slots.Pointwise Q slots slots') :
    CellsFrom Q 0 slots.cells.toList slots'.cells.toList := by
  rw [cellsFrom_iff]
  refine ⟨?_, fun j => ?_⟩
  · rw [Slots.length_cells, Slots.length_cells, h.size_eq]
  · rw [Nat.zero_add, Slots.join_cells, Slots.join_cells]
    exact h.slot j

theorem pointwise_of_cellsFrom {cells cells' : List (Option ν)} (h : CellsFrom Q 0 cells cells') :
    Slots.Pointwise Q ⟨cells.toArray⟩ ⟨cells'.toArray⟩ := by
  obtain ⟨hlength, hcells⟩ := cellsFrom_iff.1 h
  refine ⟨?_, fun j => ?_⟩
  · rw [Slots.size_ofCells, Slots.size_ofCells, hlength]
  · have hj := hcells j
    rwa [Nat.zero_add, ← Slots.get?_ofCells, ← Slots.get?_ofCells] at hj

private theorem accessFrom {inner : Nat → Access σ ν α} {inner' : Nat → Access σ ν β}
    (h : ∀ i, Mirrors E (Both (Q i) T) A (inner i) (inner' i)) {i : Nat}
    {cells cells' : List (Option ν)} {around around' : σ} (hcells : CellsFrom Q i cells cells')
    (haround : T around around') :
    Matching E (Both (CellsFrom Q i) T) (List.Forall₂ A) (Slots.accessFrom inner i cells around)
      (Slots.accessFrom inner' i cells' around') := by
  induction cells generalizing i cells' around around' with
  | nil =>
    cases cells' with
    | nil => exact .ok .nil ⟨trivial, haround⟩
    | cons cell' cells' => exact hcells.elim
  | cons cell cells ih =>
    cases cells' with
    | nil => exact hcells.elim
    | cons cell' cells' =>
      obtain ⟨hcell, hrest⟩ := hcells
      cases hcell with
      | none =>
        rw [Slots.accessFrom_gap, Slots.accessFrom_gap]
        exact (ih hrest haround).mapState fun _ _ hafter => ⟨⟨.none, hafter.1⟩, hafter.2⟩
      | @some value value' hvalue =>
        have hfirst := h i (value, around) (value', around') ⟨hvalue, haround⟩
        generalize hrun : inner i (value, around) = result at hfirst
        generalize hrun' : inner' i (value', around') = result' at hfirst
        cases hfirst with
        | error herror hafter =>
          rw [Slots.accessFrom_of_error hrun, Slots.accessFrom_of_error hrun']
          exact .error herror ⟨⟨.some hafter.1, hrest⟩, hafter.2⟩
        | ok hanswer hafter =>
          rw [Slots.accessFrom_of_ok hrun, Slots.accessFrom_of_ok hrun']
          have hothers := (ih hrest hafter.2).mapValue fun _ _ hvalues =>
            List.Forall₂.cons hanswer hvalues
          exact hothers.mapState fun _ _ hlast => ⟨⟨.some hafter.1, hlast.1⟩, hlast.2⟩

theorem accessAll {inner : Nat → Access σ ν α} {inner' : Nat → Access σ ν β}
    (h : ∀ i, Mirrors E (Both (Q i) T) A (inner i) (inner' i)) :
    Mirrors E (Both (Slots.Pointwise Q) T) (List.Forall₂ A) (Slots.accessAll inner)
      (Slots.accessAll inner') := by
  rintro ⟨slots, around⟩ ⟨slots', around'⟩ ⟨hslots, haround⟩
  rw [Slots.accessAll_apply, Slots.accessAll_apply]
  exact (accessFrom h (cellsFrom_of_pointwise hslots) haround).mapState fun state state' hstate =>
    ⟨pointwise_of_cellsFrom hstate.1, hstate.2⟩

end Slots
end Mirrors

/-- The same for activities that cannot fail. -/
def Parallel (S : σ → σ → Prop) (A : α → β → Prop) (first : StateM σ α) (second : StateM σ β) :
    Prop :=
  ∀ state state', S state state' → A (first state).1 (second state').1 ∧
    S (first state).2 (second state').2

namespace Parallel

variable {S : σ → σ → Prop} {A : α → β → Prop} {B : γ → δ → Prop}

theorem pure {value : α} {value' : β} (h : A value value') :
    Parallel S A (Pure.pure value) (Pure.pure value') := fun _ _ hstate => ⟨h, hstate⟩

theorem bind {first : StateM σ α} {second : StateM σ β} {next : α → StateM σ γ}
    {next' : β → StateM σ δ} (h : Parallel S A first second)
    (hnext : ∀ value value', A value value' → Parallel S B (next value) (next' value')) :
    Parallel S B (first >>= next) (second >>= next') := by
  intro state state' hstate
  obtain ⟨hvalue, hbetween⟩ := h state state' hstate
  exact hnext _ _ hvalue _ _ hbetween

end Parallel
end FramedTree
