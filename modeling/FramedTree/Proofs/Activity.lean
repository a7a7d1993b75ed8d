import FramedTree.Workspace.Basic

/-! # Activities and the states they leave behind

An activity leaves a state behind whether it succeeds or fails. The equations here say what each way
of running an activity on a part of a state does to that state; with them the parts can be reasoned
about one at a time.
-/

namespace FramedTree

variable {ε σ τ ν μ α β : Type}

/-- The state that an activity leaves behind. -/
def stateAfter : EStateM.Result ε σ α → σ
  | .ok _ state => state
  | .error _ state => state

/-- The same outcome, with another view of the state. -/
def mapState (f : σ → τ) : EStateM.Result ε σ α → EStateM.Result ε τ α
  | .ok value state => .ok value (f state)
  | .error error state => .error error (f state)

/-- The same outcome, with another view of the value. -/
def mapValue (f : α → β) : EStateM.Result ε σ α → EStateM.Result ε σ β
  | .ok value state => .ok (f value) state
  | .error error state => .error error state

@[simp] theorem stateAfter_ok (value : α) (state : σ) :
    stateAfter (.ok value state : EStateM.Result ε σ α) = state := rfl

@[simp] theorem stateAfter_error (error : ε) (state : σ) :
    stateAfter (.error error state : EStateM.Result ε σ α) = state := rfl

@[simp] theorem mapState_ok (f : σ → τ) (value : α) (state : σ) :
    mapState f (.ok value state : EStateM.Result ε σ α) = .ok value (f state) := rfl

@[simp] theorem mapState_error (f : σ → τ) (error : ε) (state : σ) :
    mapState f (.error error state : EStateM.Result ε σ α) = .error error (f state) := rfl

@[simp] theorem mapValue_ok (f : α → β) (value : α) (state : σ) :
    mapValue f (.ok value state : EStateM.Result ε σ α) = .ok (f value) state := rfl

@[simp] theorem mapValue_error (f : α → β) (error : ε) (state : σ) :
    mapValue f (.error error state : EStateM.Result ε σ α) = .error error state := rfl

theorem mapState_mapState (f : σ → τ) (g : τ → ν) (result : EStateM.Result ε σ α) :
    mapState g (mapState f result) = mapState (fun state => g (f state)) result := by
  cases result <;> rfl

theorem mapState_mapValue (f : σ → τ) (g : α → β) (result : EStateM.Result ε σ α) :
    mapState f (mapValue g result) = mapValue g (mapState f result) := by
  cases result <;> rfl

theorem mapState_eq_ok {f : σ → τ} {result : EStateM.Result ε σ α} {value : α} {state : τ}
    (h : mapState f result = .ok value state) :
    ∃ between, result = .ok value between ∧ f between = state := by
  cases result with
  | error error between => cases h
  | ok first between =>
    cases h
    exact ⟨between, rfl, rfl⟩

theorem mapState_eq_error {f : σ → τ} {result : EStateM.Result ε σ α} {error : ε} {state : τ}
    (h : mapState f result = .error error state) :
    ∃ between, result = .error error between ∧ f between = state := by
  cases result with
  | ok first between => cases h
  | error first between =>
    cases h
    exact ⟨between, rfl, rfl⟩

@[simp] theorem stateAfter_mapState (f : σ → τ) (result : EStateM.Result ε σ α) :
    stateAfter (mapState f result) = f (stateAfter result) := by
  cases result <;> rfl

@[simp] theorem stateAfter_mapValue (f : α → β) (result : EStateM.Result ε σ α) :
    stateAfter (mapValue f result) = stateAfter result := by
  cases result <;> rfl

theorem bind_apply (activity : EStateM ε σ α) (next : α → EStateM ε σ β) (state : σ) :
    (activity >>= next) state = match activity state with
      | .ok value state => next value state
      | .error error state => .error error state := rfl

theorem stateAfter_bind_pure (activity : EStateM ε σ α) (f : α → β) (state : σ) :
    stateAfter ((activity >>= fun value => pure (f value)) state) =
      stateAfter (activity state) := by
  rw [bind_apply]
  cases activity state <;> rfl

/-- A sequence that succeeds succeeds step by step. -/
theorem bind_ok {activity : EStateM ε σ α} {next : α → EStateM ε σ β} {state after : σ} {result : β}
    (h : (activity >>= next) state = .ok result after) :
    ∃ value between, activity state = .ok value between ∧
      next value between = .ok result after := by
  rw [bind_apply] at h
  cases hrun : activity state with
  | error error between =>
    rw [hrun] at h
    cases h
  | ok value between =>
    rw [hrun] at h
    exact ⟨value, between, rfl, h⟩

theorem get_bind_apply (next : σ → EStateM ε σ α) (state : σ) :
    (get >>= next) state = next state state := rfl

theorem modifyGet_apply (f : σ → α × σ) (state : σ) :
    (modifyGet f : EStateM ε σ α) state = .ok (f state).1 (f state).2 := rfl

theorem map_apply (f : α → β) (activity : EStateM ε σ α) (state : σ) :
    (f <$> activity) state = match activity state with
      | .ok value state => .ok (f value) state
      | .error error state => .error error state := rfl

theorem discard_apply (activity : EStateM ε σ α) (state : σ) :
    (discard activity) state = match activity state with
      | .ok _ state => .ok () state
      | .error error state => .error error state := rfl

theorem discard_bind (activity : EStateM ε σ α) (next : PUnit → EStateM ε σ β) :
    (discard activity >>= next) = activity >>= fun _ => next () := by
  funext state
  rw [bind_apply, bind_apply, discard_apply]
  cases activity state <;> rfl

namespace Access

theorem lift_apply (activity : EStateM Error σ α) (node : ν) (around : σ) :
    lift activity (node, around) = mapState (fun around => (node, around)) (activity around) := by
  unfold lift
  cases hrun : activity around <;> simp only [hrun, mapState]

theorem within_apply (get : ν → μ) (put : μ → ν → ν) (access : Access σ μ α) (node : ν)
    (around : σ) :
    within get put access (node, around) =
      mapState (fun state => (put state.1 node, state.2)) (access (get node, around)) := by
  unfold within
  cases hrun : access (get node, around) <;> simp only [hrun, mapState]

theorem around_apply (get : τ → σ) (put : σ → τ → τ) (access : Access σ ν α) (node : ν)
    (whole : τ) :
    around get put access (node, whole) =
      mapState (fun state => (state.1, put state.2 whole)) (access (node, get whole)) := by
  unfold around
  cases hrun : access (node, get whole) <;> simp only [hrun, mapState]

/-- What follows a look at the node starts from the same state. -/
theorem node_bind_apply (next : ν → Access σ ν α) (node : ν) (around : σ) :
    (Access.node >>= next) (node, around) = next node (node, around) := rfl

end Access

namespace Slots

theorem access_apply_none {slots : Slots α} {i : Nat} (h : slots.get? i = none)
    (inner : Access σ α β) (around : σ) :
    Slots.access i inner (slots, around) = .ok none (slots, around) := by
  unfold Slots.access
  simp only [h]

theorem access_apply_some {slots : Slots α} {i : Nat} {value : α} (h : slots.get? i = some value)
    (inner : Access σ α β) (around : σ) :
    Slots.access i inner (slots, around) =
      mapState (fun state => (slots.modify i fun _ => state.1, state.2))
        ((some <$> inner) (value, around)) := by
  unfold Slots.access
  simp only [h, map_apply]
  cases inner (value, around) <;> rfl

theorem accessAll_apply (inner : Nat → Access σ α β) (slots : Slots α) (around : σ) :
    Slots.accessAll inner (slots, around) =
      mapState (fun state => (⟨state.1.toArray⟩, state.2))
        (accessFrom inner 0 slots.cells.toList around) :=
  Access.within_apply _ _ _ _ _

/-! What work on a row of cells comes to is told by its first cell. The walk is opened here only. -/

section Rows

variable {inner : Nat → Access σ α β} {i : Nat} {value : α} {cells after : List (Option α)}
  {around last : σ} {error : Error}

theorem accessFrom_gap (inner : Nat → Access σ α β) (i : Nat) (cells : List (Option α))
    (around : σ) :
    accessFrom inner i (none :: cells) around =
      mapState (fun state => (none :: state.1, state.2))
        (accessFrom inner (i + 1) cells around) := by
  rw [accessFrom]
  cases accessFrom inner (i + 1) cells around <;> rfl

/-- The cells behind a failure stay as they are. -/
theorem accessFrom_of_error {state : α × σ} (h : inner i (value, around) = .error error state)
    (cells : List (Option α)) :
    accessFrom inner i (some value :: cells) around =
      .error error (some state.1 :: cells, state.2) := by
  rw [accessFrom, h]

theorem accessFrom_of_ok {result : β} {state : α × σ}
    (h : inner i (value, around) = .ok result state) (cells : List (Option α)) :
    accessFrom inner i (some value :: cells) around =
      mapState (fun rest => (some state.1 :: rest.1, rest.2))
        (mapValue (result :: ·) (accessFrom inner (i + 1) cells state.2)) := by
  rw [accessFrom, h]
  dsimp only
  cases accessFrom inner (i + 1) cells state.2 <;> rfl

theorem accessFrom_eq_ok {results : List β}
    (h : accessFrom inner i (some value :: cells) around = .ok results (after, last)) :
    ∃ result kept between others rest, inner i (value, around) = .ok result (kept, between) ∧
      accessFrom inner (i + 1) cells between = .ok others (rest, last) ∧
      results = result :: others ∧ after = some kept :: rest := by
  cases hfirst : inner i (value, around) with
  | error found state =>
    rw [accessFrom_of_error hfirst] at h
    cases h
  | ok result state =>
    rw [accessFrom_of_ok hfirst] at h
    cases hrest : accessFrom inner (i + 1) cells state.2 with
    | error found rest =>
      rw [hrest] at h
      cases h
    | ok others rest =>
      rw [hrest] at h
      cases h
      exact ⟨result, state.1, state.2, others, rest.1, rfl, hrest, rfl, rfl⟩

theorem accessFrom_eq_error
    (h : accessFrom inner i (some value :: cells) around = .error error (after, last)) :
    (∃ kept, inner i (value, around) = .error error (kept, last) ∧ after = some kept :: cells) ∨
      ∃ result kept between rest, inner i (value, around) = .ok result (kept, between) ∧
        accessFrom inner (i + 1) cells between = .error error (rest, last) ∧
        after = some kept :: rest := by
  cases hfirst : inner i (value, around) with
  | error found state =>
    rw [accessFrom_of_error hfirst] at h
    cases h
    exact .inl ⟨state.1, rfl, rfl⟩
  | ok result state =>
    rw [accessFrom_of_ok hfirst] at h
    cases hrest : accessFrom inner (i + 1) cells state.2 with
    | ok others rest =>
      rw [hrest] at h
      cases h
    | error found rest =>
      rw [hrest] at h
      cases h
      exact .inr ⟨result, state.1, state.2, rest.1, rfl, hrest, rfl⟩

end Rows
end Slots

namespace Lazy

/-- Gets the value of a cell: the one that is there, or else a loaded one. -/
def fetch (load : Option Origin → EStateM Error σ α) (cell : Lazy α) : EStateM Error σ α :=
  match cell.peek with
  | some value => pure value
  | none => load cell.origin

theorem fetch_of_peek {load : Option Origin → EStateM Error σ α} {cell : Lazy α} {value : α}
    (h : cell.peek = some value) : cell.fetch load = pure value := by
  rw [fetch, h]

theorem fetch_of_unloaded {load : Option Origin → EStateM Error σ α} {cell : Lazy α}
    (h : cell.peek = none) : cell.fetch load = load cell.origin := by
  rw [fetch, h]

/-- An access to a cell fetches its value, works on it and puts it back. If the value cannot be
fetched, the cell stays as it was. -/
structure Opens (load : Option Origin → EStateM Error σ α) (inner : Access σ α β)
    (access : Access σ (Lazy α) β) : Prop where
  failed : ∀ {cell around error after}, cell.fetch load around = .error error after →
    access (cell, around) = .error error (cell, after)
  fetched : ∀ {cell around value after}, cell.fetch load around = .ok value after →
    ∃ kept : Lazy α, kept.origin = cell.origin ∧
      access (cell, around) =
        mapState (fun state => (putBack state.1 kept, state.2)) (inner (value, after))

/-- A cell whose value could be fetched has a value afterwards, whatever comes of the work on it. -/
theorem Opens.isLoaded {load : Option Origin → EStateM Error σ α} {inner : Access σ α β}
    {access : Access σ (Lazy α) β} (h : Opens load inner access) {cell : Lazy α} {around : σ}
    (hfetch : ∃ value after, cell.fetch load around = .ok value after) :
    (stateAfter (access (cell, around))).1.isLoaded := by
  obtain ⟨value, after, hvalue⟩ := hfetch
  obtain ⟨kept, -, hrun⟩ := h.fetched hvalue
  rw [hrun, stateAfter_mapState, Lazy.isLoaded, peek_putBack]
  rfl

theorem getOrLoad_of_peek {load : Option Origin → Access σ (Lazy α) α} {cell : Lazy α} {value : α}
    (h : cell.peek = some value) (around : σ) :
    getOrLoad load (cell, around) = .ok value (cell, around) := by
  rw [getOrLoad, get_bind_apply]
  simp only [h]
  rfl

/-- A value that had to be loaded is kept as one that was only looked at. -/
theorem getOrLoad_of_unloaded {load : Option Origin → EStateM Error σ α} {cell : Lazy α}
    (h : cell.peek = none) (around : σ) :
    getOrLoad (fun origin => Access.lift (load origin)) (cell, around) =
      match load cell.origin around with
      | .ok value after => .ok value ({ cell with shared := some value }, after)
      | .error error after => .error error (cell, after) := by
  have hshared : cell.shared = none := by
    cases hs : cell.shared with
    | none => rfl
    | some value => cases ho : cell.owned <;> simp [peek, hs, ho] at h
  rw [getOrLoad, get_bind_apply]
  simp only [h, bind_apply, Access.lift_apply]
  cases load cell.origin around with
  | error error after => rfl
  | ok value after =>
    rw [mapState_ok]
    simp only [modifyGet_apply, hshared]

theorem access_opens (load : Option Origin → EStateM Error σ α) (inner : Access σ α β) :
    Opens load inner (Lazy.access load inner) := by
  constructor
  · intro cell around error after h
    cases hpeek : cell.peek with
    | some value =>
      rw [fetch_of_peek hpeek] at h
      cases h
    | none =>
      rw [fetch_of_unloaded hpeek] at h
      rw [Lazy.access, bind_apply, getOrLoad_of_unloaded hpeek, h]
  · intro cell around value after h
    cases hpeek : cell.peek with
    | some value =>
      rw [fetch_of_peek hpeek] at h
      cases h
      refine ⟨cell, rfl, ?_⟩
      rw [Lazy.access, bind_apply, getOrLoad_of_peek hpeek]
      exact Access.within_apply _ _ _ _ _
    | none =>
      rw [fetch_of_unloaded hpeek] at h
      refine ⟨{ cell with shared := some value }, rfl, ?_⟩
      rw [Lazy.access, bind_apply, getOrLoad_of_unloaded hpeek, h]
      exact Access.within_apply _ _ _ _ _

private theorem getMutOrLoad_of_peek {cell : Lazy α} {value : α} (h : cell.peek = some value)
    (load : Option Origin → EStateM Error σ α) (around : σ) :
    ∃ kept : Lazy α, kept.origin = cell.origin ∧
      getMutOrLoad load (cell, around) = .ok value (kept, around) := by
  obtain ⟨owned, shared, origin⟩ := cell
  cases owned with
  | some first =>
    have : first = value := by simpa [peek] using h
    subst this
    exact ⟨_, rfl, rfl⟩
  | none =>
    have : shared = some value := by simpa [peek] using h
    subst this
    exact ⟨{ owned := some value, origin }, rfl, rfl⟩

theorem getMutOrLoad_of_unloaded {load : Option Origin → EStateM Error σ α} {cell : Lazy α}
    (h : cell.peek = none) (around : σ) :
    getMutOrLoad load (cell, around) =
      match load cell.origin around with
      | .ok value after => .ok value ({ cell with owned := some value, shared := none }, after)
      | .error error after => .error error (cell, after) := by
  obtain ⟨owned, shared, origin⟩ := cell
  obtain ⟨rfl, rfl⟩ : owned = none ∧ shared = none := by simpa [peek] using h
  rw [getMutOrLoad, get_bind_apply]
  simp only [bind_apply, Access.lift_apply]
  cases load origin around <;> rfl

theorem accessMut_opens (load : Option Origin → EStateM Error σ α) (inner : Access σ α β) :
    Opens load inner (Lazy.accessMut load inner) := by
  constructor
  · intro cell around error after h
    cases hpeek : cell.peek with
    | some value =>
      rw [fetch_of_peek hpeek] at h
      cases h
    | none =>
      rw [fetch_of_unloaded hpeek] at h
      rw [Lazy.accessMut, bind_apply, getMutOrLoad_of_unloaded hpeek, h]
  · intro cell around value after h
    cases hpeek : cell.peek with
    | some first =>
      rw [fetch_of_peek hpeek] at h
      cases h
      obtain ⟨kept, horigin, hget⟩ := getMutOrLoad_of_peek hpeek load around
      refine ⟨kept, horigin, ?_⟩
      rw [Lazy.accessMut, bind_apply, hget]
      exact Access.within_apply _ _ _ _ _
    | none =>
      rw [fetch_of_unloaded hpeek] at h
      refine ⟨{ cell with owned := some value, shared := none }, rfl, ?_⟩
      rw [Lazy.accessMut, bind_apply, getMutOrLoad_of_unloaded hpeek, h]
      exact Access.within_apply _ _ _ _ _

/-- A loader in wider surroundings, of which it sees the part that `get` takes out and `put` puts
back. -/
def widen (get : τ → σ) (put : σ → τ → τ) (load : Option Origin → EStateM Error σ α) :
    Option Origin → EStateM Error τ α :=
  fun origin whole => mapState (fun part => put part whole) (load origin (get whole))

/-- Fetching in wider surroundings. -/
theorem fetch_widen {get : τ → σ} {put : σ → τ → τ}
    (hput : ∀ whole, put (get whole) whole = whole) (load : Option Origin → EStateM Error σ α)
    (cell : Lazy α) (whole : τ) :
    cell.fetch (widen get put load) whole =
      mapState (fun part => put part whole) (cell.fetch load (get whole)) := by
  cases hpeek : cell.peek with
  | none =>
    rw [fetch_of_unloaded hpeek, fetch_of_unloaded hpeek]
    rfl
  | some value =>
    rw [fetch_of_peek hpeek, fetch_of_peek hpeek]
    exact congrArg (EStateM.Result.ok value) (hput whole).symm

theorem around_getOrLoad (get : τ → σ) (put : σ → τ → τ)
    (hput : ∀ whole, put (get whole) whole = whole) (load : Option Origin → EStateM Error σ α) :
    Access.around get put (getOrLoad fun origin => Access.lift (load origin)) =
      getOrLoad fun origin => Access.lift (widen get put load origin) := by
  funext ⟨cell, whole⟩
  rw [Access.around_apply]
  cases hpeek : cell.peek with
  | some value => rw [getOrLoad_of_peek hpeek, getOrLoad_of_peek hpeek, mapState_ok, hput]
  | none =>
    rw [getOrLoad_of_unloaded hpeek, getOrLoad_of_unloaded hpeek, widen]
    cases load cell.origin (get whole) <;> rfl

end Lazy

namespace Workspace

theorem onStreams_apply (load : Load α) (workspace : Workspace) :
    onStreams load workspace =
      mapState (fun streams => { workspace with streams }) (load workspace.streams) := by
  unfold onStreams
  cases load workspace.streams <;> rfl

section Rows

variable {get : Workspace → Table String ν} {put : Table String ν → Workspace → Workspace}
  {name : String} {workspace : Workspace}

theorem onRow_apply_none (h : (get workspace).find? name = none) (access : Access Streams ν α) :
    onRow get put name access workspace = .ok none workspace := by
  simp only [onRow, h]

theorem onRow_apply_some {value : ν} (h : (get workspace).find? name = some value)
    (access : Access Streams ν α) :
    onRow get put name access workspace =
      mapState
        (fun state => put ((get workspace).set name state.1) { workspace with streams := state.2 })
        ((some <$> access) (value, workspace.streams)) := by
  simp only [onRow, h, map_apply]
  cases access (value, workspace.streams) <;> rfl

theorem onDocument_apply_none (h : workspace.documents.find? name = none)
    (access : Access Streams Document α) :
    onDocument name access workspace = .ok none workspace := onRow_apply_none h access

/-- Work on a document that is there. -/
theorem onDocument_apply {document : Document} (h : workspace.documents.find? name = some document)
    (access : Access Streams Document α) :
    onDocument name access workspace =
      mapState (fun state => { workspace with
          streams := state.2
          documents := workspace.documents.set name state.1 })
        ((some <$> access) (document, workspace.streams)) := onRow_apply_some h access

end Rows
end Workspace
end FramedTree
