import Mathlib.Data.List.Forall2
import FramedTree.Proofs.Activity

/-! # What a lazy cell goes through

A cell is looked at, changed and refilled in any order, by callers who each bring a loader of their
own. Every loader is made to note its calls, which changes nothing else. The notes and the order of
what was done say which value a cell has to have; the cell has that value, in one of its two places,
and calls a loader only as long as it has none.
-/

namespace FramedTree.Lazy

variable {σ α : Type}

inductive Beginning (α : Type) where
  | new (value : α)
  | empty
  | stored (source : Source) (position : UInt64)

def Beginning.cell : Beginning α → Lazy α
  | .new value => ofValue value
  | .empty => {}
  | .stored source position => Lazy.stored source position

def Beginning.value : Beginning α → Option α
  | .new value => some value
  | .empty | .stored _ _ => none

inductive Deed (σ α : Type) where
  | peek
  | isLoaded
  | getOrLoad (load : Option Origin → EStateM Error σ α)
  /-- Gets the value and changes it. -/
  | getMutOrLoad (load : Option Origin → EStateM Error σ α) (f : α → α)
  /-- Puts a value in and changes it. -/
  | insert (value : α) (f : α → α)

inductive Seen (α : Type) where
  | value (value : Option α)
  | loaded (flag : Bool)

namespace Deed

def perform : Deed σ α → Access σ (Lazy α) (Seen α)
  | .peek => do return .value (← Access.node).peek
  | .isLoaded => do return .loaded (← Access.node).isLoaded
  | .getOrLoad load => do
    return .value (some (← Lazy.getOrLoad fun origin => Access.lift (load origin)))
  | .getMutOrLoad load f => do
    return .value (some (← accessMut load do
      Access.edit f
      Access.node))
  | .insert value f => do
    Access.edit (·.insert value)
    return .value (some (← onValue value do
      Access.edit f
      Access.node))

/-- Whether it has to have a value, which is loaded if there is none. -/
def Asks : Deed σ α → Prop
  | .getOrLoad _ | .getMutOrLoad _ _ => True
  | .peek | .isLoaded | .insert _ _ => False

/-- What is to be seen of a cell that has to have `value`. -/
def shows (deed : Deed σ α) (value : Option α) : Seen α :=
  match deed with
  | .isLoaded => .loaded value.isSome
  | _ => .value value

end Deed

/-- Does one thing after another; gives what was seen, and the cell, each time. -/
def run : List (Deed σ α) → Lazy α → σ → List (Except Error (Seen α) × Lazy α)
  | [], _, _ => []
  | deed :: rest, cell, around =>
    match deed.perform (cell, around) with
    | .ok seen (cell, around) => (.ok seen, cell) :: run rest cell around
    | .error error (cell, around) => (.error error, cell) :: run rest cell around

structure Call (α : Type) where
  origin : Option Origin
  result : Except Error α

def noting (load : Option Origin → EStateM Error σ α) (origin : Option Origin) :
    EStateM Error (σ × List (Call α)) α :=
  fun (around, calls) =>
    match load origin around with
    | .ok value around => .ok value (around, calls ++ [⟨origin, .ok value⟩])
    | .error error around => .error error (around, calls ++ [⟨origin, .error error⟩])

def Deed.noting : Deed σ α → Deed (σ × List (Call α)) α
  | .peek => .peek
  | .isLoaded => .isLoaded
  | .getOrLoad load => .getOrLoad (Lazy.noting load)
  | .getMutOrLoad load f => .getMutOrLoad (Lazy.noting load) f
  | .insert value f => .insert value f

/-- One thing that was done to a cell, and what came of it. -/
structure Moment (σ α : Type) where
  before : Lazy α
  deed : Deed σ α
  calls : List (Call α)
  seen : Except Error (Seen α)
  after : Lazy α

/-- Does something to a cell and keeps what came of it. -/
def observe (deed : Deed σ α) (cell : Lazy α) (around : σ) : Moment σ α × σ :=
  match deed.noting.perform (cell, around, []) with
  | .ok seen (after, around, calls) => (⟨cell, deed, calls, .ok seen, after⟩, around)
  | .error error (after, around, calls) => (⟨cell, deed, calls, .error error, after⟩, around)

def history : List (Deed σ α) → Lazy α → σ → List (Moment σ α)
  | [], _, _ => []
  | deed :: rest, cell, around =>
    let (moment, around) := observe deed cell around
    moment :: history rest moment.after around

namespace Moment

def loaded (moment : Moment σ α) : Option α :=
  (moment.calls.filterMap (·.result.toOption)).getLast?

/-- The value that a cell has to have after this, if it had to have `value` before: the one that was
loaded or put in last, with all changes since. -/
def remember (value : Option α) (moment : Moment σ α) : Option α :=
  match moment.deed with
  | .peek | .isLoaded => value
  | .getOrLoad _ => moment.loaded.or value
  | .getMutOrLoad _ f => (moment.loaded.or value).map f
  | .insert value f => some (f value)

def Fills (moment : Moment σ α) : Prop :=
  moment.loaded.isSome ∨ ∃ value f, moment.deed = .insert value f

end Moment

/-- The values that a cell has to have, one after another. -/
def memories : Option α → List (Moment σ α) → List (Option α)
  | _, [] => []
  | value, moment :: rest => moment.remember value :: memories (moment.remember value) rest

structure Holds (origin : Option Origin) (value : Option α) (cell : Lazy α) : Prop where
  origin : cell.origin = origin
  single : cell.owned = none ∨ cell.shared = none
  peek : cell.peek = value

private theorem Beginning.holds (start : Beginning α) :
    start.cell.Holds start.cell.origin start.value := by
  cases start <;> exact ⟨rfl, by simp [cell, ofValue, Lazy.stored], rfl⟩

/-- What comes of one step, when the cell had to have `value`. -/
structure Moment.Lawful (origin : Option Origin) (value : Option α) (moment : Moment σ α) :
    Prop where
  /-- The cell has what it has to have. -/
  holds : moment.after.Holds origin (moment.remember value)
  /-- A loader is called at most once, and only for a cell that has nothing. -/
  calls : moment.calls = [] ∨ value = none ∧ ∃ result, moment.calls = [⟨origin, result⟩]
  /-- A caller who has to have a value does not get by without a load when there is none. -/
  asked : moment.deed.Asks → value = none → ∃ result, moment.calls = [⟨origin, result⟩]
  /-- Either no load failed and the caller sees the value, or the cell is as it was. -/
  outcome : (moment.seen = .ok (moment.deed.shows (moment.remember value)) ∧
      ∀ call ∈ moment.calls, ∃ value, call.result = .ok value) ∨
    ∃ error, moment.seen = .error error ∧ moment.after = moment.before ∧
      ∃ call ∈ moment.calls, call.result = .error error
  before : moment.before.Holds origin value
  /-- A value that came in is there. -/
  filled : moment.Fills → (moment.remember value).isSome

private theorem Moment.Lawful.failed {origin : Option Origin} {value : Option α}
    {moment : Moment σ α} (h : moment.Lawful origin value) {call : Call α}
    (hcall : call ∈ moment.calls) {error : Error} (herror : call.result = .error error) :
    moment.seen = .error error ∧ moment.after = moment.before := by
  obtain ⟨-, hok⟩ | ⟨error', hseen, hsame, call', hcall', herror'⟩ := h.outcome
  · obtain ⟨loaded, hloaded⟩ := hok call hcall
    rw [hloaded] at herror
    cases herror
  · -- the call that failed is the only one there was
    obtain hnone | ⟨-, result, hone⟩ := h.calls
    · rw [hnone] at hcall
      cases hcall
    · rw [hone, List.mem_singleton] at hcall hcall'
      subst hcall hcall'
      cases herror
      cases herror'
      exact ⟨hseen, hsame⟩

section step

variable {origin : Option Origin} {value : α} {cell : Lazy α}

private theorem Holds.owned_or_shared (h : cell.Holds origin (some value)) :
    cell = { owned := some value, origin } ∨ cell = { shared := some value, origin } := by
  obtain ⟨owned, shared, _⟩ := cell
  obtain ⟨rfl, hsingle, hpeek⟩ := h
  rcases hsingle with rfl | rfl
  · exact .inr (by simpa [Lazy.peek] using hpeek)
  · exact .inl (by simpa [Lazy.peek] using hpeek)

private theorem Holds.unloaded (h : cell.Holds origin none) : cell = { origin } := by
  obtain ⟨owned, shared, _⟩ := cell
  obtain ⟨rfl, -, hpeek⟩ := h
  simpa [Lazy.peek] using hpeek

private theorem holds_owned :
    ({ owned := some value, origin } : Lazy α).Holds origin (some value) :=
  ⟨rfl, .inr rfl, rfl⟩

private theorem holds_shared :
    ({ shared := some value, origin } : Lazy α).Holds origin (some value) :=
  ⟨rfl, .inl rfl, rfl⟩

private theorem accessMut_of_holds (h : cell.Holds origin (some value))
    (load : Option Origin → EStateM Error σ α) (f : α → α) (around : σ) :
    accessMut load (do Access.edit f; Access.node) (cell, around) =
      .ok (f value) ({ owned := some (f value), origin }, around) := by
  rcases h.owned_or_shared with rfl | rfl <;> rfl

private theorem accessMut_of_unloaded (h : cell.Holds origin none)
    (load : Option Origin → EStateM Error σ α) (f : α → α) (around : σ) :
    accessMut load (do Access.edit f; Access.node) (cell, around) =
      match load origin around with
      | .ok value after => .ok (f value) ({ owned := some (f value), origin }, after)
      | .error error after => .error error (cell, after) := by
  rw [accessMut, bind_apply, getMutOrLoad_of_unloaded h.peek, h.origin]
  rw [h.unloaded]
  cases load origin around <;> rfl

end step

private theorem observe_of_ok (deed : Deed σ α) {cell after : Lazy α} {around around' : σ}
    {seen : Seen α} {calls : List (Call α)}
    (h : deed.noting.perform (cell, (around, [])) = .ok seen (after, (around', calls))) :
    observe deed cell around = (⟨cell, deed, calls, .ok seen, after⟩, around') := by
  rw [observe, h]

private theorem observe_of_error (deed : Deed σ α) {cell after : Lazy α} {around around' : σ}
    {error : Error} {calls : List (Call α)}
    (h : deed.noting.perform (cell, (around, [])) = .error error (after, (around', calls))) :
    observe deed cell around = (⟨cell, deed, calls, .error error, after⟩, around') := by
  rw [observe, h]

private theorem perform_getOrLoad (load : Option Origin → EStateM Error σ α) (cell : Lazy α)
    (around : σ) :
    (Deed.getOrLoad load).perform (cell, around) =
      match getOrLoad (fun origin => Access.lift (load origin)) (cell, around) with
      | .ok value state => .ok (.value (some value)) state
      | .error error state => .error error state := by
  rw [Deed.perform, bind_apply]
  cases getOrLoad (fun origin => Access.lift (load origin)) (cell, around) <;> rfl

private theorem perform_getMutOrLoad (load : Option Origin → EStateM Error σ α) (f : α → α)
    (cell : Lazy α) (around : σ) :
    (Deed.getMutOrLoad load f).perform (cell, around) =
      match accessMut load (do Access.edit f; Access.node) (cell, around) with
      | .ok value state => .ok (.value (some value)) state
      | .error error state => .error error state := by
  rw [Deed.perform, bind_apply]
  cases accessMut load (do Access.edit f; Access.node) (cell, around) <;> rfl

section observe

variable {origin : Option Origin} {value : Option α} {cell : Lazy α} (h : cell.Holds origin value)

include h

private theorem lawful_peek (around : σ) :
    (observe Deed.peek cell around).1.Lawful origin value := by
  have hrun : observe Deed.peek cell around =
      (⟨cell, .peek, [], .ok (.value cell.peek), cell⟩, around) := rfl
  rw [hrun, h.peek]
  exact ⟨h, .inl rfl, fun hasks => hasks.elim, .inl ⟨rfl, by simp⟩, h,
    by simp [Moment.Fills, Moment.loaded]⟩

private theorem lawful_isLoaded (around : σ) :
    (observe Deed.isLoaded cell around).1.Lawful origin value := by
  have hrun : observe Deed.isLoaded cell around =
      (⟨cell, .isLoaded, [], .ok (.loaded cell.peek.isSome), cell⟩, around) := rfl
  rw [hrun, h.peek]
  exact ⟨h, .inl rfl, fun hasks => hasks.elim, .inl ⟨rfl, by simp⟩, h,
    by simp [Moment.Fills, Moment.loaded]⟩

private theorem lawful_insert (new : α) (f : α → α) (around : σ) :
    (observe (Deed.insert new f) cell around).1.Lawful origin value := by
  have hrun : observe (Deed.insert new f) cell around =
      (⟨cell, .insert new f, [], .ok (.value (some (f new))),
        { owned := some (f new), origin := cell.origin }⟩, around) := rfl
  rw [hrun, h.origin]
  exact ⟨holds_owned, .inl rfl, fun hasks => hasks.elim, .inl ⟨rfl, by simp⟩, h, fun _ => rfl⟩

private theorem lawful_getOrLoad (load : Option Origin → EStateM Error σ α) (around : σ) :
    (observe (.getOrLoad load) cell around).1.Lawful origin value := by
  have hrun := perform_getOrLoad (noting load) cell (around, [])
  cases value with
  | some value =>
    rw [getOrLoad_of_peek h.peek] at hrun
    rw [observe_of_ok (.getOrLoad load) hrun]
    exact ⟨h, .inl rfl, (fun _ hnone => nomatch hnone), .inl ⟨rfl, by simp⟩, h, fun _ => rfl⟩
  | none =>
    rw [getOrLoad_of_unloaded h.peek, h.origin, noting] at hrun
    cases hload : load origin around with
    | ok value after =>
      rw [hload] at hrun
      rw [observe_of_ok (.getOrLoad load) hrun, h.unloaded]
      exact ⟨holds_shared, .inr ⟨rfl, _, rfl⟩, fun _ _ => ⟨_, rfl⟩, .inl ⟨rfl, by simp⟩,
        h.unloaded ▸ h, fun _ => rfl⟩
    | error error after =>
      rw [hload] at hrun
      rw [observe_of_error (.getOrLoad load) hrun]
      exact ⟨h, .inr ⟨rfl, _, rfl⟩, fun _ _ => ⟨_, rfl⟩, .inr ⟨error, rfl, rfl, by simp⟩, h,
        by simp [Moment.Fills, Moment.loaded, Except.toOption]⟩

private theorem lawful_getMutOrLoad (load : Option Origin → EStateM Error σ α) (f : α → α)
    (around : σ) :
    (observe (.getMutOrLoad load f) cell around).1.Lawful origin value := by
  have hrun := perform_getMutOrLoad (noting load) f cell (around, [])
  cases value with
  | some value =>
    rw [accessMut_of_holds h] at hrun
    rw [observe_of_ok (.getMutOrLoad load f) hrun]
    exact ⟨holds_owned, .inl rfl, (fun _ hnone => nomatch hnone), .inl ⟨rfl, by simp⟩, h,
      fun _ => rfl⟩
  | none =>
    rw [accessMut_of_unloaded h, noting] at hrun
    cases hload : load origin around with
    | ok value after =>
      rw [hload] at hrun
      rw [observe_of_ok (.getMutOrLoad load f) hrun]
      exact ⟨holds_owned, .inr ⟨rfl, _, rfl⟩, fun _ _ => ⟨_, rfl⟩, .inl ⟨rfl, by simp⟩, h,
        fun _ => rfl⟩
    | error error after =>
      rw [hload] at hrun
      rw [observe_of_error (.getMutOrLoad load f) hrun]
      exact ⟨h, .inr ⟨rfl, _, rfl⟩, fun _ _ => ⟨_, rfl⟩, .inr ⟨error, rfl, rfl, by simp⟩, h,
        by simp [Moment.Fills, Moment.loaded, Except.toOption]⟩

private theorem lawful_observe (deed : Deed σ α) (around : σ) :
    (observe deed cell around).1.Lawful origin value := by
  cases deed with
  | peek => exact lawful_peek h around
  | isLoaded => exact lawful_isLoaded h around
  | insert new f => exact lawful_insert h new f around
  | getOrLoad load => exact lawful_getOrLoad h load around
  | getMutOrLoad load f => exact lawful_getMutOrLoad h load f around

end observe

def withoutNotes {β : Type} (result : EStateM.Result Error (Lazy α × σ × List (Call α)) β) :
    EStateM.Result Error (Lazy α × σ) β :=
  mapState (fun state => (state.1, state.2.1)) result

private theorem withoutNotes_getOrLoad (load : Option Origin → EStateM Error σ α) (cell : Lazy α)
    (around : σ) (calls : List (Call α)) :
    withoutNotes
      (getOrLoad (fun origin => Access.lift (noting load origin)) (cell, (around, calls))) =
      getOrLoad (fun origin => Access.lift (load origin)) (cell, around) := by
  cases hpeek : cell.peek with
  | some value =>
    rw [getOrLoad_of_peek hpeek, getOrLoad_of_peek hpeek]
    rfl
  | none =>
    rw [getOrLoad_of_unloaded hpeek, getOrLoad_of_unloaded hpeek, noting]
    cases load cell.origin around <;> rfl

private theorem withoutNotes_accessMut (load : Option Origin → EStateM Error σ α) (f : α → α)
    (cell : Lazy α) (around : σ) (calls : List (Call α)) :
    withoutNotes (accessMut (noting load) (do Access.edit f; Access.node) (cell, (around, calls))) =
      accessMut load (do Access.edit f; Access.node) (cell, around) := by
  cases hpeek : cell.peek with
  | some value =>
    obtain ⟨owned, shared, origin⟩ := cell
    cases owned with
    | some first => rfl
    | none =>
      cases shared with
      | some first => rfl
      | none => cases hpeek
  | none =>
    have hcell : cell.Holds cell.origin none := ⟨rfl, .inl (Option.or_eq_none_iff.1 hpeek).1, hpeek⟩
    rw [accessMut_of_unloaded hcell, accessMut_of_unloaded hcell, noting]
    cases load cell.origin around <;> rfl

private theorem withoutNotes_perform (deed : Deed σ α) (cell : Lazy α) (around : σ)
    (calls : List (Call α)) :
    withoutNotes (deed.noting.perform (cell, (around, calls))) = deed.perform (cell, around) := by
  cases deed with
  | peek | isLoaded | insert => rfl
  | getOrLoad load =>
    rw [Deed.noting, perform_getOrLoad, perform_getOrLoad,
      ← withoutNotes_getOrLoad load cell around calls]
    cases getOrLoad (fun origin => Access.lift (noting load origin)) (cell, (around, calls)) <;> rfl
  | getMutOrLoad load f =>
    rw [Deed.noting, perform_getMutOrLoad, perform_getMutOrLoad,
      ← withoutNotes_accessMut load f cell around calls]
    cases accessMut (noting load) (do Access.edit f; Access.node) (cell, (around, calls)) <;> rfl

private theorem map_history (deeds : List (Deed σ α)) (cell : Lazy α) (around : σ) :
    ((history deeds cell around).map fun moment => (moment.seen, moment.after)) =
      run deeds cell around := by
  induction deeds generalizing cell around with
  | nil => rfl
  | cons deed rest ih =>
    rw [run, ← withoutNotes_perform deed cell around []]
    cases hnoted : deed.noting.perform (cell, (around, [])) with
    | ok seen state =>
      obtain ⟨after, around', calls⟩ := state
      simp only [history, observe_of_ok deed hnoted, List.map_cons, ih]
      rfl
    | error error state =>
      obtain ⟨after, around', calls⟩ := state
      simp only [history, observe_of_error deed hnoted, List.map_cons, ih]
      rfl

section history

variable {origin : Option Origin} {value : Option α} {cell : Lazy α}

private theorem lawful_history (h : cell.Holds origin value) (deeds : List (Deed σ α))
    (around : σ) :
    List.Forall₂ (fun moment value => ∃ earlier,
      value = moment.remember earlier ∧ moment.Lawful origin earlier)
      (history deeds cell around) (memories value (history deeds cell around)) := by
  induction deeds generalizing value cell around with
  | nil => exact .nil
  | cons deed rest ih =>
    have hstep := lawful_observe h deed around
    exact .cons ⟨value, rfl, hstep⟩ (ih hstep.holds _)

private theorem isSome_remember (h : value.isSome) (moment : Moment σ α) :
    (moment.remember value).isSome := by
  obtain ⟨value, rfl⟩ := Option.isSome_iff_exists.1 h
  unfold Moment.remember
  cases moment.deed <;> simp [h]

private theorem calls_eq_nil (h : cell.Holds origin value) (hvalue : value.isSome)
    (deeds : List (Deed σ α)) (around : σ) :
    ∀ moment ∈ history deeds cell around, moment.calls = [] := by
  induction deeds generalizing value cell around with
  | nil => simp [history]
  | cons deed rest ih =>
    have hstep := lawful_observe h deed around
    intro moment hmoment
    rcases List.mem_cons.1 hmoment with rfl | hrest
    · exact hstep.calls.resolve_right fun hcall => by simp [hcall.1] at hvalue
    · exact ih hstep.holds (isSome_remember hvalue _) _ moment hrest

private theorem pairwise_history (h : cell.Holds origin value) (deeds : List (Deed σ α))
    (around : σ) :
    (history deeds cell around).Pairwise fun earlier later => earlier.Fills → later.calls = [] := by
  induction deeds generalizing value cell around with
  | nil => exact .nil
  | cons deed rest ih =>
    have hstep := lawful_observe h deed around
    refine .cons (fun later hlater hfills => ?_) (ih hstep.holds _)
    exact calls_eq_nil hstep.holds (hstep.filled hfills) rest _ later hlater

end history

/-- However a cell was made and whatever is done to it: its two places never both have a value; a
loader is called at most once each time, with the origin that the cell was made with, and only while
neither place has a value, so never again after a value was loaded or put in; a caller who has to
have a value makes such a call if neither place has one; a load that fails leaves the cell as it
was; and the cell always has the value that was loaded or put in last, with all changes since, which
is what the caller sees unless the load failed. -/
theorem history_lawful (start : Beginning α) (deeds : List (Deed σ α)) (around : σ) :
    let moments := history deeds start.cell around
    (moments.map fun moment => (moment.seen, moment.after)) = run deeds start.cell around ∧
      (∀ moment ∈ moments, moment.after.owned = none ∨ moment.after.shared = none) ∧
      (∀ moment ∈ moments, moment.calls = [] ∨
        moment.before.owned = none ∧ moment.before.shared = none ∧
          ∃ result, moment.calls = [⟨start.cell.origin, result⟩]) ∧
      (∀ moment ∈ moments, moment.deed.Asks → moment.before.owned = none →
        moment.before.shared = none →
        ∃ result, moment.calls = [⟨start.cell.origin, result⟩]) ∧
      (start.value.isSome → ∀ moment ∈ moments, moment.calls = []) ∧
      (moments.Pairwise fun earlier later => earlier.Fills → later.calls = []) ∧
      (∀ moment ∈ moments, ∀ call ∈ moment.calls, ∀ error, call.result = .error error →
        moment.seen = .error error ∧ moment.after = moment.before) ∧
      List.Forall₂ (fun moment value => moment.after.peek = value ∧
          (moment.seen = .ok (moment.deed.shows value) ∨
            ∃ error, moment.seen = .error error ∧ ∃ call ∈ moment.calls,
              call.result = .error error))
        moments (memories start.value moments) := by
  have hlawful := lawful_history start.holds deeds around
  have hmember : ∀ moment ∈ history deeds start.cell around,
      ∃ value, moment.Lawful start.cell.origin value := by
    intro moment hmoment
    obtain ⟨i, hi, rfl⟩ := List.getElem_of_mem hmoment
    obtain ⟨value, -, hvalue⟩ := hlawful.get hi (hlawful.length_eq ▸ hi)
    exact ⟨value, hvalue⟩
  refine ⟨map_history deeds _ around, ?_, ?_, ?_,
    fun hvalue => calls_eq_nil start.holds hvalue deeds around,
      pairwise_history start.holds deeds around, ?_, ?_⟩
  · intro moment hmoment
    obtain ⟨value, hvalue⟩ := hmember moment hmoment
    exact hvalue.holds.single
  · intro moment hmoment
    obtain ⟨value, hvalue⟩ := hmember moment hmoment
    refine hvalue.calls.imp_right ?_
    rintro ⟨rfl, hcall⟩
    obtain ⟨howned, hshared⟩ := Option.or_eq_none_iff.1 hvalue.before.peek
    exact ⟨howned, hshared, hcall⟩
  · intro moment hmoment hasks howned hshared
    obtain ⟨value, hvalue⟩ := hmember moment hmoment
    have hpeek : moment.before.peek = none := Option.or_eq_none_iff.2 ⟨howned, hshared⟩
    exact hvalue.asked hasks (hvalue.before.peek.symm.trans hpeek)
  · intro moment hmoment call hcall error herror
    obtain ⟨value, hvalue⟩ := hmember moment hmoment
    exact hvalue.failed hcall herror
  · refine hlawful.imp ?_
    rintro moment value ⟨earlier, rfl, hvalue⟩
    refine ⟨hvalue.holds.peek, hvalue.outcome.imp (fun hseen => hseen.1) ?_⟩
    rintro ⟨error, hseen, -, hcall⟩
    exact ⟨error, hseen, hcall⟩

end FramedTree.Lazy
