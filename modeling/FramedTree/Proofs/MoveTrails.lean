import FramedTree.Proofs.PreservedRelations
import FramedTree.Stream.Streams

/-! # Trails of moves

What an activity does to a state is made of small moves: a cell is read, a value is put into another
place, a frame is written. The trail of an activity lists its moves in order. Each way of putting
activities together says how their trails are put together, so that what holds of every move holds
of every activity.
-/

namespace FramedTree

variable {ε ε' σ τ ν μ α β : Type}

/-- A relation on surroundings, seen on nodes with their surroundings. -/
def OnAround (R : σ → σ → Prop) (before after : ν × σ) : Prop := R before.2 after.2

instance (R : σ → σ → Prop) [IsPreorder σ R] : IsPreorder (ν × σ) (OnAround R) where
  refl state := refl_of R state.2
  trans _ _ _ hab hbc := trans_of R hab hbc

/-- One state is reached from another by moves, one after another, which are recorded. -/
inductive Trail (Move : ε → σ → σ → Prop) : List ε → σ → σ → Prop where
  | nil (state : σ) : Trail Move [] state state
  | cons {event : ε} {events : List ε} {state between after : σ} (hmove : Move event state between)
      (htrail : Trail Move events between after) : Trail Move (event :: events) state after

namespace Trail

variable {Move : ε → σ → σ → Prop} {Move' : ε' → τ → τ → Prop} {events more : List ε}
  {state between after : σ}

theorem single {event : ε} (h : Move event state after) : Trail Move [event] state after :=
  .cons h (.nil after)

theorem append (h : Trail Move events state between) (h' : Trail Move more between after) :
    Trail Move (events ++ more) state after := by
  induction h with
  | nil => exact h'
  | cons hmove _ ih => exact .cons hmove (ih h')

/-- A trail of a part is a trail of the whole. -/
theorem map {f : ε → ε'} {g : σ → τ} (h : Trail Move events state after)
    (hmove : ∀ event ∈ events, ∀ state after,
      Move event state after → Move' (f event) (g state) (g after)) :
    Trail Move' (events.map f) (g state) (g after) := by
  induction h with
  | nil => exact .nil _
  | cons hfirst _ ih =>
    have hrest := ih fun event hevent => hmove event (List.mem_cons_of_mem _ hevent)
    exact .cons (hmove _ List.mem_cons_self _ _ hfirst) hrest

/-- The last move leads to where the trail leads. -/
theorem last {event : ε} (h : Trail Move events state after)
    (hlast : events.getLast? = some event) :
    ∃ between, Move event between after := by
  induction h with
  | nil => cases hlast
  | @cons first rest _ between _ hmove htrail ih =>
    cases rest with
    | nil =>
      cases hlast
      cases htrail
      exact ⟨_, hmove⟩
    | cons second rest => exact ih (by rwa [List.getLast?_cons_cons] at hlast)

/-- What every move keeps, the trail keeps. -/
theorem keeps {R : σ → σ → Prop} [IsPreorder σ R] (h : Trail Move events state after)
    (hmove : ∀ event ∈ events, ∀ state after, Move event state after → R state after) :
    R state after := by
  induction h with
  | nil => exact refl_of R _
  | cons hfirst _ ih =>
    have hrest := ih fun event hevent => hmove event (List.mem_cons_of_mem _ hevent)
    exact trans_of R (hmove _ List.mem_cons_self _ _ hfirst) hrest

end Trail

/-- The moves of a kind of state. Quiet ones leave alone what the state stands for. A failure is
blamed on the move that met it. -/
structure Course (ε σ : Type) where
  Move : ε → σ → σ → Prop
  Quiet : ε → Prop
  Blames : Error → ε → Prop

/-- How a state is looked at: what is seen of it, what has to hold of it all the time, and the
failures that come from no move. -/
structure View (τ σ : Type) where
  look : τ → σ
  Sound : τ → Prop
  Refuses : Error → Prop

def View.on (ν : Type) (view : View τ σ) : View (ν × τ) (ν × σ) where
  look state := (state.1, view.look state.2)
  Sound state := view.Sound state.2
  Refuses := view.Refuses

/-- The state is seen as it is. -/
def View.seen (Refuses : Error → Prop) : View σ σ where
  look := id
  Sound _ := True
  Refuses := Refuses

/-- A reference into another tree was refused. -/
def Error.Refused (error : Error) : Prop := ∃ expected found, error = .ownership expected found

/-- Streams are seen as they are, and only a reference into another tree is refused. -/
abbrev View.plain : View Streams Streams := .seen Error.Refused

/-- An end that has been reached by moves with a property. If it is a failure, nothing but quiet
moves has been made, and the last one is to blame, unless the failure comes from no move. -/
inductive Reached (course : Course ε σ) (view : View τ σ) (P : ε → Prop) (start : σ) :
    EStateM.Result Error τ α → Prop where
  | ok {value : α} {after : τ} {events : List ε} (hsound : view.Sound after)
      (htrail : Trail course.Move events start (view.look after))
      (hall : ∀ event ∈ events, P event) :
      Reached course view P start (.ok value after)
  | error {error : Error} {after : τ} {events : List ε} (hsound : view.Sound after)
      (htrail : Trail course.Move events start (view.look after))
      (hall : ∀ event ∈ events, P event ∧ course.Quiet event)
      (hblame : view.Refuses error ∨ ∃ event,
        events.getLast? = some event ∧ course.Blames error event) :
      Reached course view P start (.error error after)

/-- An activity that makes its way by moves with a property. -/
def Treads (course : Course ε σ) (view : View τ σ) (P : ε → Prop) (activity : EStateM Error τ α) :
    Prop :=
  ∀ state, view.Sound state → Reached course view P (view.look state) (activity state)

namespace Reached

variable {course : Course ε σ} {view : View τ σ} {P Q : ε → Prop} {start : σ}

/-- Nothing has been done. -/
theorem stay {value : α} {state : τ} (hsound : view.Sound state) :
    Reached course view P (view.look state) (.ok value state) := .ok hsound (.nil _) (by simp)

private theorem mono {result : EStateM.Result Error τ α} (h : Reached course view P start result)
    (hPQ : ∀ event, P event → Q event) : Reached course view Q start result := by
  cases h with
  | ok hsound htrail hall =>
    exact .ok hsound htrail fun event hevent => hPQ event (hall event hevent)
  | error hsound htrail hall hblame =>
    exact .error hsound htrail
      (fun event hevent => ⟨hPQ event (hall event hevent).1, (hall event hevent).2⟩) hblame

/-- However it ends, it has been reached by moves with the property. -/
theorem trail {result : EStateM.Result Error τ α} (h : Reached course view P start result) :
    ∃ events, Trail course.Move events start (view.look (stateAfter result)) ∧ ∀ event ∈ events,
      P event := by
  cases h with
  | ok _ htrail hall => exact ⟨_, htrail, hall⟩
  | error _ htrail hall _ => exact ⟨_, htrail, fun event hevent => (hall event hevent).1⟩

private theorem mapValue (f : α → β) {result : EStateM.Result Error τ α}
    (h : Reached course view P start result) :
    Reached course view P start (FramedTree.mapValue f result) := by
  cases h with
  | ok hsound htrail hall => exact .ok hsound htrail hall
  | error hsound htrail hall hblame => exact .error hsound htrail hall hblame

private theorem prepend {events : List ε} {between : σ} {result : EStateM.Result Error τ α}
    (hbefore : Trail course.Move events start between)
    (hall : ∀ event ∈ events, P event ∧ course.Quiet event)
    (h : Reached course view P between result) :
    Reached course view P start result := by
  cases h with
  | ok hsound htrail hmore =>
    refine .ok hsound (hbefore.append htrail) fun event hevent => ?_
    rcases List.mem_append.1 hevent with hevent | hevent
    · exact (hall event hevent).1
    · exact hmore event hevent
  | error hsound htrail hmore hblame =>
    refine .error hsound (hbefore.append htrail) (fun event hevent => ?_) ?_
    · rcases List.mem_append.1 hevent with hevent | hevent
      · exact hall event hevent
      · exact hmore event hevent
    · refine hblame.imp_right ?_
      rintro ⟨event, hlast, hevent⟩
      refine ⟨event, ?_, hevent⟩
      rw [List.getLast?_append, hlast]
      rfl

/-- An end that a part has come to is an end of the whole. -/
theorem lift {course' : Course ε' μ} {view' : View α μ} {P' : ε' → Prop} {β : Type} {f : ε → ε'}
    {g : σ → μ} {put : τ → α} {result : EStateM.Result Error τ β}
    (h : Reached course view P start result)
    (hmove : ∀ event, P event → ∀ state after, course.Move event state after →
      course'.Move (f event) (g state) (g after))
    (hP : ∀ event, P event → P' (f event))
    (hquiet : ∀ event, course.Quiet event → course'.Quiet (f event))
    (hblames : ∀ error event, course.Blames error event → course'.Blames error (f event))
    (hlook : ∀ state, view.Sound state → view'.look (put state) = g (view.look state))
    (hsound : ∀ state, view.Sound state → view'.Sound (put state))
    (hrefuses : ∀ error, view.Refuses error → view'.Refuses error) :
    Reached course' view' P' (g start) (mapState put result) := by
  have hmem {events : List ε} {Q : ε → Prop} {Q' : ε' → Prop} (hQ : ∀ event, Q event → Q' (f event))
      (hall : ∀ event ∈ events, Q event) : ∀ event ∈ events.map f, Q' event := by
    intro event hevent
    obtain ⟨first, hfirst, rfl⟩ := List.mem_map.1 hevent
    exact hQ first (hall first hfirst)
  cases h with
  | ok hafter htrail hall =>
    refine .ok (hsound _ hafter) ?_ (hmem hP hall)
    rw [hlook _ hafter]
    exact htrail.map fun event hevent => hmove event (hall event hevent)
  | error hafter htrail hall hblame =>
    refine .error (hsound _ hafter) ?_
      (hmem (fun event hevent => ⟨hP event hevent.1, hquiet event hevent.2⟩) hall) ?_
    · rw [hlook _ hafter]
      exact htrail.map fun event hevent => hmove event (hall event hevent).1
    · rcases hblame with hrefused | ⟨event, hlast, hevent⟩
      · exact .inl (hrefuses _ hrefused)
      · refine .inr ⟨f event, ?_, hblames _ _ hevent⟩
        rw [List.getLast?_map, hlast]
        rfl

end Reached

namespace Treads

variable {course : Course ε σ} {view : View τ σ} {P Q : ε → Prop}

theorem mono {activity : EStateM Error τ α} (h : Treads course view P activity)
    (hPQ : ∀ event, P event → Q event) : Treads course view Q activity :=
  fun state hsound => (h state hsound).mono hPQ

theorem pure (value : α) : Treads course view P (Pure.pure value) :=
  fun _ hsound => .stay hsound

theorem throw {error : Error} (h : view.Refuses error) :
    Treads course view P (MonadExcept.throw error : EStateM Error τ α) :=
  fun _ hsound => .error hsound (.nil _) (by simp) (.inl h)

private theorem get : Treads course view P (MonadState.get : EStateM Error τ τ) :=
  fun _ hsound => .stay hsound

/-- A sequence: only its last part may be other than quiet, since what follows a change could
fail. -/
theorem bind_of_ok {activity : EStateM Error τ α} {next : α → EStateM Error τ β}
    (h : Treads course view (fun event => P event ∧ course.Quiet event) activity)
    (hnext : ∀ state value after,
      activity state = .ok value after → Treads course view P (next value)) :
    Treads course view P (activity >>= next) := by
  intro state hsound
  have hfirst := h state hsound
  rw [bind_apply]
  cases hrun : activity state with
  | ok value after =>
    rw [hrun] at hfirst
    cases hfirst with
    | ok hafter htrail hall => exact (hnext _ _ _ hrun _ hafter).prepend htrail hall
  | error error after =>
    rw [hrun] at hfirst
    cases hfirst with
    | error hafter htrail hall hblame =>
      exact .error hafter htrail (fun event hevent => (hall event hevent).1) hblame

theorem bind {activity : EStateM Error τ α} {next : α → EStateM Error τ β}
    (h : Treads course view (fun event => P event ∧ course.Quiet event) activity)
    (hnext : ∀ value, Treads course view P (next value)) :
    Treads course view P (activity >>= next) :=
  bind_of_ok h fun _ value _ _ => hnext value

theorem map {activity : EStateM Error τ α} (f : α → β) (h : Treads course view P activity) :
    Treads course view P (f <$> activity) := by
  intro state hsound
  have hfirst := h state hsound
  rw [map_apply]
  generalize activity state = result at hfirst ⊢
  cases hfirst with
  | ok hafter htrail hall => exact .ok hafter htrail hall
  | error hafter htrail hall hblame => exact .error hafter htrail hall hblame

theorem bind_pure {activity : EStateM Error τ α} (f : α → β) (h : Treads course view P activity) :
    Treads course view P (activity >>= fun value => Pure.pure (f value)) := map f h

end Treads

section Nodes

variable {course : Course ε (ν × σ)} {view : View τ σ} {P : ε → Prop}

namespace Treads

theorem node : Treads course (view.on ν) P (Access.node : Access τ ν ν) := bind get fun _ => pure _

theorem node_bind {next : ν → Access τ ν α} (h : ∀ node, Treads course (view.on ν) P (next node)) :
    Treads course (view.on ν) P (Access.node >>= next) := bind node h

/-- Work on the surroundings alone that amounts to at most one move. -/
theorem lift {activity : EStateM Error τ α} {event : ε} (hevent : P event)
    (hquiet : course.Quiet event)
    (h : ∀ node around, view.Sound around → view.Sound (stateAfter (activity around)) ∧
      course.Move event (node, view.look around) (node, view.look (stateAfter (activity around))))
    (hrefuses : ∀ error, view.Refuses error) :
    Treads course (view.on ν) P (Access.lift activity) := by
  rintro ⟨node, around⟩ hsound
  obtain ⟨hafter, hmove⟩ := h node around hsound
  have hall {Q : ε → Prop} (hQ : Q event) : ∀ other ∈ [event], Q other := by
    intro other hother
    rw [List.mem_singleton] at hother
    rwa [hother]
  rw [Access.lift_apply]
  cases hrun : activity around with
  | ok value after =>
    rw [hrun] at hafter hmove
    exact .ok hafter (.single hmove) (hall hevent)
  | error error after =>
    rw [hrun] at hafter hmove
    exact .error hafter (.single hmove) (hall ⟨hevent, hquiet⟩) (.inl (hrefuses error))

theorem attempt {access : Access τ ν α} (h : Treads course (view.on ν) P access) :
    Treads course (view.on ν) P (Access.attempt access) := by
  intro state hsound
  have hrun := h state hsound
  unfold Access.attempt
  generalize access state = result at hrun ⊢
  cases hrun with
  | ok hafter htrail hall => exact .ok hafter htrail hall
  | error hafter htrail hall _ => exact .ok hafter htrail fun event hevent => (hall event hevent).1

/-- Work on a part of a node, which depends on the node. -/
theorem node_within {course' : ν → Course ε' (μ × σ)} {P' : ε' → Prop} {f : ε' → ε} {get : ν → μ}
    {put : μ → ν → ν} {access : ν → Access τ μ α} (hput : ∀ node, put (get node) node = node)
    (h : ∀ node, Treads (course' node) (view.on μ) P' (access node))
    (hmove : ∀ node event, P' event → ∀ part around part' around',
      (course' node).Move event (part, around) (part', around') →
        course.Move (f event) (put part node, around) (put part' node, around'))
    (hP : ∀ event, P' event → P (f event))
    (hquiet : ∀ node event, (course' node).Quiet event → course.Quiet (f event))
    (hblames : ∀ node error event,
      (course' node).Blames error event → course.Blames error (f event)) :
    Treads course (view.on ν) P (do Access.within get put (access (← Access.node))) := by
  rintro ⟨node, around⟩ hsound
  have hstart : (view.on ν).look (node, around) =
      (fun state : μ × σ => (put state.1 node, state.2)) ((view.on μ).look (get node, around)) := by
    simp only [View.on, hput]
  rw [Access.node_bind_apply, Access.within_apply, hstart]
  refine Reached.lift (g := fun state => (put state.1 node, state.2))
    (h node (get node, around) hsound) ?_ hP
    (hquiet node) (hblames node) ?_ ?_ ?_
  · exact fun event hevent state after => hmove node event hevent state.1 state.2 after.1 after.2
  · exact fun _ _ => rfl
  · exact fun _ hafter => hafter
  · exact fun _ hrefused => hrefused

/-- Work in wider surroundings, of which it sees the part that `get` takes out and `put` puts
back. -/
theorem around {ρ : Type} {wide : View ρ σ} {get : ρ → τ} {put : τ → ρ → ρ} {access : Access τ ν α}
    (h : Treads course (view.on ν) P access)
    (hget : ∀ whole, wide.Sound whole → view.Sound (get whole))
    (hlook : ∀ whole, view.look (get whole) = wide.look whole)
    (hput : ∀ part whole, wide.look (put part whole) = view.look part)
    (hsound : ∀ {events node node' whole part}, wide.Sound whole → (∀ event ∈ events, P event) →
      Trail course.Move events (node, wide.look whole) (node', view.look part) →
        wide.Sound (put part whole))
    (hrefuses : ∀ error, view.Refuses error → wide.Refuses error) :
    Treads course (wide.on ν) P (Access.around get put access) := by
  rintro ⟨node, whole⟩ hwhole
  have hrun := h (node, get whole) (hget whole hwhole)
  rw [Access.around_apply]
  change Reached course _ P (node, wide.look whole) _
  change Reached course _ P (node, view.look (get whole)) _ at hrun
  rw [hlook] at hrun
  generalize access (node, get whole) = result at hrun ⊢
  cases hrun with
  | @ok value after events hafter htrail hall =>
    have hwide := hsound hwhole hall htrail
    refine .ok hwide ?_ hall
    change Trail course.Move events _ (after.1, wide.look (put after.2 whole))
    rw [hput]
    exact htrail
  | @error error after events hafter htrail hall hblame =>
    have hwide := hsound hwhole (fun event hevent => (hall event hevent).1) htrail
    refine .error hwide ?_ hall (hblame.imp_left (hrefuses error))
    change Trail course.Move events _ (after.1, wide.look (put after.2 whole))
    rw [hput]
    exact htrail

end Treads
end Nodes

/-- What happens to a cell, or within the value that it holds. -/
inductive CellEvent (ε : Type) where
  /-- The cell is read from where it is stored, which may fail. -/
  | read (origin : Origin) (failure : Option Error)
  /-- The value is built for want of a stored one, or put into another place. -/
  | settled
  | within (event : ε)
  deriving DecidableEq, Repr

namespace CellEvent

def isOwn : CellEvent ε → Bool
  | within _ => false
  | _ => true

def Within (Q : ε → Prop) : CellEvent ε → Prop
  | within event => Q event
  | _ => True

theorem within_of_isOwn {Q : ε → Prop} {event : CellEvent ε} (h : event.isOwn) :
    event.Within Q := by
  cases event with
  | within event => cases h
  | read origin failure | settled => trivial

/-- The failure was met by the cell itself, or within its value. -/
def Blames (inner : ε → Prop) (error : Error) : CellEvent ε → Prop
  | read _ failure => failure = some error
  | settled => False
  | within event => inner event

end CellEvent

namespace Lazy

variable {load : Option Origin → EStateM Error σ ν} {inner : Course ε (ν × σ)}

/-- The moves of a cell. It is read only while it has no value; then it keeps the value that was
read. -/
inductive Move (load : Option Origin → EStateM Error σ ν) (inner : Course ε (ν × σ)) :
    CellEvent ε → Lazy ν × σ → Lazy ν × σ → Prop where
  | found {cell later : Lazy ν} {origin : Origin} {around after : σ} {value : ν}
      (hpeek : cell.peek = none)
      (horigin : cell.origin = some origin) (hload : load (some origin) around = .ok value after)
      (hlater : later.peek = some value) (hkept : later.origin = cell.origin) :
      Move load inner (.read origin none) (cell, around) (later, after)
  | failed {cell : Lazy ν} {origin : Origin} {around after : σ} {error : Error}
      (hpeek : cell.peek = none)
      (horigin : cell.origin = some origin)
      (hload : load (some origin) around = .error error after) :
      Move load inner (.read origin (some error)) (cell, around) (cell, after)
  | built {cell later : Lazy ν} {around : σ} {value : ν} (hpeek : cell.peek = none)
      (horigin : cell.origin = none)
      (hload : load none around = .ok value around) (hlater : later.peek = some value)
      (hkept : later.origin = none) : Move load inner .settled (cell, around) (later, around)
  | shifted {cell later : Lazy ν} {around : σ} (hlater : later.peek = cell.peek)
      (hkept : later.origin = cell.origin) : Move load inner .settled (cell, around) (later, around)
  | within {cell later : Lazy ν} {around after : σ} {event : ε} {value value' : ν}
      (hpeek : cell.peek = some value)
      (hmove : inner.Move event (value, around) (value', after)) (hlater : later.peek = some value')
      (hkept : later.origin = cell.origin) :
        Move load inner (.within event) (cell, around) (later, after)

/-- The course of a cell whose value has a course of its own. -/
def course (load : Option Origin → EStateM Error σ ν) (inner : Course ε (ν × σ)) :
    Course (CellEvent ε) (Lazy ν × σ) where
  Move := Move load inner
  Quiet := CellEvent.Within inner.Quiet
  Blames error := CellEvent.Blames (inner.Blames error) error

@[simp] theorem origin_putBack (value : ν) (cell : Lazy ν) :
    (putBack value cell).origin = cell.origin := by
  unfold putBack
  split <;> rfl

end Lazy

namespace Treads

variable {view : View τ σ} {inner : Course ε (ν × σ)} {P : ε → Prop} {P' : CellEvent ε → Prop}
  {load : Option Origin → EStateM Error σ ν} {loadHere : Option Origin → EStateM Error τ ν}
  {work : Access τ ν α} {access : Access τ (Lazy ν) α}

/-- Getting hold of the value of a cell is one move of the cell, wherever the value is kept then. -/
private theorem move_of_fetch (hload : ∀ origin around, view.Sound around →
      mapState view.look (loadHere origin around) = load origin (view.look around) ∧
      view.Sound (stateAfter (loadHere origin around)))
    (hbuilt : ∀ around, ∃ value, load none around = .ok value around) {cell : Lazy ν}
    {around between : τ} {value : ν} (hsound : view.Sound around)
    (hfetch : cell.fetch loadHere around = .ok value between) :
    view.Sound between ∧ ∃ first : CellEvent ε, first.isOwn ∧
      ∀ later : Lazy ν, later.peek = some value → later.origin = cell.origin →
        Lazy.Move load inner first (cell, view.look around) (later, view.look between) := by
  cases hpeek : cell.peek with
  | some there =>
    rw [Lazy.fetch_of_peek hpeek] at hfetch
    cases hfetch
    exact ⟨hsound, .settled, rfl, fun later hlater hkept =>
      .shifted (hlater.trans hpeek.symm) hkept⟩
  | none =>
    obtain ⟨hlook, hafter⟩ := hload cell.origin around hsound
    rw [Lazy.fetch_of_unloaded hpeek] at hfetch
    rw [hfetch] at hlook hafter
    refine ⟨hafter, ?_⟩
    cases horigin : cell.origin with
    | none =>
      obtain ⟨built, hnone⟩ := hbuilt (view.look around)
      rw [horigin, hnone] at hlook
      injection hlook with hvalue hsame
      subst hvalue
      refine ⟨.settled, rfl, fun later hlater hkept => ?_⟩
      rw [hsame]
      exact .built hpeek horigin hnone hlater hkept
    | some origin =>
      rw [horigin] at hlook
      exact ⟨.read origin none, rfl, fun later hlater hkept =>
        .found hpeek horigin hlook.symm hlater (hkept.trans horigin.symm)⟩

/-- A cell whose value cannot be got hold of has been read, and nothing else has happened to it. -/
private theorem move_of_fetch_error (hload : ∀ origin around, view.Sound around →
      mapState view.look (loadHere origin around) = load origin (view.look around) ∧
      view.Sound (stateAfter (loadHere origin around)))
    (hbuilt : ∀ around, ∃ value, load none around = .ok value around) {cell : Lazy ν}
    {around between : τ} {error : Error} (hsound : view.Sound around)
    (hfetch : cell.fetch loadHere around = .error error between) :
    view.Sound between ∧ ∃ origin, Lazy.Move load inner (.read origin (some error))
      (cell, view.look around) (cell, view.look between) := by
  cases hpeek : cell.peek with
  | some there =>
    rw [Lazy.fetch_of_peek hpeek] at hfetch
    cases hfetch
  | none =>
    obtain ⟨hlook, hafter⟩ := hload cell.origin around hsound
    rw [Lazy.fetch_of_unloaded hpeek] at hfetch
    rw [hfetch] at hlook hafter
    refine ⟨hafter, ?_⟩
    cases horigin : cell.origin with
    | none =>
      obtain ⟨built, hnone⟩ := hbuilt (view.look around)
      rw [horigin, hnone] at hlook
      cases hlook
    | some origin =>
      rw [horigin] at hlook
      exact ⟨origin, .failed hpeek horigin hlook.symm⟩

/-- Once the value is there, all that follows happens within it. -/
private theorem reached_within (hwork : Treads inner (view.on ν) P work)
    (hwithin : ∀ event, P event → P' (.within event)) (kept : Lazy ν) {value : ν} {between : τ}
    (hbetween : view.Sound between) :
    Reached (Lazy.course load inner) (view.on (Lazy ν)) P'
      (Lazy.putBack value kept, view.look between)
      (mapState (fun state => (Lazy.putBack state.1 kept, state.2)) (work (value, between))) := by
  refine Reached.lift (f := CellEvent.within)
    (g := fun state => (Lazy.putBack state.1 kept, state.2))
    (hwork (value, between) hbetween) ?_ hwithin ?_ ?_ ?_ ?_ ?_
  · intro event _ state after hinner
    exact .within (Lazy.peek_putBack _ _) hinner (Lazy.peek_putBack _ _)
      (by simp only [Lazy.origin_putBack])
  · exact fun _ hevent => hevent
  · exact fun _ _ hevent => hevent
  · exact fun _ _ => rfl
  · exact fun _ hafter => hafter
  · exact fun _ hrefused => hrefused

/-- Opening a cell: it is read if need be, and then worked on. -/
theorem opens (hopens : Lazy.Opens loadHere work access) (hwork : Treads inner (view.on ν) P work)
    (hload : ∀ origin around, view.Sound around →
      mapState view.look (loadHere origin around) = load origin (view.look around) ∧
      view.Sound (stateAfter (loadHere origin around)))
    (hbuilt : ∀ around, ∃ value, load none around = .ok value around)
    (hown : ∀ event, event.isOwn → P' event)
    (hwithin : ∀ event, P event → P' (.within event)) :
    Treads (Lazy.course load inner) (view.on (Lazy ν)) P' access := by
  rintro ⟨cell, around⟩ hsound
  have hquiet {first : CellEvent ε} (hfirst : first.isOwn) :
      ∀ event ∈ [first], P' event ∧ (Lazy.course load inner).Quiet event := by
    intro event hevent
    rw [List.mem_singleton] at hevent
    rw [hevent]
    exact ⟨hown first hfirst, CellEvent.within_of_isOwn hfirst⟩
  cases hfetch : cell.fetch loadHere around with
  | ok value between =>
    obtain ⟨hbetween, first, hfirst, hmove⟩ := move_of_fetch hload hbuilt hsound hfetch
    obtain ⟨kept, hkept, hrun⟩ := hopens.fetched hfetch
    rw [hrun]
    have hstart := hmove (Lazy.putBack value kept) (Lazy.peek_putBack _ _)
      (by rw [Lazy.origin_putBack, hkept])
    exact .prepend (.single hstart) (hquiet hfirst) (reached_within hwork hwithin kept hbetween)
  | error error between =>
    obtain ⟨hbetween, origin, hmove⟩ := move_of_fetch_error hload hbuilt hsound hfetch
    rw [hopens.failed hfetch]
    exact .error hbetween (.single hmove) (hquiet rfl) (.inr ⟨_, rfl, rfl⟩)

end Treads

namespace Slots

/-- The course of a row of values that have courses of their own. -/
def course (inner : Nat → Course ε (α × σ)) : Course (Nat × ε) (Slots α × σ) where
  Move event state after := ∃ value value', state.1.get? event.1 = some value ∧
    (inner event.1).Move event.2 (value, state.2) (value', after.2) ∧
    after.1 = state.1.modify event.1 fun _ => value'
  Quiet event := (inner event.1).Quiet event.2
  Blames error event := (inner event.1).Blames error event.2

private theorem get?_append_cons (done cells : List (Option α)) (value : α) :
    (⟨(done ++ some value :: cells).toArray⟩ : Slots α).get? done.length = some value := by
  simp

private theorem modify_append_cons (done cells : List (Option α)) (value value' : α) :
    (⟨(done ++ some value :: cells).toArray⟩ : Slots α).modify done.length (fun _ => value') =
      ⟨(done ++ some value' :: cells).toArray⟩ := by
  apply eq_of_get? (by simp)
  intro j
  rw [get?_modify, get?_ofCells, get?_ofCells]
  rcases Nat.lt_trichotomy j done.length with hlt | rfl | hgt
  · rw [if_neg (Nat.ne_of_lt hlt), List.getElem?_append_left hlt, List.getElem?_append_left hlt]
  · simp
  · obtain ⟨k, rfl⟩ := Nat.exists_eq_add_of_lt hgt
    simp [List.getElem?_append_right, Nat.add_assoc]

end Slots

namespace Treads

variable {view : View τ σ} {inner : Nat → Course ε (α × σ)} {P : Nat × ε → Prop}

theorem slot {i : Nat} {work : Access τ α β}
    (h : Treads (inner i) (view.on α) (fun event => P (i, event)) work) :
    Treads (Slots.course inner) (view.on (Slots α)) P (Slots.access i work) := by
  rintro ⟨slots, around⟩ hsound
  cases hslot : slots.get? i with
  | none =>
    rw [Slots.access_apply_none hslot]
    exact .stay hsound
  | some value =>
    have hstart : (view.on (Slots α)).look (slots, around) =
        (fun state : α × σ => (slots.modify i fun _ => state.1, state.2))
        ((view.on α).look (value, around)) := by
      simp only [View.on, Slots.modify_self hslot]
    have hget (first : α) : (slots.modify i fun _ => first).get? i = some first := by
      rw [Slots.get?_modify, if_pos rfl, hslot]
      rfl
    rw [Slots.access_apply_some hslot, hstart]
    refine Reached.lift (f := fun event => (i, event))
      (g := fun state => (slots.modify i fun _ => state.1, state.2))
      (map some h (value, around) hsound) ?_ (fun _ hevent => hevent) ?_ ?_ ?_ ?_ ?_
    · intro event _ state after hmove
      exact ⟨state.1, after.1, hget state.1, hmove, (Slots.modify_modify ..).symm⟩
    · exact fun _ hevent => hevent
    · exact fun _ _ hevent => hevent
    · exact fun _ _ => rfl
    · exact fun _ hafter => hafter
    · exact fun _ hrefused => hrefused

private theorem accessFrom {work : Nat → Access τ α β}
    (h : ∀ i, Treads (inner i) (view.on α) (fun event => P (i, event) ∧ (inner i).Quiet event)
      (work i))
    (cells done : List (Option α)) {around : τ} (hsound : view.Sound around) :
    Reached (Slots.course inner) (view.on (Slots α)) P (⟨(done ++ cells).toArray⟩, view.look around)
      (mapState (fun state => ((⟨(done ++ state.1).toArray⟩ : Slots α), state.2))
        (Slots.accessFrom work done.length cells around)) := by
  induction cells generalizing done around with
  | nil => exact .ok hsound (.nil _) (by simp)
  | cons cell cells ih =>
    have hlength (first : Option α) : (done ++ [first]).length = done.length + 1 := by simp
    cases cell with
    | none =>
      have hrest := ih (done ++ [none]) hsound
      simp only [hlength, List.append_assoc, List.singleton_append] at hrest
      rw [Slots.accessFrom_gap, mapState_mapState]
      exact hrest
    | some value =>
      have hfirst : Reached (Slots.course inner) (view.on (Slots α))
          (fun event => P event ∧ (Slots.course inner).Quiet event)
          (⟨(done ++ some value :: cells).toArray⟩, view.look around)
          (mapState (fun state => ((⟨(done ++ some state.1 :: cells).toArray⟩ : Slots α), state.2))
            (work done.length (value, around))) := by
        refine Reached.lift (f := fun event => (done.length, event))
          (g := fun state => ((⟨(done ++ some state.1 :: cells).toArray⟩ : Slots α), state.2))
          (h done.length (value, around) hsound) ?_ ?_ ?_ ?_ ?_ ?_ ?_
        · intro event _ state after hmove
          exact ⟨state.1, after.1, Slots.get?_append_cons .., hmove,
            (Slots.modify_append_cons ..).symm⟩
        · exact fun _ hevent => hevent
        · exact fun _ hevent => hevent
        · exact fun _ _ hevent => hevent
        · exact fun _ _ => rfl
        · exact fun _ hafter => hafter
        · exact fun _ hrefused => hrefused
      cases hrun : work done.length (value, around) with
      | error error state =>
        rw [hrun] at hfirst
        rw [Slots.accessFrom_of_error hrun]
        cases hfirst with
        | error hafter htrail hall hblame =>
          exact .error hafter htrail (fun event hevent => (hall event hevent).1) hblame
      | ok result state =>
        rw [hrun] at hfirst
        cases hfirst with
        | ok hafter htrail hall =>
          have hrest := ih (done ++ [some state.1]) hafter
          simp only [hlength, List.append_assoc, List.singleton_append] at hrest
          rw [Slots.accessFrom_of_ok hrun, mapState_mapState, mapState_mapValue]
          exact .prepend htrail hall (.mapValue (result :: ·) hrest)

theorem accessAll {work : Nat → Access τ α β}
    (h : ∀ i, Treads (inner i) (view.on α) (fun event => P (i, event) ∧ (inner i).Quiet event)
      (work i)) :
    Treads (Slots.course inner) (view.on (Slots α)) P (Slots.accessAll work) := by
  rintro ⟨slots, around⟩ hsound
  rw [Slots.accessAll_apply]
  exact accessFrom h slots.cells.toList [] hsound

end Treads
end FramedTree
