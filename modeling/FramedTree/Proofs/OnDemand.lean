import FramedTree.Proofs.PendingNodes

/-! # Reading on demand

A document that has been opened is read piece by piece: an operation attempts to load the nodes that
it has to pass and that are still pending, each attempt takes one seek to where the node is stored,
and a node that has been loaded is never attempted again.
-/

namespace FramedTree

open Document (Node)

variable {α ε ν σ : Type} {writing writing' : Writing}

def Writing.nothing : Writing := ⟨fun _ _ => False, fun _ _ => False⟩

def Writing.anything : Writing := ⟨fun _ _ => True, fun _ _ => True⟩

/-- Whatever the one writes, the other does as well. -/
structure Writing.Below (writing writing' : Writing) : Prop where
  begins : ∀ before after, writing.begins before after → writing'.begins before after
  writes : ∀ before after, writing.writes before after → writing'.writes before after

private theorem Writing.nothing_below (writing : Writing) : Writing.nothing.Below writing :=
  ⟨fun _ _ h => h.elim, fun _ _ h => h.elim⟩

private theorem Writing.below_anything (writing : Writing) : writing.Below .anything :=
  ⟨fun _ _ _ => trivial, fun _ _ _ => trivial⟩

private theorem Lazy.Move.mono {load : Option Origin → EStateM Error σ ν}
    {inner inner' : Course ε (ν × σ)} {event : CellEvent ε} {state after : Lazy ν × σ}
    (h : Lazy.Move load inner event state after)
    (hinner : ∀ event state after, inner.Move event state after → inner'.Move event state after) :
    Lazy.Move load inner' event state after := by
  cases h with
  | found hpeek horigin hload hlater hkept => exact .found hpeek horigin hload hlater hkept
  | failed hpeek horigin hload => exact .failed hpeek horigin hload
  | built hpeek horigin hload hlater hkept => exact .built hpeek horigin hload hlater hkept
  | shifted hlater hkept => exact .shifted hlater hkept
  | within hpeek hmove hlater hkept => exact .within hpeek (hinner _ _ _ hmove) hlater hkept

private theorem Entry.Move.mono (hbelow : writing.Below writing') {event : EntryEvent}
    {state after : Entry × Streams} (h : Entry.Move writing event state after) :
    Entry.Move writing' event state after := by
  cases h with
  | identification h => exact .identification h
  | secretIdentity h => exact .secretIdentity h
  | edited h => exact .edited h
  | wrote h => exact .wrote (hbelow.writes _ _ h)

private theorem Document.Move.mono (hbelow : writing.Below writing') {event : DocumentEvent}
    {state after : Document × Streams} (h : Document.Move writing event state after) :
    Document.Move writing' event state after := by
  cases h with
  | entry h =>
    obtain ⟨cell, cell', hget, hmove, hslots⟩ := h
    exact .entry ⟨cell, cell', hget,
      Lazy.Move.mono hmove fun _ _ _ => Entry.Move.mono hbelow, hslots⟩
  | added => exact .added
  | began h => exact .began (hbelow.begins _ _ h)
  | wrote h => exact .wrote (hbelow.writes _ _ h)

private theorem Workspace.Move.mono (hbelow : writing.Below writing') {event : WorkspaceEvent}
    {workspace later : Workspace} (h : Workspace.Move writing event workspace later) :
    Workspace.Move writing' event workspace later := by
  cases h with
  | document hfound hmove => exact .document hfound (hmove.mono hbelow)
  | entry hfound hmove => exact .entry hfound (hmove.mono hbelow)
  | aside hstreams hdocuments hentries => exact .aside hstreams hdocuments hentries

private theorem Trail.mono {Move Move' : ε → σ → σ → Prop} {events : List ε} {state after : σ}
    (h : Trail Move events state after)
    (hmove : ∀ event state after, Move event state after → Move' event state after) :
    Trail Move' events state after := by
  have hmapped := h.map (f := id) (g := id) fun event _ => hmove event
  rwa [List.map_id] at hmapped

def Streams.Logs (id : StreamId) (seeks : List SeekTarget) (before after : Streams) : Prop :=
  (after.get id).seekLog = (before.get id).seekLog ++ seeks

def seeksOf (id : StreamId) (reading : Option (Origin × Option Error)) : List SeekTarget :=
  reading.elim [] fun reading => reading.1.seeks id

section Log

variable {id : StreamId} {streams after : Streams}

private theorem Streams.logs_refl (id : StreamId) (streams : Streams) :
    streams.Logs id [] streams := (List.append_nil _).symm

private theorem Identity.logs_load (stamp : Stamp) (origin : Origin) (streams : Streams) :
    streams.Logs id (origin.seeks id) (stateAfter (Identity.load stamp (some origin) streams)) := by
  have hread := Origin.seekLog_read (α := IdentityHeader) origin streams id
  rw [Identity.load, bind_apply]
  cases hrun : (origin.read : Load IdentityHeader) streams with
  | ok header after | error error after =>
    rw [hrun] at hread
    exact hread

private theorem Entry.logs_load (stamp : Stamp) (origin : Origin) (streams : Streams) :
    streams.Logs id (origin.seeks id) (stateAfter (Entry.load stamp (some origin) streams)) := by
  have hread := Origin.seekLog_read (α := EntryHeader) origin streams id
  rw [Entry.load, bind_apply]
  cases hrun : (origin.read : Load EntryHeader) streams with
  | ok header after | error error after =>
    rw [hrun] at hread
    exact hread

private theorem Lazy.Move.logs {load : Option Origin → Load ν} {inner : Course ε (ν × Streams)}
    {event : CellEvent ε} {cell later : Lazy ν} {reading : ε → Option (Origin × Option Error)}
    (h : Lazy.Move load inner event (cell, streams) (later, after))
    (hload : ∀ origin (streams : Streams),
      streams.Logs id (origin.seeks id) (stateAfter (load (some origin) streams)))
    (hinner : ∀ event state after, inner.Move event state after →
      state.2.Logs id (seeksOf id (reading event)) after.2) :
    streams.Logs id (seeksOf id (event.reading? reading)) after := by
  cases h with
  | found _ _ hrun | failed _ _ hrun =>
    have hafter : stateAfter _ = after := congrArg stateAfter hrun
    rw [← hafter]
    exact hload _ streams
  | built | shifted => exact Streams.logs_refl id streams
  | within _ hmove => exact hinner _ _ _ hmove

variable {target : StreamId} {name : String} {edition : Nat}

private theorem Identity.logs_move (event : Unit) (state after : Identity × Streams)
    (h : Identity.course.Move event state after) : state.2.Logs id (seeksOf id none) after.2 := by
  rw [h.2]
  exact Streams.logs_refl id state.2

private theorem Entry.Move.logs {event : EntryEvent} {state after : Entry × Streams}
    (h : Entry.Move (.logged target) event state after) :
    state.2.Logs (.named name edition) (seeksOf (.named name edition) event.reading?) after.2 := by
  cases h with
  | identification h =>
    exact Lazy.Move.logs h (fun origin => Identity.logs_load _ origin) Identity.logs_move
  | secretIdentity h =>
    obtain ⟨_, _, -, hmove, -⟩ := h
    exact Lazy.Move.logs hmove (fun origin => Identity.logs_load _ origin) Identity.logs_move
  | edited h => exact Streams.logs_refl _ _
  | wrote h => exact (h name edition).trans (List.append_nil _).symm

private theorem Document.Move.logs {event : DocumentEvent} {state after : Document × Streams}
    (h : Document.Move (.logged target) event state after)
    (hevent : event ≠ .began ∨ .named name edition ≠ target) :
    state.2.Logs (.named name edition) (seeksOf (.named name edition) event.reading?) after.2 := by
  cases h with
  | entry h =>
    obtain ⟨_, _, -, hmove, -⟩ := h
    exact Lazy.Move.logs hmove (fun origin => Entry.logs_load _ origin) fun _ _ _ => Entry.Move.logs
  | added => exact Streams.logs_refl _ _
  | wrote h => exact (h name edition).trans (List.append_nil _).symm
  | began h =>
    have hbegins := h name edition
    rw [if_neg (hevent.resolve_left fun hne => hne rfl)] at hbegins
    exact hbegins

private theorem Workspace.Move.logs {event : WorkspaceEvent} {workspace later : Workspace}
    (h : Workspace.Move (.logged target) event workspace later)
    (hevent : (∀ holder, event ≠ .document holder .began) ∨ .named name edition ≠ target) :
    workspace.streams.Logs (.named name edition)
      (event.attempt?.elim [] fun attempt => attempt.origin.seeks (.named name edition))
        later.streams := by
  have hseeks (reading : Option (Origin × Option Error)) (f : Origin × Option Error → Attempt)
      (hf : ∀ reading, (f reading).origin = reading.1) :
      ((reading.map f).elim [] fun attempt => attempt.origin.seeks (.named name edition)) =
        seeksOf (.named name edition) reading := by
    cases reading with
    | none => rfl
    | some reading => exact congrArg (Origin.seeks · _) (hf reading)
  cases h with
  | document hfound hmove =>
    rw [WorkspaceEvent.attempt?, hseeks _ _ fun _ => rfl]
    exact hmove.logs (hevent.imp_left fun hne heq => hne _ (congrArg _ heq))
  | entry hfound hmove =>
    rw [WorkspaceEvent.attempt?, hseeks _ _ fun _ => rfl]
    exact hmove.logs
  | aside hstreams =>
    rw [hstreams]
    exact Streams.logs_refl _ _

private theorem Workspace.logs_trail {events : List WorkspaceEvent} {workspace later : Workspace}
    (h : Trail (Workspace.Move (.logged target)) events workspace later)
    (hevents : (∀ event ∈ events, ∀ holder, event ≠ .document holder .began) ∨
      .named name edition ≠ target) :
    workspace.streams.Logs (.named name edition)
      ((attempts events).flatMap fun attempt => attempt.origin.seeks (.named name edition))
        later.streams := by
  induction h with
  | nil => exact Streams.logs_refl _ _
  | @cons event events workspace between after hmove _ ih =>
    have hfirst := hmove.logs (hevents.imp_left fun hall => hall event List.mem_cons_self)
    have hrest :=
      ih (hevents.imp_left fun hall event hevent => hall event (List.mem_cons_of_mem _ hevent))
    have hsplit : ((attempts (event :: events)).flatMap fun attempt => attempt.origin.seeks
      (.named name edition)) =
        (event.attempt?.elim [] fun attempt => attempt.origin.seeks (.named name edition)) ++
          (attempts events).flatMap fun attempt => attempt.origin.seeks (.named name edition) := by
      rw [attempts, List.filterMap_cons]
      cases event.attempt? <;> rfl
    rw [hsplit]
    unfold Streams.Logs at hfirst hrest ⊢
    rw [hrest, hfirst, List.append_assoc]

end Log

section Silent

private theorem Lazy.Move.around_eq {load : Option Origin → EStateM Error σ ν}
    {inner : Course ε (ν × σ)} {event : CellEvent ε} {cell later : Lazy ν} {around after : σ}
    {reading : ε → Option (Origin × Option Error)}
    (h : Lazy.Move load inner event (cell, around) (later, after))
    (hnone : event.reading? reading = none)
    (hinner : ∀ event state after,
      inner.Move event state after → reading event = none → after.2 = state.2) :
    after = around := by
  cases h with
  | found | failed => cases hnone
  | built | shifted => rfl
  | within _ hmove => exact hinner _ _ _ hmove hnone

private theorem Entry.Move.streams_eq {event : EntryEvent} {state after : Entry × Streams}
    (h : Entry.Move .nothing event state after) (hnone : event.reading? = none) :
    after.2 = state.2 := by
  cases h with
  | identification h => exact Lazy.Move.around_eq h hnone fun _ _ _ hmove _ => hmove.2
  | secretIdentity h =>
    obtain ⟨_, _, -, hmove, -⟩ := h
    exact Lazy.Move.around_eq hmove hnone fun _ _ _ hmove _ => hmove.2
  | edited h => rfl
  | wrote h => exact h.elim

private theorem Document.Move.streams_eq {event : DocumentEvent} {state after : Document × Streams}
    (h : Document.Move .nothing event state after) (hnone : event.reading? = none) :
    after.2 = state.2 := by
  cases h with
  | entry h =>
    obtain ⟨_, _, -, hmove, -⟩ := h
    exact Lazy.Move.around_eq hmove hnone fun _ _ _ => Entry.Move.streams_eq
  | added => rfl
  | began h | wrote h => exact h.elim

private theorem Workspace.Move.streams_eq {event : WorkspaceEvent} {workspace later : Workspace}
    (h : Workspace.Move .nothing event workspace later) (hnone : event.attempt? = none) :
    later.streams = workspace.streams := by
  cases h with
  | document hfound hmove => exact hmove.streams_eq (Option.map_eq_none_iff.1 hnone)
  | entry hfound hmove => exact hmove.streams_eq (Option.map_eq_none_iff.1 hnone)
  | aside hstreams => exact hstreams

private theorem Workspace.streams_eq_of_trail {events : List WorkspaceEvent}
    {workspace later : Workspace} (h : Trail (Workspace.Move .nothing) events workspace later)
    (hnone : attempts events = []) :
    later.streams = workspace.streams := by
  induction h with
  | nil => rfl
  | @cons event events workspace between after hmove _ ih =>
    have hall := List.filterMap_eq_nil_iff.1 hnone
    have hrest :=
      ih (List.filterMap_eq_nil_iff.2
        fun event hevent => hall event (List.mem_cons_of_mem _ hevent))
    rw [hrest, hmove.streams_eq (hall event List.mem_cons_self)]

end Silent

def Op.isSave : Op → Bool
  | .save _ _ _ | .saveToBytes _ _ => true
  | _ => false

def Op.outgoing (op : Op) : Writing := if op.isSave then .anything else .nothing

/-- The seeks that an operation makes in a stream for itself: a save looks for the end of its
target. -/
def Op.ownSeeks (workspace : Workspace) (id : StreamId) : Op → List SeekTarget
  | .save document stream _ =>
    if (workspace.documents.find? document).isSome ∧
      id = workspace.streams.current stream then [.fromEnd 0] else []
  | _ => []

/-- Whether an operation asks only for what is there without a look at the stream: the number of
entries, whether one has been loaded, or an entry that has been loaded, but none of its children. -/
def Op.Glances (workspace : Workspace) : Op → Prop
  | .entryCount _ | .isEntryLoaded _ _ | .documentStamp _ => True
  | .lookAtEntry (.inDocument name i) look =>
    look.goals i = [.entry i] ∧ ∃ document,
      workspace.documents.find? name = some document ∧ document.isEntryLoaded i
  | .changeEntry (.inDocument name i) change =>
    change.goals i = [.entry i] ∧ ∃ document,
      workspace.documents.find? name = some document ∧ document.isEntryLoaded i
  | _ => False

/-- What an operation does, when it does it on demand: it attempts only nodes that it reaches, and
streams see nothing of it but one seek for every attempt. -/
structure Op.Reads (op : Op) (events : List WorkspaceEvent) (before after : Workspace) : Prop where
  trail : Trail (Workspace.Move op.outgoing) events before after
  reach : ∀ attempt ∈ attempts events, ∀ name, attempt.holder = .document name →
    op.Reaches before.refs name attempt.node
  log : ∀ name edition, before.streams.Logs (.named name edition)
    (op.ownSeeks before (.named name edition) ++
    (attempts events).flatMap fun attempt =>
      attempt.origin.seeks (.named name edition)) after.streams
  glance : op.Glances before → after.streams = before.streams

private theorem EntryEvent.node_of_reading {event : EntryEvent} {i : Nat}
    {reading : Origin × Option Error} (h : event.reading? = some reading) :
    event.node i ≠ .document := by
  cases event with
  | identification event | secretIdentity event => nofun
  | edited | wrote => cases h

private theorem DocumentEvent.node_of_reading {event : DocumentEvent}
    {reading : Origin × Option Error} (h : event.reading? = some reading) :
    event.node ≠ .document := by
  cases event with
  | added | began | wrote => cases h
  | entry i event =>
    cases event with
    | settled => cases h
    | read origin failure => nofun
    | within event => exact EntryEvent.node_of_reading h

namespace Workspace

variable {workspace : Workspace} {name : String}

theorem reach_of_admits {reach : String → Node → Prop} {event : WorkspaceEvent} {attempt : Attempt}
    (h : Admits reach event) (hattempt : event.attempt? = some attempt)
    (hholder : attempt.holder = .document name) :
    reach name attempt.node := by
  cases event with
  | aside => cases hattempt
  | entry holder event =>
    obtain ⟨reading, -, rfl⟩ := Option.map_eq_some_iff.1 hattempt
    cases hholder
  | document holder event =>
    obtain ⟨reading, hreading, rfl⟩ := Option.map_eq_some_iff.1 hattempt
    cases hholder
    exact h.resolve_left (DocumentEvent.node_of_reading hreading)

/-- Nothing is attempted but the given node of a document. -/
def AttemptsOnly (name : String) (node : Node) (event : WorkspaceEvent) : Prop :=
  ∀ attempt, event.attempt? = some attempt → (attempt.holder, attempt.node) = (.document name, node)

private theorem streams_eq_of_settled {activity : Work α} {node : Node}
    (h : Treads (course .nothing) (View.seen Error.Refused) (AttemptsOnly name node) activity)
    (hsettled : workspace.Settled node (.document name)) :
    (stateAfter (activity workspace)).streams = workspace.streams := by
  obtain ⟨events, htrail, hall⟩ := (h workspace trivial).trail
  refine streams_eq_of_trail htrail (List.eq_nil_iff_forall_not_mem.2 fun attempt hattempt => ?_)
  obtain ⟨event, hevent, hread⟩ := List.mem_filterMap.1 hattempt
  exact attempts_of_settled htrail hsettled attempt hattempt (hall event hevent attempt hread)

private theorem attemptsOnly_of_node {event : DocumentEvent} {node : Node} (h : event.node = node) :
    AttemptsOnly name node (.document name event) := by
  intro attempt hattempt
  obtain ⟨reading, -, rfl⟩ := Option.map_eq_some_iff.1 hattempt
  rw [h]

private theorem settled_of_isEntryLoaded {document : Document} {i : Nat}
    (hfound : workspace.documents.find? name = some document) (h : document.isEntryLoaded i) :
    workspace.Settled (.entry i) (.document name) := by
  refine ⟨document, hfound, ?_⟩
  change document.pending (.entry i) = none
  unfold Document.isEntryLoaded at h
  cases hcell : document.entries.get? i with
  | none => rw [Document.pending, hcell, Option.bind_none]
  | some cell =>
    rw [hcell, Option.any_some] at h
    rw [Document.pending, hcell, Option.bind_some, Lazy.pending, if_pos h]

private theorem streams_atDocument_node (name : String) (f : Document → Answer)
    (workspace : Workspace) :
    (stateAfter (atDocument name (do return f (← Access.node)) workspace)).streams =
      workspace.streams := by
  rw [atDocument, bind_apply, onDocument]
  cases hfound : workspace.documents.find? name with
  | none =>
    rw [onRow_apply_none hfound]
    rfl
  | some document =>
    rw [onRow_apply_some hfound]
    rfl

private theorem attemptsOnly_aside (name : String) (node : Node) :
    AttemptsOnly name node .aside := by
  intro attempt hattempt
  cases hattempt

private theorem streams_lookAtEntry {i : Nat} {look : EntryLook}
    (hgoals : look.goals i = [.entry i])
    (hsettled : workspace.Settled (.entry i) (.document name)) :
    (stateAfter (perform (.lookAtEntry (.inDocument name i) look) workspace)).streams =
      workspace.streams := by
  have hview : Document.Looks .nothing (· = .entry i) (Document.onEntry i (viewEntry look)) := by
    refine Document.looks_onEntry (looks_viewEntry fun node hnode => ?_) rfl
    rw [hgoals] at hnode
    exact List.mem_singleton.1 hnode
  refine streams_eq_of_settled (Treads.bind ?_ fun answer => ?_) hsettled
  · refine Treads.bind_pure _ (treads_onDocument (Treads.bind_pure _ hview) fun event hevent => ?_)
    exact ⟨attemptsOnly_of_node hevent.1, Document.quiet_of_isLook hevent.2⟩
  · split
    · exact treads_keepAnswer (attemptsOnly_aside _ _) _ _
    · exact treads_keepAnswer (attemptsOnly_aside _ _) _ _
    · exact Treads.pure _

private theorem streams_changeEntry {i : Nat} {change : EntryChange String}
    (hgoals : change.goals i = [.entry i])
    (hsettled : workspace.Settled (.entry i) (.document name)) :
    (stateAfter (perform (.changeEntry (.inDocument name i) change) workspace)).streams =
      workspace.streams := by
  rw [perform, get_bind_apply]
  split
  · rfl
  · cases hlookup : change.lookup workspace.refs.find? with
    | none => rfl
    | some changed =>
      have hgoal (node : Node) (hnode : node ∈ changed.goals i) : node = .entry i := by
        rw [EntryChange.goals_lookup i hlookup, hgoals] at hnode
        exact List.mem_singleton.1 hnode
      have hedit : Document.Works .nothing (· = .entry i)
        (Document.onEntryMut i (editEntry changed)) :=
        Document.works_onEntryMut (works_editEntry rfl hgoal) rfl
      refine streams_eq_of_settled ?_ hsettled
      exact Treads.bind_pure _
        (treads_onDocument (Treads.bind_pure _ hedit) fun _ => attemptsOnly_of_node)

private theorem streams_of_glance {op : Op} (h : op.Glances workspace) :
    (stateAfter (perform op workspace)).streams = workspace.streams := by
  cases op with
  | entryCount document => exact streams_atDocument_node document _ workspace
  | isEntryLoaded document i => exact streams_atDocument_node document _ workspace
  | documentStamp document => exact streams_atDocument_node document _ workspace
  | lookAtEntry place look =>
    cases place with
    | standalone name => exact h.elim
    | inDocument name i =>
      obtain ⟨hgoals, document, hfound, hloaded⟩ := h
      exact streams_lookAtEntry hgoals (settled_of_isEntryLoaded hfound hloaded)
  | changeEntry place change =>
    cases place with
    | standalone name => exact h.elim
    | inDocument name i =>
      obtain ⟨hgoals, document, hfound, hloaded⟩ := h
      exact streams_changeEntry hgoals (settled_of_isEntryLoaded hfound hloaded)
  | _ => exact h.elim

private theorem trail_atDocument {access : Access Streams Document Answer} {document : Document}
    {events : List DocumentEvent} (hfound : workspace.documents.find? name = some document)
    (h : Trail (Document.Move writing) events (document, workspace.streams)
      (stateAfter (access (document, workspace.streams)))) :
    Trail (Move writing) (events.map (.document name)) workspace
      (stateAfter (atDocument name access workspace)) := by
  let whole (state : Document × Streams) : Workspace :=
    { workspace with streams := state.2, documents := workspace.documents.set name state.1 }
  have hstart : workspace = whole (document, workspace.streams) := by
    simp only [whole, Table.set_self hfound]
  have hend : stateAfter (atDocument name access workspace) =
      whole (stateAfter (access (document, workspace.streams))) := by
    rw [atDocument, bind_apply, onDocument, onRow_apply_some hfound, map_apply]
    cases access (document, workspace.streams) <;> rfl
  rw [hend]
  nth_rewrite 1 [hstart]
  refine h.map fun event _ state after hmove => ?_
  have hstate : (whole state).documents.find? name = some state.1 := Table.find?_set_self ..
  have hwhole := Move.document hstate hmove
  rwa [Table.set_set] at hwhole

theorem step_snd (op : Op) (workspace : Workspace) :
    (step op workspace).2 = stateAfter (perform op workspace) := by
  rw [step]
  cases perform op workspace <;> rfl

private theorem reads_inner {op : Op} (h : op.isInner) (workspace : Workspace) :
    ∃ events, op.Reads events workspace (step op workspace).2 := by
  obtain ⟨events, htrail, hall⟩ := (reached_perform h workspace).trail
  obtain ⟨hsilent, hown⟩ : op.isSave = false ∧ ∀ id, op.ownSeeks workspace id = [] := by
    cases op <;> first | exact ⟨rfl, fun _ => rfl⟩ | cases h
  rw [step_snd]
  refine ⟨events, ?_, ?_, fun name edition => ?_, ?_⟩
  · rw [Op.outgoing, hsilent, if_neg Bool.false_ne_true]
    exact htrail
  · intro attempt hattempt name hholder
    obtain ⟨event, hevent, hread⟩ := List.mem_filterMap.1 hattempt
    exact reach_of_admits (hall event hevent) hread hholder
  · rw [hown, List.nil_append]
    exact logs_trail (htrail.mono fun _ _ _ => Move.mono (Writing.nothing_below (.logged .scratch)))
      (.inr nofun)
  · exact streams_of_glance

private theorem reaches_of_asks_all {op : Op} {refs : Table String NodeRef}
    (h : ∀ node, op.Asks refs name node) (events : List DocumentEvent) :
    ∀ attempt ∈ attempts (events.map (.document name)), ∀ holder,
      attempt.holder = .document holder →
      op.Reaches refs holder attempt.node := by
  intro attempt hattempt holder hholder
  obtain ⟨event, hevent, hread⟩ := List.mem_filterMap.1 hattempt
  obtain ⟨event, -, rfl⟩ := List.mem_map.1 hevent
  have hadmits : Admits (op.Reaches refs) (.document name event) := reaches_of_asks (h event.node)
  exact reach_of_admits hadmits hread hholder

private theorem reads_nothing {op : Op} {after : Workspace} (h : ¬ op.Glances workspace)
    (hown : ∀ id, op.ownSeeks workspace id = []) (hafter : after = workspace) :
    op.Reads [] workspace after := by
  subst hafter
  refine ⟨.nil _, by simp [attempts], fun name edition => ?_, fun hglance => absurd hglance h⟩
  rw [hown]
  exact Streams.logs_refl _ _

private theorem reads_save (document stream : String) (codec : Codec) (workspace : Workspace) :
    ∃ events, Op.Reads (.save document stream codec) events workspace
      (step (.save document stream codec) workspace).2 := by
  have hperform : perform (.save document stream codec) workspace =
      atDocument document
        (do return .size (← Document.save codec (workspace.streams.current stream))) workspace :=
          rfl
  rw [step_snd, hperform]
  cases hfound : workspace.documents.find? document with
  | none =>
    refine ⟨[], reads_nothing id (fun id => ?_) ?_⟩
    · rw [Op.ownSeeks, hfound]
      rfl
    · rw [atDocument, bind_apply, onDocument, onRow_apply_none hfound]
      rfl
  | some found =>
    let target := workspace.streams.current stream
    obtain ⟨events, htrail, hevents⟩ := Document.trail_save
      (Writing.logged_allows codec target 0) found workspace.streams
    have hwhole : Trail (Move (.logged target))
      (.document document .began :: events.map (.document document)) workspace
        (stateAfter
          (atDocument document (do return .size (← Document.save codec target)) workspace)) := by
      rw [← List.map_cons]
      refine trail_atDocument hfound ?_
      rw [bind_apply]
      cases hrun : Document.save codec target 0 (found, workspace.streams) with
      | ok size after | error error after =>
        rw [hrun] at htrail
        exact htrail
    refine ⟨_, hwhole.mono fun _ _ _ => Move.mono (Writing.below_anything _), ?_,
      fun name edition => ?_, nofun⟩
    · have hasks (node : Node) :
        Op.Asks workspace.refs document node (.save document stream codec) := rfl
      exact reaches_of_asks_all hasks (.began :: events)
    · have hown : Op.ownSeeks workspace (.named name edition) (.save document stream codec) =
          if .named name edition = target then [.fromEnd 0] else [] := by
        simp only [Op.ownSeeks, hfound, Option.isSome_some, true_and, target]
      have hbegins : ∀ event ∈ events.map (WorkspaceEvent.document document), ∀ holder,
          event ≠ .document holder .began := by
        rintro event hevent holder rfl
        obtain ⟨first, hfirst, heq⟩ := List.mem_map.1 hevent
        cases heq
        exact (hevents _ hfirst).2 rfl
      cases hwhole with
      | cons hbegan hrest =>
        cases hbegan with
        | document _ hmove =>
          cases hmove with
          | began hfirst =>
            have hlater := @logs_trail _ name edition _ _ _ hrest (.inl hbegins)
            unfold Streams.Logs at hlater ⊢
            rw [hlater, hfirst name edition, hown, List.append_assoc]
            rfl

private theorem reads_saveToBytes (document : String) (codec : Codec) (workspace : Workspace) :
    ∃ events, Op.Reads (.saveToBytes document codec) events workspace
      (step (.saveToBytes document codec) workspace).2 := by
  have hperform : perform (.saveToBytes document codec) workspace =
      atDocument document (do return .bytes (← Document.saveToBytes codec)) workspace := rfl
  rw [step_snd, hperform]
  cases hfound : workspace.documents.find? document with
  | none =>
    refine ⟨[], reads_nothing id (fun _ => rfl) ?_⟩
    rw [atDocument, bind_apply, onDocument, onRow_apply_none hfound]
    rfl
  | some found =>
    obtain ⟨events, htrail, -⟩ :=
      Document.trail_saveToBytes (Writing.logged_allows codec .scratch 0)
      (fun _ _ _ => rfl) found workspace.streams
    have hwhole : Trail (Move (.logged .scratch))
      ((.wrote :: .began :: events).map (.document document)) workspace
        (stateAfter
          (atDocument document (do return .bytes (← Document.saveToBytes codec)) workspace)) := by
      refine trail_atDocument hfound ?_
      rw [bind_apply]
      cases hrun : Document.saveToBytes codec (found, workspace.streams) with
      | ok bytes after | error error after =>
        rw [hrun] at htrail
        exact htrail
    have hasks (node : Node) : Op.Asks workspace.refs document node (.saveToBytes document codec) :=
      rfl
    refine ⟨_, hwhole.mono fun _ _ _ => Move.mono (Writing.below_anything _),
      reaches_of_asks_all hasks _,
      fun name edition => ?_, nofun⟩
    exact logs_trail hwhole (.inr nofun)

/-- What operations do, one after another, with all of it recorded. -/
inductive Recorded : List Op → List WorkspaceEvent → Workspace → Workspace → Prop where
  | nil (workspace : Workspace) : Recorded [] [] workspace workspace
  | cons {op : Op} {ops : List Op} {events more : List WorkspaceEvent} {before last : Workspace}
      (hreads : op.Reads events before (step op before).2)
      (hrest : Recorded ops more (step op before).2 last) :
      Recorded (op :: ops) (events ++ more) before last

private theorem Recorded.trail {ops : List Op} {events : List WorkspaceEvent}
    {before last : Workspace} (h : Recorded ops events before last) :
    Trail (Move .anything) events before last := by
  induction h with
  | nil workspace => exact .nil workspace
  | cons hreads _ ih =>
    exact (hreads.trail.mono fun _ _ _ => Move.mono (Writing.below_anything _)).append ih

private theorem recorded_run {ops : List Op} (hops : ∀ op ∈ ops, op.isInner ∨ op.isSave)
    (workspace : Workspace) :
    ∃ events, Recorded ops events workspace (run ops workspace).2 := by
  induction ops generalizing workspace with
  | nil => exact ⟨[], .nil workspace⟩
  | cons op ops ih =>
    have hfirst : ∃ events, op.Reads events workspace (step op workspace).2 := by
      rcases hops op List.mem_cons_self with hinner | hsave
      · exact reads_inner hinner workspace
      · cases op with
        | save document stream codec => exact reads_save document stream codec workspace
        | saveToBytes document codec => exact reads_saveToBytes document codec workspace
        | _ => cases hsave
    obtain ⟨events, hreads⟩ := hfirst
    obtain ⟨more, hrest⟩ :=
      ih (fun op hop => hops op (List.mem_cons_of_mem _ hop)) (step op workspace).2
    exact ⟨events ++ more, .cons hreads hrest⟩

private theorem source_of_attempt {events : List WorkspaceEvent} {later : Workspace}
    {document : Document} {source : Source} (h : Trail (Move writing) events workspace later)
    (hfound : workspace.documents.find? name = some document) (hbound : document.Bound source) :
    ∀ attempt ∈ attempts events,
      attempt.holder = .document name → attempt.origin.source = source := by
  induction h generalizing document with
  | nil => simp [attempts]
  | @cons event events workspace between after hmove _ ih =>
    intro attempt hattempt hholder
    obtain ⟨found, hmem, hread⟩ := List.mem_filterMap.1 hattempt
    rcases List.mem_cons.1 hmem with rfl | hmem
    · have hpending := (hmove.attempted hread).1
      rw [hholder, pending, hfound] at hpending
      exact hbound _ _ hpending
    · have hlater : ∃ later, between.documents.find? name = some later ∧ later.Bound source := by
        cases hmove with
        | entry => exact ⟨document, hfound, hbound⟩
        | aside _ hdocuments _ => exact ⟨document, by rw [hdocuments, hfound], hbound⟩
        | @document other event _ first later streams hother hmove =>
          by_cases hname : name = other
          · subst hname
            rw [hfound] at hother
            cases hother
            exact ⟨later, Table.find?_set_self .., hmove.bound hbound⟩
          · exact ⟨document, by rw [Table.find?_set, if_neg hname, hfound], hbound⟩
      obtain ⟨later, hlater, hbound⟩ := hlater
      exact ih hlater hbound attempt (List.mem_filterMap.2 ⟨found, hmem, hread⟩) hholder

theorem perform_openDocument (name stream : String) (codec : Codec) (workspace : Workspace) :
    perform (.openDocument name stream codec) workspace =
      (openSource { backing := .stream (workspace.streams.current stream), codec } >>=
        fun document =>
        keepDocument name document >>= fun _ =>
          pure (Answer.root document.stamp.root)) workspace := by
  change (do
    return Answer.root (← openDocument name (workspace.streams.current stream) codec) :
      Work Answer) _ = _
  rw [openDocument, bind_assoc]
  rfl

/-- A document that has been opened stands for the header that was read. -/
theorem openDocument_inv {before opened : Workspace} {stream : String} {codec : Codec}
    {root : RootId} (h : step (.openDocument name stream codec) before = (.root root, opened)) :
    ∃ header streams,
      Document.readHeader { backing := .stream (before.streams.current stream), codec }
        before.streams =
        .ok header streams ∧
      opened = { before with
        streams, roots := before.roots.mint.2
        documents := before.documents.set name
          (Document.ofHeader root
            { backing := .stream (before.streams.current stream), codec } header) } := by
  rw [step, perform_openDocument, openSource, bind_assoc, bind_apply, onStreams_apply] at h
  cases hread : Document.readHeader
    { backing := .stream (before.streams.current stream), codec } before.streams with
  | error error streams =>
    rw [hread] at h
    cases h
  | ok header streams =>
    rw [hread] at h
    cases h
    exact ⟨header, streams, rfl, rfl⟩

private theorem seekLog_readHeader {id : StreamId} {codec : Codec} {streams after : Streams}
    {header : DocumentHeader} (hcalm : (streams.get id).Calm)
    (h : Document.readHeader { backing := .stream id, codec } streams = .ok header after) :
    (after.get id).seekLog = (streams.get id).seekLog ++ [.fromEnd 0, .fromEnd Frame.trailerSize,
      .start ((streams.get id).content.size - Frame.size (streams.get id).trailer .root)] := by
  change Streams.withHandle id 0 (Frame.readRoot codec) streams = _ at h
  rw [Streams.withHandle_apply] at h
  obtain ⟨handle, hread, rfl⟩ := mapState_eq_ok h
  rw [Streams.get_set, if_pos rfl, Stream.seekLog, Frame.seeks_readRoot hcalm hread,
    List.reverse_append]
  rfl

/-- Opening a document takes three seeks. From then on every operation attempts only nodes that it
has to pass, each attempt takes one seek to where the node is stored, and a node that has been
loaded is never attempted again. -/
theorem reads_on_demand {before opened : Workspace} {stream : String} {codec : Codec}
    {root : RootId} (hcalm : (before.streams.get (before.streams.current stream)).Calm)
    (hopen : step (.openDocument name stream codec) before = (.root root, opened)) :
    let id := before.streams.current stream
    let found := before.streams.get id
    (opened.streams.get id).seekLog = found.seekLog ++ [.fromEnd 0, .fromEnd 4,
      .start (found.content.size - Frame.size found.trailer .root)] ∧
    ∀ ops : List Op, (∀ op ∈ ops, op.isInner ∨ op.isSave) →
      ∃ events, Recorded ops events opened (run ops opened).2 ∧
        (∀ attempt ∈ attempts events, attempt.holder = .document name →
          attempt.origin.source = { backing := .stream id, codec }) ∧
        (attempts events).Pairwise fun first second =>
          first.failure = none → (second.holder, second.node) ≠ (first.holder, first.node) := by
  intro id found
  obtain ⟨header, streams, hread, rfl⟩ := openDocument_inv hopen
  refine ⟨seekLog_readHeader hcalm hread, fun ops hops => ?_⟩
  obtain ⟨events, hrecorded⟩ := recorded_run hops { before with
    streams, roots := before.roots.mint.2
    documents :=
      before.documents.set name (Document.ofHeader root { backing := .stream id, codec } header) }
  refine ⟨events, hrecorded, ?_, pairwise_attempts hrecorded.trail⟩
  exact source_of_attempt hrecorded.trail (Table.find?_set_self ..) (Document.bound_ofHeader _ _ _)

/-- An entry with a secret identity. -/
theorem reads_on_demand_secret : ∃ before opened : Workspace,
    (before.streams.get (before.streams.current "s")).Calm ∧
    (before.streams.get (before.streams.current "s")).bytes =
      [0, 2, 16, 7, 2, 16, 1, 3, 10, 1, 4, 3, 0, 0, 0] ∧
    step (.openDocument "d" "s" {}) before = (.root ⟨1⟩, opened) ∧
    (opened.streams.get (before.streams.current "s")).seekLog = [.fromEnd 0, .fromEnd 4, .start 7] ∧
    ∀ ops : List Op, (∀ op ∈ ops, op.isInner ∨ op.isSave) →
      ∃ events, Recorded ops events opened (run ops opened).2 ∧
        (attempts events).Pairwise fun first second =>
          first.failure = none → (second.holder, second.node) ≠ (first.holder, first.node) := by
  obtain ⟨before, hcalm, hbytes, hroot, hlog⟩ : ∃ before : Workspace,
      (before.streams.get (before.streams.current "s")).Calm ∧
      (before.streams.get (before.streams.current "s")).bytes =
        [0, 2, 16, 7, 2, 16, 1, 3, 10, 1, 4, 3, 0, 0, 0] ∧
      (step (.openDocument "d" "s" {}) before).1 = .root ⟨1⟩ ∧
      ((step (.openDocument "d" "s" {}) before).2.streams.get
        (before.streams.current "s")).seekLog =
        [.fromEnd 0, .fromEnd 4, .start 7] :=
    ⟨{ streams := Streams.set {} (.named "s" 0)
        { content := #[0, 2, 16, 7, 2, 16, 1, 3, 10, 1, 4, 3, 0, 0, 0] } },
      Stream.calm_mk _ _, by decide +kernel, by decide +kernel, by decide +kernel⟩
  have hopen : step (.openDocument "d" "s" {}) before =
    (.root ⟨1⟩, (step (.openDocument "d" "s" {}) before).2) :=
    Prod.ext hroot rfl
  refine ⟨before, _, hcalm, hbytes, hopen, hlog, fun ops hops => ?_⟩
  obtain ⟨events, hrecorded, -, hpairwise⟩ := (reads_on_demand hcalm hopen).2 ops hops
  exact ⟨events, hrecorded, hpairwise⟩

end Workspace
end FramedTree
