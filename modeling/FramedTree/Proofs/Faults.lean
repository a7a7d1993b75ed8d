import FramedTree.Proofs.FaultFreeTrees
import FramedTree.Proofs.LazyEager
import FramedTree.Proofs.OnDemand

/-! # Faults

A fault can make an operation fail, but it leaves no trace in a tree: what an operation has loaded
before it failed is what would have been loaded without the fault, and what it could not load is
still to be loaded. So the trees keep holding what they would hold if the operations that failed had
never been tried.
-/

namespace FramedTree

open Document (Node)

variable {α ε ν : Type} {k : Pairing}

/-- Streams with the same bytes and names, of which the scratch stream has been left alone. -/
structure Streams.Kept (before after : Streams) : Prop where
  sameBytes : before.SameBytes after
  editions_eq : after.editions = before.editions
  scratch_eq : after.scratch = before.scratch

private theorem Streams.kept_refl (streams : Streams) :
    streams.Kept streams := ⟨fun _ => rfl, rfl, rfl⟩

private theorem Streams.Pairs.kept {before after other : Streams} (h : before.still.Pairs k other)
    (hkept : before.Kept after) :
    after.still.Pairs k other := by
  refine ⟨Streams.holds_still fun id content hid => ?_, h.holds', ?_, ?_⟩
  · obtain ⟨-, hcontent⟩ := h.holds id content hid
    rw [Streams.get_still] at hcontent
    exact (hkept.sameBytes id).trans hcontent
  · exact h.editions_eq.trans hkept.editions_eq.symm
  · refine h.scratch_eq.trans ?_
    change before.scratch.still = after.scratch.still
    rw [hkept.scratch_eq]

private theorem Source.kept_withHandle {activity : FrameIO α} (h : Keeps Handle.Untouched activity)
    {source : Source} (hsource : source.backing ≠ .stream .scratch ∨ source.isReading = true)
    (streams : Streams) :
    streams.Kept (stateAfter (source.withHandle activity streams)) := by
  have hsame := Source.sameBytes_withHandle h source streams
  rw [Source.withHandle_apply] at hsame ⊢
  cases hreading : source.isReading with
  | true =>
    rw [if_pos rfl]
    exact Streams.kept_refl streams
  | false =>
    rw [hreading] at hsame
    rw [if_neg Bool.false_ne_true] at hsame ⊢
    cases hbacking : source.backing with
    | copy content =>
      rw [stateAfter_mapState]
      exact Streams.kept_refl streams
    | stream id =>
      rw [hbacking, stateAfter_mapState] at hsame
      rw [stateAfter_mapState]
      cases id with
      | scratch => simp [hbacking, hreading] at hsource
      | named name edition => exact ⟨hsame, rfl, rfl⟩

section Stored

variable {η : Type} [Message η] {load : Option Origin → Load ν} {make : Origin → η → ν}
  {origin : Origin} {result : Except Error ν} {streams : Streams}

private theorem Settles.backing_ne
    (hload : ∀ origin, load (some origin) = do return make origin (← origin.read))
    (h : Settles k.library (load (some origin)) result) (hstreams : streams.Holds k.library) :
    origin.source.backing ≠ .stream .scratch ∨ origin.source.isReading = true := by
  by_contra hnot
  obtain ⟨hbacking, hidle⟩ := not_or.1 hnot
  rw [not_not] at hbacking
  rw [Bool.not_eq_true] at hidle
  obtain ⟨after, hrun, hfollows⟩ := h streams hstreams
  have hlog := Origin.seekLog_read (α := η) origin streams .scratch
  rw [← stateAfter_bind_pure _ (make origin), ← hload, hrun, stateAfter_ended,
    hfollows.other _ k.scratch, Origin.seeks, if_pos ⟨hbacking, hidle⟩] at hlog
  simp at hlog

private theorem kept_load
    (hload : ∀ origin, load (some origin) = do return make origin (← origin.read))
    (hsource : origin.source.backing ≠ .stream .scratch ∨ origin.source.isReading = true)
    (streams : Streams) :
    streams.Kept (stateAfter (load (some origin) streams)) := by
  rw [hload, stateAfter_bind_pure]
  exact Source.kept_withHandle (Untouched.readAt _ _) hsource streams

end Stored

private theorem optionRel_some_left {β : Type} {R : α → β → Prop} {found : Option α}
    {found' : Option β} {value : α} (hfound : found = some value) (h : Option.Rel R found found') :
    ∃ value', found' = some value' ∧ R value value' := by
  cases h with
  | none => cases hfound
  | some hvalue =>
    cases hfound
    exact ⟨_, rfl, hvalue⟩

private theorem Table.Pointwise.set_left {Q : ν → ν → Prop} {table table' : Table String ν}
    (h : table.Pointwise Q table') {name : String} {value value' : ν}
    (hfound : table'.find? name = some value') (hvalue : Q value value') :
    (table.set name value).Pointwise Q table' := by
  intro other
  rw [Table.find?_set]
  by_cases hother : other = name
  · subst hother
    rw [if_pos rfl, hfound]
    exact .some hvalue
  · rw [if_neg hother]
    exact h other

private theorem Lazy.Move.pairs {η : Type} [Message η] {load load' : Option Origin → Load ν}
    {make : Origin → η → ν} {V : ν → ν → Prop} {inner : Course ε (ν × Streams)}
    {event : CellEvent ε} {cell later other : Lazy ν} {streams after streams' : Streams}
    (h : Lazy.Move load inner event (cell, streams) (later, after))
    (hquiet : event.Within inner.Quiet)
    (hload : ∀ origin, load (some origin) = do return make origin (← origin.read))
    (hwithstands : ∀ origin, Withstands Streams.still (load origin))
    (hinner : ∀ event value other, inner.Quiet event → V value other → ∀ value' after,
      inner.Move event (value, streams) (value', after) → V value' other ∧
        after.still.Pairs k streams')
    (hstreams : streams.still.Pairs k streams') (hcell : cell.Pairs k load load' V other) :
    later.Pairs k load load' V other ∧ after.still.Pairs k streams' := by
  obtain ⟨result, result', hsettles, hsettles', hresult⟩ := hcell
  -- A value that has been got although the stream is faulty is the one that the bytes settle.
  have hloaded {value : ν} {origin : Option Origin} {between : Streams}
    (hfetch : cell.fetch load = load origin)
      (hrun : load origin streams = .ok value between) (hlater : later.peek = some value) :
      later.Pairs k load load' V other := by
    obtain ⟨around, hsettled, -⟩ := hsettles _ hstreams.holds
    rw [hfetch, hwithstands _ _ _ _ hrun] at hsettled
    cases result with
    | error error => cases hsettled
    | ok found =>
      cases hsettled
      refine ⟨.ok value, result', ?_, hsettles', hresult⟩
      rw [Lazy.fetch_of_peek hlater]
      exact Settles.pure value
  have hkept {origin : Origin} (hfetch : cell.fetch load = load (some origin)) :
      (stateAfter (load (some origin) streams)).still.Pairs k streams' := by
    rw [hfetch] at hsettles
    exact hstreams.kept (kept_load hload (Settles.backing_ne hload hsettles hstreams.holds) streams)
  cases h with
  | found hpeek horigin hrun hlater _ =>
    have hfetch := (Lazy.fetch_of_unloaded hpeek).trans (congrArg load horigin)
    have hafter := hkept hfetch
    rw [hrun] at hafter
    exact ⟨hloaded hfetch hrun hlater, hafter⟩
  | failed hpeek horigin hrun =>
    have hafter := hkept ((Lazy.fetch_of_unloaded hpeek).trans (congrArg load horigin))
    rw [hrun] at hafter
    exact ⟨⟨result, result', hsettles, hsettles', hresult⟩, hafter⟩
  | built hpeek horigin hrun hlater _ =>
    have hfetch := (Lazy.fetch_of_unloaded hpeek).trans (congrArg load horigin)
    exact ⟨hloaded hfetch hrun hlater, hstreams⟩
  | shifted hlater hkept =>
    have hfetch : later.fetch load = cell.fetch load := by
      rw [Lazy.fetch, hlater, hkept, Lazy.fetch]
    exact ⟨⟨result, result', by rw [hfetch]; exact hsettles, hsettles', hresult⟩, hstreams⟩
  | within hpeek hmove hlater _ =>
    obtain ⟨around, hsettled, -⟩ := hsettles _ hstreams.holds
    rw [Lazy.fetch_of_peek hpeek] at hsettled
    cases hresult with
    | error herror => cases hsettled
    | ok hvalue =>
      cases hsettled
      obtain ⟨hvalue', hafter⟩ := hinner _ _ _ hquiet hvalue _ _ hmove
      refine ⟨⟨.ok _, .ok _, ?_, hsettles', .ok hvalue'⟩, hafter⟩
      rw [Lazy.fetch_of_peek hlater]
      exact Settles.pure _

private theorem Entry.Move.pairs {event : EntryEvent} {entry later other : Entry}
    {streams after streams' : Streams}
    (h : Entry.Move .nothing event (entry, streams) (later, after))
    (hquiet : (course .nothing).Quiet event) (hentry : entry.Pairs k other)
    (hstreams : streams.still.Pairs k streams') :
    later.Pairs k other ∧ after.still.Pairs k streams' := by
  have hidentity (event : Unit) (value other : Identity)
      (hnever : Identity.course.Quiet event) : Identity.Pairs k value other → ∀ value' after,
        Identity.course.Move event (value, streams) (value', after) →
          Identity.Pairs k value' other ∧ after.still.Pairs k streams' := hnever.elim
  have hown {event : CellEvent Unit} (hlook : event.isOwn) : event.Within Identity.course.Quiet :=
    CellEvent.within_of_isOwn hlook
  cases h with
  | edited h => simp [course, EntryEvent.isLook] at hquiet
  | wrote h => exact h.elim
  | identification h =>
    obtain ⟨hcell, hafter⟩ :=
      Lazy.Move.pairs (η := IdentityHeader) h (hown (hquiet.resolve_right nofun)) (fun _ => rfl)
      (Withstands.loadIdentity _ _) hidentity hstreams hentry.identification
    exact ⟨{ hentry with identification := hcell }, hafter⟩
  | secretIdentity h =>
    obtain ⟨cell, cell', hget, hmove, rfl⟩ := h
    obtain ⟨found, hfound, hpairs⟩ := optionRel_some_left hget hentry.secretIdentity
    obtain ⟨hcell, hafter⟩ :=
      Lazy.Move.pairs (η := IdentityHeader) hmove (hown (hquiet.resolve_right nofun))
      (fun _ => rfl) (Withstands.loadIdentity _ _) hidentity hstreams hpairs
    refine ⟨{ hentry with secretIdentity := ?_ }, hafter⟩
    rw [Slots.get?_modify, if_pos rfl, hget, hfound]
    exact .some hcell

private theorem Document.Move.pairs {event : DocumentEvent} {document later other : Document}
    {streams after streams' : Streams}
    (h : Document.Move .nothing event (document, streams) (later, after))
    (hquiet : (course .nothing).Quiet event) (hdocument : document.Pairs k other)
    (hstreams : streams.still.Pairs k streams') :
    later.Pairs k other ∧ after.still.Pairs k streams' := by
  cases h with
  | added => exact hquiet.elim
  | began h | wrote h => exact h.elim
  | @entry i event document slots _ _ h =>
    obtain ⟨cell, cell', hget, hmove, rfl⟩ := h
    obtain ⟨found, hfound, hpairs⟩ := optionRel_some_left hget (hdocument.entries.slot i)
    obtain ⟨hcell, hafter⟩ :=
      Lazy.Move.pairs (η := EntryHeader) (V := Entry.Pairs k) hmove hquiet (fun _ => rfl)
      (Withstands.loadEntry _ _)
        (fun _ _ _ hevent hentry _ _ hmove => Entry.Move.pairs hmove hevent hentry hstreams)
          hstreams hpairs
    refine ⟨⟨hdocument.stamp, ?_, fun j => ?_⟩, hafter⟩
    · rw [Slots.size_modify]
      exact hdocument.entries.size_eq
    · rw [Slots.get?_modify]
      by_cases hj : j = i
      · subst hj
        rw [if_pos rfl, hget, hfound]
        exact .some hcell
      · rw [if_neg hj]
        exact hdocument.entries.slot j

namespace Workspace

private theorem Move.pairs {event : WorkspaceEvent} {workspace later other : Workspace}
    (h : Workspace.Move .nothing event workspace later) (hquiet : (course .nothing).Quiet event)
    (hpairs : workspace.still.Pairs k other) : later.still.Pairs k other := by
  cases h with
  | aside => exact hquiet.elim
  | @document name event workspace document later streams hfound hmove =>
    obtain ⟨found, hother, hdocument⟩ := optionRel_some_left hfound (hpairs.documents name)
    obtain ⟨hlater, hstreams⟩ := hmove.pairs hquiet hdocument hpairs.streams
    have hdocuments := Table.Pointwise.set_left hpairs.documents hother hlater
    exact { hpairs with streams := hstreams, documents := hdocuments }
  | @entry name event workspace entry later streams hfound hmove =>
    obtain ⟨found, hother, hentry⟩ := optionRel_some_left hfound (hpairs.entries name)
    obtain ⟨hlater, hstreams⟩ := hmove.pairs hquiet hentry hpairs.streams
    have hentries := Table.Pointwise.set_left hpairs.entries hother hlater
    exact { hpairs with streams := hstreams, entries := hentries }

private theorem pairs_trail {events : List WorkspaceEvent} {workspace later other : Workspace}
    (h : Trail (Workspace.Move .nothing) events workspace later)
    (hquiet : ∀ event ∈ events, (course .nothing).Quiet event)
    (hpairs : workspace.still.Pairs k other) : later.still.Pairs k other := by
  induction h with
  | nil => exact hpairs
  | cons hmove _ ih =>
    exact ih (fun event hevent => hquiet event (List.mem_cons_of_mem _ hevent))
      (hmove.pairs (hquiet _ List.mem_cons_self) hpairs)

end Workspace

def Op.setsFaults : Op → Bool
  | .setFaults _ _ => true
  | _ => false

private theorem Op.leavesStreams_of_isAccess {op : Op} (h : op.isAccess) :
    op.leavesStreams = true ∧ op.asksLoaded = false := by
  cases op <;> first | exact ⟨rfl, rfl⟩ | cases h

namespace Workspace

variable {workspace after other : Workspace} {op : Op} {error : Error}

private theorem pairs_ok {answer : Answer} (hop : op.isAccess)
    (h : perform op workspace = .ok answer after) (hpairs : workspace.still.Pairs k other) :
    answer.Pairs k (step op other).1 ∧ after.still.Pairs k (step op other).2 := by
  obtain ⟨hleaves, hasks⟩ := Op.leavesStreams_of_isAccess hop
  have hstep := pairs_step hleaves hpairs
  rw [step_eq (withstands_perform hop _ _ _ h)] at hstep
  exact ⟨hstep.2 hasks, hstep.1⟩

private theorem readHeader_of_openDocument_error {name stream : String} {codec : Codec}
    (h : perform (.openDocument name stream codec) workspace = .error error after) :
    ∃ streams, Document.readHeader
      { backing := .stream (workspace.streams.current stream), codec } workspace.streams =
      .error error streams ∧ after = { workspace with streams } := by
  rw [perform_openDocument, openSource, bind_assoc, bind_apply, onStreams_apply] at h
  cases hread : Document.readHeader { backing := .stream (workspace.streams.current stream), codec }
      workspace.streams with
  | ok header streams =>
    rw [hread] at h
    cases h
  | error found streams =>
    rw [hread] at h
    cases h
    exact ⟨streams, rfl, rfl⟩

/-- How an operation that accesses trees can fail: a document cannot be opened, a reference is
refused, or a node cannot be loaded, and that node is then still to be loaded. -/
inductive Fails (op : Op) (error : Error) (before after : Workspace) : Prop where
  | opening {name stream : String} {codec : Codec} (hop : op = .openDocument name stream codec)
      (hafter : after = { before with streams := after.streams })
  | refused (herror : error.Refused)
  | loading {events : List WorkspaceEvent} {attempt : Attempt}
      (htrail : Trail (Move .nothing) events before after)
      (hlast : (attempts events).getLast? = some attempt) (hfailure : attempt.failure = some error)
      (hreach : ∀ name, attempt.holder = .document name → op.Reaches before.refs name attempt.node)
      (hpending : after.pending attempt.node attempt.holder = some attempt.origin)

private theorem attempt_of_blames {event : WorkspaceEvent}
    (h : (course .nothing).Blames error event) :
    ∃ attempt, event.attempt? = some attempt ∧ attempt.failure = some error := by
  have hcell {event : CellEvent Unit} (hblames : event.Blames (fun _ => False) error) :
      ∃ origin, event.reading? (fun _ => none) = some (origin, some error) := by
    cases event with
    | read origin failure =>
      cases hblames
      exact ⟨origin, rfl⟩
    | settled | within => exact hblames.elim
  have hentry {event : EntryEvent} (hblames : (Entry.course .nothing).Blames error event) :
      ∃ origin, event.reading? = some (origin, some error) := by
    cases event with
    | identification event | secretIdentity event => exact hcell hblames
    | edited | wrote => exact hblames.elim
  have hdocument {event : DocumentEvent} (hblames : (Document.course .nothing).Blames error event) :
      ∃ origin, event.reading? = some (origin, some error) := by
    cases event with
    | added | began | wrote => exact hblames.elim
    | entry i event =>
      cases event with
      | settled => exact hblames.elim
      | within event => exact hentry hblames
      | read origin failure =>
        cases hblames
        exact ⟨origin, rfl⟩
  cases event with
  | aside => exact h.elim
  | document name event =>
    obtain ⟨origin, hread⟩ := hdocument h
    exact ⟨_, by rw [WorkspaceEvent.attempt?, hread, Option.map_some], rfl⟩
  | entry name event =>
    obtain ⟨origin, hread⟩ := hentry h
    exact ⟨_, by rw [WorkspaceEvent.attempt?, hread, Option.map_some], rfl⟩

private theorem fails_of_error (hop : op.isAccess) (h : perform op workspace = .error error after) :
    Fails op error workspace after ∧
    (workspace.still.Pairs k other → after.still.Pairs k other) := by
  by_cases hinner : op.isInner
  · have hrun := @reached_perform .nothing _ hinner workspace
    rw [h] at hrun
    cases hrun with
    | error _ htrail hall hblame =>
      refine ⟨?_, pairs_trail htrail fun event hevent => (hall event hevent).2⟩
      rcases hblame with hrefused | ⟨event, hlast, hblames⟩
      · exact .refused hrefused
      · obtain ⟨attempt, hattempt, hfailure⟩ := attempt_of_blames hblames
        obtain ⟨between, hmove⟩ := htrail.last hlast
        have hadmits := (hall event (List.mem_of_getLast? hlast)).1
        have hpending := (hmove.attempted hattempt).2.1
        rw [hfailure] at hpending
        refine .loading htrail ?_ hfailure
          (fun name hholder => reach_of_admits hadmits hattempt hholder) hpending
        obtain ⟨initial, rfl⟩ := List.getLast?_eq_some_iff.1 hlast
        rw [attempts, List.filterMap_append, List.filterMap_cons, hattempt, List.getLast?_append]
        rfl
  · cases op with
    | openDocument name stream codec =>
      obtain ⟨streams, hread, rfl⟩ := readHeader_of_openDocument_error h
      refine ⟨.opening rfl rfl, fun hpairs => { hpairs with streams := hpairs.streams.kept ?_ }⟩
      have hkept := @Source.kept_withHandle _ _ (Untouched.readRoot (α := DocumentHeader) codec)
        { backing := .stream (workspace.streams.current stream), codec }
          (.inl fun heq => by cases heq)
        workspace.streams
      change workspace.streams.Kept (stateAfter (Document.readHeader
        { backing := .stream (workspace.streams.current stream), codec }
          workspace.streams)) at hkept
      rwa [hread] at hkept
    | newDocument name | newEntry name | newIdentity name => cases h
    | _ => first | exact absurd rfl hinner | cases hop

private theorem pairs_setFaults {stream : String} {faults : Faults} {answer : Answer}
    (h : perform (.setFaults stream faults) workspace = .ok answer after)
    (hpairs : workspace.still.Pairs k other) :
    after.still.Pairs k other := by
  cases h
  refine { hpairs with streams := hpairs.streams.kept ⟨fun id => ?_, rfl, rfl⟩ }
  change (Streams.get (Streams.set _ _ _) id).content = _
  rw [Streams.get_set]
  split
  case isTrue hid => rw [hid]
  case isFalse => rfl

end Workspace

/-- What an answer shows. Of an entry it shows the stamp, the references, and whether there is a
secret identity. -/
def Answer.shown : Answer → Answer × Option Bool
  | .entry found =>
    (.entry { stamp := found.stamp, approver := found.approver, reviewers := found.reviewers },
      some found.hasSecretIdentity)
  | .removed n found =>
    (.removed n { stamp := found.stamp, approver := found.approver, reviewers := found.reviewers },
      some found.hasSecretIdentity)
  | answer => (answer, none)

section Shown

private theorem RootId.Pairs.eq {root root' : RootId} (h : root.Pairs ⟨0, 0⟩ root') :
    root' = root := by
  obtain ⟨number⟩ := root
  obtain ⟨number'⟩ := root'
  simp only [RootId.Pairs, Nat.add_zero] at h
  rw [h]

private theorem Stamp.Pairs.eq {stamp stamp' : Stamp} (h : stamp.Pairs ⟨0, 0⟩ stamp') :
    stamp' = stamp := by
  obtain ⟨root, path⟩ := stamp
  obtain ⟨root', path'⟩ := stamp'
  obtain ⟨hroot, hpath⟩ := h
  rw [Stamp.mk.injEq]
  exact ⟨hroot.eq, hpath⟩

private theorem NodeRef.Pairs.eq {ref ref' : NodeRef} (h : ref.Pairs ⟨0, 0⟩ ref') : ref' = ref := by
  obtain ⟨root, path⟩ := ref
  obtain ⟨root', path'⟩ := ref'
  obtain ⟨hroot, hpath⟩ := h
  rw [NodeRef.mk.injEq]
  exact ⟨hroot.eq, hpath⟩

private theorem Entry.Resembles.shown_eq {entry entry' : Entry}
    (h : entry.Resembles ⟨0, 0⟩ entry') :
    entry'.stamp = entry.stamp ∧ entry'.approver = entry.approver ∧
    entry'.reviewers = entry.reviewers := by
  refine ⟨h.stamp.eq, ?_, ?_⟩
  · have happrover := h.approver
    generalize entry.approver = approver at happrover ⊢
    generalize entry'.approver = approver' at happrover ⊢
    cases happrover with
    | none => rfl
    | some href => rw [href.eq]
  · have hreviewers := h.reviewers
    generalize entry.reviewers = reviewers at hreviewers ⊢
    generalize entry'.reviewers = reviewers' at hreviewers ⊢
    induction hreviewers with
    | nil => rfl
    | cons href _ ih => rw [href.eq, ih]

private theorem Answer.Pairs.shown_eq {answer answer' : Answer} (h : answer.Pairs ⟨0, 0⟩ answer') :
    answer'.shown = answer.shown := by
  cases h with
  | plain => rfl
  | failed h =>
    cases h with
    | refl => rfl
    | ownership hexpected hfound => rw [hexpected.eq, hfound.eq]
  | root h => rw [h.eq]
  | stamp h => rw [h.eq]
  | ref h => rw [h.eq]
  | entry h | removed h =>
    obtain ⟨hstamp, happrover, hreviewers⟩ := h.shown_eq
    rw [Answer.shown, Answer.shown, hstamp, happrover, hreviewers, h.hasSecretIdentity_eq]
  | @identity identity identity' h =>
    obtain ⟨stamp, header⟩ := identity
    obtain ⟨stamp', header'⟩ := identity'
    obtain ⟨hstamp, hheader⟩ := h
    rw [show stamp' = stamp from hstamp.eq, show header' = header from hheader]

end Shown

namespace Workspace

/-- The operations of a run that access trees and succeed, with their answers. -/
def successes : List Op → Workspace → List (Op × Answer)
  | [], _ => []
  | op :: ops, workspace =>
    match perform op workspace with
    | .ok answer after =>
      if op.isAccess then (op, answer) :: successes ops after else successes ops after
    | .error _ after => successes ops after

/-- Whatever is done in them, both workspaces show the same, except for what has been loaded
already. -/
def Alike (workspace other : Workspace) : Prop :=
  ∀ ops : List Op, (∀ op ∈ ops, op.leavesStreams = true ∧ op.asksLoaded = false) →
    (run ops workspace).1.map Answer.shown = (run ops other).1.map Answer.shown

variable {workspace other : Workspace}

private theorem Pairs.alike (hk : k.toRenumbering = ⟨0, 0⟩) (h : workspace.Pairs k other) :
    workspace.Alike other := by
  intro ops hops
  induction ops generalizing workspace other with
  | nil => rfl
  | cons op ops ih =>
    obtain ⟨hleaves, hasks⟩ := hops op List.mem_cons_self
    obtain ⟨hafter, hanswer⟩ := pairs_step hleaves h
    have hfirst := hanswer hasks
    rw [hk] at hfirst
    have hrest := ih hafter fun op hop => hops op (List.mem_cons_of_mem _ hop)
    rw [run, run, List.map_cons, List.map_cons, hrest, hfirst.shown_eq]

private theorem Pairs.of_still (h : workspace.still.Pairs k other)
    (hfaults : ∀ id, (workspace.streams.get id).faults = {}) :
    workspace.Pairs k other := by
  have hstill (id : StreamId) : workspace.streams.still.get id = workspace.streams.get id := by
    rw [Streams.get_still, Stream.still, ← hfaults id]
  refine { h with streams := ⟨fun id content hid => ?_, h.streams.holds', h.streams.editions_eq, ?_⟩ }
  · have hholds := h.streams.holds id content hid
    rwa [show workspace.still.streams = workspace.streams.still from rfl, hstill] at hholds
  · exact h.streams.scratch_eq.trans (hstill .scratch)

private theorem pairs_successes {ops : List Op} (hops : ∀ op ∈ ops, op.isAccess ∨ op.setsFaults)
    (h : workspace.still.Pairs k other) :
    List.Forall₂ (Answer.Pairs k) ((successes ops workspace).map (·.2))
      (run ((successes ops workspace).map (·.1)) other).1 ∧
    (run ops workspace).2.still.Pairs k (run ((successes ops workspace).map (·.1)) other).2 := by
  induction ops generalizing workspace other with
  | nil => exact ⟨.nil, h⟩
  | cons op ops ih =>
    have hop := hops op List.mem_cons_self
    have hrest {workspace other : Workspace} (h : workspace.still.Pairs k other) :=
      ih (fun op hop => hops op (List.mem_cons_of_mem _ hop)) h
    cases hrun : perform op workspace with
    | ok answer after =>
      simp only [run, successes, step, hrun]
      by_cases haccess : op.isAccess
      · obtain ⟨hanswer, hafter⟩ := pairs_ok haccess hrun h
        obtain ⟨hanswers, hlast⟩ := hrest hafter
        rw [if_pos haccess]
        exact ⟨.cons hanswer hanswers, hlast⟩
      · rw [if_neg haccess]
        cases op with
        | setFaults stream faults => exact hrest (pairs_setFaults hrun h)
        | _ => exact absurd hop (by simp [haccess, Op.setsFaults])
    | error error after =>
      simp only [run, successes, step, hrun]
      rcases hop with haccess | hfaults
      · exact hrest ((fails_of_error haccess hrun).2 h)
      · cases op with
        | setFaults stream faults => cases hrun
        | _ => cases hfaults

private theorem shown_eq_of_pairs {answers answers' : List Answer}
    (h : List.Forall₂ (Answer.Pairs ⟨0, 0⟩) answers answers') :
    answers.map Answer.shown = answers'.map Answer.shown := by
  induction h with
  | nil => rfl
  | cons hanswer _ ih => rw [List.map_cons, List.map_cons, hanswer.shown_eq, ih]

private theorem pairs_start (streams : Streams) :
    Pairs (startingFrom streams 0 0) (still { streams }) (still { streams }) := by
  have hholds : streams.still.Holds (startingFrom streams 0 0).library := by
    refine Streams.holds_still fun id content hid => ?_
    cases id with
    | scratch => cases hid
    | named name edition => exact Option.some.inj hid
  exact ⟨⟨hholds, hholds, rfl, rfl⟩, rfl, fun _ => .none, fun _ => .none, fun _ => .none,
    fun _ => .none⟩

/-- Whatever faults come and go between operations, those that succeed give what they give in a run
of them alone and without faults. One that fails leaves what the trees hold as it is, and what it
could not load is still to be loaded. Once the faults are gone, all goes on as in the run without
them. -/
theorem faults_leave_no_trace (streams : Streams) {ops : List Op}
    (hops : ∀ op ∈ ops, op.isAccess ∨ op.setsFaults) :
    let start : Workspace := { streams }
    let kept := successes ops start
    let undisturbed := run (kept.map (·.1)) start.still
    (kept.map (·.2)).map Answer.shown = undisturbed.1.map Answer.shown ∧
    (∀ earlier op later error after, ops = earlier ++ op :: later →
      perform op (run earlier start).2 = .error error after →
        Fails op error (run earlier start).2 after ∧
        (run earlier start).2.still.Alike after.still) ∧
    ((∀ id, ((run ops start).2.streams.get id).faults = {}) →
      (run ops start).2.Alike undisturbed.2) := by
  intro start kept undisturbed
  obtain ⟨hanswers, hlast⟩ := pairs_successes hops (pairs_start streams)
  refine ⟨shown_eq_of_pairs hanswers, ?_, fun hfaults => (hlast.of_still hfaults).alike rfl⟩
  rintro earlier op later error after rfl herror
  have hop : op.isAccess := by
    rcases hops op (by simp) with haccess | hfaults
    · exact haccess
    · cases op with
      | setFaults stream faults => cases herror
      | _ => cases hfaults
  obtain ⟨-, hbefore⟩ := pairs_successes (fun op hop => hops op (List.mem_append_left _ hop))
    (pairs_start streams)
  obtain ⟨hfails, hafter⟩ := fails_of_error hop herror
  refine ⟨hfails, fun more hmore => ?_⟩
  rw [hbefore.alike rfl more hmore, (hafter hbefore).alike rfl more hmore]

/-- An entry that cannot be read at first, and can be read once the fault is gone. -/
theorem faults_leave_no_trace_retried : ∃ (streams : Streams) (ops : List Op),
    ops = [.openDocument "d" "s" {},
      .setFaults "s" { read := some { effect := .fail ⟨.timedOut, "late"⟩, start := 3 } },
      .loadAll "d", .setFaults "s" {}, .loadAll "d"] ∧
    (∀ op ∈ ops, op.isAccess ∨ op.setsFaults) ∧
    (run ops { streams }).1 =
      [.root ⟨1⟩, .nothing, .failed (.io ⟨.timedOut, "late"⟩), .nothing, .nothing] ∧
    ((successes ops { streams }).map (·.2)).map Answer.shown =
      (run ((successes ops { streams }).map (·.1)) (still { streams })).1.map Answer.shown ∧
    ∀ error after, perform (.loadAll "d") (run (ops.take 2) { streams }).2 = .error error after →
      Fails (.loadAll "d") error (run (ops.take 2) { streams }).2 after ∧
        (run (ops.take 2) { streams }).2.still.Alike after.still := by
  obtain ⟨streams, ops, hlist, hops, hanswers⟩ : ∃ (streams : Streams) (ops : List Op),
      ops = [.openDocument "d" "s" {},
        .setFaults "s" { read := some { effect := .fail ⟨.timedOut, "late"⟩, start := 3 } },
        .loadAll "d", .setFaults "s" {}, .loadAll "d"] ∧
      (∀ op ∈ ops, op.isAccess ∨ op.setsFaults) ∧
      (run ops { streams }).1 =
        [.root ⟨1⟩, .nothing, .failed (.io ⟨.timedOut, "late"⟩), .nothing, .nothing] :=
    ⟨Streams.set {} (.named "s" 0) { content := #[0, 2, 16, 7, 2, 16, 1, 3, 10, 1, 4, 3, 0, 0, 0] },
      _, rfl, by decide,
      by decide +kernel⟩
  obtain ⟨hkept, hfails, -⟩ := faults_leave_no_trace streams hops
  have hsplit : ops = ops.take 2 ++ .loadAll "d" :: [.setFaults "s" {}, .loadAll "d"] := by
    rw [hlist]; rfl
  exact ⟨streams, ops, hlist, hops, hanswers, hkept,
    fun error after => hfails _ _ _ error after hsplit⟩

end Workspace
end FramedTree
