import FramedTree.Proofs.OnDemand

/-! # What happens elsewhere

An entry of a document shows what it showed, whatever is done to other entries, whatever is looked
at, and whether or not this fails: reads leave the known streams as they are, and an entry that is
read on the way is what the bytes say.
-/

namespace FramedTree

variable {α ε ν : Type} {writing : Writing} {library : Library}

/-- If the known streams held their bytes, they still do. -/
def Streams.HoldsOn (library : Library) (before after : Streams) : Prop :=
  before.Holds library → after.Holds library

instance : IsPreorder Streams (Streams.HoldsOn library) where
  refl _ := id
  trans _ _ _ hab hbc := hbc ∘ hab

theorem Source.holdsOn_withHandle {activity : FrameIO α} (h : Steady activity) (source : Source) :
    Keeps (Streams.HoldsOn library) (source.withHandle activity) := by
  intro streams hstreams
  rw [Source.withHandle_apply]
  split
  · exact hstreams
  · cases source.backing with
    | copy content =>
      rw [stateAfter_mapState]
      exact hstreams
    | stream id =>
      rw [stateAfter_mapState]
      cases hid : library id with
      | none => exact hstreams.set hid _
      | some content =>
        obtain ⟨hcalm, hcontent⟩ := hstreams id content hid
        have halike : Handle.Alike ⟨streams.get id, 0⟩ ⟨streams.get id, 0⟩ :=
          ⟨rfl, rfl, hcalm, hcalm⟩
        obtain ⟨-, hafter, hkept⟩ := h.ends halike
        exact (Streams.follows_set hstreams hid hafter.calm (hkept.trans hcontent)).holds

theorem Entry.holdsOn_loadIdentity (stamp : Stamp) (field : UInt32) (origin : Option Origin) :
    Keeps (Streams.HoldsOn library) (loadIdentity stamp field origin) := by
  cases origin with
  | none => exact Keeps.pure _
  | some origin =>
    exact Keeps.bind (Source.holdsOn_withHandle (Steady.readAt _ _) origin.source) fun _ =>
      Keeps.pure _

theorem Document.holdsOn_loadEntry (stamp : Stamp) (i : Nat) (origin : Option Origin) :
    Keeps (Streams.HoldsOn library) (loadEntry stamp i origin) := by
  cases origin with
  | none => exact Keeps.pure _
  | some origin =>
    exact Keeps.bind (Source.holdsOn_withHandle (Steady.readAt _ _) origin.source) fun _ =>
      Keeps.pure _

/-! What every load keeps, every move keeps. -/

section Keeping

variable {R : Streams → Streams → Prop} [IsPreorder Streams R]

theorem Lazy.Move.keeps {load : Option Origin → Load ν} {inner : Course ε (ν × Streams)}
    {event : CellEvent ε} {state after : Lazy ν × Streams}
    (h : Lazy.Move load inner event state after) (hload : ∀ origin, Keeps R (load origin))
    (hinner : ∀ event state after, inner.Move event state after → R state.2 after.2) :
    R state.2 after.2 := by
  cases h with
  | @found _ _ origin streams _ _ _ _ hrun =>
    have hkept := hload (some origin) streams
    rwa [hrun] at hkept
  | @failed _ origin streams _ _ _ _ hrun =>
    have hkept := hload (some origin) streams
    rwa [hrun] at hkept
  | built | shifted => exact refl_of R _
  | within _ hmove => exact hinner _ _ _ hmove

variable (hidentity : ∀ stamp field origin, Keeps R (Entry.loadIdentity stamp field origin))
  (hwrites : ∀ before after, writing.writes before after → R before after)

include hidentity hwrites

theorem Entry.Move.keeps {event : EntryEvent} {state after : Entry × Streams}
    (h : Entry.Move writing event state after) : R state.2 after.2 := by
  have hinner (event : Unit) (state after : Identity × Streams)
    (hmove : Identity.course.Move event state after) :
      R state.2 after.2 := hmove.2 ▸ refl_of R _
  cases h with
  | identification h => exact Lazy.Move.keeps h (hidentity _ _) hinner
  | secretIdentity h =>
    obtain ⟨_, _, _, hmove, _⟩ := h
    exact Lazy.Move.keeps hmove (hidentity _ _) hinner
  | edited => exact refl_of R _
  | wrote h => exact hwrites _ _ h

variable (hentry : ∀ stamp i origin, Keeps R (Document.loadEntry stamp i origin))
  (hbegins : ∀ before after, writing.begins before after → R before after)

include hentry hbegins

theorem Document.Move.keeps {event : DocumentEvent} {state after : Document × Streams}
    (h : Document.Move writing event state after) : R state.2 after.2 := by
  cases h with
  | entry h =>
    obtain ⟨_, _, _, hmove, _⟩ := h
    exact Lazy.Move.keeps hmove (hentry _ _) fun _ _ _ hinner =>
      Entry.Move.keeps hidentity hwrites hinner
  | added => exact refl_of R _
  | began h => exact hbegins _ _ h
  | wrote h => exact hwrites _ _ h

private theorem Workspace.Move.keeps {event : WorkspaceEvent} {workspace later : Workspace}
    (h : Workspace.Move writing event workspace later) : R workspace.streams later.streams := by
  cases h with
  | document _ hmove => exact Document.Move.keeps hidentity hwrites hentry hbegins hmove
  | entry _ hmove => exact Entry.Move.keeps hidentity hwrites hmove
  | aside hstreams => exact hstreams ▸ refl_of R _

end Keeping

private theorem Lazy.Move.shows {load : Option Origin → Load ν} {V : ν → Prop}
    {inner : Course ε (ν × Streams)} {event : CellEvent ε} {cell later : Lazy ν}
    {streams after : Streams} (h : Lazy.Move load inner event (cell, streams) (later, after))
    (hquiet : event.Within inner.Quiet) (hstreams : streams.Holds library)
    (hinner : ∀ event value value' after, inner.Quiet event → V value →
      inner.Move event (value, streams) (value', after) → V value')
    (hcell : cell.Shows library load V) : later.Shows library load V := by
  obtain ⟨value, hsettles, hvalue⟩ := hcell
  obtain ⟨around, hfetch, -⟩ := hsettles streams hstreams
  -- What has been loaded is what the bytes settle.
  have hloaded {found : ν} {between : Streams} (hrun : cell.fetch load streams = .ok found between)
      (hlater : later.peek = some found) : later.Shows library load V := by
    rw [hfetch] at hrun
    cases hrun
    exact Lazy.shows_of_peek hlater hvalue
  cases h with
  | found hpeek horigin hrun hlater _ | built hpeek horigin hrun hlater _ =>
    refine hloaded (Eq.trans ?_ hrun) hlater
    rw [Lazy.fetch_of_unloaded hpeek, horigin]
  | failed => exact ⟨value, hsettles, hvalue⟩
  | shifted hlater hkept =>
    have hsame : later.fetch load = cell.fetch load := by rw [Lazy.fetch, hlater, hkept, Lazy.fetch]
    exact ⟨value, by rw [hsame]; exact hsettles, hvalue⟩
  | within hpeek hmove hlater _ =>
    rw [Lazy.fetch_of_peek hpeek] at hfetch
    cases hfetch
    exact Lazy.shows_of_peek hlater (hinner _ _ _ _ hquiet hvalue hmove)

private theorem Entry.Move.shows {event : EntryEvent} {entry later : Entry}
    {streams after : Streams} {content : EntryContent}
    (h : Entry.Move writing event (entry, streams) (later, after))
    (hquiet : (course writing).Quiet event) (hstreams : streams.Holds library)
    (hentry : entry.Shows library content) : later.Shows library content := by
  have hown {event : CellEvent Unit} (hlook : event.isOwn) : event.Within Identity.course.Quiet :=
    CellEvent.within_of_isOwn hlook
  have hidentity {header : IdentityHeader} (event : Unit) (identity identity' : Identity)
    (after : Streams)
      (hnever : Identity.course.Quiet event) : identity.header = header →
        Identity.course.Move event (identity, streams) (identity', after) →
          identity'.header = header := hnever.elim
  cases h with
  | edited h => simp [course, EntryEvent.isLook] at hquiet
  | wrote => exact hentry
  | identification h =>
    have hcell :=
      Lazy.Move.shows h (hown (hquiet.resolve_right nofun)) hstreams hidentity hentry.identification
    exact ⟨hcell, hentry.secretIdentity, hentry.approver, hentry.reviewers⟩
  | secretIdentity h =>
    obtain ⟨cell, cell', hget, hmove, rfl⟩ := h
    refine ⟨hentry.identification, ?_, hentry.approver, hentry.reviewers⟩
    have hsecret := hentry.secretIdentity
    rw [hget] at hsecret
    rw [Slots.get?_modify, if_pos rfl, hget]
    generalize content.secretIdentity = header at hsecret ⊢
    cases hsecret with
    | some hshows =>
      exact .some
        (Lazy.Move.shows hmove (hown (hquiet.resolve_right nofun)) hstreams hidentity hshows)

namespace Document

def ShowsAt (library : Library) (i : Nat) (content : EntryContent) (document : Document) : Prop :=
  ∃ cell, document.entries.get? i = some cell ∧ ShowsEntry library document.stamp i cell content

private theorem Move.get?_eq {event : DocumentEvent} {document later : Document}
    {streams after : Streams} {i : Nat} {cell : Lazy Entry}
    (h : Document.Move writing event (document, streams) (later, after))
    (hother : ∀ inner, event ≠ .entry i inner) (hcell : document.entries.get? i = some cell) :
    later.entries.get? i = some cell := by
  cases h with
  | began | wrote => exact hcell
  | added =>
    have hbound : i ≠ document.entries.size := by
      rintro rfl
      simp at hcell
    rw [addEntry, Slots.get?_insert, if_neg hbound, hcell]
  | @entry j event document slots _ _ h =>
    obtain ⟨first, changed, hget, hmove, rfl⟩ := h
    have hj : i ≠ j := by
      rintro rfl
      exact hother event rfl
    rw [Slots.get?_modify, if_neg hj, hcell]

private theorem Move.showsAt {event : DocumentEvent} {document later : Document}
    {streams after : Streams} {i : Nat} {content : EntryContent}
    (h : Document.Move writing event (document, streams) (later, after))
    (hquiet : ∀ inner, event = .entry i inner → inner.Within (Entry.course writing).Quiet)
    (hstreams : streams.Holds library) (hshows : document.ShowsAt library i content) :
    later.ShowsAt library i content := by
  obtain ⟨cell, hcell, hshows⟩ := hshows
  have hown := h
  cases h with
  | began | wrote => exact ⟨cell, hcell, hshows⟩
  | added => exact ⟨cell, hown.get?_eq (fun _ heq => DocumentEvent.noConfusion heq) hcell, hshows⟩
  | @entry j event document slots _ _ hinner =>
    by_cases hj : i = j
    · subst hj
      obtain ⟨first, changed, hget, hmove, rfl⟩ := hinner
      rw [hcell] at hget
      cases hget
      refine ⟨changed, ?_, ?_⟩
      · rw [Slots.get?_modify, if_pos rfl, hcell]
        rfl
      · exact Lazy.Move.shows hmove (hquiet event rfl) hstreams
          (fun _ _ _ _ hevent hentry hinner =>
            Entry.Move.shows hinner hevent hstreams hentry) hshows
    · refine ⟨cell, hown.get?_eq (fun inner heq => ?_) hcell, hshows⟩
      cases heq
      exact hj rfl

end Document

/-- Whether an operation looks at trees and leaves them as they are, apart from what it loads. -/
def Op.isLook : Op → Bool
  | .dump _ | .entryCount _ | .isEntryLoaded _ _ | .documentText _ | .entryPaths _ | .loadAll _
  | .documentChild _ _ _ | .documentStamp _ | .equalIdentities _ _ | .makeRef _ _ _ | .resolve _ _
  | .lookAtEntry _ _ | .lookAtIdentity _ _ => true
  | _ => false

/-- An operation that does not come to the entry with number `i` of the document. -/
def Op.Avoids (name : String) (i : Nat) (op : Op) : Prop :=
  op.isInner ∧ ∀ refs, ¬ op.Reaches refs name (.entry i)

/-- An operation that looks at trees, or one that does not come to the entry with number `i` of the
document. -/
def Op.Spares (name : String) (i : Nat) (op : Op) : Prop := op.isLook ∨ op.Avoids name i

namespace Workspace

/-- What is done to the entry with number `i` of the document is quiet. -/
def QuietAt (name : String) (i : Nat) (event : WorkspaceEvent) : Prop :=
  ∀ inner, event = .document name (.entry i inner) → inner.Within (Entry.course .nothing).Quiet

private theorem reaches_entry {refs : Table String NodeRef} {op : Op} {name : String} {i : Nat}
    {event : CellEvent EntryEvent} (h : op.Reaches refs name (event.node i)) :
    op.Reaches refs name (.entry i) := by
  obtain ⟨goal, hasks, hway⟩ := h
  refine ⟨goal, hasks, ?_⟩
  have hnode : event.node i = .entry i ∨ event.node i = .identification i ∨
    event.node i = .secretIdentity i := by
    cases event with
    | read | settled => exact .inl rfl
    | within event => cases event <;> simp [CellEvent.node, EntryEvent.node]
  cases goal with
  | document => cases hway
  | entry j | identification j | secretIdentity j =>
    rcases hnode with hnode | hnode | hnode <;> rw [hnode] at hway <;>
      simp_all [Document.Node.onWay]

section Looking

/-- Reads and settlements of cells, and what leaves all trees alone. -/
abbrev Glimpses (event : WorkspaceEvent) : Prop := (course .nothing).Quiet event ∨ event = .aside

private theorem glimpses_perform {op : Op} (h : op.isLook) (workspace : Workspace) :
    Reached (course .nothing) (View.seen Error.Refused) Glimpses workspace
      (perform op workspace) := by
  have hdocument {name : String} {access : Access Streams Document Answer}
      (hlooks : Document.Looks .nothing (fun _ => True) access) :
      Treads (course .nothing) (View.seen Error.Refused) Glimpses (atDocument name access) :=
    Treads.mono (@quiet_atDocument _ (fun _ _ => True) _ _ (Treads.mono hlooks fun _ hevent =>
      ⟨.inr trivial, hevent.2⟩)) fun _ hevent => .inl hevent.2
  have hkeep (as : String) (answer : Answer) :
      Treads (course .nothing) (View.seen Error.Refused) Glimpses (keepAnswer as answer) :=
    treads_keepAnswer (.inr rfl) as answer
  cases op with
  | dump stream => exact .stay trivial
  | entryCount document | isEntryLoaded document i | documentStamp document =>
    exact hdocument (Treads.node_bind fun _ => Treads.pure _) workspace trivial
  | documentText document =>
    exact hdocument (Treads.bind_pure _ (Document.looks_text fun _ => trivial)) workspace trivial
  | entryPaths document =>
    refine hdocument (Treads.bind_pure _ ?_) workspace trivial
    exact @Document.looks_entryList _ (fun _ => True) fun _ => trivial
  | loadAll document =>
    exact hdocument (Treads.bind_pure _ (Document.looks_loadAll fun _ => trivial)) workspace trivial
  | documentChild document field index =>
    exact hdocument (Treads.bind_pure _ (Document.looks_child fun _ _ => trivial)) workspace trivial
  | equalIdentities identity other =>
    rw [perform, get_bind_apply]
    cases workspace.identities.find? identity <;> cases workspace.identities.find? other <;>
      exact .stay trivial
  | makeRef owner coordinates as =>
    rw [perform, get_bind_apply]
    cases workspace.ownerRoot owner with
    | none => exact .stay trivial
    | some root => exact hkeep _ _ workspace trivial
  | resolve document ref =>
    rw [perform, get_bind_apply]
    cases hfound : workspace.refs.find? ref with
    | none => exact hdocument (Treads.pure _) workspace trivial
    | some target =>
      exact hdocument (Treads.bind_pure _ (Document.looks_resolveIdentity fun _ _ _ _ => trivial))
        workspace trivial
  | lookAtEntry entry look =>
    refine Treads.bind (@quiet_atEntry _ (fun _ _ => True) _ _ (fun name i _ => ?_)
      (looks_viewEntry fun _ _ => trivial) |>.mono fun _ hevent => ⟨.inl hevent.2, hevent.2⟩)
      (fun answer => ?_) workspace trivial
    · exact ⟨looks_viewEntry fun _ _ => .inr trivial, trivial⟩
    · split
      · exact hkeep _ _
      · exact hkeep _ _
      · exact Treads.pure _
  | lookAtIdentity identity look =>
    refine Treads.bind (quiet_atIdentity (peeks_viewIdentity look) (fun _ _ _ _ _ => trivial)
      |>.mono fun _ hevent => ⟨.inl hevent.2, hevent.2⟩) (fun answer => ?_) workspace trivial
    split
    · exact hkeep _ _
    · exact Treads.pure _
  | _ => cases h

end Looking

/-- The event is not about the entry with number `i` of the document. -/
def IsElsewhere (name : String) (i : Nat) (event : WorkspaceEvent) : Prop :=
  ∀ inner, event ≠ .document name (.entry i inner)

private theorem trail_of_avoids {op : Op} {name : String} {i : Nat} (h : op.Avoids name i)
    (workspace : Workspace) :
    ∃ events, Trail (Move .nothing) events workspace (step op workspace).2 ∧ ∀ event ∈ events,
      IsElsewhere name i event := by
  obtain ⟨hinner, havoids⟩ := h
  obtain ⟨events, htrail, hall⟩ := (reached_perform hinner workspace).trail
  refine ⟨events, by rwa [step_snd], fun event hevent => ?_⟩
  rintro inner rfl
  rcases hall _ hevent with hnode | hreach
  · have hnever : inner.node i ≠ .document := by
      cases inner with
      | read | settled => nofun
      | within event => cases event <;> nofun
    exact absurd hnode hnever
  · exact absurd (reaches_entry hreach) (havoids _)

private theorem trail_of_spares {op : Op} {name : String} {i : Nat} (h : op.Spares name i)
    (workspace : Workspace) :
    ∃ events, Trail (Move .nothing) events workspace (step op workspace).2 ∧ ∀ event ∈ events,
      QuietAt name i event := by
  rcases h with hlook | havoids
  · obtain ⟨events, htrail, hall⟩ := (glimpses_perform hlook workspace).trail
    refine ⟨events, by rwa [step_snd], fun event hevent => ?_⟩
    rintro inner rfl
    rcases hall _ hevent with hquiet | haside
    · exact hquiet
    · cases haside
  · obtain ⟨events, htrail, hall⟩ := trail_of_avoids havoids workspace
    exact ⟨events, htrail, fun event hevent inner heq => absurd heq (hall event hevent inner)⟩

variable {name : String} {i : Nat} {content : EntryContent}

/-- The known streams hold their bytes, and the entry with number `i` of the document shows the
content. -/
structure ShowsAt (library : Library) (name : String) (i : Nat) (content : EntryContent)
    (workspace : Workspace) :
    Prop where
  holds : workspace.streams.Holds library
  document : ∃ document, workspace.documents.find? name = some document ∧
    document.ShowsAt library i content

private theorem Move.showsAt {event : WorkspaceEvent} {workspace later : Workspace}
    (h : Move .nothing event workspace later) (hquiet : QuietAt name i event)
    (hshows : workspace.ShowsAt library name i content) :
    later.ShowsAt library name i content := by
  have hholds := h.keeps Entry.holdsOn_loadIdentity
    (fun _ _ hnever => False.elim hnever) Document.holdsOn_loadEntry
    (fun _ _ hnever => False.elim hnever) hshows.holds
  refine ⟨hholds, ?_⟩
  obtain ⟨document, hdocument, hentry⟩ := hshows.document
  cases h with
  | entry => exact ⟨document, hdocument, hentry⟩
  | aside _ hdocuments _ => exact ⟨document, by rw [hdocuments, hdocument], hentry⟩
  | @document other event _ first later streams hfound hmove =>
    by_cases hname : name = other
    · subst hname
      rw [hdocument] at hfound
      cases hfound
      refine ⟨later, Table.find?_set_self ..,
        hmove.showsAt (fun inner hinner => ?_) hshows.holds hentry⟩
      exact hquiet inner (congrArg _ hinner)
    · exact ⟨document, by rw [Table.find?_set, if_neg hname, hdocument], hentry⟩

private theorem showsAt_trail {events : List WorkspaceEvent} {workspace later : Workspace}
    (h : Trail (Move .nothing) events workspace later)
    (hall : ∀ event ∈ events, QuietAt name i event)
    (hshows : workspace.ShowsAt library name i content) : later.ShowsAt library name i content := by
  induction h with
  | nil => exact hshows
  | cons hmove _ ih =>
    exact ih (fun event hevent => hall event (List.mem_cons_of_mem _ hevent))
      (hmove.showsAt (hall _ List.mem_cons_self) hshows)

/-- An entry shows what it showed after all operations that spare it. -/
theorem showsAt_run {ops : List Op} {workspace : Workspace} (hops : ∀ op ∈ ops, op.Spares name i)
    (h : workspace.ShowsAt library name i content) :
    (run ops workspace).2.ShowsAt library name i content := by
  induction ops generalizing workspace with
  | nil => exact h
  | cons op ops ih =>
    obtain ⟨events, htrail, hall⟩ := trail_of_spares (hops op List.mem_cons_self) workspace
    exact ih (fun op hop => hops op (List.mem_cons_of_mem _ hop)) (showsAt_trail htrail hall h)

/-- The cell of the entry with number `i` of the document, if it is there. -/
def cellAt? (workspace : Workspace) (name : String) (i : Nat) : Option (Lazy Entry) :=
  (workspace.documents.find? name).bind fun document => document.entries.get? i

private theorem Move.cellAt?_eq {event : WorkspaceEvent} {workspace later : Workspace}
    {cell : Lazy Entry} (h : Move .nothing event workspace later)
    (hother : IsElsewhere name i event) (hcell : workspace.cellAt? name i = some cell) :
    later.cellAt? name i = some cell := by
  rw [cellAt?] at hcell ⊢
  cases h with
  | entry => exact hcell
  | aside _ hdocuments _ => rw [hdocuments, hcell]
  | @document other event _ first later streams hfound hmove =>
    by_cases hname : name = other
    · subst hname
      rw [hfound] at hcell
      rw [Table.find?_set_self]
      exact hmove.get?_eq (fun inner heq => hother inner (congrArg _ heq)) hcell
    · rw [Table.find?_set, if_neg hname, hcell]

private theorem cellAt?_trail {events : List WorkspaceEvent} {workspace later : Workspace}
    {cell : Lazy Entry} (h : Trail (Move .nothing) events workspace later)
    (hall : ∀ event ∈ events, IsElsewhere name i event)
    (hcell : workspace.cellAt? name i = some cell) : later.cellAt? name i = some cell := by
  induction h with
  | nil => exact hcell
  | cons hmove _ ih =>
    exact ih (fun event hevent => hall event (List.mem_cons_of_mem _ hevent))
      (hmove.cellAt?_eq (hall _ List.mem_cons_self) hcell)

/-- The cell of an entry that nobody comes to stays as it is. -/
theorem cellAt?_run {ops : List Op} {workspace : Workspace} {cell : Lazy Entry}
    (hops : ∀ op ∈ ops, op.Avoids name i) (hcell : workspace.cellAt? name i = some cell) :
    (run ops workspace).2.cellAt? name i = some cell := by
  induction ops generalizing workspace with
  | nil => exact hcell
  | cons op ops ih =>
    obtain ⟨events, htrail, hall⟩ := trail_of_avoids (hops op List.mem_cons_self) workspace
    exact ih (fun op hop => hops op (List.mem_cons_of_mem _ hop)) (cellAt?_trail htrail hall hcell)

end Workspace
end FramedTree
