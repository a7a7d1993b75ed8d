import FramedTree.Proofs.MoveTrails
import FramedTree.Proofs.Resolution

/-! # The moves of a tree

Whatever is done to a tree, it is done by moves: one of its cells is read or settled, an identity or
an entry is changed, an entry is added, or frames are written somewhere. Looks at a tree are made of
reads and settlements alone. For every way of working on a tree we say which nodes its moves are
about.
-/

namespace FramedTree

variable {α β : Type}

inductive EntryEvent where
  | identification (event : CellEvent Unit)
  | secretIdentity (event : CellEvent Unit)
  | edited
  | wrote
  deriving DecidableEq, Repr

inductive DocumentEvent where
  | entry (i : Nat) (event : CellEvent EntryEvent)
  | added
  | began
  | wrote
  deriving DecidableEq, Repr

/-- What saving does to the streams: as it begins, and with every frame. -/
structure Writing where
  begins : Streams → Streams → Prop
  writes : Streams → Streams → Prop

namespace EntryEvent

/-- The node that the event is about, in the entry with number `i`. -/
def node (i : Nat) : EntryEvent → Document.Node
  | identification _ => .identification i
  | secretIdentity _ => .secretIdentity i
  | edited | wrote => .entry i

/-- Whether a cell was read or settled and nothing else happened. -/
def isLook : EntryEvent → Bool
  | identification event | secretIdentity event => event.isOwn
  | edited | wrote => false

end EntryEvent

namespace CellEvent

/-- The node that the event is about, in the cell of the entry with number `i`. -/
def node (i : Nat) : CellEvent EntryEvent → Document.Node
  | within event => event.node i
  | _ => .entry i

def isLook : CellEvent EntryEvent → Bool
  | within event => event.isLook
  | _ => true

end CellEvent

namespace DocumentEvent

def node : DocumentEvent → Document.Node
  | entry i event => event.node i
  | added | began | wrote => .document

def isLook : DocumentEvent → Bool
  | entry _ event => event.isLook
  | added | began | wrote => false

end DocumentEvent

/-- An identity may be changed, but stays the same node. -/
def Identity.course : Course Unit (Identity × Streams) where
  Move _ state after := after.1.stamp = state.1.stamp ∧ after.2 = state.2
  Quiet _ := False
  Blames _ _ := False

namespace Entry

/-- A change of an entry that leaves its identification alone. A secret identity that is there
afterwards was there before or is not stored anywhere. -/
structure Edited (before after : Entry) : Prop where
  stamp_eq : after.stamp = before.stamp
  identification_eq : after.identification = before.identification
  secretIdentity : ∀ cell, after.secretIdentity.get? singular = some cell →
    before.secretIdentity.get? singular = some cell ∨ cell.origin = none

abbrev identificationCourse (stamp : Stamp) : Course (CellEvent Unit) (Lazy Identity × Streams) :=
  Lazy.course (loadIdentity stamp identificationField) Identity.course

abbrev secretCourse (stamp : Stamp) : Course (CellEvent Unit) (Lazy Identity × Streams) :=
  Lazy.course (loadIdentity stamp secretIdentityField) Identity.course

/-- The moves of an entry. What frames that are written do to the streams is up to `writing`. -/
inductive Move (writing : Writing) : EntryEvent → Entry × Streams → Entry × Streams → Prop where
  | identification {event : CellEvent Unit} {entry : Entry} {cell : Lazy Identity}
      {streams after : Streams}
      (h : (identificationCourse entry.stamp).Move event (entry.identification, streams)
        (cell, after)) :
      Move writing (.identification event) (entry, streams)
        ({ entry with identification := cell }, after)
  | secretIdentity {event : CellEvent Unit} {entry : Entry} {slots : Slots (Lazy Identity)}
      {streams after : Streams}
      (h : (Slots.course fun _ => secretCourse entry.stamp).Move (singular, event)
        (entry.secretIdentity, streams)
        (slots, after)) :
      Move writing (.secretIdentity event) (entry, streams)
        ({ entry with secretIdentity := slots }, after)
  | edited {entry later : Entry} {streams : Streams} (h : entry.Edited later) :
      Move writing .edited (entry, streams) (later, streams)
  | wrote {entry : Entry} {streams after : Streams} (h : writing.writes streams after) :
      Move writing .wrote (entry, streams) (entry, after)

def course (writing : Writing) : Course EntryEvent (Entry × Streams) where
  Move := Move writing
  Quiet event := event.isLook ∨ event = .wrote
  Blames error
    | .identification event | .secretIdentity event => event.Blames (fun _ => False) error
    | .edited | .wrote => False

end Entry

namespace Document

abbrev cellCourse (writing : Writing) (stamp : Stamp) (i : Nat) :
    Course (CellEvent EntryEvent) (Lazy Entry × Streams) :=
  Lazy.course (loadEntry stamp i) (Entry.course writing)

inductive Move (writing : Writing) :
    DocumentEvent → Document × Streams → Document × Streams → Prop where
  | entry {i : Nat} {event : CellEvent EntryEvent} {document : Document}
      {slots : Slots (Lazy Entry)}
      {streams after : Streams}
      (h : (Slots.course (cellCourse writing document.stamp)).Move (i, event)
        (document.entries, streams)
        (slots, after)) :
      Move writing (.entry i event) (document, streams) ({ document with entries := slots }, after)
  | added {document : Document} {streams : Streams} :
      Move writing .added (document, streams) (document.addEntry.2, streams)
  | began {document : Document} {streams after : Streams} (h : writing.begins streams after) :
      Move writing .began (document, streams) (document, after)
  | wrote {document : Document} {streams after : Streams} (h : writing.writes streams after) :
      Move writing .wrote (document, streams) (document, after)

def course (writing : Writing) : Course DocumentEvent (Document × Streams) where
  Move := Move writing
  Quiet
    | .entry _ event => event.Within (Entry.course writing).Quiet
    | .added => False
    | .began | .wrote => True
  Blames error
    | .entry _ event => event.Blames ((Entry.course writing).Blames error) error
    | .added | .began | .wrote => False

end Document

private theorem Treads.bind_looks {ε σ τ : Type} {course : Course ε σ} {view : View τ σ}
    {P : ε → Prop} {activity : EStateM Error τ α} {next : α → EStateM Error τ β}
    (h : Treads course view P activity) (hquiet : ∀ event, P event → course.Quiet event)
    (hnext : ∀ value, Treads course view P (next value)) :
    Treads course view P (activity >>= next) :=
  Treads.bind (h.mono fun event hevent => ⟨hevent, hquiet event hevent⟩) hnext

variable {writing : Writing}

private theorem Treads.opens_plain {ε ν : Type} {inner : Course ε (ν × Streams)} {P : ε → Prop}
    {Q : CellEvent ε → Prop} {load : Option Origin → Load ν} {work : Access Streams ν α}
    {access : Access Streams (Lazy ν) α} (hopens : Lazy.Opens load work access)
    (h : Treads inner (View.plain.on ν) P work)
    (hbuilt : ∀ streams, ∃ value, load none streams = .ok value streams)
    (hown : ∀ event, event.isOwn → Q event) (hwithin : ∀ event, P event → Q (.within event)) :
    Treads (Lazy.course load inner) (View.plain.on (Lazy ν)) Q access := by
  refine Treads.opens hopens h (fun origin streams _ => ⟨?_, trivial⟩) hbuilt hown hwithin
  change mapState id (load origin streams) = load origin streams
  cases load origin streams <;> rfl

namespace Entry

variable {i : Nat} {reach : Document.Node → Prop}

/-- Work on the entry with number `i`, of which all moves are about nodes in reach. -/
abbrev Works (writing : Writing) (i : Nat) (reach : Document.Node → Prop)
    (access : Access Streams Entry α) : Prop :=
  Treads (course writing) (View.plain.on Entry) (fun event => reach (event.node i)) access

/-- Work that reads and settles cells and does nothing else. -/
abbrev Looks (writing : Writing) (i : Nat) (reach : Document.Node → Prop)
    (access : Access Streams Entry α) : Prop :=
  Treads (course writing) (View.plain.on Entry)
    (fun event => reach (event.node i) ∧ event.isLook) access

theorem Looks.works {access : Access Streams Entry α} (h : Looks writing i reach access) :
    Works writing i reach access := Treads.mono h fun _ hevent => hevent.1

private theorem Looks.bind {access : Access Streams Entry α} {next : α → Access Streams Entry β}
    (h : Looks writing i reach access) (hnext : ∀ value, Looks writing i reach (next value)) :
    Looks writing i reach (access >>= next) :=
      Treads.bind_looks h (fun _ hevent => .inl hevent.2) hnext

theorem Looks.bind_pure {access : Access Streams Entry α} (f : α → β)
    (h : Looks writing i reach access) :
    Looks writing i reach (do return f (← access)) := Treads.bind_pure f h

theorem Works.bind_pure {access : Access Streams Entry α} (f : α → β)
    (h : Works writing i reach access) :
    Works writing i reach (do return f (← access)) := Treads.bind_pure f h

private theorem isOwn_of_within_false {event : CellEvent Unit} (h : event.Within fun _ => False) :
    event.isOwn := by
  cases event with
  | within event => exact h.elim
  | read origin failure | settled => rfl

private theorem loadIdentity_none (stamp : Stamp) (field : UInt32) (streams : Streams) :
    ∃ identity, loadIdentity stamp field none streams = .ok identity streams := ⟨_, rfl⟩

section Opening

variable {P : Unit → Prop} {Q : EntryEvent → Prop} {inner : Access Streams Identity α}
  {access : Stamp → Access Streams (Lazy Identity) α}

private theorem treads_identification
    (hopens : ∀ stamp, Lazy.Opens (loadIdentity stamp identificationField) inner (access stamp))
    (h : Treads Identity.course (View.plain.on Identity) P inner)
    (hown : ∀ event : CellEvent Unit, event.isOwn → Q (.identification event))
    (hwithin : ∀ event, P event → Q (.identification (.within event))) :
    Treads (course writing) (View.plain.on Entry) Q (do
      let entry ← Access.node
      Access.within identification (fun cell entry => { entry with identification := cell })
        (access entry.stamp)) := by
  have hcell (stamp : Stamp) : Treads (identificationCourse stamp) (View.plain.on (Lazy Identity))
      (fun event => Q (.identification event)) (access stamp) :=
    Treads.opens_plain (hopens stamp) h (loadIdentity_none stamp identificationField) hown hwithin
  refine Treads.node_within (f := EntryEvent.identification) (fun _ => rfl)
    (fun entry => hcell entry.stamp)
    (fun entry event _ part streams part' streams' hmove => ?_) (fun _ hevent => hevent)
      (fun entry event hquiet => ?_)
    fun _ _ _ hblames => hblames
  · exact .identification hmove
  · exact .inl (isOwn_of_within_false hquiet)

private theorem treads_secretIdentity
    (hopens : ∀ stamp, Lazy.Opens (loadIdentity stamp secretIdentityField) inner (access stamp))
    (h : Treads Identity.course (View.plain.on Identity) P inner)
    (hown : ∀ event : CellEvent Unit, event.isOwn → Q (.secretIdentity event))
    (hwithin : ∀ event, P event → Q (.secretIdentity (.within event))) :
    Treads (course writing) (View.plain.on Entry) Q (do
      let entry ← Access.node
      Access.within secretIdentity (fun slots entry => { entry with secretIdentity := slots })
        (Slots.access singular (access entry.stamp))) := by
  have hslots (stamp : Stamp) : Treads (Slots.course fun _ => secretCourse stamp)
      (View.plain.on (Slots (Lazy Identity)))
        (fun event => event.1 = singular ∧ Q (.secretIdentity event.2))
      (Slots.access singular (access stamp)) := by
    refine Treads.slot (Treads.mono ?_ fun _ hevent => ⟨rfl, hevent⟩)
    exact Treads.opens_plain (hopens stamp) h
      (loadIdentity_none stamp secretIdentityField) hown hwithin
  refine Treads.node_within (f := fun event => EntryEvent.secretIdentity event.2) (fun _ => rfl)
    (fun entry => hslots entry.stamp) ?_ (fun _ hevent => hevent.2)
      (fun entry event hquiet => ?_) ?_
  · rintro entry ⟨j, event⟩ ⟨rfl, -⟩ slots streams slots' streams' hmove
    exact .secretIdentity hmove
  · exact .inl (isOwn_of_within_false hquiet)
  · exact fun _ _ _ hblames => hblames

end Opening

section Looking

variable {inner : Access Streams Identity α}

abbrev Peeks (inner : Access Streams Identity α) : Prop :=
  Treads Identity.course (View.plain.on Identity) (fun _ => False) inner

theorem looks_onIdentification (h : Peeks inner) (hreach : reach (.identification i)) :
    Looks writing i reach (onIdentification inner) :=
  treads_identification (fun _ => Lazy.access_opens _ _) h (fun _ hown => ⟨hreach, hown⟩)
    fun _ hevent => hevent.elim

theorem looks_onSecretIdentity (h : Peeks inner) (hreach : reach (.secretIdentity i)) :
    Looks writing i reach (onSecretIdentity inner) :=
  treads_secretIdentity (fun _ => Lazy.access_opens _ _) h (fun _ hown => ⟨hreach, hown⟩)
    fun _ hevent => hevent.elim

theorem looks_loadAll (hidentification : reach (.identification i))
    (hsecret : reach (.secretIdentity i)) :
    Looks writing i reach loadAll := by
  refine Looks.bind ?_ fun _ => Treads.map _ ?_
  · exact treads_identification (fun _ => Lazy.accessMut_opens _ _)
      (Treads.pure (P := fun _ => False) ())
      (fun _ hown => ⟨hidentification, hown⟩) fun _ hevent => hevent.elim
  · exact treads_secretIdentity (fun _ => Lazy.accessMut_opens _ _)
      (Treads.pure (P := fun _ => False) ())
      (fun _ hown => ⟨hsecret, hown⟩) fun _ hevent => hevent.elim

theorem looks_child {field : UInt32} {index : UInt64}
    (hreach : ∀ node, (Document.Node.entry i).next field index = some node → reach node) :
    Looks writing i reach (child field index) := by
  unfold child
  simp only [Document.Node.next] at hreach
  by_cases hfirst : field = identificationField
  · rw [if_pos hfirst] at hreach ⊢
    exact Treads.map some (looks_onIdentification Treads.node (hreach _ rfl))
  · rw [if_neg hfirst] at hreach ⊢
    by_cases hsecond : field = secretIdentityField
    · rw [if_pos hsecond] at hreach ⊢
      exact looks_onSecretIdentity Treads.node (hreach _ rfl)
    · rw [if_neg hsecond]
      exact Treads.pure none

theorem looks_outline (hidentification : reach (.identification i))
    (hsecret : reach (.secretIdentity i)) :
    Looks writing i reach outline :=
  Looks.bind (Treads.attempt (looks_onIdentification Treads.node hidentification)) fun _ =>
    Looks.bind (Treads.attempt (looks_onSecretIdentity Treads.node hsecret)) fun _ =>
      Treads.node_bind fun _ => Treads.pure _

theorem looks_text (hidentification : reach (.identification i))
    (hsecret : reach (.secretIdentity i)) :
    Looks writing i reach text := Treads.bind_pure _ (looks_outline hidentification hsecret)

theorem looks_secretAndEntry (hsecret : reach (.secretIdentity i)) :
    Looks writing i reach secretAndEntry :=
  Looks.bind (looks_onSecretIdentity Treads.node hsecret) fun _ => Treads.node_bind fun _ =>
    Treads.pure _

end Looking

section Changing

variable {inner : Access Streams Identity α}

abbrev Handles (inner : Access Streams Identity α) : Prop :=
  Treads Identity.course (View.plain.on Identity) (fun _ => True) inner

theorem works_onIdentificationMut (h : Handles inner) (hreach : reach (.identification i)) :
    Works writing i reach (onIdentificationMut inner) :=
  treads_identification (fun _ => Lazy.accessMut_opens _ _) h (fun _ _ => hreach) fun _ _ => hreach

theorem works_onSecretIdentityMut (h : Handles inner) (hreach : reach (.secretIdentity i)) :
    Works writing i reach (onSecretIdentityMut inner) :=
  treads_secretIdentity (fun _ => Lazy.accessMut_opens _ _) h (fun _ _ => hreach) fun _ _ => hreach

/-- A secret identity that has to be made is changed at once, and the change cannot fail. -/
theorem works_addSecretIdentity (h : Handles inner)
    (hsure : ∀ identity streams, ∃ value later,
      inner (identity, streams) = .ok value (later, streams))
    (hentry : reach (.entry i)) (hsecret : reach (.secretIdentity i)) :
    Works writing i reach (addSecretIdentity inner) := by
  rintro ⟨entry, streams⟩ hsound
  have hopens := Lazy.accessMut_opens (loadIdentity entry.stamp secretIdentityField) inner
  rw [addSecretIdentity, Access.node_bind_apply, Access.within_apply]
  cases hslot : entry.secretIdentity.get? singular with
  | none =>
    -- The new cell is stored nowhere, so that its value is built and changed without a failure.
    have hfetch : Lazy.fetch (loadIdentity entry.stamp secretIdentityField) {} streams =
      .ok _ streams := rfl
    obtain ⟨kept, hkept, hrun⟩ := hopens.fetched hfetch
    obtain ⟨value, later, hinner⟩ :=
      hsure { stamp := entry.stamp.child secretIdentityField 0 } streams
    rw [hinner, mapState_ok] at hrun
    rw [Option.getD_none, hrun, mapState_ok]
    have hedited : entry.Edited
        { entry with secretIdentity := entry.secretIdentity.insert singular (Lazy.putBack later kept) } := by
      refine ⟨rfl, rfl, fun cell hcell => .inr ?_⟩
      have : Lazy.putBack later kept = cell := by simpa [Slots.get?_insert] using hcell
      rw [← this, Lazy.origin_putBack, hkept]
    refine .ok hsound (.single (Move.edited hedited)) fun event hevent => ?_
    rw [List.mem_singleton] at hevent
    rwa [hevent]
  | some cell =>
    have hcell : Treads (secretCourse entry.stamp) (View.plain.on (Lazy Identity)) (fun _ => True)
        (Lazy.accessMut (loadIdentity entry.stamp secretIdentityField) inner) :=
      Treads.opens_plain hopens h (loadIdentity_none _ _) (fun _ _ => trivial) fun _ _ => trivial
    have hstart : (View.plain.on Entry).look (entry, streams) =
        (fun state : Lazy Identity × Streams =>
          ({ entry with secretIdentity := entry.secretIdentity.insert singular state.1 }, state.2))
          ((View.plain.on (Lazy Identity)).look (cell, streams)) := by
      simp only [View.on, Slots.insert_self hslot]
    rw [Option.getD_some, hstart]
    refine Reached.lift (f := EntryEvent.secretIdentity)
      (g := fun state =>
        ({ entry with secretIdentity := entry.secretIdentity.insert singular state.1 }, state.2))
      (hcell (cell, streams) hsound) ?_ ?_ ?_ ?_ ?_ ?_ ?_
    · intro event _ state after hmove
      refine .secretIdentity ⟨state.1, after.1, ?_, hmove, (Slots.modify_insert ..).symm⟩
      rw [Slots.get?_insert, if_pos rfl]
    · exact fun _ _ => hsecret
    · exact fun _ hquiet => .inl (isOwn_of_within_false hquiet)
    · exact fun _ _ hblames => hblames
    · exact fun _ _ => rfl
    · exact fun _ hafter => hafter
    · exact fun _ hrefused => hrefused

end Changing
end Entry

namespace Document

variable {reach : Node → Prop}

abbrev Works (writing : Writing) (reach : Node → Prop) (access : Access Streams Document α) :
    Prop :=
  Treads (course writing) (View.plain.on Document) (fun event => reach event.node) access

abbrev Looks (writing : Writing) (reach : Node → Prop) (access : Access Streams Document α) :
    Prop :=
  Treads (course writing) (View.plain.on Document)
    (fun event => reach event.node ∧ event.isLook) access

theorem quiet_of_isLook {event : DocumentEvent} (h : event.isLook) :
    (course writing).Quiet event := by
  cases event with
  | added | began | wrote => cases h
  | entry i event =>
    cases event with
    | within event => exact .inl h
    | read origin failure | settled => trivial

theorem Looks.works {access : Access Streams Document α} (h : Looks writing reach access) :
    Works writing reach access := Treads.mono h fun _ hevent => hevent.1

private theorem loadEntry_none (stamp : Stamp) (i : Nat) (streams : Streams) :
    ∃ entry, loadEntry stamp i none streams = .ok entry streams := ⟨_, rfl⟩

section Opening

variable {i : Nat} {P : EntryEvent → Prop} {Q : DocumentEvent → Prop}
  {inner : Access Streams Entry α}

private theorem treads_cell {stamp : Stamp} {access : Access Streams (Lazy Entry) α}
    (hopens : Lazy.Opens (loadEntry stamp i) inner access)
    (h : Treads (Entry.course writing) (View.plain.on Entry) P inner)
    (hown : ∀ event : CellEvent EntryEvent, event.isOwn → Q (.entry i event))
    (hwithin : ∀ event, P event → Q (.entry i (.within event))) :
    Treads (cellCourse writing stamp i) (View.plain.on (Lazy Entry))
      (fun event => Q (.entry i event)) access :=
  Treads.opens_plain hopens h (loadEntry_none stamp i) hown hwithin

theorem treads_slot {access : Stamp → Access Streams (Lazy Entry) α}
    (hopens : ∀ stamp, Lazy.Opens (loadEntry stamp i) inner (access stamp))
    (h : Treads (Entry.course writing) (View.plain.on Entry) P inner)
    (hown : ∀ event : CellEvent EntryEvent, event.isOwn → Q (.entry i event))
    (hwithin : ∀ event, P event → Q (.entry i (.within event))) :
    Treads (course writing) (View.plain.on Document) Q (do
      let document ← Access.node
      Access.within entries (fun slots document => { document with entries := slots })
        (Slots.access i (access document.stamp))) := by
  refine Treads.node_within (f := fun event => DocumentEvent.entry event.1 event.2) (fun _ => rfl)
    (fun document => Treads.slot (P := fun event => Q (.entry event.1 event.2))
      (treads_cell (hopens document.stamp) h hown hwithin))
    ?_ (fun _ hevent => hevent) ?_ ?_
  · intro document event _ slots streams slots' streams' hmove
    exact .entry hmove
  · exact fun _ _ hquiet => hquiet
  · exact fun _ _ _ hblames => hblames

private theorem treads_onCells {τ : Type} {view : View τ Streams}
    {inner : Stamp → Nat → Access τ (Lazy Entry) α}
    (h : ∀ stamp i, Treads (cellCourse writing stamp i) (view.on (Lazy Entry))
      (fun event => Q (.entry i event) ∧ (course writing).Quiet (.entry i event)) (inner stamp i)) :
    Treads (course writing) (view.on Document) Q (onCells inner) := by
  refine Treads.node_within (f := fun event => DocumentEvent.entry event.1 event.2) (fun _ => rfl)
    (fun document => Treads.accessAll (P := fun event => Q (.entry event.1 event.2))
      (h document.stamp))
    ?_ (fun _ hevent => hevent) ?_ ?_
  · intro document event _ slots streams slots' streams' hmove
    exact .entry hmove
  · exact fun _ _ hquiet => hquiet
  · exact fun _ _ _ hblames => hblames

end Opening

section Looking

variable {i : Nat} {inner : Access Streams Entry α}

theorem looks_onEntry (h : Entry.Looks writing i reach inner) (hreach : reach (.entry i)) :
    Looks writing reach (onEntry i inner) := by
  refine treads_slot (fun _ => Lazy.access_opens _ _) h (fun event hown => ?_)
    fun _ hevent => hevent
  cases event with
  | within event => cases hown
  | read origin failure | settled => exact ⟨hreach, rfl⟩

theorem works_onEntryMut (h : Entry.Works writing i reach inner) (hreach : reach (.entry i)) :
    Works writing reach (onEntryMut i inner) := by
  refine treads_slot (fun _ => Lazy.accessMut_opens _ _) h (fun event hown => ?_)
    fun _ hevent => hevent
  cases event with
  | within event => cases hown
  | read origin failure | settled => exact hreach

private theorem looks_onCells {inner : Stamp → Nat → Access Streams (Lazy Entry) α}
    (h : ∀ stamp i, Treads (cellCourse writing stamp i) (View.plain.on (Lazy Entry))
      (fun event => reach (event.node i) ∧ event.isLook) (inner stamp i)) :
    Looks writing reach (onCells inner) :=
  treads_onCells fun stamp i => Treads.mono (h stamp i) fun _ hevent =>
    ⟨hevent, quiet_of_isLook hevent.2⟩

theorem looks_cell {stamp : Stamp} {access : Access Streams (Lazy Entry) α}
    (hopens : Lazy.Opens (loadEntry stamp i) inner access) (h : Entry.Looks writing i reach inner)
    (hreach : reach (.entry i)) :
    Treads (cellCourse writing stamp i) (View.plain.on (Lazy Entry))
      (fun event => reach (event.node i) ∧ event.isLook) access := by
  refine treads_cell (Q := fun event => reach event.node ∧ event.isLook) hopens h
    (fun event hown => ?_)
    fun _ hevent => hevent
  cases event with
  | within event => cases hown
  | read origin failure | settled => exact ⟨hreach, rfl⟩

theorem looks_entryList (hreach : ∀ i, reach (.entry i)) : Looks writing reach entryList :=
  looks_onCells fun _ i => looks_cell (Lazy.access_opens _ _) Treads.node (hreach i)

theorem looks_loadAll (hreach : ∀ node, reach node) : Looks writing reach loadAll :=
  Treads.map _ (looks_onCells fun _ _ =>
    looks_cell (Lazy.accessMut_opens _ _) (Entry.looks_loadAll (hreach _) (hreach _)) (hreach _))

private theorem looks_outline (hreach : ∀ node, reach node) : Looks writing reach outline := by
  refine looks_onCells fun stamp i => ?_
  refine Treads.bind_looks (Treads.attempt ?_) (fun event hevent => ?_) fun result => ?_
  · exact looks_cell (Lazy.access_opens _ _) (Entry.looks_outline (hreach _) (hreach _)) (hreach _)
  · exact @quiet_of_isLook _ (.entry i event) hevent.2
  · cases result <;> exact Treads.pure _

theorem looks_text (hreach : ∀ node, reach node) :
    Looks writing reach text := Treads.bind_pure _ (looks_outline hreach)

theorem looks_child {field : UInt32} {index : UInt64}
    (hreach : ∀ node, Node.document.next field index = some node → reach node) :
    Looks writing reach (child field index) := by
  unfold child
  simp only [Node.next] at hreach
  by_cases hfield : field = entriesField
  · rw [if_pos hfield] at hreach ⊢
    exact looks_onEntry Treads.node (hreach _ rfl)
  · rw [if_neg hfield]
    exact Treads.pure none

/-- The nodes that have to be loaded to get to a node. -/
def Node.onWay : Node → List Node
  | .document => []
  | .entry i => [.entry i]
  | .identification i => [.entry i, .identification i]
  | .secretIdentity i => [.entry i, .secretIdentity i]

/-- Whether the steps, or the first of them, lead from one node to another. -/
def Node.Passes (steps : List (UInt64 × UInt64)) (node found : Node) : Prop :=
  ∃ count, node.follow (steps.take count) = some found

/-- Every node but the document itself is on its own way. -/
theorem Node.mem_onWay {node : Node} (h : node ≠ .document) : node ∈ node.onWay := by
  cases node with
  | document => exact absurd rfl h
  | entry i | identification i | secretIdentity i => simp [onWay]

private theorem Node.ne_document_of_next {node next : Node} {field : UInt32} {index : UInt64}
    (h : node.next field index = some next) : next ≠ .document := by
  rintro rfl
  cases node <;> simp only [Node.next] at h
  all_goals (repeat' split at h) <;> cases h

private theorem looks_nodeChild {node : Node} {field : UInt32} {index : UInt64}
    (hnode : ∀ way ∈ node.onWay, reach way)
    (hnext : ∀ next, node.next field index = some next → ∀ way ∈ next.onWay, reach way) :
    Looks writing reach (node.child field index) := by
  have hself (next : Node) (h : node.next field index = some next) : reach next :=
    hnext next h next (Node.mem_onWay (Node.ne_document_of_next h))
  cases node with
  | document => exact Treads.bind_pure _ (looks_child hself)
  | entry i =>
    exact Treads.bind_pure _ (looks_onEntry (Entry.looks_child hself) (hnode _ List.mem_cons_self))
  | identification i | secretIdentity i => exact Treads.pure none

private theorem looks_nodeIdentity {node : Node} (hnode : ∀ way ∈ node.onWay, reach way) :
    Looks writing reach node.identity := by
  cases node with
  | document | entry i => exact Treads.pure none
  | identification i =>
    exact looks_onEntry (Entry.looks_onIdentification Treads.node (hnode _ (by simp [Node.onWay])))
      (hnode _ (by simp [Node.onWay]))
  | secretIdentity i =>
    exact Treads.bind_pure _
      (looks_onEntry (Entry.looks_onSecretIdentity Treads.node (hnode _ (by simp [Node.onWay])))
      (hnode _ (by simp [Node.onWay])))

private theorem looks_walk {steps : List (UInt64 × UInt64)} {node : Node}
    (hreach : ∀ found, node.Passes steps found → ∀ way ∈ found.onWay, reach way) :
    Looks writing reach (walk Node.child steps node) := by
  induction steps generalizing node with
  | nil => exact Treads.pure _
  | cons step rest ih =>
    obtain ⟨field, index⟩ := step
    unfold walk
    by_cases hfield : field.toNat < UInt32.size
    · have hfollow (next : Node) (hnext : node.next field.toUInt32 index = some next) (found : Node)
          (hfound : next.Passes rest found) : node.Passes ((field, index) :: rest) found := by
        obtain ⟨count, hcount⟩ := hfound
        refine ⟨count + 1, ?_⟩
        rw [List.take_succ_cons, Node.follow_cons, if_pos hfield, hnext]
        exact hcount
      rw [if_pos hfield]
      refine Treads.bind_of_ok (Treads.mono (looks_nodeChild (hreach node ⟨0, rfl⟩) ?_) ?_) ?_
      · exact fun next hnext => hreach next (hfollow next hnext next ⟨0, rfl⟩)
      · exact fun event hevent => ⟨hevent, quiet_of_isLook hevent.2⟩
      · intro state found after hrun
        cases found with
        | none => exact Treads.pure none
        | some next =>
          have hnext := Node.child_ok
            hrun
          exact ih fun found hfound => hreach found (hfollow next hnext found hfound)
    · rw [if_neg hfield]
      exact Treads.pure none

theorem looks_resolveIdentity {ref : NodeRef}
    (hreach : ∀ found, Node.document.Passes ref.path.steps found → ∀ way ∈ found.onWay, reach way) :
    Looks writing reach (resolveIdentity ref) := by
  refine Treads.node_bind fun document => ?_
  unfold resolve ensureSameRoot
  by_cases hroot : document.stamp.root = ref.root
  · rw [if_pos hroot]
    refine Treads.bind_of_ok (Treads.mono (looks_walk hreach) ?_) fun state found after hrun => ?_
    · exact fun event hevent => ⟨hevent, quiet_of_isLook hevent.2⟩
    · cases found with
      | none => exact Treads.pure none
      | some node =>
        have hfollow := walk_ok
          hrun
        exact looks_nodeIdentity (hreach node ⟨ref.path.steps.length, by rwa [List.take_length]⟩)
  · rw [if_neg hroot]
    exact Treads.throw ⟨_, _, rfl⟩

theorem works_addEntry (hreach : reach .document) :
    Works writing reach (do
      let (entry, changed) := (← Access.node).addEntry
      Access.edit fun _ => changed
      return Answer.entry entry) := by
  rintro ⟨document, streams⟩ hsound
  refine .ok hsound (.single Move.added) fun event hevent => ?_
  rw [List.mem_singleton] at hevent
  rwa [hevent]

end Looking
end Document

private theorem Lazy.Move.around_of_isOwn {ε σ ν : Type} {load : Option Origin → EStateM Error σ ν}
    {inner : Course ε (ν × σ)} {event : CellEvent ε} {cell later : Lazy ν} {around after : σ}
    (h : Lazy.Move load inner event (cell, around) (later, after)) (hown : event.isOwn) :
    (∃ origin failure, event = .read origin failure ∧
      after = stateAfter (load (some origin) around)) ∨
      event = .settled ∧ after = around := by
  cases h with
  | found _ _ hload => exact .inl ⟨_, _, rfl, by rw [hload]; rfl⟩
  | failed _ _ hload => exact .inl ⟨_, _, rfl, by rw [hload]; rfl⟩
  | built | shifted => exact .inr ⟨rfl, rfl⟩
  | within => cases hown

private theorem Lazy.Move.sameBytes {ε ν : Type} {load : Option Origin → Load ν}
    {inner : Course ε (ν × Streams)} {event : CellEvent ε} {cell later : Lazy ν}
    {streams after : Streams} (h : Lazy.Move load inner event (cell, streams) (later, after))
    (hown : event.isOwn) (hload : ∀ origin, Keeps Streams.SameBytes (load origin)) :
    streams.SameBytes after := by
  rcases h.around_of_isOwn hown with ⟨origin, failure, -, rfl⟩ | ⟨-, rfl⟩
  · exact hload (some origin) streams
  · exact refl_of Streams.SameBytes _

private theorem Entry.Move.sameBytes {event : EntryEvent} {state after : Entry × Streams}
    (h : Entry.Move writing event state after) (hlook : event.isLook) :
    state.2.SameBytes after.2 := by
  cases h with
  | identification h => exact Lazy.Move.sameBytes h hlook (sameBytes_loadIdentity _ _)
  | secretIdentity h =>
    obtain ⟨_, _, _, hmove, _⟩ := h
    exact Lazy.Move.sameBytes hmove hlook (sameBytes_loadIdentity _ _)
  | edited | wrote => cases hlook

def View.output (Fit : Output → Prop) : View Output Streams where
  look := Output.streams
  Sound := Fit
  Refuses _ := True

/-- Outputs that are fit for it write in this way, and stay fit. -/
structure Writing.Allows (writing : Writing) (Fit : Output → Prop) : Prop where
  load : ∀ {output streams},
    Fit output → output.streams.SameBytes streams → Fit { output with streams }
  write : ∀ {η : Type} [Message η] (header : η) {output}, Fit output →
    Fit (stateAfter (Output.emit (Sink.write .nested header) output)) ∧
      writing.writes output.streams
        (stateAfter (Output.emit (Sink.write .nested header) output)).streams
  finish : ∀ (header : DocumentHeader) {output}, Fit output →
    Fit (stateAfter (Output.emit (Sink.finish header) output)) ∧
      writing.writes output.streams (stateAfter (Output.emit (Sink.finish header) output)).streams

/-- Saving to a target begins in this way, and leads to an output that is fit. -/
structure Writing.AllowsTo (writing : Writing) (Fit : Output → Prop) (codec : Codec)
    (target : StreamId) (position : Nat) : Prop extends writing.Allows Fit where
  begins : ∀ streams : Streams, writing.begins streams
    (streams.set target (stateAfter (Sink.atEnd codec ⟨streams.get target, position⟩)).stream)
  fit : ∀ (streams : Streams) sink handle,
    Sink.atEnd codec ⟨streams.get target, position⟩ = .ok sink handle →
    Fit ⟨streams.set target handle.stream, target, handle.position, sink⟩

section Saving

variable {Fit : Output → Prop}

namespace Entry

/-- Work on an entry that is being saved: it looks at the entry and writes. -/
abbrev Saves (writing : Writing) (Fit : Output → Prop) (access : Access Output Entry α) : Prop :=
  Treads (course writing) ((View.output Fit).on Entry) (course writing).Quiet access

private theorem Saves.bind {access : Access Output Entry α} {next : α → Access Output Entry β}
    (h : Saves writing Fit access) (hnext : ∀ value, Saves writing Fit (next value)) :
    Saves writing Fit (access >>= next) :=
  Treads.bind_looks h (fun _ hevent => hevent) hnext

private theorem saves_loading (hwriting : writing.Allows Fit) {i : Nat}
    {access : Access Streams Entry α} (h : Looks writing i (fun _ => True) access) :
    Saves writing Fit (Output.loading access) := by
  refine Treads.mono (Treads.around h (fun _ _ => trivial) (fun _ => rfl) (fun _ _ => rfl) ?_
    fun _ _ => trivial) ?_
  · intro events entry entry' output streams houtput hall htrail
    have hsame : OnAround Streams.SameBytes (entry, output.streams) (entry', streams) :=
      htrail.keeps fun event hevent _ _ hmove => hmove.sameBytes (hall event hevent).2
    exact hwriting.load houtput hsame
  · exact fun event hevent => .inl hevent.2

private theorem saves_write (hwriting : writing.Allows Fit) {η : Type} [Message η] (header : η) :
    Saves writing Fit (Output.write header) :=
  Treads.lift (.inr rfl) (.inr rfl)
    (fun _ _ houtput => ⟨(hwriting.write header houtput).1,
      .wrote (hwriting.write header houtput).2⟩)
    fun _ => trivial

private theorem saves_save (hwriting : writing.Allows Fit) : Saves writing Fit save := by
  refine Saves.bind (saves_loading (i := 0) hwriting (looks_onIdentification Treads.node trivial))
    fun identity => ?_
  refine Saves.bind (saves_write hwriting _) fun _ => ?_
  refine Saves.bind (saves_loading (i := 0) hwriting (looks_onSecretIdentity Treads.node trivial))
    fun secret => ?_
  refine Saves.bind ?_ fun _ => Treads.node_bind fun _ => saves_write hwriting _
  cases secret with
  | none => exact Treads.pure none
  | some secret => exact Treads.map some (saves_write hwriting _)

end Entry

namespace Document

/-- Work on a document that is being saved: it looks at the document and writes. -/
abbrev Saves (writing : Writing) (Fit : Output → Prop) (access : Access Output Document α) : Prop :=
  Treads (course writing) ((View.output Fit).on Document)
    (fun event => (course writing).Quiet event ∧ event ≠ .began) access

private theorem saves_saveAll (hwriting : writing.Allows Fit) : Saves writing Fit saveAll := by
  refine Treads.bind_looks ?_ (fun _ hevent => hevent.1) fun positions => ?_
  · rw [saveEntries_eq]
    refine treads_onCells fun stamp i =>
      Treads.mono (P := fun event => (course writing).Quiet (.entry i event)) ?_
      fun event hevent => ⟨⟨hevent, nofun⟩, hevent⟩
    refine Treads.opens (Lazy.access_opens _ _) (Entry.saves_save hwriting) ?_
      (loadEntry_none stamp i) ?_ ?_
    · intro origin output houtput
      rw [Lazy.widen]
      have hsame := sameBytes_loadEntry stamp i origin output.streams
      cases hrun : loadEntry stamp i origin output.streams with
      | ok entry after | error error after =>
        rw [hrun] at hsame
        exact ⟨hrun.symm, hwriting.load houtput hsame⟩
    · exact fun event hown => CellEvent.within_of_isOwn hown
    · exact fun event hevent => hevent
  · refine @Treads.lift _ _ _ _ _ _ _ _ _ .wrote ⟨trivial, fun heq => by cases heq⟩ trivial
      (fun _ _ houtput => ⟨(hwriting.finish _ houtput).1, .wrote (hwriting.finish _ houtput).2⟩)
        fun _ => trivial

/-- Saving begins once, and all that follows looks at the document and writes. -/
theorem trail_save {codec : Codec} {target : StreamId} {position : Nat}
    (hwriting : writing.AllowsTo Fit codec target position) (document : Document)
    (streams : Streams) :
    ∃ events, Trail (Move writing) (.began :: events) (document, streams)
        (stateAfter (save codec target position (document, streams))) ∧
      ∀ event ∈ events, (course writing).Quiet event ∧ event ≠ .began := by
  have hfirst := hwriting.begins streams
  unfold save
  cases hsink : Sink.atEnd codec ⟨streams.get target, position⟩ with
  | error error handle =>
    rw [hsink] at hfirst
    simp only [hsink]
    exact ⟨[], .single (.began hfirst), by simp⟩
  | ok sink handle =>
    rw [hsink] at hfirst
    have hsave := saves_saveAll hwriting.toAllows
      (document, ⟨streams.set target handle.stream, target, handle.position, sink⟩)
      (hwriting.fit streams sink handle hsink)
    simp only [hsink]
    generalize saveAll (document,
      ⟨streams.set target handle.stream, target, handle.position, sink⟩) = result at hsave ⊢
    cases hsave with
    | ok _ htrail hall => exact ⟨_, .cons (.began hfirst) htrail, hall⟩
    | error _ htrail hall _ =>
      exact ⟨_, .cons (.began hfirst) htrail, fun event hevent => (hall event hevent).1⟩

theorem trail_saveToBytes {codec : Codec} (hwriting : writing.AllowsTo Fit codec .scratch 0)
    (hclear : ∀ streams : Streams, writing.writes streams { streams with scratch := {} })
    (document : Document) (streams : Streams) :
    ∃ events, Trail (Move writing) (.wrote :: .began :: events) (document, streams)
        (stateAfter (saveToBytes codec (document, streams))) ∧
      ∀ event ∈ events, (course writing).Quiet event ∧ event ≠ .began := by
  obtain ⟨events, htrail, hall⟩ := trail_save hwriting document { streams with scratch := {} }
  have hclears (state : Document × Streams) :
    Move writing .wrote state (state.1, { state.2 with scratch := {} }) :=
    .wrote (hclear state.2)
  have hend : stateAfter (saveToBytes codec (document, streams)) =
      (fun state : Document × Streams => (state.1, { state.2 with scratch := {} }))
        (stateAfter (save codec .scratch 0 (document, { streams with scratch := {} }))) := by
    unfold saveToBytes
    dsimp only
    cases save codec .scratch 0 (document, { streams with scratch := {} }) <;> rfl
  refine ⟨events ++ [.wrote], .cons (hclears (document, streams)) ?_, ?_⟩
  · rw [hend]
    exact htrail.append (.single (hclears _))
  · intro event hevent
    rcases List.mem_append.1 hevent with hevent | hevent
    · exact hall event hevent
    · rw [List.mem_singleton] at hevent
      rw [hevent]
      exact ⟨trivial, nofun⟩

end Document
end Saving
end FramedTree
