import FramedTree.Proofs.TreeGrowth
import FramedTree.Workspace.Step

/-! # Trees in a workspace

A workspace holds trees of three kinds, each under a name. An operation that brings a new tree gives
it a root number that was never given out before; all other trees stay, and grow at most.
-/

namespace FramedTree

/-- Where a workspace keeps a tree. -/
inductive Holder where
  | document (name : String)
  | entry (name : String)
  | identity (name : String)
  deriving DecidableEq, Repr

/-- A whole tree: a document, or an entry or identity that stands alone. -/
inductive Tree where
  | document (document : Document)
  | entry (entry : Entry)
  | identity (identity : Identity)

namespace Tree

def stamp : Tree → Stamp
  | .document top => top.stamp
  | .entry top => top.stamp
  | .identity top => top.stamp

def Intact : Tree → Prop
  | .document top => top.Intact
  | .entry top => top.stamp.path = Path.root ∧ top.Intact
  | .identity top => top.stamp.path = Path.root

def Grows : Tree → Tree → Prop
  | .document before, .document after => before.Grows after
  | .entry before, .entry after => before.Grows after
  | .identity before, .identity after => before.Stays after
  | _, _ => False

instance : IsPreorder Tree Grows where
  refl tree := by
    cases tree with
    | document document => exact refl_of Document.Grows document
    | entry entry => exact refl_of Entry.Grows entry
    | identity identity => exact refl_of Identity.Stays identity
  trans a b c hab hbc := by
    cases a <;> cases b <;> try exact hab.elim
    all_goals cases c <;> try exact hbc.elim
    · exact trans_of Document.Grows hab hbc
    · exact trans_of Entry.Grows hab hbc
    · exact trans_of Identity.Stays hab hbc

theorem Grows.stamp_eq {before after : Tree} (h : Grows before after) :
    after.stamp = before.stamp := by
  cases before <;> cases after <;> try exact h.elim
  · exact Document.Grows.stamp_eq h
  · exact Entry.Grows.stamp_eq h
  · exact h

theorem Grows.intact {before after : Tree} (h : Grows before after) (hintact : before.Intact) :
    after.Intact := by
  cases before <;> cases after <;> try exact h.elim
  · exact Document.Grows.intact h hintact
  · exact ⟨(congrArg Stamp.path (Entry.Grows.stamp_eq h)).trans hintact.1,
      Entry.Grows.intact h hintact.2⟩
  · exact (congrArg Stamp.path h).trans hintact

end Tree

/-- The holder that an operation gives a new tree to, if it succeeds. -/
def Op.brings : Op → Option Holder
  | newDocument name | openDocument name _ _ | readDocument name _ _ _ | loadDocument name _ _
  | loadDocumentOf name _ _ => some (.document name)
  | newEntry name => some (.entry name)
  | newIdentity name => some (.identity name)
  | _ => none

def Answer.isFailure : Answer → Bool
  | failed _ => true
  | _ => false

/-- Whether an operation with the given answer has put a new tree into the hands of a holder. -/
def Op.Brought (op : Op) (answer : Answer) (holder : Holder) : Prop :=
  op.brings = some holder ∧ answer.isFailure = false

namespace Workspace

def tree? (workspace : Workspace) : Holder → Option Tree
  | .document name => (workspace.documents.find? name).map .document
  | .entry name => (workspace.entries.find? name).map .entry
  | .identity name => (workspace.identities.find? name).map .identity

variable {workspace : Workspace}

theorem tree?_document {name : String} {document : Document}
    (h : workspace.documents.find? name = some document) :
    workspace.tree? (.document name) = some (.document document) := by
  rw [tree?, h]
  rfl

theorem tree?_entry {name : String} {entry : Entry}
    (h : workspace.entries.find? name = some entry) :
    workspace.tree? (.entry name) = some (.entry entry) := by
  rw [tree?, h]
  rfl

structure Grows (before after : Workspace) : Prop where
  issued_le : before.roots.issued ≤ after.roots.issued
  tree : ∀ holder, Option.Rel Tree.Grows (before.tree? holder) (after.tree? holder)

theorem rel_refl (tree : Option Tree) : Option.Rel Tree.Grows tree tree := by
  cases tree with
  | none => exact .none
  | some tree => exact .some (refl_of Tree.Grows tree)

theorem rel_trans {a b c : Option Tree} (hab : Option.Rel Tree.Grows a b)
    (hbc : Option.Rel Tree.Grows b c) : Option.Rel Tree.Grows a c := by
  cases hab with
  | none => exact hbc
  | some hab =>
    cases hbc with
    | some hbc => exact .some (trans_of Tree.Grows hab hbc)

instance : IsPreorder Workspace Grows where
  refl _ := ⟨Nat.le_refl _, fun _ => rel_refl _⟩
  trans _ _ _ hab hbc :=
    ⟨Nat.le_trans hab.issued_le hbc.issued_le,
      fun holder => rel_trans (hab.tree holder) (hbc.tree holder)⟩

/-- Workspaces with the same trees. -/
theorem grows_of_tree?_eq {before after : Workspace}
    (hissued : before.roots.issued ≤ after.roots.issued) (htree : after.tree? = before.tree?) :
    Grows before after :=
  ⟨hissued, fun holder => by rw [htree]; exact rel_refl _⟩

theorem tree?_document_set (workspace : Workspace) (name : String) (document : Document)
    (holder : Holder) :
    tree? { workspace with documents := workspace.documents.set name document } holder =
      if holder = .document name then some (.document document) else workspace.tree? holder := by
  cases holder with
  | document other => by_cases h : other = name <;> simp [tree?, Table.find?_set, h]
  | entry other | identity other => rfl

theorem tree?_entry_set (workspace : Workspace) (name : String) (entry : Entry) (holder : Holder) :
    tree? { workspace with entries := workspace.entries.set name entry } holder =
      if holder = .entry name then some (.entry entry) else workspace.tree? holder := by
  cases holder with
  | entry other => by_cases h : other = name <;> simp [tree?, Table.find?_set, h]
  | document other | identity other => rfl

theorem tree?_identity_set (workspace : Workspace) (name : String) (identity : Identity)
    (holder : Holder) :
    tree? { workspace with identities := workspace.identities.set name identity } holder =
      if holder = .identity name then some (.identity identity) else workspace.tree? holder := by
  cases holder with
  | identity other => by_cases h : other = name <;> simp [tree?, Table.find?_set, h]
  | document other | entry other => rfl

section Rows

variable {β : Type}

/-- Work on a row of a table keeps what a change of the value in the row keeps. -/
theorem keeps_onRow {ν : Type} {R : Workspace → Workspace → Prop} [IsPreorder Workspace R]
    {Q : ν → ν → Prop} {get : Workspace → Table String ν}
    {put : Table String ν → Workspace → Workspace} {name : String} {access : Access Streams ν β}
    (h : Keeps (OnNode Q) access)
    (hput : ∀ workspace value later streams,
      (get workspace).find? name = some value → Q value later →
      R workspace (put ((get workspace).set name later) { workspace with streams })) :
    Keeps R (onRow get put name access) := by
  intro workspace
  cases hfind : (get workspace).find? name with
  | none =>
    rw [onRow_apply_none hfind]
    exact refl_of R workspace
  | some value =>
    rw [onRow_apply_some hfind, stateAfter_mapState]
    exact hput workspace value _ _ hfind (Keeps.map some h (value, workspace.streams))

private theorem keeps_onDocument {name : String} {access : Access Streams Document β}
    (h : Keeps (OnNode Document.Grows) access) : Keeps Grows (onDocument name access) := by
  refine keeps_onRow h fun workspace value later streams hfind hgrows =>
    ⟨Nat.le_refl _, fun holder => ?_⟩
  rw [tree?_document_set { workspace with streams }]
  split
  case isTrue hholder =>
    rw [hholder, tree?, hfind]
    exact .some hgrows
  case isFalse => exact rel_refl _

private theorem keeps_onStandaloneEntry {name : String} {access : Access Streams Entry β}
    (h : Keeps (OnNode Entry.Grows) access) : Keeps Grows (onStandaloneEntry name access) := by
  refine keeps_onRow h fun workspace value later streams hfind hgrows =>
    ⟨Nat.le_refl _, fun holder => ?_⟩
  rw [tree?_entry_set { workspace with streams }]
  split
  case isTrue hholder =>
    rw [hholder, tree?, hfind]
    exact .some hgrows
  case isFalse => exact rel_refl _

private theorem keeps_onIdentity {name : String} {access : Access Streams Identity β}
    (h : Keeps (OnNode Identity.Stays) access) : Keeps Grows (onIdentity name access) := by
  refine keeps_onRow h fun workspace value later streams hfind hgrows =>
    ⟨Nat.le_refl _, fun holder => ?_⟩
  rw [tree?_identity_set { workspace with streams }]
  split
  case isTrue hholder =>
    rw [hholder, tree?, hfind]
    exact .some hgrows
  case isFalse => exact rel_refl _

theorem keeps_modify {f : Workspace → Workspace}
    (hissued : ∀ workspace, workspace.roots.issued ≤ (f workspace).roots.issued)
    (htree : ∀ workspace, (f workspace).tree? = workspace.tree?) :
    Keeps Grows (modify f : Work Unit) :=
  fun workspace => grows_of_tree?_eq (hissued workspace) (htree workspace)

theorem keeps_onStreams (load : Load β) : Keeps Grows (onStreams load) := by
  intro workspace
  rw [onStreams_apply, stateAfter_mapState]
  exact grows_of_tree?_eq (Nat.le_refl _) rfl

theorem keeps_editStream (name : String) (f : Stream → Stream) : Keeps Grows (editStream name f) :=
  Keeps.bind (keeps_modify (fun _ => Nat.le_refl _) fun _ => rfl) fun _ => Keeps.pure _

theorem keeps_currentStream (name : String) : Keeps Grows (currentStream name) :=
  Keeps.bind Keeps.get fun _ => Keeps.pure _

theorem keeps_keepAnswer (as : String) (answer : Answer) : Keeps Grows (keepAnswer as answer) := by
  unfold keepAnswer
  split
  · exact Keeps.bind (keeps_modify (fun _ => Nat.le_refl _) fun _ => rfl) fun _ => Keeps.pure _
  · exact Keeps.pure _

theorem keeps_mint : Keeps Grows mint := fun _ => grows_of_tree?_eq (Nat.le_succ _) rfl

end Rows

section Nodes

theorem keeps_viewEntry (look : EntryLook) : Keeps (OnNode Entry.Grows) (viewEntry look) := by
  cases look with
  | text =>
    exact Keeps.bind (Keeps.bind Entry.keeps_outline fun _ => Keeps.pure _) fun _ => Keeps.pure _
  | child field index => exact Keeps.bind (Entry.keeps_child field index) fun _ => Keeps.pure _
  | info | reviewer k | keepApprover as | keepReviewer k as =>
    exact Keeps.bind Keeps.node fun _ => Keeps.pure _

private theorem keeps_replaceEntry {change : Entry → Except Error Entry}
    (h : ∀ entry changed, change entry = .ok changed → entry.Grows changed) :
    Keeps (OnNode Entry.Grows) (do replaceEntry (change (← Access.node))) := by
  rintro ⟨entry, streams⟩
  rw [Access.node_bind_apply]
  cases hchange : change entry with
  | error error => exact refl_of Entry.Grows entry
  | ok changed => exact h entry changed hchange

theorem keeps_editEntry (change : EntryChange NodeRef) :
    Keeps (OnNode Entry.Grows) (editEntry change) := by
  cases change with
  | touch => exact Keeps.pure _
  | setApprover ref => exact keeps_replaceEntry fun _ _ => Entry.grows_setApprover
  | addReviewer ref => exact keeps_replaceEntry fun _ _ => Entry.grows_addReviewer
  | removeReviewers ref => exact fun state => Entry.grows_removeReviewers ref
  | clearApprover =>
    refine keeps_replaceEntry fun entry changed h => ?_
    cases h
    exact Entry.grows_clearApprover
  | clearSecretIdentity =>
    refine keeps_replaceEntry fun entry changed h => ?_
    cases h
    exact Entry.grows_clearSecretIdentity
  | loadAll => exact Keeps.bind Entry.keeps_loadAll fun _ => Keeps.pure _

theorem keeps_viewIdentity (look : IdentityLook) :
    Keeps (OnNode Identity.Stays) (viewIdentity look) := by
  cases look with
  | child field index => exact Keeps.pure _
  | info | text | keepRef as => exact Keeps.bind Keeps.node fun _ => Keeps.pure _

theorem keeps_editIdentity (change : IdentityChange) :
    Keeps (OnNode Identity.Stays) (editIdentity change) := by
  cases change with
  | touch => exact Keeps.bind Keeps.node fun _ => Keeps.pure _
  | setFirstName name | setBirthYear year =>
    exact Keeps.bind (Keeps.edit fun _ => rfl) fun _ => Keeps.bind Keeps.node fun _ => Keeps.pure _

theorem keeps_atDocument {name : String} {access : Access Streams Document Answer}
    (h : Keeps (OnNode Document.Grows) access) : Keeps Grows (atDocument name access) :=
  Keeps.bind (keeps_onDocument h) fun _ => Keeps.pure _

theorem keeps_atEntry {access : Access Streams Entry Answer} (place : EntryPlace)
    (h : Keeps (OnNode Entry.Grows) access) : Keeps Grows (atEntry place access) := by
  cases place with
  | inDocument document i =>
    exact keeps_atDocument (Keeps.bind (Document.keeps_onEntry i h) fun _ => Keeps.pure _)
  | standalone name => exact Keeps.bind (keeps_onStandaloneEntry h) fun _ => Keeps.pure _

theorem keeps_atEntryMut {access : Access Streams Entry Answer} (place : EntryPlace)
    (h : Keeps (OnNode Entry.Grows) access) : Keeps Grows (atEntryMut place access) := by
  cases place with
  | inDocument document i =>
    exact keeps_atDocument (Keeps.bind (Document.keeps_onEntryMut i h) fun _ => Keeps.pure _)
  | standalone name => exact Keeps.bind (keeps_onStandaloneEntry h) fun _ => Keeps.pure _

theorem keeps_atIdentity {access : Access Streams Identity Answer} (identity : SeenIdentity)
    (h : Keeps (OnNode Identity.Stays) access) : Keeps Grows (atIdentity identity access) := by
  cases identity with
  | standalone name => exact Keeps.bind (keeps_onIdentity h) fun _ => Keeps.pure _
  | identification entry => exact keeps_atEntry entry (Entry.keeps_onIdentification h)
  | secretIdentity entry =>
    exact keeps_atEntry entry (Keeps.bind (Entry.keeps_onSecretIdentity h) fun _ => Keeps.pure _)

theorem keeps_atIdentityMut {access : Access Streams Identity Answer} (identity : ChangedIdentity)
    (h : Keeps (OnNode Identity.Stays) access) : Keeps Grows (atIdentityMut identity access) := by
  cases identity with
  | standalone name => exact Keeps.bind (keeps_onIdentity h) fun _ => Keeps.pure _
  | identification entry => exact keeps_atEntryMut entry (Entry.keeps_onIdentificationMut h)
  | secretIdentity entry =>
    exact keeps_atEntryMut entry
      (Keeps.bind (Entry.keeps_onSecretIdentityMut h) fun _ => Keeps.pure _)
  | addedSecretIdentity entry => exact keeps_atEntryMut entry (Entry.keeps_addSecretIdentity h)

end Nodes

section Comparisons

/-- Work at a spot keeps a relation, if it keeps another one at the node. -/
def KeepsAt {ν : Type} (R : Workspace → Workspace → Prop) (Q : ν → ν → Prop)
    (spot : Spot Workspace ν) : Prop :=
  ∀ {β : Type} {access : Access Streams ν β}, Keeps (OnNode Q) access → Keeps R (spot.run access)

/-- What all looks into two documents that are compared keep, of an entry and of a document. -/
structure KeptByLooks (Q : Entry → Entry → Prop) (D : Document → Document → Prop) : Prop where
  identification : Keeps (OnNode Q)
    (Entry.onIdentification Access.node : Access Streams Entry Identity)
  secretAndEntry : Keeps (OnNode Q) Entry.secretAndEntry
  onEntry : ∀ {β : Type} (i : Nat) {inner : Access Streams Entry β}, Keeps (OnNode Q) inner →
    Keeps (OnNode D) (Document.onEntry i inner)
  entryList : Keeps (OnNode D) Document.entryList

theorem keptByLooks_grows : KeptByLooks Entry.Grows Document.Grows where
  identification := Entry.keeps_onIdentification Keeps.node
  secretAndEntry := Entry.keeps_secretAndEntry
  onEntry i _ := Document.keeps_onEntry i
  entryList := Document.keeps_entryList

theorem keepsAt_document (name : String) :
    KeepsAt Grows Document.Grows (documentSpot name) := keeps_onDocument

variable {R : Workspace → Workspace → Prop} [IsPreorder Workspace R] {Q : Entry → Entry → Prop}
  {D : Document → Document → Prop} [IsPreorder Document D]

omit [IsPreorder Document D] in
theorem keepsAt_entry {spot : Spot Workspace Document} (hlooks : KeptByLooks Q D)
    (h : KeepsAt R D spot) (i : Nat) :
    KeepsAt R Q (spot.entry i) := fun haccess =>
  Keeps.bind (h (hlooks.onEntry i haccess)) fun _ => Keeps.pure _

theorem keepsAt_entrySpot (place : EntryPlace) : KeepsAt Grows Entry.Grows (entrySpot place) := by
  cases place with
  | inDocument document i => exact keepsAt_entry keptByLooks_grows (keepsAt_document document) i
  | standalone name => exact keeps_onStandaloneEntry

omit [IsPreorder Workspace R] in
theorem safely_look {ν β : Type} {Q : ν → ν → Prop} {spot : Spot Workspace ν} (h : KeepsAt R Q spot)
    {access : Access Streams ν β} (haccess : Keeps (OnNode Q) access) :
    Safely R (spot.look access) := by
  intro workspace
  have hrun := h haccess workspace
  unfold Spot.look
  cases hresult : spot.run access workspace with
  | ok result after | error error after =>
    rw [hresult] at hrun
    exact hrun

omit [IsPreorder Document D] in
theorem safely_entryEqual {left right : Spot Workspace Entry} (hlooks : KeptByLooks Q D)
    (hleft : KeepsAt R Q left) (hright : KeepsAt R Q right) :
    Safely R (Entry.equal left right) := by
  refine Safely.bind (safely_look hleft hlooks.identification) fun mine => ?_
  refine Safely.bind (safely_look hright hlooks.identification) fun theirs => ?_
  refine Safely.bind (safely_look hleft hlooks.secretAndEntry) fun rest => ?_
  refine Safely.bind (safely_look hright hlooks.secretAndEntry) fun otherRest => ?_
  split <;> exact Safely.pure _

variable {left right : Spot Workspace Document} (hlooks : KeptByLooks Q D)
  (hleft : KeepsAt R D left) (hright : KeepsAt R D right)

include hlooks hleft

theorem safely_entryNumbers : Safely R (Document.entryNumbers left) := by
  refine Safely.bind (safely_look hleft hlooks.entryList) fun loaded => ?_
  refine Safely.bind (safely_look hleft Keeps.node) fun document => ?_
  split <;> exact Safely.pure _

include hright

omit [IsPreorder Document D] in
theorem safely_allEqual (pairs : List (Nat × Nat)) :
    Safely R (Entry.allEqual left right pairs) := by
  induction pairs with
  | nil => exact Safely.pure true
  | cons pair rest ih =>
    refine Safely.bind (safely_entryEqual hlooks (keepsAt_entry hlooks hleft pair.1)
      (keepsAt_entry hlooks hright pair.2)) fun same => ?_
    split
    · exact ih
    · exact Safely.pure false

theorem safely_documentEqual : Safely R (Document.equal left right) := by
  refine Safely.bind (safely_entryNumbers hlooks hleft) fun mine => ?_
  refine Safely.bind (safely_entryNumbers hlooks hright) fun theirs => ?_
  split
  · split
    · exact safely_allEqual hlooks hleft hright _
    · exact Safely.pure false
  · exact Safely.pure false

end Comparisons

end Workspace
end FramedTree
