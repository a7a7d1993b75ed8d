import FramedTree.Proofs.FaultRemoval
import FramedTree.Workspace.Step

/-! # Work on trees that faults do not change

All that trees do with streams is to load nodes from them. If loads are seen through streams with
other faults, so is all work on trees that does not turn failures into answers. In particular, what
an operation on trees gives although its streams are faulty is what it gives without the faults.
-/

namespace FramedTree

variable {ν α β : Type} {whole : Prop} {f : Faults → Faults}

/-- Work on a node that is seen through streams with other faults. -/
abbrev Seen (whole : Prop) (f : Faults → Faults) (access : Access Streams ν α) : Prop :=
  SeenThrough whole (amid (Streams.refit f)) access

/-- Work on every entry of a document, loaded or not. -/
theorem SeenThrough.onCells {σ : Type} {view : σ → σ}
    {inner : Stamp → Nat → Access σ (Lazy Entry) β}
    (h : ∀ stamp i, SeenThrough whole (amid view) (inner stamp i)) :
    SeenThrough whole (amid view) (Document.onCells inner) :=
  .node_bind fun _ => .within (.accessAll fun _ => h _ _)

namespace Sees

variable (h : Sees whole f)

include h

section Entry

variable {inner : Access Streams Identity β}

theorem onIdentification (hinner : Seen whole f inner) :
    Seen whole f (Entry.onIdentification inner) :=
  .node_bind fun _ => .within (.access (h.loadIdentity _ _) hinner)

private theorem onIdentificationMut (hinner : Seen whole f inner) :
    Seen whole f (Entry.onIdentificationMut inner) :=
  .node_bind fun _ => .within (.accessMut (h.loadIdentity _ _) hinner)

theorem onSecretIdentity (hinner : Seen whole f inner) :
    Seen whole f (Entry.onSecretIdentity inner) :=
  .node_bind fun _ => .within (.slot _ (.access (h.loadIdentity _ _) hinner))

private theorem onSecretIdentityMut (hinner : Seen whole f inner) :
    Seen whole f (Entry.onSecretIdentityMut inner) :=
  .node_bind fun _ => .within (.slot _ (.accessMut (h.loadIdentity _ _) hinner))

private theorem addSecretIdentity (hinner : Seen whole f inner) :
    Seen whole f (Entry.addSecretIdentity inner) :=
  .node_bind fun _ => .within (.accessMut (h.loadIdentity _ _) hinner)

private theorem entryLoadAll : Seen whole f Entry.loadAll :=
  .bind (h.onIdentificationMut (.pure ())) fun _ => .map _ (h.onSecretIdentityMut (.pure ()))

private theorem entryChild (field : UInt32) (index : UInt64) :
    Seen whole f (Entry.child field index) := by
  unfold Entry.child
  split
  · exact .map some (h.onIdentification .node)
  · split
    · exact h.onSecretIdentity .node
    · exact .pure none

end Entry

section Document

theorem onEntry {inner : Access Streams Entry β} (i : Nat) (hinner : Seen whole f inner) :
    Seen whole f (Document.onEntry i inner) :=
  .node_bind fun _ => .within (.slot i (.access (h.loadEntry _ _) hinner))

private theorem onEntryMut {inner : Access Streams Entry β} (i : Nat)
    (hinner : Seen whole f inner) :
    Seen whole f (Document.onEntryMut i inner) :=
  .node_bind fun _ => .within (.slot i (.accessMut (h.loadEntry _ _) hinner))

theorem entryList :
    Seen whole f Document.entryList := .onCells fun _ _ => .access (h.loadEntry _ _) .node

theorem documentLoadAll : Seen whole f Document.loadAll :=
  .map _ (.onCells fun _ _ => .accessMut (h.loadEntry _ _) h.entryLoadAll)

private theorem documentChild (field : UInt32) (index : UInt64) :
    Seen whole f (Document.child field index) := by
  unfold Document.child
  split
  · exact h.onEntry _ .node
  · exact .pure none

private theorem nodeChild (node : Document.Node) (field : UInt32) (index : UInt64) :
    Seen whole f (node.child field index) := by
  cases node with
  | document => exact .bind (h.documentChild field index) fun _ => .pure _
  | entry i => exact .bind (h.onEntry i (h.entryChild field index)) fun _ => .pure _
  | identification i | secretIdentity i => exact .pure none

private theorem nodeIdentity (node : Document.Node) : Seen whole f node.identity := by
  cases node with
  | document | entry i => exact .pure none
  | identification i => exact h.onEntry i (h.onIdentification .node)
  | secretIdentity i => exact .bind (h.onEntry i (h.onSecretIdentity .node)) fun _ => .pure _

private theorem walk (steps : List (UInt64 × UInt64)) (node : Document.Node) :
    Seen whole f (FramedTree.walk Document.Node.child steps node) := by
  induction steps generalizing node with
  | nil => exact .pure _
  | cons step rest ih =>
    unfold FramedTree.walk
    split
    · refine .bind (h.nodeChild _ _ _) fun found => ?_
      cases found with
      | none => exact .pure none
      | some next => exact ih next
    · exact .pure none

private theorem resolveIdentity (ref : NodeRef) : Seen whole f (Document.resolveIdentity ref) := by
  refine .node_bind fun document => ?_
  unfold resolve
  cases ensureSameRoot document.stamp.root ref.root with
  | error error => exact .throw error
  | ok =>
    refine .bind (h.walk _ _) fun found => ?_
    cases found with
    | none => exact .pure none
    | some node => exact h.nodeIdentity node

end Document
end Sees

/-- Whether an operation opens or makes a tree, or looks at or changes one, and reports every
failure to load. -/
def Op.isAccess : Op → Bool
  | .newDocument _ | .openDocument _ _ _ | .newEntry _ | .newIdentity _ | .addEntry _
  | .entryCount _ | .entryPaths _ | .loadAll _ | .documentChild _ _ _ | .documentStamp _
  | .makeRef _ _ _ | .resolve _ _ | .changeEntry _ _ | .lookAtIdentity _ _ | .changeIdentity _ _ =>
    true
  | .lookAtEntry _ look => look != .text
  | _ => false

namespace Workspace

def refit (f : Faults → Faults) (workspace : Workspace) : Workspace :=
  { workspace with streams := workspace.streams.refit f }

/-- The workspace with its streams without their faults. -/
def still (workspace : Workspace) : Workspace :=
  { workspace with streams := workspace.streams.still }

/-- Work in a workspace that is seen through streams with other faults. -/
abbrev Seen (whole : Prop) (f : Faults → Faults) (work : Work α) : Prop :=
  SeenThrough whole (refit f) work

private theorem seen_onRow {get : Workspace → Table String ν}
    {put : Table String ν → Workspace → Workspace} {name : String} {access : Access Streams ν β}
    (h : FramedTree.Seen whole f access)
    (hget : ∀ workspace, get (refit f workspace) = get workspace)
    (hput : ∀ table workspace, put table (refit f workspace) = refit f (put table workspace)) :
    Seen whole f (onRow get put name access) := by
  intro workspace hend
  cases hfind : (get workspace).find? name with
  | none =>
    rw [onRow_apply_none hfind,
      onRow_apply_none ((congrArg (·.find? name) (hget workspace)).trans hfind), mapState_ok]
  | some row =>
    rw [onRow_apply_some hfind, succeeds_mapState] at hend
    rw [onRow_apply_some hfind,
      onRow_apply_some ((congrArg (·.find? name) (hget workspace)).trans hfind), hget,
      show (some <$> access) (row, (refit f workspace).streams) = _ from
        SeenThrough.map some h (row, workspace.streams) hend, mapState_mapState, mapState_mapState]
    exact congrArg (mapState · _) (funext fun state => hput _ { workspace with streams := state.2 })

theorem seen_onDocument {name : String} {access : Access Streams Document β}
    (h : FramedTree.Seen whole f access) : Seen whole f (onDocument name access) :=
  seen_onRow h (fun _ => rfl) fun _ _ => rfl

theorem seen_onStandaloneEntry {name : String} {access : Access Streams Entry β}
    (h : FramedTree.Seen whole f access) : Seen whole f (onStandaloneEntry name access) :=
  seen_onRow h (fun _ => rfl) fun _ _ => rfl

private theorem seen_onIdentity {name : String} {access : Access Streams Identity β}
    (h : FramedTree.Seen whole f access) : Seen whole f (onIdentity name access) :=
  seen_onRow h (fun _ => rfl) fun _ _ => rfl

theorem seen_onStreams {load : Load β} (h : SeenThrough whole (Streams.refit f) load) :
    Seen whole f (onStreams load) := by
  intro workspace hend
  rw [onStreams_apply, succeeds_mapState] at hend
  rw [onStreams_apply, onStreams_apply,
    show load (refit f workspace).streams = _ from h workspace.streams hend, mapState_mapState,
      mapState_mapState]
  rfl

private theorem seen_keepAnswer (as : String) (answer : Answer) :
    Seen whole f (keepAnswer as answer) := by
  unfold keepAnswer
  split
  · exact .bind (.modifyGet fun _ => rfl) fun _ => .pure _
  · exact .pure _

theorem seen_atDocument {name : String} {access : Access Streams Document Answer}
    (h : FramedTree.Seen whole f access) : Seen whole f (atDocument name access) :=
  .bind (seen_onDocument h) fun _ => .pure _

private theorem seen_replaceEntry (changed : Except Error Entry) :
    FramedTree.Seen whole f (replaceEntry changed) := by
  cases changed with
  | error error => exact .throw error
  | ok entry => exact .bind (.edit _) fun _ => .pure _

private theorem seen_viewIdentity (look : IdentityLook) :
    FramedTree.Seen whole f (viewIdentity look) := by
  cases look with
  | child field index => exact .pure _
  | info | text | keepRef as => exact .node_bind fun _ => .pure _

private theorem seen_editIdentity (change : IdentityChange) :
    FramedTree.Seen whole f (editIdentity change) := by
  cases change with
  | touch => exact .node_bind fun _ => .pure _
  | setFirstName name | setBirthYear year =>
    exact .bind (.edit _) fun _ => .node_bind fun _ => .pure _

end Workspace

namespace Sees

open Workspace

variable (h : Sees whole f)

include h

private theorem viewEntry {look : EntryLook} (hlook : look ≠ .text) :
    Seen whole f (viewEntry look) := by
  cases look with
  | text => exact absurd rfl hlook
  | child field index => exact .bind (h.entryChild field index) fun _ => .pure _
  | info | reviewer k | keepApprover as | keepReviewer k as => exact .node_bind fun _ => .pure _

private theorem editEntry (change : EntryChange NodeRef) : Seen whole f (editEntry change) := by
  cases change with
  | touch => exact .pure _
  | setApprover ref | addReviewer ref | clearApprover | clearSecretIdentity =>
    exact .node_bind fun _ => seen_replaceEntry _
  | removeReviewers ref => exact .node_bind fun _ => .bind (.edit _) fun _ => .pure _
  | loadAll => exact .bind h.entryLoadAll fun _ => .pure _

theorem openSource (source : Source) : Workspace.Seen whole f (openSource source) :=
  .bind (seen_onStreams (h.readHeader _)) fun _ => .bind (.modifyGet fun _ => rfl) fun _ => .pure _

private theorem openDocument (name : String) (stream : StreamId) (codec : Codec) :
    Workspace.Seen whole f (openDocument name stream codec) :=
  .bind (h.openSource _) fun _ => .bind (.modifyGet fun _ => rfl) fun _ => .pure _

theorem atEntry (place : EntryPlace) {access : Access Streams Entry Answer}
    (haccess : Seen whole f access) :
    Workspace.Seen whole f (atEntry place access) := by
  cases place with
  | inDocument document i => exact seen_atDocument (.bind (h.onEntry i haccess) fun _ => .pure _)
  | standalone name => exact .bind (seen_onStandaloneEntry haccess) fun _ => .pure _

private theorem atEntryMut (place : EntryPlace) {access : Access Streams Entry Answer}
    (haccess : Seen whole f access) :
    Workspace.Seen whole f (atEntryMut place access) := by
  cases place with
  | inDocument document i => exact seen_atDocument (.bind (h.onEntryMut i haccess) fun _ => .pure _)
  | standalone name => exact .bind (seen_onStandaloneEntry haccess) fun _ => .pure _

private theorem atIdentity (identity : SeenIdentity) {access : Access Streams Identity Answer}
    (haccess : Seen whole f access) : Workspace.Seen whole f (atIdentity identity access) := by
  cases identity with
  | standalone name => exact .bind (seen_onIdentity haccess) fun _ => .pure _
  | identification entry => exact h.atEntry entry (h.onIdentification haccess)
  | secretIdentity entry =>
    exact h.atEntry entry (.bind (h.onSecretIdentity haccess) fun _ => .pure _)

private theorem atIdentityMut (identity : ChangedIdentity) {access : Access Streams Identity Answer}
    (haccess : Seen whole f access) : Workspace.Seen whole f (atIdentityMut identity access) := by
  cases identity with
  | standalone name => exact .bind (seen_onIdentity haccess) fun _ => .pure _
  | identification entry => exact h.atEntryMut entry (h.onIdentificationMut haccess)
  | secretIdentity entry =>
    exact h.atEntryMut entry (.bind (h.onSecretIdentityMut haccess) fun _ => .pure _)
  | addedSecretIdentity entry => exact h.atEntryMut entry (h.addSecretIdentity haccess)

/-- What an operation on trees answers, and what it leaves behind, is seen through streams with
other faults. -/
theorem perform {op : Op} (hop : op.isAccess) : Workspace.Seen whole f (perform op) := by
  cases op with
  | newDocument document =>
    exact .bind (.bind (.modifyGet fun _ => rfl) fun _ => .bind (.modifyGet fun _ => rfl)
      fun _ => .pure _)
      fun _ => .pure _
  | openDocument document stream codec =>
    refine .bind (.get_bind (fun _ => rfl) fun _ => .pure _) fun id => ?_
    exact .bind (h.openDocument document id codec) fun _ => .pure _
  | newEntry name | newIdentity name =>
    exact .bind (.modifyGet fun _ => rfl) fun _ => .bind (.modifyGet fun _ => rfl) fun _ => .pure _
  | addEntry document =>
    exact seen_atDocument (.node_bind fun _ => .bind (.edit _) fun _ => .pure _)
  | entryCount document | documentStamp document =>
    exact seen_atDocument (.node_bind fun _ => .pure _)
  | entryPaths document => exact seen_atDocument (.bind h.entryList fun _ => .pure _)
  | loadAll document => exact seen_atDocument (.bind h.documentLoadAll fun _ => .pure _)
  | documentChild document field index =>
    exact seen_atDocument (.bind (h.documentChild field index) fun _ => .pure _)
  | makeRef owner coordinates as =>
    refine .get_bind (fun workspace => ?_) fun workspace => ?_
    · rw [show (workspace.refit f).ownerRoot owner =
        workspace.ownerRoot owner by cases owner <;> rfl]
    · split
      · exact seen_keepAnswer _ _
      · exact .pure _
  | resolve document ref =>
    refine .get_bind (fun _ => rfl) fun workspace => seen_atDocument ?_
    split
    · exact .bind (h.resolveIdentity _) fun _ => .pure _
    · exact .pure _
  | lookAtEntry entry look =>
    refine .bind (h.atEntry entry (h.viewEntry (bne_iff_ne.1 hop))) fun answer => ?_
    split
    · exact seen_keepAnswer _ _
    · exact seen_keepAnswer _ _
    · exact .pure _
  | changeEntry entry change =>
    refine .get_bind (fun workspace => ?_) fun workspace => ?_
    · rw [show (workspace.refit f).hasPlace entry = workspace.hasPlace entry by cases entry <;> rfl]
      rfl
    · split
      · exact .pure _
      · split
        · exact h.atEntryMut entry (h.editEntry _)
        · exact .pure _
  | lookAtIdentity identity look =>
    refine .bind (h.atIdentity identity (seen_viewIdentity look)) fun answer => ?_
    split
    · exact seen_keepAnswer _ _
    · exact .pure _
  | changeIdentity identity change => exact h.atIdentityMut identity (seen_editIdentity change)
  | _ => cases hop

end Sees

/-- An operation that succeeds although streams are faulty gives and leaves behind what it would
without the faults. -/
theorem Workspace.withstands_perform {op : Op} (h : op.isAccess) : Withstands still (perform op) :=
  .of_seen (Withstands.sees.perform h)

end FramedTree
