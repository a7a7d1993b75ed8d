import FramedTree.Workspace.Op

/-! # Running operations

Each operation takes a workspace to an answer and a workspace. A failure is an answer like any
other: what was done before it stays done.
-/

namespace FramedTree

def Answer.ofOption {α : Type} (f : α → Answer) : Option α → Answer
  | some value => f value
  | none => .nothing

/-- An activity whose result is left out. -/
def Work.silently (work : Work Unit) : Work Answer := do
  work
  return .nothing

namespace Workspace

def viewEntry : EntryLook → Access Streams Entry Answer
  | .info => return .entry (← Access.node)
  | .text => return .text (← Entry.text)
  | .child field index =>
    return .ofOption (fun _ => .node .identity) (← Entry.child field index)
  | .reviewer k | .keepReviewer k _ => return .ofOption .ref (← Access.node).reviewers[k]?
  | .keepApprover _ => return .ofOption .ref (← Access.node).approver

def replaceEntry : Except Error Entry → Access Streams Entry Answer
  | .ok entry => do
    Access.edit fun _ => entry
    return .entry entry
  | .error error => throw error

def editEntry : EntryChange NodeRef → Access Streams Entry Answer
  | .touch => return .nothing
  | .setApprover ref => do replaceEntry ((← Access.node).setApprover ref)
  | .addReviewer ref => do replaceEntry ((← Access.node).addReviewer ref)
  | .removeReviewers ref => do
    let entry ← Access.node
    let changed := entry.removeReviewers ref
    Access.edit fun _ => changed
    return .removed (entry.reviewers.length - changed.reviewers.length) changed
  | .clearApprover => do replaceEntry (.ok (← Access.node).clearApprover)
  | .clearSecretIdentity => do replaceEntry (.ok (← Access.node).clearSecretIdentity)
  | .loadAll => do
    Entry.loadAll
    return .nothing

def viewIdentity : IdentityLook → Access Streams Identity Answer
  | .info => return .identity (← Access.node)
  | .text => return .text (← Access.node).text
  | .child _ _ => return .nothing
  | .keepRef _ => return .ref (← Access.node).stamp.toRef

def editIdentity (change : IdentityChange) : Access Streams Identity Answer := do
  match change with
  | .touch => pure ()
  | .setFirstName name => Access.edit (·.setFirstName name)
  | .setBirthYear year => Access.edit (·.setBirthYear year)
  return .identity (← Access.node)

def atDocument (name : String) (access : Access Streams Document Answer) : Work Answer := do
  return (← onDocument name access).getD .noDocument

def atEntry (place : EntryPlace) (access : Access Streams Entry Answer) : Work Answer :=
  match place with
  | .inDocument document i =>
    atDocument document do return (← Document.onEntry i access).getD .noEntry
  | .standalone name => do return (← onStandaloneEntry name access).getD .noEntry

def atEntryMut (place : EntryPlace) (access : Access Streams Entry Answer) : Work Answer :=
  match place with
  | .inDocument document i =>
    atDocument document do return (← Document.onEntryMut i access).getD .noEntry
  | .standalone name => do return (← onStandaloneEntry name access).getD .noEntry

def atIdentity (identity : SeenIdentity) (access : Access Streams Identity Answer) : Work Answer :=
  match identity with
  | .standalone name => do return (← onIdentity name access).getD .noEntry
  | .identification entry => atEntry entry (Entry.onIdentification access)
  | .secretIdentity entry =>
    atEntry entry do return (← Entry.onSecretIdentity access).getD .nothing

def atIdentityMut (identity : ChangedIdentity) (access : Access Streams Identity Answer) :
    Work Answer :=
  match identity with
  | .standalone name => do return (← onIdentity name access).getD .noEntry
  | .identification entry => atEntryMut entry (Entry.onIdentificationMut access)
  | .secretIdentity entry =>
    atEntryMut entry do return (← Entry.onSecretIdentityMut access).getD .nothing
  | .addedSecretIdentity entry => atEntryMut entry (Entry.addSecretIdentity access)

def keepAnswer (as : String) (answer : Answer) : Work Answer := do
  match answer with
  | .ref ref => keepRef as ref
  | _ => pure ()
  return answer

/-- Whether the document that a place names is there. -/
def hasPlace (workspace : Workspace) : EntryPlace → Bool
  | .inDocument document _ => (workspace.documents.find? document).isSome
  | .standalone _ => true

def currentStream (name : String) : Work StreamId := do return (← get).streams.current name

def editStream (name : String) (f : Stream → Stream) : Work Answer :=
  Work.silently (modify fun workspace =>
    { workspace with streams := workspace.streams.modify (workspace.streams.current name) f })

def ownerRoot (workspace : Workspace) : RefOwner → Option RootId
  | .document name => (workspace.documents.find? name).map (·.stamp.root)
  | .entry name => (workspace.entries.find? name).map (·.stamp.root)

/-- What a reference cannot be made for is not there. -/
def ownerMissing : RefOwner → Answer
  | .document _ => .noDocument
  | .entry _ => .noEntry

/-- Performs an operation; a failure is still a failure. -/
def perform : Op → Work Answer
  | .setStream stream bytes faults => Work.silently (modify fun workspace =>
    { workspace with
      streams := workspace.streams.renew stream { content := bytes.toArray, faults } })
  | .setFaults stream faults => editStream stream fun old => { old with faults }
  | .patch stream position bytes =>
    editStream stream fun old => { old with content := Stream.overwrite old.content position bytes }
  | .truncate stream length =>
    editStream stream fun old => { old with content := old.content.take length }
  | .append stream bytes =>
    editStream stream fun old => { old with content := old.content ++ bytes }
  | .dump stream => do return .bytes ((← get).streams.get (← currentStream stream)).bytes
  | .takeSeeks stream => do
    let log := ((← get).streams.get (← currentStream stream)).seekLog
    discard (editStream stream fun old => { old with seeks := [] })
    return .seeks log
  | .newDocument document => do return .root (← newDocument document)
  | .openDocument document stream codec =>
    do return .root (← openDocument document (← currentStream stream) codec)
  | .readDocument document stream position codec =>
    do return .root (← readDocument document (← currentStream stream) position codec)
  | .loadDocument document bytes codec => do return .root (← loadDocument document bytes codec)
  | .loadDocumentOf document stream codec => do
    let bytes := ((← get).streams.get (← currentStream stream)).bytes
    return .root (← loadDocument document bytes codec)
  | .save document stream codec => do
    let target ← currentStream stream
    atDocument document do return .size (← Document.save codec target)
  | .saveToBytes document codec =>
    atDocument document do return .bytes (← Document.saveToBytes codec)
  | .addEntry document => atDocument document do
    let (entry, changed) := (← Access.node).addEntry
    Access.edit fun _ => changed
    return .entry entry
  | .entryCount document => atDocument document do return .count (← Access.node).entryCount
  | .isEntryLoaded document i =>
    atDocument document do return .flag ((← Access.node).isEntryLoaded i)
  | .documentText document => atDocument document do return .text (← Document.text)
  | .entryPaths document =>
    atDocument document do return .paths ((← Document.entryList).map (·.stamp.path))
  | .loadAll document => atDocument document do
    Document.loadAll
    return .nothing
  | .documentChild document field index => atDocument document do
    return .ofOption (fun _ => .node .entry) (← Document.child field index)
  | .documentStamp document => atDocument document do return .stamp (← Access.node).stamp
  | .equalDocuments document other => do
    let workspace ← get
    match workspace.documents.find? document, workspace.documents.find? other with
    | some _, some _ =>
      modifyGet fun workspace =>
        let (same, workspace) :=
          Document.equal (documentSpot document) (documentSpot other) workspace
        (.flag same, workspace)
    | _, _ => return .noDocument
  | .equalEntries entry other => modifyGet fun workspace =>
    if !(workspace.hasPlace entry && workspace.hasPlace other) then (.noDocument, workspace)
    else
      let (mine, workspace) := (entrySpot entry).look Access.node workspace
      let (theirs, workspace) := (entrySpot other).look Access.node workspace
      match mine, theirs with
      | some _, some _ =>
        let (same, workspace) := Entry.equal (entrySpot entry) (entrySpot other) workspace
        (.flag same, workspace)
      | _, _ => (.missing, workspace)
  | .equalIdentities identity other => do
    let workspace ← get
    match workspace.identities.find? identity, workspace.identities.find? other with
    | some mine, some theirs => return .flag (mine.sameContent theirs)
    | _, _ => return .missing
  | .makeRef owner coordinates as => do
    match (← get).ownerRoot owner with
    | some root => keepAnswer as (.ref (NodeRef.ofDescriptor root ⟨coordinates⟩))
    | none => return ownerMissing owner
  | .resolve document ref => do
    let refs := (← get).refs
    atDocument document do
      match refs.find? ref with
      | some ref => return .ofOption .identity (← Document.resolveIdentity ref)
      | none => return .noRef
  | .newEntry name => do
    let entry : Entry := { stamp := { root := ← mint } }
    modify fun workspace => { workspace with entries := workspace.entries.set name entry }
    return .entry entry
  | .newIdentity name => do
    let identity : Identity := { stamp := { root := ← mint } }
    modify fun workspace => { workspace with identities := workspace.identities.set name identity }
    return .identity identity
  | .lookAtEntry entry look => do
    let answer ← atEntry entry (viewEntry look)
    match look with
    | .keepApprover as | .keepReviewer _ as => keepAnswer as answer
    | _ => return answer
  | .changeEntry entry change => do
    let workspace ← get
    if !workspace.hasPlace entry then return .noDocument
    match change.lookup workspace.refs.find? with
    | some change => atEntryMut entry (editEntry change)
    | none => return .noRef
  | .lookAtIdentity identity look => do
    let answer ← atIdentity identity (viewIdentity look)
    match look with
    | .keepRef as => keepAnswer as answer
    | _ => return answer
  | .changeIdentity identity change => atIdentityMut identity (editIdentity change)

def step (op : Op) (workspace : Workspace) : Answer × Workspace :=
  match perform op workspace with
  | .ok answer workspace => (answer, workspace)
  | .error error workspace => (.failed error, workspace)

/-- Performs operations one after another and gives their answers. -/
def run : List Op → Workspace → List Answer × Workspace
  | [], workspace => ([], workspace)
  | op :: rest, workspace =>
    let (answer, workspace) := step op workspace
    let (answers, workspace) := run rest workspace
    (answer :: answers, workspace)

end Workspace
end FramedTree
