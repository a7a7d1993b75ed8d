import FramedTree.Document.Equality
import FramedTree.Document.Resolve
import FramedTree.Document.Save

/-! # Workspaces

A workspace holds everything that a program has in hand: shared streams, documents, entries and
identities that stand alone, and references. Each has a name. Roots are numbered in the order in
which trees come into being.
-/

namespace FramedTree

inductive EntryPlace where
  | inDocument (document : String) (i : Nat)
  | standalone (name : String)
  deriving DecidableEq, Repr

/-- All that a program has in hand. -/
structure Workspace where
  streams : Streams := {}
  roots : Roots := {}
  documents : Table String Document := {}
  entries : Table String Entry := {}
  identities : Table String Identity := {}
  refs : Table String NodeRef := {}
  deriving DecidableEq, Repr, Inhabited

/-- An activity in a workspace. -/
abbrev Work := EStateM Error Workspace

namespace Workspace

variable {ν β : Type}

def mint : Work RootId := modifyGet fun workspace =>
  let (root, roots) := workspace.roots.mint
  (root, { workspace with roots })

def onStreams (load : Load β) : Work β := fun workspace =>
  match load workspace.streams with
  | .ok value streams => .ok value { workspace with streams }
  | .error error streams => .error error { workspace with streams }

/-- Works on the value under a name of a table, if it is there. -/
def onRow (get : Workspace → Table String ν) (put : Table String ν → Workspace → Workspace)
    (name : String) (access : Access Streams ν β) : Work (Option β) := fun workspace =>
  match (get workspace).find? name with
  | none => .ok none workspace
  | some value =>
    let update (value : ν) (streams : Streams) : Workspace :=
      put ((get workspace).set name value) { workspace with streams }
    match access (value, workspace.streams) with
    | .ok result (value, streams) => .ok (some result) (update value streams)
    | .error error (value, streams) => .error error (update value streams)

def onDocument (name : String) (access : Access Streams Document β) : Work (Option β) :=
  onRow documents (fun documents workspace => { workspace with documents }) name access

/-- Works on an entry that stands alone, if it is there. -/
def onStandaloneEntry (name : String) (access : Access Streams Entry β) : Work (Option β) :=
  onRow entries (fun entries workspace => { workspace with entries }) name access

/-- Works on an identity that stands alone, if it is there. -/
def onIdentity (name : String) (access : Access Streams Identity β) : Work (Option β) :=
  onRow identities (fun identities workspace => { workspace with identities }) name access

def keepDocument (name : String) (document : Document) : Work Unit :=
  modify fun workspace => { workspace with documents := workspace.documents.set name document }

def keepRef (name : String) (ref : NodeRef) : Work Unit :=
  modify fun workspace => { workspace with refs := workspace.refs.set name ref }

def newDocument (name : String) : Work RootId := do
  let root ← mint
  keepDocument name (Document.empty root)
  return root

/-- Opens the document that was written last to a source; its tree gets a root number of its own. -/
def openSource (source : Source) : Work Document := do
  let header ← onStreams (Document.readHeader source)
  return Document.ofHeader (← mint) source header

/-- Opens a document from a stream, which it stays bound to. -/
def openDocument (name : String) (stream : StreamId) (codec : Codec) : Work RootId := do
  let document ← openSource { backing := .stream stream, codec }
  keepDocument name document
  return document.stamp.root

/-- Loads a whole document from a byte string. The name is not taken unless everything loads. -/
def loadDocument (name : String) (bytes : Bytes) (codec : Codec) : Work RootId := do
  let document ← openSource { backing := .copy bytes.toArray, codec }
  let document ← onStreams fun streams =>
    match Document.loadAll (document, streams) with
    | .ok _ (document, streams) => .ok document streams
    | .error error (_, streams) => .error error streams
  keepDocument name document
  return document.stamp.root

/-- Everything that a stream holds, read through a handle that stood at `position`. -/
def readWhole (stream : StreamId) (position : Nat) : Load Bytes :=
  Streams.withHandle stream position do
    discard (Handle.seek (.start 0)).toFrameIO
    Handle.readToEnd.toFrameIO

def readDocument (name : String) (stream : StreamId) (position : Nat) (codec : Codec) :
    Work RootId := do
  loadDocument name (← onStreams (readWhole stream position)) codec

def documentSpot (name : String) : Spot Workspace Document := ⟨onDocument name⟩

def entrySpot : EntryPlace → Spot Workspace Entry
  | .inDocument document i => (documentSpot document).entry i
  | .standalone name => ⟨onStandaloneEntry name⟩

end Workspace
end FramedTree
