import FramedTree.Document.Basic
import FramedTree.Navigate

/-! # References in documents

A reference is followed from the document through an entry to one of the entry's identities. Looking
up a child loads it.
-/

namespace FramedTree.Document

/-- A node of a document, by where it is. -/
inductive Node where
  | document
  | entry (i : Nat)
  | identification (i : Nat)
  | secretIdentity (i : Nat)
  deriving DecidableEq, Repr

/-- The entry that the document owns under a field and an index. -/
def child (field : UInt32) (index : UInt64) : Access Streams Document (Option Entry) :=
  if field = entriesField then onEntry index.toNat Access.node else return none

def Node.child (node : Node) (field : UInt32) (index : UInt64) :
    Access Streams Document (Option Node) := do
  match node with
  | .document =>
    let found ← Document.child field index
    return found.map fun _ => .entry index.toNat
  | .entry i =>
    let found ← onEntry i (Entry.child field index)
    return found.join.map fun _ =>
      if field = Entry.identificationField then .identification i else .secretIdentity i
  | .identification _ | .secretIdentity _ => return none

def Node.identity : Node → Access Streams Document (Option Identity)
  | .document | .entry _ => return none
  | .identification i => onEntry i (Entry.onIdentification Access.node)
  | .secretIdentity i => do
    return (← onEntry i (Entry.onSecretIdentity Access.node)).join

def resolveIdentity (ref : NodeRef) : Access Streams Document (Option Identity) := do
  let document ← Access.node
  resolve document.stamp.root Node.child Node.identity .document ref

end FramedTree.Document
