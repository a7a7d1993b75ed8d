import FramedTree.Document.Basic

/-! # Comparing trees

Trees are compared by what they hold, not by their roots. Comparing loads what has to be compared,
from both trees in turn; a tree that cannot be loaded equals nothing. The two trees may be parts of
one state and may even be the same tree, so each is given as a way to work on it.
-/

namespace FramedTree

/-- A way to work on a node that is part of a state of type `τ`, if it is there. -/
structure Spot (τ ν : Type) where
  run : {β : Type} → Access Streams ν β → EStateM Error τ (Option β)

namespace Spot

variable {τ ν β : Type}

/-- Works on the node; whether it is missing or the work fails makes no difference. -/
def look (spot : Spot τ ν) (access : Access Streams ν β) : StateM τ (Option β) := fun state =>
  match spot.run access state with
  | .ok result state => (result, state)
  | .error _ state => (none, state)

def entry (spot : Spot τ Document) (i : Nat) : Spot τ Entry where
  run access := do return (← spot.run (Document.onEntry i access)).join

end Spot

variable {τ : Type}

/-- Whether two identities are both missing or have the same fields. -/
def Identity.sameOption : Option Identity → Option Identity → Bool
  | some identity, some other => identity.sameContent other
  | none, none => true
  | _, _ => false

def Entry.sameReferences (entry other : Entry) : Bool :=
  entry.approver.map NodeRef.path == other.approver.map NodeRef.path &&
    entry.reviewers.map NodeRef.path == other.reviewers.map NodeRef.path

/-- The secret identity of an entry, and the entry itself. -/
def Entry.secretAndEntry : Access Streams Entry (Option Identity × Entry) := do
  let secret ← onSecretIdentity Access.node
  return (secret, ← Access.node)

/-- Whether two entries hold the same. All four identities are looked at, whatever comes of the
first. -/
def Entry.equal (left right : Spot τ Entry) : StateM τ Bool := do
  let identification ← left.look (onIdentification Access.node)
  let otherIdentification ← right.look (onIdentification Access.node)
  let rest ← left.look secretAndEntry
  let otherRest ← right.look secretAndEntry
  match identification, otherIdentification, rest, otherRest with
  | some mine, some theirs, some (mySecret, entry), some (theirSecret, other) =>
    return mine.sameContent theirs && Identity.sameOption mySecret theirSecret &&
      entry.sameReferences other
  | _, _, _, _ => return false

/-- Compares the entries with the given numbers pair by pair, up to the first that differ. -/
def Entry.allEqual (left right : Spot τ Document) : List (Nat × Nat) → StateM τ Bool
  | [] => return true
  | (i, j) :: rest => do
    if ← Entry.equal (left.entry i) (right.entry j) then allEqual left right rest else return false

/-- The numbers of a document's entries, once all of them have been loaded. -/
def Document.entryNumbers (spot : Spot τ Document) : StateM τ (Option (List Nat)) := do
  let loaded ← spot.look entryList
  let document ← spot.look Access.node
  match loaded, document with
  | some _, some document => return some (document.entries.toList.map (·.1))
  | _, _ => return none

/-- Whether two documents hold the same entries in the same order. -/
def Document.equal (left right : Spot τ Document) : StateM τ Bool := do
  let mine ← entryNumbers left
  let theirs ← entryNumbers right
  match mine, theirs with
  | some mine, some theirs =>
    if mine.length = theirs.length then Entry.allEqual left right (mine.zip theirs)
      else return false
  | _, _ => return false

end FramedTree
