import FramedTree.Document.Identity
import FramedTree.Header.Entry
import FramedTree.Slots.Access

/-! # Entries

An entry owns an identification, which is always there, and may own a secret identity. It refers to
an approver and to reviewers, which are identities of the same tree. Owned identities are loaded
when they are first looked at.
-/

namespace FramedTree

structure Entry where
  stamp : Stamp
  identification : Lazy Identity := {}
  /-- Holds the secret identity in slot 0. -/
  secretIdentity : Slots (Lazy Identity) := {}
  approver : Option NodeRef := none
  reviewers : List NodeRef := []
  deriving DecidableEq, Repr, Inhabited

namespace Entry

def identificationField : UInt32 := 1

def secretIdentityField : UInt32 := 2

/-- Slot of a child of which there is only one. -/
def singular : Nat := 0

def loadIdentity (stamp : Stamp) (field : UInt32) : Option Origin → Load Identity :=
  Identity.load (stamp.child field 0)

variable {β : Type}

/-- Looks into the identification. -/
def onIdentification (inner : Access Streams Identity β) : Access Streams Entry β := do
  let entry ← Access.node
  Access.within identification (fun cell entry => { entry with identification := cell })
    (Lazy.access (loadIdentity entry.stamp identificationField) inner)

def onIdentificationMut (inner : Access Streams Identity β) : Access Streams Entry β := do
  let entry ← Access.node
  Access.within identification (fun cell entry => { entry with identification := cell })
    (Lazy.accessMut (loadIdentity entry.stamp identificationField) inner)

def onSecretIdentity (inner : Access Streams Identity β) : Access Streams Entry (Option β) := do
  let entry ← Access.node
  Access.within secretIdentity (fun slots entry => { entry with secretIdentity := slots })
    (Slots.access singular (Lazy.access (loadIdentity entry.stamp secretIdentityField) inner))

def onSecretIdentityMut (inner : Access Streams Identity β) : Access Streams Entry (Option β) := do
  let entry ← Access.node
  Access.within secretIdentity (fun slots entry => { entry with secretIdentity := slots })
    (Slots.access singular (Lazy.accessMut (loadIdentity entry.stamp secretIdentityField) inner))

/-- Whether there is a secret identity; it is not loaded for this. -/
def hasSecretIdentity (entry : Entry) : Bool := (entry.secretIdentity.get? singular).isSome

/-- Changes the secret identity, which is made first if there is none. -/
def addSecretIdentity (inner : Access Streams Identity β) : Access Streams Entry β := do
  let entry ← Access.node
  Access.within (fun entry => (entry.secretIdentity.get? singular).getD {})
    (fun cell entry => { entry with secretIdentity := entry.secretIdentity.insert singular cell })
    (Lazy.accessMut (loadIdentity entry.stamp secretIdentityField) inner)

def clearSecretIdentity (entry : Entry) : Entry := { entry with secretIdentity := {} }

/-- Lets the entry refer to `ref` as its approver. -/
def setApprover (entry : Entry) (ref : NodeRef) : Except Error Entry := do
  return { entry with approver := some (← attach entry.stamp.root ref) }

def clearApprover (entry : Entry) : Entry := { entry with approver := none }

def addReviewer (entry : Entry) (ref : NodeRef) : Except Error Entry := do
  return { entry with reviewers := entry.reviewers ++ [← attach entry.stamp.root ref] }

/-- Drops every reviewer that is the same reference. -/
def removeReviewers (entry : Entry) (ref : NodeRef) : Entry :=
  { entry with reviewers := entry.reviewers.filter (· != ref) }

def loadAll : Access Streams Entry Unit := do
  onIdentificationMut (pure ())
  discard (onSecretIdentityMut (pure ()))

/-- The identity that the entry owns under a field. There is one of each, whatever the index. -/
def child (field : UInt32) (_index : UInt64) : Access Streams Entry (Option Identity) :=
  if field = identificationField then some <$> onIdentification Access.node
  else if field = secretIdentityField then onSecretIdentity Access.node
  else return none

/-- The header of the entry when its identities are stored at the given positions. -/
def toHeader (entry : Entry) (identification : Nat) (secretIdentity : Option Nat) : EntryHeader :=
  { identification := identification.toUInt64
    secretIdentity := secretIdentity.map Nat.toUInt64
    approver := entry.approver.map NodeRef.descriptor
    reviewers := entry.reviewers.map NodeRef.descriptor }

/-- The entry that a header from `source` stands for. Its references are those of the tree that the
stamp belongs to. -/
def ofHeader (stamp : Stamp) (source : Source) (header : EntryHeader) : Entry :=
  { stamp
    identification := .stored source header.identification
    secretIdentity := match header.secretIdentity with
      | some position => Slots.insert {} singular (.stored source position)
      | none => {}
    approver := header.approver.map (NodeRef.ofDescriptor stamp.root)
    reviewers := header.reviewers.map (NodeRef.ofDescriptor stamp.root) }

/-- Loads the entry with the given stamp: its header from where it is stored, or an empty entry. -/
def load (stamp : Stamp) : Option Origin → Load Entry
  | some origin => return ofHeader stamp origin.source (← origin.read)
  | none => return { stamp }

def childOutline (name : String) : Except Error (Option Identity) → Outline
  | .ok (some identity) => .child name identity.outline
  | .ok none => .absent name
  | .error error => .unreadable name error

def outline : Access Streams Entry (List Outline) := do
  let identification ← Access.attempt (onIdentification Access.node)
  let secretIdentity ← Access.attempt (onSecretIdentity Access.node)
  let entry ← Access.node
  return [childOutline "identification" (identification.map some),
      childOutline "secret_identity" secretIdentity] ++
    (entry.approver.map fun ref => Outline.reference "approver" ref.path).toList ++
    entry.reviewers.map fun ref => Outline.reference "reviewers" ref.path

def text : Access Streams Entry String := do return (Outline.render "Data" (← outline)).1

end Entry
end FramedTree
