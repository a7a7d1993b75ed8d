import FramedTree.Workspace.Basic

/-! # Operations

Everything that can be done in a workspace, and every form that an answer can take. Operations that
only look at a node and operations that change it are kept apart, since they load nodes in different
ways.
-/

namespace FramedTree

inductive EntryLook where
  | info
  | text
  | child (field : UInt32) (index : UInt64)
  | reviewer (k : Nat)
  /-- Keeps the reference to the approver under a name. -/
  | keepApprover (as : String)
  /-- Keeps the reference to a reviewer under a name. -/
  | keepReviewer (k : Nat) (as : String)
  deriving DecidableEq, Repr

/-- Changes an entry; `ρ` is how references are given. -/
inductive EntryChange (ρ : Type) where
  | touch
  | setApprover (ref : ρ)
  | addReviewer (ref : ρ)
  | removeReviewers (ref : ρ)
  | clearApprover
  | clearSecretIdentity
  | loadAll
  deriving DecidableEq, Repr

def EntryChange.lookup {ρ ρ' : Type} (find? : ρ → Option ρ') :
    EntryChange ρ → Option (EntryChange ρ')
  | touch => some touch
  | setApprover ref => (find? ref).map setApprover
  | addReviewer ref => (find? ref).map addReviewer
  | removeReviewers ref => (find? ref).map removeReviewers
  | clearApprover => some clearApprover
  | clearSecretIdentity => some clearSecretIdentity
  | loadAll => some loadAll

inductive IdentityLook where
  | info
  | text
  | child (field : UInt32) (index : UInt64)
  /-- Keeps a reference to the identity under a name. -/
  | keepRef (as : String)
  deriving DecidableEq, Repr

inductive IdentityChange where
  | touch
  | setFirstName (name : Option String)
  | setBirthYear (year : Option Int32)
  deriving DecidableEq, Repr

/-- An identity that is only looked at. -/
inductive SeenIdentity where
  | standalone (name : String)
  | identification (entry : EntryPlace)
  | secretIdentity (entry : EntryPlace)
  deriving DecidableEq, Repr

inductive ChangedIdentity where
  | standalone (name : String)
  | identification (entry : EntryPlace)
  | secretIdentity (entry : EntryPlace)
  /-- The secret identity, which is made if there is none. -/
  | addedSecretIdentity (entry : EntryPlace)
  deriving DecidableEq, Repr

inductive RefOwner where
  | document (name : String)
  | entry (name : String)
  deriving DecidableEq, Repr

inductive Op where
  | setStream (stream : String) (bytes : Bytes) (faults : Faults)
  | setFaults (stream : String) (faults : Faults)
  | patch (stream : String) (position : Nat) (bytes : Bytes)
  | truncate (stream : String) (length : Nat)
  | append (stream : String) (bytes : Bytes)
  | dump (stream : String)
  | takeSeeks (stream : String)
  | newDocument (document : String)
  | openDocument (document stream : String) (codec : Codec)
  | readDocument (document stream : String) (position : Nat) (codec : Codec)
  | loadDocument (document : String) (bytes : Bytes) (codec : Codec)
  | loadDocumentOf (document stream : String) (codec : Codec)
  | save (document stream : String) (codec : Codec)
  | saveToBytes (document : String) (codec : Codec)
  | addEntry (document : String)
  | entryCount (document : String)
  | isEntryLoaded (document : String) (i : Nat)
  | documentText (document : String)
  | entryPaths (document : String)
  | loadAll (document : String)
  | documentChild (document : String) (field : UInt32) (index : UInt64)
  | documentStamp (document : String)
  | equalDocuments (document other : String)
  | equalEntries (entry other : EntryPlace)
  | equalIdentities (identity other : String)
  | makeRef (owner : RefOwner) (coordinates : List UInt64) (as : String)
  | resolve (document ref : String)
  | newEntry (entry : String)
  | newIdentity (identity : String)
  | lookAtEntry (entry : EntryPlace) (look : EntryLook)
  | changeEntry (entry : EntryPlace) (change : EntryChange String)
  | lookAtIdentity (identity : SeenIdentity) (look : IdentityLook)
  | changeIdentity (identity : ChangedIdentity) (change : IdentityChange)
  deriving DecidableEq, Repr

inductive NodeKind where
  | entry
  | identity
  deriving DecidableEq, Repr

inductive Answer where
  | nothing
  | noDocument
  | noEntry
  | noRef
  /-- One of two entries to compare is not there. -/
  | missing
  | failed (error : Error)
  | root (root : RootId)
  | count (n : Nat)
  /-- A number of bytes in a stream. -/
  | size (n : Nat)
  | flag (value : Bool)
  | bytes (value : Bytes)
  | text (value : String)
  | seeks (log : List SeekTarget)
  | paths (paths : List Path)
  | stamp (stamp : Stamp)
  | node (kind : NodeKind)
  | entry (entry : Entry)
  /-- How many references were dropped from an entry, and the entry without them. -/
  | removed (n : Nat) (entry : Entry)
  | identity (identity : Identity)
  | ref (ref : NodeRef)
  deriving DecidableEq, Repr

end FramedTree
