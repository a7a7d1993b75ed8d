import FramedTree.Document.Entry
import FramedTree.Header.Document

/-! # Documents

A document is the root of a tree: an ordered list of entries. A document that was opened from a
source knows where its entries are stored and loads each one when it is first looked at.
-/

namespace FramedTree

/-- The root of a tree of entries. -/
structure Document where
  stamp : Stamp
  entries : Slots (Lazy Entry) := {}
  deriving DecidableEq, Repr, Inhabited

namespace Document

def entriesField : UInt32 := 1

def empty (root : RootId) : Document := { stamp := { root } }

/-- The document that a header from `source` stands for. -/
def ofHeader (root : RootId) (source : Source) (header : DocumentHeader) : Document :=
  { stamp := { root }
    entries := ⟨(header.entries.map fun position => some (.stored source position)).toArray⟩ }

def entryStamp (stamp : Stamp) (i : Nat) : Stamp := stamp.child entriesField i.toUInt64

def entryCount (document : Document) : Nat := document.entries.size

/-- Whether an entry has been loaded or was built in place. -/
def isEntryLoaded (document : Document) (i : Nat) : Bool :=
  (document.entries.get? i).any Lazy.isLoaded

def addEntry (document : Document) : Entry × Document :=
  let i := document.entries.size
  let entry : Entry := { stamp := entryStamp document.stamp i }
  (entry, { document with entries := document.entries.insert i (Lazy.insert {} entry) })

variable {β : Type}

/-- Loads an entry of the document with the given stamp. -/
def loadEntry (stamp : Stamp) (i : Nat) : Option Origin → Load Entry :=
  Entry.load (entryStamp stamp i)

/-- Looks into an entry, if there is one with this number. -/
def onEntry (i : Nat) (inner : Access Streams Entry β) : Access Streams Document (Option β) := do
  let document ← Access.node
  Access.within entries (fun slots document => { document with entries := slots })
    (Slots.access i (Lazy.access (loadEntry document.stamp i) inner))

/-- Changes an entry, if there is one with this number. -/
def onEntryMut (i : Nat) (inner : Access Streams Entry β) : Access Streams Document (Option β) := do
  let document ← Access.node
  Access.within entries (fun slots document => { document with entries := slots })
    (Slots.access i (Lazy.accessMut (loadEntry document.stamp i) inner))

def onCells {σ : Type} (inner : Stamp → Nat → Access σ (Lazy Entry) β) :
    Access σ Document (List β) := do
  let document ← Access.node
  Access.within entries (fun slots document => { document with entries := slots })
    (Slots.accessAll (inner document.stamp))

def entryList : Access Streams Document (List Entry) :=
  onCells fun stamp i => Lazy.access (loadEntry stamp i) Access.node

def loadAll : Access Streams Document Unit :=
  discard (onCells fun stamp i => Lazy.accessMut (loadEntry stamp i) Entry.loadAll)

/-- Reads the header of the document that was written last to a source. -/
def readHeader (source : Source) : Load DocumentHeader := source.readRoot

def outline : Access Streams Document (List Outline) :=
  onCells fun stamp i => do
    match ← Access.attempt (Lazy.access (loadEntry stamp i) Entry.outline) with
    | .ok fields => return .child "data" fields
    | .error error => return .unreadable "data" error

def text : Access Streams Document String := do return (Outline.render "Document" (← outline)).1

end Document
end FramedTree
