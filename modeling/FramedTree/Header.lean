import FramedTree.Header.Document
import FramedTree.Header.Entry
import FramedTree.Header.Identity

/-! # Headers of any kind

A frame can hold any of four headers, and nothing in the frame says which: a reader has to know.
This module lets a reader or writer be used at a kind that is chosen at run time.
-/

namespace FramedTree

inductive HeaderKind where
  | identity
  | entry
  | document
  | descriptor
  deriving DecidableEq, Repr

inductive Header where
  | identity (header : IdentityHeader)
  | entry (header : EntryHeader)
  | document (header : DocumentHeader)
  | descriptor (header : Descriptor)
  deriving DecidableEq, Repr

/-- Uses a function on messages at the header's own kind. -/
def Header.use {β : Type} (f : ∀ {α : Type} [Message α], α → β) : Header → β
  | identity header => f header
  | entry header => f header
  | document header => f header
  | descriptor header => f header

/-- Runs an activity that gives a message at the kind asked for. -/
def HeaderKind.run {m : Type → Type} [Functor m] (activity : ∀ {α : Type} [Message α], m α) :
    HeaderKind → m Header
  | identity => Header.identity <$> activity
  | entry => Header.entry <$> activity
  | document => Header.document <$> activity
  | descriptor => Header.descriptor <$> activity

end FramedTree
