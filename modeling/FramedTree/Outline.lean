import FramedTree.Error
import FramedTree.Path
import FramedTree.Text.Quoted

/-! # Outlines

A tree as indented text: a line for every field that is set, and a block in braces for every child.
A child that cannot be read takes one line that says why. An outline can also break off; a block
that is tried keeps what it has written so far, and what follows it goes on at its own depth.
-/

namespace FramedTree

/-- A value on one line. -/
inductive Scalar where
  | text (value : String)
  | int (value : Int)
  | bool (value : Bool)
  | bytes (value : Bytes)
  | optional (value : Option String)
  deriving DecidableEq, Repr

def Scalar.show : Scalar → String
  | text value => Text.quoted value
  | int value => toString value
  | bool value => if value then "true" else "false"
  | bytes value => "[" ++ ", ".intercalate (value.map fun byte => toString byte.toNat) ++ "]"
  | optional none => "None"
  | optional (some value) => "Some(" ++ Text.quoted value ++ ")"

/-- A field of an outline. -/
inductive Outline where
  /-- A value, or nothing when it is not set. -/
  | scalar (name : String) (value : Option Scalar)
  /-- A child and its fields. -/
  | child (name : String) (fields : List Outline)
  /-- A child that is not there. -/
  | absent (name : String)
  /-- A child that cannot be read. -/
  | unreadable (name : String) (error : Error)
  /-- A reference to another node. -/
  | reference (name : String) (target : Path)
  /-- A child whose breaking off is of no consequence. -/
  | tried (name : String) (fields : List Outline)
  /-- Breaks off. -/
  | abort
  deriving Repr

namespace Outline

/-- A line of text and how deep it stands. -/
structure Line where
  depth : Nat
  text : String
  deriving DecidableEq, Repr

def Line.render (line : Line) : String :=
  String.join (List.replicate line.depth "  ") ++ line.text ++ "\n"

/-- The lines of a block around the lines of its fields, with a closing brace if the fields came to
their end. -/
def enclose (depth : Nat) (name : String) : List Line × Bool → List Line × Bool
  | (inner, whole) =>
    (⟨depth, name ++ " \x7b"⟩ :: inner ++ (if whole then [⟨depth, "\x7d"⟩] else []), whole)

mutual

/-- The lines of a field at the given depth, and whether it came to its end. -/
def lines (depth : Nat) : Outline → List Line × Bool
  | scalar _ none => ([], true)
  | scalar name (some value) => ([⟨depth, name ++ ": " ++ value.show⟩], true)
  | child name fields => enclose depth name (allLines (depth + 1) fields)
  | absent _ => ([], true)
  | unreadable name error => ([⟨depth, name ++ ": <unreadable: " ++ error.message ++ ">"⟩], true)
  | reference name target => ([⟨depth, name ++ ": -> " ++ target.text⟩], true)
  | tried name fields => ((enclose depth name (allLines (depth + 1) fields)).1, true)
  | abort => ([], false)

/-- The lines of fields up to the first that breaks off. -/
def allLines (depth : Nat) : List Outline → List Line × Bool
  | [] => ([], true)
  | field :: rest =>
    let (first, whole) := lines depth field
    if whole then
      let (others, whole) := allLines depth rest
      (first ++ others, whole)
    else (first, false)

end

/-- The text of a block on its own, and whether it came to its end. -/
def render (title : String) (fields : List Outline) : String × Bool :=
  let (text, whole) := lines 0 (child title fields)
  (String.join (text.map Line.render), whole)

end Outline
end FramedTree
