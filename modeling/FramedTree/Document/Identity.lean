import FramedTree.Header.Identity
import FramedTree.Lazy
import FramedTree.Outline
import FramedTree.Ownership

/-! # Identities

An identity is a person's record as a node of a tree: its stamp and the fields of its header. It has
no children. Two identities are equal when their fields are.
-/

namespace FramedTree

/-- A person: a given name and a year of birth. -/
structure Identity where
  stamp : Stamp
  header : IdentityHeader := {}
  deriving DecidableEq, Repr, Inhabited

namespace Identity

def firstName (identity : Identity) : String := identity.header.firstName.getD ""

def birthYear (identity : Identity) : Int32 := identity.header.birthYear.getD 0

def setFirstName (identity : Identity) (name : Option String) : Identity :=
  { identity with header := { identity.header with firstName := name } }

def setBirthYear (identity : Identity) (year : Option Int32) : Identity :=
  { identity with header := { identity.header with birthYear := year } }

def sameContent (identity other : Identity) : Bool := identity.header == other.header

/-- Loads the identity with the given stamp: from where it is stored, or unset. -/
def load (stamp : Stamp) : Option Origin → Load Identity
  | some origin => return { stamp, header := ← origin.read }
  | none => return { stamp }

def outline (identity : Identity) : List Outline :=
  [.scalar "first_name" (identity.header.firstName.map .text),
    .scalar "birth_year" (identity.header.birthYear.map fun year => .int year.toInt)]

def text (identity : Identity) : String := (Outline.render "Identity" identity.outline).1

end Identity
end FramedTree
