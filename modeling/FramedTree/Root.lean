/-! # Roots

Every tree has a root of its own, and every node of the tree carries the root's number. Numbers are
given out in order, and no number is given out twice.
-/

namespace FramedTree

/-- Identity of a tree, shared by all its nodes. -/
structure RootId where
  number : Nat
  deriving DecidableEq, Repr, Inhabited

def RootId.text (root : RootId) : String := s!"root#{root.number}"

end FramedTree
