import FramedTree.Frame.Transfer
import FramedTree.Table

/-! # The streams at hand

Streams are shared: whoever reads or writes one sees what all others have done to it. A name that
was never used stands for an empty stream. A name can be given to a new stream; whoever has the
earlier stream keeps it. Besides the named streams there is a scratch stream for output that is
wanted as a byte string.
-/

namespace FramedTree

/-- Which stream is meant: one by its name and by how many earlier streams had that name, or the
scratch stream. -/
inductive StreamId where
  | named (name : String) (edition : Nat)
  | scratch
  deriving DecidableEq, Repr

/-- All streams. -/
structure Streams where
  /-- How often each name was given to a new stream. -/
  editions : Table String Nat := {}
  named : Table (String × Nat) Stream := {}
  scratch : Stream := {}
  deriving DecidableEq, Repr, Inhabited

namespace Streams

/-- How often a name was given to a new stream. -/
def edition (streams : Streams) (name : String) : Nat := (streams.editions.find? name).getD 0

/-- The stream that has a name now. -/
def current (streams : Streams) (name : String) : StreamId := .named name (streams.edition name)

def get (streams : Streams) : StreamId → Stream
  | .named name edition => (streams.named.find? (name, edition)).getD {}
  | .scratch => streams.scratch

/-- Puts a stream in the place of the one that is meant. -/
def set (streams : Streams) (id : StreamId) (stream : Stream) : Streams :=
  match id with
  | .named name edition => { streams with named := streams.named.set (name, edition) stream }
  | .scratch => { streams with scratch := stream }

def modify (streams : Streams) (id : StreamId) (f : Stream → Stream) : Streams :=
  streams.set id (f (streams.get id))

def renew (streams : Streams) (name : String) (stream : Stream) : Streams :=
  let edition := streams.edition name + 1
  { streams with editions := streams.editions.set name edition }.set (.named name edition) stream

/-- A stream that was put in a place is found there, and no other stream changes. -/
theorem get_set (streams : Streams) (id other : StreamId) (stream : Stream) :
    (streams.set id stream).get other = if other = id then stream else streams.get other := by
  cases id <;> cases other <;> simp [get, set, Table.find?_set]
  split <;> simp_all

theorem set_set (streams : Streams) (id : StreamId) (first second : Stream) :
    (streams.set id first).set id second = streams.set id second := by
  cases id with
  | scratch => rfl
  | named name edition =>
    simp only [set]
    rw [Table.set_set]

/-- Runs an activity on a new handle of a stream, which starts at `position`. -/
def withHandle {α : Type} (id : StreamId) (position : Nat) (activity : FrameIO α) :
    EStateM Error Streams α := fun streams =>
  match activity ⟨streams.get id, position⟩ with
  | .ok value handle => .ok value (streams.set id handle.stream)
  | .error error handle => .error error (streams.set id handle.stream)

end Streams
end FramedTree
