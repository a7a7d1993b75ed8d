import Mathlib.Algebra.GroupWithZero.Nat
import Mathlib.Data.List.Perm.Basic
import FramedTree.Proofs.RoundTrip

/-! # How a saved document fills its stream

Saving a document to the end of a stream adds one frame for every node, children before parents,
without gaps. A header records where the frames of its own children start, and all frames but the
root frame are recorded exactly once.
-/

namespace FramedTree

namespace Block

def children (block : Block) : List Nat :=
  block.identification :: block.content.secretIdentity.toList.map fun _ => block.secretIdentity

private theorem starts_frames (block : Block) :
    block.frames.map Placed.start = block.children ++ [block.entry] := by
  cases h : block.content.secretIdentity <;> simp [frames, children, h]

private theorem recorded_frames (block : Block) :
    block.frames.flatMap (fun placed => placed.header.recorded) =
      block.children.map Nat.toUInt64 := by
  cases h : block.content.secretIdentity <;>
    simp [frames, children, h, Header.recorded, header, EntryContent.header]

private theorem recorded_perm (blocks : List Block) :
    ((allFrames blocks).flatMap (fun placed => placed.header.recorded) ++
      (rootHeader blocks).entries).Perm
      (((allFrames blocks).map Placed.start).map Nat.toUInt64) := by
  have hentries : (rootHeader blocks).entries = blocks.flatMap fun block =>
    [block.entry.toUInt64] := by
    simp only [rootHeader, List.map_eq_flatMap]
  have hstarts : ((allFrames blocks).map Placed.start).map Nat.toUInt64 =
      blocks.flatMap fun block => block.children.map Nat.toUInt64 ++ [block.entry.toUInt64] := by
    simp only [allFrames, List.map_flatMap, starts_frames, List.map_append]
    rfl
  rw [hentries, hstarts, allFrames, List.flatMap_assoc]
  simp only [recorded_frames]
  exact List.flatMap_append_perm blocks _ _

private theorem length_allFrames (blocks : List Block) :
    (allFrames blocks).length =
      (blocks.map fun block => 2 + if block.content.secretIdentity.isSome then 1 else 0).sum := by
  rw [allFrames, List.length_flatMap]
  congr 1
  apply List.map_congr_left
  intro block _
  cases h : block.content.secretIdentity <;> simp [frames, h]

end Block

/-- The frames of a document that has been added to a byte string of length `start`: those of its
entries fill `body`, and `root` is the root frame. -/
structure LaidOut (codec : Codec) (start : Nat) (blocks : List Block) (body root : Bytes) :
    Prop where
  tiles : Tiles codec start (Block.allFrames blocks) body
  root_eq : Frame.encode codec .root (Block.rootHeader blocks) = .ok root
  count : (Block.allFrames blocks).length =
    (blocks.map fun block => 2 + if block.content.secretIdentity.isSome then 1 else 0).sum
  /-- An entry records where its own identities start. -/
  identities : ∀ block ∈ blocks,
    (Header.entry block.header).recorded.map UInt64.toNat = block.children
  /-- The document records where its entries start. -/
  entries : (Block.rootHeader blocks).entries.map UInt64.toNat = blocks.map Block.entry
  /-- Every position that an entry records lies between the start of the document and the entry. -/
  below : ∀ placed ∈ Block.allFrames blocks, ∀ position ∈ placed.header.recorded,
    start ≤ position.toNat ∧ position.toNat < placed.start
  /-- Every position that the document records lies between the start of the document and the root
  frame. -/
  belowRoot : ∀ position ∈ (Block.rootHeader blocks).entries,
    start ≤ position.toNat ∧ position.toNat < start + body.length
  /-- Every frame of an entry is recorded once. -/
  once : (((Block.allFrames blocks).flatMap (fun placed => placed.header.recorded) ++
    (Block.rootHeader blocks).entries).map UInt64.toNat).Perm
    ((Block.allFrames blocks).map Placed.start)
  distinct : ((Block.allFrames blocks).map Placed.start).Nodup

private theorem map_toNat_toUInt64 {positions : List Nat}
    (h : ∀ position ∈ positions, position < 2 ^ 64) :
    (positions.map Nat.toUInt64).map UInt64.toNat = positions := by
  induction positions with
  | nil => rfl
  | cons position rest ih =>
    have hposition := UInt64.toNat_ofNat_of_lt' (h position List.mem_cons_self)
    have hrest := ih fun other hother => h other (List.mem_cons_of_mem _ hother)
    rw [List.map_cons, List.map_cons, hrest]
    exact congrArg (· :: rest) hposition

section Positions

variable {codec : Codec} {start : Nat} {blocks : List Block} {body root : Bytes}
  (h : Tiles codec start (Block.allFrames blocks) body) (hfit : start + body.length ≤ 2 ^ 64)

include h

private theorem Tiles.block_pairwise {block : Block} (hblock : block ∈ blocks) :
    (block.children ++ [block.entry]).Pairwise (· < ·) := by
  have hall := h.pairwise
  rw [Block.allFrames, List.pairwise_flatMap] at hall
  rw [← Block.starts_frames, List.pairwise_map]
  exact hall.1 block hblock

private theorem Tiles.block_start_lt {block : Block} (hblock : block ∈ blocks) {position : Nat}
    (hposition : position ∈ block.children ++ [block.entry]) :
    start ≤ position ∧ position < start + body.length := by
  rw [← Block.starts_frames] at hposition
  obtain ⟨placed, hplaced, rfl⟩ := List.mem_map.1 hposition
  exact h.start_lt (List.mem_flatMap.2 ⟨block, hblock, hplaced⟩)

include hfit

private theorem Tiles.identities {block : Block} (hblock : block ∈ blocks) :
    (Header.entry block.header).recorded.map UInt64.toNat = block.children := by
  have hrecorded : (Header.entry block.header).recorded = block.children.map Nat.toUInt64 := by
    rw [← Block.recorded_frames]
    cases hsecret : block.content.secretIdentity <;> simp [Block.frames, hsecret, Header.recorded]
  rw [hrecorded]
  apply map_toNat_toUInt64
  intro position hposition
  have := h.block_start_lt hblock (List.mem_append_left _ hposition)
  omega

private theorem Tiles.entries :
    (Block.rootHeader blocks).entries.map UInt64.toNat = blocks.map Block.entry := by
  have hentries : (Block.rootHeader blocks).entries =
    (blocks.map Block.entry).map Nat.toUInt64 := by
    rw [List.map_map]
    rfl
  rw [hentries]
  apply map_toNat_toUInt64
  intro position hposition
  obtain ⟨block, hblock, rfl⟩ := List.mem_map.1 hposition
  have := h.block_start_lt hblock (List.mem_append_right _ List.mem_cons_self)
  omega

private theorem Tiles.below {placed : Placed} (hplaced : placed ∈ Block.allFrames blocks)
    {position : UInt64} (hposition : position ∈ placed.header.recorded) :
    start ≤ position.toNat ∧ position.toNat < placed.start := by
  obtain ⟨block, hblock, hframe⟩ := List.mem_flatMap.1 hplaced
  -- Only the frame of the entry records anything.
  have hentry : placed = ⟨block.entry, .entry block.header⟩ := by
    simp only [Block.frames, List.cons_append, List.mem_cons, List.mem_append, List.mem_map,
      List.not_mem_nil, or_false] at hframe
    rcases hframe with rfl | ⟨secret, -, rfl⟩ | hlast
    · cases hposition
    · cases hposition
    · exact hlast
  have hchild : position.toNat ∈ block.children := by
    rw [← h.identities hfit hblock]
    rw [hentry] at hposition
    exact List.mem_map_of_mem hposition
  have hlater :=
    (List.pairwise_append.1 (h.block_pairwise hblock)).2.2 _ hchild block.entry (by simp)
  rw [hentry]
  exact ⟨(h.block_start_lt hblock (List.mem_append_left _ hchild)).1, hlater⟩

private theorem Tiles.once :
    (((Block.allFrames blocks).flatMap (fun placed => placed.header.recorded) ++
      (Block.rootHeader blocks).entries).map UInt64.toNat).Perm
      ((Block.allFrames blocks).map Placed.start) := by
  have hperm := (Block.recorded_perm blocks).map UInt64.toNat
  have hstarts : (((Block.allFrames blocks).map Placed.start).map Nat.toUInt64).map UInt64.toNat =
      (Block.allFrames blocks).map Placed.start := by
    apply map_toNat_toUInt64
    intro position hposition
    obtain ⟨placed, hplaced, rfl⟩ := List.mem_map.1 hposition
    have := h.start_lt hplaced
    omega
  rwa [hstarts] at hperm

/-- Frames that tile the bytes record each other as they should. -/
theorem Tiles.laidOut (hroot : Frame.encode codec .root (Block.rootHeader blocks) = .ok root) :
    LaidOut codec start blocks body root where
  tiles := h
  root_eq := hroot
  count := Block.length_allFrames blocks
  identities _ hblock := h.identities hfit hblock
  entries := h.entries hfit
  below _ hplaced _ hposition := h.below hfit hplaced hposition
  belowRoot position hposition := by
    have hentry : position.toNat ∈ blocks.map Block.entry := by
      rw [← h.entries hfit]
      exact List.mem_map_of_mem hposition
    obtain ⟨block, hblock, hstart⟩ := List.mem_map.1 hentry
    rw [← hstart]
    exact h.block_start_lt hblock (by simp)
  once := h.once hfit
  distinct := by
    rw [List.Nodup, List.pairwise_map]
    exact h.pairwise.imp fun hlt => Nat.ne_of_lt hlt

end Positions

namespace Workspace

/-- Whatever a document went through and whatever a stream holds: if saving the document to the
stream succeeds, what is added to the stream is one frame for every node of the document, laid out
without gaps, and the root frame. -/
theorem save_laid_out {ops : List Op} {name : String} {codec : Codec} {target : StreamId}
    {position size : Nat} {after : Workspace}
    (hsave : onDocument name (Document.save codec target position) (run ops {}).2 =
      .ok (some size) after)
    (hlength : (after.streams.get target).bytes.length < 2 ^ 64) :
    ∃ document saved blocks body root,
      (run ops {}).2.documents.find? name = some document ∧
      after.documents.find? name = some saved ∧
      document.Fills saved ∧ saved.Has (blocks.map Block.content) ∧
      (after.streams.get target).bytes = ((run ops {}).2.streams.get target).bytes ++ body ++ root ∧
      body.length + root.length = size ∧
      LaidOut codec ((run ops {}).2.streams.get target).bytes.length blocks body root := by
  obtain ⟨document, saved, streams, hfound, hrun, rfl⟩ := onDocument_ok hsave
  have hintact : document.Intact :=
    (sound_run ops sound_empty).document hfound
  obtain ⟨contents, written, hhas, rfl, hbytes, hwrite⟩ :=
    Document.save_writes hintact.occupied hrun
  obtain ⟨blocks, body, root, rfl, hframes, htiles, hroot⟩ := Document.write_ok hwrite
  have hfills : document.Fills saved := by
    have hkept := Document.fills_save codec target position (document, (run ops {}).2.streams)
    rw [hrun] at hkept
    exact hkept
  have hsaved : ((run ops {}).2.documents.set name saved).find? name = some saved := by
    rw [Table.find?_set_self]
  dsimp only at hlength
  refine ⟨document, saved, blocks, body, root, hfound, hsaved, hfills, hhas, hframes, ?_, ?_⟩
  · rw [hframes, List.append_assoc] at hbytes
    rw [← List.length_append, List.append_cancel_left hbytes]
  · apply htiles.laidOut _ hroot
    rw [hframes] at hlength
    simp only [List.length_append] at hlength
    omega

/-- A document that is still to be loaded from the stream it is saved to: its entry with a secret
identity and a new one follow what was there. -/
theorem save_laid_out_behind_itself :
    ∃ after blocks body root,
      onDocument "d" (Document.save {} (.named "s" 1) 2)
        (run [.setStream "s" [0, 2, 16, 7, 2, 16, 1, 3, 10, 1, 4, 3, 0, 0, 0] { chunk := some 3 },
          .openDocument "d" "s" {}, .addEntry "d"] {}).2 = .ok (some 22) after ∧
      (after.streams.get (.named "s" 1)).bytes =
        [0, 2, 16, 7, 2, 16, 1, 3, 10, 1, 4, 3, 0, 0, 0] ++ body ++ root ∧
      body.length + root.length = 22 ∧ LaidOut {} 15 blocks body root := by
  have hsave := eq_ok_of_verdict (onDocument "d" (Document.save {} (.named "s" 1) 2)
    (run [.setStream "s" [0, 2, 16, 7, 2, 16, 1, 3, 10, 1, 4, 3, 0, 0, 0] { chunk := some 3 },
      .openDocument "d" "s" {}, .addEntry "d"] {}).2) (some 22) (by decide +kernel)
  obtain ⟨document, saved, blocks, body, root, -, -, -, -, hbytes, hsize, hlaid⟩ :=
    save_laid_out hsave (by decide +kernel)
  have hold :
    ((run [.setStream "s" [0, 2, 16, 7, 2, 16, 1, 3, 10, 1, 4, 3, 0, 0, 0] { chunk := some 3 },
      .openDocument "d" "s" {}, .addEntry "d"] {}).2.streams.get (.named "s" 1)).bytes =
        [0, 2, 16, 7, 2, 16, 1, 3, 10, 1, 4, 3, 0, 0, 0] := by
    decide +kernel
  rw [hold] at hbytes hlaid
  exact ⟨_, blocks, body, root, hsave, hbytes, hsize, hlaid⟩

end Workspace
end FramedTree
