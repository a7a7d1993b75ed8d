import FramedTree.Header
import FramedTree.Proofs.Contents

/-! # The layout of saved trees

What a tree holds decides its frames: which there are, in which order they follow each other, and
what each header records. The frames of an entry form a block: its identities first, and behind them
the header with their positions. The blocks of all entries tile the bytes, and the root frame comes
last.
-/

namespace FramedTree

variable {α β : Type}

/-- Adds frames to the end of a byte string. -/
abbrev Scribe := StateT Bytes (Except Error)

namespace Scribe

/-- Adds the frame of a message and gives its position. -/
def frame [Message α] (codec : Codec) (kind : FrameKind) (header : α) : Scribe Nat :=
  fun bytes => do
  let frame ← Frame.encode codec kind header
  return (bytes.length, bytes ++ frame)

variable {bytes after between : Bytes}

theorem frame_eq [Message α] {codec : Codec} {kind : FrameKind} {header : α} {more : Bytes}
    (h : Frame.encode codec kind header = .ok more) (bytes : Bytes) :
    frame codec kind header bytes = .ok (bytes.length, bytes ++ more) := by
  simp only [frame, h]
  rfl

theorem frame_error [Message α] {codec : Codec} {kind : FrameKind} {header : α} {error : Error}
    (h : Frame.encode codec kind header = .error error) (bytes : Bytes) :
    frame codec kind header bytes = .error error := by
  simp only [frame, h]
  rfl

private theorem frame_ok [Message α] {codec : Codec} {kind : FrameKind} {header : α}
    {position : Nat} (h : frame codec kind header bytes = .ok (position, after)) :
    position = bytes.length ∧ ∃ more,
      Frame.encode codec kind header = .ok more ∧ after = bytes ++ more := by
  cases hencode : Frame.encode codec kind header with
  | error error =>
    rw [frame_error hencode] at h
    cases h
  | ok more =>
    rw [frame_eq hencode] at h
    cases h
    exact ⟨rfl, more, rfl, rfl⟩

theorem bind_apply (scribe : Scribe α) (next : α → Scribe β) (bytes : Bytes) :
    (scribe >>= next) bytes = match scribe bytes with
      | .ok (value, between) => next value between
      | .error error => .error error := by
  change Except.bind (scribe bytes) _ = _
  cases scribe bytes <;> rfl

theorem bind_eq {scribe : Scribe α} {next : α → Scribe β} {value : α}
    (h : scribe bytes = .ok (value, between)) : (scribe >>= next) bytes = next value between := by
  rw [bind_apply, h]

theorem discard_apply (scribe : Scribe α) (bytes : Bytes) :
    (discard scribe) bytes = match scribe bytes with
      | .ok (_, between) => .ok ((), between)
      | .error error => .error error := by
  change (scribe >>= fun _ => pure ()) bytes = _
  rw [bind_apply]
  rfl

private theorem bind_ok {scribe : Scribe α} {next : α → Scribe β} {result : β}
    (h : (scribe >>= next) bytes = .ok (result, after)) :
    ∃ value between, scribe bytes = .ok (value, between) ∧
      next value between = .ok (result, after) := by
  rw [bind_apply] at h
  cases hrun : scribe bytes with
  | error error =>
    rw [hrun] at h
    cases h
  | ok state =>
    rw [hrun] at h
    exact ⟨state.1, state.2, rfl, h⟩

end Scribe

namespace EntryContent

/-- The header of an entry with this content whose identities are stored at the given positions. -/
def header (content : EntryContent) (identification : Nat) (secretIdentity : Option Nat) :
    EntryHeader :=
  { identification := identification.toUInt64
    secretIdentity := secretIdentity.map Nat.toUInt64
    approver := content.approver.map Path.toDescriptor
    reviewers := content.reviewers.map Path.toDescriptor }

/-- Adds the frames of an entry with this content and gives the position of its header. -/
def write (codec : Codec) (content : EntryContent) : Scribe Nat := do
  let identification ← Scribe.frame codec .nested content.identification
  let secretIdentity ← content.secretIdentity.mapM (Scribe.frame codec .nested)
  Scribe.frame codec .nested (content.header identification secretIdentity)

/-- An entry with this content is stored in some bytes: its header at `position`, and its identities
where the header says. -/
def StoredAt (codec : Codec) (content : EntryContent) (bytes : Bytes) (position : Nat) : Prop :=
  ∃ identification secretIdentity,
    Frame.At codec (content.header identification secretIdentity) bytes position ∧
    Frame.At codec content.identification bytes identification ∧
    Option.Rel (fun header position => Frame.At codec header bytes position) content.secretIdentity
      secretIdentity

end EntryContent

namespace Document

/-- Adds the frames of all entries and gives the positions of their headers. -/
def writeEntries (codec : Codec) : List EntryContent → Scribe (List Nat)
  | [] => return []
  | content :: rest => do
    let position ← content.write codec
    let positions ← writeEntries codec rest
    return position :: positions

def write (codec : Codec) (contents : List EntryContent) : Scribe Unit := do
  let positions ← writeEntries codec contents
  discard (Scribe.frame codec .root (⟨positions.map Nat.toUInt64⟩ : DocumentHeader))

/-- Each content is stored at the position of the same number. -/
abbrev AllStored (codec : Codec) (bytes : Bytes) : List EntryContent → List Nat → Prop :=
  List.Forall₂ fun content position => content.StoredAt codec bytes position

/-- A document with these contents is stored in some bytes, the last of which are its root frame. -/
def StoredIn (codec : Codec) (contents : List EntryContent) (bytes : Bytes) : Prop :=
  ∃ positions before frame, bytes = before ++ frame ∧
    Frame.encode codec .root (⟨positions.map Nat.toUInt64⟩ : DocumentHeader) = .ok frame ∧
    AllStored codec bytes contents positions

end Document

namespace Header

def encode (codec : Codec) (header : Header) : Except Error Bytes :=
  header.use fun header => Frame.encode codec .nested header

def recorded : Header → List UInt64
  | identity _ | descriptor _ => []
  | entry header => header.identification :: header.secretIdentity.toList
  | document header => header.entries

theorem encode_ne_nil {codec : Codec} {header : Header} {frame : Bytes}
    (h : header.encode codec = .ok frame) : frame ≠ [] := by
  cases header <;> exact Frame.encode_ne_nil h

end Header

/-- A header and the position at which its frame starts. -/
structure Placed where
  start : Nat
  header : Header
  deriving DecidableEq, Repr

/-- The frames fill the bytes one after another, of which the first stands at `start`. -/
def Tiles (codec : Codec) : (start : Nat) → List Placed → Bytes → Prop
  | _, [], bytes => bytes = []
  | start, placed :: rest, bytes => placed.start = start ∧ ∃ frame more,
    placed.header.encode codec = .ok frame ∧ bytes = frame ++ more ∧
      Tiles codec (start + frame.length) rest more

namespace Tiles

variable {codec : Codec} {start : Nat} {frames others : List Placed} {placed : Placed}
  {bytes more : Bytes}

theorem single {header : Header} (h : header.encode codec = .ok bytes) :
    Tiles codec start [⟨start, header⟩] bytes :=
  ⟨rfl, bytes, [], h, (List.append_nil bytes).symm, rfl⟩

theorem append (h : Tiles codec start frames bytes)
    (hmore : Tiles codec (start + bytes.length) others more) :
    Tiles codec start (frames ++ others) (bytes ++ more) := by
  induction frames generalizing start bytes with
  | nil =>
    cases h
    simpa using hmore
  | cons placed rest ih =>
    obtain ⟨hstart, frame, tail, hencode, rfl, htail⟩ := h
    refine ⟨hstart, frame, tail ++ more, hencode, List.append_assoc .., ih htail ?_⟩
    rwa [List.length_append, ← Nat.add_assoc] at hmore

theorem start_lt (h : Tiles codec start frames bytes) (hplaced : placed ∈ frames) :
    start ≤ placed.start ∧ placed.start < start + bytes.length := by
  induction frames generalizing start bytes with
  | nil => cases hplaced
  | cons first rest ih =>
    obtain ⟨hstart, frame, tail, hencode, rfl, htail⟩ := h
    have hframe := List.length_pos_of_ne_nil (Header.encode_ne_nil hencode)
    simp only [List.length_append]
    rcases List.mem_cons.1 hplaced with rfl | hrest
    · omega
    · have := ih htail hrest
      omega

theorem pairwise (h : Tiles codec start frames bytes) :
    frames.Pairwise fun placed later => placed.start < later.start := by
  induction frames generalizing start bytes with
  | nil => exact .nil
  | cons first rest ih =>
    obtain ⟨hstart, frame, tail, hencode, rfl, htail⟩ := h
    have hframe := List.length_pos_of_ne_nil (Header.encode_ne_nil hencode)
    refine .cons (fun placed hplaced => ?_) (ih htail)
    have := htail.start_lt hplaced
    omega

private theorem drop_eq {before : Bytes} (h : Tiles codec before.length frames bytes)
    (hplaced : placed ∈ frames) (more : Bytes) :
    ∃ frame rest, placed.header.encode codec = .ok frame ∧
      (before ++ bytes ++ more).drop placed.start = frame ++ rest := by
  -- A frame that has been passed counts among the bytes before.
  induction frames generalizing before bytes with
  | nil => cases hplaced
  | cons first rest ih =>
    obtain ⟨hstart, frame, tail, hencode, rfl, htail⟩ := h
    rcases List.mem_cons.1 hplaced with rfl | hrest
    · refine ⟨frame, tail ++ more, hencode, ?_⟩
      rw [hstart, List.append_assoc, List.append_assoc, List.drop_left]
    · rw [← List.length_append] at htail
      obtain ⟨later, others, hlater, hdrop⟩ := ih htail hrest
      refine ⟨later, others, hlater, ?_⟩
      rwa [List.append_assoc before] at hdrop

end Tiles

/-- The frames of a saved entry: what the entry holds, and where each frame starts. -/
structure Block where
  content : EntryContent
  identification : Nat
  /-- Where the secret identity starts, if there is one. -/
  secretIdentity : Nat
  entry : Nat
  deriving DecidableEq, Repr

namespace Block

/-- The header of the entry, which records where its identities start. -/
def header (block : Block) : EntryHeader :=
  block.content.header block.identification
    (block.content.secretIdentity.map fun _ => block.secretIdentity)

def frames (block : Block) : List Placed :=
  ⟨block.identification, .identity block.content.identification⟩ ::
    (block.content.secretIdentity.toList.map
      fun secret => ⟨block.secretIdentity, .identity secret⟩) ++
    [⟨block.entry, .entry block.header⟩]

def allFrames (blocks : List Block) : List Placed := blocks.flatMap frames

def rootHeader (blocks : List Block) : DocumentHeader :=
  ⟨blocks.map fun block => block.entry.toUInt64⟩

end Block

variable {codec : Codec} {bytes after : Bytes}

/-- The frames of the block are found at their positions. -/
structure Block.Stands (codec : Codec) (bytes : Bytes) (block : Block) : Prop where
  header : Frame.At codec block.header bytes block.entry
  identification : Frame.At codec block.content.identification bytes block.identification
  secretIdentity : ∀ secret, block.content.secretIdentity = some secret →
    Frame.At codec secret bytes block.secretIdentity

theorem Block.stands_of_tiles {blocks : List Block} {before body : Bytes}
    (h : Tiles codec before.length (allFrames blocks) body) (rest : Bytes) :
    ∀ block ∈ blocks, block.Stands codec (before ++ body ++ rest) := by
  intro block hblock
  have hframe (placed : Placed) (hplaced : placed ∈ block.frames) :=
    h.drop_eq (List.mem_flatMap.2 ⟨block, hblock, hplaced⟩) rest
  refine ⟨?_, ?_, fun secret hsecret => ?_⟩
  · exact hframe ⟨block.entry, .entry block.header⟩ (by simp [frames])
  · exact hframe ⟨block.identification, .identity block.content.identification⟩ (by simp [frames])
  · exact hframe ⟨block.secretIdentity, .identity secret⟩ (by simp [frames, hsecret])

theorem Block.Stands.storedAt {block : Block} (h : block.Stands codec bytes) :
    block.content.StoredAt codec bytes block.entry := by
  refine ⟨block.identification, block.content.secretIdentity.map fun _ => block.secretIdentity,
    h.header, h.identification, ?_⟩
  cases hsecret : block.content.secretIdentity with
  | none => exact .none
  | some secret => exact .some (h.secretIdentity secret hsecret)

/-- The frames of an entry that were added form a block. -/
theorem EntryContent.write_ok {content : EntryContent} {position : Nat}
    (h : content.write codec bytes = .ok (position, after)) :
    ∃ (block : Block) (more : Bytes), block.content = content ∧ block.entry = position ∧
      after = bytes ++ more ∧ Tiles codec bytes.length block.frames more := by
  obtain ⟨identification, first, hfirst, h⟩ := Scribe.bind_ok h
  obtain ⟨secretIdentity, second, hsecond, hlast⟩ := Scribe.bind_ok h
  obtain ⟨rfl, frame, hencode, rfl⟩ := Scribe.frame_ok hfirst
  obtain ⟨rfl, frame'', hencode'', rfl⟩ := Scribe.frame_ok hlast
  cases hsecret : content.secretIdentity with
  | none =>
    rw [hsecret] at hsecond
    cases hsecond
    refine ⟨⟨content, bytes.length, 0, (bytes ++ frame).length⟩, frame ++ frame'', rfl, rfl,
      by simp, ?_⟩
    simp only [Block.frames, Block.header, hsecret, Option.map_none, Option.toList_none,
      List.map_nil, List.length_append]
    exact Tiles.append (Tiles.single hencode) (Tiles.single hencode'')
  | some secret =>
    rw [hsecret] at hsecond
    change (Scribe.frame codec .nested secret >>= fun start => pure (some start)) _ = _ at hsecond
    obtain ⟨start, between, hframe, hpure⟩ := Scribe.bind_ok hsecond
    obtain ⟨rfl, frame', hencode', rfl⟩ := Scribe.frame_ok hframe
    cases hpure
    refine ⟨⟨content, bytes.length, (bytes ++ frame).length, (bytes ++ frame ++ frame').length⟩,
      frame ++ frame' ++ frame'', rfl, rfl, by simp, ?_⟩
    simp only [Block.frames, Block.header, hsecret, Option.map_some, Option.toList_some,
      List.map_cons, List.map_nil]
    have hfirst : Tiles codec bytes.length
      [⟨bytes.length, .identity content.identification⟩] frame :=
      Tiles.single hencode
    have hsecret : Tiles codec (bytes.length + frame.length)
        [⟨(bytes ++ frame).length, .identity secret⟩] frame' := by
      rw [← List.length_append]
      exact Tiles.single hencode'
    refine Tiles.append (hfirst.append hsecret) ?_
    rw [← List.length_append, ← List.append_assoc]
    exact Tiles.single hencode''

namespace Document

theorem writeEntries_ok {contents : List EntryContent} {positions : List Nat}
    (h : writeEntries codec contents bytes = .ok (positions, after)) :
    ∃ blocks more, blocks.map Block.content = contents ∧ blocks.map Block.entry = positions ∧
      after = bytes ++ more ∧ Tiles codec bytes.length (Block.allFrames blocks) more := by
  -- Every block starts where the one before it ended, so the bytes so far are carried along.
  induction contents generalizing bytes positions with
  | nil =>
    cases h
    exact ⟨[], [], rfl, rfl, (List.append_nil _).symm, rfl⟩
  | cons content rest ih =>
    obtain ⟨position, between, hfirst, h⟩ := Scribe.bind_ok h
    obtain ⟨others, last, hrest, hpure⟩ := Scribe.bind_ok h
    cases hpure
    obtain ⟨block, more, rfl, rfl, rfl, htiles⟩ := EntryContent.write_ok hfirst
    obtain ⟨blocks, more', rfl, rfl, rfl, htiles'⟩ := ih hrest
    refine ⟨block :: blocks, more ++ more', rfl, rfl, List.append_assoc .., ?_⟩
    rw [List.length_append] at htiles'
    exact htiles.append htiles'

/-- The frames of a document that were added: the blocks of its entries, and the root frame. -/
theorem write_ok {contents : List EntryContent} (h : write codec contents bytes = .ok ((), after)) :
    ∃ blocks body root, blocks.map Block.content = contents ∧ after = bytes ++ body ++ root ∧
      Tiles codec bytes.length (Block.allFrames blocks) body ∧
      Frame.encode codec .root (Block.rootHeader blocks) = .ok root := by
  obtain ⟨positions, between, hentries, h⟩ := Scribe.bind_ok h
  obtain ⟨blocks, body, hcontents, rfl, rfl, htiles⟩ := writeEntries_ok hentries
  rw [Scribe.discard_apply] at h
  cases hencode : Frame.encode codec .root
      (⟨(blocks.map Block.entry).map Nat.toUInt64⟩ : DocumentHeader) with
  | error error =>
    rw [Scribe.frame_error hencode] at h
    cases h
  | ok root =>
    rw [Scribe.frame_eq hencode] at h
    cases h
    rw [List.map_map] at hencode
    exact ⟨blocks, body, root, hcontents, rfl, htiles, hencode⟩

/-- The frames of blocks that tile the bytes lead to the contents of the entries. -/
theorem allStored_of_stands {blocks : List Block} (h : ∀ block ∈ blocks, block.Stands codec bytes) :
    AllStored codec bytes (blocks.map Block.content) (blocks.map Block.entry) := by
  rw [AllStored, List.forall₂_map_left_iff, List.forall₂_map_right_iff, List.forall₂_same]
  exact fun block hblock => (h block hblock).storedAt

theorem storedIn_of_write {contents : List EntryContent}
    (h : write codec contents bytes = .ok ((), after)) :
    StoredIn codec contents after := by
  obtain ⟨blocks, body, root, rfl, rfl, htiles, hroot⟩ := write_ok h
  refine ⟨blocks.map Block.entry, bytes ++ body, root, rfl, ?_,
    allStored_of_stands (Block.stands_of_tiles htiles root)⟩
  rw [List.map_map]
  exact hroot

end Document
end FramedTree
