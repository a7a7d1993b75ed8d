import FramedTree.Proofs.FramesAnywhere
import FramedTree.Proofs.LazyEager
import FramedTree.Proofs.Tiling

/-! # Limits of writers and readers

Writers check the length of a payload before they write it, and readers check the length that they
read in front of it. A document that was written under one limit is read back under another one as
long as no payload is over that; otherwise reading it fails at the first payload that is, in the
order in which the nodes are loaded and not in the order in which their frames were written.
-/

namespace FramedTree

variable {α : Type} [Message α] {codec other : Codec} {message : α} {handle : Handle} {length : Nat}

namespace Codec

/-- The failure at a payload that is longer than the limit. -/
def refusal (codec : Codec) (length : Nat) : Error :=
  .malformed (.frameTooLarge length codec.maxFrameLen.toNat)

def firstOver (codec : Codec) (lengths : List Nat) : Option Nat :=
  lengths.find? fun length => codec.maxFrameLen.toNat < length

private theorem firstOver_eq_none {lengths : List Nat} :
    codec.firstOver lengths = none ↔ ∀ length ∈ lengths, length ≤ codec.maxFrameLen.toNat := by
  rw [firstOver, List.find?_eq_none]
  simp only [decide_eq_true_eq, Nat.not_lt]

private theorem firstOver_cons_of_le {lengths : List Nat} (h : length ≤ codec.maxFrameLen.toNat) :
    codec.firstOver (length :: lengths) = codec.firstOver lengths := by
  rw [firstOver, List.find?_cons_of_neg (by simpa using h)]
  rfl

private theorem firstOver_cons_of_lt {lengths : List Nat} (h : codec.maxFrameLen.toNat < length) :
    codec.firstOver (length :: lengths) = some length := by
  rw [firstOver, List.find?_cons_of_pos (by simpa using h)]

end Codec

namespace Frame

private theorem readNested_over (h : handle.stream.Calm) {rest : Bytes} (hshort : length < 2 ^ 32)
    (hahead : handle.ahead = Varint.encode length ++ rest)
    (hover : codec.maxFrameLen.toNat < length) :
    ∃ after, readLength handle = .ok length after ∧
      (readPayload codec length : FrameIO α) after = .error (codec.refusal length) after := by
  refine ⟨_, readLength_eq h hshort hahead, ?_⟩
  rw [readPayload_eq, if_pos hover]
  rfl

private theorem At.within {bytes : Bytes} {position : Nat} (h : At other message bytes position)
    (hsize : Message.encodedLen message ≤ codec.maxFrameLen.toNat) :
    At codec message bytes position := by
  obtain ⟨frame, rest, hencode, hbytes⟩ := h
  exact ⟨frame, rest, encode_within hencode hsize, hbytes⟩

variable [LawfulMessage α]

private theorem readAt_over (h : handle.stream.Calm) {position : Nat}
    (hframe : At other message handle.stream.bytes position)
    (hover : codec.maxFrameLen.toNat < Message.encodedLen message) :
    ∃ after, (readAt codec position : FrameIO α) handle =
      .error (codec.refusal (Message.encodedLen message)) after := by
  obtain ⟨frame, rest, hencode, hbytes⟩ := hframe
  obtain ⟨hsize, rfl⟩ := encode_ok hencode
  obtain ⟨found, hseek, hcalm, hcontent, hposition⟩ := Handle.seek_ok h (.start position)
  have hahead : found.ahead =
    Varint.encode (Message.encodedLen message) ++ (Message.encode message ++ rest) := by
    rw [Handle.ahead, Stream.bytes, hcontent, hposition]
    change handle.stream.bytes.drop position = _
    rw [hbytes, trailer, List.append_nil, List.append_assoc, LawfulMessage.length_encode]
  rw [LawfulMessage.length_encode] at hsize
  obtain ⟨after, hlength, hpayload⟩ :=
    readNested_over (α := α) hcalm
      (Nat.lt_of_le_of_lt hsize other.maxFrameLen.toNat_lt) hahead hover
  refine ⟨after, ?_⟩
  rw [readAt, discard_bind, bind_apply, hseek]
  dsimp only
  rw [readNested, bind_apply, hlength]
  exact hpayload

private theorem readRoot_over (h : handle.stream.Calm) {before frame : Bytes}
    (hencode : encode other .root message = .ok frame)
    (hbytes : handle.stream.bytes = before ++ frame)
    (hover : codec.maxFrameLen.toNat < Message.encodedLen message) :
    ∃ after, (readRoot codec : FrameIO α) handle =
      .error (codec.refusal (Message.encodedLen message)) after := by
  obtain ⟨hsize, rfl⟩ := encode_ok hencode
  rw [LawfulMessage.length_encode] at hsize hbytes
  have hshort := Nat.lt_of_le_of_lt hsize other.maxFrameLen.toNat_lt
  obtain ⟨start, hseek, hcalm, hahead⟩ :=
    seekRoot_ok h hshort (LawfulMessage.length_encode message) hbytes
  rw [List.append_assoc] at hahead
  obtain ⟨after, hlength, hpayload⟩ := readNested_over (α := α) hcalm hshort hahead hover
  refine ⟨after, ?_⟩
  rw [readRoot_of_trailer codec hseek hlength]
  exact hpayload

end Frame

section Sources

variable [LawfulMessage α] {source : Source} {content : Array UInt8} {position : Nat}

private theorem Source.frameAt_over (hidle : source.isReading = false)
    (hlength : content.toList.length < 2 ^ 64) (h : Frame.At other message content.toList position)
    (hover : source.codec.maxFrameLen.toNat < Message.encodedLen message) :
    (source.frameAt content position.toUInt64.toNat : Except Error α) =
      .error (source.codec.refusal (Message.encodedLen message)) := by
  have hposition : position.toUInt64.toNat = position :=
    UInt64.toNat_ofNat_of_lt' (Nat.lt_trans h.position_lt hlength)
  have hcalm : (Handle.stream { stream := { content } }).Calm := Stream.calm_mk content []
  obtain ⟨after, hread⟩ := Frame.readAt_over hcalm h hover
  rw [hposition, Source.frameAt, Source.outcome, hidle, if_neg Bool.false_ne_true, hread]
  rfl

end Sources

namespace Block

/-- The lengths of the payloads of an entry, in the order in which they are read. -/
def payloads (block : Block) : List Nat :=
  Message.encodedLen block.header :: Message.encodedLen block.content.identification ::
    block.content.secretIdentity.toList.map Message.encodedLen

/-- The lengths of the payloads of a document, in the order in which they are read. -/
def allPayloads (blocks : List Block) : List Nat :=
  Message.encodedLen (rootHeader blocks) :: blocks.flatMap payloads

variable {block : Block} {bytes : Bytes}

private theorem Stands.payloads_le (h : block.Stands codec bytes) :
    ∀ length ∈ block.payloads, length ≤ codec.maxFrameLen.toNat := by
  have hsize {α : Type} [Message α] {message : α} {position : Nat}
    (hframe : Frame.At codec message bytes position) :
      Message.encodedLen message ≤ codec.maxFrameLen.toNat := by
    obtain ⟨frame, rest, hencode, -⟩ := hframe
    exact Frame.encodedLen_le hencode
  rw [payloads]
  simp only [List.forall_mem_cons, List.forall_mem_map, Option.mem_toList]
  exact ⟨hsize h.header, hsize h.identification,
    fun secret heq => hsize (h.secretIdentity secret heq)⟩

private theorem Stands.within (h : block.Stands other bytes)
    (hsizes : codec.firstOver block.payloads = none) :
    block.Stands codec bytes := by
  rw [Codec.firstOver_eq_none, payloads] at hsizes
  simp only [List.forall_mem_cons] at hsizes
  obtain ⟨hheader, hidentification, hsecret⟩ := hsizes
  refine ⟨h.header.within hheader, h.identification.within hidentification, fun secret heq => ?_⟩
  refine (h.secretIdentity secret heq).within (hsecret _ ?_)
  rw [heq]
  exact List.mem_singleton_self _

private theorem header_secretIdentity {secret : IdentityHeader}
    (h : block.content.secretIdentity = some secret) :
    block.header.secretIdentity = some block.secretIdentity.toUInt64 := by
  rw [header, EntryContent.header, h]
  rfl

section Stored

variable {library : Library} {source : Source} {content : Array UInt8}
  (hcontent : source.content? library = some content) (hidle : source.isReading = false)
  (hlength : content.toList.length < 2 ^ 64)

include hcontent hidle hlength

private theorem Stands.broken (h : block.Stands other content.toList)
    (hover : source.codec.firstOver block.payloads = some length) (stamp : Stamp) (i : Nat) :
    Document.BrokenEntry library (source.codec.refusal length) stamp i
      (.stored source block.entry.toUInt64) := by
  have hsettles := Document.settles_stored hcontent stamp i block.entry.toUInt64
  rw [payloads] at hover
  by_cases hheader : source.codec.maxFrameLen.toNat < Message.encodedLen block.header
  · rw [Codec.firstOver_cons_of_lt hheader] at hover
    cases hover
    rw [Source.frameAt_over hidle hlength h.header hheader] at hsettles
    exact .header hsettles
  rw [Codec.firstOver_cons_of_le (Nat.le_of_not_lt hheader)] at hover
  rw [Source.frameAt_toUInt64 hidle hlength
    (h.header.within (Nat.le_of_not_lt hheader))] at hsettles
  refine .below ⟨_, hsettles, ?_⟩
  by_cases hidentification :
    source.codec.maxFrameLen.toNat < Message.encodedLen block.content.identification
  · rw [Codec.firstOver_cons_of_lt hidentification] at hover
    cases hover
    exact .identification
      (Entry.broken_stored hcontent
        (Source.frameAt_over hidle hlength h.identification hidentification))
  rw [Codec.firstOver_cons_of_le (Nat.le_of_not_lt hidentification)] at hover
  have hshown := Source.frameAt_toUInt64 hidle hlength
    (h.identification.within (Nat.le_of_not_lt hidentification))
  refine .secretIdentity ⟨_, Entry.showsHeader_stored hcontent hshown⟩ ?_
  cases hsecret : block.content.secretIdentity with
  | none =>
    rw [hsecret] at hover
    cases hover
  | some secret =>
    rw [hsecret] at hover
    by_cases hsize : source.codec.maxFrameLen.toNat < Message.encodedLen secret
    · change source.codec.firstOver [_] = _ at hover
      rw [Codec.firstOver_cons_of_lt hsize] at hover
      cases hover
      refine ⟨.stored source block.secretIdentity.toUInt64, ?_,
        Entry.broken_stored hcontent
          (Source.frameAt_over hidle hlength (h.secretIdentity secret hsecret) hsize)⟩
      rw [Entry.ofHeader, header_secretIdentity hsecret]
      rfl
    · change source.codec.firstOver [_] = _ at hover
      rw [Codec.firstOver_cons_of_le (Nat.le_of_not_lt hsize)] at hover
      cases hover

private theorem Stands.shown (h : block.Stands other content.toList)
    (hsizes : source.codec.firstOver block.payloads = none) (stamp : Stamp) (i : Nat) :
    Document.ShowsEntry library stamp i (.stored source block.entry.toUInt64) block.content := by
  obtain ⟨header, hheader, hfound⟩ :=
    Source.hasContent_of_storedAt hidle hlength (h.within hsizes).storedAt
  exact Document.showsEntry_stored hcontent hheader hfound

private theorem brokenAt_of_stands {blocks : List Block}
    (h : ∀ block ∈ blocks, block.Stands other content.toList)
    (hover : source.codec.firstOver (blocks.flatMap payloads) = some length) (root : RootId) :
    ∃ i, (Document.ofHeader root source (rootHeader blocks)).BrokenAt library
      (source.codec.refusal length) i := by
  rw [Codec.firstOver, List.find?_flatMap, List.findSome?_eq_some_iff] at hover
  obtain ⟨earlier, block, later, rfl, hblock, hearlier⟩ := hover
  have hcell (j : Nat) :
    (Document.ofHeader root source (rootHeader (earlier ++ block :: later))).entries.get? j =
      (earlier ++ block :: later)[j]?.map fun block => .stored source block.entry.toUInt64 := by
    rw [Document.get?_ofHeader, rootHeader, List.getElem?_map, Option.map_map]
    rfl
  refine ⟨earlier.length, fun j hj => ?_, ?_⟩
  · rw [hcell, List.getElem?_append_left hj, List.getElem?_eq_getElem hj]
    have hmem := List.getElem_mem hj
    exact ⟨_, rfl, _, (h _ (List.mem_append_left _ hmem)).shown hcontent hidle hlength
      (hearlier _ hmem) _ j⟩
  · rw [hcell, List.getElem?_append_right (Nat.le_refl _), Nat.sub_self]
    refine ⟨_, rfl, ?_⟩
    exact (h block (List.mem_append_right _ List.mem_cons_self)).broken hcontent hidle hlength
      hblock _ _

end Stored
end Block

namespace Workspace

variable {workspace : Workspace} {blocks : List Block} {before body root : Bytes}

private theorem step_loadDocument_laidOut (h : LaidOut other before.length blocks body root)
    (hlength : (before ++ body ++ root).length < 2 ^ 64) (name : String) (codec : Codec)
    (workspace : Workspace) :
    (step (.loadDocument name (before ++ body ++ root) codec) workspace).1 =
      match codec.firstOver (Block.allPayloads blocks) with
      | none => .root ⟨workspace.roots.issued + 1⟩
      | some length => .failed (codec.refusal length) := by
  let source : Source := { backing := .copy (before ++ body ++ root).toArray, codec }
  have hcontent : source.content? (fun _ => none) = some (before ++ body ++ root).toArray := rfl
  have hholds := Streams.holds_none workspace.streams
  have hcalm : (Handle.stream { stream := { content := (before ++ body ++ root).toArray } }).Calm :=
    Stream.calm_mk _ []
  have hstands := Block.stands_of_tiles h.tiles root
  have hsettles : Settles (fun _ => none) (Document.readHeader source)
    (verdict (Frame.readRoot codec
      { stream := { content := (before ++ body ++ root).toArray } })) :=
    Source.settles_withHandle (Steady.readRoot codec) hcontent
  by_cases hroot : codec.maxFrameLen.toNat < Message.encodedLen (Block.rootHeader blocks)
  · obtain ⟨after, hread⟩ := Frame.readRoot_over hcalm h.root_eq rfl hroot
    rw [hread] at hsettles
    obtain ⟨streams, -, hopen⟩ := openSource_settled hsettles hholds
    rw [Block.allPayloads, Codec.firstOver_cons_of_lt hroot]
    exact step_loadDocument_unopened name hopen
  have hencode := Frame.encode_within h.root_eq (Nat.le_of_not_lt hroot)
  rw [Block.allPayloads, Codec.firstOver_cons_of_le (Nat.le_of_not_lt hroot)]
  cases hover : codec.firstOver (blocks.flatMap Block.payloads) with
  | none =>
    rw [Codec.firstOver_eq_none] at hover
    have hwithin (block : Block) (hblock : block ∈ blocks) :
      block.Stands codec (before ++ body ++ root) := by
      refine (hstands block hblock).within (Codec.firstOver_eq_none.2 fun length hlength => ?_)
      exact hover length (List.mem_flatMap.2 ⟨block, hblock, hlength⟩)
    have hstored : Document.StoredIn codec (blocks.map Block.content) (before ++ body ++ root) := by
      refine ⟨blocks.map Block.entry, before ++ body, root, rfl, ?_,
        Document.allStored_of_stands hwithin⟩
      rw [List.map_map]
      exact hencode
    obtain ⟨document, streams, hload, -, -⟩ := loadDocument_gives name hlength hstored hholds
    rw [step_fst, perform, bind_apply, hload]
    rfl
  | some length =>
    obtain ⟨after, hread⟩ := Frame.readRoot_ok hcalm hencode rfl
    rw [hread] at hsettles
    obtain ⟨streams, hfollows, hopen⟩ := openSource_settled hsettles hholds
    obtain ⟨i, hbroken⟩ :=
      Block.brokenAt_of_stands hcontent rfl hlength hstands hover ⟨workspace.roots.issued + 1⟩
    have hreply := Document.replies_loadAll _ streams hbroken hfollows.holds
    cases hload : Document.loadAll
      (Document.ofHeader ⟨workspace.roots.issued + 1⟩ source (Block.rootHeader blocks),
        streams) with
    | ok done state =>
      rw [hload] at hreply
      cases hreply
    | error error state =>
      rw [hload] at hreply
      cases hreply
      exact step_loadDocument_unloaded name hopen hload

/-- A document that was saved under one limit is loaded under another one if no payload of it is
over that: neither the root header nor, for each entry, its header, its identification and its
secret identity. Otherwise loading it fails at the first of these that is. No payload is over the
limit that the document was saved under, so that this one loads it. -/
theorem save_loads_within {ops : List Op} {name : String} {codec : Codec} {target : StreamId}
    {position size : Nat} {after : Workspace}
    (hsave : onDocument name (Document.save codec target position) (run ops {}).2 =
      .ok (some size) after)
    (hlength : (after.streams.get target).bytes.length < 2 ^ 64) :
    ∃ saved blocks body root,
      after.documents.find? name = some saved ∧ saved.Has (blocks.map Block.content) ∧
      (after.streams.get target).bytes = ((run ops {}).2.streams.get target).bytes ++ body ++ root ∧
      LaidOut codec ((run ops {}).2.streams.get target).bytes.length blocks body root ∧
      (∀ (reader : Codec) (copy : String) (workspace : Workspace),
        (step (.loadDocument copy (after.streams.get target).bytes reader) workspace).1 =
          match reader.firstOver (Block.allPayloads blocks) with
          | none => .root ⟨workspace.roots.issued + 1⟩
          | some length => .failed (.malformed (.frameTooLarge length reader.maxFrameLen.toNat))) ∧
      ∀ (reader : Codec) (copy : String) (workspace : Workspace),
        codec.maxFrameLen ≤ reader.maxFrameLen →
        (step (.loadDocument copy (after.streams.get target).bytes reader) workspace).1 =
          .root ⟨workspace.roots.issued + 1⟩ := by
  obtain ⟨document, saved, streams, hfound, hrun, rfl⟩ := onDocument_ok hsave
  have hintact : document.Intact := (sound_run ops sound_empty).document hfound
  obtain ⟨contents, written, hhas, rfl, -, hwrite⟩ := Document.save_writes hintact.occupied hrun
  obtain ⟨blocks, body, root, rfl, hbytes, htiles, hroot⟩ := Document.write_ok hwrite
  have hsaved : ((run ops {}).2.documents.set name saved).find? name = some saved := by
    rw [Table.find?_set_self]
  dsimp only at hlength ⊢
  rw [hbytes] at hlength ⊢
  have hlaid : LaidOut codec ((run ops {}).2.streams.get target).bytes.length blocks body root := by
    refine htiles.laidOut ?_ hroot
    simp only [List.length_append] at hlength
    omega
  have hloads := step_loadDocument_laidOut hlaid hlength
  refine ⟨saved, blocks, body, root, hsaved, hhas, rfl, hlaid,
    fun reader copy => hloads copy reader, ?_⟩
  intro reader copy workspace hlimit
  have hwider : codec.maxFrameLen.toNat ≤ reader.maxFrameLen.toNat :=
    UInt32.le_iff_toNat_le.1 hlimit
  have hnone : reader.firstOver (Block.allPayloads blocks) = none := by
    rw [Codec.firstOver_eq_none]
    intro length hlength
    refine Nat.le_trans ?_ hwider
    rcases List.mem_cons.1 hlength with rfl | hentries
    · exact Frame.encodedLen_le hlaid.root_eq
    · obtain ⟨block, hblock, hentry⟩ := List.mem_flatMap.1 hentries
      exact (Block.stands_of_tiles hlaid.tiles root block hblock).payloads_le length hentry
  rw [hloads, hnone]

/-- The name of eight bytes, with its key and length, is over a limit of seven. -/
theorem save_loads_within_seven :
    ∃ after blocks,
      onDocument "d" (Document.save {} .scratch 0)
        (run [.newDocument "d", .addEntry "d", .addEntry "d",
        .changeIdentity (.addedSecretIdentity (.inDocument "d" 1))
          (.setFirstName (some "somebody"))] {}).2 =
          .ok (some 28) after ∧
      (step (.loadDocument "copy" (after.streams.get .scratch).bytes {}) after).1 = .root ⟨2⟩ ∧
      (step (.loadDocument "copy" (after.streams.get .scratch).bytes { maxFrameLen := 7 })
        after).1 =
        .failed (.malformed (.frameTooLarge 10 7)) ∧
      ({ maxFrameLen := 7 } : Codec).firstOver (Block.allPayloads blocks) = some 10 := by
  have hsave := eq_ok_of_verdict
    (onDocument "d" (Document.save {} .scratch 0) (run [.newDocument "d", .addEntry "d",
    .addEntry "d", .changeIdentity (.addedSecretIdentity (.inDocument "d" 1))
      (.setFirstName (some "somebody"))] {}).2)
    (some 28) (by decide +kernel)
  obtain ⟨saved, blocks, body, root, -, -, -, -, hloads, hreads⟩ :=
    save_loads_within hsave (by decide +kernel)
  refine ⟨_, blocks, hsave, (hreads {} "copy" _ (UInt32.le_refl _)).trans (by decide +kernel),
    by decide +kernel, ?_⟩
  have hfails := (hloads { maxFrameLen := 7 } "copy" {}).symm.trans
    (by decide +kernel : _ = Answer.failed (.malformed (.frameTooLarge 10 7)))
  split at hfails
  · cases hfails
  case h_2 hover =>
    cases hfails
    exact hover

end Workspace
end FramedTree
