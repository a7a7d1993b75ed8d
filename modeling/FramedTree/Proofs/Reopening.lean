import FramedTree.Proofs.Saving

/-! # Documents read from bytes

The bytes of a source settle what is read from it: the root frame, which is found from the end,
leads to the entries, and these lead to their identities. From bytes that a document is stored in,
that document is read again, whatever stands before its frames.
-/

namespace FramedTree

variable {α : Type} {library : Library} {source : Source} {content : Array UInt8}

namespace Source

/-- The frames that an entry header leads to are there, and hold this content. -/
structure HasContent (source : Source) (content : Array UInt8) (header : EntryHeader)
    (found : EntryContent) :
    Prop where
  identification : source.frameAt content header.identification.toNat = .ok found.identification
  secretIdentity : Option.Rel
    (fun position secret => source.frameAt content position.toNat = .ok secret)
    header.secretIdentity found.secretIdentity
  approver : header.approver.map Path.ofDescriptor = found.approver
  reviewers : header.reviewers.map Path.ofDescriptor = found.reviewers

/-- Positions below 2^64 are not cut when they are written into a header. -/
theorem frameAt_toUInt64 [Message α] [LawfulMessage α] (hidle : source.isReading = false)
    (hlength : content.toList.length < 2 ^ 64) {position : Nat} {value : α}
    (h : Frame.At source.codec value content.toList position) :
    source.frameAt content position.toUInt64.toNat = .ok value := by
  have hposition : position.toUInt64.toNat = position :=
    UInt64.toNat_ofNat_of_lt' (Nat.lt_trans h.position_lt hlength)
  rw [hposition]
  exact frameAt_ok hidle h

theorem hasContent_of_storedAt (hidle : source.isReading = false)
    (hlength : content.toList.length < 2 ^ 64) {found : EntryContent} {position : Nat}
    (h : found.StoredAt source.codec content.toList position) :
    ∃ header, source.frameAt content position.toUInt64.toNat = .ok header ∧
      source.HasContent content header found := by
  obtain ⟨identification, secretIdentity, hheader, hidentification, hsecret⟩ := h
  refine ⟨_, frameAt_toUInt64 hidle hlength hheader, frameAt_toUInt64 hidle hlength hidentification,
    ?_, ?_, ?_⟩
  · rw [EntryContent.header]
    generalize found.secretIdentity = secret at hsecret ⊢
    cases hsecret with
    | none => exact .none
    | some hframe => exact .some (frameAt_toUInt64 hidle hlength hframe)
  · rw [EntryContent.header, Option.map_map]
    exact Option.map_id'
  · rw [EntryContent.header, List.map_map]
    exact List.map_id' _

end Source

namespace Entry

theorem settles_stored (hcontent : source.content? library = some content) (stamp : Stamp)
    (field : UInt32) (position : UInt64) :
    Settles library ((Lazy.stored source position).fetch (loadIdentity stamp field))
      ((source.frameAt content position.toNat).map
        fun header => { stamp := stamp.child field 0, header }) :=
  Settles.bind_pure _ (Origin.settles_read hcontent)

theorem showsHeader_stored (hcontent : source.content? library = some content) {stamp : Stamp}
    {field : UInt32} {position : UInt64} {header : IdentityHeader}
    (h : source.frameAt content position.toNat = .ok header) :
    (Lazy.stored source position).ShowsHeader library stamp field header := by
  have hsettles := settles_stored hcontent stamp field position
  rw [h] at hsettles
  exact ⟨_, hsettles, rfl⟩

private theorem shows_ofHeader (hcontent : source.content? library = some content) {stamp : Stamp}
    {header : EntryHeader} {found : EntryContent} (h : source.HasContent content header found) :
    (ofHeader stamp source header).Shows library found := by
  refine ⟨showsHeader_stored hcontent h.identification, ?_, ?_, ?_⟩
  · have hsecret := h.secretIdentity
    rw [ofHeader]
    generalize header.secretIdentity = position at hsecret ⊢
    generalize found.secretIdentity = secret at hsecret ⊢
    cases hsecret with
    | none => exact .none
    | some hframe => exact .some (showsHeader_stored hcontent hframe)
  · rw [ofHeader, Option.map_map]
    exact h.approver
  · rw [ofHeader, List.map_map]
    exact h.reviewers

end Entry

namespace Document

theorem settles_stored (hcontent : source.content? library = some content) (stamp : Stamp) (i : Nat)
    (position : UInt64) :
    Settles library ((Lazy.stored source position).fetch (loadEntry stamp i))
      ((source.frameAt content position.toNat).map (Entry.ofHeader (entryStamp stamp i) source)) :=
  Settles.bind_pure _ (Origin.settles_read hcontent)

theorem showsEntry_stored (hcontent : source.content? library = some content) {stamp : Stamp}
    {i : Nat} {position : UInt64} {header : EntryHeader} {found : EntryContent}
    (hheader : source.frameAt content position.toNat = .ok header)
    (h : source.HasContent content header found) :
    ShowsEntry library stamp i (.stored source position) found := by
  have hsettles := settles_stored hcontent stamp i position
  rw [hheader] at hsettles
  exact ⟨_, hsettles, Entry.shows_ofHeader hcontent h⟩

theorem get?_ofHeader (root : RootId) (source : Source) (header : DocumentHeader) (i : Nat) :
    (ofHeader root source header).entries.get? i = header.entries[i]?.map (Lazy.stored source) := by
  simp only [ofHeader, Slots.get?_ofCells, List.getElem?_map]
  cases header.entries[i]? <;> rfl

/-- A document shows what stands at the positions that its header gives. -/
theorem shows_ofHeader (hcontent : source.content? library = some content) (root : RootId)
    {positions : List UInt64} {contents : List EntryContent}
    (h : List.Forall₂ (fun found position => ∃ header,
      source.frameAt content position.toNat = .ok header ∧
      source.HasContent content header found) contents positions) :
    (ofHeader root source ⟨positions⟩).Shows library contents := by
  refine ⟨?_, fun i => ?_⟩
  · rw [ofHeader, Slots.size_ofCells, List.length_map, h.length_eq]
  · rw [get?_ofHeader]
    -- The number of the entry matters only for its stamp, so that the lists can be taken apart.
    generalize hstamp : (ofHeader root source ⟨positions⟩).stamp = stamp
    clear hstamp
    suffices hcells : ∀ j, Option.Rel (ShowsEntry library stamp j)
      (positions[i]?.map (Lazy.stored source))
        contents[i]? from hcells i
    intro j
    induction h generalizing i with
    | nil => exact .none
    | cons hfirst _ ih =>
      cases i with
      | zero =>
        obtain ⟨header, hheader, hfound⟩ := hfirst
        exact .some (showsEntry_stored hcontent hheader hfound)
      | succ i => exact ih i

/-- The header of a document that is stored in the bytes is found from their end. -/
theorem settles_readHeader (hidle : source.isReading = false)
    (hcontent : source.content? library = some content) {contents : List EntryContent}
    (h : StoredIn source.codec contents content.toList) :
    ∃ positions : List Nat, AllStored source.codec content.toList contents positions ∧
      Settles library (readHeader source) (.ok ⟨positions.map Nat.toUInt64⟩) := by
  obtain ⟨positions, before, frame, hbytes, hencode, hstored⟩ := h
  have hcalm : (Handle.stream { stream := { content } }).Calm := Stream.calm_mk content []
  obtain ⟨after, hread⟩ := Frame.readRoot_ok hcalm hencode hbytes
  have hsettles :=
    Source.settles_withHandle (Steady.readRoot (α := DocumentHeader) source.codec) hcontent
  rw [Source.outcome, hidle, if_neg Bool.false_ne_true, hread] at hsettles
  exact ⟨positions, hstored, hsettles⟩

end Document
end FramedTree
