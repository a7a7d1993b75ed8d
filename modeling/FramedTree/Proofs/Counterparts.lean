import FramedTree.Proofs.RelationalRules
import FramedTree.Proofs.SourceReads
import FramedTree.Proofs.TreeGrowth

/-! # Counterparts

Two trees are counterparts if they hold the same, be it loaded or not, and whatever cannot be loaded
fails in the same way in both. Their root numbers may differ by a fixed amount. Work on counterparts
gives the same, and leaves counterparts.
-/

namespace FramedTree

/-- Root numbers that are given out in two worlds, counted from `first` in one and from `second` in
the other. -/
structure Renumbering where
  first : Nat
  second : Nat

variable {α β : Type} {r : Renumbering} {E : Error → Error → Prop}

def RootId.Pairs (r : Renumbering) (root root' : RootId) : Prop :=
  root.number + r.second = root'.number + r.first

theorem RootId.Pairs.eq_iff {root root' other other' : RootId} (h : root.Pairs r root')
    (hother : other.Pairs r other') : root = other ↔ root' = other' := by
  obtain ⟨number⟩ := root
  obtain ⟨number'⟩ := root'
  obtain ⟨otherNumber⟩ := other
  obtain ⟨otherNumber'⟩ := other'
  simp only [RootId.Pairs, RootId.mk.injEq] at h hother ⊢
  omega

structure Stamp.Pairs (r : Renumbering) (stamp stamp' : Stamp) : Prop where
  root : stamp.root.Pairs r stamp'.root
  path_eq : stamp'.path = stamp.path

theorem Stamp.Pairs.child {stamp stamp' : Stamp} (h : stamp.Pairs r stamp') (field : UInt32)
    (index : UInt64) : (stamp.child field index).Pairs r (stamp'.child field index) := by
  refine ⟨h.root, ?_⟩
  simp only [Stamp.child, h.path_eq]

structure NodeRef.Pairs (r : Renumbering) (ref ref' : NodeRef) : Prop where
  root : ref.root.Pairs r ref'.root
  path_eq : ref'.path = ref.path

theorem Stamp.Pairs.toRef {stamp stamp' : Stamp} (h : stamp.Pairs r stamp') :
    stamp.toRef.Pairs r stamp'.toRef := ⟨h.root, h.path_eq⟩

theorem NodeRef.Pairs.eq_iff {ref ref' other other' : NodeRef} (h : ref.Pairs r ref')
    (hother : other.Pairs r other') : ref = other ↔ ref' = other' := by
  have hroot := h.root.eq_iff hother.root
  have hpath := h.path_eq
  have hpath' := hother.path_eq
  obtain ⟨root, path⟩ := ref
  obtain ⟨root', path'⟩ := ref'
  obtain ⟨otherRoot, otherPath⟩ := other
  obtain ⟨otherRoot', otherPath'⟩ := other'
  simp only [NodeRef.mk.injEq] at hroot hpath hpath' ⊢
  rw [hroot, hpath, hpath']

theorem NodeRef.pairs_ofDescriptor {root root' : RootId} (h : root.Pairs r root')
    (descriptor : Descriptor) :
    (NodeRef.ofDescriptor root descriptor).Pairs r (NodeRef.ofDescriptor root' descriptor) :=
      ⟨h, rfl⟩

/-- The same failure, or one about corresponding roots. -/
inductive Error.Pairs (r : Renumbering) : Error → Error → Prop where
  | refl (error : Error) : Error.Pairs r error error
  | ownership {expected expected' found found' : RootId} (hexpected : expected.Pairs r expected')
      (hfound : found.Pairs r found') :
      Error.Pairs r (.ownership expected found) (.ownership expected' found')

instance : Std.Refl (Error.Pairs r) := ⟨Error.Pairs.refl⟩

structure Identity.Pairs (r : Renumbering) (identity identity' : Identity) : Prop where
  stamp : identity.stamp.Pairs r identity'.stamp
  header_eq : identity'.header = identity.header

/-- How two worlds correspond: both know the bytes of the same streams, and roots are renumbered. -/
structure Pairing extends Renumbering where
  library : Library
  scratch : library .scratch = none
  named : ∀ name edition, ∃ content, library (.named name edition) = some content

instance : Coe Pairing Renumbering := ⟨Pairing.toRenumbering⟩

variable {k : Pairing}

/-- Streams that hold the same bytes and names. -/
structure Streams.Pairs (k : Pairing) (streams streams' : Streams) : Prop where
  holds : streams.Holds k.library
  holds' : streams'.Holds k.library
  editions_eq : streams'.editions = streams.editions
  scratch_eq : streams'.scratch = streams.scratch

theorem Streams.Pairs.follows {streams streams' after after' : Streams}
    (h : streams.Pairs k streams') (hafter : Streams.Follows k.library streams after)
    (hafter' : Streams.Follows k.library streams' after') :
    after.Pairs k after' := by
  have hscratch : after.scratch = streams.scratch := hafter.other .scratch k.scratch
  have hscratch' : after'.scratch = streams'.scratch := hafter'.other .scratch k.scratch
  refine ⟨hafter.holds, hafter'.holds, ?_, ?_⟩
  · rw [hafter.editions_eq, hafter'.editions_eq, h.editions_eq]
  · rw [hscratch, hscratch', h.scratch_eq]

/-- Loads that are settled alike mirror each other. -/
theorem Settles.mirrors [Std.Refl E] {V : α → β → Prop} {load : Load α} {load' : Load β}
    {result : Except Error α} {result' : Except Error β} (h : Settles k.library load result)
    (h' : Settles k.library load' result') (hresult : Attempts Eq V result result') :
    Mirrors E (Streams.Pairs k) V load load' := by
  intro streams streams' hstreams
  obtain ⟨after, hrun, hafter⟩ := h streams hstreams.holds
  obtain ⟨after', hrun', hafter'⟩ := h' streams' hstreams.holds'
  have hpairs := hstreams.follows hafter hafter'
  rw [hrun, hrun']
  cases hresult with
  | ok hvalue => exact .ok hvalue hpairs
  | error herror =>
    subst herror
    exact .error (Std.Refl.refl _) hpairs

/-- Cells whose values, loaded or not, are counterparts, or which both fail to load. -/
def Lazy.Pairs (k : Pairing) (load load' : Option Origin → Load α) (V : α → α → Prop)
    (cell cell' : Lazy α) : Prop :=
  ∃ result result', Settles k.library (cell.fetch load) result ∧
    Settles k.library (cell'.fetch load') result' ∧ Attempts Eq V result result'

theorem Lazy.pairs_of_peek {load load' : Option Origin → Load α} {V : α → α → Prop}
    (cell cell' : Lazy α) (value value' : α) (hpeek : cell.peek = some value)
    (hpeek' : cell'.peek = some value') (hvalue : V value value') :
    cell.Pairs k load load' V cell' := by
  refine ⟨.ok value, .ok value', ?_, ?_, .ok hvalue⟩
  · rw [Lazy.fetch_of_peek hpeek]
    exact Settles.pure value
  · rw [Lazy.fetch_of_peek hpeek']
    exact Settles.pure value'

/-- Work on nodes among streams. -/
abbrev Echoes (k : Pairing) (E : Error → Error → Prop) {ν : Type} (V : ν → ν → Prop)
    (A : α → β → Prop) (access : Access Streams ν α) (access' : Access Streams ν β) : Prop :=
  Mirrors E (Both V (Streams.Pairs k)) A access access'

theorem Echoes.opens [Std.Refl E] {ν : Type} {load load' : Option Origin → Load ν}
    {V : ν → ν → Prop} {A : α → β → Prop} {inner : Access Streams ν α} {inner' : Access Streams ν β}
    {access : Access Streams (Lazy ν) α} {access' : Access Streams (Lazy ν) β}
    (hopens : Lazy.Opens load inner access) (hopens' : Lazy.Opens load' inner' access')
    (h : Echoes k E V A inner inner') :
    Echoes k E (Lazy.Pairs k load load' V) A access access' := by
  refine Mirrors.opens hopens hopens' ?_ Lazy.pairs_of_peek h
  rintro cell cell' ⟨result, result', hsettles, hsettles', hresult⟩
  exact Settles.mirrors hsettles hsettles' hresult

/-- Sources that read the same bytes in the same way. -/
structure Source.Pairs (k : Pairing) (source source' : Source) : Prop where
  content : ∃ content, source.content? k.library = some content ∧
    source'.content? k.library = some content
  codec_eq : source'.codec = source.codec
  isReading_eq : source'.isReading = source.isReading

theorem Source.Pairs.settles {source source' : Source} (h : source.Pairs k source')
    {activity : Codec → FrameIO α} (hactivity : ∀ codec, Steady (activity codec)) :
    ∃ result, Settles k.library (source.withHandle (activity source.codec)) result ∧
      Settles k.library (source'.withHandle (activity source'.codec)) result := by
  obtain ⟨content, hcontent, hcontent'⟩ := h.content
  have hsame : source'.outcome content (activity source'.codec) =
      source.outcome content (activity source.codec) := by
    rw [Source.outcome, Source.outcome, h.codec_eq, h.isReading_eq]
  refine ⟨_, Source.settles_withHandle (hactivity _) hcontent, ?_⟩
  rw [← hsame]
  exact Source.settles_withHandle (hactivity _) hcontent'

private theorem Source.Pairs.stored {η : Type} [Message η] {source source' : Source}
    (h : source.Pairs k source') (position : UInt64) {V : α → α → Prop}
    {load load' : Option Origin → Load α} {make make' : η → α}
    (hload : load (some ⟨source, position⟩) = do return make (← Origin.read ⟨source, position⟩))
    (hload' : load' (some ⟨source', position⟩) =
      do return make' (← Origin.read ⟨source', position⟩))
    (hmake : ∀ value, V (make value) (make' value)) :
    (Lazy.stored source position).Pairs k load load' V (Lazy.stored source' position) := by
  obtain ⟨result, hsettles, hsettles'⟩ :=
    h.settles (fun codec => Steady.readAt (α := η) codec position.toNat)
  refine ⟨result.map make, result.map make', ?_, ?_, ?_⟩
  · change Settles k.library (load (some ⟨source, position⟩)) _
    rw [hload]
    exact Settles.bind_pure make hsettles
  · change Settles k.library (load' (some ⟨source', position⟩)) _
    rw [hload']
    exact Settles.bind_pure make' hsettles'
  · cases result with
    | ok value => exact .ok (hmake value)
    | error error => exact .error rfl

namespace Entry

abbrev IdentityPairs (k : Pairing) (stamp stamp' : Stamp) (field : UInt32) :
    Lazy Identity → Lazy Identity → Prop :=
  Lazy.Pairs k (loadIdentity stamp field) (loadIdentity stamp' field) (Identity.Pairs k)

structure Pairs (k : Pairing) (entry entry' : Entry) : Prop where
  stamp : entry.stamp.Pairs k entry'.stamp
  identification : IdentityPairs k entry.stamp entry'.stamp identificationField entry.identification
    entry'.identification
  secretIdentity : Option.Rel (IdentityPairs k entry.stamp entry'.stamp secretIdentityField)
    (entry.secretIdentity.get? singular) (entry'.secretIdentity.get? singular)
  approver : Option.Rel (NodeRef.Pairs k) entry.approver entry'.approver
  reviewers : List.Forall₂ (NodeRef.Pairs k) entry.reviewers entry'.reviewers

private theorem identityPairs_stored {source source' : Source} (h : source.Pairs k source')
    {stamp stamp' : Stamp} (hstamp : stamp.Pairs k stamp') (field : UInt32) (position : UInt64) :
    IdentityPairs k stamp stamp' field (.stored source position) (.stored source' position) :=
  h.stored position rfl rfl fun _ => ⟨hstamp.child field 0, rfl⟩

private theorem pairs_ofHeader {source source' : Source} (h : source.Pairs k source')
    {stamp stamp' : Stamp} (hstamp : stamp.Pairs k stamp') (header : EntryHeader) :
    (ofHeader stamp source header).Pairs k (ofHeader stamp' source' header) := by
  refine ⟨hstamp, identityPairs_stored h hstamp _ _, ?_, ?_, ?_⟩
  · rw [ofHeader, ofHeader]
    cases header.secretIdentity with
    | none => exact .none
    | some position => exact .some (identityPairs_stored h hstamp _ _)
  · rw [ofHeader, ofHeader]
    cases header.approver with
    | none => exact .none
    | some descriptor => exact .some (NodeRef.pairs_ofDescriptor hstamp.root descriptor)
  · rw [ofHeader, ofHeader, List.forall₂_map_left_iff, List.forall₂_map_right_iff]
    exact List.forall₂_same.2 fun descriptor _ => NodeRef.pairs_ofDescriptor hstamp.root descriptor

theorem pairs_mk {stamp stamp' : Stamp} (h : stamp.Pairs k stamp') :
    Pairs k { stamp } { stamp := stamp' } := by
  refine ⟨h, ?_, .none, .none, .nil⟩
  exact ⟨.ok _, .ok _, Settles.pure _, Settles.pure _, .ok ⟨h.child identificationField 0, rfl⟩⟩

end Entry

namespace Document

abbrev EntryPairs (k : Pairing) (stamp stamp' : Stamp) (i : Nat) : Lazy Entry → Lazy Entry → Prop :=
  Lazy.Pairs k (loadEntry stamp i) (loadEntry stamp' i) (Entry.Pairs k)

structure Pairs (k : Pairing) (document document' : Document) : Prop where
  stamp : document.stamp.Pairs k document'.stamp
  entries : Slots.Pointwise
    (EntryPairs k document.stamp document'.stamp) document.entries document'.entries

theorem pairs_ofHeader {source source' : Source} (h : source.Pairs k source') {root root' : RootId}
    (hroot : root.Pairs k root') (header : DocumentHeader) :
    (ofHeader root source header).Pairs k (ofHeader root' source' header) := by
  have hstamp : Stamp.Pairs k { root } { root := root' } := ⟨hroot, rfl⟩
  refine ⟨hstamp, ?_, fun i => ?_⟩
  · simp only [ofHeader, Slots.size_ofCells, List.length_map]
  · simp only [ofHeader, Slots.get?_ofCells, List.getElem?_map]
    cases header.entries[i]? with
    | none => exact .none
    | some position =>
      refine .some (h.stored position rfl rfl fun header => ?_)
      exact Entry.pairs_ofHeader h (hstamp.child entriesField i.toUInt64) header

theorem pairs_empty {root root' : RootId} (h : root.Pairs k root') :
    (empty root).Pairs k (empty root') :=
  ⟨⟨h, rfl⟩, ⟨rfl, fun _ => .none⟩⟩

end Document
end FramedTree
