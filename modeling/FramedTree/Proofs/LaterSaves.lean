import FramedTree.Proofs.Unchanged

/-! # What a later save gives

Two saves without faults go side by side while the streams they read hold the same as far as they
are read. A document and what a failed save has made of it do so in all streams that still hold what
the failed save left. A document and itself do so before and after the failed save; only a frame
that was cut off by the end of the sink may have been completed by what was appended there.
-/

namespace FramedTree

variable {ν α β : Type} {target : StreamId} {output output' other other' : Output}

/-- Two saves without faults that write the same. The first fails alone only for want of something
lost. -/
def Escort.retaining (accord : Accord target) (Lost : Error → Prop) : Escort Output where
  Beside output other := Output.Level accord output other ∧ output.streams.still = output.streams
  Failed output other := output.target = target ∧ other.target = target ∧ other.bytes = output.bytes
  Parted error _ _ := Lost error
  Onward _ _ := True
  onward := { refl := fun _ => trivial, trans := fun _ _ _ _ _ => trivial }
  parted hparted _ := hparted

section Carries

variable {accord : Accord target} {Lost : Error → Prop}

namespace Output.Level

variable (h : Level accord output other) (hstill : output.streams.still = output.streams)
include h

private theorem failed (hrests : Rests output output') (hrests' : Rests other other') :
    (Escort.retaining accord Lost).Failed output' other' := by
  refine ⟨hrests.target_eq.trans h.target_eq, hrests'.target_eq.trans h.other_eq, ?_⟩
  rw [hrests'.bytes_eq, hrests.bytes_eq, h.bytes_eq]

include hstill

private theorem retaining_reading {V : α → α → Prop} {first second : Load α}
    (hsame : Keeps Streams.SameBytes first) (hsame' : Keeps Streams.SameBytes second)
    (hfirst : Withstands Streams.still first) (hsecond : Withstands Streams.still second)
    (hattempts : Attempts Eq V (verdict (first output.streams)) (verdict (second other.streams))) :
    (Escort.retaining accord Lost).Ends V (reading first output) (reading second other) := by
  have hrests : output.Rests { output with streams := stateAfter (first output.streams) } :=
    ⟨rfl, rfl, rfl, hsame output.streams⟩
  have hrests' : other.Rests { other with streams := stateAfter (second other.streams) } :=
    ⟨rfl, rfl, rfl, hsame' other.streams⟩
  rw [reading, reading]
  generalize hrun : first output.streams = result at hattempts hrests ⊢
  generalize hrun' : second other.streams = result' at hattempts hrests' ⊢
  cases result with
  | ok value after =>
    cases result' with
    | error error after' => cases hattempts
    | ok value' after' =>
      cases hattempts with
      | ok hvalue =>
        have hlevel := h.rests hrests hrests' (hsecond.still_after h.still_eq hrun')
        exact .ok hvalue ⟨hlevel, hfirst.still_after hstill hrun⟩
  | error error after =>
    cases result' with
    | ok value' after' => cases hattempts
    | error error' after' =>
      cases hattempts with
      | error herror =>
        subst herror
        exact .error (h.failed hrests hrests')

private theorem retaining_write [Message α] (kind : FrameKind) (header : α) :
    (Escort.retaining accord Lost).Ends Eq (emit (Sink.write kind header) output)
      (emit (Sink.write kind header) other) := by
  have hwrite := emit_write_still kind header hstill
  have hwrite' := emit_write_still kind header h.still_eq
  rw [h.sink_eq] at hwrite'
  cases hencode : Frame.encode output.sink.codec kind header with
  | error error =>
    rw [hencode] at hwrite hwrite'
    obtain ⟨output', hwrite, hrests⟩ := hwrite
    obtain ⟨other', hwrite', hrests'⟩ := hwrite'
    rw [hwrite, hwrite']
    exact .error (h.failed hrests hrests')
  | ok frame =>
    rw [hencode] at hwrite hwrite'
    obtain ⟨position, output', hwrite, hafter⟩ := hwrite
    obtain ⟨position', other', hwrite', hafter'⟩ := hwrite'
    obtain ⟨rfl, added, hadded, hadds⟩ := emit_write_adds h.ready hwrite
    obtain ⟨rfl, added', hadded', hadds'⟩ := emit_write_adds h.ready' hwrite'
    rw [h.sink_eq, hadded] at hadded'
    cases hadded'
    rw [hwrite, hwrite']
    exact .ok (congrArg List.length h.bytes_eq).symm ⟨h.adds hadds hadds' hafter', hafter⟩

private theorem retaining_close :
    (Escort.retaining accord Lost).Ends Eq (emit Sink.close output) (emit Sink.close other) := by
  have hrests := rests_close output
  have hrests' := rests_close other
  obtain ⟨size, output', hclose, hafter⟩ := emit_close_still hstill
  obtain ⟨size', other', hclose', hafter'⟩ := emit_close_still h.still_eq
  rw [hclose] at hrests ⊢
  rw [hclose'] at hrests' ⊢
  refine .ok ?_ ⟨h.rests hrests hrests' hafter', hafter⟩
  rw [emit_close_ok hclose, emit_close_ok hclose', h.sink_eq]

end Output.Level

private theorem Escort.carries_retaining (accord : Accord target) (Lost : Error → Prop) :
    (Escort.retaining accord Lost).Carries where
  read _ _ := trivial
  write kind header :=
    ⟨fun _ _ hbeside => hbeside.1.retaining_write hbeside.2 kind header, fun _ => trivial⟩
  close := ⟨fun _ _ hbeside => hbeside.1.retaining_close hbeside.2, fun _ => trivial⟩

end Carries

namespace Document

/-- Two saves have come to the same end, and have left the same bytes. -/
structure SavedAlike (target : StreamId)
    (first second : EStateM.Result Error (Document × Streams) Nat) : Prop where
  verdict_eq : verdict second = verdict first
  bytes_eq : ((stateAfter second).2.get target).bytes = ((stateAfter first).2.get target).bytes

section Ends

variable {accord : Accord target} {Lost : Error → Prop} {codec : Codec} {position : Nat}
  {document later : Document} {streams streams' : Streams}

private theorem Beside.saves (h : document.Beside (Escort.retaining accord Lost) later)
    (hstill : streams.still = streams) (hstill' : streams'.still = streams')
    (halike : ∀ id, accord.Alike id (streams.get id).content (streams'.get id).content) :
    SavedAlike target (save codec target position (document, streams))
      (save codec target position (later, streams')) ∨
      ∃ error, verdict (save codec target position (document, streams)) = .error error ∧
        Lost error := by
  obtain ⟨sink, handle, hsink, hfree₁⟩ :=
    @atEnd_free codec ⟨streams.get target, position⟩ (Streams.faults_of_still hstill target)
  obtain ⟨sink', handle', hsink', hfree₂⟩ :=
    @atEnd_free codec ⟨streams'.get target, position⟩ (Streams.faults_of_still hstill' target)
  obtain ⟨rfl, hend, hcontent⟩ := atEnd_ok hsink
  obtain ⟨rfl, hend', hcontent'⟩ := atEnd_ok hsink'
  have hlevel := Output.level_atEnd codec hend hcontent hend' hcontent' hstill' hfree₂ halike
  have hends :=
    (escorts_saveAll (Escort.carries_retaining accord Lost)).ends (document, _) (later, _)
    ⟨h, hlevel, Streams.still_set_free hstill hfree₁⟩
  have hbytes {output other : Output} (htarget : output.target = target)
    (htarget' : other.target = target)
      (hsame : other.bytes = output.bytes) :
        (other.streams.get target).bytes = (output.streams.get target).bytes := by
    rwa [Output.bytes, Output.bytes, htarget, htarget'] at hsame
  rw [save_apply, save_apply, hsink, hsink']
  dsimp only at hends ⊢
  generalize saveAll (document, _) = result at hends ⊢
  generalize saveAll (later, _) = result' at hends ⊢
  cases hends with
  | ok hvalue hafter =>
    obtain ⟨hlevel, -⟩ := hafter.2
    exact .inl ⟨congrArg Except.ok hvalue.symm,
      hbytes hlevel.target_eq hlevel.other_eq hlevel.bytes_eq⟩
  | error hafter =>
    obtain ⟨htarget, htarget', hsame⟩ := hafter
    exact .inl ⟨rfl, hbytes htarget htarget' hsame⟩
  | parted hlost => exact .inr ⟨_, rfl, hlost⟩

end Ends
end Document

/-- A loader that changes no bytes. Without faults, the bytes settle what it gives. -/
structure Steadfast (load : Option Origin → Load ν) : Prop where
  sameBytes : ∀ origin, Keeps Streams.SameBytes (load origin)
  withstands : ∀ origin, Withstands Streams.still (load origin)
  settled : ∀ origin (streams streams' : Streams),
    streams.still = streams → streams'.still = streams' →
    streams.SameBytes streams' → verdict (load origin streams') = verdict (load origin streams)

private theorem Origin.verdict_read_sameBytes [Message α] {origin : Origin}
    {streams streams' : Streams} (h : streams.still = streams) (h' : streams'.still = streams')
    (hsame : streams.SameBytes streams') :
    verdict (origin.read streams' : EStateM.Result _ _ α) =
      verdict (origin.read streams : EStateM.Result _ _ α) := by
  have hcontent : origin.source.contentIn streams' = origin.source.contentIn streams := by
    unfold Source.contentIn
    cases origin.source.backing with
    | copy => rfl
    | stream id => exact hsame id
  rw [Origin.verdict_read h, Origin.verdict_read h', hcontent]

namespace Steadfast

private theorem of_read {η : Type} [Message η] {load : Option Origin → Load ν}
    {make : Origin → η → ν} {first : ν}
    (hload : ∀ origin, load (some origin) = do return make origin (← origin.read))
    (hnone : load none = pure first) (hsame : ∀ origin, Keeps Streams.SameBytes (load origin))
    (hstill : ∀ origin, Withstands Streams.still (load origin)) :
    Steadfast load := by
  refine ⟨hsame, hstill, fun origin streams streams' h h' hbytes => ?_⟩
  cases origin with
  | none =>
    rw [hnone]
    rfl
  | some origin =>
    have hverdict := @Origin.verdict_read_sameBytes η _ origin streams streams' h h' hbytes
    rw [hload, bind_pure_comp, verdict_map, verdict_map, hverdict]

private theorem loadIdentity (stamp : Stamp) (field : UInt32) :
    Steadfast (Entry.loadIdentity stamp field) :=
  of_read (η := IdentityHeader) (fun _ => rfl) rfl (Entry.sameBytes_loadIdentity stamp field)
    (Withstands.loadIdentity stamp field)

private theorem loadEntry (stamp : Stamp) (i : Nat) : Steadfast (Document.loadEntry stamp i) :=
  of_read (η := EntryHeader) (fun _ => rfl) rfl (Document.sameBytes_loadEntry stamp i)
    (Withstands.loadEntry stamp i)

variable {load : Option Origin → Load ν} (h : Steadfast load) (cell : Lazy ν)
  {streams streams' after : Streams} {value : ν}
include h

private theorem verdict_fetch (hstill : streams.still = streams)
    (hstill' : streams'.still = streams') (hsame : streams.SameBytes streams') :
    verdict (cell.fetch load streams') = verdict (cell.fetch load streams) := by
  unfold Lazy.fetch
  cases cell.peek with
  | some value => rfl
  | none => exact h.settled _ _ _ hstill hstill' hsame

omit h in
private theorem withstands_fetch (h : Steadfast load) (cell : Lazy ν) :
    Withstands Streams.still (cell.fetch load) := by
  unfold Lazy.fetch
  cases cell.peek with
  | some value => exact Withstands.pure value
  | none => exact h.withstands _

end Steadfast

/-- The bytes of all streams are the same, and hold what `base` holds. -/
def Accord.over (base : Streams) (target : StreamId) : Accord target where
  Alike id content content' := content' = content ∧ (base.get id).bytes <+: content.toList
  same h := h.1
  grows {content more} h := by
    refine ⟨rfl, h.2.trans ?_⟩
    rw [Array.toList_append]
    exact List.prefix_append ..

section Same

variable {base : Streams} {Lost : Error → Prop}

private theorem Lazy.Same.fetches {load : Option Origin → Load ν} {V V' : ν → ν → Prop}
    {cell later : Lazy ν} (h : Lazy.Same base V load cell later) (hload : Steadfast load)
    (hV : ∀ value value', V value value' → V' value value') :
    Escorts.Fetches (Escort.retaining (.over base target) Lost) V'
      (Lazy.widen Output.streams (fun streams output => { output with streams }) load) cell
        later := by
  intro output other ⟨hlevel, hstill⟩
  have hsame : output.streams.SameBytes other.streams := fun id => (hlevel.alike id).1
  have hattempts := h output.streams ⟨hstill, fun id => (hlevel.alike id).2⟩
  rw [← hload.verdict_fetch later hstill hlevel.still_eq hsame] at hattempts
  rw [Lazy.fetch_widen fun _ => rfl, Lazy.fetch_widen fun _ => rfl]
  exact hlevel.retaining_reading hstill (Lazy.sameBytes_fetch hload.sameBytes cell)
    (Lazy.sameBytes_fetch hload.sameBytes later) (hload.withstands_fetch cell)
      (hload.withstands_fetch later)
    (hattempts.imp hV)

private theorem Entry.Same.beside {entry later : Entry} (h : Entry.Same base entry later) :
    entry.Beside (Escort.retaining (.over base target) Lost) later := by
  have hcell {field : UInt32} {cell cell' : Lazy Identity}
    (hsame : Lazy.Same base Eq (loadIdentity entry.stamp field)
      cell cell') : Escorts.Fetches (Escort.retaining (.over base target) Lost) Eq
      (loadForSaving entry.stamp field) cell
        cell' := hsame.fetches (Steadfast.loadIdentity _ _) fun _ _ => id
  exact ⟨h.stamp_eq, h.approver_eq, h.reviewers_eq, hcell h.identification,
    optionRel_imp (fun _ _ => hcell)
    h.secretIdentity⟩

private theorem Document.Same.beside {document later : Document}
    (h : Document.Same base document later) :
    document.Beside (Escort.retaining (.over base target) Lost) later :=
  ⟨h.stamp_eq, h.entries.size_eq, fun i => optionRel_imp
    (fun _ _ hcell => hcell.fetches (Steadfast.loadEntry _ _) fun _ _ => Entry.Same.beside)
      (h.entries.slot i)⟩

/-- In streams that hold what `base` holds, the document and what it has become are saved alike. -/
theorem Document.Same.saves {codec : Codec} {position : Nat} {document later : Document}
    {streams : Streams} (h : Document.Same base document later) (hover : base.Over streams) :
    SavedAlike target (save codec target position (document, streams))
      (save codec target position (later, streams)) := by
  have hbeside : document.Beside (Escort.retaining (.over base target) fun _ => False) later :=
    h.beside
  rcases hbeside.saves hover.still_eq hover.still_eq fun id =>
    ⟨rfl, hover.grows id⟩ with halike | ⟨_, -, hnever⟩
  · exact halike
  · exact hnever.elim

end Same

/-- The bytes of all streams are the same, but for one stream that has more of them in the second
output. -/
def Accord.apart {appended : StreamId} (hne : target ≠ appended) (content more : Array UInt8) :
    Accord target where
  Alike id first second :=
    if id = appended then first = content ∧ second = content ++ more else second = first
  same h := by rwa [if_neg hne] at h
  grows _ := if_neg hne ▸ rfl

section Apart

variable {appended : StreamId}

private theorem Escort.reads_apart (hne : target ≠ appended) (content more : Array UInt8)
    (bound : Prop) :
    (Escort.retaining (.apart hne content more) fun error => bound ∧ error.isCutOff).Reads
      fun source => source.backing = .stream appended → bound := by
  intro η _ origin hfit output other ⟨hlevel, hstill⟩
  have hread := @Origin.verdict_read η _ origin _ hstill
  have hread' := @Origin.verdict_read η _ origin _ hlevel.still_eq
  -- The second output reads the same, unless the first read is cut off.
  have hsame :
    (∃ error, verdict (origin.read output.streams : EStateM.Result _ _ η) = .error error ∧ bound ∧
      error.isCutOff) ∨ verdict (origin.read other.streams : EStateM.Result _ _ η) =
      verdict (origin.read output.streams) := by
    rw [hread, hread', Source.contentIn, Source.contentIn]
    cases hbacking : origin.source.backing with
    | copy content => exact .inr rfl
    | stream id =>
      have hcontent := hlevel.alike id
      simp only [Accord.apart] at hcontent
      dsimp only
      by_cases hid : id = appended
      · subst hid
        rw [if_pos rfl] at hcontent
        rw [hcontent.1, hcontent.2]
        refine (Source.frameAt_append
          (α := η) origin.source content more origin.position.toNat).imp_left ?_
        rintro ⟨error, herror, hcut⟩
        exact ⟨error, herror, hfit hbacking, hcut⟩
      · rw [if_neg hid] at hcontent
        rw [hcontent]
        exact .inr rfl
  rcases hsame with ⟨error, herror, hlost⟩ | hsame
  · rw [Output.reading]
    cases hrun : (origin.read output.streams : EStateM.Result _ _ η) with
    | ok value after =>
      rw [hrun] at herror
      cases herror
    | error found after =>
      rw [hrun] at herror
      cases herror
      exact .parted hlost
  · refine hlevel.retaining_reading hstill origin.sameBytes_read origin.sameBytes_read
      (Withstands.originRead origin)
      (Withstands.originRead origin) ?_
    rw [hsame]
    exact attempts_refl _

namespace Document

variable {codec : Codec} {position : Nat} {document : Document} {streams later : Streams}

/-- When one stream has grown, a document is saved to another alike, unless a node is still to be
loaded from the first, where it was cut off. -/
private theorem saves_apart (hne : target ≠ appended) (hgrows : streams.GrowsAt appended later) :
    SavedAlike target (save codec target position (document, streams.still))
      (save codec target position (document, later.still)) ∨
    ∃ error, verdict (save codec target position (document, streams.still)) = .error error ∧
      ¬ (document.ReadsOnly fun source => source.backing ≠ .stream appended) ∧ error.isCutOff := by
  obtain ⟨more, hmore⟩ := hgrows.grows appended
  let bound := ¬ document.ReadsOnly fun source => source.backing ≠ .stream appended
  have hreads : Escort.Reads _ fun source => source.backing = .stream appended → bound :=
    Escort.reads_apart hne (streams.get appended).content more.toArray bound
  -- If nothing is still to be loaded from that stream, no read can be cut off there.
  have hfit : document.ReadsOnly fun source => source.backing = .stream appended → bound := by
    by_cases hbound : bound
    · exact document.readsOnly_any.imp fun _ _ _ => hbound
    · exact (not_not.1 hbound).imp fun source hother hbacking => absurd hbacking hother
  refine (beside_self hreads hfit).saves (Streams.still_still _) (Streams.still_still _)
    fun id => ?_
  simp only [Accord.apart]
  rw [Streams.get_still, Streams.get_still]
  split
  case isTrue hid =>
    subst hid
    refine ⟨rfl, Array.ext' ?_⟩
    rw [Array.toList_append]
    exact hmore.symm
  case isFalse hid => exact hgrows.other id hid

/-- After a save, whatever came of it, the document is saved to another stream as it would have been
before, unless a node was still to be loaded from the target of the first save, where it was cut
off. -/
theorem save_after_save (hne : target ≠ appended) {first : Codec} {start : Nat} :
    let after := stateAfter (save first appended start (document, streams))
    SavedAlike target (save codec target position (document, streams.still))
      (save codec target position (after.1, after.2.still)) ∨
    ∃ error, verdict (save codec target position (document, streams.still)) = .error error ∧
      ¬ (document.ReadsOnly fun source => source.backing ≠ .stream appended) ∧ error.isCutOff := by
  intro after
  obtain ⟨hgrows, hsame⟩ := @same_save appended first start document streams
  have hover : after.2.Over after.2.still := by
    refine ⟨Streams.still_still _, fun id => ?_⟩
    rw [Streams.get_still]
    exact List.prefix_rfl
  have hlast : SavedAlike target (save codec target position (document, after.2.still))
      (save codec target position (after.1, after.2.still)) := hsame.saves hover
  rcases @saves_apart _ _ codec position document _ _ hne hgrows with halike | hlost
  · exact .inl ⟨hlast.verdict_eq.trans halike.verdict_eq, hlast.bytes_eq.trans halike.bytes_eq⟩
  · exact .inr hlost

end Document

end Apart

end FramedTree
