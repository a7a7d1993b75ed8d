import FramedTree.Proofs.CurtailedSaves
import FramedTree.Proofs.Locality
import FramedTree.Proofs.OtherEntries

/-! # What a save does not change

A save loads nodes and writes behind everything else, whether it fails or not. What it has loaded is
what would be loaded later, since more bytes behind a frame change nothing for whoever reads it. So
a later save of the document gives what it would have given before.
-/

namespace FramedTree

variable {ν α β : Type} {target : StreamId}

/-- Every stream holds what it held, and possibly more behind it. -/
def Streams.Grows (before after : Streams) : Prop :=
  ∀ id, (before.get id).bytes <+: (after.get id).bytes

instance : IsPreorder Streams Streams.Grows where
  refl _ _ := List.prefix_rfl
  trans _ _ _ hab hbc id := (hab id).trans (hbc id)

private theorem Streams.SameBytes.grows {before after : Streams} (h : before.SameBytes after) :
    before.Grows after := by
  intro id
  exact prefix_of_eq (congrArg Array.toList (h id))

/-- One stream holds what it held, and possibly more behind it. The others hold what they held. -/
structure Streams.GrowsAt (target : StreamId) (before after : Streams) : Prop where
  grows : before.Grows after
  other : ∀ id, id ≠ target → (after.get id).content = (before.get id).content

instance (target : StreamId) : IsPreorder Streams (Streams.GrowsAt target) where
  refl _ := ⟨refl_of Streams.Grows _, fun _ _ => rfl⟩
  trans _ _ _ hab hbc :=
    ⟨trans_of Streams.Grows hab.grows hbc.grows,
      fun id hid => (hbc.other id hid).trans (hab.other id hid)⟩

private theorem Streams.SameBytes.growsAt {before after : Streams} (h : before.SameBytes after) :
    before.GrowsAt target after := ⟨h.grows, fun id _ => h id⟩

private theorem Streams.growsAt_set {streams : Streams} {stream : Stream}
    (h : (streams.get target).bytes <+: stream.bytes) :
    streams.GrowsAt target (streams.set target stream) := by
  refine ⟨fun id => ?_, fun id hid => by rw [get_set, if_neg hid]⟩
  rw [get_set]
  split
  case isTrue hid =>
    rw [hid]
    exact h
  case isFalse => exact List.prefix_rfl

/-- Streams without faults that hold what others hold, and possibly more. -/
structure Streams.Over (base streams : Streams) : Prop where
  still_eq : streams.still = streams
  grows : base.Grows streams

section Reading

variable [Message α] {origin : Origin} {streams after later : Streams} {value : α}

private theorem Origin.verdict_read_later (h : origin.read streams = .ok value after)
    (hover : streams.Over later) :
    verdict (origin.read later : EStateM.Result _ _ α) = .ok value := by
  have hread := Origin.frameAt_of_read h
  rw [Origin.verdict_read hover.still_eq, ← hread]
  cases hbacking : origin.source.backing with
  | copy content =>
    rw [Source.contentIn, Source.contentIn, hbacking]
  | stream id =>
    obtain ⟨more, hmore⟩ := hover.grows id
    have hcontent : origin.source.contentIn later =
      origin.source.contentIn streams ++ more.toArray := by
      rw [Source.contentIn, Source.contentIn, hbacking]
      apply Array.ext'
      rw [Array.toList_append]
      exact hmore.symm
    rw [hcontent]
    rcases Source.frameAt_append (α := α) origin.source
      (origin.source.contentIn streams) more.toArray
        origin.position.toNat with ⟨error, herror, -⟩ | hsame
    · rw [hread] at herror
      cases herror
    · exact hsame

end Reading

theorem attempts_refl {V : α → α → Prop} [IsPreorder α V] (result : Except Error α) :
    Attempts Eq V result result := by
  cases result with
  | ok value => exact .ok (refl_of V value)
  | error error => exact .error rfl

private theorem Attempts.trans {V : α → α → Prop} [IsPreorder α V]
    {first second third : Except Error α} (h : Attempts Eq V first second)
    (h' : Attempts Eq V second third) : Attempts Eq V first third := by
  cases h with
  | ok hvalue =>
    cases h' with
    | ok hvalue' => exact .ok (trans_of V hvalue hvalue')
  | error herror =>
    subst herror
    exact h'

theorem Attempts.imp {E : Error → Error → Prop} {V V' : α → β → Prop} {first : Except Error α}
    {second : Except Error β} (h : Attempts E V first second)
    (hV : ∀ value value', V value value' → V' value value') :
    Attempts E V' first second := by
  cases h with
  | ok hvalue => exact .ok (hV _ _ hvalue)
  | error herror => exact .error herror

/-- In all streams that hold what `base` holds, both cells have related values, or fail in the same
way. -/
def Lazy.Same (base : Streams) (V : α → α → Prop) (load : Option Origin → Load α)
    (cell later : Lazy α) : Prop :=
  ∀ streams, base.Over streams →
    Attempts Eq V (verdict (cell.fetch load streams)) (verdict (later.fetch load streams))

instance (base : Streams) (V : α → α → Prop) [IsPreorder α V] (load : Option Origin → Load α) :
    IsPreorder (Lazy α) (Lazy.Same base V load) where
  refl _ _ _ := attempts_refl _
  trans _ _ _ hab hbc streams hover := (hab streams hover).trans (hbc streams hover)

structure Entry.Same (base : Streams) (entry later : Entry) : Prop where
  stamp_eq : later.stamp = entry.stamp
  approver_eq : later.approver = entry.approver
  reviewers_eq : later.reviewers = entry.reviewers
  identification : Lazy.Same base Eq
    (loadIdentity entry.stamp identificationField) entry.identification
    later.identification
  secretIdentity : Option.Rel (Lazy.Same base Eq (loadIdentity entry.stamp secretIdentityField))
    (entry.secretIdentity.get? singular) (later.secretIdentity.get? singular)

private theorem optionRel_trans {R : α → α → Prop} [IsPreorder α R] {first second third : Option α}
    (h : Option.Rel R first second) (h' : Option.Rel R second third) :
    Option.Rel R first third := by
  cases h with
  | none => exact h'
  | some hvalue =>
    cases h' with
    | some hvalue' => exact .some (trans_of R hvalue hvalue')

theorem optionRel_imp {R R' : α → α → Prop} {value value' : Option α}
    (hR : ∀ value value', R value value' → R' value value') (h : Option.Rel R value value') :
    Option.Rel R' value value' := by
  cases h with
  | none => exact .none
  | some hvalue => exact .some (hR _ _ hvalue)

instance (base : Streams) : IsPreorder Entry (Entry.Same base) where
  refl _ := ⟨rfl, rfl, rfl, refl_of (Lazy.Same base Eq _) _, optionRel_refl _⟩
  trans a b c hab hbc := by
    have hidentification := hbc.identification
    have hsecret := hbc.secretIdentity
    rw [hab.stamp_eq] at hidentification hsecret
    exact ⟨hbc.stamp_eq.trans hab.stamp_eq, hbc.approver_eq.trans hab.approver_eq,
      hbc.reviewers_eq.trans hab.reviewers_eq,
      trans_of (Lazy.Same base Eq _) hab.identification hidentification,
      optionRel_trans hab.secretIdentity hsecret⟩

structure Document.Same (base : Streams) (document later : Document) : Prop where
  stamp_eq : later.stamp = document.stamp
  entries : Slots.Pointwise
    (fun i => Lazy.Same base (Entry.Same base) (loadEntry document.stamp i)) document.entries
    later.entries

instance (base : Streams) : IsPreorder Document (Document.Same base) where
  refl _ := ⟨rfl, rfl, fun _ => optionRel_refl _⟩
  trans a b c hab hbc := by
    have hentries := hbc.entries
    rw [hab.stamp_eq] at hentries
    exact ⟨hbc.stamp_eq.trans hab.stamp_eq, hentries.size_eq.trans hab.entries.size_eq,
      fun i => optionRel_trans (hab.entries.slot i) (hentries.slot i)⟩

def Writing.appending (target : StreamId) : Writing :=
  { begins := Streams.GrowsAt target, writes := Streams.GrowsAt target }

section Moves

variable {base streams after : Streams}

private theorem Lazy.Move.same {ε η : Type} [Message η] {load : Option Origin → Load ν}
    {make : Origin → η → ν} {V : ν → ν → Prop} [IsPreorder ν V] {inner : Course ε (ν × Streams)}
    {event : CellEvent ε} {cell later : Lazy ν} {first : ν}
    (h : Lazy.Move load inner event (cell, streams) (later, after)) (hbase : streams.Grows base)
    (hload : ∀ origin, load (some origin) = do return make origin (← origin.read))
    (hnone : load none = pure first)
    (hinner : ∀ inside value value',
      event = .within inside → inner.Move inside (value, streams) (value', after) →
      V value value') : Lazy.Same base V load cell later := by
  intro found hover
  cases h with
  | @found _ _ origin _ _ value hpeek horigin hrun hlater _ =>
    -- The bytes that were read are still there, and are read again.
    have hgrown : streams.Over found := ⟨hover.still_eq, trans_of Streams.Grows hbase hover.grows⟩
    rw [hload, bind_apply] at hrun
    rw [Lazy.fetch_of_unloaded hpeek, horigin, Lazy.fetch_of_peek hlater, hload, bind_apply]
    cases hread : (origin.read streams : EStateM.Result _ _ η) with
    | error error last =>
      rw [hread] at hrun
      cases hrun
    | ok header last =>
      rw [hread] at hrun
      cases hrun
      rw [eq_ok_of_verdict _ _ (Origin.verdict_read_later hread hgrown)]
      exact .ok (refl_of V _)
  | failed => exact attempts_refl _
  | built hpeek horigin hrun hlater _ =>
    rw [hnone] at hrun
    cases hrun
    rw [Lazy.fetch_of_unloaded hpeek, horigin, Lazy.fetch_of_peek hlater, hnone]
    exact .ok (refl_of V first)
  | shifted hlater hkept =>
    have hsame : later.fetch load = cell.fetch load := by rw [Lazy.fetch, hlater, hkept, Lazy.fetch]
    rw [hsame]
    exact attempts_refl _
  | within hpeek hmove hlater _ =>
    rw [Lazy.fetch_of_peek hpeek, Lazy.fetch_of_peek hlater]
    exact .ok (hinner _ _ _ rfl hmove)

private theorem Entry.Move.same {event : EntryEvent} {entry later : Entry}
    (h : Entry.Move (.appending target) event (entry, streams) (later, after))
    (hquiet : (course (.appending target)).Quiet event) (hbase : streams.Grows base) :
    Entry.Same base entry later := by
  have hcell {event : CellEvent Unit} {field : UInt32} {cell cell' : Lazy Identity}
    (hown : event.isOwn)
      (hmove : Lazy.Move (loadIdentity entry.stamp field) Identity.course event (cell, streams)
        (cell', after)) :
      Lazy.Same base Eq (loadIdentity entry.stamp field) cell cell' := by
    refine Lazy.Move.same (η := IdentityHeader) hmove hbase (fun _ => rfl) rfl
      fun inside _ _ heq _ => ?_
    rw [heq] at hown
    cases hown
  have hself := refl_of (Entry.Same base) entry
  cases h with
  | identification h => exact { hself with identification := hcell (hquiet.resolve_right nofun) h }
  | secretIdentity h =>
    obtain ⟨cell, cell', hget, hmove, rfl⟩ := h
    refine { hself with secretIdentity := ?_ }
    rw [Slots.get?_modify, if_pos rfl, hget]
    exact .some (hcell (hquiet.resolve_right nofun) hmove)
  | edited => simp [course, EntryEvent.isLook] at hquiet
  | wrote => exact hself

private theorem Document.Move.same {event : DocumentEvent} {document later : Document}
    (h : Document.Move (.appending target) event (document, streams) (later, after))
    (hquiet : event = .began ∨ (course (.appending target)).Quiet event)
    (hbase : streams.Grows base) :
    Document.Same base document later := by
  have hself := refl_of (Document.Same base) document
  cases h with
  | began | wrote => exact hself
  | added => simp [course] at hquiet
  | @entry i event document slots _ _ h =>
    have hwithin : event.Within (Entry.course (.appending target)).Quiet :=
      hquiet.resolve_left nofun
    obtain ⟨cell, cell', hget, hmove, rfl⟩ := h
    refine ⟨rfl, Slots.size_modify .., fun j => ?_⟩
    dsimp only
    rw [Slots.get?_modify]
    split
    case isFalse => exact optionRel_refl _
    case isTrue hj =>
      subst hj
      rw [hget]
      refine .some (Lazy.Move.same (η := EntryHeader) hmove hbase (fun _ => rfl) rfl ?_)
      intro inside entry entry' (heq : event = .within inside) hinner
      rw [heq] at hwithin
      exact hinner.same hwithin hbase

end Moves

/-- The output writes to the target, and stands at its end. -/
def Output.AtEndOf (target : StreamId) (output : Output) : Prop :=
  output.target = target ∧ output.AtEnd

private theorem Output.growsAt_emit {activity : SinkIO α} (honward : Keeps Onward (emit activity))
    {output : Output} (hend : output.AtEndOf target) :
    (stateAfter (emit activity output)).AtEndOf target ∧
      output.streams.GrowsAt target (stateAfter (emit activity output)).streams := by
  obtain ⟨rfl, hend⟩ := hend
  obtain ⟨hafter, hbytes⟩ := (honward output).written hend
  refine ⟨⟨(honward output).target_eq, hafter⟩, ?_⟩
  rw [bytes, bytes, (honward output).target_eq, emit_streams, Streams.get_set, if_pos rfl] at hbytes
  rw [emit_streams]
  exact Streams.growsAt_set hbytes

private theorem Writing.allowsTo_appending (codec : Codec) (target : StreamId) (position : Nat) :
    (Writing.appending target).AllowsTo (Output.AtEndOf target) codec target position where
  load {output streams} hend hsame := by
    have hrests : output.Rests { output with streams } := ⟨rfl, rfl, rfl, hsame⟩
    exact ⟨hend.1, (hrests.onward.written hend.2).1⟩
  write header _ hend := Output.growsAt_emit (Output.onward_write .nested header) hend
  finish header _ hend :=
    Output.growsAt_emit ((Escort.carries_curtailing target).finish header).onward hend
  begins streams :=
    Streams.growsAt_set (prefix_of_eq (Document.bytes_atEnd codec ⟨streams.get target, position⟩))
  fit streams sink handle hsink := by
    obtain ⟨rfl, hend, hcontent⟩ := Document.atEnd_ok hsink
    exact ⟨rfl, (Document.ready_atEnd hend hcontent).1.position_eq⟩

namespace Document

/-- The target has grown, and whoever reads from the streams later finds the document the same. -/
def GrownSame (target : StreamId) (base : Streams) (before after : Document × Streams) : Prop :=
  before.2.GrowsAt target after.2 ∧ (after.2.Grows base → Document.Same base before.1 after.1)

instance (target : StreamId) (base : Streams) :
    IsPreorder (Document × Streams) (GrownSame target base) where
  refl _ := ⟨refl_of (Streams.GrowsAt target) _, fun _ => refl_of (Document.Same base) _⟩
  trans _ _ _ hab hbc := by
    refine ⟨trans_of (Streams.GrowsAt target) hab.1 hbc.1, fun hbase => ?_⟩
    exact trans_of (Document.Same base) (hab.2 (trans_of Streams.Grows hbc.1.grows hbase))
      (hbc.2 hbase)

/-- A save leaves the document the same, whatever comes of it. -/
theorem same_save {codec : Codec} {position : Nat} (document : Document) (streams : Streams) :
    let after := stateAfter (save codec target position (document, streams))
    streams.GrowsAt target after.2 ∧ Document.Same after.2 document after.1 := by
  obtain ⟨events, htrail, hall⟩ :=
    trail_save (Writing.allowsTo_appending codec target position) document streams
  -- Every step is looked at from the end: what it has read is still there then.
  have hgrown : GrownSame target (stateAfter (save codec target position (document, streams))).2
    (document, streams)
      (stateAfter (save codec target position (document, streams))) := by
    refine htrail.keeps fun event hevent state after hmove => ?_
    have hgrows : state.2.GrowsAt target after.2 := by
      refine hmove.keeps (R := Streams.GrowsAt target) ?_ (fun _ _ h => h) ?_ fun _ _ h => h
      · exact fun stamp field origin streams =>
          (Entry.sameBytes_loadIdentity stamp field origin streams).growsAt
      · exact fun stamp i origin streams => (sameBytes_loadEntry stamp i origin streams).growsAt
    refine ⟨hgrows, fun hbase => ?_⟩
    refine Move.same hmove ?_ (trans_of Streams.Grows hgrows.grows hbase)
    rcases List.mem_cons.1 hevent with hfirst | hrest
    · exact .inl hfirst
    · exact .inr (hall event hrest).1
  exact ⟨hgrown.1, hgrown.2 (refl_of Streams.Grows _)⟩

end Document

end FramedTree
