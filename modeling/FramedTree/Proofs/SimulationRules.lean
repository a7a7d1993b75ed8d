import FramedTree.Proofs.Transfer
import FramedTree.Workspace.Basic

/-! # States seen through a view

A view takes a state to one that is simpler to reason about, such as the same streams without some
of their faults. An activity is seen through a view if it comes to the same end in the state that is
seen: the same value or the same failure, and a state that is what is seen of the state it leaves
behind. Some views hide why an activity fails; then only successful ends are seen. The rules here
follow the ways in which activities are put together.
-/

namespace FramedTree

variable {ε σ τ ν μ α β : Type}

def Succeeds : EStateM.Result ε σ α → Prop
  | .ok _ _ => True
  | .error _ _ => False

@[simp] theorem succeeds_mapState (f : σ → τ) (result : EStateM.Result ε σ α) :
    Succeeds (mapState f result) ↔ Succeeds result := by
  cases result <;> exact Iff.rfl

@[simp] theorem succeeds_mapValue (f : α → β) (result : EStateM.Result ε σ α) :
    Succeeds (mapValue f result) ↔ Succeeds result := by
  cases result <;> exact Iff.rfl

/-- The activity comes to the same end in the state that is seen: if it succeeds, and if `whole`
also if it fails. -/
def SeenThrough (whole : Prop) (view : σ → σ) (activity : EStateM ε σ α) : Prop :=
  ∀ state, whole ∨ Succeeds (activity state) →
    activity (view state) = mapState view (activity state)

namespace SeenThrough

variable {whole : Prop} {view : σ → σ}

theorem apply {activity : EStateM ε σ α} (h : SeenThrough True view activity) (state : σ) :
    activity (view state) = mapState view (activity state) := h state (.inl trivial)

theorem pure (value : α) :
    SeenThrough whole view (Pure.pure value : EStateM ε σ α) := fun _ _ => rfl

theorem throw (error : ε) :
    SeenThrough whole view (MonadExcept.throw error : EStateM ε σ α) := fun _ _ => rfl

theorem bind {activity : EStateM ε σ α} {next : α → EStateM ε σ β}
    (h : SeenThrough whole view activity) (hnext : ∀ value, SeenThrough whole view (next value)) :
    SeenThrough whole view (activity >>= next) := by
  intro state hend
  have hfirst := h state
  rw [bind_apply] at hend
  rw [bind_apply, bind_apply]
  cases hrun : activity state with
  | ok value between =>
    rw [hrun] at hfirst hend
    rw [hfirst (.inr trivial)]
    exact hnext value between hend
  | error error after =>
    rw [hrun] at hfirst hend
    rw [hfirst (hend.imp_right False.elim)]
    rfl

theorem map (f : α → β) {activity : EStateM ε σ α} (h : SeenThrough whole view activity) :
    SeenThrough whole view (f <$> activity) := bind h fun _ => pure _

/-- What is done with a part of the state that looks the same. -/
theorem get_bind {next : σ → EStateM ε σ α} (hnext : ∀ state, next (view state) = next state)
    (h : ∀ state, SeenThrough whole view (next state)) : SeenThrough whole view (get >>= next) := by
  intro state hend
  rw [get_bind_apply, get_bind_apply, hnext]
  exact h state state hend

theorem modifyGet {f : σ → α × σ} (h : ∀ state, f (view state) = ((f state).1, view (f state).2)) :
    SeenThrough whole view (MonadStateOf.modifyGet f : EStateM ε σ α) := by
  intro state _
  change EStateM.Result.ok (f (view state)).1 (f (view state)).2 = _
  rw [h]
  rfl

end SeenThrough

/-- The same node, in surroundings that are seen through `view`. -/
abbrev amid (view : σ → σ) (state : ν × σ) : ν × σ := (state.1, view state.2)

namespace SeenThrough

variable {whole : Prop} {view : σ → σ}

theorem node : SeenThrough whole (amid view) (Access.node : Access σ ν ν) := fun _ _ => rfl

theorem node_bind {next : ν → Access σ ν α}
    (h : ∀ node, SeenThrough whole (amid view) (next node)) :
    SeenThrough whole (amid view) (Access.node >>= next) := bind node h

theorem edit (f : ν → ν) :
    SeenThrough whole (amid view) (Access.edit f : Access σ ν Unit) := fun _ _ => rfl

theorem lift {activity : EStateM Error σ α} (h : SeenThrough whole view activity) :
    SeenThrough whole (amid view) (Access.lift activity : Access σ ν α) := by
  rintro ⟨node, around⟩ hend
  rw [Access.lift_apply, succeeds_mapState] at hend
  rw [Access.lift_apply, Access.lift_apply, h around hend, mapState_mapState, mapState_mapState]

theorem within {get : ν → μ} {put : μ → ν → ν} {access : Access σ μ α}
    (h : SeenThrough whole (amid view) access) :
    SeenThrough whole (amid view) (Access.within get put access) := by
  rintro ⟨node, around⟩ hend
  rw [Access.within_apply, succeeds_mapState] at hend
  rw [Access.within_apply, Access.within_apply, h (get node, around) hend, mapState_mapState,
    mapState_mapState]

/-- Work in wider surroundings, of which the part in view is seen with the whole. -/
theorem around {wide : τ → τ} {get : τ → σ} {put : σ → τ → τ} {access : Access σ ν α}
    (h : SeenThrough whole (amid view) access) (hget : ∀ all, get (wide all) = view (get all))
    (hput : ∀ part all, put (view part) (wide all) = wide (put part all)) :
    SeenThrough whole (amid wide) (Access.around get put access) := by
  rintro ⟨node, all⟩ hend
  rw [Access.around_apply, succeeds_mapState] at hend
  rw [Access.around_apply, Access.around_apply, hget, h (node, get all) hend, mapState_mapState,
    mapState_mapState]
  simp only [amid, hput]

/-- A failure that has become a value is seen like any other value. -/
theorem attempt {access : Access σ ν α} (h : SeenThrough True (amid view) access) :
    SeenThrough whole (amid view) (Access.attempt access) := by
  intro state _
  unfold Access.attempt
  rw [h.apply]
  cases access state <;> rfl

theorem slot (i : Nat) {inner : Access σ α β} (h : SeenThrough whole (amid view) inner) :
    SeenThrough whole (amid view) (Slots.access i inner) := by
  rintro ⟨slots, around⟩ hend
  cases hslot : slots.get? i with
  | none =>
    rw [Slots.access_apply_none hslot, Slots.access_apply_none hslot]
    rfl
  | some first =>
    rw [Slots.access_apply_some hslot, succeeds_mapState] at hend
    rw [Slots.access_apply_some hslot, Slots.access_apply_some hslot,
      map some h (first, around) hend, mapState_mapState, mapState_mapState]

private theorem accessFrom {inner : Nat → Access σ α β}
    (h : ∀ i, SeenThrough whole (amid view) (inner i)) (i : Nat) (cells : List (Option α))
    (around : σ) (hend : whole ∨ Succeeds (Slots.accessFrom inner i cells around)) :
    Slots.accessFrom inner i cells (view around) =
      mapState (fun state => (state.1, view state.2)) (Slots.accessFrom inner i cells around) := by
  induction cells generalizing i around with
  | nil => rfl
  | cons cell cells ih =>
    cases cell with
    | none =>
      rw [Slots.accessFrom_gap, succeeds_mapState] at hend
      rw [Slots.accessFrom_gap, Slots.accessFrom_gap, ih (i + 1) around hend, mapState_mapState,
        mapState_mapState]
    | some value =>
      have hfirst := h i (value, around)
      cases hrun : inner i (value, around) with
      | error error state =>
        rw [Slots.accessFrom_of_error hrun] at hend
        rw [hrun] at hfirst
        have hsame : inner i (value, view around) = .error error (state.1, view state.2) :=
          hfirst (hend.imp_right False.elim)
        rw [Slots.accessFrom_of_error hrun, Slots.accessFrom_of_error hsame, mapState_error]
      | ok result state =>
        rw [Slots.accessFrom_of_ok hrun, succeeds_mapState, succeeds_mapValue] at hend
        rw [hrun] at hfirst
        have hsame : inner i (value, view around) = .ok result (state.1, view state.2) :=
          hfirst (.inr trivial)
        rw [Slots.accessFrom_of_ok hrun, Slots.accessFrom_of_ok hsame, ih (i + 1) state.2 hend]
        cases Slots.accessFrom inner (i + 1) cells state.2 <;> rfl

theorem accessAll {inner : Nat → Access σ α β} (h : ∀ i, SeenThrough whole (amid view) (inner i)) :
    SeenThrough whole (amid view) (Slots.accessAll inner) :=
  within fun state hend => accessFrom h 0 state.1 state.2 hend

section Cells

variable {load : Option Origin → EStateM Error σ α}
  (hload : ∀ origin, SeenThrough whole view (load origin))

include hload

theorem getOrLoad :
    SeenThrough whole (amid view) (Lazy.getOrLoad fun origin => Access.lift (load origin)) := by
  rintro ⟨cell, around⟩ hend
  cases hpeek : cell.peek with
  | some found =>
    rw [Lazy.getOrLoad_of_peek hpeek, Lazy.getOrLoad_of_peek hpeek]
    rfl
  | none =>
    have hfetch := hload cell.origin around
    rw [Lazy.getOrLoad_of_unloaded hpeek] at hend
    rw [Lazy.getOrLoad_of_unloaded hpeek, Lazy.getOrLoad_of_unloaded hpeek]
    cases hrun : load cell.origin around with
    | ok found between =>
      rw [hrun] at hfetch
      rw [hfetch (.inr trivial)]
      rfl
    | error error between =>
      rw [hrun] at hfetch hend
      rw [hfetch (hend.imp_right False.elim)]
      rfl

private theorem getMutOrLoad : SeenThrough whole (amid view) (Lazy.getMutOrLoad load) := by
  rintro ⟨⟨owned, shared, origin⟩, around⟩ hend
  cases owned with
  | some found => rfl
  | none =>
    cases shared with
    | some found => rfl
    | none =>
      have hfetch := hload origin around
      rw [Lazy.getMutOrLoad_of_unloaded rfl] at hend
      rw [Lazy.getMutOrLoad_of_unloaded rfl, Lazy.getMutOrLoad_of_unloaded rfl]
      cases hrun : load origin around with
      | ok found between =>
        rw [hrun] at hfetch
        rw [hfetch (.inr trivial)]
        rfl
      | error error between =>
        rw [hrun] at hfetch hend
        rw [hfetch (hend.imp_right False.elim)]
        rfl

theorem access {inner : Access σ α β} (h : SeenThrough whole (amid view) inner) :
    SeenThrough whole (amid view) (Lazy.access load inner) :=
      bind (getOrLoad hload) fun _ => within h

theorem accessMut {inner : Access σ α β} (h : SeenThrough whole (amid view) inner) :
    SeenThrough whole (amid view) (Lazy.accessMut load inner) :=
      bind (getMutOrLoad hload) fun _ => within h

end Cells
end SeenThrough

def Stream.refit (f : Faults → Faults) (stream : Stream) : Stream :=
  { stream with faults := f stream.faults }

def Handle.refit (f : Faults → Faults) (handle : Handle) : Handle :=
  { handle with stream := handle.stream.refit f }

def Table.map {κ : Type} (f : α → α) (table : Table κ α) : Table κ α :=
  ⟨table.rows.map fun row => (row.1, f row.2)⟩

namespace Table

variable {κ : Type} [DecidableEq κ] (f : α → α) (table : Table κ α)

private theorem find?_map (key : κ) : (table.map f).find? key = (table.find? key).map f := by
  obtain ⟨rows⟩ := table
  change (rows.map fun row => (row.1, f row.2)).lookup key = (rows.lookup key).map f
  induction rows with
  | nil => rfl
  | cons row rest ih =>
    obtain ⟨first, value⟩ := row
    by_cases h : key = first
    · simp [h]
    · simp [List.lookup_cons, beq_eq_false_iff_ne.2 h, ih]

private theorem map_set (key : κ) (value : α) :
    (table.set key value).map f = (table.map f).set key (f value) := by
  obtain ⟨rows⟩ := table
  simp only [set, map, mk.injEq]
  induction rows with
  | nil => rfl
  | cons row rest ih =>
    by_cases h : row.1 = key
    · simp [setRow, h]
    · simp [setRow, h, ih]

end Table

namespace Streams

def refit (f : Faults → Faults) (streams : Streams) : Streams :=
  { streams with named := streams.named.map (Stream.refit f), scratch := streams.scratch.refit f }

variable {f : Faults → Faults}

theorem get_refit (hfree : f {} = {}) (streams : Streams) (id : StreamId) :
    (streams.refit f).get id = (streams.get id).refit f := by
  cases id with
  | scratch => rfl
  | named name edition =>
    simp only [get, refit, Table.find?_map]
    cases streams.named.find? (name, edition) with
    | some stream => rfl
    | none =>
      change ({} : Stream) = Stream.refit f {}
      rw [Stream.refit, hfree]

theorem refit_set (streams : Streams) (id : StreamId) (stream : Stream) :
    (streams.set id stream).refit f = (streams.refit f).set id (stream.refit f) := by
  cases id with
  | scratch => rfl
  | named name edition => simp only [set, refit, Table.map_set]

end Streams

theorem SeenThrough.toFrameIO {whole : Prop} {view : Handle → Handle} {transfer : Transfer α}
    (h : SeenThrough whole view transfer) : SeenThrough whole view transfer.toFrameIO := by
  intro handle hend
  have hseen := h handle
  cases hrun : transfer handle with
  | ok value after =>
    rw [hrun] at hseen
    rw [Transfer.toFrameIO_ok hrun, Transfer.toFrameIO_ok (hseen (.inr trivial)), mapState_ok]
  | error error after =>
    rw [Transfer.toFrameIO_error hrun] at hend
    rw [hrun] at hseen
    rw [Transfer.toFrameIO_error hrun, Transfer.toFrameIO_error (hseen (hend.imp_right False.elim)),
      mapState_error]

/-- What has to be seen of reads so that frames are seen: single seeks, and the bytes of trailers,
of lengths and of payloads. -/
structure SeesReads (whole : Prop) (f : Faults → Faults) : Prop where
  seek : ∀ target, SeenThrough whole (Handle.refit f) (Handle.seek target)
  readExactly : ∀ count, SeenThrough whole (Handle.refit f) (Handle.readExactly count)
  readLengthByte : SeenThrough whole (Handle.refit f) Frame.readLengthByte
  readPayload : ∀ {η : Type} [Message η] (codec : Codec) (length : Nat),
    SeenThrough whole (Handle.refit f) (Frame.readPayload codec length : FrameIO η)

/-- What has to be seen of frames so that trees are seen. A stream without faults looks like
itself. -/
structure Sees (whole : Prop) (f : Faults → Faults) : Prop where
  free : f {} = {}
  readAt : ∀ {η : Type} [Message η] (codec : Codec) (position : Nat),
    SeenThrough whole (Handle.refit f) (Frame.readAt codec position : FrameIO η)
  readRoot : ∀ {η : Type} [Message η] (codec : Codec),
    SeenThrough whole (Handle.refit f) (Frame.readRoot codec : FrameIO η)

namespace SeesReads

variable {whole : Prop} {f : Faults → Faults} (h : SeesReads whole f)

include h

private theorem readLength : SeenThrough whole (Handle.refit f) Frame.readLength := by
  have hbytes (left : Nat) : SeenThrough whole (Handle.refit f) (Frame.readLengthBytes left) := by
    induction left with
    | zero => exact .throw _
    | succ left ih =>
      refine .bind h.readLengthByte fun byte => ?_
      split
      · exact .pure _
      · exact .bind ih fun _ => .pure _
  refine .bind (hbytes _) fun bytes => ?_
  split
  · split
    · exact .pure _
    · exact .throw _
  · exact .throw _

theorem readNested [Message α] (codec : Codec) :
    SeenThrough whole (Handle.refit f) (Frame.readNested codec : FrameIO α) :=
  .bind h.readLength fun _ => h.readPayload codec _

theorem readAt [Message α] (codec : Codec) (position : Nat) :
    SeenThrough whole (Handle.refit f) (Frame.readAt codec position : FrameIO α) :=
  .bind (.map _ (.toFrameIO (h.seek _))) fun _ => h.readNested codec

private theorem seekRoot : SeenThrough whole (Handle.refit f) Frame.seekRoot := by
  rw [Frame.seekRoot_eq]
  refine .bind (.toFrameIO (h.seek _)) fun streamLen => ?_
  split
  · exact .throw _
  · refine .bind (.toFrameIO (h.seek _)) fun _ =>
      .bind (.toFrameIO (h.readExactly _)) fun data => ?_
    split
    · exact .throw _
    · exact .bind (.toFrameIO (h.seek _)) fun _ => .pure _

theorem readRoot [Message α] (codec : Codec) :
    SeenThrough whole (Handle.refit f) (Frame.readRoot codec : FrameIO α) := by
  rw [Frame.readRoot_eq]
  refine .bind h.seekRoot fun trailer => .bind h.readLength fun length => ?_
  split
  · exact .throw _
  · exact h.readPayload codec length

theorem sees (hfree : f {} = {}) : Sees whole f := ⟨hfree, h.readAt, h.readRoot⟩

end SeesReads

namespace SeenThrough

variable {whole : Prop} {f : Faults → Faults}

theorem withHandle {activity : FrameIO α} (hfree : f {} = {})
    (h : SeenThrough whole (Handle.refit f) activity) (id : StreamId) (position : Nat) :
    SeenThrough whole (Streams.refit f) (Streams.withHandle id position activity) := by
  intro streams hend
  rw [Streams.withHandle_apply, succeeds_mapState] at hend
  have hseen : activity ⟨(streams.get id).refit f, position⟩ = _ :=
    h ⟨streams.get id, position⟩ hend
  rw [Streams.withHandle_apply, Streams.withHandle_apply, Streams.get_refit hfree, hseen,
    mapState_mapState, mapState_mapState]
  simp only [Handle.refit, Streams.refit_set]

private theorem ofSource {activity : FrameIO α} (hfree : f {} = {})
    (h : SeenThrough whole (Handle.refit f) activity) (source : Source) :
    SeenThrough whole (Streams.refit f) (source.withHandle activity) := by
  unfold Source.withHandle
  split
  case isTrue => exact throw _
  case isFalse =>
    split
    case h_1 id _ => exact withHandle hfree h id 0
    case h_2 content _ =>
      -- A copy has no faults, and nothing that is done to it shows in the streams.
      intro streams _
      cases activity { stream := { content } } <;> rfl

end SeenThrough

namespace Sees

variable {whole : Prop} {f : Faults → Faults} (h : Sees whole f)

include h

theorem originRead [Message α] (origin : Origin) :
    SeenThrough whole (Streams.refit f) (origin.read : Load α) :=
  .ofSource h.free (h.readAt _ _) origin.source

theorem readHeader (source : Source) :
    SeenThrough whole (Streams.refit f) (Document.readHeader source) :=
  .ofSource h.free (h.readRoot _) source

theorem loadIdentity (stamp : Stamp) (field : UInt32) (origin : Option Origin) :
    SeenThrough whole (Streams.refit f) (Entry.loadIdentity stamp field origin) := by
  cases origin with
  | none => exact .pure _
  | some origin => exact .bind (h.originRead origin) fun _ => .pure _

theorem loadEntry (stamp : Stamp) (i : Nat) (origin : Option Origin) :
    SeenThrough whole (Streams.refit f) (Document.loadEntry stamp i origin) := by
  cases origin with
  | none => exact .pure _
  | some origin => exact .bind (h.originRead origin) fun _ => .pure _

end Sees
end FramedTree
