import FramedTree.Proofs.SimulationRules
import FramedTree.Proofs.SourceReads

/-! # Streams without their faults

A fault can make an activity fail, or make it see less of a stream than there is. It cannot make it
see something else: what an activity gives although its streams are faulty, it also gives once all
faults are taken away. Both runs leave the same behind, up to the faults.
-/

namespace FramedTree

variable {ε σ τ ν μ α β : Type}

/-- Whatever the activity gives in some state, it gives in the same state seen through `still`. -/
def Withstands (still : σ → σ) (activity : EStateM ε σ α) : Prop :=
  ∀ state value after, activity state = .ok value after →
    activity (still state) = .ok value (still after)

namespace Withstands

variable {still : σ → σ}

private theorem seen {activity : EStateM ε σ α} (h : Withstands still activity) :
    SeenThrough False still activity := by
  intro state hend
  cases hrun : activity state with
  | ok value after => rw [h state value after hrun, mapState_ok]
  | error error after =>
    rw [hrun] at hend
    exact (hend.elim id id).elim

theorem of_seen {activity : EStateM ε σ α} (h : SeenThrough False still activity) :
    Withstands still activity := by
  intro state value after hrun
  have hseen := h state
  rw [hrun] at hseen
  exact hseen (.inr trivial)

theorem pure (value : α) :
    Withstands still (Pure.pure value : EStateM ε σ α) := of_seen (.pure value)

private theorem throw (error : ε) :
    Withstands still (MonadExcept.throw error : EStateM ε σ α) := nofun

/-- A state that has nothing to hide leads to such a state. -/
theorem still_after {activity : EStateM ε σ α} (h : Withstands still activity) {state after : σ}
    {value : α} (hstill : still state = state) (hrun : activity state = .ok value after) :
    still after = after := by
  have hseen := h state value after hrun
  rw [hstill, hrun, EStateM.Result.ok.injEq] at hseen
  exact hseen.2.symm

end Withstands

theorem Fault.room_le_count (fault? : Option Fault) (position count : Nat) :
    room fault? position count ≤ count := by
  unfold room
  split
  · exact Nat.min_le_left _ _
  · exact Nat.le_refl _

theorem Faults.chunkSize_le (faults : Faults) (count : Nat) : faults.chunkSize count ≤ count := by
  unfold chunkSize
  split
  · exact Nat.min_le_left _ _
  · exact Nat.le_refl _

def Stream.still (stream : Stream) : Stream := { stream with faults := {} }

theorem Stream.calm_still (stream : Stream) : stream.still.Calm := Stream.calm_mk _ _

def Handle.still (handle : Handle) : Handle := { handle with stream := handle.stream.still }

namespace Handle

variable {handle after : Handle}

@[simp] theorem ahead_still (handle : Handle) : handle.still.ahead = handle.ahead := rfl

/-- What a disturbed read gives is the first part of what is ahead, and the handle has moved past
it. -/
structure Took (count : Nat) (handle after : Handle) (data : Bytes) : Prop where
  data_eq : data = handle.ahead.take data.length
  length_le : data.length ≤ count
  still_eq : after.still = handle.still.advance data.length

private theorem took_nil (count : Nat) {struck : Handle} (h : struck.still = handle.still) :
    Took count handle struck [] := ⟨rfl, Nat.zero_le _, h⟩

private theorem Took.append {between : Handle} {count : Nat} {data more : Bytes}
    (h : Took count handle between data) (h' : Took (count - data.length) between after more) :
    Took count handle after (data ++ more) := by
  have hahead : between.ahead = handle.ahead.drop data.length := by
    rw [← ahead_still, h.still_eq, ahead_advance, ahead_still]
  have hle := h.length_le
  have hle' := h'.length_le
  refine ⟨?_, ?_, ?_⟩
  · rw [List.length_append, List.take_add, ← hahead, ← h.data_eq, ← h'.data_eq]
  · rw [List.length_append]
    omega
  · rw [h'.still_eq, h.still_eq, advance_advance, List.length_append]

private theorem slice_took (handle : Handle) {count wanted : Nat} (h : count ≤ wanted) :
    Took wanted handle
      (handle.advance (handle.stream.slice handle.position count).length)
      (handle.stream.slice handle.position count) := by
  have hvisible : handle.stream.visible.drop handle.position <+: handle.ahead := by
    unfold Stream.visible Handle.ahead
    split
    · rw [List.drop_take]
      exact List.take_prefix _ _
    · exact List.prefix_rfl
  have hprefix : handle.stream.slice handle.position count <+: handle.ahead := by
    rw [Stream.slice_eq]
    exact (List.take_prefix _ _).trans hvisible
  refine ⟨List.prefix_iff_eq_take.1 hprefix, ?_, rfl⟩
  rw [Stream.slice_eq, List.length_take]
  omega

theorem readPlain_took {count : Nat} {data : Bytes} (h : readPlain count handle = .ok data after) :
    Took count handle after data := by
  unfold readPlain at h
  dsimp only at h
  split at h
  · cases h
    apply slice_took
    have hroom := Fault.room_le_count handle.stream.faults.read handle.position count
    have hchunk :=
      handle.stream.faults.chunkSize_le (Fault.room handle.stream.faults.read handle.position count)
    omega
  · split at h
    · cases h
    · cases h
      exact took_nil count rfl

private theorem read_took {count : Nat} {data : Bytes} (h : read count handle = .ok data after) :
    Took count handle after data := by
  unfold read at h
  split at h
  · exact readPlain_took h
  · cases h
  · obtain ⟨hdata, hle, hstill⟩ := readPlain_took h
    exact ⟨hdata, by omega, hstill⟩

private theorem readPlain_error {count : Nat} {error : IoError}
    (h : readPlain count handle = .error error after) :
    after.still = handle.still := by
  unfold readPlain at h
  dsimp only at h
  split at h
  · cases h
  · split at h
    · cases h
      rfl
    · cases h

private theorem read_error {count : Nat} {error : IoError}
    (h : read count handle = .error error after) :
    after.still = handle.still := by
  unfold read at h
  split at h
  · exact readPlain_error h
  · cases h
    rfl
  · exact (readPlain_error h).trans rfl

private theorem readOnce_took {count : Nat} {data : Bytes}
    (h : readOnce count handle = .ok data after) :
    Took count handle after data := by
  unfold readOnce at h
  generalize handle.stream.faults.readPatience = patience at h
  induction patience generalizing handle with
  | zero => exact read_took h
  | succ patience ih =>
    unfold Transfer.retrying at h
    cases hread : read count handle with
    | ok found between =>
      rw [hread] at h
      cases h
      exact read_took hread
    | error error between =>
      rw [hread] at h
      dsimp only at h
      split at h
      · obtain ⟨hdata, hle, hstill⟩ := ih h
        have hstruck := read_error hread
        refine ⟨?_, hle, ?_⟩
        · rwa [← ahead_still between, hstruck] at hdata
        · rw [hstill, hstruck]
      · cases h

private theorem gather_took {calls count : Nat} {data : Bytes}
    (h : gather calls count handle = .ok data after) :
    Took count handle after data := by
  induction calls generalizing handle count data with
  | zero =>
    cases h
    exact took_nil count rfl
  | succ calls ih =>
    unfold gather at h
    split at h
    · cases h
      exact took_nil count rfl
    · obtain ⟨first, between, hfirst, h⟩ := bind_ok h
      have htook := readOnce_took hfirst
      split at h
      case isTrue hempty =>
        cases h
        rw [List.isEmpty_iff] at hempty
        subst hempty
        exact took_nil count htook.still_eq
      case isFalse =>
        obtain ⟨rest, last, hrest, hdone⟩ := bind_ok h
        cases hdone
        exact htook.append (ih hrest)

private theorem readUpTo_still {count : Nat} {data : Bytes}
    (h : readUpTo count handle = .ok data after) (hlength : data.length = count) :
    readUpTo count handle.still = .ok data after.still := by
  obtain ⟨hdata, -, hstill⟩ := gather_took h
  rw [readUpTo_eq (Stream.calm_still _), ahead_still, hstill]
  rw [hlength] at hdata
  rw [← hdata]

end Handle

namespace Withstands

private theorem seek (target : SeekTarget) : Withstands Handle.still (Handle.seek target) := by
  intro handle position after hrun
  have hstill : Handle.seek target handle.still = .ok (handle.destination target)
      ⟨{ handle.still.stream with seeks := target :: handle.still.stream.seeks },
        handle.destination target⟩ :=
    Handle.seek_eq (Stream.calm_still _) target
  rw [hstill]
  unfold Handle.seek at hrun
  dsimp only at hrun
  split at hrun
  · cases hrun
    rfl
  · split at hrun
    · cases hrun
      rfl
    · split at hrun
      · cases hrun
      · cases hrun
        rfl

private theorem readExactly (count : Nat) : Withstands Handle.still (Handle.readExactly count) := by
  intro handle data after hrun
  obtain ⟨found, between, hread, hrest⟩ := bind_ok hrun
  split at hrest
  · cases hrest
  case isFalse hlong =>
    cases hrest
    have hle := (Handle.gather_took hread).length_le
    unfold Handle.readExactly
    rw [bind_apply, Handle.readUpTo_still hread (by omega)]
    dsimp only
    rw [if_neg hlong]
    rfl

private theorem readLengthByte : Withstands Handle.still Frame.readLengthByte := by
  intro handle byte after hrun
  unfold Frame.readLengthByte at hrun ⊢
  cases hread : Handle.readExactly 1 handle with
  | error error between =>
    rw [hread] at hrun
    dsimp only at hrun
    split at hrun <;> cases hrun
  | ok data between =>
    rw [hread] at hrun
    cases hrun
    rw [readExactly 1 _ _ _ hread]

private theorem readPayload [Message α] (codec : Codec) (length : Nat) :
    Withstands Handle.still (Frame.readPayload codec length : FrameIO α) := by
  rw [Frame.readPayload_eq]
  split
  · exact Withstands.throw _
  · intro handle value after hrun
    obtain ⟨payload, between, hread, hrest⟩ := bind_ok hrun
    split at hrest
    · cases hrest
    case isFalse hlong =>
      have htransfer := Transfer.toFrameIO_eq_ok hread
      have hle := (Handle.gather_took htransfer).length_le
      rw [bind_apply, Transfer.toFrameIO_ok (Handle.readUpTo_still htransfer (by omega))]
      dsimp only
      rw [if_neg hlong]
      cases hdecode : (Message.decode payload : Except _ α) with
      | error error =>
        rw [hdecode] at hrest
        cases hrest
      | ok found =>
        rw [hdecode] at hrest
        cases hrest
        rfl

end Withstands

namespace Streams

def still (streams : Streams) : Streams :=
  { streams with named := streams.named.map Stream.still, scratch := streams.scratch.still }

@[simp] theorem get_still (streams : Streams) (id : StreamId) :
    streams.still.get id = (streams.get id).still :=
  get_refit (f := fun _ => {}) rfl streams id

@[simp] theorem still_set (streams : Streams) (id : StreamId) (stream : Stream) :
    (streams.set id stream).still = streams.still.set id stream.still :=
  refit_set (f := fun _ => {}) streams id stream

theorem faults_of_still {streams : Streams} (h : streams.still = streams) (id : StreamId) :
    (streams.get id).faults = {} := by
  rw [← h, get_still]
  rfl

@[simp] theorem still_still (streams : Streams) : streams.still.still = streams.still := by
  simp only [still, Table.map, List.map_map]
  rfl

theorem holds_still {streams : Streams} {library : Library}
    (h : ∀ id content, library id = some content → (streams.get id).content = content) :
    streams.still.Holds library := by
  intro id content hid
  rw [get_still]
  exact ⟨Stream.calm_still _, h id content hid⟩

end Streams

namespace Withstands

/-- Without faults, whatever is read although there are faults is read as well. -/
theorem sees : Sees False fun _ => {} :=
  have hreads : SeesReads False fun _ => {} :=
    { seek := fun target => (seek target).seen
      readExactly := fun count => (readExactly count).seen
      readLengthByte := readLengthByte.seen
      readPayload := fun codec length => (readPayload codec length).seen }
  hreads.sees rfl

theorem originRead [Message α] (origin : Origin) :
    Withstands Streams.still (origin.read : Load α) :=
  of_seen (sees.originRead origin)

theorem loadIdentity (stamp : Stamp) (field : UInt32) (origin : Option Origin) :
    Withstands Streams.still (Entry.loadIdentity stamp field origin) :=
  of_seen (sees.loadIdentity stamp field origin)

theorem loadEntry (stamp : Stamp) (i : Nat) (origin : Option Origin) :
    Withstands Streams.still (Document.loadEntry stamp i origin) :=
      of_seen (sees.loadEntry stamp i origin)

end Withstands
end FramedTree
