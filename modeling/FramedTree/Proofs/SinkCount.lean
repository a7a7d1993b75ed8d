import Mathlib.Algebra.BigOperators.Group.List.Basic
import Mathlib.Algebra.GroupWithZero.Nat
import FramedTree.Proofs.Emission
import FramedTree.Proofs.FramesAnywhere
import FramedTree.Proofs.SaveRemnants

/-! # What a sink counts

A sink counts the bytes of the frames that it has written. As long as every write succeeds these are
the bytes that have come to its stream, and the positions that it gives are those at which the
frames start. A write that fails may leave the beginning of a frame, which the sink does not count:
from then on the positions that it gives are too small, by as many bytes as failed writes have left.
-/

namespace FramedTree

variable {α : Type} {codec : Codec}

namespace Header

variable {header : Header} {frame : Bytes}

def frameSize (header : Header) : Nat :=
  header.use fun message => Frame.size (Message.encodedLen message) .nested

/-- Whoever reads the bytes at the position without being disturbed gets the header. -/
def ReadsBack (codec : Codec) (header : Header) (bytes : Bytes) (position : Nat) : Prop :=
  header.use fun message => ∀ handle : Handle, handle.stream.Calm → handle.stream.bytes = bytes →
    ∃ after, Frame.readAt codec position handle = .ok message after

private theorem length_encode (h : header.encode codec = .ok frame) :
    frame.length = header.frameSize := by
  cases header <;> exact Frame.length_encode_of_ok h

private theorem readsBack (h : header.encode codec = .ok frame) (before rest : Bytes) :
    header.ReadsBack codec (before ++ frame ++ rest) before.length := by
  cases header <;> exact fun _ hcalm hbytes => (Frame.readAt_frame hcalm h hbytes).imp fun _ =>
    And.left

end Header

namespace Sink

def writeHeader (header : Header) : SinkIO Nat := header.use fun message => write .nested message

/-- What a write that failed has left: nothing of a header that has no frame, and less than the
whole of a frame. -/
inductive Fragment (codec : Codec) (header : Header) (error : Error) : Bytes → Prop where
  | refused (h : header.encode codec = .error error) : Fragment codec header error []
  | torn {frame left : Bytes} {cause : IoError} (h : header.encode codec = .ok frame)
      (herror : error = .io cause)
      (hbegins : left <+: frame) (hshort : left.length < frame.length) :
        Fragment codec header error left

section Writing

variable {state after : Sink × Handle} {error : Error}

private theorem write_error [Message α] {kind : FrameKind} {message : α}
    (h : write kind message state = .error error after) :
    after.1 = state.1 ∧ Frame.write state.1.codec kind message state.2 = .error error after.2 := by
  obtain ⟨sink, handle⟩ := state
  unfold write at h
  dsimp only at h
  cases hwrite : Frame.write sink.codec kind message handle with
  | ok size last =>
    rw [hwrite] at h
    cases h
  | error found last =>
    rw [hwrite] at h
    cases h
    exact ⟨rfl, rfl⟩

private theorem writeHeader_ok {header : Header} {given : Nat} (hend : state.2.AtEnd)
    (h : writeHeader header state = .ok given after) :
    given = state.1.position ∧ ∃ frame, header.encode state.1.codec = .ok frame ∧
      after.1 =
        { state.1 with position := state.1.position + frame.length, frames := state.1.frames + 1 } ∧
      after.2.AtEnd ∧ after.2.stream.bytes = state.2.stream.bytes ++ frame := by
  cases header <;> exact write_ok hend h

private theorem writeHeader_error {header : Header} (hend : state.2.AtEnd)
    (h : writeHeader header state = .error error after) :
    after.1 = state.1 ∧ after.2.AtEnd ∧ ∃ left, Fragment state.1.codec header error left ∧
      after.2.stream.bytes = state.2.stream.bytes ++ left := by
  have hwrite : after.1 = state.1 ∧
    ((header.encode state.1.codec = .error error ∧ after.2 = state.2) ∨
      ∃ frame cause, header.encode state.1.codec = .ok frame ∧ error = .io cause ∧
        Handle.writeAll frame state.2 = .error cause after.2) := by
    cases header <;> exact ⟨(write_error h).1, Frame.write_error (write_error h).2⟩
  obtain ⟨hsink, ⟨hrefused, hstate⟩ | ⟨frame, cause, hencode, herror, hpour⟩⟩ := hwrite
  · rw [hstate]
    exact ⟨hsink, hend, [], .refused hrefused, (List.append_nil _).symm⟩
  · obtain ⟨hlast, left, hprefix, hshort, hbytes⟩ := Handle.pour_error hend hpour
    exact ⟨hsink, hlast, left, .torn hencode herror hprefix hshort, hbytes⟩

end Writing

/-- What happens to a sink: its stream gets other faults, or a header is to be written. -/
inductive Event where
  | faults (faults : Faults)
  | write (header : Header)

/-- What came of a write: the position that it gave, unless it failed, and the bytes that it added
to the stream. -/
structure Deposit where
  header : Header
  outcome : Except Error Nat
  left : Bytes
  deriving DecidableEq

/-- A sink and its handle after some events, whatever came of the writes among them. -/
def run : List Event → Sink × Handle → List Deposit × (Sink × Handle)
  | [], state => ([], state)
  | .faults faults :: events, (sink, handle) =>
    run events (sink, { handle with stream := { handle.stream with faults } })
  | .write header :: events, state =>
    let result := writeHeader header state
    let last := stateAfter result
    let later := run events last
    (⟨header, verdict result, last.2.stream.bytes.drop state.2.stream.bytes.length⟩ :: later.1,
      later.2)

namespace Deposit

variable {deposit : Deposit}

def counted (deposit : Deposit) : Nat :=
  match deposit.outcome with
  | .ok _ => deposit.left.length
  | .error _ => 0

def lost (deposit : Deposit) : Nat :=
  match deposit.outcome with
  | .ok _ => 0
  | .error _ => deposit.left.length

/-- A write that succeeded has left a frame, and one that failed at most the beginning of a
frame. -/
def Fits (codec : Codec) (deposit : Deposit) : Prop :=
  match deposit.outcome with
  | .ok _ => deposit.header.encode codec = .ok deposit.left
  | .error error => Fragment codec deposit.header error deposit.left

def given? (deposit : Deposit) : Option Nat := deposit.outcome.toOption

private theorem counted_add_lost (deposit : Deposit) :
    deposit.counted + deposit.lost = deposit.left.length := by
  unfold counted lost
  cases deposit.outcome with
  | ok given => rfl
  | error error => exact Nat.zero_add _

end Deposit

/-- How many bytes failed writes have left. -/
def lost (deposits : List Deposit) : Nat := (deposits.map Deposit.lost).sum

def counted (deposits : List Deposit) : Nat := (deposits.map Deposit.counted).sum

private theorem counted_add_lost (deposits : List Deposit) :
    counted deposits + lost deposits = (deposits.flatMap Deposit.left).length := by
  induction deposits with
  | nil => rfl
  | cons deposit deposits ih =>
    have := deposit.counted_add_lost
    rw [List.flatMap_cons, List.length_append, ← ih]
    simp only [counted, lost, List.map_cons, List.sum_cons]
    omega

/-- The deposits were made one after another by a sink that had counted up to `position`. -/
def Counts (codec : Codec) : (position : Nat) → List Deposit → Prop
  | _, [] => True
  | position, deposit :: rest =>
    deposit.Fits codec ∧ (∀ given, deposit.outcome = .ok given → given = position) ∧
    Counts codec (position + deposit.counted) rest

namespace Counts

variable {position : Nat} {deposits others : List Deposit}

private theorem append (h : Counts codec position deposits)
    (hothers : Counts codec (position + counted deposits) others) :
    Counts codec position (deposits ++ others) := by
  induction deposits generalizing position with
  | nil => exact hothers
  | cons deposit rest ih =>
    obtain ⟨hfits, hgiven, hrest⟩ := h
    refine ⟨hfits, hgiven, ih hrest ?_⟩
    rwa [counted, List.map_cons, List.sum_cons, ← Nat.add_assoc] at hothers

private theorem fits (h : Counts codec position deposits) :
    ∀ deposit ∈ deposits, deposit.Fits codec := by
  induction deposits generalizing position with
  | nil =>
    intro deposit hdeposit
    cases hdeposit
  | cons deposit rest ih =>
    obtain ⟨hfits, -, hrest⟩ := h
    exact List.forall_mem_cons.2 ⟨hfits, ih hrest⟩

private theorem given_eq {before after : List Deposit} {deposit : Deposit} {given : Nat}
    (h : Counts codec position (before ++ deposit :: after))
    (hgiven : deposit.outcome = .ok given) :
    given = position + counted before := by
  induction before generalizing position with
  | nil => exact h.2.1 given hgiven
  | cons first rest ih =>
    rw [ih h.2.2, counted, counted, List.map_cons, List.sum_cons, Nat.add_assoc]

private theorem pairwise (h : Counts codec position deposits) :
    (∀ given ∈ deposits.filterMap Deposit.given?, position ≤ given) ∧
      (deposits.filterMap Deposit.given?).Pairwise (· < ·) := by
  -- That all of them are at least `position` is what makes the first one less than the others.
  induction deposits generalizing position with
  | nil => exact ⟨nofun, .nil⟩
  | cons deposit rest ih =>
    obtain ⟨header, outcome, left⟩ := deposit
    obtain ⟨hfits, hgiven, hrest⟩ := h
    obtain ⟨hfrom, hrises⟩ := ih hrest
    cases outcome with
    | error error => exact ⟨hfrom, hrises⟩
    | ok given =>
      obtain rfl := hgiven given rfl
      have hleft : 0 < left.length := List.length_pos_of_ne_nil (Header.encode_ne_nil hfits)
      have hlater (later : Nat) (hmem : later ∈ rest.filterMap Deposit.given?) : given < later :=
        Nat.lt_of_lt_of_le (Nat.lt_add_of_pos_right hleft) (hfrom later hmem)
      exact ⟨List.forall_mem_cons.2
        ⟨Nat.le_refl _, fun later hmem => Nat.le_of_lt (hlater later hmem)⟩, .cons hlater hrises⟩

end Counts

/-- From one state to another by way of some deposits, always at the end of the stream. -/
structure Leads (before : Sink × Handle) (deposits : List Deposit) (after : Sink × Handle) :
    Prop where
  codec_eq : after.1.codec = before.1.codec
  start_eq : after.1.start = before.1.start
  position_eq : after.1.position = before.1.position + counted deposits
  frames_eq : after.1.frames = before.1.frames + (deposits.filterMap Deposit.given?).length
  atEnd : after.2.AtEnd
  bytes_eq : after.2.stream.bytes = before.2.stream.bytes ++ deposits.flatMap Deposit.left
  counts : Counts before.1.codec before.1.position deposits

namespace Leads

variable {first second third state : Sink × Handle} {deposits others : List Deposit}

private theorem nothing (hend : state.2.AtEnd) : Leads state [] state :=
  ⟨rfl, rfl, rfl, rfl, hend, (List.append_nil _).symm, trivial⟩

private theorem faults (hend : state.2.AtEnd) (faults : Faults) :
    Leads state [] (state.1, { state.2 with stream := { state.2.stream with faults } }) :=
  ⟨rfl, rfl, rfl, rfl, hend, (List.append_nil _).symm, trivial⟩

private theorem append (h : Leads first deposits second) (hothers : Leads second others third) :
    Leads first (deposits ++ others) third where
  codec_eq := hothers.codec_eq.trans h.codec_eq
  start_eq := hothers.start_eq.trans h.start_eq
  position_eq := by
    rw [hothers.position_eq, h.position_eq, counted, counted, counted, List.map_append,
      List.sum_append, Nat.add_assoc]
  frames_eq := by
    rw [hothers.frames_eq, h.frames_eq, List.filterMap_append, List.length_append, Nat.add_assoc]
  atEnd := hothers.atEnd
  bytes_eq := by rw [hothers.bytes_eq, h.bytes_eq, List.flatMap_append, List.append_assoc]
  counts := by
    have hcounts := hothers.counts
    rw [h.codec_eq, h.position_eq] at hcounts
    exact h.counts.append hcounts

private theorem writeHeader (hend : state.2.AtEnd) (header : Header) :
    Leads state
      [⟨header, verdict (Sink.writeHeader header state),
        (stateAfter (Sink.writeHeader header state)).2.stream.bytes.drop
          state.2.stream.bytes.length⟩]
      (stateAfter (Sink.writeHeader header state)) := by
  cases hwrite : Sink.writeHeader header state with
  | ok given after =>
    obtain ⟨rfl, frame, hencode, hsink, hafter, hbytes⟩ := writeHeader_ok hend hwrite
    have hleft : after.2.stream.bytes.drop state.2.stream.bytes.length = frame := by
      rw [hbytes, List.drop_left]
    refine ⟨?_, ?_, ?_, ?_, hafter, ?_, ?_⟩
    · rw [stateAfter_ok, hsink]
    · rw [stateAfter_ok, hsink]
    · rw [stateAfter_ok, hsink, hleft]
      rfl
    · rw [stateAfter_ok, hsink]
      rfl
    · exact hbytes.trans (congrArg (_ ++ ·) (by simpa using hleft.symm))
    · refine ⟨?_, fun given hgiven => (Except.ok.inj hgiven).symm, trivial⟩
      exact hencode.trans (congrArg Except.ok hleft.symm)
  | error error after =>
    obtain ⟨hsink, hafter, left, hfragment, hbytes⟩ := writeHeader_error hend hwrite
    have hleft : after.2.stream.bytes.drop state.2.stream.bytes.length = left := by
      rw [hbytes, List.drop_left]
    refine ⟨?_, ?_, ?_, ?_, hafter, ?_, ?_⟩
    · exact congrArg Sink.codec hsink
    · exact congrArg Sink.start hsink
    · exact congrArg Sink.position hsink
    · exact congrArg Sink.frames hsink
    · exact hbytes.trans (congrArg (_ ++ ·) (by simpa using hleft.symm))
    · refine ⟨?_, nofun, trivial⟩
      rw [← hleft] at hfragment
      exact hfragment

end Leads

private theorem run_leads (events : List Event) {state : Sink × Handle} (hend : state.2.AtEnd) :
    Leads state (run events state).1 (run events state).2 := by
  -- The first event leads to an end of the stream again, whatever came of it, and from there the
  -- rest does.
  induction events generalizing state with
  | nil => exact .nothing hend
  | cons event events ih =>
    cases event with
    | faults faults =>
      have hfaults := Leads.faults hend faults
      exact hfaults.append (ih hfaults.atEnd)
    | write header =>
      have hwrite := Leads.writeHeader hend header
      exact hwrite.append (ih hwrite.atEnd)

private theorem Counts.readsBack {held : Bytes} {before after : List Deposit} {deposit : Deposit}
    {given : Nat} (h : Counts codec held.length (before ++ deposit :: after))
    (hgiven : deposit.outcome = .ok given) (rest : Bytes) :
    given + lost before = (held ++ before.flatMap Deposit.left).length ∧
      deposit.header.ReadsBack codec
        (held ++ (before ++ deposit :: after).flatMap Deposit.left ++ rest)
        (given + lost before) := by
  have hstart : given + lost before = (held ++ before.flatMap Deposit.left).length := by
    rw [h.given_eq hgiven, List.length_append, ← counted_add_lost, Nat.add_assoc]
  have hfits : deposit.Fits codec := h.fits deposit (List.mem_append_right _ List.mem_cons_self)
  rw [Deposit.Fits, hgiven] at hfits
  have hback := Header.readsBack hfits (held ++ before.flatMap Deposit.left)
    (after.flatMap Deposit.left ++ rest)
  refine ⟨hstart, ?_⟩
  rw [hstart, List.flatMap_append, List.flatMap_cons]
  simpa only [List.append_assoc] using hback

/-- Whatever faults a stream gets, a sink at its end adds whole frames to it, and the beginnings of
those that it failed to write. A position that the sink gives is where the frame starts, less what
failed writes have left before. -/
theorem positions_lag {handle start : Handle} {sink : Sink}
    (h : Sink.atEnd codec handle = .ok sink start) (events : List Event) :
    let deposits := (run events (sink, start)).1
    let bytes := (run events (sink, start)).2.2.stream.bytes
    bytes = handle.stream.bytes ++ deposits.flatMap Deposit.left ∧
    (∀ deposit ∈ deposits, deposit.Fits codec) ∧
      ∀ before deposit after given,
        deposits = before ++ deposit :: after → deposit.outcome = .ok given →
        given + lost before = (handle.stream.bytes ++ before.flatMap Deposit.left).length ∧
        deposit.header.ReadsBack codec bytes (given + lost before) := by
  obtain ⟨rfl, hend, hcontent⟩ := Document.atEnd_ok h
  have hbytes : start.stream.bytes = handle.stream.bytes := congrArg Array.toList hcontent
  have hleads := @run_leads events (startingAt codec handle.stream.content.size, start) hend
  have hcounts : Counts codec handle.stream.bytes.length _ := hleads.counts
  have hall := hleads.bytes_eq.trans (congrArg (· ++ _) hbytes)
  refine ⟨hall, hcounts.fits, fun before deposit after given hsplit hgiven => ?_⟩
  rw [hsplit] at hcounts hall
  have hback := hcounts.readsBack hgiven []
  rwa [List.append_nil, ← hall] at hback

/-- A stream of one byte, whose end is still to be looked for. -/
def oneByte : Handle := ⟨⟨#[9], {}, []⟩, 0⟩

/-- The stream takes one byte of the second of three frames. -/
def interrupted : List Event :=
  [.write (.identity { birthYear := some 7 }),
    .faults { write := some { effect := .fail ⟨.brokenPipe, "full"⟩, start := 5 } },
    .write (.document ⟨[1]⟩),
    .faults {}, .write (.identity { birthYear := some 8 })]

def interruptedDeposits : List Deposit :=
  [⟨.identity { birthYear := some 7 }, .ok 1, [2, 16, 7]⟩,
    ⟨.document ⟨[1]⟩, .error (.io ⟨.brokenPipe, "full"⟩), [3]⟩,
    ⟨.identity { birthYear := some 8 }, .ok 4, [2, 16, 8]⟩]

/-- The last frame starts at 5, one byte behind the position that was given. -/
theorem positions_lag_by_one : ∃ start, Sink.atEnd {} oneByte = .ok (startingAt {} 1) start ∧
    (run interrupted (startingAt {} 1, start)).1 = interruptedDeposits ∧
    (run interrupted (startingAt {} 1, start)).2.2.stream.bytes = [9, 2, 16, 7, 3, 2, 16, 8] ∧
    lost (interruptedDeposits.take 2) = 1 ∧
    Header.ReadsBack {} (.identity { birthYear := some 8 }) [9, 2, 16, 7, 3, 2, 16, 8] (4 + 1) := by
  have hopen := eq_ok_of_verdict (Sink.atEnd {} oneByte) (startingAt {} 1) (by decide +kernel)
  have hrun : (run interrupted (startingAt {} 1, stateAfter (Sink.atEnd {} oneByte))).1 =
    interruptedDeposits := by
    decide +kernel
  have hbytes :
    (run interrupted (startingAt {} 1, stateAfter (Sink.atEnd {} oneByte))).2.2.stream.bytes =
      [9, 2, 16, 7, 3, 2, 16, 8] := by
    decide +kernel
  obtain ⟨-, -, hpositions⟩ := positions_lag hopen interrupted
  rw [hrun, hbytes] at hpositions
  exact ⟨_, hopen, hrun, hbytes, rfl, (hpositions (interruptedDeposits.take 2) _ [] 4 rfl rfl).2⟩

/-- The position that was given leads to what is left of the frame before. -/
theorem position_after_failure_misleads :
    ∃ start, Sink.atEnd {} oneByte = .ok (startingAt {} 1) start ∧
    (run interrupted (startingAt {} 1, start)).1.map Deposit.outcome =
      [.ok 1, .error (.io ⟨.brokenPipe, "full"⟩), .ok 4] ∧
    (run interrupted (startingAt {} 1, start)).2.2.stream.bytes = [9, 2, 16, 7, 3, 2, 16, 8] ∧
    ¬ Header.ReadsBack {} (.identity { birthYear := some 8 }) [9, 2, 16, 7, 3, 2, 16, 8] 4 := by
  refine ⟨_, eq_ok_of_verdict _ _ (by decide +kernel),
    by decide +kernel, by decide +kernel, fun hback => ?_⟩
  obtain ⟨after, hread⟩ := hback ⟨⟨#[9, 2, 16, 7, 3, 2, 16, 8], {}, []⟩, 0⟩ (Stream.calm_mk _ _) rfl
  have hfound : verdict (Frame.readAt {} 4 ⟨⟨#[9, 2, 16, 7, 3, 2, 16, 8], {}, []⟩, 0⟩) =
      .ok ({ birthYear := some 8 } : IdentityHeader) := congrArg verdict hread
  exact absurd hfound (by decide +kernel)

private theorem run_append (first rest : List Event) (state : Sink × Handle) :
    run (first ++ rest) state =
      ((run first state).1 ++ (run rest (run first state).2).1,
        (run rest (run first state).2).2) := by
  induction first generalizing state with
  | nil => rfl
  | cons event events ih =>
    cases event with
    | faults faults => exact ih _
    | write header => rw [List.cons_append, run, ih, run, List.cons_append]

private theorem run_writes (headers : List Header) (state : Sink × Handle) :
    (run (headers.map .write) state).1.map Deposit.header = headers := by
  induction headers generalizing state with
  | nil => rfl
  | cons header headers ih => rw [List.map_cons, run, List.map_cons, ih]

def Deposit.Succeeds (deposit : Deposit) : Prop := ∃ given, deposit.outcome = .ok given

namespace Deposit.Succeeds

variable {deposit : Deposit}

private theorem lost_eq (h : deposit.Succeeds) : deposit.lost = 0 := by
  obtain ⟨given, hgiven⟩ := h
  rw [Deposit.lost, hgiven]

private theorem encode_eq (h : deposit.Succeeds) (hfits : deposit.Fits codec) :
    deposit.header.encode codec = .ok deposit.left := by
  obtain ⟨given, hgiven⟩ := h
  rwa [Deposit.Fits, hgiven] at hfits

private theorem counted_eq (h : deposit.Succeeds) (hfits : deposit.Fits codec) :
    deposit.counted = deposit.header.frameSize := by
  rw [← Header.length_encode (h.encode_eq hfits), ← deposit.counted_add_lost, h.lost_eq,
    Nat.add_zero]

end Deposit.Succeeds

section Successes

variable {deposits : List Deposit}

private theorem lost_eq_zero (h : ∀ deposit ∈ deposits, deposit.Succeeds) : lost deposits = 0 :=
  List.sum_eq_zero (List.forall_mem_map.2 fun deposit hdeposit => (h deposit hdeposit).lost_eq)

private theorem counted_eq_sizes (h : ∀ deposit ∈ deposits, deposit.Succeeds)
    (hfits : ∀ deposit ∈ deposits, deposit.Fits codec) :
    counted deposits = ((deposits.map Deposit.header).map Header.frameSize).sum := by
  rw [counted, List.map_map, List.map_congr_left fun deposit hdeposit =>
    (h deposit hdeposit).counted_eq (hfits deposit hdeposit)]
  rfl

private theorem length_given (h : ∀ deposit ∈ deposits, deposit.Succeeds) :
    (deposits.filterMap Deposit.given?).length = deposits.length := by
  rw [List.filterMap_length_eq_length]
  intro deposit hdeposit
  obtain ⟨given, hgiven⟩ := h deposit hdeposit
  rw [Deposit.given?, hgiven]
  rfl

end Successes

/-- A sink for the end of a stream: it has looked for the end, or has been told where its handle
stands. -/
inductive Opened (codec : Codec) (handle : Handle) : Sink × Handle → Prop where
  | looked {sink : Sink} {start : Handle} (h : atEnd codec handle = .ok sink start) :
      Opened codec handle (sink, start)
  | told (h : handle.AtEnd) :
      Opened codec handle (startingAt codec handle.stream.bytes.length, handle)

/-- What a stream holds when the root frame has been written behind the frames of some headers, and
what readers get. -/
structure Finished [Message α] (codec : Codec) (held : Bytes) (headers : List Header)
    (positions : List Nat) (root : α) (total : Nat) (bytes : Bytes) : Prop where
  /-- The frames follow what was there, and nothing else does. -/
  bytes_eq : ∃ frames last,
    List.Forall₂ (fun header frame => header.encode codec = .ok frame) headers frames ∧
    Frame.encode codec .root root = .ok last ∧ bytes = held ++ (frames.flatten ++ last) ∧
    total = (frames.flatten ++ last).length
  /-- Every header is read back from the position that was given for it. -/
  nested : List.Forall₂ (fun header position => header.ReadsBack codec bytes position) headers
    positions
  /-- The root is read back from the end. -/
  root : ∀ handle : Handle, handle.stream.Calm → handle.stream.bytes = bytes →
    ∃ after, Frame.readRoot codec handle = .ok root after

section Counting

variable {handle : Handle} {state : Sink × Handle} {headers : List Header} {positions : List Nat}
  {deposits : List Deposit}

private theorem Opened.inv (h : Opened codec handle state) :
    state.1 = startingAt codec handle.stream.bytes.length ∧
    state.2.AtEnd ∧ state.2.stream.bytes = handle.stream.bytes := by
  cases h with
  | looked h =>
    obtain ⟨rfl, hend, hcontent⟩ := Document.atEnd_ok h
    exact ⟨rfl, hend, congrArg Array.toList hcontent⟩
  | told hend => exact ⟨rfl, hend, rfl⟩

private theorem succeeds_of_given (h : deposits.map Deposit.outcome = positions.map .ok) :
    ∀ deposit ∈ deposits, deposit.Succeeds := by
  intro deposit hdeposit
  have hmem : deposit.outcome ∈ positions.map Except.ok := by
    rw [← h]
    exact List.mem_map_of_mem hdeposit
  obtain ⟨given, -, hgiven⟩ := List.mem_map.1 hmem
  exact ⟨given, hgiven.symm⟩

private theorem given_of_outcomes (h : deposits.map Deposit.outcome = positions.map .ok) :
    deposits.filterMap Deposit.given? = positions := by
  have hgiven := congrArg (List.filterMap Except.toOption) h
  rw [List.filterMap_map, List.filterMap_map] at hgiven
  exact hgiven.trans (List.filterMap_some ..)

private theorem succeeds_take (h : ∀ deposit ∈ (run (headers.map .write) state).1, deposit.Succeeds)
    (k : Nat) :
    ∀ deposit ∈ (run ((headers.take k).map .write) state).1, deposit.Succeeds := by
  intro deposit hdeposit
  apply h
  rw [← List.take_append_drop k headers, List.map_append, run_append]
  exact List.mem_append_left _ hdeposit

private theorem counts_of_succeeds (hopened : Opened codec handle state)
    (h : ∀ deposit ∈ (run (headers.map .write) state).1, deposit.Succeeds) :
    let after := (run (headers.map .write) state).2
    after.1.position = handle.stream.bytes.length + (headers.map Header.frameSize).sum ∧
      after.1.position = after.2.stream.bytes.length ∧ after.1.frames = headers.length := by
  obtain ⟨hsink, hend, hbytes⟩ := hopened.inv
  have hleads := run_leads (headers.map .write) hend
  have hposition := hleads.position_eq
  have hframes := hleads.frames_eq
  have hlength := congrArg List.length hleads.bytes_eq
  rw [hsink] at hposition hframes
  rw [List.length_append, ← counted_add_lost, lost_eq_zero h, Nat.add_zero, hbytes] at hlength
  refine ⟨?_, hposition.trans hlength.symm, ?_⟩
  · rw [hposition, counted_eq_sizes h hleads.counts.fits, run_writes]
    rfl
  · rw [hframes, length_given h, ← List.length_map Deposit.header, run_writes]
    exact Nat.zero_add _

private theorem frames_of_succeeds (h : ∀ deposit ∈ deposits, deposit.Succeeds)
    (hfits : ∀ deposit ∈ deposits, deposit.Fits codec) :
    List.Forall₂ (fun header frame => header.encode codec = .ok frame) (deposits.map Deposit.header)
      (deposits.map Deposit.left) := by
  rw [List.forall₂_map_left_iff, List.forall₂_map_right_iff, List.forall₂_same]
  exact fun deposit hdeposit => (h deposit hdeposit).encode_eq (hfits deposit hdeposit)

private theorem readsBack_of_given {held : Bytes} (hcounts : Counts codec held.length deposits)
    (hgiven : deposits.map Deposit.outcome = positions.map .ok) (rest : Bytes) :
    List.Forall₂ (fun header position => header.ReadsBack codec
      (held ++ deposits.flatMap Deposit.left ++ rest) position)
      (deposits.map Deposit.header) positions := by
  have hsucceeds := succeeds_of_given hgiven
  have hback (deposit : Deposit) (hdeposit : deposit ∈ deposits) (given : Nat)
    (h : deposit.outcome = .ok given) :
      deposit.header.ReadsBack codec (held ++ deposits.flatMap Deposit.left ++ rest) given := by
    obtain ⟨before, after, rfl⟩ := List.append_of_mem hdeposit
    have hlost := lost_eq_zero fun other hother => hsucceeds other (List.mem_append_left _ hother)
    have hread := (hcounts.readsBack h rest).2
    rwa [hlost, Nat.add_zero] at hread
  have hsame : List.Forall₂ (· = ·) (deposits.map Deposit.outcome) (positions.map Except.ok) := by
    rw [hgiven]
    exact List.forall₂_refl _
  rw [List.forall₂_map_left_iff, List.forall₂_map_right_iff] at hsame
  rw [List.forall₂_map_left_iff]
  exact ((List.forall₂_and_left ..).2 ⟨hback, hsame⟩).imp fun deposit given h => h.1 given h.2

private theorem finished [Message α] [LawfulMessage α] {root : α} {total : Nat}
    {last : Sink × Handle} (hopened : Opened codec handle state)
    (hgiven : (run (headers.map .write) state).1.map Deposit.outcome = positions.map .ok)
    (hfinish : finish root (run (headers.map .write) state).2 = .ok total last) :
    Finished codec handle.stream.bytes headers positions root total last.2.stream.bytes := by
  obtain ⟨hsink, hend, hbytes⟩ := hopened.inv
  have hleads := run_leads (headers.map .write) hend
  have hcounts := hleads.counts
  have hall := hleads.bytes_eq
  have hposition := hleads.position_eq
  obtain ⟨frame, hencode, hlast, htotal⟩ := finish_ok hleads.atEnd hfinish
  rw [hleads.start_eq] at htotal
  rw [hleads.codec_eq] at hencode
  rw [hsink] at hcounts hposition htotal hencode
  rw [hbytes] at hall
  rw [hall] at hlast
  have hheaders := run_writes headers state
  have hsucceeds := succeeds_of_given hgiven
  -- From here on the run counts only through its deposits, and the headers are theirs.
  generalize (run (headers.map .write) state).1 = deposits at *
  subst hheaders
  have hlength := counted_add_lost deposits
  rw [lost_eq_zero hsucceeds, Nat.add_zero] at hlength
  rw [List.flatMap_def, List.append_assoc] at hlast
  refine ⟨⟨deposits.map Deposit.left, frame, frames_of_succeeds hsucceeds hcounts.fits, hencode,
    hlast, ?_⟩, ?_, ?_⟩
  · rw [htotal, hposition, hlength, List.length_append, List.flatMap_def, startingAt]
    dsimp only
    omega
  · rw [hlast, ← List.append_assoc, ← List.flatMap_def]
    exact readsBack_of_given hcounts hgiven frame
  · intro reader hcalm hreader
    rw [hlast, ← List.append_assoc] at hreader
    exact Frame.readRoot_ok hcalm hencode hreader

private theorem writeHeader_free (header : Header) (hfree : state.2.stream.faults = {}) :
    (stateAfter (writeHeader header state)).2.stream.faults = {} := by
  have hwrite {β : Type} [Message β] (message : β) :
    (stateAfter (write .nested message state)).2.stream.faults = {} := by
    obtain ⟨sink, handle⟩ := state
    unfold write
    dsimp only
    cases hencode : Frame.encode sink.codec .nested message with
    | error error =>
      rw [Frame.write_refused hencode]
      exact hfree
    | ok frame =>
      obtain ⟨after, hok, hafter⟩ := Frame.write_free hfree hencode
      rw [hok]
      exact hafter
  cases header <;> exact hwrite _

private theorem run_free (headers : List Header) (hfree : state.2.stream.faults = {}) :
    (run (headers.map .write) state).2.2.stream.faults = {} := by
  induction headers generalizing state with
  | nil => exact hfree
  | cons header headers ih => exact ih (writeHeader_free header hfree)

private theorem finish_of_free [Message α] [LawfulMessage α] {root : α}
    (hfree : state.2.stream.faults = {})
    (hsize : Message.encodedLen root ≤ state.1.codec.maxFrameLen.toNat) :
    ∃ total last, finish root state = .ok total last := by
  obtain ⟨sink, handle⟩ := state
  obtain ⟨frame, hencode, -⟩ := (Frame.faithful sink.codec root).sized hsize .root
  obtain ⟨after, hwrite, hafter⟩ := Frame.write_free hfree hencode
  obtain ⟨total, last, hfinish⟩ := finish_free hafter hwrite
  exact ⟨total, _, hfinish⟩

/-- As long as the writes of a sink succeed, its count is that of the bytes in its stream and of its
calls, and the positions that it gives rise. Once the root frame has been written as well, the
stream holds what it held before and one frame behind the other; that many bytes are reported, and
every message is read back. -/
theorem counts_every_frame (hopened : Opened codec handle state)
    (hgiven : (run (headers.map .write) state).1.map Deposit.outcome = positions.map .ok) :
    (∀ k ≤ headers.length,
      let after := (run ((headers.take k).map .write) state).2
      after.1.position = handle.stream.bytes.length + ((headers.take k).map Header.frameSize).sum ∧
        after.1.position = after.2.stream.bytes.length ∧ after.1.frames = k) ∧
    positions.Pairwise (· < ·) ∧
    ∀ root : Header, root.use fun message =>
      (∀ total last, finish message (run (headers.map .write) state).2 = .ok total last →
        Finished codec handle.stream.bytes headers positions message total last.2.stream.bytes) ∧
      (state.2.stream.faults = {} → Message.encodedLen message ≤ codec.maxFrameLen.toNat →
        ∃ total last, finish message (run (headers.map .write) state).2 = .ok total last) := by
  obtain ⟨hsink, hend, -⟩ := hopened.inv
  have hleads := run_leads (headers.map .write) hend
  have hsucceeds := succeeds_of_given hgiven
  refine ⟨fun k hk => ?_, ?_, fun root => ?_⟩
  · have hcounts := counts_of_succeeds hopened (succeeds_take hsucceeds k)
    rwa [List.length_take_of_le hk] at hcounts
  · rw [← given_of_outcomes hgiven]
    exact hleads.counts.pairwise.2
  · have hcodec : (run (headers.map .write) state).2.1.codec = codec := by
      rw [hleads.codec_eq, hsink, startingAt]
    have hroot {β : Type} [Message β] [LawfulMessage β] (message : β) :
        (∀ total last, finish message (run (headers.map .write) state).2 = .ok total last →
          Finished codec handle.stream.bytes headers positions message total last.2.stream.bytes) ∧
        (state.2.stream.faults = {} → Message.encodedLen message ≤ codec.maxFrameLen.toNat →
          ∃ total last, finish message (run (headers.map .write) state).2 = .ok total last) := by
      refine ⟨fun _ _ hfinish => finished hopened hgiven hfinish, fun hfree hsize => ?_⟩
      rw [← hcodec] at hsize
      exact finish_of_free (run_free headers hfree) hsize
    cases root <;> exact hroot _

end Counting

/-- The frames of two identities and of the entry that they make. -/
def secretEntry : List Header :=
  [.identity { firstName := some "" }, .identity { birthYear := some 7 },
    .entry { identification := 1, secretIdentity := some 4, reviewers := [⟨[]⟩] }]

def narrow : Handle := ⟨⟨#[9], { chunk := some 2 }, []⟩, 0⟩

/-- Three frames and the root, each at the position that was given for it. -/
theorem counts_every_frame_of_entry :
    ∃ start total last, Sink.atEnd {} narrow = .ok (startingAt {} 1) start ∧
    (run (secretEntry.map .write) (startingAt {} 1, start)).1.map Deposit.outcome =
      [1, 4, 7].map .ok ∧
    (run ((secretEntry.take 2).map .write) (startingAt {} 1, start)).2.1.position = 1 + 6 ∧
    finish (⟨[7]⟩ : DocumentHeader) (run (secretEntry.map .write) (startingAt {} 1, start)).2 =
      .ok total last ∧
    Finished {} [9] secretEntry [1, 4, 7] (⟨[7]⟩ : DocumentHeader) total last.2.stream.bytes ∧
    last.2.stream.bytes =
      [9, 2, 10, 0, 2, 16, 7, 6, 8, 1, 16, 4, 34, 0, 3, 10, 1, 7, 3, 0, 0, 0] := by
  have hopen := eq_ok_of_verdict (Sink.atEnd {} narrow) (startingAt {} 1) (by decide +kernel)
  have hgiven :
    (run (secretEntry.map .write) (startingAt {} 1, stateAfter (Sink.atEnd {} narrow))).1.map
      Deposit.outcome = [1, 4, 7].map .ok := by
    decide +kernel
  obtain ⟨hcounts, -, hfinished⟩ := counts_every_frame (.looked hopen) hgiven
  have hfinish := eq_ok_of_verdict (finish (⟨[7]⟩ : DocumentHeader)
    (run (secretEntry.map .write) (startingAt {} 1, stateAfter (Sink.atEnd {} narrow))).2) 21
    (by decide +kernel)
  exact ⟨_, _, _, hopen, hgiven, (hcounts 2 (by decide)).1, hfinish,
    (hfinished (.document ⟨[7]⟩)).1 _ _ hfinish, by decide +kernel⟩

end Sink
end FramedTree
