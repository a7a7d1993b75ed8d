import FramedTree.Proofs.FaultFreeTrees

/-! # Streams that are awkward to use

A stream may move few bytes at a time, and may interrupt calls, as long as not for ever. Whole
transfers get past both by calling again: they give what they would give, and leave behind what they
would leave behind, if every call moved all that it could. What faults really break stays broken.
-/

namespace FramedTree

variable {α β : Type}

/-- Whether the fault does nothing but interrupt calls, and not for ever. -/
def Fault.passes (fault : Fault) : Bool :=
  match fault.effect with
  | .fail error => error.kind == .interrupted && fault.times.isSome
  | .stall => false

/-- The faults without those that transfers get past by calling again: hiccups, interruptions that
come to an end, and a bound on the bytes of one call, as long as it lets bytes through at all. -/
def Faults.eased (faults : Faults) : Faults :=
  { faults with
    read := faults.read.filter (!·.passes)
    write := faults.write.filter (!·.passes)
    chunk := faults.chunk.filter (· == 0)
    readHiccups := []
    writeHiccups := [] }

inductive Side where
  | reading
  | writing

namespace Faults

def fault (faults : Faults) : Side → Option Fault
  | .reading => faults.read
  | .writing => faults.write

def hiccups (faults : Faults) : Side → List Hiccup
  | .reading => faults.readHiccups
  | .writing => faults.writeHiccups

/-- How often calls of one sort can be interrupted, unless they are interrupted for ever. -/
def patience (faults : Faults) (side : Side) : Nat :=
  (faults.fault side).elim 0 (·.interruptions) + (faults.hiccups side).length

/-- The faults after the one that calls of a sort meet has struck. -/
def strike (faults : Faults) (fault : Fault) : Side → Faults
  | .reading => { faults with read := some fault.struck }
  | .writing => { faults with write := some fault.struck }

end Faults

namespace Handle

/-- The handle on the stream without the faults that transfers get past. -/
abbrev eased (handle : Handle) : Handle := handle.refit Faults.eased

section Calls

variable (side : Side) (plain : Transfer α) (Moves : Handle → α → Handle → Prop)

/-- What a call comes to, compared with the call that is not held up: it is interrupted, and at most
`left` more interruptions can come; it moves a part of what could be moved; or it comes to the same
end. -/
inductive Called (left : Nat) (handle : Handle) : EStateM.Result IoError Handle α → Prop where
  | interrupted {error : IoError} {after : Handle} (hkind : error.kind = .interrupted)
      (heased : after.eased = handle.eased) (hleft : after.stream.faults.patience side ≤ left)
      (hlast : handle.stream.faults.patience side = 0 →
        plain handle.eased = .error error after.eased) :
      Called left handle (.error error after)
  | moved {value : α} {after : Handle} (h : Moves handle.eased value after.eased) :
      Called left handle (.ok value after)
  | ended {value : α} {after : Handle} (h : plain handle.eased = .ok value after.eased) :
      Called left handle (.ok value after)
  | failed {error : IoError} {after : Handle} (hkind : error.kind ≠ .interrupted)
      (h : plain handle.eased = .error error after.eased) : Called left handle (.error error after)

/-- What comes of a call that is made again when it is interrupted: it moves a part, or it comes to
the same end as the call that is not held up. -/
inductive Settled (handle : Handle) : EStateM.Result IoError Handle α → Prop where
  | moved {value : α} {after : Handle} (h : Moves handle.eased value after.eased) :
      Settled handle (.ok value after)
  | same {result : EStateM.Result IoError Handle α}
      (h : plain handle.eased = mapState eased result) :
      Settled handle result

variable {side plain Moves}

private theorem Called.of_dropped {left : Nat} {handle dropped : Handle}
    {result : EStateM.Result IoError Handle α} (h : Called side plain Moves left dropped result)
    (heased : dropped.eased = handle.eased) (hpatience : handle.stream.faults.patience side ≠ 0) :
    Called side plain Moves left handle result := by
  cases h with
  | interrupted hkind hsame hleft hlast =>
    exact .interrupted hkind (hsame.trans heased) hleft fun hzero => absurd hzero hpatience
  | moved h => exact .moved (heased ▸ h)
  | ended h => exact .ended (heased ▸ h)
  | failed hkind h => exact .failed hkind (heased ▸ h)

theorem settled_retrying {call : Transfer α}
    (hcall : ∀ handle, Called side plain Moves (handle.stream.faults.patience side - 1) handle
      (call handle))
    {calls : Nat} {handle : Handle} (hcalls : handle.stream.faults.patience side ≤ calls) :
    Settled plain Moves handle (Transfer.retrying call calls handle) := by
  induction calls generalizing handle with
  | zero =>
    have hfirst := hcall handle
    unfold Transfer.retrying
    generalize call handle = result at hfirst ⊢
    cases hfirst with
    | interrupted hkind heased hpatience hlast => exact .same (hlast (Nat.le_zero.1 hcalls))
    | moved h => exact .moved h
    | ended h => exact .same h
    | failed hkind h => exact .same h
  | succ calls ih =>
    have hfirst := hcall handle
    unfold Transfer.retrying
    generalize call handle = result at hfirst ⊢
    cases hfirst with
    | interrupted hkind heased hpatience hlast =>
      have hagain := ih (Nat.le_trans hpatience (Nat.sub_le_of_le_add hcalls))
      dsimp only
      rw [if_pos hkind]
      generalize Transfer.retrying call calls _ = result at hagain ⊢
      cases hagain with
      | moved h => exact .moved (heased ▸ h)
      | same h => exact .same (heased ▸ h)
    | moved h => exact .moved h
    | ended h => exact .same h
    | failed hkind h =>
      dsimp only
      rw [if_neg hkind]
      exact .same h

end Calls

end Handle

namespace Fault

variable {fault : Fault} {fault? : Option Fault} {position count wanted : Nat}

@[simp] theorem passes_struck (fault : Fault) : fault.struck.passes = fault.passes := by
  unfold passes struck
  cases fault.effect <;> simp

private theorem eq_some_of_striking (h : striking fault? position = some fault) :
    fault? = some fault ∧ fault.isActive ∧ fault.start ≤ position := by
  simpa [striking, Option.filter_eq_some_iff] using h

private theorem of_passes (h : fault.passes) :
    ∃ error times, fault.effect = .fail error ∧ error.kind = .interrupted ∧
    fault.times = some times := by
  unfold passes at h
  cases heffect : fault.effect with
  | stall => simp [heffect] at h
  | fail error =>
    simp only [heffect, Bool.and_eq_true, beq_iff_eq, Option.isSome_iff_exists] at h
    obtain ⟨hkind, times, htimes⟩ := h
    exact ⟨error, times, rfl, hkind, htimes⟩

private theorem struck_of_not_passes {error : IoError} (h : fault.passes = false)
    (heffect : fault.effect = .fail error) (hkind : error.kind = .interrupted) :
    fault.struck = fault := by
  have htimes : fault.times = none := by simpa [passes, heffect, hkind] using h
  unfold struck
  rw [htimes, Option.map_none, ← htimes]

private theorem interruptions_of_not_passes (h : fault.passes = false) :
    fault.interruptions = 0 := by
  unfold passes at h
  unfold interruptions
  cases heffect : fault.effect with
  | stall => rfl
  | fail error =>
    simp only [heffect, Bool.and_eq_false_iff, beq_eq_false_iff_ne, Option.isSome_eq_false_iff,
      Option.isNone_iff_eq_none] at h
    by_cases hkind : error.kind = .interrupted
    · simp [h.resolve_left (not_not_intro hkind)]
    · simp [hkind]

private theorem interruptions_pos (h : fault.passes) (hactive : fault.isActive) :
    0 < fault.interruptions := by
  obtain ⟨error, times, heffect, hkind, htimes⟩ := of_passes h
  have hpos : times ≠ 0 := by
    rintro rfl
    simp [isActive, htimes] at hactive
  simp only [interruptions, heffect, hkind, htimes, if_true, Option.getD_some]
  exact Nat.pos_of_ne_zero hpos

private theorem interruptions_struck (fault : Fault) :
    fault.struck.interruptions = fault.interruptions - 1 := by
  unfold interruptions struck
  cases fault.effect with
  | stall => rfl
  | fail error =>
    dsimp only
    split
    · cases fault.times <;> rfl
    · rfl

private theorem striking_filter (h : striking fault? position = none) :
    striking (fault?.filter (!·.passes)) position = none := by
  cases fault? with
  | none => rfl
  | some fault =>
    cases hpasses : fault.passes with
    | true => simp [hpasses, striking]
    | false => simpa [Option.filter, hpasses] using h

private theorem filter_struck (h : fault.passes ∨ fault.struck = fault) :
    (some fault.struck).filter (!·.passes) = (some fault).filter (!·.passes) := by
  obtain hpasses | hsame := h
  · simp only [Option.filter, passes_struck, hpasses, Bool.not_true, Bool.false_eq_true, if_false]
  · rw [hsame]

private theorem filter_of_not_passes (h : fault.passes = false) :
    (some fault).filter (!·.passes) = some fault := by
  simp [h]

private theorem room_le (h : count ≤ wanted) :
    room fault? position count ≤ room (fault?.filter (!·.passes)) position wanted := by
  have hle := room_le_count fault? position count
  cases fault? with
  | none => exact h
  | some fault =>
    cases hpasses : fault.passes with
    | true =>
      simp only [Option.filter, hpasses, Bool.not_true, Bool.false_eq_true, if_false]
      exact Nat.le_trans hle h
    | false =>
      simp only [Option.filter, hpasses, Bool.not_false, if_true]
      unfold room
      split
      · omega
      · exact h

private theorem room_ne_zero (h : striking fault? position = none) (hcount : count ≠ 0) :
    room fault? position count ≠ 0 := by
  unfold room
  split
  case h_1 fault hfilter =>
    obtain ⟨rfl, hactive⟩ := Option.filter_eq_some_iff.1 hfilter
    have hstart : position < fault.start := by simpa [striking, hactive] using h
    omega
  case h_2 => exact hcount

private theorem room_add {moved : Nat} (h : striking fault? position = none)
    (hmoved : moved < room fault? position count) :
    striking fault? (position + moved) = none ∧
      room fault? (position + moved) (count - moved) = room fault? position count - moved := by
  unfold room at hmoved ⊢
  split at hmoved
  case h_1 fault hfilter =>
    obtain ⟨rfl, hactive⟩ := Option.filter_eq_some_iff.1 hfilter
    refine ⟨?_, by omega⟩
    have hlater : position + moved < fault.start := by omega
    simpa [striking, hactive] using hlater
  case h_2 hfilter =>
    refine ⟨?_, rfl⟩
    cases fault? with
    | none => rfl
    | some fault =>
      have hactive : fault.isActive = false := by simpa [Option.filter] using hfilter
      simp [striking, hactive]

private theorem interruptions_filter (fault? : Option Fault) :
    (fault?.filter (!·.passes)).elim 0 (·.interruptions) = 0 := by
  cases fault? with
  | none => rfl
  | some fault =>
    cases hpasses : fault.passes with
    | true =>
      simp only [Option.filter, hpasses, Bool.not_true, Bool.false_eq_true, if_false, Option.elim]
    | false =>
      rw [filter_of_not_passes hpasses]
      exact interruptions_of_not_passes hpasses

end Fault

namespace Faults

variable {faults : Faults} {fault? : Option Fault} {position count wanted : Nat}

private theorem fault_eased (faults : Faults) (side : Side) :
    faults.eased.fault side = (faults.fault side).filter (!·.passes) := by
  cases side <;> rfl

theorem patience_eased (faults : Faults) (side : Side) : faults.eased.patience side = 0 := by
  cases side <;> exact Fault.interruptions_filter _

private theorem patience_strike (faults : Faults) (fault : Fault) (side : Side) :
    (faults.strike fault side).patience side =
      fault.struck.interruptions + (faults.hiccups side).length := by
  cases side <;> rfl

private theorem eased_strike {fault : Fault} {side : Side} (hfault : faults.fault side = some fault)
    (h : fault.passes ∨ fault.struck = fault) :
    (faults.strike fault side).eased = faults.eased := by
  have hfilter := Fault.filter_struck h
  rw [← hfault] at hfilter
  cases side with
  | reading => exact congrArg (fun read => { faults.eased with read }) hfilter
  | writing => exact congrArg (fun write => { faults.eased with write }) hfilter

private theorem eased_strike_of_not_passes {fault : Fault} (h : fault.passes = false)
    (side : Side) :
    (faults.strike fault side).eased = faults.eased.strike fault side := by
  have hfilter := Fault.filter_of_not_passes ((Fault.passes_struck fault).trans h)
  cases side with
  | reading => exact congrArg (fun read => { faults.eased with read }) hfilter
  | writing => exact congrArg (fun write => { faults.eased with write }) hfilter

/-- How many of `count` bytes a call at `position` moves at most. -/
def reach (faults : Faults) (fault? : Option Fault) (position count : Nat) : Nat :=
  faults.chunkSize (Fault.room fault? position count)

/-- A bound on the bytes of one call either lets no byte through, which easing does not change, or
it lets some through of any that there are, and easing removes it. -/
private theorem chunkSize_cases (faults : Faults) :
    (∀ count, faults.chunkSize count = 0 ∧ faults.eased.chunkSize count = 0) ∨
    ∀ count, (count ≠ 0 → faults.chunkSize count ≠ 0) ∧ faults.eased.chunkSize count = count := by
  unfold chunkSize eased
  cases faults.chunk with
  | none => exact .inr fun count => ⟨id, rfl⟩
  | some bound =>
    cases bound with
    | zero => exact .inl fun count => ⟨Nat.min_zero _, Nat.min_zero _⟩
    | succ bound =>
      refine .inr fun count => ⟨fun hcount => ?_, rfl⟩
      dsimp only
      omega

private theorem reach_le_count : faults.reach fault? position count ≤ count :=
  Nat.le_trans (faults.chunkSize_le _) (Fault.room_le_count _ _ _)

private theorem reach_le (h : count ≤ wanted) :
    faults.reach fault? position count ≤
      faults.eased.reach (fault?.filter (!·.passes)) position wanted := by
  have hroom := @Fault.room_le fault? position _ _ h
  have hle := faults.chunkSize_le (Fault.room fault? position count)
  unfold reach
  obtain hzero | hall := faults.chunkSize_cases
  · rw [(hzero _).1]
    exact Nat.zero_le _
  · rw [(hall _).2]
    exact Nat.le_trans hle hroom

private theorem reach_eased_eq_zero (hstrike : Fault.striking fault? position = none)
    (hcount : count ≠ 0) (h : faults.reach fault? position count = 0) (wanted : Nat) :
    faults.eased.reach (fault?.filter (!·.passes)) position wanted = 0 := by
  unfold reach at h ⊢
  obtain hzero | hall := faults.chunkSize_cases
  · exact (hzero _).2
  · exact absurd h ((hall _).1 (Fault.room_ne_zero hstrike hcount))

private theorem reach_add {moved : Nat} (h : Fault.striking fault? position = none)
    (hmoved : moved < faults.eased.reach fault? position count) :
    Fault.striking fault? (position + moved) = none ∧
      faults.eased.reach fault? (position + moved) (count - moved) =
        faults.eased.reach fault? position count - moved := by
  unfold reach at hmoved ⊢
  obtain hzero | hall := faults.chunkSize_cases
  · rw [(hzero _).2] at hmoved
    cases hmoved
  · rw [(hall _).2] at hmoved ⊢
    rw [(hall _).2]
    exact Fault.room_add h hmoved

end Faults

namespace Handle

def struckResult (fault : Fault) (idle : α) (after : Handle) : EStateM.Result IoError Handle α :=
  match fault.effect with
  | .fail error => .error error after
  | .stall => .ok idle after

variable {handle : Handle} {side : Side} {count wanted : Nat}

def reach (handle : Handle) (side : Side) (count : Nat) : Nat :=
  handle.stream.faults.reach (handle.stream.faults.fault side) handle.position count

def striking (handle : Handle) (side : Side) : Option Fault :=
  Fault.striking (handle.stream.faults.fault side) handle.position

def struck (handle : Handle) (fault : Fault) (side : Side) : Handle :=
  { handle with stream := { handle.stream with faults := handle.stream.faults.strike fault side } }

private theorem striking_eased_of_none (h : handle.striking side = none) :
    handle.eased.striking side = none := by
  unfold striking at h ⊢
  rw [show handle.eased.stream.faults.fault side = _ from Faults.fault_eased _ side]
  exact Fault.striking_filter h

private theorem striking_eased_of_some {fault : Fault} (h : handle.striking side = some fault)
    (hpasses : fault.passes = false) :
    handle.eased.striking side = some fault := by
  obtain ⟨hfault, -⟩ := Fault.eq_some_of_striking h
  unfold striking at h ⊢
  rw [show handle.eased.stream.faults.fault side = _ from Faults.fault_eased _ side, hfault,
    Fault.filter_of_not_passes hpasses]
  rwa [hfault] at h

private theorem reach_le_eased (h : count ≤ wanted) :
    handle.reach side count ≤ handle.eased.reach side wanted := by
  unfold reach
  rw [show handle.eased.stream.faults.fault side = _ from Faults.fault_eased _ side]
  exact Faults.reach_le h

private theorem reach_eased_eq_zero (hstrike : handle.striking side = none) (hcount : count ≠ 0)
    (h : handle.reach side count = 0) : handle.eased.reach side wanted = 0 := by
  unfold reach
  rw [show handle.eased.stream.faults.fault side = _ from Faults.fault_eased _ side]
  exact Faults.reach_eased_eq_zero hstrike hcount h wanted

/-- An eased call that moves less than it could leaves the rest to a call on the handle that it
leaves. -/
theorem reach_add {next : Handle} {moved : Nat} (hstrike : handle.eased.striking side = none)
    (hmoved : moved < handle.eased.reach side count)
    (hfaults : next.stream.faults = handle.eased.stream.faults)
    (hposition : next.position = handle.eased.position + moved) :
    next.striking side = none ∧
      next.reach side (count - moved) = handle.eased.reach side count - moved := by
  unfold striking reach
  rw [hfaults, hposition]
  exact Faults.reach_add hstrike hmoved

private theorem Called.struck {plain : Transfer α} {Moves : Handle → α → Handle → Prop} {left : Nat}
    {fault : Fault} {idle : α}
    (hplain : ∀ {handle : Handle} {fault : Fault}, handle.striking side = some fault →
      plain handle = struckResult fault idle (handle.struck fault side))
    (hstrike : handle.striking side = some fault)
    (hleft : (handle.stream.faults.fault side).elim 0 (·.interruptions) - 1 +
      (handle.stream.faults.hiccups side).length ≤ left) :
    Called side plain Moves left handle (struckResult fault idle (handle.struck fault side)) := by
  obtain ⟨hfault, hactive, -⟩ := Fault.eq_some_of_striking hstrike
  have hsame (h : fault.passes ∨ fault.struck = fault) :
    (handle.struck fault side).eased = handle.eased :=
    congrArg
      (fun faults : Faults => ({ handle with stream := { handle.stream with faults } } : Handle))
      (Faults.eased_strike hfault h)
  have hpatience : (handle.struck fault side).stream.faults.patience side ≤ left := by
    rw [show (handle.struck fault side).stream.faults.patience side =
      _ from Faults.patience_strike _ fault side, Fault.interruptions_struck]
    rwa [hfault] at hleft
  have hfaults : handle.stream.faults.patience side =
      fault.interruptions + (handle.stream.faults.hiccups side).length := by
    rw [Faults.patience, hfault]
    rfl
  unfold struckResult
  cases hpasses : fault.passes with
  | true =>
    obtain ⟨error, times, heffect, hkind, -⟩ := Fault.of_passes hpasses
    have hpos := Fault.interruptions_pos hpasses hactive
    rw [heffect]
    exact .interrupted hkind (hsame (.inl hpasses)) hpatience fun hzero => by omega
  | false =>
    have heased : (handle.struck fault side).eased = handle.eased.struck fault side :=
      congrArg
        (fun faults : Faults => ({ handle with stream := { handle.stream with faults } } : Handle))
        (Faults.eased_strike_of_not_passes hpasses side)
    have hplain := hplain (striking_eased_of_some hstrike hpasses)
    rw [← heased] at hplain
    unfold struckResult at hplain
    cases heffect : fault.effect with
    | stall =>
      rw [heffect] at hplain
      exact .ended hplain
    | fail error =>
      rw [heffect] at hplain
      by_cases hkind : error.kind = .interrupted
      · have hstruck := Fault.struck_of_not_passes hpasses heffect hkind
        exact .interrupted hkind (hsame (.inr hstruck)) hpatience fun _ => hplain
      · exact .failed hkind hplain

/-- A read gives the first part of what the read that is not held up gives. -/
def ReadsPart (count : Nat) (handle : Handle) (data : Bytes) (after : Handle) : Prop :=
  data ≠ [] ∧ after = handle.advance data.length ∧
    ∃ more, readPlain count handle = .ok (data ++ more) (handle.advance (data ++ more).length)

def inSight (handle : Handle) : Bytes := handle.stream.visible.drop handle.position

theorem readPlain_of_none (h : handle.striking .reading = none) (count : Nat) :
    readPlain count handle = .ok (handle.inSight.take (handle.reach .reading count))
      (handle.advance (handle.inSight.take (handle.reach .reading count)).length) := by
  change Fault.striking handle.stream.faults.read handle.position = none at h
  unfold readPlain
  simp only [h, Stream.slice_eq]
  rfl

theorem readPlain_of_some {fault : Fault} (h : handle.striking .reading = some fault)
    (count : Nat) :
    readPlain count handle = struckResult fault [] (handle.struck fault .reading) := by
  change Fault.striking handle.stream.faults.read handle.position = some fault at h
  unfold readPlain struckResult
  simp only [h]
  cases fault.effect <;> rfl

private theorem called_readPlain {left : Nat} (hcount : count ≠ 0) (hwanted : count ≤ wanted)
    (hleft : handle.stream.faults.read.elim 0
      (·.interruptions) - 1 + handle.stream.faults.readHiccups.length ≤ left) :
    Called .reading (readPlain wanted) (ReadsPart wanted) left handle (readPlain count handle) := by
  cases hstrike : handle.striking .reading with
  | none =>
    have hplain := readPlain_of_none (striking_eased_of_none hstrike) wanted
    have hle : handle.reach .reading count ≤ handle.eased.reach .reading wanted :=
      reach_le_eased hwanted
    have hnone (h : handle.reach .reading count = 0) : handle.eased.reach .reading wanted = 0 :=
      reach_eased_eq_zero hstrike hcount h
    change _ = EStateM.Result.ok (handle.inSight.take _)
      (handle.eased.advance (handle.inSight.take _).length) at hplain
    rw [readPlain_of_none hstrike]
    generalize handle.reach .reading count = some at hle hnone ⊢
    generalize handle.eased.reach .reading wanted = all at hle hnone hplain
    by_cases hdata : handle.inSight.take some = []
    · have hall : handle.inSight.take all = [] := by
        rw [List.take_eq_nil_iff] at hdata ⊢
        exact hdata.imp_left hnone
      rw [hdata]
      rw [hall] at hplain
      exact .ended hplain
    · refine .moved ⟨hdata, rfl, (handle.inSight.take all).drop some, ?_⟩
      have htake : handle.inSight.take some = (handle.inSight.take all).take some := by
        rw [List.take_take, Nat.min_eq_left hle]
      rw [htake, List.take_append_drop]
      exact hplain
  | some fault =>
    rw [readPlain_of_some hstrike]
    exact .struck (fun h => readPlain_of_some h wanted) hstrike hleft

theorem called_read (hcount : count ≠ 0) (handle : Handle) :
    Called .reading (readPlain count) (ReadsPart count)
      (handle.stream.faults.patience .reading - 1) handle
      (read count handle) := by
  have heased : handle.dropReadHiccup.eased = handle.eased := rfl
  have hdropped : handle.dropReadHiccup.stream.faults.patience .reading =
      handle.stream.faults.read.elim 0
        (·.interruptions) + handle.stream.faults.readHiccups.tail.length := rfl
  have hpatience : handle.stream.faults.patience .reading =
      handle.stream.faults.read.elim 0
        (·.interruptions) + handle.stream.faults.readHiccups.length := rfl
  unfold read
  split
  case h_1 hnil =>
    refine called_readPlain hcount (Nat.le_refl count) ?_
    rw [hnil, List.length_nil] at hpatience ⊢
    omega
  case h_2 rest hcons =>
    rw [hcons, List.length_cons] at hpatience
    rw [hcons, List.tail_cons] at hdropped
    refine .interrupted rfl heased ?_ fun hzero => ?_ <;> omega
  case h_3 extra rest hcons =>
    rw [hcons, List.length_cons] at hpatience
    have hcut : min count (extra + 1) ≠ 0 := by omega
    refine .of_dropped (called_readPlain hcut (Nat.min_le_left _ _) ?_) heased (by omega)
    change handle.stream.faults.read.elim 0
      (·.interruptions) - 1 + handle.stream.faults.readHiccups.tail.length ≤ _
    rw [hcons, List.tail_cons]
    omega

/-- The handle after `part` has been written where it stood. -/
def put (part : Bytes) (handle : Handle) : Handle :=
  ⟨{ handle.stream with content := Stream.overwrite handle.stream.content handle.position part },
    handle.position + part.length⟩

/-- A write takes the first part of what the write that is not held up takes. -/
def WritesPart (data : Bytes) (handle : Handle) (taken : Nat) (after : Handle) : Prop :=
  ∃ part more, part ≠ [] ∧ taken = part.length ∧ after = handle.put part ∧ part ++ more <+: data ∧
    writePlain data handle = .ok (part ++ more).length (handle.put (part ++ more))

private theorem portion_chunkOf (faults : Faults) (fault? : Option Fault) (position : Nat)
    (data : Bytes) :
    Fault.portion fault? position (faults.chunkOf data) =
      data.take (faults.reach fault? position data.length) := by
  unfold Fault.portion Faults.chunkOf Faults.reach Faults.chunkSize Fault.room
  cases fault?.filter (·.isActive) with
  | none =>
    cases faults.chunk with
    | none => exact List.take_length.symm
    | some bound =>
      dsimp only
      exact List.take_eq_take_iff.2 (by omega)
  | some fault =>
    cases faults.chunk with
    | none =>
      dsimp only
      exact List.take_eq_take_iff.2 (by omega)
    | some bound =>
      dsimp only
      exact List.take_take.trans (List.take_eq_take_iff.2 (by omega))

theorem writePlain_of_none (h : handle.striking .writing = none) (data : Bytes) :
    writePlain data handle = .ok (data.take (handle.reach .writing data.length)).length
      (handle.put (data.take (handle.reach .writing data.length))) := by
  change Fault.striking handle.stream.faults.write handle.position = none at h
  unfold writePlain
  simp only [h, portion_chunkOf]
  rfl

theorem writePlain_of_some {fault : Fault} (h : handle.striking .writing = some fault)
    (data : Bytes) :
    writePlain data handle = struckResult fault 0 (handle.struck fault .writing) := by
  change Fault.striking handle.stream.faults.write handle.position = some fault at h
  unfold writePlain struckResult
  simp only [h]
  cases fault.effect <;> rfl

private theorem called_writePlain {left : Nat} {part data : Bytes} (hpart : part ≠ [])
    (hbegins : part <+: data)
    (hleft : handle.stream.faults.write.elim 0
      (·.interruptions) - 1 + handle.stream.faults.writeHiccups.length ≤ left) :
    Called .writing (writePlain data) (WritesPart data) left handle (writePlain part handle) := by
  cases hstrike : handle.striking .writing with
  | none =>
    have hplain := writePlain_of_none (striking_eased_of_none hstrike) data
    have hreach : handle.reach .writing part.length ≤ part.length := Faults.reach_le_count
    have hle : handle.reach .writing part.length ≤ handle.eased.reach .writing data.length :=
      reach_le_eased hbegins.length_le
    have hnone (h : handle.reach .writing part.length = 0) :
      handle.eased.reach .writing data.length = 0 :=
      reach_eased_eq_zero hstrike (mt List.length_eq_zero_iff.1 hpart) h
    rw [writePlain_of_none hstrike]
    generalize handle.reach .writing part.length = some at hreach hle hnone ⊢
    generalize handle.eased.reach .writing data.length = all at hle hnone hplain
    by_cases hzero : some = 0
    · rw [hnone hzero] at hplain
      rw [hzero]
      exact .ended hplain
    · refine .moved ⟨part.take some, (data.take all).drop some, ?_, rfl, rfl, ?_⟩
      · rw [ne_eq, List.take_eq_nil_iff]
        exact not_or_intro hzero hpart
      · have htake : part.take some = (data.take all).take some := by
          rw [List.take_take, Nat.min_eq_left hle, List.prefix_iff_eq_take.1 hbegins,
            List.take_take, Nat.min_eq_left hreach]
        rw [htake, List.take_append_drop]
        exact ⟨List.take_prefix _ _, hplain⟩
  | some fault =>
    rw [writePlain_of_some hstrike]
    exact .struck (fun h => writePlain_of_some h data) hstrike hleft

theorem called_write {data : Bytes} (hdata : data ≠ []) (handle : Handle) :
    Called .writing (writePlain data) (WritesPart data)
      (handle.stream.faults.patience .writing - 1) handle
      (write data handle) := by
  obtain ⟨⟨content, faults, seeks⟩, position⟩ := handle
  have hpatience : faults.patience .writing =
      faults.write.elim 0 (·.interruptions) + faults.writeHiccups.length := rfl
  unfold write
  dsimp only
  split
  case h_1 hnil =>
    refine called_writePlain hdata List.prefix_rfl ?_
    dsimp only
    rw [hnil, List.length_nil] at hpatience ⊢
    omega
  case h_2 rest hcons =>
    rw [hcons, List.length_cons] at hpatience
    refine .interrupted rfl rfl ?_ fun hzero => ?_
    · change faults.write.elim 0 (·.interruptions) + rest.length ≤ faults.patience .writing - 1
      omega
    · dsimp only at hzero
      omega
  case h_3 extra rest hcons =>
    rw [hcons, List.length_cons] at hpatience
    have hcut : data.take (extra + 1) ≠ [] := by
      rw [ne_eq, List.take_eq_nil_iff]
      exact not_or_intro (Nat.succ_ne_zero extra) hdata
    refine .of_dropped (called_writePlain hcut (List.take_prefix _ _) ?_) rfl ?_
    · change faults.write.elim 0 (·.interruptions) - 1 + rest.length ≤ faults.patience .writing - 1
      omega
    · dsimp only
      omega

end Handle
end FramedTree
