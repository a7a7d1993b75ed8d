import FramedTree.Proofs.EasedStreams

/-! # Whole transfers over streams that are awkward to use

What a whole transfer comes to is settled by the eased stream: calling again makes up for every
short and every interrupted call.
-/

namespace FramedTree

variable {α β : Type}

namespace Handle

variable {handle : Handle} {count : Nat}

private theorem readOnce_eased (count : Nat) (handle : Handle) :
    readOnce count handle.eased = readPlain count handle.eased := by
  have hpatience : handle.eased.stream.faults.readPatience = 0 :=
    Faults.patience_eased handle.stream.faults .reading
  unfold readOnce
  rw [hpatience]
  rfl

private theorem settled_readOnce (hcount : count ≠ 0) (handle : Handle) :
    Settled (readPlain count) (ReadsPart count) handle (readOnce count handle) :=
  settled_retrying (called_read hcount) (Nat.le_refl _)

private theorem gather_succ (calls count : Nat) : gather (calls + 1) count =
    if count = 0 then pure []
    else readOnce count >>= fun data =>
      if data.isEmpty then pure []
      else gather calls (count - data.length) >>= fun rest => pure (data ++ rest) := rfl

private theorem gather_of_le {calls : Nat} (h : count ≤ calls) :
    gather calls count = readUpTo count := by
  have heq {fewer : Nat} (hfewer : count ≤ fewer) : gather calls count = gather fewer count := by
    induction calls generalizing fewer count with
    | zero =>
      obtain rfl := Nat.le_zero.1 h
      cases fewer <;> rfl
    | succ calls ih =>
      cases fewer with
      | zero =>
        obtain rfl := Nat.le_zero.1 hfewer
        rfl
      | succ fewer =>
        rw [gather_succ, gather_succ]
        split
        · rfl
        · refine congrArg _ (funext fun data => ?_)
          split
          · rfl
          case isFalse hdata =>
            have hlength : data.length ≠ 0 := by simpa using hdata
            rw [ih (show count - data.length ≤ calls by omega)
              (show count - data.length ≤ fewer by omega)]
  exact heq (Nat.le_refl count)

private theorem readUpTo_step (hcount : count ≠ 0) : readUpTo count =
    readOnce count >>= fun data =>
      if data.isEmpty then pure []
      else readUpTo (count - data.length) >>= fun rest => pure (data ++ rest) := by
  obtain ⟨calls, rfl⟩ := Nat.exists_eq_succ_of_ne_zero hcount
  unfold readUpTo
  rw [gather_succ, if_neg hcount]
  refine congrArg _ (funext fun data => ?_)
  split
  · rfl
  case isFalse hdata =>
    have hlength : data.length ≠ 0 := by simpa using hdata
    rw [gather_of_le (show calls + 1 - data.length ≤ calls by omega), readUpTo]

private theorem readPlain_ok_cons {data : Bytes} {after : Handle} (hdata : data ≠ [])
    (h : readPlain count handle = .ok data after) :
    handle.striking .reading = none ∧
      data = handle.inSight.take (handle.reach .reading count) := by
  cases hstrike : handle.striking .reading with
  | none =>
    rw [readPlain_of_none hstrike, EStateM.Result.ok.injEq] at h
    exact ⟨rfl, h.1.symm⟩
  | some fault =>
    rw [readPlain_of_some hstrike] at h
    unfold struckResult at h
    split at h
    · cases h
    · rw [EStateM.Result.ok.injEq] at h
      exact absurd h.1.symm hdata

private theorem readPlain_rest {data more : Bytes} (hmore : more ≠ [])
    (h : readPlain count handle.eased =
      .ok (data ++ more) (handle.eased.advance (data ++ more).length)) :
    readPlain (count - data.length) (handle.eased.advance data.length) =
      .ok more (handle.eased.advance (data ++ more).length) := by
  obtain ⟨hstrike, hall⟩ := readPlain_ok_cons (List.append_ne_nil_of_right_ne_nil data hmore) h
  have hlong : data.length < handle.eased.reach .reading count := by
    have hlength := congrArg List.length hall
    have hpos := List.length_pos_iff.2 hmore
    rw [List.length_append, List.length_take] at hlength
    omega
  obtain ⟨hnext, hreach⟩ : (handle.eased.advance data.length).striking .reading = none ∧ _ :=
    reach_add hstrike hlong rfl rfl
  have hrest : (handle.eased.advance data.length).inSight.take
      ((handle.eased.advance data.length).reach .reading (count - data.length)) = more := by
    have hdrop := congrArg (List.drop data.length) hall
    rw [List.drop_left, List.drop_take] at hdrop
    rw [hdrop]
    exact congrArg₂ List.take hreach (by rw [inSight, inSight, List.drop_drop]; rfl)
  rw [readPlain_of_none hnext, hrest, advance_advance, List.length_append]

private theorem readUpTo_of_part {data : Bytes} {after : Handle}
    (h : ReadsPart count handle.eased data after) :
    readUpTo count handle.eased =
      (readUpTo (count - data.length) >>= fun rest => pure (data ++ rest)) after := by
  obtain ⟨hdata, rfl, more, hplain⟩ := h
  have hlength := (readPlain_took hplain).length_le
  have hpos := List.length_pos_iff.2 hdata
  rw [List.length_append] at hlength
  rw [readUpTo_step (by omega), bind_apply, readOnce_eased, hplain]
  dsimp only
  rw [if_neg (by simp [hdata])]
  by_cases hmore : more = []
  · rw [hmore, List.append_nil]
  · have hnext : readOnce (count - data.length) (handle.eased.advance data.length) =
        .ok more (handle.eased.advance (data ++ more).length) :=
      (readOnce_eased _ (handle.advance data.length)).trans (readPlain_rest hmore hplain)
    have hrest : readUpTo (count - data.length) (handle.eased.advance data.length) =
        (readUpTo (count - (data ++ more).length) >>= fun rest => pure (more ++ rest))
          (handle.eased.advance (data ++ more).length) := by
      have hpos := List.length_pos_iff.2 hmore
      rw [readUpTo_step (by omega), bind_apply, hnext]
      dsimp only
      rw [if_neg (by simpa using hmore), Nat.sub_sub, List.length_append]
    rw [bind_apply, bind_apply, hrest, bind_apply]
    cases readUpTo (count - (data ++ more).length) (handle.eased.advance (data ++ more).length) with
    | error error last => rfl
    | ok rest last => exact congrArg (EStateM.Result.ok · last) (List.append_assoc data more rest)

private theorem readUpTo_seen (count : Nat) : SeenThrough True eased (readUpTo count) := by
  -- On the number of bytes that are still wanted; each call that moves some makes it smaller.
  induction count using Nat.strongRecOn with
  | ind count ih =>
    have hnext {data : Bytes} (hcount : count ≠ 0) (hdata : data ≠ []) : SeenThrough True eased
        (readUpTo (count - data.length) >>=
          fun rest => (pure (data ++ rest) : Transfer Bytes)) := by
      have hpos := List.length_pos_iff.2 hdata
      exact .bind (ih _ (by omega)) fun _ => .pure _
    intro handle _
    by_cases hcount : count = 0
    · subst hcount
      rfl
    · have hsettled := settled_readOnce hcount handle
      have hstep := readUpTo_step hcount
      rw [congrFun hstep handle, bind_apply]
      generalize readOnce count handle = result at hsettled ⊢
      cases hsettled with
      | moved h =>
        have hdata := h.1
        rw [readUpTo_of_part h]
        dsimp only
        rw [if_neg (by simpa using hdata)]
        exact (hnext hcount hdata).apply _
      | same h =>
        rw [congrFun hstep handle.eased, bind_apply, readOnce_eased, h]
        cases result with
        | error error after => rfl
        | ok data after =>
          dsimp only [mapState_ok]
          split
          · rfl
          case isFalse hdata => exact (hnext hcount (by simpa using hdata)).apply after

private theorem overwrite_overwrite (content : Array UInt8) (position : Nat) (part more : Bytes) :
    Stream.overwrite (Stream.overwrite content position part) (position + part.length) more =
      Stream.overwrite content position (part ++ more) := by
  have hlength :
    (content.toList.take position ++ List.replicate (position - content.size) 0 ++ part).length =
      position + part.length := by
    simp only [List.length_append, List.length_take, List.length_replicate, Array.length_toList]
    omega
  have hsize : position + part.length - (Stream.overwrite content position part).size = 0 := by
    rw [← Array.length_toList, Stream.toList_overwrite, List.length_append, hlength]
    omega
  apply Array.toList_inj.1
  rw [Stream.toList_overwrite, hsize, Stream.toList_overwrite, Stream.toList_overwrite,
    List.take_left' hlength, ← List.drop_drop, List.drop_left' hlength, List.drop_drop,
    List.length_append, Nat.add_assoc, List.replicate_zero,
    List.append_nil, List.append_assoc _ part more]

private theorem put_put (part more : Bytes) (handle : Handle) :
    (handle.put part).put more = handle.put (part ++ more) := by
  unfold put
  rw [overwrite_overwrite, List.length_append, Nat.add_assoc]

private theorem writeOnce_eased (data : Bytes) (handle : Handle) :
    writeOnce data handle.eased = writePlain data handle.eased := by
  have hpatience : handle.eased.stream.faults.writePatience = 0 :=
    Faults.patience_eased handle.stream.faults .writing
  unfold writeOnce
  rw [hpatience]
  rfl

private theorem settled_writeOnce {data : Bytes} (hdata : data ≠ []) (handle : Handle) :
    Settled (writePlain data) (WritesPart data) handle (writeOnce data handle) :=
  settled_retrying (called_write hdata) (Nat.le_refl _)

private theorem pour_succ (calls : Nat) (data : Bytes) : pour (calls + 1) data =
    if data.isEmpty then pure ()
    else writeOnce data >>= fun taken =>
      if taken = 0 then throw IoError.nothingWritten else pour calls (data.drop taken) := rfl

private theorem pour_of_le {calls : Nat} {data : Bytes} (h : data.length ≤ calls) :
    pour calls data = writeAll data := by
  have heq {fewer : Nat} (hfewer : data.length ≤ fewer) : pour calls data = pour fewer data := by
    induction calls generalizing fewer data with
    | zero =>
      obtain rfl := List.length_eq_zero_iff.1 (Nat.le_zero.1 h)
      cases fewer <;> rfl
    | succ calls ih =>
      cases fewer with
      | zero =>
        obtain rfl := List.length_eq_zero_iff.1 (Nat.le_zero.1 hfewer)
        rfl
      | succ fewer =>
        rw [pour_succ, pour_succ]
        split
        · rfl
        · refine congrArg _ (funext fun taken => ?_)
          split
          · rfl
          · have hlength : (data.drop taken).length = data.length - taken := List.length_drop
            rw [ih (show (data.drop taken).length ≤ calls by omega)
              (show (data.drop taken).length ≤ fewer by omega)]
  exact heq (Nat.le_refl _)

private theorem writeAll_step {data : Bytes} (hdata : data ≠ []) : writeAll data =
    writeOnce data >>= fun taken =>
      if taken = 0 then throw IoError.nothingWritten else writeAll (data.drop taken) := by
  obtain ⟨calls, hcalls⟩ := Nat.exists_eq_succ_of_ne_zero (mt List.length_eq_zero_iff.1 hdata)
  unfold writeAll
  rw [hcalls, pour_succ, if_neg (by simpa using hdata)]
  refine congrArg _ (funext fun taken => ?_)
  split
  · rfl
  · have hlength : (data.drop taken).length = data.length - taken := List.length_drop
    rw [pour_of_le (show (data.drop taken).length ≤ calls by omega), writeAll]

private theorem writePlain_ok_pos {data : Bytes} {taken : Nat} {after : Handle} (htaken : taken ≠ 0)
    (h : writePlain data handle = .ok taken after) :
    handle.striking .writing = none ∧
      taken = (data.take (handle.reach .writing data.length)).length := by
  cases hstrike : handle.striking .writing with
  | none =>
    rw [writePlain_of_none hstrike, EStateM.Result.ok.injEq] at h
    exact ⟨rfl, h.1.symm⟩
  | some fault =>
    rw [writePlain_of_some hstrike] at h
    unfold struckResult at h
    split at h
    · cases h
    · rw [EStateM.Result.ok.injEq] at h
      exact absurd h.1.symm htaken

private theorem writePlain_rest {data part more : Bytes} (hmore : more ≠ [])
    (hbegins : part ++ more <+: data)
    (h : writePlain data handle.eased =
      .ok (part ++ more).length (handle.eased.put (part ++ more))) :
    writePlain (data.drop part.length) (handle.eased.put part) =
      .ok more.length (handle.eased.put (part ++ more)) := by
  have hpos := List.length_pos_iff.2 hmore
  have hwhole : (part ++ more).length = part.length + more.length := List.length_append
  obtain ⟨hstrike, htaken⟩ := writePlain_ok_pos (by omega) h
  rw [List.length_take] at htaken
  have hall : part ++ more = data.take (handle.eased.reach .writing data.length) := by
    refine (List.prefix_iff_eq_take.1 hbegins).trans (List.take_eq_take_iff.2 ?_)
    omega
  have hlong : part.length < handle.eased.reach .writing data.length := by omega
  obtain ⟨hnext, hreach⟩ : (handle.eased.put part).striking .writing = none ∧ _ :=
    reach_add hstrike hlong rfl rfl
  have hrest : (data.drop part.length).take
    ((handle.eased.put part).reach .writing (data.drop part.length).length) =
      more := by
    have hdrop := congrArg (List.drop part.length) hall
    rw [List.drop_left, List.drop_take] at hdrop
    rw [hdrop, List.length_drop]
    exact congrArg (List.take · _) hreach
  rw [writePlain_of_none hnext, hrest, put_put]

private theorem writeAll_of_part {data : Bytes} {taken : Nat} {after : Handle}
    (h : WritesPart data handle.eased taken after) :
    writeAll data handle.eased = writeAll (data.drop taken) after := by
  obtain ⟨part, more, hpart, rfl, rfl, hbegins, hplain⟩ := h
  have hpos := List.length_pos_iff.2 hpart
  have hdata : data ≠ [] := by
    rintro rfl
    exact hpart (List.append_eq_nil_iff.1 (List.prefix_nil.1 hbegins)).1
  rw [writeAll_step hdata, bind_apply, writeOnce_eased, hplain]
  dsimp only
  rw [List.length_append, if_neg (by omega), ← List.drop_drop]
  by_cases hmore : more = []
  · rw [hmore, List.append_nil]
    rfl
  · have hnext : writeOnce (data.drop part.length) (handle.eased.put part) =
        .ok more.length (handle.eased.put (part ++ more)) :=
      (writeOnce_eased _ (handle.put part)).trans (writePlain_rest hmore hbegins hplain)
    have hpos := List.length_pos_iff.2 hmore
    have hrest : data.drop part.length ≠ [] := by
      have hle := hbegins.length_le
      rw [List.length_append] at hle
      rw [ne_eq, List.drop_eq_nil_iff]
      omega
    rw [writeAll_step hrest, bind_apply, hnext]
    dsimp only
    rw [if_neg (by omega)]

private theorem writeAll_seen (data : Bytes) : SeenThrough True eased (writeAll data) := by
  -- On the number of bytes that are still to be written; each call that takes some makes it
  -- smaller.
  induction hlength : data.length using Nat.strongRecOn generalizing data with
  | ind count ih =>
    subst hlength
    intro handle _
    by_cases hdata : data = []
    · subst hdata
      rfl
    · have hnext {taken : Nat} (htaken : taken ≠ 0) :
        SeenThrough True eased (writeAll (data.drop taken)) := by
        have hpos := List.length_pos_iff.2 hdata
        have hshort : (data.drop taken).length = data.length - taken := List.length_drop
        exact ih _ (by omega) _ rfl
      have hsettled := settled_writeOnce hdata handle
      have hstep := writeAll_step hdata
      rw [congrFun hstep handle, bind_apply]
      generalize writeOnce data handle = result at hsettled ⊢
      cases hsettled with
      | @moved taken after h =>
        have htaken : taken ≠ 0 := by
          obtain ⟨part, more, hpart, rfl, -⟩ := h
          exact mt List.length_eq_zero_iff.1 hpart
        rw [writeAll_of_part h]
        dsimp only
        rw [if_neg htaken]
        exact (hnext htaken).apply _
      | same h =>
        rw [congrFun hstep handle.eased, bind_apply, writeOnce_eased, h]
        cases result with
        | error error after => rfl
        | ok taken after =>
          dsimp only [mapState_ok]
          split
          · rfl
          case isFalse htaken => exact (hnext htaken).apply after

theorem seek_seen (target : SeekTarget) : SeenThrough True eased (seek target) := by
  rintro ⟨⟨content, faults, seeks⟩, position⟩ _
  change (seek target ⟨⟨content, faults.eased, seeks⟩, position⟩ :
    EStateM.Result IoError Handle Nat) = _
  have hseek : faults.eased.seek = faults.seek := rfl
  unfold seek
  dsimp only
  rw [hseek]
  cases faults.seek.filter (·.isActive) with
  | none => rfl
  | some fault =>
    dsimp only
    split
    · rfl
    · cases fault.effect <;> rfl

private theorem flush_seen : SeenThrough True eased flush := by
  rintro ⟨⟨content, faults, seeks⟩, position⟩ _
  change (flush ⟨⟨content, faults.eased, seeks⟩, position⟩ : EStateM.Result IoError Handle Unit) = _
  have hflush : faults.eased.flush = faults.flush := rfl
  unfold flush
  dsimp only
  rw [hflush]
  cases faults.flush.filter (·.isActive) with
  | none => rfl
  | some fault =>
    dsimp only
    cases fault.effect <;> rfl

private theorem readExactly_seen (count : Nat) : SeenThrough True eased (readExactly count) := by
  refine .bind (readUpTo_seen count) fun data => ?_
  split
  · exact .throw _
  · exact .pure _

theorem readToEnd_seen : SeenThrough True eased readToEnd :=
  .get_bind (fun _ => rfl) fun _ => readUpTo_seen _

end Handle

namespace Frame

open Handle

private theorem readLengthByte_seen : SeenThrough True eased readLengthByte := by
  intro handle _
  unfold readLengthByte
  rw [(readExactly_seen 1).apply]
  cases readExactly 1 handle with
  | ok data after => rfl
  | error error after =>
    dsimp only [mapState_error]
    split <;> rfl

private theorem readPayload_seen [Message α] (codec : Codec) (length : Nat) :
    SeenThrough True eased (readPayload codec length : FrameIO α) := by
  rw [readPayload_eq]
  split
  · exact .throw _
  · refine .bind (.toFrameIO (readUpTo_seen length)) fun payload => ?_
    split
    · exact .throw _
    · split
      · exact .pure _
      · exact .throw _

/-- Frames are read from eased streams as from those with all their faults. -/
theorem seesReads : SeesReads True Faults.eased :=
  ⟨seek_seen, readExactly_seen, readLengthByte_seen, readPayload_seen⟩

theorem write_seen [Message α] (codec : Codec) (kind : FrameKind) (message : α) :
    SeenThrough True eased (write codec kind message) := by
  unfold write
  cases encode codec kind message with
  | error error =>
    exact .bind (.throw error) fun _ => .bind (.toFrameIO (writeAll_seen _)) fun _ => .pure _
  | ok frame =>
    exact .bind (.pure frame) fun _ => .bind (.toFrameIO (writeAll_seen _)) fun _ => .pure _

end Frame

namespace Sink

open Handle

theorem atEnd_seen (codec : Codec) : SeenThrough True eased (atEnd codec) :=
  .bind (.toFrameIO (seek_seen _)) fun _ => .pure _

theorem write_seen [Message α] (kind : FrameKind) (message : α) :
    SeenThrough True (amid eased) (write kind message) := by
  rintro ⟨sink, handle⟩ _
  unfold write
  dsimp only [amid]
  rw [(Frame.write_seen sink.codec kind message).apply]
  cases Frame.write sink.codec kind message handle <;> rfl

private theorem flush_seen : SeenThrough True (amid eased) flush := by
  rintro ⟨sink, handle⟩ _
  unfold flush
  dsimp only [amid]
  rw [Handle.flush_seen.apply]
  cases Handle.flush handle <;> rfl

theorem finish_seen [Message α] (root : α) : SeenThrough True (amid eased) (finish root) := by
  refine .bind (.map _ (write_seen .root root)) fun _ => .bind flush_seen fun _ => ?_
  exact .get_bind (fun _ => rfl) fun _ => .pure _

end Sink
end FramedTree
