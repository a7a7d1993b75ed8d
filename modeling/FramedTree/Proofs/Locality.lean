import FramedTree.Proofs.SourceReads

/-! # How far a read looks

A read looks at the bytes from where it starts up to where it ends, and at no others: in all bytes
that agree with these it comes to the same end. Only a read that was cut off by the end of the bytes
may come to another end where there are more of them.
-/

namespace FramedTree

variable {α β : Type}

/-- Whether a frame was cut off by the end of the bytes. -/
def Error.isCutOff : Error → Bool
  | .malformed .truncatedVarint | .malformed (.truncatedPayload _ _) => true
  | _ => false

/-- An activity that, unless it is cut off, looks only at the bytes that it moves over. -/
def FrameIO.Local (activity : FrameIO α) : Prop :=
  ∀ handle : Handle, handle.stream.Calm →
    (∃ error after, activity handle = .error error after ∧ error.isCutOff) ∨
    ∃ count result, count ≤ handle.ahead.length ∧ ∀ other : Handle, other.stream.Calm →
      other.ahead.take count = handle.ahead.take count →
        activity other = ended (other.advance count) result

namespace FrameIO.Local

private theorem settled {activity : FrameIO α} (result : Except Error α)
    (h : ∀ handle, activity handle = ended handle result) :
    Local activity :=
  fun _ _ => .inr ⟨0, result, Nat.zero_le _, fun other _ _ => h other⟩

private theorem pure (value : α) : Local (Pure.pure value) := settled (.ok value) fun _ => rfl

private theorem throw (error : Error) :
    Local (MonadExcept.throw error : FrameIO α) := settled (.error error) fun _ => rfl

private theorem take_add {bytes bytes' : Bytes} {first second : Nat}
    (h : bytes'.take (first + second) = bytes.take (first + second)) :
    bytes'.take first = bytes.take first ∧
    (bytes'.drop first).take second = (bytes.drop first).take second := by
  constructor
  · have hfirst := congrArg (List.take first) h
    rwa [List.take_take, List.take_take, Nat.min_eq_left (Nat.le_add_right _ _)] at hfirst
  · have hsecond := congrArg (List.drop first) h
    rwa [List.drop_take, List.drop_take, Nat.add_sub_cancel_left] at hsecond

private theorem bind {activity : FrameIO α} {next : α → FrameIO β} (h : Local activity)
    (hnext : ∀ value, Local (next value)) :
    Local (activity >>= next) := by
  intro handle hcalm
  rcases h handle hcalm with ⟨error, after, hrun, hcut⟩ | ⟨first, result, hfirst, hrun⟩
  · exact .inl ⟨error, after, by rw [bind_apply, hrun], hcut⟩
  · cases result with
    | error error =>
      refine .inr ⟨first, .error error, hfirst, fun other hother hsame => ?_⟩
      rw [bind_apply, hrun other hother hsame]
      rfl
    | ok value =>
      have hbetween : (handle.advance first).stream.Calm := hcalm
      rcases hnext value (handle.advance first) hbetween with ⟨error, after, hlast, hcut⟩ |
        ⟨second, result, hsecond, hlast⟩
      · refine .inl ⟨error, after, ?_, hcut⟩
        rw [bind_apply, hrun handle hcalm rfl]
        exact hlast
      · rw [Handle.ahead_advance, List.length_drop] at hsecond
        refine .inr ⟨first + second, result, by omega, fun other hother hsame => ?_⟩
        obtain ⟨hsame₁, hsame₂⟩ := take_add hsame
        rw [← Handle.ahead_advance, ← Handle.ahead_advance] at hsame₂
        rw [bind_apply, hrun other hother hsame₁, ← Handle.advance_advance]
        exact hlast (other.advance first) hother hsame₂

private theorem taking {activity : FrameIO α} (count : Nat) (give : Bytes → Except Error α)
    (hshort : ∀ handle : Handle, handle.stream.Calm → handle.ahead.length < count →
      ∃ error after, activity handle = .error error after ∧ error.isCutOff)
    (hlong : ∀ handle : Handle, handle.stream.Calm → count ≤ handle.ahead.length →
      activity handle = ended (handle.advance count) (give (handle.ahead.take count))) :
      Local activity := by
  intro handle hcalm
  by_cases hcount : handle.ahead.length < count
  · exact .inl (hshort handle hcalm hcount)
  · have hle := Nat.le_of_not_lt hcount
    refine .inr ⟨count, give (handle.ahead.take count), hle, fun other hother hsame => ?_⟩
    have hlength := congrArg List.length hsame
    rw [List.length_take, List.length_take, Nat.min_eq_left hle] at hlength
    rw [hlong other hother (hlength ▸ Nat.min_le_right _ _), hsame]

private theorem readLengthByte : Local Frame.readLengthByte := by
  refine taking 1 (fun data => .ok (data.headD 0)) (fun handle hcalm hshort => ?_)
    fun handle hcalm hlong => ?_
  · refine ⟨.malformed .truncatedVarint, handle.advance handle.ahead.length, ?_, rfl⟩
    rw [Frame.readLengthByte, Handle.readExactly_eq hcalm, if_pos hshort]
    rfl
  · rw [Frame.readLengthByte, Handle.readExactly_eq hcalm, if_neg (Nat.not_lt.2 hlong)]
    rfl

private theorem readLength : Local Frame.readLength := by
  have hbytes (left : Nat) : Local (Frame.readLengthBytes left) := by
    induction left with
    | zero => exact throw _
    | succ left ih =>
      refine bind readLengthByte fun byte => ?_
      split
      · exact pure _
      · exact bind ih fun _ => pure _
  refine bind (hbytes _) fun bytes => ?_
  split
  · split
    · exact pure _
    · exact throw _
  · exact throw _

private theorem readPayload [Message α] (codec : Codec) (length : Nat) :
    Local (Frame.readPayload codec length : FrameIO α) := by
  rw [Frame.readPayload_eq]
  split
  · exact throw _
  · have hread (handle : Handle) (hcalm : handle.stream.Calm) :
      (Handle.readUpTo length).toFrameIO handle =
        .ok (handle.ahead.take length) (handle.advance (handle.ahead.take length).length) := by
      exact Transfer.toFrameIO_ok (Handle.readUpTo_eq hcalm length)
    refine taking length (fun payload => (Message.decode payload).mapError .decode)
      (fun handle hcalm hshort => ?_)
      fun handle hcalm hlong => ?_
    · have htaken : (handle.ahead.take length).length < length := by
        rw [List.length_take]
        omega
      exact ⟨_, _, by rw [bind_apply, hread handle hcalm]; dsimp only; rw [if_pos htaken]; rfl, rfl⟩
    · have htaken : (handle.ahead.take length).length = length := by
        rw [List.length_take]
        omega
      rw [bind_apply, hread handle hcalm]
      dsimp only
      rw [htaken, if_neg (Nat.lt_irrefl _)]
      cases (Message.decode (handle.ahead.take length) : Except DecodeError α) <;> rfl

private theorem readNested [Message α] (codec : Codec) :
    Local (Frame.readNested codec : FrameIO α) :=
  bind readLength fun length => readPayload codec length

end FrameIO.Local

section Reading

variable [Message α]

/-- Reading the frame at a position of some bytes is cut off, or is the same in all bytes that agree
with these up to where it ends. -/
private theorem Frame.readAt_local (codec : Codec) (position : Nat) (content : Array UInt8) :
    (∃ error after, (readAt codec position : FrameIO α) { stream := { content } } =
      .error error after ∧ error.isCutOff) ∨
    ∃ count result, count ≤ (content.toList.drop position).length ∧
      (stateAfter ((readAt codec position : FrameIO α) { stream := { content } })).position =
        position + count ∧
      ∀ content' : Array UInt8,
        (content'.toList.drop position).take count = (content.toList.drop position).take count →
        verdict ((readAt codec position : FrameIO α) { stream := { content := content' } }) =
          result := by
  have hseek (content : Array UInt8) :
    (readAt codec position : FrameIO α) { stream := { content } } =
      readNested codec ⟨{ content, seeks := [.start position] }, position⟩ := by
    have hcalm : (Handle.stream { stream := { content } }).Calm := Stream.calm_mk content []
    rw [readAt, discard_bind, bind_apply, Transfer.toFrameIO_ok (Handle.seek_eq hcalm _)]
    rfl
  simp only [hseek]
  rcases FrameIO.Local.readNested (α := α) codec ⟨{ content, seeks := [.start position] }, position⟩
      (Stream.calm_mk _ _) with hcut | ⟨count, result, hcount, hrun⟩
  · exact .inl hcut
  · refine .inr ⟨count, result, hcount, ?_, fun content' hsame => ?_⟩
    · rw [hrun _ (Stream.calm_mk _ _) rfl]
      cases result <;> rfl
    · rw [hrun ⟨{ content := content', seeks := [.start position] }, position⟩
        (Stream.calm_mk _ _) hsame]
      cases result <;> rfl

/-- The frame at a position of some bytes holds a value, and the bytes of the frame are the same in
others. -/
def Frame.Shared (codec : Codec) (content content' : Array UInt8) (position : UInt64) (value : α) :
    Prop :=
  let read := (readAt codec position.toNat : FrameIO α) { stream := { content } }
  verdict read = .ok value ∧ content'.extract position.toNat (stateAfter read).position =
    content.extract position.toNat (stateAfter read).position

variable {source : Source} {content content' : Array UInt8} {position : UInt64} {value : α}

theorem Frame.Shared.frameAt (hidle : source.isReading = false)
    (h : Frame.Shared source.codec content content' position value) :
    source.frameAt content position.toNat = .ok value ∧
    source.frameAt content' position.toNat = .ok value := by
  obtain ⟨hread, hsame⟩ := h
  rw [Source.frameAt, Source.frameAt, Source.outcome, Source.outcome, hidle,
    if_neg Bool.false_ne_true, if_neg Bool.false_ne_true]
  refine ⟨hread, ?_⟩
  rcases Frame.readAt_local
    (α := α) source.codec position.toNat content with ⟨error, failed, hcut, -⟩ |
    ⟨count, result, -, hafter, hlocal⟩
  · rw [hcut] at hread
    cases hread
  · rw [hlocal content' ?_, ← hlocal content rfl, hread]
    have hlist := congrArg Array.toList hsame
    rw [Array.toList_extract, Array.toList_extract, List.extract_eq_take_drop,
      List.extract_eq_take_drop, hafter, Nat.add_sub_cancel_left] at hlist
    exact hlist

/-- More bytes behind a frame change nothing for whoever reads it, unless it is cut off. -/
theorem Source.frameAt_append (source : Source) (content more : Array UInt8) (position : Nat) :
    (∃ error, (source.frameAt content position : Except Error α) = .error error ∧ error.isCutOff) ∨
    (source.frameAt (content ++ more) position : Except Error α) =
      source.frameAt content position := by
  unfold Source.frameAt Source.outcome
  by_cases hreading : source.isReading
  · exact .inr (by rw [if_pos hreading, if_pos hreading])
  · rw [if_neg hreading, if_neg hreading]
    rcases Frame.readAt_local
      (α := α) source.codec position content with ⟨error, after, hrun, hcut⟩ |
      ⟨count, result, hcount, -, hlocal⟩
    · exact .inl ⟨error, by rw [hrun]; rfl, hcut⟩
    · refine .inr ?_
      rw [hlocal content rfl, hlocal (content ++ more) ?_]
      by_cases hposition : position ≤ content.toList.length
      · rw [Array.toList_append, List.drop_append_of_le_length hposition,
          List.take_append_of_le_length hcount]
      · rw [List.drop_eq_nil_of_le (Nat.le_of_not_le hposition), List.length_nil,
          Nat.le_zero] at hcount
        rw [hcount, List.take_zero, List.take_zero]

end Reading
end FramedTree
