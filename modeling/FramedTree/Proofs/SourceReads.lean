import FramedTree.Document.Basic
import FramedTree.Proofs.Frames

/-! # What sources give

A library says which bytes some of the streams hold. As long as these streams are not disturbed,
whatever is read from them, or from private copies, is settled by the bytes: it is the same every
time, whether it is a value or a failure.
-/

namespace FramedTree

variable {ε σ α β : Type}

/-- What came of an activity. -/
def verdict : EStateM.Result ε σ α → Except ε α
  | .ok value _ => .ok value
  | .error error _ => .error error

theorem eq_ok_of_verdict (result : EStateM.Result ε σ α) (value : α)
    (h : verdict result = .ok value) :
    result = .ok value (stateAfter result) := by
  cases result with
  | ok found state =>
    cases h
    rfl
  | error error state => cases h

theorem eq_error_of_verdict (result : EStateM.Result ε σ α) (error : ε)
    (h : verdict result = .error error) :
    result = .error error (stateAfter result) := by
  cases result with
  | ok found state => cases h
  | error found state =>
    cases h
    rfl

theorem verdict_mapState {τ : Type} (f : σ → τ) (result : EStateM.Result ε σ α) :
    verdict (mapState f result) = verdict result := by
  cases result <;> rfl

theorem verdict_mapValue (f : α → β) (result : EStateM.Result ε σ α) :
    verdict (mapValue f result) = (verdict result).map f := by
  cases result <;> rfl

theorem verdict_map (f : α → β) (activity : EStateM ε σ α) (state : σ) :
    verdict ((f <$> activity) state) = (verdict (activity state)).map f := by
  rw [map_apply]
  cases activity state <;> rfl

/-- An activity that came to this end. -/
def ended (state : σ) : Except ε α → EStateM.Result ε σ α
  | .ok value => .ok value state
  | .error error => .error error state

theorem stateAfter_ended (state : σ) (result : Except ε α) :
    stateAfter (ended state result) = state := by
  cases result <;> rfl

theorem mapState_eq_ended {τ : Type} (f : σ → τ) (result : EStateM.Result ε σ α) :
    mapState f result = ended (f (stateAfter result)) (verdict result) := by
  cases result <;> rfl

theorem Steady.ends {activity : EStateM ε Handle α} (h : Steady activity) {handle other : Handle}
    (halike : handle.Alike other) :
    verdict (activity other) = verdict (activity handle) ∧
      (stateAfter (activity handle)).Alike (stateAfter (activity other)) ∧
      (stateAfter (activity handle)).stream.content = handle.stream.content := by
  rcases h handle other halike with ⟨value, after, after', hrun, hrun', hrest⟩ |
    ⟨error, after, after', hrun, hrun', hrest⟩
  all_goals
    rw [hrun, hrun']
    exact ⟨rfl, hrest⟩

/-- The bytes of those streams that are known. -/
abbrev Library := StreamId → Option (Array UInt8)

/-- The known streams hold their bytes and can be read without disturbance. -/
def Streams.Holds (streams : Streams) (library : Library) : Prop :=
  ∀ id content, library id = some content → (streams.get id).Calm ∧
    (streams.get id).content = content

theorem Streams.holds_none (streams : Streams) : streams.Holds fun _ => none := nofun

def Library.only (id : StreamId) (content : Array UInt8) : Library :=
  fun other => if other = id then some content else none

theorem Streams.holds_only {streams : Streams} {id : StreamId} (h : (streams.get id).Calm) :
    streams.Holds (Library.only id (streams.get id).content) := by
  intro other content hcontent
  obtain ⟨rfl, hsame⟩ := Option.ite_none_right_eq_some.1 hcontent
  exact ⟨h, Option.some.inj hsame⟩

/-- The known streams still hold their bytes, and nothing has happened to the others. -/
structure Streams.Follows (library : Library) (before after : Streams) : Prop where
  holds : after.Holds library
  editions_eq : after.editions = before.editions
  other : ∀ id, library id = none → after.get id = before.get id

theorem Streams.follows_refl {library : Library} {streams : Streams} (h : streams.Holds library) :
    Streams.Follows library streams streams := ⟨h, rfl, fun _ _ => rfl⟩

theorem Streams.Follows.trans {library : Library} {first second third : Streams}
    (h : Streams.Follows library first second) (h' : Streams.Follows library second third) :
    Streams.Follows library first third :=
  ⟨h'.holds, h'.editions_eq.trans h.editions_eq,
    fun id hid => (h'.other id hid).trans (h.other id hid)⟩

/-- A known stream may be replaced by one that holds the same and is calm. -/
theorem Streams.follows_set {library : Library} {streams : Streams} {id : StreamId}
    {content : Array UInt8} {stream : Stream} (h : streams.Holds library)
    (hid : library id = some content) (hcalm : stream.Calm) (hcontent : stream.content = content) :
    Streams.Follows library streams (streams.set id stream) := by
  refine ⟨fun other bytes hother => ?_, ?_, fun other hother => ?_⟩
  · rw [Streams.get_set]
    split
    case isTrue heq =>
      subst heq
      cases hid.symm.trans hother
      exact ⟨hcalm, hcontent⟩
    case isFalse => exact h other bytes hother
  · cases id <;> rfl
  · rw [Streams.get_set, if_neg]
    intro heq
    rw [heq, hid] at hother
    cases hother

/-- A stream that is not known may be replaced by any other. -/
theorem Streams.Holds.set {library : Library} {streams : Streams} {id : StreamId}
    (h : streams.Holds library) (hid : library id = none) (stream : Stream) :
    (streams.set id stream).Holds library := by
  intro other content hother
  rw [Streams.get_set, if_neg]
  · exact h other content hother
  · rintro rfl
    rw [hid] at hother
    cases hother

/-- What comes of a load is settled by the library. -/
def Settles (library : Library) (load : Load α) (result : Except Error α) : Prop :=
  ∀ streams, streams.Holds library →
    ∃ after, load streams = ended after result ∧ Streams.Follows library streams after

namespace Settles

variable {library : Library}

theorem pure (value : α) : Settles library (Pure.pure value) (.ok value) :=
  fun streams h => ⟨streams, rfl, Streams.follows_refl h⟩

private theorem bind_ok {load : Load α} {next : α → Load β} {value : α} {result : Except Error β}
    (h : Settles library load (.ok value)) (hnext : Settles library (next value) result) :
    Settles library (load >>= next) result := by
  intro streams hstreams
  obtain ⟨between, hload, hbetween⟩ := h streams hstreams
  obtain ⟨after, hrun, hafter⟩ := hnext between hbetween.holds
  refine ⟨after, ?_, hbetween.trans hafter⟩
  rw [bind_apply, hload]
  exact hrun

private theorem bind_error {load : Load α} {next : α → Load β} {error : Error}
    (h : Settles library load (.error error)) : Settles library (load >>= next) (.error error) := by
  intro streams hstreams
  obtain ⟨after, hload, hafter⟩ := h streams hstreams
  refine ⟨after, ?_, hafter⟩
  rw [bind_apply, hload]
  rfl

theorem bind_pure {load : Load α} {result : Except Error α} (f : α → β)
    (h : Settles library load result) :
    Settles library (do return f (← load)) (result.map f) := by
  cases result with
  | ok value => exact bind_ok h (Settles.pure (f value))
  | error error => exact bind_error h

end Settles

/-- The bytes that a source reads from, if they are known. -/
def Source.content? (library : Library) (source : Source) : Option (Array UInt8) :=
  match source.backing with
  | .stream id => library id
  | .copy content => some content

theorem Source.content?_only (id : StreamId) (content : Array UInt8) (codec : Codec) :
    Source.content? (Library.only id content) { backing := .stream id, codec } = some content :=
      if_pos rfl

def Source.outcome (source : Source) (content : Array UInt8) (activity : FrameIO α) :
    Except Error α :=
  if source.isReading then .error (.io .busy) else verdict (activity { stream := { content } })

theorem Source.settles_withHandle {library : Library} {source : Source} {content : Array UInt8}
    {activity : FrameIO α} (hactivity : Steady activity)
    (hcontent : source.content? library = some content) :
    Settles library (source.withHandle activity) (source.outcome content activity) := by
  intro streams hstreams
  rw [Source.withHandle_apply, Source.outcome]
  split
  · exact ⟨streams, rfl, Streams.follows_refl hstreams⟩
  · cases hbacking : source.backing with
    | copy bytes =>
      obtain rfl : bytes = content := by simpa [Source.content?, hbacking] using hcontent
      exact ⟨streams, mapState_eq_ended _ _, Streams.follows_refl hstreams⟩
    | stream id =>
      have hid : library id = some content := by simpa [Source.content?, hbacking] using hcontent
      obtain ⟨hcalm, hbytes⟩ := hstreams id content hid
      have halike : Handle.Alike ⟨streams.get id, 0⟩ { stream := { content } } :=
        ⟨rfl, hbytes.symm, hcalm, Stream.calm_mk content []⟩
      obtain ⟨hsame, hafter, hkept⟩ := hactivity.ends halike
      refine ⟨_, ?_, Streams.follows_set hstreams hid hafter.calm (hkept.trans hbytes)⟩
      dsimp only
      rw [mapState_eq_ended, hsame]

/-- What comes of reading the frame at a position of some bytes. -/
def Source.frameAt [Message α] (source : Source) (content : Array UInt8) (position : Nat) :
    Except Error α :=
  source.outcome content (Frame.readAt source.codec position)

theorem Origin.settles_read [Message α] {library : Library} {origin : Origin}
    {content : Array UInt8} (hcontent : origin.source.content? library = some content) :
    Settles library (origin.read : Load α) (origin.source.frameAt content origin.position.toNat) :=
  Source.settles_withHandle (Steady.readAt _ _) hcontent

/-- A frame that stands among the bytes is what is read. -/
theorem Source.frameAt_ok [Message α] [LawfulMessage α] {source : Source} {content : Array UInt8}
    {position : Nat} {value : α} (hidle : source.isReading = false)
    (h : Frame.At source.codec value content.toList position) :
    source.frameAt content position = .ok value := by
  have hcalm : (Handle.stream { stream := { content } }).Calm := Stream.calm_mk content []
  obtain ⟨after, hread⟩ := Frame.readAt_ok hcalm h
  rw [Source.frameAt, Source.outcome, hidle, if_neg Bool.false_ne_true, hread]
  rfl

def Streams.SameBytes (before after : Streams) : Prop :=
  ∀ id, (after.get id).content = (before.get id).content

instance : IsPreorder Streams Streams.SameBytes where
  refl _ _ := rfl
  trans _ _ _ hab hbc id := (hbc id).trans (hab id)

/-- Reading from a source changes no bytes, also when it is disturbed. -/
theorem Source.sameBytes_withHandle {activity : FrameIO α} (h : Keeps Handle.Untouched activity)
    (source : Source) : Keeps Streams.SameBytes (source.withHandle activity) := by
  intro streams
  rw [Source.withHandle_apply]
  split
  · exact refl_of Streams.SameBytes streams
  · cases source.backing with
    | stream id =>
      intro other
      rw [stateAfter_mapState, Streams.get_set]
      split
      case isTrue heq =>
        rw [heq]
        exact h ⟨streams.get id, 0⟩
      case isFalse => rfl
    | copy content =>
      rw [stateAfter_mapState]
      exact refl_of Streams.SameBytes streams

theorem Entry.sameBytes_loadIdentity (stamp : Stamp) (field : UInt32) (origin : Option Origin) :
    Keeps Streams.SameBytes (Entry.loadIdentity stamp field origin) := by
  cases origin with
  | none => exact Keeps.pure _
  | some origin =>
    exact Keeps.bind (Source.sameBytes_withHandle (Untouched.readAt _ _) origin.source) fun _ =>
      Keeps.pure _

theorem Document.sameBytes_loadEntry (stamp : Stamp) (i : Nat) (origin : Option Origin) :
    Keeps Streams.SameBytes (Document.loadEntry stamp i origin) := by
  cases origin with
  | none => exact Keeps.pure _
  | some origin =>
    exact Keeps.bind (Source.sameBytes_withHandle (Untouched.readAt _ _) origin.source) fun _ =>
      Keeps.pure _

theorem Lazy.sameBytes_fetch {load : Option Origin → Load α}
    (h : ∀ origin, Keeps Streams.SameBytes (load origin)) (cell : Lazy α) :
    Keeps Streams.SameBytes (cell.fetch load) := by
  unfold Lazy.fetch
  split
  · exact Keeps.pure _
  · exact h _

end FramedTree
