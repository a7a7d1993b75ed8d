import FramedTree.Proofs.Saving
import FramedTree.Proofs.SideBySide

/-! # Saves side by side

Two saves go side by side from documents that are the same as far as a save is concerned: what is
loaded in both is the same, and what is still to be loaded is loaded side by side. Whoever compares
two saves says when their outputs agree, and shows that reading and writing keep them so.
-/

namespace FramedTree

variable {σ ν μ α β : Type}

section Wider

variable {τ : Type} {get : τ → σ} {put : σ → τ → τ}

private theorem Access.around_within (part : ν → μ) (back : μ → ν → ν) (access : Access σ μ α) :
    Access.around get put (Access.within part back access) =
      Access.within part back (Access.around get put access) := by
  funext ⟨node, whole⟩
  rw [Access.around_apply, Access.within_apply, Access.within_apply, Access.around_apply]
  cases access (part node, get whole) <;> rfl

private theorem Slots.around_access (hput : ∀ whole, put (get whole) whole = whole) (i : Nat)
    (inner : Access σ ν α) :
    Access.around get put (Slots.access i inner) =
      Slots.access i (Access.around get put inner) := by
  funext ⟨slots, whole⟩
  rw [Access.around_apply]
  cases hfound : slots.get? i with
  | none =>
    rw [Slots.access_apply_none hfound, Slots.access_apply_none hfound, mapState_ok, hput]
  | some value =>
    rw [Slots.access_apply_some hfound, Slots.access_apply_some hfound, map_apply, map_apply,
      Access.around_apply]
    cases inner (value, get whole) <;> rfl

private theorem Lazy.around_access_node (hput : ∀ whole, put (get whole) whole = whole)
    (load : Option Origin → EStateM Error σ ν) :
    Access.around get put (Lazy.access load Access.node) =
      Lazy.access (Lazy.widen get put load) Access.node := by
  funext ⟨cell, whole⟩
  have hget := congrFun (Lazy.around_getOrLoad get put hput load) (cell, whole)
  rw [Lazy.access, Lazy.access, bind_apply, ← hget, Access.around_apply, Access.around_apply,
    bind_apply]
  cases Lazy.getOrLoad (fun origin => Access.lift (load origin)) (cell, get whole) <;> rfl

end Wider

/-- The loader of an identity sees the streams of the output. -/
abbrev Entry.loadForSaving (stamp : Stamp) (field : UInt32) :
    Option Origin → EStateM Error Output Identity :=
  Lazy.widen Output.streams (fun streams output => { output with streams })
    (loadIdentity stamp field)

namespace Output

private theorem loading_identification :
    loading (Entry.onIdentification Access.node) = Access.node >>= fun entry =>
    Access.within Entry.identification (fun cell entry => { entry with identification := cell })
      (Lazy.access (Entry.loadForSaving entry.stamp Entry.identificationField) Access.node) := by
  funext ⟨entry, output⟩
  rw [loading, Access.around_apply, Entry.onIdentification, Access.node_bind_apply,
    Access.node_bind_apply, ← Lazy.around_access_node fun _ => rfl, ← Access.around_within,
      Access.around_apply]

private theorem loading_secretIdentity :
    loading (Entry.onSecretIdentity Access.node) = Access.node >>= fun entry =>
    Access.within Entry.secretIdentity (fun slots entry => { entry with secretIdentity := slots })
      (Slots.access Entry.singular
        (Lazy.access (Entry.loadForSaving entry.stamp Entry.secretIdentityField) Access.node)) := by
  funext ⟨entry, output⟩
  rw [loading, Access.around_apply, Entry.onSecretIdentity, Access.node_bind_apply,
    Access.node_bind_apply, ← Lazy.around_access_node fun _ => rfl, ← Slots.around_access fun _ =>
      rfl, ← Access.around_within,
    Access.around_apply]

def reading (load : Load α) : EStateM Error Output α :=
  fun output => mapState (fun streams => { output with streams }) (load output.streams)

private theorem emit_bind (first : SinkIO α) (next : α → SinkIO β) :
    emit (first >>= next) = emit first >>= fun value => emit (next value) := by
  funext output
  rw [bind_apply]
  unfold emit
  dsimp only
  rw [bind_apply]
  cases first (output.sink, ⟨output.streams.get output.target, output.position⟩) with
  | error error state => rfl
  | ok value state =>
    obtain ⟨sink, handle⟩ := state
    dsimp only
    rw [Streams.get_set, if_pos rfl]
    cases next value (sink, handle) <;> simp only [Streams.set_set]

end Output

def Sink.close : SinkIO Nat := do
  flush
  let (sink, _) ← get
  return sink.position - sink.start

private theorem Output.emit_finish [Message α] (root : α) :
    emit (Sink.finish root) = emit (Sink.write .root root) >>= fun _ => emit Sink.close := by
  rw [← emit_bind, Sink.finish, discard_bind]
  rfl

/-- What two runs load and write leaves them as the escort has them: a run that goes on alone may
read, and what is written side by side stays so. -/
structure Escort.Carries (e : Escort Output) : Prop where
  read : ∀ {η : Type} [Message η] (origin : Origin),
    Keeps e.Onward (Output.reading (origin.read : Load η))
  write : ∀ {η : Type} [Message η] (kind : FrameKind) (header : η),
    Escorts e (Output.emit (Sink.write kind header)) (Output.emit (Sink.write kind header))
  close : Escorts e (Output.emit Sink.close) (Output.emit Sink.close)

/-- Entries that are the same as far as a save is concerned. -/
structure Entry.Beside (e : Escort Output) (entry entry' : Entry) : Prop where
  stamp_eq : entry'.stamp = entry.stamp
  approver_eq : entry'.approver = entry.approver
  reviewers_eq : entry'.reviewers = entry.reviewers
  identification : Escorts.Fetches e Eq
    (loadForSaving entry.stamp identificationField) entry.identification
    entry'.identification
  secretIdentity : Option.Rel (Escorts.Fetches e Eq (loadForSaving entry.stamp secretIdentityField))
    (entry.secretIdentity.get? singular) (entry'.secretIdentity.get? singular)

/-- Documents that are the same as far as a save is concerned. -/
structure Document.Beside (e : Escort Output) (document document' : Document) : Prop where
  stamp_eq : document'.stamp = document.stamp
  entries : Slots.Pointwise
    (fun i => Escorts.Fetches e (Entry.Beside e) (loadForSaving document.stamp i))
    document.entries document'.entries

variable {e : Escort Output}

private theorem Output.loadForSaving_some {η : Type} [Message η] {load : Option Origin → Load ν}
    {make : η → ν} {origin : Origin} (hload : load (some origin) = do return make (← origin.read)) :
    Lazy.widen Output.streams (fun streams output => { output with streams }) load (some origin) =
      make <$> reading origin.read := by
  funext output
  rw [Lazy.widen, hload, map_apply, reading, bind_apply]
  cases (origin.read : Load η) output.streams <;> rfl

private theorem Escort.Carries.identity (he : e.Carries) (stamp : Stamp) (field : UInt32)
    (origin : Option Origin) :
    Keeps e.Onward (Entry.loadForSaving stamp field origin) := by
  cases origin with
  | none => exact Keeps.pure _
  | some origin =>
    rw [Entry.loadForSaving, Output.loadForSaving_some (η := IdentityHeader) rfl]
    exact Keeps.map _ (he.read origin)

private theorem Escort.Carries.entry (he : e.Carries) (stamp : Stamp) (i : Nat)
    (origin : Option Origin) :
    Keeps e.Onward (Document.loadForSaving stamp i origin) := by
  cases origin with
  | none => exact Keeps.pure _
  | some origin =>
    rw [Document.loadForSaving, Output.loadForSaving_some (η := EntryHeader) rfl]
    exact Keeps.map _ (he.read origin)

theorem Escort.Carries.finish (he : e.Carries) {η : Type} [Message η] (root : η) :
    Escorts e (Output.emit (Sink.finish root)) (Output.emit (Sink.finish root)) := by
  rw [Output.emit_finish]
  exact Escorts.bind (he.write .root root) fun _ => he.close

private theorem Escorts.write {V : ν → ν → Prop} (he : e.Carries) {η : Type} [Message η]
    (header : η) :
    Escorts (e.on V) (Output.write header) (Output.write header) := lift (he.write .nested header)

private theorem Escorts.load_node {load : Option Origin → EStateM Error Output ν}
    (hload : ∀ origin, Keeps e.Onward (load origin)) :
    Escorts (e.on (Fetches e Eq load)) (Lazy.access load Access.node)
      (Lazy.access load Access.node) := by
  refine opens hload ⟨fun state state' hstate => .ok hstate.1 hstate,
    fun state => refl_of e.Onward state.2⟩

namespace Entry

private theorem escorts_identification (he : e.Carries) :
    Escorts (e.on (Beside e)) (Output.loading (onIdentification Access.node))
      (Output.loading (onIdentification Access.node)) := by
  rw [Output.loading_identification]
  refine Escorts.node_within
    (U := fun entry _ => Escorts.Fetches e Eq (Entry.loadForSaving entry.stamp identificationField))
      ?_ ?_ ?_ ?_
  · intro entry entry' hentry
    rw [hentry.stamp_eq]
    exact Escorts.load_node (he.identity _ _)
  · exact fun entry => (Escorts.load_node (he.identity _ _)).onward
  · exact fun entry entry' hentry => hentry.identification
  · exact fun entry entry' cell cell' hentry hcell => { hentry with identification := hcell }

private theorem escorts_secretIdentity (he : e.Carries) :
    Escorts (e.on (Beside e)) (Output.loading (onSecretIdentity Access.node))
      (Output.loading (onSecretIdentity Access.node)) := by
  rw [Output.loading_secretIdentity]
  refine Escorts.node_within (U := fun entry _ slots slots' => Option.Rel
    (Escorts.Fetches e Eq (Entry.loadForSaving entry.stamp secretIdentityField))
      (slots.get? singular)
    (slots'.get? singular)) ?_ ?_ ?_ ?_
  · intro entry entry' hentry
    rw [hentry.stamp_eq]
    exact Escorts.slot (Escorts.load_node (he.identity _ _))
  · exact fun entry => (Escorts.slot (Escorts.load_node (he.identity _ _))).onward
  · exact fun entry entry' hentry => hentry.secretIdentity
  · exact fun entry entry' slots slots' hentry hslots => { hentry with secretIdentity := hslots }

private theorem escorts_save (he : e.Carries) : Escorts (e.on (Beside e)) save save := by
  refine Escorts.bind (escorts_identification he) fun identity => ?_
  refine Escorts.bind (Escorts.write he _) fun identification => ?_
  refine Escorts.bind (escorts_secretIdentity he) fun secret => ?_
  refine Escorts.bind ?_ fun secretIdentity => ?_
  · cases secret with
    | none => exact Escorts.pure none
    | some identity => exact Escorts.map some (Escorts.write he _)
  · refine Escorts.node_bind (fun entry entry' hentry => ?_) fun entry =>
      (Escorts.write (V := Beside e) he _).onward
    have hheader : entry'.toHeader identification secretIdentity =
      entry.toHeader identification secretIdentity := by
      rw [toHeader, toHeader, hentry.approver_eq, hentry.reviewers_eq]
    rw [hheader]
    exact Escorts.write he _

end Entry

namespace Document

theorem escorts_saveAll (he : e.Carries) : Escorts (e.on (Beside e)) saveAll saveAll := by
  refine Escorts.bind ?_ fun positions => Escorts.lift (he.finish _)
  rw [saveEntries_eq]
  have hcells (stamp : Stamp) :=
    Escorts.accessAll (Q := fun i => Escorts.Fetches e (Entry.Beside e) (loadForSaving stamp i))
    fun i => Escorts.opens (he.entry stamp i) (Entry.escorts_save he)
  refine Escorts.node_within
    (U := fun document _ => Slots.Pointwise fun i => Escorts.Fetches e (Entry.Beside e)
      (loadForSaving document.stamp i))
    ?_ ?_ ?_ ?_
  · intro document document' hdocument
    rw [hdocument.stamp_eq]
    exact hcells document.stamp
  · exact fun document => (hcells document.stamp).onward
  · exact fun document document' hdocument => hdocument.entries
  · exact fun document document' slots slots' hdocument hslots => ⟨hdocument.stamp_eq, hslots⟩

end Document

/-- What the cell is still to be loaded from is fit for it. -/
def Lazy.ReadsOnly (Fit : Source → Prop) (cell : Lazy ν) : Prop :=
  cell.peek = none → ∀ origin, cell.origin = some origin → Fit origin.source

/-- What is still to be loaded of the entry is loaded from fit sources. -/
structure Entry.ReadsOnly (Fit : Source → Prop) (entry : Entry) : Prop where
  identification : entry.identification.ReadsOnly Fit
  secretIdentity : ∀ cell, entry.secretIdentity.get? singular = some cell → cell.ReadsOnly Fit

/-- What is still to be loaded of the document is loaded from fit sources. -/
structure Document.ReadsOnly (Fit : Source → Prop) (document : Document) : Prop where
  unread : ∀ i cell, document.entries.get? i = some cell → cell.ReadsOnly Fit
  entry : ∀ i entry, document.entryAt? i = some entry → entry.ReadsOnly Fit

theorem Document.ReadsOnly.imp {Fit Fit' : Source → Prop} {document : Document}
    (h : document.ReadsOnly Fit) (himp : ∀ source, Fit source → Fit' source) :
    document.ReadsOnly Fit' := by
  have hcell {ν : Type} {cell : Lazy ν} (hcell : cell.ReadsOnly Fit) : cell.ReadsOnly Fit' :=
    fun hpeek origin horigin => himp _ (hcell hpeek origin horigin)
  refine ⟨fun i cell hslot => hcell (h.unread i cell hslot), fun i entry hentry => ?_⟩
  have hreads := h.entry i entry hentry
  exact ⟨hcell hreads.identification, fun cell hslot => hcell (hreads.secretIdentity cell hslot)⟩

def Escort.Reads (e : Escort Output) (Fit : Source → Prop) : Prop :=
  ∀ {η : Type} [Message η] (origin : Origin), Fit origin.source → ∀ output output',
    e.Beside output output' →
    e.Ends Eq (Output.reading (origin.read : Load η) output)
      (Output.reading (origin.read : Load η) output')

variable {Fit : Source → Prop}

private theorem Escort.Ends.map {e : Escort σ} {A : α → α → Prop} (f : β → α)
    {activity activity' : EStateM Error σ β} {state state' : σ}
    (h : e.Ends Eq (activity state) (activity' state')) (hvalue : ∀ value, A (f value) (f value)) :
    e.Ends A ((f <$> activity) state) ((f <$> activity') state') := by
  rw [map_apply, map_apply]
  generalize activity state = result at h ⊢
  generalize activity' state' = result' at h ⊢
  cases h with
  | ok heq hstate =>
    subst heq
    exact .ok (hvalue _) hstate
  | error hstate => exact .error hstate
  | parted hstate => cases result' <;> exact .parted hstate

private theorem Escorts.fetches_self {η : Type} [Message η] {V : ν → ν → Prop}
    {load : Option Origin → Load ν} {make : Origin → η → ν} {cell : Lazy ν} {first : ν}
    (hreads : e.Reads Fit) (hcell : cell.ReadsOnly Fit)
    (hload : ∀ origin, load (some origin) = do return make origin (← origin.read))
    (hnone : load none = Pure.pure first)
    (hloaded : ∀ value, cell.peek = some value → V value value) (hfirst : V first first)
    (hmade : ∀ origin header, Fit origin.source → V (make origin header) (make origin header)) :
    Fetches e V (Lazy.widen Output.streams (fun streams output => { output with streams }) load)
      cell cell := by
  cases hpeek : cell.peek with
  | some value => exact fetches_of_peek hpeek hpeek (hloaded value hpeek)
  | none =>
    intro output output' hbeside
    rw [Lazy.fetch_of_unloaded hpeek]
    cases horigin : cell.origin with
    | none =>
      rw [Lazy.widen, Lazy.widen, hnone]
      exact .ok hfirst hbeside
    | some origin =>
      have hfit := hcell hpeek origin horigin
      rw [Output.loadForSaving_some (hload origin)]
      exact Escort.Ends.map (make origin) (hreads origin hfit output output' hbeside) fun header =>
        hmade origin header hfit

private theorem Entry.beside_self (hreads : e.Reads Fit) {entry : Entry} (h : entry.ReadsOnly Fit) :
    entry.Beside e entry := by
  have hcell (field : UInt32) (cell : Lazy Identity) (hfit : cell.ReadsOnly Fit) :
      Escorts.Fetches e Eq (loadForSaving entry.stamp field) cell cell :=
    Escorts.fetches_self (η := IdentityHeader) hreads hfit (fun _ => rfl) rfl (fun _ _ => rfl) rfl
      fun _ _ _ => rfl
  refine ⟨rfl, rfl, rfl, hcell _ _ h.identification, ?_⟩
  cases hslot : entry.secretIdentity.get? singular with
  | none => exact .none
  | some cell => exact .some (hcell _ _ (h.secretIdentity cell hslot))

private theorem Entry.readsOnly_empty (stamp : Stamp) : Entry.ReadsOnly Fit { stamp } := by
  refine ⟨fun _ origin horigin => ?_, fun cell hcell => ?_⟩
  · cases horigin
  · simp at hcell

private theorem Entry.readsOnly_ofHeader (stamp : Stamp) {source : Source} (hfit : Fit source)
    (header : EntryHeader) :
    (Entry.ofHeader stamp source header).ReadsOnly Fit := by
  have hstored (position : UInt64) :
    Lazy.ReadsOnly Fit (.stored source position : Lazy Identity) := by
    intro _ origin horigin
    cases horigin
    exact hfit
  refine ⟨hstored _, fun cell hcell => ?_⟩
  cases hsecret : header.secretIdentity with
  | none => simp [ofHeader, hsecret] at hcell
  | some position =>
    rw [ofHeader, hsecret, Slots.get?_insert, if_pos rfl] at hcell
    cases hcell
    exact hstored position

/-- A document goes beside itself if what it still has to load does. -/
theorem Document.beside_self (hreads : e.Reads Fit) {document : Document}
    (h : document.ReadsOnly Fit) :
    document.Beside e document := by
  refine ⟨rfl, rfl, fun i => ?_⟩
  cases hslot : document.entries.get? i with
  | none => exact .none
  | some cell =>
    refine .some (Escorts.fetches_self (η := EntryHeader) hreads (h.unread i cell hslot)
      (fun _ => rfl) rfl ?_ ?_ ?_)
    · intro entry hpeek
      refine Entry.beside_self hreads (h.entry i entry ?_)
      rw [entryAt?, hslot]
      exact hpeek
    · exact Entry.beside_self hreads (Entry.readsOnly_empty (entryStamp document.stamp i))
    · exact fun origin header hfit =>
        Entry.beside_self hreads (Entry.readsOnly_ofHeader _ hfit header)

end FramedTree
