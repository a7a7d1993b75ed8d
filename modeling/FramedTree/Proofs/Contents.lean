import Mathlib.Data.List.Forall2
import FramedTree.Proofs.SourceReads
import FramedTree.Proofs.TreeGrowth

/-! # What trees show

A tree shows some content if everything that is not loaded yet can be loaded and the whole then
holds that content. Looking at a tree gives what it shows, and leaves it showing the same.
-/

namespace FramedTree

variable {ν μ α β : Type} {library : Library}

/-- An access that succeeds on every node with a property, as long as the known streams hold their
bytes, and that leaves all other streams alone; `Post` says what comes of it. -/
def Gives (library : Library) (V : ν → Prop) (access : Access Streams ν α) (Post : α → ν → Prop) :
    Prop :=
  ∀ node streams, V node → streams.Holds library →
    ∃ value after streams', access (node, streams) = .ok value (after, streams') ∧
      Post value after ∧ Streams.Follows library streams streams'

/-- A cell whose value has a property, be it loaded or not. -/
def Lazy.Shows (library : Library) (load : Option Origin → Load α) (V : α → Prop) (cell : Lazy α) :
    Prop :=
  ∃ value, Settles library (cell.fetch load) (.ok value) ∧ V value

theorem Lazy.shows_of_peek {load : Option Origin → Load α} {V : α → Prop} {cell : Lazy α}
    {value : α} (hpeek : cell.peek = some value) (hvalue : V value) :
    cell.Shows library load V := by
  refine ⟨value, ?_, hvalue⟩
  rw [Lazy.fetch_of_peek hpeek]
  exact Settles.pure value

namespace Gives

variable {V : ν → Prop} {P : α → ν → Prop} {Q : β → ν → Prop}

theorem pure {value : α} (h : ∀ node, V node → P value node) :
    Gives library V (Pure.pure value) P :=
  fun node streams hnode hstreams =>
    ⟨value, node, streams, rfl, h node hnode, Streams.follows_refl hstreams⟩

theorem node : Gives library V Access.node fun value node => value = node ∧ V node :=
  fun node streams hnode hstreams =>
    ⟨node, node, streams, rfl, ⟨rfl, hnode⟩, Streams.follows_refl hstreams⟩

theorem bind {access : Access Streams ν α} {next : α → Access Streams ν β}
    (h : Gives library V access P) (hnext : ∀ value, Gives library (P value) (next value) Q) :
    Gives library V (access >>= next) Q := by
  intro node streams hnode hstreams
  obtain ⟨value, between, streams', hrun, hbetween, hstreams'⟩ := h node streams hnode hstreams
  obtain ⟨result, after, streams'', hrun', hresult, hstreams''⟩ :=
    hnext value between streams' hbetween hstreams'.holds
  refine ⟨result, after, streams'', ?_, hresult, hstreams'.trans hstreams''⟩
  rw [bind_apply, hrun]
  exact hrun'

theorem mono {R : α → ν → Prop} {access : Access Streams ν α} (h : Gives library V access P)
    (hpost : ∀ value node, P value node → R value node) : Gives library V access R := by
  intro node streams hnode hstreams
  obtain ⟨value, after, streams', hrun, hafter, hstreams'⟩ := h node streams hnode hstreams
  exact ⟨value, after, streams', hrun, hpost value after hafter, hstreams'⟩

/-- What is known besides the node may be used. -/
theorem of_and {p : Prop} {access : Access Streams ν α} (h : p → Gives library V access P) :
    Gives library (fun node => p ∧ V node) access P :=
  fun node streams hnode => h hnode.1 node streams hnode.2

theorem of_exists {U : β → ν → Prop} {access : Access Streams ν α}
    (h : ∀ value, Gives library (U value) access P) :
    Gives library (fun node => ∃ value, U value node) access P := by
  rintro node streams ⟨value, hnode⟩
  exact h value node streams hnode

private theorem attempt {access : Access Streams ν α} (h : Gives library V access P) :
    Gives library V (Access.attempt access) fun result node =>
      ∃ value, result = .ok value ∧ P value node := by
  intro node streams hnode hstreams
  obtain ⟨value, after, streams', hrun, hafter, hstreams'⟩ := h node streams hnode hstreams
  refine ⟨.ok value, after, streams', ?_, ⟨value, rfl, hafter⟩, hstreams'⟩
  unfold Access.attempt
  rw [hrun]

theorem node_within {U : ν → μ → Prop} {R : ν → α → μ → Prop} {get : ν → μ} {put : μ → ν → ν}
    {access : ν → Access Streams μ α}
    (h : ∀ node, V node → Gives library (U node) (access node) (R node))
    (hget : ∀ node, V node → U node (get node))
    (hput : ∀ node value part, V node → R node value part → P value (put part node)) :
    Gives library V (do Access.within get put (access (← Access.node))) P := by
  intro node streams hnode hstreams
  obtain ⟨value, part, streams', hrun, hpart, hstreams'⟩ :=
    h node hnode (get node) streams (hget node hnode) hstreams
  refine ⟨value, put part node, streams', ?_, hput node value part hnode hpart, hstreams'⟩
  rw [Access.node_bind_apply, Access.within_apply, hrun]
  rfl

/-- A cell that has been opened is loaded. -/
theorem opens {load : Option Origin → Load ν} {inner : Access Streams ν α}
    {access : Access Streams (Lazy ν) α} (hopens : Lazy.Opens load inner access)
    (h : Gives library V inner P) :
    Gives library (Lazy.Shows library load V) access fun result cell =>
      ∃ value, cell.peek = some value ∧ P result value := by
  rintro cell streams ⟨value, hsettles, hvalue⟩ hstreams
  obtain ⟨between, hfetch, hbetween⟩ := hsettles streams hstreams
  obtain ⟨kept, -, heq⟩ := hopens.fetched hfetch
  obtain ⟨result, after, streams', hrun, hafter, hstreams'⟩ := h value between hvalue hbetween.holds
  refine ⟨result, Lazy.putBack after kept, streams', ?_, ⟨after, Lazy.peek_putBack _ _, hafter⟩,
    hbetween.trans hstreams'⟩
  rw [heq, hrun]
  rfl

/-- Work on one slot of a row with a property. -/
theorem slot {i : Nat} {inner : Access Streams ν α} {W : Slots ν → Prop}
    {R : Option α → Slots ν → Prop} (h : Gives library V inner P)
    (hnone : ∀ slots, W slots → slots.get? i = none → R none slots)
    (hget : ∀ slots value, W slots → slots.get? i = some value → V value)
    (hput : ∀ slots result value, W slots → (slots.get? i).isSome → P result value →
      R (some result) (slots.modify i fun _ => value)) :
    Gives library W (Slots.access i inner) R := by
  intro slots streams hslots hstreams
  cases hslot : slots.get? i with
  | none =>
    exact ⟨none, slots, streams, Slots.access_apply_none hslot _ _, hnone slots hslots hslot,
      Streams.follows_refl hstreams⟩
  | some value =>
    obtain ⟨result, after, streams', hrun, hafter, hstreams'⟩ :=
      h value streams (hget slots value hslots hslot) hstreams
    refine ⟨some result, slots.modify i fun _ => after, streams', ?_,
      hput slots result after hslots (by rw [hslot]; rfl) hafter, hstreams'⟩
    rw [Slots.access_apply_some hslot, map_apply, hrun]
    rfl

end Gives

theorem optionRel_unique {Q : ν → μ → Prop}
    (hQ : ∀ value item item', Q value item → Q value item' → item = item') {value : Option ν}
    {item item' : Option μ} (h : Option.Rel Q value item) (h' : Option.Rel Q value item') :
    item = item' := by
  cases h with
  | none =>
    cases h'
    rfl
  | some h =>
    cases h' with
    | some h' => rw [hQ _ _ _ h h']

/-- A row without gaps whose values are related to a list one by one. -/
structure Slots.Lists (Q : Nat → ν → μ → Prop) (slots : Slots ν) (items : List μ) : Prop where
  size_eq : slots.size = items.length
  slot : ∀ i, Option.Rel (Q i) (slots.get? i) items[i]?

namespace Slots.Lists

variable {Q : Nat → ν → μ → Prop} {slots : Slots ν} {items : List μ} {i : Nat}

theorem get? (h : slots.Lists Q items) {value : ν} (hvalue : slots.get? i = some value) :
    ∃ item, items[i]? = some item ∧ Q i value item := by
  have hslot := h.slot i
  rw [hvalue] at hslot
  generalize items[i]? = found at hslot
  cases hslot with
  | some hvalue => exact ⟨_, rfl, hvalue⟩

theorem item (h : slots.Lists Q items) {item : μ} (hitem : items[i]? = some item) :
    ∃ value, slots.get? i = some value ∧ Q i value item := by
  have hslot := h.slot i
  rw [hitem] at hslot
  generalize slots.get? i = found at hslot
  cases hslot with
  | some hvalue => exact ⟨_, rfl, hvalue⟩

private theorem modify (h : slots.Lists Q items) {value : ν} {item : μ}
    (hitem : items[i]? = some item) (hvalue : Q i value item) :
    (slots.modify i fun _ => value).Lists Q items := by
  refine ⟨(Slots.size_modify ..).trans h.size_eq, fun j => ?_⟩
  rw [Slots.get?_modify]
  split
  case isFalse => exact h.slot j
  case isTrue hj =>
    subst hj
    obtain ⟨first, hfirst, -⟩ := h.item hitem
    rw [hfirst, hitem]
    exact .some hvalue

private theorem mono {R : Nat → ν → μ → Prop} (h : slots.Lists Q items)
    (hQ : ∀ i value item, Q i value item → R i value item) : slots.Lists R items := by
  refine ⟨h.size_eq, fun i => ?_⟩
  have hslot := h.slot i
  generalize slots.get? i = found at hslot ⊢
  generalize items[i]? = item at hslot ⊢
  cases hslot with
  | none => exact .none
  | some hvalue => exact .some (hQ i _ _ hvalue)

private theorem unique {items' : List μ}
    (hQ : ∀ i value item item', Q i value item → Q i value item' → item = item')
    (h : slots.Lists Q items) (h' : slots.Lists Q items') : items = items' := by
  apply List.ext_getElem?
  intro i
  exact optionRel_unique (hQ i) (h.slot i) (h'.slot i)

end Slots.Lists

namespace Gives

variable {Q R : Nat → ν → μ → Prop} {A : μ → α → Prop} {inner : Nat → Access Streams ν α}

private theorem accessFrom (h : ∀ i item, Gives library (Q i · item) (inner i) fun result value =>
      A item result ∧ R i value item) {items : List μ} (i : Nat) {cells : List (Option ν)}
    {streams : Streams} (hlength : cells.length = items.length)
    (hcells : ∀ j, Option.Rel (Q (i + j)) cells[j]?.join items[j]?)
    (hstreams : streams.Holds library) :
    ∃ results after streams',
      Slots.accessFrom inner i cells streams = .ok results (after, streams') ∧
      List.Forall₂ A items results ∧ after.length = items.length ∧
      (∀ j, Option.Rel (R (i + j)) after[j]?.join items[j]?) ∧
      Streams.Follows library streams streams' := by
  induction items generalizing i cells streams with
  | nil =>
    obtain rfl := List.length_eq_zero_iff.1 hlength
    exact ⟨[], [], streams, rfl, .nil, rfl, fun _ => .none, Streams.follows_refl hstreams⟩
  | cons item items ih =>
    cases cells with
    | nil => cases hlength
    | cons cell cells =>
      have hfirst := hcells 0
      have hrest (j : Nat) : Option.Rel (Q (i + 1 + j)) cells[j]?.join items[j]? := by
        have hj := hcells (j + 1)
        rw [show i + 1 + j = i + (j + 1) by omega]
        exact hj
      cases cell with
      | none => cases hfirst
      | some value =>
        have hvalue : Q i value item := by
          cases hfirst with
          | some hvalue => exact hvalue
        obtain ⟨result, kept, between, hrun, ⟨hresult, hkept⟩, hbetween⟩ :=
          h i item value streams hvalue hstreams
        obtain ⟨results, after, streams', hruns, hresults, hafter, hslots, hstreams'⟩ :=
          ih (i + 1) (Nat.succ.inj hlength) hrest hbetween.holds
        refine ⟨result :: results, some kept :: after, streams', ?_, .cons hresult hresults,
          congrArg Nat.succ hafter, fun j => ?_, hbetween.trans hstreams'⟩
        · rw [Slots.accessFrom_of_ok hrun, hruns, mapValue_ok, mapState_ok]
        · cases j with
          | zero => exact .some hkept
          | succ j =>
            have hj := hslots j
            rw [show i + 1 + j = i + (j + 1) by omega] at hj
            exact hj

private theorem accessAll (h : ∀ i item, Gives library (Q i · item) (inner i) fun result value =>
      A item result ∧ R i value item) (items : List μ) :
    Gives library (Slots.Lists Q · items) (Slots.accessAll inner) fun results slots =>
      List.Forall₂ A items results ∧ slots.Lists R items := by
  intro slots streams hslots hstreams
  have hcells (j : Nat) : Option.Rel (Q (0 + j)) slots.cells.toList[j]?.join items[j]? := by
    rw [Nat.zero_add, Slots.join_cells]
    exact hslots.slot j
  obtain ⟨results, after, streams', hrun, hresults, hlength, hafter, hstreams'⟩ :=
    accessFrom h 0 (slots.length_cells.trans hslots.size_eq) hcells hstreams
  refine ⟨results, ⟨after.toArray⟩, streams', ?_, ⟨hresults, ?_, fun j => ?_⟩, hstreams'⟩
  · rw [Slots.accessAll_apply, hrun]
    rfl
  · rw [Slots.size_ofCells, hlength]
  · have hj := hafter j
    rw [Nat.zero_add] at hj
    rw [Slots.get?_ofCells]
    exact hj

end Gives

/-- What an entry holds, wherever it is kept. References are kept by where they lead. -/
@[ext]
structure EntryContent where
  identification : IdentityHeader
  secretIdentity : Option IdentityHeader
  approver : Option Path
  reviewers : List Path
  deriving DecidableEq, Repr

def EntryContent.outline (content : EntryContent) : List Outline :=
  let childOutline (name : String) : Option IdentityHeader → Outline
    | some header => .child name (Identity.outline { stamp := { root := ⟨0⟩ }, header })
    | none => .absent name
  [childOutline "identification" (some content.identification),
      childOutline "secret_identity" content.secretIdentity] ++
    (content.approver.map fun path => Outline.reference "approver" path).toList ++
    content.reviewers.map fun path => Outline.reference "reviewers" path

abbrev Lazy.ShowsHeader (library : Library) (stamp : Stamp) (field : UInt32) (cell : Lazy Identity)
    (header : IdentityHeader) : Prop :=
  cell.Shows library (Entry.loadIdentity stamp field) fun identity => identity.header = header

/-- The cell of an identity is loaded and has a header. -/
abbrev Lazy.HasHeader (cell : Lazy Identity) (header : IdentityHeader) : Prop :=
  ∃ identity, cell.peek = some identity ∧ identity.header = header

private theorem Lazy.HasHeader.shows {stamp : Stamp} {field : UInt32} {cell : Lazy Identity}
    {header : IdentityHeader} (h : cell.HasHeader header) :
    cell.ShowsHeader library stamp field header := by
  obtain ⟨identity, hpeek, hheader⟩ := h
  exact Lazy.shows_of_peek hpeek hheader

private theorem Lazy.HasHeader.unique {cell : Lazy Identity} {header header' : IdentityHeader}
    (h : cell.HasHeader header) (h' : cell.HasHeader header') : header = header' := by
  obtain ⟨identity, hpeek, rfl⟩ := h
  obtain ⟨identity', hpeek', rfl⟩ := h'
  cases hpeek.symm.trans hpeek'
  rfl

namespace Entry

structure Shows (library : Library) (entry : Entry) (content : EntryContent) : Prop where
  identification : entry.identification.ShowsHeader library entry.stamp identificationField
    content.identification
  secretIdentity : Option.Rel (Lazy.ShowsHeader library entry.stamp secretIdentityField)
    (entry.secretIdentity.get? singular) content.secretIdentity
  approver : entry.approver.map NodeRef.path = content.approver
  reviewers : entry.reviewers.map NodeRef.path = content.reviewers

structure Has (entry : Entry) (content : EntryContent) : Prop where
  identification : entry.identification.HasHeader content.identification
  secretIdentity : Option.Rel Lazy.HasHeader
    (entry.secretIdentity.get? singular) content.secretIdentity
  approver : entry.approver.map NodeRef.path = content.approver
  reviewers : entry.reviewers.map NodeRef.path = content.reviewers

/-- What an entry holds whose identities have been got. -/
def contentWith (entry : Entry) (identification : Identity) (secret : Option Identity) :
    EntryContent :=
  { identification := identification.header
    secretIdentity := secret.map Identity.header
    approver := entry.approver.map NodeRef.path
    reviewers := entry.reviewers.map NodeRef.path }

variable {entry : Entry} {content : EntryContent}

section Got

variable {identification : Identity} {secret : Option Identity}

theorem contentWith_identification :
    (entry.contentWith identification secret).identification = identification.header :=
  rfl

theorem contentWith_secretIdentity :
    (entry.contentWith identification secret).secretIdentity = secret.map Identity.header := rfl

theorem Shows.contentWith_eq (h : entry.Shows library content)
    (hidentification : identification.header = content.identification)
    (hsecret : secret.map Identity.header = content.secretIdentity) :
    entry.contentWith identification secret = content := by
  rw [contentWith, hidentification, hsecret, h.approver, h.reviewers]

theorem has_contentWith (hidentification : entry.identification.peek = some identification)
    (hsecret : Option.Rel (fun cell identity => cell.peek = some identity)
      (entry.secretIdentity.get? singular) secret) :
    entry.Has (entry.contentWith identification secret) := by
  refine ⟨⟨identification, hidentification, rfl⟩, ?_, rfl, rfl⟩
  change Option.Rel Lazy.HasHeader (entry.secretIdentity.get? singular) (secret.map Identity.header)
  generalize entry.secretIdentity.get? singular = found at hsecret
  cases hsecret with
  | none => exact .none
  | some hpeek => exact .some ⟨_, hpeek, rfl⟩

end Got

theorem Has.unique {other : EntryContent} (h : entry.Has content) (h' : entry.Has other) :
    content = other := by
  apply EntryContent.ext
  · exact h.identification.unique h'.identification
  · apply optionRel_unique _ h.secretIdentity h'.secretIdentity
    exact fun _ _ _ => Lazy.HasHeader.unique
  · exact h.approver.symm.trans h'.approver
  · exact h.reviewers.symm.trans h'.reviewers

private theorem Has.shows (h : entry.Has content) : entry.Shows library content := by
  refine ⟨h.identification.shows, ?_, h.approver, h.reviewers⟩
  have hsecret := h.secretIdentity
  generalize entry.secretIdentity.get? singular = found at hsecret ⊢
  generalize content.secretIdentity = header at hsecret ⊢
  cases hsecret with
  | none => exact .none
  | some hheader => exact .some hheader.shows

section Opening

variable {B : IdentityHeader → α → Prop} {inner : Access Streams Identity α}
  {access : Stamp → Access Streams (Lazy Identity) α}

/-- An access to an identity that leaves its header alone and whose result is up to the header. -/
def Reports (library : Library) (inner : Access Streams Identity α)
    (B : IdentityHeader → α → Prop) : Prop :=
  ∀ header, Gives library (fun identity => identity.header = header) inner fun result identity =>
    identity.header = header ∧ B header result

private theorem reports_node :
    Reports library Access.node fun header identity => identity.header = header := by
  intro header
  refine Gives.mono Gives.node fun identity node hnode => ?_
  rw [hnode.1]
  exact ⟨hnode.2, hnode.2⟩

theorem reports_pure : Reports library (Pure.pure ()) fun _ _ => True :=
  fun _ => Gives.pure fun _ hidentity => ⟨hidentity, trivial⟩

private theorem gives_identification (h : Reports library inner B)
    (hopens : ∀ stamp, Lazy.Opens (loadIdentity stamp identificationField) inner (access stamp)) :
    Gives library (Shows library · content)
      (do
        let entry ← Access.node
        Access.within identification (fun cell entry => { entry with identification := cell })
          (access entry.stamp))
      fun result entry => B content.identification result ∧ entry.Shows library content ∧
        entry.identification.HasHeader content.identification := by
  refine Gives.node_within
    (fun entry _ => Gives.opens (hopens entry.stamp) (h content.identification))
    (fun entry hentry => hentry.identification) fun entry result cell hentry hcell => ?_
  obtain ⟨identity, hpeek, hheader, hresult⟩ := hcell
  have hcell : cell.HasHeader content.identification := ⟨identity, hpeek, hheader⟩
  exact ⟨hresult, ⟨hcell.shows, hentry.secretIdentity, hentry.approver, hentry.reviewers⟩, hcell⟩

/-- Opening the secret identity of an entry loads it, if there is one. -/
theorem gives_secretIdentity (h : Reports library inner B)
    (hopens : ∀ stamp, Lazy.Opens (loadIdentity stamp secretIdentityField) inner (access stamp))
    (I : Lazy Identity → Prop) :
    Gives library (fun entry => entry.Shows library content ∧ I entry.identification)
      (do
        let entry ← Access.node
        Access.within secretIdentity (fun slots entry => { entry with secretIdentity := slots })
          (Slots.access singular (access entry.stamp)))
      fun result entry => Option.Rel B content.secretIdentity result ∧ entry.Shows library content ∧
        I entry.identification ∧
        Option.Rel Lazy.HasHeader (entry.secretIdentity.get? singular) content.secretIdentity := by
  refine Gives.node_within
    (U := fun entry slots => Option.Rel (Lazy.ShowsHeader library entry.stamp secretIdentityField)
      (slots.get? singular) content.secretIdentity)
    (R := fun _ result slots => Option.Rel B content.secretIdentity result ∧
      Option.Rel Lazy.HasHeader (slots.get? singular) content.secretIdentity)
    (fun entry _ => ?_) (fun entry hentry => hentry.1.secretIdentity)
    fun entry result slots hentry hslots => ?_
  · cases content.secretIdentity with
    | none =>
      refine Gives.slot (V := fun _ => False) (P := fun _ _ => False)
        (fun _ _ hfalse => hfalse.elim)
        (fun slots hslots hnone => ?_) (fun slots cell hslots hcell => ?_) fun _ _ _ _ _ hfalse =>
          hfalse.elim
      · rw [hnone]
        exact ⟨.none, .none⟩
      · rw [hcell] at hslots
        cases hslots
    | some header =>
      refine Gives.slot (Gives.opens (hopens entry.stamp) (h header)) (fun slots hslots hnone => ?_)
        (fun slots cell hslots hcell => ?_) fun slots result cell hslots hsome hcell => ?_
      · rw [hnone] at hslots
        cases hslots
      · rw [hcell] at hslots
        cases hslots with
        | some hshows => exact hshows
      · obtain ⟨identity, hpeek, hheader, hresult⟩ := hcell
        obtain ⟨first, hfirst⟩ := Option.isSome_iff_exists.1 hsome
        rw [Slots.get?_modify, if_pos rfl, hfirst]
        exact ⟨.some hresult, .some ⟨identity, hpeek, hheader⟩⟩
  · obtain ⟨hresult, hslots⟩ := hslots
    refine ⟨hresult, ⟨hentry.1.identification, ?_, hentry.1.approver, hentry.1.reviewers⟩,
      hentry.2, hslots⟩
    generalize slots.get? singular = found at hslots ⊢
    generalize content.secretIdentity = header at hslots ⊢
    cases hslots with
    | none => exact .none
    | some hheader => exact .some hheader.shows

end Opening

theorem gives_onIdentification :
    Gives library (Shows library · content) (onIdentification Access.node) fun identity entry =>
      identity.header = content.identification ∧ entry.Shows library content :=
  Gives.mono (gives_identification reports_node fun _ => Lazy.access_opens _ _)
    fun _ _ hentry => ⟨hentry.1, hentry.2.1⟩

theorem gives_onSecretIdentity :
    Gives library (Shows library · content) (onSecretIdentity Access.node) fun secret entry =>
      secret.map Identity.header = content.secretIdentity ∧ entry.Shows library content := by
  intro entry streams hentry hstreams
  obtain ⟨secret, after, streams', hrun, ⟨hsecret, hafter, -⟩, hstreams'⟩ :=
    gives_secretIdentity reports_node (fun _ => Lazy.access_opens _ _) (fun _ => True)
      entry streams ⟨hentry, trivial⟩ hstreams
  refine ⟨secret, after, streams', hrun, ⟨?_, hafter⟩, hstreams'⟩
  generalize content.secretIdentity = header at hsecret
  cases hsecret with
  | none => rfl
  | some hheader => exact congrArg some hheader

theorem gives_secretAndEntry :
    Gives library (Shows library · content) secretAndEntry fun pair entry =>
      (pair.1.map Identity.header = content.secretIdentity ∧ pair.2.Shows library content) ∧
        entry.Shows library content := by
  refine Gives.bind gives_onSecretIdentity fun secret => Gives.bind Gives.node fun found =>
    Gives.pure ?_
  rintro entry ⟨rfl, hsecret, hentry⟩
  exact ⟨⟨hsecret, hentry⟩, hentry⟩

theorem gives_outline :
    Gives library (Shows library · content) outline fun fields entry =>
      fields = content.outline ∧ entry.Shows library content := by
  refine Gives.bind (Gives.attempt gives_onIdentification) fun identification => Gives.of_exists
    fun identity => Gives.of_and fun hok => Gives.of_and fun hidentity => ?_
  refine Gives.bind (Gives.attempt gives_onSecretIdentity) fun secretIdentity => Gives.of_exists
    fun secret => Gives.of_and fun hok' => Gives.of_and fun hsecret => ?_
  refine Gives.bind Gives.node fun found => Gives.pure fun entry hfound => ?_
  obtain ⟨rfl, hentry⟩ := hfound
  have happrover : (found.approver.map fun ref => Outline.reference "approver" ref.path) =
      content.approver.map fun path => Outline.reference "approver" path := by
    rw [← hentry.approver, Option.map_map]
    rfl
  have hreviewers : (found.reviewers.map fun ref => Outline.reference "reviewers" ref.path) =
      content.reviewers.map fun path => Outline.reference "reviewers" path := by
    rw [← hentry.reviewers, List.map_map]
    rfl
  refine ⟨?_, hentry⟩
  rw [happrover, hreviewers, EntryContent.outline, ← hidentity, ← hsecret, hok, hok']
  cases secret <;> rfl

theorem gives_loadAll :
    Gives library (Shows library · content) loadAll fun _ entry => entry.Has content := by
  refine Gives.bind (gives_identification reports_pure fun _ => Lazy.accessMut_opens _ _)
    fun _ => ?_
  refine Gives.of_and fun _ => ?_
  intro entry streams hentry hstreams
  obtain ⟨result, after, streams', hrun, ⟨-, hshows, hidentification, hsecret⟩, hstreams'⟩ :=
    gives_secretIdentity reports_pure (fun _ => Lazy.accessMut_opens _ _)
      (fun cell => cell.HasHeader content.identification) entry streams hentry hstreams
  refine ⟨(), after, streams', ?_, ⟨hidentification, hsecret, hshows.approver, hshows.reviewers⟩,
    hstreams'⟩
  change (discard (onSecretIdentityMut (pure ()))) (entry, streams) = _
  rw [discard_apply, show onSecretIdentityMut (pure ()) (entry, streams) = _ from hrun]

end Entry

namespace Document

/-- The cell of the entry with number `i` shows the content. -/
abbrev ShowsEntry (library : Library) (stamp : Stamp) (i : Nat) (cell : Lazy Entry)
    (content : EntryContent) : Prop :=
  cell.Shows library (loadEntry stamp i) fun entry => entry.Shows library content

/-- The cell of an entry is loaded as a whole and has the content. -/
abbrev HasEntry (_i : Nat) (cell : Lazy Entry) (content : EntryContent) : Prop :=
  ∃ entry, cell.peek = some entry ∧ entry.Has content

def Shows (library : Library) (document : Document) (contents : List EntryContent) : Prop :=
  document.entries.Lists (ShowsEntry library document.stamp) contents

def Has (document : Document) (contents : List EntryContent) : Prop :=
  document.entries.Lists HasEntry contents

variable {contents : List EntryContent} {content : EntryContent}

theorem Has.unique {document : Document} {contents' : List EntryContent} (h : document.Has contents)
    (h' : document.Has contents') : contents = contents' := by
  apply Slots.Lists.unique _ h h'
  rintro i cell content content' ⟨entry, hpeek, hentry⟩ ⟨entry', hpeek', hentry'⟩
  cases hpeek.symm.trans hpeek'
  exact hentry.unique hentry'

theorem Has.shows {document : Document} (h : document.Has contents) :
    document.Shows library contents := by
  apply h.mono
  rintro i cell content ⟨entry, hpeek, hentry⟩
  exact Lazy.shows_of_peek hpeek hentry.shows

theorem gives_onEntry {A : α → Prop} {i : Nat} {access : Access Streams Entry α}
    (hcontent : contents[i]? = some content)
    (h : Gives library (Entry.Shows library · content) access fun result entry =>
      A result ∧ entry.Shows library content) :
    Gives library (Shows library · contents) (onEntry i access) fun result document =>
      (∃ value, result = some value ∧ A value) ∧ document.Shows library contents := by
  refine Gives.node_within
    (U := fun document slots => slots.Lists (ShowsEntry library document.stamp) contents)
    (R := fun document result slots => (∃ value, result = some value ∧ A value) ∧
      slots.Lists (ShowsEntry library document.stamp) contents)
    (fun document _ => Gives.slot (Gives.opens (Lazy.access_opens _ _) h) ?_ ?_ ?_)
    (fun _ hdocument => hdocument) fun _ _ _ _ hslots => hslots
  · intro slots hslots hnone
    obtain ⟨cell, hcell, -⟩ := hslots.item hcontent
    rw [hnone] at hcell
    cases hcell
  · intro slots cell hslots hcell
    obtain ⟨item, hitem, hshows⟩ := hslots.get? hcell
    cases hcontent.symm.trans hitem
    exact hshows
  · rintro slots result cell hslots - ⟨entry, hpeek, hresult, hentry⟩
    exact ⟨⟨result, rfl, hresult⟩, hslots.modify hcontent (Lazy.shows_of_peek hpeek hentry)⟩

private theorem gives_onCells {A : EntryContent → α → Prop}
    {R : Stamp → Nat → Lazy Entry → EntryContent → Prop}
    {inner : Stamp → Nat → Access Streams (Lazy Entry) α}
    (h : ∀ stamp i content, Gives library (ShowsEntry library stamp i · content) (inner stamp i)
      fun result cell => A content result ∧ R stamp i cell content) :
    Gives library (Shows library · contents) (onCells inner) fun results document =>
      List.Forall₂ A contents results ∧ document.entries.Lists (R document.stamp) contents :=
  Gives.node_within (fun document _ => Gives.accessAll (h document.stamp) contents)
    (fun _ hdocument => hdocument) fun _ _ _ _ hslots => hslots

theorem gives_entryList :
    Gives library (Shows library · contents) entryList fun _ document =>
      document.Shows library contents := by
  refine Gives.mono (gives_onCells (A := fun _ _ => True) (R := ShowsEntry library) ?_)
    fun _ _ hdocument => hdocument.2
  intro stamp i content
  refine Gives.mono (Gives.opens (Lazy.access_opens _ _) Gives.node) fun result cell hcell => ?_
  obtain ⟨entry, hpeek, -, hentry⟩ := hcell
  exact ⟨trivial, Lazy.shows_of_peek hpeek hentry⟩

/-- Loading everything gives a document that is loaded as a whole. -/
theorem gives_loadAll :
    Gives library (Shows library · contents) loadAll fun _ document => document.Has contents := by
  intro document streams hdocument hstreams
  obtain ⟨results, after, streams', hrun, ⟨-, hafter⟩, hstreams'⟩ :=
    gives_onCells (A := fun _ _ => True) (R := fun _ => HasEntry) (fun stamp i content =>
      Gives.mono
        (Gives.opens (Lazy.accessMut_opens (loadEntry stamp i) Entry.loadAll) Entry.gives_loadAll)
        fun _ _ hcell => ⟨trivial, hcell⟩) document streams hdocument hstreams
  refine ⟨(), after, streams', ?_, hafter, hstreams'⟩
  rw [loadAll, discard_apply, hrun]

def textOf (contents : List EntryContent) : String :=
  (Outline.render "Document" (contents.map fun content => .child "data" content.outline)).1

theorem gives_text :
    Gives library (Shows library · contents) text fun result document =>
      result = textOf contents ∧ document.Shows library contents := by
  have houtline : Gives library (Shows library · contents) outline fun fields document =>
      List.Forall₂ (fun content field => field = .child "data" content.outline) contents fields ∧
        document.Shows library contents := by
    refine gives_onCells fun stamp i content => ?_
    refine Gives.bind (Gives.attempt (Gives.opens (Lazy.access_opens _ _) Entry.gives_outline))
      fun result => Gives.of_exists fun fields => Gives.of_and fun hok => ?_
    rw [hok]
    refine Gives.pure fun cell hcell => ?_
    obtain ⟨entry, hpeek, rfl, hentry⟩ := hcell
    exact ⟨rfl, Lazy.shows_of_peek hpeek hentry⟩
  refine Gives.bind houtline fun fields => Gives.of_and fun hfields =>
    Gives.pure fun document hdocument => ?_
  refine ⟨?_, hdocument⟩
  have hmap : fields = contents.map fun content => .child "data" content.outline := by
    clear houtline hdocument
    induction hfields with
    | nil => rfl
    | cons hfield _ ih => rw [List.map_cons, hfield, ih]
  rw [hmap, textOf]

end Document
end FramedTree
