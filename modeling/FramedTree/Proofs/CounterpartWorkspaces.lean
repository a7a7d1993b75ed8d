import FramedTree.Proofs.CounterpartWork
import FramedTree.Proofs.WorkspaceRuns

/-! # Twin workspaces

Two workspaces are twins if they hold counterparts under the same names. Every operation that leaves
the streams alone gives the same answer in both, up to root numbers, and leaves twins; the one
exception is the question whether an entry has been loaded.
-/

namespace FramedTree

variable {ν α β : Type} {r : Renumbering} {k : Pairing}

/-- Tables with related values under the same keys. -/
def Table.Pointwise (Q : ν → ν → Prop) (table table' : Table String ν) : Prop :=
  ∀ key, Option.Rel Q (table.find? key) (table'.find? key)

theorem Table.Pointwise.set {Q : ν → ν → Prop} {table table' : Table String ν}
    (h : table.Pointwise Q table') (key : String) {value value' : ν} (hvalue : Q value value') :
    (table.set key value).Pointwise Q (table'.set key value') := by
  intro other
  rw [Table.find?_set, Table.find?_set]
  by_cases hother : other = key
  · rw [if_pos hother, if_pos hother]
    exact .some hvalue
  · rw [if_neg hother, if_neg hother]
    exact h other

/-- What an answer shows of an entry: its stamp, its references, and whether it has a secret
identity. -/
structure Entry.Resembles (r : Renumbering) (entry entry' : Entry) : Prop where
  stamp : entry.stamp.Pairs r entry'.stamp
  hasSecretIdentity_eq : entry'.hasSecretIdentity = entry.hasSecretIdentity
  approver : Option.Rel (NodeRef.Pairs r) entry.approver entry'.approver
  reviewers : List.Forall₂ (NodeRef.Pairs r) entry.reviewers entry'.reviewers

private theorem Entry.Pairs.resembles {entry entry' : Entry} (h : entry.Pairs k entry') :
    entry.Resembles k entry' := by
  refine ⟨h.stamp, ?_, h.approver, h.reviewers⟩
  have hslot := h.secretIdentity
  rw [Entry.hasSecretIdentity, Entry.hasSecretIdentity]
  generalize entry.secretIdentity.get? singular = found at hslot ⊢
  generalize entry'.secretIdentity.get? singular = found' at hslot ⊢
  cases hslot <;> rfl

def Answer.isPlain : Answer → Bool
  | .failed _ | .root _ | .stamp _ | .entry _ | .removed _ _ | .identity _ | .ref _ => false
  | _ => true

/-- The same answer, up to root numbers. -/
inductive Answer.Pairs (r : Renumbering) : Answer → Answer → Prop where
  | plain {answer : Answer} (h : answer.isPlain = true) : Answer.Pairs r answer answer
  | failed {error error' : Error} (h : error.Pairs r error') :
      Answer.Pairs r (.failed error) (.failed error')
  | root {root root' : RootId} (h : root.Pairs r root') : Answer.Pairs r (.root root) (.root root')
  | stamp {stamp stamp' : Stamp} (h : stamp.Pairs r stamp') :
      Answer.Pairs r (.stamp stamp) (.stamp stamp')
  | entry {entry entry' : Entry} (h : entry.Resembles r entry') :
      Answer.Pairs r (.entry entry) (.entry entry')
  | removed {n : Nat} {entry entry' : Entry} (h : entry.Resembles r entry') :
      Answer.Pairs r (.removed n entry) (.removed n entry')
  | identity {identity identity' : Identity} (h : identity.Pairs r identity') :
      Answer.Pairs r (.identity identity) (.identity identity')
  | ref {ref ref' : NodeRef} (h : ref.Pairs r ref') : Answer.Pairs r (.ref ref) (.ref ref')

theorem Answer.pairs_ofOption {Q : α → β → Prop} {f : α → Answer} {g : β → Answer}
    (hfg : ∀ value value', Q value value' → (f value).Pairs r (g value')) {found : Option α}
    {found' : Option β} (h : Option.Rel Q found found') :
    (Answer.ofOption f found).Pairs r (Answer.ofOption g found') := by
  cases h with
  | none => exact .plain rfl
  | some hvalue => exact hfg _ _ hvalue

theorem Answer.pairs_getD {found found' : Option Answer}
    (h : Option.Rel (Answer.Pairs r) found found') {default : Answer}
    (hdefault : default.isPlain = true) :
    (found.getD default).Pairs r (found'.getD default) := by
  cases h with
  | none => exact .plain hdefault
  | some hanswer => exact hanswer

/-- Whether an operation leaves the named streams and what is known of them alone. -/
def Op.leavesStreams : Op → Bool
  | .setStream _ _ _ | .setFaults _ _ | .patch _ _ _ | .truncate _ _ | .append _ _ | .takeSeeks _
  | .save _ _ _ => false
  | _ => true

/-- Whether an operation asks if an entry has been loaded. -/
def Op.asksLoaded : Op → Bool
  | .isEntryLoaded _ _ => true
  | _ => false

namespace Workspace

/-- Workspaces that hold counterparts under the same names. -/
structure Pairs (k : Pairing) (workspace workspace' : Workspace) : Prop where
  streams : workspace.streams.Pairs k workspace'.streams
  issued : workspace.roots.issued + k.second = workspace'.roots.issued + k.first
  documents : workspace.documents.Pointwise (Document.Pairs k) workspace'.documents
  entries : workspace.entries.Pointwise (Entry.Pairs k) workspace'.entries
  identities : workspace.identities.Pointwise (Identity.Pairs k) workspace'.identities
  refs : workspace.refs.Pointwise (NodeRef.Pairs k) workspace'.refs

abbrev Twinned (k : Pairing) (A : α → β → Prop) (work : Work α) (work' : Work β) : Prop :=
  Mirrors (Error.Pairs k) (Pairs k) A work work'

abbrev TwinnedOn (k : Pairing) (V : ν → ν → Prop) (A : α → β → Prop) (access : Access Streams ν α)
    (access' : Access Streams ν β) : Prop :=
  Echoes k (Error.Pairs k) V A access access'

variable {A : α → β → Prop}

private theorem twinned_onRow {V : ν → ν → Prop} {get : Workspace → Table String ν}
    {put : Table String ν → Workspace → Workspace} {name : String} {access : Access Streams ν α}
    {access' : Access Streams ν β} (h : TwinnedOn k V A access access')
    (hget : ∀ workspace workspace', Pairs k workspace workspace' →
      (get workspace).Pointwise V (get workspace'))
    (hput : ∀ workspace workspace' streams streams' table table', Pairs k workspace workspace' →
      streams.Pairs k streams' → table.Pointwise V table' →
      Pairs k (put table { workspace with streams })
        (put table' { workspace' with streams := streams' })) :
    Twinned k (Option.Rel A) (onRow get put name access) (onRow get put name access') := by
  intro workspace workspace' hworkspace
  have htable := hget workspace workspace' hworkspace
  have hrow := htable name
  generalize hfound : (get workspace).find? name = found at hrow
  generalize hfound' : (get workspace').find? name = found' at hrow
  cases hrow with
  | none =>
    rw [onRow_apply_none hfound, onRow_apply_none hfound']
    exact .ok .none hworkspace
  | @some value value' hvalue =>
    rw [onRow_apply_some hfound, onRow_apply_some hfound']
    have hmap : TwinnedOn k V (Option.Rel A) (some <$> access) (some <$> access') :=
      Mirrors.map h fun _ _ hresult => .some hresult
    exact (hmap (value, workspace.streams) (value', workspace'.streams)
      ⟨hvalue, hworkspace.streams⟩).mapState
      fun _ _ hafter => hput _ _ _ _ _ _ hworkspace hafter.2 (htable.set name hafter.1)

private theorem twinned_onDocument {name : String} {access : Access Streams Document α}
    {access' : Access Streams Document β} (h : TwinnedOn k (Document.Pairs k) A access access') :
    Twinned k (Option.Rel A) (onDocument name access) (onDocument name access') :=
  twinned_onRow h (fun _ _ hworkspace => hworkspace.documents)
    fun _ _ _ _ _ _ hworkspace hstreams htable =>
      ⟨hstreams, hworkspace.issued, htable, hworkspace.entries, hworkspace.identities,
        hworkspace.refs⟩

private theorem twinned_onStandaloneEntry {name : String} {access : Access Streams Entry α}
    {access' : Access Streams Entry β} (h : TwinnedOn k (Entry.Pairs k) A access access') :
    Twinned k (Option.Rel A) (onStandaloneEntry name access) (onStandaloneEntry name access') :=
  twinned_onRow h (fun _ _ hworkspace => hworkspace.entries)
    fun _ _ _ _ _ _ hworkspace hstreams htable =>
      ⟨hstreams, hworkspace.issued, hworkspace.documents, htable, hworkspace.identities,
        hworkspace.refs⟩

private theorem twinned_onIdentity {name : String} {access : Access Streams Identity α}
    {access' : Access Streams Identity β} (h : TwinnedOn k (Identity.Pairs k) A access access') :
    Twinned k (Option.Rel A) (onIdentity name access) (onIdentity name access') :=
  twinned_onRow h (fun _ _ hworkspace => hworkspace.identities)
    fun _ _ _ _ _ _ hworkspace hstreams htable =>
      ⟨hstreams, hworkspace.issued, hworkspace.documents, hworkspace.entries, htable,
        hworkspace.refs⟩

private theorem twinned_onStreams {load : Load α} {load' : Load β}
    (h : Mirrors (Error.Pairs k) (Streams.Pairs k) A load load') :
    Twinned k A (onStreams load) (onStreams load') := by
  intro workspace workspace' hworkspace
  rw [onStreams_apply, onStreams_apply]
  exact (h workspace.streams workspace'.streams hworkspace.streams).mapState fun _ _ hafter =>
    ⟨hafter, hworkspace.issued, hworkspace.documents, hworkspace.entries, hworkspace.identities,
      hworkspace.refs⟩

private theorem twinned_mint : Twinned k (RootId.Pairs k) mint mint := by
  refine Mirrors.modifyGet fun workspace workspace' h => ?_
  have hnext : workspace.roots.issued + 1 + k.second = workspace'.roots.issued + 1 + k.first := by
    have hissued := h.issued
    omega
  exact ⟨hnext, h.streams, hnext, h.documents, h.entries, h.identities, h.refs⟩

private theorem twinned_keepDocument (name : String) {document document' : Document}
    (h : document.Pairs k document') :
    Twinned k Eq (keepDocument name document) (keepDocument name document') :=
  Mirrors.modifyGet fun _ _ hworkspace => ⟨rfl, hworkspace.streams, hworkspace.issued,
    hworkspace.documents.set name h, hworkspace.entries, hworkspace.identities, hworkspace.refs⟩

private theorem twinned_keepAnswer (as : String) {answer answer' : Answer}
    (h : answer.Pairs k answer') :
    Twinned k (Answer.Pairs k) (keepAnswer as answer) (keepAnswer as answer') := by
  unfold keepAnswer
  cases h with
  | plain hplain =>
    cases answer with
    | ref ref => cases hplain
    | _ => exact Mirrors.pure (.plain hplain)
  | ref href =>
    refine Mirrors.bind (A := Eq) (Mirrors.modifyGet fun _ _ hworkspace => ?_) fun _ _ _ =>
      Mirrors.pure (.ref href)
    exact ⟨rfl, hworkspace.streams, hworkspace.issued, hworkspace.documents, hworkspace.entries,
      hworkspace.identities, hworkspace.refs.set as href⟩
  | failed herror => exact Mirrors.pure (.failed herror)
  | root hroot => exact Mirrors.pure (.root hroot)
  | stamp hstamp => exact Mirrors.pure (.stamp hstamp)
  | entry hentry => exact Mirrors.pure (.entry hentry)
  | removed hentry => exact Mirrors.pure (.removed hentry)
  | identity hidentity => exact Mirrors.pure (.identity hidentity)

section Nodes

private theorem twinned_viewEntry (look : EntryLook) :
    TwinnedOn k (Entry.Pairs k) (Answer.Pairs k) (viewEntry look) (viewEntry look) := by
  have hreviewer (i : Nat) : TwinnedOn k (Entry.Pairs k) (Answer.Pairs k)
      (do return .ofOption .ref (← Access.node).reviewers[i]?)
      (do return .ofOption .ref (← Access.node).reviewers[i]?) := by
    refine Mirrors.bind Mirrors.node fun entry entry' hentry => Mirrors.pure ?_
    apply Answer.pairs_ofOption fun _ _ href => .ref href
    have hreviewers := hentry.reviewers
    generalize entry.reviewers = reviewers at hreviewers ⊢
    generalize entry'.reviewers = reviewers' at hreviewers ⊢
    induction hreviewers generalizing i with
    | nil => exact .none
    | cons href _ ih =>
      cases i with
      | zero => exact .some href
      | succ i => exact ih i
  cases look with
  | info => exact Mirrors.bind Mirrors.node fun _ _ hentry => Mirrors.pure (.entry hentry.resembles)
  | text =>
    refine Mirrors.bind Entry.echoes_text fun text text' htext => ?_
    subst htext
    exact Mirrors.pure (.plain rfl)
  | child field index =>
    exact Mirrors.bind (Entry.echoes_child field index) fun _ _ hfound =>
      Mirrors.pure (Answer.pairs_ofOption (fun _ _ _ => .plain rfl) hfound)
  | reviewer i | keepReviewer i as => exact hreviewer i
  | keepApprover as =>
    exact Mirrors.bind Mirrors.node fun _ _ hentry =>
      Mirrors.pure (Answer.pairs_ofOption (fun _ _ href => .ref href) hentry.approver)

private theorem twinned_replaceEntry {changed changed' : Except Error Entry}
    (h : Attempts (Error.Pairs k) (Entry.Pairs k) changed changed') :
    TwinnedOn k (Entry.Pairs k) (Answer.Pairs k) (replaceEntry changed)
      (replaceEntry changed') := by
  cases h with
  | error herror => exact Mirrors.throw herror
  | ok hentry =>
    exact Mirrors.bind (Mirrors.edit fun _ _ _ => hentry) fun _ _ _ =>
      Mirrors.pure (.entry hentry.resembles)

/-- Changes of entries with corresponding references. -/
inductive ChangePairs (r : Renumbering) : EntryChange NodeRef → EntryChange NodeRef → Prop where
  | touch : ChangePairs r .touch .touch
  | setApprover {ref ref' : NodeRef} (h : ref.Pairs r ref') :
      ChangePairs r (.setApprover ref) (.setApprover ref')
  | addReviewer {ref ref' : NodeRef} (h : ref.Pairs r ref') :
      ChangePairs r (.addReviewer ref) (.addReviewer ref')
  | removeReviewers {ref ref' : NodeRef} (h : ref.Pairs r ref') :
      ChangePairs r (.removeReviewers ref) (.removeReviewers ref')
  | clearApprover : ChangePairs r .clearApprover .clearApprover
  | clearSecretIdentity : ChangePairs r .clearSecretIdentity .clearSecretIdentity
  | loadAll : ChangePairs r .loadAll .loadAll

private theorem changePairs_lookup {refs refs' : Table String NodeRef}
    (h : refs.Pointwise (NodeRef.Pairs r) refs') (change : EntryChange String) :
    Option.Rel (ChangePairs r) (change.lookup refs.find?) (change.lookup refs'.find?) := by
  have hmap {f : NodeRef → EntryChange NodeRef} (name : String)
      (hf : ∀ {ref ref'}, ref.Pairs r ref' → ChangePairs r (f ref) (f ref')) :
      Option.Rel (ChangePairs r) ((refs.find? name).map f) ((refs'.find? name).map f) := by
    have href := h name
    generalize refs.find? name = found at href ⊢
    generalize refs'.find? name = found' at href ⊢
    cases href with
    | none => exact .none
    | some href => exact .some (hf href)
  cases change with
  | touch => exact .some .touch
  | clearApprover => exact .some .clearApprover
  | clearSecretIdentity => exact .some .clearSecretIdentity
  | loadAll => exact .some .loadAll
  | setApprover name => exact hmap name .setApprover
  | addReviewer name => exact hmap name .addReviewer
  | removeReviewers name => exact hmap name .removeReviewers

private theorem twinned_editEntry {change change' : EntryChange NodeRef}
    (h : ChangePairs k change change') :
    TwinnedOn k (Entry.Pairs k) (Answer.Pairs k) (editEntry change) (editEntry change') := by
  cases h with
  | touch => exact Mirrors.pure (.plain rfl)
  | setApprover href =>
    exact Mirrors.bind Mirrors.node fun _ _ hentry =>
      twinned_replaceEntry (Entry.setApprover_pairs hentry href)
  | addReviewer href =>
    exact Mirrors.bind Mirrors.node fun _ _ hentry =>
      twinned_replaceEntry (Entry.addReviewer_pairs hentry href)
  | removeReviewers href =>
    refine Mirrors.bind Mirrors.node fun entry entry' hentry => ?_
    have hchanged := Entry.removeReviewers_pairs hentry href
    refine Mirrors.bind (Mirrors.edit fun _ _ _ => hchanged) fun _ _ _ => Mirrors.pure ?_
    rw [← hentry.reviewers.length_eq, ← hchanged.reviewers.length_eq]
    exact .removed hchanged.resembles
  | clearApprover =>
    exact Mirrors.bind Mirrors.node fun _ _ hentry =>
      twinned_replaceEntry (.ok (Entry.clearApprover_pairs hentry))
  | clearSecretIdentity =>
    exact Mirrors.bind Mirrors.node fun _ _ hentry =>
      twinned_replaceEntry (.ok (Entry.clearSecretIdentity_pairs hentry))
  | loadAll => exact Mirrors.bind Entry.echoes_loadAll fun _ _ _ => Mirrors.pure (.plain rfl)

private theorem twinned_viewIdentity (look : IdentityLook) :
    TwinnedOn k (Identity.Pairs k) (Answer.Pairs k) (viewIdentity look) (viewIdentity look) := by
  cases look with
  | info => exact Mirrors.bind Mirrors.node fun _ _ hidentity => Mirrors.pure (.identity hidentity)
  | text =>
    refine Mirrors.bind Mirrors.node fun identity identity' hidentity => Mirrors.pure ?_
    rw [Identity.text, Identity.text, hidentity.outline_eq]
    exact .plain rfl
  | child field index => exact Mirrors.pure (.plain rfl)
  | keepRef as =>
    exact Mirrors.bind Mirrors.node fun _ _ hidentity => Mirrors.pure (.ref hidentity.stamp.toRef)

private theorem twinned_editIdentity (change : IdentityChange) :
    TwinnedOn k (Identity.Pairs k) (Answer.Pairs k) (editIdentity change)
      (editIdentity change) := by
  have hanswer : TwinnedOn k (Identity.Pairs k) (Answer.Pairs k)
    (do return .identity (← Access.node))
      (do return .identity (← Access.node)) :=
    Mirrors.bind Mirrors.node fun _ _ hidentity => Mirrors.pure (.identity hidentity)
  cases change with
  | touch => exact hanswer
  | setFirstName name =>
    refine Mirrors.bind (Mirrors.edit fun identity identity' hidentity => ⟨hidentity.stamp, ?_⟩)
      fun _ _ _ => hanswer
    simp only [Identity.setFirstName, hidentity.header_eq]
  | setBirthYear year =>
    refine Mirrors.bind (Mirrors.edit fun identity identity' hidentity => ⟨hidentity.stamp, ?_⟩)
      fun _ _ _ => hanswer
    simp only [Identity.setBirthYear, hidentity.header_eq]

private theorem twinned_atDocument {name : String} {access access' : Access Streams Document Answer}
    (h : TwinnedOn k (Document.Pairs k) (Answer.Pairs k) access access') :
    Twinned k (Answer.Pairs k) (atDocument name access) (atDocument name access') :=
  Mirrors.bind (twinned_onDocument h) fun _ _ hfound => Mirrors.pure (Answer.pairs_getD hfound rfl)

private theorem twinned_atEntry {access access' : Access Streams Entry Answer} (place : EntryPlace)
    (h : TwinnedOn k (Entry.Pairs k) (Answer.Pairs k) access access') :
    Twinned k (Answer.Pairs k) (atEntry place access) (atEntry place access') := by
  cases place with
  | inDocument document i =>
    exact twinned_atDocument (Mirrors.bind (Document.echoes_onEntry i h) fun _ _ hfound =>
      Mirrors.pure (Answer.pairs_getD hfound rfl))
  | standalone name =>
    exact Mirrors.bind (twinned_onStandaloneEntry h) fun _ _ hfound =>
      Mirrors.pure (Answer.pairs_getD hfound rfl)

private theorem twinned_atEntryMut {access access' : Access Streams Entry Answer}
    (place : EntryPlace) (h : TwinnedOn k (Entry.Pairs k) (Answer.Pairs k) access access') :
    Twinned k (Answer.Pairs k) (atEntryMut place access) (atEntryMut place access') := by
  cases place with
  | inDocument document i =>
    exact twinned_atDocument (Mirrors.bind (Document.echoes_onEntryMut i h) fun _ _ hfound =>
      Mirrors.pure (Answer.pairs_getD hfound rfl))
  | standalone name =>
    exact Mirrors.bind (twinned_onStandaloneEntry h) fun _ _ hfound =>
      Mirrors.pure (Answer.pairs_getD hfound rfl)

private theorem twinned_atIdentity {access access' : Access Streams Identity Answer}
    (identity : SeenIdentity) (h : TwinnedOn k (Identity.Pairs k) (Answer.Pairs k) access access') :
    Twinned k (Answer.Pairs k) (atIdentity identity access) (atIdentity identity access') := by
  cases identity with
  | standalone name =>
    exact Mirrors.bind (twinned_onIdentity h) fun _ _ hfound =>
      Mirrors.pure (Answer.pairs_getD hfound rfl)
  | identification entry => exact twinned_atEntry entry (Entry.echoes_onIdentification h)
  | secretIdentity entry =>
    exact twinned_atEntry entry (Mirrors.bind (Entry.echoes_onSecretIdentity h) fun _ _ hfound =>
      Mirrors.pure (Answer.pairs_getD hfound rfl))

private theorem twinned_atIdentityMut {access access' : Access Streams Identity Answer}
    (identity : ChangedIdentity)
    (h : TwinnedOn k (Identity.Pairs k) (Answer.Pairs k) access access') :
    Twinned k (Answer.Pairs k) (atIdentityMut identity access)
      (atIdentityMut identity access') := by
  cases identity with
  | standalone name =>
    exact Mirrors.bind (twinned_onIdentity h) fun _ _ hfound =>
      Mirrors.pure (Answer.pairs_getD hfound rfl)
  | identification entry => exact twinned_atEntryMut entry (Entry.echoes_onIdentificationMut h)
  | secretIdentity entry =>
    exact twinned_atEntryMut entry
      (Mirrors.bind (Entry.echoes_onSecretIdentityMut h) fun _ _ hfound =>
      Mirrors.pure (Answer.pairs_getD hfound rfl))
  | addedSecretIdentity entry => exact twinned_atEntryMut entry (Entry.echoes_addSecretIdentity h)

end Nodes

section Opening

private theorem source_pairs {source : Source}
    (h : ∃ content, source.content? k.library = some content) :
    source.Pairs k source := by
  obtain ⟨content, hcontent⟩ := h
  exact ⟨⟨content, hcontent, hcontent⟩, rfl, rfl⟩

private theorem twinned_openSource {source source' : Source} (h : source.Pairs k source') :
    Twinned k (Document.Pairs k) (openSource source) (openSource source') := by
  obtain ⟨result, hsettles, hsettles'⟩ :=
    h.settles fun codec => Steady.readRoot (α := DocumentHeader) codec
  have hresult : Attempts Eq Eq result result := by
    cases result with
    | ok header => exact .ok rfl
    | error error => exact .error rfl
  have hread : Mirrors (Error.Pairs k) (Streams.Pairs k) Eq (Document.readHeader source)
      (Document.readHeader source') := Settles.mirrors hsettles hsettles' hresult
  refine Mirrors.bind (twinned_onStreams hread) fun header header' hheader => ?_
  subst hheader
  exact Mirrors.bind twinned_mint fun _ _ hroot =>
    Mirrors.pure (Document.pairs_ofHeader h hroot header)

private theorem twinned_openDocument (name : String) {source source' : Source}
    (h : source.Pairs k source') :
    Twinned k (RootId.Pairs k)
      (do
        let document ← openSource source
        keepDocument name document
        return document.stamp.root)
      (do
        let document ← openSource source'
        keepDocument name document
        return document.stamp.root) :=
  Mirrors.bind (twinned_openSource h) fun _ _ hdocument =>
    Mirrors.bind (twinned_keepDocument name hdocument) fun _ _ _ =>
      Mirrors.pure hdocument.stamp.root

private theorem twinned_loadDocument (name : String) (bytes : Bytes) (codec : Codec) :
    Twinned k (RootId.Pairs k) (loadDocument name bytes codec) (loadDocument name bytes codec) := by
  have hsource : Source.Pairs k { backing := .copy bytes.toArray, codec }
      { backing := .copy bytes.toArray, codec } := source_pairs ⟨bytes.toArray, rfl⟩
  refine Mirrors.bind (twinned_openSource hsource) fun document document' hdocument => ?_
  refine Mirrors.bind (A := Document.Pairs k) (twinned_onStreams ?_)
    fun loaded loaded' hloaded => ?_
  · intro streams streams' hstreams
    have hload :=
      Document.echoes_loadAll (E := Error.Pairs k) (document, streams) (document', streams')
      ⟨hdocument, hstreams⟩
    dsimp only
    generalize Document.loadAll (document, streams) = result at hload ⊢
    generalize Document.loadAll (document', streams') = result' at hload ⊢
    cases hload with
    | ok _ hafter => exact .ok hafter.1 hafter.2
    | error herror hafter => exact .error herror hafter.2
  · exact Mirrors.bind (twinned_keepDocument name hloaded) fun _ _ _ =>
      Mirrors.pure hloaded.stamp.root

private theorem current_eq {workspace workspace' : Workspace} (h : Pairs k workspace workspace')
    (name : String) :
    workspace'.streams.current name = workspace.streams.current name := by
  rw [Streams.current, Streams.current, Streams.edition, Streams.edition, h.streams.editions_eq]

private theorem twinned_currentStream (name : String) :
    Twinned k (fun id id' => id' = id ∧ ∃ content, k.library id = some content) (currentStream name)
      (currentStream name) :=
  Mirrors.bind Mirrors.get fun _ _ hworkspace =>
    Mirrors.pure ⟨current_eq hworkspace name, k.named name _⟩

private theorem twinned_withStream {next : StreamId → Work α} {next' : StreamId → Work β}
    (name : String)
    (h : ∀ id, (∃ content, k.library id = some content) → Twinned k A (next id) (next' id)) :
    Twinned k A (currentStream name >>= next) (currentStream name >>= next') := by
  refine Mirrors.bind (twinned_currentStream name) fun id id' hid => ?_
  obtain ⟨rfl, hknown⟩ := hid
  exact h _ hknown

private theorem bytes_eq {streams streams' : Streams} (h : streams.Pairs k streams') {id : StreamId}
    (hid : ∃ content, k.library id = some content) :
    (streams'.get id).bytes = (streams.get id).bytes := by
  obtain ⟨content, hcontent⟩ := hid
  rw [Stream.bytes, Stream.bytes, (h.holds id content hcontent).2, (h.holds' id content hcontent).2]

private theorem mirrors_readWhole {id : StreamId} (hid : ∃ content, k.library id = some content)
    (position : Nat) :
    Mirrors (Error.Pairs k) (Streams.Pairs k) Eq (readWhole id position)
      (readWhole id position) := by
  obtain ⟨content, hcontent⟩ := hid
  have hsteady : Steady (do
      discard (Handle.seek (.start 0)).toFrameIO
      Handle.readToEnd.toFrameIO) := by
    rw [discard_bind]
    exact Steady.bind (Steady.toFrameIO (Steady.seek _)) fun _ => Steady.toFrameIO Steady.readToEnd
  intro streams streams' hstreams
  obtain ⟨hcalm, hbytes⟩ := hstreams.holds id content hcontent
  obtain ⟨hcalm', hbytes'⟩ := hstreams.holds' id content hcontent
  have halike : Handle.Alike ⟨streams.get id, position⟩ ⟨streams'.get id, position⟩ :=
    ⟨rfl, hbytes'.trans hbytes.symm, hcalm, hcalm'⟩
  obtain ⟨hsame, hafter, hkept⟩ := hsteady.ends halike
  have hfollows := Streams.follows_set hstreams.holds hcontent hafter.calm (hkept.trans hbytes)
  have hfollows' := Streams.follows_set hstreams.holds' hcontent hafter.other_calm
    (hafter.content_eq.trans (hkept.trans hbytes))
  rw [readWhole, Streams.withHandle_apply, Streams.withHandle_apply, mapState_eq_ended,
    mapState_eq_ended, hsame]
  generalize verdict _ = result
  cases result with
  | ok bytes => exact .ok rfl (hstreams.follows hfollows hfollows')
  | error error => exact .error (.refl error) (hstreams.follows hfollows hfollows')

end Opening

section Comparing

def SpotPairs (k : Pairing) (V : ν → ν → Prop) (spot : Spot Workspace ν) : Prop :=
  ∀ {α β : Type} {A : α → β → Prop} {access : Access Streams ν α} {access' : Access Streams ν β},
    TwinnedOn k V A access access' → Twinned k (Option.Rel A) (spot.run access) (spot.run access')

private theorem spotPairs_document (name : String) :
    SpotPairs k (Document.Pairs k) (documentSpot name) :=
  fun h => twinned_onDocument h

private theorem spotPairs_entry {spot : Spot Workspace Document}
    (h : SpotPairs k (Document.Pairs k) spot) (i : Nat) :
    SpotPairs k (Entry.Pairs k) (spot.entry i) :=
  fun haccess => Mirrors.bind (h (Document.echoes_onEntry i haccess)) fun _ _ hfound =>
    Mirrors.pure (Document.join_rel hfound)

private theorem spotPairs_entrySpot (place : EntryPlace) :
    SpotPairs k (Entry.Pairs k) (entrySpot place) := by
  cases place with
  | inDocument document i => exact spotPairs_entry (spotPairs_document document) i
  | standalone name => exact fun h => twinned_onStandaloneEntry h

private theorem SpotPairs.look {V : ν → ν → Prop} {spot : Spot Workspace ν} (h : SpotPairs k V spot)
    {access access' : Access Streams ν α} {A : α → α → Prop}
    (haccess : TwinnedOn k V A access access') :
    Parallel (Pairs k) (Option.Rel A) (spot.look access) (spot.look access') := by
  intro workspace workspace' hworkspace
  have hrun := h haccess workspace workspace' hworkspace
  unfold Spot.look
  generalize spot.run access workspace = result at hrun ⊢
  generalize spot.run access' workspace' = result' at hrun ⊢
  cases hrun with
  | ok hfound hafter => exact ⟨hfound, hafter⟩
  | error _ hafter => exact ⟨.none, hafter⟩

private theorem sameContent_eq {identity identity' other other' : Identity}
    (h : identity.Pairs k identity') (hother : other.Pairs k other') :
    identity'.sameContent other' = identity.sameContent other := by
  rw [Identity.sameContent, Identity.sameContent, h.header_eq, hother.header_eq]

private theorem sameOption_eq {secret secret' other other' : Option Identity}
    (h : Option.Rel (Identity.Pairs k) secret secret')
    (hother : Option.Rel (Identity.Pairs k) other other') :
    Identity.sameOption secret' other' = Identity.sameOption secret other := by
  cases h with
  | none =>
    cases hother with
    | none => rfl
    | some _ => rfl
  | some hidentity =>
    cases hother with
    | none => rfl
    | some hidentity' => exact sameContent_eq hidentity hidentity'

private theorem parallel_entryEqual {left right : Spot Workspace Entry}
    (hleft : SpotPairs k (Entry.Pairs k) left) (hright : SpotPairs k (Entry.Pairs k) right) :
    Parallel (Pairs k) Eq (Entry.equal left right) (Entry.equal left right) := by
  refine Parallel.bind (hleft.look (Entry.echoes_onIdentification Mirrors.node)) ?_
  intro mine mine' hmine
  refine Parallel.bind (hright.look (Entry.echoes_onIdentification Mirrors.node)) ?_
  intro theirs theirs' htheirs
  refine Parallel.bind (hleft.look Entry.echoes_secretAndEntry) ?_
  intro rest rest' hrest
  refine Parallel.bind (hright.look Entry.echoes_secretAndEntry) ?_
  intro otherRest otherRest' hotherRest
  cases hmine with
  | none => exact Parallel.pure rfl
  | some hmine =>
    cases htheirs with
    | none => exact Parallel.pure rfl
    | some htheirs =>
      cases hrest with
      | none => exact Parallel.pure rfl
      | some hrest =>
        cases hotherRest with
        | none => exact Parallel.pure rfl
        | some hotherRest =>
          apply Parallel.pure
          rw [sameContent_eq hmine htheirs, sameOption_eq hrest.1 hotherRest.1,
            Entry.sameReferences_eq hrest.2 hotherRest.2]

private theorem parallel_allEqual {left right : Spot Workspace Document}
    (hleft : SpotPairs k (Document.Pairs k) left) (hright : SpotPairs k (Document.Pairs k) right)
    (pairs : List (Nat × Nat)) :
    Parallel (Pairs k) Eq (Entry.allEqual left right pairs) (Entry.allEqual left right pairs) := by
  induction pairs with
  | nil => exact Parallel.pure rfl
  | cons pair pairs ih =>
    refine Parallel.bind
      (parallel_entryEqual (spotPairs_entry hleft _) (spotPairs_entry hright _)) ?_
    intro same same' hsame
    subst hsame
    cases same with
    | true => exact ih
    | false => exact Parallel.pure rfl

private theorem numbers_eq {Q : Nat → ν → ν → Prop} {slots slots' : Slots ν}
    (h : Slots.Pointwise Q slots slots') :
    slots'.toList.map (·.1) = slots.toList.map (·.1) := by
  have hcells (first : Nat) (cells cells' : List (Option ν))
    (h : Mirrors.CellsFrom Q first cells cells') :
      ((cells'.zipIdx first).filter fun pair => pair.1.isSome).map (·.2) =
        ((cells.zipIdx first).filter fun pair => pair.1.isSome).map (·.2) := by
    induction cells generalizing first cells' with
    | nil =>
      cases cells' with
      | nil => rfl
      | cons cell' cells' => exact h.elim
    | cons cell cells ih =>
      cases cells' with
      | nil => exact h.elim
      | cons cell' cells' =>
        have hrest := ih (first + 1) cells' h.2
        cases h.1 with
        | none => simpa using hrest
        | some _ => simpa using hrest
  rw [Slots.map_fst_toList, Slots.map_fst_toList]
  exact hcells 0 _ _ (Mirrors.cellsFrom_of_pointwise h)

private theorem parallel_entryNumbers {spot : Spot Workspace Document}
    (h : SpotPairs k (Document.Pairs k) spot) :
    Parallel (Pairs k) Eq (Document.entryNumbers spot) (Document.entryNumbers spot) := by
  refine Parallel.bind (h.look Document.echoes_entryList) ?_
  intro loaded loaded' hloaded
  refine Parallel.bind (h.look Mirrors.node) ?_
  intro document document' hdocument
  cases hloaded with
  | none => exact Parallel.pure rfl
  | some _ =>
    cases hdocument with
    | none => exact Parallel.pure rfl
    | some hdocument => exact Parallel.pure (congrArg some (numbers_eq hdocument.entries).symm)

private theorem parallel_documentEqual {left right : Spot Workspace Document}
    (hleft : SpotPairs k (Document.Pairs k) left) (hright : SpotPairs k (Document.Pairs k) right) :
    Parallel (Pairs k) Eq (Document.equal left right) (Document.equal left right) := by
  refine Parallel.bind (parallel_entryNumbers hleft) fun mine mine' hmine => ?_
  refine Parallel.bind (parallel_entryNumbers hright) fun theirs theirs' htheirs => ?_
  subst hmine htheirs
  cases mine with
  | none => exact Parallel.pure rfl
  | some mine =>
    cases theirs with
    | none => exact Parallel.pure rfl
    | some theirs =>
      dsimp only
      by_cases hlength : mine.length = theirs.length
      · rw [if_pos hlength]
        exact parallel_allEqual hleft hright _
      · rw [if_neg hlength]
        exact Parallel.pure rfl

private theorem parallel_compareEntries (entry other : EntryPlace) :
    Parallel (Pairs k) (Answer.Pairs k) (compareEntries entry other)
      (compareEntries entry other) := by
  refine Parallel.bind (SpotPairs.look (spotPairs_entrySpot entry) Mirrors.node)
    fun mine mine' hmine => ?_
  refine Parallel.bind (SpotPairs.look (spotPairs_entrySpot other) Mirrors.node)
    fun theirs theirs' htheirs => ?_
  cases hmine with
  | none => exact Parallel.pure (.plain rfl)
  | some _ =>
    cases htheirs with
    | none => exact Parallel.pure (.plain rfl)
    | some _ =>
      refine Parallel.bind
        (parallel_entryEqual (spotPairs_entrySpot entry) (spotPairs_entrySpot other)) ?_
      intro same same' hsame
      subst hsame
      exact Parallel.pure (.plain rfl)

end Comparing

private theorem hasPlace_eq {workspace workspace' : Workspace} (h : Pairs k workspace workspace')
    (place : EntryPlace) :
    workspace'.hasPlace place = workspace.hasPlace place := by
  cases place with
  | standalone name => rfl
  | inDocument name i =>
    have hrow := h.documents name
    rw [hasPlace, hasPlace]
    generalize workspace.documents.find? name = found at hrow ⊢
    generalize workspace'.documents.find? name = found' at hrow ⊢
    cases hrow <;> rfl

private theorem ownerRoot_pairs {workspace workspace' : Workspace}
    (h : Pairs k workspace workspace') (owner : RefOwner) :
    Option.Rel (RootId.Pairs k) (workspace.ownerRoot owner) (workspace'.ownerRoot owner) := by
  cases owner with
  | document name =>
    have hrow := h.documents name
    rw [ownerRoot, ownerRoot]
    generalize workspace.documents.find? name = found at hrow ⊢
    generalize workspace'.documents.find? name = found' at hrow ⊢
    cases hrow with
    | none => exact .none
    | some hdocument => exact .some hdocument.stamp.root
  | entry name =>
    have hrow := h.entries name
    rw [ownerRoot, ownerRoot]
    generalize workspace.entries.find? name = found at hrow ⊢
    generalize workspace'.entries.find? name = found' at hrow ⊢
    cases hrow with
    | none => exact .none
    | some hentry => exact .some hentry.stamp.root

private theorem paths_eq {entries entries' : List Entry}
    (h : List.Forall₂ (Entry.Pairs k) entries entries') :
    entries'.map (·.stamp.path) = entries.map (·.stamp.path) := by
  induction h with
  | nil => rfl
  | cons hentry _ ih => rw [List.map_cons, List.map_cons, hentry.stamp.path_eq, ih]

private theorem twinned_perform_dump (stream : String) :
    Twinned k (Answer.Pairs k) (perform (.dump stream)) (perform (.dump stream)) := by
  refine Mirrors.bind Mirrors.get fun workspace workspace' hworkspace => ?_
  refine twinned_withStream stream fun id hknown => ?_
  rw [bytes_eq hworkspace.streams hknown]
  exact Mirrors.pure (.plain rfl)

private theorem twinned_perform_newDocument (document : String) :
    Twinned k (Answer.Pairs k) (perform (.newDocument document))
      (perform (.newDocument document)) := by
  refine Mirrors.bind (A := RootId.Pairs k) ?_ fun _ _ hroot => Mirrors.pure (.root hroot)
  refine Mirrors.bind twinned_mint fun root root' hroot => ?_
  exact Mirrors.bind (twinned_keepDocument document (Document.pairs_empty hroot)) fun _ _ _ =>
    Mirrors.pure hroot

private theorem twinned_perform_openDocument (document stream : String) (codec : Codec) :
    Twinned k (Answer.Pairs k) (perform (.openDocument document stream codec))
      (perform (.openDocument document stream codec)) := by
  refine twinned_withStream stream fun id hknown => ?_
  exact Mirrors.bind (twinned_openDocument document (source_pairs hknown)) fun _ _ hroot =>
    Mirrors.pure (.root hroot)

private theorem twinned_perform_readDocument (document stream : String) (position : Nat)
    (codec : Codec) :
    Twinned k (Answer.Pairs k) (perform (.readDocument document stream position codec))
      (perform (.readDocument document stream position codec)) := by
  refine twinned_withStream stream fun id hknown => ?_
  refine Mirrors.bind (A := RootId.Pairs k) ?_ fun _ _ hroot => Mirrors.pure (.root hroot)
  refine Mirrors.bind (twinned_onStreams (mirrors_readWhole hknown position))
    fun bytes bytes' hbytes => ?_
  subst hbytes
  exact twinned_loadDocument document bytes codec

private theorem twinned_perform_loadDocumentOf (document stream : String) (codec : Codec) :
    Twinned k (Answer.Pairs k) (perform (.loadDocumentOf document stream codec))
      (perform (.loadDocumentOf document stream codec)) := by
  refine Mirrors.bind Mirrors.get fun workspace workspace' hworkspace => ?_
  refine twinned_withStream stream fun id hknown => ?_
  rw [bytes_eq hworkspace.streams hknown]
  exact Mirrors.bind (twinned_loadDocument document _ codec) fun _ _ hroot =>
    Mirrors.pure (.root hroot)

private theorem twinned_perform_saveToBytes (document : String) (codec : Codec) :
    Twinned k (Answer.Pairs k) (perform (.saveToBytes document codec))
      (perform (.saveToBytes document codec)) := by
  refine twinned_atDocument
    (Mirrors.bind (Document.echoes_saveToBytes codec) fun bytes bytes' hbytes => ?_)
  subst hbytes
  exact Mirrors.pure (.plain rfl)

private theorem twinned_perform_addEntry (document : String) :
    Twinned k (Answer.Pairs k) (perform (.addEntry document)) (perform (.addEntry document)) := by
  refine twinned_atDocument (Mirrors.bind Mirrors.node fun document document' hdocument => ?_)
  obtain ⟨hentry, hchanged⟩ := Document.addEntry_pairs hdocument
  exact Mirrors.bind (Mirrors.edit fun _ _ _ => hchanged) fun _ _ _ =>
    Mirrors.pure (.entry hentry.resembles)

private theorem twinned_perform_entryCount (document : String) :
    Twinned k (Answer.Pairs k) (perform (.entryCount document))
      (perform (.entryCount document)) := by
  refine twinned_atDocument
    (Mirrors.bind Mirrors.node fun document document' hdocument => Mirrors.pure ?_)
  rw [Document.entryCount, Document.entryCount, hdocument.entries.size_eq]
  exact .plain rfl

private theorem twinned_perform_documentText (document : String) :
    Twinned k (Answer.Pairs k) (perform (.documentText document))
      (perform (.documentText document)) := by
  refine twinned_atDocument (Mirrors.bind Document.echoes_text fun text text' htext => ?_)
  subst htext
  exact Mirrors.pure (.plain rfl)

private theorem twinned_perform_entryPaths (document : String) :
    Twinned k (Answer.Pairs k) (perform (.entryPaths document))
      (perform (.entryPaths document)) := by
  refine twinned_atDocument
    (Mirrors.bind Document.echoes_entryList fun entries entries' hentries => ?_)
  rw [paths_eq hentries]
  exact Mirrors.pure (.plain rfl)

private theorem twinned_perform_equalDocuments (document other : String) :
    Twinned k (Answer.Pairs k) (perform (.equalDocuments document other))
      (perform (.equalDocuments document other)) := by
  refine Mirrors.bind Mirrors.get fun workspace workspace' hworkspace => ?_
  have hrow := hworkspace.documents document
  have hotherRow := hworkspace.documents other
  generalize workspace.documents.find? document = found at hrow ⊢
  generalize workspace'.documents.find? document = found' at hrow ⊢
  generalize workspace.documents.find? other = otherFound at hotherRow ⊢
  generalize workspace'.documents.find? other = otherFound' at hotherRow ⊢
  cases hrow with
  | none => exact Mirrors.pure (.plain rfl)
  | some _ =>
    cases hotherRow with
    | none => exact Mirrors.pure (.plain rfl)
    | some _ =>
      refine Mirrors.modifyGet fun state state' hstate => ?_
      obtain ⟨hsame, hafter⟩ :=
        parallel_documentEqual (spotPairs_document document)
          (spotPairs_document other) state state' hstate
      refine ⟨?_, hafter⟩
      change (Answer.flag (Document.equal _ _ state).1).Pairs k
        (.flag (Document.equal _ _ state').1)
      rw [hsame]
      exact .plain rfl

private theorem twinned_perform_equalEntries (entry other : EntryPlace) :
    Twinned k (Answer.Pairs k) (perform (.equalEntries entry other))
      (perform (.equalEntries entry other)) := by
  intro workspace workspace' hworkspace
  rw [perform_equalEntries, perform_equalEntries, hasPlace_eq hworkspace, hasPlace_eq hworkspace]
  by_cases hplaces : (workspace.hasPlace entry && workspace.hasPlace other) = true
  · rw [if_pos hplaces, if_pos hplaces]
    obtain ⟨hanswer, hafter⟩ := parallel_compareEntries entry other workspace workspace' hworkspace
    exact .ok hanswer hafter
  · rw [if_neg hplaces, if_neg hplaces]
    exact .ok (.plain rfl) hworkspace

private theorem twinned_perform_equalIdentities (identity other : String) :
    Twinned k (Answer.Pairs k) (perform (.equalIdentities identity other))
      (perform (.equalIdentities identity other)) := by
  refine Mirrors.bind Mirrors.get fun workspace workspace' hworkspace => ?_
  have hrow := hworkspace.identities identity
  have hotherRow := hworkspace.identities other
  generalize workspace.identities.find? identity = found at hrow ⊢
  generalize workspace'.identities.find? identity = found' at hrow ⊢
  generalize workspace.identities.find? other = otherFound at hotherRow ⊢
  generalize workspace'.identities.find? other = otherFound' at hotherRow ⊢
  cases hrow with
  | none => exact Mirrors.pure (.plain rfl)
  | some hmine =>
    cases hotherRow with
    | none => exact Mirrors.pure (.plain rfl)
    | some htheirs =>
      dsimp only
      rw [sameContent_eq hmine htheirs]
      exact Mirrors.pure (.plain rfl)

private theorem twinned_perform_makeRef (owner : RefOwner) (coordinates : List UInt64)
    (as : String) :
    Twinned k (Answer.Pairs k) (perform (.makeRef owner coordinates as))
      (perform (.makeRef owner coordinates as)) := by
  refine Mirrors.bind Mirrors.get fun workspace workspace' hworkspace => ?_
  have howner := ownerRoot_pairs hworkspace owner
  generalize workspace.ownerRoot owner = found at howner ⊢
  generalize workspace'.ownerRoot owner = found' at howner ⊢
  cases howner with
  | none => cases owner <;> exact Mirrors.pure (.plain rfl)
  | some hroot =>
    exact twinned_keepAnswer as (.ref (NodeRef.pairs_ofDescriptor hroot ⟨coordinates⟩))

private theorem twinned_perform_resolve (document ref : String) :
    Twinned k (Answer.Pairs k) (perform (.resolve document ref))
      (perform (.resolve document ref)) := by
  refine Mirrors.bind Mirrors.get fun workspace workspace' hworkspace => twinned_atDocument ?_
  have hrow := hworkspace.refs ref
  generalize workspace.refs.find? ref = found at hrow ⊢
  generalize workspace'.refs.find? ref = found' at hrow ⊢
  cases hrow with
  | none => exact Mirrors.pure (.plain rfl)
  | some href =>
    exact Mirrors.bind (Document.echoes_resolveIdentity href) fun _ _ hfound =>
      Mirrors.pure (Answer.pairs_ofOption (fun _ _ hidentity => .identity hidentity) hfound)

private theorem twinned_perform_newEntry (name : String) :
    Twinned k (Answer.Pairs k) (perform (.newEntry name)) (perform (.newEntry name)) := by
  refine Mirrors.bind twinned_mint fun root root' hroot => ?_
  have hentry : Entry.Pairs k { stamp := { root } } { stamp := { root := root' } } :=
    Entry.pairs_mk ⟨hroot, rfl⟩
  refine Mirrors.bind (A := Eq) (Mirrors.modifyGet fun _ _ hworkspace => ?_) fun _ _ _ =>
    Mirrors.pure (.entry hentry.resembles)
  exact ⟨rfl, hworkspace.streams, hworkspace.issued, hworkspace.documents,
    hworkspace.entries.set name hentry, hworkspace.identities, hworkspace.refs⟩

private theorem twinned_perform_newIdentity (name : String) :
    Twinned k (Answer.Pairs k) (perform (.newIdentity name)) (perform (.newIdentity name)) := by
  refine Mirrors.bind twinned_mint fun root root' hroot => ?_
  have hidentity : Identity.Pairs k { stamp := { root } } { stamp := { root := root' } } :=
    ⟨⟨hroot, rfl⟩, rfl⟩
  refine Mirrors.bind (A := Eq) (Mirrors.modifyGet fun _ _ hworkspace => ?_) fun _ _ _ =>
    Mirrors.pure (.identity hidentity)
  exact ⟨rfl, hworkspace.streams, hworkspace.issued, hworkspace.documents, hworkspace.entries,
    hworkspace.identities.set name hidentity, hworkspace.refs⟩

private theorem twinned_perform_lookAtEntry (entry : EntryPlace) (look : EntryLook) :
    Twinned k (Answer.Pairs k) (perform (.lookAtEntry entry look))
      (perform (.lookAtEntry entry look)) := by
  refine Mirrors.bind (twinned_atEntry entry (twinned_viewEntry look))
    fun answer answer' hanswer => ?_
  split
  · exact twinned_keepAnswer _ hanswer
  · exact twinned_keepAnswer _ hanswer
  · exact Mirrors.pure hanswer

private theorem twinned_perform_changeEntry (entry : EntryPlace) (change : EntryChange String) :
    Twinned k (Answer.Pairs k) (perform (.changeEntry entry change))
      (perform (.changeEntry entry change)) := by
  refine Mirrors.bind Mirrors.get fun workspace workspace' hworkspace => ?_
  rw [hasPlace_eq hworkspace]
  by_cases hplace : (!workspace.hasPlace entry) = true
  · rw [if_pos hplace, if_pos hplace]
    exact Mirrors.pure (.plain rfl)
  · rw [if_neg hplace, if_neg hplace]
    have hchange := changePairs_lookup hworkspace.refs change
    generalize change.lookup workspace.refs.find? = found at hchange ⊢
    generalize change.lookup workspace'.refs.find? = found' at hchange ⊢
    cases hchange with
    | none => exact Mirrors.pure (.plain rfl)
    | some hfound => exact twinned_atEntryMut entry (twinned_editEntry hfound)

private theorem twinned_perform_lookAtIdentity (identity : SeenIdentity) (look : IdentityLook) :
    Twinned k (Answer.Pairs k) (perform (.lookAtIdentity identity look))
      (perform (.lookAtIdentity identity look)) := by
  refine Mirrors.bind (twinned_atIdentity identity (twinned_viewIdentity look))
    fun answer answer' hanswer => ?_
  split
  · exact twinned_keepAnswer _ hanswer
  · exact Mirrors.pure hanswer

private theorem twinned_perform {op : Op} (hop : op.leavesStreams = true)
    (hloaded : op.asksLoaded = false) :
    Twinned k (Answer.Pairs k) (perform op) (perform op) := by
  cases op with
  | setStream | setFaults | patch | truncate | append | takeSeeks | save => cases hop
  | isEntryLoaded document i => cases hloaded
  | dump stream => exact twinned_perform_dump stream
  | newDocument document => exact twinned_perform_newDocument document
  | openDocument document stream codec => exact twinned_perform_openDocument document stream codec
  | readDocument document stream position codec =>
    exact twinned_perform_readDocument document stream position codec
  | loadDocument document bytes codec =>
    exact Mirrors.bind (twinned_loadDocument document bytes codec) fun _ _ hroot =>
      Mirrors.pure (.root hroot)
  | loadDocumentOf document stream codec =>
    exact twinned_perform_loadDocumentOf document stream codec
  | saveToBytes document codec => exact twinned_perform_saveToBytes document codec
  | addEntry document => exact twinned_perform_addEntry document
  | entryCount document => exact twinned_perform_entryCount document
  | documentText document => exact twinned_perform_documentText document
  | entryPaths document => exact twinned_perform_entryPaths document
  | loadAll document =>
    exact twinned_atDocument
      (Mirrors.bind Document.echoes_loadAll fun _ _ _ => Mirrors.pure (.plain rfl))
  | documentChild document field index =>
    exact twinned_atDocument (Mirrors.bind (Document.echoes_child field index) fun _ _ hfound =>
      Mirrors.pure (Answer.pairs_ofOption (fun _ _ _ => .plain rfl) hfound))
  | documentStamp document =>
    exact twinned_atDocument
      (Mirrors.bind Mirrors.node fun _ _ hdocument => Mirrors.pure (.stamp hdocument.stamp))
  | equalDocuments document other => exact twinned_perform_equalDocuments document other
  | equalEntries entry other => exact twinned_perform_equalEntries entry other
  | equalIdentities identity other => exact twinned_perform_equalIdentities identity other
  | makeRef owner coordinates as => exact twinned_perform_makeRef owner coordinates as
  | resolve document ref => exact twinned_perform_resolve document ref
  | newEntry name => exact twinned_perform_newEntry name
  | newIdentity name => exact twinned_perform_newIdentity name
  | lookAtEntry entry look => exact twinned_perform_lookAtEntry entry look
  | changeEntry entry change => exact twinned_perform_changeEntry entry change
  | lookAtIdentity identity look => exact twinned_perform_lookAtIdentity identity look
  | changeIdentity identity change =>
    exact twinned_atIdentityMut identity (twinned_editIdentity change)

private theorem twinned_isEntryLoaded (document : String) (i : Nat) :
    Twinned k (fun _ _ => True) (perform (.isEntryLoaded document i))
      (perform (.isEntryLoaded document i)) :=
  Mirrors.bind
    (twinned_onDocument (A := fun _ _ => True)
      (Mirrors.bind Mirrors.node fun _ _ _ => Mirrors.pure trivial))
    fun _ _ _ => Mirrors.pure trivial

theorem pairs_step {op : Op} (hop : op.leavesStreams = true) {workspace workspace' : Workspace}
    (h : Pairs k workspace workspace') :
    Pairs k (step op workspace).2 (step op workspace').2 ∧
      (op.asksLoaded = false → (step op workspace).1.Pairs k (step op workspace').1) := by
  by_cases hloaded : op.asksLoaded = false
  · have hrun := twinned_perform hop hloaded workspace workspace' h
    unfold step
    generalize perform op workspace = result at hrun ⊢
    generalize perform op workspace' = result' at hrun ⊢
    cases hrun with
    | ok hanswer hafter => exact ⟨hafter, fun _ => hanswer⟩
    | error herror hafter => exact ⟨hafter, fun _ => .failed herror⟩
  · cases op with
    | isEntryLoaded document i =>
      have hrun := twinned_isEntryLoaded document i workspace workspace' h
      refine ⟨?_, fun hasks => nomatch hasks⟩
      unfold step
      generalize perform (.isEntryLoaded document i) workspace = result at hrun ⊢
      generalize perform (.isEntryLoaded document i) workspace' = result' at hrun ⊢
      cases hrun with
      | ok _ hafter => exact hafter
      | error _ hafter => exact hafter
    | _ => exact absurd rfl hloaded

/-- Answers to the same operations that are the same up to root numbers, except where the question
is whether an entry has been loaded. -/
def AnswersAgree (r : Renumbering) : List Op → List Answer → List Answer → Prop
  | [], [], [] => True
  | op :: ops, answer :: answers, answer' :: answers' =>
    (op.asksLoaded = false → answer.Pairs r answer') ∧ AnswersAgree r ops answers answers'
  | _, _, _ => False

theorem answersAgree_run {ops : List Op} (hops : ∀ op ∈ ops, op.leavesStreams = true)
    {workspace workspace' : Workspace} (h : Pairs k workspace workspace') :
    AnswersAgree k ops (run ops workspace).1 (run ops workspace').1 := by
  induction ops generalizing workspace workspace' with
  | nil => trivial
  | cons op ops ih =>
    obtain ⟨hafter, hanswer⟩ := pairs_step (hops op List.mem_cons_self) h
    exact ⟨hanswer, ih (fun op hop => hops op (List.mem_cons_of_mem _ hop)) hafter⟩

end Workspace
end FramedTree
