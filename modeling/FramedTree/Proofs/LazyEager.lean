import FramedTree.Proofs.CounterpartWorkspaces
import FramedTree.Proofs.FirstFailure
import FramedTree.Proofs.RoundTrip

/-! # Opened documents and loaded documents

A document that is opened loads its nodes when they are first looked at; a document that is loaded
has all of them from the start. From the same bytes, loading succeeds if and only if everything in
the opened document can be looked at, and then no operation tells one document from the other.
-/

namespace FramedTree

variable {ν μ α β : Type} {k : Pairing}

/-- Work on the second of two counterparts which leaves it a counterpart of the first, unless it
fails. -/
def Retains (k : Pairing) (V : ν → ν → Prop) (access : Access Streams ν α) : Prop :=
  ∀ node node' streams value after streams', V node node' → streams.Holds k.library →
    access (node', streams) = .ok value (after, streams') →
    V node after ∧ Streams.Follows k.library streams streams'

namespace Retains

variable {V : ν → ν → Prop}

private theorem pure (value : α) : Retains k V (Pure.pure value) := by
  intro node node' streams result after streams' hnode hstreams h
  cases h
  exact ⟨hnode, Streams.follows_refl hstreams⟩

private theorem bind {access : Access Streams ν α} {next : α → Access Streams ν β}
    (h : Retains k V access) (hnext : ∀ value, Retains k V (next value)) :
    Retains k V (access >>= next) := by
  intro node node' streams result after streams' hnode hstreams hrun
  obtain ⟨value, ⟨between, streams''⟩, hfirst, hsecond⟩ := FramedTree.bind_ok hrun
  obtain ⟨hbetween, hstreams''⟩ := h _ _ _ _ _ _ hnode hstreams hfirst
  obtain ⟨hafter, hfollows⟩ := hnext value _ _ _ _ _ _ hbetween hstreams''.holds hsecond
  exact ⟨hafter, hstreams''.trans hfollows⟩

private theorem map {access : Access Streams ν α} (f : α → β) (h : Retains k V access) :
    Retains k V (f <$> access) :=
  bind h fun value => pure (f value)

private theorem node_within {U : ν → ν → μ → μ → Prop} {get : ν → μ} {put : μ → ν → ν}
    {access : ν → Access Streams μ α}
    (h : ∀ node node', V node node' → Retains k (U node node') (access node'))
    (hget : ∀ node node', V node node' → U node node' (get node) (get node'))
    (hput : ∀ node node' part,
      V node node' → U node node' (get node) part → V node (put part node')) :
    Retains k V (do Access.within get put (access (← Access.node))) := by
  intro node node' streams result after streams' hnode hstreams hrun
  rw [Access.node_bind_apply, Access.within_apply] at hrun
  obtain ⟨⟨part, around⟩, hpart, hstate⟩ := mapState_eq_ok hrun
  cases hstate
  obtain ⟨hafter, hfollows⟩ := h node node' hnode _ _ _ _ _ _ (hget node node' hnode) hstreams hpart
  exact ⟨hput node node' part hnode hafter, hfollows⟩

private theorem opens {load load' : Option Origin → Load ν} {inner : Access Streams ν α}
    {access : Access Streams (Lazy ν) α} (hopens : Lazy.Opens load' inner access)
    (h : Retains k V inner) :
    Retains k (Lazy.Pairs k load load' V) access := by
  intro cell cell' streams value after streams' hcell hstreams hrun
  obtain ⟨result, result', hsettles, hsettles', hresult⟩ := hcell
  obtain ⟨between, hfetch, hbetween⟩ := hsettles' streams hstreams
  cases hresult with
  | error herror =>
    rw [hopens.failed hfetch] at hrun
    cases hrun
  | @ok found found' hfound =>
    obtain ⟨kept, -, heq⟩ := hopens.fetched hfetch
    rw [heq] at hrun
    obtain ⟨⟨last, around⟩, hinner, hstate⟩ := mapState_eq_ok hrun
    cases hstate
    obtain ⟨hlast, hfollows⟩ := h _ _ _ _ _ _ hfound hbetween.holds hinner
    refine ⟨⟨.ok found, .ok last, hsettles, ?_, .ok hlast⟩, hbetween.trans hfollows⟩
    rw [Lazy.fetch_of_peek (Lazy.peek_putBack kept last)]
    exact Settles.pure last

private theorem slot {i : Nat} {W : Slots ν → Slots ν → Prop} {inner : Access Streams ν α}
    (h : Retains k V inner)
    (hget : ∀ slots slots' value', W slots slots' → slots'.get? i = some value' → ∃ value,
      V value value' ∧
      ∀ after, V value after → W slots (slots'.modify i fun _ => after)) :
    Retains k W (Slots.access i inner) := by
  intro slots slots' streams result after streams' hslots hstreams hrun
  cases hslot : slots'.get? i with
  | none =>
    rw [Slots.access_apply_none hslot] at hrun
    cases hrun
    exact ⟨hslots, Streams.follows_refl hstreams⟩
  | some value' =>
    obtain ⟨value, hvalue, hput⟩ := hget slots slots' value' hslots hslot
    rw [Slots.access_apply_some hslot] at hrun
    obtain ⟨⟨last, around⟩, hinner, hstate⟩ := mapState_eq_ok hrun
    cases hstate
    obtain ⟨hlast, hfollows⟩ := map some h _ _ _ _ _ _ hvalue hstreams hinner
    exact ⟨hput last hlast, hfollows⟩

variable {Q : Nat → ν → ν → Prop} {inner : Nat → Access Streams ν α}

private theorem accessFrom (h : ∀ i, Retains k (Q i) (inner i)) {i : Nat}
    {cells cells' after : List (Option ν)} {streams streams' : Streams} {results : List α}
    (hcells : Mirrors.CellsFrom Q i cells cells') (hstreams : streams.Holds k.library)
    (hrun : Slots.accessFrom inner i cells' streams = .ok results (after, streams')) :
    Mirrors.CellsFrom Q i cells after ∧ Streams.Follows k.library streams streams' := by
  induction cells generalizing i cells' after streams results with
  | nil =>
    cases cells' with
    | cons cell' cells' => exact hcells.elim
    | nil =>
      cases hrun
      exact ⟨trivial, Streams.follows_refl hstreams⟩
  | cons cell cells ih =>
    cases cells' with
    | nil => exact hcells.elim
    | cons cell' cells' =>
      obtain ⟨hcell, hrest⟩ := hcells
      cases hcell with
      | none =>
        rw [Slots.accessFrom_gap] at hrun
        obtain ⟨state, hothers, hstate⟩ := mapState_eq_ok hrun
        cases hstate
        obtain ⟨hkept, hfollows⟩ := ih hrest hstreams hothers
        exact ⟨⟨.none, hkept⟩, hfollows⟩
      | @some value value' hvalue =>
        obtain ⟨first, kept, between, others, rest, hfirst, hothers, rfl, rfl⟩ :=
          Slots.accessFrom_eq_ok hrun
        obtain ⟨hlast, hbetween⟩ := h i _ _ _ _ _ _ hvalue hstreams hfirst
        obtain ⟨hkept, hfollows⟩ := ih hrest hbetween.holds hothers
        exact ⟨⟨.some hlast, hkept⟩, hbetween.trans hfollows⟩

private theorem accessAll (h : ∀ i, Retains k (Q i) (inner i)) :
    Retains k (Slots.Pointwise Q) (Slots.accessAll inner) := by
  intro slots slots' streams results after streams' hslots hstreams hrun
  rw [Slots.accessAll_apply] at hrun
  obtain ⟨⟨cells, around⟩, hcells, hstate⟩ := mapState_eq_ok hrun
  cases hstate
  obtain ⟨hkept, hfollows⟩ := accessFrom h (Mirrors.cellsFrom_of_pointwise hslots) hstreams hcells
  exact ⟨Mirrors.pointwise_of_cellsFrom hkept, hfollows⟩

end Retains

private theorem Entry.retains_loadAll : Retains k (Entry.Pairs k) Entry.loadAll := by
  have hidentification : Retains k (Entry.Pairs k) (onIdentificationMut (pure ())) := by
    refine Retains.node_within
      (U := fun entry entry' : Entry =>
        IdentityPairs k entry.stamp entry'.stamp identificationField)
      (fun _ _ _ => Retains.opens (Lazy.accessMut_opens _ _) (Retains.pure ()))
      (fun _ _ hentry => hentry.identification) fun entry entry' cell hentry hcell => ?_
    exact ⟨hentry.stamp, hcell, hentry.secretIdentity, hentry.approver, hentry.reviewers⟩
  have hsecret : Retains k (Entry.Pairs k) (onSecretIdentityMut (pure ())) := by
    refine Retains.node_within
      (U := fun (entry entry' : Entry) (slots slots' : Slots (Lazy Identity)) =>
        Option.Rel (IdentityPairs k entry.stamp entry'.stamp secretIdentityField)
          (slots.get? singular)
          (slots'.get? singular))
      (fun entry entry' _ => Retains.slot
        (V := IdentityPairs k entry.stamp entry'.stamp secretIdentityField)
        (Retains.opens (Lazy.accessMut_opens _ _) (Retains.pure ())) ?_)
      (fun _ _ hentry => hentry.secretIdentity) fun entry entry' slots hentry hslots => ?_
    · intro slots slots' cell' hslots hcell'
      rw [hcell'] at hslots
      generalize slots.get? singular = found at hslots ⊢
      cases hslots with
      | @some cell _ hcell =>
        refine ⟨cell, hcell, fun after hafter => ?_⟩
        rw [Slots.get?_modify, if_pos rfl, hcell']
        exact .some hafter
    · exact ⟨hentry.stamp, hentry.identification, hslots, hentry.approver, hentry.reviewers⟩
  exact Retains.bind hidentification fun _ => Retains.map _ hsecret

private theorem Document.retains_loadAll : Retains k (Document.Pairs k) Document.loadAll := by
  refine Retains.map _ (Retains.node_within
    (U := fun document document' : Document => Slots.Pointwise
      (EntryPairs k document.stamp document'.stamp))
    (fun document document' _ => Retains.accessAll fun i =>
      Retains.opens (Lazy.accessMut_opens _ _) Entry.retains_loadAll)
    (fun _ _ hdocument => hdocument.entries) ?_)
  intro document document' slots hdocument hslots
  exact ⟨hdocument.stamp, hslots⟩

section Loading

variable {document document' : Document} {streams streams' : Streams}
  (hdocument : document.Pairs k document') (hstreams : streams.Pairs k streams')

include hdocument hstreams

private theorem Document.loadAll_of_shows {contents : List EntryContent}
    (h : document.Shows k.library contents) :
    ∃ loaded after, Document.loadAll (document', streams') = .ok () (loaded, after) ∧
      document.Pairs k loaded ∧ streams.Pairs k after := by
  obtain ⟨done, first, between, hrun, -⟩ := Document.gives_loadAll document streams h hstreams.holds
  have hmatching := Document.echoes_loadAll (E := Eq) (document, streams) (document', streams')
    ⟨hdocument, hstreams⟩
  rw [hrun] at hmatching
  cases hload : Document.loadAll (document', streams') with
  | error error state =>
    rw [hload] at hmatching
    cases hmatching
  | ok value state =>
    obtain ⟨loaded, after⟩ := state
    obtain ⟨hloaded, hfollows⟩ :=
      Document.retains_loadAll _ _ _ _ _ _ hdocument hstreams.holds' hload
    exact ⟨loaded, after, rfl, hloaded,
      hstreams.follows (Streams.follows_refl hstreams.holds) hfollows⟩

private theorem Document.loadAll_of_brokenAt {error : Error} {i : Nat}
    (h : document.BrokenAt k.library error i) :
    ∃ state, Document.loadAll (document', streams') = .error error state := by
  have hreply : verdict (Document.loadAll (document, streams)) = .error error :=
    Document.replies_loadAll document streams h hstreams.holds
  have hmatching := Document.echoes_loadAll (E := Eq) (document, streams) (document', streams')
    ⟨hdocument, hstreams⟩
  generalize Document.loadAll (document, streams) = result at hreply hmatching
  generalize Document.loadAll (document', streams') = result' at hmatching ⊢
  cases hmatching with
  | ok hvalue hafter => cases hreply
  | error herror hafter =>
    cases hreply
    subst herror
    exact ⟨_, rfl⟩

end Loading

/-- The operations that look at an entry, at its identification and at its secret identity. -/
def Op.visitsEntry (name : String) (i : Nat) : List Op :=
  [.lookAtEntry (.inDocument name i) .info,
    .lookAtIdentity (.identification (.inDocument name i)) .info,
    .lookAtIdentity (.secretIdentity (.inDocument name i)) .info]

def Answer.ofVerdict : Except Error Answer → Answer
  | .ok answer => answer
  | .error error => .failed error

namespace Workspace

/-- The operations that look at all nodes of the document under a name, in their order. -/
def visits (workspace : Workspace) (name : String) : List Op :=
  (workspace.documents.find? name).elim [] fun document =>
    (List.range document.entryCount).flatMap (Op.visitsEntry name)

def answersTo (ops : List Op) (workspace : Workspace) : List Answer :=
  ops.map fun op => (step op workspace).1

variable {library : Library} {error : Error} {workspace : Workspace} {name : String}
  {document : Document} {i : Nat}

theorem step_fst (op : Op) (workspace : Workspace) :
    (step op workspace).1 = Answer.ofVerdict (verdict (perform op workspace)) := by
  rw [step]
  cases perform op workspace <;> rfl

section Visiting

variable {V : Entry → Prop} {inner : Access Streams Entry Answer} {P : Except Error Answer → Prop}

def visit (i : Nat) (inner : Access Streams Entry Answer) : Access Streams Document Answer := do
  return (← Document.onEntry i inner).getD .noEntry

private theorem step_visit {op : Op} (hop : perform op = atDocument name (visit i inner))
    (hfound : workspace.documents.find? name = some document) :
    (step op workspace).1 =
      Answer.ofVerdict (verdict (visit i inner (document, workspace.streams))) := by
  rw [step_fst, hop, atDocument, bind_apply, onDocument_apply hfound, map_apply]
  cases visit i inner (document, workspace.streams) <;> rfl

private theorem replies_visit (h : Replies library V inner P) :
    Replies library (fun document => ∃ cell, document.entries.get? i = some cell ∧
      cell.Shows library (Document.loadEntry document.stamp i) V) (visit i inner) P := by
  apply Replies.map
  refine Replies.node_within (U := fun (document : Document) (slots : Slots (Lazy Entry)) =>
    ∃ cell, slots.get? i = some cell ∧ cell.Shows library (Document.loadEntry document.stamp i) V)
    (fun document _ => Replies.slot (Replies.opens (Lazy.access_opens _ _) ?_)
      fun _ hslots => hslots)
    fun _ hdocument => hdocument
  intro entry streams hentry hstreams
  have hreply := h entry streams hentry hstreams
  cases hresult : verdict (inner (entry, streams)) with
  | ok answer | error error =>
    rw [hresult] at hreply
    exact hreply

private theorem replies_visit_broken :
    Replies library (fun document => ∃ cell, document.entries.get? i = some cell ∧
      cell.Broken library (Document.loadEntry document.stamp i) error) (visit i inner)
      (· = .error error) := by
  apply Replies.map
  refine Replies.node_within (U := fun (document : Document) (slots : Slots (Lazy Entry)) =>
    ∃ cell, slots.get? i = some cell ∧
      cell.Broken library (Document.loadEntry document.stamp i) error)
    (fun document _ => Replies.slot ?_ fun _ hslots => hslots) fun _ hdocument => hdocument
  intro cell streams hcell hstreams
  rw [Replies.broken (Lazy.access_opens _ inner) cell streams hcell hstreams]
  rfl

abbrev Succeeds (result : Except Error Answer) : Prop := (Answer.ofVerdict result).isFailure = false

private theorem replies_info : Replies library (fun _ => True) (viewEntry .info) Succeeds :=
  fun _ _ _ _ => rfl

private theorem replies_identificationInfo :
    Replies library (Entry.ShowsIdentification library)
      (Entry.onIdentification (viewIdentity .info)) Succeeds := by
  refine Replies.node_within (U := fun (entry : Entry) (cell : Lazy Identity) => ∃ header,
    cell.ShowsHeader library entry.stamp Entry.identificationField header) (fun entry _ => ?_)
    fun _ hentry => hentry
  rintro cell streams ⟨header, hcell⟩ hstreams
  exact Replies.opens (Lazy.access_opens _ _) (fun _ _ _ _ => rfl) cell streams hcell hstreams

private theorem replies_secretInfo (content : EntryContent) :
    Replies library (Entry.Shows library · content)
      (do return (← Entry.onSecretIdentity (viewIdentity .info)).getD .nothing) Succeeds := by
  have hreports : Entry.Reports library (viewIdentity .info) fun _ answer =>
    answer.isFailure = false := by
    intro header
    refine Gives.bind Gives.node fun identity => Gives.pure fun node hnode => ?_
    exact ⟨hnode.2, rfl⟩
  intro entry streams hentry hstreams
  obtain ⟨result, after, streams', hrun, ⟨hresult, -⟩, -⟩ :=
    Entry.gives_secretIdentity hreports (fun _ => Lazy.access_opens _ _)
      (fun _ => True) entry streams
      ⟨hentry, trivial⟩ hstreams
  rw [bind_apply, show Entry.onSecretIdentity (viewIdentity .info) (entry, streams) = _ from hrun]
  generalize content.secretIdentity = header at hresult
  cases hresult with
  | none => rfl
  | some hanswer => exact hanswer

private theorem replies_identificationInfo_broken :
    Replies library (Entry.BrokenIdentification library error)
      (Entry.onIdentification (viewIdentity .info))
      (· = .error error) :=
  Entry.replies_identification fun _ => Lazy.access_opens _ _

private theorem replies_secretInfo_broken :
    Replies library (Entry.BrokenSecretIdentity library error)
      (do return (← Entry.onSecretIdentity (viewIdentity .info)).getD .nothing)
        (· = .error error) :=
  Replies.bind_error (Entry.replies_secretIdentity fun _ => Lazy.access_opens _ _)

variable (hfound : workspace.documents.find? name = some document)
  (hstreams : workspace.streams.Holds library)

include hfound

private theorem step_lookAtEntry : (step (.lookAtEntry (.inDocument name i) .info) workspace).1 =
    Answer.ofVerdict (verdict (visit i (viewEntry .info) (document, workspace.streams))) :=
  step_visit (bind_pure _) hfound

private theorem step_lookAtIdentification :
    (step (.lookAtIdentity (.identification (.inDocument name i)) .info) workspace).1 =
      Answer.ofVerdict
      (verdict
        (visit i (Entry.onIdentification (viewIdentity .info)) (document, workspace.streams))) :=
  step_visit (bind_pure _) hfound

private theorem step_lookAtSecretIdentity :
    (step (.lookAtIdentity (.secretIdentity (.inDocument name i)) .info) workspace).1 =
      Answer.ofVerdict
      (verdict (visit i (do return (← Entry.onSecretIdentity (viewIdentity .info)).getD .nothing)
        (document, workspace.streams))) :=
  step_visit (bind_pure _) hfound

include hstreams

private theorem answers_of_shown {cell : Lazy Entry} {content : EntryContent}
    (hcell : document.entries.get? i = some cell)
    (h : Document.ShowsEntry library document.stamp i cell content) :
    ∀ answer ∈ answersTo (Op.visitsEntry name i) workspace, answer.isFailure = false := by
  have hany : cell.Shows library (Document.loadEntry document.stamp i) fun _ => True := by
    obtain ⟨entry, hsettles, -⟩ := h
    exact ⟨entry, hsettles, trivial⟩
  have hidentification : cell.Shows library (Document.loadEntry document.stamp i)
      (Entry.ShowsIdentification library) := by
    obtain ⟨entry, hsettles, hentry⟩ := h
    exact ⟨entry, hsettles, content.identification, hentry.identification⟩
  simp only [answersTo, Op.visitsEntry, List.map_cons, List.map_nil, List.forall_mem_cons,
    step_lookAtEntry hfound, step_lookAtIdentification hfound, step_lookAtSecretIdentity hfound]
  refine ⟨?_, ?_, ?_, List.forall_mem_nil _⟩
  · exact replies_visit replies_info document workspace.streams ⟨cell, hcell, hany⟩ hstreams
  · exact replies_visit replies_identificationInfo document workspace.streams
      ⟨cell, hcell, hidentification⟩ hstreams
  · exact replies_visit (replies_secretInfo content) document workspace.streams
      ⟨cell, hcell, h⟩ hstreams

private theorem find?_of_brokenEntry {cell : Lazy Entry}
    (hcell : document.entries.get? i = some cell)
    (h : Document.BrokenEntry library error document.stamp i cell) :
    (answersTo (Op.visitsEntry name i) workspace).find? Answer.isFailure =
      some (.failed error) := by
  simp only [answersTo, Op.visitsEntry, List.map_cons, List.map_nil, step_lookAtEntry hfound,
    step_lookAtIdentification hfound, step_lookAtSecretIdentity hfound]
  cases h with
  | header hheader =>
    rw [replies_visit_broken document workspace.streams ⟨cell, hcell, hheader⟩ hstreams]
    rfl
  | below hbelow =>
    obtain ⟨entry, hsettles, hfails⟩ := hbelow
    have hentry : Succeeds (verdict (visit i (viewEntry .info) (document, workspace.streams))) :=
      replies_visit replies_info document workspace.streams
        ⟨cell, hcell, entry, hsettles, trivial⟩ hstreams
    rw [List.find?_cons_of_neg (Bool.eq_false_iff.1 hentry)]
    cases hfails with
    | identification hbroken =>
      rw [replies_visit replies_identificationInfo_broken document workspace.streams
        ⟨cell, hcell, entry, hsettles, hbroken⟩ hstreams]
      rfl
    | secretIdentity hshows hbroken =>
      have hidentification : Succeeds
        (verdict (visit i (Entry.onIdentification (viewIdentity .info))
          (document, workspace.streams))) :=
        replies_visit replies_identificationInfo document workspace.streams
          ⟨cell, hcell, entry, hsettles, hshows⟩
          hstreams
      rw [List.find?_cons_of_neg (Bool.eq_false_iff.1 hidentification),
        replies_visit replies_secretInfo_broken document workspace.streams
          ⟨cell, hcell, entry, hsettles, hbroken⟩ hstreams]
      rfl

private theorem answers_of_shows {contents : List EntryContent}
    (h : document.Shows library contents) :
    ∀ answer ∈ answersTo (visits workspace name) workspace, answer.isFailure = false := by
  intro answer hanswer
  obtain ⟨op, hop, rfl⟩ := List.mem_map.1 hanswer
  rw [visits, hfound] at hop
  obtain ⟨i, hi, hvisit⟩ := List.mem_flatMap.1 hop
  have hlength : i < contents.length := by
    rw [← h.size_eq]
    exact List.mem_range.1 hi
  obtain ⟨cell, hcell, hshows⟩ := h.item (List.getElem?_eq_getElem hlength)
  exact answers_of_shown hfound hstreams hcell hshows _ (List.mem_map_of_mem hvisit)

private theorem find?_of_brokenAt (h : document.BrokenAt library error i) :
    (answersTo (visits workspace name) workspace).find? Answer.isFailure =
      some (.failed error) := by
  obtain ⟨cell, hcell, hbrokenEntry⟩ := h.broken
  have hi : i < document.entryCount := Slots.lt_size_of_get? hcell
  have hsplit : List.range document.entryCount =
      List.range i ++ i :: List.range' (i + 1) (document.entryCount - (i + 1)) := by
    rw [List.range_eq_range', List.range_eq_range', ← List.range'_succ,
      show document.entryCount - (i + 1) + 1 = document.entryCount - i by omega]
    have happend : List.range' 0 i ++ List.range' (0 + i) (document.entryCount - i) =
        List.range' 0 (i + (document.entryCount - i)) := List.range'_append_1
    rw [Nat.zero_add, Nat.add_sub_cancel' (Nat.le_of_lt hi)] at happend
    exact happend.symm
  rw [answersTo, visits, hfound, Option.elim_some, List.map_flatMap, List.find?_flatMap,
    List.findSome?_eq_some_iff]
  refine ⟨List.range i, i, _, hsplit, find?_of_brokenEntry hfound hstreams hcell hbrokenEntry,
    fun j hj => ?_⟩
  obtain ⟨earlier, hearlier, content, hshown⟩ := h.shown j (List.mem_range.1 hj)
  rw [List.find?_eq_none]
  intro answer hanswer
  rw [answers_of_shown hfound hstreams hearlier hshown answer hanswer]
  exact Bool.false_ne_true

end Visiting

section Refinement

variable {streams : Streams} {m n : Nat} {stream : String} {codec : Codec}

private theorem step_openDocument_ok (name : String) {id : StreamId} {between : Workspace}
    (h : openSource { backing := .stream id, codec } workspace = .ok document between)
    (hid : id = workspace.streams.current stream) :
    step (.openDocument name stream codec) workspace = (.root document.stamp.root,
      { between with documents := between.documents.set name document }) := by
  subst hid
  apply step_eq
  change (do
    return Answer.root (← openDocument name (workspace.streams.current stream) codec) :
      Work Answer) workspace = _
  rw [bind_apply, openDocument_ok h]
  rfl

private theorem step_openDocument_error (name : String) {id : StreamId} {between : Workspace}
    (h : openSource { backing := .stream id, codec } workspace = .error error between)
    (hid : id = workspace.streams.current stream) :
    (step (.openDocument name stream codec) workspace).1 = .failed error := by
  subst hid
  have hperform : perform (.openDocument name stream codec) workspace = .error error between := by
    change (do
      return Answer.root (← openDocument name (workspace.streams.current stream) codec) :
        Work Answer) workspace = _
    rw [bind_apply, openDocument, bind_apply, h]
  rw [step, hperform]

theorem step_loadDocument_unopened (name : String) {bytes : Bytes} {between : Workspace}
    (h : openSource { backing := .copy bytes.toArray, codec } workspace = .error error between) :
    (step (.loadDocument name bytes codec) workspace).1 = .failed error := by
  rw [step_fst, perform, bind_apply, loadDocument, bind_apply, h]
  rfl

theorem step_loadDocument_unloaded (name : String) {bytes : Bytes} {between : Workspace}
    {state : Document × Streams}
    (h : openSource { backing := .copy bytes.toArray, codec } workspace = .ok document between)
    (hload : Document.loadAll (document, between.streams) = .error error state) :
    (step (.loadDocument name bytes codec) workspace).1 = .failed error := by
  rw [step_fst, perform, bind_apply, loadDocument_apply name h, hload]
  rfl

private theorem step_loadDocument_ok (name : String) {bytes : Bytes} {between : Workspace}
    {done : Unit} {loaded : Document} {after : Streams}
    (h : openSource { backing := .copy bytes.toArray, codec } workspace = .ok document between)
    (hload : Document.loadAll (document, between.streams) = .ok done (loaded, after)) :
    step (.loadDocument name bytes codec) workspace = (.root loaded.stamp.root,
      { between with streams := after, documents := between.documents.set name loaded }) := by
  apply step_eq
  rw [perform, bind_apply, loadDocument_ok h hload]
  rfl

/-- Two worlds that start from the same streams after different numbers of roots. -/
def startingFrom (streams : Streams) (m n : Nat) : Pairing where
  first := m
  second := n
  library
    | .named name edition => some (streams.get (.named name edition)).content
    | .scratch => none
  scratch := rfl
  named _ _ := ⟨_, rfl⟩

/-- The ways in which opening a document and loading it from the same bytes can end. -/
inductive Ends (k : Pairing) (name : String) (opening loading : Answer × Workspace) : Prop where
  | unopened {error : Error} (hopening : opening.1 = .failed error)
      (hloading : loading.1 = .failed error)
  | unloaded {document : Document} {error : Error} {i : Nat}
      (hopening : opening.1.isFailure = false)
      (hloading : loading.1 = .failed error)
      (hfound : opening.2.documents.find? name = some document)
      (hholds : opening.2.streams.Holds k.library) (hfails : document.BrokenAt k.library error i)
  | loaded {document : Document} {contents : List EntryContent}
      (hopening : opening.1.isFailure = false)
      (hloading : loading.1.isFailure = false)
      (hfound : opening.2.documents.find? name = some document)
      (hshows : document.Shows k.library contents) (hpairs : Pairs k opening.2 loading.2)

private theorem ends_open_load (hcalm : ∀ name edition, (streams.get (.named name edition)).Calm) :
    Ends (startingFrom streams m n) name
      (step (.openDocument name stream codec) { streams, roots := ⟨m⟩ })
      (step (.loadDocument name (streams.get (streams.current stream)).bytes codec)
        { streams, roots := ⟨n⟩ }) := by
  have hholds : streams.Holds (startingFrom streams m n).library := by
    intro id content hcontent
    cases id with
    | scratch => cases hcontent
    | named name edition =>
      cases hcontent
      exact ⟨hcalm name edition, rfl⟩
  have hstart : streams.Pairs (startingFrom streams m n) streams := ⟨hholds, hholds, rfl, rfl⟩
  have hsource : Source.Pairs (startingFrom streams m n)
      { backing := .stream (streams.current stream), codec }
      { backing := .copy (streams.get (streams.current stream)).bytes.toArray, codec } :=
    ⟨⟨_, rfl, congrArg some Array.toArray_toList⟩, rfl, rfl⟩
  obtain ⟨result, hsettles, hsettles'⟩ :=
    hsource.settles fun codec => Steady.readRoot (α := DocumentHeader) codec
  obtain ⟨between, hfollows, hopen⟩ :=
    @openSource_settled _ { streams, roots := ⟨m⟩ }
      { backing := .stream (streams.current stream), codec } result
      hsettles hholds
  obtain ⟨between', hfollows', hopen'⟩ :=
    @openSource_settled _ { streams, roots := ⟨n⟩ }
      { backing := .copy (streams.get (streams.current stream)).bytes.toArray, codec } result
        hsettles' hholds
  have hcontent : Source.content? (startingFrom streams m n).library
      { backing := .stream (streams.current stream), codec } =
      some (streams.get (streams.current stream)).content := rfl
  cases result with
  | error error =>
    dsimp only at hopen hopen'
    exact .unopened (step_openDocument_error name hopen rfl)
      (step_loadDocument_unopened name hopen')
  | ok header =>
    have hroots : RootId.Pairs (startingFrom streams m n) ⟨m + 1⟩ ⟨n + 1⟩ := by
      change m + 1 + n = n + 1 + m
      omega
    have hdocument := Document.pairs_ofHeader hsource hroots header
    have hbetween : between.Pairs (startingFrom streams m n) between' :=
      hstart.follows hfollows hfollows'
    have hfound {rows : Table String Document} (document : Document) :
        (rows.set name document).find? name = some document := by
      rw [Table.find?_set, if_pos rfl]
    dsimp only at hopen hopen'
    rcases Document.shows_or_brokenAt hcontent ⟨m + 1⟩ header.entries with
      ⟨contents, hshows⟩ | ⟨error, i, hfails⟩
    · obtain ⟨loaded, after, hload, hloaded, hafter⟩ :=
        Document.loadAll_of_shows hdocument hbetween hshows
      rw [step_openDocument_ok name hopen rfl, step_loadDocument_ok name hopen' hload]
      refine .loaded rfl rfl (hfound _) hshows
        ⟨hafter, hroots, ?_, fun _ => .none, fun _ => .none, fun _ => .none⟩
      exact Table.Pointwise.set (fun _ => .none) name hloaded
    · obtain ⟨state, hload⟩ := Document.loadAll_of_brokenAt hdocument hbetween hfails
      have hloading := step_loadDocument_unloaded name hopen' hload
      rw [step_openDocument_ok name hopen rfl]
      exact .unloaded rfl hloading (hfound _) hbetween.holds hfails

/-- Loading a document from some bytes succeeds if and only if the document can be opened on a
stream of these bytes and all of its nodes can be looked at. Otherwise loading fails as opening
does, or as the first look that fails. A document that can be loaded gives the same answers as the
opened one, whatever is done with them. -/
theorem open_refines_load (hcalm : ∀ name edition, (streams.get (.named name edition)).Calm)
    (m n : Nat) (name stream : String) (codec : Codec) :
    let opening := step (.openDocument name stream codec) { streams, roots := ⟨m⟩ }
    let loading := step (.loadDocument name (streams.get (streams.current stream)).bytes codec)
      { streams, roots := ⟨n⟩ }
    let looks := answersTo (visits opening.2 name) opening.2
    (loading.1.isFailure = false ↔
      opening.1.isFailure = false ∧ ∀ answer ∈ looks, answer.isFailure = false) ∧
    (opening.1.isFailure = true → loading.1 = opening.1) ∧
    (opening.1.isFailure = false → loading.1.isFailure = true →
      looks.find? Answer.isFailure = some loading.1) ∧
    (loading.1.isFailure = false → ∀ ops, (∀ op ∈ ops, op.leavesStreams = true) →
      AnswersAgree ⟨m, n⟩ ops (run ops opening.2).1 (run ops loading.2).1) := by
  intro opening loading looks
  have hends : Ends (startingFrom streams m n) name opening loading := ends_open_load hcalm
  cases hends with
  | unopened hopening hloading =>
    rw [hopening, hloading]
    refine ⟨⟨?_, ?_⟩, fun _ => rfl, ?_, ?_⟩
    · exact fun hfalse => nomatch hfalse
    · exact fun hfalse => nomatch hfalse.1
    · exact fun hfalse => nomatch hfalse
    · exact fun hfalse => nomatch hfalse
  | @unloaded document error i hopening hloading hfound hholds hfails =>
    have hfirst : looks.find? Answer.isFailure = some (.failed error) :=
      find?_of_brokenAt hfound hholds hfails
    rw [hopening, hloading]
    refine ⟨⟨?_, ?_⟩, ?_, fun _ _ => hfirst, ?_⟩
    · exact fun hfalse => nomatch hfalse
    · intro hlooks
      exact absurd (hlooks.2 _ (List.mem_of_find?_eq_some hfirst)) Bool.false_ne_true.symm
    · exact fun hfalse => nomatch hfalse
    · exact fun hfalse => nomatch hfalse
  | @loaded document contents hopening hloading hfound hshows hpairs =>
    have hlooks : ∀ answer ∈ looks, answer.isFailure = false :=
      answers_of_shows hfound hpairs.streams.holds hshows
    rw [hopening, hloading]
    refine ⟨⟨fun _ => ⟨rfl, hlooks⟩, fun _ => rfl⟩, ?_, ?_, ?_⟩
    · exact fun hfalse => nomatch hfalse
    · exact fun _ hfalse => nomatch hfalse
    · intro _ ops hops
      exact answersAgree_run hops hpairs

/-- An entry with a secret identity. -/
theorem open_refines_load_secret : ∃ streams : Streams,
    (∀ name edition, (streams.get (.named name edition)).Calm) ∧
    (streams.get (streams.current "s")).bytes = [0, 2, 16, 7, 2, 16, 1, 3, 10, 1, 4, 3, 0, 0, 0] ∧
    (step (.loadDocument "d" (streams.get (streams.current "s")).bytes {})
      { streams, roots := ⟨3⟩ }).1 =
      .root ⟨4⟩ ∧
    ∀ ops : List Op, (∀ op ∈ ops, op.leavesStreams = true) →
      AnswersAgree ⟨0, 3⟩ ops
        (run ops (step (.openDocument "d" "s" {}) { streams, roots := ⟨0⟩ }).2).1
        (run ops (step (.loadDocument "d" (streams.get (streams.current "s")).bytes {})
          { streams, roots := ⟨3⟩ }).2).1 := by
  -- The streams are hidden before the theorem is applied, so that nothing is evaluated there.
  obtain ⟨streams, hcalm, hbytes, hloading⟩ : ∃ streams : Streams,
      (∀ name edition, (streams.get (.named name edition)).Calm) ∧
      (streams.get (streams.current "s")).bytes = [0, 2, 16, 7, 2, 16, 1, 3, 10, 1, 4, 3, 0, 0, 0] ∧
      (step (.loadDocument "d" (streams.get (streams.current "s")).bytes {})
        { streams, roots := ⟨3⟩ }).1 =
        .root ⟨4⟩ := by
    refine ⟨Streams.set {} (.named "s" 0)
      { content := #[0, 2, 16, 7, 2, 16, 1, 3, 10, 1, 4, 3, 0, 0, 0] },
      fun name edition => ?_, by decide +kernel, by decide +kernel⟩
    rw [Streams.get_set]
    split
    · exact Stream.calm_mk _ _
    · exact Stream.calm_mk _ _
  obtain ⟨-, -, -, hagree⟩ := open_refines_load hcalm 0 3 "d" "s" {}
  refine ⟨streams, hcalm, hbytes, hloading, hagree ?_⟩
  rw [hloading]
  rfl

end Refinement

end Workspace
end FramedTree
