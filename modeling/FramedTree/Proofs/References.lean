import FramedTree.Proofs.Canonical
import FramedTree.Proofs.Resolution

/-! # What references mean

The reference to an identity leads to that identity. A reference that is kept in a document leads to
the same in every copy that is read from the document's saved form: to an identity with the same
fields, or to nothing in both, whatever its coordinates are.
-/

namespace FramedTree

variable {library : Library} {contents : List EntryContent}

inductive RefSlot where
  | approver
  | reviewer (k : Nat)
  deriving DecidableEq, Repr

def EntryContent.pathAt? (content : EntryContent) : RefSlot → Option Path
  | .approver => content.approver
  | .reviewer k => content.reviewers[k]?

namespace Entry

variable {entry : Entry}

def refAt? (entry : Entry) : RefSlot → Option NodeRef
  | .approver => entry.approver
  | .reviewer k => entry.reviewers[k]?

private theorem mem_references_of_refAt? {slot : RefSlot} {ref : NodeRef}
    (h : entry.refAt? slot = some ref) :
    ref ∈ entry.references := by
  cases slot with
  | approver => exact List.mem_append_left _ (Option.mem_toList.2 h)
  | reviewer k => exact List.mem_append_right _ (List.mem_of_getElem? h)

private theorem Shows.refAt?_path {content : EntryContent} (h : entry.Shows library content)
    (slot : RefSlot) :
    (entry.refAt? slot).map NodeRef.path = content.pathAt? slot := by
  cases slot with
  | approver => exact h.approver
  | reviewer k => rw [EntryContent.pathAt?, ← h.reviewers, List.getElem?_map, refAt?]

end Entry

namespace Document

variable {document : Document} {streams : Streams} {node : Node} {header : IdentityHeader}

private theorem Node.follow_location (h : node.index < 2 ^ 64) :
    Node.document.follow node.location.steps = some node := by
  have hindex : node.index.toUInt64.toNat = node.index := UInt64.toNat_ofNat_of_lt' h
  cases node with
  | document => rfl
  | entry i => exact congrArg (fun i => some (Node.entry i)) hindex
  | identification i => exact congrArg (fun i => some (Node.identification i)) hindex
  | secretIdentity i => exact congrArg (fun i => some (Node.secretIdentity i)) hindex

section Own

variable (hintact : document.Intact)

include hintact

private theorem found_eq {access : Access Streams Document (Option Identity)}
    {found : Option Identity} {after : Document} {streams' : Streams}
    (hkeeps : Keeps (OnNode Grows) access)
    (hrun : access (document, streams) = .ok found (after, streams'))
    (hfound : found.map Identity.header = some header)
    (hplace : ∀ identity, found = some identity → after.identityAt? node = some identity) :
    found = some ⟨⟨document.stamp.root, node.location⟩, header⟩ ∧ after.stamp = document.stamp ∧
    after.Intact := by
  have hgrows := hkeeps (document, streams)
  rw [hrun] at hgrows
  have hafter : after.Intact := hgrows.intact hintact
  obtain ⟨⟨stamp, found⟩, rfl, rfl⟩ := Option.map_eq_some_iff.1 hfound
  have hstamp := hafter.stampOf_eq (stampOf_of_identityAt? (hplace _ rfl))
  have hsame : after.stamp = document.stamp := hgrows.stamp_eq
  dsimp only at hstamp
  rw [hstamp, hsame]
  exact ⟨rfl, rfl, hafter⟩

variable (hshows : document.Shows library contents) (hstreams : streams.Holds library)

include hshows hstreams

private theorem resolveIdentity_own (hheader : Node.headerIn contents node = some header)
    (hindex : node.index < 2 ^ 64) : ∃ after,
    resolveIdentity ⟨document.stamp.root, node.location⟩ (document, streams) =
      .ok (some ⟨⟨document.stamp.root, node.location⟩, header⟩) after ∧
    after.1.identityAt? node = some ⟨⟨document.stamp.root, node.location⟩, header⟩ := by
  obtain ⟨found, after, streams', hrun, ⟨hfound, -⟩, -⟩ :=
    gives_resolveIdentity ⟨document.stamp.root, node.location⟩ document streams
      ⟨rfl, hshows⟩ hstreams
  have hfollow := Node.follow_location hindex
  -- What is found stands where the steps lead, and that is the node itself.
  have hplace (identity : Identity) (h : found = some identity) :
    after.identityAt? node = some identity := by
    obtain ⟨node', hfollow', hidentity⟩ := resolveIdentity_ok rfl (h ▸ hrun)
    cases hfollow.symm.trans hfollow'
    exact hidentity
  rw [hfollow, Option.bind_some, hheader] at hfound
  obtain ⟨hsame, -, -⟩ := found_eq hintact (keeps_resolveIdentity _) hrun hfound hplace
  exact ⟨(after, streams'), hsame ▸ hrun, hplace _ hsame⟩

/-- Whatever identity is found at a node, the reference to it leads back to it, before and after it
was looked at. -/
private theorem own_reference (hindex : node.index < 2 ^ 64) :
    ∃ found seen, node.identity (document, streams) = .ok found seen ∧
      found.map Identity.header = node.headerIn contents ∧
      ∀ identity, found = some identity → identity.stamp = ⟨document.stamp.root, node.location⟩ ∧
        (∃ after, resolveIdentity identity.stamp.toRef (document, streams) =
          .ok (some identity) after ∧ after.1.identityAt? node = some identity) ∧
        ∃ after, resolveIdentity identity.stamp.toRef seen = .ok (some identity) after ∧
          after.1.identityAt? node = some identity := by
  obtain ⟨found, seen, streams', hrun, ⟨hfound, hseen⟩, hfollows⟩ :=
    gives_nodeIdentity node document streams hshows hstreams
  refine ⟨found, (seen, streams'), hrun, hfound, ?_⟩
  rintro identity rfl
  have hheader : node.headerIn contents = some identity.header := hfound.symm
  obtain ⟨hidentity, hstamp, hwhole⟩ :=
    found_eq hintact (keeps_nodeIdentity node) hrun rfl fun _ h => Node.identity_ok (h ▸ hrun)
  obtain ⟨after, hresolve, hat⟩ := resolveIdentity_own hintact hshows hstreams hheader hindex
  obtain ⟨after', hresolve', hat'⟩ :=
    resolveIdentity_own hwhole hseen hfollows.holds hheader hindex
  rw [hstamp] at hresolve' hat'
  have hself : identity = ⟨⟨document.stamp.root, node.location⟩, identity.header⟩ :=
    Option.some.inj hidentity
  rw [← hself] at hresolve hat hresolve' hat'
  have hplace : identity.stamp = ⟨document.stamp.root, node.location⟩ :=
    congrArg Identity.stamp hself
  rw [hplace]
  exact ⟨rfl, ⟨after, hresolve, hat⟩, after', hresolve', hat'⟩

end Own

/-- The reference that the entry with number `i` keeps in a slot, if there is one. -/
def refAt (i : Nat) (slot : RefSlot) : Access Streams Document (Option NodeRef) := do
  return (← onEntry i Access.node).bind (Entry.refAt? · slot)

private theorem keeps_refAt (i : Nat) (slot : RefSlot) : Keeps (OnNode Grows) (refAt i slot) :=
  Keeps.bind (keeps_onEntry i Keeps.node) fun _ => Keeps.pure _

private theorem gives_refAt (i : Nat) (slot : RefSlot) :
    Gives library (Shows library · contents) (refAt i slot) fun found document =>
      found.map NodeRef.path = contents[i]?.bind (EntryContent.pathAt? · slot) ∧
        document.Shows library contents := by
  have hnode (content : EntryContent) :
    Gives library (Entry.Shows library · content) Access.node fun found entry =>
      (found.refAt? slot).map NodeRef.path = content.pathAt? slot ∧
        entry.Shows library content := by
    apply Gives.mono Gives.node
    rintro found entry ⟨rfl, hentry⟩
    exact ⟨hentry.refAt?_path slot, hentry⟩
  refine Gives.bind (gives_onEntry_rel hnode) fun found => Gives.of_and fun hfound =>
    Gives.pure fun document hdocument => ⟨?_, hdocument⟩
  generalize contents[i]? = content at hfound ⊢
  cases hfound with
  | none => rfl
  | some hpath => exact hpath

private theorem refAt_root {i : Nat} {slot : RefSlot} {ref : NodeRef} {seen : Document}
    {streams' : Streams} (hintact : document.Intact)
    (h : refAt i slot (document, streams) = .ok (some ref) (seen, streams')) :
    ref.root = seen.stamp.root := by
  have hgrows := keeps_refAt i slot (document, streams)
  rw [h] at hgrows
  obtain ⟨found, state, hfound, hpure⟩ := bind_ok h
  injection hpure with href hstate
  subst hstate
  obtain ⟨entry, rfl, href⟩ := Option.bind_eq_some_iff.1 href
  obtain ⟨entry', between, entry'', hnode, hentry⟩ := onEntry_ok hfound
  cases hnode
  exact Workspace.references_root (hgrows.intact hintact) hentry
    (Entry.mem_references_of_refAt? href)

/-- The references in the same places of two documents, each one of its own tree, lead to identities
with the same fields or both to nothing. -/
def SameReferences (left right : Document × Streams) : Prop :=
  ∀ i slot, ∃ found seen found' seen',
    refAt i slot left = .ok found seen ∧ refAt i slot right = .ok found' seen' ∧
    Option.Rel (fun ref ref' => ref.root = left.1.stamp.root ∧ ref'.root = right.1.stamp.root ∧
      ref.path = ref'.path ∧
      ∃ identity after identity' after', resolveIdentity ref seen = .ok identity after ∧
        resolveIdentity ref' seen' = .ok identity' after' ∧
        Identity.sameOption identity identity' = true)
      found found'

private theorem refAt_resolves (hintact : document.Intact)
    (hshows : document.Shows library contents) (hstreams : streams.Holds library) (i : Nat)
    (slot : RefSlot) :
    ∃ found seen, refAt i slot (document, streams) = .ok found seen ∧
      found.map NodeRef.path = contents[i]?.bind (EntryContent.pathAt? · slot) ∧
      ∀ ref, found = some ref → ref.root = document.stamp.root ∧
        ∃ identity after, resolveIdentity ref seen = .ok identity after ∧
          identity.map Identity.header =
            (Node.document.follow ref.path.steps).bind (Node.headerIn contents) := by
  obtain ⟨found, seen, streams', hrun, ⟨hpath, hseen⟩, hfollows⟩ :=
    gives_refAt i slot document streams hshows hstreams
  have hgrows := keeps_refAt i slot (document, streams)
  rw [hrun] at hgrows
  refine ⟨found, (seen, streams'), hrun, hpath, ?_⟩
  rintro ref rfl
  have hroot := refAt_root hintact hrun
  obtain ⟨identity, after, streams'', hresolve, ⟨hidentity, -⟩, -⟩ :=
    gives_resolveIdentity ref seen streams' ⟨hroot, hseen⟩ hfollows.holds
  exact ⟨hroot.trans (congrArg Stamp.root hgrows.stamp_eq), identity, _, hresolve, hidentity⟩

private theorem sameReferences_of_shows {library' : Library} {document' : Document}
    {streams' : Streams} (hintact : document.Intact) (hshows : document.Shows library contents)
    (hstreams : streams.Holds library) (hintact' : document'.Intact)
    (hshows' : document'.Shows library' contents) (hstreams' : streams'.Holds library') :
    SameReferences (document, streams) (document', streams') := by
  intro i slot
  obtain ⟨found, seen, hrun, hpath, hresolves⟩ := refAt_resolves hintact hshows hstreams i slot
  obtain ⟨found', seen', hrun', hpath', hresolves'⟩ :=
    refAt_resolves hintact' hshows' hstreams' i slot
  refine ⟨found, seen, found', seen', hrun, hrun', ?_⟩
  rw [← hpath'] at hpath
  cases found with
  | none =>
    cases found' with
    | none => exact .none
    | some ref' => cases hpath
  | some ref =>
    cases found' with
    | none => cases hpath
    | some ref' =>
      have hsame : ref.path = ref'.path := Option.some.inj hpath
      obtain ⟨hroot, identity, after, hresolve, hidentity⟩ := hresolves ref rfl
      obtain ⟨hroot', identity', after', hresolve', hidentity'⟩ := hresolves' ref' rfl
      refine .some ⟨hroot, hroot', hsame, identity, after, identity', after', hresolve,
        hresolve', ?_⟩
      rw [Identity.sameOption_iff, hidentity, hidentity', hsame]

end Document

namespace Workspace

/-- The references of every copy that is read from the saved form of a document lead to the same as
those of the document, as it was before it was saved and as it is left then. -/
private theorem copies_sameReferences {workspace saved reader : Workspace} {name copy : String}
    {document : Document} {codec : Codec} {bytes : Bytes} {op : Op}
    (hdocument : workspace.documents.find? name = some document)
    (hshows : document.Shows library contents) (hstreams : workspace.streams.Holds library)
    (hscratch : library .scratch = none) (hsound : Sound workspace)
    (hsave : step (.saveToBytes name codec) workspace = (.bytes bytes, saved))
    (hlength : bytes.length < 2 ^ 64) (hreads : ReadsFrom reader copy bytes codec op) :
    ∃ document' copied, saved.documents.find? name = some document' ∧
      (step op reader).2.documents.find? copy = some copied ∧
      Document.SameReferences (document, workspace.streams)
        (copied, (step op reader).2.streams) ∧
      Document.SameReferences (document', saved.streams)
        (copied, (step op reader).2.streams) := by
  have hintact : document.Intact := hsound.document hdocument
  have hanswer : (step (.saveToBytes name codec) workspace).1 = .bytes bytes :=
    congrArg Prod.fst hsave
  obtain ⟨document', streams', contents', hafter, hhas, hwrite⟩ :=
    saveToBytes_bytes hsound hanswer
  rw [hsave] at hafter
  dsimp only at hafter
  rw [saveToBytes_of_shows hdocument hshows hstreams hscratch] at hanswer
  have hstored := storedIn_of_savedAnswer hanswer
  -- The document as it was left has the contents that it showed before, since both have the same
  -- saved form.
  obtain rfl : contents' = contents := (Document.storedIn_of_write hwrite).unique hstored hlength
  have hfound' : saved.documents.find? name = some document' := by
    rw [hafter]
    exact Table.find?_set_self ..
  have hintact' : document'.Intact := by
    have hsaved := sound_step (.saveToBytes name codec) hsound
    rw [hsave] at hsaved
    exact hsaved.document hfound'
  obtain ⟨library', copied, streams'', hstep, hcopied, hholds, -⟩ := hreads.gives hlength hstored
  have hcopy : (step op reader).2.documents.find? copy = some copied := by
    rw [hstep]
    exact Table.find?_set_self ..
  have hintact'' : copied.Intact := hreads.intact (congrArg Prod.fst hstep) hcopy
  refine ⟨document', copied, hfound', hcopy, ?_, ?_⟩
  · rw [hstep]
    exact Document.sameReferences_of_shows hintact hshows hstreams hintact'' hcopied hholds
  · rw [hstep]
    exact Document.sameReferences_of_shows hintact' hhas.shows
      (Streams.holds_none _) hintact'' hcopied hholds

/-- Whatever a document went through, if all of it can be loaded, the reference to any of its
identities leads to that identity; and once the document has been saved, the references of every
copy that is read from its saved form lead to the same as the references in the same places of the
document, before and after it was saved. -/
theorem references_keep_meaning {ops : List Op} {name : String} {document : Document}
    {library : Library} {contents : List EntryContent}
    (hdocument : (run ops {}).2.documents.find? name = some document)
    (hshows : document.Shows library contents) (hstreams : (run ops {}).2.streams.Holds library)
    (hscratch : library .scratch = none) :
    (∀ node : Document.Node, node.index < 2 ^ 64 →
      ∃ found seen, node.identity (document, (run ops {}).2.streams) = .ok found seen ∧
        found.map Identity.header = node.headerIn contents ∧
        ∀ identity, found = some identity → identity.stamp = ⟨document.stamp.root, node.location⟩ ∧
          (∃ after, Document.resolveIdentity identity.stamp.toRef
            (document, (run ops {}).2.streams) =
              .ok (some identity) after ∧ after.1.identityAt? node = some identity) ∧
          ∃ after, Document.resolveIdentity identity.stamp.toRef seen = .ok (some identity) after ∧
            after.1.identityAt? node = some identity) ∧
    ∀ codec bytes saved, step (.saveToBytes name codec) (run ops {}).2 = (.bytes bytes, saved) →
      bytes.length < 2 ^ 64 → ∀ reader copy op, ReadsFrom reader copy bytes codec op →
      ∃ document' copied, saved.documents.find? name = some document' ∧
        (step op reader).2.documents.find? copy = some copied ∧
        Document.SameReferences (document, (run ops {}).2.streams)
          (copied, (step op reader).2.streams) ∧
        Document.SameReferences (document', saved.streams)
          (copied, (step op reader).2.streams) := by
  have hsound : Sound (run ops {}).2 := sound_run ops sound_empty
  have hintact : document.Intact := hsound.document hdocument
  constructor
  · exact fun node hindex => Document.own_reference hintact hshows hstreams hindex
  · exact fun codec bytes saved hsave hlength reader copy op hreads =>
      copies_sameReferences hdocument hshows hstreams hscratch hsound hsave hlength hreads

/-- A document whose approver is its own identification and whose reviewer is nowhere. -/
theorem references_keep_meaning_dangling :
    ∃ workspace document identity seen after bytes saved copied,
      workspace = (run [.newDocument "d", .addEntry "d",
        .changeIdentity (.identification (.inDocument "d" 0)) (.setFirstName (some "A")),
        .makeRef (.document "d") [1, 0, 1, 0] "r",
        .changeEntry (.inDocument "d" 0) (.setApprover "r"),
        .makeRef (.document "d") [1, 7, 2] "s",
        .changeEntry (.inDocument "d" 0) (.addReviewer "s")] {}).2 ∧
      workspace.documents.find? "d" = some document ∧
      (Document.Node.identification 0).identity (document, workspace.streams) =
        .ok (some identity) seen ∧
      Document.resolveIdentity identity.stamp.toRef seen = .ok (some identity) after ∧
      step (.saveToBytes "d" {}) workspace = (.bytes bytes, saved) ∧
      (step (.loadDocument "copy" bytes {}) saved).2.documents.find? "copy" = some copied ∧
      Document.SameReferences (document, workspace.streams)
        (copied, (step (.loadDocument "copy" bytes {}) saved).2.streams) := by
  let ops : List Op := [.newDocument "d", .addEntry "d",
    .changeIdentity (.identification (.inDocument "d" 0)) (.setFirstName (some "A")),
    .makeRef (.document "d") [1, 0, 1, 0] "r", .changeEntry (.inDocument "d" 0) (.setApprover "r"),
    .makeRef (.document "d") [1, 7, 2] "s", .changeEntry (.inDocument "d" 0) (.addReviewer "s")]
  let identity : Identity := { stamp := ⟨⟨1⟩, ⟨[1, 0, 1, 0]⟩⟩, header := { firstName := some "A" } }
  let entry : Entry :=
    { stamp := ⟨⟨1⟩, ⟨[1, 0]⟩⟩, identification := { owned := some identity }
      approver := some ⟨⟨1⟩, ⟨[1, 0, 1, 0]⟩⟩, reviewers := [⟨⟨1⟩, ⟨[1, 7, 2]⟩⟩] }
  let document : Document := { stamp := ⟨⟨1⟩, {}⟩, entries := ⟨#[some { owned := some entry }]⟩ }
  let content : EntryContent :=
    { identification := { firstName := some "A" }, secretIdentity := none
      approver := some ⟨[1, 0, 1, 0]⟩, reviewers := [⟨[1, 7, 2]⟩] }
  let bytes : Bytes :=
    [3, 10, 1, 65, 15, 26, 6, 10, 4, 1, 0, 1, 0, 34, 5, 10, 3, 1, 7, 2, 3, 10, 1, 4, 3, 0, 0, 0]
  have hanswer : (step (.saveToBytes "d" {}) (run ops {}).2).1 = .bytes bytes := by decide +kernel
  have hdocument : (run ops {}).2.documents.find? "d" = some document := by decide +kernel
  have hhas : document.Has [content] := by
    refine ⟨rfl, fun i => ?_⟩
    cases i with
    | zero => exact .some ⟨entry, rfl, ⟨identity, rfl, rfl⟩, .none, rfl, rfl⟩
    | succ i => exact .none
  obtain ⟨hown, hsaves⟩ :=
    references_keep_meaning hdocument (@Document.Has.shows (fun _ => none) _ _ hhas)
    (Streams.holds_none _) rfl
  obtain ⟨found, seen, hidentity, hheader, hresolves⟩ := hown (.identification 0) (by decide)
  obtain ⟨identity, rfl, -⟩ := Option.map_eq_some_iff.1 hheader
  obtain ⟨-, -, after, hresolve, -⟩ := hresolves identity rfl
  have hsaved : step (.saveToBytes "d" {}) (run ops {}).2 = (.bytes bytes, _) :=
    Prod.ext hanswer rfl
  obtain ⟨document', copied, -, hcopied, hsame, -⟩ :=
    hsaves {} bytes _ hsaved (by decide) _ "copy" _ .bytes
  exact ⟨_, document, identity, seen, after, bytes, _, copied, rfl, hdocument, hidentity, hresolve,
    hsaved, hcopied, hsame⟩

end Workspace
end FramedTree
