import FramedTree.Proofs.Contents
import FramedTree.Proofs.WorkspaceRuns

/-! # Documents that show the same

As long as the known streams hold their bytes, looking at documents that show some contents gives
these contents, over and over. Two documents are found equal exactly if they show the same contents;
these also settle the text of a document.
-/

namespace FramedTree

variable {ν α β : Type} {library : Library}

/-- The slots of a row without gaps are numbered from 0 on. -/
theorem Slots.numbers_eq {slots : Slots ν} (h : ∀ i < slots.size, (slots.get? i).isSome) :
    slots.toList.map (·.1) = List.range slots.size := by
  have hpairs : ∀ pair ∈ slots.cells.toList.zipIdx, pair.1.isSome = true := by
    intro pair hpair
    exact Slots.isSome_of_mem_cells h pair.1 (List.fst_mem_of_mem_zipIdx hpair)
  rw [Slots.map_fst_toList, List.filter_eq_self.2 hpairs, List.zipIdx_map_snd, List.range_eq_range',
    Slots.length_cells]

private theorem Slots.Lists.numbers {Q : Nat → ν → α → Prop} {slots : Slots ν} {items : List α}
    (h : slots.Lists Q items) : slots.toList.map (·.1) = List.range items.length := by
  rw [Slots.numbers_eq, h.size_eq]
  intro i hi
  rw [h.size_eq] at hi
  obtain ⟨value, hvalue, -⟩ := h.item (List.getElem?_eq_getElem hi)
  rw [hvalue]
  rfl

/-- A row of numbers beside itself. -/
theorem mem_zip_range {n : Nat} {pair : Nat × Nat} :
    pair ∈ (List.range n).zip (List.range n) ↔ pair.1 = pair.2 ∧ pair.1 < n := by
  rw [List.mem_iff_getElem]
  constructor
  · rintro ⟨k, hk, rfl⟩
    simpa using hk
  · rintro ⟨hsame, hlt⟩
    obtain ⟨i, j⟩ := pair
    dsimp only at hsame hlt
    subst hsame
    exact ⟨i, by simpa using hlt, by simp⟩

theorem Identity.sameOption_iff {secret other : Option Identity} :
    sameOption secret other = true ↔ secret.map header = other.map header := by
  cases secret <;> cases other <;> simp [sameOption, sameContent]

namespace Entry

variable {entry : Entry} {identification : Identity} {secret : Option Identity}

/-- The comparison of two entries compares what they hold. -/
theorem same_iff {other : Entry} {theirs : Identity} {theirSecret : Option Identity} :
    (identification.sameContent theirs && Identity.sameOption secret theirSecret &&
      entry.sameReferences other) = true ↔
      entry.contentWith identification secret = other.contentWith theirs theirSecret := by
  simp only [Bool.and_eq_true, Identity.sameOption_iff, Identity.sameContent, sameReferences,
    beq_iff_eq, contentWith, EntryContent.mk.injEq, and_assoc]

end Entry

namespace Workspace

/-- The contents of those documents that are known. -/
abbrev Catalogue := String → Option (List EntryContent)

variable {catalogue : Catalogue} {contents : List EntryContent}

/-- The known streams hold their bytes, and the known documents show their contents. -/
structure Exhibits (library : Library) (catalogue : Catalogue) (workspace : Workspace) : Prop where
  holds : workspace.streams.Holds library
  shown : ∀ name contents, catalogue name = some contents →
    ∃ document, workspace.documents.find? name = some document ∧ document.Shows library contents

private theorem Exhibits.onDocument {workspace : Workspace} {name : String}
    {access : Access Streams Document β} {P : β → Document → Prop}
    (h : Exhibits library catalogue workspace) (hname : catalogue name = some contents)
    (haccess : Gives library (Document.Shows library · contents) access P) :
    ∃ value document streams, Workspace.onDocument name access workspace = .ok (some value)
        { workspace with streams, documents := workspace.documents.set name document } ∧
      P value document ∧ streams.Holds library := by
  obtain ⟨document, hdocument, hshows⟩ := h.shown name contents hname
  obtain ⟨value, after, streams, hrun, hvalue, hstreams⟩ :=
    haccess document workspace.streams hshows h.holds
  refine ⟨value, after, streams, ?_, hvalue, hstreams.holds⟩
  rw [onDocument_apply hdocument, map_apply, hrun]
  rfl

private theorem Exhibits.set {workspace : Workspace} {name : String} {streams : Streams}
    {document : Document} (h : Exhibits library catalogue workspace)
    (hname : catalogue name = some contents) (hstreams : streams.Holds library)
    (hdocument : document.Shows library contents) :
    Exhibits library catalogue
      { workspace with streams, documents := workspace.documents.set name document } := by
  refine ⟨hstreams, fun other shown hother => ?_⟩
  rw [Table.find?_set]
  split
  case isTrue heq =>
    subst heq
    cases hname.symm.trans hother
    exact ⟨document, rfl, hdocument⟩
  case isFalse => exact h.shown other shown hother

/-- An activity that never fails where the known documents show their contents, and whose result has
a property. -/
def Finds (library : Library) (catalogue : Catalogue)
    (activity : StateM Workspace α) (A : α → Prop) : Prop :=
  ∀ workspace, Exhibits library catalogue workspace →
    A (activity workspace).1 ∧ Exhibits library catalogue (activity workspace).2

namespace Finds

variable {A : α → Prop} {B : β → Prop}

private theorem pure {value : α} (h : A value) : Finds library catalogue (Pure.pure value) A :=
  fun _ hworkspace => ⟨h, hworkspace⟩

private theorem bind {activity : StateM Workspace α} {next : α → StateM Workspace β}
    (h : Finds library catalogue activity A)
    (hnext : ∀ value, A value → Finds library catalogue (next value) B) :
    Finds library catalogue (activity >>= next) B := by
  intro workspace hworkspace
  obtain ⟨hvalue, hbetween⟩ := h workspace hworkspace
  exact hnext _ hvalue _ hbetween

end Finds

/-- A place where a node with a property is found whenever the known documents show their
contents. -/
def Offers (library : Library) (catalogue : Catalogue) (V : ν → Prop)
    (spot : Spot Workspace ν) : Prop :=
  ∀ {β : Type} {A : β → Prop} {access : Access Streams ν β},
    Gives library V access (fun result node => A result ∧ V node) →
    ∀ workspace, Exhibits library catalogue workspace →
      ∃ value after, spot.run access workspace = .ok (some value) after ∧ A value ∧
        Exhibits library catalogue after

private theorem offers_document {name : String} (hname : catalogue name = some contents) :
    Offers library catalogue (Document.Shows library · contents) (documentSpot name) := by
  intro β A access haccess workspace hworkspace
  obtain ⟨value, document, streams, hrun, ⟨hvalue, hdocument⟩, hstreams⟩ :=
    hworkspace.onDocument hname haccess
  exact ⟨value, _, hrun, hvalue, hworkspace.set hname hstreams hdocument⟩

private theorem offers_entry {spot : Spot Workspace Document} {i : Nat} {content : EntryContent}
    (h : Offers library catalogue (Document.Shows library · contents) spot)
    (hcontent : contents[i]? = some content) :
    Offers library catalogue (Entry.Shows library · content) (spot.entry i) := by
  intro β A access haccess workspace hworkspace
  obtain ⟨result, after, hrun, ⟨value, rfl, hvalue⟩, hafter⟩ :=
    h (Document.gives_onEntry hcontent haccess) workspace hworkspace
  refine ⟨value, after, ?_, hvalue, hafter⟩
  rw [Spot.entry]
  dsimp only
  rw [bind_apply, hrun]
  rfl

private theorem Offers.look {V : ν → Prop} {spot : Spot Workspace ν} {A : β → Prop}
    {access : Access Streams ν β} (h : Offers library catalogue V spot)
    (haccess : Gives library V access fun result node => A result ∧ V node) :
    Finds library catalogue (spot.look access) fun result =>
      ∃ value, result = some value ∧ A value := by
  intro workspace hworkspace
  obtain ⟨value, after, hrun, hvalue, hafter⟩ := h haccess workspace hworkspace
  unfold Spot.look
  rw [hrun]
  exact ⟨⟨value, rfl, hvalue⟩, hafter⟩

section Comparing

private theorem finds_entryEqual {left right : Spot Workspace Entry}
    {content content' : EntryContent}
    (hleft : Offers library catalogue (Entry.Shows library · content) left)
    (hright : Offers library catalogue (Entry.Shows library · content') right) :
    Finds library catalogue (Entry.equal left right) fun same =>
      same = true ↔ content = content' := by
  refine Finds.bind (hleft.look Entry.gives_onIdentification) ?_
  rintro _ ⟨mine, rfl, hmine⟩
  refine Finds.bind (hright.look Entry.gives_onIdentification) ?_
  rintro _ ⟨theirs, rfl, htheirs⟩
  refine Finds.bind (hleft.look Entry.gives_secretAndEntry) ?_
  rintro _ ⟨⟨mySecret, entry⟩, rfl, hmySecret, hentry⟩
  refine Finds.bind (hright.look Entry.gives_secretAndEntry) ?_
  rintro _ ⟨⟨theirSecret, other⟩, rfl, htheirSecret, hother⟩
  apply Finds.pure
  rw [Entry.same_iff, hentry.contentWith_eq hmine hmySecret,
    hother.contentWith_eq htheirs htheirSecret]

variable {contents' : List EntryContent} {left right : Spot Workspace Document}
  (hleft : Offers library catalogue (Document.Shows library · contents) left)
  (hright : Offers library catalogue (Document.Shows library · contents') right)

include hleft

private theorem finds_entryNumbers :
    Finds library catalogue (Document.entryNumbers left)
      (· = some (List.range contents.length)) := by
  have hlist : Gives library (Document.Shows library · contents) Document.entryList
      fun _ document => True ∧ document.Shows library contents :=
    Gives.mono Document.gives_entryList fun _ _ hdocument => ⟨trivial, hdocument⟩
  have hnode : Gives library (Document.Shows library · contents) Access.node
      fun value document => value.Shows library contents ∧ document.Shows library contents := by
    apply Gives.mono Gives.node
    rintro value document ⟨rfl, hdocument⟩
    exact ⟨hdocument, hdocument⟩
  refine Finds.bind (hleft.look hlist) ?_
  rintro _ ⟨entries, rfl, -⟩
  refine Finds.bind (hleft.look hnode) ?_
  rintro _ ⟨document, rfl, hdocument⟩
  apply Finds.pure
  rw [hdocument.numbers]

include hright

private theorem finds_allEqual {pairs : List (Nat × Nat)}
    (h : ∀ pair ∈ pairs, pair.1 < contents.length ∧ pair.2 < contents'.length) :
    Finds library catalogue (Entry.allEqual left right pairs) fun same =>
      same = true ↔ ∀ pair ∈ pairs, contents[pair.1]? = contents'[pair.2]? := by
  induction pairs with
  | nil => exact Finds.pure (by simp)
  | cons pair pairs ih =>
    obtain ⟨⟨hi, hj⟩, hrest⟩ := List.forall_mem_cons.1 h
    have hcontent := List.getElem?_eq_getElem hi
    have hcontent' := List.getElem?_eq_getElem hj
    refine Finds.bind
      (finds_entryEqual (offers_entry hleft hcontent) (offers_entry hright hcontent')) ?_
    intro same hsame
    cases same with
    | true =>
      intro workspace hworkspace
      obtain ⟨hothers, hafter⟩ := ih hrest workspace hworkspace
      refine ⟨hothers.trans ?_, hafter⟩
      simp [hcontent, hcontent', hsame.1 rfl]
    | false =>
      apply Finds.pure
      have hdiffer : contents[pair.1]? ≠ contents'[pair.2]? := by
        rw [hcontent, hcontent']
        exact fun heq => Bool.false_ne_true (hsame.2 (Option.some.inj heq))
      simp [hdiffer]

private theorem finds_documentEqual :
    Finds library catalogue (Document.equal left right) fun same =>
      same = true ↔ contents = contents' := by
  refine Finds.bind (finds_entryNumbers hleft) ?_
  rintro _ rfl
  refine Finds.bind (finds_entryNumbers hright) ?_
  rintro _ rfl
  dsimp only
  rw [List.length_range, List.length_range]
  by_cases hlength : contents.length = contents'.length
  · rw [if_pos hlength]
    intro workspace hworkspace
    have hpairs : ∀ pair ∈ (List.range contents.length).zip (List.range contents'.length),
        pair.1 < contents.length ∧ pair.2 < contents'.length := by
      intro pair hpair
      rw [← hlength] at hpair ⊢
      obtain ⟨hsame, hlt⟩ := mem_zip_range.1 hpair
      exact ⟨hlt, hsame ▸ hlt⟩
    obtain ⟨hsame, hafter⟩ := finds_allEqual hleft hright hpairs workspace hworkspace
    refine ⟨hsame.trans ?_, hafter⟩
    rw [← hlength]
    constructor
    · intro hall
      apply List.ext_getElem? 
      intro i
      by_cases hi : i < contents.length
      · exact hall (i, i) (mem_zip_range.2 ⟨rfl, hi⟩)
      · rw [List.getElem?_eq_none (by omega), List.getElem?_eq_none (by omega)]
    · rintro rfl pair hpair
      rw [(mem_zip_range.1 hpair).1]
  · rw [if_neg hlength]
    apply Finds.pure
    constructor
    · exact nofun
    · rintro rfl
      exact (hlength rfl).elim

end Comparing

variable {workspace : Workspace}

theorem step_eq {op : Op} {answer : Answer} {after : Workspace}
    (h : perform op workspace = .ok answer after) : step op workspace = (answer, after) := by
  rw [step, h]

/-- Two documents that are there are compared. -/
theorem step_equalDocuments {name other : String} {document document' : Document}
    (hname : workspace.documents.find? name = some document)
    (hother : workspace.documents.find? other = some document') :
    step (.equalDocuments name other) workspace =
      (.flag (Document.equal (documentSpot name) (documentSpot other) workspace).1,
        (Document.equal (documentSpot name) (documentSpot other) workspace).2) := by
  apply step_eq
  rw [perform, get_bind_apply]
  simp only [hname, hother, modifyGet_apply]
  rfl

theorem Exhibits.equalDocuments {name other : String} {contents' : List EntryContent}
    (h : Exhibits library catalogue workspace) (hname : catalogue name = some contents)
    (hother : catalogue other = some contents') :
    (step (.equalDocuments name other) workspace).1 = .flag true ↔ contents = contents' := by
  obtain ⟨document, hdocument, -⟩ := h.shown name contents hname
  obtain ⟨document', hdocument', -⟩ := h.shown other contents' hother
  have hequal :=
    (finds_documentEqual (offers_document hname) (offers_document hother) workspace h).1
  rw [step_equalDocuments hdocument hdocument', Answer.flag.injEq]
  exact hequal

theorem step_atDocument {name : String} {op : Op} {access : Access Streams Document Answer}
    {answer : Answer} {after : Workspace} (hop : perform op = atDocument name access)
    (hrun : onDocument name access workspace = .ok (some answer) after) :
    step op workspace = (answer, after) := by
  apply step_eq
  rw [hop, atDocument, bind_apply, hrun]
  rfl

theorem Exhibits.documentText {name : String} (h : Exhibits library catalogue workspace)
    (hname : catalogue name = some contents) :
    (step (.documentText name) workspace).1 = .text (Document.textOf contents) := by
  have hgives : Gives library (Document.Shows library · contents)
      (do return Answer.text (← Document.text))
      fun answer _ => answer = .text (Document.textOf contents) :=
    Gives.bind Document.gives_text fun text => Gives.of_and fun htext =>
      Gives.pure fun _ _ => congrArg Answer.text htext
  obtain ⟨answer, document, streams, hrun, hanswer, -⟩ := h.onDocument hname hgives
  rw [step_atDocument rfl hrun, hanswer]

/-- Once everything has been loaded, the contents are at hand. -/
theorem Exhibits.loadAll {name : String} (h : Exhibits library catalogue workspace)
    (hname : catalogue name = some contents) :
    ∃ document after, step (.loadAll name) workspace = (.nothing, after) ∧
      after.documents.find? name = some document ∧ document.Has contents := by
  have hgives : Gives library (Document.Shows library · contents)
      (do
        Document.loadAll
        return Answer.nothing)
      fun answer document => answer = .nothing ∧ document.Has contents :=
    Gives.bind Document.gives_loadAll fun _ => Gives.pure fun _ hdocument => ⟨rfl, hdocument⟩
  obtain ⟨answer, document, streams, hrun, ⟨hanswer, hdocument⟩, -⟩ := h.onDocument hname hgives
  subst hanswer
  refine ⟨document, _, step_atDocument rfl hrun, ?_, hdocument⟩
  rw [Table.find?_set, if_pos rfl]

end Workspace
end FramedTree
