import FramedTree.Proofs.Comparison
import FramedTree.Proofs.Emission
import FramedTree.Proofs.RoundTrip

/-! # One saved form for each content

Two documents are found equal exactly if both can be loaded as a whole and have the same contents,
whatever they went through. The contents alone decide what is saved, and no two contents have the
same saved form; so a document that is read from a saved form and saved again gives the same bytes.
-/

namespace FramedTree

variable {library : Library} {codec : Codec} {contents contents' : List EntryContent}
  {bytes : Bytes}

theorem Settles.unique {α : Type} {load : Load α} {result result' : Except Error α}
    (h : Settles library load result) (h' : Settles library load result') {streams : Streams}
    (hstreams : streams.Holds library) : result = result' := by
  obtain ⟨after, hrun, -⟩ := h streams hstreams
  obtain ⟨after', hrun', -⟩ := h' streams hstreams
  rw [hrun] at hrun'
  cases result <;> cases result' <;> cases hrun' <;> rfl

private theorem Source.HasContent.unique {source : Source} {content : Array UInt8}
    {header : EntryHeader} {found other : EntryContent} (h : source.HasContent content header found)
    (h' : source.HasContent content header other) : found = other := by
  apply EntryContent.ext
  · exact Except.ok.inj (h.identification.symm.trans h'.identification)
  · apply optionRel_unique _ h.secretIdentity h'.secretIdentity
    intro position secret secret' hframe hframe'
    exact Except.ok.inj (hframe.symm.trans hframe')
  · exact h.approver.symm.trans h'.approver
  · exact h.reviewers.symm.trans h'.reviewers

namespace Document

/-- Bytes are the saved form of one document only. -/
theorem StoredIn.unique (h : StoredIn codec contents bytes) (h' : StoredIn codec contents' bytes)
    (hlength : bytes.length < 2 ^ 64) : contents = contents' := by
  let source : Source := { backing := .copy bytes.toArray, codec }
  have hcontent : source.content? (fun _ => none) = some bytes.toArray := rfl
  obtain ⟨positions, hpositions, hsettles⟩ := settles_readHeader rfl hcontent h
  obtain ⟨positions', hpositions', hsettles'⟩ := settles_readHeader rfl hcontent h'
  -- There is one root header to be read, and it leads to one header for every entry.
  have hheader := hsettles.unique hsettles' (Streams.holds_none {})
  have hsame : positions.map Nat.toUInt64 = positions'.map Nat.toUInt64 := by simpa using hheader
  have hread {found : List EntryContent} {at_ : List Nat}
      (hstored : AllStored codec bytes found at_) :
      List.Forall₂ (fun found position => ∃ header,
        source.frameAt bytes.toArray position.toNat = .ok header ∧
        source.HasContent bytes.toArray header found) found (at_.map Nat.toUInt64) := by
    rw [List.forall₂_map_right_iff]
    exact hstored.imp fun _ _ hentry => Source.hasContent_of_storedAt rfl hlength hentry
  have hfirst := hread hpositions
  rw [hsame] at hfirst
  apply Relator.LeftUnique.forall₂ ?_ hfirst (hread hpositions')
  rintro found other position ⟨header, hframe, hfound⟩ ⟨header', hframe', hother⟩
  cases hframe.symm.trans hframe'
  exact hfound.unique hother

private theorem Shows.unique {document : Document} {streams : Streams}
    (h : document.Shows library contents) (h' : document.Shows library contents')
    (hstreams : streams.Holds library) : contents = contents' := by
  obtain ⟨done, after, streams', hload, hhas, -⟩ := gives_loadAll document streams h hstreams
  obtain ⟨done', after', streams'', hload', hhas', -⟩ := gives_loadAll document streams h' hstreams
  rw [hload] at hload'
  cases hload'
  exact hhas.unique hhas'

private theorem saveToBytes_ok {document saved : Document} {streams streams' : Streams}
    (hgaps : ∀ i < document.entryCount, (document.entries.get? i).isSome)
    (h : saveToBytes codec (document, streams) = .ok bytes (saved, streams')) :
    ∃ contents, saved.Has contents ∧ write codec contents [] = .ok ((), bytes) := by
  unfold saveToBytes at h
  cases hsave : save codec .scratch 0 (document, { streams with scratch := {} }) with
  | error error state =>
    simp only [hsave] at h
    cases h
  | ok size state =>
    simp only [hsave] at h
    cases h
    obtain ⟨contents, written, hhas, -, -, hwrite⟩ := save_writes hgaps hsave
    exact ⟨contents, hhas, hwrite⟩

end Document

namespace Workspace

variable {workspace : Workspace} {name other : String} {document : Document}

/-- The documents under two names are loaded as a whole and have the same contents. -/
def Agree (workspace : Workspace) (name other : String) : Prop :=
  ∃ contents document document', workspace.documents.find? name = some document ∧
    workspace.documents.find? other = some document' ∧ document.Has contents ∧
    document'.Has contents

private theorem Agree.equalDocuments (h : Agree workspace name other) :
    (step (.equalDocuments name other) workspace).1 = .flag true := by
  obtain ⟨contents, document, document', hname, hother, hhas, hhas'⟩ := h
  let catalogue : Catalogue :=
    fun known => if known = name ∨ known = other then some contents else none
  have hshown : Exhibits (fun _ => none) catalogue workspace := by
    refine ⟨Streams.holds_none _, fun known shown hknown => ?_⟩
    obtain ⟨hnames, hcontents⟩ := Option.ite_none_right_eq_some.1 hknown
    cases hcontents
    rcases hnames with rfl | rfl
    · exact ⟨document, hname, hhas.shows⟩
    · exact ⟨document', hother, hhas'.shows⟩
  exact (hshown.equalDocuments (if_pos (.inl rfl)) (if_pos (.inr rfl))).2 rfl

/-- The answer that gives a saved form, or says why there is none. -/
def savedAnswer : Except Error Bytes → Answer
  | .ok bytes => .bytes bytes
  | .error error => .failed error

theorem storedIn_of_savedAnswer
    (h : savedAnswer ((Document.write codec contents []).map Prod.snd) = .bytes bytes) :
    Document.StoredIn codec contents bytes := by
  cases hwrite : Document.write codec contents [] with
  | error error =>
    rw [hwrite] at h
    cases h
  | ok written =>
    rw [hwrite] at h
    cases h
    exact Document.storedIn_of_write hwrite

private theorem step_saveToBytes (h : workspace.documents.find? name = some document) :
    let result := Document.saveToBytes codec (document, workspace.streams)
    step (.saveToBytes name codec) workspace = (savedAnswer (verdict result),
      { workspace with
        streams := (stateAfter result).2
        documents := workspace.documents.set name (stateAfter result).1 }) := by
  intro result
  rw [step, perform, atDocument, bind_apply, onDocument_apply h, map_apply, bind_apply]
  cases hresult : Document.saveToBytes codec (document, workspace.streams) <;>
    simp only [result, hresult] <;> rfl

private theorem step_saveToBytes_missing (h : workspace.documents.find? name = none) :
    step (.saveToBytes name codec) workspace = (.noDocument, workspace) := by
  rw [step, perform, atDocument, bind_apply, onDocument_apply_none h]
  rfl

theorem saveToBytes_of_shows (hfound : workspace.documents.find? name = some document)
    (hdocument : document.Shows library contents) (hstreams : workspace.streams.Holds library)
    (hscratch : library .scratch = none) :
    (step (.saveToBytes name codec) workspace).1 =
      savedAnswer ((Document.write codec contents []).map Prod.snd) := by
  rw [step_saveToBytes hfound]
  exact congrArg savedAnswer (Document.saveToBytes_verdict hdocument hstreams hscratch)

private theorem Agree.saveToBytes (h : Agree workspace name other) (codec : Codec) :
    (step (.saveToBytes name codec) workspace).1 =
      (step (.saveToBytes other codec) workspace).1 := by
  obtain ⟨contents, document, document', hname, hother, hhas, hhas'⟩ := h
  have hstreams := Streams.holds_none workspace.streams
  rw [saveToBytes_of_shows hname hhas.shows hstreams rfl,
    saveToBytes_of_shows hother hhas'.shows hstreams rfl]

/-- A document whose saved form was given is loaded as a whole, and the form is that of its
contents. -/
theorem saveToBytes_bytes (hsound : Sound workspace)
    (h : (step (.saveToBytes name codec) workspace).1 = .bytes bytes) :
    ∃ saved streams contents, (step (.saveToBytes name codec) workspace).2 =
        { workspace with streams, documents := workspace.documents.set name saved } ∧
      saved.Has contents ∧ Document.write codec contents [] = .ok ((), bytes) := by
  cases hfound : workspace.documents.find? name with
  | none =>
    rw [step_saveToBytes_missing hfound] at h
    cases h
  | some document =>
    have hintact : document.Intact := hsound.document hfound
    rw [step_saveToBytes hfound] at h ⊢
    dsimp only at h ⊢
    cases hrun : Document.saveToBytes codec (document, workspace.streams) with
    | error error state =>
      rw [hrun] at h
      cases h
    | ok written state =>
      rw [hrun] at h
      cases h
      obtain ⟨contents, hhas, hwrite⟩ := Document.saveToBytes_ok hintact.occupied hrun
      exact ⟨state.1, state.2, contents, rfl, hhas, hwrite⟩

private theorem agree_of_saveToBytes (hsound : Sound workspace) (hlength : bytes.length < 2 ^ 64)
    (hname : (step (.saveToBytes name codec) workspace).1 = .bytes bytes)
    (hother : (step (.saveToBytes other codec) (step (.saveToBytes name codec) workspace).2).1 =
      .bytes bytes) :
    Agree (step (.saveToBytes other codec) (step (.saveToBytes name codec) workspace).2).2 name
      other := by
  obtain ⟨saved, streams, contents, hstep, hhas, hwrite⟩ := saveToBytes_bytes hsound hname
  obtain ⟨saved', streams', contents', hstep', hhas', hwrite'⟩ :=
    saveToBytes_bytes (sound_step (.saveToBytes name codec) hsound) hother
  have hsame : contents = contents' := (Document.storedIn_of_write hwrite).unique
    (Document.storedIn_of_write hwrite') hlength
  subst hsame
  rw [hstep', hstep]
  by_cases heq : name = other
  · subst heq
    refine ⟨contents, saved', saved', ?_, ?_, hhas', hhas'⟩ <;> exact Table.find?_set_self ..
  · refine ⟨contents, saved, saved', ?_, Table.find?_set_self .., hhas, hhas'⟩
    exact (Table.find?_set ..).trans ((if_neg heq).trans (Table.find?_set_self ..))

private theorem ReadsFrom.saveToBytes {op : Op} (h : ReadsFrom workspace name bytes codec op)
    (hlength : bytes.length < 2 ^ 64)
    (hwrite : Document.write codec contents [] = .ok ((), bytes)) :
    (step op workspace).1 = .root ⟨workspace.roots.issued + 1⟩ ∧
      (step (.saveToBytes name codec) (step op workspace).2).1 = .bytes bytes := by
  obtain ⟨library, document, streams, hstep, hdocument, hstreams, hscratch⟩ :=
    h.gives hlength (Document.storedIn_of_write hwrite)
  have hfound : (step op workspace).2.documents.find? name = some document := by
    rw [hstep]
    exact Table.find?_set_self ..
  have hholds : (step op workspace).2.streams.Holds library := by
    rw [hstep]
    exact hstreams
  rw [saveToBytes_of_shows hfound hdocument hholds hscratch, hwrite, hstep]
  exact ⟨rfl, rfl⟩

/-- Where what a document shows is known, so is whether two of them are found equal. -/
theorem equalDocuments_of_shows {document' : Document}
    (hname : workspace.documents.find? name = some document)
    (hother : workspace.documents.find? other = some document')
    (hstreams : workspace.streams.Holds library) (hshows : document.Shows library contents)
    (hshows' : document'.Shows library contents') :
    (step (.equalDocuments name other) workspace).1 = .flag true ↔ contents = contents' := by
  let catalogue : Catalogue := fun known =>
    if known = name then some contents else if known = other then some contents' else none
  have hshown : Exhibits library catalogue workspace := by
    refine ⟨hstreams, fun known shown hknown => ?_⟩
    simp only [catalogue] at hknown
    split at hknown
    case isTrue heq =>
      cases hknown
      exact ⟨document, heq ▸ hname, hshows⟩
    case isFalse =>
      obtain ⟨heq, hcontents⟩ := Option.ite_none_right_eq_some.1 hknown
      cases hcontents
      exact ⟨document', heq ▸ hother, hshows'⟩
  have hcontents' : catalogue other = some contents' := by
    by_cases heq : other = name
    · subst heq
      cases hname.symm.trans hother
      rw [hshows'.unique hshows hstreams]
      exact if_pos rfl
    · exact (if_neg heq).trans (if_pos rfl)
  exact hshown.equalDocuments (if_pos rfl) hcontents'

/-- Whatever two documents went through, they are found equal exactly if both are loaded as a whole
by the comparison and have the same contents. (A document compared with itself may have been loaded
at the second try only.) If all of both can be loaded, they are found equal exactly if they show the
same contents; equal documents are saved as the same bytes or both cannot be saved, and documents
saved as the same bytes are equal. What is read from saved bytes is saved as these bytes again. -/
theorem same_contents_same_bytes {ops : List Op} {name other : String}
    {document document' : Document} (hname : (run ops {}).2.documents.find? name = some document)
    (hother : (run ops {}).2.documents.find? other = some document') :
    let workspace := (run ops {}).2
    let compared := step (.equalDocuments name other) workspace
    FillsAll workspace compared.2 ∧
    (compared.1 = .flag true → Agree compared.2 name other) ∧
    (name ≠ other → Agree compared.2 name other → compared.1 = .flag true) ∧
    (∀ library contents contents', workspace.streams.Holds library → library .scratch = none →
      document.Shows library contents → document'.Shows library contents' →
      (compared.1 = .flag true ↔ contents = contents') ∧
      ∀ codec,
        (compared.1 = .flag true →
          (step (.saveToBytes name codec) workspace).1 =
            (step (.saveToBytes other codec) workspace).1) ∧
        ∀ bytes, bytes.length < 2 ^ 64 →
          (step (.saveToBytes name codec) workspace).1 = .bytes bytes →
          (step (.saveToBytes other codec) workspace).1 = .bytes bytes → compared.1 = .flag true) ∧
    (compared.1 = .flag true → ∀ codec,
      (step (.saveToBytes name codec) compared.2).1 =
        (step (.saveToBytes other codec) compared.2).1) ∧
    ∀ codec bytes, bytes.length < 2 ^ 64 →
      (step (.saveToBytes name codec) workspace).1 = .bytes bytes →
      (∀ saved, step (.saveToBytes other codec) (step (.saveToBytes name codec) workspace).2 =
        (.bytes bytes, saved) →
        (step (.equalDocuments name other) saved).1 = .flag true) ∧
      ∀ reader copy op, ReadsFrom reader copy bytes codec op →
        (step op reader).1 = .root ⟨reader.roots.issued + 1⟩ ∧
          (step (.saveToBytes copy codec) (step op reader).2).1 = .bytes bytes := by
  intro workspace compared
  have hsound : Sound workspace := sound_run ops sound_empty
  have hcompared : compared = _ := step_equalDocuments hname hother
  have hagree (h : compared.1 = .flag true) : Agree compared.2 name other := by
    rw [hcompared] at h ⊢
    exact has_of_documentEqual hsound hname hother (Answer.flag.inj h)
  refine ⟨?_, hagree, fun hne h => ?_, ?_, fun h => (hagree h).saveToBytes, ?_⟩
  · rw [hcompared]
    exact fillsAll_documentEqual name other workspace
  · rw [hcompared] at h ⊢
    obtain ⟨contents, later, later', hlater, hlater', hhas, hhas'⟩ := h
    exact congrArg Answer.flag
      (documentEqual_of_has hsound hne hname hother hlater hlater' hhas hhas')
  · intro library contents contents' hstreams hscratch hshows hshows'
    have hiff := equalDocuments_of_shows hname hother hstreams hshows hshows'
    refine ⟨hiff, fun codec => ?_⟩
    rw [saveToBytes_of_shows hname hshows hstreams hscratch,
      saveToBytes_of_shows hother hshows' hstreams hscratch]
    refine ⟨fun h => by rw [hiff.1 h], fun bytes hlength hbytes hbytes' => hiff.2 ?_⟩
    exact (storedIn_of_savedAnswer hbytes).unique (storedIn_of_savedAnswer hbytes') hlength
  · intro codec bytes hlength hsaved
    refine ⟨fun saved hsaved' => ?_, fun reader copy op hreads => ?_⟩
    · have hagree := agree_of_saveToBytes hsound hlength hsaved (congrArg Prod.fst hsaved')
      rw [hsaved'] at hagree
      exact hagree.equalDocuments
    · obtain ⟨-, -, contents, -, -, hwrite⟩ := saveToBytes_bytes hsound hsaved
      exact hreads.saveToBytes hlength hwrite

/-- A document that was put together in memory, and one that was opened on a stream and is yet to be
loaded. -/
theorem same_contents_same_bytes_opened :
    ∃ workspace bytes saved,
      workspace =
        (run [.setStream "s" bytes { chunk := some 3 }, .openDocument "copy" "s" {},
          .newDocument "d",
        .addEntry "d", .changeIdentity (.addedSecretIdentity (.inDocument "d" 0))
          (.setBirthYear (some (-5))),
        .makeRef (.document "d") [1, 0, 1, 0] "r",
        .changeEntry (.inDocument "d" 0) (.addReviewer "r")] {}).2 ∧
      (step (.saveToBytes "d" {}) workspace).1 = .bytes bytes ∧
      step (.saveToBytes "copy" {}) (step (.saveToBytes "d" {}) workspace).2 =
        (.bytes bytes, saved) ∧
      (step (.equalDocuments "d" "copy") saved).1 = .flag true ∧
      Agree (step (.equalDocuments "d" "copy") saved).2 "d" "copy" ∧
      (∀ codec, (step (.saveToBytes "d" codec) (step (.equalDocuments "d" "copy") saved).2).1 =
        (step (.saveToBytes "copy" codec) (step (.equalDocuments "d" "copy") saved).2).1) ∧
      (step (.saveToBytes "again" {}) (step (.loadDocument "again" bytes {}) saved).2).1 =
        .bytes bytes := by
  let bytes : Bytes :=
    [0, 11, 16, 251, 255, 255, 255, 255, 255, 255, 255, 255, 1, 10, 16, 1, 34, 6, 10, 4, 1, 0, 1, 0,
    3, 10, 1, 13, 3, 0, 0, 0]
  let ops : List Op :=
    [.setStream "s" bytes { chunk := some 3 }, .openDocument "copy" "s" {}, .newDocument "d",
    .addEntry "d", .changeIdentity (.addedSecretIdentity (.inDocument "d" 0))
      (.setBirthYear (some (-5))),
    .makeRef (.document "d") [1, 0, 1, 0] "r", .changeEntry (.inDocument "d" 0) (.addReviewer "r")]
  let rest : List Op := [.saveToBytes "d" {}, .saveToBytes "copy" {}]
  have hsaved : (step (.saveToBytes "d" {}) (run ops {}).2).1 = .bytes bytes := by decide +kernel
  have hcopy : (step (.saveToBytes "copy" {}) (step (.saveToBytes "d" {}) (run ops {}).2).2).1 =
    .bytes bytes := by
    decide +kernel
  have hfound (ops : List Op) (name : String)
    (h : ((run ops {}).2.documents.find? name).isSome = true) :
      ∃ document, (run ops {}).2.documents.find? name = some document :=
        Option.isSome_iff_exists.1 h
  obtain ⟨document, hdocument⟩ := hfound ops "d" (by decide +kernel)
  obtain ⟨other, hother⟩ := hfound ops "copy" (by decide +kernel)
  -- Saving has loaded the second document, so that they are then compared as they stand.
  obtain ⟨document', hdocument'⟩ := hfound (ops ++ rest) "d" (by decide +kernel)
  obtain ⟨other', hother'⟩ := hfound (ops ++ rest) "copy" (by decide +kernel)
  have hrest (workspace : Workspace) : (run rest workspace).2 =
      (step (.saveToBytes "copy" {}) (step (.saveToBytes "d" {}) workspace).2).2 := rfl
  obtain ⟨-, -, -, -, -, hreads⟩ := same_contents_same_bytes hdocument hother
  obtain ⟨-, hagree, -, -, hsaves, -⟩ := same_contents_same_bytes hdocument' hother'
  rw [run_append, hrest] at hagree hsaves
  generalize hworkspace : (run ops {}).2 = workspace at hsaved hcopy hreads hagree hsaves
  obtain ⟨hequal, hagain⟩ := hreads {} bytes (by decide) hsaved
  have hflag := hequal _ (Prod.ext hcopy rfl)
  exact ⟨workspace, bytes, _, hworkspace.symm, hsaved, Prod.ext hcopy rfl, hflag, hagree hflag,
    hsaves hflag, (hagain _ "again" _ .bytes).2⟩

end Workspace
end FramedTree
