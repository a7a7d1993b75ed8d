import FramedTree.Proofs.EqualDocuments
import FramedTree.Proofs.Reopening

/-! # Saving and reading back

A document that was saved without failure, behind whatever the stream held before, is read back from
the bytes of the stream: as a document that equals the saved one, has the same text, holds the same
contents once it is loaded, and belongs to a tree of its own.
-/

namespace FramedTree

namespace Workspace

variable {library : Library} {workspace : Workspace}

/-- What a source gives for the header settles what comes of opening it: a tree with the next root
number. -/
theorem openSource_settled {source : Source} {result : Except Error DocumentHeader}
    (h : Settles library (Document.readHeader source) result)
    (hholds : workspace.streams.Holds library) :
    ∃ streams, Streams.Follows library workspace.streams streams ∧
      openSource source workspace = match result with
        | .ok header => .ok (Document.ofHeader ⟨workspace.roots.issued + 1⟩ source header)
          { workspace with streams, roots := ⟨workspace.roots.issued + 1⟩ }
        | .error error => .error error { workspace with streams } := by
  obtain ⟨streams, hread, hfollows⟩ := h workspace.streams hholds
  refine ⟨streams, hfollows, ?_⟩
  rw [openSource, bind_apply, onStreams_apply, hread]
  cases result <;> rfl

private theorem openSource_gives (source : Source) {content : Array UInt8}
    {contents : List EntryContent} (hidle : source.isReading = false)
    (hcontent : source.content? library = some content) (hlength : content.toList.length < 2 ^ 64)
    (hstored : Document.StoredIn source.codec contents content.toList)
    (hholds : workspace.streams.Holds library) :
    ∃ document streams, openSource source workspace =
        .ok document { workspace with streams, roots := ⟨workspace.roots.issued + 1⟩ } ∧
      document.stamp.root = ⟨workspace.roots.issued + 1⟩ ∧
      document.Shows library contents ∧ streams.Holds library := by
  obtain ⟨positions, hpositions, hsettles⟩ := Document.settles_readHeader hidle hcontent hstored
  obtain ⟨streams, hfollows, hopen⟩ := openSource_settled hsettles hholds
  have hshows : (Document.ofHeader ⟨workspace.roots.issued + 1⟩ source
      ⟨positions.map Nat.toUInt64⟩).Shows library contents := by
    apply Document.shows_ofHeader hcontent
    rw [List.forall₂_map_right_iff]
    exact hpositions.imp fun _ _ hstored => Source.hasContent_of_storedAt hidle hlength hstored
  exact ⟨_, streams, hopen, rfl, hshows, hfollows.holds⟩

section Keeping

variable {name : String} {document : Document} {between : Workspace}

theorem openDocument_ok {id : StreamId} {codec : Codec}
    (h : openSource { backing := .stream id, codec } workspace = .ok document between) :
    openDocument name id codec workspace = .ok document.stamp.root
      { between with documents := between.documents.set name document } := by
  rw [openDocument, bind_apply, h]
  rfl

/-- A document is kept under its name once it has been loaded as a whole. -/
theorem loadDocument_ok {bytes : Bytes} {codec : Codec} {done : Unit} {loaded : Document}
    {streams : Streams}
    (h : openSource { backing := .copy bytes.toArray, codec } workspace = .ok document between)
    (hload : Document.loadAll (document, between.streams) = .ok done (loaded, streams)) :
    loadDocument name bytes codec workspace = .ok loaded.stamp.root
      { between with streams, documents := between.documents.set name loaded } := by
  rw [loadDocument_apply name h, hload]

end Keeping

theorem loadDocument_gives (name : String) {bytes : Bytes} {codec : Codec}
    {contents : List EntryContent} (hlength : bytes.length < 2 ^ 64)
    (hstored : Document.StoredIn codec contents bytes) (hholds : workspace.streams.Holds library) :
    ∃ document streams, loadDocument name bytes codec workspace =
        .ok ⟨workspace.roots.issued + 1⟩
          { workspace with
            streams
            roots := ⟨workspace.roots.issued + 1⟩
            documents := workspace.documents.set name document } ∧
      document.Shows library contents ∧ streams.Holds library := by
  obtain ⟨document, streams, hopen, hroot, hshows, hstreams⟩ :=
    openSource_gives { backing := .copy bytes.toArray, codec } rfl rfl hlength hstored hholds
  have hkeeps := Document.keeps_loadAll (document, streams)
  obtain ⟨done, loaded, streams', hload, hhas, hstreams'⟩ :=
    Document.gives_loadAll document streams hshows hstreams
  rw [hload] at hkeeps
  have hloaded : loaded.stamp.root = ⟨workspace.roots.issued + 1⟩ :=
    (congrArg Stamp.root hkeeps.stamp_eq).trans hroot
  refine ⟨loaded, streams', ?_, hhas.shows, hstreams'.holds⟩
  rw [loadDocument_ok hopen hload, hloaded]

private theorem readWhole_eq {id : StreamId} {streams : Streams} (position : Nat)
    (hcalm : (streams.get id).Calm) :
    ∃ after, readWhole id position streams = .ok (streams.get id).bytes after := by
  have hstart : (Handle.stream ⟨streams.get id, position⟩).Calm := hcalm
  obtain ⟨handle, hseek, hcalm', hcontent, hposition⟩ := Handle.seek_ok hstart (.start 0)
  have hahead : handle.ahead = (streams.get id).bytes := by
    rw [Handle.ahead, hposition, Stream.bytes, hcontent]
    rfl
  have hlong : handle.ahead.length ≤ handle.stream.content.size - handle.position + 1 := by
    rw [Handle.ahead, List.length_drop, Stream.bytes, Array.length_toList]
    exact Nat.le_succ _
  have hread : Handle.readToEnd.toFrameIO handle = .ok (streams.get id).bytes
      (handle.advance (streams.get id).bytes.length) := by
    refine Transfer.toFrameIO_ok ?_
    rw [Handle.readToEnd, get_bind_apply, Handle.readUpTo_eq hcalm',
      List.take_of_length_le hlong, hahead]
  refine ⟨streams.set id handle.stream, ?_⟩
  rw [readWhole, Streams.withHandle_apply, discard_bind, bind_apply, hseek]
  dsimp only
  rw [hread]
  rfl

/-- The operations that read a document from some bytes, under a name. A stream that is read must
hold the bytes and not be disturbed. -/
inductive ReadsFrom (workspace : Workspace) (name : String) (bytes : Bytes) (codec : Codec) :
    Op → Prop where
  | bytes : ReadsFrom workspace name bytes codec (.loadDocument name bytes codec)
  | content (stream : String)
      (hbytes : (workspace.streams.get (workspace.streams.current stream)).bytes = bytes) :
      ReadsFrom workspace name bytes codec (.loadDocumentOf name stream codec)
  | whole (stream : String) (position : Nat)
      (hcalm : (workspace.streams.get (workspace.streams.current stream)).Calm)
      (hbytes : (workspace.streams.get (workspace.streams.current stream)).bytes = bytes) :
      ReadsFrom workspace name bytes codec (.readDocument name stream position codec)
  | opened (stream : String)
      (hcalm : (workspace.streams.get (workspace.streams.current stream)).Calm)
      (hbytes : (workspace.streams.get (workspace.streams.current stream)).bytes = bytes) :
      ReadsFrom workspace name bytes codec (.openDocument name stream codec)

private theorem ReadsFrom.brings {name : String} {bytes : Bytes} {codec : Codec} {op : Op}
    (h : ReadsFrom workspace name bytes codec op) : op.brings = some (.document name) := by
  cases h <;> rfl

/-- A document that has been read is intact. -/
theorem ReadsFrom.intact {name : String} {bytes : Bytes} {codec : Codec} {op : Op} {root : RootId}
    {document : Document} (h : ReadsFrom workspace name bytes codec op)
    (hanswer : (step op workspace).1 = .root root)
    (hfound : (step op workspace).2.documents.find? name = some document) : document.Intact := by
  have hbrought : op.Brought (step op workspace).1 (.document name) := by
    refine ⟨h.brings, ?_⟩
    rw [hanswer]
    rfl
  obtain ⟨tree, hintact, -, htree⟩ := (brings_step hbrought).tree
  have hsame := htree (.document name)
  rw [if_pos rfl, tree?_document hfound] at hsame
  cases hsame
  exact hintact

/-- Whichever way it is read, the document shows what is stored, and no other document is
touched. -/
theorem ReadsFrom.gives {name : String} {bytes : Bytes} {codec : Codec} {op : Op}
    {contents : List EntryContent} (h : ReadsFrom workspace name bytes codec op)
    (hlength : bytes.length < 2 ^ 64) (hstored : Document.StoredIn codec contents bytes) :
    ∃ library document streams, step op workspace = (.root ⟨workspace.roots.issued + 1⟩,
        { workspace with
          streams
          roots := ⟨workspace.roots.issued + 1⟩
          documents := workspace.documents.set name document }) ∧
      document.Shows library contents ∧ streams.Holds library ∧ library .scratch = none := by
  cases h with
  | bytes =>
    obtain ⟨document, streams, hload, hdocument, hstreams⟩ :=
      loadDocument_gives name hlength hstored (Streams.holds_none _)
    refine ⟨_, document, streams, step_eq ?_, hdocument, hstreams, rfl⟩
    rw [perform, bind_apply, hload]
    rfl
  | content stream hbytes =>
    obtain ⟨document, streams, hload, hdocument, hstreams⟩ :=
      loadDocument_gives name hlength hstored (Streams.holds_none _)
    refine ⟨_, document, streams, step_eq ?_, hdocument, hstreams, rfl⟩
    change (do return Answer.root (← loadDocument name
      (workspace.streams.get (workspace.streams.current stream)).bytes codec) :
      Work Answer) workspace = _
    rw [hbytes, bind_apply, hload]
    rfl
  | whole stream position hcalm hbytes =>
    obtain ⟨between, hread⟩ := readWhole_eq position hcalm
    rw [hbytes] at hread
    obtain ⟨document, streams, hload, hdocument, hstreams⟩ :=
      @loadDocument_gives (fun _ => none)
        { workspace with streams := between } name _ _ _ hlength hstored
        (Streams.holds_none between)
    refine ⟨_, document, streams, step_eq ?_, hdocument, hstreams, rfl⟩
    change (do return Answer.root (← readDocument name (workspace.streams.current stream) position codec) :
      Work Answer) workspace = _
    rw [bind_apply, readDocument, bind_apply, onStreams_apply, hread, mapState_ok]
    dsimp only
    rw [hload]
    rfl
  | opened stream hcalm hbytes =>
    let id := workspace.streams.current stream
    let library : Library := .only id (workspace.streams.get id).content
    have hholds : workspace.streams.Holds library := Streams.holds_only hcalm
    have hknown : Source.content? library { backing := .stream id, codec } =
        some (workspace.streams.get id).content := Source.content?_only id _ codec
    have hcontent : (workspace.streams.get id).content.toList = bytes := hbytes
    rw [← hcontent] at hlength hstored
    obtain ⟨document, streams, hopen, hroot, hdocument, hstreams⟩ :=
      openSource_gives { backing := .stream id, codec } rfl hknown hlength hstored hholds
    refine ⟨library, document, streams, step_eq ?_, hdocument, hstreams, rfl⟩
    change (do return Answer.root (← openDocument name id codec) : Work Answer) workspace = _
    rw [bind_apply, openDocument_ok hopen, ← hroot]
    rfl

private theorem ReadsFrom.exhibits {name copy : String} {bytes : Bytes} {codec : Codec} {op : Op}
    {contents : List EntryContent} {saved : Document} (h : ReadsFrom workspace copy bytes codec op)
    (hlength : bytes.length < 2 ^ 64) (hstored : Document.StoredIn codec contents bytes)
    (hfound : workspace.documents.find? name = some saved) (hsaved : saved.Has contents) :
    (step op workspace).1 = .root ⟨workspace.roots.issued + 1⟩ ∧
      ∃ library catalogue, Exhibits library catalogue (step op workspace).2 ∧
        catalogue name = some contents ∧ catalogue copy = some contents := by
  obtain ⟨library, document, streams, hstep, hdocument, hstreams, -⟩ := h.gives hlength hstored
  rw [hstep]
  refine ⟨rfl, library, fun other => if other = name ∨ other = copy then some contents else none,
    ⟨hstreams, fun other shown hother => ?_⟩, if_pos (.inl rfl), if_pos (.inr rfl)⟩
  rw [Table.find?_set]
  obtain ⟨hold, hcontents⟩ := Option.ite_none_right_eq_some.1 hother
  cases hcontents
  by_cases hnew : other = copy
  · rw [if_pos hnew]
    exact ⟨document, rfl, hdocument⟩
  · rw [if_neg hnew, hold.resolve_right hnew]
    exact ⟨saved, hfound, hsaved.shows⟩

/-- The document under `copy` is found to be what the document under `name` is, and all it holds
belongs to the tree with the given root. -/
structure Restores (workspace : Workspace) (name copy : String) (contents : List EntryContent)
    (root : RootId) : Prop where
  equal : (step (.equalDocuments name copy) workspace).1 = .flag true
  equal_symm : (step (.equalDocuments copy name) workspace).1 = .flag true
  text : (step (.documentText name) workspace).1 = .text (Document.textOf contents)
  text_copy : (step (.documentText copy) workspace).1 = .text (Document.textOf contents)
  loaded : ∃ document after, step (.loadAll copy) workspace = (.nothing, after) ∧
    after.documents.find? copy = some document ∧ document.Has contents ∧
    document.stamp.root = root ∧
    ∀ i entry, document.entryAt? i = some entry → ∀ ref ∈ entry.references, ref.root = root

/-- All references of an intact document belong to its tree. -/
theorem references_root {document : Document} (h : document.Intact) {i : Nat} {entry : Entry}
    (hentry : document.entryAt? i = some entry) {ref : NodeRef} (href : ref ∈ entry.references) :
    ref.root = document.stamp.root := by
  obtain ⟨hstamp, hintact⟩ := h.entry i entry hentry
  rw [hintact.references ref href, hstamp]
  rfl

private theorem ReadsFrom.restores {name copy : String} {bytes : Bytes} {codec : Codec} {op : Op}
    {contents : List EntryContent} {saved : Document} (h : ReadsFrom workspace copy bytes codec op)
    (hlength : bytes.length < 2 ^ 64) (hstored : Document.StoredIn codec contents bytes)
    (hfound : workspace.documents.find? name = some saved) (hsaved : saved.Has contents) :
    (step op workspace).1 = .root ⟨workspace.roots.issued + 1⟩ ∧
      Restores (step op workspace).2 name copy contents ⟨workspace.roots.issued + 1⟩ := by
  obtain ⟨hanswer, library, catalogue, hshown, hname, hother⟩ :=
    h.exhibits hlength hstored hfound hsaved
  have hbrought : op.Brought (step op workspace).1 (.document copy) := by
    refine ⟨h.brings, ?_⟩
    rw [hanswer]
    rfl
  obtain ⟨tree, hintact, hroot, htree⟩ := (brings_step hbrought).tree
  obtain ⟨document, after, hload, hafter, hhas⟩ := hshown.loadAll hother
  -- Loading everything leaves the tree with the root it was given, and intact.
  have hgrows : Grows (step op workspace).2 after := by
    have hstep := @grows_step_of_brings (.loadAll copy) (step op workspace).2 rfl
    rwa [hload] at hstep
  have hnew : (step op workspace).2.tree? (.document copy) = some tree := by
    rw [htree, if_pos rfl]
  obtain ⟨later, hlater, htreeGrows⟩ := hgrows.later hnew
  have hdocument : later = .document document := by
    rw [tree?_document hafter] at hlater
    exact (Option.some.inj hlater).symm
  have hwhole : document.Intact := by
    have hlaterIntact := htreeGrows.intact hintact
    rwa [hdocument] at hlaterIntact
  have hnumber : document.stamp.root = ⟨workspace.roots.issued + 1⟩ := by
    have hstamp := congrArg Stamp.root htreeGrows.stamp_eq
    rw [hdocument, hroot] at hstamp
    exact hstamp
  refine ⟨hanswer, (hshown.equalDocuments hname hother).2 rfl,
    (hshown.equalDocuments hother hname).2 rfl, hshown.documentText hname,
    hshown.documentText hother, document, after, hload, hafter, hhas,
    hnumber, fun i entry hentry ref href => ?_⟩
  rw [references_root hwhole hentry href, hnumber]

theorem onDocument_ok {β : Type} {name : String} {access : Access Streams Document β} {value : β}
    {after : Workspace} (h : onDocument name access workspace = .ok (some value) after) :
    ∃ document later streams, workspace.documents.find? name = some document ∧
      access (document, workspace.streams) = .ok value (later, streams) ∧
      after = { workspace with streams, documents := workspace.documents.set name later } := by
  cases hfound : workspace.documents.find? name with
  | none =>
    rw [onDocument_apply_none hfound] at h
    cases h
  | some document =>
    rw [onDocument_apply hfound, map_apply] at h
    cases hrun : access (document, workspace.streams) with
    | error error state =>
      rw [hrun] at h
      cases h
    | ok result state =>
      rw [hrun] at h
      cases h
      exact ⟨document, state.1, state.2, rfl, hrun, rfl⟩

theorem onDocument_failed {β : Type} {name : String} {access : Access Streams Document β}
    {error : Error} {after : Workspace}
    (h : onDocument name access workspace = .error error after) :
    ∃ document later streams, workspace.documents.find? name = some document ∧
      access (document, workspace.streams) = .error error (later, streams) ∧
      after = { workspace with streams, documents := workspace.documents.set name later } := by
  cases hfound : workspace.documents.find? name with
  | none =>
    rw [onDocument_apply_none hfound] at h
    cases h
  | some document =>
    rw [onDocument_apply hfound, map_apply] at h
    cases hrun : access (document, workspace.streams) with
    | ok result state =>
      rw [hrun] at h
      cases h
    | error found state =>
      rw [hrun] at h
      cases h
      exact ⟨document, state.1, state.2, rfl, hrun, rfl⟩

/-- Whatever a document went through and whatever a stream holds: if saving the document to the
stream succeeds, the frames follow what was there, and every way of reading the bytes of the stream
gives the document again. -/
theorem save_reads_back {ops : List Op} {name : String} {codec : Codec} {target : StreamId}
    {position size : Nat} {after : Workspace}
    (hsave : onDocument name (Document.save codec target position) (run ops {}).2 =
      .ok (some size) after)
    (hlength : (after.streams.get target).bytes.length < 2 ^ 64) :
    ∃ document saved contents written,
      (run ops {}).2.documents.find? name = some document ∧
      after.documents.find? name = some saved ∧
      document.Fills saved ∧ saved.Has contents ∧ written.length = size ∧
      (after.streams.get target).bytes = ((run ops {}).2.streams.get target).bytes ++ written ∧
      ∀ workspace copy op, workspace.documents.find? name = some saved →
        ReadsFrom workspace copy (after.streams.get target).bytes codec op →
        (step op workspace).1 = .root ⟨workspace.roots.issued + 1⟩ ∧
          Restores (step op workspace).2 name copy contents ⟨workspace.roots.issued + 1⟩ := by
  obtain ⟨document, saved, streams, hfound, hrun, rfl⟩ := onDocument_ok hsave
  have hsound : Sound (run ops {}).2 := sound_run ops sound_empty
  have hintact : document.Intact := hsound.intact (.document name) _ (tree?_document hfound)
  obtain ⟨contents, written, hhas, hwritten, hbytes, hstored⟩ :=
    Document.save_ok hintact.occupied hrun
  have hfills : document.Fills saved := by
    have hkept := Document.fills_save codec target position (document, (run ops {}).2.streams)
    rw [hrun] at hkept
    exact hkept
  have hsaved : ((run ops {}).2.documents.set name saved).find? name = some saved := by
    rw [Table.find?_set, if_pos rfl]
  refine ⟨document, saved, contents, written, hfound, hsaved, hfills, hhas, hwritten, hbytes, ?_⟩
  intro workspace copy op hname hreads
  exact hreads.restores hlength hstored hname hhas

/-- A document with a secret identity and repeated references, behind bytes that are no frame. -/
theorem save_reads_back_behind_debris :
    ∃ after written,
      onDocument "d" (Document.save {} (.named "s" 1) 2)
        (run [.setStream "s" [7, 0, 9] { chunk := some 3 }, .newDocument "d", .addEntry "d",
          .addEntry "d",
          .changeIdentity (.identification (.inDocument "d" 0)) (.setFirstName (some "")),
          .changeIdentity (.addedSecretIdentity (.inDocument "d" 1)) (.setBirthYear (some (-5))),
          .makeRef (.document "d") [1, 0, 1, 0] "r",
          .changeEntry (.inDocument "d" 1) (.setApprover "r"),
          .changeEntry (.inDocument "d" 1) (.addReviewer "r"),
          .changeEntry (.inDocument "d" 1) (.addReviewer "r")] {}).2 = .ok (some 57) after ∧
      written.length = 57 ∧ (after.streams.get (.named "s" 1)).bytes = [7, 0, 9] ++ written ∧
      (step (.openDocument "copy" "s" {}) after).1 = .root ⟨2⟩ ∧
      (step (.equalDocuments "d" "copy") (step (.openDocument "copy" "s" {}) after).2).1 =
        .flag true := by
  have hsave := eq_ok_of_verdict (onDocument "d" (Document.save {} (.named "s" 1) 2)
    (run [.setStream "s" [7, 0, 9] { chunk := some 3 }, .newDocument "d", .addEntry "d",
      .addEntry "d",
      .changeIdentity (.identification (.inDocument "d" 0)) (.setFirstName (some "")),
      .changeIdentity (.addedSecretIdentity (.inDocument "d" 1)) (.setBirthYear (some (-5))),
      .makeRef (.document "d") [1, 0, 1, 0] "r",
      .changeEntry (.inDocument "d" 1) (.setApprover "r"),
      .changeEntry (.inDocument "d" 1) (.addReviewer "r"),
      .changeEntry (.inDocument "d" 1) (.addReviewer "r")] {}).2)
    (some 57) (by decide +kernel)
  obtain ⟨document, saved, contents, written, -, hsaved, -, -, hlength, hbytes, hreads⟩ :=
    save_reads_back hsave (by decide +kernel)
  have hopened := hreads _ "copy" (.openDocument "copy" "s" {}) hsaved
    (.opened "s"
      ⟨by decide +kernel, by decide +kernel, by decide +kernel, by decide +kernel, by decide +kernel⟩
      (by decide +kernel))
  refine ⟨_, written, hsave, hlength, hbytes.trans (congrArg (· ++ written) ?_), hopened.1.trans ?_,
    hopened.2.equal⟩
  · decide +kernel
  · decide +kernel

end Workspace
end FramedTree
