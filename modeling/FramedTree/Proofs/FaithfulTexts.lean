import FramedTree.Proofs.Recovery
import FramedTree.Proofs.Renderings

/-! # Faithful texts

A document is printed whatever can be read of it, and its text says what has been found and nothing
else. Documents that can be loaded as a whole have the same text exactly if they are equal; a part
that cannot be read adds one line to what the text would be without it.
-/

namespace FramedTree

open Outline (Line)

/-- The second text is the first one without one of its lines. -/
def LacksLine (line : List Char) (text less : String) : Prop :=
  ∃ above below, textLines text = above ++ line :: below ∧ textLines less = above ++ below

private theorem Without.lacksLine {view less : DocumentView} {line : Line}
    (h : Without view line less) (hmessages : ∀ error ∈ view.errors, OnLine error.message) :
    LacksLine line.chars (DocumentView.text view) (DocumentView.text less) := by
  obtain ⟨above, below, hview, hless⟩ := h.lineLess
  have hlines := DocumentView.allOnLine hmessages
  rw [hview] at hlines
  have hfewer : ∀ line ∈ above ++ below, OnLine line.text := fun other hother =>
    hlines other (List.mem_append.2 ((List.mem_append.1 hother).imp_right (List.mem_cons_of_mem _)))
  refine ⟨above.map Line.chars, below.map Line.chars, ?_, ?_⟩
  · rw [DocumentView.text, hview, textLines_render hlines, List.map_append, List.map_cons]
  · rw [DocumentView.text, hless, textLines_render hfewer, List.map_append]

namespace Workspace

variable {workspace : Workspace} {library : Library} {name : String} {document : Document}

private theorem documentText_renders (hname : workspace.documents.find? name = some document)
    (hstreams : workspace.streams.Holds library) :
    ∃ (view : DocumentView) (later : Document) (after : Workspace),
      step (.documentText name) workspace = (.text (DocumentView.text view), after) ∧
        after.documents.find? name = some later ∧ later.Presents view ∧
        ∀ other, document.Displays library other → other = view := by
  obtain ⟨view, _, later, streams, hrun, rfl, hlater, hunique, -⟩ :=
    Document.renders_text document workspace.streams hstreams
  refine ⟨view, later, { workspace with streams, documents := workspace.documents.set name later },
    ?_, Table.find?_set_self .., hlater, hunique⟩
  apply step_atDocument rfl
  rw [onDocument_apply hname, map_apply, bind_apply, hrun]
  rfl

private theorem documentText_of_displays (hname : workspace.documents.find? name = some document)
    (hstreams : workspace.streams.Holds library) {view : DocumentView}
    (h : document.Displays library view) :
    (step (.documentText name) workspace).1 = .text (DocumentView.text view) := by
  obtain ⟨found, later, after, hstep, -, -, hunique⟩ := documentText_renders hname hstreams
  rw [hstep, hunique view h]

private theorem documentText_of_shows (hname : workspace.documents.find? name = some document)
    (hstreams : workspace.streams.Holds library) {contents : List EntryContent}
    (h : document.Shows library contents) :
    (step (.documentText name) workspace).1 =
      .text (DocumentView.text (DocumentView.ofContents contents)) := by
  have hexhibits : Exhibits library
    (fun known => if known = name then some contents else none) workspace := by
    refine ⟨hstreams, fun known shown hknown => ?_⟩
    obtain ⟨rfl, hcontents⟩ := Option.ite_none_right_eq_some.1 hknown
    cases hcontents
    exact ⟨document, hname, h⟩
  rw [hexhibits.documentText (if_pos rfl), Document.textOf_eq]

/-- The text of a document is faithful. Two documents that can be loaded as a whole, with references
that consist of whole steps, have the same text exactly if they are found equal.

Printing never fails. The lines are those of what is found: none for a part that is not there, and a
single one for a part that cannot be read. Blocks are closed at the depth at which they were opened;
where no reason contains a line break, this is how the text itself is indented, and every part that
cannot be read adds exactly its line to what the text is without it. Where loads are settled, a
document without that part is printed without that line. -/
theorem documentText_faithful (hname : workspace.documents.find? name = some document)
    (hstreams : workspace.streams.Holds library) :
    (∀ other document' contents contents', workspace.documents.find? other = some document' →
      document.Shows library contents → document'.Shows library contents' →
      (∀ content ∈ contents ++ contents', ∀ path ∈ content.references, path.IsWhole) →
      ∃ text text', (step (.documentText name) workspace).1 = .text text ∧
        (step (.documentText other) workspace).1 = .text text' ∧
        (text = text' ↔ (step (.equalDocuments name other) workspace).1 = .flag true)) ∧
    (∃ (view : DocumentView) (later : Document) (after : Workspace),
      step (.documentText name) workspace = (.text view.text, after) ∧
        after.documents.find? name = some later ∧ later.Presents view ∧
        (∀ other, document.Displays library other → other = view) ∧ FieldLines 0 view.lines ∧
        ((∀ error ∈ view.errors, OnLine error.message) →
          textLines view.text = view.lines.map Line.chars ∧ WellIndented 0 (textLines view.text) ∧
            ∀ line less, Without view line less → LacksLine line.chars view.text less.text)) ∧
    ∀ (view : DocumentView) line rest (other : Workspace), document.Displays library view →
      (∀ error ∈ view.errors, OnLine error.message) → document.Loses library line rest →
      other.documents.find? name = some rest → other.streams.Holds library →
      ∃ text less, (step (.documentText name) workspace).1 = .text text ∧
        (step (.documentText name) other).1 = .text less ∧ LacksLine line.chars text less := by
  refine ⟨fun other document' contents contents' hother hshows hshows' hwhole => ?_, ?_,
    fun view line rest other hview hmessages hloses hother hholds => ?_⟩
  · rw [documentText_of_shows hname hstreams hshows, documentText_of_shows hother hstreams hshows',
      equalDocuments_of_shows hname hother hstreams hshows hshows']
    obtain ⟨hwhole, hwhole'⟩ := List.forall_mem_append.1 hwhole
    exact ⟨_, _, rfl, rfl, DocumentView.text_inj hwhole hwhole', fun h => by rw [h]⟩
  · obtain ⟨view, later, after, hstep, hlater, hpresents, hunique⟩ :=
      documentText_renders hname hstreams
    refine ⟨view, later, after, hstep, hlater, hpresents, hunique, DocumentView.fieldLines view,
      fun hmessages => ?_⟩
    obtain ⟨hlines, hindented⟩ := DocumentView.textLines_text hmessages
    exact ⟨hlines, hindented, fun line less hless => hless.lacksLine hmessages⟩
  · obtain ⟨less, hdisplays, hless⟩ := hloses.displays hview hstreams
    exact ⟨_, _, documentText_of_displays hname hstreams hview,
      documentText_of_displays hother hholds hdisplays, hless.lacksLine hmessages⟩

/-- A document of which one entry cannot be read, and neither can a part of the other; and two
others in memory. -/
theorem documentText_faithful_unreadable :
    ∃ (workspace other : Workspace) (text less : String),
      workspace = (run [.setStream "s" [3, 10, 1, 65, 2, 16, 99, 4, 10, 2, 4, 99, 4, 0, 0, 0] {},
        .openDocument "d" "s" {}, .newDocument "a", .addEntry "a",
        .changeIdentity (.identification (.inDocument "a" 0)) (.setFirstName (some "A")),
        .makeRef (.document "a") [1, 0, 1, 0] "r",
        .changeEntry (.inDocument "a" 0) (.addReviewer "r"),
        .newDocument "b"] {}).2 ∧
      (step (.documentText "d") workspace).1 = .text text ∧
      textLines text = ["Document \x7b", "  data \x7b", "    identification \x7b",
        "      first_name: \"A\"",
        "    \x7d",
        "    secret_identity: <unreadable: [PZ_MALFORMED_FRAME] truncated varint length prefix>",
        "  \x7d",
        "  data: <unreadable: [PZ_MALFORMED_FRAME] truncated varint length prefix>",
        "\x7d"].map String.toList ∧
      WellIndented 0 (textLines text) ∧ (step (.documentText "d") other).1 = .text less ∧
      LacksLine "  data: <unreadable: [PZ_MALFORMED_FRAME] truncated varint length prefix>".toList
        text less ∧
      ∃ mine theirs, (step (.documentText "a") workspace).1 = .text mine ∧
        (step (.documentText "b") workspace).1 = .text theirs ∧
        (mine = theirs ↔ (step (.equalDocuments "a" "b") workspace).1 = .flag true) := by
  obtain ⟨workspace, hworkspace⟩ : ∃ workspace, workspace =
    (run [.setStream "s" [3, 10, 1, 65, 2, 16, 99, 4, 10, 2, 4, 99, 4, 0, 0, 0] {},
      .openDocument "d" "s" {},
      .newDocument "a", .addEntry "a",
      .changeIdentity (.identification (.inDocument "a" 0)) (.setFirstName (some "A")),
      .makeRef (.document "a") [1, 0, 1, 0] "r",
      .changeEntry (.inDocument "a" 0) (.addReviewer "r"),
      .newDocument "b"] {}).2 := ⟨_, rfl⟩
  let bytes : Bytes := [3, 10, 1, 65, 2, 16, 99, 4, 10, 2, 4, 99, 4, 0, 0, 0]
  let stream : StreamId := .named "s" 1
  let library : Library := .only stream bytes.toArray
  let source : Source := { backing := .stream stream, codec := {} }
  let document : Document := Document.ofHeader ⟨1⟩ source ⟨[4, 99]⟩
  let rest : Document := { document with entries := document.entries.erase 1 }
  let identity : Identity := { stamp := ⟨⟨2⟩, ⟨[1, 0, 1, 0]⟩⟩, header := { firstName := some "A" } }
  let entry : Entry :=
    { stamp := ⟨⟨2⟩, ⟨[1, 0]⟩⟩, identification := { owned := some identity }
      reviewers := [⟨⟨2⟩, ⟨[1, 0, 1, 0]⟩⟩] }
  let content : EntryContent :=
    { identification := { firstName := some "A" }, secretIdentity := none, approver := none
      reviewers := [⟨[1, 0, 1, 0]⟩] }
  let mine : Document := { stamp := ⟨⟨2⟩, {}⟩, entries := ⟨#[some { owned := some entry }]⟩ }
  let failure : Error := .malformed .truncatedVarint
  let view : DocumentView :=
    [.ok { identification := some (.ok { firstName := some "A" })
           secretIdentity := some (.error failure)
           approver := none, reviewers := [] }, .error failure]
  have hdocument : workspace.documents.find? "d" = some document := by
    rw [hworkspace]
    decide +kernel
  have hmine : workspace.documents.find? "a" = some mine := by
    rw [hworkspace]
    decide +kernel
  have htheirs : workspace.documents.find? "b" = some { stamp := ⟨⟨3⟩, {}⟩ } := by
    rw [hworkspace]
    decide +kernel
  have hstream : workspace.streams.get stream =
      { content := bytes.toArray, seeks := [.start 7, .fromEnd 4, .fromEnd 0] } := by
    rw [hworkspace]
    decide +kernel
  have hholds : workspace.streams.Holds library := by
    have hcalm : (workspace.streams.get stream).Calm := hstream ▸ Stream.calm_mk _ _
    have honly := Streams.holds_only hcalm
    rwa [hstream] at honly
  -- What is found of the document can be told from its bytes.
  have hcontent : source.content? library = some bytes.toArray := Source.content?_only stream _ {}
  have hstored : DocumentView.stored source bytes.toArray [4, 99] = view := by decide +kernel
  have hview : document.Displays library view :=
    hstored ▸ Document.displays_ofHeader hcontent ⟨1⟩ [4, 99]
  have hmessages : ∀ error ∈ view.errors, OnLine error.message := by decide +kernel
  have hlines : view.lines.map Line.chars =
    ["Document \x7b", "  data \x7b", "    identification \x7b",
      "      first_name: \"A\"", "    \x7d",
      "    secret_identity: <unreadable: [PZ_MALFORMED_FRAME] truncated varint length prefix>",
      "  \x7d",
      "  data: <unreadable: [PZ_MALFORMED_FRAME] truncated varint length prefix>",
      "\x7d"].map String.toList := by
    decide +kernel
  have hline : (Line.mk 1 (unreadableText "data" failure)).chars =
      "  data: <unreadable: [PZ_MALFORMED_FRAME] truncated varint length prefix>".toList := by
        decide +kernel
  have hbroken : (Lazy.stored source 99).Broken library
    (Document.loadEntry document.stamp 1) failure := by
    have hframe : (source.frameAt bytes.toArray 99 : Except Error EntryHeader) =
      .error failure := by decide +kernel
    have hsettles := Document.settles_stored hcontent document.stamp 1 99
    rwa [show UInt64.toNat 99 = 99 by decide, hframe] at hsettles
  have hloses : document.Loses library ⟨1, unreadableText "data" failure⟩ rest := .entry rfl hbroken
  have hhas : mine.Has [content] := by
    refine ⟨rfl, fun i => ?_⟩
    cases i with
    | zero => exact .some ⟨entry, rfl, ⟨identity, rfl, rfl⟩, .none, rfl, rfl⟩
    | succ i => exact .none
  have hhas' : Document.Has { stamp := ⟨⟨3⟩, {}⟩ } [] := ⟨rfl, fun _ => .none⟩
  have hwhole : ∀ found ∈ [content] ++ ([] : List EntryContent), ∀ path ∈ found.references,
    path.IsWhole := by
    rw [List.append_nil, List.forall_mem_singleton]
    exact List.forall_mem_singleton.2 rfl
  clear_value view
  obtain ⟨hequal, -⟩ := documentText_faithful hmine hholds
  obtain ⟨-, ⟨shown, _, _, hstep, -, -, hunique, -, hshown⟩, hless⟩ :=
    documentText_faithful hdocument hholds
  obtain ⟨text, less, hprinted, hother, hlacks⟩ := hless view _ rest
    { workspace with documents := workspace.documents.set "d" rest } hview hmessages hloses
      (Table.find?_set_self ..)
    hholds
  obtain rfl : shown = view := (hunique view hview).symm
  obtain ⟨htext, hindented, -⟩ := hshown hmessages
  rw [hstep, Answer.text.injEq] at hprinted
  rw [hprinted] at hstep htext hindented
  rw [hline] at hlacks
  refine ⟨workspace, _, text, less, hworkspace, ?_, htext.trans hlines, hindented, hother, hlacks,
    hequal "b" _ [content] [] htheirs hhas.shows hhas'.shows hwhole⟩
  rw [hstep]

end Workspace
end FramedTree
