import FramedTree.Proofs.Spellings
import FramedTree.Proofs.TextBlocks

/-! # Lines of outlines

What has been found of a document, with the reasons why parts of it cannot be read, determines the
lines of its text. Every line is indented by two blanks for each block around it, and every block
ends where it began. A part that is not there has no lines; one that cannot be read has a single
line, whatever else is there.
-/

namespace FramedTree

open Outline (Line)

/-- What has been found of a child: nothing, its header, or the reason why it cannot be read. -/
abbrev ChildView := Option (Except Error IdentityHeader)

/-- What has been found of an entry. -/
@[ext]
structure EntryView where
  identification : ChildView
  secretIdentity : ChildView
  approver : Option Path
  reviewers : List Path
  deriving DecidableEq

/-- What has been found of a document: for each entry either what has been found of it or why it
cannot be read. -/
abbrev DocumentView := List (Except Error EntryView)

def unreadableText (name : String) (error : Error) : String :=
  name ++ ": <unreadable: " ++ error.message ++ ">"

def fieldLine {α : Type} (depth : Nat) (name : String) (text : α → String) (value : Option α) :
    List Line :=
  (value.map fun value => ⟨depth, name ++ text value⟩).toList

def reviewerLine (path : Path) : Line := ⟨2, "reviewers: -> " ++ path.text⟩

def blockLines (depth : Nat) (name : String) (inner : List Line) : List Line :=
  ⟨depth, name ++ " \x7b"⟩ :: (inner ++ [⟨depth, "\x7d"⟩])

theorem forall_mem_blockLines {p : Line → Prop} {depth : Nat} {name : String} {inner : List Line}
    (hopening : p ⟨depth, name ++ " \x7b"⟩) (hinner : ∀ line ∈ inner, p line)
    (hclosing : p ⟨depth, "\x7d"⟩) :
    ∀ line ∈ blockLines depth name inner, p line :=
  List.forall_mem_cons.2 ⟨hopening,
    List.forall_mem_append.2 ⟨hinner, List.forall_mem_singleton.2 hclosing⟩⟩

/-- The lines of an identity, one for each field that is set. -/
def IdentityHeader.lines (header : IdentityHeader) : List Line :=
  fieldLine 3 "first_name: " Text.quoted header.firstName ++
    fieldLine 3 "birth_year: " (fun year => toString year.toInt) header.birthYear

namespace ChildView

def lines (name : String) : ChildView → List Line
  | none => []
  | some (.ok header) => blockLines 2 name header.lines
  | some (.error error) => [⟨2, unreadableText name error⟩]

def outline (name : String) : ChildView → Outline
  | none => .absent name
  | some (.ok header) => .child name (Identity.outline { stamp := default, header })
  | some (.error error) => .unreadable name error

end ChildView

namespace EntryView

def lines (view : EntryView) : List Line :=
  view.identification.lines "identification" ++ (view.secretIdentity.lines "secret_identity" ++
    (fieldLine 2 "approver: -> " Path.text view.approver ++ view.reviewers.map reviewerLine))

def outline (view : EntryView) : List Outline :=
  [view.identification.outline "identification", view.secretIdentity.outline "secret_identity"] ++
    (view.approver.map fun path => Outline.reference "approver" path).toList ++
    view.reviewers.map fun path => Outline.reference "reviewers" path

end EntryView

namespace DocumentView

def entryLines : Except Error EntryView → List Line
  | .ok view => blockLines 1 "data" view.lines
  | .error error => [⟨1, unreadableText "data" error⟩]

def lines (view : DocumentView) : List Line := blockLines 0 "Document" (view.flatMap entryLines)

def text (view : DocumentView) : String := String.join (view.lines.map Line.render)

def entryOutline : Except Error EntryView → Outline
  | .ok view => .child "data" view.outline
  | .error error => .unreadable "data" error

end DocumentView

private theorem Outline.allLines_cons {depth : Nat} {field : Outline} {rest : List Outline}
    {first others : List Line} (h : lines depth field = (first, true))
    (hrest : allLines depth rest = (others, true)) :
    allLines depth (field :: rest) = (first ++ others, true) := by
  rw [allLines, h]
  dsimp only
  rw [if_pos rfl, hrest]

private theorem Outline.allLines_map {α : Type} {depth : Nat} {field : α → Outline}
    {linesOf : α → List Line} (h : ∀ value, lines depth (field value) = (linesOf value, true))
    (values : List α) :
    allLines depth (values.map field) = (values.flatMap linesOf, true) := by
  induction values with
  | nil => rfl
  | cons value values ih => exact allLines_cons (h value) ih

private theorem IdentityHeader.lines_outline (header : IdentityHeader) (stamp : Stamp) :
    Outline.allLines 3 (Identity.outline { stamp, header }) = (header.lines, true) := by
  obtain ⟨name, year⟩ := header
  cases name <;> cases year <;> rfl

private theorem ChildView.lines_outline (name : String) (view : ChildView) :
    Outline.lines 2 (view.outline name) = (view.lines name, true) := by
  rcases view with _ | error | header
  · rfl
  · rfl
  · rw [outline, Outline.lines, header.lines_outline]
    rfl

private theorem EntryView.lines_outline (view : EntryView) :
    Outline.allLines 2 view.outline = (view.lines, true) := by
  have hreviewers : Outline.allLines 2 (view.reviewers.map (Outline.reference "reviewers")) =
      (view.reviewers.map reviewerLine, true) := by
    rw [List.map_eq_flatMap (f := reviewerLine)]
    exact Outline.allLines_map (fun _ => rfl) view.reviewers
  have hreferences : Outline.allLines 2
    ((view.approver.map (Outline.reference "approver")).toList ++
      view.reviewers.map (Outline.reference "reviewers")) =
        (fieldLine 2 "approver: -> " Path.text view.approver ++ view.reviewers.map reviewerLine,
          true) := by
    cases view.approver with
    | none => exact hreviewers
    | some path => exact Outline.allLines_cons rfl hreviewers
  exact Outline.allLines_cons (view.identification.lines_outline _)
    (Outline.allLines_cons (view.secretIdentity.lines_outline _) hreferences)

private theorem DocumentView.lines_outline (view : Except Error EntryView) :
    Outline.lines 1 (entryOutline view) = (entryLines view, true) := by
  rcases view with error | view
  · rfl
  · rw [entryOutline, Outline.lines, view.lines_outline]
    rfl

theorem DocumentView.render_outline (view : DocumentView) :
    Outline.render "Document" (view.map entryOutline) = (view.text, true) := by
  rw [Outline.render, Outline.lines, Outline.allLines_map lines_outline]
  rfl

/-- The lines of a text, each of which ends with a line break. -/
def textLines (text : String) : List (List Char) := (text.toList.splitOn '\n').dropLast

def indent (line : List Char) : Nat := (line.takeWhile (· == ' ')).length

def opensBlock (line : List Char) : Bool := line.getLast? == some '\x7b'

def closesBlock (line : List Char) : Bool := line.dropWhile (· == ' ') == ['\x7d']

/-- From inside `depth` blocks on, every line begins with two blanks for each block around it, and
every block is closed. The line that closes a block is not inside it, so that it stands where the
block was opened. -/
def WellIndented : (depth : Nat) → List (List Char) → Prop
  | depth, [] => depth = 0
  | depth, line :: rest =>
    if closesBlock line then 0 < depth ∧ indent line = 2 * (depth - 1) ∧
      WellIndented (depth - 1) rest
    else indent line = 2 * depth ∧ WellIndented (if opensBlock line then depth + 1 else depth) rest

def Outline.Line.chars (line : Line) : List Char :=
  List.replicate (2 * line.depth) ' ' ++ line.text.toList

private theorem Outline.Line.toList_render (line : Line) :
    line.render.toList = line.chars ++ ['\n'] := by
  have hblanks (depth : Nat) : (String.join (List.replicate depth "  ")).toList =
    List.replicate (2 * depth) ' ' := by
    induction depth with
    | zero => rfl
    | succ depth ih =>
      rw [List.replicate_succ, String.join_cons, String.toList_append, ih]
      rfl
  rw [render, String.toList_append, String.toList_append, hblanks]
  rfl

/-- A text of lines has these lines, if none of them is broken. -/
theorem textLines_render {lines : List Line} (h : ∀ line ∈ lines, OnLine line.text) :
    textLines (String.join (lines.map Line.render)) = lines.map Line.chars := by
  have hsplit : (String.join (lines.map Line.render)).toList.splitOn '\n' =
    lines.map Line.chars ++ [[]] := by
    induction lines with
    | nil => rfl
    | cons line rest ih =>
      obtain ⟨hline, hrest⟩ := List.forall_mem_cons.1 h
      have hchars : ∀ c ∈ line.chars, (c == '\n') = false := by
        intro c hc
        rw [beq_eq_false_iff_ne]
        rintro rfl
        rcases List.mem_append.1 hc with hblank | htext
        · exact absurd (List.eq_of_mem_replicate hblank) (by decide)
        · exact hline htext
      rw [List.map_cons, String.join_cons, String.toList_append, Outline.Line.toList_render,
        List.append_assoc, List.singleton_append]
      exact (List.splitOnP_append_cons_of_forall_mem hchars '\n' rfl _).trans
        (congrArg _ (ih hrest))
  rw [textLines, hsplit, List.dropLast_concat]

/-- The text begins with neither a blank nor a brace that closes. -/
def Begins (text : String) : Prop := ∃ c rest, text.toList = c :: rest ∧ c ≠ ' ' ∧ c ≠ '\x7d'

theorem Begins.append {first : String} (h : Begins first) (second : String) :
    Begins (first ++ second) := by
  obtain ⟨c, rest, htext, hc⟩ := h
  exact ⟨c, rest ++ second.toList, by rw [String.toList_append, htext, List.cons_append], hc⟩

/-- The text does not look like the first line of a block. -/
def Finishes (text : String) : Prop := text.toList.getLast? ≠ some '\x7b'

private theorem finishes_concat (text : String) (c : Char) (hc : c ≠ '\x7b') (spelling : List Char)
    (h : text.toList = spelling ++ [c]) : Finishes text := by
  rw [Finishes, h, List.getLast?_concat]
  exact fun heq => hc (Option.some.inj heq)

/-- The lines of fields, all at one depth, with the blocks among them. -/
inductive FieldLines : (depth : Nat) → List Line → Prop where
  | nil {depth : Nat} : FieldLines depth []
  | plain {depth : Nat} {text : String} {rest : List Line} (hbegins : Begins text)
      (hfinishes : Finishes text)
      (h : FieldLines depth rest) : FieldLines depth (⟨depth, text⟩ :: rest)
  | block {depth : Nat} {name : String} {inner rest : List Line} (hname : Begins name)
      (hinner : FieldLines (depth + 1) inner) (h : FieldLines depth rest) :
      FieldLines depth (blockLines depth name inner ++ rest)

private theorem FieldLines.append {depth : Nat} {first second : List Line}
    (h : FieldLines depth first) (h' : FieldLines depth second) :
    FieldLines depth (first ++ second) := by
  induction h with
  | nil => exact h'
  | plain hbegins hfinishes _ ih => exact .plain hbegins hfinishes (ih h')
  | block hname hinner _ _ ih =>
    rw [List.append_assoc]
    exact .block hname hinner (ih h')

private theorem FieldLines.flatMap {α : Type} {depth : Nat} {linesOf : α → List Line}
    (h : ∀ value, FieldLines depth (linesOf value)) (values : List α) :
    FieldLines depth (values.flatMap linesOf) := by
  induction values with
  | nil => exact .nil
  | cons value values ih => exact (h value).append ih

/-- A line is its indentation and its text. -/
theorem Outline.Line.split_chars {line : Line} {c : Char} {rest : List Char}
    (h : line.text.toList = c :: rest) (hc : c ≠ ' ') :
    indent line.chars = 2 * line.depth ∧ line.chars.dropWhile (· == ' ') = c :: rest := by
  have hblanks : ∀ b ∈ List.replicate (2 * line.depth) ' ', (b == ' ') = true := by
    intro b hb
    rw [List.eq_of_mem_replicate hb]
    rfl
  have hstop : ¬ (c == ' ') = true := by rwa [beq_iff_eq]
  constructor
  · rw [indent, chars, h, List.takeWhile_append_of_pos hblanks,
      List.takeWhile_cons_of_neg (p := (· == ' ')) hstop, List.append_nil, List.length_replicate]
  · rw [chars, h, List.dropWhile_append_of_pos hblanks,
      List.dropWhile_cons_of_neg (p := (· == ' ')) hstop]

private theorem Begins.chars {line : Line} (h : Begins line.text) :
    indent line.chars = 2 * line.depth ∧ closesBlock line.chars = false ∧
      opensBlock line.chars = (line.text.toList.getLast? == some '\x7b') := by
  obtain ⟨c, rest, htext, hblank, hclosing⟩ := h
  obtain ⟨hindent, hdrop⟩ := Outline.Line.split_chars htext hblank
  refine ⟨hindent, ?_, ?_⟩
  · rw [closesBlock, hdrop, beq_eq_false_iff_ne]
    exact fun heq => hclosing (List.cons.inj heq).1
  · rw [opensBlock, Outline.Line.chars,
      List.getLast?_append_of_ne_nil _ (htext ▸ List.cons_ne_nil _ _)]

private theorem closing_chars (depth : Nat) :
    indent (Line.mk depth "\x7d").chars = 2 * depth ∧
    closesBlock (Line.mk depth "\x7d").chars = true := by
  have htext : "\x7d".toList = ['\x7d'] := by decide
  have hline : (Line.mk depth "\x7d").text.toList = ['\x7d'] := htext
  obtain ⟨hindent, hdrop⟩ := Outline.Line.split_chars hline (by decide)
  exact ⟨hindent, by rw [closesBlock, hdrop]; rfl⟩

private theorem FieldLines.wellIndented {depth : Nat} {lines : List Line}
    (h : FieldLines depth lines) {more : List (List Char)} (hmore : WellIndented depth more) :
    WellIndented depth (lines.map Line.chars ++ more) := by
  induction h generalizing more with
  | nil => exact hmore
  | @plain depth text rest hbegins hfinishes _ ih =>
    have hline : Begins (Line.mk depth text).text := hbegins
    obtain ⟨hindent, hcloses, hopens⟩ := hline.chars
    have hno : opensBlock (Line.mk depth text).chars = false := by
      rw [hopens, beq_eq_false_iff_ne]
      exact hfinishes
    rw [List.map_cons, List.cons_append, WellIndented, hcloses, hno]
    exact ⟨hindent, ih hmore⟩
  | @block depth name inner rest hname _ _ ihinner ih =>
    have hline : Begins (Line.mk depth (name ++ " \x7b")).text := hname.append _
    obtain ⟨hindent, hcloses, hopens⟩ := hline.chars
    have hyes : opensBlock (Line.mk depth (name ++ " \x7b")).chars = true := by
      rw [hopens, String.toList_append, beq_iff_eq]
      exact List.getLast?_append_of_ne_nil _ (List.cons_ne_nil _ _)
    obtain ⟨hindent', hcloses'⟩ := closing_chars depth
    -- Inside the block the depth is one more, until its last line takes it back.
    have hclosing : WellIndented (depth + 1)
      ((Line.mk depth "\x7d").chars :: (rest.map Line.chars ++ more)) := by
      rw [WellIndented, if_pos hcloses']
      exact ⟨Nat.succ_pos depth, hindent', ih hmore⟩
    simp only [blockLines, List.cons_append, List.map_cons, List.map_append, List.append_assoc,
      List.nil_append]
    rw [WellIndented, hcloses, hyes]
    exact ⟨hindent, ihinner hclosing⟩

private theorem begins_names :
    Begins "Document" ∧ Begins "data" ∧ Begins "identification" ∧ Begins "secret_identity" := by
  refine ⟨⟨'D', "ocument".toList, ?_⟩, ⟨'d', "ata".toList, ?_⟩, ⟨'i', "dentification".toList, ?_⟩,
    ⟨'s', "ecret_identity".toList, ?_⟩⟩ <;> decide

private theorem finishes_of_notMem {text : String} (h : '\x7b' ∉ text.toList) : Finishes text :=
  fun hlast => h (List.mem_of_getLast? hlast)

private theorem finishes_unreadableText (name : String) (error : Error) :
    Finishes (unreadableText name error) := by
  refine finishes_concat _ '>' (by decide) (name ++ ": <unreadable: " ++ error.message).toList ?_
  rw [unreadableText, String.toList_append]
  rfl

private theorem finishes_quoted (name text : String) : Finishes (name ++ Text.quoted text) := by
  refine finishes_concat _ '"' (by decide)
    (name.toList ++ '"' :: text.toList.flatMap Text.escapeChar) ?_
  rw [String.toList_append, Text.toList_quoted, List.append_assoc, List.cons_append]

private theorem finishes_numeric {name text : String} (hname : '\x7b' ∉ name.toList)
    (h : ∀ c ∈ text.toList, IsNumeric c = true) : Finishes (name ++ text) := by
  refine finishes_of_notMem ?_
  rw [String.toList_append, List.mem_append]
  exact not_or.2 ⟨hname, fun hmem => absurd (h _ hmem) (by decide)⟩

private theorem onLine_numeric {text : String} (h : ∀ c ∈ text.toList, IsNumeric c = true) :
    OnLine text :=
  fun hmem => absurd (h _ hmem) (by decide)

private theorem FieldLines.field {α : Type} {depth : Nat} {name : String} {text : α → String}
    (hname : Begins name) (hfinishes : ∀ value, Finishes (name ++ text value)) (value : Option α) :
    FieldLines depth (fieldLine depth name text value) := by
  cases value with
  | none => exact .nil
  | some value => exact .plain (hname.append _) (hfinishes value) .nil

private theorem FieldLines.enclosed {depth : Nat} {name : String} {inner : List Line}
    (hname : Begins name) (h : FieldLines (depth + 1) inner) :
    FieldLines depth (blockLines depth name inner) := by
  have hblock := FieldLines.block hname h .nil
  rwa [List.append_nil] at hblock

theorem IdentityHeader.fieldLines (header : IdentityHeader) : FieldLines 3 header.lines := by
  have hname : Begins "first_name: " := ⟨'f', "irst_name: ".toList, by decide⟩
  have hyear : Begins "birth_year: " := ⟨'b', "irth_year: ".toList, by decide⟩
  exact (FieldLines.field hname (fun _ => finishes_quoted _ _) header.firstName).append
    (FieldLines.field hyear
      (fun _ => finishes_numeric (by decide) fun _ => isNumeric_toString) header.birthYear)

private theorem ChildView.fieldLines {name : String} (hname : Begins name) (view : ChildView) :
    FieldLines 2 (view.lines name) := by
  rcases view with _ | error | header
  · exact .nil
  · exact .plain (((hname.append _).append _).append _) (finishes_unreadableText name error) .nil
  · exact header.fieldLines.enclosed hname

theorem EntryView.fieldLines (view : EntryView) : FieldLines 2 view.lines := by
  obtain ⟨-, -, hidentification, hsecret⟩ := begins_names
  have happrover : Begins "approver: -> " := ⟨'a', "pprover: -> ".toList, by decide⟩
  have hreviewers : Begins "reviewers: -> " := ⟨'r', "eviewers: -> ".toList, by decide⟩
  have hpath {name : String} (hname : '\x7b' ∉ name.toList) (path : Path) :
    Finishes (name ++ path.text) :=
    finishes_numeric hname fun _ => Path.isNumeric_text
  refine (view.identification.fieldLines hidentification).append
    ((view.secretIdentity.fieldLines hsecret).append
    ((FieldLines.field happrover (hpath (by decide)) view.approver).append ?_))
  rw [List.map_eq_flatMap (f := reviewerLine)]
  exact FieldLines.flatMap
    (fun path => .plain (hreviewers.append _) (hpath (by decide) path) .nil) view.reviewers

theorem DocumentView.fieldLines_entries (view : DocumentView) :
    FieldLines 1 (view.flatMap entryLines) := by
  obtain ⟨-, hdata, -⟩ := begins_names
  refine FieldLines.flatMap (fun found => ?_) view
  rcases found with error | found
  · exact .plain (((hdata.append _).append _).append _) (finishes_unreadableText _ error) .nil
  · exact found.fieldLines.enclosed hdata

theorem DocumentView.fieldLines (view : DocumentView) : FieldLines 0 view.lines :=
  view.fieldLines_entries.enclosed begins_names.1

def ChildView.errors : ChildView → List Error
  | some (.error error) => [error]
  | _ => []

/-- The reasons that have been found in one entry of a document, or for it. -/
def DocumentView.entryErrors : Except Error EntryView → List Error
  | .ok view => view.identification.errors ++ view.secretIdentity.errors
  | .error error => [error]

def DocumentView.errors (view : DocumentView) : List Error := view.flatMap entryErrors

def AllOnLine (lines : List Line) : Prop := ∀ line ∈ lines, OnLine line.text

private theorem AllOnLine.append {first second : List Line} (h : AllOnLine first)
    (h' : AllOnLine second) :
    AllOnLine (first ++ second) :=
      fun line hline => (List.mem_append.1 hline).elim (h line) (h' line)

private theorem AllOnLine.field {α : Type} {depth : Nat} {name : String} {text : α → String}
    (hname : OnLine name) (h : ∀ value, OnLine (text value)) (value : Option α) :
    AllOnLine (fieldLine depth name text value) := by
  cases value with
  | none => nofun
  | some value => exact List.forall_mem_singleton.2 (hname.append (h value))

private theorem AllOnLine.enclosed {depth : Nat} {name : String} {inner : List Line}
    (hname : OnLine name) (h : AllOnLine inner) : AllOnLine (blockLines depth name inner) :=
  have hclosing : OnLine "\x7d" := by decide
  forall_mem_blockLines (hname.append (by decide)) h hclosing

private theorem onLine_unreadableText {name : String} (hname : OnLine name) {error : Error}
    (h : OnLine error.message) :
    OnLine (unreadableText name error) := ((hname.append (by decide)).append h).append (by decide)

private theorem IdentityHeader.allOnLine (header : IdentityHeader) : AllOnLine header.lines :=
  (AllOnLine.field (by decide) Text.quoted_onLine header.firstName).append
    (AllOnLine.field (by decide)
      (fun _ => onLine_numeric fun _ => isNumeric_toString) header.birthYear)

private theorem ChildView.allOnLine {name : String} (hname : OnLine name) {view : ChildView}
    (h : ∀ error ∈ view.errors, OnLine error.message) : AllOnLine (view.lines name) := by
  rcases view with _ | error | header
  · nofun
  · exact List.forall_mem_singleton.2 (onLine_unreadableText hname (h error List.mem_cons_self))
  · exact header.allOnLine.enclosed hname

private theorem EntryView.allOnLine {view : EntryView}
    (h : ∀ error ∈ view.identification.errors ++ view.secretIdentity.errors, OnLine error.message) :
    AllOnLine view.lines := by
  have hpath (path : Path) : OnLine path.text := onLine_numeric fun _ => Path.isNumeric_text
  rw [List.forall_mem_append] at h
  refine (ChildView.allOnLine (by decide) h.1).append ((ChildView.allOnLine (by decide) h.2).append
    ((AllOnLine.field (by decide) hpath view.approver).append ?_))
  rintro line hline
  obtain ⟨path, -, rfl⟩ := List.mem_map.1 hline
  exact OnLine.append (by decide) (hpath path)

/-- No line of a document is broken, unless a reason is. -/
theorem DocumentView.allOnLine {view : DocumentView}
    (h : ∀ error ∈ view.errors, OnLine error.message) :
    AllOnLine view.lines := by
  refine AllOnLine.enclosed (by decide) fun line hline => ?_
  obtain ⟨found, hfound, hline⟩ := List.mem_flatMap.1 hline
  have herrors : ∀ error ∈ entryErrors found, OnLine error.message :=
    fun error herror => h error (List.mem_flatMap.2 ⟨found, hfound, herror⟩)
  rcases found with error | found
  · rw [List.mem_singleton.1 hline]
    exact onLine_unreadableText (by decide) (herrors error List.mem_cons_self)
  · exact (EntryView.allOnLine herrors).enclosed (by decide) line hline

/-- The lines of the text of a document are those of what has been found, and they are indented as
they should be. -/
theorem DocumentView.textLines_text {view : DocumentView}
    (h : ∀ error ∈ view.errors, OnLine error.message) :
    textLines view.text = view.lines.map Line.chars ∧ WellIndented 0 (textLines view.text) := by
  have hlines : textLines view.text = view.lines.map Line.chars := textLines_render (allOnLine h)
  have hend : WellIndented 0 [] := rfl
  have hindented := view.fieldLines.wellIndented hend
  rw [List.append_nil] at hindented
  exact ⟨hlines, hlines ▸ hindented⟩

/-- The second view is the first one without a part that cannot be read, which has the given
line. -/
inductive Without : DocumentView → Line → DocumentView → Prop where
  | entry (above below : DocumentView) (error : Error) :
    Without (above ++ .error error :: below) ⟨1, unreadableText "data" error⟩ (above ++ below)
  | identification (above below : DocumentView) (view : EntryView) (error : Error) :
    Without (above ++ .ok { view with identification := some (.error error) } :: below)
      ⟨2, unreadableText "identification" error⟩
        (above ++ .ok { view with identification := none } :: below)
  | secretIdentity (above below : DocumentView) (view : EntryView) (error : Error) :
    Without (above ++ .ok { view with secretIdentity := some (.error error) } :: below)
      ⟨2, unreadableText "secret_identity" error⟩
        (above ++ .ok { view with secretIdentity := none } :: below)

/-- The second lines are the first ones without one of them. -/
def LineLess (line : Line) (lines rest : List Line) : Prop :=
  ∃ above below, lines = above ++ line :: below ∧ rest = above ++ below

private theorem lineLess_singleton (line : Line) : LineLess line [line] [] := ⟨[], [], rfl, rfl⟩

private theorem LineLess.within {line : Line} {lines rest : List Line}
    (h : LineLess line lines rest) (before after : List Line) :
    LineLess line (before ++ (lines ++ after)) (before ++ (rest ++ after)) := by
  obtain ⟨above, below, rfl, rfl⟩ := h
  exact ⟨before ++ above, below ++ after, by simp, by simp⟩

private theorem LineLess.enclosed {line : Line} {lines rest : List Line}
    (h : LineLess line lines rest) (depth : Nat) (name : String) :
    LineLess line (blockLines depth name lines) (blockLines depth name rest) :=
  h.within [⟨depth, name ++ " \x7b"⟩] [⟨depth, "\x7d"⟩]

private theorem DocumentView.lineLess (above below : DocumentView) {found : Except Error EntryView}
    {line : Line} {rest : DocumentView}
    (h : LineLess line (entryLines found) (rest.flatMap entryLines)) :
    LineLess line (lines (above ++ found :: below)) (lines (above ++ rest ++ below)) := by
  have hwithin :=
    (h.within (above.flatMap entryLines) (below.flatMap entryLines)).enclosed 0 "Document"
  rw [lines, lines, List.append_assoc, List.flatMap_append, List.flatMap_append,
    List.flatMap_append, List.flatMap_cons]
  exact hwithin

/-- A part that cannot be read has one line, and all others are as they would be without it. -/
theorem Without.lineLess {view rest : DocumentView} {line : Line} (h : Without view line rest) :
    LineLess line view.lines rest.lines := by
  -- An entry of which a child is left out has the lines of that entry less one.
  have hentry {above below : DocumentView} {found other : EntryView} {line : Line}
      (hlines : LineLess line found.lines other.lines) :
      LineLess line (DocumentView.lines (above ++ .ok found :: below))
        (DocumentView.lines (above ++ .ok other :: below)) := by
    have hfound : LineLess line (DocumentView.entryLines (.ok found))
        (List.flatMap DocumentView.entryLines [.ok other]) := by
      rw [List.flatMap_singleton]
      exact hlines.enclosed 1 "data"
    have hless := DocumentView.lineLess above below hfound
    rwa [List.append_assoc, List.singleton_append] at hless
  cases h with
  | entry above below error =>
    have hfound : LineLess ⟨1, unreadableText "data" error⟩ (DocumentView.entryLines (.error error))
        (List.flatMap DocumentView.entryLines []) := lineLess_singleton _
    have hless := DocumentView.lineLess above below hfound
    rwa [List.append_nil] at hless
  | identification above below view error => exact hentry ((lineLess_singleton _).within [] _)
  | secretIdentity above below view error =>
    exact hentry ((lineLess_singleton _).within (view.identification.lines "identification") _)

end FramedTree
