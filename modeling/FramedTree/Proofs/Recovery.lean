import FramedTree.Proofs.Contents
import FramedTree.Proofs.TextLines

/-! # Contents told from their texts

The text of a document that has been read as a whole says what is in it. A block ends with the last
line that is deeper than its first one, a part that may be missing is known by the letter it begins
with, and what stands behind a name can be read back.
-/

namespace FramedTree

open Outline (Line)

def EntryContent.view (content : EntryContent) : EntryView where
  identification := some (.ok content.identification)
  secretIdentity := content.secretIdentity.map .ok
  approver := content.approver
  reviewers := content.reviewers

def EntryContent.references (content : EntryContent) : List Path :=
  content.approver.toList ++ content.reviewers

def DocumentView.ofContents (contents : List EntryContent) : DocumentView :=
  contents.map fun content => .ok content.view

private theorem EntryContent.view_outline (content : EntryContent) :
    content.view.outline = content.outline := by
  obtain ⟨identification, secretIdentity, approver, reviewers⟩ := content
  cases secretIdentity <;> rfl

theorem Document.textOf_eq (contents : List EntryContent) :
    textOf contents = DocumentView.text (DocumentView.ofContents contents) := by
  have hfields : contents.map (fun content => Outline.child "data" content.outline) =
      (DocumentView.ofContents contents).map DocumentView.entryOutline := by
    rw [DocumentView.ofContents, List.map_map]
    exact List.map_congr_left fun content _ =>
      congrArg (Outline.child "data") content.view_outline.symm
  rw [textOf, hfields, DocumentView.render_outline]

private theorem DocumentView.errors_ofContents (contents : List EntryContent) :
    (ofContents contents).errors = [] := by
  rw [errors, List.flatMap_eq_nil_iff]
  intro found hfound
  obtain ⟨content, -, rfl⟩ := List.mem_map.1 hfound
  obtain ⟨identification, secretIdentity, approver, reviewers⟩ := content
  cases secretIdentity <;> rfl

private theorem FieldLines.depth_le {depth : Nat} {lines : List Line} (h : FieldLines depth lines) :
    ∀ line ∈ lines, depth ≤ line.depth := by
  induction h with
  | nil => nofun
  | plain _ _ _ ih => exact List.forall_mem_cons.2 ⟨Nat.le_refl _, ih⟩
  | block _ _ _ ihinner ih =>
    refine List.forall_mem_append.2
      ⟨forall_mem_blockLines (Nat.le_refl _) (fun line hline => ?_) (Nat.le_refl _), ih⟩
    exact Nat.le_of_succ_le (ihinner line hline)

private theorem FieldLines.visible {depth : Nat} {lines : List Line} (h : FieldLines depth lines) :
    ∀ line ∈ lines, ∃ c rest, line.text.toList = c :: rest ∧ c ≠ ' ' := by
  have hclosing : "\x7d".toList = ['\x7d'] := by decide
  have hbegins {line : Line} : Begins line.text → ∃ c rest,
    line.text.toList = c :: rest ∧ c ≠ ' ' :=
    fun ⟨c, rest, htext, hblank, _⟩ => ⟨c, rest, htext, hblank⟩
  induction h with
  | nil => nofun
  | plain hline _ _ ih => exact List.forall_mem_cons.2 ⟨hbegins hline, ih⟩
  | block hname _ _ ihinner ih =>
    exact List.forall_mem_append.2 ⟨forall_mem_blockLines (hbegins (hname.append _)) ihinner
      ⟨'\x7d', [], hclosing, by decide⟩, ih⟩

private theorem chars_inj {depth depth' : Nat} {lines lines' : List Line}
    (h : FieldLines depth lines) (h' : FieldLines depth' lines')
    (heq : lines.map Line.chars = lines'.map Line.chars) : lines = lines' := by
  rw [List.map_eq_flatMap, List.map_eq_flatMap] at heq
  refine flatMap_inj (fun _ => List.cons_ne_nil _ _)
    (fun line hline line' hline' rest rest' hrow => ?_) heq
  obtain ⟨hchars, hrest⟩ := List.cons.inj hrow
  obtain ⟨c, text, htext, hc⟩ := h.visible line hline
  obtain ⟨c', text', htext', hc'⟩ := h'.visible line' hline'
  obtain ⟨hindent, hdrop⟩ := Outline.Line.split_chars htext hc
  obtain ⟨hindent', hdrop'⟩ := Outline.Line.split_chars htext' hc'
  rw [hchars, hindent'] at hindent
  rw [hchars, hdrop', ← htext, ← htext'] at hdrop
  obtain ⟨depth, text⟩ := line
  obtain ⟨depth', text'⟩ := line'
  obtain rfl : depth' = depth := Nat.eq_of_mul_eq_mul_left Nat.two_pos hindent
  obtain rfl : text' = text := String.toList_inj.1 hdrop
  exact ⟨rfl, hrest⟩

private theorem blockLines_inj {depth : Nat} {name : String} {inner inner' rest rest' : List Line}
    (h : FieldLines (depth + 1) inner) (h' : FieldLines (depth + 1) inner')
    (heq : blockLines depth name inner ++ rest = blockLines depth name inner' ++ rest') :
    inner = inner' ∧ rest = rest' := by
  have hdeeper {lines : List Line} (h : FieldLines (depth + 1) lines) :
      ∀ line ∈ lines, decide (depth < line.depth) = true :=
        fun line hline => decide_eq_true (h.depth_le line hline)
  have hstop (lines : List Line) :
      ∀ line ∈ (Line.mk depth "\x7d" :: lines).head?, decide (depth < line.depth) = false := by
    rintro _ ⟨⟩
    exact decide_eq_false (Nat.lt_irrefl depth)
  simp only [blockLines, List.cons_append, List.append_assoc, List.nil_append] at heq
  obtain ⟨hinner, hbehind⟩ := append_inj_of_stop (hdeeper h) (hdeeper h') (hstop rest) (hstop rest')
    (List.cons.inj heq).2
  exact ⟨hinner, (List.cons.inj hbehind).2⟩

def Outline.Line.initial (line : Line) : Option Char := line.text.toList.head?

private theorem Outline.Line.initial_append {c : Char} {name : String}
    (h : name.toList.head? = some c) (depth : Nat) (text : String) :
    (Line.mk depth (name ++ text)).initial = some c := by
  rw [initial, String.toList_append, List.head?_append_of_ne_nil _ fun hnil => nomatch hnil ▸ h]
  exact h

private theorem option_inj {α : Type} (part : Option α → List Line) (initial : Char)
    {x y : Option α} {rest rest' : List Line} (hnone : part none = [])
    (hsome : ∀ value, ∃ line others,
      part (some value) = line :: others ∧ line.initial = some initial)
    (hrest : ∀ line ∈ rest, line.initial ≠ some initial)
    (hrest' : ∀ line ∈ rest', line.initial ≠ some initial)
    (hinj : ∀ value ∈ x, ∀ value' ∈ y, part (some value) ++ rest = part (some value') ++ rest' →
      value = value' ∧ rest = rest')
    (h : part x ++ rest = part y ++ rest') : x = y ∧ rest = rest' := by
  cases x with
  | none =>
    cases y with
    | none =>
      rw [hnone] at h
      exact ⟨rfl, h⟩
    | some value' =>
      obtain ⟨line, others, hpart, hline⟩ := hsome value'
      rw [hnone, hpart, List.nil_append] at h
      exact absurd hline (hrest line (h ▸ List.mem_cons_self))
  | some value =>
    cases y with
    | none =>
      obtain ⟨line, others, hpart, hline⟩ := hsome value
      rw [hnone, hpart, List.nil_append] at h
      exact absurd hline (hrest' line (h ▸ List.mem_cons_self))
    | some value' =>
      obtain ⟨rfl, hsame⟩ := hinj value rfl value' rfl h
      exact ⟨rfl, hsame⟩

private theorem named_inj {name text text' : String} (h : name ++ text = name ++ text') :
    text = text' := by
  have hlist := congrArg String.toList h
  rw [String.toList_append, String.toList_append] at hlist
  exact String.toList_inj.1 (List.append_cancel_left hlist)

section Fields

variable {α : Type} {depth : Nat} {name : String} {text : α → String} (initial : Char)

private theorem initial_fieldLine (hname : name.toList.head? = some initial) (value : Option α) :
    ∀ line ∈ fieldLine depth name text value, line.initial = some initial := by
  cases value with
  | none => nofun
  | some value => exact List.forall_mem_singleton.2 (Outline.Line.initial_append hname _ _)

private theorem fieldLine_inj {x y : Option α} {rest rest' : List Line}
    (hname : name.toList.head? = some initial) (hrest : ∀ line ∈ rest, line.initial ≠ some initial)
    (hrest' : ∀ line ∈ rest', line.initial ≠ some initial)
    (htext : ∀ value ∈ x, ∀ value' ∈ y, text value = text value' → value = value')
    (h : fieldLine depth name text x ++ rest = fieldLine depth name text y ++ rest') :
    x = y ∧ rest = rest' := by
  refine option_inj (fieldLine depth name text) initial rfl
    (fun value => ⟨_, [], rfl, Outline.Line.initial_append hname _ _⟩) hrest hrest'
      (fun value hx value' hy heq => ?_) h
  obtain ⟨hline, hsame⟩ := List.cons.inj heq
  exact ⟨htext value hx value' hy (named_inj (Line.mk.inj hline).2), hsame⟩

end Fields

private theorem IdentityHeader.lines_injective : Function.Injective IdentityHeader.lines := by
  rintro ⟨name, year⟩ ⟨name', year'⟩ h
  have hyear (year : Option Int32) :
      ∀ line ∈ fieldLine 3 "birth_year: " (fun year : Int32 => toString year.toInt) year,
        line.initial ≠ some 'f' := by
    intro line hline
    rw [initial_fieldLine 'b' (by decide) year line hline]
    decide
  obtain ⟨rfl, hrest⟩ := fieldLine_inj 'f' (by decide) (hyear year) (hyear year')
    (fun _ _ _ _ hquoted => Text.quoted_injective hquoted) h
  rw [← List.append_nil (fieldLine _ _ _ year), ← List.append_nil (fieldLine _ _ _ year')] at hrest
  obtain ⟨rfl, -⟩ := fieldLine_inj 'b' (by decide) (List.forall_mem_nil _) (List.forall_mem_nil _)
    (fun _ _ _ _ hnumber => Int32.toInt_inj.1 (int_toString_injective hnumber)) hrest
  rfl

private theorem EntryContent.lines_inj {content content' : EntryContent}
    (hwhole : ∀ path ∈ content.references, path.IsWhole)
    (hwhole' : ∀ path ∈ content'.references, path.IsWhole)
    (h : content.view.lines = content'.view.lines) :
    content = content' := by
  obtain ⟨identification, secretIdentity, approver, reviewers⟩ := content
  obtain ⟨identification', secretIdentity', approver', reviewers'⟩ := content'
  obtain ⟨happrover, hreviewers⟩ := List.forall_mem_append.1 hwhole
  obtain ⟨happrover', hreviewers'⟩ := List.forall_mem_append.1 hwhole'
  have hrow (reviewers : List Path) : ∀ line ∈ reviewers.map reviewerLine,
    line.initial = some 'r' := by
    rw [List.forall_mem_map]
    exact fun path _ => Outline.Line.initial_append (by decide) _ _
  have hreferences (approver : Option Path) (reviewers : List Path) :
      ∀ line ∈ fieldLine 2 "approver: -> " Path.text approver ++ reviewers.map reviewerLine,
        line.initial ≠ some 's' := by
    refine List.forall_mem_append.2 ⟨fun line hline => ?_, fun line hline => ?_⟩
    · rw [initial_fieldLine 'a' (by decide) approver line hline]
      decide
    · rw [hrow reviewers line hline]
      decide
  have hblock {name : String} {header header' : IdentityHeader} {rest rest' : List Line}
      (h : blockLines 2 name header.lines ++ rest = blockLines 2 name header'.lines ++ rest') :
      header = header' ∧ rest = rest' := by
    obtain ⟨hlines, hrest⟩ := blockLines_inj header.fieldLines header'.fieldLines h
    exact ⟨IdentityHeader.lines_injective hlines, hrest⟩
  obtain ⟨rfl, hbehind⟩ := hblock h
  obtain ⟨rfl, hreferring⟩ := option_inj (fun secret : Option IdentityHeader =>
      ChildView.lines "secret_identity" (secret.map .ok)) 's' rfl
    (fun header => ⟨_, _, rfl, Outline.Line.initial_append (by decide) _ _⟩)
      (hreferences approver reviewers)
    (hreferences approver' reviewers') (fun header _ header' _ => hblock) hbehind
  have hsame : ∀ path ∈ approver, ∀ path' ∈ approver', path.text = path'.text → path = path' :=
    fun path hpath path' hpath' =>
      Path.text_inj (happrover path (Option.mem_toList.2 hpath))
        (happrover' path' (Option.mem_toList.2 hpath'))
  have hothers (reviewers : List Path) : ∀ line ∈ reviewers.map reviewerLine,
    line.initial ≠ some 'a' := by
    intro line hline
    rw [hrow reviewers line hline]
    decide
  obtain ⟨rfl, hreviewing⟩ :=
    fieldLine_inj 'a' (by decide) (hothers reviewers) (hothers reviewers') hsame hreferring
  rw [List.map_eq_flatMap, List.map_eq_flatMap] at hreviewing
  have hlist : reviewers = reviewers' := by
    refine flatMap_inj (fun _ => List.cons_ne_nil _ _)
      (fun path hpath path' hpath' rest rest' heq => ?_) hreviewing
    obtain ⟨hline, hrest⟩ := List.cons.inj heq
    exact ⟨Path.text_inj (hreviewers path hpath) (hreviewers' path' hpath')
      (named_inj (Line.mk.inj hline).2), hrest⟩
  rw [hlist]

/-- Documents that have been read as a whole are told apart by their texts. -/
theorem DocumentView.text_inj {contents contents' : List EntryContent}
    (hwhole : ∀ content ∈ contents, ∀ path ∈ content.references, path.IsWhole)
    (hwhole' : ∀ content ∈ contents', ∀ path ∈ content.references, path.IsWhole)
    (h : text (ofContents contents) = text (ofContents contents')) : contents = contents' := by
  have htextLines (contents : List EntryContent) :
      textLines (text (ofContents contents)) = (lines (ofContents contents)).map Line.chars := by
    refine (textLines_text ?_).1
    rw [errors_ofContents]
    exact List.forall_mem_nil _
  have hchars := congrArg textLines h
  rw [htextLines, htextLines] at hchars
  have hlines :=
    chars_inj (fieldLines (ofContents contents)) (fieldLines (ofContents contents')) hchars
  have hblock : blockLines 0 "Document" ((ofContents contents).flatMap entryLines) ++ [] =
      blockLines 0 "Document" ((ofContents contents').flatMap entryLines) ++ [] :=
        congrArg (· ++ []) hlines
  obtain ⟨hentries, -⟩ := blockLines_inj (fieldLines_entries _) (fieldLines_entries _) hblock
  rw [ofContents, ofContents, List.flatMap_map, List.flatMap_map] at hentries
  refine flatMap_inj (fun _ => List.cons_ne_nil _ _)
    (fun content hcontent content' hcontent' rest rest' heq => ?_)
    hentries
  obtain ⟨hinner, hrest⟩ := blockLines_inj content.view.fieldLines content'.view.fieldLines heq
  exact ⟨EntryContent.lines_inj (hwhole content hcontent)
    (hwhole' content' hcontent') hinner, hrest⟩

end FramedTree
