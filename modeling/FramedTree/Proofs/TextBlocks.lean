import FramedTree.Proofs.EntryAnswers

/-! # The text of a document, block by block

Every entry has a block of its own in the text of a document, be it only a line that says why the
entry cannot be read. The block of an entry that stands for its content is settled by the content,
whatever the other blocks are.
-/

namespace FramedTree

variable {σ α β : Type} {library : Library}

namespace Outline

def IsWhole (field : Outline) : Prop := ∀ depth, (field.lines depth).2 = true

def block (depth : Nat) (field : Outline) : String :=
  String.join ((field.lines depth).1.map Line.render)

variable {fields : List Outline}

private theorem allLines_of_isWhole (h : ∀ field ∈ fields, field.IsWhole) (depth : Nat) :
    allLines depth fields = (fields.flatMap fun field => (field.lines depth).1, true) := by
  induction fields with
  | nil => rfl
  | cons field rest ih =>
    obtain ⟨hfield, hrest⟩ := List.forall_mem_cons.1 h
    have hlines : lines depth field = ((lines depth field).1, true) := Prod.ext rfl (hfield depth)
    rw [allLines, hlines]
    dsimp only
    rw [if_pos rfl, ih hrest, List.flatMap_cons]

private theorem isWhole_child (name : String) (h : ∀ field ∈ fields, field.IsWhole) :
    (child name fields).IsWhole := by
  intro depth
  rw [lines, allLines_of_isWhole h]
  rfl

private theorem isWhole_scalar (name : String) (value : Option Scalar) :
    (scalar name value).IsWhole := by
  intro depth
  cases value <;> rfl

private theorem render_of_isWhole (title : String) (h : ∀ field ∈ fields, field.IsWhole) :
    (render title fields).1 =
      title ++ " \x7b\n" ++ String.join (fields.map (block 1)) ++ "\x7d\n" := by
  have hfields : String.join ((fields.flatMap fun field => (field.lines 1).1).map Line.render) =
      String.join (fields.map (block 1)) := by
    clear h
    induction fields with
    | nil => rfl
    | cons field rest ih =>
      rw [List.flatMap_cons, List.map_append, String.join_append, ih, List.map_cons,
        String.join_cons, block]
  have hlines : lines 0 (child title fields) =
      (⟨0, title ++ " \x7b"⟩ :: (fields.flatMap fun field => (field.lines 1).1) ++ [⟨0, "\x7d"⟩],
        true) := by
    rw [lines, allLines_of_isWhole h]
    rfl
  rw [render, hlines]
  simp only [List.cons_append, List.map_cons, List.map_append, String.join_cons, String.join_append,
    hfields]
  simp [Line.render, String.append_assoc]

end Outline

private theorem Lazy.Opens.answered {load : Option Origin → EStateM Error σ α}
    {inner : Access σ α β} {access : Access σ (Lazy α) β} (h : Lazy.Opens load inner access)
    {state after : Lazy α × σ} {result : β} (hrun : access state = .ok result after) :
    ∃ start last, inner start = .ok result last := by
  obtain ⟨cell, around⟩ := state
  cases hfetch : cell.fetch load around with
  | error error between =>
    rw [h.failed hfetch] at hrun
    cases hrun
  | ok value between =>
    obtain ⟨kept, -, hopen⟩ := h.fetched hfetch
    rw [hopen] at hrun
    cases hinner : inner (value, between) with
    | error error last =>
      rw [hinner] at hrun
      cases hrun
    | ok found last =>
      rw [hinner] at hrun
      cases hrun
      exact ⟨_, last, hinner⟩

/-- Work on a row of cells, of which the first has number `i`, that never fails where the
surroundings are as they should be, and leaves them so. -/
private theorem Slots.accessFrom_ok {inner : Nat → Access σ α β} {Fit : σ → Prop}
    {V : Nat → α → Prop} {A : Nat → β → Prop}
    (h : ∀ j value around, Fit around → V j value → ∃ result value' around',
      inner j (value, around) = .ok result (value', around') ∧ A j result ∧ Fit around')
    (i : Nat) (cells : List (Option α)) (around : σ) (hfit : Fit around)
    (hcells : ∀ k cell, cells[k]? = some cell → ∃ value, cell = some value ∧ V (i + k) value) :
    ∃ results cells' around', accessFrom inner i cells around = .ok results (cells', around') ∧
      results.length = cells.length ∧ ∀ k result, results[k]? = some result → A (i + k) result := by
  induction cells generalizing i around with
  | nil => exact ⟨[], [], around, rfl, rfl, by simp⟩
  | cons cell cells ih =>
    obtain ⟨value, rfl, hvalue⟩ := hcells 0 cell rfl
    obtain ⟨result, value', between, hrun, hresult, hbetween⟩ := h i value around hfit hvalue
    obtain ⟨results, cells', after, hrest, hlength, hresults⟩ :=
      ih (i + 1) between hbetween fun k cell hcell => by
      rw [Nat.add_right_comm, Nat.add_assoc]
      exact hcells (k + 1) cell hcell
    refine ⟨result :: results, some value' :: cells', after, ?_,
      by simp [hlength], fun k found hfound => ?_⟩
    · rw [accessFrom_of_ok hrun, hrest, mapValue_ok, mapState_ok]
    · cases k with
      | zero =>
        cases hfound
        exact hresult
      | succ k =>
        have hfound := hresults k found hfound
        rwa [Nat.add_right_comm, Nat.add_assoc] at hfound

namespace Entry

private theorem isWhole_childOutline (name : String) (found : Except Error (Option Identity)) :
    (childOutline name found).IsWhole := by
  rcases found with error | _ | identity
  · exact fun _ => rfl
  · exact fun _ => rfl
  · refine Outline.isWhole_child name fun field hfield => ?_
    simp only [Identity.outline, List.mem_cons, List.not_mem_nil, or_false] at hfield
    rcases hfield with rfl | rfl <;> exact Outline.isWhole_scalar _ _

private theorem isWhole_outline {state after : Entry × Streams} {fields : List Outline}
    (h : outline state = .ok fields after) :
    ∀ field ∈ fields, field.IsWhole := by
  obtain ⟨entry, streams⟩ := state
  rw [outline, bind_apply] at h
  generalize Access.attempt (onIdentification Access.node) (entry, streams) = first at h
  cases first with
  | error error between => cases h
  | ok identification between =>
    dsimp only at h
    rw [bind_apply] at h
    generalize Access.attempt (onSecretIdentity Access.node) between = second at h
    cases second with
    | error error last => cases h
    | ok secretIdentity last =>
      cases h
      intro field hfield
      simp only [List.cons_append, List.nil_append, List.mem_cons, List.mem_append, List.mem_map,
        Option.mem_toList, Option.map_eq_some_iff] at hfield
      rcases hfield with rfl | rfl | ⟨ref, -, rfl⟩ | ⟨ref, -, rfl⟩
      · exact isWhole_childOutline _ _
      · exact isWhole_childOutline _ _
      · exact fun _ => rfl
      · exact fun _ => rfl

end Entry

namespace Document

/-- The outline of the entry in a cell, or of the failure to load it. -/
def outlineEntry (stamp : Stamp) (i : Nat) : Access Streams (Lazy Entry) Outline := do
  match ← Access.attempt (Lazy.access (loadEntry stamp i) Entry.outline) with
  | .ok fields => return .child "data" fields
  | .error error => return .unreadable "data" error

theorem outline_eq : outline = onCells outlineEntry := rfl

private theorem holds_outline {stamp : Stamp} {i : Nat} {cell : Lazy Entry} {streams : Streams}
    (h : streams.Holds library) :
    (stateAfter (Lazy.access (loadEntry stamp i) Entry.outline (cell, streams))).2.Holds
      library := by
  have hlooks : Treads (cellCourse .nothing stamp i) (View.plain.on (Lazy Entry))
      (fun event => True ∧ event.isLook) (Lazy.access (loadEntry stamp i) Entry.outline) :=
    @looks_cell _ .nothing (fun _ => True) i _ stamp _ (Lazy.access_opens _ _)
      (Entry.looks_outline trivial trivial)
      trivial
  obtain ⟨events, htrail, -⟩ := (hlooks (cell, streams) trivial).trail
  have hkept : OnAround (Streams.HoldsOn library) (cell, streams)
      (stateAfter (Lazy.access (loadEntry stamp i) Entry.outline (cell, streams))) := by
    refine htrail.keeps fun event _ state after hmove => ?_
    refine Lazy.Move.keeps hmove (holdsOn_loadEntry stamp i) fun _ _ _ hinner => ?_
    exact Entry.Move.keeps Entry.holdsOn_loadIdentity (fun _ _ hnever => False.elim hnever) hinner
  exact hkept h

private theorem outlineEntry_ok {stamp : Stamp} {i : Nat} {cell : Lazy Entry} {streams : Streams}
    (h : streams.Holds library) :
    ∃ field cell' after, outlineEntry stamp i (cell, streams) = .ok field (cell', after) ∧
      field.IsWhole ∧
      after.Holds library := by
  have hholds := @holds_outline _ stamp i cell _ h
  rw [outlineEntry, bind_apply, Access.attempt]
  cases hrun : Lazy.access (loadEntry stamp i) Entry.outline (cell, streams) with
  | error error after =>
    rw [hrun] at hholds
    exact ⟨_, after.1, after.2, rfl, fun _ => rfl, hholds⟩
  | ok fields after =>
    rw [hrun] at hholds
    obtain ⟨start, last, houtline⟩ := (Lazy.access_opens _ _).answered hrun
    exact ⟨_, after.1, after.2, rfl,
      Outline.isWhole_child _ (Entry.isWhole_outline houtline), hholds⟩

variable {stamp : Stamp} {i : Nat} {content : EntryContent}

private theorem outlineEntry_of_stands {cell : Lazy Entry} {streams : Streams}
    (hstreams : streams.Holds library)
    (h : cell.Shows library (loadEntry stamp i)
      (Entry.Stands library (entryStamp stamp i) content)) :
    verdict (outlineEntry stamp i (cell, streams)) = .ok (.child "data" content.outline) := by
  obtain ⟨entry, hsettles, hentry⟩ := h
  obtain ⟨fields, after, streams', hrun, ⟨entry, -, rfl, -⟩, -⟩ :=
    Gives.opens (Lazy.access_opens _ _) Entry.gives_outline cell streams
      ⟨entry, hsettles, hentry.shows⟩ hstreams
  rw [outlineEntry, bind_apply, Access.attempt, hrun]
  rfl

private theorem StandsAt.outline {document : Document} {streams : Streams}
    (h : document.StandsAt library stamp i content)
    (hoccupied : ∀ j < document.entryCount, (document.entries.get? j).isSome)
    (hstreams : streams.Holds library) :
    ∃ fields after, Document.outline (document, streams) = .ok fields after ∧
      fields.length = document.entryCount ∧
      (∀ field ∈ fields, field.IsWhole) ∧ fields[i]? = some (.child "data" content.outline) := by
  obtain ⟨own, hown, hshows⟩ := h.entry
  have hcell (j : Nat) (cell : Lazy Entry) (streams : Streams) (hholds : streams.Holds library)
      (hsame : j = i → cell = own) : ∃ field cell' after,
        outlineEntry stamp j (cell, streams) = .ok field (cell', after) ∧
        (field.IsWhole ∧ (j = i → field = .child "data" content.outline)) ∧
        after.Holds library := by
    obtain ⟨field, cell', after, hrun, hwhole, hafter⟩ := outlineEntry_ok (i := j) hholds
    refine ⟨field, cell', after, hrun, ⟨hwhole, ?_⟩, hafter⟩
    rintro rfl
    have hfield := outlineEntry_of_stands hholds hshows
    rw [← hsame rfl, hrun] at hfield
    exact Except.ok.inj hfield
  have hslot (k : Nat) (cell : Option (Lazy Entry))
    (hk : document.entries.cells.toList[k]? = some cell) :
      ∃ value, cell = some value ∧ (0 + k = i → value = own) := by
    have hget : document.entries.get? k = cell := by rw [← Slots.join_cells, hk, Option.join_some]
    obtain ⟨value, hvalue⟩ := Option.isSome_iff_exists.1
      (Slots.isSome_of_mem_cells hoccupied cell (List.mem_of_getElem? hk))
    subst hvalue
    refine ⟨value, rfl, ?_⟩
    rintro rfl
    rw [Nat.zero_add] at hown
    exact Option.some.inj (hget.symm.trans hown)
  obtain ⟨fields, cells, after, hrun, hlength, hfields⟩ :=
    Slots.accessFrom_ok hcell 0 document.entries.cells.toList streams hstreams hslot
  refine ⟨fields, ({ document with entries := ⟨cells.toArray⟩ }, after), ?_, hlength, ?_, ?_⟩
  · rw [outline_eq, onCells, Access.node_bind_apply, Access.within_apply, Slots.accessAll_apply,
      h.stamp_eq, hrun]
    rfl
  · intro field hfield
    obtain ⟨k, hk⟩ := List.mem_iff_getElem?.1 hfield
    exact (hfields k field hk).1
  · have hi : i < fields.length := by
      rw [hlength, Slots.length_cells]
      exact Slots.lt_size_of_get? hown
    have hfield := List.getElem?_eq_getElem hi
    rw [hfield, (hfields i _ hfield).2 (Nat.zero_add i)]

def textWith (blocks : List String) : String := "Document \x7b\n" ++ String.join blocks ++ "\x7d\n"

/-- A document always has a text, in which every entry has its block; the block of an entry that
stands for its content is settled by the content. -/
theorem StandsAt.text {document : Document} {streams : Streams}
    (h : document.StandsAt library stamp i content)
    (hoccupied : ∀ j < document.entryCount, (document.entries.get? j).isSome)
    (hstreams : streams.Holds library) :
    ∃ blocks after, Document.text (document, streams) = .ok (textWith blocks) after ∧
      blocks.length = document.entryCount ∧
      blocks[i]? = some (Outline.block 1 (.child "data" content.outline)) := by
  obtain ⟨fields, after, hrun, hlength, hwhole, hfield⟩ := h.outline hoccupied hstreams
  refine ⟨fields.map (Outline.block 1), after, ?_,
    by rw [List.length_map, hlength], by rw [List.getElem?_map, hfield]; rfl⟩
  rw [Document.text, bind_apply, hrun]
  dsimp only
  rw [Outline.render_of_isWhole _ hwhole]
  rfl

end Document
end FramedTree
