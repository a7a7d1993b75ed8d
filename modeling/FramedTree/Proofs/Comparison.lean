import FramedTree.Proofs.EqualDocuments
import FramedTree.Proofs.Saving

/-! # What a comparison finds

A comparison loads as it goes and gives up at the first thing that differs or cannot be loaded. Two
documents are found equal exactly if in the end both are loaded as a whole and have the same
contents.
-/

namespace FramedTree

variable {β : Type}

private theorem Lazy.access_node_error {σ α : Type} {load : Option Origin → EStateM Error σ α}
    {cell later : Lazy α} {error : Error} {around after : σ}
    (h : Lazy.access load Access.node (cell, around) = .error error (later, after)) :
    later.peek = none := by
  obtain ⟨rfl, hpeek, -⟩ := access_node_failed h
  exact hpeek

/-- If work on a cell succeeds exactly if it leaves the cell with some property, then work on a row
of cells, of which the first has number `i`, succeeds exactly if it leaves all of them with the
property. -/
private theorem Slots.accessFrom_iff {σ α : Type} {L : α → Prop} {inner : Nat → Access σ α β}
    (h : ∀ i value around, L (stateAfter (inner i (value, around))).1 ↔
      (verdict (inner i (value, around))).toOption.isSome)
    (i : Nat) (cells : List (Option α)) (around : σ) :
    (∀ value, some value ∈ (stateAfter (Slots.accessFrom inner i cells around)).1 → L value) ↔
      (verdict (Slots.accessFrom inner i cells around)).toOption.isSome := by
  -- The cells behind the first failure are left as they were, so one without the property remains.
  induction cells generalizing i around with
  | nil => exact ⟨fun _ => rfl, fun _ _ hvalue => nomatch hvalue⟩
  | cons cell cells ih =>
    cases cell with
    | none =>
      rw [Slots.accessFrom_gap, stateAfter_mapState, verdict_mapState]
      simpa using ih (i + 1) around
    | some first =>
      have hfirst := h i first around
      cases hinner : inner i (first, around) with
      | error error after =>
        rw [hinner] at hfirst
        rw [Slots.accessFrom_of_error hinner]
        simp only [verdict, Except.toOption, stateAfter_error, Option.isSome_none,
          Bool.false_eq_true, iff_false] at hfirst ⊢
        intro hall
        exact hfirst (hall after.1 List.mem_cons_self)
      | ok result after =>
        rw [hinner] at hfirst
        have hL : L after.1 := hfirst.2 rfl
        have hrest := ih (i + 1) after.2
        rw [Slots.accessFrom_of_ok hinner, stateAfter_mapState, stateAfter_mapValue,
          verdict_mapState, verdict_mapValue]
        cases hrun : verdict (Slots.accessFrom inner (i + 1) cells after.2) with
        | ok results | error error =>
          rw [hrun] at hrest
          simpa [Except.map, Except.toOption, hL] using hrest

namespace Entry

variable {entry later : Entry} {streams streams' : Streams} {content other : EntryContent}

private theorem Fills.peek {cell after : Lazy Identity} {identity : Identity} (h : cell.Fills after)
    (hpeek : cell.peek = some identity) : after.peek = some identity := by
  obtain ⟨later, hlater, rfl⟩ := h.kept identity hpeek
  exact hlater

private theorem Fills.has (h : entry.Fills later) (hhas : entry.Has content) :
    later.Has content := by
  obtain ⟨identity, hpeek, hheader⟩ := hhas.identification
  refine ⟨⟨identity, Fills.peek h.identification hpeek, hheader⟩, ?_, ?_, ?_⟩
  · have hsecret := hhas.secretIdentity
    have hpresent := h.hasSecretIdentity_eq
    have hcells := h.secretIdentity
    simp only [hasSecretIdentity] at hpresent
    generalize entry.secretIdentity.get? singular = before at hsecret hpresent hcells
    generalize later.secretIdentity.get? singular = after at hpresent hcells ⊢
    generalize content.secretIdentity = header at hsecret ⊢
    cases hsecret with
    | none =>
      cases after with
      | none => exact .none
      | some cell => cases hpresent
    | some hheader =>
      obtain ⟨identity, hpeek, hheader⟩ := hheader
      obtain ⟨cell, rfl, hfills⟩ := hcells _ rfl
      exact .some ⟨identity, Fills.peek hfills hpeek, hheader⟩
  · rw [h.approver_eq]
    exact hhas.approver
  · rw [h.reviewers_eq]
    exact hhas.reviewers

private theorem onIdentification_error {error : Error}
    (h : onIdentification Access.node (entry, streams) = .error error (later, streams')) :
    later.identification.peek = none := by
  rw [onIdentification, Access.node_bind_apply, Access.within_apply] at h
  obtain ⟨⟨cell, between⟩, haccess, hstate⟩ := mapState_eq_error h
  cases hstate
  exact Lazy.access_node_error haccess

private theorem onSecretIdentity_error {error : Error}
    (h : onSecretIdentity Access.node (entry, streams) = .error error (later, streams')) :
    ∃ cell, later.secretIdentity.get? singular = some cell ∧ cell.peek = none := by
  rw [onSecretIdentity, Access.node_bind_apply, Access.within_apply] at h
  obtain ⟨⟨slots, between⟩, haccess, hstate⟩ := mapState_eq_error h
  cases hstate
  cases hslot : entry.secretIdentity.get? singular with
  | none =>
    rw [Slots.access_apply_none hslot] at haccess
    cases haccess
  | some cell =>
    rw [Slots.access_apply_some hslot, map_apply] at haccess
    cases hrun : Lazy.access (loadIdentity entry.stamp secretIdentityField) Access.node
      (cell, streams) with
    | ok identity state =>
      rw [hrun] at haccess
      cases haccess
    | error error state =>
      rw [hrun] at haccess
      cases haccess
      refine ⟨state.1, ?_, Lazy.access_node_error hrun⟩
      simp [Slots.get?_modify, hslot]

private theorem secretAndEntry_apply :
    secretAndEntry (entry, streams) = match onSecretIdentity Access.node (entry, streams) with
      | .ok secret state => .ok (secret, state.1) state
      | .error error state => .error error state := by
  rw [secretAndEntry, bind_apply]
  cases onSecretIdentity Access.node (entry, streams) <;> rfl

private theorem secretAndEntry_identification :
    (stateAfter (secretAndEntry (entry, streams))).1.identification = entry.identification := by
  rw [secretAndEntry_apply, onSecretIdentity, Access.node_bind_apply, Access.within_apply]
  cases Slots.access singular _ (entry.secretIdentity, streams) <;> rfl

end Entry

namespace Document

variable {document : Document} {entry : Entry} {streams : Streams}

private theorem onEntry_loaded {i : Nat} (h : document.entryAt? i = some entry)
    (inner : Access Streams Entry β) :
    ∃ kept, onEntry i inner (document, streams) =
      mapState (fun state => ({ document with
          entries := document.entries.modify i fun _ => Lazy.putBack state.1 kept }, state.2))
        ((some <$> inner) (entry, streams)) := by
  obtain ⟨cell, hcell, hpeek⟩ := Option.bind_eq_some_iff.1 h
  have hfetch : cell.fetch (loadEntry document.stamp i) streams = .ok entry streams := by
    rw [Lazy.fetch_of_peek hpeek]
    rfl
  obtain ⟨kept, -, hrun⟩ := (Lazy.access_opens (loadEntry document.stamp i) inner).fetched hfetch
  refine ⟨kept, ?_⟩
  rw [onEntry, Access.node_bind_apply, Access.within_apply, Slots.access_apply_some hcell,
    map_apply, map_apply, hrun]
  cases inner (entry, streams) <;> rfl

/-- All entries are loaded, though their identities may not be. -/
def Listed (document : Document) : Prop :=
  ∀ i cell, document.entries.get? i = some cell → cell.isLoaded

private theorem Has.listed {contents : List EntryContent} (h : document.Has contents) :
    document.Listed := by
  intro i cell hcell
  obtain ⟨content, -, entry, hpeek, -⟩ := Slots.Lists.get? h hcell
  rw [Lazy.isLoaded, hpeek]
  rfl

private theorem Listed.entryAt? (h : document.Listed) (hintact : document.Intact) {i : Nat}
    (hi : i < document.entryCount) :
    ∃ entry, document.entryAt? i = some entry := by
  obtain ⟨cell, hcell⟩ := Option.isSome_iff_exists.1 (hintact.occupied i hi)
  obtain ⟨entry, hentry⟩ := Option.isSome_iff_exists.1 (h i cell hcell)
  exact ⟨entry, by rw [Document.entryAt?, hcell, Option.bind_some, hentry]⟩

private theorem listed_iff : (stateAfter (entryList (document, streams))).1.Listed ↔
    (verdict (entryList (document, streams))).toOption.isSome := by
  unfold Listed
  have hcell (i : Nat) (cell : Lazy Entry) (around : Streams) :
      (stateAfter
        (Lazy.access (loadEntry document.stamp i) Access.node (cell, around))).1.isLoaded = true ↔
        (verdict
          (Lazy.access (loadEntry document.stamp i) Access.node
            (cell, around))).toOption.isSome := by
    cases hrun : Lazy.access (loadEntry document.stamp i) Access.node (cell, around) with
    | ok value state =>
      have hloaded : state.1.peek = some value := (Lazy.access_node_ok hrun).1
      simp [Lazy.isLoaded, hloaded, verdict, Except.toOption]
    | error error state =>
      have hunloaded : state.1.peek = none := Lazy.access_node_error hrun
      simp [Lazy.isLoaded, hunloaded, verdict, Except.toOption]
  have hcells := Slots.accessFrom_iff
    (L := fun cell => cell.isLoaded = true) hcell 0 document.entries.cells.toList
    streams
  rw [entryList, onCells, Access.node_bind_apply, Access.within_apply, Slots.accessAll_apply,
    stateAfter_mapState, stateAfter_mapState, verdict_mapState, verdict_mapState, ← hcells]
  have hslot (i : Nat) (cell : Lazy Entry) (cells : List (Option (Lazy Entry))) :
      Slots.get? ⟨cells.toArray⟩ i = some cell ↔ cells[i]? = some (some cell) := by
    rw [Slots.get?_ofCells, Option.join_eq_some_iff]
  constructor
  · intro h cell hcell
    obtain ⟨i, hi⟩ := List.mem_iff_getElem?.1 hcell
    exact h i cell ((hslot i cell _).2 hi)
  · intro h i cell hi
    exact h cell (List.mem_iff_getElem?.2 ⟨i, (hslot i cell _).1 hi⟩)

end Document

namespace Workspace

variable {workspace between after : Workspace} {name : String} {i : Nat} {entry : Entry}

private theorem look_document {document : Document}
    (h : workspace.documents.find? name = some document) (access : Access Streams Document β) :
    (((documentSpot name).look access) workspace).1 =
      (verdict (access (document, workspace.streams))).toOption ∧
      (((documentSpot name).look access) workspace).2.documents.find? name =
        some (stateAfter (access (document, workspace.streams))).1 := by
  have hspot : (documentSpot name).run access workspace = onDocument name access workspace := rfl
  unfold Spot.look
  rw [hspot, onDocument_apply h, map_apply]
  cases access (document, workspace.streams) <;> exact ⟨rfl, Table.find?_set_self ..⟩

/-- The document under a name has an entry, which is loaded. -/
def EntryAt (workspace : Workspace) (name : String) (i : Nat) (entry : Entry) : Prop :=
  ∃ document, workspace.documents.find? name = some document ∧ document.entryAt? i = some entry

private theorem EntryAt.unique {other : Entry} (h : EntryAt workspace name i entry)
    (h' : EntryAt workspace name i other) :
    entry = other := by
  obtain ⟨document, hfound, hentry⟩ := h
  obtain ⟨document', hfound', hentry'⟩ := h'
  cases hfound.symm.trans hfound'
  exact Option.some.inj (hentry.symm.trans hentry')

private theorem EntryAt.look (h : EntryAt workspace name i entry) (inner : Access Streams Entry β) :
    ((((documentSpot name).entry i).look inner) workspace).1 =
        (verdict (inner (entry, workspace.streams))).toOption ∧
      EntryAt ((((documentSpot name).entry i).look inner) workspace).2 name i
        (stateAfter (inner (entry, workspace.streams))).1 := by
  obtain ⟨document, hfound, hentry⟩ := h
  obtain ⟨kept, hrun⟩ := @Document.onEntry_loaded β document entry workspace.streams i hentry inner
  obtain ⟨cell, hcell, -⟩ := Option.bind_eq_some_iff.1 hentry
  have hspot : ((documentSpot name).entry i).run inner workspace =
      (do return (← onDocument name (Document.onEntry i inner)).join : Work (Option β)) workspace :=
        rfl
  have hlater (entry' : Entry) : Document.entryAt? { document with
      entries := document.entries.modify i fun _ => Lazy.putBack entry' kept } i = some entry' := by
    simp [Document.entryAt?, Slots.get?_modify, hcell]
  unfold Spot.look
  rw [hspot, bind_apply, onDocument_apply hfound, map_apply, hrun, map_apply]
  cases inner (entry, workspace.streams) with
  | ok value state | error error state =>
    refine ⟨rfl, _, ?_, hlater state.1⟩
    change (Table.set _ _ _).find? name = _
    rw [Table.find?_set_self]

/-- All documents are the same, though more of them may be loaded. -/
def FillsAll (before after : Workspace) : Prop :=
  ∀ name document, before.documents.find? name = some document →
    ∃ later, after.documents.find? name = some later ∧ document.Fills later

instance : IsPreorder Workspace FillsAll where
  refl _ _ document h := ⟨document, h, refl_of Document.Fills document⟩
  trans a b c hab hbc name document h := by
    obtain ⟨between, hbetween, hfirst⟩ := hab name document h
    obtain ⟨later, hlater, hsecond⟩ := hbc name between hbetween
    exact ⟨later, hlater, trans_of Document.Fills hfirst hsecond⟩

private theorem EntryAt.fills (h : EntryAt workspace name i entry)
    (hfills : FillsAll workspace after) :
    ∃ later, EntryAt after name i later ∧ entry.Fills later := by
  obtain ⟨document, hfound, hentry⟩ := h
  obtain ⟨document', hfound', hdocument⟩ := hfills name document hfound
  obtain ⟨later, hlater, hentryFills⟩ := hdocument.entry i entry hentry
  exact ⟨later, ⟨document', hfound', hlater⟩, hentryFills⟩

private theorem keptByLooks_fills : KeptByLooks Entry.Fills Document.Fills where
  identification := Entry.fills_onIdentification
  secretAndEntry := Entry.fills_secretAndEntry
  onEntry i _ := Document.fills_onEntry i
  entryList := Document.fills_entryList

private theorem fillsAll_onDocument {access : Access Streams Document β}
    (h : Keeps (OnNode Document.Fills) access) :
    Keeps FillsAll (onDocument name access) := by
  refine keeps_onRow h ?_
  intro workspace document later streams hfound hfills other first hfirst
  dsimp only
  rw [Table.find?_set]
  by_cases hother : other = name
  · subst hother
    cases hfound.symm.trans hfirst
    exact ⟨later, if_pos rfl, hfills⟩
  · rw [if_neg hother]
    exact ⟨first, hfirst, refl_of Document.Fills first⟩

private theorem keepsAt_fills (name : String) :
    KeepsAt FillsAll Document.Fills (documentSpot name) :=
  fillsAll_onDocument

private theorem look_other {other : String} (h : other ≠ name)
    (access : Access Streams Document β) :
    (((documentSpot name).look access) workspace).2.documents.find? other =
      workspace.documents.find? other := by
  have hspot : (documentSpot name).run access workspace = onDocument name access workspace := rfl
  unfold Spot.look
  rw [hspot]
  cases hfound : workspace.documents.find? name with
  | none => rw [onDocument_apply_none hfound]
  | some document =>
    rw [onDocument_apply hfound, map_apply]
    cases access (document, workspace.streams) <;> exact (Table.find?_set ..).trans (if_neg h)

private theorem look_entry_state (i : Nat) (inner : Access Streams Entry β) :
    ((((documentSpot name).entry i).look inner) workspace).2 =
      (((documentSpot name).look (Document.onEntry i inner)) workspace).2 := by
  unfold Spot.look Spot.entry
  dsimp only
  rw [bind_apply]
  cases (documentSpot name).run (Document.onEntry i inner) workspace <;> rfl

private theorem entryAt_look_other {other : String} {j : Nat} (hne : name ≠ other)
    (inner : Access Streams Entry β) :
    EntryAt ((((documentSpot other).entry j).look inner) workspace).2 name i entry ↔
      EntryAt workspace name i entry := by
  rw [EntryAt, look_entry_state, look_other hne]
  rfl

section Sides

variable {identification : Identity} {rest : Option Identity × Entry}

private theorem EntryAt.has_of_looks (h : EntryAt workspace name i entry)
    (hfirst : (((documentSpot name).entry i).look
      (Entry.onIdentification Access.node) workspace).1 =
      some identification)
    (hfills : FillsAll
      (((documentSpot name).entry i).look (Entry.onIdentification Access.node) workspace).2 between)
    (hsecond : (((documentSpot name).entry i).look Entry.secretAndEntry between).1 = some rest) :
    EntryAt (((documentSpot name).entry i).look Entry.secretAndEntry between).2 name i rest.2 ∧
      rest.2.Has (rest.2.contentWith identification rest.1) := by
  obtain ⟨hvalue, hat⟩ := h.look (Entry.onIdentification Access.node)
  rw [hfirst] at hvalue
  cases hrun : Entry.onIdentification Access.node (entry, workspace.streams) with
  | error error state =>
    rw [hrun] at hvalue
    cases hvalue
  | ok identity state =>
    rw [hrun] at hvalue hat
    cases hvalue
    obtain ⟨-, cell, hpeek, hstate⟩ := Entry.onIdentification_ok hrun
    obtain ⟨middle, hmiddle, hentryFills⟩ := hat.fills hfills
    have hloaded : middle.identification.peek = some identification := by
      apply Entry.Fills.peek hentryFills.identification
      rw [stateAfter_ok, hstate]
      exact hpeek
    obtain ⟨hvalue', hat'⟩ := hmiddle.look Entry.secretAndEntry
    rw [hsecond, Entry.secretAndEntry_apply] at hvalue'
    rw [Entry.secretAndEntry_apply] at hat'
    cases hrun' : Entry.onSecretIdentity Access.node (middle, between.streams) with
    | error error state =>
      rw [hrun'] at hvalue'
      cases hvalue'
    | ok secret last =>
      rw [hrun'] at hvalue' hat'
      cases hvalue'
      obtain ⟨-, slots, hslots, hlast⟩ := Entry.onSecretIdentity_ok hrun'
      refine ⟨hat', Entry.has_contentWith ?_ ?_⟩
      · rw [hlast]
        exact hloaded
      · rw [hlast]
        exact hslots

private theorem EntryAt.lacks_of_looks {content : EntryContent} {last : Entry}
    (h : EntryAt workspace name i entry)
    (hspared : ∀ entry, EntryAt
      (((documentSpot name).entry i).look (Entry.onIdentification Access.node)
      workspace).2 name i entry → EntryAt between name i entry)
    (hfailed : (((documentSpot name).entry i).look
      (Entry.onIdentification Access.node) workspace).1 = none ∨
      (((documentSpot name).entry i).look Entry.secretAndEntry between).1 = none)
    (hlast : EntryAt (((documentSpot name).entry i).look Entry.secretAndEntry between).2 name
      i last) :
    ¬ last.Has content := by
  intro hhas
  obtain ⟨hfirst, hat⟩ := h.look (Entry.onIdentification Access.node)
  have hmiddle := hspared _ hat
  obtain ⟨hsecond, hat'⟩ := hmiddle.look Entry.secretAndEntry
  have hsame := hlast.unique hat'
  rcases hfailed with hfailed | hfailed
  · -- The second look does not touch the identification.
    obtain ⟨identity, hpeek, -⟩ := hhas.identification
    rw [hsame, Entry.secretAndEntry_identification] at hpeek
    rw [hfailed] at hfirst
    cases hrun : Entry.onIdentification Access.node (entry, workspace.streams) with
    | ok identity state =>
      rw [hrun] at hfirst
      cases hfirst
    | error error state =>
      rw [hrun, stateAfter_error, Entry.onIdentification_error hrun] at hpeek
      cases hpeek
  · rw [hfailed, Entry.secretAndEntry_apply] at hsecond
    rw [Entry.secretAndEntry_apply] at hsame
    generalize (stateAfter (Entry.onIdentification Access.node (entry, workspace.streams))).1 =
      middle at hsecond hsame
    cases hrun : Entry.onSecretIdentity Access.node (middle, between.streams) with
    | ok secret state =>
      rw [hrun] at hsecond
      cases hsecond
    | error error state =>
      obtain ⟨cell, hcell, hpeek⟩ := Entry.onSecretIdentity_error hrun
      have hsecret := hhas.secretIdentity
      rw [hsame, hrun, stateAfter_error, hcell] at hsecret
      generalize content.secretIdentity = header at hsecret
      cases hsecret with
      | some hheader =>
        obtain ⟨identity, hloaded, -⟩ := hheader
        rw [hpeek] at hloaded
        cases hloaded

end Sides

/-- The entry is loaded as a whole and has the content. -/
def HoldsEntry (workspace : Workspace) (name : String) (i : Nat) (content : EntryContent) : Prop :=
  ∃ entry, EntryAt workspace name i entry ∧ entry.Has content

private theorem HoldsEntry.fills {content : EntryContent} (h : HoldsEntry workspace name i content)
    (hfills : FillsAll workspace after) : HoldsEntry after name i content := by
  obtain ⟨entry, hentry, hhas⟩ := h
  obtain ⟨later, hlater, hentryFills⟩ := hentry.fills hfills
  exact ⟨later, hlater, hentryFills.has hhas⟩

private theorem fillsAll_look {inner : Access Streams Entry β}
    (h : Keeps (OnNode Entry.Fills) inner) :
    FillsAll workspace (((documentSpot name).entry i).look inner workspace).2 :=
  safely_look (keepsAt_entry keptByLooks_fills (keepsAt_fills name) i) h workspace

private theorem entryEqual_apply (left right : Spot Workspace Entry) (workspace : Workspace) :
    let first := left.look (Entry.onIdentification Access.node) workspace
    let second := right.look (Entry.onIdentification Access.node) first.2
    let third := left.look Entry.secretAndEntry second.2
    let fourth := right.look Entry.secretAndEntry third.2
    Entry.equal left right workspace =
      (match first.1, second.1, third.1, fourth.1 with
        | some mine, some theirs, some (mySecret, entry), some (theirSecret, other) =>
          mine.sameContent theirs && Identity.sameOption mySecret theirSecret &&
            entry.sameReferences other
        | _, _, _, _ => false, fourth.2) := by
  intro first second third fourth
  have hrun : Entry.equal left right workspace = (match first.1, second.1, third.1, fourth.1 with
      | some mine, some theirs, some (mySecret, entry), some (theirSecret, other) => pure
        (mine.sameContent theirs && Identity.sameOption mySecret theirSecret &&
          entry.sameReferences other)
      | _, _, _, _ => pure false : StateM Workspace Bool) fourth.2 := rfl
  rw [hrun]
  cases first.1 <;> cases second.1 <;> cases third.1 <;> cases fourth.1 <;> rfl

section Comparing

variable {left right : String} {j : Nat} {other : Entry} (hleft : EntryAt workspace left i entry)
  (hright : EntryAt workspace right j other)

include hleft hright

private theorem holds_of_entryEqual
    (h : (Entry.equal ((documentSpot left).entry i) ((documentSpot right).entry j) workspace).1 =
      true) :
    ∃ content,
      HoldsEntry
        (Entry.equal ((documentSpot left).entry i)
          ((documentSpot right).entry j) workspace).2 left i
        content ∧
      HoldsEntry
        (Entry.equal ((documentSpot left).entry i)
          ((documentSpot right).entry j) workspace).2 right j
        content := by
  rw [entryEqual_apply] at h ⊢
  dsimp only at h ⊢
  split at h
  case h_2 => cases h
  case h_1 mine theirs mySecret first theirSecret second hmine htheirs hmyRest htheirRest =>
    obtain ⟨other', hother, -⟩ := hright.fills (fillsAll_look Entry.fills_onIdentification)
    obtain ⟨hfirst, hhas⟩ :=
      hleft.has_of_looks hmine (fillsAll_look Entry.fills_onIdentification) hmyRest
    obtain ⟨hsecond, hhas'⟩ :=
      hother.has_of_looks htheirs (fillsAll_look Entry.fills_secretAndEntry) htheirRest
    rw [Entry.same_iff] at h
    rw [← h] at hhas'
    exact ⟨_, HoldsEntry.fills ⟨first, hfirst, hhas⟩ (fillsAll_look Entry.fills_secretAndEntry),
      second, hsecond, hhas'⟩

private theorem entryEqual_of_holds {content : EntryContent} (hne : left ≠ right)
    (h : HoldsEntry
      (Entry.equal ((documentSpot left).entry i) ((documentSpot right).entry j) workspace).2 left i
      content)
    (h' : HoldsEntry
      (Entry.equal ((documentSpot left).entry i) ((documentSpot right).entry j) workspace).2 right j
      content) :
    (Entry.equal ((documentSpot left).entry i) ((documentSpot right).entry j) workspace).1 =
      true := by
  rw [entryEqual_apply] at h h' ⊢
  dsimp only at h h' ⊢
  -- The looks at one document do not touch the other, so each side can be followed by itself.
  have hother :=
    (entryAt_look_other (j := i) hne.symm (Entry.onIdentification Access.node)).2 hright
  obtain ⟨first, hfirst, hhas⟩ := h
  obtain ⟨second, hsecond, hhas'⟩ := h'
  rw [entryAt_look_other hne] at hfirst
  have hmine := fun hfailed =>
    hleft.lacks_of_looks (fun _ => (entryAt_look_other hne _).2) hfailed hfirst hhas
  have htheirs := fun hfailed =>
    hother.lacks_of_looks (fun _ => (entryAt_look_other hne.symm _).2) hfailed hsecond hhas'
  split
  case h_1 mine theirs mySecret entry' theirSecret other' hmine htheirs hmyRest htheirRest =>
    obtain ⟨hentry', hholds⟩ :=
      hleft.has_of_looks hmine (fillsAll_look Entry.fills_onIdentification) hmyRest
    obtain ⟨hother', hholds'⟩ :=
      hother.has_of_looks htheirs (fillsAll_look Entry.fills_secretAndEntry) htheirRest
    cases hfirst.unique hentry'
    cases hsecond.unique hother'
    rw [Entry.same_iff]
    exact (hholds.unique hhas).trans (hhas'.unique hholds')
  case h_2 hsome =>
    obtain ⟨mine, hmine'⟩ := Option.ne_none_iff_exists'.1 fun hnone => hmine (.inl hnone)
    obtain ⟨myRest, hmyRest⟩ := Option.ne_none_iff_exists'.1 fun hnone => hmine (.inr hnone)
    obtain ⟨theirs, htheirs'⟩ := Option.ne_none_iff_exists'.1 fun hnone => htheirs (.inl hnone)
    obtain ⟨theirRest, htheirRest⟩ := Option.ne_none_iff_exists'.1 fun hnone => htheirs (.inr hnone)
    exact (hsome _ _ _ _ _ _ hmine' htheirs' hmyRest htheirRest).elim

end Comparing

section Rows

variable {left right : String}

private theorem allEqual_cons (i j : Nat) (pairs : List (Nat × Nat)) (workspace : Workspace) :
    let first := Entry.equal ((documentSpot left).entry i) ((documentSpot right).entry j) workspace
    Entry.allEqual (documentSpot left) (documentSpot right) ((i, j) :: pairs) workspace =
      if first.1 then Entry.allEqual (documentSpot left) (documentSpot right) pairs first.2
      else (false, first.2) := by
  intro first
  have hrun : Entry.allEqual (documentSpot left) (documentSpot right) ((i, j) :: pairs) workspace =
    (if first.1 = true then Entry.allEqual (documentSpot left) (documentSpot right) pairs
      else pure false : StateM Workspace Bool) first.2 := rfl
  rw [hrun]
  split <;> rfl

/-- The entries that pairs of numbers stand for are loaded. -/
def AllLoaded (left right : String) (pairs : List (Nat × Nat)) (workspace : Workspace) : Prop :=
  ∀ pair ∈ pairs, (∃ entry, EntryAt workspace left pair.1 entry) ∧ ∃ entry,
    EntryAt workspace right pair.2 entry

/-- The entries that pairs of numbers stand for are loaded as a whole and have the same content. -/
def AllSame (left right : String) (pairs : List (Nat × Nat)) (workspace : Workspace) : Prop :=
  ∀ pair ∈ pairs, ∃ content,
    HoldsEntry workspace left pair.1 content ∧ HoldsEntry workspace right pair.2 content

private theorem AllLoaded.fills {pairs : List (Nat × Nat)}
    (h : AllLoaded left right pairs workspace) (hfills : FillsAll workspace after) :
    AllLoaded left right pairs after := by
  intro pair hpair
  obtain ⟨⟨entry, hentry⟩, other, hother⟩ := h pair hpair
  obtain ⟨entry', hentry', -⟩ := hentry.fills hfills
  obtain ⟨other', hother', -⟩ := hother.fills hfills
  exact ⟨⟨entry', hentry'⟩, other', hother'⟩

private theorem fillsAll_entryEqual (i j : Nat) : Safely FillsAll
    (Entry.equal ((documentSpot left).entry i) ((documentSpot right).entry j)) :=
  safely_entryEqual keptByLooks_fills (keepsAt_entry keptByLooks_fills (keepsAt_fills left) i)
    (keepsAt_entry keptByLooks_fills (keepsAt_fills right) j)

private theorem fillsAll_allEqual (left right : String) (pairs : List (Nat × Nat)) :
    Safely FillsAll (Entry.allEqual (documentSpot left) (documentSpot right) pairs) :=
  safely_allEqual keptByLooks_fills (keepsAt_fills left) (keepsAt_fills right) pairs

private theorem allSame_of_allEqual {pairs : List (Nat × Nat)}
    (hloaded : AllLoaded left right pairs workspace)
    (h : (Entry.allEqual (documentSpot left) (documentSpot right) pairs workspace).1 = true) :
    AllSame left right pairs
      (Entry.allEqual (documentSpot left) (documentSpot right) pairs workspace).2 := by
  -- What one comparison has loaded, the later ones keep.
  induction pairs generalizing workspace with
  | nil => simp [AllSame]
  | cons pair pairs ih =>
    obtain ⟨⟨⟨entry, hentry⟩, other, hother⟩, hrest⟩ := List.forall_mem_cons.1 hloaded
    rw [allEqual_cons] at h ⊢
    by_cases hfirst :
      (Entry.equal ((documentSpot left).entry pair.1) ((documentSpot right).entry pair.2)
        workspace).1 = true
    · rw [if_pos hfirst] at h ⊢
      obtain ⟨content, hmine, htheirs⟩ := holds_of_entryEqual hentry hother hfirst
      refine List.forall_mem_cons.2 ⟨⟨content, hmine.fills ?_, htheirs.fills ?_⟩, ih ?_ h⟩
      · exact fillsAll_allEqual left right pairs _
      · exact fillsAll_allEqual left right pairs _
      · exact AllLoaded.fills hrest (fillsAll_entryEqual pair.1 pair.2 workspace)
    · rw [if_neg hfirst] at h
      cases h

private theorem allEqual_of_allSame {pairs : List (Nat × Nat)} (hne : left ≠ right)
    (hloaded : AllLoaded left right pairs workspace)
    (h : AllSame left right pairs
      (Entry.allEqual (documentSpot left) (documentSpot right) pairs workspace).2) :
    (Entry.allEqual (documentSpot left) (documentSpot right) pairs workspace).1 = true := by
  induction pairs generalizing workspace with
  | nil => rfl
  | cons pair pairs ih =>
    obtain ⟨⟨⟨entry, hentry⟩, other, hother⟩, hrest⟩ := List.forall_mem_cons.1 hloaded
    obtain ⟨⟨content, hmine, htheirs⟩, hothers⟩ := List.forall_mem_cons.1 h
    rw [allEqual_cons] at hmine htheirs ⊢
    by_cases hfirst :
      (Entry.equal ((documentSpot left).entry pair.1) ((documentSpot right).entry pair.2)
        workspace).1 = true
    · rw [if_pos hfirst]
      apply ih
      · exact AllLoaded.fills hrest (fillsAll_entryEqual pair.1 pair.2 workspace)
      · rw [allEqual_cons] at hothers
        rwa [if_pos hfirst] at hothers
    · -- The comparison ends here, so that both entries stay as it found them.
      rw [if_neg hfirst] at hmine htheirs
      exact absurd (entryEqual_of_holds hentry hother hne hmine htheirs) hfirst

end Rows

section Documents

variable {document : Document} {contents : List EntryContent}

private theorem has_of_holds (hfound : workspace.documents.find? name = some document)
    (hlength : document.entryCount = contents.length)
    (h : ∀ i content, contents[i]? = some content → HoldsEntry workspace name i content) :
    document.Has contents := by
  refine ⟨hlength, fun i => ?_⟩
  cases hcontent : contents[i]? with
  | none =>
    have hpast : document.entries.size ≤ i := by
      rw [show document.entries.size = contents.length from hlength]
      exact List.getElem?_eq_none_iff.1 hcontent
    rw [Slots.get?_eq_none_of_size_le hpast]
    exact .none
  | some content =>
    obtain ⟨entry, ⟨document', hfound', hentry⟩, hhas⟩ := h i content hcontent
    cases hfound.symm.trans hfound'
    obtain ⟨cell, hcell, hpeek⟩ := Option.bind_eq_some_iff.1 hentry
    rw [hcell]
    exact .some ⟨entry, hpeek, hhas⟩

private theorem holds_of_has {content : EntryContent}
    (hfound : workspace.documents.find? name = some document) (h : document.Has contents)
    (hcontent : contents[i]? = some content) : HoldsEntry workspace name i content := by
  obtain ⟨cell, hcell, entry, hpeek, hhas⟩ := Slots.Lists.item h hcontent
  exact ⟨entry, ⟨document, hfound, by rw [Document.entryAt?, hcell, Option.bind_some, hpeek]⟩, hhas⟩

private theorem entryNumbers_apply (spot : Spot Workspace Document) (workspace : Workspace) :
    let first := spot.look Document.entryList workspace
    let second := spot.look Access.node first.2
    Document.entryNumbers spot workspace =
      (match first.1, second.1 with
        | some _, some document => some (document.entries.toList.map (·.1))
        | _, _ => none, second.2) := by
  intro first second
  have hrun : Document.entryNumbers spot workspace = (match first.1, second.1 with
      | some _, some document => pure (some (document.entries.toList.map (·.1)))
      | _, _ => pure none : StateM Workspace (Option (List Nat))) second.2 := rfl
  rw [hrun]
  cases first.1 <;> cases second.1 <;> rfl

private theorem entryNumbers_cases (h : workspace.documents.find? name = some document) :
    ∃ later, (Document.entryNumbers (documentSpot name) workspace).2.documents.find? name =
      some later ∧
      (later.Listed ∧ (Document.entryNumbers (documentSpot name) workspace).1 =
        some (later.entries.toList.map (·.1)) ∨
        ¬ later.Listed ∧ (Document.entryNumbers (documentSpot name) workspace).1 = none) := by
  obtain ⟨hlist, hfound⟩ := look_document h Document.entryList
  have hlisted := @Document.listed_iff document workspace.streams
  generalize (stateAfter (Document.entryList (document, workspace.streams))).1 =
    later at hfound hlisted
  obtain ⟨hnode, hsame⟩ := look_document hfound Access.node
  have hvalue : ((documentSpot name).look Access.node
      ((documentSpot name).look Document.entryList workspace).2).1 = some later := hnode
  rw [← hlist] at hlisted
  refine ⟨later, ?_⟩
  rw [entryNumbers_apply]
  dsimp only
  rw [hvalue]
  refine ⟨hsame, ?_⟩
  cases hloaded : ((documentSpot name).look Document.entryList workspace).1 with
  | none =>
    rw [hloaded] at hlisted
    exact .inr ⟨fun hall => Bool.false_ne_true (hlisted.1 hall), rfl⟩
  | some entries =>
    rw [hloaded] at hlisted
    exact .inl ⟨hlisted.2 rfl, rfl⟩

end Documents

section Whole

variable {left right : String} {mine theirs : Document}

private theorem documentEqual_apply (left right : String) (workspace : Workspace) :
    let first := Document.entryNumbers (documentSpot left) workspace
    let second := Document.entryNumbers (documentSpot right) first.2
    Document.equal (documentSpot left) (documentSpot right) workspace =
      match first.1, second.1 with
      | some numbers, some numbers' =>
        if numbers.length = numbers'.length then
          Entry.allEqual (documentSpot left) (documentSpot right) (numbers.zip numbers') second.2
        else (false, second.2)
      | _, _ => (false, second.2) := by
  intro first second
  have hrun : Document.equal (documentSpot left) (documentSpot right) workspace =
      (match first.1, second.1 with
      | some numbers, some numbers' =>
        if numbers.length = numbers'.length then
          Entry.allEqual (documentSpot left) (documentSpot right) (numbers.zip numbers')
        else pure false
      | _, _ => pure false : StateM Workspace Bool) second.2 := rfl
  rw [hrun]
  cases first.1 with
  | none => rfl
  | some numbers =>
    cases second.1 with
    | none => rfl
    | some numbers' =>
      dsimp only
      split <;> rfl

private theorem fillsAll_entryNumbers (name : String) :
    Safely FillsAll (Document.entryNumbers (documentSpot name)) :=
  safely_entryNumbers keptByLooks_fills (keepsAt_fills name)

theorem fillsAll_documentEqual (left right : String) :
    Safely FillsAll (Document.equal (documentSpot left) (documentSpot right)) :=
  safely_documentEqual keptByLooks_fills (keepsAt_fills left) (keepsAt_fills right)

private theorem sound_entryNumbers (h : Sound workspace) (name : String) :
    Sound (Document.entryNumbers (documentSpot name) workspace).2 :=
  Grows.sound (safely_entryNumbers keptByLooks_grows (keepsAt_document name) workspace) h

private theorem entryAt_of_listed {document : Document} (hsound : Sound workspace)
    (hfound : workspace.documents.find? name = some document) (hlisted : document.Listed)
    (hi : i < document.entryCount) : ∃ entry, EntryAt workspace name i entry := by
  have hintact : document.Intact := hsound.document hfound
  obtain ⟨entry, hentry⟩ := hlisted.entryAt? hintact hi
  exact ⟨entry, document, hfound, hentry⟩

private theorem numbers_of_sound {document : Document} (hsound : Sound workspace)
    (hfound : workspace.documents.find? name = some document) :
    document.entries.toList.map (·.1) = List.range document.entryCount := by
  have hintact : document.Intact := hsound.document hfound
  exact Slots.numbers_eq hintact.occupied

private theorem entryNumbers_other {other : String} (h : other ≠ name) :
    (Document.entryNumbers (documentSpot name) workspace).2.documents.find? other =
      workspace.documents.find? other := by
  rw [entryNumbers_apply]
  dsimp only
  rw [look_other h, look_other h]

/-- Either all entries of both documents are loaded and as many, and are then compared pair by pair;
or the documents are found to differ at once. -/
private theorem documentEqual_cases (hsound : Sound workspace)
    (hleft : workspace.documents.find? left = some mine)
    (hright : workspace.documents.find? right = some theirs) :
    ∃ middle mine' theirs',
      middle.documents.find? left = some mine' ∧ middle.documents.find? right = some theirs' ∧
      (mine'.entryCount = theirs'.entryCount ∧
          AllLoaded left right ((List.range mine'.entryCount).zip (List.range mine'.entryCount))
            middle ∧
          Document.equal (documentSpot left) (documentSpot right) workspace =
            Entry.allEqual (documentSpot left) (documentSpot right)
              ((List.range mine'.entryCount).zip (List.range mine'.entryCount)) middle ∨
        (mine'.entryCount ≠ theirs'.entryCount ∨
          (left ≠ right → ¬ (mine'.Listed ∧ theirs'.Listed))) ∧
          Document.equal (documentSpot left) (documentSpot right) workspace = (false, middle)) := by
  obtain ⟨mine₁, hmine₁, hmineCases⟩ := entryNumbers_cases hleft
  obtain ⟨theirs₁, htheirs₁, -⟩ := fillsAll_entryNumbers left workspace right theirs hright
  obtain ⟨theirs₂, htheirs₂, htheirsCases⟩ := entryNumbers_cases htheirs₁
  have hsound₁ := sound_entryNumbers hsound left
  have hsound₂ := sound_entryNumbers hsound₁ right
  have hfills := fillsAll_entryNumbers right (Document.entryNumbers (documentSpot left) workspace).2
  obtain ⟨mine₂, hmine₂, hmineFills⟩ := hfills left mine₁ hmine₁
  refine ⟨_, mine₂, theirs₂, hmine₂, htheirs₂, ?_⟩
  rw [documentEqual_apply]
  rcases hmineCases with ⟨hmineListed, hmineNumbers⟩ | ⟨hmineListed, hmineNumbers⟩
  · rcases htheirsCases with ⟨htheirsListed, htheirsNumbers⟩ | ⟨htheirsListed, htheirsNumbers⟩
    · rw [hmineNumbers, htheirsNumbers, numbers_of_sound hsound₁ hmine₁,
        numbers_of_sound hsound₂ htheirs₂, ← hmineFills.entryCount_eq]
      dsimp only
      rw [List.length_range, List.length_range]
      by_cases hcount : mine₂.entryCount = theirs₂.entryCount
      · rw [if_pos hcount, ← hcount]
        refine .inl ⟨rfl, ?_, rfl⟩
        intro pair hpair
        obtain ⟨hsame, hlt⟩ := mem_zip_range.1 hpair
        obtain ⟨entry, hentry⟩ :=
          entryAt_of_listed hsound₁ hmine₁ hmineListed (hmineFills.entryCount_eq ▸ hlt)
        obtain ⟨later, hlater, -⟩ := hentry.fills hfills
        exact ⟨⟨later, hlater⟩,
          entryAt_of_listed hsound₂ htheirs₂ htheirsListed (hcount ▸ hsame ▸ hlt)⟩
      · rw [if_neg hcount]
        exact .inr ⟨.inl hcount, rfl⟩
    · rw [hmineNumbers, htheirsNumbers]
      exact .inr ⟨.inr fun _ hlisted => htheirsListed hlisted.2, rfl⟩
  · rw [hmineNumbers]
    refine .inr ⟨.inr fun hne hlisted => hmineListed ?_, rfl⟩
    rw [entryNumbers_other hne, hmine₁] at hmine₂
    cases hmine₂
    exact hlisted.1

/-- Documents that are found equal are loaded as a whole and have the same contents. -/
theorem has_of_documentEqual (hsound : Sound workspace)
    (hleft : workspace.documents.find? left = some mine)
    (hright : workspace.documents.find? right = some theirs)
    (h : (Document.equal (documentSpot left) (documentSpot right) workspace).1 = true) :
    ∃ contents mine' theirs',
      (Document.equal (documentSpot left) (documentSpot right) workspace).2.documents.find? left =
        some mine' ∧
      (Document.equal (documentSpot left) (documentSpot right) workspace).2.documents.find? right =
        some theirs' ∧
      mine'.Has contents ∧ theirs'.Has contents := by
  obtain ⟨middle, mine', theirs', hmine, htheirs, ⟨hcount, hloaded, hequal⟩ | ⟨-, hequal⟩⟩ :=
    documentEqual_cases hsound hleft hright
  · rw [hequal] at h ⊢
    have hsame := allSame_of_allEqual hloaded h
    have hfills := fillsAll_allEqual left right
      ((List.range mine'.entryCount).zip (List.range mine'.entryCount)) middle
    generalize (Entry.allEqual (documentSpot left) (documentSpot right)
      ((List.range mine'.entryCount).zip (List.range mine'.entryCount)) middle).2 =
      after at hsame hfills ⊢
    obtain ⟨mineLast, hmineLast, hmineFills⟩ := hfills left mine' hmine
    obtain ⟨theirsLast, htheirsLast, htheirsFills⟩ := hfills right theirs' htheirs
    have heach (i : Fin mine'.entryCount) :
        ∃ content, HoldsEntry after left i content ∧ HoldsEntry after right i content :=
      hsame (i, i) (mem_zip_range.2 ⟨rfl, i.2⟩)
    choose content hcontent using heach
    have hitem (i : Nat) (found : EntryContent) (hfound : (List.ofFn content)[i]? = some found) :
        HoldsEntry after left i found ∧ HoldsEntry after right i found := by
      obtain ⟨hi, rfl⟩ := List.getElem?_eq_some_iff.1 hfound
      rw [List.getElem_ofFn]
      exact hcontent ⟨i, by simpa using hi⟩
    refine ⟨List.ofFn content, mineLast, theirsLast, hmineLast, htheirsLast, ?_, ?_⟩
    · apply has_of_holds hmineLast
      · rw [List.length_ofFn, hmineFills.entryCount_eq]
      · exact fun i found hfound => (hitem i found hfound).1
    · apply has_of_holds htheirsLast
      · rw [List.length_ofFn, htheirsFills.entryCount_eq, hcount]
      · exact fun i found hfound => (hitem i found hfound).2
  · rw [hequal] at h
    cases h

/-- Two documents that are loaded as a whole after the comparison and have the same contents were
found equal. -/
theorem documentEqual_of_has {contents : List EntryContent} {mine' theirs' : Document}
    (hsound : Sound workspace) (hne : left ≠ right)
    (hleft : workspace.documents.find? left = some mine)
    (hright : workspace.documents.find? right = some theirs)
    (hmine : (Document.equal (documentSpot left) (documentSpot right) workspace).2.documents.find?
      left = some mine')
    (htheirs :
      (Document.equal (documentSpot left) (documentSpot right) workspace).2.documents.find? right =
        some theirs')
    (hmineHas : mine'.Has contents) (htheirsHas : theirs'.Has contents) :
    (Document.equal (documentSpot left) (documentSpot right) workspace).1 = true := by
  obtain ⟨middle, mine₁, theirs₁, hmine₁, htheirs₁,
    ⟨hcount, hloaded, hequal⟩ | ⟨hdiffer, hequal⟩⟩ :=
    documentEqual_cases hsound hleft hright
  · rw [hequal] at hmine htheirs ⊢
    apply allEqual_of_allSame hne hloaded
    intro pair hpair
    obtain ⟨hsame, hlt⟩ := mem_zip_range.1 hpair
    obtain ⟨later, hlater, hfills⟩ := fillsAll_allEqual left right _ middle left mine₁ hmine₁
    cases hmine.symm.trans hlater
    have hi : pair.1 < contents.length := by
      have hcount := hfills.entryCount_eq.symm.trans hmineHas.size_eq
      rwa [hcount] at hlt
    have hcontent := List.getElem?_eq_getElem hi
    rw [← hsame]
    exact ⟨_, holds_of_has hmine hmineHas hcontent, holds_of_has htheirs htheirsHas hcontent⟩
  · rw [hequal] at hmine htheirs
    cases hmine₁.symm.trans hmine
    cases htheirs₁.symm.trans htheirs
    rcases hdiffer with hcount | hlisted
    · exact (hcount (hmineHas.size_eq.trans htheirsHas.size_eq.symm)).elim
    · exact (hlisted hne ⟨hmineHas.listed, htheirsHas.listed⟩).elim

end Whole

end Workspace
end FramedTree
