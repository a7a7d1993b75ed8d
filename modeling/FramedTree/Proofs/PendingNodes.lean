import FramedTree.Proofs.Reopening
import FramedTree.Proofs.SeekLog

/-! # What is still to be loaded

A node that is stored and has not been loaded yet is pending. Only a pending node is read, from the
place where it is stored, and it stays pending only if the read fails. Nothing makes a node pending
again once it has been settled; the one way for a node to become pending at all is that its entry
has been loaded.
-/

namespace FramedTree

open Document (Node)

variable {ε ν σ : Type} {writing : Writing}

/-- Where the value of a cell is still to be loaded from. -/
def Lazy.pending (cell : Lazy ν) : Option Origin := if cell.isLoaded then none else cell.origin

/-- What is read in an event, and the failure that was met. -/
def CellEvent.reading? (inner : ε → Option (Origin × Option Error)) :
    CellEvent ε → Option (Origin × Option Error)
  | read origin failure => some (origin, failure)
  | settled => none
  | within event => inner event

def EntryEvent.reading? : EntryEvent → Option (Origin × Option Error)
  | identification event | secretIdentity event => event.reading? fun _ => none
  | edited | wrote => none

def DocumentEvent.reading? : DocumentEvent → Option (Origin × Option Error)
  | entry _ event => event.reading? EntryEvent.reading?
  | added | began | wrote => none

namespace Lazy

private theorem pending_of_peek {cell : Lazy ν} {value : ν} (h : cell.peek = some value) :
    cell.pending = none := by
  simp [pending, isLoaded, h]

private theorem pending_of_unloaded {cell : Lazy ν} (h : cell.peek = none) :
    cell.pending = cell.origin := by
  simp [pending, isLoaded, h]

private theorem pending_congr {cell later : Lazy ν} (hpeek : later.peek = cell.peek)
    (horigin : later.origin = cell.origin) :
    later.pending = cell.pending := by
  rw [pending, isLoaded, hpeek, horigin]
  rfl

namespace Move

variable {load : Option Origin → EStateM Error σ ν} {inner : Course ε (ν × σ)} {event : CellEvent ε}
  {cell later : Lazy ν} {around after : σ}

private theorem pending_read {origin : Origin} {failure : Option Error}
    (h : Lazy.Move load inner (.read origin failure) (cell, around) (later, after)) :
    cell.pending = some origin ∧ later.pending = failure.map fun _ => origin := by
  cases h with
  | found hpeek horigin _ hlater _ =>
    exact ⟨by rw [pending_of_unloaded hpeek, horigin], pending_of_peek hlater⟩
  | failed hpeek horigin _ =>
    have hpending := (pending_of_unloaded hpeek).trans horigin
    exact ⟨hpending, hpending⟩

private theorem pending_cases (h : Lazy.Move load inner event (cell, around) (later, after)) :
    later.pending = cell.pending ∨ later.pending = none := by
  cases h with
  | found _ _ _ hlater _ | built _ _ _ hlater _ | within _ _ hlater _ =>
    exact .inr (pending_of_peek hlater)
  | failed => exact .inl rfl
  | shifted hlater hkept => exact .inl (pending_congr hlater hkept)

private theorem peek_of_loaded (h : Lazy.Move load inner event (cell, around) (later, after))
    {value : ν} (hpeek : cell.peek = some value) :
    later.peek = some value ∨ ∃ event' value', event = .within event' ∧
      inner.Move event' (value, around) (value', after) ∧ later.peek = some value' := by
  cases h with
  | found hnone | failed hnone | built hnone => simp [hpeek] at hnone
  | shifted hlater => exact .inl (hlater.trans hpeek)
  | within hfirst hmove hlater =>
    rw [hpeek] at hfirst
    cases hfirst
    exact .inr ⟨_, _, rfl, hmove, hlater⟩

private theorem loaded_cases (h : Lazy.Move load inner event (cell, around) (later, after))
    {value' : ν} (hlater : later.peek = some value') :
    cell.peek = some value' ∨ (cell.peek = none ∧ load cell.origin around = .ok value' after) ∨
      ∃ event' value, event = .within event' ∧ cell.peek = some value ∧
        inner.Move event' (value, around) (value', after) := by
  cases h with
  | found hpeek horigin hload hfound | built hpeek horigin hload hfound =>
    rw [hfound] at hlater
    cases hlater
    exact .inr (.inl ⟨hpeek, by rw [horigin]; exact hload⟩)
  | failed hpeek =>
    rw [hpeek] at hlater
    cases hlater
  | shifted hsame => exact .inl (hsame.symm.trans hlater)
  | within hpeek hmove hfound =>
    rw [hfound] at hlater
    cases hlater
    exact .inr (.inr ⟨_, _, rfl, hpeek, hmove⟩)

end Move
end Lazy

namespace Entry

def pending (entry : Entry) : Node → Option Origin
  | .identification _ => entry.identification.pending
  | .secretIdentity _ => (entry.secretIdentity.get? singular).bind Lazy.pending
  | .document | .entry _ => none

private theorem pending_ofHeader {stamp : Stamp} {source : Source} {header : EntryHeader}
    {node : Node} {origin : Origin}
    (h : (ofHeader stamp source header).pending node = some origin) : origin.source = source := by
  cases node with
  | document | entry i => cases h
  | identification i =>
    cases h
    rfl
  | secretIdentity i =>
    cases hsecret : header.secretIdentity with
    | none => simp [pending, ofHeader, hsecret] at h
    | some position =>
      rw [pending, ofHeader, hsecret, Slots.get?_insert, if_pos rfl] at h
      cases h
      rfl

private theorem pending_load {stamp : Stamp} {stored : Option Origin} {streams after : Streams}
    {entry : Entry} {node : Node} {origin : Origin}
    (h : load stamp stored streams = .ok entry after)
    (hpending : entry.pending node = some origin) :
    ∃ parent, stored = some parent ∧ origin.source = parent.source := by
  cases stored with
  | none =>
    cases h
    cases node <;> cases hpending
  | some parent =>
    obtain ⟨header, between, -, hrest⟩ := bind_ok h
    cases hrest
    exact ⟨parent, rfl, pending_ofHeader hpending⟩

namespace Move

variable {event : EntryEvent} {entry later : Entry} {streams after : Streams}

private theorem pending_read {origin : Origin} {failure : Option Error} (i : Nat)
    (h : Entry.Move writing event (entry, streams) (later, after))
    (hread : event.reading? = some (origin, failure)) :
    entry.pending (event.node i) = some origin ∧ later.pending (event.node i) = failure.map fun _ =>
      origin := by
  cases h with
  | edited | wrote => cases hread
  | @identification event entry cell _ _ h =>
    cases event with
    | settled | within event => cases hread
    | read found met =>
      cases hread
      exact Lazy.Move.pending_read h
  | @secretIdentity event entry slots _ _ h =>
    cases event with
    | settled | within event => cases hread
    | read found met =>
      cases hread
      obtain ⟨cell, cell', hget, hmove, rfl⟩ := h
      obtain ⟨hbefore, hafter⟩ := Lazy.Move.pending_read hmove
      simp only [pending, EntryEvent.node, Slots.get?_modify, hget, if_pos, Option.map_some,
        Option.bind_some, hbefore, hafter, and_self]

private theorem pending_cases (h : Entry.Move writing event (entry, streams) (later, after))
    (node : Node) :
    later.pending node = entry.pending node ∨ later.pending node = none := by
  cases node with
  | document | entry i => exact .inl rfl
  | identification i =>
    cases h with
    | identification h => exact Lazy.Move.pending_cases h
    | secretIdentity h | wrote h => exact .inl rfl
    | edited h => exact .inl (by rw [pending, h.identification_eq, pending])
  | secretIdentity i =>
    cases h with
    | identification h | wrote h => exact .inl rfl
    | secretIdentity h =>
      obtain ⟨cell, cell', hget, hmove, rfl⟩ := h
      simp only [pending, Slots.get?_modify, hget, if_pos, Option.map_some, Option.bind_some]
      exact Lazy.Move.pending_cases hmove
    | @edited _ later _ h =>
      cases hlater : later.secretIdentity.get? singular with
      | none => exact .inr (by rw [pending, hlater]; rfl)
      | some cell =>
        rcases h.secretIdentity cell hlater with hbefore | hnone
        · exact .inl (by rw [pending, pending, hlater, hbefore])
        · refine .inr ?_
          rw [pending, hlater, Option.bind_some, Lazy.pending, hnone, ite_self]

end Move
end Entry

namespace Document

/-- Where a node is still to be loaded from. Nothing is known of the children of an entry that has
not been loaded. -/
def pending (document : Document) : Node → Option Origin
  | .document => none
  | .entry i => (document.entries.get? i).bind Lazy.pending
  | .identification i => (document.entryAt? i).bind (·.pending (.identification i))
  | .secretIdentity i => (document.entryAt? i).bind (·.pending (.secretIdentity i))

def Settled (document : Document) : Node → Prop
  | .document => True
  | .entry i => document.pending (.entry i) = none
  | .identification i =>
    ∃ entry, document.entryAt? i = some entry ∧ entry.pending (.identification i) = none
  | .secretIdentity i =>
    ∃ entry, document.entryAt? i = some entry ∧ entry.pending (.secretIdentity i) = none

private theorem Settled.pending_eq {document : Document} {node : Node} (h : document.Settled node) :
    document.pending node = none := by
  cases node with
  | document => rfl
  | entry i => exact h
  | identification i | secretIdentity i =>
    obtain ⟨entry, hentry, hnone⟩ := h
    rw [pending, hentry, Option.bind_some, hnone]

private theorem pending_of_reading {document : Document} {i : Nat} {entry : Entry}
    {event : EntryEvent} {reading : Origin × Option Error}
    (hentry : document.entryAt? i = some entry) (h : event.reading? = some reading) :
    document.pending (event.node i) = entry.pending (event.node i) ∧
      (entry.pending (event.node i) = none → document.Settled (event.node i)) := by
  cases event with
  | edited | wrote => cases h
  | identification event | secretIdentity event =>
    exact ⟨by rw [EntryEvent.node, pending, hentry, Option.bind_some],
      fun hnone => ⟨entry, hentry, hnone⟩⟩

namespace Move

variable {event : DocumentEvent} {document later : Document} {streams after : Streams}

private theorem pending_read {origin : Origin} {failure : Option Error}
    (h : Document.Move writing event (document, streams) (later, after))
    (hread : event.reading? = some (origin, failure)) :
    document.pending event.node = some origin ∧
    later.pending event.node = failure.map (fun _ => origin) ∧
      (failure = none → later.Settled event.node) := by
  cases h with
  | added | began | wrote => cases hread
  | @entry i event document slots _ _ h =>
    obtain ⟨cell, cell', hget, hmove, rfl⟩ := h
    have hlater : (document.entries.modify i fun _ => cell').get? i = some cell' := by
      rw [Slots.get?_modify, if_pos rfl, hget]
      rfl
    cases event with
    | settled => cases hread
    | read found met =>
      cases hread
      obtain ⟨hbefore, hafter⟩ := Lazy.Move.pending_read hmove
      have hpending : Document.pending
        { document with entries := document.entries.modify i fun _ => cell' } (.entry i) =
          failure.map fun _ => origin := by
        rw [pending, hlater, Option.bind_some, hafter]
      refine ⟨?_, hpending, ?_⟩
      · change document.pending (.entry i) = some origin
        rw [pending, hget, Option.bind_some, hbefore]
      · rintro rfl
        exact hpending
    | within event =>
      cases hmove with
      | @within _ _ _ _ _ entry entry' hpeek hinner hfound =>
        have hentry : document.entryAt? i = some entry := by rw [entryAt?, hget]; exact hpeek
        have hentry' :
            entryAt? { document with entries := document.entries.modify i fun _ => cell' } i =
              some entry' := by
          rw [entryAt?, hlater]
          exact hfound
        obtain ⟨hbefore, hafter⟩ := Entry.Move.pending_read i hinner hread
        obtain ⟨hpending, hsettled⟩ := pending_of_reading hentry' hread
        refine ⟨(pending_of_reading hentry hread).1.trans hbefore, hpending.trans hafter, ?_⟩
        rintro rfl
        exact hsettled hafter

private theorem entryAt?_of_loaded
    (h : Document.Move writing event (document, streams) (later, after)) {i : Nat} {entry : Entry}
    (hentry : document.entryAt? i = some entry) :
    ∃ entry', later.entryAt? i = some entry' ∧
      ∀ node, entry'.pending node = entry.pending node ∨ entry'.pending node = none := by
  cases h with
  | began | wrote => exact ⟨entry, hentry, fun _ => .inl rfl⟩
  | added =>
    refine ⟨entry, ?_, fun _ => .inl rfl⟩
    have hbound : i ≠ document.entries.size := by
      rintro rfl
      simp [entryAt?] at hentry
    rw [entryAt?, addEntry, Slots.get?_insert, if_neg hbound]
    exact hentry
  | @entry j event document slots _ _ h =>
    obtain ⟨cell, cell', hget, hmove, rfl⟩ := h
    rw [entryAt?, Slots.get?_modify]
    by_cases hj : i = j
    · subst hj
      rw [entryAt?, hget, Option.bind_some] at hentry
      rw [if_pos rfl, hget, Option.map_some, Option.bind_some]
      rcases hmove.peek_of_loaded hentry with hsame | ⟨event', entry', -, hinner, hlater⟩
      · exact ⟨entry, hsame, fun _ => .inl rfl⟩
      · exact ⟨entry', hlater, Entry.Move.pending_cases hinner⟩
    · rw [if_neg hj]
      exact ⟨entry, hentry, fun _ => .inl rfl⟩

private theorem cell_cases (h : Document.Move writing event (document, streams) (later, after))
    {i : Nat} {cell' : Lazy Entry} (hcell : later.entries.get? i = some cell') :
    document.entries.get? i = some cell' ∨ cell' = Lazy.insert {} document.addEntry.1 ∨
      ∃ event' cell, event = .entry i event' ∧ document.entries.get? i = some cell ∧
        Lazy.Move (loadEntry document.stamp i) (Entry.course writing) event' (cell, streams)
          (cell', after) := by
  cases h with
  | began | wrote => exact .inl hcell
  | added =>
    rw [addEntry, Slots.get?_insert] at hcell
    split at hcell
    · cases hcell
      exact .inr (.inl rfl)
    · exact .inl hcell
  | @entry j event document slots _ _ h =>
    obtain ⟨cell, changed, hget, hmove, rfl⟩ := h
    rw [Slots.get?_modify] at hcell
    split at hcell
    case isTrue hj =>
      subst hj
      rw [hget] at hcell
      cases hcell
      exact .inr (.inr ⟨event, cell, rfl, hget, hmove⟩)
    case isFalse => exact .inl hcell

private theorem entry_pending_cases
    (h : Document.Move writing event (document, streams) (later, after)) {i : Nat} {entry' : Entry}
    {node : Node} {origin : Origin} (hentry : later.entryAt? i = some entry')
    (hpending : entry'.pending node = some origin) :
    (∃ entry, document.entryAt? i = some entry ∧ entry.pending node = some origin) ∨
      document.entryAt? i = none ∧ ∃ parent, document.pending (.entry i) = some parent ∧
        origin.source = parent.source := by
  obtain ⟨cell', hcell, hpeek⟩ := Option.bind_eq_some_iff.1 hentry
  rcases h.cell_cases hcell with hbefore | rfl | ⟨event', cell, -, hget, hmove⟩
  · exact .inl ⟨entry', by rw [entryAt?, hbefore]; exact hpeek, hpending⟩
  · cases hpeek
    cases node <;> cases hpending
  · have hat : document.entryAt? i = cell.peek := by rw [entryAt?, hget, Option.bind_some]
    rw [hat]
    rcases hmove.loaded_cases hpeek with hsame | ⟨hnone, hload⟩ | ⟨_, entry, -, hfirst, hinner⟩
    · exact .inl ⟨entry', hsame, hpending⟩
    · obtain ⟨parent, horigin, hsource⟩ := Entry.pending_load hload hpending
      refine .inr ⟨hnone, parent, ?_, hsource⟩
      rw [pending, hget, Option.bind_some, Lazy.pending_of_unloaded hnone, horigin]
    · refine .inl ⟨entry, hfirst, ?_⟩
      rcases Entry.Move.pending_cases hinner node with hsame | hnone
      · rw [← hsame, hpending]
      · rw [hnone] at hpending
        cases hpending

private theorem pending_cases (h : Document.Move writing event (document, streams) (later, after))
    {node : Node} {origin : Origin} (hpending : later.pending node = some origin) :
    document.pending node = some origin ∨ ∃ i parent,
      (node = .identification i ∨ node = .secretIdentity i) ∧
      document.entryAt? i = none ∧ document.pending (.entry i) = some parent ∧
      origin.source = parent.source := by
  cases node with
  | document => cases hpending
  | entry i =>
    obtain ⟨cell', hcell, hpending⟩ := Option.bind_eq_some_iff.1 hpending
    refine .inl ?_
    rw [pending]
    rcases h.cell_cases hcell with hbefore | rfl | ⟨event', cell, -, hget, hmove⟩
    · rw [hbefore, Option.bind_some, hpending]
    · cases hpending
    · rcases hmove.pending_cases with hsame | hnone
      · rw [hget, Option.bind_some, ← hsame, hpending]
      · rw [hnone] at hpending
        cases hpending
  | identification i | secretIdentity i =>
    obtain ⟨entry', hentry, hpending⟩ := Option.bind_eq_some_iff.1 hpending
    rcases h.entry_pending_cases hentry hpending with ⟨entry, hbefore, hsame⟩ | ⟨hnone, parent,
      hparent, hsource⟩
    · exact .inl (by rw [pending, hbefore, Option.bind_some, hsame])
    · exact .inr ⟨i, parent, by simp, hnone, hparent, hsource⟩

private theorem settled (h : Document.Move writing event (document, streams) (later, after))
    {node : Node} (hsettled : document.Settled node) : later.Settled node := by
  cases node with
  | document => trivial
  | entry i =>
    change later.pending (.entry i) = none
    rw [Option.eq_none_iff_forall_ne_some]
    intro origin hpending
    rcases h.pending_cases hpending with hbefore | ⟨j, parent, hnode | hnode, -⟩
    · rw [hsettled.pending_eq] at hbefore
      cases hbefore
    · cases hnode
    · cases hnode
  | identification i | secretIdentity i =>
    obtain ⟨entry, hentry, hnone⟩ := hsettled
    obtain ⟨entry', hlater, hpending⟩ := h.entryAt?_of_loaded hentry
    refine ⟨entry', hlater, ?_⟩
    rcases hpending _ with hsame | hnothing
    · rw [hsame, hnone]
    · exact hnothing

end Move

/-- Whatever is still to be loaded is stored in the source. -/
def Bound (source : Source) (document : Document) : Prop :=
  ∀ node origin, document.pending node = some origin → origin.source = source

theorem bound_ofHeader (root : RootId) (source : Source) (header : DocumentHeader) :
    (ofHeader root source header).Bound source := by
  have hcell {i : Nat} {cell : Lazy Entry}
    (h : (ofHeader root source header).entries.get? i = some cell) :
      ∃ position, cell = .stored source position := by
    rw [get?_ofHeader] at h
    obtain ⟨position, -, hcell⟩ := Option.map_eq_some_iff.1 h
    exact ⟨position, hcell.symm⟩
  intro node origin hpending
  cases node with
  | document => cases hpending
  | entry i =>
    obtain ⟨cell, hget, hpending⟩ := Option.bind_eq_some_iff.1 hpending
    obtain ⟨position, rfl⟩ := hcell hget
    cases hpending
    rfl
  | identification i | secretIdentity i =>
    obtain ⟨entry, hentry, -⟩ := Option.bind_eq_some_iff.1 hpending
    obtain ⟨cell, hget, hpeek⟩ := Option.bind_eq_some_iff.1 hentry
    obtain ⟨position, rfl⟩ := hcell hget
    cases hpeek

theorem Move.bound {event : DocumentEvent} {document later : Document} {streams after : Streams}
    {source : Source} (h : Document.Move writing event (document, streams) (later, after))
    (hbound : document.Bound source) :
    later.Bound source := by
  intro node origin hpending
  rcases h.pending_cases hpending with hbefore | ⟨i, parent, -, -, hparent, hsource⟩
  · exact hbound node origin hbefore
  · exact hsource.trans (hbound _ parent hparent)

end Document

structure Attempt where
  holder : Holder
  node : Node
  origin : Origin
  failure : Option Error
  deriving DecidableEq, Repr

/-- The attempt that an event is, if it is one. The children of an entry that stands alone are
numbered as if it were the first of a document. -/
def WorkspaceEvent.attempt? : WorkspaceEvent → Option Attempt
  | document name event =>
    event.reading?.map fun reading => ⟨.document name, event.node, reading.1, reading.2⟩
  | entry name event =>
    event.reading?.map fun reading => ⟨.entry name, event.node 0, reading.1, reading.2⟩
  | aside => none

def attempts (events : List WorkspaceEvent) : List Attempt :=
  events.filterMap WorkspaceEvent.attempt?

namespace Workspace

def pending (workspace : Workspace) (node : Node) : Holder → Option Origin
  | .document name => (workspace.documents.find? name).bind (·.pending node)
  | .entry name => (workspace.entries.find? name).bind (·.pending node)
  | .identity _ => none

def Settled (workspace : Workspace) (node : Node) : Holder → Prop
  | .document name =>
    ∃ document, workspace.documents.find? name = some document ∧ document.Settled node
  | .entry name => ∃ entry, workspace.entries.find? name = some entry ∧ entry.pending node = none
  | .identity _ => True

private theorem Settled.pending_eq {workspace : Workspace} {node : Node} {holder : Holder}
    (h : workspace.Settled node holder) :
    workspace.pending node holder = none := by
  cases holder with
  | document name =>
    obtain ⟨document, hfound, hsettled⟩ := h
    rw [pending, hfound, Option.bind_some, hsettled.pending_eq]
  | entry name =>
    obtain ⟨entry, hfound, hnone⟩ := h
    rw [pending, hfound, Option.bind_some, hnone]
  | identity name => rfl

namespace Move

variable {event : WorkspaceEvent} {workspace later : Workspace}

/-- An attempt finds its node pending, and settles it unless it fails. -/
theorem attempted (h : Workspace.Move writing event workspace later) {attempt : Attempt}
    (hattempt : event.attempt? = some attempt) :
    workspace.pending attempt.node attempt.holder = some attempt.origin ∧
      later.pending attempt.node attempt.holder = attempt.failure.map (fun _ => attempt.origin) ∧
      (attempt.failure = none → later.Settled attempt.node attempt.holder) := by
  cases h with
  | aside => cases hattempt
  | @document name event _ document later streams hfound hmove =>
    obtain ⟨⟨origin, failure⟩, hread, rfl⟩ := Option.map_eq_some_iff.1 hattempt
    obtain ⟨hbefore, hafter, hsettled⟩ := hmove.pending_read hread
    refine ⟨?_, ?_, fun hnone => ⟨later, Table.find?_set_self .., hsettled hnone⟩⟩
    · rw [pending, hfound, Option.bind_some, hbefore]
    · rw [pending, Table.find?_set_self, Option.bind_some, hafter]
  | @entry name event _ entry later streams hfound hmove =>
    obtain ⟨⟨origin, failure⟩, hread, rfl⟩ := Option.map_eq_some_iff.1 hattempt
    obtain ⟨hbefore, hafter⟩ := hmove.pending_read 0 hread
    refine ⟨?_, ?_, fun hnone => ⟨later, Table.find?_set_self .., ?_⟩⟩
    · rw [pending, hfound, Option.bind_some, hbefore]
    · rw [pending, Table.find?_set_self, Option.bind_some, hafter]
    · rw [hafter, show failure = none from hnone, Option.map_none]

private theorem settled (h : Workspace.Move writing event workspace later) {node : Node}
    {holder : Holder} (hsettled : workspace.Settled node holder) : later.Settled node holder := by
  cases holder with
  | identity name => trivial
  | document name =>
    obtain ⟨document, hdocument, hsettled⟩ := hsettled
    cases h with
    | entry hfound hmove => exact ⟨document, hdocument, hsettled⟩
    | aside _ hdocuments _ => exact ⟨document, by rw [hdocuments, hdocument], hsettled⟩
    | @document other event _ first later streams hfound hmove =>
      by_cases hname : name = other
      · subst hname
        rw [hfound] at hdocument
        cases hdocument
        exact ⟨later, Table.find?_set_self .., hmove.settled hsettled⟩
      · exact ⟨document, by rw [Table.find?_set, if_neg hname, hdocument], hsettled⟩
  | entry name =>
    obtain ⟨entry, hentry, hnone⟩ := hsettled
    cases h with
    | document hfound hmove => exact ⟨entry, hentry, hnone⟩
    | aside _ _ hentries => exact ⟨entry, by rw [hentries, hentry], hnone⟩
    | @entry other event _ first later streams hfound hmove =>
      by_cases hname : name = other
      · subst hname
        rw [hfound] at hentry
        cases hentry
        refine ⟨later, Table.find?_set_self .., ?_⟩
        rcases hmove.pending_cases node with hsame | hnothing
        · rw [hsame, hnone]
        · exact hnothing
      · exact ⟨entry, by rw [Table.find?_set, if_neg hname, hentry], hnone⟩

end Move

/-- What has been settled is not attempted. -/
theorem attempts_of_settled {events : List WorkspaceEvent} {workspace later : Workspace}
    (h : Trail (Move writing) events workspace later) {node : Node} {holder : Holder}
    (hsettled : workspace.Settled node holder) :
    ∀ attempt ∈ attempts events, (attempt.holder, attempt.node) ≠ (holder, node) := by
  induction h with
  | nil => simp [attempts]
  | @cons event events workspace between after hmove _ ih =>
    intro attempt hattempt
    obtain ⟨found, hfound, hread⟩ := List.mem_filterMap.1 hattempt
    rcases List.mem_cons.1 hfound with rfl | hfound
    · rintro hsame
      obtain ⟨rfl, rfl⟩ := Prod.mk.inj hsame
      have hpending := (hmove.attempted hread).1
      rw [hsettled.pending_eq] at hpending
      cases hpending
    · exact ih (hmove.settled hsettled) attempt (List.mem_filterMap.2 ⟨found, hfound, hread⟩)

/-- A node that has been loaded is not attempted again. -/
theorem pairwise_attempts {events : List WorkspaceEvent} {workspace later : Workspace}
    (h : Trail (Move writing) events workspace later) :
    (attempts events).Pairwise fun first second =>
      first.failure = none → (second.holder, second.node) ≠ (first.holder, first.node) := by
  induction h with
  | nil => exact .nil
  | @cons event events workspace between after hmove htrail ih =>
    unfold attempts
    rw [List.filterMap_cons]
    cases hread : event.attempt? with
    | none => exact ih
    | some attempt =>
      refine List.pairwise_cons.2 ⟨fun second hsecond hloaded => ?_, ih⟩
      exact attempts_of_settled htrail ((hmove.attempted hread).2.2 hloaded) second hsecond

end Workspace
end FramedTree
