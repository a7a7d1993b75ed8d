import FramedTree.Proofs.Canonical
import FramedTree.Proofs.FirstFailure
import FramedTree.Proofs.TextLines

/-! # What is found of a document when it is printed

A document always has a text. Its lines are those of what is found at each place: a part that is
shown is loaded afterwards, and a part that cannot be read is left as it was. What is found of one
part has nothing to do with the others: where the outcome of a load is settled, this is what is
found.
-/

namespace FramedTree

variable {ν μ α β : Type} {library : Library}

/-- An access that always succeeds. What it gives is related by `B` to what it finds; the node is
related to that by `P` afterwards, and if it was related to anything by `D` before, this is what is
found. -/
def Renders (library : Library) (D P : ν → β → Prop) (B : β → α → Prop)
    (access : Access Streams ν α) : Prop :=
  ∀ node streams, streams.Holds library → ∃ found result after streams',
    access (node, streams) = .ok result (after, streams') ∧ B found result ∧ P after found ∧
      (∀ other, D node other → other = found) ∧ streams'.Holds library

/-- The value of a cell can be loaded and has been described, or it cannot. -/
def Lazy.Displays (library : Library) (load : Option Origin → Load ν) (D : ν → β → Prop)
    (cell : Lazy ν) :
    Except Error β → Prop
  | .ok found => cell.Shows library load (D · found)
  | .error error => cell.Broken library load error

/-- The value of a cell is there and has been described, or it is not there and loading it has
failed. -/
def Lazy.Presents (load : Option Origin → Load ν) (P : ν → β → Prop) (cell : Lazy ν) :
    Except Error β → Prop
  | .ok found => ∃ value, cell.peek = some value ∧ P value found
  | .error error =>
    cell.peek = none ∧ ∃ streams after, load cell.origin streams = .error error after

/-- Two outcomes agree: both are the same failure, or both are values, which are related. -/
inductive Outcomes (B : β → α → Prop) : Except Error β → Except Error α → Prop where
  | ok {found : β} {result : α} (h : B found result) : Outcomes B (.ok found) (.ok result)
  | error (error : Error) : Outcomes B (.error error) (.error error)

/-- The values of a row, which may have gaps, are related to a list one by one; the first cell has
number `i`. -/
inductive Slots.Gathers (Q : Nat → ν → β → Prop) : (i : Nat) → List (Option ν) → List β → Prop where
  | nil {i : Nat} : Gathers Q i [] []
  | gap {i : Nat} {cells : List (Option ν)} {items : List β} (h : Gathers Q (i + 1) cells items) :
    Gathers Q i (none :: cells) items
  | value {i : Nat} {value : ν} {item : β} {cells : List (Option ν)} {items : List β}
      (hvalue : Q i value item)
    (h : Gathers Q (i + 1) cells items) : Gathers Q i (some value :: cells) (item :: items)

namespace Renders

variable {D P : ν → β → Prop} {B : β → α → Prop}

private theorem node {Q : ν → β → Prop}
    (h : ∀ node, ∃ found, Q node found ∧ ∀ other, Q node other → other = found) :
    Renders library Q Q (fun found node => Q node found) Access.node := by
  intro node streams hstreams
  obtain ⟨found, hfound, hunique⟩ := h node
  exact ⟨found, node, node, streams, rfl, hfound, hfound, hunique, hstreams⟩

private theorem attempt_opens {load : Option Origin → Load ν} {inner : Access Streams ν α}
    {access : Access Streams (Lazy ν) α} (hopens : Lazy.Opens load inner access)
    (hload : ∀ origin, Keeps (Streams.HoldsOn library) (load origin))
    (h : Renders library D P B inner) :
    Renders library (Lazy.Displays library load D) (Lazy.Presents load P) (Outcomes B)
      (Access.attempt access) := by
  intro cell streams hstreams
  have hfetched : (stateAfter (cell.fetch load streams)).Holds library := by
    cases hpeek : cell.peek with
    | some value =>
      rw [Lazy.fetch_of_peek hpeek]
      exact hstreams
    | none =>
      rw [Lazy.fetch_of_unloaded hpeek]
      exact hload cell.origin streams hstreams
  cases hfetch : cell.fetch load streams with
  | error error between =>
    rw [hfetch] at hfetched
    have hrun : Access.attempt access (cell, streams) = .ok (.error error) (cell, between) := by
      rw [Access.attempt, hopens.failed hfetch]
    have hpeek : cell.peek = none := by
      cases hpeek : cell.peek with
      | none => rfl
      | some value =>
        rw [Lazy.fetch_of_peek hpeek] at hfetch
        cases hfetch
    have hsame : cell.fetch load = load cell.origin := Lazy.fetch_of_unloaded hpeek
    have hload : load cell.origin streams = .error error between := by rw [← hsame, hfetch]
    refine ⟨.error error, .error error, cell, between, hrun, .error error,
      ⟨hpeek, streams, between, hload⟩, ?_, hfetched⟩
    rintro (other | other) hother
    · obtain ⟨_, hsettled, -⟩ := hother streams hstreams
      cases hfetch.symm.trans hsettled
      rfl
    · obtain ⟨_, hsettles, -⟩ := hother
      obtain ⟨_, hsettled, -⟩ := hsettles streams hstreams
      cases hfetch.symm.trans hsettled
  | ok value between =>
    rw [hfetch] at hfetched
    obtain ⟨kept, -, hopened⟩ := hopens.fetched hfetch
    obtain ⟨found, result, after, streams', hinner, hresult, hafter, hunique, hholds⟩ :=
      h value between hfetched
    have hrun : Access.attempt access (cell, streams) =
      .ok (.ok result) (Lazy.putBack after kept, streams') := by
      rw [Access.attempt, hopened, hinner]
      rfl
    refine ⟨.ok found, .ok result, _, streams', hrun, .ok hresult,
      ⟨after, Lazy.peek_putBack _ _, hafter⟩, ?_, hholds⟩
    rintro (other | other) hother
    · obtain ⟨_, hsettled, -⟩ := hother streams hstreams
      cases hfetch.symm.trans hsettled
    · obtain ⟨_, hsettles, hvalue⟩ := hother
      obtain ⟨_, hsettled, -⟩ := hsettles streams hstreams
      cases hfetch.symm.trans hsettled
      rw [hunique other hvalue]

private theorem accessFrom {D P : Nat → ν → β → Prop} {B : β → α → Prop}
    {inner : Nat → Access Streams ν α} (h : ∀ i, Renders library (D i) (P i) B (inner i)) (i : Nat)
    (cells : List (Option ν)) {streams : Streams} (hstreams : streams.Holds library) :
    ∃ found results after streams',
      Slots.accessFrom inner i cells streams = .ok results (after, streams') ∧
      List.Forall₂ B found results ∧
        Slots.Gathers P i after found ∧ (∀ other, Slots.Gathers D i cells other → other = found) ∧
        streams'.Holds library := by
  induction cells generalizing i streams with
  | nil =>
    refine ⟨[], [], [], streams, rfl, .nil, .nil, ?_, hstreams⟩
    rintro _ ⟨⟩
    rfl
  | cons cell cells ih =>
    cases cell with
    | none =>
      obtain ⟨found, results, after, streams', hrun, hresults, hafter, hunique, hholds⟩ :=
        ih (i + 1) hstreams
      refine ⟨found, results, none :: after, streams', ?_, hresults, .gap hafter, ?_, hholds⟩
      · rw [Slots.accessFrom_gap, hrun, mapState_ok]
      · rintro other (_ | hother)
        exact hunique other hother
    | some value =>
      obtain ⟨item, result, kept, between, hfirst, hresult, hkept, hitem, hbetween⟩ :=
        h i value streams hstreams
      obtain ⟨found, results, after, streams', hrun, hresults, hafter, hunique, hholds⟩ :=
        ih (i + 1) hbetween
      refine ⟨item :: found, result :: results, some kept :: after, streams', ?_,
        .cons hresult hresults, .value hkept hafter, ?_, hholds⟩
      · rw [Slots.accessFrom_of_ok hfirst, hrun, mapValue_ok, mapState_ok]
      · rintro _ (_ | _ | ⟨hvalue, hother⟩)
        rw [hitem _ hvalue, hunique _ hother]

end Renders

/-- The parts of an entry are related to what is found of them, and its references lead where they
are found to lead. -/
structure Entry.Holding (R : Stamp → UInt32 → Lazy Identity → Except Error IdentityHeader → Prop)
    (entry : Entry) (found : EntryView) : Prop where
  identification : Option.Rel (R entry.stamp identificationField)
    (some entry.identification) found.identification
  secretIdentity : Option.Rel (R entry.stamp secretIdentityField)
    (entry.secretIdentity.get? singular)
    found.secretIdentity
  approver : entry.approver.map NodeRef.path = found.approver
  reviewers : entry.reviewers.map NodeRef.path = found.reviewers

namespace Entry

/-- What is found of an identity, where the outcome of its load is settled. -/
abbrev DisplaysIdentity (library : Library) (stamp : Stamp) (field : UInt32) :
    Lazy Identity → Except Error IdentityHeader → Prop :=
  Lazy.Displays library (loadIdentity stamp field) fun identity header => identity.header = header

abbrev PresentsIdentity (stamp : Stamp) (field : UInt32) :
    Lazy Identity → Except Error IdentityHeader → Prop :=
  Lazy.Presents (loadIdentity stamp field) fun identity header => identity.header = header

/-- What is found of an entry, where the outcomes of all loads below it are settled. -/
def Displays (library : Library) : Entry → EntryView → Prop := Holding (DisplaysIdentity library)

/-- An entry after it has been looked at: what has been shown is loaded, and the rest could not be
read. -/
def Presents : Entry → EntryView → Prop := Holding PresentsIdentity

private theorem renders_identity (stamp : Stamp) (field : UInt32) :
    Renders library (DisplaysIdentity library stamp field) (PresentsIdentity stamp field)
      (Outcomes fun header identity => identity.header = header)
      (Access.attempt (Lazy.access (loadIdentity stamp field) Access.node)) :=
  Renders.attempt_opens (Lazy.access_opens _ _) (holdsOn_loadIdentity stamp field)
    (Renders.node fun identity => ⟨identity.header, rfl, fun _ hother => hother.symm⟩)

private theorem attempt_node_within {get : ν → μ} {put : μ → ν → ν}
    (access : ν → Access Streams μ α) (node : ν) (streams : Streams) :
    Access.attempt (do Access.within get put (access (← Access.node))) (node, streams) =
      mapState (fun state => (put state.1 node, state.2))
        (Access.attempt (access node) (get node, streams)) := by
  rw [Access.attempt, Access.node_bind_apply, Access.within_apply, Access.attempt]
  cases access node (get node, streams) <;> rfl

private theorem childOutline_found {name : String} {found : Except Error IdentityHeader}
    {result : Except Error Identity}
    (h : Outcomes (fun header identity => identity.header = header) found result) :
    childOutline name (result.map some) = ChildView.outline name (some found) := by
  cases h with
  | error => rfl
  | ok h =>
    subst h
    rfl

private theorem renders_secretIdentity (entry : Entry) {streams : Streams}
    (hstreams : streams.Holds library) :
    ∃ found result slots streams', Access.attempt (onSecretIdentity Access.node) (entry, streams) =
        .ok result ({ entry with secretIdentity := slots }, streams') ∧
      childOutline "secret_identity" result = ChildView.outline "secret_identity" found ∧
      Option.Rel (PresentsIdentity entry.stamp secretIdentityField) (slots.get? singular) found ∧
      (∀ other, Option.Rel (DisplaysIdentity library entry.stamp secretIdentityField)
        (entry.secretIdentity.get? singular) other → other = found) ∧
      streams'.Holds library := by
  rw [onSecretIdentity, attempt_node_within, Access.attempt]
  cases hslot : entry.secretIdentity.get? singular with
  | none =>
    rw [Slots.access_apply_none hslot]
    refine ⟨none, .ok none, entry.secretIdentity, streams, rfl, rfl, ?_, ?_, hstreams⟩
    · rw [hslot]
      exact .none
    · rintro _ ⟨⟩
      rfl
  | some cell =>
    obtain ⟨found, result, after, streams', hrun, hsame, hafter, hunique, hholds⟩ :=
      renders_identity entry.stamp secretIdentityField cell streams hstreams
    have hslots : Option.Rel (PresentsIdentity entry.stamp secretIdentityField)
        ((entry.secretIdentity.modify singular fun _ => after).get? singular) (some found) := by
      rw [Slots.get?_modify, if_pos rfl, hslot]
      exact .some hafter
    have hother : ∀ other, Option.Rel (DisplaysIdentity library entry.stamp secretIdentityField)
      (some cell) other →
        other = some found := by
      rintro other hother
      cases hother with
      | some h => rw [hunique _ h]
    refine ⟨some found, result.map some, entry.secretIdentity.modify singular fun _ => after,
      streams', ?_, childOutline_found hsame, hslots, hother, hholds⟩
    rw [Slots.access_apply_some hslot, map_apply]
    rw [Access.attempt] at hrun
    cases hcell : Lazy.access (loadIdentity entry.stamp secretIdentityField) Access.node
      (cell, streams) <;>
      rw [hcell] at hrun <;> cases hrun <;> rfl

private theorem renders_outline :
    Renders library (Displays library) Presents
      (fun found fields => fields = found.outline) outline := by
  intro entry streams hstreams
  obtain ⟨identification, first, cell, between, hfirst, hsame, hcell, hunique, hbetween⟩ :=
    renders_identity entry.stamp identificationField entry.identification streams hstreams
  have hidentification : Access.attempt (onIdentification Access.node) (entry, streams) =
      .ok first ({ entry with identification := cell }, between) := by
    rw [onIdentification, attempt_node_within, hfirst]
    rfl
  obtain ⟨secret, second, slots, last, hsecond, hsame', hslots, hunique', hlast⟩ :=
    renders_secretIdentity { entry with identification := cell } hbetween
  let found : EntryView :=
    ⟨some identification, secret, entry.approver.map NodeRef.path, entry.reviewers.map NodeRef.path⟩
  refine ⟨found, found.outline, { entry with identification := cell, secretIdentity := slots },
    last, ?_, rfl, ⟨.some hcell, hslots, rfl, rfl⟩, ?_, hlast⟩
  · rw [outline, bind_apply, hidentification]
    dsimp only
    rw [bind_apply, hsecond]
    dsimp only
    rw [childOutline_found hsame, hsame', EntryView.outline, Option.map_map, List.map_map]
    rfl
  · rintro ⟨other, other', approver, reviewers⟩ ⟨hother, hother', rfl, rfl⟩
    obtain rfl : other' = secret := hunique' _ hother'
    cases hother with
    | some h => rw [hunique _ h]

end Entry

namespace Document

/-- The entries of a document are related to what is found of them. -/
def Holding (R : Stamp → Nat → Lazy Entry → Except Error EntryView → Prop) (document : Document)
    (found : DocumentView) : Prop :=
  Slots.Gathers (R document.stamp) 0 document.entries.cells.toList found

/-- What is found of a document, where the outcomes of all loads below it are settled. -/
def Displays (library : Library) : Document → DocumentView → Prop :=
  Holding fun stamp i => Lazy.Displays library (loadEntry stamp i) (Entry.Displays library)

/-- A document after it has been looked at: what has been shown is loaded, and the rest could not be
read. -/
def Presents : Document → DocumentView → Prop :=
  Holding fun stamp i => Lazy.Presents (loadEntry stamp i) Entry.Presents

private theorem renders_outlineEntry (stamp : Stamp) (i : Nat) :
    Renders library (Lazy.Displays library (loadEntry stamp i) (Entry.Displays library))
      (Lazy.Presents (loadEntry stamp i) Entry.Presents)
        (fun found field => field = DocumentView.entryOutline found)
      (outlineEntry stamp i) := by
  intro cell streams hstreams
  obtain ⟨found, result, after, streams', hrun, hsame, hafter, hunique, hholds⟩ :=
    Renders.attempt_opens (Lazy.access_opens _ _)
      (holdsOn_loadEntry stamp i) Entry.renders_outline cell streams
      hstreams
  refine ⟨found, DocumentView.entryOutline found, after, streams', ?_, rfl, hafter, hunique, hholds⟩
  rw [outlineEntry, bind_apply, hrun]
  cases hsame with
  | error => rfl
  | ok h =>
    subst h
    rfl

/-- A document always has a text, and its lines are those of what is found. -/
theorem renders_text :
    Renders library (Displays library) Presents
      (fun found result => result = DocumentView.text found) text := by
  intro document streams hstreams
  obtain ⟨found, fields, after, streams', hrun, hfields, hafter, hunique, hholds⟩ :=
    Renders.accessFrom (renders_outlineEntry document.stamp) 0 document.entries.cells.toList
      hstreams
  have hmap : fields = found.map DocumentView.entryOutline := by
    clear hrun hafter hunique
    induction hfields with
    | nil => rfl
    | cons hfield _ ih => rw [List.map_cons, hfield, ih]
  have houtline : outline (document, streams) =
      .ok fields ({ document with entries := ⟨after.toArray⟩ }, streams') := by
    rw [outline_eq, onCells, Access.node_bind_apply, Access.within_apply,
      Slots.accessAll_apply, hrun]
    rfl
  refine ⟨found, DocumentView.text found, { document with entries := ⟨after.toArray⟩ }, streams',
    ?_, rfl, hafter, hunique, hholds⟩
  rw [text, bind_apply, houtline, hmap]
  dsimp only
  rw [DocumentView.render_outline]
  rfl

end Document

/-- What is found of an entry that is stored among some bytes. -/
def EntryView.stored (source : Source) (content : Array UInt8) (header : EntryHeader) :
    EntryView where
  identification := some (source.frameAt content header.identification.toNat)
  secretIdentity := header.secretIdentity.map fun position => source.frameAt content position.toNat
  approver := header.approver.map Path.ofDescriptor
  reviewers := header.reviewers.map Path.ofDescriptor

/-- What is found of a document whose entries are stored at positions among some bytes. -/
def DocumentView.stored (source : Source) (content : Array UInt8) (positions : List UInt64) :
    DocumentView :=
  positions.map fun position =>
    (source.frameAt content position.toNat : Except Error EntryHeader).map
      (EntryView.stored source content)

private theorem Lazy.displays_of_settles {load : Option Origin → Load ν} {D : ν → β → Prop}
    {cell : Lazy ν} {header : Except Error α} {f : α → ν} {g : α → β}
    (h : Settles library (cell.fetch load) (header.map f)) (hD : ∀ value, D (f value) (g value)) :
    cell.Displays library load D (header.map g) := by
  cases header with
  | error error => exact h
  | ok value => exact ⟨f value, h, hD value⟩

section Opened

variable {source : Source} {content : Array UInt8}
  (hcontent : source.content? library = some content)

include hcontent

private theorem Entry.displays_stored (stamp : Stamp) (field : UInt32) (position : UInt64) :
    DisplaysIdentity library stamp field (.stored source position)
      (source.frameAt content position.toNat) := by
  have hdisplays :=
    Lazy.displays_of_settles (D := fun (identity : Identity) header => identity.header = header)
    (settles_stored hcontent stamp field position) (g := id) fun _ => rfl
  rwa [Except.map_id] at hdisplays

private theorem Entry.displays_ofHeader (stamp : Stamp) (header : EntryHeader) :
    (ofHeader stamp source header).Displays library (EntryView.stored source content header) := by
  refine ⟨.some (displays_stored hcontent stamp _ _), ?_, ?_, ?_⟩
  · rw [ofHeader, EntryView.stored]
    cases header.secretIdentity with
    | none => exact .none
    | some position => exact .some (displays_stored hcontent stamp _ position)
  · rw [ofHeader, Option.map_map]
    rfl
  · rw [ofHeader, List.map_map]
    rfl

/-- Whatever can be read of it, a document that has been opened has a text, which its bytes
settle. -/
theorem Document.displays_ofHeader (root : RootId) (positions : List UInt64) :
    (ofHeader root source ⟨positions⟩).Displays library
      (DocumentView.stored source content positions) := by
  have hrow (stamp : Stamp) (i : Nat) : Slots.Gathers
      (fun i => Lazy.Displays library (loadEntry stamp i) (Entry.Displays library)) i
      (positions.map fun position => some (Lazy.stored source position))
      (DocumentView.stored source content positions) := by
    induction positions generalizing i with
    | nil => exact .nil
    | cons position positions ih =>
      exact .value (Lazy.displays_of_settles (settles_stored hcontent stamp i position)
        (Entry.displays_ofHeader hcontent (entryStamp stamp i))) (ih (i + 1))
  exact hrow { root } 0

end Opened

private theorem Slots.Gathers.part {Q : Nat → ν → β → Prop} {i : Nat} {cells : List (Option ν)}
    {items : List β} (h : Gathers Q i cells items) {k : Nat} {value : ν}
    (hcell : cells[k]? = some (some value)) :
    ∃ above item below, items = above ++ item :: below ∧ Q (i + k) value item ∧
      Gathers Q i (cells.set k none) (above ++ below) ∧
      ∀ value' item', Q (i + k) value' item' →
        Gathers Q i (cells.modify k (Option.map fun _ => value')) (above ++ item' :: below) := by
  induction h generalizing k with
  | nil => cases hcell
  | @gap i cells items _ ih =>
    cases k with
    | zero => cases hcell
    | succ k =>
      obtain ⟨above, item, below, rfl, hitem, hwithout, hinstead⟩ := ih hcell
      rw [Nat.add_right_comm, Nat.add_assoc] at hitem
      refine ⟨above, item, below, rfl, hitem, .gap hwithout,
        fun value' item' h => .gap (hinstead value' item' ?_)⟩
      rwa [Nat.add_right_comm, Nat.add_assoc]
  | @value i first item cells items hfirst hrest ih =>
    cases k with
    | zero =>
      cases hcell
      exact ⟨[], item, items, rfl, hfirst, .gap hrest, fun value' item' h => .value h hrest⟩
    | succ k =>
      obtain ⟨above, other, below, rfl, hitem, hwithout, hinstead⟩ := ih hcell
      rw [Nat.add_right_comm, Nat.add_assoc] at hitem
      refine ⟨item :: above, other, below, rfl, hitem, .value hfirst hwithout,
        fun value' item' h => .value hfirst (hinstead value' item' ?_)⟩
      rwa [Nat.add_right_comm, Nat.add_assoc]

/-- The second document is the first one without a part that cannot be read, which has the given
line. -/
inductive Document.Loses (library : Library) (document : Document) :
    Outline.Line → Document → Prop where
  | entry {i : Nat} {cell : Lazy Entry} {error : Error}
      (hcell : document.entries.get? i = some cell)
      (h : cell.Broken library (loadEntry document.stamp i) error) :
      Loses library document ⟨1, unreadableText "data" error⟩
        { document with entries := document.entries.erase i }
  | secretIdentity {i : Nat} {cell cleared : Lazy Entry} {entry : Entry} {error : Error}
      (hcell : document.entries.get? i = some cell)
      (hentry : Settles library (cell.fetch (loadEntry document.stamp i)) (.ok entry))
      (h : entry.BrokenSecretIdentity library error)
      (hcleared : Settles library (cleared.fetch (loadEntry document.stamp i))
        (.ok entry.clearSecretIdentity)) :
      Loses library document ⟨2, unreadableText "secret_identity" error⟩
        { document with entries := document.entries.modify i fun _ => cleared }

private theorem Lazy.Displays.broken {load : Option Origin → Load ν} {D : ν → β → Prop}
    {cell : Lazy ν} {found : Except Error β} {error : Error}
    (h : cell.Displays library load D found) (hbroken : cell.Broken library load error)
    {streams : Streams} (hstreams : streams.Holds library) : found = .error error := by
  cases found with
  | error other =>
    cases Settles.unique h hbroken hstreams
    rfl
  | ok found =>
    obtain ⟨value, hsettles, -⟩ := h
    cases hsettles.unique hbroken hstreams

private theorem Lazy.Displays.settled {load : Option Origin → Load ν} {D : ν → β → Prop}
    {cell : Lazy ν} {found : Except Error β} {value : ν} (h : cell.Displays library load D found)
    (hvalue : Settles library (cell.fetch load) (.ok value)) {streams : Streams}
    (hstreams : streams.Holds library) : ∃ view, found = .ok view ∧ D value view := by
  cases found with
  | error other => cases Settles.unique h hvalue hstreams
  | ok view =>
    obtain ⟨other, hsettles, hview⟩ := h
    cases hsettles.unique hvalue hstreams
    exact ⟨view, rfl, hview⟩

private theorem Entry.Displays.cleared {entry : Entry} {view : EntryView} {error : Error}
    (h : entry.Displays library view) (hbroken : entry.BrokenSecretIdentity library error)
    {streams : Streams} (hstreams : streams.Holds library) :
    view.secretIdentity = some (.error error) ∧
      entry.clearSecretIdentity.Displays library { view with secretIdentity := none } := by
  obtain ⟨cell, hcell, hbroken⟩ := hbroken
  refine ⟨?_, h.identification, .none, h.approver, h.reviewers⟩
  have hsecret := h.secretIdentity
  rw [hcell] at hsecret
  generalize view.secretIdentity = found at hsecret
  cases hsecret with
  | some hfound => rw [hfound.broken hbroken hstreams]

/-- What is found of the other parts of a document has nothing to do with the one that cannot be
read. -/
theorem Document.Loses.displays {document rest : Document} {line : Outline.Line}
    (h : Loses library document line rest) {view : DocumentView}
    (hview : document.Displays library view) {streams : Streams}
    (hstreams : streams.Holds library) :
    ∃ less, rest.Displays library less ∧ Without view line less := by
  have hcells {i : Nat} {cell : Lazy Entry} (hcell : document.entries.get? i = some cell) :
      document.entries.cells.toList[i]? = some (some cell) := by
    rw [Array.getElem?_toList]
    exact Option.join_eq_some_iff.1 hcell
  cases h with
  | @entry i cell error hcell hbroken =>
    obtain ⟨above, found, below, rfl, hfound, hwithout, -⟩ := hview.part (hcells hcell)
    rw [Nat.zero_add] at hfound
    obtain rfl := hfound.broken hbroken hstreams
    refine ⟨above ++ below, ?_, .entry above below error⟩
    rw [Displays, Holding, Slots.erase, Array.toList_setIfInBounds]
    exact hwithout
  | @secretIdentity i cell cleared entry error hcell hentry hbroken hcleared =>
    obtain ⟨above, found, below, rfl, hfound, -, hinstead⟩ := hview.part (hcells hcell)
    simp only [Nat.zero_add] at hfound hinstead
    obtain ⟨view, rfl, hentryview⟩ := hfound.settled hentry hstreams
    obtain ⟨hsecret, hcleared'⟩ := Entry.Displays.cleared hentryview hbroken hstreams
    have hless : Without (above ++ .ok view :: below) ⟨2, unreadableText "secret_identity" error⟩
        (above ++ .ok { view with secretIdentity := none } :: below) := by
      have hwithout := Without.secretIdentity above below view error
      rwa [← hsecret] at hwithout
    refine ⟨_, ?_, hless⟩
    have hrow :=
      hinstead cleared (.ok { view with secretIdentity := none }) ⟨_, hcleared, hcleared'⟩
    rwa [← Array.toList_modify] at hrow

end FramedTree
