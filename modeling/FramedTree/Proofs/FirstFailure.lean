import FramedTree.Proofs.Reopening

/-! # What fails first

Not all of a tree may be loadable. The nodes of a document have an order: each entry comes before
its identification, this before its secret identity, and these before the next entry. Loading a
whole document fails with the failure of the first node that cannot be loaded.
-/

namespace FramedTree

variable {ν μ α β : Type} {library : Library} {error : Error}

/-- What comes of an access to any node with a property, as long as the known streams hold their
bytes. -/
def Replies (library : Library) (V : ν → Prop) (access : Access Streams ν α)
    (P : Except Error α → Prop) :
    Prop :=
  ∀ node streams, V node → streams.Holds library → P (verdict (access (node, streams)))

namespace Replies

variable {V : ν → Prop} {P : Except Error α → Prop}

theorem map {f : β → α} {access : Access Streams ν β}
    (h : Replies library V access fun result => P (result.map f)) :
    Replies library V (f <$> access) P := by
  intro node streams hnode hstreams
  rw [verdict_map]
  exact h node streams hnode hstreams

theorem bind_error {access : Access Streams ν β} {next : β → Access Streams ν α}
    (h : Replies library V access (· = .error error)) :
    Replies library V (access >>= next) (· = .error error) := by
  intro node streams hnode hstreams
  have hfirst := h node streams hnode hstreams
  rw [bind_apply]
  cases hrun : access (node, streams) with
  | ok value state =>
    rw [hrun] at hfirst
    cases hfirst
  | error other state =>
    rw [hrun] at hfirst
    cases hfirst
    rfl

private theorem bind {Q : β → ν → Prop} {access : Access Streams ν β}
    {next : β → Access Streams ν α} (h : Gives library V access Q)
    (hnext : ∀ value, Replies library (Q value) (next value) P) :
    Replies library V (access >>= next) P := by
  intro node streams hnode hstreams
  obtain ⟨value, between, streams', hrun, hbetween, hstreams'⟩ := h node streams hnode hstreams
  rw [bind_apply, hrun]
  exact hnext value between streams' hbetween hstreams'.holds

theorem node_within {U : ν → μ → Prop} {get : ν → μ} {put : μ → ν → ν}
    {access : ν → Access Streams μ α}
    (h : ∀ node, V node → Replies library (U node) (access node) P)
    (hget : ∀ node, V node → U node (get node)) :
    Replies library V (do Access.within get put (access (← Access.node))) P := by
  intro node streams hnode hstreams
  rw [Access.node_bind_apply, Access.within_apply, verdict_mapState]
  exact h node hnode (get node) streams (hget node hnode) hstreams

/-- Work on a cell that can be loaded comes to what the work on its value comes to. -/
theorem opens {load : Option Origin → Load ν} {inner : Access Streams ν α}
    {access : Access Streams (Lazy ν) α} (hopens : Lazy.Opens load inner access)
    (h : Replies library V inner P) : Replies library (Lazy.Shows library load V) access P := by
  rintro cell streams ⟨value, hsettles, hvalue⟩ hstreams
  obtain ⟨between, hfetch, hbetween⟩ := hsettles streams hstreams
  obtain ⟨kept, -, hrun⟩ := hopens.fetched hfetch
  rw [hrun, verdict_mapState]
  exact h value between hvalue hbetween.holds

theorem slot {i : Nat} {inner : Access Streams ν β} {W : Slots ν → Prop}
    {P : Except Error (Option β) → Prop}
    (h : Replies library V inner fun result => P (result.map some))
    (hget : ∀ slots, W slots → ∃ value, slots.get? i = some value ∧ V value) :
    Replies library W (Slots.access i inner) P := by
  intro slots streams hslots hstreams
  obtain ⟨value, hslot, hvalue⟩ := hget slots hslots
  rw [Slots.access_apply_some hslot, verdict_mapState, verdict_map]
  exact h value streams hvalue hstreams

end Replies

abbrev Lazy.Broken (library : Library) (load : Option Origin → Load α) (error : Error)
    (cell : Lazy α) : Prop :=
  Settles library (cell.fetch load) (.error error)

/-- Work on a cell that cannot be loaded fails. -/
theorem Replies.broken {load : Option Origin → Load ν} {inner : Access Streams ν α}
    {access : Access Streams (Lazy ν) α} (hopens : Lazy.Opens load inner access) :
    Replies library (Lazy.Broken library load error) access (· = .error error) := by
  intro cell streams hcell hstreams
  obtain ⟨after, hfetch, -⟩ := hcell streams hstreams
  rw [hopens.failed hfetch]
  rfl

namespace Entry

def BrokenIdentification (library : Library) (error : Error) (entry : Entry) : Prop :=
  entry.identification.Broken library (loadIdentity entry.stamp identificationField) error

/-- The entry has a secret identity that cannot be loaded. -/
def BrokenSecretIdentity (library : Library) (error : Error) (entry : Entry) : Prop :=
  ∃ cell, entry.secretIdentity.get? singular = some cell ∧
    cell.Broken library (loadIdentity entry.stamp secretIdentityField) error

def ShowsIdentification (library : Library) (entry : Entry) : Prop :=
  ∃ header, entry.identification.ShowsHeader library entry.stamp identificationField header

/-- Something below the entry cannot be loaded, and this is what fails first. -/
inductive BrokenBelow (library : Library) (error : Error) (entry : Entry) : Prop where
  | identification (h : entry.BrokenIdentification library error)
  | secretIdentity (hidentification : entry.ShowsIdentification library)
      (h : entry.BrokenSecretIdentity library error)

variable {inner : Access Streams Identity α} {access : Stamp → Access Streams (Lazy Identity) α}

theorem replies_identification
    (hopens : ∀ stamp, Lazy.Opens (loadIdentity stamp identificationField) inner (access stamp)) :
    Replies library (BrokenIdentification library error)
      (do
        let entry ← Access.node
        Access.within identification (fun cell entry => { entry with identification := cell })
          (access entry.stamp))
      (· = .error error) :=
  Replies.node_within (fun entry _ => Replies.broken (hopens entry.stamp)) fun _ hentry => hentry

theorem replies_secretIdentity
    (hopens : ∀ stamp, Lazy.Opens (loadIdentity stamp secretIdentityField) inner (access stamp)) :
    Replies library (BrokenSecretIdentity library error)
      (do
        let entry ← Access.node
        Access.within secretIdentity (fun slots entry => { entry with secretIdentity := slots })
          (Slots.access singular (access entry.stamp)))
      (· = .error error) := by
  refine Replies.node_within (U := fun (entry : Entry) (slots : Slots (Lazy Identity)) =>
    ∃ cell, slots.get? singular = some cell ∧
      cell.Broken library (loadIdentity entry.stamp secretIdentityField) error) (fun entry _ => ?_)
    fun _ hentry => hentry
  refine Replies.slot ?_ fun _ hslots => hslots
  intro cell streams hcell hstreams
  rw [Replies.broken (hopens entry.stamp) cell streams hcell hstreams]
  rfl

private theorem replies_loadAll :
    Replies library (BrokenBelow library error) loadAll (· = .error error) := by
  intro entry streams hentry hstreams
  cases hentry with
  | identification h =>
    exact Replies.bind_error
      (replies_identification fun _ => Lazy.accessMut_opens _ _) entry streams h hstreams
  | secretIdentity hidentification h =>
    -- The identification is loaded, which leaves the secret identity as it was.
    have hfirst : Gives library
        (fun entry => entry.ShowsIdentification library ∧ entry.BrokenSecretIdentity library error)
        (onIdentificationMut (pure ())) fun _ entry =>
          entry.BrokenSecretIdentity library error := by
      refine Gives.node_within
        (U := fun (entry : Entry) (cell : Lazy Identity) =>
          ∃ header, cell.ShowsHeader library entry.stamp identificationField header)
        (R := fun _ _ _ => True)
        (fun entry _ => Gives.of_exists fun header => ?_) (fun _ hentry => hentry.1)
        fun _ _ _ hentry _ => hentry.2
      exact Gives.mono (Gives.opens (Lazy.accessMut_opens _ _) (reports_pure header))
        fun _ _ _ => trivial
    have hsecond : Replies library (BrokenSecretIdentity library error)
        (discard (onSecretIdentityMut (pure ()))) (· = .error error) := by
      apply Replies.map
      intro entry streams hentry hstreams
      rw [onSecretIdentityMut,
        replies_secretIdentity (fun _ => Lazy.accessMut_opens _ _) entry streams hentry hstreams]
      rfl
    exact Replies.bind hfirst (fun _ => hsecond) entry streams ⟨hidentification, h⟩ hstreams

end Entry

namespace Replies

variable {Q R : Nat → ν → Prop} {inner : Nat → Access Streams ν α}

private theorem accessFrom (hearlier : ∀ i, Gives library (Q i) (inner i) fun _ _ => True)
    (hfails : ∀ i, Replies library (R i) (inner i) (· = .error error)) (target i : Nat)
    {cells : List (Option ν)} {streams : Streams}
    (hshown : ∀ j, j < target → ∃ value, cells[j]?.join = some value ∧ Q (i + j) value)
    (hbrokenEntry : ∃ value, cells[target]?.join = some value ∧ R (i + target) value)
    (hstreams : streams.Holds library) :
    verdict (Slots.accessFrom inner i cells streams) = .error error := by
  induction target generalizing i cells streams with
  | zero =>
    obtain ⟨value, hvalue, hbroken⟩ := hbrokenEntry
    cases cells with
    | nil => cases hvalue
    | cons cell cells =>
      obtain rfl : cell = some value := hvalue
      have hrun := hfails i value streams hbroken hstreams
      cases hresult : inner i (value, streams) with
      | ok result state =>
        rw [hresult] at hrun
        cases hrun
      | error other state =>
        rw [hresult] at hrun
        cases hrun
        rw [Slots.accessFrom_of_error hresult]
        rfl
  | succ target ih =>
    obtain ⟨value, hvalue, hshows⟩ := hshown 0 (Nat.succ_pos target)
    cases cells with
    | nil => cases hvalue
    | cons cell cells =>
      obtain rfl : cell = some value := hvalue
      obtain ⟨result, after, between, hrun, -, hbetween⟩ := hearlier i value streams hshows hstreams
      have hrest (j : Nat) (hj : j < target) : ∃ value,
        cells[j]?.join = some value ∧ Q (i + 1 + j) value := by
        have hnext := hshown (j + 1) (Nat.succ_lt_succ hj)
        rw [show i + (j + 1) = i + 1 + j by omega] at hnext
        exact hnext
      rw [show i + (target + 1) = i + 1 + target by omega] at hbrokenEntry
      have hlater := ih (i + 1) hrest hbrokenEntry hbetween.holds
      rw [Slots.accessFrom_of_ok hrun, verdict_mapState, verdict_mapValue, hlater]
      rfl

end Replies

namespace Document

/-- The entry in a cell, or something below it, cannot be loaded, and this is what fails first. -/
inductive BrokenEntry (library : Library) (error : Error) (stamp : Stamp) (i : Nat)
    (cell : Lazy Entry) :
    Prop where
  | header (h : cell.Broken library (loadEntry stamp i) error)
  | below (h : cell.Shows library (loadEntry stamp i) (Entry.BrokenBelow library error))

/-- The first entry of the document that cannot be loaded as a whole has number `i`. -/
structure BrokenAt (library : Library) (error : Error) (i : Nat) (document : Document) : Prop where
  shown : ∀ j, j < i → ∃ cell, document.entries.get? j = some cell ∧
    ∃ content, ShowsEntry library document.stamp j cell content
  broken : ∃ cell, document.entries.get? i = some cell ∧
    BrokenEntry library error document.stamp i cell

private theorem replies_loadCell (stamp : Stamp) (i : Nat) :
    Replies library (BrokenEntry library error stamp i)
      (Lazy.accessMut (loadEntry stamp i) Entry.loadAll)
      (· = .error error) := by
  intro cell streams hcell hstreams
  cases hcell with
  | header h => exact Replies.broken (Lazy.accessMut_opens _ _) cell streams h hstreams
  | below h =>
    exact Replies.opens (Lazy.accessMut_opens _ _) Entry.replies_loadAll cell streams h hstreams

/-- Loading the whole document fails with what fails first. -/
theorem replies_loadAll {i : Nat} :
    Replies library (BrokenAt library error i) loadAll (· = .error error) := by
  have hearlier (stamp : Stamp) (j : Nat) :
    Gives library (fun cell => ∃ content, ShowsEntry library stamp j cell content)
      (Lazy.accessMut (loadEntry stamp j) Entry.loadAll) fun _ _ => True := by
    refine Gives.of_exists fun content => ?_
    exact Gives.mono (Gives.opens (Lazy.accessMut_opens _ _) Entry.gives_loadAll)
      fun _ _ _ => trivial
  intro document streams hdocument hstreams
  have hrun :
    verdict (Slots.accessFrom (fun i => Lazy.accessMut (loadEntry document.stamp i) Entry.loadAll) 0
      document.entries.cells.toList streams) = .error error := by
    refine Replies.accessFrom (hearlier document.stamp)
      (replies_loadCell document.stamp) i 0 ?_ ?_ hstreams
    · simp only [Nat.zero_add, Array.getElem?_toList]
      exact hdocument.shown
    · simp only [Nat.zero_add, Array.getElem?_toList]
      exact hdocument.broken
  rw [loadAll]
  change verdict ((Function.const _ () <$> onCells _) (document, streams)) = _
  rw [verdict_map, onCells, Access.node_bind_apply, Access.within_apply, verdict_mapState,
    Slots.accessAll_apply, verdict_mapState, hrun]
  rfl

end Document

section Opened

variable {source : Source} {content : Array UInt8}
  (hcontent : source.content? library = some content)

include hcontent

theorem Entry.broken_stored {stamp : Stamp} {field : UInt32} {position : UInt64}
    (h : (source.frameAt content position.toNat : Except Error IdentityHeader) = .error error) :
    (Lazy.stored source position).Broken library (loadIdentity stamp field) error := by
  have hsettles := settles_stored hcontent stamp field position
  rw [h] at hsettles
  exact hsettles

private theorem Entry.hasContent_or_broken (stamp : Stamp) (header : EntryHeader) :
    (∃ found, source.HasContent content header found) ∨
      ∃ error, (ofHeader stamp source header).BrokenBelow library error := by
  cases hidentification :
    (source.frameAt content header.identification.toNat : Except Error IdentityHeader) with
  | error error => exact .inr ⟨error, .identification (broken_stored hcontent hidentification)⟩
  | ok identification =>
    cases hsecret : header.secretIdentity with
    | none =>
      refine .inl ⟨⟨identification, none, _, _⟩, hidentification, ?_, rfl, rfl⟩
      rw [hsecret]
      exact .none
    | some position =>
      cases hframe : (source.frameAt content position.toNat : Except Error IdentityHeader) with
      | ok secret =>
        refine .inl ⟨⟨identification, some secret, _, _⟩, hidentification, ?_, rfl, rfl⟩
        rw [hsecret]
        exact .some hframe
      | error error =>
        have hshows : (ofHeader stamp source header).ShowsIdentification library :=
          ⟨identification, showsHeader_stored hcontent hidentification⟩
        refine .inr ⟨error, .secretIdentity hshows
          ⟨.stored source position, ?_, broken_stored hcontent hframe⟩⟩
        rw [ofHeader, hsecret]
        rfl

namespace Document

private theorem hasContent_or_brokenEntry (stamp : Stamp) (i : Nat) (position : UInt64) :
    (∃ found header, source.frameAt content position.toNat = .ok header ∧
        source.HasContent content header found) ∨
      ∃ error, BrokenEntry library error stamp i (.stored source position) := by
  have hsettles := settles_stored hcontent stamp i position
  cases hheader : (source.frameAt content position.toNat : Except Error EntryHeader) with
  | error error =>
    rw [hheader] at hsettles
    exact .inr ⟨error, .header hsettles⟩
  | ok header =>
    rw [hheader] at hsettles
    rcases Entry.hasContent_or_broken hcontent
      (entryStamp stamp i) header with ⟨found, hfound⟩ | ⟨error, hfails⟩
    · exact .inl ⟨found, header, rfl, hfound⟩
    · exact .inr ⟨error, .below ⟨_, hsettles, hfails⟩⟩

/-- A document that has been opened shows some contents, or it has a first entry that cannot be
loaded. -/
theorem shows_or_brokenAt (root : RootId) (positions : List UInt64) :
    (∃ contents, (ofHeader root source ⟨positions⟩).Shows library contents) ∨
      ∃ error i, (ofHeader root source ⟨positions⟩).BrokenAt library error i := by
  -- The entries before the first one that cannot be loaded give the list of contents.
  have hlist (rest : List UInt64) (first : Nat) :
      (∃ contents, List.Forall₂ (fun found position => ∃ header,
          source.frameAt content position.toNat = .ok header ∧
          source.HasContent content header found)
        contents rest) ∨
      ∃ error i, (∀ j, j < i → ∃ position, rest[j]? = some position ∧
          ∃ found, ShowsEntry library { root } (first + j) (.stored source position) found) ∧
        ∃ position, rest[i]? = some position ∧
          BrokenEntry library error { root } (first + i) (.stored source position) := by
    induction rest generalizing first with
    | nil => exact .inl ⟨[], .nil⟩
    | cons position rest ih =>
      rcases hasContent_or_brokenEntry hcontent { root } first position with
        ⟨found, header, hheader, hfound⟩ | ⟨error, hfails⟩
      · rcases ih (first + 1) with ⟨contents, hcontents⟩ | ⟨error, i, hshown, hfails⟩
        · exact .inl ⟨found :: contents, .cons ⟨header, hheader, hfound⟩ hcontents⟩
        · refine .inr ⟨error, i + 1, fun j hj => ?_, ?_⟩
          · cases j with
            | zero => exact ⟨position, rfl, found, showsEntry_stored hcontent hheader hfound⟩
            | succ j =>
              rw [show first + (j + 1) = first + 1 + j by omega]
              exact hshown j (Nat.lt_of_succ_lt_succ hj)
          · rw [show first + (i + 1) = first + 1 + i by omega]
            exact hfails
      · exact .inr ⟨error, 0, fun j hj => absurd hj (Nat.not_lt_zero j), position, rfl, hfails⟩
  rcases hlist positions 0 with ⟨contents, hcontents⟩ | ⟨error, i, hshown, position,
    hposition, hfails⟩
  · exact .inl ⟨contents, shows_ofHeader hcontent root hcontents⟩
  · rw [Nat.zero_add] at hfails
    refine .inr ⟨error, i, fun j hj => ?_, .stored source position, ?_, hfails⟩
    · obtain ⟨earlier, hearlier, hfound⟩ := hshown j hj
      rw [Nat.zero_add] at hfound
      refine ⟨.stored source earlier, ?_, hfound⟩
      rw [get?_ofHeader, hearlier]
      rfl
    · rw [get?_ofHeader, hposition]
      rfl

end Document
end Opened
end FramedTree
