import FramedTree.Document.Equality
import FramedTree.Document.Resolve
import FramedTree.Document.Save
import FramedTree.Proofs.PreservedRelations

/-! # How trees grow

A tree is intact when every node that has been loaded carries the stamp of its place and every
reference that is kept in the tree names a node of the tree. Whatever is done to a tree, it stays
intact, its root stays the same, and entries and identifications that were loaded stay in their
places with their stamps.
-/

namespace FramedTree

/-- An identity that may have been changed, but is still the same node. -/
def Identity.Stays (before after : Identity) : Prop := after.stamp = before.stamp

instance : IsPreorder Identity Identity.Stays where
  refl _ := rfl
  trans _ _ _ hab hbc := hbc.trans hab

namespace Entry

/-- The secret identity, if there is one and it has been loaded. -/
def loadedSecret? (entry : Entry) : Option Identity :=
  (entry.secretIdentity.get? singular).bind Lazy.peek

def references (entry : Entry) : List NodeRef := entry.approver.toList ++ entry.reviewers

/-- The identities carry the stamps of their places, and the references are those of the tree. -/
structure Intact (entry : Entry) : Prop where
  identification : ∀ identity, entry.identification.peek = some identity →
    identity.stamp = entry.stamp.child identificationField 0
  secretIdentity : ∀ identity, entry.loadedSecret? = some identity →
    identity.stamp = entry.stamp.child secretIdentityField 0
  references : ∀ ref ∈ entry.references, ref.root = entry.stamp.root

def SecretAtHand (entry : Entry) : Prop :=
  ∀ cell, entry.secretIdentity.get? singular = some cell → cell.isLoaded

structure Grows (before after : Entry) : Prop where
  stamp_eq : after.stamp = before.stamp
  intact : before.Intact → after.Intact
  identification : ∀ identity, before.identification.peek = some identity →
    ∃ later, after.identification.peek = some later ∧ later.stamp = identity.stamp
  secretAtHand : before.SecretAtHand → after.SecretAtHand

instance : IsPreorder Entry Grows where
  refl entry := ⟨rfl, id, fun identity h => ⟨identity, h, rfl⟩, id⟩
  trans a b c hab hbc := by
    refine ⟨hbc.stamp_eq.trans hab.stamp_eq, hbc.intact ∘ hab.intact, fun identity h => ?_,
      hbc.secretAtHand ∘ hab.secretAtHand⟩
    obtain ⟨between, hbetween, hfirst⟩ := hab.identification identity h
    obtain ⟨later, hlater, hsecond⟩ := hbc.identification between hbetween
    exact ⟨later, hlater, hsecond.trans hfirst⟩

/-- A fresh entry has no identities and no references. -/
theorem intact_mk (stamp : Stamp) : Intact { stamp } where
  identification _ h := by cases h
  secretIdentity _ h := by cases h
  references _ h := by cases h

theorem loadIdentity_stamp {stamp : Stamp} {field : UInt32} {origin : Option Origin}
    {streams after : Streams} {identity : Identity}
    (h : loadIdentity stamp field origin streams = .ok identity after) :
    identity.stamp = stamp.child field 0 := by
  cases origin with
  | none => cases h; rfl
  | some origin =>
    rw [loadIdentity, Identity.load, bind_apply] at h
    cases hread : (origin.read : Load IdentityHeader) streams with
    | ok header after =>
      rw [hread] at h
      cases h
      rfl
    | error error after =>
      rw [hread] at h
      cases h

private theorem stamp_of_grows {stamp : Stamp} {before after : Lazy Identity} {identity : Identity}
    (h : Lazy.Grows (fun identity => identity.stamp = stamp) Identity.Stays before after)
    (hbefore : ∀ identity, before.peek = some identity → identity.stamp = stamp)
    (hafter : after.peek = some identity) : identity.stamp = stamp := by
  cases hpeek : before.peek with
  | none =>
    obtain ⟨first, hfirst, hstays⟩ := h.new hpeek identity hafter
    exact hstays.trans hfirst
  | some first =>
    obtain ⟨later, hlater, hstays⟩ := h.kept first hpeek
    cases hlater.symm.trans hafter
    exact hstays.trans (hbefore first hpeek)

variable {entry : Entry}

private theorem grows_identification {cell : Lazy Identity}
    (h : Lazy.Grows (fun identity => identity.stamp = entry.stamp.child identificationField 0)
      Identity.Stays entry.identification cell) :
    Grows entry { entry with identification := cell } :=
  ⟨rfl, fun hintact => ⟨fun _ hpeek => stamp_of_grows h hintact.identification hpeek,
    hintact.secretIdentity, hintact.references⟩, h.kept, id⟩

private theorem grows_secretIdentity {slots : Slots (Lazy Identity)}
    (h : (∀ identity, entry.loadedSecret? = some identity →
        identity.stamp = entry.stamp.child secretIdentityField 0) →
      ∀ identity, (slots.get? singular).bind Lazy.peek = some identity →
        identity.stamp = entry.stamp.child secretIdentityField 0)
    (hloaded : entry.SecretAtHand → ∀ cell, slots.get? singular = some cell → cell.isLoaded) :
    Grows entry { entry with secretIdentity := slots } :=
  ⟨rfl, fun hintact => ⟨hintact.identification, h hintact.secretIdentity, hintact.references⟩,
    fun identity hpeek => ⟨identity, hpeek, rfl⟩, hloaded⟩

private theorem grows_references {approver : Option NodeRef} {reviewers : List NodeRef}
    (h : (∀ ref ∈ entry.references, ref.root = entry.stamp.root) →
      ∀ ref ∈ approver.toList ++ reviewers, ref.root = entry.stamp.root) :
    Grows entry { entry with approver, reviewers } :=
  ⟨rfl, fun hintact => ⟨hintact.identification, hintact.secretIdentity, h hintact.references⟩,
    fun identity hpeek => ⟨identity, hpeek, rfl⟩, id⟩

section Access

variable {β : Type} {inner : Access Streams Identity β}

private theorem keeps_opened {load : Option Origin → Load Identity} {stamp : Stamp} {field : UInt32}
    {access : Access Streams (Lazy Identity) β} (hload : load = loadIdentity stamp field)
    (hopens : Lazy.Opens load inner access) (h : Keeps (OnNode Identity.Stays) inner) :
    Keeps (OnNode
      (Lazy.Grows (fun identity => identity.stamp = stamp.child field 0) Identity.Stays))
      access := by
  subst hload
  exact Keeps.opens hopens (fun _ _ _ _ hrun => loadIdentity_stamp hrun) h

theorem keeps_onIdentification (h : Keeps (OnNode Identity.Stays) inner) :
    Keeps (OnNode Grows) (onIdentification inner) :=
  Keeps.node_within (fun _ => keeps_opened rfl (Lazy.access_opens _ _) h)
    fun _ _ => grows_identification

theorem keeps_onIdentificationMut (h : Keeps (OnNode Identity.Stays) inner) :
    Keeps (OnNode Grows) (onIdentificationMut inner) :=
  Keeps.node_within (fun _ => keeps_opened rfl (Lazy.accessMut_opens _ _) h)
    fun _ _ => grows_identification

private theorem grows_slot {entry : Entry} {slots : Slots (Lazy Identity)}
    (h : Slots.Pointwise (fun _ => Lazy.Grows
      (fun identity => identity.stamp = entry.stamp.child secretIdentityField 0) Identity.Stays)
      entry.secretIdentity slots) :
    Grows entry { entry with secretIdentity := slots } := by
  have hslot := h.slot singular
  apply grows_secretIdentity
  · intro hsecret identity hpeek
    rw [loadedSecret?] at hsecret
    generalize entry.secretIdentity.get? singular = before at hslot hsecret
    generalize slots.get? singular = after at hslot hpeek
    cases hslot with
    | none => cases hpeek
    | some hgrows => exact stamp_of_grows hgrows hsecret hpeek
  · intro hloaded cell hcell
    rw [SecretAtHand] at hloaded
    generalize entry.secretIdentity.get? singular = before at hslot hloaded
    generalize slots.get? singular = after at hslot hcell
    cases hslot with
    | none => cases hcell
    | @some first later hgrows =>
      cases hcell
      exact hgrows.isLoaded (hloaded first rfl)

theorem keeps_onSecretIdentity (h : Keeps (OnNode Identity.Stays) inner) :
    Keeps (OnNode Grows) (onSecretIdentity inner) :=
  Keeps.node_within (fun _ => Keeps.slot (keeps_opened rfl (Lazy.access_opens _ _) h))
    fun _ _ => grows_slot

theorem keeps_onSecretIdentityMut (h : Keeps (OnNode Identity.Stays) inner) :
    Keeps (OnNode Grows) (onSecretIdentityMut inner) :=
  Keeps.node_within (fun _ => Keeps.slot (keeps_opened rfl (Lazy.accessMut_opens _ _) h))
    fun _ _ => grows_slot

private theorem keeps_loaded {stamp : Stamp} {field : UInt32}
    {access : Access Streams (Lazy Identity) β}
    (hopens : Lazy.Opens (loadIdentity stamp field) inner access) :
    Keeps (OnNode fun before after => before.isLoaded ∨ before.origin = none → after.isLoaded)
      access := by
  rintro ⟨cell, streams⟩ hcell
  apply hopens.isLoaded
  rcases hcell with hloaded | horigin
  · obtain ⟨value, hpeek⟩ := Option.isSome_iff_exists.1 hloaded
    exact ⟨value, streams, by rw [Lazy.fetch_of_peek hpeek]; rfl⟩
  · cases hpeek : cell.peek with
    | some value => exact ⟨value, streams, by rw [Lazy.fetch_of_peek hpeek]; rfl⟩
    | none =>
      refine ⟨{ stamp := stamp.child field 0 }, streams, ?_⟩
      rw [Lazy.fetch_of_unloaded hpeek, horigin]
      rfl

theorem keeps_addSecretIdentity (h : Keeps (OnNode Identity.Stays) inner) :
    Keeps (OnNode Grows) (addSecretIdentity inner) := by
  refine Keeps.node_within
    (fun _ => Keeps.and (keeps_opened rfl (Lazy.accessMut_opens _ _) h)
      (keeps_loaded (Lazy.accessMut_opens _ _)))
    fun entry cell hcell => grows_secretIdentity (fun hsecret identity hpeek => ?_)
      fun hloaded later hlater => ?_
  · have hidentity : cell.peek = some identity := by simpa [Slots.get?_insert] using hpeek
    refine stamp_of_grows hcell.1 (fun first hfirst => hsecret first ?_) hidentity
    cases hslot : entry.secretIdentity.get? singular with
    | none => simp [hslot, Lazy.peek] at hfirst
    | some slot => simpa [loadedSecret?, hslot] using hfirst
  · have : cell = later := by simpa [Slots.get?_insert] using hlater
    subst this
    apply hcell.2
    cases hslot : entry.secretIdentity.get? singular with
    | none => exact .inr (by simp)
    | some slot => exact .inl (by simpa using hloaded slot hslot)

theorem keeps_loadAll : Keeps (OnNode Grows) loadAll :=
  Keeps.bind (keeps_onIdentificationMut (Keeps.pure ())) fun _ =>
    Keeps.map _ (keeps_onSecretIdentityMut (Keeps.pure ()))

theorem keeps_child (field : UInt32) (index : UInt64) :
    Keeps (OnNode Grows) (child field index) := by
  unfold child
  split
  · exact Keeps.map some (keeps_onIdentification Keeps.node)
  · split
    · exact keeps_onSecretIdentity Keeps.node
    · exact Keeps.pure none

theorem keeps_outline : Keeps (OnNode Grows) outline :=
  Keeps.bind (Keeps.attempt (keeps_onIdentification Keeps.node)) fun _ =>
    Keeps.bind (Keeps.attempt (keeps_onSecretIdentity Keeps.node)) fun _ =>
      Keeps.bind Keeps.node fun _ => Keeps.pure _

theorem keeps_secretAndEntry : Keeps (OnNode Grows) secretAndEntry :=
  Keeps.bind (keeps_onSecretIdentity Keeps.node) fun _ => Keeps.bind Keeps.node fun _ =>
    Keeps.pure _

private theorem keeps_save : Keeps (OnNode Grows) save := by
  refine Keeps.bind (Keeps.around (keeps_onIdentification Keeps.node)) fun identity => ?_
  refine Keeps.bind (Keeps.lift _) fun _ => ?_
  refine Keeps.bind (Keeps.around (keeps_onSecretIdentity Keeps.node)) fun secret => ?_
  refine Keeps.bind ?_ fun _ => Keeps.bind Keeps.node fun _ => Keeps.lift _
  cases secret with
  | none => exact Keeps.pure none
  | some secret => exact Keeps.map some (Keeps.lift _)

end Access

theorem grows_setApprover {changed : Entry} {ref : NodeRef}
    (h : entry.setApprover ref = .ok changed) : Grows entry changed := by
  by_cases hroot : entry.stamp.root = ref.root
  · simp [setApprover, attach, ensureSameRoot, hroot, bind, Except.bind, pure, Except.pure] at h
    subst h
    apply grows_references
    intro hrefs other hother
    rcases List.mem_append.1 hother with hother | hother
    · have : other = ref := by simpa using hother
      rw [this, hroot]
    · exact hrefs other (List.mem_append_right _ hother)
  · simp [setApprover, attach, ensureSameRoot, hroot, bind, Except.bind] at h

theorem grows_addReviewer {changed : Entry} {ref : NodeRef}
    (h : entry.addReviewer ref = .ok changed) : Grows entry changed := by
  by_cases hroot : entry.stamp.root = ref.root
  · simp [addReviewer, attach, ensureSameRoot, hroot, bind, Except.bind, pure, Except.pure] at h
    subst h
    apply grows_references
    intro hrefs other hother
    rw [← List.append_assoc] at hother
    rcases List.mem_append.1 hother with hother | hother
    · exact hrefs other hother
    · have : other = ref := by simpa using hother
      rw [this, hroot]
  · simp [addReviewer, attach, ensureSameRoot, hroot, bind, Except.bind] at h

theorem grows_removeReviewers (ref : NodeRef) : Grows entry (entry.removeReviewers ref) := by
  apply grows_references
  intro hrefs other hother
  apply hrefs other
  rcases List.mem_append.1 hother with hother | hother
  · exact List.mem_append_left _ hother
  · exact List.mem_append_right _ (List.mem_filter.1 hother).1

theorem grows_clearApprover : Grows entry entry.clearApprover := by
  apply grows_references
  intro hrefs other hother
  exact hrefs other (List.mem_append_right _ hother)

theorem grows_clearSecretIdentity : Grows entry entry.clearSecretIdentity := by
  apply grows_secretIdentity
  · intro _ identity hpeek
    cases hpeek
  · intro _ cell hcell
    cases hcell

end Entry

namespace Document

def entryAt? (document : Document) (i : Nat) : Option Entry :=
  (document.entries.get? i).bind Lazy.peek

/-- There are no gaps between entries, and the entries that have been loaded are in their places. -/
structure Intact (document : Document) : Prop where
  path_eq : document.stamp.path = Path.root
  occupied : ∀ i < document.entryCount, (document.entries.get? i).isSome
  entry : ∀ i entry, document.entryAt? i = some entry →
    entry.stamp = entryStamp document.stamp i ∧ entry.Intact

structure Grows (before after : Document) : Prop where
  stamp_eq : after.stamp = before.stamp
  intact : before.Intact → after.Intact
  entry : ∀ i entry, before.entryAt? i = some entry →
    ∃ later, after.entryAt? i = some later ∧ entry.Grows later

instance : IsPreorder Document Grows where
  refl document := ⟨rfl, id, fun _ entry h => ⟨entry, h, refl_of Entry.Grows entry⟩⟩
  trans a b c hab hbc := by
    refine ⟨hbc.stamp_eq.trans hab.stamp_eq, hbc.intact ∘ hab.intact, fun i entry h => ?_⟩
    obtain ⟨between, hbetween, hfirst⟩ := hab.entry i entry h
    obtain ⟨later, hlater, hsecond⟩ := hbc.entry i between hbetween
    exact ⟨later, hlater, trans_of Entry.Grows hfirst hsecond⟩

/-- What may happen to the cell of the entry with number `i` in the tree with the given stamp. -/
abbrev CellGrows (stamp : Stamp) (i : Nat) : Lazy Entry → Lazy Entry → Prop :=
  Lazy.Grows (fun entry => entry.stamp = entryStamp stamp i ∧ entry.Intact) Entry.Grows

theorem intact_empty (root : RootId) : (empty root).Intact where
  path_eq := rfl
  occupied i h := absurd h (Nat.not_lt_zero i)
  entry i entry h := by simp [entryAt?, empty] at h

theorem intact_ofHeader (root : RootId) (source : Source) (header : DocumentHeader) :
    (ofHeader root source header).Intact where
  path_eq := rfl
  occupied i h := by
    have hi : i < header.entries.length := by simpa [entryCount, ofHeader] using h
    simp [ofHeader, hi]
  entry i entry h := by
    exfalso
    cases hi : header.entries[i]? with
    | none => simp [entryAt?, ofHeader, hi] at h
    | some position =>
      simp [entryAt?, ofHeader, hi, Lazy.peek, Lazy.stored] at h

theorem loadEntry_intact {stamp : Stamp} {i : Nat} {origin : Option Origin}
    {streams after : Streams} {entry : Entry}
    (h : loadEntry stamp i origin streams = .ok entry after) :
    entry.stamp = entryStamp stamp i ∧ entry.Intact := by
  cases origin with
  | none =>
    cases h
    exact ⟨rfl, Entry.intact_mk _⟩
  | some origin =>
    rw [loadEntry, Entry.load, bind_apply] at h
    cases hread : (origin.read : Load EntryHeader) streams with
    | error error after =>
      rw [hread] at h
      cases h
    | ok header after =>
      rw [hread] at h
      cases h
      refine ⟨rfl, ⟨fun _ hpeek => ?_, fun _ hpeek => ?_, fun ref href => ?_⟩⟩
      · cases hpeek
      · cases hsecret : header.secretIdentity with
        | none => simp [Entry.loadedSecret?, Entry.ofHeader, hsecret] at hpeek
        | some position =>
          simp [Entry.loadedSecret?, Entry.ofHeader, hsecret, Slots.get?_insert, Lazy.peek,
            Lazy.stored] at hpeek
      · simp only [Entry.references, Entry.ofHeader, List.mem_append, Option.mem_toList,
          Option.map_eq_some_iff, List.mem_map] at href
        rcases href with ⟨descriptor, -, rfl⟩ | ⟨descriptor, -, rfl⟩ <;> rfl

variable {document : Document}

private theorem grows_entries {slots : Slots (Lazy Entry)}
    (h : Slots.Pointwise (CellGrows document.stamp) document.entries slots) :
    Grows document { document with entries := slots } := by
  refine ⟨rfl, fun hintact => ⟨hintact.path_eq, fun i hi => ?_, fun i entry hpeek => ?_⟩,
    fun i entry hpeek => ?_⟩
  · have hbefore := hintact.occupied i (by simpa only [entryCount, h.size_eq] using hi)
    have hslot := h.slot i
    generalize document.entries.get? i = before at hslot hbefore
    generalize slots.get? i = after at hslot ⊢
    cases hslot with
    | none => cases hbefore
    | some => rfl
  · have hslot := h.slot i
    have hbefore := hintact.entry i
    rw [entryAt?] at hbefore hpeek
    generalize document.entries.get? i = before at hslot hbefore
    generalize slots.get? i = after at hslot hpeek
    cases hslot with
    | none => cases hpeek
    | @some cell later hgrows =>
      cases hcell : cell.peek with
      | none =>
        obtain ⟨first, ⟨hstamp, hfirst⟩, hentry⟩ := hgrows.new hcell entry hpeek
        exact ⟨hentry.stamp_eq.trans hstamp, hentry.intact hfirst⟩
      | some first =>
        obtain ⟨now, hnow, hentry⟩ := hgrows.kept first hcell
        cases hnow.symm.trans hpeek
        obtain ⟨hstamp, hfirst⟩ := hbefore first hcell
        exact ⟨hentry.stamp_eq.trans hstamp, hentry.intact hfirst⟩
  · have hslot := h.slot i
    rw [entryAt?] at hpeek ⊢
    generalize document.entries.get? i = before at hslot hpeek
    generalize slots.get? i = after at hslot ⊢
    cases hslot with
    | none => cases hpeek
    | some hgrows => exact hgrows.kept entry hpeek

/-- A new entry leaves the others where they are. -/
theorem grows_addEntry : Grows document document.addEntry.2 := by
  have hget (i : Nat) : document.addEntry.2.entryAt? i =
      if i = document.entries.size then some document.addEntry.1 else document.entryAt? i := by
    simp only [entryAt?, addEntry, Slots.get?_insert]
    split <;> rfl
  have hpast : document.entries.get? document.entries.size = none := Slots.get?_size _
  refine ⟨rfl, fun hintact => ⟨hintact.path_eq, fun i hi => ?_, fun i entry hpeek => ?_⟩,
    fun i entry hpeek => ?_⟩
  · simp only [addEntry, Slots.get?_insert]
    split
    · rfl
    · apply hintact.occupied
      simp only [entryCount, addEntry, Slots.size_insert] at hi ⊢
      omega
  · rw [hget] at hpeek
    split at hpeek
    case isTrue hi =>
      cases hpeek
      exact ⟨by rw [hi]; rfl, Entry.intact_mk _⟩
    case isFalse => exact hintact.entry i entry hpeek
  · refine ⟨entry, ?_, refl_of Entry.Grows entry⟩
    rw [hget, if_neg, hpeek]
    intro hi
    rw [entryAt?, hi, hpast] at hpeek
    cases hpeek

section Access

variable {σ β : Type}

theorem keeps_onEntry {inner : Access Streams Entry β} (i : Nat)
    (h : Keeps (OnNode Entry.Grows) inner) :
    Keeps (OnNode Grows) (onEntry i inner) :=
  Keeps.node_within
    (fun _ => Keeps.slot (Keeps.opens (Lazy.access_opens _ _) (fun _ _ _ _ => loadEntry_intact) h))
    fun _ _ => grows_entries

theorem keeps_onEntryMut {inner : Access Streams Entry β} (i : Nat)
    (h : Keeps (OnNode Entry.Grows) inner) : Keeps (OnNode Grows) (onEntryMut i inner) :=
  Keeps.node_within
    (fun _ => Keeps.slot
      (Keeps.opens (Lazy.accessMut_opens _ _) (fun _ _ _ _ => loadEntry_intact) h))
    fun _ _ => grows_entries

private theorem keeps_onCells {inner : Stamp → Nat → Access σ (Lazy Entry) β}
    (h : ∀ stamp i, Keeps (OnNode (CellGrows stamp i)) (inner stamp i)) :
    Keeps (OnNode Grows) (onCells inner) :=
  Keeps.node_within (fun document => Keeps.accessAll (h document.stamp)) fun _ _ => grows_entries

theorem keeps_entryList : Keeps (OnNode Grows) entryList :=
  keeps_onCells fun _ _ =>
    Keeps.opens (Lazy.access_opens _ _) (fun _ _ _ _ => loadEntry_intact) Keeps.node

theorem keeps_loadAll : Keeps (OnNode Grows) loadAll :=
  Keeps.map _ (keeps_onCells fun _ _ =>
    Keeps.opens (Lazy.accessMut_opens _ _) (fun _ _ _ _ => loadEntry_intact) Entry.keeps_loadAll)

private theorem keeps_outline : Keeps (OnNode Grows) outline := by
  refine keeps_onCells fun stamp i => Keeps.bind (Keeps.attempt ?_) fun result => ?_
  · exact Keeps.opens (Lazy.access_opens _ _) (fun _ _ _ _ => loadEntry_intact) Entry.keeps_outline
  · cases result <;> exact Keeps.pure _

theorem keeps_text : Keeps (OnNode Grows) text := Keeps.bind keeps_outline fun _ => Keeps.pure _

theorem keeps_child (field : UInt32) (index : UInt64) :
    Keeps (OnNode Grows) (child field index) := by
  unfold child
  split
  · exact keeps_onEntry _ Keeps.node
  · exact Keeps.pure none

private theorem keeps_nodeChild (node : Node) (field : UInt32) (index : UInt64) :
    Keeps (OnNode Grows) (node.child field index) := by
  cases node with
  | document => exact Keeps.bind (keeps_child field index) fun _ => Keeps.pure _
  | entry i =>
    exact Keeps.bind (keeps_onEntry i (Entry.keeps_child field index)) fun _ => Keeps.pure _
  | identification i | secretIdentity i => exact Keeps.pure none

theorem keeps_nodeIdentity (node : Node) : Keeps (OnNode Grows) node.identity := by
  cases node with
  | document | entry i => exact Keeps.pure none
  | identification i => exact keeps_onEntry i (Entry.keeps_onIdentification Keeps.node)
  | secretIdentity i =>
    exact Keeps.bind (keeps_onEntry i (Entry.keeps_onSecretIdentity Keeps.node)) fun _ =>
      Keeps.pure _

private theorem keeps_walk (steps : List (UInt64 × UInt64)) (node : Node) :
    Keeps (OnNode Grows) (walk Node.child steps node) := by
  induction steps generalizing node with
  | nil => exact Keeps.pure _
  | cons step rest ih =>
    unfold walk
    split
    · refine Keeps.bind (keeps_nodeChild _ _ _) fun found => ?_
      cases found with
      | none => exact Keeps.pure none
      | some next => exact ih next
    · exact Keeps.pure none

theorem keeps_resolveIdentity (ref : NodeRef) : Keeps (OnNode Grows) (resolveIdentity ref) := by
  refine Keeps.bind Keeps.node fun document => ?_
  unfold resolve
  cases ensureSameRoot document.stamp.root ref.root with
  | error error => exact Keeps.throw error
  | ok =>
    refine Keeps.bind (keeps_walk _ _) fun found => ?_
    cases found with
    | none => exact Keeps.pure none
    | some node => exact keeps_nodeIdentity node

/-- Saving all entries opens each cell in turn and saves the entry in it. -/
theorem saveEntries_eq : saveEntries = onCells fun stamp i =>
    Lazy.access (Lazy.widen Output.streams (fun streams output => { output with streams })
      (loadEntry stamp i)) Entry.save := by
  unfold saveEntries Output.loading
  congr 1
  funext stamp i
  rw [Lazy.around_getOrLoad _ _ fun _ => rfl]
  rfl

private theorem widen_intact {stamp : Stamp} {i : Nat} {origin : Option Origin}
    {output after : Output} {entry : Entry}
    (h : Lazy.widen Output.streams (fun streams output => { output with streams })
      (loadEntry stamp i)
      origin output = .ok entry after) :
    entry.stamp = entryStamp stamp i ∧ entry.Intact := by
  rw [Lazy.widen] at h
  cases hload : loadEntry stamp i origin output.streams with
  | error error streams =>
    rw [hload] at h
    cases h
  | ok value streams =>
    rw [hload] at h
    cases h
    exact loadEntry_intact hload

private theorem keeps_saveAll : Keeps (OnNode Grows) saveAll := by
  refine Keeps.bind ?_ fun _ => Keeps.lift _
  rw [saveEntries_eq]
  exact keeps_onCells fun _ _ =>
    Keeps.opens (Lazy.access_opens _ _) (fun _ _ _ _ => widen_intact) Entry.keeps_save

/-- What saving all frames keeps, saving keeps. -/
theorem keeps_of_saveAll {R : Document → Document → Prop} [IsPreorder Document R]
    (h : Keeps (OnNode R) saveAll) (codec : Codec) (target : StreamId) (position : Nat) :
    Keeps (OnNode R) (save codec target position) := by
  rintro ⟨document, streams⟩
  unfold save
  cases hsink : Sink.atEnd codec ⟨streams.get target, position⟩ with
  | error error handle =>
    simp only [hsink]
    exact refl_of R document
  | ok sink handle =>
    have hsave := h (document, ⟨streams.set target handle.stream, target, handle.position, sink⟩)
    simp only [hsink]
    cases hrun : saveAll (document,
      ⟨streams.set target handle.stream, target, handle.position, sink⟩) with
    | ok size after | error error after =>
      rw [hrun] at hsave
      exact hsave

theorem keeps_save (codec : Codec) (target : StreamId) (position : Nat) :
    Keeps (OnNode Grows) (save codec target position) :=
      keeps_of_saveAll keeps_saveAll codec target position

theorem keeps_saveToBytes (codec : Codec) : Keeps (OnNode Grows) (saveToBytes codec) := by
  rintro ⟨document, streams⟩
  have hsave := keeps_save codec .scratch 0 (document, { streams with scratch := {} })
  unfold saveToBytes
  cases hrun : save codec .scratch 0 (document, { streams with scratch := {} }) with
  | ok size after | error error after =>
    rw [hrun] at hsave
    simp only [hrun]
    exact hsave

end Access
end Document
end FramedTree
