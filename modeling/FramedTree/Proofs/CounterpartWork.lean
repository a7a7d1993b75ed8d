import FramedTree.Proofs.Counterparts

/-! # Work on counterparts

Whatever is done to one of two counterparts, doing it to the other gives the same, up to root
numbers, and leaves counterparts.
-/

namespace FramedTree

variable {α β : Type} {k : Pairing} {E : Error → Error → Prop} [Std.Refl E] {A : α → β → Prop}

namespace Entry

section Opening

variable {inner : Access Streams Identity α} {inner' : Access Streams Identity β}
  {access : Stamp → Access Streams (Lazy Identity) α}
  {access' : Stamp → Access Streams (Lazy Identity) β}

private theorem echoes_identification (h : Echoes k E (Identity.Pairs k) A inner inner')
    (hopens : ∀ stamp, Lazy.Opens (loadIdentity stamp identificationField) inner (access stamp))
    (hopens' : ∀ stamp, Lazy.Opens (loadIdentity stamp identificationField) inner'
      (access' stamp)) :
    Echoes k E (Pairs k) A
      (do
        let entry ← Access.node
        Access.within identification (fun cell entry => { entry with identification := cell })
          (access entry.stamp))
      (do
        let entry ← Access.node
        Access.within identification (fun cell entry => { entry with identification := cell })
          (access' entry.stamp)) := by
  refine Mirrors.node_within
    (U := fun entry entry' => IdentityPairs k entry.stamp entry'.stamp identificationField)
    (fun entry entry' _ => Echoes.opens (hopens entry.stamp) (hopens' entry'.stamp) h)
    (fun entry entry' hentry => hentry.identification) ?_
  intro entry entry' cell cell' hentry hcell
  exact ⟨hentry.stamp, hcell, hentry.secretIdentity, hentry.approver, hentry.reviewers⟩

private theorem echoes_secretIdentity (h : Echoes k E (Identity.Pairs k) A inner inner')
    (hopens : ∀ stamp, Lazy.Opens (loadIdentity stamp secretIdentityField) inner (access stamp))
    (hopens' : ∀ stamp, Lazy.Opens (loadIdentity stamp secretIdentityField) inner'
      (access' stamp)) :
    Echoes k E (Pairs k) (Option.Rel A)
      (do
        let entry ← Access.node
        Access.within secretIdentity (fun slots entry => { entry with secretIdentity := slots })
          (Slots.access singular (access entry.stamp)))
      (do
        let entry ← Access.node
        Access.within secretIdentity (fun slots entry => { entry with secretIdentity := slots })
          (Slots.access singular (access' entry.stamp))) := by
  refine Mirrors.node_within
    (U := fun entry entry' slots slots' =>
      Option.Rel (IdentityPairs k entry.stamp entry'.stamp secretIdentityField)
        (slots.get? singular)
        (slots'.get? singular))
    (fun entry entry' _ => Mirrors.slot (Echoes.opens (hopens entry.stamp) (hopens' entry'.stamp) h)
      (fun _ _ hslots => hslots) ?_)
    (fun entry entry' hentry => hentry.secretIdentity) ?_
  · intro slots slots' cell cell' _ hfound hfound' hcell
    obtain ⟨first, hfirst⟩ := Option.isSome_iff_exists.1 hfound
    obtain ⟨first', hfirst'⟩ := Option.isSome_iff_exists.1 hfound'
    rw [Slots.get?_modify, Slots.get?_modify, if_pos rfl, if_pos rfl, hfirst, hfirst']
    exact .some hcell
  · intro entry entry' slots slots' hentry hslots
    exact ⟨hentry.stamp, hentry.identification, hslots, hentry.approver, hentry.reviewers⟩

theorem echoes_onIdentification (h : Echoes k E (Identity.Pairs k) A inner inner') :
    Echoes k E (Pairs k) A (onIdentification inner) (onIdentification inner') :=
  echoes_identification h (fun _ => Lazy.access_opens _ _) fun _ => Lazy.access_opens _ _

theorem echoes_onIdentificationMut (h : Echoes k E (Identity.Pairs k) A inner inner') :
    Echoes k E (Pairs k) A (onIdentificationMut inner) (onIdentificationMut inner') :=
  echoes_identification h (fun _ => Lazy.accessMut_opens _ _) fun _ => Lazy.accessMut_opens _ _

theorem echoes_onSecretIdentity (h : Echoes k E (Identity.Pairs k) A inner inner') :
    Echoes k E (Pairs k) (Option.Rel A) (onSecretIdentity inner) (onSecretIdentity inner') :=
  echoes_secretIdentity h (fun _ => Lazy.access_opens _ _) fun _ => Lazy.access_opens _ _

theorem echoes_onSecretIdentityMut (h : Echoes k E (Identity.Pairs k) A inner inner') :
    Echoes k E (Pairs k) (Option.Rel A) (onSecretIdentityMut inner) (onSecretIdentityMut inner') :=
  echoes_secretIdentity h (fun _ => Lazy.accessMut_opens _ _) fun _ => Lazy.accessMut_opens _ _

theorem echoes_addSecretIdentity (h : Echoes k E (Identity.Pairs k) A inner inner') :
    Echoes k E (Pairs k) A (addSecretIdentity inner) (addSecretIdentity inner') := by
  unfold addSecretIdentity
  refine Mirrors.node_within
    (U := fun entry entry' : Entry => IdentityPairs k entry.stamp entry'.stamp secretIdentityField)
      ?_ ?_ ?_
  · intro entry entry' _
    exact Echoes.opens (Lazy.accessMut_opens _ _) (Lazy.accessMut_opens _ _) h
  · intro entry entry' hentry
    have hslot := hentry.secretIdentity
    generalize entry.secretIdentity.get? singular = found at hslot ⊢
    generalize entry'.secretIdentity.get? singular = found' at hslot ⊢
    cases hslot with
    | some hcell => exact hcell
    | none =>
      have hstamp := hentry.stamp.child secretIdentityField 0
      exact ⟨.ok _, .ok _, Settles.pure _, Settles.pure _, .ok ⟨hstamp, rfl⟩⟩
  · intro entry entry' cell cell' hentry hcell
    refine ⟨hentry.stamp, hentry.identification, ?_, hentry.approver, hentry.reviewers⟩
    simp only [Slots.get?_insert, if_true]
    exact .some hcell

end Opening

theorem echoes_loadAll : Echoes k E (Pairs k) Eq loadAll loadAll :=
  Mirrors.bind (echoes_onIdentificationMut (Mirrors.pure rfl)) fun _ _ _ =>
    Mirrors.map (echoes_onSecretIdentityMut (A := Eq) (Mirrors.pure rfl)) fun _ _ _ => rfl

theorem echoes_child (field : UInt32) (index : UInt64) :
    Echoes k E (Pairs k) (Option.Rel (Identity.Pairs k)) (child field index)
      (child field index) := by
  unfold child
  by_cases hidentification : field = identificationField
  · rw [if_pos hidentification]
    exact Mirrors.map (echoes_onIdentification Mirrors.node) fun _ _ hidentity => .some hidentity
  · rw [if_neg hidentification]
    by_cases hsecret : field = secretIdentityField
    · rw [if_pos hsecret]
      exact echoes_onSecretIdentity Mirrors.node
    · rw [if_neg hsecret]
      exact Mirrors.pure .none

theorem echoes_secretAndEntry :
    Echoes k E (Pairs k) (fun pair pair' => Option.Rel (Identity.Pairs k) pair.1 pair'.1 ∧
      pair.2.Pairs k pair'.2) secretAndEntry secretAndEntry :=
  Mirrors.bind (echoes_onSecretIdentity Mirrors.node) fun _ _ hsecret =>
    Mirrors.bind Mirrors.node fun _ _ hentry => Mirrors.pure ⟨hsecret, hentry⟩

end Entry

theorem Identity.Pairs.outline_eq {identity identity' : Identity} (h : identity.Pairs k identity') :
    identity'.outline = identity.outline := by
  rw [Identity.outline, Identity.outline, h.header_eq]

private theorem approver_path {approver approver' : Option NodeRef}
    (h : Option.Rel (NodeRef.Pairs k) approver approver') :
    approver'.map NodeRef.path = approver.map NodeRef.path := by
  cases h with
  | none => rfl
  | some href => exact congrArg some href.path_eq

private theorem reviewers_path {reviewers reviewers' : List NodeRef}
    (h : List.Forall₂ (NodeRef.Pairs k) reviewers reviewers') :
    reviewers'.map NodeRef.path = reviewers.map NodeRef.path := by
  induction h with
  | nil => rfl
  | cons href _ ih => rw [List.map_cons, List.map_cons, href.path_eq, ih]

namespace Entry

private theorem Pairs.references_outline {entry entry' : Entry} (h : entry.Pairs k entry') :
    (entry'.approver.map fun ref => Outline.reference "approver" ref.path).toList ++
        (entry'.reviewers.map fun ref => Outline.reference "reviewers" ref.path) =
      (entry.approver.map fun ref => Outline.reference "approver" ref.path).toList ++
        entry.reviewers.map fun ref => Outline.reference "reviewers" ref.path := by
  have happrover := congrArg (Option.map (Outline.reference "approver")) (approver_path h.approver)
  have hreviewers :=
    congrArg (List.map (Outline.reference "reviewers")) (reviewers_path h.reviewers)
  rw [Option.map_map, Option.map_map] at happrover
  rw [List.map_map, List.map_map] at hreviewers
  exact congrArg₂ (fun first second => first.toList ++ second) happrover hreviewers

private theorem childOutline_eq (name : String) {found found' : Except Error (Option Identity)}
    (h : Attempts Eq (Option.Rel (Identity.Pairs k)) found found') :
    childOutline name found' = childOutline name found := by
  cases h with
  | error herror => rw [herror]
  | ok hfound =>
    cases hfound with
    | none => rfl
    | some hidentity => rw [childOutline, childOutline, hidentity.outline_eq]

omit [Std.Refl E] in
private theorem echoes_outline : Echoes k E (Pairs k) Eq outline outline := by
  refine Mirrors.bind (Mirrors.attempt (echoes_onIdentification (E := Eq) Mirrors.node)) ?_
  intro identification identification' hidentification
  refine Mirrors.bind (Mirrors.attempt (echoes_onSecretIdentity (E := Eq) Mirrors.node)) ?_
  intro secret secret' hsecret
  refine Mirrors.bind Mirrors.node fun entry entry' hentry => Mirrors.pure ?_
  have hfirst : Attempts Eq (Option.Rel (Identity.Pairs k)) (identification.map some)
      (identification'.map some) := by
    cases hidentification with
    | ok hidentity => exact .ok (.some hidentity)
    | error herror => exact .error herror
  rw [List.append_assoc, List.append_assoc, hentry.references_outline,
    childOutline_eq "identification" hfirst, childOutline_eq "secret_identity" hsecret]

omit [Std.Refl E] in
theorem echoes_text : Echoes k E (Pairs k) Eq text text := by
  refine Mirrors.bind echoes_outline fun fields fields' hfields => Mirrors.pure ?_
  rw [hfields]

private theorem attach_pairs {root root' : RootId} {ref ref' : NodeRef} (hroot : root.Pairs k root')
    (href : ref.Pairs k ref') :
    Attempts (Error.Pairs k) (NodeRef.Pairs k) (attach root ref) (attach root' ref') := by
  have hsame := hroot.eq_iff href.root
  unfold attach ensureSameRoot
  by_cases heq : root = ref.root
  · rw [if_pos heq, if_pos (hsame.1 heq)]
    exact .ok href
  · rw [if_neg heq, if_neg fun heq' => heq (hsame.2 heq')]
    exact .error (.ownership hroot href.root)

theorem setApprover_pairs {entry entry' : Entry} {ref ref' : NodeRef}
    (hentry : entry.Pairs k entry') (href : ref.Pairs k ref') :
    Attempts (Error.Pairs k) (Pairs k) (entry.setApprover ref) (entry'.setApprover ref') := by
  have hattach := attach_pairs hentry.stamp.root href
  unfold setApprover
  generalize attach entry.stamp.root ref = result at hattach ⊢
  generalize attach entry'.stamp.root ref' = result' at hattach ⊢
  cases hattach with
  | error herror => exact .error herror
  | ok hkept =>
    exact .ok ⟨hentry.stamp, hentry.identification, hentry.secretIdentity, .some hkept,
      hentry.reviewers⟩

theorem addReviewer_pairs {entry entry' : Entry} {ref ref' : NodeRef}
    (hentry : entry.Pairs k entry') (href : ref.Pairs k ref') :
    Attempts (Error.Pairs k) (Pairs k) (entry.addReviewer ref) (entry'.addReviewer ref') := by
  have hattach := attach_pairs hentry.stamp.root href
  unfold addReviewer
  generalize attach entry.stamp.root ref = result at hattach ⊢
  generalize attach entry'.stamp.root ref' = result' at hattach ⊢
  cases hattach with
  | error herror => exact .error herror
  | ok hkept =>
    refine .ok ⟨hentry.stamp, hentry.identification, hentry.secretIdentity, hentry.approver, ?_⟩
    exact List.rel_append hentry.reviewers (.cons hkept .nil)

private theorem filter_pairs {refs refs' : List NodeRef} {ref ref' : NodeRef}
    (h : List.Forall₂ (NodeRef.Pairs k) refs refs') (href : ref.Pairs k ref') :
    List.Forall₂ (NodeRef.Pairs k) (refs.filter (· != ref)) (refs'.filter (· != ref')) := by
  induction h with
  | nil => exact .nil
  | @cons first first' rest rest' hfirst _ ih =>
    have hsame := hfirst.eq_iff href
    by_cases heq : first = ref
    · have heq' : first' = ref' := hsame.1 heq
      simp only [List.filter_cons, heq, heq', bne_self_eq_false, Bool.false_eq_true, if_false]
      exact ih
    · have heq' : first' ≠ ref' := fun heq' => heq (hsame.2 heq')
      simp only [List.filter_cons, bne_iff_ne.2 heq, bne_iff_ne.2 heq', if_true]
      exact .cons hfirst ih

theorem removeReviewers_pairs {entry entry' : Entry} {ref ref' : NodeRef}
    (hentry : entry.Pairs k entry') (href : ref.Pairs k ref') :
    (entry.removeReviewers ref).Pairs k (entry'.removeReviewers ref') :=
  ⟨hentry.stamp, hentry.identification, hentry.secretIdentity, hentry.approver,
    filter_pairs hentry.reviewers href⟩

theorem clearApprover_pairs {entry entry' : Entry} (hentry : entry.Pairs k entry') :
    entry.clearApprover.Pairs k entry'.clearApprover :=
  ⟨hentry.stamp, hentry.identification, hentry.secretIdentity, .none, hentry.reviewers⟩

theorem clearSecretIdentity_pairs {entry entry' : Entry} (hentry : entry.Pairs k entry') :
    entry.clearSecretIdentity.Pairs k entry'.clearSecretIdentity :=
  ⟨hentry.stamp, hentry.identification, .none, hentry.approver, hentry.reviewers⟩

theorem sameReferences_eq {entry entry' other other' : Entry} (h : entry.Pairs k entry')
    (hother : other.Pairs k other') :
    entry'.sameReferences other' = entry.sameReferences other := by
  rw [sameReferences, sameReferences, approver_path h.approver, approver_path hother.approver,
    reviewers_path h.reviewers, reviewers_path hother.reviewers]

end Entry

namespace Document

variable {σ : Type} {T : σ → σ → Prop} {inner : Access Streams Entry α}
  {inner' : Access Streams Entry β}

private theorem echoes_slot {i : Nat} {access : Stamp → Access Streams (Lazy Entry) α}
    {access' : Stamp → Access Streams (Lazy Entry) β}
    (h : Echoes k E (Entry.Pairs k) A inner inner')
    (hopens : ∀ stamp, Lazy.Opens (loadEntry stamp i) inner (access stamp))
    (hopens' : ∀ stamp, Lazy.Opens (loadEntry stamp i) inner' (access' stamp)) :
    Echoes k E (Pairs k) (Option.Rel A)
      (do
        let document ← Access.node
        Access.within entries (fun slots document => { document with entries := slots })
          (Slots.access i (access document.stamp)))
      (do
        let document ← Access.node
        Access.within entries (fun slots document => { document with entries := slots })
          (Slots.access i (access' document.stamp))) := by
  refine Mirrors.node_within
    (U := fun document document' => Slots.Pointwise (EntryPairs k document.stamp document'.stamp))
    (fun document document' _ =>
      Mirrors.pointwise (Echoes.opens (hopens document.stamp) (hopens' document'.stamp) h))
    (fun document document' hdocument => hdocument.entries) ?_
  intro document document' slots slots' hdocument hslots
  exact ⟨hdocument.stamp, hslots⟩

theorem echoes_onEntry (i : Nat) (h : Echoes k E (Entry.Pairs k) A inner inner') :
    Echoes k E (Pairs k) (Option.Rel A) (onEntry i inner) (onEntry i inner') :=
  echoes_slot h (fun _ => Lazy.access_opens _ _) fun _ => Lazy.access_opens _ _

theorem echoes_onEntryMut (i : Nat) (h : Echoes k E (Entry.Pairs k) A inner inner') :
    Echoes k E (Pairs k) (Option.Rel A) (onEntryMut i inner) (onEntryMut i inner') :=
  echoes_slot h (fun _ => Lazy.accessMut_opens _ _) fun _ => Lazy.accessMut_opens _ _

omit [Std.Refl E] in
private theorem mirrors_onCells {inner : Stamp → Nat → Access σ (Lazy Entry) α}
    {inner' : Stamp → Nat → Access σ (Lazy Entry) β}
    (h : ∀ stamp stamp' i, stamp.Pairs k stamp' →
      Mirrors E (Both (EntryPairs k stamp stamp' i) T) A (inner stamp i) (inner' stamp' i)) :
    Mirrors E (Both (Pairs k) T) (List.Forall₂ A) (onCells inner) (onCells inner') := by
  refine Mirrors.node_within
    (U := fun document document' => Slots.Pointwise (EntryPairs k document.stamp document'.stamp))
    (fun document document' hdocument => Mirrors.accessAll fun i => h _ _ i hdocument.stamp)
    (fun document document' hdocument => hdocument.entries) ?_
  intro document document' slots slots' hdocument hslots
  exact ⟨hdocument.stamp, hslots⟩

theorem echoes_entryList :
    Echoes k E (Pairs k) (List.Forall₂ (Entry.Pairs k)) entryList entryList :=
  mirrors_onCells fun _ _ _ _ =>
    Echoes.opens (Lazy.access_opens _ _) (Lazy.access_opens _ _) Mirrors.node

theorem echoes_loadAll : Echoes k E (Pairs k) Eq loadAll loadAll := by
  refine Mirrors.map (A := List.Forall₂ Eq) (mirrors_onCells fun _ _ _ _ => ?_) fun _ _ _ => rfl
  exact Echoes.opens (Lazy.accessMut_opens _ _) (Lazy.accessMut_opens _ _) Entry.echoes_loadAll

omit [Std.Refl E] in
theorem echoes_text : Echoes k E (Pairs k) Eq text text := by
  have houtline : Echoes k E (Pairs k) (List.Forall₂ Eq) outline outline := by
    refine mirrors_onCells fun stamp stamp' i _ => ?_
    refine Mirrors.bind (Mirrors.attempt (Echoes.opens (E := Eq) (Lazy.access_opens _ _)
      (Lazy.access_opens _ _) Entry.echoes_outline)) ?_
    intro result result' hresult
    cases hresult with
    | ok hfields => exact Mirrors.pure (congrArg _ hfields)
    | error herror => exact Mirrors.pure (congrArg _ herror)
  refine Mirrors.bind houtline fun fields fields' hfields => Mirrors.pure ?_
  rw [List.forall₂_eq_eq_eq] at hfields
  rw [hfields]

theorem echoes_child (field : UInt32) (index : UInt64) :
    Echoes k E (Pairs k) (Option.Rel (Entry.Pairs k)) (child field index) (child field index) := by
  unfold child
  by_cases hfield : field = entriesField
  · rw [if_pos hfield]
    exact echoes_onEntry _ Mirrors.node
  · rw [if_neg hfield]
    exact Mirrors.pure .none

private theorem map_const_eq {γ : Type} {R : α → β → Prop} {found : Option α} {found' : Option β}
    (value : γ) (h : Option.Rel R found found') :
    (found.map fun _ => value) = found'.map fun _ => value := by
  cases h <;> rfl

theorem join_rel {R : α → β → Prop} {found : Option (Option α)} {found' : Option (Option β)}
    (h : Option.Rel (Option.Rel R) found found') : Option.Rel R found.join found'.join := by
  cases h with
  | none => exact .none
  | some hfound => exact hfound

private theorem echoes_nodeChild (node : Node) (field : UInt32) (index : UInt64) :
    Echoes k E (Pairs k) Eq (node.child field index) (node.child field index) := by
  cases node with
  | document =>
    exact Mirrors.bind (echoes_child field index) fun _ _ hfound =>
      Mirrors.pure (map_const_eq _ hfound)
  | entry i =>
    exact Mirrors.bind (echoes_onEntry i (Entry.echoes_child field index)) fun _ _ hfound =>
      Mirrors.pure (map_const_eq _ (join_rel hfound))
  | identification i | secretIdentity i => exact Mirrors.pure rfl

private theorem echoes_nodeIdentity (node : Node) :
    Echoes k E (Pairs k) (Option.Rel (Identity.Pairs k)) node.identity node.identity := by
  cases node with
  | document | entry i => exact Mirrors.pure .none
  | identification i => exact echoes_onEntry i (Entry.echoes_onIdentification Mirrors.node)
  | secretIdentity i =>
    exact Mirrors.bind (echoes_onEntry i (Entry.echoes_onSecretIdentity Mirrors.node))
      fun _ _ hfound =>
      Mirrors.pure (join_rel hfound)

private theorem echoes_walk (steps : List (UInt64 × UInt64)) (node : Node) :
    Echoes k E (Pairs k) Eq (walk Node.child steps node) (walk Node.child steps node) := by
  induction steps generalizing node with
  | nil => exact Mirrors.pure rfl
  | cons step rest ih =>
    unfold walk
    split
    · refine Mirrors.bind (echoes_nodeChild _ _ _) fun found found' hfound => ?_
      subst hfound
      cases found with
      | none => exact Mirrors.pure rfl
      | some next => exact ih next
    · exact Mirrors.pure rfl

theorem echoes_resolveIdentity {ref ref' : NodeRef} (h : ref.Pairs k ref') :
    Echoes k (Error.Pairs k) (Pairs k) (Option.Rel (Identity.Pairs k)) (resolveIdentity ref)
      (resolveIdentity ref') := by
  refine Mirrors.bind Mirrors.node fun document document' hdocument => ?_
  have hsame := hdocument.stamp.root.eq_iff h.root
  unfold resolve ensureSameRoot
  by_cases heq : document.stamp.root = ref.root
  · rw [if_pos heq, if_pos (hsame.1 heq)]
    dsimp only
    rw [Path.steps, Path.steps, h.path_eq]
    refine Mirrors.bind (echoes_walk _ _) fun found found' hfound => ?_
    subst hfound
    cases found with
    | none => exact Mirrors.pure .none
    | some node => exact echoes_nodeIdentity node
  · rw [if_neg heq, if_neg fun heq' => heq (hsame.2 heq')]
    exact Mirrors.throw (.ownership hdocument.stamp.root h.root)

theorem addEntry_pairs {document document' : Document} (h : document.Pairs k document') :
    document.addEntry.1.Pairs k document'.addEntry.1 ∧
    document.addEntry.2.Pairs k document'.addEntry.2 := by
  have hsize : document'.entries.size = document.entries.size := h.entries.size_eq
  have hentry : document.addEntry.1.Pairs k document'.addEntry.1 := by
    simp only [addEntry, hsize]
    exact Entry.pairs_mk (h.stamp.child entriesField document.entries.size.toUInt64)
  refine ⟨hentry, h.stamp, ?_, fun i => ?_⟩
  · simp only [addEntry, Slots.size_insert, hsize]
  · simp only [addEntry, Slots.get?_insert, hsize] at hentry ⊢
    by_cases hi : i = document.entries.size
    · simp only [hi, if_true]
      exact .some (Lazy.pairs_of_peek _ _ _ _ rfl rfl hentry)
    · simp only [hi, if_false]
      exact h.entries.slot i

end Document

private theorem Streams.Pairs.setScratch {streams streams' : Streams} (h : streams.Pairs k streams')
    (stream : Stream) :
    Streams.Pairs k (streams.set .scratch stream) (streams'.set .scratch stream) :=
  ⟨h.holds.set k.scratch stream, h.holds'.set k.scratch stream, h.editions_eq, rfl⟩

namespace Output

/-- Outputs to the scratch stream that have come equally far. -/
structure Pairs (k : Pairing) (output output' : Output) : Prop where
  streams : output.streams.Pairs k output'.streams
  target_eq : output.target = .scratch
  target_eq' : output'.target = .scratch
  position_eq : output'.position = output.position
  sink_eq : output'.sink = output.sink

private theorem mirrors_emit (activity : SinkIO α) :
    Mirrors E (Pairs k) Eq (emit activity) (emit activity) := by
  intro output output' h
  have hstream : output'.streams.get output'.target = output.streams.get output.target := by
    rw [h.target_eq, h.target_eq']
    exact h.streams.scratch_eq
  unfold emit
  dsimp only
  rw [hstream, h.sink_eq, h.position_eq]
  cases activity (output.sink, ⟨output.streams.get output.target, output.position⟩) with
  | ok value state =>
    refine .ok rfl ⟨?_, h.target_eq, h.target_eq', rfl, rfl⟩
    rw [h.target_eq, h.target_eq']
    exact h.streams.setScratch _
  | error error state =>
    refine .error (Std.Refl.refl error) ⟨?_, h.target_eq, h.target_eq', rfl, rfl⟩
    rw [h.target_eq, h.target_eq']
    exact h.streams.setScratch _

variable {ν : Type} {V : ν → ν → Prop}

omit [Std.Refl E] in
private theorem mirrors_loading {access : Access Streams ν α} {access' : Access Streams ν β}
    (h : Echoes k E V A access access') :
    Mirrors E (Both V (Pairs k)) A (loading access) (loading access') := by
  refine Mirrors.around h (fun output output' houtput => houtput.streams) ?_
  intro output output' streams streams' houtput hstreams
  exact ⟨hstreams, houtput.target_eq, houtput.target_eq', houtput.position_eq, houtput.sink_eq⟩

private theorem mirrors_write [Message α] {header header' : α} (h : header' = header) :
    Mirrors E (Both V (Pairs k)) Eq (write header) (write header') := by
  subst h
  exact Mirrors.lift (mirrors_emit _)

end Output

private theorem Entry.Pairs.toHeader_eq {entry entry' : Entry} (h : entry.Pairs k entry')
    (identification : Nat) (secretIdentity : Option Nat) :
    entry'.toHeader identification secretIdentity =
      entry.toHeader identification secretIdentity := by
  have happrover := congrArg (Option.map Path.toDescriptor) (approver_path h.approver)
  have hreviewers := congrArg (List.map Path.toDescriptor) (reviewers_path h.reviewers)
  rw [Option.map_map, Option.map_map] at happrover
  rw [List.map_map, List.map_map] at hreviewers
  have hdescriptor : NodeRef.descriptor = Path.toDescriptor ∘ NodeRef.path := rfl
  rw [Entry.toHeader, Entry.toHeader, hdescriptor, happrover, hreviewers]

private theorem Entry.mirrors_save :
    Mirrors E (Both (Entry.Pairs k) (Output.Pairs k)) Eq Entry.save Entry.save := by
  refine Mirrors.bind (Output.mirrors_loading (Entry.echoes_onIdentification Mirrors.node)) ?_
  intro identity identity' hidentity
  refine Mirrors.bind (Output.mirrors_write hidentity.header_eq) ?_
  intro identification identification' hidentification
  subst hidentification
  refine Mirrors.bind (Output.mirrors_loading (Entry.echoes_onSecretIdentity Mirrors.node)) ?_
  intro secret secret' hsecret
  have hwrite : Mirrors E (Both (Entry.Pairs k) (Output.Pairs k)) Eq
      (secret.mapM fun identity => Output.write identity.header : Access Output Entry (Option Nat))
      (secret'.mapM fun identity => Output.write identity.header) := by
    cases hsecret with
    | none => exact Mirrors.pure rfl
    | some hidentity =>
      exact Mirrors.map (Output.mirrors_write hidentity.header_eq) fun _ _ heq => congrArg some heq
  refine Mirrors.bind hwrite ?_
  intro secretIdentity secretIdentity' hsecretIdentity
  subst hsecretIdentity
  refine Mirrors.bind Mirrors.node fun entry entry' hentry => ?_
  exact Output.mirrors_write (hentry.toHeader_eq identification secretIdentity)

namespace Document

private theorem mirrors_saveAll :
    Mirrors E (Both (Pairs k) (Output.Pairs k)) Eq saveAll saveAll := by
  have hentries : Mirrors E (Both (Pairs k) (Output.Pairs k))
    (List.Forall₂ Eq) saveEntries saveEntries := by
    rw [saveEntries_eq]
    refine mirrors_onCells fun stamp stamp' i _ => ?_
    refine Mirrors.opens (Lazy.access_opens _ _) (Lazy.access_opens _ _) ?_ Lazy.pairs_of_peek
      Entry.mirrors_save
    rintro cell cell' ⟨result, result', hsettles, hsettles', hresult⟩ output output' houtput
    have hfetch := Settles.mirrors (E := E) hsettles hsettles' hresult _ _ houtput.streams
    rw [Lazy.fetch_widen fun _ => rfl, Lazy.fetch_widen fun _ => rfl]
    refine hfetch.mapState fun streams streams' hstreams => ?_
    exact ⟨hstreams, houtput.target_eq, houtput.target_eq', houtput.position_eq, houtput.sink_eq⟩
  refine Mirrors.bind hentries fun positions positions' hpositions => ?_
  rw [List.forall₂_eq_eq_eq] at hpositions
  subst hpositions
  exact Mirrors.lift (Output.mirrors_emit _)

private theorem echoes_save (codec : Codec) (position : Nat) :
    Echoes k E (Pairs k) Eq (save codec .scratch position) (save codec .scratch position) := by
  rintro ⟨document, streams⟩ ⟨document', streams'⟩ ⟨hdocument, hstreams⟩
  have hstream : streams'.get .scratch = streams.get .scratch := hstreams.scratch_eq
  unfold save
  dsimp only
  rw [hstream]
  cases Sink.atEnd codec ⟨streams.get .scratch, position⟩ with
  | error error handle =>
    exact .error (Std.Refl.refl error) ⟨hdocument, hstreams.setScratch _⟩
  | ok sink handle =>
    have houtput : Output.Pairs k
      ⟨streams.set .scratch handle.stream, .scratch, handle.position, sink⟩
        ⟨streams'.set .scratch handle.stream, .scratch, handle.position, sink⟩ :=
      ⟨hstreams.setScratch _, rfl, rfl, rfl, rfl⟩
    have hsave := mirrors_saveAll (E := E) (document, _) (document', _) ⟨hdocument, houtput⟩
    dsimp only at hsave ⊢
    generalize saveAll (document, _) = result at hsave ⊢
    generalize saveAll (document', _) = result' at hsave ⊢
    cases hsave with
    | ok hsize hafter => exact .ok hsize ⟨hafter.1, hafter.2.streams⟩
    | error herror hafter => exact .error herror ⟨hafter.1, hafter.2.streams⟩

theorem echoes_saveToBytes (codec : Codec) :
    Echoes k E (Pairs k) Eq (saveToBytes codec) (saveToBytes codec) := by
  rintro ⟨document, streams⟩ ⟨document', streams'⟩ ⟨hdocument, hstreams⟩
  have hclear : Streams.Pairs k { streams with scratch := {} } { streams' with scratch := {} } :=
    hstreams.setScratch {}
  have hsave := echoes_save (E := E) codec 0 (document, { streams with scratch := {} })
    (document', { streams' with scratch := {} }) ⟨hdocument, hclear⟩
  unfold saveToBytes
  dsimp only
  generalize save codec .scratch 0 (document, _) = result at hsave ⊢
  generalize save codec .scratch 0 (document', _) = result' at hsave ⊢
  cases hsave with
  | ok hsize hafter =>
    exact .ok (congrArg Stream.bytes hafter.2.scratch_eq.symm) ⟨hafter.1, hafter.2.setScratch {}⟩
  | error herror hafter => exact .error herror ⟨hafter.1, hafter.2.setScratch {}⟩

end Document
end FramedTree
