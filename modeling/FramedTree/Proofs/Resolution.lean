import FramedTree.Proofs.Saving
import FramedTree.Proofs.SingleOwner

/-! # What references lead to

The steps of a path name a node of a document, whether or not the document has it. Following a
reference leads to the node that its steps name or to nothing, and what it gives carries the stamp
of that node. In a document that shows some contents, following a reference gives what the contents
hold in its place.
-/

namespace FramedTree

variable {α : Type} {library : Library}

namespace Path

private theorem pairs_append_single {coordinates : List UInt64} (h : coordinates.length % 2 = 0)
    (leftover : UInt64) :
    pairs (coordinates ++ [leftover]) = pairs coordinates := by
  induction coordinates using pairs.induct with
  | case1 field index rest ih =>
    simp only [List.length_cons] at h
    simp only [List.cons_append, pairs]
    rw [ih (by omega)]
  | case2 rest hrest =>
    match rest, hrest with
    | [], _ => rfl
    | [_], _ => simp at h
    | field :: index :: rest, hrest => exact (hrest field index rest rfl).elim

private theorem pairs_eq_two {coordinates : List UInt64} {first second : UInt64 × UInt64}
    (h : pairs coordinates = [first, second]) :
    ∃ leftover, coordinates = [first.1, first.2, second.1, second.2] ++ leftover ∧
      leftover.length ≤ 1 := by
  match coordinates, h with
  | field :: index :: field' :: index' :: leftover, h =>
    simp only [pairs, List.cons.injEq] at h
    obtain ⟨rfl, rfl, hleft⟩ := h
    refine ⟨leftover, rfl, ?_⟩
    match leftover, hleft with
    | [], _ => simp
    | [_], _ => simp
  | [], h => simp [pairs] at h
  | [_], h => simp [pairs] at h
  | [_, _], h => simp [pairs] at h
  | [_, _, _], h => simp [pairs] at h

end Path

private theorem Entry.gives_child {content : EntryContent} (field : UInt32) (index : UInt64) :
    Gives library (Entry.Shows library · content) (Entry.child field index) fun found entry =>
      found.map Identity.header =
        (if field = Entry.identificationField then some content.identification
        else if field = Entry.secretIdentityField then content.secretIdentity else none) ∧
        entry.Shows library content := by
  unfold Entry.child
  by_cases hfirst : field = Entry.identificationField
  · simp only [if_pos hfirst]
    refine Gives.bind Entry.gives_onIdentification fun identity => Gives.of_and fun hidentity =>
      Gives.pure ?_
    intro entry hentry
    exact ⟨congrArg some hidentity, hentry⟩
  · simp only [if_neg hfirst]
    by_cases hsecond : field = Entry.secretIdentityField
    · simp only [if_pos hsecond]
      exact Entry.gives_onSecretIdentity
    · simp only [if_neg hsecond]
      exact Gives.pure fun _ hentry => ⟨rfl, hentry⟩

namespace Document

/-- The node that a step leads to, whether or not the document has it. -/
def Node.next (node : Node) (field : UInt32) (index : UInt64) : Option Node :=
  match node with
  | .document => if field = entriesField then some (.entry index.toNat) else none
  | .entry i =>
    if field = Entry.identificationField then some (.identification i)
    else if field = Entry.secretIdentityField then some (.secretIdentity i)
    else none
  | .identification _ | .secretIdentity _ => none

/-- The node that steps lead to, whether or not the document has it. -/
def Node.follow (steps : List (UInt64 × UInt64)) (node : Node) : Option Node :=
  walk (m := Id) Node.next steps node

theorem Node.follow_cons (field index : UInt64) (rest : List (UInt64 × UInt64)) (node : Node) :
    follow ((field, index) :: rest) node =
      if field.toNat < UInt32.size then (node.next field.toUInt32 index).bind (follow rest)
        else none := by
  simp only [follow, walk]
  split
  · cases node.next field.toUInt32 index <;> rfl
  · rfl

private theorem toUInt32_eq_iff {field : UInt64} (h : field.toNat < UInt32.size) (number : UInt32) :
    field.toUInt32 = number ↔ field = number.toUInt64 := by
  rw [← UInt32.toNat_inj, ← UInt64.toNat_inj, UInt64.toNat_toUInt32, UInt32.toNat_toUInt64]
  simp only [UInt32.size] at h
  omega

private theorem Node.follow_leaf {steps : List (UInt64 × UInt64)} {node found : Node}
    (hleaf : ∀ field index, node.next field index = none) (h : node.follow steps = some found) :
    steps = [] ∧ node = found := by
  cases steps with
  | nil => exact ⟨rfl, Option.some.inj h⟩
  | cons step rest =>
    rw [follow_cons, hleaf] at h
    split at h <;> cases h

private theorem Node.follow_entry {steps : List (UInt64 × UInt64)} {i : Nat} {node : Node}
    (h : (Node.entry i).follow steps = some node) (hentry : node ≠ .entry i) :
    ∃ field index, steps = [(field, index)] ∧
      (field = 1 ∧ node = .identification i ∨ field = 2 ∧ node = .secretIdentity i) := by
  cases steps with
  | nil =>
    cases h
    exact absurd rfl hentry
  | cons step rest =>
    obtain ⟨field, index⟩ := step
    rw [follow_cons] at h
    by_cases hsize : field.toNat < UInt32.size
    · rw [if_pos hsize, next] at h
      simp only [toUInt32_eq_iff hsize] at h
      by_cases hone : field = Entry.identificationField.toUInt64
      · rw [if_pos hone, Option.bind_some] at h
        obtain ⟨rfl, rfl⟩ := follow_leaf (fun _ _ => rfl) h
        exact ⟨field, index, rfl, .inl ⟨hone, rfl⟩⟩
      · rw [if_neg hone] at h
        by_cases htwo : field = Entry.secretIdentityField.toUInt64
        · rw [if_pos htwo, Option.bind_some] at h
          obtain ⟨rfl, rfl⟩ := follow_leaf (fun _ _ => rfl) h
          exact ⟨field, index, rfl, .inr ⟨htwo, rfl⟩⟩
        · rw [if_neg htwo] at h
          cases h
    · rw [if_neg hsize] at h
      cases h

private theorem Node.follow_document {step : UInt64 × UInt64} {rest : List (UInt64 × UInt64)}
    {node : Node} (h : Node.document.follow (step :: rest) = some node) :
    step.1 = 1 ∧ (Node.entry step.2.toNat).follow rest = some node := by
  obtain ⟨field, i⟩ := step
  rw [follow_cons] at h
  by_cases hsize : field.toNat < UInt32.size
  · rw [if_pos hsize, next] at h
    simp only [toUInt32_eq_iff hsize] at h
    by_cases hone : field = entriesField.toUInt64
    · rw [if_pos hone, Option.bind_some] at h
      exact ⟨hone, h⟩
    · rw [if_neg hone] at h
      cases h
  · rw [if_neg hsize] at h
    cases h

section Following

variable {document document' : Document} {streams streams' : Streams} {node found : Node}

theorem onEntry_ok {i : Nat} {inner : Access Streams Entry α} {value : α}
    (h : onEntry i inner (document, streams) = .ok (some value) (document', streams')) :
    ∃ entry between entry', inner (entry, between) = .ok value (entry', streams') ∧
      document'.entryAt? i = some entry' := by
  rw [onEntry, Access.node_bind_apply, Access.within_apply] at h
  obtain ⟨⟨slots, after⟩, haccess, hstate⟩ := mapState_eq_ok h
  cases hstate
  cases hslot : document.entries.get? i with
  | none =>
    rw [Slots.access_apply_none hslot] at haccess
    cases haccess
  | some cell =>
    rw [Slots.access_apply_some hslot] at haccess
    obtain ⟨⟨later, between⟩, hcell, hslots⟩ := mapState_eq_ok haccess
    cases hslots
    rw [map_apply] at hcell
    have hopens := Lazy.access_opens (loadEntry document.stamp i) inner
    cases hfetch : cell.fetch (loadEntry document.stamp i) streams with
    | error error after =>
      rw [hopens.failed hfetch] at hcell
      cases hcell
    | ok entry after =>
      -- The cell is filled before the work begins, and keeps what the work leaves.
      obtain ⟨kept, -, hrun⟩ := hopens.fetched hfetch
      rw [hrun] at hcell
      cases hinner : inner (entry, after) with
      | error error state =>
        rw [hinner] at hcell
        cases hcell
      | ok result state =>
        rw [hinner] at hcell
        cases hcell
        refine ⟨entry, after, state.1, hinner, ?_⟩
        simp [entryAt?, Slots.get?_modify, hslot]

theorem Node.child_ok {field : UInt32} {index : UInt64}
    (h : node.child field index (document, streams) = .ok (some found) (document', streams')) :
    node.next field index = some found := by
  cases node with
  | document =>
    obtain ⟨entry, between, hchild, hpure⟩ := bind_ok h
    rw [Document.child] at hchild
    by_cases hfield : field = entriesField
    · rw [next, if_pos hfield]
      cases entry <;> cases hpure
      rfl
    · rw [if_neg hfield] at hchild
      cases hchild
      cases hpure
  | entry i =>
    obtain ⟨identity, between, hchild, hpure⟩ := bind_ok h
    cases hidentity : identity.join with
    | none =>
      rw [hidentity] at hpure
      cases hpure
    | some value =>
      obtain rfl := Option.join_eq_some_iff.1 hidentity
      obtain ⟨entry, before, entry', hinner, -⟩ := onEntry_ok hchild
      rw [next]
      by_cases hfirst : field = Entry.identificationField
      · rw [if_pos hfirst]
        cases hpure
        rw [if_pos hfirst]
      · rw [if_neg hfirst]
        by_cases hsecond : field = Entry.secretIdentityField
        · rw [if_pos hsecond]
          cases hpure
          rw [if_neg hfirst]
        · rw [Entry.child, if_neg hfirst, if_neg hsecond] at hinner
          cases hinner
  | identification i | secretIdentity i => cases h

/-- A walk that leads somewhere leads to the node that its steps name. -/
theorem walk_ok {steps : List (UInt64 × UInt64)}
    (h : walk Node.child steps node (document, streams) = .ok (some found) (document', streams')) :
    node.follow steps = some found := by
  -- What is loaded on the way changes the document, but not which node a step names.
  induction steps generalizing node document streams with
  | nil =>
    cases h
    rfl
  | cons step rest ih =>
    obtain ⟨field, index⟩ := step
    rw [Node.follow_cons]
    unfold walk at h
    by_cases hfield : field.toNat < UInt32.size
    · rw [if_pos hfield] at h ⊢
      obtain ⟨next, ⟨between, around⟩, hchild, hwalk⟩ := bind_ok h
      cases next with
      | none => cases hwalk
      | some next =>
        rw [Node.child_ok hchild, Option.bind_some]
        exact ih hwalk
    · rw [if_neg hfield] at h
      cases h

/-- The identity in the place of a node, if it has been loaded. -/
def identityAt? (document : Document) : Node → Option Identity
  | .document | .entry _ => none
  | .identification i => (document.entryAt? i).bind fun entry => entry.identification.peek
  | .secretIdentity i => (document.entryAt? i).bind Entry.loadedSecret?

theorem stampOf_of_identityAt? {identity : Identity}
    (h : document.identityAt? node = some identity) :
    document.stampOf node = some identity.stamp := by
  cases node with
  | document | entry i => cases h
  | identification i | secretIdentity i =>
    obtain ⟨entry, hentry, hidentity⟩ := Option.bind_eq_some_iff.1 h
    simp [stampOf, hentry, hidentity]

theorem Node.identity_ok {identity : Identity}
    (h : node.identity (document, streams) = .ok (some identity) (document', streams')) :
    document'.identityAt? node = some identity := by
  cases node with
  | document | entry i => cases h
  | identification i =>
    obtain ⟨entry, between, entry', hinner, hentry⟩ := onEntry_ok h
    obtain ⟨-, cell, hpeek, rfl⟩ := Entry.onIdentification_ok hinner
    rw [identityAt?, hentry, Option.bind_some]
    exact hpeek
  | secretIdentity i =>
    obtain ⟨found, state, hfound, hpure⟩ := bind_ok h
    cases found with
    | none => cases hpure
    | some secret =>
      cases hpure
      obtain ⟨entry, between, entry', hinner, hentry⟩ := onEntry_ok hfound
      obtain ⟨-, slots, hslots, rfl⟩ := Entry.onSecretIdentity_ok hinner
      rw [identityAt?, hentry, Option.bind_some, Entry.loadedSecret?]
      dsimp only
      generalize slots.get? Entry.singular = cell at hslots
      cases hslots with
      | some hpeek => exact hpeek

theorem resolveIdentity_apply {ref : NodeRef} (hroot : ref.root = document.stamp.root) :
    resolveIdentity ref (document, streams) =
      (walk Node.child ref.path.steps .document >>=
        fun found => found.elim (pure none) Node.identity)
        (document, streams) := by
  rw [resolveIdentity, Access.node_bind_apply, resolve, ensureSameRoot, if_pos hroot.symm]
  simp only [bind_apply]
  cases walk Node.child ref.path.steps .document (document, streams) with
  | error error state => rfl
  | ok found state => cases found <;> rfl

/-- What a reference leads to stands where its steps lead. -/
theorem resolveIdentity_ok {ref : NodeRef} {identity : Identity}
    (hroot : ref.root = document.stamp.root)
    (h : resolveIdentity ref (document, streams) = .ok (some identity) (document', streams')) :
    ∃ node, Node.document.follow ref.path.steps = some node ∧
      document'.identityAt? node = some identity := by
  rw [resolveIdentity_apply hroot] at h
  obtain ⟨found, ⟨between, around⟩, hwalk, hidentity⟩ := bind_ok h
  cases found with
  | none => cases hidentity
  | some node => exact ⟨node, walk_ok hwalk, Node.identity_ok hidentity⟩

end Following

section Contents

variable {contents : List EntryContent} {content : EntryContent}

def Node.headerIn (contents : List EntryContent) : Node → Option IdentityHeader
  | .document | .entry _ => none
  | .identification i => contents[i]?.map EntryContent.identification
  | .secretIdentity i => contents[i]?.bind EntryContent.secretIdentity

private theorem Node.index_lt_of_headerIn {node : Node} {header : IdentityHeader}
    (h : headerIn contents node = some header) : node.index < contents.length := by
  cases node with
  | document | entry i => cases h
  | identification i =>
    obtain ⟨content, hcontent, -⟩ := Option.map_eq_some_iff.1 h
    exact (List.getElem?_eq_some_iff.1 hcontent).1
  | secretIdentity i =>
    obtain ⟨content, hcontent, -⟩ := Option.bind_eq_some_iff.1 h
    exact (List.getElem?_eq_some_iff.1 hcontent).1

private theorem Node.headerIn_follow_leaf {node : Node}
    (hleaf : ∀ field index, node.next field index = none) (h : headerIn contents node = none)
    (steps : List (UInt64 × UInt64)) :
    (node.follow steps).bind (headerIn contents) = none := by
  cases hfollow : node.follow steps with
  | none => rfl
  | some found =>
    obtain ⟨-, rfl⟩ := follow_leaf hleaf hfollow
    exact h

private theorem Node.headerIn_follow_entry {i : Nat} (h : contents[i]? = none)
    (steps : List (UInt64 × UInt64)) :
    ((Node.entry i).follow steps).bind (headerIn contents) = none := by
  cases hfollow : (Node.entry i).follow steps with
  | none => rfl
  | some node =>
    by_cases hentry : node = .entry i
    · simp [hentry, headerIn]
    · obtain ⟨field, index, -, ⟨-, rfl⟩ | ⟨-, rfl⟩⟩ :=
        follow_entry hfollow hentry <;> simp [headerIn, h]

/-- A look into an entry finds the content with its number, if there is one. -/
theorem gives_onEntry_rel {A : EntryContent → α → Prop} {i : Nat} {access : Access Streams Entry α}
    (h : ∀ content, Gives library (Entry.Shows library · content) access fun result entry =>
      A content result ∧ entry.Shows library content) :
    Gives library (Shows library · contents) (onEntry i access) fun result document =>
      Option.Rel A contents[i]? result ∧ document.Shows library contents := by
  cases hcontent : contents[i]? with
  | some content =>
    apply Gives.mono (gives_onEntry hcontent (h content))
    rintro _ document ⟨⟨value, rfl, hvalue⟩, hdocument⟩
    exact ⟨.some hvalue, hdocument⟩
  | none =>
    intro document streams hdocument hstreams
    have hslot : document.entries.get? i = none := by
      cases hget : document.entries.get? i with
      | none => rfl
      | some cell =>
        obtain ⟨item, hitem, -⟩ := Slots.Lists.get? hdocument hget
        rw [hcontent] at hitem
        cases hitem
    refine ⟨none, document, streams, ?_, ⟨.none, hdocument⟩, Streams.follows_refl hstreams⟩
    rw [onEntry, Access.node_bind_apply, Access.within_apply, Slots.access_apply_none hslot]
    rfl

/-- A step has led to the node there, or to nothing, when no identity lies that way. -/
private def Node.LedTo (contents : List EntryContent) (node : Node) (field : UInt32)
    (index : UInt64) (found : Option Node) : Prop :=
  found = node.next field index ∨ found = none ∧
    ∀ steps, ((node.next field index).bind (Node.follow steps)).bind (Node.headerIn contents) = none

private theorem gives_documentChild (field : UInt32) (index : UInt64) :
    Gives library (Shows library · contents) (Node.document.child field index)
      fun found document =>
        Node.document.LedTo contents field index found ∧ document.Shows library contents := by
  unfold Node.child Document.child Node.LedTo
  simp only [Node.next]
  by_cases hfield : field = entriesField
  · simp only [if_pos hfield]
    have hnode (content : EntryContent) :
      Gives library (Entry.Shows library · content) Access.node
        fun _ entry => True ∧ entry.Shows library content :=
      Gives.mono Gives.node fun _ _ hentry => ⟨trivial, hentry.2⟩
    refine Gives.bind (gives_onEntry_rel hnode) fun found => Gives.of_and fun hfound =>
      Gives.pure fun document hdocument => ⟨?_, hdocument⟩
    cases hcontent : contents[index.toNat]? with
    | none =>
      rw [hcontent] at hfound
      cases hfound
      exact .inr ⟨rfl, Node.headerIn_follow_entry hcontent⟩
    | some content =>
      rw [hcontent] at hfound
      cases hfound
      exact .inl rfl
  · simp only [if_neg hfield]
    exact Gives.pure fun _ hdocument => ⟨.inl rfl, hdocument⟩

/-- Nothing lies behind an entry that is not there. -/
private theorem Node.headerIn_next_missing {i : Nat} (h : contents[i]? = none) (field : UInt32)
    (index : UInt64) (steps : List (UInt64 × UInt64)) :
    (((Node.entry i).next field index).bind (Node.follow steps)).bind
      (Node.headerIn contents) = none := by
  simp only [Node.next]
  split
  · exact @Node.headerIn_follow_leaf contents (.identification i) (fun _ _ => rfl)
      (by simp [Node.headerIn, h]) steps
  · split
    · exact @Node.headerIn_follow_leaf contents (.secretIdentity i) (fun _ _ => rfl)
        (by simp [Node.headerIn, h]) steps
    · rfl

private theorem gives_entryChild (i : Nat) (field : UInt32) (index : UInt64) :
    Gives library (Shows library · contents) ((Node.entry i).child field index)
      fun found document =>
        (Node.entry i).LedTo contents field index found ∧ document.Shows library contents := by
  refine Gives.bind (gives_onEntry_rel fun _ => Entry.gives_child field index) fun found =>
    Gives.of_and fun hfound => Gives.pure fun document hdocument => ⟨?_, hdocument⟩
  cases hcontent : contents[i]? with
  | none =>
    rw [hcontent] at hfound
    cases hfound
    exact .inr ⟨rfl, Node.headerIn_next_missing hcontent field index⟩
  | some content =>
    have hsecret := @Node.headerIn_follow_leaf contents (.secretIdentity i) fun _ _ => rfl
    simp only [Node.headerIn] at hsecret
    rw [hcontent] at hfound hsecret
    unfold Node.LedTo
    simp only [Node.next]
    cases hfound with
    | @some _ identity hheader =>
      by_cases hfirst : field = Entry.identificationField
      · simp only [if_pos hfirst] at hheader ⊢
        cases identity with
        | none => cases hheader
        | some identity => exact .inl rfl
      · simp only [if_neg hfirst] at hheader ⊢
        by_cases hsecond : field = Entry.secretIdentityField
        · simp only [if_pos hsecond] at hheader ⊢
          cases identity with
          | none => exact .inr ⟨rfl, hsecret hheader.symm⟩
          | some identity => exact .inl rfl
        · simp only [if_neg hsecond] at hheader ⊢
          cases identity with
          | none => exact .inl rfl
          | some identity => cases hheader

private theorem gives_nodeChild (node : Node) (field : UInt32) (index : UInt64) :
    Gives library (Shows library · contents) (node.child field index) fun found document =>
      node.LedTo contents field index found ∧ document.Shows library contents := by
  cases node with
  | document => exact gives_documentChild field index
  | entry i => exact gives_entryChild i field index
  | identification i | secretIdentity i => exact Gives.pure fun _ hdocument => ⟨.inl rfl, hdocument⟩

private theorem gives_walk (steps : List (UInt64 × UInt64)) (node : Node) :
    Gives library (Shows library · contents) (walk Node.child steps node) fun found document =>
      found.bind (Node.headerIn contents) = (node.follow steps).bind (Node.headerIn contents) ∧
        document.Shows library contents := by
  induction steps generalizing node with
  | nil => exact Gives.pure fun _ hdocument => ⟨rfl, hdocument⟩
  | cons step rest ih =>
    obtain ⟨field, index⟩ := step
    unfold walk
    rw [Node.follow_cons]
    by_cases hfield : field.toNat < UInt32.size
    · rw [if_pos hfield, if_pos hfield]
      refine Gives.bind (gives_nodeChild node field.toUInt32 index) fun found => Gives.of_and ?_
      rintro (rfl | ⟨rfl, hnothing⟩)
      · cases node.next field.toUInt32 index with
        | none => exact Gives.pure fun _ hdocument => ⟨rfl, hdocument⟩
        | some next => exact ih next
      · rw [hnothing rest]
        exact Gives.pure fun _ hdocument => ⟨rfl, hdocument⟩
    · rw [if_neg hfield, if_neg hfield]
      exact Gives.pure fun _ hdocument => ⟨rfl, hdocument⟩

theorem gives_nodeIdentity (node : Node) :
    Gives library (Shows library · contents) node.identity fun found document =>
      found.map Identity.header = Node.headerIn contents node ∧
        document.Shows library contents := by
  cases node with
  | document | entry i => exact Gives.pure fun _ hdocument => ⟨rfl, hdocument⟩
  | identification i =>
    apply Gives.mono (gives_onEntry_rel fun _ => Entry.gives_onIdentification)
    intro found document hdocument
    refine ⟨?_, hdocument.2⟩
    have hfound := hdocument.1
    rw [Node.headerIn]
    generalize contents[i]? = content at hfound ⊢
    cases hfound with
    | none => rfl
    | some hheader => exact congrArg some hheader
  | secretIdentity i =>
    refine Gives.bind (gives_onEntry_rel fun _ => Entry.gives_onSecretIdentity) fun found =>
      Gives.of_and fun hfound => Gives.pure fun document hdocument => ⟨?_, hdocument⟩
    rw [Node.headerIn]
    generalize contents[i]? = content at hfound ⊢
    cases hfound with
    | none => rfl
    | some hheader => exact hheader

/-- In a document that shows some contents, a reference within the tree gives what the contents hold
where its steps lead. -/
theorem gives_resolveIdentity (ref : NodeRef) :
    Gives library (fun document => ref.root = document.stamp.root ∧ document.Shows library contents)
      (resolveIdentity ref) fun found document =>
        found.map Identity.header =
          (Node.document.follow ref.path.steps).bind (Node.headerIn contents) ∧
          document.Shows library contents := by
  intro document streams hdocument hstreams
  rw [resolveIdentity_apply hdocument.1]
  refine Gives.bind (gives_walk _ _) (fun found => Gives.of_and fun hfound => ?_) document streams
    hdocument.2 hstreams
  cases found with
  | none => exact Gives.pure fun _ hdocument => ⟨hfound, hdocument⟩
  | some node =>
    rw [← hfound]
    exact gives_nodeIdentity node

end Contents
end Document

/-- The whole steps of the coordinates lead through the entry with number `i` of a document with
`count` entries to the place of its identity under `field`. -/
def Leads (count : Nat) (coordinates : List UInt64) (i field : UInt64) : Prop :=
  i.toNat < count ∧ (field = 1 ∨ field = 2) ∧
    ∃ index leftover, coordinates = [1, i, field, index] ++ leftover ∧ leftover.length ≤ 1

namespace Document

variable {document document' : Document} {streams streams' : Streams} {coordinates : List UInt64}

private theorem coordinates_of_follow {node : Node}
    (h : Node.document.follow (Path.pairs coordinates) = some node) (hdocument : node ≠ .document)
    (hentry : ∀ i, node ≠ .entry i) :
    ∃ i field : UInt64, (field = 1 ∨ field = 2) ∧ node.location = ⟨[1, i, field, 0]⟩ ∧
      node.index = i.toNat ∧
      ∃ index leftover, coordinates = [1, i, field, index] ++ leftover ∧ leftover.length ≤ 1 := by
  cases hsteps : Path.pairs coordinates with
  | nil =>
    rw [hsteps] at h
    cases h
    exact absurd rfl hdocument
  | cons step rest =>
    rw [hsteps] at h
    obtain ⟨hone, hfollow⟩ := Node.follow_document h
    obtain ⟨field, index, rfl, hnode⟩ := Node.follow_entry hfollow (hentry _)
    obtain ⟨leftover, hcoordinates, hleftover⟩ := Path.pairs_eq_two hsteps
    rw [hone] at hcoordinates
    have hi : step.2.toNat.toUInt64 = step.2 := UInt64.ofNat_toNat
    rcases hnode with ⟨rfl, rfl⟩ | ⟨rfl, rfl⟩
    · exact ⟨step.2, 1, .inl rfl,
        by rw [Node.location, hi], rfl, index, leftover, hcoordinates, hleftover⟩
    · exact ⟨step.2, 2, .inr rfl,
        by rw [Node.location, hi], rfl, index, leftover, hcoordinates, hleftover⟩

private theorem Node.child_document_none {field : UInt32} {index : UInt64}
    (h : field = entriesField → document.entryCount ≤ index.toNat) :
    Node.child .document field index (document, streams) = .ok none (document, streams) := by
  unfold Node.child Document.child
  by_cases hfield : field = entriesField
  · have hpast : document.entries.get? index.toNat = none :=
      Slots.get?_eq_none_of_size_le (h hfield)
    simp only [if_pos hfield]
    rw [bind_apply, onEntry, Access.node_bind_apply, Access.within_apply,
      Slots.access_apply_none hpast]
    rfl
  · simp only [if_neg hfield]
    rfl

private theorem resolveIdentity_leftover {ref : NodeRef} (hroot : ref.root = document.stamp.root)
    (heven : ref.path.coordinates.length % 2 = 0) (leftover : UInt64) :
    resolveIdentity ⟨ref.root, ⟨ref.path.coordinates ++ [leftover]⟩⟩ (document, streams) =
      resolveIdentity ref (document, streams) := by
  have hsteps : Path.steps ⟨ref.path.coordinates ++ [leftover]⟩ = ref.path.steps :=
    Path.pairs_append_single heven leftover
  rw [resolveIdentity_apply hroot, ← hsteps]
  exact resolveIdentity_apply hroot

private theorem resolveIdentity_astray {ref : NodeRef} (hroot : ref.root = document.stamp.root)
    (h : ∀ i : UInt64, i.toNat < document.entryCount → ¬ [1, i] <+: ref.path.coordinates) :
    resolveIdentity ref (document, streams) = .ok none (document, streams) := by
  rw [resolveIdentity_apply hroot, Path.steps]
  match hcoordinates : ref.path.coordinates with
  | [] => rfl
  | [_] => rfl
  | field :: index :: rest =>
    simp only [Path.pairs]
    unfold walk
    by_cases hsize : field.toNat < UInt32.size
    · have hchild : Node.child .document field.toUInt32 index (document, streams) =
          .ok none (document, streams) := by
        apply Node.child_document_none
        intro hone
        apply Nat.le_of_not_lt
        intro hlt
        apply h index hlt
        rw [hcoordinates, (toUInt32_eq_iff hsize entriesField).1 hone]
        exact ⟨rest, rfl⟩
      rw [if_pos hsize, bind_apply, bind_apply, hchild]
      rfl
    · rw [if_neg hsize]
      rfl

private theorem resolveIdentity_stamp {ref : NodeRef} {identity : Identity}
    (hintact : document.Intact) (hroot : ref.root = document.stamp.root)
    (h : resolveIdentity ref (document, streams) = .ok (some identity) (document', streams')) :
    ∃ i field, Leads document.entryCount ref.path.coordinates i field ∧
      identity.stamp = ⟨document.stamp.root, ⟨[1, i, field, 0]⟩⟩ := by
  have hgrows := keeps_resolveIdentity ref (document, streams)
  rw [h] at hgrows
  obtain ⟨node, hfollow, hidentity⟩ := resolveIdentity_ok hroot h
  have hstamp := (hgrows.intact hintact).stampOf_eq (stampOf_of_identityAt? hidentity)
  obtain ⟨i, field, hfield, hlocation, -, index, leftover, hcoordinates, hleftover⟩ :=
    coordinates_of_follow hfollow (by rintro rfl; cases hidentity)
      (by rintro i rfl; cases hidentity)
  refine ⟨i, field, ⟨?_, hfield, index, leftover, hcoordinates, hleftover⟩, ?_⟩
  · -- An entry that is not there would have led to nothing.
    by_contra hpast
    have hnone : resolveIdentity ref (document, streams) = .ok none (document, streams) := by
      apply resolveIdentity_astray hroot
      intro j hj hprefix
      rw [hcoordinates] at hprefix
      obtain ⟨rest, hrest⟩ := hprefix
      obtain ⟨-, rfl, -⟩ : (1 : UInt64) = 1 ∧ j = i ∧ _ := by simpa using hrest
      exact hpast hj
    rw [h] at hnone
    cases hnone
  · rw [hstamp, hlocation, hgrows.stamp_eq]

private theorem resolveIdentity_nowhere {library : Library} {contents : List EntryContent}
    {ref : NodeRef} (hroot : ref.root = document.stamp.root)
    (hshows : document.Shows library contents) (hstreams : streams.Holds library)
    (h : ∀ i field, ¬ Leads document.entryCount ref.path.coordinates i field) :
    ∃ after, resolveIdentity ref (document, streams) = .ok none after := by
  obtain ⟨found, after, streams', hrun, ⟨hfound, -⟩, -⟩ :=
    gives_resolveIdentity ref document streams ⟨hroot, hshows⟩ hstreams
  refine ⟨(after, streams'), ?_⟩
  suffices hnone : (Node.document.follow ref.path.steps).bind (Node.headerIn contents) = none by
    rw [hnone, Option.map_eq_none_iff] at hfound
    rw [hrun, hfound]
  by_contra hsome
  obtain ⟨header, hheader⟩ := Option.ne_none_iff_exists'.1 hsome
  obtain ⟨node, hfollow, hheader⟩ := Option.bind_eq_some_iff.1 hheader
  obtain ⟨i, field, hfield, -, hi, hcoordinates⟩ :=
    coordinates_of_follow hfollow (by rintro rfl; cases hheader) (by rintro i rfl; cases hheader)
  have hindex := Node.index_lt_of_headerIn hheader
  rw [hi, ← hshows.size_eq] at hindex
  exact h i field ⟨hindex, hfield, hcoordinates⟩

end Document

namespace Workspace

/-- Whatever a document went through, a reference of its tree leads only to the identity whose place
its whole steps name. Coordinates whose first step leads to no entry give nothing and load nothing,
a coordinate that is left over makes no difference, and if all children can be loaded, coordinates
that name no place of an identity give nothing. -/
theorem resolve_names_place {ops : List Op} {name : String} {document : Document} {ref : NodeRef}
    (hdocument : (run ops {}).2.documents.find? name = some document)
    (hroot : ref.root = document.stamp.root) (streams : Streams) :
    (∀ identity after, Document.resolveIdentity ref (document, streams) =
      .ok (some identity) after →
      ∃ i field, Leads document.entryCount ref.path.coordinates i field ∧
        identity.stamp = ⟨document.stamp.root, ⟨[1, i, field, 0]⟩⟩) ∧
    ((∀ i : UInt64, i.toNat < document.entryCount → ¬ [1, i] <+: ref.path.coordinates) →
      Document.resolveIdentity ref (document, streams) = .ok none (document, streams)) ∧
    (ref.path.coordinates.length % 2 = 0 → ∀ leftover,
      Document.resolveIdentity ⟨ref.root, ⟨ref.path.coordinates ++ [leftover]⟩⟩
        (document, streams) =
        Document.resolveIdentity ref (document, streams)) ∧
    (∀ library contents, document.Shows library contents → streams.Holds library →
      (∀ i field, ¬ Leads document.entryCount ref.path.coordinates i field) →
      ∃ after, Document.resolveIdentity ref (document, streams) = .ok none after) := by
  have hsound : Sound (run ops {}).2 := sound_run ops sound_empty
  have hintact : document.Intact := hsound.document hdocument
  refine ⟨?_, Document.resolveIdentity_astray hroot, Document.resolveIdentity_leftover hroot, ?_⟩
  · intro identity after h
    exact Document.resolveIdentity_stamp hintact hroot h
  · intro library contents hshows hstreams
    exact Document.resolveIdentity_nowhere hroot hshows hstreams

/-- In a document with one entry, the place of another entry gives nothing, and what is found in the
place of the identification is the identification. -/
theorem resolve_names_place_one_entry :
    ∃ document identity after,
      (run [.newDocument "d", .addEntry "d"] {}).2.documents.find? "d" = some document ∧
      Document.resolveIdentity ⟨⟨1⟩, ⟨[1, 7, 1, 0]⟩⟩ (document, {}) = .ok none (document, {}) ∧
      Document.resolveIdentity ⟨⟨1⟩, ⟨[1, 0, 1, 0]⟩⟩ (document, {}) = .ok (some identity) after ∧
      identity.stamp = ⟨⟨1⟩, ⟨[1, 0, 1, 0]⟩⟩ := by
  let document : Document :=
    { stamp := ⟨⟨1⟩, {}⟩, entries := ⟨#[some { owned := some { stamp := ⟨⟨1⟩, ⟨[1, 0]⟩⟩ } }]⟩ }
  have hdocument : (run [.newDocument "d", .addEntry "d"] {}).2.documents.find? "d" =
    some document := by
    decide +kernel
  have hfound := eq_ok_of_verdict (Document.resolveIdentity ⟨⟨1⟩, ⟨[1, 0, 1, 0]⟩⟩ (document, {}))
    (some { stamp := ⟨⟨1⟩, ⟨[1, 0, 1, 0]⟩⟩ }) (by decide +kernel)
  refine ⟨document, _, _, hdocument, ?_, hfound, ?_⟩
  · apply (resolve_names_place hdocument rfl {}).2.1
    intro i hi hprefix
    obtain rfl : i = 7 := by
      obtain ⟨rest, hrest⟩ := hprefix
      exact (List.cons.inj (List.cons.inj hrest).2).1
    exact absurd hi (by decide)
  · obtain ⟨i, field, ⟨-, -, index, leftover, hcoordinates, -⟩, hstamp⟩ :=
      (resolve_names_place hdocument rfl {}).1 _ _ hfound
    obtain ⟨rfl, rfl, -⟩ : 0 = i ∧ 1 = field ∧ _ := by simpa using hcoordinates
    exact hstamp

/-- Coordinates that differ from those of a node may lead to it: the last of five is left over. -/
theorem resolve_past_leftover :
    ¬ ∀ (ops : List Op) (name : String) (document : Document) (ref : NodeRef) (streams : Streams)
      (identity : Identity) (after : Document × Streams),
      (run ops {}).2.documents.find? name = some document → ref.root = document.stamp.root →
      Document.resolveIdentity ref (document, streams) = .ok (some identity) after →
      identity.stamp.path = ref.path := by
  intro h
  let document : Document :=
    { stamp := ⟨⟨1⟩, {}⟩, entries := ⟨#[some { owned := some { stamp := ⟨⟨1⟩, ⟨[1, 0]⟩⟩ } }]⟩ }
  have hpath := h [.newDocument "d", .addEntry "d"] "d" document ⟨⟨1⟩, ⟨[1, 0, 1, 0, 9]⟩⟩ {}
    { stamp := ⟨⟨1⟩, ⟨[1, 0, 1, 0]⟩⟩ } _ (by decide +kernel) rfl
    (eq_ok_of_verdict (Document.resolveIdentity ⟨⟨1⟩, ⟨[1, 0, 1, 0, 9]⟩⟩ (document, {})) _
      (by decide +kernel))
  exact absurd hpath (by decide)

end Workspace
end FramedTree
