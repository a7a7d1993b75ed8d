import FramedTree.Proofs.OtherEntries

/-! # What a single entry answers

An entry of an opened document stands for its content if all of it can be loaded. What such an entry
answers follows from its stamp and its content alone, whatever the rest of the document is like.
-/

namespace FramedTree

variable {α β ν : Type} {library : Library}

namespace EntryContent

def identificationAt (content : EntryContent) (stamp : Stamp) : Identity :=
  ⟨stamp.child Entry.identificationField 0, content.identification⟩

/-- The secret identity of the entry with this stamp, if there is one. -/
def secretAt (content : EntryContent) (stamp : Stamp) : Option Identity :=
  content.secretIdentity.map fun header => ⟨stamp.child Entry.secretIdentityField 0, header⟩

end EntryContent

abbrev Lazy.ShowsIdentity (library : Library) (stamp : Stamp) (field : UInt32)
    (cell : Lazy Identity) (identity : Identity) : Prop :=
  cell.Shows library (Entry.loadIdentity stamp field) (· = identity)

namespace Entry

/-- The entry has this stamp, shows this content, and each of its parts is stamped as its place
demands. -/
structure Stands (library : Library) (stamp : Stamp) (content : EntryContent) (entry : Entry) :
    Prop where
  stamp_eq : entry.stamp = stamp
  identification : entry.identification.ShowsIdentity library stamp identificationField
    (content.identificationAt stamp)
  secretIdentity : Option.Rel (Lazy.ShowsIdentity library stamp secretIdentityField)
    (entry.secretIdentity.get? singular) (content.secretAt stamp)
  approver : entry.approver = content.approver.map (NodeRef.mk stamp.root)
  reviewers : entry.reviewers = content.reviewers.map (NodeRef.mk stamp.root)

variable {stamp : Stamp} {content : EntryContent} {entry : Entry}

theorem Stands.shows (h : entry.Stands library stamp content) : entry.Shows library content := by
  obtain ⟨rfl, ⟨identity, hsettles, rfl⟩, hsecret, happrover, hreviewers⟩ := h
  refine ⟨⟨_, hsettles, rfl⟩, ?_, ?_, ?_⟩
  · rw [EntryContent.secretAt] at hsecret
    generalize entry.secretIdentity.get? singular = found at hsecret ⊢
    generalize content.secretIdentity = header at hsecret ⊢
    cases header with
    | none =>
      cases hsecret
      exact .none
    | some header =>
      cases hsecret with
      | some hcell =>
        obtain ⟨identity, hsettles, rfl⟩ := hcell
        exact .some ⟨_, hsettles, rfl⟩
  · rw [happrover, Option.map_map]
    exact Option.map_id'
  · rw [hreviewers, List.map_map]
    exact List.map_id' _

private theorem showsIdentity_of_showsHeader {field : UInt32} {cell : Lazy Identity}
    {header : IdentityHeader} {streams : Streams} (h : cell.ShowsHeader library stamp field header)
    (hstreams : streams.Holds library)
    (hpeek : ∀ identity, cell.peek = some identity → identity.stamp = stamp.child field 0) :
    cell.ShowsIdentity library stamp field ⟨stamp.child field 0, header⟩ := by
  obtain ⟨identity, hsettles, rfl⟩ := h
  refine ⟨identity, hsettles, ?_⟩
  obtain ⟨after, hrun, -⟩ := hsettles streams hstreams
  have hstamp : identity.stamp = stamp.child field 0 := by
    cases hloaded : cell.peek with
    | some found =>
      rw [Lazy.fetch_of_peek hloaded] at hrun
      cases hrun
      exact hpeek _ hloaded
    | none =>
      rw [Lazy.fetch_of_unloaded hloaded] at hrun
      exact loadIdentity_stamp hrun
  rw [← hstamp]

private theorem Shows.stands {streams : Streams} (h : entry.Shows library content)
    (hintact : entry.Intact) (hstreams : streams.Holds library) :
    entry.Stands library entry.stamp content := by
  have hreference (ref : NodeRef) (href : ref ∈ entry.references) :
    NodeRef.mk entry.stamp.root ref.path = ref := by
    rw [← hintact.references ref href]
  refine ⟨rfl, showsIdentity_of_showsHeader h.identification hstreams hintact.identification,
    ?_, ?_, ?_⟩
  · have hsecret := h.secretIdentity
    have hstamp := hintact.secretIdentity
    rw [loadedSecret?] at hstamp
    rw [EntryContent.secretAt]
    generalize entry.secretIdentity.get? singular = found at hsecret hstamp ⊢
    generalize content.secretIdentity = header at hsecret ⊢
    cases hsecret with
    | none => exact .none
    | some hshows => exact .some (showsIdentity_of_showsHeader hshows hstreams hstamp)
  · rw [← h.approver, Option.map_map]
    refine (Option.map_congr fun ref href => ?_).trans Option.map_id' |>.symm
    exact hreference ref (List.mem_append_left _ (Option.mem_toList.2 href))
  · rw [← h.reviewers, List.map_map]
    refine (List.map_congr_left fun ref href => ?_).trans (List.map_id' _) |>.symm
    exact hreference ref (List.mem_append_right _ href)

section Opening

variable {inner : Access Streams Identity α} {access : Stamp → Access Streams (Lazy Identity) α}

/-- Work on an identity that leaves it as it is and answers with something that it settles. -/
def Tells (library : Library) (inner : Access Streams Identity α) (f : Identity → α) : Prop :=
  ∀ identity, Gives library (· = identity) inner fun result after =>
    result = f identity ∧ after = identity

theorem tells_node (f : Identity → α) : Tells library (do return f (← Access.node)) f := by
  intro identity
  refine Gives.bind Gives.node fun found => Gives.pure ?_
  rintro node ⟨rfl, rfl⟩
  exact ⟨rfl, rfl⟩

private theorem gives_cell {field : UInt32} {f : Identity → α}
    {access : Access Streams (Lazy Identity) α} (h : Tells library inner f)
    (hopens : Lazy.Opens (loadIdentity stamp field) inner access) (identity : Identity) :
    Gives library (Lazy.ShowsIdentity library stamp field · identity) access fun result cell =>
      result = f identity ∧ cell.ShowsIdentity library stamp field identity := by
  refine Gives.mono (Gives.opens hopens (h identity)) ?_
  rintro result cell ⟨found, hpeek, hresult, rfl⟩
  exact ⟨hresult, Lazy.shows_of_peek hpeek rfl⟩

theorem stands_identification {f : Identity → α} (h : Tells library inner f)
    (hopens : ∀ stamp, Lazy.Opens (loadIdentity stamp identificationField) inner (access stamp)) :
    Gives library (Stands library stamp content)
      (do
        let entry ← Access.node
        Access.within identification (fun cell entry => { entry with identification := cell })
          (access entry.stamp))
      fun result entry => result = f (content.identificationAt stamp) ∧
      entry.Stands library stamp content := by
  have hcell := gives_cell h (hopens stamp) (content.identificationAt stamp)
  refine Gives.node_within (fun entry hentry => by rw [hentry.stamp_eq]; exact hcell)
    (fun entry hentry => hentry.identification) ?_
  rintro entry result cell hentry ⟨hresult, hcell⟩
  exact ⟨hresult, { hentry with identification := hcell }⟩

theorem stands_secretIdentity {f : Identity → α} (h : Tells library inner f)
    (hopens : ∀ stamp, Lazy.Opens (loadIdentity stamp secretIdentityField) inner (access stamp)) :
    Gives library (Stands library stamp content)
      (do
        let entry ← Access.node
        Access.within secretIdentity (fun slots entry => { entry with secretIdentity := slots })
          (Slots.access singular (access entry.stamp)))
      fun result entry => result = (content.secretAt stamp).map f ∧
      entry.Stands library stamp content := by
  let Holds (slots : Slots (Lazy Identity)) : Prop :=
    Option.Rel (Lazy.ShowsIdentity library stamp secretIdentityField) (slots.get? singular)
      (content.secretAt stamp)
  refine Gives.node_within (U := fun _ => Holds)
    (R := fun _ result slots => result = (content.secretAt stamp).map f ∧ Holds slots)
    (fun entry hentry => ?_) (fun entry hentry => hentry.secretIdentity) ?_
  · rw [hentry.stamp_eq]
    simp only [Holds]
    cases content.secretAt stamp with
    | none =>
      refine Gives.slot (V := fun _ => False) (P := fun _ _ => False)
        (fun _ _ hfalse => hfalse.elim)
        (fun slots hslots _ => ⟨rfl, hslots⟩) (fun slots cell hslots hcell => ?_)
          fun _ _ _ _ _ hfalse => hfalse.elim
      rw [hcell] at hslots
      cases hslots
    | some identity =>
      refine Gives.slot (gives_cell h (hopens stamp) identity) (fun slots hslots hnone => ?_)
        (fun slots cell hslots hcell => ?_) ?_
      · rw [hnone] at hslots
        cases hslots
      · rw [hcell] at hslots
        cases hslots with
        | some hshows => exact hshows
      · rintro slots result cell hslots hsome ⟨rfl, hcell⟩
        obtain ⟨first, hfirst⟩ := Option.isSome_iff_exists.1 hsome
        rw [Slots.get?_modify, if_pos rfl, hfirst]
        exact ⟨rfl, .some hcell⟩
  · rintro entry result slots hentry ⟨hresult, hslots⟩
    exact ⟨hresult, { hentry with secretIdentity := hslots }⟩

end Opening

theorem stands_child (field : UInt32) (index : UInt64) :
    Gives library (Stands library stamp content) (child field index) fun found entry =>
      found = (if field = identificationField then some (content.identificationAt stamp)
        else if field = secretIdentityField then content.secretAt stamp else none) ∧
        entry.Stands library stamp content := by
  unfold child
  by_cases hfirst : field = identificationField
  · simp only [if_pos hfirst]
    refine Gives.bind (stands_identification (tells_node id) fun _ => Lazy.access_opens _ _)
      fun identity =>
      Gives.of_and fun hidentity => Gives.pure fun entry hentry => ⟨congrArg some hidentity, hentry⟩
  · simp only [if_neg hfirst]
    by_cases hsecond : field = secretIdentityField
    · simp only [if_pos hsecond]
      refine Gives.mono (stands_secretIdentity (tells_node id) fun _ => Lazy.access_opens _ _)
        fun found entry hentry => ?_
      rwa [Option.map_id] at hentry
    · simp only [if_neg hsecond]
      exact Gives.pure fun _ hentry => ⟨rfl, hentry⟩

end Entry

namespace Document

variable {stamp : Stamp} {i : Nat} {content : EntryContent}

/-- The entry with number `i` of the document with this stamp stands for the content. -/
structure StandsAt (library : Library) (stamp : Stamp) (i : Nat) (content : EntryContent)
    (document : Document) :
    Prop where
  stamp_eq : document.stamp = stamp
  entry : ∃ cell, document.entries.get? i = some cell ∧
    cell.Shows library (loadEntry stamp i) (Entry.Stands library (entryStamp stamp i) content)

theorem ShowsAt.standsAt {document : Document} {streams : Streams}
    (h : document.ShowsAt library i content) (hintact : document.Intact)
    (hstreams : streams.Holds library) :
    document.StandsAt library document.stamp i content := by
  obtain ⟨cell, hcell, entry, hsettles, hshows⟩ := h
  refine ⟨rfl, cell, hcell, entry, hsettles, ?_⟩
  obtain ⟨after, hrun, -⟩ := hsettles streams hstreams
  obtain ⟨hstamp, hentry⟩ : entry.stamp = entryStamp document.stamp i ∧ entry.Intact := by
    cases hloaded : cell.peek with
    | some found =>
      rw [Lazy.fetch_of_peek hloaded] at hrun
      cases hrun
      exact hintact.entry i entry (by rw [entryAt?, hcell, Option.bind_some, hloaded])
    | none =>
      rw [Lazy.fetch_of_unloaded hloaded] at hrun
      exact loadEntry_intact hrun
  rw [← hstamp]
  exact hshows.stands hentry hstreams

private theorem standsAt_of_loaded {document : Document} {entry : Entry}
    (hstamp : document.stamp = stamp) (hloaded : document.entryAt? i = some entry)
    (h : entry.Stands library (entryStamp stamp i) content) :
    document.StandsAt library stamp i content := by
  obtain ⟨cell, hcell, hpeek⟩ := Option.bind_eq_some_iff.1 hloaded
  exact ⟨hstamp, cell, hcell, Lazy.shows_of_peek hpeek h⟩

section Opening

variable {inner : Access Streams Entry α} {P : α → Entry → Prop}
  {access : Stamp → Access Streams (Lazy Entry) α}

/-- Work on an entry that stands for its content. -/
theorem gives_standing
    (h : Gives library (Entry.Stands library (entryStamp stamp i) content) inner P)
    (hopens : ∀ stamp, Lazy.Opens (loadEntry stamp i) inner (access stamp)) :
    Gives library (StandsAt library stamp i content)
      (do
        let document ← Access.node
        Access.within entries (fun slots document => { document with entries := slots })
          (Slots.access i (access document.stamp)))
      fun found document => document.stamp = stamp ∧
        ∃ result entry, found = some result ∧ P result entry ∧
          document.entryAt? i = some entry := by
  refine Gives.node_within
    (U := fun _ slots => ∃ cell, slots.get? i = some cell ∧
      cell.Shows library (loadEntry stamp i) (Entry.Stands library (entryStamp stamp i) content))
    (R := fun _ found slots => ∃ result entry, found = some result ∧ P result entry ∧
      (slots.get? i).bind Lazy.peek = some entry)
    (fun document hdocument => ?_) (fun document hdocument => hdocument.entry) ?_
  · rw [hdocument.stamp_eq]
    refine Gives.slot (Gives.opens (hopens stamp) h) ?_ ?_ ?_
    · rintro slots ⟨cell, hcell, -⟩ hnone
      rw [hnone] at hcell
      cases hcell
    · rintro slots cell ⟨first, hfirst, hshows⟩ hcell
      rw [hcell] at hfirst
      cases hfirst
      exact hshows
    · rintro slots result cell ⟨first, hfirst, -⟩ - ⟨entry, hpeek, hresult⟩
      refine ⟨result, entry, rfl, hresult, ?_⟩
      rw [Slots.get?_modify, if_pos rfl, hfirst]
      exact hpeek
  · rintro document found slots hdocument hslots
    exact ⟨hdocument.stamp_eq, hslots⟩

private theorem stands_onEntry {value : α}
    (h : Gives library (Entry.Stands library (entryStamp stamp i) content) inner
      fun result entry => result = value ∧ entry.Stands library (entryStamp stamp i) content) :
    Gives library (StandsAt library stamp i content) (onEntry i inner) fun found document =>
      found = some value ∧ document.StandsAt library stamp i content := by
  refine Gives.mono (gives_standing h fun _ => Lazy.access_opens _ _) ?_
  rintro found document ⟨hstamp, result, entry, rfl, ⟨rfl, hentry⟩, hloaded⟩
  exact ⟨rfl, standsAt_of_loaded hstamp hloaded hentry⟩

end Opening

/-- The identity in the place of a node, if the node belongs to the entry with number `i` of the
document with this stamp. -/
def Node.identityOf (stamp : Stamp) (i : Nat) (content : EntryContent) : Node → Option Identity
  | .identification j =>
    if j = i then some (content.identificationAt (entryStamp stamp i)) else none
  | .secretIdentity j => if j = i then content.secretAt (entryStamp stamp i) else none
  | _ => none

/-- Whether a node is the entry with number `i` or belongs to it. -/
def Node.isOf (i : Nat) : Node → Bool
  | .document => false
  | .entry j | .identification j | .secretIdentity j => j = i

/-- The node that a step leads to within an entry with this content, if it is there. -/
def Node.nextIn (content : EntryContent) (node : Node) (field : UInt32) (index : UInt64) :
    Option Node :=
  (node.next field index).filter fun next =>
    match next with
    | .secretIdentity _ => content.secretIdentity.isSome
    | _ => true

private theorem Node.isOf_nextIn {node next : Node} {field : UInt32} {index : UInt64}
    (hnode : node.isOf i) (h : node.nextIn content field index = some next) : next.isOf i := by
  cases node with
  | document => cases hnode
  | identification j | secretIdentity j => cases h
  | entry j =>
    obtain rfl : j = i := by simpa [isOf] using hnode
    obtain ⟨hnext, -⟩ := Option.filter_eq_some_iff.1 h
    simp only [Node.next] at hnext
    split at hnext
    · cases hnext
      simp [isOf]
    · split at hnext
      · cases hnext
        simp [isOf]
      · cases hnext

private theorem stands_nodeChild {node : Node} (hnode : node.isOf i) (field : UInt32)
    (index : UInt64) :
    Gives library (StandsAt library stamp i content) (node.child field index) fun found document =>
      found = node.nextIn content field index ∧ document.StandsAt library stamp i content := by
  cases node with
  | document => cases hnode
  | identification j | secretIdentity j => exact Gives.pure fun _ hdocument => ⟨rfl, hdocument⟩
  | entry j =>
    obtain rfl : j = i := by simpa [Node.isOf] using hnode
    refine Gives.bind (stands_onEntry (Entry.stands_child field index)) fun found => Gives.of_and ?_
    rintro rfl
    refine Gives.pure fun document hdocument => ⟨?_, hdocument⟩
    simp only [Node.nextIn, Node.next]
    by_cases hfirst : field = Entry.identificationField
    · simp only [if_pos hfirst]
      rfl
    · by_cases hsecond : field = Entry.secretIdentityField
      · simp only [if_neg hfirst, if_pos hsecond, EntryContent.secretAt]
        cases content.secretIdentity <;> rfl
      · simp only [if_neg hfirst, if_neg hsecond]
        rfl

private theorem stands_walk {node : Node} (hnode : node.isOf i) (steps : List (UInt64 × UInt64)) :
    Gives library (StandsAt library stamp i content) (walk Node.child steps node)
      fun found document =>
      (found = walk (m := Id) (Node.nextIn content) steps node ∧ ∀ last,
        found = some last → last.isOf i) ∧
        document.StandsAt library stamp i content := by
  induction steps generalizing node with
  | nil =>
    refine Gives.pure fun _ hdocument => ⟨⟨rfl, ?_⟩, hdocument⟩
    rintro last ⟨⟩
    exact hnode
  | cons step rest ih =>
    obtain ⟨field, index⟩ := step
    unfold walk
    by_cases hfield : field.toNat < UInt32.size
    · simp only [if_pos hfield]
      refine Gives.bind (stands_nodeChild hnode field.toUInt32 index) fun found => Gives.of_and ?_
      rintro rfl
      cases hnext : node.nextIn content field.toUInt32 index with
      | none => exact Gives.pure fun _ hdocument => ⟨⟨rfl, nofun⟩, hdocument⟩
      | some next => exact ih (Node.isOf_nextIn hnode hnext)
    · simp only [if_neg hfield]
      exact Gives.pure fun _ hdocument => ⟨⟨rfl, nofun⟩, hdocument⟩

private theorem stands_nodeIdentity {node : Node} (hnode : node.isOf i) :
    Gives library (StandsAt library stamp i content) node.identity fun found document =>
      found = node.identityOf stamp i content ∧ document.StandsAt library stamp i content := by
  cases node with
  | document => cases hnode
  | entry j => exact Gives.pure fun _ hdocument => ⟨rfl, hdocument⟩
  | identification j =>
    obtain rfl : j = i := by simpa [Node.isOf] using hnode
    rw [Node.identityOf, if_pos rfl]
    exact stands_onEntry (Entry.stands_identification (Entry.tells_node id)
      fun _ => Lazy.access_opens _ _)
  | secretIdentity j =>
    obtain rfl : j = i := by simpa [Node.isOf] using hnode
    refine Gives.bind (stands_onEntry
      (Entry.stands_secretIdentity (Entry.tells_node id) fun _ => Lazy.access_opens _ _))
      fun found => Gives.of_and ?_
    rintro rfl
    refine Gives.pure fun document hdocument => ⟨?_, hdocument⟩
    rw [Node.identityOf, if_pos rfl, Option.map_id]
    rfl

theorem stands_child {index : UInt64} (hindex : index.toNat = i) :
    Gives library (StandsAt library stamp i content) (child entriesField index)
      fun found document =>
      (∃ entry, found = some entry) ∧ document.StandsAt library stamp i content := by
  subst hindex
  have hnode : Gives library
    (Entry.Stands library (entryStamp stamp index.toNat) content) Access.node
      fun result entry => result.Stands library (entryStamp stamp index.toNat) content ∧
      result = entry := by
    refine Gives.mono Gives.node fun result entry hentry => ?_
    exact ⟨hentry.1 ▸ hentry.2, hentry.1⟩
  refine Gives.mono (gives_standing hnode fun _ => Lazy.access_opens _ _) ?_
  rintro found document ⟨hstamp, result, entry, rfl, ⟨hstands, rfl⟩, hloaded⟩
  exact ⟨⟨result, rfl⟩, standsAt_of_loaded hstamp hloaded hstands⟩

private theorem stands_nodeEntry {index : UInt64} (hindex : index.toNat = i) :
    Gives library (StandsAt library stamp i content) (Node.document.child entriesField index)
      fun found document =>
      found = some (.entry i) ∧ document.StandsAt library stamp i content := by
  refine Gives.bind (stands_child hindex) fun found => Gives.of_and ?_
  rintro ⟨entry, rfl⟩
  exact Gives.pure fun document hdocument =>
    ⟨congrArg (fun i => some (Node.entry i)) hindex, hdocument⟩

private theorem stands_walkEntry {index : UInt64} (hindex : index.toNat = i)
    (rest : List (UInt64 × UInt64)) :
    Gives library (StandsAt library stamp i content)
      (walk Node.child ((entriesField.toUInt64, index) :: rest) .document)
      fun found document =>
        (found = walk (m := Id) (Node.nextIn content) rest (.entry i) ∧ ∀ last,
          found = some last → last.isOf i) ∧
          document.StandsAt library stamp i content := by
  have hof : (Node.entry i).isOf i := by simp [Node.isOf]
  rw [walk, if_pos (by decide), UInt32.toUInt32_toUInt64]
  refine Gives.bind (stands_nodeEntry hindex) fun found => Gives.of_and ?_
  rintro rfl
  exact stands_walk hof rest

/-- What a reference into the entry leads to. -/
theorem stands_resolveIdentity {ref : NodeRef} {index : UInt64} {rest : List (UInt64 × UInt64)}
    (hroot : ref.root = stamp.root)
    (hsteps : ref.path.steps = (entriesField.toUInt64, index) :: rest) (hindex : index.toNat = i) :
    Gives library (StandsAt library stamp i content) (resolveIdentity ref) fun found document =>
      found = (walk (m := Id) (Node.nextIn content) rest (.entry i)).bind
        (Node.identityOf stamp i content) ∧
        document.StandsAt library stamp i content := by
  intro document streams hdocument hstreams
  rw [resolveIdentity_apply (hroot.trans (congrArg Stamp.root hdocument.stamp_eq.symm)), hsteps]
  refine Gives.bind (stands_walkEntry hindex rest)
    (fun found => Gives.of_and ?_) document streams hdocument hstreams
  rintro ⟨rfl, hlast⟩
  cases hfound : walk (m := Id) (Node.nextIn content) rest (.entry i) with
  | none => exact Gives.pure fun _ hdocument => ⟨rfl, hdocument⟩
  | some node => exact stands_nodeIdentity (hlast node hfound)

end Document
end FramedTree
