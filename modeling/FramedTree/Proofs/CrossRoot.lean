import FramedTree.Proofs.WorkspaceRuns

/-! # References across trees

A reference to a node carries the root of the tree that the node was seen in. An entry takes the
reference exactly if that tree is still the entry's own; otherwise nothing at all changes.
-/

namespace FramedTree

variable {σ ν μ α β : Type}

/-- What an access to a good node gives, if it succeeds. -/
def Yields (Good : ν → Prop) (Post : α → Prop) (access : Access σ ν α) : Prop :=
  ∀ node around value after, Good node → access (node, around) = .ok value after → Post value

namespace Yields

variable {Good : ν → Prop} {Post : α → Prop}

private theorem bind_pure {Post' : β → Prop} {access : Access σ ν α} {f : α → β}
    (h : Yields Good Post access) (hpost : ∀ value, Post value → Post' (f value)) :
    Yields Good Post' (do return f (← access)) := by
  intro node around value after hgood hrun
  rw [bind_apply] at hrun
  cases haccess : access (node, around) with
  | error error between =>
    rw [haccess] at hrun
    cases hrun
  | ok first between =>
    rw [haccess] at hrun
    cases hrun
    exact hpost first (h node around first _ hgood haccess)

private theorem node_within {Good' : ν → μ → Prop} {get : ν → μ} {put : μ → ν → ν}
    {access : ν → Access σ μ α} (h : ∀ node, Good node → Yields (Good' node) Post (access node))
    (hget : ∀ node, Good node → Good' node (get node)) :
    Yields Good Post (do Access.within get put (access (← Access.node))) := by
  intro node around value after hgood hrun
  rw [Access.node_bind_apply, Access.within_apply] at hrun
  cases haccess : access node (get node, around) with
  | error error between =>
    rw [haccess] at hrun
    cases hrun
  | ok first between =>
    rw [haccess] at hrun
    cases hrun
    exact h node hgood (get node) around _ _ (hget node hgood) haccess

private theorem slot {i : Nat} {inner : Access σ ν α} (h : Yields Good Post inner) :
    Yields (fun slots => ∀ value, slots.get? i = some value → Good value)
      (fun result => ∀ value, result = some value → Post value) (Slots.access i inner) := by
  intro slots around result after hgood hrun value hvalue
  cases hget : slots.get? i with
  | none =>
    rw [Slots.access_apply_none hget] at hrun
    cases hrun
    cases hvalue
  | some first =>
    rw [Slots.access_apply_some hget, map_apply] at hrun
    cases hinner : inner (first, around) with
    | error error between =>
      rw [hinner] at hrun
      cases hrun
    | ok last between =>
      rw [hinner] at hrun
      cases hrun
      cases hvalue
      exact h first around _ _ (hgood first hget) hinner

private theorem opens {load : Option Origin → EStateM Error σ ν} {inner : Access σ ν α}
    {access : Access σ (Lazy ν) α} (hopens : Lazy.Opens load inner access)
    (hload : ∀ origin around value after, load origin around = .ok value after → Good value)
    (h : Yields Good Post inner) :
    Yields (fun cell => ∀ value, cell.peek = some value → Good value) Post access := by
  intro cell around result after hgood hrun
  cases hfetch : cell.fetch load around with
  | error error between =>
    rw [hopens.failed hfetch] at hrun
    cases hrun
  | ok value between =>
    have hvalue : Good value := by
      cases hpeek : cell.peek with
      | some first =>
        rw [Lazy.fetch_of_peek hpeek] at hfetch
        cases hfetch
        exact hgood _ hpeek
      | none =>
        rw [Lazy.fetch_of_unloaded hpeek] at hfetch
        exact hload _ _ _ _ hfetch
    obtain ⟨kept, -, heq⟩ := hopens.fetched hfetch
    rw [heq] at hrun
    cases hinner : inner (value, between) with
    | error error last =>
      rw [hinner] at hrun
      cases hrun
    | ok first last =>
      rw [hinner] at hrun
      cases hrun
      exact h value between _ _ hvalue hinner

end Yields

def EntryPlace.holder : EntryPlace → Holder
  | .inDocument document _ => .document document
  | .standalone name => .entry name

/-- The holder of the tree that an identity belongs to. -/
def SeenIdentity.holder : SeenIdentity → Holder
  | .standalone name => .identity name
  | .identification entry | .secretIdentity entry => entry.holder

/-- If the answer is a reference, it is one of the tree of `root`. -/
def Answer.Within (root : RootId) (answer : Answer) : Prop :=
  ∀ ref, answer = .ref ref → ref.root = root

private theorem Answer.within_getD {root : RootId} {absent : Answer} {result : Option Answer}
    (habsent : ∀ ref, absent ≠ .ref ref) (h : ∀ answer, result = some answer → answer.Within root) :
    (result.getD absent).Within root := by
  cases result with
  | none => exact fun ref href => absurd href (habsent ref)
  | some answer => exact h answer rfl

namespace Workspace

section Answers

variable {root : RootId} {inner : Access Streams Identity Answer}
  {access : Access Streams Entry Answer}

private theorem yields_keepRef (as : String) :
    Yields (fun identity => identity.stamp.root = root) (Answer.Within root)
      (viewIdentity (.keepRef as)) := by
  intro identity streams answer after hroot hrun ref href
  cases hrun
  cases href
  exact hroot

private theorem yields_onIdentification
    (h : Yields (fun identity => identity.stamp.root = root) (Answer.Within root) inner) :
    Yields (fun entry => entry.Intact ∧ entry.stamp.root = root) (Answer.Within root)
      (Entry.onIdentification inner) := by
  refine Yields.node_within (fun entry hentry => Yields.opens (Lazy.access_opens _ _) ?_ h) ?_
  · intro origin streams identity after hload
    rw [Entry.loadIdentity_stamp hload]
    exact hentry.2
  · intro entry hentry identity hpeek
    rw [hentry.1.identification identity hpeek]
    exact hentry.2

private theorem yields_onSecretIdentity
    (h : Yields (fun identity => identity.stamp.root = root) (Answer.Within root) inner) :
    Yields (fun entry => entry.Intact ∧ entry.stamp.root = root) (Answer.Within root)
      (do return (← Entry.onSecretIdentity inner).getD .nothing) := by
  refine Yields.bind_pure (Yields.node_within
    (fun entry hentry => Yields.slot (Yields.opens (Lazy.access_opens _ _) ?_ h)) ?_)
    fun result => Answer.within_getD fun _ => Answer.noConfusion
  · intro origin streams identity after hload
    rw [Entry.loadIdentity_stamp hload]
    exact hentry.2
  · intro entry hentry cell hcell identity hpeek
    have hsecret : entry.loadedSecret? = some identity := by
      rw [Entry.loadedSecret?, hcell]
      exact hpeek
    rw [hentry.1.secretIdentity identity hsecret]
    exact hentry.2

private theorem yields_onEntry (i : Nat)
    (h : Yields (fun entry => entry.Intact ∧ entry.stamp.root = root) (Answer.Within root) access) :
    Yields (fun document => document.Intact ∧ document.stamp.root = root) (Answer.Within root)
      (do return (← Document.onEntry i access).getD .noEntry) := by
  refine Yields.bind_pure (Yields.node_within
    (fun document hdocument => Yields.slot (Yields.opens (Lazy.access_opens _ _) ?_ h)) ?_)
    fun result => Answer.within_getD fun _ => Answer.noConfusion
  · intro origin streams entry after hload
    obtain ⟨hstamp, hintact⟩ := Document.loadEntry_intact hload
    refine ⟨hintact, ?_⟩
    rw [hstamp]
    exact hdocument.2
  · intro document hdocument cell hcell entry hpeek
    have hentry : document.entryAt? i = some entry := by
      rw [Document.entryAt?, hcell]
      exact hpeek
    obtain ⟨hstamp, hintact⟩ := hdocument.1.entry i entry hentry
    refine ⟨hintact, ?_⟩
    rw [hstamp]
    exact hdocument.2

end Answers

private theorem row_of_ref {get : Workspace → Table String ν}
    {put : Table String ν → Workspace → Workspace} {name : String}
    {access : Access Streams ν Answer} {absent : Answer} {workspace after : Workspace}
    {ref : NodeRef} (habsent : absent ≠ .ref ref)
    (h : (do return (← onRow get put name access).getD absent : Work Answer) workspace =
      .ok (.ref ref) after) :
    ∃ node later, (get workspace).find? name = some node ∧
      access (node, workspace.streams) = .ok (.ref ref) later := by
  rw [bind_apply] at h
  cases hfind : (get workspace).find? name with
  | none =>
    rw [onRow_apply_none hfind] at h
    have : absent = .ref ref := by injection h
    exact absurd this habsent
  | some node =>
    rw [onRow_apply_some hfind, map_apply] at h
    cases hrun : access (node, workspace.streams) with
    | error error later =>
      rw [hrun] at h
      cases h
    | ok answer later =>
      rw [hrun] at h
      have : answer = .ref ref := by injection h
      subst this
      exact ⟨node, later, rfl, hrun⟩

variable {workspace after : Workspace} {ref : NodeRef}

private theorem root_of_atEntry (hsound : Sound workspace) {place : EntryPlace}
    {access : Access Streams Entry Answer}
    (haccess : ∀ root, Yields (fun entry => entry.Intact ∧ entry.stamp.root = root)
      (Answer.Within root) access)
    (h : atEntry place access workspace = .ok (.ref ref) after) :
    ∃ tree, workspace.tree? place.holder = some tree ∧ ref.root = tree.stamp.root := by
  cases place with
  | inDocument name i =>
    obtain ⟨document, later, hfind, hrun⟩ := row_of_ref Answer.noConfusion h
    have htree := tree?_document hfind
    refine ⟨_, htree, ?_⟩
    exact yields_onEntry i (haccess document.stamp.root) _ _ _ _
      ⟨hsound.intact _ _ htree, rfl⟩ hrun ref rfl
  | standalone name =>
    obtain ⟨entry, later, hfind, hrun⟩ := row_of_ref Answer.noConfusion h
    have htree := tree?_entry hfind
    refine ⟨_, htree, ?_⟩
    exact haccess entry.stamp.root _ _ _ _ ⟨(hsound.intact _ _ htree).2, rfl⟩ hrun ref rfl

private theorem root_of_keepRef (hsound : Sound workspace) {seen : SeenIdentity} {as : String}
    (h : atIdentity seen (viewIdentity (.keepRef as)) workspace = .ok (.ref ref) after) :
    ∃ tree, workspace.tree? seen.holder = some tree ∧ ref.root = tree.stamp.root := by
  cases seen with
  | standalone name =>
    obtain ⟨identity, later, hfind, hrun⟩ := row_of_ref Answer.noConfusion h
    refine ⟨.identity identity, ?_, ?_⟩
    · rw [SeenIdentity.holder, tree?, hfind]
      rfl
    · exact yields_keepRef as _ _ _ _ rfl hrun ref rfl
  | identification place =>
    exact root_of_atEntry hsound (fun _ => yields_onIdentification (yields_keepRef as)) h
  | secretIdentity place =>
    exact root_of_atEntry hsound (fun _ => yields_onSecretIdentity (yields_keepRef as)) h

end Workspace

namespace Lazy

variable {load : Option Origin → EStateM Error σ ν} {inner : Access σ ν β} {cell later : Lazy ν}
  {around after : σ}

private theorem accessMut_of_owned {value : ν} (h : cell.owned = some value) :
    accessMut load inner (cell, around) =
      mapState (fun state => ({ cell with owned := some state.1 }, state.2))
        (inner (value, around)) := by
  obtain ⟨owned, shared, origin⟩ := cell
  cases h
  change onValue value inner (⟨some value, shared, origin⟩, around) = _
  exact Access.within_apply _ _ _ _ _

private theorem owned_of_getMutOrLoad {value : ν}
    (h : getMutOrLoad load (cell, around) = .ok value (later, after)) :
    later.owned = some value := by
  cases hpeek : cell.peek with
  | none =>
    rw [getMutOrLoad_of_unloaded hpeek] at h
    cases hload : load cell.origin around with
    | error error between =>
      rw [hload] at h
      cases h
    | ok first between =>
      rw [hload] at h
      cases h
      rfl
  | some first =>
    obtain ⟨owned, shared, origin⟩ := cell
    cases owned with
    | some owned =>
      cases h
      rfl
    | none =>
      obtain rfl : shared = some first := by simpa [peek] using hpeek
      cases h
      rfl

private theorem owned_of_accessMut {result : β}
    (h : accessMut load inner (cell, around) = .ok result (later, after)) :
    ∃ value, later.owned = some value := by
  rw [accessMut, bind_apply] at h
  cases hget : getMutOrLoad load (cell, around) with
  | error error between =>
    rw [hget] at h
    cases h
  | ok value between =>
    obtain ⟨kept, between⟩ := between
    rw [hget] at h
    have howned := owned_of_getMutOrLoad hget
    replace h : onValue value inner (kept, between) = .ok result (later, after) := h
    unfold onValue at h
    rw [Access.within_apply] at h
    cases hinner : inner (value, between) with
    | error error last =>
      rw [hinner] at h
      cases h
    | ok result last =>
      rw [hinner] at h
      cases h
      exact ⟨last.1, by simp [putBack, howned]⟩

end Lazy

namespace Workspace

variable {workspace after : Workspace} {ref : NodeRef} {place : EntryPlace} {entry : Entry}

private theorem root_of_seen (hsound : Sound workspace) {seen : SeenIdentity} {as : String}
    (h : step (.lookAtIdentity seen (.keepRef as)) workspace = (.ref ref, after)) :
    ∃ tree, after.tree? seen.holder = some tree ∧ ref.root = tree.stamp.root := by
  have hgrows : Grows workspace after := by
    have hstep := @grows_step_of_brings (.lookAtIdentity seen (.keepRef as)) workspace rfl
    rwa [h] at hstep
  have hlook : ∃ between,
    atIdentity seen (viewIdentity (.keepRef as)) workspace = .ok (.ref ref) between := by
    rw [step, perform, bind_apply] at h
    cases hrun : atIdentity seen (viewIdentity (.keepRef as)) workspace with
    | error error between =>
      rw [hrun] at h
      cases h
    | ok answer between =>
      rw [hrun] at h
      cases answer <;> cases h
      exact ⟨between, rfl⟩
  obtain ⟨between, hrun⟩ := hlook
  obtain ⟨tree, htree, hroot⟩ := root_of_keepRef hsound hrun
  obtain ⟨later, hlater, hkept⟩ := hgrows.later htree
  exact ⟨later, hlater, by rw [hkept.stamp_eq, hroot]⟩

/-- The entry at a place, if it can be changed without being fetched first. -/
def AtHand (workspace : Workspace) (entry : Entry) : EntryPlace → Prop
  | .inDocument name i => ∃ document cell, workspace.documents.find? name = some document ∧
      document.entries.get? i = some cell ∧ cell.owned = some entry
  | .standalone name => workspace.entries.find? name = some entry

private theorem hasPlace_of_atHand (h : AtHand workspace entry place) :
    workspace.hasPlace place = true := by
  cases place with
  | inDocument name i =>
    obtain ⟨document, cell, hfind, -, -⟩ := h
    rw [hasPlace, hfind]
    rfl
  | standalone name => rfl

/-- Work on an entry at hand changes nothing but what it changes in the entry and in the streams,
and leaves the entry at hand. -/
private theorem atEntryMut_of_atHand (h : AtHand workspace entry place) :
    ∃ put : Entry × Streams → Workspace, put (entry, workspace.streams) = workspace ∧
      (∀ state, AtHand (put state) state.1 place) ∧
      ∀ access, atEntryMut place access workspace =
        mapState put (access (entry, workspace.streams)) := by
  cases place with
  | inDocument name i =>
    obtain ⟨document, cell, hfind, hcell, howned⟩ := h
    refine ⟨fun state =>
      { workspace with
        streams := state.2
        documents := workspace.documents.set name
          { document with entries := document.entries.modify i fun _ => { cell with owned := state.1 } } },
      ?_, fun state => ?_, fun access => ?_⟩
    · dsimp only
      rw [← howned, Slots.modify_self hcell, Table.set_self hfind]
    · refine ⟨_, { cell with owned := state.1 }, Table.find?_set_self .., ?_, rfl⟩
      rw [Slots.get?_modify, if_pos rfl, hcell]
      rfl
    · rw [atEntryMut, atDocument, bind_apply, onDocument_apply hfind, map_apply, bind_apply]
      rw [Document.onEntryMut, Access.node_bind_apply, Access.within_apply,
        Slots.access_apply_some hcell, map_apply, Lazy.accessMut_of_owned howned]
      cases access (entry, workspace.streams) <;> rfl
  | standalone name =>
    refine ⟨fun state =>
      { workspace with streams := state.2, entries := workspace.entries.set name state.1 },
      ?_, fun state => Table.find?_set_self .., fun access => ?_⟩
    · dsimp only
      rw [Table.set_self h]
    · rw [atEntryMut, bind_apply, onStandaloneEntry, onRow_apply_some h, map_apply]
      cases access (entry, workspace.streams) <;> rfl

private theorem perform_changeEntry {change : EntryChange String} {found : EntryChange NodeRef}
    (hplace : workspace.hasPlace place = true)
    (hfound : change.lookup workspace.refs.find? = some found) :
    perform (.changeEntry place change) workspace =
      atEntryMut place (editEntry found) workspace := by
  rw [perform, get_bind_apply]
  simp [hplace, hfound]

private theorem atHand_of_onDocument {name : String} {i : Nat}
    {access : Access Streams Entry Answer} {answer : Answer} (hdocument : answer ≠ .noDocument)
    (hentry : answer ≠ .noEntry)
    (h : atEntryMut (.inDocument name i) access workspace = .ok answer after) :
    ∃ entry, AtHand after entry (.inDocument name i) := by
  rw [atEntryMut, atDocument, bind_apply] at h
  cases hfind : workspace.documents.find? name with
  | none =>
    rw [onDocument_apply_none hfind] at h
    cases h
    exact absurd rfl hdocument
  | some document =>
    rw [onDocument_apply hfind, map_apply, bind_apply] at h
    rw [Document.onEntryMut, Access.node_bind_apply, Access.within_apply] at h
    cases hcell : document.entries.get? i with
    | none =>
      rw [Slots.access_apply_none hcell] at h
      cases h
      exact absurd rfl hentry
    | some cell =>
      rw [Slots.access_apply_some hcell, map_apply] at h
      cases hrun : Lazy.accessMut (Document.loadEntry document.stamp i) access
          (cell, workspace.streams) with
      | error error state =>
        rw [hrun] at h
        cases h
      | ok result state =>
        obtain ⟨later, streams⟩ := state
        obtain ⟨entry, howned⟩ := Lazy.owned_of_accessMut hrun
        rw [hrun] at h
        cases h
        refine ⟨entry, { document with entries := document.entries.modify i fun _ => later }, later,
          ?_, ?_, howned⟩
        · rw [Table.find?_set, if_pos rfl]
        · rw [Slots.get?_modify, if_pos rfl, hcell]
          rfl

private theorem atHand_of_touch
    (h : step (.changeEntry place .touch) workspace = (.nothing, after)) :
    ∃ entry, AtHand after entry place := by
  have hperform : perform (.changeEntry place .touch) workspace = .ok .nothing after := by
    unfold step at h
    cases hrun : perform (.changeEntry place .touch) workspace with
    | error error later =>
      rw [hrun] at h
      cases h
    | ok answer later =>
      rw [hrun] at h
      cases h
      rfl
  have hplace : workspace.hasPlace place = true := by
    cases hplace : workspace.hasPlace place with
    | true => rfl
    | false =>
      rw [perform, get_bind_apply, hplace] at hperform
      cases hperform
  rw [perform_changeEntry hplace rfl] at hperform
  cases place with
  | inDocument name i => exact atHand_of_onDocument Answer.noConfusion Answer.noConfusion hperform
  | standalone name =>
    rw [atEntryMut, bind_apply, onStandaloneEntry] at hperform
    cases hfind : workspace.entries.find? name with
    | none =>
      rw [onRow_apply_none hfind] at hperform
      cases hperform
    | some entry =>
      rw [onRow_apply_some hfind] at hperform
      cases hperform
      refine ⟨entry, ?_⟩
      rw [AtHand, Table.find?_set, if_pos rfl]

private theorem root_of_atHand (hsound : Sound workspace) (h : AtHand workspace entry place) :
    ∃ tree, workspace.tree? place.holder = some tree ∧ entry.stamp.root = tree.stamp.root := by
  cases place with
  | inDocument name i =>
    obtain ⟨document, cell, hfind, hcell, howned⟩ := h
    have htree := tree?_document hfind
    have hentry : document.entryAt? i = some entry := by
      rw [Document.entryAt?, hcell]
      simp [Lazy.peek, howned]
    have hintact : document.Intact := hsound.intact _ _ htree
    refine ⟨_, htree, ?_⟩
    rw [(hintact.entry i entry hentry).1]
    rfl
  | standalone name => exact ⟨.entry entry, tree?_entry h, rfl⟩

/-- Trees at two moments of a run have the same root only if they are one tree: the later is what
the holder of the earlier still has. -/
private theorem root_eq_iff (hsound : Sound workspace) {ops : List Op} {holder other : Holder}
    {tree later : Tree} (htree : workspace.tree? holder = some tree)
    (hlater : (run ops workspace).2.tree? other = some later) :
    tree.stamp.root = later.stamp.root ↔ other = holder ∧ ¬ Renews holder ops workspace := by
  have hkept (h : ¬ Renews other ops workspace) :
      ∃ first, workspace.tree? other = some first ∧ later.stamp = first.stamp := by
    have hrel := rel_run h
    rw [hlater] at hrel
    cases hfirst : workspace.tree? other with
    | none =>
      rw [hfirst] at hrel
      cases hrel
    | some first =>
      rw [hfirst] at hrel
      cases hrel with
      | some hgrows => exact ⟨first, rfl, hgrows.stamp_eq⟩
  constructor
  · intro hroot
    have hold : ¬ Renews other ops workspace := by
      intro hnew
      have hnumber := root_of_renews hnew hlater
      rw [← hroot] at hnumber
      exact Nat.not_lt_of_le (hsound.issued holder tree htree) hnumber
    obtain ⟨first, hfirst, hstamp⟩ := hkept hold
    rw [hstamp] at hroot
    obtain rfl := hsound.distinct _ _ _ _ htree hfirst hroot
    exact ⟨rfl, hold⟩
  · rintro ⟨rfl, hold⟩
    obtain ⟨first, hfirst, hstamp⟩ := hkept hold
    cases htree.symm.trans hfirst
    rw [hstamp]

private theorem editEntry_setApprover (entry : Entry) (ref : NodeRef) (streams : Streams) :
    editEntry (.setApprover ref) (entry, streams) =
      if entry.stamp.root = ref.root then
        .ok (.entry { entry with approver := some ref })
          ({ entry with approver := some ref }, streams)
      else .error (.ownership entry.stamp.root ref.root) (entry, streams) := by
  rw [editEntry, Access.node_bind_apply, Entry.setApprover, attach, ensureSameRoot]
  split <;> rfl

private theorem editEntry_addReviewer (entry : Entry) (ref : NodeRef) (streams : Streams) :
    editEntry (.addReviewer ref) (entry, streams) =
      if entry.stamp.root = ref.root then
        .ok (.entry { entry with reviewers := entry.reviewers ++ [ref] })
          ({ entry with reviewers := entry.reviewers ++ [ref] }, streams)
      else .error (.ownership entry.stamp.root ref.root) (entry, streams) := by
  rw [editEntry, Access.node_bind_apply, Entry.addReviewer, attach, ensureSameRoot]
  split <;> rfl

private theorem step_changeEntry {change : EntryChange String} {found : EntryChange NodeRef}
    (h : AtHand workspace entry place) (hfound : change.lookup workspace.refs.find? = some found) :
    (∀ answer state, editEntry found (entry, workspace.streams) = .ok answer state →
      ∃ later, step (.changeEntry place change) workspace = (answer, later) ∧
        AtHand later state.1 place) ∧
    ∀ error, editEntry found (entry, workspace.streams) = .error error (entry, workspace.streams) →
      step (.changeEntry place change) workspace = (.failed error, workspace) := by
  obtain ⟨put, hput, hlater, hrun⟩ := atEntryMut_of_atHand h
  have hstep : perform (.changeEntry place change) workspace =
      mapState put (editEntry found (entry, workspace.streams)) := by
    rw [perform_changeEntry (hasPlace_of_atHand h) hfound, hrun]
  constructor
  · intro answer state hedit
    refine ⟨put state, ?_, hlater state⟩
    rw [step, hstep, hedit]
    rfl
  · intro error hedit
    rw [step, hstep, hedit, mapState_error, hput]

/-- Whether an attempt to refer to `ref` from the entry at a place succeeds, for both kinds of
references, and what the place has then. -/
private theorem step_attach {key : String} (h : AtHand workspace entry place)
    (hkey : workspace.refs.find? key = some ref) :
    (entry.stamp.root = ref.root →
      (∃ changed later, step (.changeEntry place (.setApprover key)) workspace =
        (.entry changed, later) ∧
        AtHand later changed place ∧ changed = { entry with approver := some ref }) ∧
      ∃ changed later, step (.changeEntry place (.addReviewer key)) workspace =
        (.entry changed, later) ∧
        AtHand later changed place ∧
        changed = { entry with reviewers := entry.reviewers ++ [ref] }) ∧
    (entry.stamp.root ≠ ref.root →
      step (.changeEntry place (.setApprover key)) workspace =
        (.failed (.ownership entry.stamp.root ref.root), workspace) ∧
      step (.changeEntry place (.addReviewer key)) workspace =
        (.failed (.ownership entry.stamp.root ref.root), workspace)) := by
  have hset : (EntryChange.setApprover key).lookup workspace.refs.find? =
    some (.setApprover ref) := by
    simp [EntryChange.lookup, hkey]
  have hadd : (EntryChange.addReviewer key).lookup workspace.refs.find? =
    some (.addReviewer ref) := by
    simp [EntryChange.lookup, hkey]
  have happrover := step_changeEntry h hset
  have hreviewer := step_changeEntry h hadd
  rw [editEntry_setApprover] at happrover
  rw [editEntry_addReviewer] at hreviewer
  constructor
  · intro hroot
    rw [if_pos hroot] at happrover hreviewer
    obtain ⟨later, hlater, hhand⟩ := happrover.1 _ _ rfl
    obtain ⟨later', hlater', hhand'⟩ := hreviewer.1 _ _ rfl
    exact ⟨⟨_, later, hlater, hhand, rfl⟩, ⟨_, later', hlater', hhand', rfl⟩⟩
  · intro hroot
    rw [if_neg hroot] at happrover hreviewer
    exact ⟨happrover.2 _ rfl, hreviewer.2 _ rfl⟩

/-- Whatever trees a run of operations makes, no two of them ever have the same root. A reference to
an identity that was seen during the run is taken by an entry at hand exactly if the entry is of the
same tree, and the entry with the reference is what its place has then; otherwise the answer names
both roots, and the workspace is as it was. -/
theorem attach_across_roots :
    (∀ (ops more : List Op) (holder other : Holder) (tree later : Tree),
      (run ops {}).2.tree? holder = some tree → (run (ops ++ more) {}).2.tree? other = some later →
      (tree.stamp.root = later.stamp.root ↔ other = holder ∧ ¬ Renews holder more (run ops {}).2)) ∧
    ∀ (ops more : List Op) (seen : SeenIdentity) (as key : String) (ref : NodeRef)
      (place : EntryPlace) (sighted now : Workspace),
      step (.lookAtIdentity seen (.keepRef as)) (run ops {}).2 = (.ref ref, sighted) →
      step (.changeEntry place .touch) (run more sighted).2 = (.nothing, now) →
      now.refs.find? key = some ref →
      ∃ source tree, sighted.tree? seen.holder = some source ∧ now.tree? place.holder = some tree ∧
        (place.holder = seen.holder ∧ ¬ Renews seen.holder more sighted →
          (∃ entry later, step (.changeEntry place (.setApprover key)) now = (.entry entry, later) ∧
            AtHand later entry place ∧ entry.approver = some ref) ∧
          ∃ entry later, step (.changeEntry place (.addReviewer key)) now = (.entry entry, later) ∧
            AtHand later entry place ∧ entry.reviewers.getLast? = some ref) ∧
        (¬ (place.holder = seen.holder ∧ ¬ Renews seen.holder more sighted) →
          step (.changeEntry place (.setApprover key)) now =
            (.failed (.ownership tree.stamp.root source.stamp.root), now) ∧
          step (.changeEntry place (.addReviewer key)) now =
            (.failed (.ownership tree.stamp.root source.stamp.root), now)) := by
  constructor
  · intro ops more holder other tree later htree hlater
    rw [run_append] at hlater
    exact root_eq_iff (sound_run ops sound_empty) htree hlater
  · intro ops more seen as key ref place sighted now hseen htouch hkey
    have hfirst : Sound (run ops {}).2 := sound_run ops sound_empty
    have hsighted : Sound sighted := by
      have := sound_step (.lookAtIdentity seen (.keepRef as)) hfirst
      rwa [hseen] at this
    have hnow : Sound now := by
      have := sound_step (.changeEntry place .touch) (sound_run more hsighted)
      rwa [htouch] at this
    obtain ⟨source, hsource, hfound⟩ := root_of_seen hfirst hseen
    obtain ⟨entry, hentry⟩ := atHand_of_touch htouch
    obtain ⟨tree, htree, hroot⟩ := root_of_atHand hnow hentry
    obtain ⟨hsame, hother⟩ := step_attach hentry hkey
    -- Fetching the entry leaves the roots alone, so the trees before it can be compared.
    have hgrows : Grows (run more sighted).2 now := by
      have hstep := @grows_step_of_brings (.changeEntry place .touch) (run more sighted).2 rfl
      rwa [htouch] at hstep
    obtain ⟨earlier, hearlier, hkept⟩ := hgrows.earlier htree
    have hiff : entry.stamp.root = ref.root ↔
        place.holder = seen.holder ∧ ¬ Renews seen.holder more sighted := by
      rw [hroot, hkept.stamp_eq, hfound, eq_comm]
      exact root_eq_iff hsighted hsource hearlier
    refine ⟨source, tree, hsource, htree, fun hown => ?_, fun hown => ?_⟩
    · obtain ⟨⟨changed, later, hstep, hhand, hchanged⟩,
        ⟨changed', later', hstep', hhand', hchanged'⟩⟩ :=
        hsame (hiff.2 hown)
      exact ⟨⟨changed, later, hstep, hhand, by rw [hchanged]⟩,
        ⟨changed', later', hstep', hhand', by simp [hchanged']⟩⟩
    · rw [← hroot, ← hfound]
      exact hother fun h => hown (hiff.1 h)

/-- An entry of the second document refuses a reference into the first. -/
theorem attach_across_roots_refused :
    ∃ ref sighted now,
      step (.lookAtIdentity (.identification (.inDocument "a" 0)) (.keepRef "r"))
        (run [.newDocument "a", .addEntry "a", .newDocument "b", .addEntry "b"] {}).2 =
          (.ref ref, sighted) ∧
      step (.changeEntry (.inDocument "b" 0) .touch) sighted = (.nothing, now) ∧
      step (.changeEntry (.inDocument "b" 0) (.setApprover "r")) now =
        (.failed (.ownership ⟨2⟩ ⟨1⟩), now) := by
  obtain ⟨source, tree, hsource, htree, -, hrefused⟩ := attach_across_roots.2
    [.newDocument "a", .addEntry "a", .newDocument "b", .addEntry "b"] []
    (.identification (.inDocument "a" 0)) "r" "r" _ (.inDocument "b" 0) _ _ rfl rfl rfl
  obtain ⟨hstep, -⟩ := hrefused fun hown => nomatch hown.1
  cases hsource
  cases htree
  exact ⟨_, _, _, rfl, rfl, hstep⟩

end Workspace
end FramedTree
