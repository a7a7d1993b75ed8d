import FramedTree.Proofs.TreeMoves

/-! # How far operations reach

An operation on a document is made of moves of that document, and each of them is about a node that
the operation asks for or has to pass on the way. What an operation asks for can be read off the
operation and the references at hand.
-/

namespace FramedTree

open Document (Node)

variable {α β ε ν : Type} {writing : Writing}

inductive WorkspaceEvent where
  | document (name : String) (event : DocumentEvent)
  | entry (name : String) (event : EntryEvent)
  /-- Something that leaves streams, documents and entries alone. -/
  | aside
  deriving DecidableEq, Repr

/-- The nodes that a look at the entry with number `i` asks for. -/
def EntryLook.goals (i : Nat) : EntryLook → List Node
  | .text => [.identification i, .secretIdentity i]
  | .child field index => .entry i :: ((Node.entry i).next field index).toList
  | .info | .reviewer _ | .keepApprover _ | .keepReviewer _ _ => [.entry i]

/-- The nodes that a change of the entry with number `i` asks for. -/
def EntryChange.goals {ρ : Type} (i : Nat) : EntryChange ρ → List Node
  | .loadAll => [.identification i, .secretIdentity i]
  | _ => [.entry i]

private theorem EntryLook.entry_onWay (i : Nat) (look : EntryLook) :
    ∃ goal ∈ look.goals i, .entry i ∈ goal.onWay := by
  cases look <;> exact ⟨_, List.mem_cons_self, List.mem_cons_self⟩

private theorem EntryChange.entry_onWay {ρ : Type} (i : Nat) (change : EntryChange ρ) :
    ∃ goal ∈ change.goals i, .entry i ∈ goal.onWay := by
  cases change <;> exact ⟨_, List.mem_cons_self, List.mem_cons_self⟩

theorem EntryChange.goals_lookup {ρ ρ' : Type} {find? : ρ → Option ρ'} {change : EntryChange ρ}
    {changed : EntryChange ρ'} (i : Nat) (h : change.lookup find? = some changed) :
    changed.goals i = change.goals i := by
  cases change with
  | touch | clearApprover | clearSecretIdentity | loadAll =>
    cases h
    rfl
  | setApprover ref | addReviewer ref | removeReviewers ref =>
    obtain ⟨found, -, rfl⟩ := Option.map_eq_some_iff.1 h
    rfl

/-- The node of a document that is meant, if it is one. -/
def SeenIdentity.goal : SeenIdentity → Option (String × Node)
  | .identification (.inDocument document i) => some (document, .identification i)
  | .secretIdentity (.inDocument document i) => some (document, .secretIdentity i)
  | _ => none

def ChangedIdentity.goal : ChangedIdentity → Option (String × Node)
  | .identification (.inDocument document i) => some (document, .identification i)
  | .secretIdentity (.inDocument document i) | .addedSecretIdentity (.inDocument document i) =>
    some (document, .secretIdentity i)
  | _ => none

/-- Whether an operation asks for a node of the document `name`. -/
def Op.Asks (refs : Table String NodeRef) (name : String) (node : Node) : Op → Prop
  | .save document _ _ | .saveToBytes document _ | .documentText document | .loadAll document =>
    name = document
  | .equalDocuments document other => name = document ∨ name = other
  | .equalEntries entry other =>
    ∃ i, (entry = .inDocument name i ∨ other = .inDocument name i) ∧ node ∈ EntryLook.goals i .text
  | .entryPaths document => name = document ∧ ∃ i, node = .entry i
  | .documentChild document field index =>
    name = document ∧ Node.document.next field index = some node
  | .resolve document ref =>
    name = document ∧ ∃ target,
      refs.find? ref = some target ∧ Node.document.Passes target.path.steps node
  | .lookAtEntry (.inDocument document i) look => name = document ∧ node ∈ look.goals i
  | .changeEntry (.inDocument document i) change => name = document ∧ node ∈ change.goals i
  | .lookAtIdentity identity _ => identity.goal = some (name, node)
  | .changeIdentity identity _ => identity.goal = some (name, node)
  | _ => False

/-- Whether an operation asks for a node of the document `name` or has to pass it on the way. -/
def Op.Reaches (refs : Table String NodeRef) (op : Op) (name : String) (node : Node) : Prop :=
  ∃ goal, op.Asks refs name goal ∧ node ∈ goal.onWay

/-- Whether an operation works on what is in the workspace, and leaves the streams to those who read
them. -/
def Op.isInner : Op → Bool
  | .dump _ | .addEntry _ | .entryCount _ | .isEntryLoaded _ _ | .documentText _ | .entryPaths _
  | .loadAll _ | .documentChild _ _ _ | .documentStamp _ | .equalDocuments _ _ | .equalEntries _ _
  | .equalIdentities _ _ | .makeRef _ _ _ | .resolve _ _ | .lookAtEntry _ _ | .changeEntry _ _
  | .lookAtIdentity _ _ | .changeIdentity _ _ => true
  | _ => false

namespace Workspace

inductive Move (writing : Writing) : WorkspaceEvent → Workspace → Workspace → Prop where
  | document {name : String} {event : DocumentEvent} {workspace : Workspace}
      {document later : Document}
      {streams : Streams} (hfound : workspace.documents.find? name = some document)
      (hmove : Document.Move writing event (document, workspace.streams) (later, streams)) :
      Move writing (.document name event) workspace
        { workspace with streams, documents := workspace.documents.set name later }
  | entry {name : String} {event : EntryEvent} {workspace : Workspace} {entry later : Entry}
      {streams : Streams}
      (hfound : workspace.entries.find? name = some entry)
      (hmove : Entry.Move writing event (entry, workspace.streams) (later, streams)) :
      Move writing (.entry name event) workspace
        { workspace with streams, entries := workspace.entries.set name later }
  | aside {workspace later : Workspace} (hstreams : later.streams = workspace.streams)
      (hdocuments : later.documents = workspace.documents)
      (hentries : later.entries = workspace.entries) :
      Move writing .aside workspace later

def course (writing : Writing) : Course WorkspaceEvent Workspace where
  Move := Move writing
  Quiet
    | .document _ event => (Document.course writing).Quiet event
    | .entry _ event => (Entry.course writing).Quiet event
    | .aside => False
  Blames error
    | .document _ event => (Document.course writing).Blames error event
    | .entry _ event => (Entry.course writing).Blames error event
    | .aside => False

def Admits (reach : String → Node → Prop) : WorkspaceEvent → Prop
  | .document name event => event.node = .document ∨ reach name event.node
  | .entry _ _ | .aside => True

section Rows

variable {Refuses : Error → Prop} {Q : WorkspaceEvent → Prop} {name : String}

private theorem treads_onRow {inner : Course ε (ν × Streams)} {f : ε → WorkspaceEvent}
    {P : ε → Prop} {get : Workspace → Table String ν} {put : Table String ν → Workspace → Workspace}
    {access : Access Streams ν α} (h : Treads inner ((View.seen Refuses).on ν) P access)
    (hput : ∀ workspace, put (get workspace) workspace = workspace)
    (hmove : ∀ workspace event, P event → ∀ state after, inner.Move event state after →
      Move writing (f event)
        (put ((get workspace).set name state.1) { workspace with streams := state.2 })
        (put ((get workspace).set name after.1) { workspace with streams := after.2 }))
    (hP : ∀ event, P event → Q (f event))
    (hquiet : ∀ event, inner.Quiet event → (course writing).Quiet (f event))
    (hblames : ∀ error event, inner.Blames error event → (course writing).Blames error (f event)) :
    Treads (course writing) (View.seen Refuses) Q (onRow get put name access) := by
  intro workspace hsound
  cases hfound : (get workspace).find? name with
  | none =>
    rw [onRow_apply_none hfound]
    exact .stay hsound
  | some value =>
    have hstart : (View.seen Refuses).look workspace =
        (fun state : ν × Streams => put ((get workspace).set name state.1)
          { workspace with streams := state.2 })
          (((View.seen Refuses).on ν).look (value, workspace.streams)) := by
      simp only [View.seen, View.on, id, Table.set_self hfound, hput]
    rw [onRow_apply_some hfound, hstart]
    refine Reached.lift (f := f)
      (g := fun state => put ((get workspace).set name state.1)
        { workspace with streams := state.2 })
      (Treads.map some h (value, workspace.streams) trivial)
        (hmove workspace) hP hquiet hblames ?_ ?_ ?_
    · exact fun _ _ => rfl
    · exact fun _ _ => trivial
    · exact fun _ hrefused => hrefused

theorem treads_onDocument {P : DocumentEvent → Prop} {access : Access Streams Document α}
    (h : Treads (Document.course writing) ((View.seen Refuses).on Document) P access)
    (hP : ∀ event, P event → Q (.document name event)) :
    Treads (course writing) (View.seen Refuses) Q (onDocument name access) := by
  refine treads_onRow (f := WorkspaceEvent.document name) h (fun _ => rfl) ?_ hP
    (fun _ hquiet => hquiet)
    fun _ _ hblames => hblames
  intro workspace event _ state after hmove
  let whole :=
    { workspace with streams := state.2, documents := workspace.documents.set name state.1 }
  have hstate : whole.documents.find? name = some state.1 := Table.find?_set_self ..
  have hwhole := Move.document hstate hmove
  rwa [Table.set_set] at hwhole

private theorem treads_onStandaloneEntry {P : EntryEvent → Prop} {access : Access Streams Entry α}
    (h : Treads (Entry.course writing) ((View.seen Refuses).on Entry) P access)
    (hP : ∀ event, P event → Q (.entry name event)) :
    Treads (course writing) (View.seen Refuses) Q (onStandaloneEntry name access) := by
  refine treads_onRow (f := WorkspaceEvent.entry name) h (fun _ => rfl) ?_ hP
    (fun _ hquiet => hquiet)
    fun _ _ hblames => hblames
  intro workspace event _ state after hmove
  let whole := { workspace with streams := state.2, entries := workspace.entries.set name state.1 }
  have hstate : whole.entries.find? name = some state.1 := Table.find?_set_self ..
  have hwhole := Move.entry hstate hmove
  rwa [Table.set_set] at hwhole

private theorem treads_onIdentity {access : Access Streams Identity α} {P : Unit → Prop}
    (h : Treads Identity.course ((View.seen Refuses).on Identity) P access)
    (haside : ∀ event, P event → Q .aside) :
    Treads (course writing) (View.seen Refuses) Q (onIdentity name access) := by
  refine treads_onRow (f := fun _ => WorkspaceEvent.aside) h (fun _ => rfl) ?_ haside
    (fun _ hquiet => hquiet.elim) fun _ _ hblames => hblames.elim
  intro workspace event _ state after hmove
  exact .aside hmove.2 rfl rfl

end Rows

theorem peeks_viewIdentity (look : IdentityLook) : Entry.Peeks (viewIdentity look) := by
  cases look with
  | child field index => exact Treads.pure _
  | info | text | keepRef as => exact Treads.node_bind fun _ => Treads.pure _

private theorem editIdentity_ok (change : IdentityChange) (identity : Identity)
    (streams : Streams) :
    ∃ answer later, editIdentity change (identity, streams) = .ok answer (later, streams) ∧
      later.stamp = identity.stamp := by
  cases change <;> exact ⟨_, _, rfl, rfl⟩

private theorem handles_editIdentity (change : IdentityChange) :
    Entry.Handles (editIdentity change) := by
  rintro ⟨identity, streams⟩ hsound
  obtain ⟨answer, later, hrun, hstamp⟩ := editIdentity_ok change identity streams
  rw [hrun]
  exact .ok trivial (@Trail.single _ _ _ _ _ () ⟨hstamp, rfl⟩) (by simp)

section Entries

variable {i : Nat} {reach : Node → Prop}

theorem looks_viewEntry {look : EntryLook} (hreach : ∀ node ∈ look.goals i, reach node) :
    Entry.Looks writing i reach (viewEntry look) := by
  cases look with
  | text =>
    exact Treads.bind_pure _
      (Entry.looks_text (hreach _ (by simp [EntryLook.goals]))
        (hreach _ (by simp [EntryLook.goals])))
  | child field index =>
    refine Treads.bind_pure _ (Entry.looks_child fun node hnode => hreach node ?_)
    simp [EntryLook.goals, hnode]
  | info | reviewer k | keepApprover as | keepReviewer k as =>
    exact Treads.node_bind fun _ => Treads.pure _

private theorem reached_replaceEntry {entry : Entry} {streams : Streams}
    {changed : Except Error Entry} (hreach : reach (.entry i))
    (hok : ∀ later, changed = .ok later → entry.Edited later)
    (herror : ∀ error, changed = .error error → error.Refused) :
    Reached (Entry.course writing) (View.plain.on Entry) (fun event => reach (event.node i))
      (entry, streams)
      (replaceEntry changed (entry, streams)) := by
  cases changed with
  | error error => exact .error trivial (.nil _) (by simp) (.inl (herror error rfl))
  | ok later =>
    refine .ok trivial (.single (Entry.Move.edited (hok later rfl))) fun event hevent => ?_
    rw [List.mem_singleton] at hevent
    rwa [hevent]

private theorem edited_references {entry : Entry} (approver : Option NodeRef)
    (reviewers : List NodeRef) :
    entry.Edited { entry with approver, reviewers } := ⟨rfl, rfl, fun _ hcell => .inl hcell⟩

private theorem attach_cases (root : RootId) (ref : NodeRef) :
    attach root ref = .ok ref ∨ ∃ error, attach root ref = .error error ∧ error.Refused := by
  unfold attach ensureSameRoot
  split
  · exact .inl rfl
  · exact .inr ⟨_, rfl, _, _, rfl⟩

private theorem reached_attach {entry : Entry} {streams : Streams} {change : NodeRef → Entry}
    (hreach : reach (.entry i)) (hedited : ∀ ref, entry.Edited (change ref)) (root : RootId)
    (ref : NodeRef) :
    Reached (Entry.course writing) (View.plain.on Entry) (fun event => reach (event.node i))
      (entry, streams)
      (replaceEntry (do return change (← attach root ref)) (entry, streams)) := by
  rcases attach_cases root ref with hattach | ⟨error, hattach, hrefused⟩
  · have hchange : (do return change (← attach root ref) : Except Error Entry) =
      .ok (change ref) := by
      rw [hattach]
      rfl
    rw [hchange]
    refine reached_replaceEntry hreach (fun later h => ?_) fun _ h => nomatch h
    cases h
    exact hedited ref
  · have hchange : (do return change (← attach root ref) : Except Error Entry) = .error error := by
      rw [hattach]
      rfl
    rw [hchange]
    refine reached_replaceEntry hreach (fun _ h => nomatch h) fun error h => ?_
    cases h
    exact hrefused

theorem works_editEntry {change : EntryChange NodeRef} (hentry : reach (.entry i))
    (hreach : ∀ node ∈ change.goals i, reach node) :
    Entry.Works writing i reach (editEntry change) := by
  cases change with
  | touch => exact Treads.pure _
  | loadAll =>
    refine Treads.bind_pure _
      (Entry.Looks.works (Entry.looks_loadAll (hreach _ ?_) (hreach _ ?_))) <;>
      simp [EntryChange.goals]
  | setApprover ref =>
    rintro ⟨entry, streams⟩ _
    exact reached_attach hentry (fun _ => edited_references _ _) entry.stamp.root ref
  | addReviewer ref =>
    rintro ⟨entry, streams⟩ _
    exact reached_attach hentry (fun _ => edited_references _ _) entry.stamp.root ref
  | removeReviewers ref =>
    rintro ⟨entry, streams⟩ _
    have hedited : entry.Edited (entry.removeReviewers ref) := edited_references _ _
    refine .ok trivial (.single (Entry.Move.edited hedited)) fun event hevent => ?_
    rw [List.mem_singleton] at hevent
    rwa [hevent]
  | clearApprover =>
    rintro ⟨entry, streams⟩ _
    rw [editEntry, Access.node_bind_apply]
    exact reached_replaceEntry hentry (fun _ h => by cases h; exact edited_references _ _)
      fun _ h => nomatch h
  | clearSecretIdentity =>
    rintro ⟨entry, streams⟩ _
    rw [editEntry, Access.node_bind_apply]
    refine reached_replaceEntry hentry (fun later h => ?_) fun _ h => nomatch h
    cases h
    exact ⟨rfl, rfl, fun cell hcell => by simp [Entry.clearSecretIdentity] at hcell⟩

end Entries

section Places

variable {Q : WorkspaceEvent → Prop} {reach : String → Node → Prop}

private theorem treads_atDocument {name : String} {access : Access Streams Document Answer}
    (h : Document.Works writing (fun node => node = .document ∨ reach name node) access) :
    Treads (course writing) (View.seen Error.Refused) (Admits reach) (atDocument name access) :=
  Treads.bind_pure _ (treads_onDocument h fun _ hevent => hevent)

private theorem treads_lookAt {name : String} {access : Access Streams Document α} {f : α → Answer}
    (h : Document.Looks writing (fun node => node = .document ∨ reach name node) access) :
    Treads (course writing) (View.seen Error.Refused) (Admits reach)
      (atDocument name (do return f (← access))) :=
  treads_atDocument (Treads.bind_pure f (Document.Looks.works h))

/-- Looks are admitted also before something else is done. -/
theorem quiet_atDocument {name : String} {access : Access Streams Document Answer}
    (h : Document.Looks writing (fun node => node = .document ∨ reach name node) access) :
    Treads (course writing) (View.seen Error.Refused)
      (fun event => Admits reach event ∧ (course writing).Quiet event)
      (atDocument name access) :=
  Treads.bind_pure _
    (treads_onDocument h fun _ hevent => ⟨hevent.1, Document.quiet_of_isLook hevent.2⟩)

theorem quiet_atEntry {place : EntryPlace} {access : Access Streams Entry Answer}
    (h : ∀ name i, place = .inDocument name i →
      Entry.Looks writing i (fun node => node = .document ∨ reach name node) access ∧
      reach name (.entry i))
    (hstandalone : Entry.Looks writing 0 (fun _ => True) access) :
    Treads (course writing) (View.seen Error.Refused)
      (fun event => Admits reach event ∧ (course writing).Quiet event)
      (atEntry place access) := by
  cases place with
  | inDocument name i =>
    obtain ⟨hlooks, hreach⟩ := h name i rfl
    exact quiet_atDocument (Treads.bind_pure _ (Document.looks_onEntry hlooks (.inr hreach)))
  | standalone name =>
    exact Treads.bind_pure _
      (treads_onStandaloneEntry hstandalone fun _ hevent => ⟨trivial, .inl hevent.2⟩)

private theorem treads_atEntryMut {place : EntryPlace} {access : Access Streams Entry Answer}
    (h : ∀ name i, place = .inDocument name i →
      Entry.Works writing i (fun node => node = .document ∨ reach name node) access ∧
      reach name (.entry i))
    (hstandalone : Entry.Works writing 0 (fun _ => True) access) :
    Treads (course writing) (View.seen Error.Refused) (Admits reach) (atEntryMut place access) := by
  cases place with
  | inDocument name i =>
    obtain ⟨hworks, hreach⟩ := h name i rfl
    exact treads_atDocument (Treads.bind_pure _ (Document.works_onEntryMut hworks (.inr hreach)))
  | standalone name =>
    exact Treads.bind_pure _ (treads_onStandaloneEntry hstandalone fun _ _ => trivial)

theorem quiet_atIdentity {identity : SeenIdentity} {access : Access Streams Identity Answer}
    (h : Entry.Peeks access)
    (hreach : ∀ name goal, identity.goal = some (name, goal) → ∀ node ∈ goal.onWay,
      reach name node) :
    Treads (course writing) (View.seen Error.Refused)
      (fun event => Admits reach event ∧ (course writing).Quiet event)
      (atIdentity identity access) := by
  cases identity with
  | standalone name => exact Treads.bind_pure _ (treads_onIdentity h fun _ hevent => hevent.elim)
  | identification place =>
    refine quiet_atEntry (fun name i hplace => ?_) (Entry.looks_onIdentification h trivial)
    subst hplace
    exact ⟨Entry.looks_onIdentification h (.inr (hreach name _ rfl _ (by simp [Node.onWay]))),
      hreach name _ rfl _ (by simp [Node.onWay])⟩
  | secretIdentity place =>
    refine quiet_atEntry (fun name i hplace => ?_)
      (Entry.Looks.bind_pure _ (Entry.looks_onSecretIdentity h trivial))
    subst hplace
    exact ⟨Entry.Looks.bind_pure _
      (Entry.looks_onSecretIdentity h (.inr (hreach name _ rfl _ (by simp [Node.onWay])))),
      hreach name _ rfl _ (by simp [Node.onWay])⟩

private theorem treads_atIdentityMut {identity : ChangedIdentity}
    {access : Access Streams Identity Answer} (h : Entry.Handles access)
    (hsure : ∀ identity streams, ∃ value later,
      access (identity, streams) = .ok value (later, streams))
    (hreach : ∀ name goal, identity.goal = some (name, goal) → ∀ node ∈ goal.onWay,
      reach name node) :
    Treads (course writing) (View.seen Error.Refused) (Admits reach)
      (atIdentityMut identity access) := by
  cases identity with
  | standalone name => exact Treads.bind_pure _ (treads_onIdentity h fun _ _ => trivial)
  | identification place =>
    refine treads_atEntryMut (fun name i hplace => ?_) (Entry.works_onIdentificationMut h trivial)
    subst hplace
    exact ⟨Entry.works_onIdentificationMut h (.inr (hreach name _ rfl _ (by simp [Node.onWay]))),
      hreach name _ rfl _ (by simp [Node.onWay])⟩
  | secretIdentity place =>
    refine treads_atEntryMut (fun name i hplace => ?_)
      (Entry.Works.bind_pure _ (Entry.works_onSecretIdentityMut h trivial))
    subst hplace
    exact ⟨Entry.Works.bind_pure _
      (Entry.works_onSecretIdentityMut h (.inr (hreach name _ rfl _ (by simp [Node.onWay])))),
      hreach name _ rfl _ (by simp [Node.onWay])⟩
  | addedSecretIdentity place =>
    refine treads_atEntryMut (fun name i hplace => ?_)
      (Entry.works_addSecretIdentity h hsure trivial trivial)
    subst hplace
    have hentry : reach name (.entry i) := hreach name _ rfl _ (by simp [Node.onWay])
    have hsecret : reach name (.secretIdentity i) := hreach name _ rfl _ (by simp [Node.onWay])
    exact ⟨Entry.works_addSecretIdentity h hsure (.inr hentry) (.inr hsecret), hentry⟩

theorem treads_keepAnswer (haside : Q .aside) (as : String) (answer : Answer) :
    Treads (course writing) (View.seen Error.Refused) Q (keepAnswer as answer) := by
  unfold keepAnswer
  split
  · intro workspace _
    refine .ok trivial (.single (.aside rfl rfl rfl)) fun event hevent => ?_
    rw [List.mem_singleton] at hevent
    rwa [hevent]
  · exact Treads.pure _

end Places

section Comparing

variable {Q : WorkspaceEvent → Prop}

/-- An activity that cannot fail and makes its way by moves with a property. -/
def Strolls (writing : Writing) (Q : WorkspaceEvent → Prop) (activity : StateM Workspace α) :
    Prop :=
  ∀ workspace, ∃ events, Trail (Move writing) events workspace (activity workspace).2 ∧
    ∀ event ∈ events, Q event

private theorem Strolls.pure (value : α) :
    Strolls writing Q (Pure.pure value) := fun workspace => ⟨[], .nil workspace, by simp⟩

private theorem Strolls.bind {activity : StateM Workspace α} {next : α → StateM Workspace β}
    (h : Strolls writing Q activity) (hnext : ∀ value, Strolls writing Q (next value)) :
    Strolls writing Q (activity >>= next) := by
  intro workspace
  obtain ⟨events, htrail, hall⟩ := h workspace
  obtain ⟨more, htrail', hall'⟩ := hnext (activity workspace).1 (activity workspace).2
  refine ⟨events ++ more, htrail.append htrail', fun event hevent => ?_⟩
  rcases List.mem_append.1 hevent with hevent | hevent
  · exact hall event hevent
  · exact hall' event hevent

private theorem strolls_look {spot : Spot Workspace ν} {access : Access Streams ν α}
    {Refuses : Error → Prop} (h : Treads (course writing) (View.seen Refuses) Q (spot.run access)) :
    Strolls writing Q (spot.look access) := by
  intro workspace
  have hrun := h workspace trivial
  unfold Spot.look
  generalize spot.run access workspace = result at hrun ⊢
  cases hrun with
  | ok _ htrail hall => exact ⟨_, htrail, hall⟩
  | error _ htrail hall _ => exact ⟨_, htrail, fun event hevent => (hall event hevent).1⟩

def Shown (writing : Writing) (Q : WorkspaceEvent → Prop) (spot : Spot Workspace Entry) : Prop :=
  ∀ {β : Type} {access : Access Streams Entry β}, Entry.Looks writing 0 (fun _ => True) access →
    Treads (course writing) (View.seen Error.Refused) Q (spot.run access)

private theorem strolls_entryEqual {left right : Spot Workspace Entry}
    (hleft : Shown writing Q left) (hright : Shown writing Q right) :
    Strolls writing Q (Entry.equal left right) := by
  have hidentification : Entry.Looks writing 0 (fun _ => True)
    (Entry.onIdentification Access.node) :=
    Entry.looks_onIdentification Treads.node trivial
  have hsecret : Entry.Looks writing 0 (fun _ => True) Entry.secretAndEntry :=
    Entry.looks_secretAndEntry trivial
  refine Strolls.bind (strolls_look (hleft hidentification)) fun _ => ?_
  refine Strolls.bind (strolls_look (hright hidentification)) fun _ => ?_
  refine Strolls.bind (strolls_look (hleft hsecret)) fun _ => ?_
  refine Strolls.bind (strolls_look (hright hsecret)) fun _ => ?_
  split <;> exact Strolls.pure _

private theorem shown_entry {name : String} {i : Nat} {reach : String → Node → Prop}
    (hreach : ∀ event : CellEvent EntryEvent,
      event.node i = .document ∨ reach name (event.node i)) :
    Shown writing (Admits reach) ((documentSpot name).entry i) := by
  intro β access h
  refine Treads.bind_pure _
    (treads_onDocument (P := Admits reach ∘ .document name) ?_ fun _ hevent => hevent)
  exact Document.treads_slot (fun _ => Lazy.access_opens _ _) h (fun event _ => hreach event)
    fun event _ => hreach (.within event)

private theorem strolls_allEqual {left right : Spot Workspace Document}
    (hleft : ∀ i, Shown writing Q (left.entry i)) (hright : ∀ i, Shown writing Q (right.entry i))
    (pairs : List (Nat × Nat)) :
    Strolls writing Q (Entry.allEqual left right pairs) := by
  induction pairs with
  | nil => exact Strolls.pure _
  | cons pair rest ih =>
    refine Strolls.bind (strolls_entryEqual (hleft _) (hright _)) fun same => ?_
    cases same with
    | true => exact ih
    | false => exact Strolls.pure _

private theorem strolls_documentLook {name : String} {reach : String → Node → Prop}
    {access : Access Streams Document α}
    (h : Document.Looks writing (fun node => node = .document ∨ reach name node) access) :
    Strolls writing (Admits reach) ((documentSpot name).look access) :=
  strolls_look (treads_onDocument h fun _ hevent => hevent.1)

section Whole

variable {name other : String} {reach : String → Node → Prop}

private theorem strolls_entryNumbers (hreach : ∀ node, node = .document ∨ reach name node) :
    Strolls writing (Admits reach) (Document.entryNumbers (documentSpot name)) := by
  refine Strolls.bind (strolls_documentLook (Document.looks_entryList fun i => hreach _))
    fun loaded => ?_
  refine Strolls.bind (strolls_documentLook Treads.node) fun document => ?_
  split <;> exact Strolls.pure _

private theorem strolls_documentEqual (hname : ∀ node, node = .document ∨ reach name node)
    (hother : ∀ node, node = .document ∨ reach other node) :
    Strolls writing (Admits reach) (Document.equal (documentSpot name) (documentSpot other)) := by
  refine Strolls.bind (strolls_entryNumbers hname) fun mine => ?_
  refine Strolls.bind (strolls_entryNumbers hother) fun theirs => ?_
  split
  · split
    · exact strolls_allEqual (fun _ => shown_entry fun _ => hname _)
        (fun _ => shown_entry fun _ => hother _) _
    · exact Strolls.pure _
  · exact Strolls.pure _

end Whole

private theorem shown_entrySpot {place : EntryPlace} {reach : String → Node → Prop}
    (hreach : ∀ name i, place = .inDocument name i → ∀ event : CellEvent EntryEvent,
      reach name (event.node i)) :
    Shown writing (Admits reach) (entrySpot place) := by
  cases place with
  | inDocument name i => exact shown_entry fun event => .inr (hreach name i rfl event)
  | standalone name =>
    intro β access h
    exact treads_onStandaloneEntry h fun _ _ => trivial

private theorem strolls_compareEntries {entry other : EntryPlace}
    (hentry : Shown writing Q (entrySpot entry)) (hother : Shown writing Q (entrySpot other)) :
    Strolls writing Q (compareEntries entry other) := by
  refine Strolls.bind (strolls_look (hentry Treads.node)) fun mine => ?_
  refine Strolls.bind (strolls_look (hother Treads.node)) fun theirs => ?_
  split
  · exact Strolls.bind (strolls_entryEqual hentry hother) fun _ => Strolls.pure _
  · exact Strolls.pure _

end Comparing

private theorem Strolls.reached {activity : StateM Workspace α} {Q : WorkspaceEvent → Prop}
    {Refuses : Error → Prop} {f : α → Answer} {workspace : Workspace}
    (h : Strolls writing Q activity) :
    Reached (course writing) (View.seen Refuses) Q workspace
      (.ok (f (activity workspace).1) (activity workspace).2) := by
  obtain ⟨events, htrail, hall⟩ := h workspace
  exact .ok trivial htrail hall

/-- An operation that asks for a node reaches it, unless it is the document itself. -/
theorem reaches_of_asks {refs : Table String NodeRef} {op : Op} {name : String} {node : Node}
    (h : op.Asks refs name node) : node = .document ∨ op.Reaches refs name node := by
  by_cases hnode : node = .document
  · exact .inl hnode
  · exact .inr ⟨node, h, Node.mem_onWay hnode⟩

private theorem goals_text_asked {i : Nat} (event : CellEvent EntryEvent) :
    ∃ goal ∈ EntryLook.goals i .text, event.node i ∈ goal.onWay := by
  cases event with
  | read origin failure | settled =>
    exact ⟨.identification i, by simp [EntryLook.goals], by simp [CellEvent.node, Node.onWay]⟩
  | within event =>
    cases event with
    | identification event =>
      exact ⟨.identification i,
        by simp [EntryLook.goals], by simp [CellEvent.node, EntryEvent.node, Node.onWay]⟩
    | secretIdentity event =>
      exact ⟨.secretIdentity i,
        by simp [EntryLook.goals], by simp [CellEvent.node, EntryEvent.node, Node.onWay]⟩
    | edited | wrote =>
      exact ⟨.identification i,
        by simp [EntryLook.goals], by simp [CellEvent.node, EntryEvent.node, Node.onWay]⟩

/-- What an operation does in the workspace is done by moves of nodes that it reaches. -/
abbrev Reaches (writing : Writing) (workspace : Workspace) (op : Op) : Prop :=
  Reached (course writing) (View.seen Error.Refused) (Admits (op.Reaches workspace.refs)) workspace
    (perform op workspace)

section Operations

variable {workspace : Workspace}

private theorem reaches_perform_equalDocuments (document other : String) :
    Reaches writing workspace (.equalDocuments document other) := by
  rw [Reaches, perform, get_bind_apply]
  cases workspace.documents.find? document with
  | none => exact .stay trivial
  | some mine =>
    cases workspace.documents.find? other with
    | none => exact .stay trivial
    | some theirs =>
      refine Strolls.reached (f := Answer.flag)
        (strolls_documentEqual (fun node => ?_) fun node => ?_)
      · exact reaches_of_asks (.inl rfl)
      · exact reaches_of_asks (.inr rfl)

private theorem reaches_perform_equalEntries (entry other : EntryPlace) :
    Reaches writing workspace (.equalEntries entry other) := by
  rw [Reaches, perform_equalEntries]
  split
  · refine (strolls_compareEntries (shown_entrySpot fun name i hplace event => ?_)
      (shown_entrySpot fun name i hplace event => ?_)).reached (f := id)
    · obtain ⟨goal, hgoal, hnode⟩ := goals_text_asked (i := i) event
      exact ⟨goal, ⟨i, .inl hplace, hgoal⟩, hnode⟩
    · obtain ⟨goal, hgoal, hnode⟩ := goals_text_asked (i := i) event
      exact ⟨goal, ⟨i, .inr hplace, hgoal⟩, hnode⟩
  · exact .stay trivial

private theorem reaches_perform_equalIdentities (identity other : String) :
    Reaches writing workspace (.equalIdentities identity other) := by
  rw [Reaches, perform, get_bind_apply]
  cases workspace.identities.find? identity <;> cases workspace.identities.find? other <;>
    exact .stay trivial

private theorem reaches_perform_makeRef (owner : RefOwner) (coordinates : List UInt64)
    (as : String) :
    Reaches writing workspace (.makeRef owner coordinates as) := by
  rw [Reaches, perform, get_bind_apply]
  cases workspace.ownerRoot owner with
  | none => exact .stay trivial
  | some root => exact treads_keepAnswer trivial _ _ workspace trivial

private theorem reaches_perform_resolve (document ref : String) :
    Reaches writing workspace (.resolve document ref) := by
  rw [Reaches, perform, get_bind_apply]
  cases hfound : workspace.refs.find? ref with
  | none => exact treads_atDocument (Treads.pure _) workspace trivial
  | some target =>
    refine treads_lookAt (Document.looks_resolveIdentity fun found hpasses way hway => .inr ?_)
      workspace trivial
    exact ⟨found, ⟨rfl, target, hfound, hpasses⟩, hway⟩

private theorem reaches_perform_lookAtEntry (entry : EntryPlace) (look : EntryLook) :
    Reaches writing workspace (.lookAtEntry entry look) := by
  have hentry : Treads (course writing) (View.seen Error.Refused)
      (fun event => Admits (Op.Reaches workspace.refs (.lookAtEntry entry look)) event ∧
        (course writing).Quiet event)
      (atEntry entry (viewEntry look)) := by
    refine quiet_atEntry (fun name i hplace => ?_) (looks_viewEntry fun _ _ => trivial)
    subst hplace
    refine ⟨looks_viewEntry fun node hnode => reaches_of_asks ⟨rfl, hnode⟩, ?_⟩
    obtain ⟨goal, hgoal, hway⟩ := EntryLook.entry_onWay i look
    exact ⟨goal, ⟨rfl, hgoal⟩, hway⟩
  refine Treads.bind hentry (fun answer => ?_) workspace trivial
  split
  · exact treads_keepAnswer trivial _ _
  · exact treads_keepAnswer trivial _ _
  · exact Treads.pure _

private theorem reaches_perform_changeEntry (entry : EntryPlace) (change : EntryChange String) :
    Reaches writing workspace (.changeEntry entry change) := by
  rw [Reaches, perform, get_bind_apply]
  split
  · exact .stay trivial
  · cases hlookup : change.lookup workspace.refs.find? with
    | none => exact .stay trivial
    | some changed =>
      have hgoals (i : Nat) : changed.goals i = change.goals i := EntryChange.goals_lookup i hlookup
      refine treads_atEntryMut (fun name i hplace => ?_)
        (works_editEntry trivial fun _ _ => trivial) workspace trivial
      subst hplace
      obtain ⟨goal, hgoal, hway⟩ := EntryChange.entry_onWay i change
      have hentry : Op.Reaches workspace.refs (.changeEntry (.inDocument name i) change) name
        (.entry i) :=
        ⟨goal, ⟨rfl, hgoal⟩, hway⟩
      refine ⟨works_editEntry (.inr hentry) fun node hnode => reaches_of_asks ⟨rfl, ?_⟩, hentry⟩
      rwa [← hgoals]

private theorem reaches_perform_lookAtIdentity (identity : SeenIdentity) (look : IdentityLook) :
    Reaches writing workspace (.lookAtIdentity identity look) := by
  refine Treads.bind (quiet_atIdentity (peeks_viewIdentity look) ?_)
    (fun answer => ?_) workspace trivial
  · exact fun name goal hgoal node hnode => ⟨goal, hgoal, hnode⟩
  · split
    · exact treads_keepAnswer trivial _ _
    · exact Treads.pure _

private theorem reaches_perform_changeIdentity (identity : ChangedIdentity)
    (change : IdentityChange) :
    Reaches writing workspace (.changeIdentity identity change) := by
  refine treads_atIdentityMut (handles_editIdentity change) ?_ ?_ workspace trivial
  · intro identity streams
    obtain ⟨answer, later, hrun, -⟩ := editIdentity_ok change identity streams
    exact ⟨answer, later, hrun⟩
  · exact fun name goal hgoal node hnode => ⟨goal, hgoal, hnode⟩

end Operations

/-- What an operation does in a workspace is done by moves of nodes that it reaches. -/
theorem reached_perform {op : Op} (h : op.isInner) (workspace : Workspace) :
    Reached (course writing) (View.seen Error.Refused)
      (Admits (op.Reaches workspace.refs)) workspace
      (perform op workspace) := by
  cases op with
  | setStream | setFaults | patch | truncate | append | takeSeeks | newDocument | openDocument
  | readDocument | loadDocument | loadDocumentOf | save | saveToBytes | newEntry | newIdentity =>
    cases h
  | dump stream => exact .stay trivial
  | addEntry document =>
    exact treads_atDocument (Document.works_addEntry (.inl rfl)) workspace trivial
  | entryCount document | isEntryLoaded document i | documentStamp document =>
    exact treads_atDocument (Treads.node_bind fun _ => Treads.pure _) workspace trivial
  | documentText document =>
    refine treads_lookAt ?_ workspace trivial
    exact Document.looks_text fun _ => reaches_of_asks rfl
  | entryPaths document =>
    refine treads_lookAt ?_ workspace trivial
    exact Document.looks_entryList fun i => reaches_of_asks ⟨rfl, i, rfl⟩
  | loadAll document =>
    refine treads_lookAt ?_ workspace trivial
    exact Document.looks_loadAll fun _ => reaches_of_asks rfl
  | documentChild document field index =>
    refine treads_lookAt ?_ workspace trivial
    exact Document.looks_child fun _ hnext => reaches_of_asks ⟨rfl, hnext⟩
  | equalDocuments document other => exact reaches_perform_equalDocuments document other
  | equalEntries entry other => exact reaches_perform_equalEntries entry other
  | equalIdentities identity other => exact reaches_perform_equalIdentities identity other
  | makeRef owner coordinates as => exact reaches_perform_makeRef owner coordinates as
  | resolve document ref => exact reaches_perform_resolve document ref
  | lookAtEntry entry look => exact reaches_perform_lookAtEntry entry look
  | changeEntry entry change => exact reaches_perform_changeEntry entry change
  | lookAtIdentity identity look => exact reaches_perform_lookAtIdentity identity look
  | changeIdentity identity change => exact reaches_perform_changeIdentity identity change

end Workspace
end FramedTree
