import FramedTree.Proofs.WorkspaceTrees

/-! # Trees over whole runs

Every operation either gives one holder a new tree, with the next root number, or leaves all holders
with the trees they had, grown at most. From this follows what holds after any run of operations.
-/

namespace FramedTree.Workspace

/-- Compares the entries at two places, if both are there. -/
def compareEntries (entry other : EntryPlace) : StateM Workspace Answer := do
  let mine ← (entrySpot entry).look Access.node
  let theirs ← (entrySpot other).look Access.node
  match mine, theirs with
  | some _, some _ => return .flag (← Entry.equal (entrySpot entry) (entrySpot other))
  | _, _ => return .missing

theorem perform_equalEntries (entry other : EntryPlace) (workspace : Workspace) :
    perform (.equalEntries entry other) workspace =
      if workspace.hasPlace entry && workspace.hasPlace other then
        .ok (compareEntries entry other workspace).1 (compareEntries entry other workspace).2
      else .ok .noDocument workspace := by
  rw [perform, modifyGet_apply]
  cases hplace : workspace.hasPlace entry && workspace.hasPlace other with
  | false => rfl
  | true =>
    simp only [Bool.not_true, Bool.false_eq_true, if_false, if_true, compareEntries, bind,
      StateT.bind]
    obtain ⟨mine, between⟩ := (entrySpot entry).look Access.node workspace
    dsimp only
    obtain ⟨theirs, after⟩ := (entrySpot other).look Access.node between
    cases mine <;> cases theirs <;> rfl

private theorem safely_compareEntries (entry other : EntryPlace) :
    Safely Grows (compareEntries entry other) := by
  refine Safely.bind (safely_look (keepsAt_entrySpot entry) Keeps.node) fun mine => ?_
  refine Safely.bind (safely_look (keepsAt_entrySpot other) Keeps.node) fun theirs => ?_
  split
  · exact Safely.bind
      (safely_entryEqual keptByLooks_grows (keepsAt_entrySpot entry) (keepsAt_entrySpot other))
      fun _ => Safely.pure _
  · exact Safely.pure _

private theorem keeps_perform {op : Op} (h : op.brings = none) : Keeps Grows (perform op) := by
  cases op with
  | newDocument name | openDocument name stream codec | readDocument name stream position codec
  | loadDocument name bytes codec | loadDocumentOf name stream codec | newEntry name
  | newIdentity name => cases h
  | setStream stream bytes faults =>
    exact Keeps.bind (keeps_modify (fun _ => Nat.le_refl _) fun _ => rfl) fun _ => Keeps.pure _
  | setFaults stream faults | patch stream position bytes | truncate stream length
  | append stream bytes => exact keeps_editStream _ _
  | dump stream =>
    exact Keeps.bind Keeps.get fun _ => Keeps.bind (keeps_currentStream _) fun _ => Keeps.pure _
  | takeSeeks stream =>
    exact Keeps.bind Keeps.get fun _ => Keeps.bind (keeps_currentStream _) fun _ =>
      Keeps.bind (Keeps.map _ (keeps_editStream _ _)) fun _ => Keeps.pure _
  | save document stream codec =>
    exact Keeps.bind (keeps_currentStream _) fun _ =>
      keeps_atDocument (Keeps.bind (Document.keeps_save _ _ _) fun _ => Keeps.pure _)
  | saveToBytes document codec =>
    exact keeps_atDocument (Keeps.bind (Document.keeps_saveToBytes _) fun _ => Keeps.pure _)
  | addEntry document => exact keeps_atDocument fun state => Document.grows_addEntry
  | entryCount document | isEntryLoaded document i | documentStamp document =>
    exact keeps_atDocument (Keeps.bind Keeps.node fun _ => Keeps.pure _)
  | documentText document =>
    exact keeps_atDocument (Keeps.bind Document.keeps_text fun _ => Keeps.pure _)
  | entryPaths document =>
    exact keeps_atDocument (Keeps.bind Document.keeps_entryList fun _ => Keeps.pure _)
  | loadAll document =>
    exact keeps_atDocument (Keeps.bind Document.keeps_loadAll fun _ => Keeps.pure _)
  | documentChild document field index =>
    exact keeps_atDocument (Keeps.bind (Document.keeps_child _ _) fun _ => Keeps.pure _)
  | equalDocuments document other =>
    refine Keeps.bind Keeps.get fun workspace => ?_
    split
    · exact safely_documentEqual keptByLooks_grows (keepsAt_document document)
        (keepsAt_document other)
    · exact Keeps.pure _
  | equalEntries entry other =>
    intro workspace
    rw [perform_equalEntries]
    split
    · exact safely_compareEntries entry other workspace
    · exact refl_of Grows workspace
  | equalIdentities identity other =>
    refine Keeps.bind Keeps.get fun workspace => ?_
    split <;> exact Keeps.pure _
  | makeRef owner coordinates as =>
    refine Keeps.bind Keeps.get fun workspace => ?_
    split
    · exact keeps_keepAnswer _ _
    · exact Keeps.pure _
  | resolve document ref =>
    refine Keeps.bind Keeps.get fun workspace => keeps_atDocument ?_
    split
    · exact Keeps.bind (Document.keeps_resolveIdentity _) fun _ => Keeps.pure _
    · exact Keeps.pure _
  | lookAtEntry entry look =>
    refine Keeps.bind (keeps_atEntry entry (keeps_viewEntry look)) fun answer => ?_
    split
    · exact keeps_keepAnswer _ _
    · exact keeps_keepAnswer _ _
    · exact Keeps.pure _
  | changeEntry entry change =>
    refine Keeps.bind Keeps.get fun workspace => ?_
    split
    · exact Keeps.pure _
    · split
      · exact keeps_atEntryMut entry (keeps_editEntry _)
      · exact Keeps.pure _
  | lookAtIdentity identity look =>
    refine Keeps.bind (keeps_atIdentity identity (keeps_viewIdentity look)) fun answer => ?_
    split
    · exact keeps_keepAnswer _ _
    · exact Keeps.pure _
  | changeIdentity identity change => exact keeps_atIdentityMut identity (keeps_editIdentity change)

/-- One holder has got a new tree with the next root number, and no other tree has changed. -/
structure Brings (holder : Holder) (before after : Workspace) : Prop where
  issued_eq : after.roots.issued = before.roots.issued + 1
  tree : ∃ tree : Tree, tree.Intact ∧ tree.stamp.root = ⟨before.roots.issued + 1⟩ ∧
    ∀ other, after.tree? other = if other = holder then some tree else before.tree? other

/-- An activity that gives a holder a new tree, unless it fails. -/
def BringsTree {α : Type} (holder : Holder) (work : Work α) : Prop :=
  ∀ workspace, match work workspace with
    | .ok _ after => Brings holder workspace after
    | .error _ after => Grows workspace after

def SameTrees (before after : Workspace) : Prop :=
  after.roots = before.roots ∧ after.tree? = before.tree?

instance : IsPreorder Workspace SameTrees where
  refl _ := ⟨rfl, rfl⟩
  trans _ _ _ hab hbc := ⟨hbc.1.trans hab.1, hbc.2.trans hab.2⟩

private theorem SameTrees.grows {before after : Workspace} (h : SameTrees before after) :
    Grows before after :=
  grows_of_tree?_eq (Nat.le_of_eq (congrArg Roots.issued h.1.symm)) h.2

namespace BringsTree

variable {α β : Type} {holder : Holder}

private theorem bind_pure {work : Work α} (f : α → β) (h : BringsTree holder work) :
    BringsTree holder (do return f (← work)) := by
  intro workspace
  have hwork := h workspace
  rw [bind_apply]
  cases hrun : work workspace with
  | ok value after | error error after =>
    rw [hrun] at hwork
    exact hwork

private theorem quiet_bind {work : Work α} {next : α → Work β} (hwork : Keeps SameTrees work)
    (h : ∀ value, BringsTree holder (next value)) : BringsTree holder (work >>= next) := by
  intro workspace
  have hsame := hwork workspace
  rw [bind_apply]
  cases hrun : work workspace with
  | error error between =>
    rw [hrun] at hsame
    exact SameTrees.grows hsame
  | ok value between =>
    rw [hrun] at hsame
    have hnext := h value between
    obtain ⟨hroots, htree⟩ := hsame
    simp only [stateAfter_ok] at hroots htree ⊢
    cases hresult : next value between with
    | error error after =>
      rw [hresult] at hnext
      exact trans_of Grows (SameTrees.grows ⟨hroots, htree⟩) hnext
    | ok result after =>
      rw [hresult] at hnext
      obtain ⟨hissued, hnew⟩ := hnext
      rw [hroots, htree] at hnew
      rw [hroots] at hissued
      exact ⟨hissued, hnew⟩

end BringsTree

private theorem sameTrees_onStreams {β : Type} (load : Load β) :
    Keeps SameTrees (onStreams load) := by
  intro workspace
  rw [onStreams_apply, stateAfter_mapState]
  exact ⟨rfl, rfl⟩

private theorem sameTrees_currentStream (name : String) : Keeps SameTrees (currentStream name) :=
  Keeps.bind Keeps.get fun _ => Keeps.pure _

private theorem openSource_ok {source : Source} {workspace after : Workspace} {document : Document}
    (h : openSource source workspace = .ok document after) :
    document.Intact ∧ document.stamp.root = ⟨workspace.roots.issued + 1⟩ ∧
      after.roots.issued = workspace.roots.issued + 1 ∧ after.tree? = workspace.tree? := by
  have hsame := sameTrees_onStreams (Document.readHeader source) workspace
  rw [openSource, bind_apply] at h
  cases hread : onStreams (Document.readHeader source) workspace with
  | error error between =>
    rw [hread] at h
    cases h
  | ok header between =>
    rw [hread] at h hsame
    obtain ⟨hroots, htree⟩ := hsame
    cases h
    refine ⟨Document.intact_ofHeader _ _ _, ?_, ?_, htree⟩
    · rw [← hroots]; rfl
    · rw [← hroots]; rfl

private theorem keeps_openSource (source : Source) : Keeps Grows (openSource source) :=
  Keeps.bind (keeps_onStreams _) fun _ => Keeps.bind keeps_mint fun _ => Keeps.pure _

private theorem brings_keepDocument {workspace between : Workspace} {document : Document}
    (name : String) (hintact : document.Intact)
    (hroot : document.stamp.root = ⟨workspace.roots.issued + 1⟩)
    (hissued : between.roots.issued = workspace.roots.issued + 1)
    (htree : between.tree? = workspace.tree?) :
    Brings (.document name) workspace
      { between with documents := between.documents.set name document } := by
  refine ⟨hissued, .document document, hintact, hroot, fun other => ?_⟩
  rw [tree?_document_set, htree]

private theorem bringsTree_openDocument (name : String) (stream : StreamId) (codec : Codec) :
    BringsTree (.document name) (openDocument name stream codec) := by
  intro workspace
  have hkeeps := keeps_openSource { backing := .stream stream, codec } workspace
  rw [openDocument, bind_apply]
  cases hopen : openSource { backing := .stream stream, codec } workspace with
  | error error after =>
    rw [hopen] at hkeeps
    exact hkeeps
  | ok document after =>
    obtain ⟨hintact, hroot, hissued, htree⟩ := openSource_ok hopen
    exact brings_keepDocument name hintact hroot hissued htree

/-- What comes of loading the document of a source that has been opened. -/
theorem loadDocument_apply {workspace between : Workspace} {document : Document} {bytes : Bytes}
    {codec : Codec} (name : String)
    (h : openSource { backing := .copy bytes.toArray, codec } workspace = .ok document between) :
    loadDocument name bytes codec workspace =
      match Document.loadAll (document, between.streams) with
      | .ok _ (loaded, streams) =>
        .ok loaded.stamp.root
          { between with streams, documents := between.documents.set name loaded }
      | .error error (_, streams) => .error error { between with streams } := by
  rw [loadDocument, bind_apply, h]
  simp only [bind_apply, onStreams]
  cases Document.loadAll (document, between.streams) <;> rfl

private theorem bringsTree_loadDocument (name : String) (bytes : Bytes) (codec : Codec) :
    BringsTree (.document name) (loadDocument name bytes codec) := by
  intro workspace
  have hkeeps := keeps_openSource { backing := .copy bytes.toArray, codec } workspace
  cases hopen : openSource { backing := .copy bytes.toArray, codec } workspace with
  | error error after =>
    rw [hopen] at hkeeps
    rw [loadDocument, bind_apply, hopen]
    exact hkeeps
  | ok document between =>
    rw [hopen] at hkeeps
    obtain ⟨hintact, hroot, hissued, htree⟩ := openSource_ok hopen
    have hload := Document.keeps_loadAll (document, between.streams)
    rw [loadDocument_apply name hopen]
    cases hrun : Document.loadAll (document, between.streams) with
    | error error after =>
      have hstreams : Grows between { between with streams := after.2 } :=
        grows_of_tree?_eq (Nat.le_refl _) rfl
      exact trans_of Grows hkeeps hstreams
    | ok result after =>
      rw [hrun] at hload
      exact @brings_keepDocument workspace { between with streams := after.2 } after.1 name
        (hload.intact hintact)
        ((congrArg Stamp.root hload.stamp_eq).trans hroot) hissued htree

private theorem bringsTree_perform {op : Op} {holder : Holder} (h : op.brings = some holder) :
    BringsTree holder (perform op) := by
  cases op with
  | newDocument name =>
    cases h
    refine fun workspace => brings_keepDocument name (Document.intact_empty _) rfl ?_ ?_ <;> rfl
  | openDocument name stream codec =>
    cases h
    exact BringsTree.quiet_bind (sameTrees_currentStream _) fun _ =>
      BringsTree.bind_pure _ (bringsTree_openDocument _ _ _)
  | readDocument name stream position codec =>
    cases h
    exact BringsTree.quiet_bind (sameTrees_currentStream _) fun _ => BringsTree.bind_pure _
      (BringsTree.quiet_bind (sameTrees_onStreams _) fun _ => bringsTree_loadDocument _ _ _)
  | loadDocument name bytes codec =>
    cases h
    exact BringsTree.bind_pure _ (bringsTree_loadDocument _ _ _)
  | loadDocumentOf name stream codec =>
    cases h
    exact BringsTree.quiet_bind Keeps.get fun _ =>
      BringsTree.quiet_bind (sameTrees_currentStream _) fun _ =>
        BringsTree.bind_pure _ (bringsTree_loadDocument _ _ _)
  | newEntry name =>
    cases h
    refine fun workspace => ⟨rfl, .entry { stamp := { root := ⟨workspace.roots.issued + 1⟩ } },
      ⟨rfl, Entry.intact_mk _⟩, rfl, fun other => ?_⟩
    exact tree?_entry_set { workspace with roots := ⟨workspace.roots.issued + 1⟩ } _ _ _
  | newIdentity name =>
    cases h
    refine fun workspace => ⟨rfl, .identity { stamp := { root := ⟨workspace.roots.issued + 1⟩ } },
      rfl, rfl, fun other => ?_⟩
    exact tree?_identity_set { workspace with roots := ⟨workspace.roots.issued + 1⟩ } _ _ _
  | _ => cases h

private theorem isFailure_bind {α : Type} {work : Work α} {next : α → Work Answer}
    (h : ∀ value workspace answer after, next value workspace = .ok answer after →
      answer.isFailure = false)
    {workspace after : Workspace} {answer : Answer}
    (hrun : (work >>= next) workspace = .ok answer after) :
    answer.isFailure = false := by
  rw [bind_apply] at hrun
  cases hwork : work workspace with
  | error error between =>
    rw [hwork] at hrun
    cases hrun
  | ok value between =>
    rw [hwork] at hrun
    exact h value between answer after hrun

private theorem isFailure_perform {op : Op} {holder : Holder} (h : op.brings = some holder)
    {workspace after : Workspace} {answer : Answer}
    (hrun : perform op workspace = .ok answer after) :
    answer.isFailure = false := by
  have hroot (root : RootId) (between : Workspace) (answer : Answer) (after : Workspace)
      (h : (pure (.root root) : Work Answer) between = .ok answer after) :
        answer.isFailure = false := by
    cases h
    rfl
  cases op with
  | newDocument name => cases hrun; rfl
  | openDocument name stream codec | readDocument name stream position codec =>
    exact isFailure_bind (fun _ _ _ _ hnext => isFailure_bind hroot hnext) hrun
  | loadDocument name bytes codec => exact isFailure_bind hroot hrun
  | loadDocumentOf name stream codec =>
    exact isFailure_bind
      (fun _ _ _ _ hnext => isFailure_bind
        (fun _ _ _ _ hlast => isFailure_bind hroot hlast) hnext) hrun
  | newEntry name | newIdentity name => cases hrun; rfl
  | _ => cases h

variable {op : Op} {holder : Holder} {workspace : Workspace}

theorem brings_step (h : op.Brought (step op workspace).1 holder) :
    Brings holder workspace (step op workspace).2 := by
  obtain ⟨hbrings, hsuccess⟩ := h
  have hperform := bringsTree_perform hbrings workspace
  unfold step at hsuccess ⊢
  cases hrun : perform op workspace with
  | ok answer after =>
    rw [hrun] at hperform
    exact hperform
  | error error after =>
    rw [hrun] at hsuccess
    cases hsuccess

private theorem grows_step (h : ∀ holder, ¬ op.Brought (step op workspace).1 holder) :
    Grows workspace (step op workspace).2 := by
  unfold step at h ⊢
  cases hbrings : op.brings with
  | none =>
    have hkeeps := keeps_perform hbrings workspace
    cases hrun : perform op workspace with
    | ok answer after | error error after =>
      rw [hrun] at hkeeps
      exact hkeeps
  | some holder =>
    have hperform := bringsTree_perform hbrings workspace
    cases hrun : perform op workspace with
    | ok answer after =>
      rw [hrun] at h
      exact absurd ⟨hbrings, isFailure_perform hbrings hrun⟩ (h holder)
    | error error after =>
      rw [hrun] at hperform
      exact hperform

theorem grows_step_of_brings (h : op.brings = none) : Grows workspace (step op workspace).2 := by
  apply grows_step
  rintro holder ⟨hbrings, -⟩
  rw [h] at hbrings
  cases hbrings

private theorem rel_step (h : ¬ op.Brought (step op workspace).1 holder) :
    Option.Rel Tree.Grows (workspace.tree? holder) ((step op workspace).2.tree? holder) := by
  by_cases hother : ∃ other, op.Brought (step op workspace).1 other
  · obtain ⟨other, hbrought⟩ := hother
    obtain ⟨tree, -, -, htree⟩ := (brings_step hbrought).tree
    have hne : holder ≠ other := by
      rintro rfl
      exact h hbrought
    rw [htree holder, if_neg hne]
    exact rel_refl _
  · exact (grows_step fun other hbrought => hother ⟨other, hbrought⟩).tree holder

private theorem issued_le_step : workspace.roots.issued ≤ (step op workspace).2.roots.issued := by
  by_cases hbrings : ∃ holder, op.Brought (step op workspace).1 holder
  · obtain ⟨holder, hbrought⟩ := hbrings
    rw [(brings_step hbrought).issued_eq]
    exact Nat.le_succ _
  · exact (grows_step fun holder hbrought => hbrings ⟨holder, hbrought⟩).issued_le

/-- Every tree is intact and has a root number of its own, one that has been given out. -/
structure Sound (workspace : Workspace) : Prop where
  intact : ∀ holder tree, workspace.tree? holder = some tree → tree.Intact
  issued : ∀ holder tree, workspace.tree? holder = some tree →
    tree.stamp.root.number ≤ workspace.roots.issued
  distinct : ∀ first second tree other, workspace.tree? first = some tree →
    workspace.tree? second = some other → tree.stamp.root = other.stamp.root → first = second

theorem Sound.document {name : String} {document : Document} (h : Sound workspace)
    (hfound : workspace.documents.find? name = some document) : document.Intact :=
  h.intact (.document name) _ (tree?_document hfound)

private theorem tree?_empty (holder : Holder) : tree? {} holder = none := by
  cases holder <;> rfl

theorem sound_empty : Sound {} where
  intact holder tree h := by rw [tree?_empty] at h; cases h
  issued holder tree h := by rw [tree?_empty] at h; cases h
  distinct first second tree other h := by rw [tree?_empty] at h; cases h

/-- A tree that is there after growth was there before. -/
theorem Grows.earlier {before after : Workspace} (h : Grows before after) {tree : Tree}
    (htree : after.tree? holder = some tree) :
    ∃ first, before.tree? holder = some first ∧ first.Grows tree := by
  have hrel := h.tree holder
  rw [htree] at hrel
  cases hbefore : before.tree? holder with
  | none =>
    rw [hbefore] at hrel
    cases hrel
  | some first =>
    rw [hbefore] at hrel
    cases hrel with
    | some hgrows => exact ⟨first, rfl, hgrows⟩

theorem Grows.later {before after : Workspace} (h : Grows before after) {tree : Tree}
    (htree : before.tree? holder = some tree) :
    ∃ later, after.tree? holder = some later ∧ tree.Grows later := by
  have hrel := h.tree holder
  rw [htree] at hrel
  cases hafter : after.tree? holder with
  | none =>
    rw [hafter] at hrel
    cases hrel
  | some later =>
    rw [hafter] at hrel
    cases hrel with
    | some hgrows => exact ⟨later, rfl, hgrows⟩

theorem Grows.sound {before after : Workspace} (h : Grows before after) (hsound : Sound before) :
    Sound after where
  intact holder tree htree := by
    obtain ⟨first, hfirst, hgrows⟩ := h.earlier htree
    exact hgrows.intact (hsound.intact holder first hfirst)
  issued holder tree htree := by
    obtain ⟨first, hfirst, hgrows⟩ := h.earlier htree
    rw [hgrows.stamp_eq]
    exact Nat.le_trans (hsound.issued holder first hfirst) h.issued_le
  distinct first second tree other htree hother hroot := by
    obtain ⟨tree₀, htree₀, hgrows⟩ := h.earlier htree
    obtain ⟨other₀, hother₀, hgrows'⟩ := h.earlier hother
    rw [hgrows.stamp_eq, hgrows'.stamp_eq] at hroot
    exact hsound.distinct first second tree₀ other₀ htree₀ hother₀ hroot

private theorem Brings.sound {before after : Workspace} (h : Brings holder before after)
    (hsound : Sound before) : Sound after := by
  obtain ⟨hissued, new, hnew, hnumber, htree⟩ := h
  -- An older tree cannot have the new number, since its own was given out before.
  have hfresh {other : Holder} {tree : Tree} (h : before.tree? other = some tree) :
      tree.stamp.root ≠ new.stamp.root := by
    intro hroot
    have hle := hsound.issued other tree h
    rw [hroot, hnumber] at hle
    exact Nat.not_succ_le_self _ hle
  have hcases {other : Holder} {tree : Tree} (h : after.tree? other = some tree) :
      other = holder ∧ tree = new ∨ before.tree? other = some tree := by
    rw [htree] at h
    split at h
    case isTrue heq => exact .inl ⟨heq, (Option.some.inj h).symm⟩
    case isFalse => exact .inr h
  constructor
  · intro other tree h
    rcases hcases h with ⟨-, rfl⟩ | hold
    · exact hnew
    · exact hsound.intact other tree hold
  · intro other tree h
    rw [hissued]
    rcases hcases h with ⟨-, rfl⟩ | hold
    · exact Nat.le_of_eq (congrArg RootId.number hnumber)
    · exact Nat.le_succ_of_le (hsound.issued other tree hold)
  · intro first second tree other hfirst hsecond hroot
    rcases hcases hfirst with ⟨rfl, rfl⟩ | hfirst <;>
      rcases hcases hsecond with ⟨rfl, rfl⟩ | hsecond
    · rfl
    · exact absurd hroot.symm (hfresh hsecond)
    · exact absurd hroot (hfresh hfirst)
    · exact hsound.distinct first second tree other hfirst hsecond hroot

theorem sound_step (op : Op) (h : Sound workspace) : Sound (step op workspace).2 := by
  by_cases hbrings : ∃ holder, op.Brought (step op workspace).1 holder
  · obtain ⟨holder, hbrought⟩ := hbrings
    exact (brings_step hbrought).sound h
  · exact (grows_step fun holder hbrought => hbrings ⟨holder, hbrought⟩).sound h

theorem sound_run (ops : List Op) (h : Sound workspace) : Sound (run ops workspace).2 := by
  induction ops generalizing workspace with
  | nil => exact h
  | cons op rest ih => exact ih (sound_step op h)

/-- Whether a run of operations gives a holder a new tree. -/
def Renews (holder : Holder) (ops : List Op) (workspace : Workspace) : Prop :=
  ∃ pair ∈ ops.zip (run ops workspace).1, pair.1.Brought pair.2 holder

private theorem renews_nil (holder : Holder) (workspace : Workspace) :
    ¬ Renews holder [] workspace := by
  rintro ⟨pair, hpair, -⟩
  cases hpair

private theorem renews_cons (holder : Holder) (op : Op) (ops : List Op) (workspace : Workspace) :
    Renews holder (op :: ops) workspace ↔
      op.Brought (step op workspace).1 holder ∨ Renews holder ops (step op workspace).2 := by
  simp [Renews, run]

theorem run_append (first second : List Op) (workspace : Workspace) :
    (run (first ++ second) workspace).2 = (run second (run first workspace).2).2 := by
  induction first generalizing workspace with
  | nil => rfl
  | cons op rest ih => exact ih (step op workspace).2

/-- A holder that is given no new tree keeps the one it has, over the whole run. -/
theorem rel_run {ops : List Op} (h : ¬ Renews holder ops workspace) :
    Option.Rel Tree.Grows (workspace.tree? holder) ((run ops workspace).2.tree? holder) := by
  induction ops generalizing workspace with
  | nil => exact rel_refl _
  | cons op rest ih =>
    rw [renews_cons, not_or] at h
    exact rel_trans (rel_step h.1) (ih h.2)

/-- A tree that was given to a holder during a run has a number that was free before the run. -/
theorem root_of_renews {ops : List Op} {tree : Tree} (h : Renews holder ops workspace)
    (htree : (run ops workspace).2.tree? holder = some tree) :
    workspace.roots.issued < tree.stamp.root.number := by
  induction ops generalizing workspace with
  | nil => exact absurd h (renews_nil _ _)
  | cons op rest ih =>
    by_cases hlater : Renews holder rest (step op workspace).2
    · exact Nat.lt_of_le_of_lt issued_le_step (ih hlater htree)
    · have hnow : op.Brought (step op workspace).1 holder := by
        rw [renews_cons] at h
        exact h.resolve_right hlater
      obtain ⟨first, -, hroot, hfirst⟩ := (brings_step hnow).tree
      have hrel := rel_run hlater
      rw [hfirst holder, if_pos rfl,
        show (run rest (step op workspace).2).2.tree? holder = some tree
        from htree] at hrel
      cases hrel with
      | some hgrows =>
        rw [hgrows.stamp_eq, hroot]
        exact Nat.lt_succ_self _

end FramedTree.Workspace
