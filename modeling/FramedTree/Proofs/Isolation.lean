import FramedTree.Proofs.CounterpartWorkspaces
import FramedTree.Proofs.EqualDocuments
import FramedTree.Proofs.Locality
import FramedTree.Proofs.Reopening
import FramedTree.Proofs.TextBlocks

/-! # Corruption stays where it is

Two documents are opened from different bytes with the same header. If the frames of an entry are
the same in both, so is everything that the entry answers, up to the root numbers of the two trees.
This does not depend on any other byte, nor on what has been looked for before, with or without
success.
-/

namespace FramedTree

variable {α : Type} {library library' : Library} {r : Renumbering} {stamp stamp' : Stamp}
  {content : EntryContent}

def IdentityLook.reply (identity : Identity) : IdentityLook → Answer
  | .info => .identity identity
  | .text => .text identity.text
  | .child _ _ => .nothing
  | .keepRef _ => .ref identity.stamp.toRef

def EntryLook.reply (content : EntryContent) (entry : Entry) : EntryLook → Answer
  | .info => .entry entry
  | .text => .text (Outline.render "Data" content.outline).1
  | .child field _ => .ofOption (fun _ => .node .identity)
    (if field = Entry.identificationField then some content.identification
      else if field = Entry.secretIdentityField then content.secretIdentity else none)
  | .reviewer k | .keepReviewer k _ => .ofOption .ref entry.reviewers[k]?
  | .keepApprover _ => .ofOption .ref entry.approver

namespace EntryContent

private theorem pairs_identificationAt (h : stamp.Pairs r stamp') :
    (content.identificationAt stamp).Pairs r (content.identificationAt stamp') := ⟨h.child _ _, rfl⟩

private theorem pairs_secretAt (h : stamp.Pairs r stamp') :
    Option.Rel (Identity.Pairs r) (content.secretAt stamp) (content.secretAt stamp') := by
  rw [secretAt, secretAt]
  cases content.secretIdentity with
  | none => exact .none
  | some header => exact .some ⟨h.child _ _, rfl⟩

end EntryContent

private theorem IdentityLook.pairs_reply {identity identity' : Identity}
    (h : identity.Pairs r identity') (look : IdentityLook) :
    (look.reply identity).Pairs r (look.reply identity') := by
  cases look with
  | info => exact .identity h
  | child => exact .plain rfl
  | keepRef as => exact .ref h.stamp.toRef
  | text =>
    have htext : identity'.text = identity.text := by
      rw [Identity.text, Identity.text, Identity.outline, Identity.outline, h.header_eq]
    rw [reply, reply, htext]
    exact .plain rfl

private theorem Entry.Stands.resembles {entry entry' : Entry}
    (h : entry.Stands library stamp content) (h' : entry'.Stands library' stamp' content)
    (hstamp : stamp.Pairs r stamp') : entry.Resembles r entry' := by
  have hsecret {library : Library} {stamp : Stamp} {entry : Entry}
    (h : entry.Stands library stamp content) :
      entry.hasSecretIdentity = content.secretIdentity.isSome := by
    have hsecret := h.shows.secretIdentity
    rw [hasSecretIdentity]
    generalize entry.secretIdentity.get? singular = found at hsecret ⊢
    generalize content.secretIdentity = header at hsecret ⊢
    cases hsecret <;> rfl
  refine ⟨by rwa [h.stamp_eq, h'.stamp_eq], by rw [hsecret h, hsecret h'], ?_, ?_⟩
  · rw [h.approver, h'.approver]
    cases content.approver with
    | none => exact .none
    | some path => exact .some ⟨hstamp.root, rfl⟩
  · rw [h.reviewers, h'.reviewers, List.forall₂_map_left_iff, List.forall₂_map_right_iff,
      List.forall₂_same]
    exact fun _ _ => ⟨hstamp.root, rfl⟩

private theorem EntryLook.pairs_reply {entry entry' : Entry}
    (h : entry.Stands library stamp content) (h' : entry'.Stands library' stamp' content)
    (hstamp : stamp.Pairs r stamp') (look : EntryLook) :
    (look.reply content entry).Pairs r (look.reply content entry') := by
  have hentry := h.resembles h' hstamp
  have hreviewer (k : Nat) :
    (Answer.ofOption .ref entry.reviewers[k]?).Pairs r (.ofOption .ref entry'.reviewers[k]?) := by
    refine Answer.pairs_ofOption (Q := NodeRef.Pairs r) (fun _ _ href => .ref href) ?_
    rw [h.reviewers, h'.reviewers, List.getElem?_map, List.getElem?_map]
    cases content.reviewers[k]? with
    | none => exact .none
    | some path => exact .some ⟨hstamp.root, rfl⟩
  cases look with
  | info => exact .entry hentry
  | text => exact .plain rfl
  | child field index =>
    simp only [reply]
    generalize (if field = Entry.identificationField then some content.identification
      else if field = Entry.secretIdentityField then content.secretIdentity else none) = found
    cases found <;> exact .plain rfl
  | reviewer k | keepReviewer k as => exact hreviewer k
  | keepApprover as => exact Answer.pairs_ofOption (fun _ _ href => .ref href) hentry.approver

private theorem EntryLook.isFailure_reply (entry : Entry) (look : EntryLook) :
    (look.reply content entry).isFailure = false := by
  have hoption {β : Type} {f : β → Answer} (hf : ∀ value, (f value).isFailure = false)
    (found : Option β) :
      (Answer.ofOption f found).isFailure = false := by
    cases found with
    | none => rfl
    | some value => exact hf value
  cases look with
  | info | text => rfl
  | child | reviewer | keepReviewer | keepApprover => exact hoption (fun _ => rfl) _

private theorem IdentityLook.isFailure_reply (identity : Identity) (look : IdentityLook) :
    (look.reply identity).isFailure = false := by
  cases look <;> rfl

namespace Workspace

private theorem viewIdentity_eq (look : IdentityLook) :
    viewIdentity look = do return look.reply (← Access.node) := by
  cases look <;> rfl

private theorem gives_viewEntry (look : EntryLook) :
    Gives library (Entry.Stands library stamp content) (viewEntry look) fun answer _ =>
      ∃ entry, entry.Stands library stamp content ∧ answer = look.reply content entry := by
  have hnode (f : Entry → Answer) (hf : ∀ entry, f entry = look.reply content entry) :
      Gives library (Entry.Stands library stamp content) (do return f (← Access.node))
        fun answer _ =>
        ∃ entry, entry.Stands library stamp content ∧ answer = look.reply content entry := by
    refine Gives.bind Gives.node fun found => Gives.pure ?_
    rintro entry ⟨rfl, hentry⟩
    exact ⟨found, hentry, hf found⟩
  cases look with
  | info => exact hnode _ fun _ => rfl
  | reviewer k | keepReviewer k as =>
    exact hnode (fun entry => .ofOption .ref entry.reviewers[k]?) fun _ => rfl
  | keepApprover as => exact hnode (fun entry => .ofOption .ref entry.approver) fun _ => rfl
  | text =>
    intro entry streams hentry hstreams
    obtain ⟨fields, after, streams', hrun, ⟨rfl, -⟩, hfollows⟩ :=
      Entry.gives_outline entry streams hentry.shows hstreams
    refine ⟨_, after, streams', ?_, ⟨entry, hentry, rfl⟩, hfollows⟩
    rw [viewEntry, Entry.text, bind_assoc, bind_apply, hrun]
    rfl
  | child field index =>
    refine Gives.bind (Entry.stands_child field index) fun found => Gives.of_and fun hfound =>
      Gives.pure fun entry hentry => ⟨entry, hentry, ?_⟩
    rw [hfound, EntryLook.reply, EntryContent.secretAt]
    by_cases hfirst : field = Entry.identificationField
    · rw [if_pos hfirst, if_pos hfirst]
      rfl
    · by_cases hsecond : field = Entry.secretIdentityField
      · rw [if_neg hfirst, if_neg hfirst, if_pos hsecond, if_pos hsecond]
        cases content.secretIdentity <;> rfl
      · rw [if_neg hfirst, if_neg hfirst, if_neg hsecond, if_neg hsecond]
        rfl

variable {name : String} {i : Nat} {workspace workspace' : Workspace}

/-- The known streams hold their bytes, and the entry with number `i` of the document stands for the
content. -/
structure StandsAt (library : Library) (name : String) (stamp : Stamp) (i : Nat)
    (content : EntryContent) (workspace : Workspace) : Prop where
  holds : workspace.streams.Holds library
  document : ∃ document, workspace.documents.find? name = some document ∧ document.Intact ∧
    document.StandsAt library stamp i content

section Answering

variable {P : Answer → Prop}

private theorem StandsAt.atDocument (h : workspace.StandsAt library name stamp i content)
    {access : Access Streams Document Answer}
    (haccess : Gives library (Document.StandsAt library stamp i content) access
      fun answer _ => P answer) :
    ∃ answer after, Workspace.atDocument name access workspace = .ok answer after ∧ P answer := by
  obtain ⟨document, hdocument, -, hstands⟩ := h.document
  obtain ⟨answer, document', streams, hrun, hanswer, -⟩ :=
    haccess document workspace.streams hstands h.holds
  refine ⟨answer, { workspace with streams, documents := workspace.documents.set name document' },
    ?_, hanswer⟩
  rw [Workspace.atDocument, bind_apply, onDocument_apply hdocument, map_apply, hrun]
  rfl

variable {inner : Access Streams Entry Answer}
  (hinner : Gives library (Entry.Stands library (Document.entryStamp stamp i) content) inner
    fun answer _ => P answer)

include hinner

private theorem StandsAt.opened {access : Stamp → Access Streams (Lazy Entry) Answer}
    (hopens : ∀ stamp, Lazy.Opens (Document.loadEntry stamp i) inner (access stamp)) :
    Gives library (Document.StandsAt library stamp i content)
      (do
        return (← (do
          let document ← Access.node
          Access.within Document.entries (fun slots document => { document with entries := slots })
            (Slots.access i (access document.stamp)))).getD .noEntry)
      fun answer _ => P answer := by
  refine Gives.bind (Document.gives_standing hinner hopens) fun found => Gives.pure ?_
  rintro document ⟨-, answer, entry, rfl, hanswer, -⟩
  exact hanswer

private theorem StandsAt.atEntry (h : workspace.StandsAt library name stamp i content) :
    ∃ answer after, Workspace.atEntry (.inDocument name i) inner workspace = .ok answer after ∧
      P answer :=
  h.atDocument (StandsAt.opened hinner fun _ => Lazy.access_opens _ _)

private theorem StandsAt.atEntryMut (h : workspace.StandsAt library name stamp i content) :
    ∃ answer after, Workspace.atEntryMut (.inDocument name i) inner workspace = .ok answer after ∧
      P answer :=
  h.atDocument (StandsAt.opened hinner fun _ => Lazy.accessMut_opens _ _)

end Answering

private theorem keepAnswer_ok (as : String) (answer : Answer) (workspace : Workspace) :
    ∃ after, keepAnswer as answer workspace = .ok answer after := by
  cases answer <;> exact ⟨_, rfl⟩

private theorem step_fst_of {op : Op} {answer : Answer} {after : Workspace}
    (h : perform op workspace = .ok answer after) :
    (step op workspace).1 = answer := by
  rw [step_eq h]

private theorem step_of_bind {op : Op} {work : Work Answer} {next : Answer → Work Answer}
    {answer : Answer} {after : Workspace} (hop : perform op = work >>= next)
    (hnext : ∀ workspace, ∃ after, next answer workspace = .ok answer after)
    (hrun : work workspace = .ok answer after) : (step op workspace).1 = answer := by
  obtain ⟨last, hlast⟩ := hnext after
  refine step_fst_of (?_ : perform op workspace = .ok answer last)
  rw [hop, bind_apply, hrun]
  exact hlast

private theorem StandsAt.lookAtEntry (h : workspace.StandsAt library name stamp i content)
    (look : EntryLook) :
    ∃ entry, entry.Stands library (Document.entryStamp stamp i) content ∧
      (step (.lookAtEntry (.inDocument name i) look) workspace).1 = look.reply content entry := by
  obtain ⟨answer, after, hrun, entry, hentry, rfl⟩ := h.atEntry (gives_viewEntry look)
  refine ⟨entry, hentry, step_of_bind rfl (fun workspace => ?_) hrun⟩
  cases look with
  | keepReviewer k as | keepApprover as => exact keepAnswer_ok as _ workspace
  | info | text | child | reviewer => exact ⟨workspace, rfl⟩

private theorem step_lookAtIdentity {identity : SeenIdentity} {look : IdentityLook}
    {answer : Answer} {after : Workspace}
    (hrun : atIdentity identity (viewIdentity look) workspace = .ok answer after) :
    (step (.lookAtIdentity identity look) workspace).1 = answer := by
  refine step_of_bind rfl (fun workspace => ?_) hrun
  cases look with
  | keepRef as => exact keepAnswer_ok as _ workspace
  | info | text | child => exact ⟨workspace, rfl⟩

private theorem gives_identification (f : Identity → Answer)
    {inner : Access Streams Identity Answer}
    {access : Stamp → Access Streams (Lazy Identity) Answer} (h : Entry.Tells library inner f)
    (hopens : ∀ stamp, Lazy.Opens (Entry.loadIdentity stamp Entry.identificationField) inner
      (access stamp)) :
    Gives library (Entry.Stands library stamp content)
      (do
        let entry ← Access.node
        Access.within Entry.identification (fun cell entry => { entry with identification := cell })
          (access entry.stamp))
      fun answer _ => answer = f (content.identificationAt stamp) :=
  Gives.mono (Entry.stands_identification h hopens) fun _ _ hanswer => hanswer.1

private theorem gives_secretIdentity (f : Identity → Answer)
    {inner : Access Streams Identity Answer}
    {access : Stamp → Access Streams (Lazy Identity) Answer} (h : Entry.Tells library inner f)
    (hopens : ∀ stamp, Lazy.Opens (Entry.loadIdentity stamp Entry.secretIdentityField) inner
      (access stamp)) :
    Gives library (Entry.Stands library stamp content)
      (do
        return (← (do
          let entry ← Access.node
          Access.within Entry.secretIdentity
            (fun slots entry => { entry with secretIdentity := slots })
            (Slots.access Entry.singular (access entry.stamp)))).getD .nothing)
      fun answer _ => answer = ((content.secretAt stamp).map f).getD .nothing := by
  refine Gives.bind (Entry.stands_secretIdentity h hopens) fun found => Gives.of_and ?_
  rintro rfl
  exact Gives.pure fun _ _ => rfl

/-- The operations that look into the entry with number `i` of the document, also through access for
change. -/
inductive LooksInto (name : String) (i : Nat) : Op → Prop where
  | entry (look : EntryLook) : LooksInto name i (.lookAtEntry (.inDocument name i) look)
  | identification (look : IdentityLook) :
    LooksInto name i (.lookAtIdentity (.identification (.inDocument name i)) look)
  | secretIdentity (look : IdentityLook) :
    LooksInto name i (.lookAtIdentity (.secretIdentity (.inDocument name i)) look)
  | touched : LooksInto name i (.changeEntry (.inDocument name i) .touch)
  | loaded : LooksInto name i (.changeEntry (.inDocument name i) .loadAll)
  | touchedIdentification :
      LooksInto name i (.changeIdentity (.identification (.inDocument name i)) .touch)
  | touchedSecretIdentity :
      LooksInto name i (.changeIdentity (.secretIdentity (.inDocument name i)) .touch)
  | child {index : UInt64} (hindex : index.toNat = i) :
      LooksInto name i (.documentChild name Document.entriesField index)

/-- What an operation that looks into an entry answers. -/
def reply (stamp : Stamp) (content : EntryContent) (entry : Entry) : Op → Answer
  | .lookAtEntry _ look => look.reply content entry
  | .lookAtIdentity (.identification _) look => look.reply (content.identificationAt stamp)
  | .lookAtIdentity _ look => ((content.secretAt stamp).map look.reply).getD .nothing
  | .changeIdentity (.identification _) _ => .identity (content.identificationAt stamp)
  | .changeIdentity _ _ => ((content.secretAt stamp).map .identity).getD .nothing
  | .documentChild _ _ _ => .node .entry
  | _ => .nothing

private theorem StandsAt.changeEntry (h : workspace.StandsAt library name stamp i content)
    {change : EntryChange String} {change' : EntryChange NodeRef}
    (hlookup : ∀ find? : String → Option NodeRef, change.lookup find? = some change')
    (hgives : Gives library (Entry.Stands library (Document.entryStamp stamp i) content)
      (editEntry change')
      fun answer _ => answer = .nothing) :
    (step (.changeEntry (.inDocument name i) change) workspace).1 = .nothing := by
  obtain ⟨answer, after, hrun, rfl⟩ := h.atEntryMut hgives
  obtain ⟨document, hdocument, -⟩ := h.document
  refine step_fst_of (?_ : perform _ _ = .ok _ after)
  rw [perform, get_bind_apply, hasPlace, hdocument, hlookup]
  exact hrun

private theorem StandsAt.step_fst {op : Op} (hop : LooksInto name i op)
    (h : workspace.StandsAt library name stamp i content) :
    ∃ entry, entry.Stands library (Document.entryStamp stamp i) content ∧
      (step op workspace).1 = reply (Document.entryStamp stamp i) content entry op := by
  -- Where the answer does not depend on the entry, any entry that stands for the content will do.
  obtain ⟨any, hany, -⟩ := h.lookAtEntry .info
  have hlook (look : IdentityLook) : Entry.Tells library (viewIdentity look) look.reply := by
    rw [viewIdentity_eq]
    exact Entry.tells_node _
  have htouch : Entry.Tells library (editIdentity .touch) Answer.identity := Entry.tells_node _
  cases hop with
  | entry look => exact h.lookAtEntry look
  | identification look =>
    obtain ⟨answer, after, hrun, hanswer⟩ :=
      h.atEntry (gives_identification look.reply (hlook look) fun _ => Lazy.access_opens _ _)
    exact ⟨any, hany,
      (@step_lookAtIdentity _ (.identification (.inDocument name i)) _ _ _ hrun).trans hanswer⟩
  | secretIdentity look =>
    obtain ⟨answer, after, hrun, hanswer⟩ :=
      h.atEntry (gives_secretIdentity look.reply (hlook look) fun _ => Lazy.access_opens _ _)
    exact ⟨any, hany,
      (@step_lookAtIdentity _ (.secretIdentity (.inDocument name i)) _ _ _ hrun).trans hanswer⟩
  | touched => exact ⟨any, hany, h.changeEntry (fun _ => rfl) (Gives.pure fun _ _ => rfl)⟩
  | loaded =>
    refine ⟨any, hany, h.changeEntry (fun _ => rfl) ?_⟩
    intro entry streams hentry hstreams
    obtain ⟨_, after, streams', hrun, -, hfollows⟩ :=
      Entry.gives_loadAll entry streams hentry.shows hstreams
    refine ⟨.nothing, after, streams', ?_, rfl, hfollows⟩
    rw [editEntry, bind_apply, hrun]
    rfl
  | touchedIdentification =>
    obtain ⟨answer, after, hrun, hanswer⟩ :=
      h.atEntryMut (gives_identification .identity htouch fun _ => Lazy.accessMut_opens _ _)
    exact ⟨any, hany,
      (@step_fst_of _ (.changeIdentity (.identification (.inDocument name i)) .touch) _ _
        hrun).trans hanswer⟩
  | touchedSecretIdentity =>
    obtain ⟨answer, after, hrun, hanswer⟩ :=
      h.atEntryMut (gives_secretIdentity .identity htouch fun _ => Lazy.accessMut_opens _ _)
    exact ⟨any, hany,
      (@step_fst_of _ (.changeIdentity (.secretIdentity (.inDocument name i)) .touch) _ _
        hrun).trans hanswer⟩
  | @child index hindex =>
    have hgives : Gives library (Document.StandsAt library stamp i content)
        (do
          return Answer.ofOption (fun _ => Answer.node .entry)
            (← Document.child Document.entriesField index))
        fun answer _ => answer = .node .entry := by
      refine Gives.bind (Document.stands_child hindex) fun found => Gives.of_and ?_
      rintro ⟨entry, rfl⟩
      exact Gives.pure fun _ _ => rfl
    obtain ⟨answer, after, hrun, hanswer⟩ := h.atDocument hgives
    exact ⟨any, hany,
      (@step_fst_of _ (.documentChild name Document.entriesField index) _ _ hrun).trans hanswer⟩

private theorem pairs_reply {op : Op} (hop : LooksInto name i op) {entry entry' : Entry}
    (h : entry.Stands library stamp content) (h' : entry'.Stands library' stamp' content)
    (hstamp : stamp.Pairs r stamp') :
    (reply stamp content entry op).Pairs r (reply stamp' content entry' op) := by
  have hsecret {f : Identity → Answer}
    (hf : ∀ identity identity' : Identity, identity.Pairs r identity' →
      (f identity).Pairs r (f identity')) :
      (((content.secretAt stamp).map f).getD .nothing).Pairs r
        (((content.secretAt stamp').map f).getD .nothing) := by
    have hidentity := @EntryContent.pairs_secretAt _ _ _ content hstamp
    generalize content.secretAt stamp = secret at hidentity ⊢
    generalize content.secretAt stamp' = secret' at hidentity ⊢
    refine Answer.pairs_getD ?_ rfl
    cases hidentity with
    | none => exact .none
    | some hidentity => exact .some (hf _ _ hidentity)
  cases hop with
  | entry look => exact EntryLook.pairs_reply h h' hstamp look
  | identification look =>
    exact IdentityLook.pairs_reply (EntryContent.pairs_identificationAt hstamp) look
  | secretIdentity look =>
    exact hsecret fun _ _ hidentity => IdentityLook.pairs_reply hidentity look
  | touchedIdentification => exact .identity (EntryContent.pairs_identificationAt hstamp)
  | touchedSecretIdentity => exact hsecret fun _ _ hidentity => .identity hidentity
  | touched | loaded | child => exact .plain rfl

private theorem isFailure_reply {op : Op} (hop : LooksInto name i op) (entry : Entry) :
    (reply stamp content entry op).isFailure = false := by
  have hsecret {f : Identity → Answer} (hf : ∀ identity, (f identity).isFailure = false) :
      (((content.secretAt stamp).map f).getD .nothing).isFailure = false := by
    cases content.secretAt stamp with
    | none => rfl
    | some identity => exact hf identity
  cases hop with
  | entry look => exact EntryLook.isFailure_reply entry look
  | identification look => exact IdentityLook.isFailure_reply _ look
  | secretIdentity look => exact hsecret fun identity => IdentityLook.isFailure_reply identity look
  | touchedSecretIdentity => exact hsecret fun _ => rfl
  | touchedIdentification | touched | loaded | child => rfl

private theorem StandsAt.resolve (h : workspace.StandsAt library name stamp i content)
    {ref : String} {target : NodeRef} {index : UInt64} {rest : List (UInt64 × UInt64)}
    (hfound : workspace.refs.find? ref = some target) (hroot : target.root = stamp.root)
    (hsteps : target.path.steps = (Document.entriesField.toUInt64, index) :: rest)
    (hindex : index.toNat = i) :
    (step (.resolve name ref) workspace).1 = .ofOption .identity
      ((walk (m := Id) (Document.Node.nextIn content) rest (.entry i)).bind
        (Document.Node.identityOf stamp i content)) := by
  have hgives : Gives library (Document.StandsAt library stamp i content)
      (do return Answer.ofOption .identity (← Document.resolveIdentity target)) fun answer _ =>
        answer = .ofOption .identity
        ((walk (m := Id) (Document.Node.nextIn content) rest (.entry i)).bind
          (Document.Node.identityOf stamp i content)) := by
    refine Gives.bind (Document.stands_resolveIdentity hroot hsteps hindex) fun found =>
      Gives.of_and ?_
    rintro rfl
    exact Gives.pure fun _ _ => rfl
  obtain ⟨answer, after, hrun, rfl⟩ := h.atDocument hgives
  refine step_fst_of (?_ : perform _ _ = .ok _ after)
  rw [perform, get_bind_apply]
  simp only [hfound]
  exact hrun

private theorem pairs_identityOf (hstamp : stamp.Pairs r stamp') (node : Document.Node) :
    Option.Rel (Identity.Pairs r) (node.identityOf stamp i content)
      (node.identityOf stamp' i content) := by
  have hentry : (Document.entryStamp stamp i).Pairs r (Document.entryStamp stamp' i) :=
    hstamp.child _ _
  cases node with
  | document | entry j => exact .none
  | identification j =>
    simp only [Document.Node.identityOf]
    split
    · exact .some (EntryContent.pairs_identificationAt hentry)
    · exact .none
  | secretIdentity j =>
    simp only [Document.Node.identityOf]
    split
    · exact EntryContent.pairs_secretAt hentry
    · exact .none

private theorem StandsAt.documentText (h : workspace.StandsAt library name stamp i content) :
    ∃ blocks, (step (.documentText name) workspace).1 = .text (Document.textWith blocks) ∧
      blocks[i]? = some (Outline.block 1 (.child "data" content.outline)) ∧
      (step (.entryCount name) workspace).1 = .count blocks.length := by
  obtain ⟨document, hdocument, hintact, hstands⟩ := h.document
  obtain ⟨blocks, ⟨document', streams⟩, hrun, hlength, hblock⟩ :=
    hstands.text hintact.occupied h.holds
  refine ⟨blocks, ?_, hblock, ?_⟩
  · refine step_fst_of
      (?_ : perform _ _ = .ok _
        { workspace with streams, documents := workspace.documents.set name document' })
    rw [perform, Workspace.atDocument, bind_apply, onDocument_apply hdocument, map_apply,
      bind_apply, hrun]
    rfl
  · refine step_fst_of (?_ : perform _ _ =
      .ok _ { workspace with documents := workspace.documents.set name document })
    rw [perform, Workspace.atDocument, bind_apply, onDocument_apply hdocument, map_apply,
      Access.node_bind_apply, hlength]
    rfl

/-- The entry with number `i` of a document answers the same in both workspaces, and without
failure: to whoever looks into it, in the text of the document, and to whoever follows a reference
into it. -/
structure AgreeAt (name : String) (i : Nat) (content : EntryContent) (root root' : RootId)
    (workspace workspace' : Workspace) : Prop where
  looks : ∀ op, LooksInto name i op →
    (step op workspace).1.Pairs ⟨root.number, root'.number⟩ (step op workspace').1 ∧
      (step op workspace).1.isFailure = false
  text : ∃ blocks blocks' block,
    (step (.documentText name) workspace).1 = .text (Document.textWith blocks) ∧
    (step (.documentText name) workspace').1 = .text (Document.textWith blocks') ∧
    (step (.entryCount name) workspace).1 = .count blocks.length ∧
    (step (.entryCount name) workspace').1 = .count blocks'.length ∧
    blocks[i]? = some block ∧ blocks'[i]? = some block ∧
    block = Outline.block 1 (.child "data" content.outline)
  references : ∀ ref path index rest,
    path.steps = (Document.entriesField.toUInt64, index) :: rest → index.toNat = i →
    workspace.refs.find? ref = some ⟨root, path⟩ → workspace'.refs.find? ref = some ⟨root', path⟩ →
      (step (.resolve name ref) workspace).1.Pairs ⟨root.number, root'.number⟩
        (step (.resolve name ref) workspace').1 ∧
      (step (.resolve name ref) workspace).1.isFailure = false

private theorem agreeAt_of_standsAt (h : workspace.StandsAt library name stamp i content)
    (h' : workspace'.StandsAt library' name stamp' i content) (hpath : stamp'.path = stamp.path) :
    AgreeAt name i content stamp.root stamp'.root workspace workspace' := by
  have hstamp : stamp.Pairs ⟨stamp.root.number, stamp'.root.number⟩ stamp' :=
    ⟨Nat.add_comm _ _, hpath⟩
  refine ⟨fun op hop => ?_, ?_, fun ref path index rest hsteps hindex hfound hfound' => ?_⟩
  · obtain ⟨entry, hentry, hanswer⟩ := h.step_fst hop
    obtain ⟨entry', hentry', hanswer'⟩ := h'.step_fst hop
    rw [hanswer, hanswer']
    exact ⟨pairs_reply hop hentry hentry' (hstamp.child _ _), isFailure_reply hop entry⟩
  · obtain ⟨blocks, htext, hblock, hcount⟩ := h.documentText
    obtain ⟨blocks', htext', hblock', hcount'⟩ := h'.documentText
    exact ⟨blocks, blocks', _, htext, htext', hcount, hcount', hblock, hblock', rfl⟩
  · rw [h.resolve hfound rfl hsteps hindex, h'.resolve hfound' rfl hsteps hindex]
    refine ⟨Answer.pairs_ofOption (fun _ _ hidentity => .identity hidentity) ?_, ?_⟩
    · cases walk (m := Id) (Document.Node.nextIn content) rest (.entry i) with
      | none => exact .none
      | some node => exact pairs_identityOf hstamp node
    · cases (walk (m := Id) (Document.Node.nextIn content) rest (.entry i)).bind
        (Document.Node.identityOf stamp i content) <;> rfl

/-- The workspace in which a document has just been opened from undisturbed bytes with this
header. -/
def Opened (name : String) (codec : Codec) (content : Array UInt8) (header : DocumentHeader)
    (root : RootId) (opened : Workspace) : Prop :=
  ∃ (before : Workspace) (stream : String),
    let id := before.streams.current stream
    (before.streams.get id).Calm ∧ (before.streams.get id).content = content ∧
      verdict (Document.readHeader { backing := .stream id, codec } before.streams) = .ok header ∧
      step (.openDocument name stream codec) before = (.root root, opened)

private theorem Opened.intro {before : Workspace} {stream : String} {codec : Codec}
    {bytes : Array UInt8} {header : DocumentHeader} {root : RootId}
    (hcalm : (before.streams.get (before.streams.current stream)).Calm)
    (hbytes : (before.streams.get (before.streams.current stream)).content = bytes)
    (hheader : verdict (Document.readHeader
      { backing := .stream (before.streams.current stream), codec } before.streams) =
      .ok header) (hroot : (step (.openDocument name stream codec) before).1 = .root root) :
    Opened name codec bytes header root (step (.openDocument name stream codec) before).2 :=
  ⟨before, stream, hcalm, hbytes, hheader, Prod.ext hroot rfl⟩

end Workspace

/-- In both byte strings the same frames hold an entry with its identities, which has the
content. -/
def Frame.SharedEntry (codec : Codec) (bytes bytes' : Array UInt8) (position : UInt64)
    (content : EntryContent) : Prop :=
  ∃ header : EntryHeader, Frame.Shared codec bytes bytes' position header ∧
    Frame.Shared codec bytes bytes' header.identification content.identification ∧
    Option.Rel (Frame.Shared codec bytes bytes') header.secretIdentity content.secretIdentity ∧
    header.approver.map Path.ofDescriptor = content.approver ∧
    header.reviewers.map Path.ofDescriptor = content.reviewers

/-- Whoever reads these bytes with this codec finds an entry with this content at the position. -/
def Frame.HoldsEntry (codec : Codec) (bytes : Array UInt8) (position : UInt64)
    (content : EntryContent) : Prop :=
  ∀ source : Source, source.codec = codec → source.isReading = false →
    ∃ header, source.frameAt bytes position.toNat = .ok header ∧
      source.HasContent bytes header content

private theorem Frame.SharedEntry.holdsEntry {codec : Codec} {bytes bytes' : Array UInt8}
    {position : UInt64} (h : Frame.SharedEntry codec bytes bytes' position content) :
    Frame.HoldsEntry codec bytes position content ∧
    Frame.HoldsEntry codec bytes' position content := by
  obtain ⟨header, hheader, hidentification, hsecret, happrover, hreviewers⟩ := h
  have hrel {Q : UInt64 → IdentityHeader → Prop} (hQ : ∀ position secret,
      Frame.Shared codec bytes bytes' position secret → Q position secret) :
      Option.Rel Q header.secretIdentity content.secretIdentity := by
    generalize header.secretIdentity = position at hsecret ⊢
    generalize content.secretIdentity = secret at hsecret ⊢
    cases hsecret with
    | none => exact .none
    | some hframe => exact .some (hQ _ _ hframe)
  constructor
  · rintro source rfl hidle
    exact ⟨header, (hheader.frameAt hidle).1, (hidentification.frameAt hidle).1,
      hrel fun _ _ hframe => (hframe.frameAt hidle).1, happrover, hreviewers⟩
  · rintro source rfl hidle
    exact ⟨header, (hheader.frameAt hidle).2, (hidentification.frameAt hidle).2,
      hrel fun _ _ hframe => (hframe.frameAt hidle).2, happrover, hreviewers⟩

namespace Workspace

variable {name : String} {i : Nat} {codec : Codec} {bytes bytes' : Array UInt8}
  {header : DocumentHeader} {root root' : RootId} {opened opened' : Workspace} {position : UInt64}
  {ops ops' : List Op}

private theorem Opened.showsAt (h : Opened name codec bytes header root opened)
    (hposition : header.entries[i]? = some position)
    (hholds : Frame.HoldsEntry codec bytes position content) :
    (∃ source, opened.documents.find? name = some (Document.ofHeader root source header)) ∧
      ∃ library, opened.ShowsAt library name i content := by
  obtain ⟨before, stream, hcalm, rfl, hheader, hopen⟩ := h
  obtain ⟨found, streams, hread, rfl⟩ := openDocument_inv hopen
  rw [hread] at hheader
  cases hheader
  let id := before.streams.current stream
  let library : Library := .only id (before.streams.get id).content
  have hbefore : before.streams.Holds library := Streams.holds_only hcalm
  have hstreams : streams.Holds library := by
    have hkept :=
      @Source.holdsOn_withHandle _ library _ (Steady.readRoot (α := DocumentHeader) codec)
      { backing := .stream id, codec } before.streams
    change Streams.HoldsOn library _
      (stateAfter (Document.readHeader { backing := .stream id, codec } before.streams)) at hkept
    rw [hread] at hkept
    exact hkept hbefore
  have hcontent : Source.content? library { backing := .stream id, codec } =
    some (before.streams.get id).content :=
    Source.content?_only id _ codec
  refine ⟨⟨_, Table.find?_set_self ..⟩, library, hstreams, _, Table.find?_set_self .., ?_⟩
  obtain ⟨entry, hentry, hfound⟩ := hholds { backing := .stream id, codec } rfl rfl
  refine ⟨.stored { backing := .stream id, codec } position, ?_, ?_⟩
  · rw [Document.get?_ofHeader, hposition]
    rfl
  · exact Document.showsEntry_stored hcontent hentry hfound

private theorem brings_of_spares {op : Op} (h : op.Spares name i) : op.brings = none := by
  rcases h with hlook | ⟨hinner, -⟩
  · cases op <;> first | rfl | cases hlook
  · cases op <;> first | rfl | cases hinner

private theorem grows_of_spares {workspace : Workspace} {document : Document}
    (hops : ∀ op ∈ ops, op.Spares name i) (h : workspace.documents.find? name = some document) :
    ∃ later, (run ops workspace).2.documents.find? name = some later ∧ document.Grows later := by
  have hrenews : ¬ Renews (.document name) ops workspace := by
    rintro ⟨pair, hpair, hbrings, -⟩
    rw [brings_of_spares (hops _ (List.of_mem_zip hpair).1)] at hbrings
    cases hbrings
  have hgrows := rel_run hrenews
  rw [tree?_document h] at hgrows
  cases hlater : (run ops workspace).2.documents.find? name with
  | none =>
    rw [tree?, hlater] at hgrows
    cases hgrows
  | some later =>
    rw [tree?_document hlater] at hgrows
    cases hgrows with
    | some hgrows => exact ⟨later, rfl, hgrows⟩

private theorem Opened.standsAt (h : Opened name codec bytes header root opened)
    (hposition : header.entries[i]? = some position)
    (hholds : Frame.HoldsEntry codec bytes position content) (hops : ∀ op ∈ ops, op.Spares name i) :
    ∃ library, (run ops opened).2.StandsAt library name { root } i content := by
  obtain ⟨⟨source, hdocument⟩, library, hshows⟩ := h.showsAt hposition hholds
  obtain ⟨hstreams, later, hlater, hentry⟩ := showsAt_run hops hshows
  obtain ⟨same, hsame, hgrows⟩ := grows_of_spares hops hdocument
  rw [hlater] at hsame
  cases hsame
  have hintact := hgrows.intact (Document.intact_ofHeader root source header)
  have hstamp : later.stamp = { root } := hgrows.stamp_eq
  refine ⟨library, hstreams, later, hlater, hintact, ?_⟩
  rw [← hstamp]
  exact hentry.standsAt hintact hstreams

private theorem Opened.isEntryLoaded (h : Opened name codec bytes header root opened)
    (hposition : header.entries[i]? = some position)
    (hholds : Frame.HoldsEntry codec bytes position content) (hops : ∀ op ∈ ops, op.Avoids name i) :
    (step (.isEntryLoaded name i) (run ops opened).2).1 = .flag false := by
  obtain ⟨⟨source, hdocument⟩, -⟩ := h.showsAt hposition hholds
  have hcell : opened.cellAt? name i = some (.stored source position) := by
    rw [cellAt?, hdocument, Option.bind_some, Document.get?_ofHeader, hposition]
    rfl
  obtain ⟨later, hlater, hcell⟩ := Option.bind_eq_some_iff.1 (cellAt?_run hops hcell)
  refine step_fst_of (?_ : perform _ _ = .ok _ { (run ops opened).2 with
    documents := (run ops opened).2.documents.set name later })
  rw [perform, atDocument, bind_apply, onDocument_apply hlater, map_apply, Access.node_bind_apply,
    Document.isEntryLoaded, hcell]
  rfl

/-- Two documents are opened from different bytes with the same header, and whatever has been done
to each since spared one entry. If the frames of the entry and its identities are the same in both,
the entry answers the same in both, up to the root numbers. If nobody has come to the entry, it has
been loaded in neither. -/
theorem corruption_stays_elsewhere (hopened : Opened name codec bytes header root opened)
    (hopened' : Opened name codec bytes' header root' opened')
    (hposition : header.entries[i]? = some position)
    (hshared : Frame.SharedEntry codec bytes bytes' position content)
    (hops : ∀ op ∈ ops, op.Spares name i) (hops' : ∀ op ∈ ops', op.Spares name i) :
    AgreeAt name i content root root' (run ops opened).2 (run ops' opened').2 ∧
      ((∀ op ∈ ops, op.Avoids name i) → (step (.isEntryLoaded name i) (run ops opened).2).1 =
        .flag false) ∧
      ((∀ op ∈ ops', op.Avoids name i) → (step (.isEntryLoaded name i) (run ops' opened').2).1 =
        .flag false) := by
  obtain ⟨hholds, hholds'⟩ := hshared.holdsEntry
  obtain ⟨library, hstands⟩ := hopened.standsAt hposition hholds hops
  obtain ⟨library', hstands'⟩ := hopened'.standsAt hposition hholds' hops'
  exact ⟨agreeAt_of_standsAt hstands hstands' rfl, hopened.isEntryLoaded hposition hholds,
    hopened'.isEntryLoaded hposition hholds'⟩

/-- The second of two entries is corrupt in one of two streams, which are of different lengths. It
has been looked for in vain; the first entry answers the same in both. -/
theorem corruption_stays_elsewhere_two_entries : ∃ opened opened' : Workspace,
    Opened "d" {} #[0, 2, 16, 7, 2, 16, 1, 2, 16, 1, 4, 10, 2, 4, 7, 4, 0, 0, 0] ⟨[4, 7]⟩
      ⟨1⟩ opened ∧
    Opened "d" {} #[0, 2, 16, 7, 2, 16, 1, 255, 4, 10, 2, 4, 7, 4, 0, 0, 0] ⟨[4, 7]⟩ ⟨5⟩ opened' ∧
    (run [.lookAtEntry (.inDocument "d" 1) .info] opened').1.map Answer.isFailure = [true] ∧
    AgreeAt "d" 0 ⟨{}, some { birthYear := some 7 }, none, []⟩ ⟨1⟩ ⟨5⟩ (run [] opened).2
      (run [.lookAtEntry (.inDocument "d" 1) .info] opened').2 ∧
    (step (.isEntryLoaded "d" 0) (run [.lookAtEntry (.inDocument "d" 1) .info] opened').2).1 =
      .flag false := by
  obtain ⟨first, hcalm, hbytes, hheader, hroot⟩ : ∃ first : Workspace,
      (first.streams.get (first.streams.current "s")).Calm ∧
      (first.streams.get (first.streams.current "s")).content =
        #[0, 2, 16, 7, 2, 16, 1, 2, 16, 1, 4, 10, 2, 4, 7, 4, 0, 0, 0] ∧
      verdict (Document.readHeader
        { backing := .stream (first.streams.current "s") } first.streams) = .ok ⟨[4, 7]⟩ ∧
      (step (.openDocument "d" "s" {}) first).1 = .root ⟨1⟩ :=
    ⟨{ streams := Streams.set {} (.named "s" 0)
        { content := #[0, 2, 16, 7, 2, 16, 1, 2, 16, 1, 4, 10, 2, 4, 7, 4, 0, 0, 0] } },
      Stream.calm_mk _ _, by decide +kernel, by decide +kernel, by decide +kernel⟩
  obtain ⟨second, hcalm', hbytes', hheader', hroot', hfails⟩ : ∃ second : Workspace,
      (second.streams.get (second.streams.current "s")).Calm ∧
      (second.streams.get (second.streams.current "s")).content =
        #[0, 2, 16, 7, 2, 16, 1, 255, 4, 10, 2, 4, 7, 4, 0, 0, 0] ∧
      verdict (Document.readHeader
        { backing := .stream (second.streams.current "s") } second.streams) = .ok ⟨[4, 7]⟩ ∧
      (step (.openDocument "d" "s" {}) second).1 = .root ⟨5⟩ ∧
      (run [.lookAtEntry (.inDocument "d" 1) .info]
        (step (.openDocument "d" "s" {}) second).2).1.map
        Answer.isFailure = [true] :=
    ⟨{ streams := Streams.set {} (.named "s" 0)
        { content := #[0, 2, 16, 7, 2, 16, 1, 255, 4, 10, 2, 4, 7, 4, 0, 0, 0] }
       roots := { issued := 4 } },
      Stream.calm_mk _ _,
      by decide +kernel, by decide +kernel, by decide +kernel, by decide +kernel⟩
  have hshared : Frame.SharedEntry {} #[0, 2, 16, 7, 2, 16, 1, 2, 16, 1, 4, 10, 2, 4, 7, 4, 0, 0, 0]
      #[0, 2, 16, 7, 2, 16, 1, 255, 4, 10, 2, 4, 7, 4, 0, 0, 0] 4
        ⟨{}, some { birthYear := some 7 }, none, []⟩ :=
    ⟨{ identification := 0, secretIdentity := some 1 }, ⟨by decide +kernel, by decide +kernel⟩,
      ⟨by decide +kernel, by decide +kernel⟩, .some ⟨by decide +kernel, by decide +kernel⟩,
      rfl, rfl⟩
  have havoids : ∀ op ∈ [Op.lookAtEntry (.inDocument "d" 1) .info], op.Avoids "d" 0 := by
    intro op hop
    rw [List.mem_singleton.1 hop]
    refine ⟨rfl, fun refs hreaches => ?_⟩
    obtain ⟨goal, ⟨-, hgoal⟩, hway⟩ := hreaches
    rw [EntryLook.goals, List.mem_singleton] at hgoal
    subst hgoal
    exact absurd hway (by decide)
  have hopened := Opened.intro hcalm hbytes hheader hroot
  have hopened' := Opened.intro hcalm' hbytes' hheader' hroot'
  obtain ⟨hagree, -, hloaded⟩ := corruption_stays_elsewhere hopened hopened' (i := 0) rfl hshared
    (fun _ hnever => absurd hnever List.not_mem_nil) fun op hop => .inr (havoids op hop)
  exact ⟨_, _, hopened, hopened', hfails, hagree, hloaded havoids⟩

end Workspace
end FramedTree
