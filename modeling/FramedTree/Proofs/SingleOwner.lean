import Mathlib.Algebra.Group.Nat.Defs
import FramedTree.Proofs.WorkspaceRuns

/-! # Single ownership

After any run of operations every tree of a workspace is intact, has a root of its own, and has it
for as long as its holder keeps it. For a document this means that the place of a node and the root
of the document decide the stamp of the node.
-/

namespace FramedTree

namespace Document

/-- Where a node is, as a path: a field number and an index for every step. -/
def Node.location : Node → Path
  | .document => ⟨[]⟩
  | .entry i => ⟨[1, i.toUInt64]⟩
  | .identification i => ⟨[1, i.toUInt64, 1, 0]⟩
  | .secretIdentity i => ⟨[1, i.toUInt64, 2, 0]⟩

def stampOf (document : Document) : Node → Option Stamp
  | .document => some document.stamp
  | .entry i => (document.entryAt? i).map Entry.stamp
  | .identification i => do (← (← document.entryAt? i).identification.peek).stamp
  | .secretIdentity i => do (← (← document.entryAt? i).loadedSecret?).stamp

/-- Whether a node is a secret identity of a loaded entry that has none. -/
def Lacks (document : Document) (node : Node) : Prop :=
  ∃ i entry, node = .secretIdentity i ∧ document.entryAt? i = some entry ∧
    entry.hasSecretIdentity = false

variable {document : Document}

private theorem entryAt?_of_stampOf_identification {i : Nat} {stamp : Stamp}
    (h : document.stampOf (.identification i) = some stamp) :
    ∃ entry identity, document.entryAt? i = some entry ∧
      entry.identification.peek = some identity ∧ identity.stamp = stamp := by
  simp only [stampOf, Option.bind_eq_bind, Option.bind_eq_some_iff] at h
  obtain ⟨entry, hentry, identity, hidentity, hstamp⟩ := h
  exact ⟨entry, identity, hentry, hidentity, Option.some.inj hstamp⟩

private theorem entryAt?_of_stampOf_secretIdentity {i : Nat} {stamp : Stamp}
    (h : document.stampOf (.secretIdentity i) = some stamp) :
    ∃ entry identity, document.entryAt? i = some entry ∧
      entry.loadedSecret? = some identity ∧ identity.stamp = stamp := by
  simp only [stampOf, Option.bind_eq_bind, Option.bind_eq_some_iff] at h
  obtain ⟨entry, hentry, identity, hidentity, hstamp⟩ := h
  exact ⟨entry, identity, hentry, hidentity, Option.some.inj hstamp⟩

private theorem entryStamp_eq (h : document.Intact) (i : Nat) :
    entryStamp document.stamp i = ⟨document.stamp.root, (Node.entry i).location⟩ := by
  simp only [entryStamp, Stamp.child, Path.child, h.path_eq]
  rfl

/-- In an intact document the stamp of a node is its place under the document's root. -/
theorem Intact.stampOf_eq (h : document.Intact) {node : Node} {stamp : Stamp}
    (hstamp : document.stampOf node = some stamp) :
    stamp = ⟨document.stamp.root, node.location⟩ := by
  cases node with
  | document =>
    cases hstamp
    exact congrArg (Stamp.mk document.stamp.root) h.path_eq
  | entry i =>
    obtain ⟨entry, hentry, rfl⟩ := Option.map_eq_some_iff.1 hstamp
    rw [(h.entry i entry hentry).1, entryStamp_eq h]
  | identification i =>
    obtain ⟨entry, identity, hentry, hidentity, rfl⟩ := entryAt?_of_stampOf_identification hstamp
    obtain ⟨hplace, hintact⟩ := h.entry i entry hentry
    rw [hintact.identification identity hidentity, hplace, entryStamp_eq h]
    rfl
  | secretIdentity i =>
    obtain ⟨entry, identity, hentry, hidentity, rfl⟩ := entryAt?_of_stampOf_secretIdentity hstamp
    obtain ⟨hplace, hintact⟩ := h.entry i entry hentry
    rw [hintact.secretIdentity identity hidentity, hplace, entryStamp_eq h]
    rfl

def Node.index : Node → Nat
  | .document => 0
  | .entry i | .identification i | .secretIdentity i => i

private theorem entryAt?_lt {i : Nat} {entry : Entry} (h : document.entryAt? i = some entry) :
    i < document.entryCount := by
  obtain ⟨cell, hcell, -⟩ := Option.bind_eq_some_iff.1 h
  exact Slots.lt_size_of_get? hcell

private theorem index_lt {node : Node} {stamp : Stamp} (hcount : document.entryCount ≤ 2 ^ 64)
    (h : document.stampOf node = some stamp) : node.index < 2 ^ 64 := by
  cases node with
  | document => exact Nat.two_pow_pos 64
  | entry i =>
    obtain ⟨entry, hentry, -⟩ := Option.map_eq_some_iff.1 h
    exact Nat.lt_of_lt_of_le (entryAt?_lt hentry) hcount
  | identification i =>
    obtain ⟨entry, -, hentry, -⟩ := entryAt?_of_stampOf_identification h
    exact Nat.lt_of_lt_of_le (entryAt?_lt hentry) hcount
  | secretIdentity i =>
    obtain ⟨entry, -, hentry, -⟩ := entryAt?_of_stampOf_secretIdentity h
    exact Nat.lt_of_lt_of_le (entryAt?_lt hentry) hcount

private theorem Node.location_injective {node other : Node} (hnode : node.index < 2 ^ 64)
    (hother : other.index < 2 ^ 64) (h : node.location = other.location) : node = other := by
  have hindex {i j : Nat} (hi : i < 2 ^ 64) (hj : j < 2 ^ 64) (h : i.toUInt64 = j.toUInt64) :
    i = j := by
    have := congrArg UInt64.toNat h
    simp only [Nat.toUInt64, UInt64.toNat_ofNat'] at this
    rwa [Nat.mod_eq_of_lt hi, Nat.mod_eq_of_lt hj] at this
  cases node <;> cases other <;> simp [location] at h
  · rfl
  · exact congrArg Node.entry (hindex hnode hother h)
  · exact congrArg Node.identification (hindex hnode hother h)
  · exact congrArg Node.secretIdentity (hindex hnode hother h)

private theorem Grows.stampOf {later : Document} (h : document.Grows later)
    (hintact : document.Intact) {node : Node} {stamp : Stamp}
    (hstamp : document.stampOf node = some stamp) :
    later.stampOf node = some stamp ∨ later.Lacks node := by
  have hplace := hintact.stampOf_eq hstamp
  have hlater {now : Stamp} (hnow : later.stampOf node = some now) :
    later.stampOf node = some stamp := by
    rw [hnow, (h.intact hintact).stampOf_eq hnow, hplace, h.stamp_eq]
  cases node with
  | document => exact .inl (hlater rfl)
  | entry i =>
    obtain ⟨entry, hentry, -⟩ := Option.map_eq_some_iff.1 hstamp
    obtain ⟨now, hnow, -⟩ := h.entry i entry hentry
    exact .inl (hlater (congrArg (Option.map Entry.stamp) hnow))
  | identification i =>
    obtain ⟨entry, identity, hentry, hidentity, -⟩ := entryAt?_of_stampOf_identification hstamp
    obtain ⟨now, hnow, hgrows⟩ := h.entry i entry hentry
    obtain ⟨last, hlast, -⟩ := hgrows.identification identity hidentity
    refine .inl (@hlater last.stamp ?_)
    simp [Document.stampOf, hnow, hlast]
  | secretIdentity i =>
    obtain ⟨entry, identity, hentry, hidentity, -⟩ := entryAt?_of_stampOf_secretIdentity hstamp
    obtain ⟨now, hnow, hgrows⟩ := h.entry i entry hentry
    have hloaded : entry.SecretAtHand := by
      intro cell hcell
      simpa [Entry.loadedSecret?, hcell, Lazy.isLoaded] using congrArg Option.isSome hidentity
    cases hslot : now.secretIdentity.get? Entry.singular with
    | none => exact .inr ⟨i, now, rfl, hnow, by simp [Entry.hasSecretIdentity, hslot]⟩
    | some cell =>
      obtain ⟨last, hlast⟩ := Option.isSome_iff_exists.1 (hgrows.secretAtHand hloaded cell hslot)
      refine .inl (@hlater last.stamp ?_)
      simp [Document.stampOf, Entry.loadedSecret?, hnow, hslot, hlast]

end Document

namespace Workspace

/-- Over every run of operations, a document has no gaps between its entries, the root of the
document and the place of a node make up the stamp of the node, and references stay within the tree.
While the document is held, no stamp changes, and no node goes except a secret identity that is
dropped. -/
theorem document_single_owner (ops : List Op) (name : String) (document : Document)
    (hheld : (run ops {}).2.documents.find? name = some document) :
    (∀ i < document.entryCount, (document.entries.get? i).isSome) ∧
    (∀ node stamp, document.stampOf node = some stamp →
      stamp = ⟨document.stamp.root, node.location⟩) ∧
    (document.entryCount ≤ 2 ^ 64 → ∀ node other stamp stamp', document.stampOf node = some stamp →
      document.stampOf other = some stamp' → stamp.path = stamp'.path → node = other) ∧
    (∀ i entry, document.entryAt? i = some entry →
      ∀ ref ∈ entry.references, ref.root = document.stamp.root) ∧
    ∀ more, ¬ Renews (.document name) more (run ops {}).2 →
      ∃ later, (run (ops ++ more) {}).2.documents.find? name = some later ∧
        ∀ node stamp, document.stampOf node = some stamp →
          later.stampOf node = some stamp ∨ later.Lacks node := by
  have hintact : document.Intact := (sound_run ops sound_empty).intact _ _ (tree?_document hheld)
  refine ⟨hintact.occupied, fun _ _ => hintact.stampOf_eq, ?_, ?_, ?_⟩
  · intro hcount node other stamp stamp' hstamp hstamp' hpath
    rw [hintact.stampOf_eq hstamp, hintact.stampOf_eq hstamp'] at hpath
    exact Document.Node.location_injective (Document.index_lt hcount hstamp)
      (Document.index_lt hcount hstamp') hpath
  · intro i entry hentry ref href
    obtain ⟨hstamp, hentry⟩ := hintact.entry i entry hentry
    rw [hentry.references ref href, hstamp]
    rfl
  · intro more hmore
    have hrel := rel_run hmore
    rw [tree?_document hheld, ← run_append] at hrel
    cases hlater : (run (ops ++ more) {}).2.documents.find? name with
    | none =>
      rw [tree?, hlater] at hrel
      cases hrel
    | some later =>
      rw [tree?_document hlater] at hrel
      cases hrel with
      | some hgrows => exact ⟨later, rfl, fun _ _ => Document.Grows.stampOf hgrows hintact⟩

/-- A secret identity keeps its stamp until it is dropped. -/
theorem document_single_owner_dropped :
    ∃ document later,
      (run [.newDocument "a", .addEntry "a",
        .changeIdentity (.addedSecretIdentity (.inDocument "a" 0)) .touch]
        {}).2.documents.find? "a" =
          some document ∧
      document.stampOf (.secretIdentity 0) = some ⟨⟨1⟩, ⟨[1, 0, 2, 0]⟩⟩ ∧
      (run [.newDocument "a", .addEntry "a",
        .changeIdentity (.addedSecretIdentity (.inDocument "a" 0)) .touch,
        .changeEntry (.inDocument "a" 0) .clearSecretIdentity] {}).2.documents.find? "a" =
        some later ∧
      (later.stampOf (.secretIdentity 0) = some ⟨⟨1⟩, ⟨[1, 0, 2, 0]⟩⟩ ∨
        later.Lacks (.secretIdentity 0)) := by
  obtain ⟨-, -, -, -, hlater⟩ := document_single_owner [.newDocument "a", .addEntry "a",
    .changeIdentity (.addedSecretIdentity (.inDocument "a" 0)) .touch] "a" _ rfl
  obtain ⟨later, hfound, hstays⟩ :=
    hlater [.changeEntry (.inDocument "a" 0) .clearSecretIdentity] (by
    rintro ⟨pair, hpair, hbrings, -⟩
    cases List.mem_singleton.1 hpair
    cases hbrings)
  exact ⟨_, later, rfl, rfl, hfound, hstays _ _ rfl⟩

end Workspace
end FramedTree
