import Edfs.Filesystem.Replicas

/-!
# A rename and a write meet

An operation carries all the metadata of its node and its place, as its issuer sees them. So of a
rename and a write of one file that are issued apart from each other, the later undoes what the
earlier one has done.

* `rename_write_merge`: what both replicas show once each has the other's operation;
* `rename_undoes_write`.
-/

namespace Edfs

open Execution

namespace FileSystem

variable {PeerId : Type} [CrdtTree PeerId]

/-- What a file system shows of a node. -/
def Shows (fs : FileSystem PeerId) (n parent : NodeId) (m : NodeMeta) : Prop :=
  fs.parentId n = parent ∧ fs.metadata n = .ok m

/-- A node is the directory, or the directory hangs below it. -/
def HoldsBelow (fs : FileSystem PeerId) (n d : NodeId) : Prop :=
  n = d ∨ fs.tree.state.tree.Ancestor d n

theorem shows_of_find {fs : FileSystem PeerId} {n parent : NodeId} {m : NodeMeta}
    (hf : fs.tree.find n = some ⟨parent, m⟩) (hn : n ≠ NodeId.root) (hp : parent ≠ NodeId.trash) :
    fs.Shows n parent m := by
  refine ⟨?_, metadata_of_find hf hn hp⟩
  rw [FileSystem.parentId, NodeTree.parentId, hf]
  rfl

/-- The operation of a rename that moves its file. -/
theorem rename_file {fs fs' : FileSystem PeerId} {parent newParent n : NodeId}
    {name newName : String} {size : ℕ} {refs : List ChunkRef} {now : ℕ}
    {ops : List (NodeOperation PeerId)} [UuidV5] (hchild : fs.childId parent name = .ok n)
    (hfile : fs.metadata n = .ok (.regularFile name size refs))
    (hmoves : ¬ (newParent = parent ∧ newName = name))
    (h : fs.rename now parent name newParent newName = (.ok ⟨(), ops⟩, fs')) :
    ops = [(fs.tree.issue now n newParent (.regularFile newName size refs)).1] ∧
      fs'.tree = (fs.tree.issue now n newParent (.regularFile newName size refs)).2 := by
  rcases rename_cases fs now parent name newParent newName with
    ⟨e, he⟩ | ⟨hp, hn, -⟩ | ⟨-, n', m, hchild', hmeta, -, he⟩
  · cases he.symm.trans h
  · exact absurd ⟨hp, hn⟩ hmoves
  · cases hchild.symm.trans hchild'
    cases hfile.symm.trans hmeta
    cases he.symm.trans h
    exact ⟨rfl, rfl⟩

/-- The operation of a write. -/
theorem write_file_at [Sha256] [FastCdc] {fs fs' : FileSystem PeerId} {parent n : NodeId}
    {m : NodeMeta} {name : String} {size : ℕ} {refs : List ChunkRef} {now : ℕ} {data : Bytes}
    {ops : List (NodeOperation PeerId)} (hfind : fs.tree.find n = some ⟨parent, m⟩)
    (hfile : fs.metadata n = .ok (.regularFile name size refs))
    (h : fs.writeFile now n data = (.ok ⟨(), ops⟩, fs')) :
    ops = [(fs.tree.issue now n parent
        (.regularFile name data.length ((Chunk.split data).map Chunk.reference))).1] ∧
      fs'.tree = (fs.tree.issue now n parent
        (.regularFile name data.length ((Chunk.split data).map Chunk.reference))).2 := by
  rcases writeFile_cases fs now n data with
    ⟨e, he⟩ | ⟨name', size', refs', parent', hmeta, hparent, -, he⟩
  · cases he.symm.trans h
  · cases hfile.symm.trans hmeta
    rw [NodeTree.parentId, hfind] at hparent
    cases hparent
    cases (he _ rfl).symm.trans h
    exact ⟨rfl, rfl⟩

end FileSystem

namespace ReplicaWorld

variable {PeerId : Type} [CrdtTree PeerId] [LinearOrder PeerId] [UuidV5] [Sha256] [FastCdc]
  [LawfulCrdtTree PeerId] [LawfulUuidV5]

/-- **A rename and a write of one file, issued apart.** Once each replica has applied the other's
operation, both show what the later operation has left: the file at its new place, with the
content from before the write, or at its old place, with the data written. A rename into a
directory below the file has no effect. -/
theorem rename_write_merge {maxPinnedBytes : PeerId → ℕ} {events : List (ReplicaEvent PeerId)}
    {w : ReplicaWorld PeerId} (hrun : run replicaStep events (init maxPinnedBytes) = some w)
    {p q : PeerId} (hpq : p ≠ q) (hlogs : ∀ op, op ∈ w.log p ↔ op ∈ w.log q)
    {n parent newParent : NodeId} {name newName dirName : String} {size : ℕ}
    {refs : List ChunkRef} (hchild : (w.replicas p).childId parent name = .ok n)
    (hfile : (w.replicas p).metadata n = .ok (.regularFile name size refs))
    (hdir : (w.replicas p).metadata newParent = .ok (.directory dirName))
    (hmoves : ¬ (newParent = parent ∧ newName = name)) {now₁ now₂ : ℕ}
    (hnew₁ : (w.replicas p).tree.Newest now₁) (hnew₂ : (w.replicas q).tree.Newest now₂)
    {renames writes : List (NodeOperation PeerId)} {fs₁ fs₂ : FileSystem PeerId}
    (hrename : (w.replicas p).rename now₁ parent name newParent newName =
      (.ok ⟨(), renames⟩, fs₁)) {data : Bytes}
    (hwrite : (w.replicas q).writeFile now₂ n data = (.ok ⟨(), writes⟩, fs₂))
    (nows₁ nows₂ : ℕ → ℕ) :
    ∃ renamed written, renames = [renamed] ∧ writes = [written] ∧
      ∀ fs, fs = fs₁.applyOperations nows₁ writes ∨ fs = fs₂.applyOperations nows₂ renames →
        (written.timestamp < renamed.timestamp ∧ ¬ (w.replicas p).HoldsBelow n newParent →
          fs.Shows n newParent (.regularFile newName size refs)) ∧
        (¬ (written.timestamp < renamed.timestamp ∧ ¬ (w.replicas p).HoldsBelow n newParent) →
          fs.Shows n parent
            (.regularFile name data.length ((Chunk.split data).map Chunk.reference))) := by
  have h := inv_run hrun
  have hrooted := h.rooted p
  have hstate := h.state_eq hlogs
  obtain ⟨m₀, hfind, -⟩ := FileSystem.find_of_childId hchild
  have hroot : n ≠ NodeId.root := hrooted.ne_root hfind
  have hparent : parent ≠ NodeId.trash := FileSystem.ne_trash_of_metadata hfile hroot hfind
  have hnewParent : newParent ≠ NodeId.trash := by
    rintro rfl
    obtain ⟨d, hd⟩ := FileSystem.treeMetadata_eq_some.1
      (FileSystem.treeMetadata_of_metadata hdir NodeId.root_ne_trash.symm)
    rw [hrooted.trash] at hd
    cases hd
  -- both operations, issued on top of the same log
  have hfind' : (w.replicas q).tree.find n = some ⟨parent, m₀⟩ := by
    rw [NodeTree.find_eq, ← hstate]
    exact hfind
  have hfile' : (w.replicas q).metadata n = .ok (.regularFile name size refs) := by
    rw [← hfile]
    exact FileSystem.metadata_congr (hfind'.trans hfind.symm)
  obtain ⟨rfl, htree₁⟩ := FileSystem.rename_file hchild hfile hmoves hrename
  obtain ⟨rfl, htree₂⟩ := FileSystem.write_file_at hfind' hfile' hwrite
  refine ⟨_, _, rfl, rfl, fun fs hfs => ?_⟩
  set r := ((w.replicas p).tree.issue now₁ n newParent (.regularFile newName size refs)).1 with hr
  set wr := ((w.replicas q).tree.issue now₂ n parent
    (.regularFile name data.length ((Chunk.split data).map Chunk.reference))).1 with hwr
  have hne : r.timestamp ≠ wr.timestamp := fun heq => hpq <| by
    have hactor := congrArg Clock.actorId heq
    rw [hr, hwr, NodeTree.issue_fst, NodeTree.issue_fst] at hactor
    exact (h.peerId p).symm.trans (hactor.trans (h.peerId q))
  have hfs' : fs.tree.state = ((w.replicas p).tree.state.push r).apply wr ∨
      fs.tree.state = ((w.replicas p).tree.state.push wr).apply r := by
    refine hfs.imp ?_ ?_
    · rintro rfl
      refine (NodeTree.state_applyOperations _ _ _).trans ?_
      rw [htree₁, NodeTree.state_issue_newest hnew₁]
      rfl
    · rintro rfl
      refine (NodeTree.state_applyOperations _ _ _).trans ?_
      rw [htree₂, NodeTree.state_issue_newest hnew₂, ← hstate]
      rfl
  have hnewer : ∀ e ∈ (w.replicas p).tree.state.moves, e.timestamp < wr.timestamp := by
    rw [hstate]
    exact hnew₂
  obtain ⟨hlater, hother⟩ := MoveTree.exchange_stay (r := r) hrooted.sound.acyclic hnew₁ hnewer hne
    hfind rfl rfl hfs'
  exact ⟨fun hlt => FileSystem.shows_of_find (hlater hlt) hroot hnewParent,
    fun hnot => FileSystem.shows_of_find (hother hnot) hroot hparent⟩

end ReplicaWorld

end Edfs

namespace Edfs.ReplicaWorld

open Execution Reference

/-- The operation that creates a file. -/
def createdA : NodeOperation ℕ := ⟨⟨2 ^ 16, 0⟩, NodeId.root, .regularFile "a" 0 [], inRoot "a"⟩

/-- Replica 0 creates the file, and replica 1 gets it. -/
def sharing : List (ReplicaEvent ℕ) :=
  [(0, fun _ => 1, .mutate (.createFile NodeId.root "a")),
    (1, fun _ => 1, .applyOperations [createdA])]

/-- The two replicas after that. -/
def sharedWorld : ReplicaWorld ℕ :=
  (run replicaStep sharing (init fun _ => 100)).getD (init fun _ => 100)

theorem run_sharing : run replicaStep sharing (init fun _ => 100) = some sharedWorld := rfl

/-- The rename is the later operation, and its replica shows the file under the new name. -/
theorem rename_write_merge_late : ∃ renames fs₁ writes fs₂,
    (sharedWorld.replicas 0).rename 3 NodeId.root "a" NodeId.root "b" =
      (.ok ⟨(), renames⟩, fs₁) ∧
    (sharedWorld.replicas 1).writeFile 2 (inRoot "a") [7] = (.ok ⟨(), writes⟩, fs₂) ∧
    (fs₁.applyOperations (fun _ => 3) writes).Shows (inRoot "a") NodeId.root
      (.regularFile "b" 0 []) := by
  have hlog : sharedWorld.log 0 = sharedWorld.log 1 := rfl
  have hchild : (sharedWorld.replicas 0).childId NodeId.root "a" = .ok (inRoot "a") := rfl
  have hfile : (sharedWorld.replicas 0).metadata (inRoot "a") = .ok (.regularFile "a" 0 []) := rfl
  have hrename : (sharedWorld.replicas 0).rename 3 NodeId.root "a" NodeId.root "b" =
    (.ok ⟨(), _⟩, _) := rfl
  have hwrite : (sharedWorld.replicas 1).writeFile 2 (inRoot "a") [7] = (.ok ⟨(), _⟩, _) := rfl
  obtain ⟨r, wr, hr, hwr, hmerge⟩ := rename_write_merge run_sharing Nat.zero_ne_one
    (fun op => by rw [hlog]) hchild hfile (FileSystem.metadata_root _) (by decide) (by decide)
    (by decide) hrename hwrite (fun _ => 3) (fun _ => 3)
  cases hr
  cases hwr
  refine ⟨_, _, _, _, hrename, hwrite, (hmerge _ (Or.inl rfl)).1 ⟨by decide, ?_⟩⟩
  -- nothing is above the root
  rintro (h | h)
  · exact absurd h (by decide)
  · exact MoveTree.Tree.not_ancestor_of_none rfl _ h

/-- The write of one byte is lost: the later rename brings back the empty content. -/
theorem rename_undoes_write :
    run replicaStep sharing (init fun _ => 100) = some sharedWorld ∧
    sharedWorld.log 0 = sharedWorld.log 1 ∧ ∃ renames fs₁ writes fs₂,
      (sharedWorld.replicas 0).rename 3 NodeId.root "a" NodeId.root "b" =
        (.ok ⟨(), renames⟩, fs₁) ∧
      (sharedWorld.replicas 1).writeFile 2 (inRoot "a") [7] = (.ok ⟨(), writes⟩, fs₂) ∧
      ∀ fs, fs = fs₁.applyOperations (fun _ => 3) writes ∨
          fs = fs₂.applyOperations (fun _ => 3) renames →
        ¬ fs.Shows (inRoot "a") NodeId.root
          (.regularFile "b" 1 ((Chunk.split [7]).map Chunk.reference)) := by
  refine ⟨run_sharing, rfl, _, _, _, _, rfl, rfl, ?_⟩
  rintro fs (rfl | rfl) ⟨-, hm⟩
  · cases hm
  · cases hm

end Edfs.ReplicaWorld
