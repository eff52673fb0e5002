import Edfs.Filesystem.Namespace

/-!
# Replicas

Any number of file systems that exchange their operations: any calls on any replica, and any
operations that have been issued delivered to any replica, in any order and number.

* `ReplicaWorld`, `replicaStep`;
* `Inv`: what every run keeps of the trees, under no condition on clocks or calls; `inv_run`,
  `Inv.rooted`;
* `Inv.state_eq`: replicas with the same operations have the same tree.
-/

namespace Edfs

open Execution

/-- A call on a replica's file system. `apply_operations` is the delivery of operations. -/
abbrev ReplicaEvent (PeerId : Type) := PeerId × Event PeerId

structure ReplicaWorld (PeerId : Type) [CrdtTree PeerId] where
  replicas : PeerId → FileSystem PeerId
  issued : List (NodeOperation PeerId)

namespace ReplicaWorld

variable {PeerId : Type} [CrdtTree PeerId]

def init (maxPinnedBytes : PeerId → ℕ) : ReplicaWorld PeerId :=
  ⟨fun p => FileSystem.init p (maxPinnedBytes p), []⟩

/-- The operations a replica has. -/
def log (w : ReplicaWorld PeerId) (p : PeerId) : List (NodeOperation PeerId) :=
  (w.replicas p).tree.moves

variable [LinearOrder PeerId] [UuidV5] [Sha256] [FastCdc]

def replicaStep : ReplicaEvent PeerId → ReplicaWorld PeerId → Option (ReplicaWorld PeerId)
  | (p, e), w =>
    if ∀ op ∈ e.2.applied, op ∈ w.issued then
      (FileSystem.callStep e (w.replicas p)).map fun fs =>
        { replicas := Function.update w.replicas p fs
          issued := FileSystem.emitted e (w.replicas p) ++ w.issued }
    else none

/-- What every run keeps: the trees are built by the documented machine from operations that have
been issued, and no operation moves a reserved node. -/
structure Inv (w : ReplicaWorld PeerId) : Prop where
  sound : ∀ p, (w.replicas p).tree.Sound
  peerId : ∀ p, (w.replicas p).tree.peerId = p
  logged : ∀ p, ∀ op ∈ w.log p, op ∈ w.issued
  movable : ∀ op ∈ w.issued, op.child ≠ NodeId.root ∧ op.child ≠ NodeId.trash

/-- A step is a call on one replica. -/
theorem replicaStep_eq_some {p : PeerId} {e : Event PeerId} {w w' : ReplicaWorld PeerId}
    (h : replicaStep (p, e) w = some w') :
    (∀ op ∈ e.2.applied, op ∈ w.issued) ∧
      ∃ fs, FileSystem.callStep e (w.replicas p) = some fs ∧
        w' = { replicas := Function.update w.replicas p fs
               issued := FileSystem.emitted e (w.replicas p) ++ w.issued } := by
  simp only [replicaStep] at h
  split_ifs at h with hops
  obtain ⟨fs, hfs, rfl⟩ := Option.map_eq_some_iff.1 h
  exact ⟨hops, fs, hfs, rfl⟩

omit [UuidV5] [Sha256] [FastCdc] in
/-- The reserved ids are not nodes of a replica's tree. -/
theorem Inv.rooted {w : ReplicaWorld PeerId} (h : w.Inv) (p : PeerId) :
    (w.replicas p).Rooted := by
  have hnone : ∀ n, (∀ op ∈ w.issued, op.child ≠ n) → (w.replicas p).tree.find n = none := by
    intro n hn
    refine Option.eq_none_iff_forall_ne_some.2 fun x hx => ?_
    obtain ⟨op, hop, hchild, -⟩ := MoveTree.Coherent.exists_move (h.sound p) hx
    exact hn op (h.logged p op hop) hchild
  exact ⟨h.sound p, hnone _ fun op hop => (h.movable op hop).1,
    hnone _ fun op hop => (h.movable op hop).2⟩

omit [UuidV5] [Sha256] [FastCdc] in
/-- Replicas with the same operations have the same tree. -/
theorem Inv.state_eq {w : ReplicaWorld PeerId} (h : w.Inv) {p q : PeerId}
    (hlogs : ∀ op, op ∈ w.log p ↔ op ∈ w.log q) :
    (w.replicas p).tree.state = (w.replicas q).tree.state :=
  MoveTree.Coherent.ext (h.sound p) (h.sound q) hlogs

variable [LawfulCrdtTree PeerId]

omit [UuidV5] [Sha256] [FastCdc] in
theorem log_init (maxPinnedBytes : PeerId → ℕ) (p : PeerId) : (init maxPinnedBytes).log p = [] := by
  change (NodeTree.new p).moves = []
  rw [NodeTree.moves, NodeTree.state_new]
  rfl

omit [UuidV5] [Sha256] [FastCdc] in
theorem inv_init (maxPinnedBytes : PeerId → ℕ) : (init maxPinnedBytes).Inv where
  sound p := NodeTree.sound_new p
  peerId _ := rfl
  logged p op h := by
    rw [log_init] at h
    exact absurd h List.not_mem_nil
  movable _ h := absurd h List.not_mem_nil

variable [LawfulUuidV5]

/-- **Every step keeps the invariant.** -/
theorem inv_step {l : ReplicaEvent PeerId} {w w' : ReplicaWorld PeerId} (h : w.Inv)
    (hstep : replicaStep l w = some w') : w'.Inv := by
  obtain ⟨p, e⟩ := l
  obtain ⟨hops, fs, hfs, rfl⟩ := replicaStep_eq_some hstep
  have hrooted := h.rooted p
  -- what the call does to the replica, and what it issues
  obtain ⟨hsound, hpeer, hlogged, hmovable⟩ :
      fs.tree.Sound ∧ fs.tree.peerId = p ∧
        (∀ op ∈ fs.tree.moves, op ∈ FileSystem.emitted e (w.replicas p) ++ w.issued) ∧
        ∀ op ∈ FileSystem.emitted e (w.replicas p),
          op.child ≠ NodeId.root ∧ op.child ≠ NodeId.trash := by
    rcases FileSystem.tree_step hfs with
      ⟨ht, hnil⟩ | ⟨n, parent, m, hi, hone, ht⟩ | ⟨ops, he, ht⟩
    · rw [ht, hnil]
      exact ⟨h.sound p, h.peerId p, h.logged p, fun op hop => absurd hop List.not_mem_nil⟩
    · rw [ht, hone]
      refine ⟨(h.sound p).issue _ _ _ _, h.peerId p, fun op hop => ?_, fun op hop => ?_⟩
      · rw [NodeTree.moves, NodeTree.state_issue] at hop
        rcases MoveTree.mem_moves_apply hop with rfl | hop
        · exact List.mem_cons_self
        · exact List.mem_cons_of_mem _ (h.logged p op hop)
      · cases List.mem_singleton.1 hop
        exact hi.not_reserved hrooted.root hrooted.trash
    · have hnil : FileSystem.emitted e (w.replicas p) = [] := by
        obtain ⟨now, call⟩ := e
        obtain rfl : call = _ := he
        rfl
      rw [ht, hnil]
      refine ⟨(h.sound p).applyOperations _ _, h.peerId p, fun op hop => ?_,
        fun op hop => absurd hop List.not_mem_nil⟩
      rcases NodeTree.mem_moves_applyOperations hop with hop | hop
      · exact hops op (he ▸ hop)
      · exact h.logged p op hop
  refine ⟨?_, ?_, ?_, fun op hop => ?_⟩
  · exact (Function.forall_update_iff w.replicas fun _ fs => fs.tree.Sound).2
      ⟨hsound, fun q _ => h.sound q⟩
  · exact (Function.forall_update_iff w.replicas fun q fs => fs.tree.peerId = q).2
      ⟨hpeer, fun q _ => h.peerId q⟩
  · exact (Function.forall_update_iff w.replicas fun _ fs => ∀ op ∈ fs.tree.moves,
      op ∈ FileSystem.emitted e (w.replicas p) ++ w.issued).2
      ⟨hlogged, fun q _ op hop => List.mem_append_right _ (h.logged q op hop)⟩
  · exact (List.mem_append.1 hop).elim (hmovable op) (h.movable op)

theorem inv_run {maxPinnedBytes : PeerId → ℕ} {events : List (ReplicaEvent PeerId)}
    {w : ReplicaWorld PeerId}
    (hrun : run replicaStep events (init maxPinnedBytes) = some w) : w.Inv :=
  run_invariant (fun _ _ _ => inv_step) (inv_init maxPinnedBytes) hrun

end ReplicaWorld

end Edfs

namespace Edfs.ReplicaWorld

open Reference

/-- The id a name gets in the root. -/
def inRoot (name : String) : NodeId := ⟨UuidV5.newV5 Uuid.nil name⟩

end Edfs.ReplicaWorld
