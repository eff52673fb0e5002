import Edfs.Base.Execution
import Edfs.Filesystem.Mutators
import Edfs.Filesystem.Reading

/-!
# Runs of a file system

Everything that can happen to a node's file system: the nine mutators, the other calls on the
chunk store, reads, and operations that arrive from other nodes.

* `Call`, `callStep`; `Reachable`, the states of all runs from the initial one;
* `Inv`: the tree is built by the documented machine and the store is well formed;
  `inv_step`, `Reachable.inv`: every run keeps it;
* `entry_step_of_pinned`: only `evict_chunk` costs a pinned entry.
-/

namespace Edfs

inductive Call (PeerId : Type)
  | mutate (c : Mutator)
  | cacheChunk (data : Bytes)
  | promoteToPinned (h : ChunkHash)
  | evictChunk (h : ChunkHash)
  | readFile (n : NodeId) (offset length : ℕ)
  | readFileAll (n : NodeId)
  | chunk (h : ChunkHash)
  | applyOperations (ops : List (NodeOperation PeerId))

/-- The directory a call puts a node in, where its caller names one. -/
def Call.target {PeerId : Type} : Call PeerId → Option NodeId
  | .mutate c => FileSystem.target c
  | _ => none

/-- The operations of other nodes that a call applies. -/
def Call.applied {PeerId : Type} : Call PeerId → List (NodeOperation PeerId)
  | .applyOperations ops => ops
  | _ => []

/-- A call with the wall-clock readings it makes. -/
abbrev Event (PeerId : Type) := (ℕ → ℕ) × Call PeerId

namespace FileSystem

open Execution

variable {PeerId : Type} [CrdtTree PeerId]

/-- The file system a node starts with. -/
def init (p : PeerId) (maxPinnedBytes : ℕ) : FileSystem PeerId :=
  FileSystem.new (NodeTree.new p) (ChunkStorage.new maxPinnedBytes)

variable [UuidV5] [Sha256] [FastCdc]

/-- The state after a call, if it returns. -/
def callStep : Event PeerId → FileSystem PeerId → Option (FileSystem PeerId)
  | (now, .mutate c), fs => some (fs.mutate (now 0) c).2
  | (_, .cacheChunk data), fs => some (fs.cacheChunk data)
  | (_, .promoteToPinned h), fs => some (fs.promoteToPinned h).2
  | (_, .evictChunk h), fs => some (fs.evictChunk h).2
  | (_, .readFile n offset length), fs => (fs.readFile n offset length).map Prod.snd
  | (_, .readFileAll n), fs => (fs.readFileAll n).map Prod.snd
  | (_, .chunk h), fs => some (fs.chunk h).2
  | (now, .applyOperations ops), fs => some (fs.applyOperations now ops)

/-- The operations a call reports. -/
def emitted : Event PeerId → FileSystem PeerId → List (NodeOperation PeerId)
  | (now, .mutate c), fs =>
    match (fs.mutate (now 0) c).1 with
    | .ok ops => ops
    | .error _ => []
  | _, _ => []

/-- The states of all runs. -/
def Reachable (fs : FileSystem PeerId) : Prop :=
  ∃ p maxPinnedBytes events, run callStep events (init p maxPinnedBytes) = some fs

theorem Reachable.step {fs fs' : FileSystem PeerId} (h : fs.Reachable) {e : Event PeerId}
    (hstep : callStep e fs = some fs') : fs'.Reachable := by
  obtain ⟨p, maxPinnedBytes, events, hrun⟩ := h
  exact ⟨p, maxPinnedBytes, events ++ [e], run_concat_eq_some.2 ⟨fs, hrun, hstep⟩⟩

variable [LinearOrder PeerId]

/-- What every run keeps. -/
structure Inv (fs : FileSystem PeerId) : Prop where
  sound : fs.tree.Sound
  storage : fs.storage.Inv

variable [LawfulCrdtTree PeerId]

omit [UuidV5] [FastCdc] in
theorem inv_init (p : PeerId) (maxPinnedBytes : ℕ) : (init p maxPinnedBytes).Inv :=
  ⟨NodeTree.sound_new p, ChunkStorage.inv_new maxPinnedBytes⟩

theorem inv_mutate {fs : FileSystem PeerId} (h : fs.Inv) (now : ℕ) (c : Mutator) :
    (fs.mutate now c).2.Inv := by
  rcases mutate_cases fs now c with ⟨e, he⟩ | ⟨ops, fs', ho, hd⟩
  · rwa [he]
  · rw [ho]
    refine ⟨?_, ?_⟩
    · rcases hd.tree with ⟨-, ht⟩ | ⟨n, p, m, -, -, ht⟩
      · rw [ht]
        exact h.sound
      · rw [ht]
        exact h.sound.issue _ _ _ _
    · cases hc : pins c with
      | none =>
        rw [hd.storage hc]
        exact h.storage
      | some cs => exact (hd.pinned cs hc).inv h.storage

/-- **Every call keeps the invariant.** -/
theorem inv_step {e : Event PeerId} {fs fs' : FileSystem PeerId} (h : fs.Inv)
    (hstep : callStep e fs = some fs') : fs'.Inv := by
  obtain ⟨now, call⟩ := e
  cases call with
  | mutate c => cases hstep; exact inv_mutate h _ _
  | cacheChunk data => cases hstep; exact ⟨h.sound, ChunkStorage.inv_cache h.storage _⟩
  | promoteToPinned x =>
    cases hstep
    exact ⟨h.sound, ChunkStorage.inv_promoteToPinned h.storage x⟩
  | evictChunk x => cases hstep; exact ⟨h.sound, ChunkStorage.inv_evict h.storage x⟩
  | readFile n offset length =>
    obtain ⟨⟨r, fs''⟩, hr, rfl⟩ := Option.map_eq_some_iff.1 hstep
    obtain ⟨ht, -, hinv⟩ := readFile_state hr
    exact ⟨by rw [ht]; exact h.sound, hinv h.storage⟩
  | readFileAll n =>
    obtain ⟨⟨r, fs''⟩, hr, rfl⟩ := Option.map_eq_some_iff.1 hstep
    obtain ⟨ht, -, hinv⟩ := readFileAll_state hr
    exact ⟨by rw [ht]; exact h.sound, hinv h.storage⟩
  | chunk x => cases hstep; exact ⟨h.sound, ChunkStorage.inv_get h.storage x⟩
  | applyOperations ops => cases hstep; exact ⟨h.sound.applyOperations _ _, h.storage⟩

theorem Reachable.inv {fs : FileSystem PeerId} (h : fs.Reachable) : fs.Inv := by
  obtain ⟨p, maxPinnedBytes, events, hrun⟩ := h
  exact run_invariant (fun _ _ _ => inv_step) (inv_init p maxPinnedBytes) hrun

omit [LinearOrder PeerId] [LawfulCrdtTree PeerId] in
theorem entry_mutate_of_pinned {fs : FileSystem PeerId} {x : ChunkHash} {d : Bytes}
    (hx : fs.storage.entry x = some ⟨d, true⟩) (now : ℕ) (c : Mutator) :
    (fs.mutate now c).2.storage.entry x = some ⟨d, true⟩ := by
  rcases mutate_cases fs now c with ⟨e, he⟩ | ⟨ops, fs', ho, hd⟩
  · rwa [he]
  · rw [ho]
    cases hc : pins c with
    | none => rwa [hd.storage hc]
    | some cs => simpa using (hd.pinned cs hc).kept x _ hx

omit [LawfulCrdtTree PeerId] in
/-- Only `evict_chunk` costs a pinned entry. -/
theorem entry_step_of_pinned {e : Event PeerId} {fs fs' : FileSystem PeerId} (h : fs.Inv)
    (hstep : callStep e fs = some fs') {x : ChunkHash} (hevict : e.2 ≠ .evictChunk x) {d : Bytes}
    (hx : fs.storage.entry x = some ⟨d, true⟩) : fs'.storage.entry x = some ⟨d, true⟩ := by
  obtain ⟨now, call⟩ := e
  cases call with
  | mutate c => cases hstep; exact entry_mutate_of_pinned hx _ _
  | cacheChunk data =>
    cases hstep
    exact ChunkStorage.entry_cache_of_pinned h.storage hx _
  | promoteToPinned y => cases hstep; exact ChunkStorage.entry_promote_of_pinned hx y
  | evictChunk y =>
    cases hstep
    have hne : x ≠ y := by
      rintro rfl
      exact hevict rfl
    exact (ChunkStorage.entry_evict fs.storage y x).trans (by rw [if_neg hne, hx])
  | readFile n offset length =>
    obtain ⟨⟨r, fs''⟩, hr, rfl⟩ := Option.map_eq_some_iff.1 hstep
    rw [(readFile_state hr).2.1, hx]
  | readFileAll n =>
    obtain ⟨⟨r, fs''⟩, hr, rfl⟩ := Option.map_eq_some_iff.1 hstep
    rw [(readFileAll_state hr).2.1, hx]
  | chunk y => cases hstep; exact (ChunkStorage.entry_get fs.storage y x).trans hx
  | applyOperations ops => cases hstep; exact hx

omit [LinearOrder PeerId] [LawfulCrdtTree PeerId] in
/-- What a call does to the tree: nothing, one issued move that it reports, or the operations
that have arrived. -/
theorem tree_step {e : Event PeerId} {fs fs' : FileSystem PeerId}
    (hstep : callStep e fs = some fs') :
    (fs'.tree = fs.tree ∧ emitted e fs = []) ∨
      (∃ n p m, fs.Issues e.2.target n p m ∧
        emitted e fs = [(fs.tree.issue (e.1 0) n p m).1] ∧
        fs'.tree = (fs.tree.issue (e.1 0) n p m).2) ∨
      ∃ ops, e.2 = .applyOperations ops ∧ fs'.tree = fs.tree.applyOperations e.1 ops := by
  obtain ⟨now, call⟩ := e
  cases call with
  | mutate c =>
    cases hstep
    rcases mutate_cases fs (now 0) c with ⟨e, he⟩ | ⟨ops, fs', ho, hd⟩
    · exact Or.inl ⟨by rw [he], by simp only [emitted, he]⟩
    · have hops : emitted (now, .mutate c) fs = ops := by simp only [emitted, ho]
      rw [ho, hops]
      rcases hd.tree with ⟨hnil, ht⟩ | ⟨n, p, m, hi, hone, ht⟩
      · exact Or.inl ⟨ht, hnil⟩
      · exact Or.inr (Or.inl ⟨n, p, m, hi, hone, ht⟩)
  | readFile n offset length =>
    obtain ⟨⟨r, fs''⟩, hr, rfl⟩ := Option.map_eq_some_iff.1 hstep
    exact Or.inl ⟨(readFile_state hr).1, rfl⟩
  | readFileAll n =>
    obtain ⟨⟨r, fs''⟩, hr, rfl⟩ := Option.map_eq_some_iff.1 hstep
    exact Or.inl ⟨(readFileAll_state hr).1, rfl⟩
  | applyOperations ops =>
    cases hstep
    exact Or.inr (Or.inr ⟨ops, rfl, rfl⟩)
  | _ => cases hstep; exact Or.inl ⟨rfl, rfl⟩

end FileSystem

end Edfs
