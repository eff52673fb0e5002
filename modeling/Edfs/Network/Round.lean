import Edfs.Network.Trim

/-!
# A round of replication

Fully connected nodes with the same trees and room for what they are designated for repair and then
trim the copies of all reachable chunks. The round changes nothing exactly if no copy is missing and
no node has anything to ask for about its extra copies. That is so where all copies are in place;
but also where a node has extra copies whose designated holders it all remembers to have confirmed,
since it then asks nobody, and evicts only when it is answered.

* `Round`, `Unchanged`, `Placed`, `Stuck`;
* `unchanged_iff`, `round_iff`.
-/

namespace Edfs

open Execution ReplicationNode RepairWorld TrimWorld

section

variable {PeerId : Type} [CrdtTree PeerId] [LinearOrder PeerId] [PeerBytes PeerId] [Sha256]

/-- A lossless round: every member rebalances and all fetches complete, then every member probes and
all replies are handled. -/
structure Round (members : List PeerId) (start : ℕ) (nodes : PeerId → ReplicationNode PeerId)
    (fetchers : PeerId → ChunkFetcher PeerId) (repairs : List (RepairEvent PeerId))
    (v : RepairWorld PeerId) (trims : List (TrimEvent PeerId)) (u : TrimWorld PeerId) : Prop where
  ready : Ready members start nodes fetchers
  repair : run (repairStep members start) repairs (RepairWorld.init nodes fetchers) = some v
  rebalanced : ∀ p ∈ members, ∃ connected now hashes, .rebalance p connected now hashes ∈ repairs
  repaired : v.Quiet
  trim : run (trimStep members) trims (TrimWorld.init v.nodes) = some u
  probed : ∀ p ∈ members, ∃ connected pinned, .probe p connected pinned ∈ trims
  trimmed : u.Quiet

/-- The same reachable chunks are pinned. -/
def Unchanged (members : List PeerId) (nodes nodes' : PeerId → ReplicationNode PeerId) : Prop :=
  ∀ p ∈ members, ∀ x ∈ (nodes p).filesystem.reachableChunkHashes,
    (nodes' p).filesystem.isPinned x ↔ (nodes p).filesystem.isPinned x

/-- Every reachable chunk is pinned on its designated holders only. -/
def Placed (members : List PeerId) (nodes : PeerId → ReplicationNode PeerId) : Prop :=
  ∀ p ∈ members, ∀ x ∈ (nodes p).filesystem.reachableChunkHashes,
    (nodes p).filesystem.isPinned x ↔ p ∈ designatedHolders x members

instance (members : List PeerId) (nodes nodes' : PeerId → ReplicationNode PeerId) :
    Decidable (Unchanged members nodes nodes') :=
  inferInstanceAs (Decidable (∀ p ∈ members,
    ∀ x ∈ (nodes p).filesystem.reachableChunkHashes, _ ↔ _))

instance (members : List PeerId) (nodes : PeerId → ReplicationNode PeerId) :
    Decidable (Placed members nodes) :=
  inferInstanceAs (Decidable (∀ p ∈ members,
    ∀ x ∈ (nodes p).filesystem.reachableChunkHashes, _ ↔ _))

/-- No copy is missing, and some are too many, but of all these the nodes remember that the
designated holders have confirmed them. -/
structure Stuck (members : List PeerId) (nodes : PeerId → ReplicationNode PeerId) : Prop where
  filled : ∀ p ∈ members, ∀ x ∈ (nodes p).filesystem.reachableChunkHashes,
    p ∈ designatedHolders x members → (nodes p).filesystem.isPinned x
  extra : ∃ p ∈ members, ∃ x,
    Extra members (nodes p).filesystem.reachableChunkHashes p (nodes p) x
  known : ∀ p ∈ members, ∀ x,
    Extra members (nodes p).filesystem.reachableChunkHashes p (nodes p) x →
      ∀ q ∈ designatedHolders x members, (x, q) ∈ (nodes p).handler.confirmedHolders

variable [LawfulCrdtTree PeerId] [LawfulPeerBytes PeerId] {members : List PeerId} {start : ℕ}
  {nodes : PeerId → ReplicationNode PeerId} {fetchers : PeerId → ChunkFetcher PeerId}
  {repairs : List (RepairEvent PeerId)} {v : RepairWorld PeerId}
  {trims : List (TrimEvent PeerId)} {u : TrimWorld PeerId} {live : Finset ChunkHash}

/-- **A round adds a copy** where one is missing. -/
theorem Round.filled_of_unchanged
    (hround : Round members start nodes fetchers repairs v trims u)
    (hinv : ∀ p, (nodes p).filesystem.Inv)
    (hself : ∀ p, ∀ c ∈ (nodes p).handler.confirmedHolders, c.2 ≠ p)
    (hlive : ∀ p ∈ members, (nodes p).filesystem.reachableChunkHashes = live)
    (hsame : Unchanged members nodes u.nodes) :
    ∀ p ∈ members, ∀ x ∈ wanted members live p, (nodes p).filesystem.isPinned x := by
  by_contra hmissing
  push Not at hmissing
  obtain ⟨p, hp, hmissing⟩ := hmissing
  obtain ⟨x, hx, hnot, hpinned⟩ := exists_repaired hround.ready hinv hlive hround.repair
    hround.repaired (hround.rebalanced p hp) hmissing
  have hrepairing := (repairing_run hround.ready hinv hlive
    (repairing_init hround.ready hinv hlive) hround.repair).repairing
  -- the copy is kept when the nodes trim
  have hsound : ∀ q, (v.nodes q).filesystem.tree.Sound := fun q =>
    (hrepairing.repairs q).tree ▸ (hinv q).sound
  have htrimming := trimming_run hsound
    (fun q hq => reachable_eq (fun q => (hinv q).sound) hlive hq (hrepairing.repairs q).tree)
    (trimming_init fun q _ c hc => hself q c (hrepairing.handler q ▸ hc)) hround.trim
  obtain ⟨hxlive, hdesignated⟩ := Finset.mem_filter.1 hx
  exact hnot ((hsame p hp x ((hlive p hp).symm ▸ hxlive)).1
    (htrimming.kept p x hdesignated hpinned))

/-- **A round changes nothing** exactly if no copy is missing and no node has anything to ask. -/
theorem Round.unchanged_iff (hround : Round members start nodes fetchers repairs v trims u)
    (hinv : ∀ p, (nodes p).filesystem.Inv)
    (hself : ∀ p, ∀ c ∈ (nodes p).handler.confirmedHolders, c.2 ≠ p)
    (hlive : ∀ p ∈ members, (nodes p).filesystem.reachableChunkHashes = live) :
    Unchanged members nodes u.nodes ↔
      (∀ p ∈ members, ∀ x ∈ wanted members live p, (nodes p).filesystem.isPinned x) ∧
      ∀ p ∈ members, ∀ x, Extra members live p (nodes p) x →
        ∀ q ∈ designatedHolders x members, (x, q) ∈ (nodes p).handler.confirmedHolders := by
  constructor
  · intro hsame
    have hfilled := hround.filled_of_unchanged hinv hself hlive hsame
    have htrim := hround.trim
    rw [repair_idle hround.ready hlive hfilled hround.repair] at htrim
    refine ⟨hfilled, fun p hp x hx q hq => not_not.1 fun hnot => ?_⟩
    -- what is asked for is answered, and the copy evicted
    refine no_extra_of_probe (fun q => (hinv q).sound) hlive (fun q _ => hself q) hfilled
      ⟨x, hx, q, hq, hnot⟩ htrim hround.trimmed (hround.probed p hp) x ⟨?_, hx.2⟩
    exact (hsame p hp x ((hlive p hp).symm ▸ hx.2.1)).2 hx.1
  · rintro ⟨hfilled, hknown⟩ p hp x -
    have htrim := hround.trim
    rw [repair_idle hround.ready hlive hfilled hround.repair] at htrim
    rw [trim_idle hlive hknown htrim p]

omit [LawfulCrdtTree PeerId] [LawfulPeerBytes PeerId] in
theorem placed_iff (hlive : ∀ p ∈ members, (nodes p).filesystem.reachableChunkHashes = live) :
    Placed members nodes ↔
      (∀ p ∈ members, ∀ x ∈ wanted members live p, (nodes p).filesystem.isPinned x) ∧
        ¬ ∃ p ∈ members, ∃ x, Extra members live p (nodes p) x := by
  constructor
  · intro hplaced
    refine ⟨fun p hp x hx => ?_, ?_⟩
    · obtain ⟨hxlive, hdesignated⟩ := Finset.mem_filter.1 hx
      exact (hplaced p hp x ((hlive p hp).symm ▸ hxlive)).2 hdesignated
    · rintro ⟨p, hp, x, hpinned, hxlive, hnot⟩
      exact hnot ((hplaced p hp x ((hlive p hp).symm ▸ hxlive)).1 hpinned)
  · rintro ⟨hfilled, hnone⟩ p hp x hx
    rw [hlive p hp] at hx
    refine ⟨fun hpinned => not_not.1 fun hnot => hnone ⟨p, hp, x, hpinned, hx, hnot⟩, fun hd => ?_⟩
    exact hfilled p hp x (Finset.mem_filter.2 ⟨hx, hd⟩)

omit [LawfulCrdtTree PeerId] [LawfulPeerBytes PeerId] in
theorem stuck_iff (hlive : ∀ p ∈ members, (nodes p).filesystem.reachableChunkHashes = live) :
    Stuck members nodes ↔
      (∀ p ∈ members, ∀ x ∈ wanted members live p, (nodes p).filesystem.isPinned x) ∧
        (∃ p ∈ members, ∃ x, Extra members live p (nodes p) x) ∧
        ∀ p ∈ members, ∀ x, Extra members live p (nodes p) x →
          ∀ q ∈ designatedHolders x members, (x, q) ∈ (nodes p).handler.confirmedHolders := by
  constructor
  · rintro ⟨hfilled, ⟨p, hp, x, hx⟩, hknown⟩
    refine ⟨fun p hp x hx => ?_, ⟨p, hp, x, hlive p hp ▸ hx⟩, fun p hp x hx => ?_⟩
    · obtain ⟨hxlive, hdesignated⟩ := Finset.mem_filter.1 hx
      exact hfilled p hp x ((hlive p hp).symm ▸ hxlive) hdesignated
    · exact hknown p hp x ((hlive p hp).symm ▸ hx)
  · rintro ⟨hfilled, ⟨p, hp, x, hx⟩, hknown⟩
    refine ⟨fun p hp x hx hd => ?_, ⟨p, hp, x, (hlive p hp).symm ▸ hx⟩, fun p hp x hx => ?_⟩
    · rw [hlive p hp] at hx
      exact hfilled p hp x (Finset.mem_filter.2 ⟨hx, hd⟩)
    · rw [hlive p hp] at hx
      exact hknown p hp x hx

/-- **Replication rests where every chunk is in place, and where it is stuck.** In a round from any
reachable state, the pinned sets stay the same exactly if all copies are in place, as long as the
state is not one where all extra copies have been confirmed already. -/
theorem round_iff [UuidV5] [FastCdc] {maxPinnedBytes : PeerId → ℕ}
    {events : List (ReplicationEvent PeerId)} {w : ReplicationWorld PeerId}
    (hrun : run ReplicationWorld.replicationStep events (ReplicationWorld.init maxPinnedBytes) =
      some w)
    (hround : Round members start w.nodes fetchers repairs v trims u) :
    (Unchanged members w.nodes u.nodes ↔ Placed members w.nodes) ↔ ¬ Stuck members w.nodes := by
  have hinv := ReplicationWorld.inv_run hrun
  obtain ⟨p₀, hp₀⟩ : ∃ p₀, p₀ ∈ members := by
    have htwo := hround.ready.two
    exact List.exists_mem_of_length_pos (by omega)
  have hlive : ∀ p ∈ members, (w.nodes p).filesystem.reachableChunkHashes =
      (w.nodes p₀).filesystem.reachableChunkHashes := fun p hp =>
    FileSystem.reachableChunkHashes_congr (hinv.filesystem p).sound (hinv.filesystem p₀).sound
      (hround.ready.sameTree p hp p₀ hp₀)
  rw [hround.unchanged_iff hinv.filesystem (fun p c hc => (hinv.confirmed p c hc).1) hlive,
    placed_iff hlive, stuck_iff hlive]
  constructor
  · rintro hiff ⟨hfilled, hextra, hknown⟩
    exact (hiff.1 ⟨hfilled, hknown⟩).2 hextra
  · intro hnot
    refine and_congr_right fun hfilled => ?_
    constructor
    · exact fun hknown hextra => hnot ⟨hfilled, hextra, hknown⟩
    · exact fun hnone p hp x hx => absurd ⟨p, hp, x, hx⟩ hnone

end

end Edfs

namespace Edfs.ReplicationWorld

open Execution Reference ReplicationNode RepairWorld TrimWorld

/-- The operations of a node that has written a file. -/
def fileOperations : List (NodeOperation ℕ) :=
  ((run replicationStep (writesFile 0) (init fun _ => 100)).map fun w =>
    (w.nodes 0).filesystem.operationsMissingFrom []).getD []

/-- Nodes 0 and 1 have the chunk, but node 2, which ranks highest, does not. -/
def misplaced : List (ReplicationEvent ℕ) :=
  writesFile 0 ++ writesFile 1 ++ [.call 2 (fun _ => 3, .applyOperations fileOperations)]

/-- Node 2 asks both others for the chunk. -/
def fetching : List (RepairEvent ℕ) :=
  [.rebalance 0 [1, 2] 3 [piece], .rebalance 1 [0, 2] 3 [piece], .rebalance 2 [0, 1] 3 [piece],
    .fetch 2 piece [0, 1] (fun _ => 3), .pull ⟨2, 0, 1, piece⟩, .pull ⟨2, 1, 0, piece⟩,
    .pulled ⟨⟨2, 0, 1, piece⟩, .chunkData [9]⟩ [0, 1] (fun _ => 3),
    .pulled ⟨⟨2, 1, 0, piece⟩, .chunkData [9]⟩ [0, 1] (fun _ => 3)]

/-- Node 0 asks both others whether they have it. -/
def evicting : List (TrimEvent ℕ) :=
  [.probe 0 [1, 2] [piece], .probe 1 [0, 2] [piece], .probe 2 [0, 1] [piece],
    .checkChunks ⟨0, 0, 1, [piece]⟩, .checkChunks ⟨1, 0, 2, [piece]⟩,
    .heldChunks ⟨0, 0, 1, [piece]⟩ [1, 2], .heldChunks ⟨1, 0, 2, [piece]⟩ [1, 2]]

/-- A round moves the chunk from node 0 to node 2. -/
theorem round_iff_misplaced : ∃ w v u,
    run replicationStep misplaced (init fun _ => 100) = some w ∧
    Round [0, 1, 2] 3 w.nodes (fun _ => .new) fetching v evicting u ∧
    ((Unchanged [0, 1, 2] w.nodes u.nodes ↔ Placed [0, 1, 2] w.nodes) ↔
      ¬ Stuck [0, 1, 2] w.nodes) := by
  obtain ⟨w, v, u, hrun, hround⟩ : ∃ w v u,
      run replicationStep misplaced (init fun _ => 100) = some w ∧
      Round [0, 1, 2] 3 w.nodes (fun _ => .new) fetching v evicting u := by
    refine ⟨_, _, _, rfl, ⟨by decide, by decide, fun p hp q hq => ?_, fun p hp => ?_,
      fun _ _ => ⟨fun _ => rfl, fun _ => rfl⟩, fun p hp h t ht => ?_, by decide, by decide⟩,
      rfl, fun p hp => ?_, ⟨rfl, by decide, by decide⟩, rfl, fun p hp => ?_,
      ⟨by decide, by decide⟩⟩
    · fin_cases hp <;> fin_cases hq <;> rfl
    · fin_cases hp <;> exact fun _ => rfl
    · fin_cases hp <;> cases ht
    · fin_cases hp <;> simp [fetching]
    · fin_cases hp <;> simp [evicting]
  exact ⟨w, v, u, hrun, hround, round_iff hrun hround⟩

/-- Three nodes have the chunk. Node 0 probes the others; a fourth node is connected when it hears
from them, and is gone after that. -/
def visited : List (ReplicationEvent ℕ) :=
  writesFile 0 ++ writesFile 1 ++ writesFile 2 ++
    [.probe 0 [1, 2] [piece], .checkChunks ⟨0, 0, 1, [piece]⟩, .checkChunks ⟨1, 0, 2, [piece]⟩,
      .heldChunks ⟨0, 0, 1, [piece]⟩ [1, 2, 3], .heldChunks ⟨1, 0, 2, [piece]⟩ [1, 2, 3]]

def resting : List (RepairEvent ℕ) :=
  [.rebalance 0 [1, 2] 3 [piece], .rebalance 1 [0, 2] 3 [piece], .rebalance 2 [0, 1] 3 [piece]]

def asksNobody : List (TrimEvent ℕ) :=
  [.probe 0 [1, 2] [piece], .probe 1 [0, 2] [piece], .probe 2 [0, 1] [piece]]

/-- A round leaves node 0 with its extra copy: it has nobody to ask, so it is never answered. -/
theorem rests_confirmed : ∃ w v u,
    run replicationStep visited (init fun _ => 100) = some w ∧
    Round [0, 1, 2] 3 w.nodes (fun _ => .new) resting v asksNobody u ∧
    ¬ (Unchanged [0, 1, 2] w.nodes u.nodes ↔ Placed [0, 1, 2] w.nodes) := by
  refine ⟨_, _, _, rfl, ⟨⟨by decide, by decide, fun p hp q hq => ?_, fun p hp id => ?_,
    fun _ _ => ⟨fun _ => rfl, fun _ => rfl⟩, fun p hp h t ht => ?_, by decide, by decide⟩,
    rfl, fun p hp => ?_, ⟨rfl, by decide, by decide⟩, rfl, fun p hp => ?_,
    ⟨by decide, by decide⟩⟩, by decide⟩
  · fin_cases hp <;> fin_cases hq <;> rfl
  · fin_cases hp
    · change Function.update (Function.update (Function.update (Function.update
        (fun _ => none) 0 (some 1)) 1 (some 2)) 0 none) 1 none id = none
      by_cases h₀ : id = 0 <;> by_cases h₁ : id = 1 <;> simp [h₀, h₁]
    · rfl
    · rfl
  · fin_cases hp <;> cases ht
  · fin_cases hp <;> simp [resting]
  · fin_cases hp <;> simp [asksNobody]

end Edfs.ReplicationWorld
