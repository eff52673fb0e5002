import Edfs.Filesystem.Tree.ClockRate
import Edfs.Network.ClusterReplicas

/-!
# The clocks in the cluster

While the wall clocks stay below `2 ^ 48` milliseconds and the logical counter has room whenever a
call reports an operation, the timestamps that a node issues exceed all that it has issued or been
handed, by gossip or by pulls. So the counters of a node's operations grow, and no two operations of
the program have the same id. And there is room while no millisecond is stamped on `2 ^ 16 - 1`
operations.

* `trees_tick`: a tick applies batches, all with the readings of its clock;
* `ClockOk`, `ClockRoom`: the conditions on an event;
* `Timed`: a cluster and the trees of its nodes in the world of `Causality`; `timed_step`,
  `timed_run`;
* `program_causal`, `program_clock_rate`;
* `encard_issued_run`: a run issues no more operations than it has steps.
-/

namespace Edfs

open Execution

variable {PeerId : Type} [CrdtTree PeerId] [UuidV5] [Sha256] [FastCdc]

namespace FileSystem

variable {P : Call PeerId → Prop} {fs fs' : FileSystem PeerId}

/-- Calls that neither report nor apply anything keep the tree. -/
theorem Calls.tree_eq (h : Calls P fs fs')
    (hP : ∀ now call, P call → (∀ fs, emitted (now, call) fs = []) ∧
      ∀ ops, call ≠ .applyOperations ops) : fs'.tree = fs.tree := by
  obtain ⟨es, hes, hrun⟩ := h
  induction es generalizing fs with
  | nil =>
    cases hrun
    rfl
  | cons e es ih =>
    obtain ⟨fs₁, hfs₁, hrest⟩ := Option.bind_eq_some_iff.1 hrun
    obtain ⟨hsilent, hlocal⟩ := hP e.1 e.2 (hes e List.mem_cons_self)
    rw [ih (fun e he => hes e (List.mem_cons_of_mem _ he)) hrest]
    rcases tree_step hfs₁ with ⟨ht, -⟩ | ⟨n, parent, m, -, hone, -⟩ | ⟨ops, he, -⟩
    · exact ht
    · exact absurd ((hsilent fs).symm.trans hone) (by simp)
    · exact absurd he (hlocal ops)

end FileSystem

namespace Network

variable [LinearOrder PeerId] [PeerBytes PeerId] [Bincode PeerId]

/-! ### The tree in a tick -/

variable {c : EventContext PeerId} {d d' : Dispatch PeerId}

/-- A step of a handler applies a batch that the event brings, or keeps the tree. -/
theorem tree_of_step (h : Dispatch.Step c d d') :
    d'.node.filesystem.tree = d.node.filesystem.tree ∨ ∃ operations, Delivers operations d.event ∧
      d'.node.filesystem.tree = d.node.filesystem.tree.applyOperations c.wall operations := by
  have hchunk : ∀ (e : ChunkEvent PeerId) (d₁ : Dispatch PeerId),
      d₁.node.filesystem = d.node.filesystem →
      (d₁.chunk c e).node.filesystem.tree = d.node.filesystem.tree := by
    intro e d₁ hd
    rw [← hd]
    refine (calls_chunk _ e d₁.node.fetcher d₁.node.filesystem).tree_eq fun now call hcall =>
      ⟨(silent_of_byHandlers now (.chunk hcall : byHandlers .tick call)).1, fun ops hops => ?_⟩
    subst hops
    exact hcall
  cases h with
  | gossip hevent hdata =>
    refine Or.inr ⟨_, ?_, rfl⟩
    rw [hevent]
    exact hdata
  | missingOperations hevent hne =>
    refine Or.inr ⟨_, ?_, rfl⟩
    rw [hevent]
    exact rfl
  | fetchChunk hevent => exact Or.inl (hchunk _ _ rfl)
  | servePull hevent => exact Or.inl (hchunk _ _ rfl)
  | chunkResponse hevent => exact Or.inl (hchunk _ _ rfl)
  | chunkFailure hevent => exact Or.inl (hchunk _ _ rfl)
  | heldChunks hevent =>
    refine Or.inl ((calls_handleHeld ..).tree_eq fun now call hcall => ?_)
    cases call with
    | evictChunk hash => exact ⟨fun _ => rfl, by simp⟩
    | _ => exact absurd hcall id
  | rebalance h =>
    obtain ⟨-, rfl⟩ := Dispatch.rebalance_eq_some h
    refine Or.inl ((calls_rebalance ..).tree_eq fun now call hcall => ?_)
    cases call with
    | promoteToPinned hash => exact ⟨fun _ => rfl, by simp⟩
    | _ => exact absurd hcall id
  | probe h =>
    obtain ⟨-, rfl⟩ := Dispatch.probe_eq_some h
    left
    change (ReplicationNode.probeEvictionCandidates ..).1.filesystem.tree = _
    rw [(ReplicationNode.probe_spec ..).filesystem]
  | _ => exact Or.inl rfl

omit [UuidV5] [FastCdc] in
/-- What an event brings, it brings without its reply. -/
theorem delivers_of_step (h : Dispatch.Step c d d') {operations : List (NodeOperation PeerId)}
    (hd : Delivers operations d'.event) : Delivers operations d.event := by
  cases byHandlers_of_step h (.deliver hd) with
  | chunk h => exact absurd h id
  | deliver h => exact h

/-- **A tick** applies batches that the event brings, with the readings of its clock. -/
theorem trees_tick {e : Event PeerId} {n : Node PeerId}
    (h : Dispatcher.tick app c ⟨e, n, []⟩ = some d') :
    ∃ batches : List (List (NodeOperation PeerId)),
      (∀ operations ∈ batches, Delivers operations e) ∧
      d'.node.filesystem.tree =
        batches.foldl (fun t operations => t.applyOperations c.wall operations)
          n.filesystem.tree := by
  refine (tick_invariant (I := fun d => (∀ operations, Delivers operations d.event →
      Delivers operations e) ∧ ∃ batches : List (List (NodeOperation PeerId)),
      (∀ operations ∈ batches, Delivers operations e) ∧
      d.node.filesystem.tree =
        batches.foldl (fun t operations => t.applyOperations c.wall operations)
          n.filesystem.tree) ?_ h
    ⟨fun _ => id, [], by simp, rfl⟩).2
  rintro d₁ d₂ hstep ⟨hevent, batches, hbatches, htree⟩
  refine ⟨fun operations hd => hevent operations (delivers_of_step hstep hd), ?_⟩
  rcases tree_of_step hstep with hsame | ⟨operations, hd, happly⟩
  · exact ⟨batches, hbatches, hsame.trans htree⟩
  · refine ⟨batches ++ [operations], fun batch hbatch => ?_, ?_⟩
    · rcases List.mem_append.1 hbatch with hold | hnew
      · exact hbatches batch hold
      · rw [List.mem_singleton.1 hnew]
        exact hevent operations hd
    · rw [happly, htree, List.foldl_concat]

namespace Cluster

/-! ### Nodes with clocks -/

/-- The readings of the wall clock are below `2 ^ 48` milliseconds. -/
def ClockOk : ClusterEvent PeerId → Cluster PeerId → Prop
  | .call _ e, _ => ∀ i, e.1 i < 2 ^ 48
  | .tick _ c _, _ => ∀ i, c.wall i < 2 ^ 48
  | _, _ => True

/-- The readings of the wall clock are below `2 ^ 48` milliseconds, and the logical counter has room
if the call reports something. -/
def ClockRoom : ClusterEvent PeerId → Cluster PeerId → Prop
  | .call p e, w => (∀ i, e.1 i < 2 ^ 48) ∧
    (FileSystem.emitted e (w.nodes p).filesystem ≠ [] →
      (w.nodes p).filesystem.tree.clock.Room (e.1 0))
  | .tick _ c _, _ => ∀ i, c.wall i < 2 ^ 48
  | _, _ => True

/-- The nodes' trees have causal timestamps, and each node has issued its own in their order. -/
structure Timed (w : Cluster PeerId) (t : TreeWorld PeerId) : Prop where
  nodes : ∀ p, t.nodes p = (w.nodes p).filesystem.tree
  issued : ∀ p, ∀ op ∈ w.issued p, op ∈ t.issued ∧ op.timestamp.actorId = p
  all : ∀ op ∈ t.issued, op ∈ w.issued op.timestamp.actorId
  inv : t.Inv
  dense : t.Dense
  growing : ∀ p, (w.issued p).Pairwise fun a b => a.timestamp.counter < b.timestamp.counter

/-- What a call reports is newer than all that its node has. -/
def Newer (w : Cluster PeerId) (p : PeerId) (e : Edfs.Event PeerId) : Prop :=
  ∀ op ∈ FileSystem.emitted e (w.nodes p).filesystem,
    ∀ old, old ∈ (w.nodes p).filesystem.tree.moves ∨ old ∈ w.issued p →
      old.timestamp.counter < op.timestamp.counter

variable [LawfulCrdtTree PeerId] {p : PeerId} {w w' : Cluster PeerId} {t : TreeWorld PeerId}

omit [UuidV5] [Sha256] [FastCdc] [PeerBytes PeerId] [Bincode PeerId] in
theorem timed_init (maxPinnedBytes start : PeerId → ℕ) :
    Timed (init maxPinnedBytes start) (TreeWorld.init) where
  nodes _ := rfl
  issued _ _ h := absurd h List.not_mem_nil
  all _ h := absurd h List.not_mem_nil
  inv := TreeWorld.inv_init
  dense := TreeWorld.dense_init
  growing _ := List.Pairwise.nil

omit [UuidV5] [Sha256] [FastCdc] [PeerBytes PeerId] [Bincode PeerId] in
/-- Batches of what has been issued can be applied. -/
theorem inv_deliver (hinv : t.Inv) (hdense : t.Dense) {now : ℕ → ℕ} (hnow : ∀ i, now i < 2 ^ 48)
    {batches : List (List (NodeOperation PeerId))}
    (hbatches : ∀ operations ∈ batches, ∀ op ∈ operations, op ∈ t.issued) (p : PeerId) :
    ∃ t' : TreeWorld PeerId, t'.Inv ∧ t'.Dense ∧ t'.issued = t.issued ∧
      t'.nodes = Function.update t.nodes p
        (batches.foldl (fun t operations => t.applyOperations now operations) (t.nodes p)) := by
  induction batches generalizing t with
  | nil => exact ⟨t, hinv, hdense, rfl, (Function.update_eq_self _ _).symm⟩
  | cons operations batches ih =>
    let e : TreeEvent PeerId := ⟨p, now, .applyOperations operations⟩
    have hnone : t.issuedBy e = none := rfl
    have hclock : TreeWorld.ClockOk e t := hnow
    obtain ⟨t₁, hstep⟩ : ∃ t₁, TreeWorld.treeStep e t = some t₁ :=
      ⟨_, TreeWorld.treeStep_eq_some.2 ⟨hbatches operations List.mem_cons_self, rfl⟩⟩
    have hroom : TreeWorld.HasRoom e t := fun h => by simp [hnone] at h
    obtain ⟨hinv₁, -, -⟩ := hinv.step hclock hroom hstep
    have hdense₁ := hdense.step hinv hclock hroom hstep
    obtain ⟨-, rfl⟩ := TreeWorld.treeStep_eq_some.1 hstep
    obtain ⟨t', hinv', hdense', hissued, hnodes⟩ := ih hinv₁ hdense₁
      fun batch hbatch => by
        simpa [hnone] using hbatches batch (List.mem_cons_of_mem _ hbatch)
    refine ⟨t', hinv', hdense', by simpa [hnone] using hissued, ?_⟩
    rw [hnodes]
    simp [e, NodeTree.perform]

omit [UuidV5] [Sha256] [FastCdc] [PeerBytes PeerId] [Bincode PeerId] [LawfulCrdtTree PeerId] in
/-- A node issues one more operation, with a greater counter. -/
theorem Timed.issue (h : Timed w t) {op : NodeOperation PeerId} {t' : TreeWorld PeerId}
    (hactor : op.timestamp.actorId = p)
    (hnewer : ∀ old ∈ w.issued p, old.timestamp.counter < op.timestamp.counter)
    (hw : w'.issued = Function.update w.issued p (w.issued p ++ [op]))
    (ht : t'.issued = op :: t.issued)
    (hnodes : ∀ q, t'.nodes q = (w'.nodes q).filesystem.tree) (hinv : t'.Inv)
    (hdense : t'.Dense) : Timed w' t' := by
  have hself : w'.issued p = w.issued p ++ [op] := by rw [hw, Function.update_self]
  have hother : ∀ q, q ≠ p → w'.issued q = w.issued q := fun q hq => by
    rw [hw, Function.update_of_ne hq]
  refine ⟨hnodes, fun q a hmem => ?_, fun a hmem => ?_, hinv, hdense, fun q => ?_⟩
  · rw [ht]
    by_cases hq : q = p
    · subst hq
      rw [hself] at hmem
      rcases List.mem_append.1 hmem with hold | hnew
      · obtain ⟨hissued, hactor⟩ := h.issued q a hold
        exact ⟨List.mem_cons_of_mem _ hissued, hactor⟩
      · cases List.mem_singleton.1 hnew
        exact ⟨List.mem_cons_self, hactor⟩
    · rw [hother q hq] at hmem
      obtain ⟨hissued, hactor⟩ := h.issued q a hmem
      exact ⟨List.mem_cons_of_mem _ hissued, hactor⟩
  · rw [ht] at hmem
    have hold := h.all a
    by_cases hq : a.timestamp.actorId = p
    · rw [hq] at hold ⊢
      rw [hself]
      rcases List.mem_cons.1 hmem with rfl | hmem
      · exact List.mem_append_right _ List.mem_cons_self
      · exact List.mem_append_left _ (hold hmem)
    · rw [hother _ hq]
      rcases List.mem_cons.1 hmem with rfl | hmem
      · exact absurd hactor hq
      · exact hold hmem
  · by_cases hq : q = p
    · subst hq
      rw [hself, List.pairwise_append]
      refine ⟨h.growing q, List.pairwise_singleton _ _, fun old hold a hmem => ?_⟩
      cases List.mem_singleton.1 hmem
      exact hnewer old hold
    · rw [hother q hq]
      exact h.growing q

/-- A call that reports something issues a timestamp that is newer than all its node has. -/
theorem Timed.call (h : Timed w t) {e : Edfs.Event PeerId} (hroom : ClockRoom (.call p e) w)
    (hstep : clusterStep (.call p e) w = some w') : Newer w p e ∧ ∃ t', Timed w' t' := by
  obtain ⟨hnow, hroom⟩ := hroom
  obtain ⟨hfuse, fs, hfs, rfl⟩ := call_eq_some hstep
  rcases FileSystem.tree_step hfs with ⟨ht, hnil⟩ | ⟨n, parent, m, -, hone, ht⟩ | ⟨ops, he, -⟩
  · rw [Newer, hnil]
    refine ⟨fun _ hop => absurd hop List.not_mem_nil, t, fun q => ?_, ?_, ?_, h.inv, h.dense, ?_⟩
    · rw [h.nodes]
      exact (update_same (·.filesystem.tree) rfl ht q).symm
    all_goals simp only [List.append_nil, Function.update_eq_self]
    · exact h.issued
    · exact h.all
    · exact h.growing
  · -- the call creates, moves or deletes a node
    let l : TreeEvent PeerId := ⟨p, e.1, .createNode parent n m⟩
    have hop : t.issuedBy l = some ((w.nodes p).filesystem.tree.issue (e.1 0) n parent m).1 := by
      rw [← h.nodes]
      rfl
    obtain ⟨t', htree⟩ : ∃ t', TreeWorld.treeStep l t = some t' :=
      ⟨_, TreeWorld.treeStep_eq_some.2 ⟨fun op hop => absurd hop List.not_mem_nil, rfl⟩⟩
    have hclock : TreeWorld.ClockOk l t := hnow
    have hhas : TreeWorld.HasRoom l t := fun _ => by
      change (t.nodes p).clock.Room (e.1 0)
      rw [h.nodes]
      exact hroom (by simp [hone])
    obtain ⟨hinv, hcausal, -⟩ := h.inv.step hclock hhas htree
    have hdense := h.dense.step h.inv hclock hhas htree
    have hcausal := hcausal _ hop
    have hactor : ((w.nodes p).filesystem.tree.issue (e.1 0) n parent m).1.timestamp.actorId =
        p := by
      rw [NodeTree.issue_fst, ← h.nodes]
      exact h.inv.peerId p
    obtain ⟨-, rfl⟩ := TreeWorld.treeStep_eq_some.1 htree
    have hnewer : Newer w p e := by
      rw [Newer, hone]
      intro op hmem old hold
      rw [List.mem_singleton.1 hmem]
      refine hcausal old ?_
      rcases hold with hold | hold
      · rw [← h.nodes] at hold
        exact h.inv.logged p old hold
      · obtain ⟨hissued, hactor⟩ := h.issued p old hold
        have hown := h.inv.own old hissued
        rwa [hactor] at hown
    refine ⟨hnewer, _, h.issue hactor (fun old hold => hnewer _ ?_ old (Or.inr hold)) ?_ ?_
      (fun q => ?_) hinv hdense⟩
    · rw [hone]
      exact List.mem_singleton_self _
    · simp only [hone]
    · rw [hop]
      rfl
    · by_cases hq : q = p
      · subst hq
        simp [l, NodeTree.perform, NodeTree.createNode, h.nodes, ht]
      · simp [l, hq, h.nodes]
  · obtain ⟨now, call⟩ := e
    obtain rfl : call = _ := he
    exact absurd hfuse (by simp [byFuse])

variable [LawfulBincode PeerId] {v : ReplicaWorld PeerId}

/-- A tick applies batches of what has been issued. -/
theorem Timed.tick (h : Timed w t) (hreplicates : Replicates w v) {c : EventContext PeerId}
    {input : Input PeerId} (hroom : ClockRoom (.tick p c input) w)
    (hstep : clusterStep (.tick p c input) w = some w') : ∃ t', Timed w' t' := by
  obtain ⟨-, -, e, w₁, d, harrive, htick, rfl⟩ := tick_eq_some hstep
  have ha := arrives harrive
  obtain ⟨batches, hbatches, htree⟩ := trees_tick htick
  have hissued : ∀ operations ∈ batches, ∀ op ∈ operations, op ∈ t.issued := by
    intro operations hmem op hop
    have hv := hreplicates.delivers harrive (hbatches operations hmem) op hop
    exact (h.issued _ op (hreplicates.mem_issued.2 ⟨hv, rfl⟩)).1
  obtain ⟨t', hinv, hdense, hsame, hnodes⟩ := inv_deliver h.inv h.dense hroom hissued p
  refine ⟨t', fun q => ?_, ?_, ?_, hinv, hdense, ?_⟩
  · rw [hnodes, h.nodes]
    by_cases hq : q = p
    · subst hq
      rw [Function.update_self, nodes_dispatched_self, htree, ha.toReplicationNode]
    · rw [Function.update_of_ne hq, nodes_dispatched_of_ne hq, h.nodes, ha.toReplicationNode]
  · rw [hsame]
    exact ha.issued ▸ h.issued
  · rw [hsame]
    exact ha.issued ▸ h.all
  · exact ha.issued ▸ h.growing

omit [LawfulCrdtTree PeerId] [LawfulBincode PeerId] in
theorem Timed.quiet (h : Timed w t) {l : ClusterEvent PeerId}
    (hstep : clusterStep l w = some w') (hcall : ∀ p e, l ≠ .call p e)
    (htick : ∀ p c input, l ≠ .tick p c input) : Timed w' t := by
  obtain ⟨hfilesystem, hissued⟩ := filesystem_quiet hstep hcall htick
  refine ⟨fun q => ?_, hissued ▸ h.issued, hissued ▸ h.all, h.inv, h.dense,
    hissued ▸ h.growing⟩
  rw [h.nodes, hfilesystem]

theorem timed_step (h : Timed w t) (hreplicates : Replicates w v) {l : ClusterEvent PeerId}
    (hroom : ClockRoom l w) (hstep : clusterStep l w = some w') : ∃ t', Timed w' t' := by
  cases l with
  | call p e => exact (h.call hroom hstep).2
  | tick p c input => exact h.tick hreplicates hroom hstep
  | broadcast p operations => exact ⟨t, h.quiet hstep (by simp) (by simp)⟩
  | bridge p e => exact ⟨t, h.quiet hstep (by simp) (by simp)⟩
  | fetch p hash waiter => exact ⟨t, h.quiet hstep (by simp) (by simp)⟩

variable [LawfulUuidV5] {maxPinnedBytes start : PeerId → ℕ} {events : List (ClusterEvent PeerId)}

theorem timed_run (hrun : run clusterStep events (init maxPinnedBytes start) = some w)
    (hroom : Meets clusterStep ClockRoom events (init maxPinnedBytes start)) :
    ∃ t, Timed w t :=
  (run_invariant_of_meets (I := fun w => (∃ v, Replicates w v) ∧ ∃ t, Timed w t)
    (fun l w w' hl ⟨⟨v, hv⟩, t, ht⟩ hstep => by
      obtain ⟨-, v', -, hv'⟩ := simulates_replicas l w w' v hv hstep
      exact ⟨⟨v', hv'⟩, timed_step ht hv hl hstep⟩)
    ⟨⟨_, replicates_init _ _⟩, _, timed_init _ _⟩ hroom hrun).2

omit [LinearOrder PeerId] [LawfulCrdtTree PeerId] [LawfulUuidV5] [LawfulBincode PeerId]
  [PeerBytes PeerId] [UuidV5] [Sha256] [FastCdc] [Bincode PeerId] in
/-- An id names its node, and the node's counters grow. -/
theorem Timed.ids_injective (h : Timed w t) {p q : PeerId} {a b : NodeOperation PeerId}
    (ha : a ∈ w.issued p) (hb : b ∈ w.issued q) (hid : operationId a = operationId b) : a = b := by
  obtain ⟨-, hp⟩ := h.issued p a ha
  obtain ⟨-, hq⟩ := h.issued q b hb
  obtain ⟨hactor, hcounter⟩ := Prod.mk.inj hid
  obtain rfl : p = q := hp.symm.trans (hactor.trans hq)
  have hnodup : ((w.issued p).map fun op => op.timestamp.counter).Nodup :=
    List.pairwise_map.2 ((h.growing p).imp ne_of_lt)
  exact List.inj_on_of_nodup_map hnodup ha hb hcounter

/-- **The timestamps of the program**, in every run in which the clocks have room: each node issues
growing counters, no two operations of any nodes have the same id, and what the next call reports is
newer than all that its node has by then, from whichever node it is. -/
theorem program_causal (hrun : run clusterStep events (init maxPinnedBytes start) = some w)
    (hroom : Meets clusterStep ClockRoom events (init maxPinnedBytes start)) :
    (∀ p, (w.issued p).Pairwise fun a b => a.timestamp.counter < b.timestamp.counter) ∧
    (∀ p q, ∀ a ∈ w.issued p, ∀ b ∈ w.issued q, operationId a = operationId b → a = b) ∧
    ∀ p e w', clusterStep (.call p e) w = some w' → ClockRoom (.call p e) w → Newer w p e := by
  obtain ⟨t, h⟩ := timed_run hrun hroom
  exact ⟨h.growing, fun p q a ha b hb => h.ids_injective ha hb,
    fun p e w' hstep hcall => (h.call hcall hstep).1⟩

omit [LawfulUuidV5] [LawfulBincode PeerId] [LawfulCrdtTree PeerId] [LinearOrder PeerId]
  [PeerBytes PeerId] [Bincode PeerId] in
/-- A call has room where few operations have one physical part. -/
theorem Timed.clockRoom (h : Timed w t)
    (hrate : ∀ physical, (stamped {op | ∃ q, op ∈ w.issued q} physical).encard < logicalMask)
    {l : ClusterEvent PeerId} (hclock : ClockOk l w) : ClockRoom l w := by
  cases l with
  | call p e =>
    refine ⟨hclock, fun _ => ?_⟩
    have hissued : {op | op ∈ t.issued} ⊆ {op | ∃ q, op ∈ w.issued q} :=
      fun op hop => ⟨_, h.all op hop⟩
    rw [← h.nodes]
    exact h.dense.room (h.inv.clock p) (encard_stamped_lt hissued hrate) _
  | _ => exact hclock

/-- **The rate of the program**: while the wall clocks read less than `2 ^ 48` milliseconds and no
physical part is on `2 ^ 16 - 1` operations of all nodes together, the logical counter has room
whenever a call reports an operation. So every node issues growing counters, and no two operations
of any nodes have the same id. -/
theorem program_clock_rate (hrun : run clusterStep events (init maxPinnedBytes start) = some w)
    (hclock : Meets clusterStep ClockOk events (init maxPinnedBytes start))
    (hrate : ∀ physical, (stamped {op | ∃ p, op ∈ w.issued p} physical).encard < logicalMask) :
    Meets clusterStep ClockRoom events (init maxPinnedBytes start) ∧
    (∀ p, (w.issued p).Pairwise fun a b => a.timestamp.counter < b.timestamp.counter) ∧
    ∀ p q, ∀ a ∈ w.issued p, ∀ b ∈ w.issued q, operationId a = operationId b → a = b := by
  have hroom : Meets clusterStep ClockRoom events (init maxPinnedBytes start) := by
    refine run_rec (s := init maxPinnedBytes start) (P := fun events w =>
      Meets clusterStep ClockOk events (init maxPinnedBytes start) →
      (∀ physical, (stamped {op | ∃ p, op ∈ w.issued p} physical).encard < logicalMask) →
      Meets clusterStep ClockRoom events (init maxPinnedBytes start)) ?_ ?_ hrun hclock hrate
    · exact fun _ _ => trivial
    · intro events u l w hrun ih hstep hclock hrate
      obtain ⟨hclocks, hlast⟩ := meets_concat.1 hclock
      -- no more has been issued before the step
      have hissued : {op | ∃ p, op ∈ u.issued p} ⊆ {op | ∃ p, op ∈ w.issued p} :=
        fun op ⟨p, hop⟩ => ⟨p, issued_subset hstep p hop⟩
      have hbefore := encard_stamped_lt hissued hrate
      have hrooms := ih hclocks hbefore
      refine meets_concat.2 ⟨hrooms, fun u' hu' => ?_⟩
      cases hrun.symm.trans hu'
      obtain ⟨t, ht⟩ := timed_run hrun hrooms
      exact ht.clockRoom hbefore (hlast u hrun)
  obtain ⟨t, h⟩ := timed_run hrun hroom
  exact ⟨hroom, h.growing, fun p q a ha b hb => h.ids_injective ha hb⟩

omit [LawfulUuidV5] [LawfulBincode PeerId] [LawfulCrdtTree PeerId] in
/-- A step issues at most one operation. -/
theorem encard_issued_step {l : ClusterEvent PeerId} (hstep : clusterStep l w = some w') :
    {op | ∃ p, op ∈ w'.issued p}.encard ≤ {op | ∃ p, op ∈ w.issued p}.encard + 1 := by
  by_cases hcall : ∃ p e, l = .call p e
  · obtain ⟨p, e, rfl⟩ := hcall
    obtain ⟨hfuse, fs, hfs, rfl⟩ := call_eq_some hstep
    have hemitted : {op | op ∈ FileSystem.emitted e (w.nodes p).filesystem}.encard ≤ 1 := by
      rw [Set.encard_le_one_iff]
      intro a b (ha : a ∈ FileSystem.emitted e _) (hb : b ∈ FileSystem.emitted e _)
      rcases FileSystem.tree_step hfs with ⟨-, hnil⟩ | ⟨n, parent, m, -, hone, -⟩ | ⟨ops, he, -⟩
      · rw [hnil] at ha
        cases ha
      · rw [hone, List.mem_singleton] at ha hb
        rw [ha, hb]
      · rw [he] at hfuse
        cases hfuse
    refine (Set.encard_le_encard ?_).trans ((Set.encard_union_le _ _).trans
      (add_le_add_right hemitted _))
    rintro op ⟨q, hop⟩
    by_cases hq : q = p
    · subst hq
      simp only [Function.update_self] at hop
      exact (List.mem_append.1 hop).imp (fun h => ⟨q, h⟩) id
    · simp only [Function.update_of_ne hq] at hop
      exact Or.inl ⟨q, hop⟩
  · rw [issued_of_ne_call hstep fun p e hl => hcall ⟨p, e, hl⟩]
    exact le_self_add

omit [LawfulUuidV5] [LawfulBincode PeerId] [LawfulCrdtTree PeerId] in
/-- A run issues no more operations than it has steps. -/
theorem encard_issued_run (hrun : run clusterStep events (init maxPinnedBytes start) = some w) :
    {op | ∃ p, op ∈ w.issued p}.encard ≤ events.length := by
  refine run_rec (P := fun events w => {op | ∃ p, op ∈ w.issued p}.encard ≤ events.length)
    ?_ ?_ hrun
  · simp [init]
  · intro events u l w hrun ih hstep
    rw [List.length_append, List.length_singleton, Nat.cast_add, Nat.cast_one]
    exact (encard_issued_step hstep).trans (add_le_add_left ih 1)

end Cluster

end Network

end Edfs

namespace Edfs.Network.Cluster

open Execution Reference

theorem clockRoom_publishing :
    Meets clusterStep ClockRoom publishing (init (fun _ : ℕ => 100) fun _ => 0) :=
  ⟨⟨fun _ => show 1 < 2 ^ 48 by decide, fun _ => Or.inl (show 0 < 1 by decide)⟩,
    fun _ _ => ⟨trivial, fun _ _ => ⟨trivial, fun _ _ => ⟨trivial, fun _ _ => ⟨trivial,
      fun _ _ => ⟨fun _ => show 2 < 2 ^ 48 by decide, fun _ _ => trivial⟩⟩⟩⟩⟩⟩

theorem program_causal_publishing : ∃ w,
    run clusterStep publishing (init (fun _ => 100) fun _ => 0) = some w ∧
    (∀ p, (w.issued p).Pairwise fun a b => a.timestamp.counter < b.timestamp.counter) ∧
    (∀ p q, ∀ a ∈ w.issued p, ∀ b ∈ w.issued q, operationId a = operationId b → a = b) ∧
    ∀ p e w', clusterStep (.call p e) w = some w' → ClockRoom (.call p e) w → Newer w p e := by
  obtain ⟨w, hrun⟩ := Option.isSome_iff_exists.1 (show (run clusterStep publishing
    (init (fun _ => 100) fun _ => 0)).isSome by rfl)
  exact ⟨w, hrun, program_causal hrun clockRoom_publishing⟩

/-- Two nodes create directories, all in one millisecond. -/
def together : List (ClusterEvent ℕ) :=
  [.call 0 creates, .call 1 creates,
    .call 0 (fun _ => 1, .mutate (.createDirectory NodeId.root "b"))]

theorem program_clock_rate_together : ∃ w : Cluster ℕ,
    run clusterStep together (init (fun _ => 100) fun _ => 0) = some w ∧
    (w.issued 0).length = 2 ∧ (w.issued 1).length = 1 ∧
    (Meets clusterStep ClockRoom together (init (fun _ : ℕ => 100) fun _ => 0) ∧
    (∀ p, (w.issued p).Pairwise fun a b => a.timestamp.counter < b.timestamp.counter) ∧
    ∀ p q, ∀ a ∈ w.issued p, ∀ b ∈ w.issued q, operationId a = operationId b → a = b) := by
  obtain ⟨w, hrun, hzero, hone⟩ : ∃ w : Cluster ℕ,
      run clusterStep together (init (fun _ => 100) fun _ => 0) = some w ∧
        (w.issued 0).length = 2 ∧ (w.issued 1).length = 1 := ⟨_, rfl, rfl, rfl⟩
  have hnow : 1 < 2 ^ 48 := by decide
  refine ⟨w, hrun, hzero, hone, program_clock_rate hrun
    ⟨fun _ => hnow, fun _ _ => ⟨fun _ => hnow, fun _ _ => ⟨fun _ => hnow, fun _ _ => trivial⟩⟩⟩
    fun physical => ?_⟩
  calc (stamped {op | ∃ p, op ∈ w.issued p} physical).encard
      ≤ {op | ∃ p, op ∈ w.issued p}.encard := Set.encard_le_encard (Set.sep_subset _ _)
    _ ≤ together.length := encard_issued_run hrun
    _ < logicalMask := Nat.cast_lt.2 (by decide)

end Edfs.Network.Cluster
