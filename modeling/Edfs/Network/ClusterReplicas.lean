import Edfs.Base.Simulation
import Edfs.Filesystem.Replicas
import Edfs.Network.Pipeline

/-!
# The replicas in the cluster

The program runs the replicas. Whatever a dispatcher hands to its file system, from gossip or from
the answer to a pull, has been reported by a call on some node; so each step of the program is
answered by deliveries and calls in the world of `Replicas`, and what holds of replicas holds of
the nodes.

* `Replicates`: a cluster and the replicas that its nodes are;
* `answers_call`, `answers_tick`; `simulates_replicas`;
* `program_replicates`; `log_traced`, `operations_traced`.
-/

namespace Edfs

open Execution

variable {PeerId : Type} [CrdtTree PeerId] [LinearOrder PeerId] [UuidV5] [Sha256] [FastCdc]

namespace ReplicaWorld

open FileSystem

/-- Calls that report nothing, and apply what has been issued, change one replica. -/
theorem run_silent {v : ReplicaWorld PeerId} {p : PeerId} {es : List (Event PeerId)}
    {fs : FileSystem PeerId}
    (hes : ∀ e ∈ es, (∀ fs, emitted e fs = []) ∧ ∀ op ∈ e.2.applied, op ∈ v.issued)
    (hrun : run callStep es (v.replicas p) = some fs) :
    run replicaStep (es.map (p, ·)) v = some ⟨Function.update v.replicas p fs, v.issued⟩ := by
  induction es generalizing v with
  | nil =>
    cases hrun
    rw [Function.update_eq_self]
    rfl
  | cons e es ih =>
    obtain ⟨fs₁, hfs₁, hrest⟩ := Option.bind_eq_some_iff.1 hrun
    obtain ⟨hsilent, happlied⟩ := hes e List.mem_cons_self
    have hstep : replicaStep (p, e) v = some ⟨Function.update v.replicas p fs₁, v.issued⟩ := by
      simp only [replicaStep, if_pos happlied, hfs₁, hsilent, List.nil_append, Option.map_some]
    have hlast := @ih ⟨Function.update v.replicas p fs₁, v.issued⟩
      (fun e he => hes e (List.mem_cons_of_mem _ he)) (by simpa using hrest)
    rw [List.map_cons, run_cons, hstep, Option.bind_some, hlast]
    simp

end ReplicaWorld

namespace Network

variable [PeerBytes PeerId] [Bincode PeerId]

omit [LinearOrder PeerId] [PeerBytes PeerId] in
/-- The handlers' calls report nothing, and apply what the event brings. -/
theorem silent_of_byHandlers {e : Event PeerId} (now : ℕ → ℕ) {call : Call PeerId}
    (h : byHandlers e call) : (∀ fs, FileSystem.emitted (now, call) fs = []) ∧
      ∀ op ∈ call.applied, ∃ operations, Delivers operations e ∧ op ∈ operations := by
  cases h with
  | chunk h =>
    cases call with
    | mutate c =>
      cases c with
      | pinChunk data =>
        refine ⟨fun fs => ?_, by simp [Call.applied]⟩
        simp only [FileSystem.emitted, FileSystem.mutate]
        cases (fs.pinChunk data).1 <;> rfl
      | _ => exact absurd h id
    | cacheChunk | chunk => exact ⟨fun _ => rfl, by simp [Call.applied]⟩
    | _ => exact absurd h id
  | promote hash => exact ⟨fun _ => rfl, by simp [Call.applied]⟩
  | deliver h => exact ⟨fun _ => rfl, fun op hop => ⟨_, h, hop⟩⟩
  | evict hash h => exact ⟨fun _ => rfl, by simp [Call.applied]⟩

namespace Cluster

/-- The nodes are the replicas; the calls have reported what has been issued, each node what bears
its id; and what is on its way has been issued. -/
structure Replicates (w : Cluster PeerId) (v : ReplicaWorld PeerId) : Prop where
  replicas : v.replicas = fun p => (w.nodes p).filesystem
  issued : ∀ p, (w.issued p).Perm (v.issued.filter fun op => op.timestamp.actorId = p)
  inv : v.Inv
  pipeline : ∀ p, ∃ done, Pipeline p done w
  responses : ∀ r ∈ w.responses, ∀ operations, r.response = .missingOperations operations →
    ∀ op ∈ operations, op ∈ v.issued

variable {p : PeerId} {w w' : Cluster PeerId} {v : ReplicaWorld PeerId}

omit [UuidV5] [Sha256] [FastCdc] [PeerBytes PeerId] in
theorem Replicates.mem_issued (h : Replicates w v) {op : NodeOperation PeerId} :
    op ∈ w.issued p ↔ op ∈ v.issued ∧ op.timestamp.actorId = p := by
  rw [(h.issued p).mem_iff, List.mem_filter]
  simp

omit [UuidV5] [Sha256] [FastCdc] [PeerBytes PeerId] in
/-- What has been published has been issued. -/
theorem Replicates.published [LawfulBincode PeerId] (h : Replicates w v) {q : PeerId}
    {data : Bytes} {operations : List (NodeOperation PeerId)} (hmem : (q, data) ∈ w.published)
    (hdata : Bincode.decode data = some operations) : ∀ op ∈ operations, op ∈ v.issued := by
  obtain ⟨done, hpipeline⟩ := h.pipeline q
  have hpublished : data ∈ w.publishedBy q := List.mem_filterMap.2 ⟨_, hmem, if_pos rfl⟩
  rw [hpipeline.published, List.mem_filterMap] at hpublished
  obtain ⟨⟨batch, c⟩, hbatch, htaken⟩ := hpublished
  obtain ⟨hencode, -⟩ := Option.filter_eq_some_iff.1 htaken
  obtain rfl : batch = operations :=
    Option.some.inj ((LawfulBincode.decode_encode _ _ hencode).symm.trans hdata)
  intro op hop
  refine (h.mem_issued.1 (hpipeline.issued.mem_iff.2 ?_)).1
  rw [hpipeline.commands]
  simp only [List.mem_append, List.mem_flatten]
  exact Or.inl (Or.inl ⟨batch, Or.inl (List.mem_map_of_mem hbatch), hop⟩)

omit [UuidV5] [Sha256] [FastCdc] [PeerBytes PeerId] in
/-- What arrives has been issued. -/
theorem Replicates.delivers [LawfulBincode PeerId] (h : Replicates w v) {input : Input PeerId}
    {e : Event PeerId} {w₁ : Cluster PeerId} (harrive : w.arrive p input = some (e, w₁))
    {operations : List (NodeOperation PeerId)} (he : Delivers operations e) :
    ∀ op ∈ operations, op ∈ v.issued := by
  have ha := arrives harrive
  rcases e with _ | _ | _ | ⟨requestId, _ | _ | _ | _⟩ | data | _
  case gossip =>
    obtain ⟨q, hq⟩ := ha.gossip data rfl
    exact h.published hq he
  case response.missingOperations operations' =>
    obtain ⟨q, -, hq⟩ := ha.response _ _ rfl
    obtain rfl : operations' = operations := he
    exact h.responses _ hq _ rfl
  all_goals exact absurd he id

variable [LawfulCrdtTree PeerId]

omit [UuidV5] [Sha256] [FastCdc] [PeerBytes PeerId] in
theorem replicates_init (maxPinnedBytes start : PeerId → ℕ) :
    Replicates (init maxPinnedBytes start) (ReplicaWorld.init maxPinnedBytes) where
  replicas := rfl
  issued _ := List.Perm.nil
  inv := ReplicaWorld.inv_init _
  pipeline p := ⟨[], pipeline_init _ _ p⟩
  responses _ h := absurd h List.not_mem_nil

omit [LawfulCrdtTree PeerId] in
/-- A step that is neither a call nor a tick keeps the file systems. -/
theorem filesystem_quiet {l : ClusterEvent PeerId} (hstep : clusterStep l w = some w')
    (hcall : ∀ p e, l ≠ .call p e) (htick : ∀ p c input, l ≠ .tick p c input) :
    (∀ q, (w'.nodes q).filesystem = (w.nodes q).filesystem) ∧ w'.issued = w.issued := by
  constructor
  · intro q
    rcases filesystem_cases hstep q with hsame | ⟨e, hl, -⟩ | ⟨c, input, e, w₁, hl, -⟩
    · exact hsame
    · exact absurd hl (hcall q e)
    · exact absurd hl (htick q c input)
  · cases l with
    | call p e => exact absurd rfl (hcall p e)
    | broadcast p operations =>
      obtain ⟨-, b, -, rfl⟩ := broadcast_eq_some hstep
      rfl
    | bridge p e =>
      obtain ⟨-, b, -, rfl⟩ := bridge_eq_some hstep
      rfl
    | fetch p hash waiter =>
      obtain ⟨-, rfl⟩ := fetch_eq_some hstep
      rfl
    | tick p c input => exact absurd rfl (htick p c input)

omit [LawfulCrdtTree PeerId] in
/-- Only calls report operations. -/
theorem issued_of_ne_call {l : ClusterEvent PeerId} (hstep : clusterStep l w = some w')
    (hcall : ∀ p e, l ≠ .call p e) : w'.issued = w.issued := by
  by_cases htick : ∃ p c input, l = .tick p c input
  · obtain ⟨p, c, input, rfl⟩ := htick
    obtain ⟨-, -, e, w₁, d, harrive, -, rfl⟩ := tick_eq_some hstep
    exact (arrives harrive).issued
  · exact (filesystem_quiet hstep hcall fun p c input hl => htick ⟨p, c, input, hl⟩).2

omit [LawfulCrdtTree PeerId] in
/-- What has been issued stays issued. -/
theorem issued_subset {l : ClusterEvent PeerId} (hstep : clusterStep l w = some w') (q : PeerId) :
    w.issued q ⊆ w'.issued q := by
  by_cases hcall : ∃ p e, l = .call p e
  · obtain ⟨p, e, rfl⟩ := hcall
    obtain ⟨-, fs, -, rfl⟩ := call_eq_some hstep
    by_cases hq : q = p
    · subst hq
      simp only [Function.update_self]
      exact List.subset_append_left _ _
    · simp only [Function.update_of_ne hq]
      exact List.Subset.refl _
  · rw [issued_of_ne_call hstep fun p e hl => hcall ⟨p, e, hl⟩]
    exact List.Subset.refl _

omit [LawfulCrdtTree PeerId] in
/-- A step that is neither a call nor a tick moves operations along. -/
theorem Replicates.quiet (h : Replicates w v) {l : ClusterEvent PeerId}
    (hstep : clusterStep l w = some w') (hcall : ∀ p e, l ≠ .call p e)
    (htick : ∀ p c input, l ≠ .tick p c input) : Replicates w' v := by
  obtain ⟨hfilesystem, hissued⟩ := filesystem_quiet hstep hcall htick
  obtain ⟨-, -, hresponses, -⟩ := messages_of_ne_tick hstep htick
  refine ⟨?_, ?_, h.inv, fun p => pipeline_step hstep (h.pipeline p), ?_⟩
  · rw [h.replicas]
    exact funext fun q => (hfilesystem q).symm
  · rw [hissued]
    exact h.issued
  · rw [hresponses]
    exact h.responses

variable [LawfulUuidV5]

/-- A call by FUSE is one on the replica. -/
theorem Replicates.call (h : Replicates w v) {e : Edfs.Event PeerId}
    (hstep : clusterStep (.call p e) w = some w') :
    Reaches ReplicaWorld.replicaStep v (Replicates w') := by
  have hpipeline := fun q => pipeline_step hstep (h.pipeline q)
  obtain ⟨hfuse, fs, hfs, rfl⟩ := call_eq_some hstep
  have hreplica : v.replicas p = (w.nodes p).filesystem := congrFun h.replicas p
  have happlied : ∀ op ∈ e.2.applied, op ∈ v.issued := by
    obtain ⟨now, _ | _ | _ | _ | _ | _ | _ | _⟩ := e <;> simp [Call.applied, byFuse] at hfuse ⊢
  rw [← hreplica] at hfs
  have hreplicaStep : ReplicaWorld.replicaStep (p, e) v = some
      ⟨Function.update v.replicas p fs,
        FileSystem.emitted e (v.replicas p) ++ v.issued⟩ := by
    simp only [ReplicaWorld.replicaStep, if_pos happlied, hfs, Option.map_some]
  have hactor : ∀ op ∈ FileSystem.emitted e (v.replicas p), op.timestamp.actorId = p := by
    rcases FileSystem.tree_step hfs with ⟨-, hnil⟩ | ⟨n, parent, m, -, hone, -⟩ | ⟨ops, he, -⟩
    · simp [hnil]
    · intro op hop
      rw [hone, List.mem_singleton] at hop
      rw [hop, NodeTree.issue_fst]
      exact h.inv.peerId p
    · obtain ⟨now, call⟩ := e
      obtain rfl : call = _ := he
      simp [FileSystem.emitted]
  refine Reaches.after hreplicaStep ⟨?_, fun q => ?_, ReplicaWorld.inv_step h.inv hreplicaStep,
    hpipeline, fun r hr operations ho op hop => ?_⟩
  · rw [h.replicas]
    exact funext fun q => by
      by_cases hq : q = p
      · subst hq
        simp
      · simp [hq]
  · rw [← hreplica]
    by_cases hq : q = p
    · subst hq
      simp only [Function.update_self, List.filter_append]
      rw [List.filter_eq_self.2 fun op hop => by simpa using hactor op hop]
      exact ((h.issued q).append_right _).trans List.perm_append_comm
    · simp only [Function.update_of_ne hq, List.filter_append]
      rw [List.filter_eq_nil_iff.2 fun op hop => by
        simpa [hactor op hop] using Ne.symm hq, List.nil_append]
      exact h.issued q
  · exact List.mem_append_right _ (h.responses r hr operations ho op hop)

/-- What the handlers do in a tick are calls on the replica. -/
theorem Replicates.tick [LawfulBincode PeerId] (h : Replicates w v) {c : EventContext PeerId}
    {input : Input PeerId} (hstep : clusterStep (.tick p c input) w = some w') :
    Reaches ReplicaWorld.replicaStep v (Replicates w') := by
  have hpipeline := fun q => pipeline_step hstep (h.pipeline q)
  obtain ⟨-, -, e, w₁, d, harrive, htick, rfl⟩ := tick_eq_some hstep
  have ha := arrives harrive
  have hx := exchanges harrive htick
  have hfilesystem : ∀ q, (w₁.nodes q).filesystem = v.replicas q := fun q => by
    rw [ha.toReplicationNode, h.replicas]
  obtain ⟨es, hes, hrun⟩ := calls_tick htick
  rw [hfilesystem p] at hrun
  have hrun' := ReplicaWorld.run_silent (fun e' he' => by
    obtain ⟨hsilent, happlied⟩ := silent_of_byHandlers e'.1 (hes e' he')
    refine ⟨hsilent, fun op hop => ?_⟩
    obtain ⟨operations, hops, hmem⟩ := happlied op hop
    exact h.delivers harrive hops op hmem) hrun
  refine ⟨_, _, hrun', ?_, fun q => ?_,
    run_invariant (fun _ _ _ => ReplicaWorld.inv_step) h.inv hrun', hpipeline,
    fun r hr operations ho op hop => ?_⟩
  · funext q
    by_cases hq : q = p
    · subst hq
      simp
    · rw [nodes_dispatched_of_ne hq, hfilesystem]
      exact Function.update_of_ne hq _ _
  · change (w₁.issued q).Perm _
    rw [ha.issued]
    exact h.issued q
  · rw [hx.responses] at hr
    rcases List.mem_append.1 hr with hold | hnew
    · exact h.responses r (ha.responses hold) operations ho op hop
    · -- the answer to a pull that has arrived
      by_cases hrequest : ∃ req channel, e = .request req (some channel)
      · obtain ⟨req, channel, rfl⟩ := hrequest
        cases List.mem_singleton.1 hnew
        obtain ⟨knownIds, rfl, rfl⟩ := answer_eq_missingOperations ho
        refine h.inv.logged p op ?_
        rw [ReplicaWorld.log, h.replicas]
        exact (NodeTree.mem_operationsMissingFrom.1 hop).1
      · rw [repliesTo_eq_nil fun req channel he => hrequest ⟨req, channel, he⟩] at hnew
        exact absurd hnew List.not_mem_nil

/-- **The program runs the replicas.** -/
theorem simulates_replicas [LawfulBincode PeerId] :
    Simulates clusterStep ReplicaWorld.replicaStep (Replicates : Cluster PeerId → _ → Prop) := by
  intro l w w' v h hstep
  cases l with
  | call p e => exact h.call hstep
  | tick p c input => exact h.tick hstep
  | broadcast p operations => exact .stay (h.quiet hstep (by simp) (by simp))
  | bridge p e => exact .stay (h.quiet hstep (by simp) (by simp))
  | fetch p hash waiter => exact .stay (h.quiet hstep (by simp) (by simp))

variable [LawfulBincode PeerId] {maxPinnedBytes start : PeerId → ℕ}
  {events : List (ClusterEvent PeerId)}

theorem exists_replicates (hrun : run clusterStep events (init maxPinnedBytes start) = some w) :
    ∃ events' v, run ReplicaWorld.replicaStep events' (ReplicaWorld.init maxPinnedBytes) = some v ∧
      Replicates w v := by
  obtain ⟨events', v, hrun', h, -⟩ :=
    simulates_replicas.answers (replicates_init maxPinnedBytes start) hrun
  exact ⟨events', v, hrun', h⟩

/-- **The nodes of the program are replicas**: for every run there is one of replicas that exchange
operations, after which each has the file system of its node, and what has been issued with a
node's id is what this node's calls have reported. -/
theorem program_replicates (hrun : run clusterStep events (init maxPinnedBytes start) = some w) :
    ∃ events' v, run ReplicaWorld.replicaStep events' (ReplicaWorld.init maxPinnedBytes) = some v ∧
      (∀ p, v.replicas p = (w.nodes p).filesystem) ∧
      ∀ p, (w.issued p).Perm (v.issued.filter fun op => op.timestamp.actorId = p) := by
  obtain ⟨events', v, hrun', h⟩ := exists_replicates hrun
  exact ⟨events', v, hrun', congrFun h.replicas, h.issued⟩

/-- What a node has logged has been reported by the node that its timestamp names. -/
theorem log_traced (hrun : run clusterStep events (init maxPinnedBytes start) = some w) :
    ∀ p, ∀ op ∈ (w.nodes p).filesystem.tree.moves, op ∈ w.issued op.timestamp.actorId := by
  obtain ⟨-, v, -, h⟩ := exists_replicates hrun
  intro p op hop
  refine h.mem_issued.2 ⟨h.inv.logged p op ?_, rfl⟩
  rw [ReplicaWorld.log, h.replicas]
  exact hop

/-- **No operation is made up**: those in a node's log, in gossip and in the answers to pulls have
been reported, each by a call on the node that its timestamp names; and none of them moves the root
or the trash. -/
theorem operations_traced (hrun : run clusterStep events (init maxPinnedBytes start) = some w) :
    (∀ p, ∀ op ∈ (w.nodes p).filesystem.tree.moves, op ∈ w.issued op.timestamp.actorId) ∧
    (∀ q data operations, (q, data) ∈ w.published → Bincode.decode data = some operations →
      ∀ op ∈ operations, op ∈ w.issued op.timestamp.actorId) ∧
    (∀ r ∈ w.responses, ∀ operations, r.response = .missingOperations operations →
      ∀ op ∈ operations, op ∈ w.issued op.timestamp.actorId) ∧
    ∀ p, ∀ op ∈ w.issued p, op.timestamp.actorId = p ∧
      op.child ≠ NodeId.root ∧ op.child ≠ NodeId.trash := by
  obtain ⟨-, v, -, h⟩ := exists_replicates hrun
  have htraced : ∀ op ∈ v.issued, op ∈ w.issued op.timestamp.actorId := fun op hop =>
    h.mem_issued.2 ⟨hop, rfl⟩
  refine ⟨log_traced hrun, fun q data operations hmem hdata op hop => ?_,
    fun r hr operations ho op hop => ?_, fun p op hop => ?_⟩
  · exact htraced op (h.published hmem hdata op hop)
  · exact htraced op (h.responses r hr operations ho op hop)
  · obtain ⟨hissued, hactor⟩ := h.mem_issued.1 hop
    exact ⟨hactor, h.inv.movable op hissued⟩

end Cluster

end Network

end Edfs

namespace Edfs.Network.Cluster

open Execution Reference

theorem program_replicates_pulls : ∃ w,
    run clusterStep pulls (init (fun _ => 100) fun _ => 0) = some w ∧
    ∃ events' v,
      run ReplicaWorld.replicaStep events' (ReplicaWorld.init fun _ : ℕ => 100) = some v ∧
      (∀ p, v.replicas p = (w.nodes p).filesystem) ∧
      ∀ p, (w.issued p).Perm (v.issued.filter fun op => op.timestamp.actorId = p) := by
  obtain ⟨w, hrun⟩ := Option.isSome_iff_exists.1 (show (run clusterStep pulls
    (init (fun _ => 100) fun _ => 0)).isSome by rfl)
  exact ⟨w, hrun, program_replicates hrun⟩

theorem operations_traced_publishing : ∃ w,
    run clusterStep publishing (init (fun _ => 100) fun _ => 0) = some w ∧
    (∀ p, ∀ op ∈ (w.nodes p).filesystem.tree.moves, op ∈ w.issued op.timestamp.actorId) ∧
    (∀ q data operations, (q, data) ∈ w.published → Bincode.decode data = some operations →
      ∀ op ∈ operations, op ∈ w.issued op.timestamp.actorId) ∧
    (∀ r ∈ w.responses, ∀ operations, r.response = .missingOperations operations →
      ∀ op ∈ operations, op ∈ w.issued op.timestamp.actorId) ∧
    ∀ p, ∀ op ∈ w.issued p, op.timestamp.actorId = p ∧
      op.child ≠ NodeId.root ∧ op.child ≠ NodeId.trash := by
  obtain ⟨w, hrun⟩ := Option.isSome_iff_exists.1 (show (run clusterStep publishing
    (init (fun _ => 100) fun _ => 0)).isSome by rfl)
  exact ⟨w, hrun, operations_traced hrun⟩

end Edfs.Network.Cluster
