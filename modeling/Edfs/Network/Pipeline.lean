import Edfs.Network.Correlation

/-!
# From a call to the gossip

What the calls on a node report goes through the tasks of FUSE, the channel of operations, the
batching task, the channel of commands and the dispatcher, which publishes it. Nothing is lost,
repeated or made up on the way to the dispatcher, whatever the tasks' interleaving; a batch that
cannot be encoded, or that `gossipsub` does not take, is dropped there.

* `broadcasts`, `publishedBy`: the ends of the last stage;
* `step_batches`, `broadcast_offers`: what the batching task does with what it holds;
* `Pipeline`: what is where; `pipeline_step`;
* `program_publishes`.
-/

namespace Edfs

variable {PeerId : Type}

namespace NetworkBridge

variable {b b' : NetworkBridge PeerId}

/-- What the task holds, and what is in its channel. -/
def held (b : NetworkBridge PeerId) : List (NodeOperation PeerId) :=
  b.task.batch ++ b.operations.flatten

/-- Both channels are open, and the task runs. -/
def Open (b : NetworkBridge PeerId) : Prop :=
  b.swarmOpen = true ∧ b.closed = false ∧ b.task ≠ .ended

/-- The task sends the first part of what it holds, in batches of proper size. -/
theorem step_batches {e : BridgeEvent PeerId} (he : Network.byTask e) (hopen : b.Open)
    (h : b.step e = some b') : b'.Open ∧ ∃ sent, b'.commands = b.commands ++ sent ∧
      sent.flatten ++ b'.held = b.held ∧
      ∀ operations ∈ sent, operations ≠ [] ∧ operations.length ≤ maxBatchOperations := by
  obtain ⟨hswarm, hclosed, hrunning⟩ := hopen
  obtain ⟨operations, closed, swarmOpen, task, received, commands⟩ := b
  obtain rfl : swarmOpen = true := hswarm
  obtain rfl : closed = false := hclosed
  cases e with
  | receive =>
    -- what has been received joins the batch
    cases task with
    | receiving =>
      cases operations with
      | nil => cases h
      | cons first rest =>
        cases h
        exact ⟨⟨rfl, rfl, gather_ne_ended _⟩, [], by simp, by simp [held], by simp⟩
    | gathering batch =>
      cases operations with
      | nil => cases h
      | cons first rest =>
        cases h
        exact ⟨⟨rfl, rfl, gather_ne_ended _⟩, [], by simp, by simp [held], by simp⟩
    | sending batch => cases h
    | ended => cases h
  | deadline =>
    cases task with
    | gathering batch =>
      cases h
      exact ⟨⟨rfl, rfl, by simp⟩, [], by simp, by simp [held], by simp⟩
    | _ => cases h
  | send =>
    cases task with
    | sending batch =>
      cases batch with
      | nil =>
        cases h
        exact ⟨⟨rfl, rfl, by simp⟩, [], by simp, by simp [held], by simp⟩
      | cons op rest =>
        cases h
        refine ⟨⟨rfl, rfl, by simp⟩, [_], rfl, ?_, ?_⟩
        · simp only [held, List.flatten_singleton, BatchTask.batch_sending]
          rw [← List.append_assoc, List.take_append_drop]
        · intro sent hsent
          rw [List.mem_singleton.1 hsent]
          exact sendable op rest
    | _ => cases h
  | _ => cases he

/-- What is handed over goes to the end of what the task will have. -/
theorem broadcast_offers {operations : List (NodeOperation PeerId)} (hopen : b.Open)
    (h : b.broadcast operations = some b') : b'.Open ∧ b'.commands = b.commands ∧
      b'.held = b.held ++ operations := by
  obtain ⟨hswarm, hclosed, hrunning⟩ := hopen
  obtain ⟨waiting, closed, swarmOpen, task, received, commands⟩ := b
  obtain rfl : swarmOpen = true := hswarm
  obtain rfl : closed = false := hclosed
  cases operations with
  | nil =>
    cases h
    exact ⟨⟨rfl, rfl, hrunning⟩, rfl, (List.append_nil _).symm⟩
  | cons op rest =>
    cases task with
    | ended => exact absurd rfl hrunning
    | _ =>
      simp only [broadcast] at h
      split_ifs at h
      cases h
      exact ⟨⟨rfl, rfl, by simp⟩, rfl, by simp [held]⟩

end NetworkBridge

namespace Network

open Execution

/-- The operations of a command to broadcast. -/
def SwarmCommand.operations : SwarmCommand PeerId → Option (List (NodeOperation PeerId))
  | .broadcastOperations operations => some operations
  | _ => none

variable [CrdtTree PeerId]

namespace Cluster

/-- The batches in a node's channel of commands. -/
def broadcasts (w : Cluster PeerId) (p : PeerId) : List (List (NodeOperation PeerId)) :=
  (w.nodes p).commands.filterMap SwarmCommand.operations

/-- What a node has published. -/
def publishedBy [DecidableEq PeerId] (w : Cluster PeerId) (p : PeerId) : List Bytes :=
  w.published.filterMap fun x => if x.1 = p then some x.2 else none

/-- The batches that a dispatcher has taken, each with what the tick has found around it. -/
abbrev Taken (PeerId : Type) := List (List (NodeOperation PeerId) × EventContext PeerId)

/-- Where the operations of a node's calls are: `done` are the batches that the dispatcher has
taken. -/
structure Pipeline [DecidableEq PeerId] [Bincode PeerId] (p : PeerId) (done : Taken PeerId)
    (w : Cluster PeerId) : Prop where
  bridge : (w.bridges p).Open
  commands : (w.bridges p).commands = done.map Prod.fst ++ w.broadcasts p
  published : w.publishedBy p = done.filterMap fun x => publication x.2 x.1
  issued : (w.issued p).Perm
    ((w.bridges p).commands.flatten ++ (w.bridges p).held ++ (w.mutated p).flatten)
  sizes : ∀ operations ∈ (w.bridges p).commands,
    operations ≠ [] ∧ operations.length ≤ maxBatchOperations

variable [LinearOrder PeerId] [PeerBytes PeerId] [UuidV5] [Sha256] [FastCdc] [Bincode PeerId]
  {p : PeerId} {w w' : Cluster PeerId} {done : Taken PeerId}

omit [PeerBytes PeerId] [UuidV5] [Sha256] [FastCdc] in
theorem pipeline_init (maxPinnedBytes start : PeerId → ℕ) (p : PeerId) :
    Pipeline p [] (init maxPinnedBytes start) where
  bridge := ⟨rfl, rfl, by simp [init, NetworkBridge.new]⟩
  commands := rfl
  published := rfl
  issued := List.Perm.nil
  sizes _ h := absurd h List.not_mem_nil

omit [PeerBytes PeerId] [UuidV5] [Sha256] [FastCdc] in
/-- What does not touch a node's pipeline keeps it. -/
theorem Pipeline.congr (h : Pipeline p done w) (hbridge : w'.bridges p = w.bridges p)
    (hcommands : w'.broadcasts p = w.broadcasts p) (hpublished : w'.publishedBy p = w.publishedBy p)
    (hissued : w'.issued p = w.issued p) (hmutated : w'.mutated p = w.mutated p) :
    Pipeline p done w' where
  bridge := hbridge ▸ h.bridge
  commands := by rw [hbridge, hcommands, h.commands]
  published := by rw [hpublished, h.published]
  issued := by
    rw [hissued, hbridge, hmutated]
    exact h.issued
  sizes := by
    rw [hbridge]
    exact h.sizes

omit [PeerBytes PeerId] [UuidV5] [Sha256] [FastCdc] in
/-- What changes at one node keeps the pipelines of the others. -/
theorem Pipeline.of_ne (h : Pipeline p done w) {q : PeerId} (hq : p ≠ q)
    (hbridges : ∃ b, w'.bridges = Function.update w.bridges q b)
    (hnodes : ∃ n, w'.nodes = Function.update w.nodes q n)
    (hpublished : w'.publishedBy p = w.publishedBy p)
    (hissued : ∃ l, w'.issued = Function.update w.issued q l)
    (hmutated : ∃ l, w'.mutated = Function.update w.mutated q l) : Pipeline p done w' := by
  obtain ⟨b, hb⟩ := hbridges
  obtain ⟨n, hn⟩ := hnodes
  obtain ⟨l, hl⟩ := hissued
  obtain ⟨m, hm⟩ := hmutated
  refine h.congr ?_ ?_ hpublished ?_ ?_
  · rw [hb, Function.update_of_ne hq]
  · rw [broadcasts, broadcasts, hn, Function.update_of_ne hq]
  · rw [hl, Function.update_of_ne hq]
  · rw [hm, Function.update_of_ne hq]

omit [PeerBytes PeerId] [UuidV5] [Sha256] [FastCdc] [CrdtTree PeerId] [LinearOrder PeerId]
  [Bincode PeerId] in
theorem flatten_report (operations : List (NodeOperation PeerId))
    (mutated : List (List (NodeOperation PeerId))) :
    (report operations mutated).flatten = operations ++ mutated.flatten := by
  cases operations <;> simp [report]

/-- A call reports operations. -/
theorem Pipeline.call (h : Pipeline p done w) {q : PeerId} {e : Edfs.Event PeerId}
    (hstep : clusterStep (.call q e) w = some w') : Pipeline p done w' := by
  obtain ⟨-, fs, -, rfl⟩ := call_eq_some hstep
  by_cases hq : p = q
  · subst hq
    refine ⟨h.bridge, ?_, h.published, ?_, h.sizes⟩
    · simpa [broadcasts] using h.commands
    · simp only [Function.update_self, flatten_report]
      refine (h.issued.append_right _).trans ?_
      rw [List.append_assoc _ (w.mutated p).flatten]
      exact List.perm_append_comm.append_left _
  · exact h.of_ne hq ⟨_, (Function.update_eq_self _ _).symm⟩ ⟨_, rfl⟩ rfl ⟨_, rfl⟩ ⟨_, rfl⟩

/-- The tasks of FUSE hand over operations. -/
theorem Pipeline.broadcast (h : Pipeline p done w) {q : PeerId}
    {operations : List (NodeOperation PeerId)}
    (hstep : clusterStep (.broadcast q operations) w = some w') : Pipeline p done w' := by
  obtain ⟨hmem, b, hb, rfl⟩ := broadcast_eq_some hstep
  by_cases hq : p = q
  · subst hq
    obtain ⟨hopen, hcommands, hheld⟩ := NetworkBridge.broadcast_offers h.bridge hb
    have hflat : (w.mutated p).flatten.Perm
        (operations ++ ((w.mutated p).erase operations).flatten) :=
      (List.perm_cons_erase hmem).flatten
    refine ⟨by simpa using hopen, ?_, h.published, ?_, ?_⟩
    · simpa [broadcasts, hcommands] using h.commands
    · simp only [Function.update_self]
      rw [hcommands, hheld]
      refine (h.issued.trans (hflat.append_left _)).trans ?_
      simp
    · simpa [hcommands] using h.sizes
  · exact h.of_ne hq ⟨_, rfl⟩ ⟨_, (Function.update_eq_self _ _).symm⟩ rfl
      ⟨_, (Function.update_eq_self _ _).symm⟩ ⟨_, rfl⟩

/-- The batching task goes on. -/
theorem Pipeline.bridge_step (h : Pipeline p done w) {q : PeerId} {e : BridgeEvent PeerId}
    (hstep : clusterStep (.bridge q e) w = some w') : Pipeline p done w' := by
  obtain ⟨he, b, hb, rfl⟩ := bridge_eq_some hstep
  by_cases hq : p = q
  · subst hq
    obtain ⟨hopen, sent, hcommands, hheld, hsizes⟩ := NetworkBridge.step_batches he h.bridge hb
    have hsent : (sent.map SwarmCommand.broadcastOperations).filterMap
        SwarmCommand.operations = sent := by
      simp [List.filterMap_map, Function.comp_def, SwarmCommand.operations]
    refine ⟨by simpa [setNode] using hopen, ?_, h.published, ?_, ?_⟩
    · have hnew : b.commands.drop (w.bridges p).commands.length = sent := by
        rw [hcommands, List.drop_left]
      rw [hnew]
      simp only [setNode, broadcasts, Function.update_self, List.filterMap_append, hsent]
      rw [hcommands, h.commands, broadcasts, List.append_assoc]
    · -- what is sent has been the first of what is held
      simp only [setNode, Function.update_self]
      rw [hcommands, List.flatten_append, List.append_assoc _ sent.flatten, hheld]
      exact h.issued
    · simp only [setNode, Function.update_self, hcommands]
      intro operations hmem
      obtain hmem | hmem := List.mem_append.1 hmem
      · exact h.sizes operations hmem
      · exact hsizes operations hmem
  · exact h.of_ne hq ⟨_, rfl⟩ ⟨_, rfl⟩ rfl ⟨_, (Function.update_eq_self _ _).symm⟩
      ⟨_, (Function.update_eq_self _ _).symm⟩

/-- The batch that a dispatcher finds. -/
def takes : Event PeerId → List (List (NodeOperation PeerId))
  | .command (.broadcastOperations operations) => [operations]
  | _ => []

omit [CrdtTree PeerId] [LinearOrder PeerId] [PeerBytes PeerId] [UuidV5] [Sha256] [FastCdc] in
theorem publishes_eq (c : EventContext PeerId) (e : Event PeerId) :
    publishes c e = (takes e).filterMap (publication c) := by
  rcases e with _ | _ | _ | _ | _ | (operations | _)
  case command.broadcastOperations =>
    cases h : publication c operations <;> simp [publishes, takes, h]
  all_goals rfl

omit [PeerBytes PeerId] [UuidV5] [Sha256] [FastCdc] [Bincode PeerId] in
/-- A batch is found in the channel of commands. -/
theorem takes_arrive {input : Input PeerId} {e : Event PeerId} {w₁ : Cluster PeerId}
    (h : w.arrive p input = some (e, w₁)) {operations : List (NodeOperation PeerId)}
    (hmem : operations ∈ takes e) : input = .command := by
  cases input with
  | command => rfl
  | timeout =>
    cases h
    exact absurd hmem List.not_mem_nil
  | request m | response m | outboundFailure m | gossip source data =>
    simp only [arrive] at h
    split_ifs at h
    cases h
    exact absurd hmem List.not_mem_nil
  | swarm e =>
    cases e with
    | discovered | connectionEstablished | other =>
      cases h
      exact absurd hmem List.not_mem_nil
    | _ => cases h

omit [PeerBytes PeerId] [UuidV5] [Sha256] [FastCdc] [Bincode PeerId] in
/-- What is found is no longer in the channel. -/
theorem broadcasts_arrive {input : Input PeerId} {e : Event PeerId} {w₁ : Cluster PeerId}
    (h : w.arrive p input = some (e, w₁)) : w.broadcasts p = takes e ++ w₁.broadcasts p := by
  cases input with
  | command =>
    simp only [arrive] at h
    split at h
    · cases h
    · rename_i c commands hcommands
      cases h
      rw [broadcasts, hcommands]
      cases c with
      | broadcastOperations operations => simp [broadcasts, takes, setNode, SwarmCommand.operations]
      | fetchChunk hash reply pin =>
        rw [List.filterMap_cons_none rfl]
        simp [broadcasts, takes, setNode]
  | timeout =>
    cases h
    rfl
  | request m | response m | outboundFailure m | gossip source data =>
    simp only [arrive] at h
    split_ifs at h
    cases h
    rfl
  | swarm e =>
    cases e with
    | discovered | connectionEstablished | other =>
      cases h
      rfl
    | _ => cases h

omit [CrdtTree PeerId] [PeerBytes PeerId] [UuidV5] [Sha256] [FastCdc] [Bincode PeerId] in
/-- What a node's handlers publish, it has published. -/
theorem published_by (p : PeerId) (actions : List (Action PeerId)) :
    (actions.filterMap (Action.published p)).filterMap
      (fun x => if x.1 = p then some x.2 else none) = actions.filterMap Action.data := by
  rw [List.filterMap_filterMap]
  refine List.filterMap_congr fun a _ => ?_
  cases a <;> simp [Action.published, Action.data]

omit [CrdtTree PeerId] [PeerBytes PeerId] [UuidV5] [Sha256] [FastCdc] [Bincode PeerId] in
theorem published_by_of_ne {q : PeerId} (hq : p ≠ q) (actions : List (Action PeerId)) :
    (actions.filterMap (Action.published q)).filterMap
      (fun x => if x.1 = p then some x.2 else none) = [] := by
  rw [List.filterMap_filterMap, List.filterMap_eq_nil_iff]
  intro a _
  cases a <;> simp [Action.published, hq.symm]

/-- The dispatcher takes a command and publishes a batch. -/
theorem Pipeline.tick (h : Pipeline p done w) {q : PeerId} {c : EventContext PeerId}
    {input : Input PeerId} (hstep : clusterStep (.tick q c input) w = some w') :
    ∃ taken, Pipeline p (done ++ taken) w' ∧
      ∀ x ∈ taken, ClusterEvent.tick q c input = .tick p x.2 .command := by
  obtain ⟨-, -, e, w₁, d, harrive, htick, rfl⟩ := tick_eq_some hstep
  have ha := arrives harrive
  obtain ⟨commands, hnodes⟩ := ha.nodes
  have hpublished : (w₁.dispatched q d).published =
      w.published ++ d.actions.filterMap (Action.published q) := by
    rw [← ha.published]
    rfl
  by_cases hq : p = q
  · subst hq
    obtain ⟨fetches, hcommands⟩ := commands_tick htick
    have hleft : (w₁.dispatched p d).broadcasts p = w₁.broadcasts p := by
      simp [broadcasts, hcommands, List.filterMap_map, Function.comp_def, SwarmCommand.operations]
    refine ⟨(takes e).map fun operations => (operations, c), ⟨?_, ?_, ?_, ?_, ?_⟩, fun x hx => ?_⟩
    · exact ha.bridges ▸ h.bridge
    · have hfst : ((takes e).map fun operations => (operations, c)).map Prod.fst = takes e := by
        simp [Function.comp_def]
      rw [hleft, List.map_append, hfst, List.append_assoc, ← broadcasts_arrive harrive,
        ← h.commands, ← ha.bridges]
      rfl
    · rw [publishedBy, hpublished, List.filterMap_append, published_by, published_tick htick,
        publishes_eq, List.filterMap_append, ← h.published, List.filterMap_map]
      rfl
    · have hissued := h.issued
      rw [← ha.issued, ← ha.bridges, ← ha.mutated] at hissued
      exact hissued
    · exact ha.bridges ▸ h.sizes
    · obtain ⟨operations, hmem, rfl⟩ := List.mem_map.1 hx
      rw [takes_arrive harrive hmem]
  · refine ⟨[], ?_, fun x hx => absurd hx List.not_mem_nil⟩
    rw [List.append_nil]
    refine h.congr ?_ ?_ ?_ ?_ ?_
    · exact congrFun ha.bridges p
    · rw [broadcasts, nodes_dispatched_of_ne hq, hnodes, Function.update_of_ne hq]
      rfl
    · rw [publishedBy, hpublished, List.filterMap_append, published_by_of_ne hq, List.append_nil]
      rfl
    · exact congrFun ha.issued p
    · exact congrFun ha.mutated p

/-- A fetch goes into the channel of commands as well. -/
theorem Pipeline.fetch (h : Pipeline p done w) {q : PeerId} {hash : ChunkHash} {waiter : ℕ}
    (hstep : clusterStep (.fetch q hash waiter) w = some w') : Pipeline p done w' := by
  obtain ⟨-, rfl⟩ := fetch_eq_some hstep
  refine h.congr rfl ?_ rfl rfl rfl
  by_cases hq : p = q
  · subst hq
    simp [broadcasts, setNode, SwarmCommand.operations]
  · simp [broadcasts, setNode, hq]

/-- A step takes at most one batch more, and that in its own tick. -/
theorem Pipeline.step {l : ClusterEvent PeerId} (h : Pipeline p done w)
    (hstep : clusterStep l w = some w') : ∃ taken, Pipeline p (done ++ taken) w' ∧
      ∀ x ∈ taken, l = .tick p x.2 .command := by
  have same : Pipeline p done w' → ∃ taken, Pipeline p (done ++ taken) w' ∧
      ∀ x ∈ taken, l = .tick p x.2 .command := fun h =>
    ⟨[], (List.append_nil done).symm ▸ h, fun x hx => absurd hx List.not_mem_nil⟩
  cases l with
  | call q e => exact same (h.call hstep)
  | broadcast q operations => exact same (h.broadcast hstep)
  | bridge q e => exact same (h.bridge_step hstep)
  | fetch q hash waiter => exact same (h.fetch hstep)
  | tick q c input => exact h.tick hstep

theorem pipeline_step {l : ClusterEvent PeerId} (hstep : clusterStep l w = some w')
    (h : ∃ done, Pipeline p done w) : ∃ done, Pipeline p done w' := by
  obtain ⟨done, h⟩ := h
  obtain ⟨taken, h', -⟩ := h.step hstep
  exact ⟨_, h'⟩

theorem pipeline_run {maxPinnedBytes start : PeerId → ℕ} {events : List (ClusterEvent PeerId)}
    (hrun : run clusterStep events (init maxPinnedBytes start) = some w) (p : PeerId) :
    ∃ done, Pipeline p done w ∧ ∀ x ∈ done, .tick p x.2 .command ∈ events := by
  refine run_rec (P := fun events w => ∃ done, Pipeline p done w ∧
    ∀ x ∈ done, .tick p x.2 .command ∈ events) ?_ ?_ hrun
  · exact ⟨[], pipeline_init _ _ p, fun x hx => absurd hx List.not_mem_nil⟩
  · intro events w l w' _ ih hstep
    obtain ⟨done, h, hdone⟩ := ih
    obtain ⟨taken, h', htaken⟩ := h.step hstep
    refine ⟨_, h', fun x hx => ?_⟩
    rcases List.mem_append.1 hx with hx | hx
    · exact List.mem_append_left _ (hdone x hx)
    · rw [← htaken x hx]
      exact List.mem_append_right _ List.mem_cons_self

end Cluster

end Network

end Edfs

namespace Edfs.Network.Cluster

open Execution Reference

/-- Node 0's directory, from the call to the gossip. -/
def publishing : List (ClusterEvent ℕ) :=
  [.call 0 creates, .broadcast 0 created, .bridge 0 .receive, .bridge 0 .deadline,
    .bridge 0 .send, .tick 0 (context 0 [1] []) .command]

/-- What is published is what has been created. -/
example : (run clusterStep publishing (init (fun _ => 100) fun _ => 0)).map
    (fun w => w.published) = some [(0, [])] := by rfl

/-- What the swarm does not take has left the node, and reaches nobody. -/
example : (run clusterStep (publishing.dropLast ++
    [.tick 0 { context 0 [] [] with publish := fun _ => false } .command])
    (init (fun _ => 100) fun _ => 0)).map
    (fun w => (w.published, w.broadcasts 0, (w.bridges 0).commands)) =
      some ([], [], [created]) := by rfl

end Edfs.Network.Cluster
