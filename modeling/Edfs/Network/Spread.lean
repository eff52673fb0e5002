import Edfs.Network.Correlation
import Edfs.Network.Pipeline

/-!
# How operations spread in the cluster

A node that has pulled from another, under a request it has sent after some moment, has all that
the other had at that moment; so operations spread along chains of pulls, each begun after the one
before has ended. What a node has reported spreads by gossip too, to those who hear all of it.

* `knows`: the ids in a node's log, which only grow;
* `Spreads`: what a later state keeps of an earlier one; `spreads_run`, `knows_of_pull`;
* `Heard`: all that a node has reported has arrived; `gossip_run`, `heard_spread`;
* `Flows`: chains of pulls; `flows_spread`.
-/

namespace Edfs.Network

open Execution

variable {PeerId : Type} [CrdtTree PeerId] [LinearOrder PeerId] [PeerBytes PeerId] [UuidV5]
  [Sha256] [FastCdc] [Bincode PeerId]

/-- The ids of the operations that a file system has. -/
def idsOf (fs : FileSystem PeerId) : Set (NodeOperationId PeerId) :=
  {id | ∃ op ∈ fs.tree.moves, operationId op = id}

namespace Cluster

/-- The operations in a node's log. -/
def log (w : Cluster PeerId) (p : PeerId) : List (NodeOperation PeerId) :=
  (w.nodes p).filesystem.tree.moves

/-- The ids of the operations that a node has. -/
def knows (w : Cluster PeerId) (p : PeerId) : Set (NodeOperationId PeerId) :=
  idsOf (w.nodes p).filesystem

end Cluster

omit [LinearOrder PeerId] [PeerBytes PeerId] [UuidV5] [Sha256] [FastCdc] [Bincode PeerId] in
theorem idsOf_mono {fs fs' : FileSystem PeerId} (h : fs.tree.moves ⊆ fs'.tree.moves) :
    idsOf fs ⊆ idsOf fs' := by
  rintro id ⟨op, hop, hid⟩
  exact ⟨op, h hop, hid⟩

omit [LinearOrder PeerId] [PeerBytes PeerId] [UuidV5] [Sha256] [FastCdc] [Bincode PeerId] in
theorem mem_operationIds {fs : FileSystem PeerId} {id : NodeOperationId PeerId} :
    id ∈ fs.operationIds ↔ id ∈ idsOf fs := by
  change id ∈ fs.tree.operationIds ↔ _
  rw [NodeTree.operationIds_eq, List.mem_map]
  rfl

omit [PeerBytes PeerId] [UuidV5] [Sha256] [FastCdc] [Bincode PeerId] in
/-- What is missing from a list of ids is all the rest. -/
theorem missing_or_known {fs : FileSystem PeerId} {knownIds : List (NodeOperationId PeerId)}
    {id : NodeOperationId PeerId} (h : id ∈ idsOf fs) :
    (∃ op ∈ fs.operationsMissingFrom knownIds, operationId op = id) ∨ id ∈ knownIds := by
  obtain ⟨op, hop, rfl⟩ := h
  by_cases hknown : operationId op ∈ knownIds
  · exact Or.inr hknown
  · exact Or.inl ⟨op, NodeTree.mem_operationsMissingFrom.2 ⟨hop, hknown⟩, rfl⟩

variable [LawfulCrdtTree PeerId] {c : EventContext PeerId} {d d' : Dispatch PeerId}

/-! ### A tick -/

/-- Whatever the handlers do, the log keeps its operations. -/
theorem idsOf_steps (h : Relation.ReflTransGen (Dispatch.Step c) d d')
    (hinv : d.node.filesystem.Inv) :
    d'.node.filesystem.Inv ∧ idsOf d.node.filesystem ⊆ idsOf d'.node.filesystem := by
  induction h with
  | refl => exact ⟨hinv, subset_rfl⟩
  | tail _ hstep ih =>
    have hcalls := calls_step hstep
    exact ⟨hcalls.inv ih.1, ih.2.trans (idsOf_mono (hcalls.moves_subset ih.1))⟩

/-- A pull names no ids but those the node has. -/
theorem pulls_tick {e : Event PeerId} {n : Node PeerId} (hinv : n.filesystem.Inv)
    (h : Dispatcher.tick app c ⟨e, n, []⟩ = some d') {id : ℕ} {peer : PeerId}
    {knownIds : List (NodeOperationId PeerId)}
    (hmem : .sendRequest id peer (.pullMissingOperations knownIds) ∈ d'.actions) :
    ∀ i ∈ knownIds, i ∈ idsOf d'.node.filesystem := by
  refine (tick_invariant (I := fun d => d.node.filesystem.Inv ∧ ∀ id peer knownIds,
      Action.sendRequest id peer (.pullMissingOperations knownIds) ∈ d.actions →
      ∀ i ∈ knownIds, i ∈ idsOf d.node.filesystem) ?_ h ⟨hinv, by simp⟩).2 _ _ _ hmem
  rintro d₁ d₂ hstep ⟨hinv₁, hpulls⟩
  obtain ⟨sent, hacts⟩ := acts_step hstep
  have hcalls := calls_step hstep
  have hkeep := idsOf_mono (hcalls.moves_subset hinv₁)
  refine ⟨hcalls.inv hinv₁, fun id peer knownIds hmem i hi => hkeep ?_⟩
  rw [hacts.actions] at hmem
  rcases List.mem_append.1 hmem with hold | hnew
  · exact hpulls _ _ _ hold i hi
  · rw [hacts.pulls _ _ _ hnew] at hi
    exact mem_operationIds.1 hi

/-- What a handler applies ends up in the log, but for operations whose ids are taken. -/
theorem applied_tick (hinv : d.node.filesystem.Inv) {operations : List (NodeOperation PeerId)}
    (hhandled : handled c d = some (d.applyOperations c.wall operations))
    (h : Dispatcher.tick app c d = some d') :
    ∀ op ∈ operations, operationId op ∈ idsOf d'.node.filesystem := by
  rw [tick_app, hhandled, Option.bind_some] at h
  obtain ⟨d₁, h₁, h₂⟩ := Option.bind_eq_some_iff.1 h
  have hrest := idsOf_steps ((steps_syncHandler h₁).trans (steps_replicationHandler h₂))
    ⟨hinv.sound.applyOperations _ _, hinv.storage⟩
  intro op hop
  obtain ⟨x, hx, hts⟩ := (MoveTree.Coherent.timestamps_foldl hinv.sound operations).2 op hop
  rw [← NodeTree.state_applyOperations _ c.wall] at hx
  exact hrest.2 ⟨x, hx, operationId_inj.2 hts⟩

/-- **The response to a pull** is applied, if it brings anything. -/
theorem delivers_tick {n : Node PeerId} (hinv : n.filesystem.Inv) {requestId : ℕ}
    {operations : List (NodeOperation PeerId)}
    (h : Dispatcher.tick app c ⟨.response requestId (.missingOperations operations), n, []⟩ =
      some d') : ∀ op ∈ operations, operationId op ∈ idsOf d'.node.filesystem := by
  by_cases hempty : operations = []
  · simp [hempty]
  · refine applied_tick hinv ?_ h
    simp only [handled, syncHandler, if_neg hempty]

/-- **Gossip** is applied, if it can be decoded. -/
theorem gossip_tick {n : Node PeerId} (hinv : n.filesystem.Inv) {data : Bytes}
    {operations : List (NodeOperation PeerId)} (hdata : Bincode.decode data = some operations)
    (h : Dispatcher.tick app c ⟨.gossip data, n, []⟩ = some d') :
    ∀ op ∈ operations, operationId op ∈ idsOf d'.node.filesystem := by
  refine applied_tick hinv ?_ h
  simp only [handled, gossipHandler, hdata]

namespace Cluster

variable {p : PeerId} {u v w w' : Cluster PeerId} {l : ClusterEvent PeerId}
  {events : List (ClusterEvent PeerId)} {maxPinnedBytes start : PeerId → ℕ}

/-- **A node never forgets an operation.** -/
theorem knows_step (hinv : ∀ q, (w.nodes q).filesystem.Inv) (h : clusterStep l w = some w')
    (q : PeerId) : w.knows q ⊆ w'.knows q := by
  rcases filesystem_cases h q with hsame | ⟨e, -, -, hcall⟩ | ⟨c, input, e, w₁, -, -, hcalls⟩
  · rw [knows, knows, hsame]
  · exact idsOf_mono (FileSystem.mem_moves_step (hinv q) hcall).1
  · exact idsOf_mono (hcalls.moves_subset (hinv q))

/-! ### What a pull brings -/

/-- What a state has kept of an earlier one `u`. The pulls on their way name what their askers have,
and a response to a pull that was begun after `u` brings what its sender had in `u`, but for what
the asker has anyway. -/
structure Spreads (u w : Cluster PeerId) : Prop where
  inv : ∀ q, (w.nodes q).filesystem.Inv
  knows : ∀ q, u.knows q ⊆ w.knows q
  requests : ∀ m ∈ w.requests, ∀ knownIds, m.request = .pullMissingOperations knownIds →
    ∀ id ∈ knownIds, id ∈ w.knows m.asker
  responses : ∀ r ∈ w.responses, ∀ operations, r.response = .missingOperations operations →
    (u.nodes r.asker).nextRequestId ≤ r.requestId → ∀ id ∈ u.knows r.answerer,
      (∃ op ∈ operations, operationId op = id) ∨ id ∈ w.knows r.asker

theorem spreads_step (h : Spreads u w) (hstep : clusterStep l w = some w') : Spreads u w' := by
  have hgrows := knows_step h.inv hstep
  by_cases htick : ∃ p c input, l = .tick p c input
  · obtain ⟨p, c, input, rfl⟩ := htick
    obtain ⟨-, -, e, w₁, d, harrive, htick, rfl⟩ := tick_eq_some hstep
    have ha := arrives harrive
    have hx := exchanges harrive htick
    refine ⟨inv_step hstep h.inv, fun q => (h.knows q).trans (hgrows q),
      fun m hm knownIds hk id hid => ?_, fun r hr operations ho hlt id hid => ?_⟩
    · rw [hx.requests] at hm
      rcases List.mem_append.1 hm with hold | hnew
      · exact hgrows _ (h.requests m (ha.requests hold) knownIds hk id hid)
      · obtain ⟨rfl, hmem⟩ := Action.mem_request.1 hnew
        rw [hk] at hmem
        have hinv : (w₁.nodes m.asker).filesystem.Inv := by
          rw [ha.toReplicationNode]
          exact h.inv _
        rw [Cluster.knows, nodes_dispatched_self]
        exact pulls_tick hinv htick hmem id hid
    · rw [hx.responses] at hr
      rcases List.mem_append.1 hr with hold | hnew
      · exact (h.responses r (ha.responses hold) operations ho hlt id hid).imp_right
          fun hknown => hgrows _ hknown
      · -- the answer to a pull that has arrived
        by_cases hrequest : ∃ req channel, e = .request req (some channel)
        · obtain ⟨req, channel, rfl⟩ := hrequest
          cases List.mem_singleton.1 hnew
          obtain ⟨knownIds, rfl, rfl⟩ := answer_eq_missingOperations ho
          refine (missing_or_known (h.knows p hid)).imp_right fun hknown => hgrows _ ?_
          exact h.requests _ (ha.request _ _ rfl) knownIds rfl id hknown
        · rw [repliesTo_eq_nil fun req channel he => hrequest ⟨req, channel, he⟩] at hnew
          exact absurd hnew List.not_mem_nil
  · obtain ⟨hrequests, -, hresponses, -⟩ :=
      messages_of_ne_tick hstep fun p c input hl => htick ⟨p, c, input, hl⟩
    refine ⟨inv_step hstep h.inv, fun q => (h.knows q).trans (hgrows q), ?_, ?_⟩
    · rw [hrequests]
      exact fun m hm knownIds hk id hid => hgrows _ (h.requests m hm knownIds hk id hid)
    · rw [hresponses]
      exact fun r hr operations ho hlt id hid =>
        (h.responses r hr operations ho hlt id hid).imp_right fun hknown => hgrows _ hknown

omit [PeerBytes PeerId] [UuidV5] [FastCdc] [Bincode PeerId] in
theorem spreads_init (maxPinnedBytes start : PeerId → ℕ) :
    Spreads (init maxPinnedBytes start) (init maxPinnedBytes start) where
  inv q := FileSystem.inv_init q _
  knows _ := subset_rfl
  requests _ hm := absurd hm List.not_mem_nil
  responses _ hr := absurd hr List.not_mem_nil

/-- No response to a pull that is begun later is on its way. -/
theorem spreads_self (hrun : run clusterStep events (init maxPinnedBytes start) = some u) :
    Spreads u u := by
  have h : Spreads (init maxPinnedBytes start) u :=
    run_invariant (I := Spreads (init maxPinnedBytes start))
      (fun _ _ _ hs hstep => spreads_step hs hstep) (spreads_init _ _) hrun
  have hcorrelated := correlated_run hrun
  refine ⟨h.inv, fun _ => subset_rfl, h.requests, fun r hr operations _ hlt => ?_⟩
  obtain ⟨m, hm⟩ := hcorrelated.responses r hr
  have hfresh := hcorrelated.fresh m hm.asked
  obtain ⟨hasker, hid⟩ := Prod.mk.inj hm.1
  rw [← hasker, ← hid] at hfresh
  exact absurd hlt hfresh.not_ge

theorem spreads_run {later : List (ClusterEvent PeerId)}
    (hrun : run clusterStep events (init maxPinnedBytes start) = some u)
    (hlater : run clusterStep later u = some w) : Spreads u w :=
  run_invariant (I := Spreads u) (fun _ _ _ hs hstep => spreads_step hs hstep) (spreads_self hrun)
    hlater

/-- **What a pull brings**: all that the asked node had when the pull was begun. -/
theorem knows_of_pull (h : Spreads u w) {c : EventContext PeerId} {r : ResponseMessage PeerId}
    {operations : List (NodeOperation PeerId)}
    (hresponse : r.response = .missingOperations operations)
    (hlater : (u.nodes r.asker).nextRequestId ≤ r.requestId)
    (hstep : clusterStep (.tick r.asker c (.response r)) w = some w') :
    u.knows r.answerer ⊆ w'.knows r.asker := by
  intro id hid
  have hgrows := knows_step h.inv hstep r.asker
  obtain ⟨-, -, e, w₁, d, harrive, htick, rfl⟩ := tick_eq_some hstep
  have ha := arrives harrive
  simp only [arrive] at harrive
  split_ifs at harrive with hfound
  cases harrive
  rcases h.responses r hfound.1 operations hresponse hlater id hid with ⟨op, hop, rfl⟩ | hknown
  · have hinv := h.inv r.asker
    rw [← ha.toReplicationNode] at hinv
    rw [Event.ofSwarm, hresponse] at htick
    rw [Cluster.knows, nodes_dispatched_self]
    exact delivers_tick hinv htick op hop
  · exact hgrows hknown

/-! ### What gossip brings -/

theorem knows_of_gossip (hinv : ∀ q, (w.nodes q).filesystem.Inv) {c : EventContext PeerId}
    {source : PeerId} {data : Bytes} {operations : List (NodeOperation PeerId)}
    (hdata : Bincode.decode data = some operations)
    (hstep : clusterStep (.tick p c (.gossip source data)) w = some w') :
    ∀ op ∈ operations, operationId op ∈ w'.knows p := by
  obtain ⟨-, -, e, w₁, d, harrive, htick, rfl⟩ := tick_eq_some hstep
  simp only [arrive] at harrive
  split_ifs at harrive
  cases harrive
  rw [Cluster.knows, nodes_dispatched_self]
  exact gossip_tick (hinv p) hdata htick

/-- **Gossip that arrives is known for good.** -/
theorem gossip_run (hrun : run clusterStep events (init maxPinnedBytes start) = some w)
    {c : EventContext PeerId} {source : PeerId} {data : Bytes}
    (hmem : .tick p c (.gossip source data) ∈ events) {operations : List (NodeOperation PeerId)}
    (hdata : Bincode.decode data = some operations) :
    ∀ op ∈ operations, operationId op ∈ w.knows p := by
  obtain ⟨before, after, rfl⟩ := List.append_of_mem hmem
  obtain ⟨u, hu, hrest⟩ := run_append_eq_some.1 hrun
  obtain ⟨v, hstep, hafter⟩ := Option.bind_eq_some_iff.1 hrest
  have hv : run clusterStep (before ++ [.tick p c (.gossip source data)])
      (init maxPinnedBytes start) = some v := by
    rw [run_concat, hu]
    exact hstep
  intro op hop
  exact (spreads_run hv hafter).knows p (knows_of_gossip (inv_run hu) hdata hstep op hop)

/-- In a run to `w`, all that `q` has reported has been published and has arrived at `p`. -/
structure Heard (events : List (ClusterEvent PeerId)) (w : Cluster PeerId) (q p : PeerId) :
    Prop where
  mutated : w.mutated q = []
  held : (w.bridges q).held = []
  broadcasts : w.broadcasts q = []
  arrived : ∀ operations ∈ (w.bridges q).commands, ∃ data,
    Bincode.encode operations = some data ∧ ∃ c source, .tick p c (.gossip source data) ∈ events

/-- **Operations spread by gossip** to those who hear it all. -/
theorem heard_spread [LawfulBincode PeerId]
    (hrun : run clusterStep events (init maxPinnedBytes start) = some w) {q : PeerId}
    (h : Heard events w q p) : ∀ op ∈ w.issued q, operationId op ∈ w.knows p := by
  obtain ⟨done, hpipeline, -⟩ := pipeline_run hrun q
  intro op hop
  have hissued := hpipeline.issued.mem_iff.1 hop
  rw [h.held, h.mutated, List.flatten_nil, List.append_nil, List.append_nil] at hissued
  obtain ⟨operations, hcommand, hmem⟩ := List.mem_flatten.1 hissued
  obtain ⟨data, hencode, c, source, htick⟩ := h.arrived operations hcommand
  exact gossip_run hrun htick (LawfulBincode.decode_encode _ _ hencode) op hmem

/-! ### Chains of pulls -/

/-- In a run from `u`, what `q` has in `u` spreads to `p`: by pulls that each begin when the one
before has ended. -/
inductive Flows (u : Cluster PeerId) : List (ClusterEvent PeerId) → PeerId → PeerId → Prop
  | self (p : PeerId) : Flows u [] p p
  | wait {events : List (ClusterEvent PeerId)} {q p : PeerId} (h : Flows u events q p)
      (l : ClusterEvent PeerId) : Flows u (events ++ [l]) q p
  | pull {events : List (ClusterEvent PeerId)} {q : PeerId} {v : Cluster PeerId}
      {c : EventContext PeerId} {r : ResponseMessage PeerId}
      {operations : List (NodeOperation PeerId)} (h : Flows u events q r.answerer)
      (hrun : run clusterStep events u = some v) (between : List (ClusterEvent PeerId))
      (hlater : (v.nodes r.asker).nextRequestId ≤ r.requestId)
      (hresponse : r.response = .missingOperations operations) :
      Flows u (events ++ (between ++ [.tick r.asker c (.response r)])) q r.asker

/-- **Operations spread along chains of pulls**, whatever else goes on. -/
theorem flows_spread {before : List (ClusterEvent PeerId)}
    (hbefore : run clusterStep before (init maxPinnedBytes start) = some u) {q : PeerId}
    (h : Flows u events q p) (hrun : run clusterStep events u = some w) :
    u.knows q ⊆ w.knows p := by
  induction h generalizing w with
  | self p =>
    cases hrun
    exact subset_rfl
  | wait h l ih =>
    obtain ⟨v, hv, hstep⟩ := run_concat_eq_some.1 hrun
    exact (ih hv).trans (knows_step (spreads_run hbefore hv).inv hstep _)
  | @pull events q v c r operations h hv between hlater hresponse ih =>
    obtain ⟨v', hv', hrest⟩ := run_append_eq_some.1 hrun
    cases hv.symm.trans hv'
    obtain ⟨w₁, hbetween, hstep⟩ := run_concat_eq_some.1 hrest
    have hspreads := spreads_run (run_append_eq_some.2 ⟨u, hbefore, hv⟩) hbetween
    exact (ih hv).trans (knows_of_pull hspreads hresponse hlater hstep)

end Cluster

end Edfs.Network
