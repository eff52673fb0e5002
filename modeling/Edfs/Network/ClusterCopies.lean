import Edfs.Base.Simulation
import Edfs.Network.Cluster
import Edfs.Network.Copies
import Edfs.Network.HandlerCalls
import Edfs.Network.Renumbering

/-!
# The copies of a chunk in the cluster

The program keeps the copies of a chunk. In the program the probes share their ids, the swarm and
the dispatcher with fetches, synchronisation and gossip; the world of `Copies` has the probes alone,
and answers every step of the program.

* `Counts`: a cluster and a world of probes that have the same nodes, up to the ids of requests;
* `answers_quiet`: what the other handlers do does not concern the probes;
* `answers_step`, `answers_tick` and `simulates_copies`;
* `program_keeps_copies`, `program_evicts_above`.
-/

namespace Edfs.Network

open Execution FileSystem ReplicationNode
open ReplicationWorld (View replicationStep)

variable {PeerId : Type} [CrdtTree PeerId]

/-- An action that has nothing to do with probes. -/
def Action.Quiet : Action PeerId → Prop
  | .sendRequest _ _ (.checkChunks _) | .sendResponse _ (.heldChunks _) => False
  | _ => True

namespace Cluster

/-- The cluster has the nodes of the world of probes, where the probes of node `p` are counted by
`ids p`, and no other probes or answers to probes are on their way. -/
structure Counts (ids : PeerId → List ℕ) (w : Cluster PeerId) (v : ReplicationWorld PeerId) :
    Prop where
  nodes : ∀ p, v.nodes p = renumber (ids p) (w.nodes p).toReplicationNode
  numbering : ∀ p, Numbering (ids p) (w.nodes p).toReplicationNode
  requests : ∀ m ∈ w.requests, ∀ hashes, m.request = .checkChunks hashes →
    ∃ k : ℕ, (ids m.asker)[k]? = some m.requestId ∧ ⟨k, m.asker, m.answerer, hashes⟩ ∈ v.requests
  responses : ∀ m ∈ w.responses, ∀ hashes, m.response = .heldChunks hashes →
    ∃ k : ℕ, (ids m.asker)[k]? = some m.requestId ∧ ⟨k, m.asker, m.answerer, hashes⟩ ∈ v.replies

/-- A probe that node `p` has found, or an answer to one, is on its way. -/
structure Found (ids : PeerId → List ℕ) (v : ReplicationWorld PeerId) (p : PeerId)
    (e : Event PeerId) : Prop where
  request : ∀ hashes reply, e = .request (.checkChunks hashes) (some reply) →
    ∃ k : ℕ, (ids reply.peer)[k]? = some reply.requestId ∧ ⟨k, reply.peer, p, hashes⟩ ∈ v.requests
  response : ∀ requestId hashes, e = .response requestId (.heldChunks hashes) →
    ∃ (k : ℕ) (q : PeerId), (ids p)[k]? = some requestId ∧ ⟨k, p, q, hashes⟩ ∈ v.replies

theorem getElem?_of_prefix {α : Type} {l l' : List α} (h : l <+: l') {k : ℕ} {x : α}
    (hk : l[k]? = some x) : l'[k]? = some x := by
  obtain ⟨t, rfl⟩ := h
  rw [List.getElem?_append_left (List.getElem?_eq_some_iff.1 hk).1]
  exact hk

/-- More ids, and more messages. -/
theorem Found.mono {ids ids' : PeerId → List ℕ} {v v' : ReplicationWorld PeerId} {p : PeerId}
    {e : Event PeerId} (h : Found ids v p e) (hids : ∀ q, ids q <+: ids' q)
    (hrequests : v.requests ⊆ v'.requests) (hreplies : v.replies ⊆ v'.replies) :
    Found ids' v' p e where
  request hashes reply he := by
    obtain ⟨k, hk, hr⟩ := h.request hashes reply he
    exact ⟨k, getElem?_of_prefix (hids _) hk, hrequests hr⟩
  response requestId hashes he := by
    obtain ⟨k, q, hk, hm⟩ := h.response requestId hashes he
    exact ⟨k, q, getElem?_of_prefix (hids _) hk, hreplies hm⟩

variable [LinearOrder PeerId] {ids : PeerId → List ℕ} {w : Cluster PeerId}
  {v v' : ReplicationWorld PeerId} {p : PeerId} {d d' : Dispatch PeerId}

omit [CrdtTree PeerId] [LinearOrder PeerId] in
theorem prefix_update [DecidableEq PeerId] {ids' : List ℕ} (h : ids p <+: ids') (q : PeerId) :
    ids q <+: Function.update ids p ids' q := by
  by_cases hq : q = p
  · subst hq
    rwa [Function.update_self]
  · rw [Function.update_of_ne hq]

/-- A node's handlers go on, and so does the node among the probes. -/
theorem Counts.dispatch (h : Counts ids (w.dispatched p d) v) {ids' : List ℕ}
    {actions : List (Action PeerId)} (hids : ids p <+: ids')
    (hnode : v'.nodes = Function.update v.nodes p (renumber ids' d'.node.toReplicationNode))
    (hnumbering : Numbering ids' d'.node.toReplicationNode)
    (hactions : d'.actions = d.actions ++ actions)
    (hrequests : v.requests ⊆ v'.requests) (hreplies : v.replies ⊆ v'.replies)
    (hsent : ∀ id peer hashes, .sendRequest id peer (.checkChunks hashes) ∈ actions →
      ∃ k : ℕ, ids'[k]? = some id ∧ ⟨k, p, peer, hashes⟩ ∈ v'.requests)
    (hanswered : ∀ reply hashes, .sendResponse reply (.heldChunks hashes) ∈ actions →
      ∃ k : ℕ, (ids reply.peer)[k]? = some reply.requestId ∧
        ⟨k, reply.peer, p, hashes⟩ ∈ v'.replies) :
    Counts (Function.update ids p ids') (w.dispatched p d') v' := by
  have hbefores := prefix_update hids
  refine ⟨fun q => ?_, fun q => ?_, fun m hm hashes hrequest => ?_,
    fun m hm hashes hresponse => ?_⟩
  · rw [hnode]
    by_cases hq : q = p
    · subst hq
      rw [Function.update_self, Function.update_self, nodes_dispatched_self]
    · have hold := h.nodes q
      rw [nodes_dispatched_of_ne hq] at hold
      rw [Function.update_of_ne hq, Function.update_of_ne hq, nodes_dispatched_of_ne hq, hold]
  · by_cases hq : q = p
    · subst hq
      rwa [Function.update_self, nodes_dispatched_self]
    · have hold := h.numbering q
      rw [nodes_dispatched_of_ne hq] at hold
      rwa [Function.update_of_ne hq, nodes_dispatched_of_ne hq]
  · rw [requests_dispatched hactions] at hm
    rcases List.mem_append.1 hm with hold | hnew
    · obtain ⟨k, hk, hr⟩ := h.requests m hold hashes hrequest
      exact ⟨k, getElem?_of_prefix (hbefores _) hk, hrequests hr⟩
    · obtain ⟨rfl, hmem⟩ := Action.mem_request.1 hnew
      rw [hrequest] at hmem
      rw [Function.update_self]
      exact hsent _ _ _ hmem
  · rw [responses_dispatched hactions] at hm
    rcases List.mem_append.1 hm with hold | hnew
    · obtain ⟨k, hk, hr⟩ := h.responses m hold hashes hresponse
      exact ⟨k, getElem?_of_prefix (hbefores _) hk, hreplies hr⟩
    · obtain ⟨rfl, hmem⟩ := Action.mem_response.1 hnew
      rw [hresponse] at hmem
      obtain ⟨k, hk, hr⟩ := hanswered _ _ hmem
      exact ⟨k, getElem?_of_prefix (hbefores _) hk, hr⟩

/-- The handlers go on and send nothing. -/
theorem Counts.silent (h : Counts ids (w.dispatched p d) v) {ids' : List ℕ}
    (hids : ids p <+: ids')
    (hnode : v'.nodes = Function.update v.nodes p (renumber ids' d'.node.toReplicationNode))
    (hnumbering : Numbering ids' d'.node.toReplicationNode) (hactions : d'.actions = d.actions)
    (hrequests : v.requests ⊆ v'.requests) (hreplies : v.replies ⊆ v'.replies) :
    Counts (Function.update ids p ids') (w.dispatched p d') v' :=
  h.dispatch hids hnode hnumbering (hactions.trans (List.append_nil _).symm) hrequests hreplies
    (fun _ _ _ hmem => absurd hmem List.not_mem_nil) fun _ _ hmem => absurd hmem List.not_mem_nil

variable [PeerBytes PeerId] [UuidV5] [Sha256] [FastCdc]

omit [PeerBytes PeerId] in
/-- Calls of a node's file system are calls among the probes. -/
theorem run_calls [PeerBytes PeerId] {es : List (Edfs.Event PeerId)} {fs : FileSystem PeerId}
    (hes : ∀ e ∈ es, ∀ x, e.2 ≠ .evictChunk x)
    (hrun : run callStep es (v.nodes p).filesystem = some fs) :
    run replicationStep (es.map (.call p)) v =
      some { v with nodes := Function.update v.nodes p ((v.nodes p).setFilesystem fs) } := by
  induction es generalizing v with
  | nil =>
    cases hrun
    rw [show (v.nodes p).setFilesystem (v.nodes p).filesystem = v.nodes p from rfl,
      Function.update_eq_self]
    rfl
  | cons e es ih =>
    obtain ⟨fs₁, hfs₁, hrest⟩ := Option.bind_eq_some_iff.1 hrun
    have hstep : replicationStep (.call p e) v =
        some (v.advance p ((v.nodes p).setFilesystem fs₁) [] []) := by
      have hcall : replicationStep (.call p e) v = ((v.nodes p).filesystem.callStep e).map fun fs =>
          v.advance p ((v.nodes p).setFilesystem fs) [] [] := by
        obtain ⟨now, call⟩ := e
        cases call with
        | evictChunk x => exact absurd rfl (hes _ List.mem_cons_self x)
        | _ => rfl
      rw [hcall, hfs₁]
      rfl
    rw [List.map_cons, run_cons, hstep, Option.bind_some]
    have hself : (v.advance p ((v.nodes p).setFilesystem fs₁) [] []).nodes p =
        (v.nodes p).setFilesystem fs₁ := Function.update_self _ _ _
    rw [ih (fun e he => hes e (List.mem_cons_of_mem _ he)) (by rw [hself]; exact hrest), hself]
    simp [ReplicationWorld.advance, setFilesystem]

/-- The world of probes while an event is on its way through the handlers of a node. -/
def Along (p : PeerId) (w : Cluster PeerId) (d : Dispatch PeerId)
    (v : ReplicationWorld PeerId) : Prop :=
  ∃ ids, Counts ids (w.dispatched p d) v ∧ Found ids v p d.event

/-- **What does not concern probes**: calls, if none of them evicts a chunk, requests and responses
of other kinds. -/
theorem answers_quiet (h : Along p w d v) {actions : List (Action PeerId)}
    (hcalls : Calls (fun call => ∀ x, call ≠ .evictChunk x) d.node.filesystem d'.node.filesystem)
    (hhandler : d'.node.handler = d.node.handler)
    (hnext : d.node.nextRequestId ≤ d'.node.nextRequestId)
    (hactions : d'.actions = d.actions ++ actions) (hquiet : ∀ a ∈ actions, a.Quiet)
    (hevent : ∀ ids v, Found ids v p d.event → Found ids v p d'.event) :
    Reaches replicationStep v (Along p w d') := by
  obtain ⟨ids, hcounts, hfound⟩ := h
  obtain ⟨es, hes, hrun⟩ := hcalls
  have hp := hcounts.nodes p
  rw [nodes_dispatched_self] at hp
  have hnumbering := hcounts.numbering p
  rw [nodes_dispatched_self] at hnumbering
  refine ⟨_, _, run_calls hes (by rw [hp]; exact hrun), Function.update ids p (ids p),
    hcounts.dispatch List.prefix_rfl ?_ ?_ hactions (List.Subset.refl _) (List.Subset.refl _)
      (fun _ _ _ hmem => absurd (hquiet _ hmem) id) fun _ _ hmem => absurd (hquiet _ hmem) id, ?_⟩
  · rw [hp]
    simp [renumber, withIds, setFilesystem, hhandler]
  · exact hnumbering.of_pending (fun _ _ hpending => hhandler ▸ hpending) hnext
  · rw [Function.update_eq_self]
    exact hevent _ _
      (hfound.mono (fun _ => List.prefix_rfl) (List.Subset.refl _) (List.Subset.refl _))

/-- The chunk handler's part does not concern probes. -/
theorem answers_chunk (h : Along p w d v) (c : EventContext PeerId) (e : ChunkEvent PeerId)
    {actions : List (Action PeerId)} {d₁ : Dispatch PeerId} (hnode : d₁.node = d.node)
    (hactions : d₁.actions = d.actions ++ actions) (hquiet : ∀ a ∈ actions, a.Quiet)
    (hevent : ∀ ids v, Found ids v p d.event → Found ids v p d₁.event) :
    Reaches replicationStep v (Along p w (d₁.chunk c e)) := by
  have hcalls : Calls (fun call => ∀ x, call ≠ .evictChunk x) d.node.filesystem
      (d₁.chunk c e).node.filesystem := by
    rw [← hnode]
    refine (calls_chunk _ e d₁.node.fetcher d₁.node.filesystem).mono fun call hcall x hx => ?_
    rw [hx] at hcall
    exact hcall
  refine answers_quiet h hcalls ?_ ?_ (by rw [Dispatch.actions_chunk, hactions, List.append_assoc])
    (fun a ha => ?_) hevent
  · rw [← hnode]
    rfl
  · rw [← hnode]
    exact Nat.le_add_right _ _
  · rcases List.mem_append.1 ha with ha | ha
    · exact hquiet a ha
    · rcases List.mem_append.1 ha with ha | ha
      · obtain ⟨m, -, rfl⟩ := List.mem_map.1 ha
        trivial
      · obtain ⟨m, -, rfl⟩ := List.mem_map.1 ha
        trivial

omit [LinearOrder PeerId] [PeerBytes PeerId] [UuidV5] [Sha256] [FastCdc] in
/-- An event without its reply is no probe. -/
theorem Found.takeReply {v : ReplicationWorld PeerId} (h : Found ids v p d.event) :
    Found ids v p d.takeReply.event := by
  unfold Dispatch.takeReply
  dsimp only
  split
  · exact ⟨nofun, nofun⟩
  · exact ⟨nofun, nofun⟩
  · exact h

/-- A probe is answered. -/
theorem answers_answerCheck (h : Along p w d v) {hashes : List ChunkHash}
    {reply : ResponseChannel PeerId}
    (hevent : d.event = .request (.checkChunks hashes) (some reply)) :
    Reaches replicationStep v (Along p w (d.respond reply (.heldChunks
      (d.node.answerCheck ⟨reply.requestId, reply.peer, p, hashes⟩).hashes))) := by
  obtain ⟨ids, hcounts, hfound⟩ := h
  obtain ⟨k, hk, hr⟩ := hfound.request hashes reply hevent
  have hp := hcounts.nodes p
  have hnumbering := hcounts.numbering p
  rw [nodes_dispatched_self] at hp hnumbering
  have hstep : replicationStep (.checkChunks ⟨k, reply.peer, p, hashes⟩) v =
      some (v.advance p (v.nodes p) [] [(v.nodes p).answerCheck ⟨k, reply.peer, p, hashes⟩]) :=
    if_pos hr
  refine .after hstep ⟨Function.update ids p (ids p),
    hcounts.dispatch List.prefix_rfl ?_ hnumbering rfl (List.Subset.refl _)
      (List.subset_cons_self _ _) (fun _ _ _ hmem => by simp at hmem)
      fun reply' hashes' hmem => ?_, ?_⟩
  · rw [hp]
    rfl
  · obtain ⟨rfl, rfl⟩ : reply' = reply ∧ hashes' = _ := by simpa using hmem
    refine ⟨k, hk, List.mem_cons.2 (Or.inl ?_)⟩
    rw [hp]
    rfl
  · rw [Function.update_eq_self]
    exact Found.takeReply (hfound.mono (fun _ => List.prefix_rfl) (List.Subset.refl _)
      (List.subset_cons_self _ _))

/-- The answer to a probe is handled. -/
theorem answers_heldChunks (h : Along p w d v) {requestId : ℕ} {hashes : List ChunkHash}
    {connected : List PeerId} (hview : View p connected)
    (hevent : d.event = .response requestId (.heldChunks hashes)) :
    Reaches replicationStep v (Along p w (d.setNode { d.node with
      toReplicationNode := d.node.handleHeld p connected requestId hashes })) := by
  obtain ⟨ids, hcounts, hfound⟩ := h
  obtain ⟨k, q, hk, hm⟩ := hfound.response requestId hashes hevent
  have hp := hcounts.nodes p
  have hnumbering := hcounts.numbering p
  rw [nodes_dispatched_self] at hp hnumbering
  have hstep : replicationStep (.heldChunks ⟨k, p, q, hashes⟩ connected) v =
      some (v.advance p ((v.nodes p).handleHeld p connected k hashes) [] []) :=
    if_pos ⟨hm, hview⟩
  refine .after hstep ⟨Function.update ids p (ids p),
    hcounts.silent List.prefix_rfl ?_ (hnumbering.handleHeld _ _ _ _) rfl
      (List.Subset.refl _) (List.Subset.refl _), ?_⟩
  · rw [hp, renumber_handleHeld hnumbering hk]
    rfl
  · rw [Function.update_eq_self]
    exact hfound.mono (fun _ => List.prefix_rfl) (List.Subset.refl _) (List.Subset.refl _)

/-- A request has failed, of whatever kind. -/
theorem answers_probeFailure (h : Along p w d v) (requestId : ℕ) :
    Reaches replicationStep v (Along p w (d.setNode { d.node with
      toReplicationNode := d.node.outboundFailure requestId })) := by
  obtain ⟨ids, hcounts, hfound⟩ := h
  have hp := hcounts.nodes p
  have hnumbering := hcounts.numbering p
  rw [nodes_dispatched_self] at hp hnumbering
  have hafter : ∀ v' : ReplicationWorld PeerId, v'.nodes = Function.update v.nodes p
        (renumber (ids p) (d.node.outboundFailure requestId)) →
      v'.requests = v.requests → v'.replies = v.replies →
      Along p w (d.setNode { d.node with
        toReplicationNode := d.node.outboundFailure requestId }) v' := by
    intro v' hnodes hrequests hreplies
    refine ⟨Function.update ids p (ids p), hcounts.silent List.prefix_rfl hnodes
      (hnumbering.outboundFailure _) rfl (hrequests ▸ List.Subset.refl _)
      (hreplies ▸ List.Subset.refl _), ?_⟩
    rw [Function.update_eq_self]
    exact hfound.mono (fun _ => List.prefix_rfl) (hrequests ▸ List.Subset.refl _)
      (hreplies ▸ List.Subset.refl _)
  by_cases hid : requestId ∈ ids p
  · obtain ⟨k, hk⟩ := List.mem_iff_getElem?.1 hid
    refine .after (l := .outboundFailure p k) rfl (hafter _ ?_ rfl rfl)
    rw [hp, renumber_outboundFailure hnumbering hk]
    rfl
  · refine .stay (hafter v ?_ rfl rfl)
    rw [renumber_outboundFailure_of_notMem hid, ← hp, Function.update_eq_self]

/-- The node rebalances. -/
theorem answers_rebalance (h : Along p w d v) {c : EventContext PeerId} (hlocal : c.localPeerId = p)
    (hview : View p c.connected) {i now : ℕ} (hstep : d.rebalance c i now = some d') :
    Reaches replicationStep v (Along p w d') := by
  obtain ⟨hlive, rfl⟩ := Dispatch.rebalance_eq_some hstep
  obtain ⟨ids, hcounts, hfound⟩ := h
  have hp := hcounts.nodes p
  have hnumbering := hcounts.numbering p
  rw [nodes_dispatched_self] at hp hnumbering
  have hstep : replicationStep (.rebalance p c.connected now (c.trySend i) (c.live i)) v =
      some (v.advance p
        ((v.nodes p).rebalance p c.connected now (c.trySend i) (c.live i)).1 [] []) := by
    refine if_pos ⟨hview, ?_⟩
    rw [hp]
    exact hlive
  refine .after hstep ⟨Function.update ids p (ids p),
    hcounts.silent List.prefix_rfl ?_ (hnumbering.rebalance _ _ _ _ _) rfl
      (List.Subset.refl _) (List.Subset.refl _), ?_⟩
  · rw [hp, renumber_rebalance, hlocal]
    rfl
  · rw [Function.update_eq_self]
    exact hfound.mono (fun _ => List.prefix_rfl) (List.Subset.refl _) (List.Subset.refl _)

/-- The node probes. -/
theorem answers_probe (h : Along p w d v) {c : EventContext PeerId} (hlocal : c.localPeerId = p)
    (hview : View p c.connected) (hstep : d.probe c = some d') :
    Reaches replicationStep v (Along p w d') := by
  obtain ⟨hpinned, rfl⟩ := Dispatch.probe_eq_some hstep
  obtain ⟨ids, hcounts, hfound⟩ := h
  have hp := hcounts.nodes p
  have hnumbering := hcounts.numbering p
  rw [nodes_dispatched_self] at hp hnumbering
  obtain ⟨hnumbering', hnode, hsent⟩ := renumber_probe hnumbering p c.connected c.pinned
  have hstep : replicationStep (.probe p c.connected c.pinned) v =
      some (v.advance p ((v.nodes p).probeEvictionCandidates p c.connected c.pinned).1
        ((v.nodes p).probeEvictionCandidates p c.connected c.pinned).2 []) := by
    refine if_pos ⟨hview, ?_⟩
    rw [hp]
    exact hpinned
  rw [hlocal]
  refine .after hstep ⟨_,
    hcounts.dispatch (List.prefix_append _ _) ?_ hnumbering' rfl (List.subset_append_right _ _)
      (List.Subset.refl _) (fun id peer hashes hmem => ?_) (by simp), ?_⟩
  · rw [hp, hnode]
    rfl
  · obtain ⟨r, hr, heq⟩ := List.mem_map.1 hmem
    obtain ⟨rfl, rfl, rfl⟩ : r.requestId = id ∧ r.answerer = peer ∧ r.hashes = hashes := by
      simpa using heq
    obtain ⟨k, hk, hmem'⟩ := hsent r hr
    have hasker := ((probe_spec p c.connected c.pinned d.node.toReplicationNode).asker r hr).1
    refine ⟨k, hk, List.mem_append_left _ ?_⟩
    rw [hp, ← hasker]
    exact hasker ▸ hmem'
  · exact hfound.mono (prefix_update (List.prefix_append _ _)) (List.subset_append_right _ _)
      (List.Subset.refl _)

variable [Bincode PeerId]

/-- **Each step of a handler** is answered among the probes. -/
theorem answers_step (h : Along p w d v) {c : EventContext PeerId} (hlocal : c.localPeerId = p)
    (hview : View p c.connected) (hstep : Dispatch.Step c d d') :
    Reaches replicationStep v (Along p w d') := by
  have hdeliver : ∀ operations, Reaches replicationStep v
      (Along p w (d.applyOperations c.wall operations)) := fun operations =>
    answers_quiet h (.single (e := (c.wall, .applyOperations operations)) (by simp) rfl) rfl le_rfl
      (List.append_nil _).symm (by simp) fun _ _ => id
  cases hstep with
  | dial addrs =>
    exact answers_quiet h (.refl _ _) rfl le_rfl rfl
      (fun a ha => by obtain ⟨addr, -, rfl⟩ := List.mem_map.1 ha; trivial) fun _ _ => id
  | publish hevent hdata htaken =>
    exact answers_quiet h (.refl _ _) rfl le_rfl rfl
      (fun a ha => by rw [List.mem_singleton.1 ha]; trivial) fun _ _ => id
  | gossip hevent hdata => exact hdeliver _
  | synchronizeWith peer =>
    exact answers_quiet h (.refl _ _) rfl (Nat.le_succ _) rfl
      (fun a ha => by rw [List.mem_singleton.1 ha]; trivial) fun _ _ => id
  | answerPull hevent =>
    exact answers_quiet h (.refl _ _) rfl le_rfl rfl
      (fun a ha => by rw [List.mem_singleton.1 ha]; trivial) fun _ _ => Found.takeReply
  | missingOperations hevent hne => exact hdeliver _
  | fetchChunk hevent =>
    exact answers_chunk h c _ rfl (List.append_nil _).symm (by simp) fun _ _ => Found.takeReply
  | servePull hevent =>
    refine answers_chunk h c _ rfl rfl (fun a ha => ?_) fun _ _ => Found.takeReply
    rw [List.mem_singleton.1 ha]
    unfold ChunkHandler.served
    split <;> trivial
  | chunkResponse hevent =>
    exact answers_chunk h c _ rfl (List.append_nil _).symm (by simp) fun _ _ => id
  | chunkFailure hevent =>
    exact answers_chunk h c _ rfl (List.append_nil _).symm (by simp) fun _ _ => id
  | answerCheck hevent =>
    rw [hlocal]
    exact answers_answerCheck h hevent
  | heldChunks hevent =>
    rw [hlocal]
    exact answers_heldChunks h hview hevent
  | probeFailure hevent => exact answers_probeFailure h _
  | rebalance hrebalance => exact answers_rebalance h hlocal hview hrebalance
  | probe hprobe => exact answers_probe h hlocal hview hprobe
  | timers lastSync nextRebalance nextEviction =>
    exact answers_quiet h (.refl _ _) rfl le_rfl (List.append_nil _).symm (by simp) fun _ _ => id

/-- **A tick of a dispatcher** is answered among the probes. -/
theorem answers_tick (h : Along p w d v) {c : EventContext PeerId} (hlocal : c.localPeerId = p)
    (hview : View p c.connected) (htick : Dispatcher.tick app c d = some d') :
    Reaches replicationStep v (Along p w d') := by
  exact tick_invariant (I := fun d => Reaches replicationStep v (Along p w d))
    (fun _ _ hstep hd => hd.bind fun _ hv => answers_step hv hlocal hview hstep) htick (.stay h)

/-- The relation between the program and the probes. -/
def Copies (w : Cluster PeerId) (v : ReplicationWorld PeerId) : Prop := ∃ ids, Counts ids w v

omit [LinearOrder PeerId] [PeerBytes PeerId] [UuidV5] [Sha256] [FastCdc] [Bincode PeerId] in
/-- The probes know nothing of the rest of the program. -/
theorem Counts.congr (h : Counts ids w v) {w' : Cluster PeerId}
    (hnodes : ∀ q, (w'.nodes q).toReplicationNode = (w.nodes q).toReplicationNode)
    (hrequests : w'.requests ⊆ w.requests) (hresponses : w'.responses ⊆ w.responses) :
    Counts ids w' v where
  nodes q := by rw [hnodes, h.nodes]
  numbering q := by
    rw [hnodes]
    exact h.numbering q
  requests m hm := h.requests m (hrequests hm)
  responses m hm := h.responses m (hresponses hm)

/-- **The program keeps to the probes**: they answer each of its events. -/
theorem simulates_copies :
    Simulates clusterStep replicationStep (Copies : Cluster PeerId → _ → Prop) := by
  rintro l w w' v ⟨ids, hcounts⟩ hstep
  cases l with
  | call p e =>
    obtain ⟨hfuse, fs, hfs, rfl⟩ := call_eq_some hstep
    have hcall : Calls (fun call => ∀ x, call ≠ .evictChunk x) (w.nodes p).filesystem fs := by
      refine .single (fun x hx => ?_) hfs
      rw [hx] at hfuse
      exact absurd hfuse (by simp [byFuse])
    have hstart : Along p w ⟨.tick, w.nodes p, []⟩ v :=
      ⟨ids, by rwa [dispatched_start], by simp, by simp⟩
    have hafter : Reaches replicationStep v
        (Along p w ⟨.tick, { w.nodes p with filesystem := fs }, []⟩) :=
      answers_quiet hstart hcall rfl le_rfl rfl (by simp) fun _ _ => id
    refine hafter.bind fun v' hv' => ?_
    obtain ⟨ids', hcounts', -⟩ := hv'
    exact .stay ⟨ids', hcounts'.congr (fun _ => rfl) (by simp [dispatched, perform, setNode])
      (by simp [dispatched, perform, setNode])⟩
  | broadcast p operations =>
    obtain ⟨-, b, -, rfl⟩ := broadcast_eq_some hstep
    exact .stay ⟨ids, hcounts.congr (fun _ => rfl) (List.Subset.refl _) (List.Subset.refl _)⟩
  | bridge p e =>
    obtain ⟨-, b, -, rfl⟩ := bridge_eq_some hstep
    exact .stay ⟨ids, hcounts.congr (update_same (·.toReplicationNode) rfl rfl)
      (List.Subset.refl _) (List.Subset.refl _)⟩
  | fetch p hash waiter =>
    obtain ⟨-, rfl⟩ := fetch_eq_some hstep
    exact .stay ⟨ids, hcounts.congr (update_same (·.toReplicationNode) rfl rfl)
      (List.Subset.refl _) (List.Subset.refl _)⟩
  | tick p c input =>
    obtain ⟨hlocal, hview, e, w₁, d, harrive, htick, rfl⟩ := tick_eq_some hstep
    have ha := arrives harrive
    have hstart : Along p w₁ ⟨e, w₁.nodes p, []⟩ v := by
      refine ⟨ids, ?_, ⟨fun hashes reply he => ?_, fun requestId hashes he => ?_⟩⟩
      · rw [dispatched_start]
        exact hcounts.congr ha.toReplicationNode ha.requests ha.responses
      · exact hcounts.requests _ (ha.request _ _ he) hashes rfl
      · obtain ⟨q, -, hq⟩ := ha.response _ _ he
        obtain ⟨k, hk, hm⟩ := hcounts.responses _ hq hashes rfl
        exact ⟨k, q, hk, hm⟩
    refine (answers_tick hstart hlocal hview htick).bind fun v' hv' => ?_
    obtain ⟨ids', hcounts', -⟩ := hv'
    exact .stay ⟨ids', hcounts'⟩

/-- The nodes that have a chunk pinned. -/
def holders (w : Cluster PeerId) (h : ChunkHash) : Set PeerId :=
  {p | (w.nodes p).filesystem.isPinned h}

/-- The nodes that have had a chunk pinned at some time of a run. -/
def everHolders (events : List (ClusterEvent PeerId)) (w₀ : Cluster PeerId) (h : ChunkHash) :
    Set PeerId :=
  {p | ∃ before w, before <+: events ∧ run clusterStep before w₀ = some w ∧ p ∈ w.holders h}

omit [LinearOrder PeerId] [PeerBytes PeerId] [UuidV5] [Sha256] [FastCdc] [Bincode PeerId] in
theorem Counts.holders_eq (h : Counts ids w v) (x : ChunkHash) : w.holders x = v.holders x := by
  ext q
  rw [ReplicationWorld.mem_holders, h.nodes]
  rfl

omit [LinearOrder PeerId] [PeerBytes PeerId] [UuidV5] [Sha256] [FastCdc] [Bincode PeerId] in
theorem copies_init (maxPinnedBytes start : PeerId → ℕ) :
    Copies (init maxPinnedBytes start) (ReplicationWorld.init maxPinnedBytes) :=
  ⟨fun _ => [], fun _ => rfl, fun _ => numbering_new _, fun _ hm => absurd hm List.not_mem_nil,
    fun _ hm => absurd hm List.not_mem_nil⟩

variable {maxPinnedBytes start : PeerId → ℕ} {events : List (ClusterEvent PeerId)}
  {w' : Cluster PeerId}

/-- A run of the program is answered among the probes, where whoever has held a chunk has held it
too. -/
theorem exists_answers (hrun : run clusterStep events (init maxPinnedBytes start) = some w) :
    ∃ events' v, run replicationStep events' (ReplicationWorld.init maxPinnedBytes) = some v ∧
      Copies w v ∧ ∀ x, everHolders events (init maxPinnedBytes start) x ⊆
        ReplicationWorld.everHolders events' (ReplicationWorld.init maxPinnedBytes) x := by
  obtain ⟨events', v, hrun', hcopies, hbefores⟩ :=
    simulates_copies.answers (copies_init maxPinnedBytes start) hrun
  refine ⟨events', v, hrun', hcopies, fun x q => ?_⟩
  rintro ⟨before, u, hbefore, hu, hq⟩
  obtain ⟨before', u', hbefore', hu', ids, hcounts⟩ := hbefores before u hbefore hu
  exact ⟨before', u', hbefore', hu', hcounts.holders_eq x ▸ hq⟩

variable [LawfulCrdtTree PeerId] [LawfulPeerBytes PeerId]

/-- **The program never loses copies.** In every run of it, as many nodes have a chunk pinned as
have ever had it pinned, or at least two. -/
theorem program_keeps_copies
    (hrun : run clusterStep events (init maxPinnedBytes start) = some w) (x : ChunkHash) :
    min 2 (everHolders events (init maxPinnedBytes start) x).encard ≤ (w.holders x).encard := by
  obtain ⟨events', v, hrun', ⟨ids, hcounts⟩, hever⟩ := exists_answers hrun
  have hinv := ReplicationWorld.inv_run hrun'
  rw [hcounts.holders_eq]
  exact (min_le_min_left 2 (Set.encard_le_encard (hever x))).trans
    (Ranking.min_two_le_encard (hinv.finite x) (hinv.left x))

/-- **How the program loses a copy.** In every run, a node loses a pinned chunk only in a tick in
which a `HeldChunks` response arrives, and then two other nodes that rank above it for this chunk
have it pinned. -/
theorem program_evicts_above
    (hrun : run clusterStep events (init maxPinnedBytes start) = some w) {l : ClusterEvent PeerId}
    (hstep : clusterStep l w = some w') {a : PeerId} {x : ChunkHash} (hx : a ∈ w.holders x)
    (hnot : a ∉ w'.holders x) :
    (∃ c m hashes, l = .tick a c (.response m) ∧ m.response = .heldChunks hashes) ∧
      Ranking.TwoAbove (rank x) (w'.holders x) a := by
  have hrun' := run_concat_eq_some.2 ⟨w, hrun, hstep⟩
  refine ⟨?_, ?_⟩
  · have hinv := inv_run hrun a
    rcases filesystem_cases hstep a with hsame | ⟨e, -, hfuse, hcall⟩ |
      ⟨c, input, e, w₁, rfl, harrive, hcalls⟩
    · exact absurd (show (w'.nodes a).filesystem.isPinned x from hsame ▸ hx) hnot
    · have hkept := (Calls.single (P := fun call => byFuse call) hfuse hcall).isPinned hinv
        (by simp [byFuse]) hx
      exact absurd hkept hnot
    · -- only an answer to a probe evicts
      have hevent : ∃ requestId hashes, e = .response requestId (.heldChunks hashes) := by
        by_contra hother
        refine hnot (hcalls.isPinned hinv (fun y hy => ?_) hx)
        cases hy with
        | chunk h => exact h
        | evict _ h => exact hother ⟨_, _, h⟩
      obtain ⟨requestId, hashes, rfl⟩ := hevent
      obtain ⟨q, rfl, -⟩ := (arrives harrive).response _ _ rfl
      exact ⟨c, _, hashes, rfl, rfl⟩
  · obtain ⟨events', v, hrunv, ⟨ids, hcounts⟩, hever⟩ := exists_answers hrun'
    have hinv := ReplicationWorld.inv_run hrunv
    rw [hcounts.holders_eq] at hnot ⊢
    exact Ranking.exists_two_stayed (hinv.finite x) (hinv.left x)
      (hever x ⟨events, w, List.prefix_append _ _, hrun, hx⟩) hnot

end Cluster

end Edfs.Network

namespace Edfs.Network.Cluster

open Execution Reference
open ReplicationWorld (piece)

/-- Three nodes have the chunk. Node 0 probes the others, and hears from the first of them. -/
def probing : List (ClusterEvent ℕ) :=
  writes 0 ++ writes 1 ++ writes 2 ++
    [.tick 0 (context 0 [1, 2] [piece]) .timeout,
      .tick 1 (context 1 [0] [piece]) (.request ⟨0, 0, 1, .checkChunks [piece]⟩),
      .tick 2 (context 2 [0] [piece]) (.request ⟨1, 0, 2, .checkChunks [piece]⟩),
      .tick 0 (context 0 [1, 2] [piece]) (.response ⟨0, 0, 1, .heldChunks [piece]⟩)]

/-- It hears from the second. -/
def second : ClusterEvent ℕ :=
  .tick 0 (context 0 [1, 2] [piece]) (.response ⟨1, 0, 2, .heldChunks [piece]⟩)

theorem program_keeps_copies_probing : ∃ w,
    run clusterStep (probing ++ [second]) (init (fun _ => 100) fun _ => 0) = some w ∧
    min 2 (everHolders (probing ++ [second]) (init (fun _ => 100) fun _ => 0) piece).encard ≤
      (w.holders piece).encard := by
  obtain ⟨w, hrun⟩ := Option.isSome_iff_exists.1 (show (run clusterStep (probing ++ [second])
    (init (fun _ => 100) fun _ => 0)).isSome by rfl)
  exact ⟨w, hrun, program_keeps_copies hrun piece⟩

/-- Node 0 evicts the chunk. -/
theorem program_evicts_above_second : ∃ w w',
    run clusterStep probing (init (fun _ => 100) fun _ => 0) = some w ∧
    clusterStep second w = some w' ∧
    (∃ c m hashes, second = .tick 0 c (.response m) ∧ m.response = .heldChunks hashes) ∧
    Ranking.TwoAbove (rank piece) (w'.holders piece) 0 := by
  have hholds : (run clusterStep probing (init (fun _ => 100) fun _ => 0)).any
      fun w => decide ((w.nodes 0).filesystem.isPinned piece) := by rfl
  have hevicts : (run clusterStep (probing ++ [second]) (init (fun _ => 100) fun _ => 0)).any
      fun w => !decide ((w.nodes 0).filesystem.isPinned piece) := by rfl
  obtain ⟨w', hrun', hnot⟩ := (Option.any_eq_true _ _).1 hevicts
  obtain ⟨w, hrun, hstep⟩ := run_concat_eq_some.1 hrun'
  have hx : 0 ∈ w.holders piece := by
    obtain ⟨u, hrun₁, hx⟩ := (Option.any_eq_true _ _).1 hholds
    cases hrun.symm.trans hrun₁
    simpa [holders] using hx
  exact ⟨w, w', hrun, hstep, program_evicts_above hrun hstep hx (by simpa [holders] using hnot)⟩

end Edfs.Network.Cluster
