import Edfs.Network.Dispatcher

/-!
# What the handlers send

A node sends its requests under consecutive ids, whichever handler sends them, and answers a
request by what its file system has.

* `answer`: the response to each kind of request;
* `sent_handle`, `sent_probe`: the ids of fetches and of probes;
* `Acts`, `acts_step`: what a step of a handler sends;
* `ids_tick`, `replies_tick`, `published_tick`, `commands_tick`: what a whole tick sends.
-/

namespace Edfs.Network

open ReplicationNode

variable {PeerId : Type} [CrdtTree PeerId] [LinearOrder PeerId] [PeerBytes PeerId] [Sha256]

/-- What a request asks of a file system. -/
def answer (fs : FileSystem PeerId) : Request PeerId → Response PeerId
  | .pullChunk hash => ChunkHandler.served hash fs
  | .checkChunks hashes => .heldChunks (hashes.filter fun hash => fs.isPinned hash)
  | .pullMissingOperations knownIds => .missingOperations (fs.operationsMissingFrom knownIds)

omit [PeerBytes PeerId] [Sha256] in
/-- Only a pull is answered by operations. -/
theorem answer_eq_missingOperations [PeerBytes PeerId] [Sha256] {fs : FileSystem PeerId}
    {r : Request PeerId} {operations : List (NodeOperation PeerId)}
    (h : answer fs r = .missingOperations operations) : ∃ knownIds,
      r = .pullMissingOperations knownIds ∧ operations = fs.operationsMissingFrom knownIds := by
  cases r with
  | pullChunk hash =>
    simp only [answer, ChunkHandler.served] at h
    split at h <;> cases h
  | checkChunks hashes => cases h
  | pullMissingOperations knownIds =>
    cases h
    exact ⟨knownIds, rfl, rfl⟩

/-! ### Ids -/

section

omit [CrdtTree PeerId]

theorem sent_walkDown (s : Surroundings PeerId) (now : ℕ) (hash : ChunkHash)
    (f : ChunkFetcher PeerId) :
    (f.walkDown s now hash).2.sent.map PullChunk.requestId <+: s.ids := by
  unfold ChunkFetcher.walkDown
  split
  · exact List.nil_prefix
  · dsimp only
    split_ifs
    · exact List.nil_prefix
    · exact List.nil_prefix
    · rw [List.map_map]
      exact ChunkFetcher.zip_ids_start _ _

theorem sent_onAttemptFailed (s : Surroundings PeerId) (hash : ChunkHash) (requestId : ℕ)
    (f : ChunkFetcher PeerId) :
    (f.onAttemptFailed s hash requestId).2.sent.map PullChunk.requestId <+: s.ids := by
  unfold ChunkFetcher.onAttemptFailed
  split
  · exact List.nil_prefix
  · dsimp only
    split_ifs
    · exact List.nil_prefix
    · exact sent_walkDown s _ hash _

theorem sent_handleFailure (s : Surroundings PeerId) (requestId : ℕ) (f : ChunkFetcher PeerId) :
    (f.handleFailure s requestId).2.sent.map PullChunk.requestId <+: s.ids := by
  unfold ChunkFetcher.handleFailure
  split
  · exact List.nil_prefix
  · exact sent_onAttemptFailed s _ requestId _

theorem sent_fetchChunk (s : Surroundings PeerId) (hash : ChunkHash) (reply : Option ℕ)
    (pin : Bool) (f : ChunkFetcher PeerId) :
    (f.fetchChunk s hash reply pin).2.sent.map PullChunk.requestId <+: s.ids := by
  unfold ChunkFetcher.fetchChunk
  split
  · exact List.nil_prefix
  · split_ifs
    · exact List.nil_prefix
    · exact sent_walkDown s _ hash _

end

theorem sent_handleResponse (s : Surroundings PeerId) (requestId : ℕ) (data : Bytes)
    (f : ChunkFetcher PeerId) (fs : FileSystem PeerId) :
    (f.handleResponse s requestId data fs).2.2.sent.map PullChunk.requestId <+: s.ids := by
  unfold ChunkFetcher.handleResponse
  split
  · exact List.nil_prefix
  · rename_i hash hrequest
    dsimp only
    split_ifs
    · exact sent_onAttemptFailed s hash requestId _
    · split
      · exact List.nil_prefix
      · unfold ChunkFetcher.finish
        dsimp only
        split_ifs
        · generalize fs.pinChunk data = r
          obtain ⟨_ | _, _⟩ := r <;> exact List.nil_prefix
        · exact List.nil_prefix

/-- **Fetches** take their ids in order. -/
theorem sent_handle (s : Surroundings PeerId) (e : ChunkEvent PeerId) (f : ChunkFetcher PeerId)
    (fs : FileSystem PeerId) :
    (ChunkHandler.handle s e f fs).2.2.sent.map PullChunk.requestId <+: s.ids := by
  rcases e with ⟨hash, reply, pin⟩ | hash | ⟨requestId, data | _ | _ | _⟩ | requestId
  · exact sent_fetchChunk s hash reply pin f
  · exact List.nil_prefix
  · exact sent_handleResponse s requestId data f fs
  · exact List.nil_prefix
  · exact List.nil_prefix
  · exact sent_handleFailure s requestId f
  · exact sent_handleFailure s requestId f

omit [LinearOrder PeerId] [PeerBytes PeerId] [Sha256] in
theorem sent_sendProbes (peerId : PeerId) (probes : List (PeerId × List ChunkHash))
    (node : ReplicationNode PeerId) :
    (sendProbes peerId probes node).2.map CheckChunks.requestId =
        List.range' node.nextRequestId probes.length ∧
      (sendProbes peerId probes node).1.nextRequestId = node.nextRequestId + probes.length := by
  induction probes generalizing node with
  | nil => exact ⟨rfl, rfl⟩
  | cons b probes ih =>
    obtain ⟨peer, batch⟩ := b
    obtain ⟨h₁, h₂⟩ := ih { node with
      handler.pendingProbes :=
        Function.update node.handler.pendingProbes node.nextRequestId (some peer)
      nextRequestId := node.nextRequestId + 1 }
    refine ⟨?_, ?_⟩
    · rw [List.length_cons, List.range'_succ]
      exact congrArg (node.nextRequestId :: ·) h₁
    · rw [List.length_cons, Nat.add_comm probes.length, ← Nat.add_assoc]
      exact h₂

/-- **Probes** take their ids in order. -/
theorem sent_probe (peerId : PeerId) (connected : List PeerId) (pinned : List ChunkHash)
    (node : ReplicationNode PeerId) : ∃ n,
      (node.probeEvictionCandidates peerId connected pinned).2.map CheckChunks.requestId =
        List.range' node.nextRequestId n ∧
      (node.probeEvictionCandidates peerId connected pinned).1.nextRequestId =
        node.nextRequestId + n := by
  unfold probeEvictionCandidates
  dsimp only
  split_ifs
  · exact ⟨0, rfl, rfl⟩
  · exact ⟨_, sent_sendProbes peerId _ _⟩

/-! ### A step of a handler -/

namespace Action

omit [CrdtTree PeerId] [LinearOrder PeerId] [PeerBytes PeerId] [Sha256]

/-- The id of a request. -/
def requestId : Action PeerId → Option ℕ
  | .sendRequest id _ _ => some id
  | _ => none

/-- The channel on which a response is sent, and the response. -/
def reply : Action PeerId → Option (ResponseChannel PeerId × Response PeerId)
  | .sendResponse channel r => some (channel, r)
  | _ => none

/-- What is published. -/
def data : Action PeerId → Option Bytes
  | .publish data => some data
  | _ => none

end Action

/-- What a step of a handler sends: requests under the next ids, a pull that names what the node
has, and at most one response, to the request that is on its way and then has been answered. Only a
command makes it publish. -/
structure Acts (d d' : Dispatch PeerId) (sent : List (Action PeerId)) : Prop where
  actions : d'.actions = d.actions ++ sent
  ids : ∃ n, sent.filterMap Action.requestId = List.range' d.node.nextRequestId n ∧
    d'.node.nextRequestId = d.node.nextRequestId + n
  pulls : ∀ id peer knownIds, Action.sendRequest id peer (.pullMissingOperations knownIds) ∈ sent →
    knownIds = d.node.filesystem.operationIds
  published : (∀ operations, d.event ≠ .command (.broadcastOperations operations)) →
    sent.filterMap Action.data = []
  replies : (sent.filterMap Action.reply = [] ∧
      ∀ r channel, d'.event = .request r channel → d.event = .request r channel) ∨
    ∃ r channel, d.event = .request r (some channel) ∧ d'.event = .request r none ∧
      sent.filterMap Action.reply = [(channel, answer d.node.filesystem r)]

variable [Bincode PeerId] {c : EventContext PeerId} {d d' : Dispatch PeerId}

omit [PeerBytes PeerId] [Sha256] [Bincode PeerId] in
/-- A step that sends nothing to the swarm. -/
theorem acts_nil (hactions : d'.actions = d.actions) (hevent : d'.event = d.event)
    (hnext : d'.node.nextRequestId = d.node.nextRequestId) : Acts d d' [] :=
  ⟨by simp [hactions], ⟨0, rfl, hnext⟩, by simp, fun _ => rfl,
    Or.inl ⟨rfl, fun _ _ h => hevent ▸ h⟩⟩

omit [CrdtTree PeerId] [LinearOrder PeerId] [PeerBytes PeerId] [Sha256] [Bincode PeerId] in
theorem eq_range'_of_prefix {l : List ℕ} {first n : ℕ} (h : l <+: List.range' first n) :
    l = List.range' first l.length :=
  List.ext_getElem (by simp) fun i hi _ => by rw [h.getElem hi]; simp

omit [Bincode PeerId] in
/-- The chunk handler gives its requests the next ids. -/
theorem ids_chunkOutput (c : EventContext PeerId) (e : ChunkEvent PeerId) (d : Dispatch PeerId) :
    (d.chunkOutput c e).sent.map PullChunk.requestId =
      List.range' d.node.nextRequestId (d.chunkOutput c e).sent.length := by
  have hids := eq_range'_of_prefix (sent_handle
    ⟨c.connected, List.range' d.node.nextRequestId maxFetchTargets, c.clock⟩ e d.node.fetcher
    d.node.filesystem)
  rwa [List.length_map] at hids

omit [Bincode PeerId] in
/-- The chunk handler's part. -/
theorem acts_chunk (c : EventContext PeerId) (e : ChunkEvent PeerId) {d d₁ : Dispatch PeerId}
    (hnode : d₁.node = d.node) (hactions : d₁.actions = d.actions)
    (hevent : ∀ r channel, d₁.event = .request r channel → d.event = .request r channel) :
    ∃ sent, Acts d (d₁.chunk c e) sent := by
  refine ⟨_, by rw [Dispatch.actions_chunk, hactions], ⟨(d₁.chunkOutput c e).sent.length, ?_, ?_⟩,
    fun id peer knownIds hmem => ?_, fun _ => ?_, Or.inl ⟨?_, hevent⟩⟩
  · rw [← hnode, ← ids_chunkOutput, List.filterMap_append, List.filterMap_map,
      List.filterMap_map]
    simp [Function.comp_def, Action.requestId]
  · rw [← hnode]
    rfl
  · simp at hmem
  · simp [List.filterMap_map, Function.comp_def, Action.data]
  · simp [List.filterMap_map, Function.comp_def, Action.reply]

/-- **What a step of a handler sends.** -/
theorem acts_step (h : Dispatch.Step c d d') : ∃ sent, Acts d d' sent := by
  cases h with
  | dial addrs =>
    refine ⟨_, rfl, ⟨0, ?_, rfl⟩, ?_, fun _ => ?_, Or.inl ⟨?_, fun _ _ => id⟩⟩ <;>
      simp [Action.requestId, Action.reply, Action.data]
  | publish hevent hdata htaken =>
    exact ⟨_, rfl, ⟨0, rfl, rfl⟩, by simp, fun hne => absurd hevent (hne _),
      Or.inl ⟨rfl, fun _ _ => id⟩⟩
  | gossip hevent hdata => exact ⟨[], acts_nil rfl rfl rfl⟩
  | synchronizeWith peer =>
    refine ⟨_, rfl, ⟨1, rfl, rfl⟩, fun id peer knownIds hmem => ?_, fun _ => rfl,
      Or.inl ⟨rfl, fun _ _ => id⟩⟩
    cases List.mem_singleton.1 hmem
    rfl
  | answerPull hevent =>
    refine ⟨_, rfl, ⟨0, rfl, rfl⟩, by simp, fun _ => rfl, Or.inr ⟨_, _, hevent, ?_, rfl⟩⟩
    simp [Dispatch.respond, Dispatch.takeReply, Dispatch.act, hevent]
  | missingOperations hevent hne => exact ⟨[], acts_nil rfl rfl rfl⟩
  | fetchChunk hevent =>
    refine acts_chunk c _ rfl rfl fun r channel h => ?_
    simp [Dispatch.takeReply, hevent] at h
  | @servePull hash reply hevent =>
    refine ⟨[.sendResponse reply (ChunkHandler.served hash d.node.filesystem)], ?_, ⟨0, rfl, rfl⟩,
      by simp, fun _ => rfl, Or.inr ⟨_, _, hevent, ?_, rfl⟩⟩
    · rw [Dispatch.actions_chunk]
      simp [Dispatch.chunkOutput, ChunkHandler.handle, FetchOutput.none, Dispatch.respond,
        Dispatch.act, Dispatch.takeReply]
    · simp [Dispatch.respond, Dispatch.takeReply, Dispatch.act, Dispatch.chunk, Dispatch.setNode,
        hevent]
  | chunkResponse hevent => exact acts_chunk c _ rfl rfl fun _ _ => id
  | chunkFailure hevent => exact acts_chunk c _ rfl rfl fun _ _ => id
  | answerCheck hevent =>
    refine ⟨_, rfl, ⟨0, rfl, rfl⟩, by simp, fun _ => rfl, Or.inr ⟨_, _, hevent, ?_, rfl⟩⟩
    simp [Dispatch.respond, Dispatch.takeReply, Dispatch.act, hevent]
  | @heldChunks requestId hashes hevent =>
    obtain ⟨_, -, hevicts⟩ :=
      handleHeld_spec c.localPeerId c.connected requestId hashes d.node.toReplicationNode
    exact ⟨[], acts_nil rfl rfl hevicts.nextRequestId⟩
  | probeFailure hevent => exact ⟨[], acts_nil rfl rfl rfl⟩
  | rebalance h =>
    obtain ⟨-, rfl⟩ := Dispatch.rebalance_eq_some h
    exact ⟨[], acts_nil rfl rfl (rebalance_spec ..).nextRequestId⟩
  | probe h =>
    obtain ⟨-, rfl⟩ := Dispatch.probe_eq_some h
    obtain ⟨n, hids, hnext⟩ :=
      sent_probe c.localPeerId c.connected c.pinned d.node.toReplicationNode
    refine ⟨_, rfl, ⟨n, ?_, hnext⟩, by simp, fun _ => ?_, Or.inl ⟨?_, fun _ _ => id⟩⟩
    · rw [List.filterMap_map, ← hids]
      simp [Function.comp_def, Action.requestId]
    · simp [List.filterMap_map, Function.comp_def, Action.data]
    · simp [List.filterMap_map, Function.comp_def, Action.reply]
  | timers lastSync nextRebalance nextEviction => exact ⟨[], acts_nil rfl rfl rfl⟩

/-! ### A tick -/

variable {e : Event PeerId} {n : Node PeerId} {d₁ : Dispatch PeerId}

/-- **The requests of a tick** take the next ids in order. -/
theorem ids_tick (h : Dispatcher.tick app c ⟨e, n, []⟩ = some d') :
    ∃ k, d'.actions.filterMap Action.requestId = List.range' n.nextRequestId k ∧
      d'.node.nextRequestId = n.nextRequestId + k := by
  refine tick_invariant (I := fun d => ∃ k,
      d.actions.filterMap Action.requestId = List.range' n.nextRequestId k ∧
      d.node.nextRequestId = n.nextRequestId + k) ?_ h ⟨0, rfl, rfl⟩
  rintro d₁ d₂ hstep ⟨k, hids, hnext⟩
  obtain ⟨sent, hacts⟩ := acts_step hstep
  obtain ⟨k', hids', hnext'⟩ := hacts.ids
  refine ⟨k + k', ?_, by omega⟩
  rw [hacts.actions, List.filterMap_append, hids, hids', hnext, List.range'_append_1]

/-- The responses that an event asks for. -/
def repliesTo (fs : FileSystem PeerId) :
    Event PeerId → List (ResponseChannel PeerId × Response PeerId)
  | .request r (some channel) => [(channel, answer fs r)]
  | _ => []

omit [PeerBytes PeerId] [Sha256] [Bincode PeerId] in
theorem repliesTo_eq_nil {fs : FileSystem PeerId}
    (h : ∀ r channel, e ≠ .request r (some channel)) : repliesTo fs e = [] := by
  rcases e with _ | _ | ⟨r, _ | channel⟩ | _ | _ | _
  case request.some => exact absurd rfl (h r channel)
  all_goals rfl

/-- An event that is no request, or has been answered, is not answered. -/
theorem replies_of_steps (h : Relation.ReflTransGen (Dispatch.Step c) d d')
    (hevent : ∀ r channel, d.event ≠ .request r (some channel)) :
    d'.actions.filterMap Action.reply = d.actions.filterMap Action.reply := by
  have key : d'.actions.filterMap Action.reply = d.actions.filterMap Action.reply ∧
      ∀ r channel, d'.event ≠ .request r (some channel) := by
    induction h with
    | refl => exact ⟨rfl, hevent⟩
    | tail _ hstep ih =>
      obtain ⟨hreplies, hne⟩ := ih
      obtain ⟨sent, hacts⟩ := acts_step hstep
      obtain ⟨hnone, hkeep⟩ | ⟨r, channel, hr, -⟩ := hacts.replies
      · refine ⟨?_, fun r channel hr => hne r channel (hkeep _ _ hr)⟩
        rw [hacts.actions, List.filterMap_append, hnone, List.append_nil, hreplies]
      · exact absurd hr (hne r channel)
  exact key.1

/-- **The responses of a tick**: to a request the answer of the file system as it is, on the
channel of the request, and none to anything else. -/
theorem replies_tick (h : Dispatcher.tick app c ⟨e, n, []⟩ = some d') :
    d'.actions.filterMap Action.reply = repliesTo n.filesystem e := by
  by_cases hrequest : ∃ r channel, e = .request r (some channel)
  · obtain ⟨r, channel, rfl⟩ := hrequest
    rw [tick_app] at h
    obtain ⟨d₁, h₁, h⟩ := Option.bind_eq_some_iff.1 h
    obtain ⟨d₂, h₂, h₃⟩ := Option.bind_eq_some_iff.1 h
    have hfirst : d₁.actions.filterMap Action.reply = [(channel, answer n.filesystem r)] ∧
        d₁.event = .request r none := by
      cases r <;> cases h₁ <;> exact ⟨rfl, rfl⟩
    rw [replies_of_steps ((steps_syncHandler h₂).trans (steps_replicationHandler h₃))
      (by simp [hfirst.2]), hfirst.1]
    rfl
  · have hne : ∀ r channel, e ≠ .request r (some channel) := fun r channel hr =>
      hrequest ⟨r, channel, hr⟩
    rw [replies_of_steps (steps_tick h) hne, repliesTo_eq_nil hne]
    rfl

/-! ### Gossip and commands -/

omit [Bincode PeerId] in
/-- By their timers, the handlers publish nothing. -/
theorem data_timers (h₁ : syncHandler.tick c d = some d₁)
    (h₂ : replicationHandler.tick c d₁ = some d') :
    d'.actions.filterMap Action.data = d.actions.filterMap Action.data := by
  have hsync : d₁.actions.filterMap Action.data = d.actions.filterMap Action.data := by
    obtain rfl | ⟨lastSync, rfl | ⟨peer, -, rfl⟩⟩ := syncHandler_tick_eq_some h₁
    · rfl
    · rfl
    · simp [Dispatch.synchronizeWith, Dispatch.act, Dispatch.setNode, Action.data]
  obtain ⟨d₂, hrebalance, hprobe⟩ := replicationHandler_tick_eq_some h₂
  have hsame : d₂.actions = d₁.actions := by
    obtain rfl | ⟨next, h⟩ := hrebalance
    · rfl
    · obtain ⟨-, rfl⟩ := Dispatch.rebalance_eq_some h
      rfl
  rw [← hsync, ← hsame]
  obtain rfl | ⟨next, h⟩ := hprobe
  · rfl
  · obtain ⟨-, rfl⟩ := Dispatch.probe_eq_some h
    simp [Dispatch.act, Dispatch.setNode, List.filterMap_map, Function.comp_def, Action.data]

/-- What becomes of a batch: it is published if it can be encoded and the swarm takes it. -/
def publication (c : EventContext PeerId) (operations : List (NodeOperation PeerId)) :
    Option Bytes := (Bincode.encode operations).filter fun data => c.publish data

/-- What an event asks to be published. -/
def publishes (c : EventContext PeerId) : Event PeerId → List Bytes
  | .command (.broadcastOperations operations) => (publication c operations).toList
  | _ => []

/-- **What a tick publishes**: the operations of the command it has found, if they can be encoded
and the swarm takes them, and nothing else. -/
theorem published_tick (h : Dispatcher.tick app c ⟨e, n, []⟩ = some d') :
    d'.actions.filterMap Action.data = publishes c e := by
  by_cases hcommand : ∃ operations, e = .command (.broadcastOperations operations)
  · obtain ⟨operations, rfl⟩ := hcommand
    rw [tick_app] at h
    obtain ⟨d₁, h₁, h⟩ := Option.bind_eq_some_iff.1 h
    obtain ⟨d₂, h₂, h₃⟩ := Option.bind_eq_some_iff.1 h
    rw [data_timers h₂ h₃]
    simp only [handled, gossipHandler] at h₁
    unfold publishes publication
    split at h₁
    · cases h₁
      simp [*]
    · split_ifs at h₁ with htaken <;> cases h₁ <;>
        simp [Dispatch.act, Action.data, Option.filter, *]
  · -- no other event makes a handler publish
    have hnone : publishes c e = [] := by
      rcases e with _ | _ | _ | _ | _ | (operations | _)
      case command.broadcastOperations => exact absurd ⟨operations, rfl⟩ hcommand
      all_goals rfl
    rw [hnone]
    refine (tick_invariant (I := fun d => d.actions.filterMap Action.data = [] ∧
      ∀ operations, d.event ≠ .command (.broadcastOperations operations)) ?_ h
      ⟨rfl, fun operations he => hcommand ⟨operations, he⟩⟩).1
    rintro d₁ d₂ hstep ⟨hactions, hevent⟩
    obtain ⟨sent, hacts⟩ := acts_step hstep
    refine ⟨by rw [hacts.actions, List.filterMap_append, hactions, hacts.published hevent]; rfl,
      fun operations he => ?_⟩
    rcases event_step hstep with heq | heq
    · exact hevent operations (heq ▸ he)
    · rw [heq] at he
      obtain ⟨_ | _ | _ | _ | _ | (_ | _), _, _⟩ := d₁ <;> cases he
      exact hevent _ rfl

/-- **The commands of a tick** are fetches. -/
theorem commands_tick (h : Dispatcher.tick app c ⟨e, n, []⟩ = some d') :
    ∃ fetches : List ChunkHash,
      d'.node.commands = n.commands ++ fetches.map fun hash => .fetchChunk hash none true := by
  refine tick_invariant (I := fun d => ∃ fetches : List ChunkHash,
    d.node.commands = n.commands ++ fetches.map fun hash => .fetchChunk hash none true) ?_ h
      ⟨[], by simp⟩
  rintro d₁ d₂ hstep ⟨fetches, hd⟩
  cases hstep with
  | @rebalance _ i now h =>
    obtain ⟨-, rfl⟩ := Dispatch.rebalance_eq_some h
    refine ⟨fetches ++ (d₁.node.toReplicationNode.rebalance c.localPeerId c.connected now
      (c.trySend i) (c.live i)).2, ?_⟩
    rw [List.map_append, ← List.append_assoc, ← hd]
    rfl
  | probe h =>
    obtain ⟨-, rfl⟩ := Dispatch.probe_eq_some h
    exact ⟨fetches, hd⟩
  | _ => exact ⟨fetches, hd⟩

end Edfs.Network
