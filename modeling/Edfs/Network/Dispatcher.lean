import Edfs.Network.Copies
import Edfs.Network.Event

/-!
# The dispatcher

`network/dispatcher.rs` and the `EventHandler`s it runs: a node takes an event, shows it to all its
handlers in turn, and then gives each of them a tick. The handlers share the file system and the
swarm. A handler may take the reply out of an event, which the next ones then no longer find.

What a handler asks the clock, the random numbers or the order of a hash set for is in
`EventContext`; a tick has no result where that context does not fit the node. Request ids are
given out by the swarm, one after the other, whoever sends the request.

* `Node`, `Action`, `Dispatch`, `EventHandler`; the five handlers, and `Dispatcher.tick`;
* `app`, the dispatcher of `app.rs`; `handled` and `tick_app`: what it does with each event;
* `Dispatch.Step`: all that a handler may do; `tick_invariant`: what every such step preserves, a
  tick preserves.
-/

namespace Edfs.Network

open ReplicationWorld

/-- `SYNC_INTERVAL`, in milliseconds. -/
def syncInterval : ℕ := 15000

/-- `REPLICATION_REBALANCE_INTERVAL`, in milliseconds. -/
def replicationRebalanceInterval : ℕ := 5000

/-- `REPLICATION_EVICTION_INTERVAL`, in milliseconds. -/
def replicationEvictionInterval : ℕ := 30000

def swarmChannelCapacity : ℕ := 256

/-- The file system, what the handlers keep, and the channel of commands. -/
structure Node (PeerId : Type) [CrdtTree PeerId] extends ReplicationNode PeerId where
  fetcher : ChunkFetcher PeerId
  lastSync : ℕ
  nextRebalance : ℕ
  nextEviction : ℕ
  commands : List (SwarmCommand PeerId)

/-- What the handlers do beside changing the node; the last is an answer to a waiter. -/
inductive Action (PeerId : Type)
  | sendRequest (requestId : ℕ) (peer : PeerId) (request : Request PeerId)
  | sendResponse (channel : ResponseChannel PeerId) (response : Response PeerId)
  | publish (data : Bytes)
  | dial (addr : Multiaddr)
  | answer (waiter : ℕ) (data : Option Bytes)

/-- What the handlers find around them. `clock` are the readings of `Instant::now`, `wall` those of
`SystemTime::now`; `live` and `pinned` are orders of hash sets; `trySend` says whether the channel
takes a command, and `publish` whether `gossipsub` takes a message. -/
structure EventContext (PeerId : Type) where
  localPeerId : PeerId
  connected : List PeerId
  clock : ℕ → ℕ
  wall : ℕ → ℕ
  random : ℕ
  live : ℕ → List ChunkHash
  pinned : List ChunkHash
  trySend : ℕ → ChunkHash → Bool
  publish : Bytes → Bool

/-- An event on its way through the handlers. -/
structure Dispatch (PeerId : Type) [CrdtTree PeerId] where
  event : Event PeerId
  node : Node PeerId
  actions : List (Action PeerId)

/-- The trait, with its default methods. -/
structure EventHandler (PeerId : Type) [CrdtTree PeerId] where
  handle : EventContext PeerId → Dispatch PeerId → Option (Dispatch PeerId) := fun _ => some
  tick : EventContext PeerId → Dispatch PeerId → Option (Dispatch PeerId) := fun _ => some

/-- The handlers, in the order in which they are registered. -/
abbrev Dispatcher (PeerId : Type) [CrdtTree PeerId] := List (EventHandler PeerId)

def Dispatcher.tick {PeerId : Type} [CrdtTree PeerId] (handlers : Dispatcher PeerId)
    (c : EventContext PeerId) (d : Dispatch PeerId) : Option (Dispatch PeerId) := do
  let d ← handlers.foldlM (fun d handler => handler.handle c d) d
  handlers.foldlM (fun d handler => handler.tick c d) d

variable {PeerId : Type} [CrdtTree PeerId]

namespace Dispatch

/-- Ask something of the swarm. -/
def act (d : Dispatch PeerId) (actions : List (Action PeerId)) : Dispatch PeerId :=
  { d with actions := d.actions ++ actions }

def setNode (d : Dispatch PeerId) (n : Node PeerId) : Dispatch PeerId := { d with node := n }

/-- `reply.take()`. -/
def takeReply (d : Dispatch PeerId) : Dispatch PeerId :=
  { d with
    event := match d.event with
      | .request r _ => .request r none
      | .command (.fetchChunk hash _ pin) => .command (.fetchChunk hash none pin)
      | e => e }

/-- `send_response` on a channel that has been taken. -/
def respond (d : Dispatch PeerId) (channel : ResponseChannel PeerId) (r : Response PeerId) :
    Dispatch PeerId := d.takeReply.act [.sendResponse channel r]

/-- `filesystem.write().apply_operations(..)`. -/
def applyOperations (d : Dispatch PeerId) (wall : ℕ → ℕ) (ops : List (NodeOperation PeerId)) :
    Dispatch PeerId :=
  d.setNode { d.node with filesystem := d.node.filesystem.applyOperations wall ops }

/-- `SyncHandler::synchronize_with`. -/
def synchronizeWith (peer : PeerId) (d : Dispatch PeerId) : Dispatch PeerId :=
  (d.setNode { d.node with nextRequestId := d.node.nextRequestId + 1 }).act
    [.sendRequest d.node.nextRequestId peer
      (.pullMissingOperations d.node.filesystem.operationIds)]

variable [DecidableEq PeerId] [PeerBytes PeerId] [Sha256]

/-- The chunk handler's part: the requests it sends get the next ids. -/
def chunk (c : EventContext PeerId) (e : ChunkEvent PeerId) (d : Dispatch PeerId) :
    Dispatch PeerId :=
  let (f, fs, out) := ChunkHandler.handle
    ⟨c.connected, List.range' d.node.nextRequestId maxFetchTargets, c.clock⟩ e d.node.fetcher
    d.node.filesystem
  (d.setNode { d.node with
      filesystem := fs
      nextRequestId := d.node.nextRequestId + out.sent.length
      fetcher := f }).act
    (out.sent.map (fun m => .sendRequest m.requestId m.peer (.pullChunk m.hash)) ++
      out.answers.map fun a => .answer a.1 a.2)

/-- `ReplicationHandler::rebalance`, the `i`-th time in this tick; the fetches go to the channel. -/
def rebalance (c : EventContext PeerId) (i now : ℕ) (d : Dispatch PeerId) :
    Option (Dispatch PeerId) :=
  if Lists (c.live i) d.node.filesystem.reachableChunkHashes then
    let (node, fetches) := d.node.toReplicationNode.rebalance c.localPeerId c.connected now
      (c.trySend i) (c.live i)
    let commands := d.node.commands ++ fetches.map fun hash => .fetchChunk hash none true
    if commands.length ≤ swarmChannelCapacity then
      some (d.setNode { d.node with toReplicationNode := node, commands := commands })
    else none
  else none

/-- `ReplicationHandler::probe_eviction_candidates`. -/
def probe (c : EventContext PeerId) (d : Dispatch PeerId) : Option (Dispatch PeerId) :=
  if Lists c.pinned d.node.filesystem.pinnedHashes then
    let (node, sent) := d.node.toReplicationNode.probeEvictionCandidates c.localPeerId c.connected
      c.pinned
    some ((d.setNode { d.node with toReplicationNode := node }).act
      (sent.map fun r => .sendRequest r.requestId r.answerer (.checkChunks r.hashes)))
  else none

end Dispatch

/-! ### The handlers -/

section Handlers

variable [DecidableEq PeerId]

def mdnsHandler : EventHandler PeerId where
  handle c d := match d.event with
    | .swarm (.discovered list) =>
      some (d.act ((list.filter fun x => x.1 ≠ c.localPeerId ∧ x.1 ∉ c.connected).map
        fun x => .dial x.2))
    | _ => some d

def gossipHandler [Bincode PeerId] : EventHandler PeerId where
  handle c d := match d.event with
    | .command (.broadcastOperations operations) =>
      match Bincode.encode operations with
      | none => some d
      | some data => if c.publish data then some (d.act [.publish data]) else some d
    | .gossip data =>
      match Bincode.decode data with
      | none => some d
      | some operations => some (d.applyOperations c.wall operations)
    | _ => some d

def syncHandler : EventHandler PeerId where
  tick c d :=
    if syncInterval ≤ c.clock 2 - d.node.lastSync then
      let d := d.setNode { d.node with lastSync := c.clock 3 }
      match c.connected[c.random % c.connected.length]? with
      | none => some d
      | some peer => some (d.synchronizeWith peer)
    else some d
  handle c d := match d.event with
    | .swarm (.connectionEstablished peer numEstablished) =>
      if numEstablished = 1 then some (d.synchronizeWith peer) else some d
    | .request (.pullMissingOperations knownIds) (some reply) =>
      some (d.respond reply
        (.missingOperations (d.node.filesystem.operationsMissingFrom knownIds)))
    | .response _ (.missingOperations operations) =>
      if operations = [] then some d else some (d.applyOperations c.wall operations)
    | _ => some d

variable [PeerBytes PeerId] [Sha256]

def chunkHandler : EventHandler PeerId where
  handle c d := match d.event with
    | .command (.fetchChunk hash reply pin) =>
      some (d.takeReply.chunk c (.fetchChunk hash reply pin))
    | .request (.pullChunk hash) (some reply) =>
      some ((d.respond reply (ChunkHandler.served hash d.node.filesystem)).chunk c
        (.pullChunk hash))
    | .response requestId response => some (d.chunk c (.response requestId response))
    | .swarm (.outboundFailure requestId) => some (d.chunk c (.outboundFailure requestId))
    | _ => some d

def replicationHandler : EventHandler PeerId where
  handle c d := match d.event with
    | .request (.checkChunks hashes) (some reply) =>
      some (d.respond reply (.heldChunks (d.node.answerCheck
        ⟨reply.requestId, reply.peer, c.localPeerId, hashes⟩).hashes))
    | .response requestId (.heldChunks hashes) =>
      some (d.setNode { d.node with
        toReplicationNode := d.node.handleHeld c.localPeerId c.connected requestId hashes })
    | .swarm (.outboundFailure requestId) =>
      some (d.setNode { d.node with toReplicationNode := d.node.outboundFailure requestId })
    | .swarm (.connectionEstablished _ _) => d.rebalance c 0 (c.clock 4)
    | _ => some d
  tick c d := do
    let now := c.clock 5
    let d ←
      if d.node.nextRebalance ≤ now then
        (d.setNode { d.node with
          nextRebalance := now + replicationRebalanceInterval }).rebalance c 1 (c.clock 6)
      else some d
    if d.node.nextEviction ≤ now then
      (d.setNode { d.node with nextEviction := now + replicationEvictionInterval }).probe c
    else some d

/-- The dispatcher that `app.rs` builds. -/
def app [Bincode PeerId] : Dispatcher PeerId :=
  [mdnsHandler, gossipHandler, syncHandler, chunkHandler, replicationHandler]

/-! ### One tick of the whole dispatcher -/

/-- What the handlers make of an event, one after the other. Most events concern one of them; a
failure of a request concerns two, and so does the first connection to a peer. -/
def handled [Bincode PeerId] (c : EventContext PeerId) (d : Dispatch PeerId) :
    Option (Dispatch PeerId) :=
  match d.event with
  | .tick | .swarm (.request _ _) | .swarm (.response _ _) | .swarm (.gossipsub _)
  | .swarm .other | .request _ none => some d
  | .swarm (.discovered _) => mdnsHandler.handle c d
  | .swarm (.outboundFailure _) => (chunkHandler.handle c d).bind (replicationHandler.handle c)
  | .swarm (.connectionEstablished _ _) =>
    (syncHandler.handle c d).bind (replicationHandler.handle c)
  | .request (.pullChunk _) (some _) => chunkHandler.handle c d
  | .request (.checkChunks _) (some _) => replicationHandler.handle c d
  | .request (.pullMissingOperations _) (some _) => syncHandler.handle c d
  | .response _ (.chunkData _) | .response _ (.error _) => chunkHandler.handle c d
  | .response _ (.heldChunks _) => replicationHandler.handle c d
  | .response _ (.missingOperations _) => syncHandler.handle c d
  | .gossip _ | .command (.broadcastOperations _) => gossipHandler.handle c d
  | .command (.fetchChunk _ _ _) => chunkHandler.handle c d

/-- What the chunk handler has to say to the swarm and to the waiters. -/
def Dispatch.chunkOutput (c : EventContext PeerId) (e : ChunkEvent PeerId) (d : Dispatch PeerId) :
    FetchOutput PeerId :=
  (ChunkHandler.handle ⟨c.connected, List.range' d.node.nextRequestId maxFetchTargets, c.clock⟩ e
    d.node.fetcher d.node.filesystem).2.2

theorem Dispatch.actions_chunk (c : EventContext PeerId) (e : ChunkEvent PeerId)
    (d : Dispatch PeerId) : (d.chunk c e).actions = d.actions ++
      ((d.chunkOutput c e).sent.map
          (fun m => .sendRequest m.requestId m.peer (.pullChunk m.hash)) ++
        (d.chunkOutput c e).answers.map fun a => .answer a.1 a.2) := rfl

/-- The chunk handler lets the responses to other kinds of requests pass. -/
@[simp] theorem Dispatch.chunk_missingOperations (c : EventContext PeerId) (d : Dispatch PeerId)
    (requestId : ℕ) (operations : List (NodeOperation PeerId)) :
    d.chunk c (.response requestId (.missingOperations operations)) = d := by
  simp [Dispatch.chunk, ChunkHandler.handle, FetchOutput.none, Dispatch.act, Dispatch.setNode]

@[simp] theorem Dispatch.chunk_heldChunks (c : EventContext PeerId) (d : Dispatch PeerId)
    (requestId : ℕ) (hashes : List ChunkHash) :
    d.chunk c (.response requestId (.heldChunks hashes)) = d := by
  simp [Dispatch.chunk, ChunkHandler.handle, FetchOutput.none, Dispatch.act, Dispatch.setNode]

variable [Bincode PeerId]

/-- Each event is handled by those it concerns. -/
theorem handle_app (c : EventContext PeerId) (d : Dispatch PeerId) :
    (app : Dispatcher PeerId).foldlM (fun d handler => handler.handle c d) d = handled c d := by
  obtain ⟨e, n, actions⟩ := d
  rcases e with _ | e | ⟨r, _ | reply⟩ | ⟨requestId, r⟩ | data | (operations | ⟨hash, reply, pin⟩)
  case swarm =>
    rcases e with _ | _ | _ | _ | _ | ⟨peer, numEstablished⟩ | _
    case connectionEstablished =>
      by_cases h : numEstablished = 1 <;>
        simp [app, handled, mdnsHandler, gossipHandler, syncHandler, chunkHandler,
          replicationHandler, h, Dispatch.synchronizeWith, Dispatch.act, Dispatch.setNode]
    all_goals rfl
  case request.none => cases r <;> rfl
  case request.some => cases r <;> rfl
  case response =>
    cases r with
    | missingOperations operations =>
      by_cases h : operations = [] <;>
        simp [app, handled, mdnsHandler, gossipHandler, syncHandler, chunkHandler,
          replicationHandler, h, Dispatch.applyOperations, Dispatch.setNode]
    | heldChunks hashes =>
      simp [app, handled, mdnsHandler, gossipHandler, syncHandler, chunkHandler,
        replicationHandler]
    | _ => rfl
  case gossip =>
    cases h : (Bincode.decode data : Option (List (NodeOperation PeerId))) <;>
      simp [app, handled, mdnsHandler, gossipHandler, syncHandler, chunkHandler,
        replicationHandler, h, Dispatch.applyOperations, Dispatch.setNode]
  case command.broadcastOperations =>
    cases h : Bincode.encode operations with
    | none =>
      simp [app, handled, mdnsHandler, gossipHandler, syncHandler, chunkHandler,
        replicationHandler, h]
    | some data =>
      by_cases hdata : c.publish data <;>
        simp [app, handled, mdnsHandler, gossipHandler, syncHandler, chunkHandler,
          replicationHandler, h, hdata, Dispatch.act]
  all_goals rfl

/-- **One tick of the dispatcher.** The event goes to those it concerns; then synchronisation and
replication may act by their timers. -/
theorem tick_app (c : EventContext PeerId) (d : Dispatch PeerId) :
    Dispatcher.tick app c d = (handled c d).bind fun d =>
      (syncHandler.tick c d).bind (replicationHandler.tick c) := by
  rw [Dispatcher.tick, handle_app]
  congr 1
  funext d
  show (syncHandler.tick c d).bind _ = _
  simp [List.foldlM_cons, chunkHandler]

omit [Bincode PeerId] in
theorem Dispatch.rebalance_eq_some {c : EventContext PeerId} {d d' : Dispatch PeerId}
    {i now : ℕ} (h : d.rebalance c i now = some d') :
    Lists (c.live i) d.node.filesystem.reachableChunkHashes ∧
    d' = d.setNode { d.node with
      toReplicationNode := (d.node.toReplicationNode.rebalance c.localPeerId c.connected now
        (c.trySend i) (c.live i)).1
      commands := d.node.commands ++ (d.node.toReplicationNode.rebalance c.localPeerId c.connected
        now (c.trySend i) (c.live i)).2.map fun hash => .fetchChunk hash none true } := by
  simp only [Dispatch.rebalance] at h
  split_ifs at h with hlists
  exact ⟨hlists, (Option.some.inj h).symm⟩

omit [Bincode PeerId] in
theorem Dispatch.probe_eq_some {c : EventContext PeerId} {d d' : Dispatch PeerId}
    (h : d.probe c = some d') :
    Lists c.pinned d.node.filesystem.pinnedHashes ∧
    d' = (d.setNode { d.node with
      toReplicationNode := (d.node.toReplicationNode.probeEvictionCandidates c.localPeerId
        c.connected c.pinned).1 }).act
      ((d.node.toReplicationNode.probeEvictionCandidates c.localPeerId c.connected
        c.pinned).2.map fun r => .sendRequest r.requestId r.answerer (.checkChunks r.hashes)) := by
  simp only [Dispatch.probe] at h
  split_ifs at h with hlists
  exact ⟨hlists, (Option.some.inj h).symm⟩

omit [PeerBytes PeerId] [Sha256] [Bincode PeerId] in
/-- By its timer, synchronisation asks one of the connected peers at most. -/
theorem syncHandler_tick_eq_some {c : EventContext PeerId} {d d' : Dispatch PeerId}
    (h : syncHandler.tick c d = some d') : d' = d ∨ ∃ lastSync,
      d' = d.setNode { d.node with lastSync := lastSync } ∨ ∃ peer ∈ c.connected,
        d' = (d.setNode { d.node with lastSync := lastSync }).synchronizeWith peer := by
  simp only [syncHandler] at h
  split_ifs at h
  · refine Or.inr ⟨c.clock 3, ?_⟩
    split at h
    · cases h
      exact Or.inl rfl
    · rename_i peer hpeer
      cases h
      exact Or.inr ⟨peer, List.mem_of_getElem? hpeer, rfl⟩
  · cases h
    exact Or.inl rfl

omit [Bincode PeerId] in
/-- By its timers, replication rebalances, and then probes. -/
theorem replicationHandler_tick_eq_some {c : EventContext PeerId} {d d' : Dispatch PeerId}
    (h : replicationHandler.tick c d = some d') : ∃ d₁,
      (d₁ = d ∨ ∃ next, (d.setNode { d.node with nextRebalance := next }).rebalance c 1
        (c.clock 6) = some d₁) ∧
      (d' = d₁ ∨ ∃ next, (d₁.setNode { d₁.node with nextEviction := next }).probe c = some d') := by
  have hprobe : ∀ d₁ : Dispatch PeerId,
      (if d₁.node.nextEviction ≤ c.clock 5 then
        (d₁.setNode { d₁.node with
          nextEviction := c.clock 5 + replicationEvictionInterval }).probe c
      else some d₁) = some d' →
      d' = d₁ ∨ ∃ next, (d₁.setNode { d₁.node with nextEviction := next }).probe c = some d' := by
    intro d₁ h₁
    split_ifs at h₁
    · exact Or.inr ⟨_, h₁⟩
    · exact Or.inl (Option.some.inj h₁).symm
  simp only [replicationHandler, Option.bind_eq_bind] at h
  split_ifs at h
  · obtain ⟨d₁, h₁, h₂⟩ := Option.bind_eq_some_iff.1 h
    exact ⟨d₁, Or.inr ⟨_, h₁⟩, hprobe d₁ h₂⟩
  · exact ⟨d, Or.inl rfl, hprobe d h⟩

end Handlers

/-! ### All that a handler may do -/

section Steps

variable [DecidableEq PeerId] [PeerBytes PeerId] [Sha256] [Bincode PeerId]

/-- What a handler does to an event on its way, and when. -/
inductive Dispatch.Step (c : EventContext PeerId) : Dispatch PeerId → Dispatch PeerId → Prop
  | dial (d : Dispatch PeerId) (addrs : List Multiaddr) : Step c d (d.act (addrs.map .dial))
  | publish {d : Dispatch PeerId} {operations : List (NodeOperation PeerId)} {data : Bytes}
      (hevent : d.event = .command (.broadcastOperations operations))
      (hdata : Bincode.encode operations = some data) (htaken : c.publish data) :
      Step c d (d.act [.publish data])
  | gossip {d : Dispatch PeerId} {data : Bytes} {operations : List (NodeOperation PeerId)}
      (hevent : d.event = .gossip data) (hdata : Bincode.decode data = some operations) :
      Step c d (d.applyOperations c.wall operations)
  | synchronizeWith (d : Dispatch PeerId) (peer : PeerId) : Step c d (d.synchronizeWith peer)
  | answerPull {d : Dispatch PeerId} {knownIds : List (NodeOperationId PeerId)}
      {reply : ResponseChannel PeerId}
      (hevent : d.event = .request (.pullMissingOperations knownIds) (some reply)) :
      Step c d (d.respond reply
        (.missingOperations (d.node.filesystem.operationsMissingFrom knownIds)))
  | missingOperations {d : Dispatch PeerId} {requestId : ℕ}
      {operations : List (NodeOperation PeerId)}
      (hevent : d.event = .response requestId (.missingOperations operations))
      (hne : operations ≠ []) : Step c d (d.applyOperations c.wall operations)
  | fetchChunk {d : Dispatch PeerId} {hash : ChunkHash} {reply : Option ℕ} {pin : Bool}
      (hevent : d.event = .command (.fetchChunk hash reply pin)) :
      Step c d (d.takeReply.chunk c (.fetchChunk hash reply pin))
  | servePull {d : Dispatch PeerId} {hash : ChunkHash} {reply : ResponseChannel PeerId}
      (hevent : d.event = .request (.pullChunk hash) (some reply)) :
      Step c d ((d.respond reply (ChunkHandler.served hash d.node.filesystem)).chunk c
        (.pullChunk hash))
  | chunkResponse {d : Dispatch PeerId} {requestId : ℕ} {response : Response PeerId}
      (hevent : d.event = .response requestId response) :
      Step c d (d.chunk c (.response requestId response))
  | chunkFailure {d : Dispatch PeerId} {requestId : ℕ}
      (hevent : d.event = .swarm (.outboundFailure requestId)) :
      Step c d (d.chunk c (.outboundFailure requestId))
  | answerCheck {d : Dispatch PeerId} {hashes : List ChunkHash} {reply : ResponseChannel PeerId}
      (hevent : d.event = .request (.checkChunks hashes) (some reply)) :
      Step c d (d.respond reply (.heldChunks (d.node.answerCheck
        ⟨reply.requestId, reply.peer, c.localPeerId, hashes⟩).hashes))
  | heldChunks {d : Dispatch PeerId} {requestId : ℕ} {hashes : List ChunkHash}
      (hevent : d.event = .response requestId (.heldChunks hashes)) :
      Step c d (d.setNode { d.node with
        toReplicationNode := d.node.handleHeld c.localPeerId c.connected requestId hashes })
  | probeFailure {d : Dispatch PeerId} {requestId : ℕ}
      (hevent : d.event = .swarm (.outboundFailure requestId)) :
      Step c d (d.setNode { d.node with toReplicationNode := d.node.outboundFailure requestId })
  | rebalance {d d' : Dispatch PeerId} {i now : ℕ} (h : d.rebalance c i now = some d') :
      Step c d d'
  | probe {d d' : Dispatch PeerId} (h : d.probe c = some d') : Step c d d'
  | timers (d : Dispatch PeerId) (lastSync nextRebalance nextEviction : ℕ) :
      Step c d (d.setNode { d.node with
        lastSync := lastSync
        nextRebalance := nextRebalance
        nextEviction := nextEviction })

open Relation

variable {c : EventContext PeerId} {d d' : Dispatch PeerId}

theorem steps_handled (h : handled c d = some d') : ReflTransGen (Dispatch.Step c) d d' := by
  obtain ⟨e, n, actions⟩ := d
  rcases e with _ | e | ⟨r, _ | reply⟩ | ⟨requestId, r⟩ | data | (operations | ⟨hash, reply, pin⟩)
  case tick =>
    cases h
    exact .refl
  case swarm =>
    rcases e with _ | _ | requestId | _ | list | ⟨peer, numEstablished⟩ | _
    case outboundFailure =>
      cases h
      exact .tail (.single (.chunkFailure rfl)) (.probeFailure rfl)
    case discovered =>
      cases h
      refine .single ?_
      have hdial := Dispatch.Step.dial (c := c) ⟨.swarm (.discovered list), n, actions⟩
        ((list.filter fun x => x.1 ≠ c.localPeerId ∧ x.1 ∉ c.connected).map Prod.snd)
      rwa [List.map_map] at hdial
    case connectionEstablished =>
      obtain ⟨d₁, h₁, h₂⟩ := Option.bind_eq_some_iff.1 h
      simp only [syncHandler] at h₁
      split_ifs at h₁ with hfirst
      · cases h₁
        exact .tail (.single (.synchronizeWith _ _)) (.rebalance h₂)
      · cases h₁
        exact .single (.rebalance h₂)
    all_goals
      cases h
      exact .refl
  case request.none =>
    cases h
    exact .refl
  case request.some =>
    cases r with
    | pullChunk hash =>
      cases h
      exact .single (.servePull rfl)
    | checkChunks hashes =>
      cases h
      exact .single (.answerCheck rfl)
    | pullMissingOperations knownIds =>
      cases h
      exact .single (.answerPull rfl)
  case response =>
    cases r with
    | missingOperations operations =>
      simp only [handled, syncHandler] at h
      split_ifs at h with hne
      · cases h
        exact .refl
      · cases h
        exact .single (.missingOperations rfl hne)
    | heldChunks hashes =>
      cases h
      exact .single (.heldChunks rfl)
    | _ =>
      cases h
      exact .single (.chunkResponse rfl)
  case gossip =>
    simp only [handled, gossipHandler] at h
    split at h
    · cases h
      exact .refl
    · rename_i operations hdata
      cases h
      exact .single (.gossip rfl hdata)
  case command.broadcastOperations =>
    simp only [handled, gossipHandler] at h
    split at h
    · cases h
      exact .refl
    · rename_i data hdata
      split_ifs at h with htaken <;> cases h
      · exact .single (.publish rfl hdata htaken)
      · exact .refl
  case command.fetchChunk =>
    cases h
    exact .single (.fetchChunk rfl)

theorem steps_syncHandler (h : syncHandler.tick c d = some d') :
    ReflTransGen (Dispatch.Step c) d d' := by
  obtain rfl | ⟨lastSync, h⟩ := syncHandler_tick_eq_some h
  · exact .refl
  · have htimers := Dispatch.Step.timers (c := c) d lastSync d.node.nextRebalance
      d.node.nextEviction
    obtain rfl | ⟨peer, -, rfl⟩ := h
    · exact .single htimers
    · exact .tail (.single htimers) (.synchronizeWith _ _)

theorem steps_replicationHandler (h : replicationHandler.tick c d = some d') :
    ReflTransGen (Dispatch.Step c) d d' := by
  obtain ⟨d₁, h₁, h₂⟩ := replicationHandler_tick_eq_some h
  have hrebalance : ReflTransGen (Dispatch.Step c) d d₁ := by
    obtain rfl | ⟨next, h₁⟩ := h₁
    · exact .refl
    · exact .tail (.single (.timers d d.node.lastSync next d.node.nextEviction)) (.rebalance h₁)
  obtain rfl | ⟨next, h₂⟩ := h₂
  · exact hrebalance
  · exact .tail (.tail hrebalance (.timers d₁ d₁.node.lastSync d₁.node.nextRebalance next))
      (.probe h₂)

/-- **A tick is a sequence of steps of handlers.** -/
theorem steps_tick (h : Dispatcher.tick app c d = some d') :
    ReflTransGen (Dispatch.Step c) d d' := by
  rw [tick_app] at h
  obtain ⟨d₁, h₁, h⟩ := Option.bind_eq_some_iff.1 h
  obtain ⟨d₂, h₂, h₃⟩ := Option.bind_eq_some_iff.1 h
  exact ((steps_handled h₁).trans (steps_syncHandler h₂)).trans (steps_replicationHandler h₃)

/-- At most the reply is taken out of the event. -/
theorem event_step (h : Dispatch.Step c d d') :
    d'.event = d.event ∨ d'.event = d.takeReply.event := by
  cases h with
  | answerPull | fetchChunk | servePull | answerCheck => exact Or.inr rfl
  | rebalance h =>
    obtain ⟨-, rfl⟩ := Dispatch.rebalance_eq_some h
    exact Or.inl rfl
  | probe h =>
    obtain ⟨-, rfl⟩ := Dispatch.probe_eq_some h
    exact Or.inl rfl
  | _ => exact Or.inl rfl

/-- What each step of a handler preserves, a tick preserves. -/
theorem tick_invariant {I : Dispatch PeerId → Prop}
    (hstep : ∀ d d', Dispatch.Step c d d' → I d → I d') (h : Dispatcher.tick app c d = some d')
    (hd : I d) : I d' := by
  have hsteps := steps_tick h
  clear h
  induction hsteps with
  | refl => exact hd
  | tail _ hs ih => exact hstep _ _ hs ih

end Steps

end Edfs.Network
