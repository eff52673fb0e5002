import Edfs.Network.HandlerCalls
import Edfs.Network.NetworkBridge

/-!
# The cluster

The program on any number of nodes. On each node there are the tasks of FUSE, which call the file
system and hand over the operations that the calls report, the task that gathers these operations,
and the dispatcher; between the nodes there are requests, responses and gossip. Any of them may go
on at any moment.

A request arrives at most once. Whoever has sent it gets one outcome at most, a response or a
failure, and may get the failure though the request has arrived. Gossip arrives any number of times.

* `Cluster`, `ClusterEvent` and `clusterStep`;
* `dispatched`: the cluster while an event is on its way through the handlers;
* `tick_eq_some`, `call_eq_some` and the like: what each event does; `filesystem_cases`: what it
  does to the file system of a node; `inv_run`.
-/

namespace Edfs.Network

open Execution

/-- A request on its way, or waiting for its outcome. -/
structure RequestMessage (PeerId : Type) where
  requestId : ℕ
  asker : PeerId
  answerer : PeerId
  request : Request PeerId
  deriving DecidableEq

structure ResponseMessage (PeerId : Type) where
  requestId : ℕ
  asker : PeerId
  answerer : PeerId
  response : Response PeerId
  deriving DecidableEq

/-- What the `select!` of a dispatcher may find first. -/
inductive Input (PeerId : Type)
  | timeout
  | command
  | request (m : RequestMessage PeerId)
  | response (m : ResponseMessage PeerId)
  | outboundFailure (m : RequestMessage PeerId)
  | gossip (source : PeerId) (data : Bytes)
  | swarm (e : SwarmEvent PeerId)

inductive ClusterEvent (PeerId : Type)
  | call (p : PeerId) (e : Edfs.Event PeerId)
  | broadcast (p : PeerId) (operations : List (NodeOperation PeerId))
  | bridge (p : PeerId) (e : BridgeEvent PeerId)
  | fetch (p : PeerId) (hash : ChunkHash) (waiter : ℕ)
  | tick (p : PeerId) (c : EventContext PeerId) (input : Input PeerId)

structure Cluster (PeerId : Type) [CrdtTree PeerId] where
  nodes : PeerId → Node PeerId
  bridges : PeerId → NetworkBridge PeerId
  /-- What calls have reported and the tasks of FUSE have not handed over. -/
  mutated : PeerId → List (List (NodeOperation PeerId))
  /-- The requests that have not arrived. -/
  requests : List (RequestMessage PeerId)
  /-- The requests that have had no outcome. -/
  awaited : List (RequestMessage PeerId)
  responses : List (ResponseMessage PeerId)
  published : List (PeerId × Bytes)
  /-- The operations that each node's calls have ever reported. -/
  issued : PeerId → List (NodeOperation PeerId)
  /-- Those who have ever waited for a chunk, with its hash. -/
  waiters : PeerId → List (ℕ × ChunkHash)
  /-- What they have been answered, by which node. -/
  answers : List (PeerId × ℕ × Option Bytes)

/-- The calls that FUSE makes. -/
def byFuse {PeerId : Type} : Call PeerId → Bool
  | .mutate (.pinChunk _) => false
  | .mutate _ | .readFile _ _ _ | .readFileAll _ | .cacheChunk _ => true
  | _ => false

/-- Operations that a call has reported are to be handed over. -/
def report {PeerId : Type} (operations : List (NodeOperation PeerId))
    (mutated : List (List (NodeOperation PeerId))) : List (List (NodeOperation PeerId)) :=
  if operations.isEmpty then mutated else operations :: mutated

/-- The tasks keep their channels while they run. -/
def byTask {PeerId : Type} : BridgeEvent PeerId → Bool
  | .receive | .deadline | .send => true
  | _ => false

namespace Action

variable {PeerId : Type}

def request (p : PeerId) : Action PeerId → Option (RequestMessage PeerId)
  | .sendRequest requestId peer r => some ⟨requestId, p, peer, r⟩
  | _ => none

def response (p : PeerId) : Action PeerId → Option (ResponseMessage PeerId)
  | .sendResponse channel r => some ⟨channel.requestId, channel.peer, p, r⟩
  | _ => none

def published (p : PeerId) : Action PeerId → Option (PeerId × Bytes)
  | .publish data => some (p, data)
  | _ => none

def answered (p : PeerId) : Action PeerId → Option (PeerId × ℕ × Option Bytes)
  | .answer waiter data => some (p, waiter, data)
  | _ => none

variable {p : PeerId} {actions : List (Action PeerId)}

theorem mem_request {m : RequestMessage PeerId} :
    m ∈ actions.filterMap (request p) ↔
      m.asker = p ∧ .sendRequest m.requestId m.answerer m.request ∈ actions := by
  rw [List.mem_filterMap]
  constructor
  · rintro ⟨a, ha, hm⟩
    cases a with
    | sendRequest =>
      cases hm
      exact ⟨rfl, ha⟩
    | _ => cases hm
  · rintro ⟨rfl, ha⟩
    exact ⟨_, ha, rfl⟩

theorem mem_response {m : ResponseMessage PeerId} :
    m ∈ actions.filterMap (response p) ↔
      m.answerer = p ∧ .sendResponse ⟨m.asker, m.requestId⟩ m.response ∈ actions := by
  rw [List.mem_filterMap]
  constructor
  · rintro ⟨a, ha, hm⟩
    cases a with
    | sendResponse =>
      cases hm
      exact ⟨rfl, ha⟩
    | _ => cases hm
  · rintro ⟨rfl, ha⟩
    exact ⟨_, ha, rfl⟩

end Action

namespace Cluster

variable {PeerId : Type} [CrdtTree PeerId]

/-- `start p` is the reading of the clock when node `p` starts. -/
def init (maxPinnedBytes start : PeerId → ℕ) : Cluster PeerId where
  nodes p :=
    { filesystem := FileSystem.init p (maxPinnedBytes p)
      handler := .new
      nextRequestId := 0
      fetcher := .new
      lastSync := start p
      nextRebalance := start p
      nextEviction := start p
      commands := [] }
  bridges _ := .new
  mutated _ := []
  requests := []
  awaited := []
  responses := []
  published := []
  issued _ := []
  waiters _ := []
  answers := []

variable [DecidableEq PeerId]

def setNode (w : Cluster PeerId) (p : PeerId) (n : Node PeerId) : Cluster PeerId :=
  { w with nodes := Function.update w.nodes p n }

/-- A node's handlers act. -/
def perform (w : Cluster PeerId) (p : PeerId) (actions : List (Action PeerId)) : Cluster PeerId :=
  { w with
    requests := w.requests ++ actions.filterMap (Action.request p)
    awaited := w.awaited ++ actions.filterMap (Action.request p)
    responses := w.responses ++ actions.filterMap (Action.response p)
    published := w.published ++ actions.filterMap (Action.published p)
    answers := w.answers ++ actions.filterMap (Action.answered p) }

/-- The cluster while an event is on its way through the handlers of a node. -/
def dispatched (w : Cluster PeerId) (p : PeerId) (d : Dispatch PeerId) : Cluster PeerId :=
  (w.setNode p d.node).perform p d.actions

/-- Put a command into a node's channel, if there is room. -/
def command (w : Cluster PeerId) (p : PeerId) (commands : List (SwarmCommand PeerId)) :
    Option (Cluster PeerId) :=
  if ((w.nodes p).commands ++ commands).length ≤ swarmChannelCapacity then
    some (w.setNode p { w.nodes p with commands := (w.nodes p).commands ++ commands })
  else none

/-- The event that a node finds, which is then no longer there. -/
def arrive (w : Cluster PeerId) (p : PeerId) : Input PeerId → Option (Event PeerId × Cluster PeerId)
  | .timeout => some (.tick, w)
  | .command =>
    match (w.nodes p).commands with
    | [] => none
    | c :: commands => some (.command c, w.setNode p { w.nodes p with commands := commands })
  | .request m =>
    if m ∈ w.requests ∧ m.answerer = p then
      some (.ofSwarm (.request m.request ⟨m.asker, m.requestId⟩),
        { w with requests := w.requests.erase m })
    else none
  | .response m =>
    if m ∈ w.responses ∧ m.asker = p ∧
        ∃ r ∈ w.awaited, r.asker = m.asker ∧ r.requestId = m.requestId then
      some (.ofSwarm (.response m.requestId m.response),
        { w with
          awaited := w.awaited.filter fun r => ¬ (r.asker = m.asker ∧ r.requestId = m.requestId)
          responses := w.responses.erase m })
    else none
  | .outboundFailure m =>
    if m ∈ w.awaited ∧ m.asker = p then
      some (.ofSwarm (.outboundFailure m.requestId), { w with awaited := w.awaited.erase m })
    else none
  | .gossip source data =>
    if (source, data) ∈ w.published ∧ source ≠ p then some (.ofSwarm (.gossipsub data), w) else none
  | .swarm (.discovered list) => some (.ofSwarm (.discovered list), w)
  | .swarm (.connectionEstablished peer numEstablished) =>
    some (.ofSwarm (.connectionEstablished peer numEstablished), w)
  | .swarm .other => some (.ofSwarm .other, w)
  | .swarm _ => none

end Cluster

open ReplicationWorld (View)

variable {PeerId : Type} [CrdtTree PeerId] [LinearOrder PeerId] [PeerBytes PeerId] [UuidV5]
  [Sha256] [FastCdc] [Bincode PeerId]

/-- One event. The tasks of FUSE hand over what calls have reported in any order; each fetch has a
channel of its own for the reply. -/
def clusterStep : ClusterEvent PeerId → Cluster PeerId → Option (Cluster PeerId)
  | .call p e, w =>
    if byFuse e.2 then
      (FileSystem.callStep e (w.nodes p).filesystem).map fun fs =>
        { w with
          nodes := Function.update w.nodes p { w.nodes p with filesystem := fs }
          mutated := Function.update w.mutated p
            (report (FileSystem.emitted e (w.nodes p).filesystem) (w.mutated p))
          issued := Function.update w.issued p
            (w.issued p ++ FileSystem.emitted e (w.nodes p).filesystem) }
    else none
  | .broadcast p operations, w =>
    if operations ∈ w.mutated p then
      ((w.bridges p).broadcast operations).map fun b =>
        { w with
          bridges := Function.update w.bridges p b
          mutated := Function.update w.mutated p ((w.mutated p).erase operations) }
    else none
  | .bridge p e, w =>
    if byTask e then
      ((w.bridges p).step e).bind fun b =>
        ({ w with bridges := Function.update w.bridges p b }).command p
          ((b.commands.drop (w.bridges p).commands.length).map .broadcastOperations)
    else none
  | .fetch p hash waiter, w =>
    if waiter ∉ (w.waiters p).map Prod.fst then
      ({ w with
        waiters := Function.update w.waiters p ((waiter, hash) :: w.waiters p) }).command p
          [.fetchChunk hash (some waiter) false]
    else none
  | .tick p c input, w =>
    if c.localPeerId = p ∧ View p c.connected then
      (w.arrive p input).bind fun (e, w) =>
        (Dispatcher.tick app c ⟨e, w.nodes p, []⟩).map (w.dispatched p)
    else none

namespace Cluster

omit [PeerBytes PeerId] [UuidV5] [Sha256] [FastCdc] [Bincode PeerId] in
/-- What a node keeps, all nodes keep. -/
theorem update_same {α : Type} (f : Node PeerId → α) {nodes nodes' : PeerId → Node PeerId}
    {p : PeerId} {n : Node PeerId} (hnodes : nodes' = Function.update nodes p n)
    (h : f n = f (nodes p)) (q : PeerId) : f (nodes' q) = f (nodes q) := by
  rw [hnodes]
  by_cases hq : q = p
  · subst hq
    rw [Function.update_self, h]
  · rw [Function.update_of_ne hq]

/-! ### An event on its way -/

section Dispatched

omit [LinearOrder PeerId] [PeerBytes PeerId] [UuidV5] [Sha256] [FastCdc] [Bincode PeerId]

variable [DecidableEq PeerId] {p : PeerId} {w : Cluster PeerId} {d d' : Dispatch PeerId}
  {actions : List (Action PeerId)}

@[simp] theorem nodes_dispatched_self : (w.dispatched p d).nodes p = d.node :=
  Function.update_self _ _ _

theorem nodes_dispatched_of_ne {q : PeerId} (hq : q ≠ p) :
    (w.dispatched p d).nodes q = w.nodes q := Function.update_of_ne hq _ _

theorem dispatched_start (w : Cluster PeerId) (p : PeerId) (e : Event PeerId) :
    w.dispatched p ⟨e, w.nodes p, []⟩ = w := by
  simp [dispatched, setNode, perform]

theorem requests_dispatched (h : d'.actions = d.actions ++ actions) :
    (w.dispatched p d').requests =
      (w.dispatched p d).requests ++ actions.filterMap (Action.request p) := by
  simp [dispatched, perform, setNode, h]

theorem awaited_dispatched (h : d'.actions = d.actions ++ actions) :
    (w.dispatched p d').awaited =
      (w.dispatched p d).awaited ++ actions.filterMap (Action.request p) := by
  simp [dispatched, perform, setNode, h]

theorem answers_dispatched (h : d'.actions = d.actions ++ actions) :
    (w.dispatched p d').answers =
      (w.dispatched p d).answers ++ actions.filterMap (Action.answered p) := by
  simp [dispatched, perform, setNode, h]

theorem responses_dispatched (h : d'.actions = d.actions ++ actions) :
    (w.dispatched p d').responses =
      (w.dispatched p d).responses ++ actions.filterMap (Action.response p) := by
  simp [dispatched, perform, setNode, h]

end Dispatched

/-! ### What an event does -/

variable {p : PeerId} {w w' : Cluster PeerId}

theorem call_eq_some {e : Edfs.Event PeerId} (h : clusterStep (.call p e) w = some w') :
    byFuse e.2 ∧ ∃ fs, FileSystem.callStep e (w.nodes p).filesystem = some fs ∧
      w' = { w with
        nodes := Function.update w.nodes p { w.nodes p with filesystem := fs }
        mutated := Function.update w.mutated p
          (report (FileSystem.emitted e (w.nodes p).filesystem) (w.mutated p))
        issued := Function.update w.issued p
          (w.issued p ++ FileSystem.emitted e (w.nodes p).filesystem) } := by
  simp only [clusterStep] at h
  split_ifs at h with hfuse
  obtain ⟨fs, hfs, rfl⟩ := Option.map_eq_some_iff.1 h
  exact ⟨hfuse, fs, hfs, rfl⟩

theorem broadcast_eq_some {operations : List (NodeOperation PeerId)}
    (h : clusterStep (.broadcast p operations) w = some w') :
    operations ∈ w.mutated p ∧ ∃ b, (w.bridges p).broadcast operations = some b ∧
      w' = { w with
        bridges := Function.update w.bridges p b
        mutated := Function.update w.mutated p ((w.mutated p).erase operations) } := by
  simp only [clusterStep] at h
  split_ifs at h with hmem
  obtain ⟨b, hb, rfl⟩ := Option.map_eq_some_iff.1 h
  exact ⟨hmem, b, hb, rfl⟩

omit [LinearOrder PeerId] [PeerBytes PeerId] [UuidV5] [Sha256] [FastCdc] [Bincode PeerId] in
theorem command_eq_some [DecidableEq PeerId] {commands : List (SwarmCommand PeerId)}
    (h : w.command p commands = some w') :
    w' = w.setNode p { w.nodes p with commands := (w.nodes p).commands ++ commands } := by
  simp only [command] at h
  split_ifs at h
  exact (Option.some.inj h).symm

theorem bridge_eq_some {e : BridgeEvent PeerId} (h : clusterStep (.bridge p e) w = some w') :
    byTask e ∧ ∃ b, (w.bridges p).step e = some b ∧
      w' = ({ w with bridges := Function.update w.bridges p b }).setNode p
        { w.nodes p with
          commands := (w.nodes p).commands ++
            (b.commands.drop (w.bridges p).commands.length).map
              SwarmCommand.broadcastOperations } := by
  simp only [clusterStep] at h
  split_ifs at h with htask
  obtain ⟨b, hb, h⟩ := Option.bind_eq_some_iff.1 h
  exact ⟨htask, b, hb, command_eq_some h⟩

theorem fetch_eq_some {hash : ChunkHash} {waiter : ℕ}
    (h : clusterStep (.fetch p hash waiter) w = some w') :
    waiter ∉ (w.waiters p).map Prod.fst ∧
      w' = ({ w with
        waiters := Function.update w.waiters p ((waiter, hash) :: w.waiters p) }).setNode p
          { w.nodes p with
            commands := (w.nodes p).commands ++
              [SwarmCommand.fetchChunk hash (some waiter) false] } := by
  simp only [clusterStep] at h
  split_ifs at h with hnew
  exact ⟨hnew, command_eq_some h⟩

/-- A tick of a dispatcher is one of the node's, begun with what arrives. -/
theorem tick_eq_some {c : EventContext PeerId} {input : Input PeerId}
    (h : clusterStep (.tick p c input) w = some w') :
    c.localPeerId = p ∧ View p c.connected ∧ ∃ e w₁ d, w.arrive p input = some (e, w₁) ∧
      Dispatcher.tick app c ⟨e, w₁.nodes p, []⟩ = some d ∧ w' = w₁.dispatched p d := by
  simp only [clusterStep] at h
  split_ifs at h with hview
  obtain ⟨⟨e, w₁⟩, harrive, h⟩ := Option.bind_eq_some_iff.1 h
  obtain ⟨d, hd, rfl⟩ := Option.map_eq_some_iff.1 h
  exact ⟨hview.1, hview.2, e, w₁, d, harrive, hd, rfl⟩

/-- What a node finds is a message, or of its own. Nothing else changes but its commands. -/
structure Arrives (p : PeerId) (w : Cluster PeerId) (input : Input PeerId) (e : Event PeerId)
    (w₁ : Cluster PeerId) : Prop where
  nodes : ∃ commands, w₁.nodes = Function.update w.nodes p { w.nodes p with commands := commands }
  bridges : w₁.bridges = w.bridges
  mutated : w₁.mutated = w.mutated
  published : w₁.published = w.published
  issued : w₁.issued = w.issued
  waiters : w₁.waiters = w.waiters
  requests : w₁.requests ⊆ w.requests
  awaited : w₁.awaited ⊆ w.awaited
  responses : w₁.responses ⊆ w.responses
  request : ∀ r reply, e = .request r (some reply) →
    ⟨reply.requestId, reply.peer, p, r⟩ ∈ w.requests
  response : ∀ id r, e = .response id r →
    ∃ q, input = .response ⟨id, p, q, r⟩ ∧ ⟨id, p, q, r⟩ ∈ w.responses
  gossip : ∀ data, e = .gossip data → ∃ q, (q, data) ∈ w.published
  taken : (w₁.requests = w.requests ∧ w₁.responses.Sublist w.responses ∧
      ∀ r reply, e ≠ .request r (some reply)) ∨
    ∃ m ∈ w.requests, e = .request m.request (some ⟨m.asker, m.requestId⟩) ∧
      w₁.requests = w.requests.erase m ∧ w₁.responses = w.responses

omit [PeerBytes PeerId] [UuidV5] [Sha256] [FastCdc] [Bincode PeerId] in
/-- What a node finds and no other node has sent. -/
theorem Arrives.of_quiet {input : Input PeerId} {e : Event PeerId} {w₁ : Cluster PeerId}
    (hrequest : ∀ r reply, e ≠ .request r (some reply)) (hresponse : ∀ id r, e ≠ .response id r)
    (hgossip : ∀ data, e ≠ .gossip data)
    (hnodes : ∃ commands,
      w₁.nodes = Function.update w.nodes p { w.nodes p with commands := commands })
    (hawaited : w₁.awaited ⊆ w.awaited)
    (hsame : w₁ = { w with nodes := w₁.nodes, awaited := w₁.awaited }) :
    Arrives p w input e w₁ := by
  have hrequests : w₁.requests = w.requests := by rw [hsame]
  have hresponses : w₁.responses = w.responses := by rw [hsame]
  exact {
    nodes := hnodes
    bridges := by rw [hsame]
    mutated := by rw [hsame]
    published := by rw [hsame]
    issued := by rw [hsame]
    waiters := by rw [hsame]
    requests := hrequests ▸ List.Subset.refl _
    awaited := hawaited
    responses := hresponses ▸ List.Subset.refl _
    request := fun r reply he => absurd he (hrequest r reply)
    response := fun id r he => absurd he (hresponse id r)
    gossip := fun data he => absurd he (hgossip data)
    taken := Or.inl ⟨hrequests, hresponses ▸ List.Sublist.refl _, hrequest⟩ }

omit [PeerBytes PeerId] [UuidV5] [Sha256] [FastCdc] [Bincode PeerId] in
theorem arrives {input : Input PeerId} {e : Event PeerId} {w₁ : Cluster PeerId}
    (h : w.arrive p input = some (e, w₁)) : Arrives p w input e w₁ := by
  have hnodes : ∃ commands,
      w.nodes = Function.update w.nodes p { w.nodes p with commands := commands } :=
    ⟨(w.nodes p).commands, (Function.update_eq_self _ _).symm⟩
  have hself := fun l : List (RequestMessage PeerId) => List.Subset.refl l
  cases input with
  | timeout =>
    cases h
    exact .of_quiet (by simp) (by simp) (by simp) hnodes (hself _) rfl
  | command =>
    simp only [arrive] at h
    split at h
    · cases h
    · cases h
      exact .of_quiet (by simp) (by simp) (by simp) ⟨_, rfl⟩ (hself _) rfl
  | request m =>
    simp only [arrive] at h
    split_ifs at h with hm
    cases h
    refine ⟨hnodes, rfl, rfl, rfl, rfl, rfl, List.erase_subset, hself _, List.Subset.refl _,
      fun r reply he => ?_, by simp [Event.ofSwarm], by simp [Event.ofSwarm],
      Or.inr ⟨m, hm.1, rfl, rfl, rfl⟩⟩
    cases he
    obtain ⟨hm, rfl⟩ := hm
    exact hm
  | response m =>
    simp only [arrive] at h
    split_ifs at h with hm
    cases h
    refine ⟨hnodes, rfl, rfl, rfl, rfl, rfl, hself _, List.filter_subset_self _, List.erase_subset,
      by simp [Event.ofSwarm], fun id r he => ?_, by simp [Event.ofSwarm],
      Or.inl ⟨rfl, List.erase_sublist, by simp [Event.ofSwarm]⟩⟩
    cases he
    obtain ⟨hm, rfl, -⟩ := hm
    exact ⟨_, rfl, hm⟩
  | outboundFailure m =>
    simp only [arrive] at h
    split_ifs at h with hm
    cases h
    exact .of_quiet (by simp [Event.ofSwarm]) (by simp [Event.ofSwarm]) (by simp [Event.ofSwarm])
      hnodes List.erase_subset rfl
  | gossip source data =>
    simp only [arrive] at h
    split_ifs at h with hm
    cases h
    refine ⟨hnodes, rfl, rfl, rfl, rfl, rfl, hself _, hself _, List.Subset.refl _,
      by simp [Event.ofSwarm], by simp [Event.ofSwarm], fun data' he => ?_,
      Or.inl ⟨rfl, List.Sublist.refl _, by simp [Event.ofSwarm]⟩⟩
    cases he
    exact ⟨_, hm.1⟩
  | swarm e =>
    cases e with
    | discovered | connectionEstablished | other =>
      cases h
      exact .of_quiet (by simp [Event.ofSwarm]) (by simp [Event.ofSwarm])
        (by simp [Event.ofSwarm]) hnodes (hself _) rfl
    | _ => cases h

omit [PeerBytes PeerId] [UuidV5] [Sha256] [FastCdc] [Bincode PeerId] in
/-- Nothing of a node's replication has changed. -/
theorem Arrives.toReplicationNode {input : Input PeerId} {e : Event PeerId} {w₁ : Cluster PeerId}
    (h : Arrives p w input e w₁) (q : PeerId) :
    (w₁.nodes q).toReplicationNode = (w.nodes q).toReplicationNode := by
  obtain ⟨commands, hnodes⟩ := h.nodes
  exact update_same (·.toReplicationNode) hnodes rfl q

/-- **A node's file system** is called by FUSE, or by the node's handlers on what arrives. -/
theorem filesystem_cases {l : ClusterEvent PeerId} (h : clusterStep l w = some w') (q : PeerId) :
    (w'.nodes q).filesystem = (w.nodes q).filesystem ∨
    (∃ e, l = .call q e ∧ byFuse e.2 ∧
      FileSystem.callStep e (w.nodes q).filesystem = some (w'.nodes q).filesystem) ∨
    ∃ c input e w₁, l = .tick q c input ∧ w.arrive q input = some (e, w₁) ∧
      FileSystem.Calls (byHandlers e) (w.nodes q).filesystem (w'.nodes q).filesystem := by
  have hsame : ∀ {w₁ : Cluster PeerId} {p : PeerId} {n : Node PeerId},
      w₁.nodes = Function.update w.nodes p n → n.filesystem = (w.nodes p).filesystem →
      (w₁.nodes q).filesystem = (w.nodes q).filesystem := fun hnodes hn =>
    update_same (·.filesystem) hnodes hn q
  cases l with
  | call p e =>
    obtain ⟨hfuse, fs, hfs, rfl⟩ := call_eq_some h
    by_cases hq : q = p
    · subst hq
      exact Or.inr (Or.inl ⟨e, rfl, hfuse, by simpa using hfs⟩)
    · exact Or.inl (by simp [hq])
  | broadcast p operations =>
    obtain ⟨-, b, -, rfl⟩ := broadcast_eq_some h
    exact Or.inl rfl
  | bridge p e =>
    obtain ⟨-, b, -, rfl⟩ := bridge_eq_some h
    exact Or.inl (hsame rfl rfl)
  | fetch p hash waiter =>
    obtain ⟨-, rfl⟩ := fetch_eq_some h
    exact Or.inl (hsame rfl rfl)
  | tick p c input =>
    obtain ⟨-, -, e, w₁, d, harrive, htick, rfl⟩ := tick_eq_some h
    obtain ⟨commands, hnodes⟩ := (arrives harrive).nodes
    by_cases hq : q = p
    · subst hq
      refine Or.inr (Or.inr ⟨c, input, e, w₁, rfl, harrive, ?_⟩)
      have hcalls := calls_tick htick
      rw [nodes_dispatched_self]
      simpa [hnodes] using hcalls
    · left
      rw [nodes_dispatched_of_ne hq, hnodes, Function.update_of_ne hq]

variable [LawfulCrdtTree PeerId]

theorem inv_step {l : ClusterEvent PeerId} (h : clusterStep l w = some w')
    (hinv : ∀ q, (w.nodes q).filesystem.Inv) (q : PeerId) : (w'.nodes q).filesystem.Inv := by
  rcases filesystem_cases h q with hsame | ⟨e, -, -, hcall⟩ | ⟨c, input, e, w₁, -, -, hcalls⟩
  · rw [hsame]
    exact hinv q
  · exact FileSystem.inv_step (hinv q) hcall
  · exact hcalls.inv (hinv q)

/-- **Every run** keeps the file systems well formed. -/
theorem inv_run {maxPinnedBytes start : PeerId → ℕ} {events : List (ClusterEvent PeerId)}
    (hrun : run clusterStep events (init maxPinnedBytes start) = some w) (q : PeerId) :
    (w.nodes q).filesystem.Inv :=
  run_invariant (I := fun w : Cluster PeerId => ∀ q, (w.nodes q).filesystem.Inv)
    (fun _ _ _ hinv hstep => inv_step hstep hinv) (fun q => FileSystem.inv_init q _) hrun q

end Cluster

end Edfs.Network

namespace Edfs.Network.Cluster

open Reference

/-- What a node finds around it that has some chunks. -/
def context (p : ℕ) (connected : List ℕ) (chunks : List ChunkHash) : EventContext ℕ where
  localPeerId := p
  connected := connected
  clock _ := 1
  wall _ := 2
  random := 0
  live _ := chunks
  pinned := chunks
  trySend _ _ := true
  publish _ := true

/-- A file of one byte is created at a node. -/
def writes (p : ℕ) : List (ClusterEvent ℕ) :=
  [.call p (fun _ => 1, .mutate (.createFile NodeId.root "a")),
    .call p (fun _ => 2,
      .mutate (.writeFile ⟨UuidV5.newV5 NodeId.root.uuid "a"⟩ [9]))]

end Edfs.Network.Cluster
