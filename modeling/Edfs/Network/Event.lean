import Edfs.Network.Replication
import Edfs.Reference

/-!
# Events

`network/protocol.rs` and `network/event.rs`: the requests that nodes send each other, the commands
of the file system to the network, and what a node's dispatcher handles. An event comes from the
swarm, from the channel of commands, or from the timer.

The encoding of gossip is a parameter; what is assumed of it is in `LawfulBincode`. A response
channel is the request it belongs to.
-/

namespace Edfs.Network

inductive Request (PeerId : Type)
  | pullChunk (hash : ChunkHash)
  | checkChunks (hashes : List ChunkHash)
  | pullMissingOperations (knownIds : List (NodeOperationId PeerId))
  deriving DecidableEq

inductive SwarmCommand (PeerId : Type)
  | broadcastOperations (operations : List (NodeOperation PeerId))
  | fetchChunk (hash : ChunkHash) (reply : Option ℕ) (pin : Bool)
  deriving DecidableEq

/-- `request_response::ResponseChannel`: who has sent the request, and its id. -/
structure ResponseChannel (PeerId : Type) where
  peer : PeerId
  requestId : ℕ
  deriving DecidableEq

/-- `Multiaddr`, as its text. -/
abbrev Multiaddr := String

/-- The swarm events that some handler looks at, and the others. -/
inductive SwarmEvent (PeerId : Type)
  | request (request : Request PeerId) (channel : ResponseChannel PeerId)
  | response (requestId : ℕ) (response : Response PeerId)
  | outboundFailure (requestId : ℕ)
  | gossipsub (data : Bytes)
  | discovered (list : List (PeerId × Multiaddr))
  | connectionEstablished (peer : PeerId) (numEstablished : ℕ)
  | other

inductive Event (PeerId : Type)
  | tick
  | swarm (e : SwarmEvent PeerId)
  | request (request : Request PeerId) (reply : Option (ResponseChannel PeerId))
  | response (requestId : ℕ) (response : Response PeerId)
  | gossip (data : Bytes)
  | command (c : SwarmCommand PeerId)

/-- `From<SwarmEvent<BehaviourEvent>> for Event`. -/
def Event.ofSwarm {PeerId : Type} : SwarmEvent PeerId → Event PeerId
  | .request r channel => .request r (some channel)
  | .response requestId r => .response requestId r
  | .gossipsub data => .gossip data
  | e => .swarm e

/-- `bincode` on a `Gossip` message, which has operations and nothing else. -/
class Bincode (PeerId : Type) where
  encode : List (NodeOperation PeerId) → Option Bytes
  decode : Bytes → Option (List (NodeOperation PeerId))

/-- What has been encoded can be decoded. -/
class LawfulBincode (PeerId : Type) [Bincode PeerId] : Prop where
  decode_encode : ∀ (ops : List (NodeOperation PeerId)) (data : Bytes),
    Bincode.encode ops = some data → Bincode.decode data = some ops

end Edfs.Network

namespace Edfs.Reference

/-- A node creates a directory. -/
def creates : Event ℕ := (fun _ => 1, .mutate (.createDirectory NodeId.root "a"))

/-- What the call reports on node 0. -/
def created : List (NodeOperation ℕ) := FileSystem.emitted creates (FileSystem.init 0 100)

/-- An encoding of some messages by their numbers, in unary. -/
@[reducible] def table (messages : List (List (NodeOperation ℕ))) : Network.Bincode ℕ where
  encode operations :=
    if operations ∈ messages then some (List.replicate (messages.idxOf operations) 0) else none
  decode data := messages[data.length]?

scoped instance : Network.Bincode ℕ := table [created]

scoped instance : Network.LawfulBincode ℕ where
  decode_encode operations data h := by
    change (if operations ∈ [created] then _ else none) = some data at h
    split_ifs at h with hmem
    cases h
    change [created][(List.replicate _ 0).length]? = some operations
    rw [List.length_replicate, List.getElem?_eq_getElem (List.idxOf_lt_length_iff.2 hmem),
      List.getElem_idxOf]

end Edfs.Reference
