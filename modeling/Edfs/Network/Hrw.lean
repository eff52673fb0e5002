import Edfs.Base.Ranking
import Edfs.Domain
import Mathlib.Data.Prod.Lex
import Mathlib.Data.List.Lex

/-!
# Rendezvous hashing

`network/hrw.rs`: for each chunk the peers are ranked by the first eight bytes of the digest of
hash and peer id, read as a big-endian number, and then by the bytes of the id. The bytes of a
`libp2p::PeerId` are a parameter; that distinct peers have distinct bytes is a hypothesis wherever
it is used.
-/

namespace Edfs

/-- `PeerId::to_bytes`. -/
class PeerBytes (PeerId : Type) where
  toBytes : PeerId → Bytes

/-- Distinct peers have distinct bytes. -/
class LawfulPeerBytes (PeerId : Type) [PeerBytes PeerId] : Prop where
  injective : Function.Injective (PeerBytes.toBytes : PeerId → Bytes)

/-- `u64::from_be_bytes`. -/
def fromBeBytes (b : Bytes) : ℕ := b.foldl (fun n x => n * 256 + x.toNat) 0

variable {PeerId : Type} [PeerBytes PeerId] [Sha256]

def hrwScore (hash : ChunkHash) (peer : PeerId) : ℕ :=
  fromBeBytes ((Sha256.digest (hash.bytes ++ PeerBytes.toBytes peer)).take 8)

/-- What `top_peers` compares: the score, then the bytes of the id. -/
def rank (hash : ChunkHash) (peer : PeerId) : ℕ ×ₗ List ℕ :=
  toLex (hrwScore hash peer, (PeerBytes.toBytes peer).map UInt8.toNat)

/-- The best `n` members for a chunk, best first. -/
def topPeers (hash : ChunkHash) (members : List PeerId) (n : ℕ) : List PeerId :=
  Ranking.top (rank hash) members n

theorem rank_injective [LawfulPeerBytes PeerId] (hash : ChunkHash) :
    Function.Injective (rank hash : PeerId → ℕ ×ₗ List ℕ) := by
  intro p q h
  have hbytes := (Prod.ext_iff.1 (toLex.injective h)).2
  refine LawfulPeerBytes.injective (List.map_injective_iff.2 (fun a b hab => ?_) hbytes)
  exact UInt8.toNat_inj.1 hab

end Edfs
