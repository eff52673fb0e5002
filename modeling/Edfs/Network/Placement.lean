import Edfs.Reference

/-!
# Placement

Every node computes the holders of a chunk for itself, from the members it sees, in the order it
sees them. `topPeers_placement`: all find the same holders, and a member that joins or leaves moves
no more than it has to. Equal scores are possible: the bytes of the ids decide then.
-/

namespace Edfs

section

variable {PeerId : Type} [PeerBytes PeerId] [Sha256] [LawfulPeerBytes PeerId] [DecidableEq PeerId]

/-- **Placement is order-free and minimally disruptive.** -/
theorem topPeers_placement (hash : ChunkHash) {members : List PeerId} (hnodup : members.Nodup)
    (n : ℕ) :
    (∀ members' : List PeerId, members'.Perm members →
      topPeers hash members' n = topPeers hash members n) ∧
    (topPeers hash members n).length = min n members.length ∧
    (topPeers hash members n).Nodup ∧
    (∀ p ∈ topPeers hash members n, p ∈ members ∧
      ∀ q ∈ members, q ∉ topPeers hash members n → rank hash q < rank hash p) ∧
    (∀ p ∉ members, ∀ members' : List PeerId, members'.Perm (p :: members) →
      Ranking.Displaces p (topPeers hash members n) (topPeers hash members' n)) ∧
    ∀ (p : PeerId) (members' : List PeerId), members.Perm (p :: members') →
      p ∉ topPeers hash members n → topPeers hash members' n = topPeers hash members n := by
  have hkey : Function.Injective (rank hash : PeerId → ℕ ×ₗ List ℕ) := rank_injective hash
  refine ⟨fun members' h => Ranking.top_perm hkey h n, Ranking.length_top members n,
    Ranking.nodup_top hnodup n, fun p hp => ⟨Ranking.top_subset hp, fun q hq hnot =>
      Ranking.lt_of_mem_top hkey hp hq hnot⟩, fun p hp members' h => ?_, fun p members' h hp => ?_⟩
  · have hsame : topPeers hash members' n = topPeers hash (p :: members) n :=
      Ranking.top_perm hkey h n
    rw [hsame]
    exact Ranking.displaces_top hp n
  · exact Ranking.top_of_not_mem hkey h hp

end

open Reference in
/-- Peer 3 joins peers 1 and 2 and takes the place of peer 1. -/
theorem topPeers_join :
    Ranking.Displaces 3 (topPeers ⟨[]⟩ [1, 2] 2) (topPeers ⟨[]⟩ [3, 1, 2] 2) := by
  have hnodup : [1, 2].Nodup := by decide
  exact (topPeers_placement ⟨[]⟩ hnodup 2).2.2.2.2.1 3 (by decide) _ (.refl _)

end Edfs
