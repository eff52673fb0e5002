import Edfs.Base.FiniteTree
import Edfs.Filesystem.Tree.NodeTree
import Edfs.Network.Hrw
import Mathlib.Logic.Encodable.Basic
import Mathlib.Logic.Equiv.List

/-!
# Reference implementations of the parameters

Computable stand-ins for the third-party code, each with the behaviour that is assumed of it: so
the assumptions can be met together, and the model can be run on concrete inputs. They are
instances only where this namespace is opened.

* `Sha256`: the data itself; `UuidV5`: a pairing, above the 128-bit ids; `FastCdc`: one piece, as
  the real one cuts short inputs;
* `PeerBytes`: the number in unary, so that with this digest a greater peer ranks higher;
* `CrdtTree`: the replica of `MoveTree` that computes.
-/

namespace Edfs.Reference

scoped instance : Sha256 := ⟨id⟩

scoped instance : LawfulSha256 := ⟨Function.injective_id⟩

/-- The code points of a name, as a number. -/
def encodeName (name : String) : ℕ := Encodable.encode (name.toList.map Char.toNat)

theorem encodeName_injective : Function.Injective encodeName := by
  intro a b h
  have hchars : a.toList.map Char.toNat = b.toList.map Char.toNat := Encodable.encode_injective h
  refine String.toList_injective (List.map_injective_iff.2 (fun c d hcd => ?_) hchars)
  exact Char.toNat_inj.1 hcd

scoped instance : UuidV5 := ⟨fun p name => 2 ^ 128 + Nat.pair p (encodeName name)⟩

scoped instance : LawfulUuidV5 where
  injective h := by
    obtain ⟨hp, hn⟩ := Nat.pair_eq_pair.1 (Nat.add_left_cancel h)
    exact ⟨hp, encodeName_injective hn⟩
  ne_nil _ _ h := by
    have : (2 : ℕ) ^ 128 + _ = 0 := h
    omega
  ne_max _ _ h := by
    have : (2 : ℕ) ^ 128 + _ = 2 ^ 128 - 1 := h
    omega

scoped instance : FastCdc := ⟨fun data _ _ _ => if data = [] then [] else [(0, data.length)]⟩

scoped instance : LawfulFastCdc where
  tiles data _ _ _ := by
    show Tiles 0 (if data = [] then [] else [(0, data.length)]) data.length
    split_ifs with h
    · rw [h]
      rfl
    · exact ⟨rfl, List.length_pos_of_ne_nil h, Nat.zero_add _⟩

scoped instance : PeerBytes ℕ := ⟨fun p => List.replicate p 0⟩

scoped instance : LawfulPeerBytes ℕ where
  injective p q h := by
    have hbytes : List.replicate p (0 : UInt8) = List.replicate q 0 := h
    simpa using congrArg List.length hbytes

variable {PeerId : Type} [LinearOrder PeerId]

scoped instance : CrdtTree PeerId where
  TreeReplica := MoveTree.Replica (Clock PeerId) NodeId NodeMeta
  new _ := .empty
  applyOp r op := MoveTree.Replica.applyOp op r.log r.nodes
  log r := r.log
  find r := r.nodes.tree
  children r := r.children

scoped instance : LawfulCrdtTree PeerId where
  state_new _ := MoveTree.Replica.state_empty
  state_applyOp r op := MoveTree.Replica.state_applyOp op r.log r.nodes
  children_nodup r p := MoveTree.Replica.children_nodup r p
  mem_children r p c := MoveTree.Replica.mem_children r p c

end Edfs.Reference
