import Mathlib.Tactic

/-!
# Domain types

The values the three layers share (`domain.rs`, `config.rs`), and the third-party code they are
built from, as parameters: SHA-256, version-5 UUIDs and FastCDC. What the program relies on in
each of them is stated next to it, and is a hypothesis wherever it is used.

A `u64` is a natural number. `checkedAdd` is its addition: no result where the code's own
addition overflows.
-/

namespace Edfs

/-- The contents of a `Vec<u8>`. -/
abbrev Bytes := List UInt8

/-! ### `u64` arithmetic -/

/-- `u64::MAX`. -/
def u64Max : ℕ := 2 ^ 64 - 1

/-- `a + b` on `u64`; `none` on overflow. -/
def checkedAdd (a b : ℕ) : Option ℕ := if a + b ≤ u64Max then some (a + b) else none

/-- `u64::saturating_add`. -/
def saturatingAdd (a b : ℕ) : ℕ := min (a + b) u64Max

theorem checkedAdd_eq_some {a b c : ℕ} :
    checkedAdd a b = some c ↔ a + b ≤ u64Max ∧ c = a + b := by
  unfold checkedAdd
  split_ifs with h <;> simp [h, eq_comm]

/-! ### Node ids -/

/-- A `Uuid`, by its value. The code only compares ids, so they are not bounded here. -/
abbrev Uuid := ℕ

/-- `Uuid::nil()`. -/
def Uuid.nil : Uuid := 0

/-- `Uuid::max()`. -/
def Uuid.max : Uuid := 2 ^ 128 - 1

/-- `Uuid::new_v5`: the id derived from a namespace id and a name. -/
class UuidV5 where
  newV5 : Uuid → String → Uuid

/-- Version-5 ids do not collide, and are never the nil or the max id. -/
class LawfulUuidV5 [UuidV5] : Prop where
  injective : ∀ {p q : Uuid} {m n : String}, UuidV5.newV5 p m = UuidV5.newV5 q n → p = q ∧ m = n
  ne_nil : ∀ p n, UuidV5.newV5 p n ≠ Uuid.nil
  ne_max : ∀ p n, UuidV5.newV5 p n ≠ Uuid.max

structure NodeId where
  uuid : Uuid
  deriving DecidableEq

/-- The root directory's id. -/
def NodeId.root : NodeId := ⟨Uuid.nil⟩

/-- The id deleted nodes are moved under. -/
def NodeId.trash : NodeId := ⟨Uuid.max⟩

def NodeId.isReserved (n : NodeId) : Bool := n = root || n = trash

theorem NodeId.root_ne_trash : NodeId.root ≠ NodeId.trash := by decide

/-! ### Chunks -/

/-- SHA-256. -/
class Sha256 where
  digest : Bytes → Bytes

/-- SHA-256 has no collisions. -/
class LawfulSha256 [Sha256] : Prop where
  injective : Function.Injective Sha256.digest

structure ChunkHash where
  bytes : Bytes
  deriving DecidableEq

/-- The hash of some bytes. -/
def ChunkHash.of [Sha256] (data : Bytes) : ChunkHash := ⟨Sha256.digest data⟩

theorem ChunkHash.of_injective [Sha256] [LawfulSha256] : Function.Injective ChunkHash.of :=
  fun _ _ h => LawfulSha256.injective (ChunkHash.mk.inj h)

/-- A chunk. Its fields are private in the source and `new` is the only way to make one, so it
carries the fact that its key is the hash of its data. -/
@[ext] structure Chunk [Sha256] where
  hash : ChunkHash
  data : Bytes
  hash_eq : hash = ChunkHash.of data

structure ChunkRef where
  hash : ChunkHash
  size : ℕ
  deriving DecidableEq

section Chunk

variable [Sha256]

def Chunk.new (data : Bytes) : Chunk := ⟨ChunkHash.of data, data, rfl⟩

@[simp] theorem Chunk.new_hash (data : Bytes) : (Chunk.new data).hash = ChunkHash.of data := rfl
@[simp] theorem Chunk.new_data (data : Bytes) : (Chunk.new data).data = data := rfl

theorem Chunk.eq_new (c : Chunk) : c = Chunk.new c.data := Chunk.ext c.hash_eq rfl

def Chunk.reference (c : Chunk) : ChunkRef := ⟨c.hash, c.data.length⟩

end Chunk

/-! ### Node metadata -/

inductive NodeMeta
  | directory (name : String)
  | regularFile (name : String) (size : ℕ) (chunkRefs : List ChunkRef)
  | symlink (name : String) (target : String)
  deriving DecidableEq

def NodeMeta.name : NodeMeta → String
  | .directory name => name
  | .regularFile name _ _ => name
  | .symlink name _ => name

/-- The metadata of a directory. -/
def NodeMeta.isDirectory : NodeMeta → Bool
  | .directory _ => true
  | _ => false

theorem NodeMeta.exists_of_isDirectory {m : NodeMeta} (h : m.isDirectory) :
    ∃ name, m = .directory name := by
  cases m with
  | directory name => exact ⟨name, rfl⟩
  | _ => cases h

/-! ### Chunking -/

def fastcdcMinChunkSize : ℕ := 1024
def fastcdcAvgChunkSize : ℕ := 512 * 1024
def fastcdcMaxChunkSize : ℕ := 1024 * 1024

/-- `fastcdc::v2020::FastCDC`: the pieces of an input, as offsets and lengths, for the minimum,
average and maximum piece size. -/
class FastCdc where
  cut : Bytes → ℕ → ℕ → ℕ → List (ℕ × ℕ)

/-- The pieces are non-empty and follow each other from `start` to `stop`. -/
def Tiles : ℕ → List (ℕ × ℕ) → ℕ → Prop
  | start, [], stop => start = stop
  | start, (offset, length) :: ps, stop =>
      offset = start ∧ 0 < length ∧ Tiles (start + length) ps stop

/-- FastCDC yields contiguous non-empty pieces that cover the input in order. -/
class LawfulFastCdc [FastCdc] : Prop where
  tiles : ∀ data min avg max, Tiles 0 (FastCdc.cut data min avg max) data.length

end Edfs
