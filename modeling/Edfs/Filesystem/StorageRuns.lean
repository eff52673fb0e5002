import Edfs.Base.Execution
import Edfs.Filesystem.StorageInvariant
import Edfs.Reference

/-!
# Runs of the chunk store

Every sequence of calls on a new store, with the places where the source would panic: a `usize`
subtraction below zero, the `unwrap` of `try_pin`; and the one where `cache` would give up, its
queue empty.

* `StorageCall`, `call`, and `callChecked`, which has no result where the source panics or gives
  up;
* `Accounted`: the invariant of the cache, and the pinned bytes are those of the pinned entries,
  within the capacity; `callChecked_eq`: there the checks pass, `accounted_call`: and every call
  keeps it;
* `storage_accounted`, about all runs; `try_pin_exact`, about `try_pin` after any run.
-/

namespace Edfs

inductive StorageCall [Sha256]
  | tryPin (chunks : List Chunk)
  | cache (c : Chunk)
  | get (h : ChunkHash)
  | promoteToPinned (h : ChunkHash)
  | evict (h : ChunkHash)

namespace ChunkStorage

open Execution

variable [Sha256]

/-- The store after a call. -/
def call (s : ChunkStorage) : StorageCall → ChunkStorage
  | .tryPin chunks => (s.tryPin chunks).2
  | .cache c => s.cache c
  | .get h => (s.get h).2
  | .promoteToPinned h => (s.promoteToPinned h).2
  | .evict h => (s.evict h).2

/-! ### The calls with their checks -/

/-- A subtraction of byte counts. -/
def checkedSub (a b : ℕ) : Option ℕ := if b ≤ a then some (a - b) else none

def freeBytesChecked (s : ChunkStorage) : Option ℕ := checkedSub s.maxPinnedBytes s.pinnedBytes

def pinCachedChecked (s : ChunkStorage) (h : ChunkHash) (e : ChunkEntry) : Option ChunkStorage :=
  (checkedSub s.cachedBytes e.data.length).map fun cachedBytes =>
    { s with
      chunks := s.chunks.insert h { e with pinned := true }
      pinnedBytes := s.pinnedBytes + e.data.length
      cachedBytes := cachedBytes
      cacheLru := s.cacheLru.filter (· ≠ h) }

/-- One round of the last loop of `try_pin`, with the entry unwrapped. -/
def pinCachedHashChecked (s : ChunkStorage) (h : ChunkHash) : Option ChunkStorage :=
  (s.entry h).bind (s.pinCachedChecked h)

def tryPinChecked (s : ChunkStorage) (chunks : List Chunk) : Option ChunkStorage :=
  let plan := s.pinPlan [] chunks
  if s.maxPinnedBytes < s.pinnedBytes + plan.requiredBytes then some s
  else plan.cachedHashes.foldlM pinCachedHashChecked (plan.newChunks.foldl insertPinned s)

/-- The loop of `cache`; it has no result when it gives up. -/
def makeRoomChecked (chunkSize : ℕ) (s : ChunkStorage) : List ChunkHash → Option ChunkStorage
  | [] =>
    if s.cachedBytes + chunkSize ≤ s.maxCachedBytes then some { s with cacheLru := [] } else none
  | h :: lru =>
    if s.maxCachedBytes < s.cachedBytes + chunkSize then
      match s.entry h with
      | none => makeRoomChecked chunkSize s lru
      | some e =>
        (checkedSub s.cachedBytes e.data.length).bind fun cachedBytes =>
          makeRoomChecked chunkSize
            { s with
              chunks := s.chunks.erase h
              cachedBytes := cachedBytes } lru
    else some { s with cacheLru := h :: lru }

def cacheChecked (s : ChunkStorage) (c : Chunk) : Option ChunkStorage :=
  if s.contains c.hash ∨ s.maxCachedBytes < c.data.length then some s
  else
    (s.makeRoomChecked c.data.length s.cacheLru).map fun s =>
      { s with
        cacheLru := s.cacheLru ++ [c.hash]
        chunks := s.chunks.insert c.hash ⟨c.data, false⟩
        cachedBytes := s.cachedBytes + c.data.length }

def promoteToPinnedChecked (s : ChunkStorage) (h : ChunkHash) : Option ChunkStorage :=
  match s.entry h with
  | none => some s
  | some e =>
    if e.pinned then some s
    else if s.maxPinnedBytes < s.pinnedBytes + e.data.length then some s
    else s.pinCachedChecked h e

def evictChecked (s : ChunkStorage) (h : ChunkHash) : Option ChunkStorage :=
  match s.entry h with
  | none => some s
  | some e =>
    if e.pinned then
      (checkedSub s.pinnedBytes e.data.length).map fun pinnedBytes =>
        { s with
          chunks := s.chunks.erase h
          pinnedBytes := pinnedBytes }
    else
      (checkedSub s.cachedBytes e.data.length).map fun cachedBytes =>
        { s with
          chunks := s.chunks.erase h
          cachedBytes := cachedBytes
          cacheLru := s.cacheLru.filter (· ≠ h) }

/-- A call with its checks. -/
def callChecked : StorageCall → ChunkStorage → Option ChunkStorage
  | .tryPin chunks, s => s.tryPinChecked chunks
  | .cache c, s => s.cacheChecked c
  | .get h, s => some (s.get h).2
  | .promoteToPinned h, s => s.promoteToPinnedChecked h
  | .evict h, s => s.evictChecked h

omit [Sha256] in
theorem checkedSub_eq {a b : ℕ} (h : b ≤ a) : checkedSub a b = some (a - b) := if_pos h

/-! ### The pinned bytes -/

/-- `pinned_hashes`. -/
def pinnedHashes (s : ChunkStorage) : Finset ChunkHash :=
  s.chunks.keys.filter fun h => s.isPinned h

/-- The hashes of the unpinned entries. -/
def cachedHashes (s : ChunkStorage) : Finset ChunkHash :=
  s.chunks.keys.filter fun h => s.isCached h

omit [Sha256] in
theorem mem_pinnedHashes {s : ChunkStorage} {h : ChunkHash} :
    h ∈ s.pinnedHashes ↔ s.isPinned h := by
  rw [pinnedHashes, Finset.mem_filter]
  refine and_iff_right_of_imp fun hp => ?_
  obtain ⟨d, hd⟩ := isPinned_iff.1 hp
  exact Finmap.mem_keys.2 (Finmap.mem_of_lookup_eq_some hd)

omit [Sha256] in
theorem mem_cachedHashes_iff {s : ChunkStorage} {h : ChunkHash} :
    h ∈ s.cachedHashes ↔ s.isCached h := by
  rw [cachedHashes, Finset.mem_filter]
  refine and_iff_right_of_imp fun hp => ?_
  obtain ⟨d, hd⟩ := isCached_iff.1 hp
  exact Finmap.mem_keys.2 (Finmap.mem_of_lookup_eq_some hd)

/-- The invariant of the cache, and the accounts of the pinned bytes. -/
structure Accounted (s : ChunkStorage) : Prop extends s.Inv where
  pinnedBytes_eq : s.pinnedBytes = ∑ h ∈ s.pinnedHashes, s.sizeOf h
  pinnedBytes_le : s.pinnedBytes ≤ s.maxPinnedBytes

/-- The cached bytes are those of the unpinned entries. -/
theorem Inv.cachedBytes_eq_sum {s : ChunkStorage} (h : s.Inv) :
    s.cachedBytes = ∑ h ∈ s.cachedHashes, s.sizeOf h := by
  rw [h.cachedBytes_eq, ByteLru.total_eq_sum _ h.lru_nodup]
  refine Finset.sum_congr ?_ fun _ _ => rfl
  ext x
  rw [List.mem_toFinset, h.mem_lru, mem_cachedHashes_iff]

/-- An unpinned entry is counted in the cached bytes. -/
theorem Inv.length_le_cachedBytes {s : ChunkStorage} (h : s.Inv) {x : ChunkHash} {d : Bytes}
    (hx : s.entry x = some ⟨d, false⟩) : d.length ≤ s.cachedBytes := by
  rw [h.cachedBytes_eq_sum, ← sizeOf_eq hx]
  exact Finset.single_le_sum (fun _ _ => Nat.zero_le _)
    (mem_cachedHashes_iff.2 (isCached_iff.2 ⟨d, hx⟩))

/-- A pinned entry is counted in the pinned bytes. -/
theorem Accounted.length_le_pinnedBytes {s : ChunkStorage} (h : s.Accounted) {x : ChunkHash}
    {d : Bytes} (hx : s.entry x = some ⟨d, true⟩) : d.length ≤ s.pinnedBytes := by
  rw [h.pinnedBytes_eq, ← sizeOf_eq hx]
  exact Finset.single_le_sum (fun _ _ => Nat.zero_le _)
    (mem_pinnedHashes.2 (isPinned_iff.2 ⟨d, hx⟩))

omit [Sha256] in
/-- Stores with the same pinned entries count the same bytes for them. -/
theorem sum_pinned_congr {s s' : ChunkStorage}
    (h : ∀ x d, s'.entry x = some ⟨d, true⟩ ↔ s.entry x = some ⟨d, true⟩) :
    ∑ x ∈ s'.pinnedHashes, s'.sizeOf x = ∑ x ∈ s.pinnedHashes, s.sizeOf x := by
  have hpinned : s'.pinnedHashes = s.pinnedHashes := by
    ext x
    simp only [mem_pinnedHashes, isPinned_iff, h]
  rw [hpinned]
  refine Finset.sum_congr rfl fun x hx => ?_
  obtain ⟨d, hd⟩ := isPinned_iff.1 (mem_pinnedHashes.1 hx)
  rw [sizeOf_eq hd, sizeOf_eq ((h x d).2 hd)]

/-! ### The checks pass -/

theorem accounted_new (maxPinnedBytes : ℕ) : (ChunkStorage.new maxPinnedBytes).Accounted where
  toInv := inv_new maxPinnedBytes
  pinnedBytes_eq := (Finset.sum_eq_zero fun _ hx => by cases mem_pinnedHashes.1 hx).symm
  pinnedBytes_le := Nat.zero_le _

theorem Accounted.freeBytesChecked {s : ChunkStorage} (h : s.Accounted) :
    s.freeBytesChecked = some s.freeBytes := checkedSub_eq h.pinnedBytes_le

theorem Inv.pinCachedChecked {s : ChunkStorage} (h : s.Inv) {x : ChunkHash} {d : Bytes}
    (hx : s.entry x = some ⟨d, false⟩) :
    s.pinCachedChecked x ⟨d, false⟩ = some (s.pinCached x ⟨d, false⟩) := by
  rw [ChunkStorage.pinCachedChecked, checkedSub_eq (h.length_le_cachedBytes hx)]
  rfl

omit [Sha256] in
/-- The last loop of `try_pin` unwraps entries that are there, and takes off no more than is
cached. -/
theorem foldlM_pinCachedHashChecked {hs : List ChunkHash} (hnd : hs.Nodup) {s : ChunkStorage}
    (hcached : ∀ h ∈ hs, s.isCached h) (hle : (hs.map s.sizeOf).sum ≤ s.cachedBytes) :
    hs.foldlM pinCachedHashChecked s = some (hs.foldl pinCachedHash s) := by
  induction hs generalizing s with
  | nil => rfl
  | cons h hs ih =>
    obtain ⟨hh, hnd'⟩ := List.nodup_cons.1 hnd
    obtain ⟨d, hd⟩ := isCached_iff.1 (hcached h List.mem_cons_self)
    rw [List.map_cons, List.sum_cons, sizeOf_eq hd] at hle
    dsimp only at hle
    have hent : ∀ x ∈ hs, (s.pinCached h ⟨d, false⟩).entry x = s.entry x := fun x hx => by
      rw [entry_pinCached, if_neg (ne_of_mem_of_not_mem hx hh)]
    have hsum : (hs.map (s.pinCached h ⟨d, false⟩).sizeOf).sum = (hs.map s.sizeOf).sum :=
      congrArg List.sum (List.map_congr_left fun x hx => sizeOf_congr (hent x hx))
    have hchecked : s.pinCachedHashChecked h = some (s.pinCachedHash h) := by
      rw [pinCachedHashChecked, pinCachedHash, hd, Option.bind_some, ChunkStorage.pinCachedChecked,
        checkedSub_eq (le_trans (Nat.le_add_right d.length _) hle)]
      rfl
    have hstep : s.pinCachedHash h = s.pinCached h ⟨d, false⟩ := by simp [pinCachedHash, hd]
    rw [List.foldlM_cons, hchecked, List.foldl_cons, hstep]
    refine ih hnd' (fun x hx => ?_) ?_
    · rw [isCached, hent x hx]
      exact hcached x (List.mem_cons_of_mem h hx)
    · rw [hsum]
      change _ ≤ s.cachedBytes - d.length
      omega

/-- Inserting the new chunks changes no entry of a cached hash. -/
theorem entry_of_cached_insert {s : ChunkStorage} (cs : List Chunk) {hs : List ChunkHash}
    (hcached : ∀ x ∈ hs, s.isCached x) : ∀ x ∈ hs,
      ((s.pinPlan [] cs).newChunks.foldl insertPinned s).entry x = s.entry x := fun x hx => by
  refine entry_foldl_insertPinned_of_notMem (fun hmem => ?_) s
  obtain ⟨c, hc, rfl⟩ := List.mem_map.1 hmem
  obtain ⟨d, hd⟩ := isCached_iff.1 (hcached _ hx)
  exact Option.some_ne_none _ (hd.symm.trans (mem_newChunks hc).2.2)

theorem Inv.tryPinChecked {s : ChunkStorage} (h : s.Inv) (chunks : List Chunk) :
    s.tryPinChecked chunks = some (s.tryPin chunks).2 := by
  unfold ChunkStorage.tryPinChecked tryPin
  dsimp only
  split_ifs
  · rfl
  · set plan := s.pinPlan [] chunks with hplan
    have hcached : ∀ x ∈ plan.cachedHashes, s.isCached x := fun x hx =>
      (mem_cachedHashes.1 hx).2.2
    have hnd : plan.cachedHashes.Nodup := cachedHashes_nodup s [] chunks
    have hent := entry_of_cached_insert chunks hcached
    refine foldlM_pinCachedHashChecked hnd (fun x hx => ?_) ?_
    · rw [isCached, hent x hx]
      exact hcached x hx
    · rw [(foldl_insertPinned_rest plan.newChunks s).2.1, h.cachedBytes_eq_sum,
        List.map_congr_left fun x hx => sizeOf_congr (hent x hx), ← List.sum_toFinset _ hnd]
      exact Finset.sum_le_sum_of_subset fun x hx =>
        mem_cachedHashes_iff.2 (hcached x (List.mem_toFinset.1 hx))

omit [Sha256] in
/-- The eviction loop takes off no more than is cached, and does not give up. -/
theorem makeRoomChecked_eq {size : ℕ} {q : List ChunkHash} {s : ChunkStorage}
    (hsize : size ≤ s.maxCachedBytes) (hq : q.Nodup) (hin : ∀ h ∈ q, s.contains h)
    (hbytes : s.cachedBytes = ByteLru.total s.sizeOf q) :
    s.makeRoomChecked size q = some (s.makeRoom size q).1 := by
  induction q generalizing s with
  | nil =>
    simp only [ByteLru.total_nil] at hbytes
    exact if_pos (by omega)
  | cons h q ih =>
    obtain ⟨hh, hq'⟩ := List.nodup_cons.1 hq
    obtain ⟨e, he⟩ := contains_iff.1 (hin h List.mem_cons_self)
    rw [ByteLru.total_cons, sizeOf_eq he] at hbytes
    unfold makeRoomChecked makeRoom
    split_ifs
    · rw [he]
      dsimp only
      rw [checkedSub_eq (by omega), Option.bind_some]
      set s₁ : ChunkStorage := { s with
        chunks := s.chunks.erase h
        cachedBytes := s.cachedBytes - e.data.length } with hs₁
      have hent : ∀ x ∈ q, s₁.entry x = s.entry x := fun x hx =>
        (entry_erase s h x).trans (if_neg (ne_of_mem_of_not_mem hx hh))
      refine ih hsize hq' (fun x hx => ?_) ?_
      · rw [contains, hent x hx]
        exact hin x (List.mem_cons_of_mem h hx)
      · have htotal : ByteLru.total s₁.sizeOf q = ByteLru.total s.sizeOf q :=
          ByteLru.total_congr _ fun x hx => sizeOf_congr (hent x hx)
        rw [htotal, hs₁]
        dsimp only
        omega
    · rfl

theorem Inv.cacheChecked {s : ChunkStorage} (h : s.Inv) (c : Chunk) :
    s.cacheChecked c = some (s.cache c) := by
  unfold ChunkStorage.cacheChecked cache
  split_ifs with hskip
  · rfl
  · obtain ⟨-, hfit⟩ := not_or.1 hskip
    have hin : ∀ x ∈ s.cacheLru, s.contains x := fun x hx => by
      obtain ⟨d, hd⟩ := isCached_iff.1 ((h.mem_lru x).1 hx)
      exact contains_iff.2 ⟨_, hd⟩
    have hroom := (makeRoom_spec (not_lt.1 hfit) h.lru_nodup (fun x hx => by
      obtain ⟨e, he⟩ := contains_iff.1 (hin x hx)
      exact ⟨e, he, (sizeOf_eq he).symm⟩) h.cachedBytes_eq).1
    rw [makeRoomChecked_eq (not_lt.1 hfit) h.lru_nodup hin h.cachedBytes_eq]
    rcases hm : s.makeRoom c.data.length s.cacheLru with ⟨s₁, ok⟩
    rw [hm] at hroom
    obtain rfl : ok = true := hroom
    rfl

theorem Inv.promoteToPinnedChecked {s : ChunkStorage} (h : s.Inv) (x : ChunkHash) :
    s.promoteToPinnedChecked x = some (s.promoteToPinned x).2 := by
  unfold ChunkStorage.promoteToPinnedChecked promoteToPinned
  rcases hx : s.entry x with _ | ⟨d, _ | _⟩
  · rfl
  · simp only [Bool.false_eq_true, if_false]
    split_ifs
    · rfl
    · exact h.pinCachedChecked hx
  · rfl

theorem Accounted.evictChecked {s : ChunkStorage} (h : s.Accounted) (x : ChunkHash) :
    s.evictChecked x = some (s.evict x).2 := by
  unfold ChunkStorage.evictChecked evict
  rcases hx : s.entry x with _ | ⟨d, _ | _⟩
  · rfl
  · dsimp only
    rw [checkedSub_eq (h.length_le_cachedBytes hx)]
    rfl
  · dsimp only
    rw [checkedSub_eq (h.length_le_pinnedBytes hx)]
    rfl

/-- **No call panics or gives up** on a store whose accounts are right. -/
theorem Accounted.callChecked {s : ChunkStorage} (h : s.Accounted) (c : StorageCall) :
    callChecked c s = some (s.call c) := by
  cases c with
  | tryPin chunks => exact h.tryPinChecked chunks
  | cache c => exact h.cacheChecked c
  | get x => rfl
  | promoteToPinned x => exact h.promoteToPinnedChecked x
  | evict x => exact h.evictChecked x

/-! ### The accounts stay right -/

omit [Sha256] in
theorem makeRoom_pinned (size : ℕ) (q : List ChunkHash) (s : ChunkStorage) :
    (s.makeRoom size q).1.pinnedBytes = s.pinnedBytes ∧
      (s.makeRoom size q).1.maxPinnedBytes = s.maxPinnedBytes := by
  induction q generalizing s with
  | nil => exact ⟨rfl, rfl⟩
  | cons h q ih =>
    unfold makeRoom
    split_ifs
    · cases s.entry h with
      | none => exact ih s
      | some e => exact ih _
    · exact ⟨rfl, rfl⟩

theorem accounted_cache {s : ChunkStorage} (h : s.Accounted) (c : Chunk) :
    (s.cache c).Accounted := by
  have hcounts : (s.cache c).pinnedBytes = s.pinnedBytes ∧
      (s.cache c).maxPinnedBytes = s.maxPinnedBytes := by
    have hroom := makeRoom_pinned c.data.length s.cacheLru s
    unfold cache
    split_ifs
    · exact ⟨rfl, rfl⟩
    · rcases hm : s.makeRoom c.data.length s.cacheLru with ⟨s₁, _ | _⟩ <;> rwa [hm] at hroom
  have hentry : ∀ x d, (s.cache c).entry x = some ⟨d, true⟩ ↔ s.entry x = some ⟨d, true⟩ := by
    refine fun x d => ⟨fun hx => ?_, fun hx => entry_cache_of_pinned h.toInv hx c⟩
    have hpinned := isPinned_iff.2 ⟨d, hx⟩
    rw [isPinned_cache h.toInv] at hpinned
    obtain ⟨d', hd'⟩ := isPinned_iff.1 hpinned
    exact hd'.trans ((entry_cache_of_pinned h.toInv hd' c).symm.trans hx)
  exact
    { toInv := inv_cache h.toInv c
      pinnedBytes_eq := by rw [hcounts.1, h.pinnedBytes_eq, sum_pinned_congr hentry]
      pinnedBytes_le := by rw [hcounts.1, hcounts.2]; exact h.pinnedBytes_le }

theorem accounted_get {s : ChunkStorage} (h : s.Accounted) (x : ChunkHash) :
    (s.get x).2.Accounted := by
  have hcounts : (s.get x).2.pinnedBytes = s.pinnedBytes ∧
      (s.get x).2.maxPinnedBytes = s.maxPinnedBytes := by
    unfold get
    rcases s.entry x with _ | ⟨d, _ | _⟩ <;> exact ⟨rfl, rfl⟩
  exact
    { toInv := inv_get h.toInv x
      pinnedBytes_eq := by
        rw [hcounts.1, h.pinnedBytes_eq, sum_pinned_congr fun y d => by rw [entry_get]]
      pinnedBytes_le := by rw [hcounts.1, hcounts.2]; exact h.pinnedBytes_le }

/-- Pinning a batch counts its chunks that were not pinned. -/
theorem PinsExactly.sum_pinned {s s' : ChunkStorage} {cs : List Chunk} (h : PinsExactly s cs s') :
    ∑ x ∈ s'.pinnedHashes, s'.sizeOf x = ∑ x ∈ s.pinnedHashes, s.sizeOf x +
      ∑ x ∈ (cs.map Chunk.hash).toFinset with ¬ s.isPinned x, s'.sizeOf x := by
  have hpinned : s'.pinnedHashes =
      s.pinnedHashes ∪ (cs.map Chunk.hash).toFinset.filter fun x => ¬ s.isPinned x := by
    ext x
    simp only [mem_pinnedHashes, PinsExactly.isPinned_iff h, Finset.mem_union, Finset.mem_filter,
      List.mem_toFinset]
    tauto
  have hdisjoint : Disjoint s.pinnedHashes
      ((cs.map Chunk.hash).toFinset.filter fun x => ¬ s.isPinned x) :=
    Finset.disjoint_left.2 fun x hx hx' => (Finset.mem_filter.1 hx').2 (mem_pinnedHashes.1 hx)
  rw [hpinned, Finset.sum_union hdisjoint]
  congr 1
  refine Finset.sum_congr rfl fun x hx => ?_
  obtain ⟨d, hd⟩ := ChunkStorage.isPinned_iff.1 (mem_pinnedHashes.1 hx)
  rw [sizeOf_eq hd, sizeOf_eq (h.kept x _ hd)]

/-- What the plan of `try_pin` counts. -/
theorem requiredBytes_eq (s : ChunkStorage) (seen : List ChunkHash) (cs : List Chunk) :
    (s.pinPlan seen cs).requiredBytes =
      ((s.pinPlan seen cs).newChunks.map fun c => c.data.length).sum +
        ((s.pinPlan seen cs).cachedHashes.map s.sizeOf).sum := by
  induction cs generalizing seen with
  | nil => rfl
  | cons d cs ih =>
    unfold pinPlan
    split_ifs
    · exact ih seen
    · rcases he : s.entry d.hash with _ | ⟨data, _ | _⟩
      · simp only [List.map_cons, List.sum_cons, ih]
        omega
      · simp only [Bool.false_eq_true, if_false, List.map_cons, List.sum_cons, ih, sizeOf_eq he]
        omega
      · exact ih _

/-- A successful `try_pin` counts the bytes of its plan, which fit. -/
theorem pinnedBytes_tryPin {s : ChunkStorage} {cs : List Chunk} (h : (s.tryPin cs).1 = .ok ()) :
    (s.tryPin cs).2.pinnedBytes = s.pinnedBytes + (s.pinPlan [] cs).requiredBytes ∧
      s.pinnedBytes + (s.pinPlan [] cs).requiredBytes ≤ s.maxPinnedBytes := by
  unfold tryPin at h ⊢
  dsimp only at h ⊢
  split_ifs at h ⊢ with hfull
  refine ⟨?_, not_lt.1 hfull⟩
  set plan := s.pinPlan [] cs with hplan
  have hcached : ∀ x ∈ plan.cachedHashes, s.isCached x := fun x hx => (mem_cachedHashes.1 hx).2.2
  have hent := entry_of_cached_insert cs hcached
  obtain ⟨-, -, hnew, -, -⟩ := foldl_insertPinned_rest plan.newChunks s
  obtain ⟨-, -, hpinned, -, -⟩ := foldl_pinCachedHash_rest
    (cachedHashes_nodup s [] cs) (s := plan.newChunks.foldl insertPinned s) fun x hx => by
      rw [contains, hent x hx, ← contains]
      obtain ⟨d, hd⟩ := isCached_iff.1 (hcached x hx)
      exact contains_iff.2 ⟨_, hd⟩
  rw [hpinned, hnew, List.map_congr_left fun x hx => sizeOf_congr (hent x hx), Nat.add_assoc,
    requiredBytes_eq]

theorem accounted_tryPin {s : ChunkStorage} (h : s.Accounted) (cs : List Chunk) :
    (s.tryPin cs).2.Accounted := by
  cases hok : (s.tryPin cs).1 with
  | error e => rwa [tryPin_error hok]
  | ok =>
    have hpins := tryPin_ok hok
    obtain ⟨hbytes, hfit⟩ := pinnedBytes_tryPin hok
    exact
      { toInv := hpins.inv h.toInv
        pinnedBytes_eq := by rw [hpins.pinnedBytes, hpins.sum_pinned, h.pinnedBytes_eq]
        pinnedBytes_le := by rw [hbytes, hpins.maxPinnedBytes]; exact hfit }

theorem accounted_promoteToPinned {s : ChunkStorage} (h : s.Accounted) (x : ChunkHash) :
    (s.promoteToPinned x).2.Accounted := by
  unfold promoteToPinned
  rcases hx : s.entry x with _ | ⟨d, _ | _⟩
  · exact h
  · simp only [Bool.false_eq_true, if_false]
    split_ifs with hfull
    · exact h
    · have hent := entry_pinCached s x ⟨d, false⟩
      have hpinned : (s.pinCached x ⟨d, false⟩).pinnedHashes = insert x s.pinnedHashes := by
        ext y
        rw [Finset.mem_insert, mem_pinnedHashes, mem_pinnedHashes, isPinned, hent, isPinned]
        by_cases hy : y = x <;> simp [hy]
      have hnot : x ∉ s.pinnedHashes := fun hp => by
        simp [mem_pinnedHashes, isPinned, hx] at hp
      have hold : ∀ y ∈ s.pinnedHashes, (s.pinCached x ⟨d, false⟩).sizeOf y = s.sizeOf y :=
        fun y hy => sizeOf_congr (by rw [hent, if_neg (ne_of_mem_of_not_mem hy hnot)])
      have hnew : (s.pinCached x ⟨d, false⟩).sizeOf x = d.length :=
        sizeOf_eq ((hent x).trans (if_pos rfl))
      refine { toInv := inv_pinCached h.toInv hx, pinnedBytes_eq := ?_, pinnedBytes_le := ?_ }
      · rw [hpinned, Finset.sum_insert hnot, Finset.sum_congr rfl hold, hnew, Nat.add_comm]
        exact congrArg (· + d.length) h.pinnedBytes_eq
      · exact not_lt.1 hfull
  · exact h

theorem accounted_evict {s : ChunkStorage} (h : s.Accounted) (x : ChunkHash) :
    (s.evict x).2.Accounted := by
  have hinv := inv_evict h.toInv x
  have hent := entry_evict s x
  rcases hx : s.entry x with _ | ⟨d, _ | _⟩
  · rwa [show (s.evict x).2 = s by simp [evict, hx]]
  · have hcounts : (s.evict x).2.pinnedBytes = s.pinnedBytes ∧
        (s.evict x).2.maxPinnedBytes = s.maxPinnedBytes := by simp [evict, hx]
    have hpinned : ∀ y d', (s.evict x).2.entry y = some ⟨d', true⟩ ↔
        s.entry y = some ⟨d', true⟩ := fun y d' => by
      rw [hent]
      by_cases hy : y = x <;> simp [hy, hx]
    refine { toInv := hinv, pinnedBytes_eq := ?_, pinnedBytes_le := ?_ }
    · rw [hcounts.1, h.pinnedBytes_eq, sum_pinned_congr hpinned]
    · rw [hcounts.1, hcounts.2]
      exact h.pinnedBytes_le
  · have hcounts : (s.evict x).2.pinnedBytes = s.pinnedBytes - d.length ∧
        (s.evict x).2.maxPinnedBytes = s.maxPinnedBytes := by simp [evict, hx]
    have hpinned : (s.evict x).2.pinnedHashes = s.pinnedHashes.erase x := by
      ext y
      rw [Finset.mem_erase, mem_pinnedHashes, mem_pinnedHashes, isPinned, hent, isPinned]
      by_cases hy : y = x <;> simp [hy]
    have hmem : x ∈ s.pinnedHashes := mem_pinnedHashes.2 (isPinned_iff.2 ⟨d, hx⟩)
    have hold : ∀ y ∈ s.pinnedHashes.erase x, (s.evict x).2.sizeOf y = s.sizeOf y :=
      fun y hy => sizeOf_congr (by rw [hent, if_neg (Finset.ne_of_mem_erase hy)])
    have hsum := Finset.add_sum_erase s.pinnedHashes s.sizeOf hmem
    rw [sizeOf_eq hx, ← h.pinnedBytes_eq] at hsum
    refine { toInv := hinv, pinnedBytes_eq := ?_, pinnedBytes_le := ?_ }
    · rw [hcounts.1, hpinned, Finset.sum_congr rfl hold]
      exact Nat.sub_eq_of_eq_add (by rw [← hsum, Nat.add_comm])
    · rw [hcounts.1, hcounts.2]
      exact (Nat.sub_le _ _).trans h.pinnedBytes_le

/-- **Every call keeps the accounts right.** -/
theorem accounted_call {s : ChunkStorage} (h : s.Accounted) (c : StorageCall) :
    (s.call c).Accounted := by
  cases c with
  | tryPin chunks => exact accounted_tryPin h chunks
  | cache c => exact accounted_cache h c
  | get x => exact accounted_get h x
  | promoteToPinned x => exact accounted_promoteToPinned h x
  | evict x => exact accounted_evict h x

/-- After any calls, the accounts are right, and no check has failed. -/
theorem accounted_run (maxPinnedBytes : ℕ) (calls : List StorageCall) :
    (calls.foldl call (new maxPinnedBytes)).Accounted ∧
      run callChecked calls (new maxPinnedBytes) =
        some (calls.foldl call (new maxPinnedBytes)) := by
  induction calls using List.reverseRecOn with
  | nil => exact ⟨accounted_new maxPinnedBytes, rfl⟩
  | append_singleton calls c ih =>
    obtain ⟨h, hrun⟩ := ih
    rw [List.foldl_concat]
    exact ⟨accounted_call h c, run_concat_eq_some.2 ⟨_, hrun, h.callChecked c⟩⟩

/-- **The accounts of the store.** After any calls on a new store: none has panicked or given up;
the two counters are the bytes of the pinned and of the unpinned entries, within their bounds; the
queue has each unpinned hash once and no other; and every key is the hash of its entry's bytes. -/
theorem storage_accounted (maxPinnedBytes : ℕ) (calls : List StorageCall) :
    let s := calls.foldl call (new maxPinnedBytes)
    run callChecked calls (new maxPinnedBytes) = some s ∧
      s.freeBytesChecked = some s.freeBytes ∧
      s.pinnedBytes = ∑ h ∈ s.pinnedHashes, s.sizeOf h ∧
      s.cachedBytes = ∑ h ∈ s.cachedHashes, s.sizeOf h ∧
      s.pinnedBytes ≤ s.maxPinnedBytes ∧ s.cachedBytes ≤ s.maxCachedBytes ∧
      (s.cacheLru.Nodup ∧ ∀ h, h ∈ s.cacheLru ↔ s.isCached h) ∧
      ∀ h e, s.entry h = some e → h = ChunkHash.of e.data := by
  intro s
  obtain ⟨h, hrun⟩ := accounted_run maxPinnedBytes calls
  exact ⟨hrun, h.freeBytesChecked, h.pinnedBytes_eq, h.cachedBytes_eq_sum, h.pinnedBytes_le,
    h.cachedBytes_le, ⟨h.lru_nodup, h.mem_lru⟩, h.keyed⟩

/-! ### `try_pin` -/

instance : DecidableEq Chunk := fun c d =>
  decidable_of_iff (c.data = d.data)
    ⟨fun h => by rw [c.eq_new, d.eq_new, h], congrArg Chunk.data⟩

/-- The bytes of the distinct chunks of a batch that are not pinned. -/
def need (s : ChunkStorage) (cs : List Chunk) : ℕ :=
  ∑ c ∈ cs.toFinset with ¬ s.isPinned c.hash, c.data.length

variable [LawfulSha256]

/-- With no collisions, the plan of `try_pin` counts each distinct chunk that is not pinned once. -/
theorem requiredBytes_eq_sum {s : ChunkStorage} (h : s.Inv) (seen : List ChunkHash)
    (cs : List Chunk) : (s.pinPlan seen cs).requiredBytes =
      ∑ c ∈ cs.toFinset with ¬ s.isPinned c.hash ∧ c.hash ∉ seen, c.data.length := by
  induction cs generalizing seen with
  | nil => rfl
  | cons d cs ih =>
    unfold pinPlan
    rw [List.toFinset_cons, Finset.filter_insert]
    by_cases hseen : d.hash ∈ seen
    · rw [if_pos hseen, if_neg (fun hd => hd.2 hseen), ih]
    · rw [if_neg hseen]
      -- the chunks after `d` that are counted do not repeat it
      have hrest : cs.toFinset.filter (fun c => ¬ s.isPinned c.hash ∧ c.hash ∉ d.hash :: seen) =
          (cs.toFinset.filter fun c => ¬ s.isPinned c.hash ∧ c.hash ∉ seen).erase d := by
        ext c
        have hhash : c.hash = d.hash ↔ c = d :=
          ⟨fun hcd => Chunk.ext hcd (ChunkHash.of_injective
            (c.hash_eq.symm.trans (hcd.trans d.hash_eq))), fun hcd => hcd ▸ rfl⟩
        simp only [Finset.mem_filter, Finset.mem_erase, List.mem_cons, not_or, hhash, ne_eq]
        tauto
      have hlater := ih (d.hash :: seen)
      rw [hrest] at hlater
      by_cases hpinned : s.isPinned d.hash
      · obtain ⟨data, hd⟩ := isPinned_iff.1 hpinned
        rw [if_neg (fun h => h.1 hpinned), hd]
        rw [Finset.erase_eq_of_notMem fun hmem => (Finset.mem_filter.1 hmem).2.1 hpinned] at hlater
        exact hlater
      · have hsplit (F : Finset Chunk) : insert d F = insert d (F.erase d) := by
          ext c
          by_cases hc : c = d <;> simp [hc]
        rw [if_pos ⟨hpinned, hseen⟩, hsplit, Finset.sum_insert (Finset.notMem_erase _ _), ← hlater]
        rcases hd : s.entry d.hash with _ | ⟨data, _ | _⟩
        · rfl
        · have hdata : data = d.data := h.data_eq hd
          subst hdata
          rfl
        · exact absurd (isPinned_iff.2 ⟨data, hd⟩) hpinned

/-- **`try_pin` is exact.** After any calls on a new store, it succeeds if and only if the bytes
that the batch needs fit into the capacity; a failure changes nothing; and a success pins the
batch, counts what it needed, and leaves all other entries and the order of the queue alone. -/
theorem try_pin_exact (maxPinnedBytes : ℕ) (calls : List StorageCall) (cs : List Chunk) :
    let s := calls.foldl call (new maxPinnedBytes)
    let s' := (s.tryPin cs).2
    ((s.tryPin cs).1 = .ok () ↔ s.pinnedBytes + s.need cs ≤ s.maxPinnedBytes) ∧
      (∀ e, (s.tryPin cs).1 = .error e → s' = s) ∧
      ((s.tryPin cs).1 = .ok () →
        (∀ c ∈ cs, s'.isPinned c.hash ∧ (s'.get c.hash).1 = some c.data) ∧
        s'.pinnedBytes = s.pinnedBytes + s.need cs ∧
        (∀ h, s.contains h → s'.contains h) ∧
        (∀ h, h ∉ cs.map Chunk.hash → s'.entry h = s.entry h) ∧
        s'.cacheLru = s.cacheLru.filter fun h => h ∉ cs.map Chunk.hash) := by
  intro s s'
  have h : s.Accounted := (accounted_run maxPinnedBytes calls).1
  have hneed : (s.pinPlan [] cs).requiredBytes = s.need cs := by
    rw [requiredBytes_eq_sum h.toInv, need]
    simp only [List.not_mem_nil, not_false_eq_true, and_true]
  refine ⟨?_, fun e he => tryPin_error he, fun hok => ?_⟩
  · unfold tryPin
    dsimp only
    rw [hneed]
    split_ifs with hfull
    · exact iff_of_false (fun hok => by cases hok) (not_le.2 hfull)
    · exact iff_of_true rfl (not_lt.1 hfull)
  · have hpins : PinsExactly s cs s' := tryPin_ok hok
    refine ⟨fun c hc => ⟨hpins.isPinned hc, ?_⟩, ?_, fun x hx => ?_, hpins.others, ?_⟩
    · rw [get_fst, entry_tryPin h.toInv hok hc]
      rfl
    · rw [← hneed]
      exact (pinnedBytes_tryPin hok).1
    · obtain ⟨e, he⟩ := contains_iff.1 hx
      exact contains_iff.2 ⟨_, hpins.kept x e he⟩
    · rw [hpins.cacheLru]
      refine List.filter_congr fun x hx => ?_
      simp only [(h.mem_lru x).1 hx, and_true]

end ChunkStorage

end Edfs

namespace Edfs.ChunkStorage

open Reference

/-- A chunk is cached and another one pinned; then the two come in one batch, each twice, with a
third one. -/
theorem try_pin_exact_repeats :
    let s := [StorageCall.cache (Chunk.new [1, 2]), .cache (Chunk.new [4]),
      .tryPin [Chunk.new [3]]].foldl call (new 5)
    let cs := [Chunk.new [1, 2], .new [3], .new [5], .new [5], .new [1, 2], .new [3]]
    s.need cs = 3 ∧ (s.tryPin cs).1 = .ok () ∧ (s.tryPin cs).2.pinnedBytes = 4 ∧
      (s.tryPin cs).2.cacheLru = [ChunkHash.of [4]] := by
  intro s cs
  obtain ⟨hiff, -, hok⟩ := try_pin_exact 5 [.cache (Chunk.new [1, 2]), .cache (Chunk.new [4]),
    .tryPin [Chunk.new [3]]] cs
  have hneed : s.need cs = 3 := by decide
  obtain ⟨-, hbytes, -, -, hlru⟩ := hok (hiff.2 (by decide))
  exact ⟨hneed, hiff.2 (by decide), hbytes.trans (by decide), hlru.trans (by decide)⟩

end Edfs.ChunkStorage
