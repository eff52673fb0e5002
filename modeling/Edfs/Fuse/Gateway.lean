import Edfs.Filesystem.Calls
import Edfs.Reference

/-!
# Fetching what a read needs

`fuse/gateway.rs`: before a read, `fetch_missing_chunks` asks the other nodes for the chunks the
request touches and the store lacks, and puts what arrives in the cache. The cache is bounded in
bytes, so a chunk of the request can leave it again before the read that follows.

* `fetchMissingChunks`, with the gateway's answers as a function of the hash;
* `needed`, `CacheFits`: what a request needs, and when the cache has room for it;
* `needed_stored_iff`: after a complete fetch everything needed is stored if and only if it fits;
* `fetch_then_read_iff`, the same for what the reads return.
-/

namespace Edfs.FileSystem

open Chunk ByteLru Slice

variable {PeerId : Type} [CrdtTree PeerId] [Sha256]

/-- Cache the answer to one request. -/
def cacheFetched (fs : FileSystem PeerId) : Option Bytes → FileSystem PeerId
  | some data => fs.cacheChunk data
  | none => fs

/-- Fetch the chunks a request lacks; `fetch` are the gateway's answers. The result says whether
all of them have come. -/
def fetchMissingChunks (fetch : ChunkHash → Option Bytes) (fs : FileSystem PeerId) (n : NodeId)
    (offset length : ℕ) : Option (Except FileSystemError Bool × FileSystem PeerId) :=
  match fs.missingChunkHashesFor n offset length with
  | none => none
  | some (.error e) => some (.error e, fs)
  | some (.ok missing) =>
    let fetched := missing.map fetch
    some (.ok (fetched.all Option.isSome), fetched.foldl cacheFetched fs)

/-- The references a read of a file touches; an empty read touches none. -/
def needed (offset length size : ℕ) (refs : List ChunkRef) : List ChunkRef :=
  let readEnd := min (saturatingAdd offset length) size
  if offset < readEnd then overlapping offset readEnd 0 refs else []

/-- The hashes of a list of references that the store lacks. -/
def lacking (s : ChunkStorage) (refs : List ChunkRef) : List ChunkHash :=
  (refs.filter fun r => !s.contains r.hash).map ChunkRef.hash

/-- The cache has room for a request: the chunks it lacks, each once, fit together with the part
of the recency queue from the first chunk of the request on. -/
def CacheFits (fetch : ChunkHash → Option Bytes) (s : ChunkStorage) (refs : List ChunkRef) :
    Prop :=
  lacking s refs = [] ∨
    total s.sizeOf (s.cacheLru.dropWhile fun h => h ∉ refs.map ChunkRef.hash)
      + ∑ h ∈ (lacking s refs).toFinset, (fetch h).elim 0 List.length ≤ s.maxCachedBytes

/-- The contents of a file: for each reference the bytes of its chunk, at least as many as it
counts; their number is a `u64`. -/
structure RealContent (refs : List ChunkRef) (data : ChunkRef → Bytes) : Prop where
  hash : ∀ r ∈ refs, ChunkHash.of (data r) = r.hash
  size : ∀ r ∈ refs, r.size ≤ (data r).length
  total : totalSize refs ≤ u64Max

/-- A file's bytes. -/
def fileBytes (refs : List ChunkRef) (data : ChunkRef → Bytes) : Bytes :=
  refs.flatMap fun r => (data r).take r.size

omit [Sha256] in
theorem mem_lacking {s : ChunkStorage} {refs : List ChunkRef} {h : ChunkHash} :
    h ∈ lacking s refs ↔ h ∈ refs.map ChunkRef.hash ∧ s.contains h = false := by
  simp only [lacking, List.mem_map, List.mem_filter, Bool.not_eq_true']
  constructor
  · rintro ⟨r, ⟨hr, hc⟩, rfl⟩
    exact ⟨⟨r, hr, rfl⟩, hc⟩
  · rintro ⟨⟨r, hr, rfl⟩, hc⟩
    exact ⟨r, ⟨hr, hc⟩, rfl⟩

/-! ### Caching what has been fetched -/

/-- With an answer for every hash, the store after the fetch is the store after caching the chunks
of the answers. -/
theorem storage_fetched {fetch : ChunkHash → Option Bytes} {missing : List ChunkHash}
    (hall : (missing.map fetch).all Option.isSome) (fs : FileSystem PeerId) :
    ((missing.map fetch).foldl cacheFetched fs).storage =
      (missing.map fun h => Chunk.new ((fetch h).getD [])).foldl ChunkStorage.cache fs.storage ∧
      ((missing.map fetch).foldl cacheFetched fs).tree = fs.tree := by
  induction missing generalizing fs with
  | nil => exact ⟨rfl, rfl⟩
  | cons h missing ih =>
    simp only [List.map_cons, List.all_cons, Bool.and_eq_true] at hall
    obtain ⟨d, hd⟩ := Option.isSome_iff_exists.1 hall.1
    simp only [List.map_cons, List.foldl_cons, hd]
    exact ih hall.2 (fs.cacheChunk d)

/-- **After a batch of fetched chunks, what a request needs is stored if and only if it fits.** -/
theorem needed_stored_iff {fetch : ChunkHash → Option Bytes} {s : ChunkStorage} (hs : s.Inv)
    (hgateway : ∀ h d, fetch h = some d → ChunkHash.of d = h) {refs : List ChunkRef}
    (hall : ((lacking s refs).map fetch).all Option.isSome) :
    (∀ r ∈ refs, (((lacking s refs).map fun h => Chunk.new ((fetch h).getD [])).foldl
      ChunkStorage.cache s).contains r.hash) ↔ CacheFits fetch s refs := by
  set missing := lacking s refs with hmissing
  set cs := missing.map fun h => Chunk.new ((fetch h).getD []) with hcs
  set w : ChunkHash → ℕ := fun h =>
    if h ∈ missing then (fetch h).elim 0 List.length else s.sizeOf h with hwdef
  have hanswer : ∀ h ∈ missing, ∃ d, fetch h = some d ∧ ChunkHash.of d = h := fun h hh => by
    obtain ⟨d, hd⟩ := Option.isSome_iff_exists.1
      (List.all_eq_true.1 hall _ (List.mem_map_of_mem hh))
    exact ⟨d, hd, hgateway h d hd⟩
  have hhash : cs.map Chunk.hash = missing := by
    rw [hcs, List.map_map]
    refine (List.map_congr_left fun h hh => ?_).trans (List.map_id _)
    obtain ⟨d, hd, hof⟩ := hanswer h hh
    simp [hd, hof]
  have hnot : ∀ h ∈ missing, s.isPinned h = false ∧ h ∉ s.cacheLru := fun h hh => by
    have hc := (mem_lacking.1 hh).2
    have := mt (ChunkStorage.contains_eq hs h).2 (by simp [hc])
    obtain ⟨h1, h2⟩ := not_or.1 this
    exact ⟨by simpa using h1, h2⟩
  have hw : ∀ h ∈ s.cacheLru, s.sizeOf h = w h := fun h hh => by
    rw [hwdef]
    exact (if_neg fun hm => (hnot h hm).2 hh).symm
  have hcw : ∀ c ∈ cs, c.data.length = w c.hash := fun c hc => by
    obtain ⟨h, hh, rfl⟩ := List.mem_map.1 hc
    obtain ⟨d, hd, hof⟩ := hanswer h hh
    simp [hwdef, hd, hof, hh]
  have hcpin : ∀ c ∈ cs, s.isPinned c.hash = false := fun c hc =>
    (hnot _ (hhash ▸ List.mem_map_of_mem hc)).1
  obtain ⟨hinv', hlru', hpin'⟩ := ChunkStorage.foldl_cache hs hw hcw hcpin
  rw [hhash] at hlru'
  have hkeeps := pushAll_keeps_iff w s.maxCachedBytes (fun h => h ∈ refs.map ChunkRef.hash)
    hs.lru_nodup (by rw [← total_congr _ hw, ← hs.cachedBytes_eq]; exact hs.cachedBytes_le)
    (fun h hh => (hnot h hh).2) (fun h hh => (mem_lacking.1 hh).1)
  have hsum : ∑ h ∈ missing.toFinset, w h
      = ∑ h ∈ missing.toFinset, (fetch h).elim 0 List.length :=
    Finset.sum_congr rfl fun h hh => if_pos (List.mem_toFinset.1 hh)
  have htotal : total w (s.cacheLru.dropWhile fun h => h ∉ refs.map ChunkRef.hash)
      = total s.sizeOf (s.cacheLru.dropWhile fun h => h ∉ refs.map ChunkRef.hash) :=
    (total_congr _ fun h hh => hw h ((List.dropWhile_suffix _).mem hh)).symm
  rw [hsum, htotal] at hkeeps
  refine Iff.trans ?_ hkeeps
  constructor
  · intro hstored h hR hh
    obtain ⟨r, hr, rfl⟩ := List.mem_map.1 hR
    rw [← hlru']
    refine ((ChunkStorage.contains_eq hinv' _).1 (hstored r hr)).resolve_left fun hp => ?_
    rw [hpin'] at hp
    rcases hh with hh | hh
    · obtain ⟨d, hd⟩ := ChunkStorage.isPinned_iff.1 hp
      exact hs.notMem_lru hd hh
    · rw [(hnot _ hh).1] at hp
      cases hp
  · intro hkept r hr
    have hR : r.hash ∈ refs.map ChunkRef.hash := List.mem_map_of_mem hr
    rw [ChunkStorage.contains_eq hinv', hpin', hlru']
    cases hc : s.contains r.hash with
    | false => exact Or.inr (hkept _ hR (Or.inr (mem_lacking.2 ⟨hR, hc⟩)))
    | true =>
      exact ((ChunkStorage.contains_eq hs _).1 hc).imp_right fun hm => hkept _ hR (Or.inl hm)

/-! ### Reading what has been fetched -/

/-- A file's reads find all they touch, and return its real bytes. -/
structure ReadsReal (fs : FileSystem PeerId) (n : NodeId) (offset length size : ℕ)
    (refs : List ChunkRef) : Prop where
  /-- Every chunk the read touches is stored: no zeros take its place. -/
  stored : ∀ r ∈ needed offset length size refs, fs.storage.contains r.hash
  /-- `read_file` returns the slice of the file's bytes. -/
  read : ∀ data, RealContent refs data → ∃ fs', fs.readFile n offset length
    = some (.ok (((fileBytes refs data).take (min (saturatingAdd offset length) size)).drop offset),
      fs')
  /-- After a fetch for the whole file `read_file_all` returns all of them. -/
  readAll : offset = 0 → length = u64Max → ∀ data, RealContent refs data →
    ∃ fs', fs.readFileAll n = some (.ok ((fileBytes refs data).take size), fs')

theorem length_fileBytes {refs : List ChunkRef} {data : ChunkRef → Bytes}
    (h : RealContent refs data) : (fileBytes refs data).length = totalSize refs := by
  rw [fileBytes, List.length_flatMap, totalSize]
  refine congrArg List.sum (List.map_congr_left fun r hr => ?_)
  rw [List.length_take, Nat.min_eq_left (h.size r hr)]

/-- A read that finds all it touches returns the slice of the file's bytes. -/
theorem read_of_stored [LawfulSha256] {fs : FileSystem PeerId} (hs : fs.storage.Inv) {n : NodeId}
    {name : String} {size offset length : ℕ} {refs : List ChunkRef}
    (hm : fs.metadata n = .ok (.regularFile name size refs))
    (hstored : ∀ r ∈ needed offset length size refs, fs.storage.contains r.hash)
    {data : ChunkRef → Bytes} (hdata : RealContent refs data) :
    ∃ fs', fs.readFile n offset length
      = some (.ok (((fileBytes refs data).take (min (saturatingAdd offset length) size)).drop
        offset), fs') := by
  obtain ⟨⟨r, fs'⟩, hr⟩ := Option.isSome_iff_exists.1 (readFile_isSome hm hdata.total offset length)
  obtain ⟨rfl, -⟩ := readFile_eq_some hm hr
  refine ⟨fs', hr.trans ?_⟩
  have hwindow : window fs.storage.found offset (min (saturatingAdd offset length) size) 0 refs
      = window data offset (min (saturatingAdd offset length) size) 0 refs := by
    by_cases hempty : min (saturatingAdd offset length) size ≤ offset
    · rw [window_empty _ hempty, window_empty _ hempty]
    · refine window_congr fun r hr => ?_
      have hneeded : r ∈ needed offset length size refs := by
        simp only [needed, if_pos (not_le.1 hempty)]
        exact hr
      obtain ⟨e, he⟩ := ChunkStorage.contains_iff.1 (hstored r hneeded)
      rw [ChunkStorage.found_of_entry he]
      -- the stored bytes have the reference's hash, and so has its content
      refine ChunkHash.of_injective ?_
      rw [← hs.keyed _ _ he, hdata.hash r (overlapping_subset _ _ _ _ hr)]
  rw [hwindow, window_eq_slice hdata.size, slice_zero]
  rfl

/-- A fetch whose every request is answered reports that all chunks have come. -/
theorem fetchMissingChunks_of_answers {fetch : ChunkHash → Option Bytes}
    (hall : ∀ h, (fetch h).isSome) {fs : FileSystem PeerId} {n : NodeId} {name : String}
    {size : ℕ} {refs : List ChunkRef} (hm : fs.metadata n = .ok (.regularFile name size refs))
    (htotal : totalSize refs ≤ u64Max) (offset length : ℕ) :
    ∃ fs', fetchMissingChunks fetch fs n offset length = some (.ok true, fs') := by
  obtain ⟨missing, hmissing⟩ := Option.isSome_iff_exists.1
    (missingLoop_isSome fs.storage offset (min (saturatingAdd offset length) size)
      (by omega : 0 + totalSize refs ≤ u64Max))
  refine ⟨(missing.map fetch).foldl cacheFetched fs, ?_⟩
  have hcame : (missing.map fetch).all Option.isSome = true := by
    refine List.all_eq_true.2 fun x hx => ?_
    obtain ⟨h, -, rfl⟩ := List.mem_map.1 hx
    exact hall h
  unfold fetchMissingChunks missingChunkHashesFor
  simp only [hm, hmissing, Option.map_some, hcame]

/-- What a complete fetch leaves: the same tree, and a store in which everything the request needs
is there if and only if it fits. -/
theorem fetch_stored_iff {fetch : ChunkHash → Option Bytes}
    (hgateway : ∀ h d, fetch h = some d → ChunkHash.of d = h) {fs fs' : FileSystem PeerId}
    (hs : fs.storage.Inv) {n : NodeId} {name : String} {size offset length : ℕ}
    {refs : List ChunkRef} (hm : fs.metadata n = .ok (.regularFile name size refs))
    (hfetch : fetchMissingChunks fetch fs n offset length = some (.ok true, fs')) :
    fs'.metadata n = .ok (.regularFile name size refs) ∧ fs'.storage.Inv ∧
      ((∀ r ∈ needed offset length size refs, fs'.storage.contains r.hash) ↔
        CacheFits fetch fs.storage (needed offset length size refs)) := by
  -- the hashes that have been asked for, and the state after caching the answers
  obtain ⟨hall, hfs'⟩ : ((lacking fs.storage (overlapping offset
      (min (saturatingAdd offset length) size) 0 refs)).map fetch).all Option.isSome ∧
      fs' = ((lacking fs.storage (overlapping offset
        (min (saturatingAdd offset length) size) 0 refs)).map fetch).foldl cacheFetched fs := by
    unfold fetchMissingChunks missingChunkHashesFor at hfetch
    rw [hm] at hfetch
    dsimp only at hfetch
    cases hloop : missingLoop fs.storage offset (min (saturatingAdd offset length) size) refs 0 with
    | none => simp [hloop] at hfetch
    | some missing =>
      rw [hloop] at hfetch
      have hmissing := missingLoop_eq_some hloop
      simp only [Option.map_some, Option.some.injEq, Prod.mk.injEq, Except.ok.injEq] at hfetch
      rw [lacking, ← hmissing]
      exact ⟨hfetch.1, hfetch.2.symm⟩
  obtain ⟨hstorage, htree⟩ := storage_fetched hall fs
  rw [← hfs'] at hstorage htree
  refine ⟨(metadata_congr (by rw [htree])).trans hm, ?_, ?_⟩
  · rw [hstorage]
    exact List.foldlRecOn _ _ hs fun s hs c _ => ChunkStorage.inv_cache hs c
  · by_cases hempty : offset < min (saturatingAdd offset length) size
    · simp only [needed, if_pos hempty]
      rw [hstorage]
      exact needed_stored_iff hs hgateway hall
    · simp only [needed, if_neg hempty]
      exact iff_of_true (by simp) (Or.inl rfl)

/-- **What a complete fetch is good for**: when `fetch_missing_chunks` has answered that all chunks
have come, the reads that follow find all of them and return the file's real bytes if and only if
the cache had room for them. -/
theorem fetch_then_read_iff [LawfulSha256] {fetch : ChunkHash → Option Bytes}
    (hgateway : ∀ h d, fetch h = some d → ChunkHash.of d = h) {fs fs' : FileSystem PeerId}
    (hs : fs.storage.Inv) {n : NodeId} {name : String} {size offset length : ℕ}
    {refs : List ChunkRef} (hm : fs.metadata n = .ok (.regularFile name size refs))
    (hfetch : fetchMissingChunks fetch fs n offset length = some (.ok true, fs')) :
    ReadsReal fs' n offset length size refs ↔
      CacheFits fetch fs.storage (needed offset length size refs) := by
  obtain ⟨hm', hs', hstored⟩ := fetch_stored_iff hgateway hs hm hfetch
  refine ⟨fun h => hstored.1 h.stored, fun hfits => ?_⟩
  have hneeded := hstored.2 hfits
  refine ⟨hneeded, fun data hdata => read_of_stored hs' hm' hneeded hdata, ?_⟩
  rintro rfl rfl data hdata
  -- the whole file: a fetch up to `u64::MAX` touches all that `read_file_all` does
  have hend : min (saturatingAdd 0 u64Max) size = min (saturatingAdd 0 size) size := by
    unfold saturatingAdd
    omega
  have hneeded' : ∀ r ∈ needed 0 size size refs, fs'.storage.contains r.hash := by
    unfold needed
    rw [← hend]
    exact hneeded
  obtain ⟨fs'', hread⟩ := read_of_stored hs' hm' hneeded' hdata
  refine ⟨fs'', ?_⟩
  rw [readFileAll_eq hm', hread]
  have hlen := length_fileBytes hdata
  have htotal := hdata.total
  rw [List.drop_zero, List.take_eq_take_iff.2]
  unfold saturatingAdd
  omega

end Edfs.FileSystem

namespace Edfs.FileSystem

open Chunk ByteLru Reference

/-- A gateway that reaches a holder of every chunk. -/
def fetchAll (h : ChunkHash) : Option Bytes := some h.bytes

theorem fetchAll_hash (h : ChunkHash) (d : Bytes) (hd : fetchAll h = some d) :
    ChunkHash.of d = h := by
  cases hd
  rfl

/-- The id of a file that arrives from another node. -/
def remoteId : NodeId := ⟨UuidV5.newV5 Uuid.nil "big"⟩

/-- A node that has received a file's metadata and none of its chunks. -/
def withRemote (size : ℕ) (refs : List ChunkRef) : FileSystem ℕ :=
  (init (0 : ℕ) 0).applyOperations (fun _ => 1)
    [⟨⟨1, 1⟩, NodeId.root, .regularFile "big" size refs, remoteId⟩]

theorem fetch_then_read_iff_small :
    ∃ fs', fetchMissingChunks fetchAll (withRemote 2 [⟨⟨[7, 8]⟩, 2⟩]) remoteId 0 u64Max
        = some (.ok true, fs') ∧
      (ReadsReal fs' remoteId 0 u64Max 2 [⟨⟨[7, 8]⟩, 2⟩] ↔
        CacheFits fetchAll (withRemote 2 [⟨⟨[7, 8]⟩, 2⟩]).storage
          (needed 0 u64Max 2 [⟨⟨[7, 8]⟩, 2⟩])) :=
  ⟨_, rfl, fetch_then_read_iff fetchAll_hash (ChunkStorage.inv_new 0) rfl rfl⟩

/-- A chunk of the largest size. -/
def bigChunk (i : ℕ) : Bytes := List.replicate fastcdcMaxChunkSize (UInt8.ofNat i)

/-- Seventeen of them, one more than the cache holds. -/
def bigRefs : List ChunkRef :=
  (List.range 17).map fun i => ⟨⟨bigChunk i⟩, fastcdcMaxChunkSize⟩

theorem bigChunk_injOn {i j : ℕ} (hi : i < 17) (hj : j < 17) (h : bigChunk i = bigChunk j) :
    i = j := by
  have := (List.replicate_inj.1 h).2.resolve_left (by decide)
  have h' := congrArg UInt8.toNat this
  simp only [UInt8.toNat_ofNat'] at h'
  omega

theorem not_cacheFits_bigRefs : ¬ CacheFits fetchAll (ChunkStorage.new 0) bigRefs := by
  have hlacking : lacking (ChunkStorage.new 0) bigRefs
      = (List.range 17).map fun i => ChunkHash.mk (bigChunk i) := by
    have hnone : ∀ h, (ChunkStorage.new 0).contains h = false := fun h => by
      simp [ChunkStorage.contains, ChunkStorage.new]
    simp only [lacking, hnone]
    simp [bigRefs, Function.comp_def]
  have hnodup : ((List.range 17).map fun i => ChunkHash.mk (bigChunk i)).Nodup := by
    refine List.Nodup.map_on (fun i hi j hj h => ?_) List.nodup_range
    exact bigChunk_injOn (List.mem_range.1 hi) (List.mem_range.1 hj) (ChunkHash.mk.inj h)
  rintro (h | h)
  · rw [hlacking] at h
    simp at h
  · have hlen : (fun h => (fetchAll h).elim 0 List.length) ∘ (fun i => ChunkHash.mk (bigChunk i))
        = fun _ => fastcdcMaxChunkSize := funext fun i => List.length_replicate
    rw [hlacking, List.sum_toFinset _ hnodup, List.map_map, hlen, List.map_const',
      List.sum_replicate, List.length_range] at h
    have hmax : 17 * fastcdcMaxChunkSize ≤ fastcdcMaxChunkSize * 16 := by
      simpa [ChunkStorage.new, maxCachedBytes] using h
    unfold fastcdcMaxChunkSize at hmax
    omega

/-- Sixteen mebibytes are not enough for a request of seventeen: all chunks have come, and the
read finds the first of them gone. -/
theorem fetch_then_read_zeros :
    (withRemote (17 * fastcdcMaxChunkSize) bigRefs).Reachable ∧
      (withRemote (17 * fastcdcMaxChunkSize) bigRefs).metadata remoteId
        = .ok (.regularFile "big" (17 * fastcdcMaxChunkSize) bigRefs) ∧
      (∀ h d, fetchAll h = some d → ChunkHash.of d = h) ∧
      ∃ fs', fetchMissingChunks fetchAll (withRemote (17 * fastcdcMaxChunkSize) bigRefs) remoteId 0
          u64Max = some (.ok true, fs') ∧
        ¬ ReadsReal fs' remoteId 0 u64Max (17 * fastcdcMaxChunkSize) bigRefs := by
  have hm : (withRemote (17 * fastcdcMaxChunkSize) bigRefs).metadata remoteId
      = .ok (.regularFile "big" (17 * fastcdcMaxChunkSize) bigRefs) := rfl
  have hneeded : needed 0 u64Max (17 * fastcdcMaxChunkSize) bigRefs = bigRefs := rfl
  refine ⟨⟨0, 0, [(fun _ => 1, .applyOperations _)], rfl⟩, hm, fetchAll_hash, ?_⟩
  obtain ⟨fs', hfetch⟩ := @fetchMissingChunks_of_answers _ _ _ fetchAll (fun _ => rfl) _ _ _ _ _ hm
    (by decide) 0 u64Max
  refine ⟨fs', hfetch, fun h => not_cacheFits_bigRefs ?_⟩
  have hstored := (fetch_stored_iff fetchAll_hash (ChunkStorage.inv_new 0) hm hfetch).2.2.1 h.stored
  rwa [hneeded] at hstored

end Edfs.FileSystem
