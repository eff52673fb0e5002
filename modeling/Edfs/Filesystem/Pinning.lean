import Edfs.Filesystem.Storage

/-!
# What `try_pin` does

`tryPin` classifies a batch against the store as it was and applies the result in two more
passes. `tryPin_error` and `tryPin_ok` say what comes of it: on failure nothing changes, on
success the store differs exactly by the batch being pinned (`PinsExactly`).
-/

namespace Edfs.ChunkStorage

variable [Sha256]

/-! ### Entries -/

omit [Sha256] in
@[simp] theorem entry_mk (chunks : Finmap fun _ : ChunkHash => ChunkEntry) (lru : List ChunkHash)
    (a b c d : ℕ) (h : ChunkHash) :
    (ChunkStorage.mk chunks lru a b c d).entry h = chunks.lookup h := rfl

omit [Sha256] in
theorem sizeOf_eq {s : ChunkStorage} {h : ChunkHash} {e : ChunkEntry} (he : s.entry h = some e) :
    s.sizeOf h = e.data.length := by simp [sizeOf, he]

omit [Sha256] in
theorem sizeOf_congr {s s' : ChunkStorage} {h : ChunkHash} (he : s.entry h = s'.entry h) :
    s.sizeOf h = s'.sizeOf h := by rw [ChunkStorage.sizeOf, ChunkStorage.sizeOf, he]

omit [Sha256] in
theorem isPinned_iff {s : ChunkStorage} {h : ChunkHash} :
    s.isPinned h ↔ ∃ d, s.entry h = some ⟨d, true⟩ := by
  unfold isPinned
  rcases s.entry h with _ | ⟨d, _ | _⟩ <;> simp

omit [Sha256] in
theorem isCached_iff {s : ChunkStorage} {h : ChunkHash} :
    s.isCached h ↔ ∃ d, s.entry h = some ⟨d, false⟩ := by
  unfold isCached
  rcases s.entry h with _ | ⟨d, _ | _⟩ <;> simp

omit [Sha256] in
theorem contains_iff {s : ChunkStorage} {h : ChunkHash} :
    s.contains h ↔ ∃ e, s.entry h = some e := Option.isSome_iff_exists

theorem entry_insertPinned (s : ChunkStorage) (c : Chunk) (x : ChunkHash) :
    (s.insertPinned c).entry x = if x = c.hash then some ⟨c.data, true⟩ else s.entry x := by
  split_ifs with hx
  · subst hx; exact Finmap.lookup_insert _
  · exact Finmap.lookup_insert_of_ne _ hx

omit [Sha256] in
theorem entry_pinCached (s : ChunkStorage) (h : ChunkHash) (e : ChunkEntry) (x : ChunkHash) :
    (s.pinCached h e).entry x = if x = h then some { e with pinned := true } else s.entry x := by
  split_ifs with hx
  · subst hx; exact Finmap.lookup_insert _
  · exact Finmap.lookup_insert_of_ne _ hx

omit [Sha256] in
theorem entry_pinCachedHash (s : ChunkStorage) (h x : ChunkHash) :
    (s.pinCachedHash h).entry x =
      if x = h then (s.entry x).map (fun e => { e with pinned := true }) else s.entry x := by
  unfold pinCachedHash
  cases he : s.entry h with
  | none =>
    split_ifs with hx
    · subst hx; simp [he]
    · rfl
  | some e =>
    rw [entry_pinCached]
    split_ifs with hx
    · subst hx; simp [he]
    · rfl

/-! ### The plan -/

theorem mem_newChunks {s : ChunkStorage} {seen : List ChunkHash} {cs : List Chunk} {c : Chunk}
    (h : c ∈ (s.pinPlan seen cs).newChunks) :
    c ∈ cs ∧ c.hash ∉ seen ∧ s.entry c.hash = none := by
  induction cs generalizing seen with
  | nil => simp [pinPlan] at h
  | cons d cs ih =>
    unfold pinPlan at h
    split_ifs at h with hd
    · exact (ih h).imp_left (List.mem_cons_of_mem d)
    · have later : c ∈ (s.pinPlan (d.hash :: seen) cs).newChunks →
          c ∈ d :: cs ∧ c.hash ∉ seen ∧ s.entry c.hash = none := fun hc => by
        obtain ⟨h1, h2, h3⟩ := ih hc
        exact ⟨List.mem_cons_of_mem d h1, fun hs => h2 (List.mem_cons_of_mem _ hs), h3⟩
      cases he : s.entry d.hash with
      | none =>
        simp only [he] at h
        rcases List.mem_cons.1 h with rfl | h
        · exact ⟨List.mem_cons_self, hd, he⟩
        · exact later h
      | some e =>
        simp only [he] at h
        split_ifs at h <;> exact later h

theorem newChunks_nodup (s : ChunkStorage) (seen : List ChunkHash) (cs : List Chunk) :
    ((s.pinPlan seen cs).newChunks.map Chunk.hash).Nodup := by
  induction cs generalizing seen with
  | nil => exact List.nodup_nil
  | cons d cs ih =>
    unfold pinPlan
    split_ifs with hd
    · exact ih seen
    · cases he : s.entry d.hash with
      | none =>
        refine List.nodup_cons.2 ⟨fun h => ?_, ih _⟩
        obtain ⟨c, hc, hcd⟩ := List.mem_map.1 h
        exact (mem_newChunks hc).2.1 (hcd ▸ List.mem_cons_self)
      | some e => dsimp only; split_ifs <;> exact ih _

theorem exists_newChunk {s : ChunkStorage} {seen : List ChunkHash} {cs : List Chunk} {c : Chunk}
    (hc : c ∈ cs) (hs : c.hash ∉ seen) (he : s.entry c.hash = none) :
    ∃ c' ∈ (s.pinPlan seen cs).newChunks, c'.hash = c.hash := by
  induction cs generalizing seen with
  | nil => simp at hc
  | cons d cs ih =>
    unfold pinPlan
    by_cases hd : d.hash = c.hash
    · rw [if_neg (hd ▸ hs), hd, he]
      exact ⟨d, List.mem_cons_self, hd⟩
    · have hc' : c ∈ cs := (List.mem_cons.1 hc).resolve_left fun h => hd (h ▸ rfl)
      split_ifs with hseen
      · exact ih hc' hs
      · have hs' : c.hash ∉ d.hash :: seen := fun h =>
          (List.mem_cons.1 h).elim (fun h => hd h.symm) hs
        obtain ⟨c', h1, h2⟩ := ih hc' hs'
        refine ⟨c', ?_, h2⟩
        cases s.entry d.hash with
        | none => exact List.mem_cons_of_mem d h1
        | some e => dsimp only; split_ifs <;> exact h1

theorem mem_cachedHashes {s : ChunkStorage} {seen : List ChunkHash} {cs : List Chunk}
    {h : ChunkHash} :
    h ∈ (s.pinPlan seen cs).cachedHashes ↔
      h ∉ seen ∧ h ∈ cs.map Chunk.hash ∧ s.isCached h := by
  induction cs generalizing seen with
  | nil => simp [pinPlan]
  | cons d cs ih =>
    unfold pinPlan
    rw [List.map_cons, List.mem_cons]
    by_cases hd : d.hash ∈ seen
    · rw [if_pos hd, ih]
      refine and_congr_right fun hs => and_congr_left fun _ => ?_
      exact (or_iff_right fun e : h = d.hash => hs (e ▸ hd)).symm
    · rw [if_neg hd]
      have key : (h ∉ d.hash :: seen ∧ h ∈ cs.map Chunk.hash ∧ s.isCached h) ∨
          (h = d.hash ∧ s.isCached h) ↔
          h ∉ seen ∧ (h = d.hash ∨ h ∈ cs.map Chunk.hash) ∧ s.isCached h := by
        by_cases hh : h = d.hash
        · subst hh; simp [hd]
        · simp [hh]
      rw [← key]
      cases he : s.entry d.hash with
      | none =>
        dsimp only
        rw [ih]
        refine (or_iff_left ?_).symm
        rintro ⟨rfl, hc⟩
        simp [isCached, he] at hc
      | some e =>
        dsimp only
        split_ifs with hp
        · rw [ih]
          refine (or_iff_left ?_).symm
          rintro ⟨rfl, hc⟩
          simp [isCached, he, hp] at hc
        · rw [List.mem_cons, ih, or_comm]
          refine or_congr_right (and_iff_left_of_imp ?_).symm
          rintro rfl
          simp [isCached, he, hp]

theorem cachedHashes_nodup (s : ChunkStorage) (seen : List ChunkHash) (cs : List Chunk) :
    (s.pinPlan seen cs).cachedHashes.Nodup := by
  induction cs generalizing seen with
  | nil => exact List.nodup_nil
  | cons d cs ih =>
    unfold pinPlan
    split_ifs with hd
    · exact ih seen
    · cases s.entry d.hash with
      | none => exact ih _
      | some e =>
        dsimp only
        split_ifs
        · exact ih _
        · exact List.nodup_cons.2
            ⟨fun h => (mem_cachedHashes.1 h).1 List.mem_cons_self, ih _⟩

/-! ### The two passes -/

theorem entry_foldl_insertPinned_of_notMem {cs : List Chunk} {x : ChunkHash}
    (hx : x ∉ cs.map Chunk.hash) (s : ChunkStorage) :
    (cs.foldl insertPinned s).entry x = s.entry x := by
  induction cs generalizing s with
  | nil => rfl
  | cons c cs ih =>
    obtain ⟨h1, h2⟩ := not_or.1 (mt List.mem_cons.2 hx)
    rw [List.foldl_cons, ih h2, entry_insertPinned, if_neg h1]

theorem entry_foldl_insertPinned {cs : List Chunk} (hcs : (cs.map Chunk.hash).Nodup) {c : Chunk}
    (hc : c ∈ cs) (s : ChunkStorage) :
    (cs.foldl insertPinned s).entry c.hash = some ⟨c.data, true⟩ := by
  induction cs generalizing s with
  | nil => simp at hc
  | cons d cs ih =>
    obtain ⟨h1, h2⟩ := List.nodup_cons.1 hcs
    rw [List.foldl_cons]
    rcases List.mem_cons.1 hc with rfl | hc
    · rw [entry_foldl_insertPinned_of_notMem h1, entry_insertPinned, if_pos rfl]
    · exact ih h2 hc _

/-- Inserting new chunks leaves the queue and the cache counter alone and counts their bytes. -/
theorem foldl_insertPinned_rest (cs : List Chunk) (s : ChunkStorage) :
    let s' := cs.foldl insertPinned s
    s'.cacheLru = s.cacheLru ∧ s'.cachedBytes = s.cachedBytes ∧
      s'.pinnedBytes = s.pinnedBytes + (cs.map fun c => c.data.length).sum ∧
      s'.maxPinnedBytes = s.maxPinnedBytes ∧ s'.maxCachedBytes = s.maxCachedBytes := by
  induction cs generalizing s with
  | nil => simp
  | cons c cs ih =>
    obtain ⟨h1, h2, h3, h4, h5⟩ := ih (s.insertPinned c)
    refine ⟨h1, h2, ?_, h4, h5⟩
    rw [List.foldl_cons, h3, List.map_cons, List.sum_cons, ← Nat.add_assoc]
    rfl

omit [Sha256] in
theorem entry_foldl_pinCachedHash (hs : List ChunkHash) (s : ChunkStorage) (x : ChunkHash) :
    (hs.foldl pinCachedHash s).entry x =
      if x ∈ hs then (s.entry x).map (fun e => { e with pinned := true }) else s.entry x := by
  induction hs generalizing s with
  | nil => simp
  | cons h hs ih =>
    rw [List.foldl_cons, ih, entry_pinCachedHash]
    by_cases hx : x = h
    · subst hx
      by_cases hm : x ∈ hs <;> simp [hm, Function.comp_def]
    · simp [hx]

omit [Sha256] in
/-- Turning cached entries into pinned ones moves their bytes from one counter to the other and
takes them out of the queue. -/
theorem foldl_pinCachedHash_rest {hs : List ChunkHash} (hnd : hs.Nodup) {s : ChunkStorage}
    (hin : ∀ h ∈ hs, s.contains h) :
    let s' := hs.foldl pinCachedHash s
    s'.cacheLru = s.cacheLru.filter (· ∉ hs) ∧
      s'.cachedBytes = s.cachedBytes - (hs.map s.sizeOf).sum ∧
      s'.pinnedBytes = s.pinnedBytes + (hs.map s.sizeOf).sum ∧
      s'.maxPinnedBytes = s.maxPinnedBytes ∧ s'.maxCachedBytes = s.maxCachedBytes := by
  induction hs generalizing s with
  | nil => simp
  | cons h hs ih =>
    obtain ⟨hh, hnd'⟩ := List.nodup_cons.1 hnd
    obtain ⟨e, he⟩ := contains_iff.1 (hin h List.mem_cons_self)
    have hstep : s.pinCachedHash h = s.pinCached h e := by simp [pinCachedHash, he]
    have hent : ∀ x ∈ hs, (s.pinCached h e).entry x = s.entry x := fun x hx => by
      rw [entry_pinCached, if_neg (ne_of_mem_of_not_mem hx hh)]
    obtain ⟨h1, h2, h3, h4, h5⟩ := ih hnd' (s := s.pinCached h e) fun x hx => by
      rw [contains, hent x hx]; exact hin x (List.mem_cons_of_mem h hx)
    have hsum : (hs.map (s.pinCached h e).sizeOf).sum = (hs.map s.sizeOf).sum :=
      congrArg List.sum (List.map_congr_left fun x hx => sizeOf_congr (hent x hx))
    dsimp only
    rw [List.foldl_cons, hstep, h1, h2, h3, hsum, List.map_cons, List.sum_cons, sizeOf_eq he]
    refine ⟨?_, ?_, ?_, h4, h5⟩
    · simp [pinCached, List.filter_filter, Bool.and_comm]
    · exact Nat.sub_sub _ _ _
    · exact Nat.add_assoc _ _ _

/-! ### The result -/

/-- `s'` differs from `s` exactly by the chunks of the batch being pinned. -/
structure PinsExactly (s : ChunkStorage) (cs : List Chunk) (s' : ChunkStorage) : Prop where
  /-- A chunk of the batch that the store lacked is there, with the bytes of the batch. -/
  stored : ∀ c ∈ cs, s.entry c.hash = none →
    ∃ c' ∈ cs, c'.hash = c.hash ∧ s'.entry c.hash = some ⟨c'.data, true⟩
  /-- An entry keeps its bytes, and becomes pinned if the batch names it. -/
  kept : ∀ h e, s.entry h = some e →
    s'.entry h = some ⟨e.data, e.pinned || decide (h ∈ cs.map Chunk.hash)⟩
  /-- No other entry appears. -/
  others : ∀ h, h ∉ cs.map Chunk.hash → s'.entry h = s.entry h
  /-- The queue loses exactly the cached chunks of the batch. -/
  cacheLru : s'.cacheLru = s.cacheLru.filter fun h => ¬ (h ∈ cs.map Chunk.hash ∧ s.isCached h)
  /-- The pinned bytes grow by the chunks of the batch that were not pinned. -/
  pinnedBytes : s'.pinnedBytes =
    s.pinnedBytes + ∑ h ∈ (cs.map Chunk.hash).toFinset with ¬ s.isPinned h, s'.sizeOf h
  /-- The cached bytes shrink by the chunks of the batch that were cached. -/
  cachedBytes : s'.cachedBytes =
    s.cachedBytes - ∑ h ∈ (cs.map Chunk.hash).toFinset with s.isCached h, s'.sizeOf h
  maxPinnedBytes : s'.maxPinnedBytes = s.maxPinnedBytes
  maxCachedBytes : s'.maxCachedBytes = s.maxCachedBytes

theorem PinsExactly.isPinned {s s' : ChunkStorage} {cs : List Chunk} (h : PinsExactly s cs s')
    {c : Chunk} (hc : c ∈ cs) : s'.isPinned c.hash := by
  rw [isPinned_iff]
  cases he : s.entry c.hash with
  | none =>
    obtain ⟨c', -, -, h'⟩ := h.stored c hc he
    exact ⟨_, h'⟩
  | some e =>
    have hmem : c.hash ∈ cs.map Chunk.hash := List.mem_map_of_mem hc
    exact ⟨e.data, by rw [h.kept _ _ he]; simp [hmem]⟩

theorem PinsExactly.isPinned_iff {s s' : ChunkStorage} {cs : List Chunk}
    (h : PinsExactly s cs s') {x : ChunkHash} :
    s'.isPinned x ↔ s.isPinned x ∨ x ∈ cs.map Chunk.hash := by
  by_cases hx : x ∈ cs.map Chunk.hash
  · obtain ⟨c, hc, rfl⟩ := List.mem_map.1 hx
    exact iff_of_true (h.isPinned hc) (Or.inr hx)
  · rw [or_iff_left hx, ChunkStorage.isPinned, ChunkStorage.isPinned, h.others x hx]

/-- A failed `try_pin` changes nothing. -/
theorem tryPin_error {s : ChunkStorage} {cs : List Chunk} {e : StorageError}
    (h : (s.tryPin cs).1 = .error e) : (s.tryPin cs).2 = s := by
  unfold tryPin at h ⊢
  dsimp only at h ⊢
  split_ifs at h ⊢
  rfl

/-! ### A plan, carried out -/

section Plan

variable {s : ChunkStorage} {cs : List Chunk}

theorem tryPin_snd (h : (s.tryPin cs).1 = .ok ()) :
    (s.tryPin cs).2 = (s.pinPlan [] cs).cachedHashes.foldl pinCachedHash
      ((s.pinPlan [] cs).newChunks.foldl insertPinned s) := by
  unfold tryPin at h ⊢
  dsimp only at h ⊢
  split_ifs at h ⊢
  rfl

theorem mem_plan_cachedHashes {x : ChunkHash} :
    x ∈ (s.pinPlan [] cs).cachedHashes ↔ x ∈ cs.map Chunk.hash ∧ s.isCached x := by
  rw [mem_cachedHashes]
  simp

/-- A new chunk of the plan is one of the batch, and the store has no entry for it. -/
theorem entry_of_mem_newChunks {x : ChunkHash}
    (hx : x ∈ (s.pinPlan [] cs).newChunks.map Chunk.hash) :
    s.entry x = none ∧ x ∈ cs.map Chunk.hash := by
  obtain ⟨c, hc, rfl⟩ := List.mem_map.1 hx
  obtain ⟨h1, -, h2⟩ := mem_newChunks hc
  exact ⟨h2, List.mem_map_of_mem h1⟩

/-- No hash is in both parts of the plan. -/
theorem notMem_plan_cachedHashes {x : ChunkHash}
    (hx : x ∈ (s.pinPlan [] cs).newChunks.map Chunk.hash) :
    x ∉ (s.pinPlan [] cs).cachedHashes := by
  intro hcached
  obtain ⟨d, hd⟩ := isCached_iff.1 (mem_plan_cachedHashes.1 hcached).2
  simp [(entry_of_mem_newChunks hx).1] at hd

/-- The first half of the plan leaves the entries that are there. -/
theorem entry_insertNew {x : ChunkHash} {e : ChunkEntry} (he : s.entry x = some e) :
    ((s.pinPlan [] cs).newChunks.foldl insertPinned s).entry x = some e := by
  rw [entry_foldl_insertPinned_of_notMem ?_, he]
  intro hx
  simp [(entry_of_mem_newChunks hx).1] at he

theorem entry_tryPin_eq (h : (s.tryPin cs).1 = .ok ()) (x : ChunkHash) :
    (s.tryPin cs).2.entry x =
      if x ∈ (s.pinPlan [] cs).cachedHashes then
        (((s.pinPlan [] cs).newChunks.foldl insertPinned s).entry x).map
          fun e => { e with pinned := true }
      else ((s.pinPlan [] cs).newChunks.foldl insertPinned s).entry x := by
  rw [tryPin_snd h, entry_foldl_pinCachedHash]

theorem entry_tryPin_new (h : (s.tryPin cs).1 = .ok ()) {c : Chunk}
    (hc : c ∈ (s.pinPlan [] cs).newChunks) :
    (s.tryPin cs).2.entry c.hash = some ⟨c.data, true⟩ := by
  rw [entry_tryPin_eq h, if_neg (notMem_plan_cachedHashes (List.mem_map_of_mem hc)),
    entry_foldl_insertPinned (newChunks_nodup s [] cs) hc]

/-- An entry keeps its bytes, and becomes pinned if the batch names it. -/
theorem entry_tryPin_old (h : (s.tryPin cs).1 = .ok ()) {x : ChunkHash} {e : ChunkEntry}
    (he : s.entry x = some e) :
    (s.tryPin cs).2.entry x = some ⟨e.data, e.pinned || decide (x ∈ cs.map Chunk.hash)⟩ := by
  rw [entry_tryPin_eq h, entry_insertNew he]
  by_cases hx : x ∈ (s.pinPlan [] cs).cachedHashes
  · obtain ⟨hm, hc⟩ := mem_plan_cachedHashes.1 hx
    obtain ⟨d, hd⟩ := isCached_iff.1 hc
    obtain rfl := Option.some.inj (he.symm.trans hd)
    rw [if_pos hx, decide_eq_true hm]
    rfl
  · have hp : decide (x ∈ cs.map Chunk.hash) = true → e.pinned = true := fun hm => by
      by_contra hp
      exact hx (mem_plan_cachedHashes.2 ⟨of_decide_eq_true hm, by simp [isCached, he, hp]⟩)
    rw [if_neg hx, Bool.or_eq_left_iff_imp.2 hp]

/-- Other entries stay as they are. -/
theorem entry_tryPin_other (h : (s.tryPin cs).1 = .ok ()) {x : ChunkHash}
    (hx : x ∉ cs.map Chunk.hash) : (s.tryPin cs).2.entry x = s.entry x := by
  rw [entry_tryPin_eq h, if_neg fun hm => hx (mem_plan_cachedHashes.1 hm).1,
    entry_foldl_insertPinned_of_notMem fun hm => hx (entry_of_mem_newChunks hm).2]

/-- The plan pins, each once, the hashes of the batch that are not pinned. -/
theorem nodup_plan :
    ((s.pinPlan [] cs).newChunks.map Chunk.hash ++ (s.pinPlan [] cs).cachedHashes).Nodup := by
  refine List.nodup_append.2 ⟨newChunks_nodup s [] cs, cachedHashes_nodup s [] cs, ?_⟩
  rintro x hx y hy rfl
  exact notMem_plan_cachedHashes hx hy

theorem toFinset_plan :
    ((s.pinPlan [] cs).newChunks.map Chunk.hash ++ (s.pinPlan [] cs).cachedHashes).toFinset
      = {h ∈ (cs.map Chunk.hash).toFinset | ¬ s.isPinned h} := by
  ext x
  simp only [List.mem_toFinset, List.mem_append, Finset.mem_filter, mem_plan_cachedHashes]
  constructor
  · rintro (hx | ⟨hx, hc⟩)
    · obtain ⟨hnone, hmem⟩ := entry_of_mem_newChunks hx
      exact ⟨hmem, by simp [ChunkStorage.isPinned, hnone]⟩
    · obtain ⟨d, hd⟩ := isCached_iff.1 hc
      exact ⟨hx, by simp [ChunkStorage.isPinned, hd]⟩
  · rintro ⟨hx, hp⟩
    cases he : s.entry x with
    | none =>
      obtain ⟨c, hc, rfl⟩ := List.mem_map.1 hx
      obtain ⟨c', hc', hcc'⟩ := exists_newChunk (s := s) hc List.not_mem_nil he
      exact Or.inl (hcc' ▸ List.mem_map_of_mem hc')
    | some e => exact Or.inr ⟨hx, by simp_all [ChunkStorage.isPinned, isCached]⟩

/-- The sizes of the plan's new chunks, read in the result. -/
theorem sum_newChunks (h : (s.tryPin cs).1 = .ok ()) :
    ((s.pinPlan [] cs).newChunks.map fun c => c.data.length).sum =
      (((s.pinPlan [] cs).newChunks.map Chunk.hash).map (s.tryPin cs).2.sizeOf).sum := by
  rw [List.map_map]
  refine congrArg List.sum (List.map_congr_left fun c hc => ?_)
  exact (sizeOf_eq (entry_tryPin_new h hc)).symm

/-- And those of its cached hashes. -/
theorem sum_cachedHashes (h : (s.tryPin cs).1 = .ok ()) :
    ((s.pinPlan [] cs).cachedHashes.map
        ((s.pinPlan [] cs).newChunks.foldl insertPinned s).sizeOf).sum =
      ((s.pinPlan [] cs).cachedHashes.map (s.tryPin cs).2.sizeOf).sum := by
  refine congrArg List.sum (List.map_congr_left fun x hx => ?_)
  obtain ⟨d, hd⟩ := isCached_iff.1 (mem_plan_cachedHashes.1 hx).2
  rw [sizeOf_eq (entry_insertNew hd), sizeOf_eq (entry_tryPin_old h hd)]

end Plan

/-- **A successful `try_pin` pins exactly the chunks of its batch.** -/
theorem tryPin_ok {s : ChunkStorage} {cs : List Chunk} (h : (s.tryPin cs).1 = .ok ()) :
    PinsExactly s cs (s.tryPin cs).2 := by
  obtain ⟨hl₁, hc₁, hp₁, hmp₁, hmc₁⟩ := foldl_insertPinned_rest (s.pinPlan [] cs).newChunks s
  have hin : ∀ x ∈ (s.pinPlan [] cs).cachedHashes,
      ((s.pinPlan [] cs).newChunks.foldl insertPinned s).contains x := fun x hx => by
    obtain ⟨d, hd⟩ := isCached_iff.1 (mem_plan_cachedHashes.1 hx).2
    exact contains_iff.2 ⟨_, entry_insertNew hd⟩
  obtain ⟨hl₂, hc₂, hp₂, hmp₂, hmc₂⟩ :=
    foldl_pinCachedHash_rest (cachedHashes_nodup s [] cs) hin
  rw [← tryPin_snd h] at hl₂ hc₂ hp₂ hmp₂ hmc₂
  refine ⟨?_, fun x e => entry_tryPin_old h, fun x => entry_tryPin_other h, ?_, ?_, ?_,
    hmp₂.trans hmp₁, hmc₂.trans hmc₁⟩
  · intro c hc he
    obtain ⟨c', hc', hcc'⟩ := exists_newChunk (s := s) hc List.not_mem_nil he
    exact ⟨c', (mem_newChunks hc').1, hcc', hcc' ▸ entry_tryPin_new h hc'⟩
  · rw [hl₂, hl₁]
    exact List.filter_congr fun x _ => by simp only [mem_plan_cachedHashes]
  · rw [hp₂, hp₁, sum_newChunks h, sum_cachedHashes h, Nat.add_assoc, ← List.sum_append,
      ← List.map_append, ← List.sum_toFinset _ nodup_plan, toFinset_plan]
  · rw [hc₂, hc₁, sum_cachedHashes h, ← List.sum_toFinset _ (cachedHashes_nodup s [] cs)]
    congr 2
    ext x
    simp [mem_plan_cachedHashes]

end Edfs.ChunkStorage
