import Edfs.Filesystem.Pinning

/-!
# The invariant of the chunk store

Every key is the hash of its entry's bytes; the recency queue holds exactly the unpinned hashes,
each once; and the cached bytes are the bytes of the queue, within the cache's bound. Every
operation of the store keeps it (`inv_tryPin`, `inv_cache`, ...), and none but `evict` loses a
pinned entry.
-/

namespace Edfs.ChunkStorage

open ByteLru

variable [Sha256]

/-- The representation invariant of the cache. -/
structure Inv (s : ChunkStorage) : Prop where
  keyed : ∀ h e, s.entry h = some e → h = ChunkHash.of e.data
  lru_nodup : s.cacheLru.Nodup
  mem_lru : ∀ h, h ∈ s.cacheLru ↔ s.isCached h
  cachedBytes_eq : s.cachedBytes = total s.sizeOf s.cacheLru
  cachedBytes_le : s.cachedBytes ≤ s.maxCachedBytes

theorem inv_new (max : ℕ) : (ChunkStorage.new max).Inv where
  keyed h e he := by simp [new] at he
  lru_nodup := List.nodup_nil
  mem_lru h := by simp [new, isCached]
  cachedBytes_eq := rfl
  cachedBytes_le := Nat.zero_le _

/-- With no collisions, the bytes under a chunk's hash are the chunk's. -/
theorem Inv.data_eq [LawfulSha256] {s : ChunkStorage} (h : s.Inv) {c : Chunk} {e : ChunkEntry}
    (he : s.entry c.hash = some e) : e.data = c.data :=
  ChunkHash.of_injective ((h.keyed _ _ he).symm.trans c.hash_eq)

theorem Inv.notMem_lru {s : ChunkStorage} (h : s.Inv) {x : ChunkHash} {d : Bytes}
    (hx : s.entry x = some ⟨d, true⟩) : x ∉ s.cacheLru := by
  simp [h.mem_lru, isCached, hx]

/-! ### Reading -/

omit [Sha256] in
theorem get_fst (s : ChunkStorage) (h : ChunkHash) :
    (s.get h).1 = (s.entry h).map ChunkEntry.data := by
  unfold get
  cases s.entry h with
  | none => rfl
  | some e => dsimp only; split_ifs <;> rfl

omit [Sha256] in
@[simp] theorem entry_get (s : ChunkStorage) (h x : ChunkHash) :
    (s.get h).2.entry x = s.entry x := by
  unfold get
  cases s.entry h with
  | none => rfl
  | some e => dsimp only; split_ifs <;> rfl

theorem inv_get {s : ChunkStorage} (hs : s.Inv) (h : ChunkHash) : (s.get h).2.Inv := by
  unfold get
  cases he : s.entry h with
  | none => exact hs
  | some e =>
    dsimp only
    split_ifs with hp
    · exact hs
    · have hmem : h ∈ s.cacheLru := by simp [hs.mem_lru, isCached, he, hp]
      have hperm := perm_touch hs.lru_nodup hmem
      exact
        { keyed := hs.keyed
          lru_nodup := hperm.nodup_iff.2 hs.lru_nodup
          mem_lru := fun x => hperm.mem_iff.trans (hs.mem_lru x)
          cachedBytes_eq := hs.cachedBytes_eq.trans (total_perm _ hperm).symm
          cachedBytes_le := hs.cachedBytes_le }

/-! ### Pinning -/

theorem PinsExactly.inv {s s' : ChunkStorage} {cs : List Chunk} (h : PinsExactly s cs s')
    (hs : s.Inv) : s'.Inv := by
  have hcached : ∀ x, s'.isCached x ↔ s.isCached x ∧ x ∉ cs.map Chunk.hash := fun x => by
    cases he : s.entry x with
    | some e => simp [isCached, he, h.kept x e he]
    | none =>
      by_cases hx : x ∈ cs.map Chunk.hash
      · obtain ⟨c, hc, rfl⟩ := List.mem_map.1 hx
        obtain ⟨c', -, -, h'⟩ := h.stored c hc he
        simp [isCached, he, h']
      · simp [isCached, he, h.others x hx]
  have hsize : ∀ x ∈ s.cacheLru, s.sizeOf x = s'.sizeOf x := fun x hx => by
    obtain ⟨d, hd⟩ := isCached_iff.1 ((hs.mem_lru x).1 hx)
    rw [sizeOf_eq hd, sizeOf_eq (h.kept x _ hd)]
  refine ⟨?_, ?_, ?_, ?_, ?_⟩
  · intro x e he
    cases he' : s.entry x with
    | some e' =>
      obtain rfl := Option.some.inj ((h.kept x e' he').symm.trans he)
      exact hs.keyed x e' he'
    | none =>
      by_cases hx : x ∈ cs.map Chunk.hash
      · obtain ⟨c, hc, rfl⟩ := List.mem_map.1 hx
        obtain ⟨c', -, hcc', h'⟩ := h.stored c hc he'
        obtain rfl := Option.some.inj (h'.symm.trans he)
        rw [← hcc', c'.hash_eq]
      · rw [h.others x hx, he'] at he
        cases he
  · rw [h.cacheLru]
    exact hs.lru_nodup.filter _
  · intro x
    rw [h.cacheLru, List.mem_filter, hs.mem_lru, hcached]
    simp only [decide_eq_true_eq, not_and]
    exact and_congr_right fun hc => ⟨fun hn hx => hn hx hc, fun hn hx => absurd hx hn⟩
  · have hsum : ∑ x ∈ (cs.map Chunk.hash).toFinset with s.isCached x, s'.sizeOf x
        = total s'.sizeOf
          (s.cacheLru.filter fun x => decide (x ∈ cs.map Chunk.hash ∧ s.isCached x)) := by
      rw [total_eq_sum _ (hs.lru_nodup.filter _)]
      congr 1
      ext x
      simp only [Finset.mem_filter, List.mem_toFinset, List.mem_filter, decide_eq_true_eq,
        hs.mem_lru]
      tauto
    rw [h.cachedBytes, h.cacheLru, hsum, hs.cachedBytes_eq, total_congr _ hsize,
      total_filter s'.sizeOf (fun x => decide (x ∈ cs.map Chunk.hash ∧ s.isCached x)) s.cacheLru,
      Nat.add_sub_cancel_left]
    simp only [decide_not]
  · rw [h.cachedBytes, h.maxCachedBytes]
    exact (Nat.sub_le _ _).trans hs.cachedBytes_le

theorem inv_tryPin {s : ChunkStorage} (hs : s.Inv) (cs : List Chunk) : (s.tryPin cs).2.Inv := by
  cases h : (s.tryPin cs).1 with
  | error e => rwa [tryPin_error h]
  | ok => exact (tryPin_ok h).inv hs

/-- After a successful `try_pin` every chunk of the batch is there with its own bytes. -/
theorem entry_tryPin [LawfulSha256] {s : ChunkStorage} (hs : s.Inv) {cs : List Chunk}
    (h : (s.tryPin cs).1 = .ok ()) {c : Chunk} (hc : c ∈ cs) :
    (s.tryPin cs).2.entry c.hash = some ⟨c.data, true⟩ := by
  obtain ⟨d, hd⟩ := isPinned_iff.1 ((tryPin_ok h).isPinned hc)
  rw [hd, ← ((tryPin_ok h).inv hs).data_eq hd]

theorem inv_pinCached {s : ChunkStorage} (hs : s.Inv) {h : ChunkHash} {d : Bytes}
    (he : s.entry h = some ⟨d, false⟩) : (s.pinCached h ⟨d, false⟩).Inv := by
  have hmem : h ∈ s.cacheLru := (hs.mem_lru h).2 (isCached_iff.2 ⟨d, he⟩)
  have hsize : ∀ x, (s.pinCached h ⟨d, false⟩).sizeOf x = s.sizeOf x := fun x => by
    by_cases hx : x = h
    · subst hx; rw [sizeOf_eq he, sizeOf_eq (by rw [entry_pinCached, if_pos rfl])]
    · exact sizeOf_congr (by rw [entry_pinCached, if_neg hx])
  refine ⟨?_, hs.lru_nodup.filter _, ?_, ?_, (Nat.sub_le _ _).trans hs.cachedBytes_le⟩
  · intro x e hx
    rw [entry_pinCached] at hx
    split_ifs at hx with hxh
    · cases hx; exact hxh ▸ hs.keyed h ⟨d, false⟩ he
    · exact hs.keyed x e hx
  · intro x
    have hl : x ∈ (s.pinCached h ⟨d, false⟩).cacheLru ↔ x ∈ s.cacheLru ∧ x ≠ h := by
      simp [pinCached]
    rw [hl, isCached, entry_pinCached, hs.mem_lru, isCached]
    by_cases hx : x = h <;> simp [hx]
  · rw [total_congr _ fun x _ => hsize x]
    have := total_filter_ne s.sizeOf hs.lru_nodup hmem
    rw [← hs.cachedBytes_eq, sizeOf_eq he] at this
    exact Nat.sub_eq_of_eq_add this.symm

theorem inv_promoteToPinned {s : ChunkStorage} (hs : s.Inv) (h : ChunkHash) :
    (s.promoteToPinned h).2.Inv := by
  unfold promoteToPinned
  cases he : s.entry h with
  | none => exact hs
  | some e =>
    obtain ⟨d, _ | _⟩ := e
    · simp only [Bool.false_eq_true, if_false]
      split_ifs
      · exact hs
      · exact inv_pinCached hs he
    · exact hs

omit [Sha256] in
theorem entry_promote_of_pinned {s : ChunkStorage} {x : ChunkHash} {d : Bytes}
    (hx : s.entry x = some ⟨d, true⟩) (h : ChunkHash) :
    (s.promoteToPinned h).2.entry x = some ⟨d, true⟩ := by
  unfold promoteToPinned
  cases he : s.entry h with
  | none => exact hx
  | some e =>
    dsimp only
    split_ifs
    · exact hx
    · exact hx
    · rw [entry_pinCached]
      split_ifs with hxh
      · subst hxh; cases he.symm.trans hx; rfl
      · exact hx

/-! ### Evicting -/

omit [Sha256] in
theorem entry_erase (s : ChunkStorage) (h x : ChunkHash) :
    (s.chunks.erase h).lookup x = if x = h then none else s.entry x := by
  split_ifs with hx
  · subst hx; exact Finmap.lookup_erase _ _
  · exact Finmap.lookup_erase_ne hx

omit [Sha256] in
theorem entry_evict (s : ChunkStorage) (h x : ChunkHash) :
    (s.evict h).2.entry x = if x = h then none else s.entry x := by
  unfold evict
  cases he : s.entry h with
  | none =>
    split_ifs with hx
    · subst hx; exact he
    · rfl
  | some e =>
    rw [← entry_erase]
    dsimp only
    split_ifs <;> rfl

theorem inv_evict {s : ChunkStorage} (hs : s.Inv) (h : ChunkHash) : (s.evict h).2.Inv := by
  have keyed : ∀ x e, (s.evict h).2.entry x = some e → x = ChunkHash.of e.data := fun x e hx => by
    rw [entry_evict] at hx
    split_ifs at hx
    exact hs.keyed x e hx
  have cached : ∀ x, (s.evict h).2.isCached x ↔ s.isCached x ∧ x ≠ h := fun x => by
    rw [isCached, entry_evict, isCached]
    by_cases hx : x = h <;> simp [hx]
  have size : ∀ x, x ≠ h → (s.evict h).2.sizeOf x = s.sizeOf x := fun x hx =>
    sizeOf_congr (by rw [entry_evict, if_neg hx])
  cases he : s.entry h with
  | none => rwa [show (s.evict h).2 = s by simp [evict, he]]
  | some e =>
    obtain ⟨d, _ | _⟩ := e
    · have hres : (s.evict h).2 =
          { s with
            chunks := s.chunks.erase h
            cachedBytes := s.cachedBytes - d.length
            cacheLru := s.cacheLru.filter (· ≠ h) } := by simp [evict, he]
      have hmem : h ∈ s.cacheLru := (hs.mem_lru h).2 (isCached_iff.2 ⟨d, he⟩)
      have hlru : (s.evict h).2.cacheLru = s.cacheLru.filter (· ≠ h) := by rw [hres]
      refine ⟨keyed, hlru ▸ hs.lru_nodup.filter _, fun x => ?_, ?_, ?_⟩
      · rw [cached, hlru, ← hs.mem_lru]
        simp
      · have hsize : ∀ x ∈ s.cacheLru.filter (· ≠ h), (s.evict h).2.sizeOf x = s.sizeOf x :=
          fun x hx => size x (by simpa using (List.mem_filter.1 hx).2)
        rw [hlru, total_congr _ hsize]
        have := total_filter_ne s.sizeOf hs.lru_nodup hmem
        rw [← hs.cachedBytes_eq, sizeOf_eq he] at this
        rw [hres]
        exact Nat.sub_eq_of_eq_add this.symm
      · rw [hres]
        exact (Nat.sub_le _ _).trans hs.cachedBytes_le
    · have hres : (s.evict h).2 =
          { s with
            chunks := s.chunks.erase h
            pinnedBytes := s.pinnedBytes - d.length } := by simp [evict, he]
      have hlru : (s.evict h).2.cacheLru = s.cacheLru := by rw [hres]
      have hnot : ∀ x ∈ s.cacheLru, x ≠ h := fun x hx hxh => hs.notMem_lru he (hxh ▸ hx)
      refine ⟨keyed, hlru ▸ hs.lru_nodup, fun x => ?_, ?_, ?_⟩
      · rw [cached, hlru, ← hs.mem_lru]
        exact ⟨fun hx => ⟨hx, hnot x hx⟩, And.left⟩
      · rw [hlru, total_congr _ fun x hx => size x (hnot x hx), hres]
        exact hs.cachedBytes_eq
      · rw [hres]
        exact hs.cachedBytes_le

/-! ### Caching -/

omit [Sha256] in
/-- The eviction loop drops the front of the queue until the new chunk fits. -/
theorem makeRoom_spec {w : ChunkHash → ℕ} {size : ℕ} {q : List ChunkHash} {s : ChunkStorage}
    (hsize : size ≤ s.maxCachedBytes) (hq : q.Nodup)
    (hent : ∀ h ∈ q, ∃ e, s.entry h = some e ∧ e.data.length = w h)
    (hbytes : s.cachedBytes = total w q) :
    (s.makeRoom size q).2 = true ∧
      (s.makeRoom size q).1.cacheLru = room w s.maxCachedBytes size q ∧
      (s.makeRoom size q).1.cachedBytes = total w (room w s.maxCachedBytes size q) ∧
      (s.makeRoom size q).1.maxCachedBytes = s.maxCachedBytes ∧
      ∀ x, (s.makeRoom size q).1.entry x =
        if x ∈ q ∧ x ∉ room w s.maxCachedBytes size q then none else s.entry x := by
  induction q generalizing s with
  | nil =>
    simp only [total_nil] at hbytes
    exact ⟨decide_eq_true (by omega), rfl, hbytes, rfl, fun x => by simp [makeRoom]; rfl⟩
  | cons h q ih =>
    obtain ⟨hh, hq'⟩ := List.nodup_cons.1 hq
    obtain ⟨e, he, hw⟩ := hent h List.mem_cons_self
    unfold makeRoom room
    by_cases hover : s.maxCachedBytes < total w (h :: q) + size
    · rw [if_pos (hbytes ▸ hover), if_pos hover, he]
      dsimp only
      have herase : ∀ x, (s.chunks.erase h).lookup x = if x = h then none else s.entry x :=
        entry_erase s h
      obtain ⟨h1, h2, h3, h4, h5⟩ := ih
        (s := { s with
          chunks := s.chunks.erase h
          cachedBytes := s.cachedBytes - e.data.length }) hsize hq'
        (fun x hx => by
          obtain ⟨e', he', hw'⟩ := hent x (List.mem_cons_of_mem h hx)
          refine ⟨e', ?_, hw'⟩
          rw [entry_mk, herase, if_neg (ne_of_mem_of_not_mem hx hh), he'])
        (by rw [total_cons] at hbytes; dsimp only; omega)
      refine ⟨h1, h2, h3, h4, fun x => ?_⟩
      rw [h5, entry_mk, herase]
      by_cases hx : x = h
      · subst hx
        have : x ∉ room w s.maxCachedBytes size q := fun hr => hh ((room_suffix _ _ _ _).mem hr)
        simp [this]
      · simp [hx]
    · rw [if_neg (hbytes ▸ hover), if_neg hover]
      exact ⟨rfl, rfl, hbytes, rfl, fun x => by
        rw [if_neg fun hx => hx.2 hx.1]; rfl⟩

/-- What `cache` does to a store whose weights are `w`: its queue is the `ByteLru` queue, and an
entry goes exactly when its hash leaves the queue. -/
theorem cache_spec {w : ChunkHash → ℕ} {s : ChunkStorage} (hs : s.Inv) {c : Chunk}
    (hw : ∀ h ∈ s.cacheLru, s.sizeOf h = w h) (hc : c.data.length = w c.hash)
    (hpin : s.isPinned c.hash = false) :
    (s.cache c).cacheLru = push w s.maxCachedBytes s.cacheLru c.hash ∧
      (s.cache c).maxCachedBytes = s.maxCachedBytes ∧
      (s.cache c).cachedBytes = total w (s.cache c).cacheLru ∧
      (∀ x, x ≠ c.hash → (s.cache c).entry x =
        if x ∈ s.cacheLru ∧ x ∉ (s.cache c).cacheLru then none else s.entry x) ∧
      (c.hash ∉ s.cacheLru → c.hash ∈ (s.cache c).cacheLru →
        (s.cache c).entry c.hash = some ⟨c.data, false⟩) ∧
      (c.hash ∈ s.cacheLru ∨ c.hash ∉ (s.cache c).cacheLru → s.cache c = s) := by
  have hcont : s.contains c.hash ↔ c.hash ∈ s.cacheLru := by
    rw [hs.mem_lru, contains, isCached]
    rw [isPinned] at hpin
    rcases h : s.entry c.hash with _ | ⟨d, _ | _⟩ <;> simp_all
  have hbytes : s.cachedBytes = total w s.cacheLru :=
    hs.cachedBytes_eq.trans (total_congr _ hw)
  by_cases hskip : s.contains c.hash ∨ s.maxCachedBytes < c.data.length
  · have hres : s.cache c = s := if_pos hskip
    have hpush : push w s.maxCachedBytes s.cacheLru c.hash = s.cacheLru :=
      if_pos (hskip.imp hcont.1 fun h => hc ▸ h)
    rw [hres, hpush]
    exact ⟨rfl, rfl, hbytes, fun x _ => by rw [if_neg fun h => h.2 h.1],
      fun h h' => absurd h' h, fun _ => rfl⟩
  · obtain ⟨hnc, hfit⟩ := not_or.1 hskip
    have hnot : c.hash ∉ s.cacheLru := fun h => hnc (hcont.2 h)
    obtain ⟨h1, h2, h3, h4, h5⟩ := makeRoom_spec (w := w)
      (not_lt.1 hfit) hs.lru_nodup (fun h hh => by
        obtain ⟨d, hd⟩ := isCached_iff.1 ((hs.mem_lru h).1 hh)
        exact ⟨_, hd, by rw [← hw h hh, sizeOf_eq hd]⟩) hbytes
    rcases hm : s.makeRoom c.data.length s.cacheLru with ⟨s₁, ok⟩
    simp only [hm] at h1 h2 h3 h4 h5
    subst h1
    have hres : s.cache c =
        { s₁ with
          cacheLru := s₁.cacheLru ++ [c.hash]
          chunks := s₁.chunks.insert c.hash ⟨c.data, false⟩
          cachedBytes := s₁.cachedBytes + c.data.length } := by
      rw [cache, if_neg hskip, hm]
    have hpush : push w s.maxCachedBytes s.cacheLru c.hash
        = room w s.maxCachedBytes c.data.length s.cacheLru ++ [c.hash] := by
      rw [push, if_neg (not_or.2 ⟨hnot, hc ▸ hfit⟩), hc]
    have hlru : (s.cache c).cacheLru = push w s.maxCachedBytes s.cacheLru c.hash := by
      rw [hres, hpush, ← h2]
    refine ⟨hlru, by rw [hres]; exact h4, ?_, ?_, ?_, ?_⟩
    · rw [hlru, hpush, hres, total_append]
      simp [h3, hc]
    · intro x hx
      have hl : x ∈ (s.cache c).cacheLru ↔
          x ∈ room w s.maxCachedBytes c.data.length s.cacheLru := by
        rw [hlru, hpush]; simp [hx]
      have hins : (s.cache c).entry x = s₁.entry x := by
        rw [hres]; exact Finmap.lookup_insert_of_ne _ hx
      rw [hins, h5]
      exact if_congr (and_congr_right' (not_congr hl.symm)) rfl rfl
    · intro _ _
      rw [hres]
      exact Finmap.lookup_insert _
    · rintro (h | h)
      · exact absurd h hnot
      · exact absurd (by rw [hlru, hpush]; simp) h

theorem cache_of_pinned {s : ChunkStorage} {c : Chunk} (h : s.isPinned c.hash = true) :
    s.cache c = s := by
  obtain ⟨d, hd⟩ := isPinned_iff.1 h
  exact if_pos (Or.inl (contains_iff.2 ⟨_, hd⟩))

theorem inv_cache {s : ChunkStorage} (hs : s.Inv) (c : Chunk) : (s.cache c).Inv := by
  cases hpin : s.isPinned c.hash with
  | true => rwa [cache_of_pinned hpin]
  | false =>
    by_cases hmem : c.hash ∈ s.cacheLru ∨ c.hash ∉ (s.cache c).cacheLru
    · -- nothing changes
      have hskip : s.cache c = s := by
        by_cases hc : c.hash ∈ s.cacheLru
        · obtain ⟨d, hd⟩ := isCached_iff.1 ((hs.mem_lru _).1 hc)
          exact if_pos (Or.inl (contains_iff.2 ⟨_, hd⟩))
        · exact (cache_spec (w := fun h => if h = c.hash then c.data.length else s.sizeOf h) hs
            (fun h hh => by rw [if_neg (ne_of_mem_of_not_mem hh hc)]) (if_pos rfl).symm
            hpin).2.2.2.2.2 hmem
      rwa [hskip]
    · obtain ⟨hold, hnew⟩ := not_or.1 hmem
      rw [not_not] at hnew
      set w : ChunkHash → ℕ := fun h => if h = c.hash then c.data.length else s.sizeOf h with hw
      obtain ⟨hlru, hmax, hbytes, hent, hentc, -⟩ := cache_spec (w := w) hs
        (fun h hh => by rw [hw]; exact (if_neg (ne_of_mem_of_not_mem hh hold)).symm)
        (if_pos rfl).symm hpin
      have hc := hentc hold hnew
      have hsub : ∀ x ∈ (s.cache c).cacheLru, x ≠ c.hash → x ∈ s.cacheLru := fun x hx hxc => by
        rw [hlru] at hx
        exact (mem_push _ _ hx).resolve_right hxc
      have hsize : ∀ x ∈ (s.cache c).cacheLru, (s.cache c).sizeOf x = w x := fun x hx => by
        by_cases hxc : x = c.hash
        · subst hxc; rw [sizeOf_eq hc, hw]; simp
        · rw [hw]
          simp only [hxc, if_false]
          exact sizeOf_congr (by rw [hent x hxc, if_neg fun h => h.2 hx])
      refine ⟨?_, hlru ▸ nodup_push _ _ hs.lru_nodup _, ?_, ?_, ?_⟩
      · intro x e he
        by_cases hxc : x = c.hash
        · subst hxc; cases hc.symm.trans he; exact c.hash_eq
        · rw [hent x hxc] at he
          split_ifs at he
          exact hs.keyed x e he
      · intro x
        by_cases hxc : x = c.hash
        · subst hxc; simp [hnew, isCached, hc]
        · rw [isCached, hent x hxc]
          split_ifs with h
          · simp [h.2]
          · rw [← isCached, ← hs.mem_lru]
            exact ⟨fun hx => hsub x hx hxc, fun hx => by by_contra hn; exact h ⟨hx, hn⟩⟩
      · rw [hbytes, total_congr _ fun x hx => (hsize x hx).symm]
      · rw [hbytes, hmax, hlru]
        refine total_push_le _ _ ?_ _
        rw [← total_congr _ fun x hx => ?_]
        · exact hs.cachedBytes_eq ▸ hs.cachedBytes_le
        · rw [hw]; exact (if_neg (ne_of_mem_of_not_mem hx hold)).symm

/-- Caching never costs a pinned entry. -/
theorem entry_cache_of_pinned {s : ChunkStorage} (hs : s.Inv) {x : ChunkHash} {d : Bytes}
    (hx : s.entry x = some ⟨d, true⟩) (c : Chunk) : (s.cache c).entry x = some ⟨d, true⟩ := by
  cases hpin : s.isPinned c.hash with
  | true => rwa [cache_of_pinned hpin]
  | false =>
    have hxc : x ≠ c.hash := by rintro rfl; simp [isPinned, hx] at hpin
    by_cases hc : c.hash ∈ s.cacheLru
    · obtain ⟨e, he⟩ := isCached_iff.1 ((hs.mem_lru _).1 hc)
      rwa [show s.cache c = s from if_pos (Or.inl (contains_iff.2 ⟨_, he⟩))]
    · rw [(cache_spec (w := fun h => if h = c.hash then c.data.length else s.sizeOf h) hs
        (fun h hh => by rw [if_neg (ne_of_mem_of_not_mem hh hc)]) (if_pos rfl).symm
        hpin).2.2.2.1 x hxc, if_neg fun h => hs.notMem_lru hx h.1, hx]

/-- Caching neither pins nor unpins. -/
theorem isPinned_cache {s : ChunkStorage} (hs : s.Inv) (c : Chunk) (x : ChunkHash) :
    (s.cache c).isPinned x = s.isPinned x := by
  cases hx : s.isPinned x with
  | true =>
    obtain ⟨d, hd⟩ := isPinned_iff.1 hx
    exact isPinned_iff.2 ⟨d, entry_cache_of_pinned hs hd c⟩
  | false =>
    refine Bool.eq_false_iff.2 fun hpin' => ?_
    obtain ⟨d, hd⟩ := isPinned_iff.1 hpin'
    cases hpin : s.isPinned c.hash with
    | true => rw [cache_of_pinned hpin, hx] at hpin'; cases hpin'
    | false =>
      have hspec := cache_spec (w := fun h => if h ∈ s.cacheLru then s.sizeOf h else c.data.length)
        (c := c) hs (fun h hh => (if_pos hh).symm)
      by_cases hmem : c.hash ∈ s.cacheLru
      · obtain ⟨e, he⟩ := isCached_iff.1 ((hs.mem_lru _).1 hmem)
        rw [show s.cache c = s from if_pos (Or.inl (contains_iff.2 ⟨_, he⟩)), hx] at hpin'
        cases hpin'
      · obtain ⟨-, -, -, hent, hentc, hsame⟩ := hspec (if_neg hmem).symm hpin
        by_cases hxc : x = c.hash
        · subst hxc
          by_cases hnew : c.hash ∈ (s.cache c).cacheLru
          · cases (hentc hmem hnew).symm.trans hd
          · rw [hsame (Or.inr hnew), hx] at hpin'
            cases hpin'
        · rw [hent x hxc] at hd
          split_ifs at hd
          rw [isPinned_iff.2 ⟨d, hd⟩] at hx
          cases hx

/-! ### A batch of chunks for the cache -/

/-- A store after caching a batch of chunks: its queue is the `ByteLru` queue of the batch, for
any weights that are those of the queue and of the batch. -/
theorem foldl_cache {w : ChunkHash → ℕ} {s : ChunkStorage} {cs : List Chunk} (hs : s.Inv)
    (hw : ∀ h ∈ s.cacheLru, s.sizeOf h = w h) (hc : ∀ c ∈ cs, c.data.length = w c.hash)
    (hpin : ∀ c ∈ cs, s.isPinned c.hash = false) :
    (cs.foldl cache s).Inv ∧
      (cs.foldl cache s).cacheLru = pushAll w s.maxCachedBytes s.cacheLru (cs.map Chunk.hash) ∧
      ∀ x, (cs.foldl cache s).isPinned x = s.isPinned x := by
  induction cs generalizing s with
  | nil => exact ⟨hs, rfl, fun _ => rfl⟩
  | cons c cs ih =>
    have hcw := hc c List.mem_cons_self
    have hcpin := hpin c List.mem_cons_self
    obtain ⟨hlru, hmax, -, hent, hentc, hsame⟩ := cache_spec hs hw hcw hcpin
    have hw' : ∀ h ∈ (s.cache c).cacheLru, (s.cache c).sizeOf h = w h := by
      intro h hh
      by_cases hold : c.hash ∈ s.cacheLru
      · rw [hsame (Or.inl hold)] at hh ⊢
        exact hw h hh
      · by_cases hhc : h = c.hash
        · subst hhc
          rw [sizeOf_eq (hentc hold hh), hcw]
        · rw [hlru] at hh
          have hin := (mem_push _ _ hh).resolve_right hhc
          rw [← hw h hin]
          exact sizeOf_congr (by rw [hent h hhc, if_neg fun h => h.2 (hlru ▸ hh)])
    obtain ⟨h1, h2, h3⟩ := ih (inv_cache hs c) hw' (fun x hx => hc x (List.mem_cons_of_mem c hx))
      fun x hx => by rw [isPinned_cache hs]; exact hpin x (List.mem_cons_of_mem c hx)
    rw [hlru, hmax] at h2
    exact ⟨h1, h2, fun x => by rw [List.foldl_cons, h3, isPinned_cache hs]⟩

theorem contains_eq {s : ChunkStorage} (hs : s.Inv) (x : ChunkHash) :
    s.contains x ↔ s.isPinned x ∨ x ∈ s.cacheLru := by
  rw [hs.mem_lru, contains, isPinned, isCached]
  rcases s.entry x with _ | ⟨d, _ | _⟩ <;> simp

end Edfs.ChunkStorage
