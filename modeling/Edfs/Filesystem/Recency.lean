import Edfs.Base.Recency
import Edfs.Filesystem.StorageRuns

/-!
# The cache is a recency cache

The queue of the chunk store against the history of its calls. A chunk is touched when `cache`
inserts it and when `get` reads it unpinned; pins, promotions and evictions take hashes out of the
queue, and later calls may put them back.

* `touches`, the log of a list of calls; `recent_run`: the queue is in the order of last touches;
* `cache_lru`: `cache` drops the least recently touched chunks, no more than it has to, and none
  that is pinned.
-/

namespace Edfs.ChunkStorage

open ByteLru Recency

section

variable [Sha256]

/-! ### The log -/

/-- What a call touches: a chunk that it inserts into the cache, or reads there. -/
def touched (s : ChunkStorage) : StorageCall → List ChunkHash
  | .cache c => if !s.contains c.hash && (s.cache c).isCached c.hash then [c.hash] else []
  | .get h => if s.isCached h then [h] else []
  | _ => []

theorem touched_cases (s : ChunkStorage) (c : StorageCall) :
    s.touched c = [] ∨ ∃ h, s.touched c = [h] := by
  cases c with
  | cache c =>
    simp only [touched]
    split_ifs
    · exact .inr ⟨c.hash, rfl⟩
    · exact .inl rfl
  | get h =>
    simp only [touched]
    split_ifs
    · exact .inr ⟨h, rfl⟩
    · exact .inl rfl
  | _ => exact .inl rfl

/-- The log of a list of calls. -/
def touches (s : ChunkStorage) : List StorageCall → List ChunkHash
  | [] => []
  | c :: calls => s.touched c ++ touches (s.call c) calls

theorem touches_concat (s : ChunkStorage) (calls : List StorageCall) (c : StorageCall) :
    s.touches (calls ++ [c]) = s.touches calls ++ (calls.foldl call s).touched c := by
  induction calls generalizing s with
  | nil => simp [touches]
  | cons k calls ih => simp [touches, ih]

/-! ### What `cache` drops -/

/-- An absent chunk that can fit enters at the back of what the eviction loop leaves. -/
theorem cache_absent {s : ChunkStorage} (hs : s.Inv) {c : Chunk} (habsent : ¬ s.contains c.hash)
    (hfit : c.data.length ≤ s.maxCachedBytes) :
    (s.cache c).cacheLru = room s.sizeOf s.maxCachedBytes c.data.length s.cacheLru ++ [c.hash] ∧
      (s.cache c).entry c.hash = some ⟨c.data, false⟩ ∧
      ∀ x, x ≠ c.hash → (s.cache c).entry x =
        if x ∈ s.cacheLru ∧ x ∉ room s.sizeOf s.maxCachedBytes c.data.length s.cacheLru then none
        else s.entry x := by
  have hpin : s.isPinned c.hash = false := by
    rw [contains_eq hs, not_or] at habsent
    exact Bool.eq_false_iff.2 habsent.1
  have hnot : c.hash ∉ s.cacheLru := fun h => habsent ((contains_eq hs _).2 (.inr h))
  -- the weights with the new chunk among them
  set w : ChunkHash → ℕ := fun h => if h = c.hash then c.data.length else s.sizeOf h with hw
  have hwself : c.data.length = w c.hash := (if_pos rfl).symm
  have hwold : ∀ h ∈ s.cacheLru, s.sizeOf h = w h := fun h hh =>
    (if_neg (ne_of_mem_of_not_mem hh hnot)).symm
  obtain ⟨hlru, -, -, hent, hentc, -⟩ := cache_spec hs hwold hwself hpin
  have hroom : (s.cache c).cacheLru
      = room s.sizeOf s.maxCachedBytes c.data.length s.cacheLru ++ [c.hash] := by
    have hnew : ¬ (c.hash ∈ s.cacheLru ∨ s.maxCachedBytes < w c.hash) := by
      rw [← hwself]
      exact not_or.2 ⟨hnot, not_lt.2 hfit⟩
    rw [hlru, push, if_neg hnew, ← hwself, room_congr s.sizeOf s.maxCachedBytes hwold]
  refine ⟨hroom, hentc hnot (by simp [hroom]), fun x hx => ?_⟩
  rw [hent x hx, hroom]
  simp [hx]

/-! ### The queue follows the log -/

/-- `cache` drops a front part of the queue and puts a new chunk at the back, or does nothing. -/
theorem cacheLru_cache {s : ChunkStorage} (hs : s.Inv) (c : Chunk) :
    ∃ q, q.Sublist s.cacheLru ∧ (s.cache c).cacheLru = q ++ s.touched (.cache c) ∧
      ∀ h ∈ s.touched (.cache c), h ∉ q := by
  by_cases hskip : s.contains c.hash ∨ s.maxCachedBytes < c.data.length
  · have hsame : s.cache c = s := if_pos hskip
    have hnot : ¬ (s.contains c.hash = false ∧ s.isCached c.hash = true) := by
      simp only [contains, isCached]
      cases s.entry c.hash <;> simp
    have htouched : s.touched (.cache c) = [] := by simpa [touched, hsame] using hnot
    rw [hsame, htouched]
    exact ⟨_, .refl _, (List.append_nil _).symm, fun _ hx => absurd hx List.not_mem_nil⟩
  · obtain ⟨habsent, hfit⟩ := not_or.1 hskip
    obtain ⟨hlru, hentry, -⟩ := cache_absent hs habsent (not_lt.1 hfit)
    have htouched : s.touched (.cache c) = [c.hash] := by
      simp [touched, habsent, isCached, hentry]
    have hnot : c.hash ∉ s.cacheLru := fun h => habsent ((contains_eq hs _).2 (.inr h))
    have hsuffix := room_suffix s.sizeOf s.maxCachedBytes c.data.length s.cacheLru
    refine ⟨_, hsuffix.sublist, htouched ▸ hlru, fun h hh hmem => ?_⟩
    rw [htouched, List.mem_singleton] at hh
    exact hnot (hh ▸ hsuffix.mem hmem)

/-- `get` moves an unpinned chunk to the back. -/
theorem cacheLru_get (s : ChunkStorage) (h : ChunkHash) :
    ∃ q, q.Sublist s.cacheLru ∧ (s.get h).2.cacheLru = q ++ s.touched (.get h) ∧
      ∀ x ∈ s.touched (.get h), x ∉ q := by
  have same : s.touched (.get h) = [] → (s.get h).2.cacheLru = s.cacheLru →
      ∃ q, q.Sublist s.cacheLru ∧ (s.get h).2.cacheLru = q ++ s.touched (.get h) ∧
        ∀ x ∈ s.touched (.get h), x ∉ q := fun ht hq => by
    rw [ht, hq]
    exact ⟨_, .refl _, (List.append_nil _).symm, fun _ hx => absurd hx List.not_mem_nil⟩
  cases he : s.entry h with
  | none => exact same (by simp [touched, isCached, he]) (by simp [get, he])
  | some e =>
    cases hp : e.pinned with
    | true => exact same (by simp [touched, isCached, he, hp]) (by simp [get, he, hp])
    | false =>
      have htouched : s.touched (.get h) = [h] := by simp [touched, isCached, he, hp]
      refine ⟨s.cacheLru.filter (· ≠ h), List.filter_sublist, by simp [get, he, hp, htouched],
        fun x hx => ?_⟩
      rw [htouched, List.mem_singleton] at hx
      simp [hx]

/-- A call takes some hashes out of the queue and puts what it touches at the back. -/
theorem cacheLru_call {s : ChunkStorage} (hs : s.Inv) (c : StorageCall) :
    ∃ q, q.Sublist s.cacheLru ∧ (s.call c).cacheLru = q ++ s.touched c ∧
      ∀ h ∈ s.touched c, h ∉ q := by
  have same : s.touched c = [] → (s.call c).cacheLru.Sublist s.cacheLru →
      ∃ q, q.Sublist s.cacheLru ∧ (s.call c).cacheLru = q ++ s.touched c ∧
        ∀ h ∈ s.touched c, h ∉ q := fun ht hsub => by
    rw [ht]
    exact ⟨_, hsub, (List.append_nil _).symm, nofun⟩
  cases c with
  | tryPin chunks =>
    refine same rfl ?_
    show (s.tryPin chunks).2.cacheLru.Sublist _
    cases hok : (s.tryPin chunks).1 with
    | error e => rw [tryPin_error hok]
    | ok =>
      rw [(tryPin_ok hok).cacheLru]
      exact List.filter_sublist
  | cache c => exact cacheLru_cache hs c
  | get h => exact cacheLru_get s h
  | promoteToPinned h =>
    refine same rfl ?_
    show (s.promoteToPinned h).2.cacheLru.Sublist _
    unfold promoteToPinned
    cases s.entry h with
    | none => rfl
    | some e =>
      dsimp only
      split_ifs
      · rfl
      · rfl
      · exact List.filter_sublist
  | evict h =>
    refine same rfl ?_
    show (s.evict h).2.cacheLru.Sublist _
    unfold evict
    cases s.entry h with
    | none => rfl
    | some e =>
      dsimp only
      split_ifs
      · rfl
      · exact List.filter_sublist

/-- **The queue is in the order of the last touches.** -/
theorem recent_run (maxPinnedBytes : ℕ) (calls : List StorageCall) :
    Recent ((ChunkStorage.new maxPinnedBytes).touches calls)
      (calls.foldl call (ChunkStorage.new maxPinnedBytes)).cacheLru := by
  induction calls using List.reverseRecOn with
  | nil => exact recent_nil
  | append_singleton calls c ih =>
    rw [touches_concat, List.foldl_concat]
    obtain ⟨q, hsub, hlru, hnot⟩ := cacheLru_call (accounted_run maxPinnedBytes calls).1.toInv c
    rw [hlru]
    have hrecent := ih.sublist hsub
    rcases touched_cases (calls.foldl call (ChunkStorage.new maxPinnedBytes)) c with ht | ⟨h, ht⟩
    · rw [ht, List.append_nil, List.append_nil]
      exact hrecent
    · rw [ht]
      exact hrecent.touch (hnot h (ht ▸ List.mem_singleton_self h))

/-! ### A recency cache -/

/-- Caching `c` removes the entry of `x`. -/
def Drops (s : ChunkStorage) (c : Chunk) (x : ChunkHash) : Prop :=
  s.contains x ∧ ¬ (s.cache c).contains x

/-- What is dropped is the front of the queue, and the rest of it stays. -/
theorem exists_dropped {s : ChunkStorage} (hs : s.Inv) {c : Chunk} (habsent : ¬ s.contains c.hash)
    (hfit : c.data.length ≤ s.maxCachedBytes) :
    ∃ dropped, s.cacheLru
        = dropped ++ room s.sizeOf s.maxCachedBytes c.data.length s.cacheLru ∧
      ∀ x, s.Drops c x ↔ x ∈ dropped := by
  obtain ⟨hlru, hentry, hent⟩ := cache_absent hs habsent hfit
  obtain ⟨dropped, hsplit⟩ := room_suffix s.sizeOf s.maxCachedBytes c.data.length s.cacheLru
  set kept := room s.sizeOf s.maxCachedBytes c.data.length s.cacheLru
  refine ⟨dropped, hsplit.symm, fun x => ?_⟩
  have hdisjoint : ∀ x ∈ dropped, x ∉ kept := fun x hx hkept =>
    (List.nodup_append.1 (hsplit ▸ hs.lru_nodup)).2.2 x hx x hkept rfl
  by_cases hx : x = c.hash
  · subst hx
    have hnot : c.hash ∉ dropped := fun h => habsent
      ((contains_eq hs _).2 (.inr (hsplit ▸ List.mem_append_left _ h)))
    simp [Drops, habsent, hnot]
  · have hmem : x ∈ s.cacheLru ∧ x ∉ kept ↔ x ∈ dropped := by
      rw [← hsplit, List.mem_append]
      exact ⟨fun h => h.1.resolve_right h.2, fun h => ⟨.inl h, hdisjoint x h⟩⟩
    have hafter : (s.cache c).contains x = if x ∈ dropped then false else s.contains x := by
      rw [contains, hent x hx, if_congr hmem rfl rfl, contains]
      split_ifs <;> rfl
    rw [Drops, hafter]
    by_cases hd : x ∈ dropped
    · have hin : x ∈ s.cacheLru := hsplit ▸ List.mem_append_left _ hd
      simp [hd, (contains_eq hs x).2 (.inr hin)]
    · simp [hd]

/-- **The cache is a recency cache.** After any calls on a new store, a chunk that is absent and can
fit is cached; what has to go for it was unpinned and touched last before all that stays; the last
of it would not have fit; and nothing else changes. No other chunk changes anything. -/
theorem cache_lru (maxPinnedBytes : ℕ) (calls : List StorageCall) (c : Chunk) :
    let s := calls.foldl call (new maxPinnedBytes)
    let log := (new maxPinnedBytes).touches calls
    (¬ s.contains c.hash → c.data.length ≤ s.maxCachedBytes →
      (s.cache c).entry c.hash = some ⟨c.data, false⟩ ∧
      (∀ x, s.Drops c x → s.isCached x ∧
        ∀ y, s.isCached y → (s.cache c).isCached y → Older log x y) ∧
      (∀ x, s.Drops c x → (∀ y, s.Drops c y → y = x ∨ Older log y x) →
        s.maxCachedBytes < ∑ y ∈ (s.cache c).cachedHashes, (s.cache c).sizeOf y + s.sizeOf x) ∧
      (∀ x, s.isPinned x → (s.cache c).entry x = s.entry x) ∧
      ∀ x, x ≠ c.hash → ¬ s.Drops c x → (s.cache c).entry x = s.entry x) ∧
    (s.contains c.hash ∨ s.maxCachedBytes < c.data.length → s.cache c = s) := by
  intro s log
  have hs : s.Inv := (accounted_run maxPinnedBytes calls).1.toInv
  have hs' : (s.cache c).Inv := inv_cache hs c
  have hrecent : Recent log s.cacheLru := recent_run maxPinnedBytes calls
  refine ⟨fun habsent hfit => ?_, fun hskip => if_pos hskip⟩
  obtain ⟨hlru, hentry, hent⟩ := cache_absent hs habsent hfit
  obtain ⟨dropped, hsplit, hdrops⟩ := exists_dropped hs habsent hfit
  set kept := room s.sizeOf s.maxCachedBytes c.data.length s.cacheLru with hkept
  have hcached : ∀ x ∈ dropped, s.isCached x := fun x hx =>
    (hs.mem_lru x).1 (hsplit ▸ List.mem_append_left _ hx)
  have hstays : ∀ x, x ≠ c.hash → ¬ s.Drops c x → (s.cache c).entry x = s.entry x := by
    intro x hx hnot
    rw [hent x hx, if_neg]
    rintro ⟨hin, hout⟩
    rw [hsplit] at hin
    exact hnot ((hdrops x).2 ((List.mem_append.1 hin).resolve_right hout))
  have hdisjoint : ∀ y ∈ kept, y ∉ dropped := fun y hy hd =>
    (List.nodup_append.1 (hsplit ▸ hs.lru_nodup)).2.2 y hd y hy rfl
  have hpairs := List.pairwise_append.1 (hsplit ▸ hrecent.older)
  refine ⟨hentry, fun x hx => ?_, fun x hx hlast => ?_, fun x hx => ?_, hstays⟩
  · have hd := (hdrops x).1 hx
    refine ⟨hcached x hd, fun y hy hafter => hpairs.2.2 x hd y ?_⟩
    -- what stays is behind what is dropped
    have hin : y ∈ dropped ++ kept := hsplit ▸ (hs.mem_lru y).2 hy
    refine (List.mem_append.1 hin).resolve_left fun hd => ((hdrops y).2 hd).2 ?_
    exact (contains_eq hs' y).2 (.inr ((hs'.mem_lru y).2 hafter))
  · have hd := (hdrops x).1 hx
    -- the most recently touched of them is the last that left
    obtain ⟨a, rfl⟩ := eq_concat_of_newest hpairs.1 hd fun y hy => hlast y ((hdrops y).2 hy)
    have hqueue : s.cacheLru = a ++ x :: kept := by simp [hsplit]
    have hover : s.maxCachedBytes < total s.sizeOf (x :: kept) + c.data.length :=
      lt_of_room s.sizeOf s.maxCachedBytes (hqueue ▸ hkept.symm)
    have hsize : ∀ y ∈ kept, (s.cache c).sizeOf y = s.sizeOf y := by
      intro y hy
      have hne : y ≠ c.hash := fun heq => habsent
        ((contains_eq hs _).2 (.inr (heq ▸ hsplit ▸ List.mem_append_right _ hy)))
      exact sizeOf_congr (hstays y hne fun h => hdisjoint y hy ((hdrops y).1 h))
    have hafter : ∑ y ∈ (s.cache c).cachedHashes, (s.cache c).sizeOf y
        = total s.sizeOf kept + c.data.length := by
      rw [← hs'.cachedBytes_eq_sum, hs'.cachedBytes_eq, hlru, total_append, total_congr _ hsize,
        total_cons, total_nil, sizeOf_eq hentry, Nat.add_zero]
    rw [total_cons] at hover
    omega
  · have hne : x ≠ c.hash := fun heq => habsent (heq ▸ (contains_eq hs x).2 (.inl hx))
    refine hstays x hne fun h => ?_
    obtain ⟨d, hd⟩ := isPinned_iff.1 hx
    exact h.2 (contains_iff.2 ⟨_, entry_cache_of_pinned hs hd c⟩)

end

section

open Reference

/-- A chunk is pinned, two are cached, and the first of them is read again. -/
def rereadCalls : List StorageCall :=
  [.tryPin [Chunk.new [1]], .cache (Chunk.new [7]), .cache (Chunk.new [8]), .get (ChunkHash.of [7])]

def rereadStore : ChunkStorage := rereadCalls.foldl call (new 100)

/-- It leaves one byte of the cache. -/
def almostAll : Chunk := Chunk.new (List.replicate (Edfs.maxCachedBytes - 1) 0)

theorem length_almostAll : almostAll.data.length = Edfs.maxCachedBytes - 1 :=
  List.length_replicate

theorem almostAll_ne {d : Bytes} (hd : d.length ≤ 1) : almostAll.hash ≠ ChunkHash.of d := by
  intro heq
  have hlen := length_almostAll
  rw [show almostAll.data = d from ChunkHash.of_injective heq] at hlen
  exact absurd (hlen ▸ hd) (by decide)

theorem almostAll_absent : ¬ rereadStore.contains almostAll.hash := by
  have hchunks : rereadStore.chunks = (((∅ : Finmap fun _ : ChunkHash => ChunkEntry).insert
      (ChunkHash.of [1]) ⟨[1], true⟩).insert (ChunkHash.of [7]) ⟨[7], false⟩).insert
        (ChunkHash.of [8]) ⟨[8], false⟩ := rfl
  rw [contains, entry, hchunks, Finmap.lookup_insert_of_ne _ (almostAll_ne le_rfl),
    Finmap.lookup_insert_of_ne _ (almostAll_ne le_rfl),
    Finmap.lookup_insert_of_ne _ (almostAll_ne le_rfl), Finmap.lookup_empty]
  exact Bool.false_ne_true

theorem drops_almostAll (x : ChunkHash) :
    rereadStore.Drops almostAll x ↔ x = ChunkHash.of [8] := by
  have hs : rereadStore.Inv := (accounted_run 100 rereadCalls).1.toInv
  obtain ⟨dropped, hsplit, hdrops⟩ := exists_dropped hs almostAll_absent
    (by rw [length_almostAll]; exact Nat.sub_le _ _)
  have hroom : room rereadStore.sizeOf rereadStore.maxCachedBytes almostAll.data.length
      rereadStore.cacheLru = [ChunkHash.of [7]] := by
    rw [length_almostAll]
    decide
  have hqueue : rereadStore.cacheLru = [ChunkHash.of [8]] ++ [ChunkHash.of [7]] := by decide
  rw [hroom, hqueue] at hsplit
  rw [hdrops, ← List.append_cancel_right hsplit, List.mem_singleton]

theorem cache_lru_reread :
    let s := rereadStore
    (s.cache almostAll).entry almostAll.hash = some ⟨almostAll.data, false⟩ ∧
      s.Drops almostAll (ChunkHash.of [8]) ∧
      Older ((new 100).touches rereadCalls) (ChunkHash.of [8]) (ChunkHash.of [7]) ∧
      (s.cache almostAll).entry (ChunkHash.of [7]) = some ⟨[7], false⟩ ∧
      (s.cache almostAll).entry (ChunkHash.of [1]) = some ⟨[1], true⟩ := by
  obtain ⟨hentry, hold, -, hpinned, hstays⟩ := (cache_lru 100 rereadCalls almostAll).1
    almostAll_absent (by rw [length_almostAll]; exact Nat.sub_le _ _)
  have hseven : (rereadStore.cache almostAll).entry (ChunkHash.of [7]) = some ⟨[7], false⟩ := by
    have hnot : ¬ rereadStore.Drops almostAll (ChunkHash.of [7]) := fun h => by
      cases (drops_almostAll _).1 h
    rw [rereadStore, hstays _ (almostAll_ne le_rfl).symm hnot]
    rfl
  have hdrop : rereadStore.Drops almostAll (ChunkHash.of [8]) := (drops_almostAll _).2 rfl
  have hcached : (rereadStore.cache almostAll).isCached (ChunkHash.of [7]) := by
    rw [isCached, hseven]
    rfl
  refine ⟨hentry, hdrop, (hold _ hdrop).2 _ (by decide) hcached, hseven, ?_⟩
  · rw [rereadStore, hpinned _ (by decide)]
    rfl

end

end Edfs.ChunkStorage
