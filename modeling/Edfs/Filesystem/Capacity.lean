import Edfs.Filesystem.FileSystem
import Edfs.Filesystem.StorageInvariant

/-!
# Room for the chunks to come

A store in which all the chunks that a node still wants can be pinned. As long as only such chunks
are pinned, pinning never fails, so nothing goes to the cache and nothing leaves the store.

* `Repairs`: the file system keeps its tree and its chunks, and may have pinned some;
* `Roomy`, and what `promote_to_pinned`, `pin_chunk` and `chunk` do then: `Roomy.promote`,
  `Roomy.pinChunk`, `Roomy.chunk`.
-/

namespace Edfs.FileSystem

variable {PeerId : Type} [CrdtTree PeerId]

/-- A step that keeps the tree, what is pinned and what is stored. -/
structure Repairs (fs fs' : FileSystem PeerId) : Prop where
  tree : fs'.tree = fs.tree
  pinned : ∀ h, fs.isPinned h → fs'.isPinned h
  stored : ∀ h, fs.storage.contains h → fs'.storage.contains h

theorem Repairs.refl (fs : FileSystem PeerId) : Repairs fs fs := ⟨rfl, fun _ => id, fun _ => id⟩

theorem Repairs.trans {a b c : FileSystem PeerId} (h : Repairs a b) (h' : Repairs b c) :
    Repairs a c :=
  ⟨h'.tree.trans h.tree, fun x => h'.pinned x ∘ h.pinned x, fun x => h'.stored x ∘ h.stored x⟩

variable [Sha256]

/-- The chunks of `live` are as `size` bounds them, and there is room for all of `wanted`. -/
structure Roomy (size : ChunkHash → ℕ) (live wanted : Finset ChunkHash) (fs : FileSystem PeerId) :
    Prop where
  storage : fs.storage.Inv
  wanted_subset : wanted ⊆ live
  sized : ∀ h ∈ live, fs.storage.sizeOf h ≤ size h
  room : fs.storage.pinnedBytes + ∑ h ∈ wanted with ¬ fs.isPinned h, size h ≤
    fs.storage.maxPinnedBytes

variable {size : ChunkHash → ℕ} {live wanted : Finset ChunkHash} {fs fs' : FileSystem PeerId}
  {x : ChunkHash} {d : Bytes}

theorem Roomy.fits (h : fs.Roomy size live wanted) (hx : x ∈ wanted) (hnot : ¬ fs.isPinned x) :
    fs.storage.pinnedBytes + size x ≤ fs.storage.maxPinnedBytes := by
  have hmem : x ∈ wanted.filter fun y => ¬ fs.isPinned y := Finset.mem_filter.2 ⟨hx, hnot⟩
  have hle := Finset.single_le_sum (f := size) (fun _ _ => Nat.zero_le _) hmem
  exact (Nat.add_le_add_left hle _).trans h.room

omit [Sha256] in
theorem stored_iff : fs.storage.contains x ↔ fs.isPinned x ∨ fs.isCached x := by
  change fs.storage.contains x = true ↔
    fs.storage.isPinned x = true ∨ fs.storage.isCached x = true
  rw [ChunkStorage.contains, ChunkStorage.isPinned, ChunkStorage.isCached]
  rcases fs.storage.entry x with _ | ⟨d, _ | _⟩ <;> simp

/-- Pinning a wanted chunk takes up the room that was kept for it. -/
theorem Roomy.pins (h : fs.Roomy size live wanted) (hx : x ∈ wanted) (hnot : ¬ fs.isPinned x)
    (hd : d.length ≤ size x) (htree : fs'.tree = fs.tree) (hinv : fs'.storage.Inv)
    (hentry : ∀ y, fs'.storage.entry y = if y = x then some ⟨d, true⟩ else fs.storage.entry y)
    (hbytes : fs'.storage.pinnedBytes = fs.storage.pinnedBytes + d.length)
    (hmax : fs'.storage.maxPinnedBytes = fs.storage.maxPinnedBytes) :
    fs'.isPinned x ∧ Repairs fs fs' ∧ fs'.Roomy size live wanted := by
  have hself : fs'.storage.entry x = some ⟨d, true⟩ := by rw [hentry, if_pos rfl]
  have hother : ∀ y, y ≠ x → fs'.storage.entry y = fs.storage.entry y := fun y hy => by
    rw [hentry, if_neg hy]
  have hpinned : ∀ y, fs'.isPinned y ↔ fs.isPinned y ∨ y = x := by
    intro y
    change fs'.storage.isPinned y = true ↔ fs.storage.isPinned y = true ∨ y = x
    by_cases hy : y = x
    · subst hy
      exact iff_of_true (ChunkStorage.isPinned_iff.2 ⟨d, hself⟩) (Or.inr rfl)
    · rw [or_iff_left hy, ChunkStorage.isPinned, hother y hy, ChunkStorage.isPinned]
  refine ⟨(hpinned x).2 (Or.inr rfl), ⟨htree, fun y hy => (hpinned y).2 (Or.inl hy), ?_⟩,
    hinv, h.wanted_subset, fun y hy => ?_, ?_⟩
  · intro y hy
    by_cases hyx : y = x
    · exact hyx ▸ ChunkStorage.contains_iff.2 ⟨_, hself⟩
    · rwa [ChunkStorage.contains, hother y hyx]
  · by_cases hyx : y = x
    · rw [hyx, ChunkStorage.sizeOf_eq hself]
      exact hd
    · rw [ChunkStorage.sizeOf_congr (hother y hyx)]
      exact h.sized y hy
  · -- the chunk is not among those that are still to be pinned
    have hrest : (wanted.filter fun y => ¬ fs'.isPinned y) =
        (wanted.filter fun y => ¬ fs.isPinned y).erase x := by
      ext y
      rw [Finset.mem_erase, Finset.mem_filter, Finset.mem_filter, hpinned, not_or]
      tauto
    have hmem : x ∈ wanted.filter fun y => ¬ fs.isPinned y := Finset.mem_filter.2 ⟨hx, hnot⟩
    have hsum := Finset.add_sum_erase (wanted.filter fun y => ¬ fs.isPinned y) size hmem
    have hroom := h.room
    rw [hrest, hbytes, hmax]
    omega

/-- Promoting a wanted chunk succeeds. -/
theorem Roomy.promote (h : fs.Roomy size live wanted) (hx : x ∈ wanted) (hc : fs.isCached x) :
    (fs.promoteToPinned x).1 = true ∧ (fs.promoteToPinned x).2.isPinned x ∧
      Repairs fs (fs.promoteToPinned x).2 ∧
      (fs.promoteToPinned x).2.Roomy size live wanted := by
  obtain ⟨d, hd⟩ := ChunkStorage.isCached_iff.1 hc
  have hnot : ¬ fs.isPinned x := fun hp => by
    obtain ⟨d', hd'⟩ := ChunkStorage.isPinned_iff.1 hp
    cases hd.symm.trans hd'
  have hle : d.length ≤ size x := ChunkStorage.sizeOf_eq hd ▸ h.sized x (h.wanted_subset hx)
  have hfits : ¬ fs.storage.maxPinnedBytes < fs.storage.pinnedBytes + d.length :=
    not_lt.2 ((Nat.add_le_add_left hle _).trans (h.fits hx hnot))
  have hpromote : fs.promoteToPinned x =
      (true, { fs with storage := fs.storage.pinCached x ⟨d, false⟩ }) := by
    simp [promoteToPinned, ChunkStorage.promoteToPinned, hd, hfits]
  rw [hpromote]
  exact ⟨rfl, h.pins hx hnot hle rfl (ChunkStorage.inv_pinCached h.storage hd)
    (ChunkStorage.entry_pinCached _ _ _) rfl rfl⟩

/-- Pinning the bytes of a wanted chunk succeeds. -/
theorem Roomy.pinChunk (h : fs.Roomy size live wanted) (hx : ChunkHash.of d ∈ wanted)
    (hd : d.length ≤ size (ChunkHash.of d)) :
    ∃ fs', fs.pinChunk d = (.ok (), fs') ∧ fs'.isPinned (ChunkHash.of d) ∧ Repairs fs fs' ∧
      fs'.Roomy size live wanted := by
  set c := Chunk.new d
  have hinv := ChunkStorage.inv_tryPin h.storage [c]
  have hbound : fs.storage.pinnedBytes ≤ fs.storage.maxPinnedBytes :=
    (Nat.le_add_right _ _).trans h.room
  rcases he : fs.storage.entry c.hash with _ | ⟨d', _ | _⟩
  · -- the store lacks the chunk
    have hnot : ¬ fs.isPinned c.hash := fun hp => by
      obtain ⟨d', hd'⟩ := ChunkStorage.isPinned_iff.1 hp
      cases he.symm.trans hd'
    have hfits : ¬ fs.storage.maxPinnedBytes < fs.storage.pinnedBytes + c.data.length :=
      not_lt.2 ((Nat.add_le_add_left hd _).trans (h.fits hx hnot))
    have hpin : fs.storage.tryPin [c] = (.ok (), fs.storage.insertPinned c) := by
      simp [ChunkStorage.tryPin, ChunkStorage.pinPlan, he, hfits]
    rw [hpin] at hinv
    refine ⟨{ fs with storage := fs.storage.insertPinned c }, ?_, ?_⟩
    · rw [FileSystem.pinChunk, hpin]
    · exact h.pins hx hnot hd rfl hinv (ChunkStorage.entry_insertPinned _ c) rfl rfl
  · -- it is cached
    have hnot : ¬ fs.isPinned c.hash := fun hp => by
      obtain ⟨d'', hd''⟩ := ChunkStorage.isPinned_iff.1 hp
      cases he.symm.trans hd''
    have hle : d'.length ≤ size c.hash := ChunkStorage.sizeOf_eq he ▸ h.sized _ (h.wanted_subset hx)
    have hfits : ¬ fs.storage.maxPinnedBytes < fs.storage.pinnedBytes + d'.length :=
      not_lt.2 ((Nat.add_le_add_left hle _).trans (h.fits hx hnot))
    have hpin : fs.storage.tryPin [c] =
        (.ok (), fs.storage.pinCached c.hash ⟨d', false⟩) := by
      simp [ChunkStorage.tryPin, ChunkStorage.pinPlan, he, hfits, ChunkStorage.pinCachedHash]
    rw [hpin] at hinv
    refine ⟨{ fs with storage := fs.storage.pinCached c.hash ⟨d', false⟩ }, ?_, ?_⟩
    · rw [FileSystem.pinChunk, hpin]
    · exact h.pins hx hnot hle rfl hinv (ChunkStorage.entry_pinCached _ _ _) rfl rfl
  · -- it is pinned
    have hpin : fs.storage.tryPin [c] = (.ok (), fs.storage) := by
      simp [ChunkStorage.tryPin, ChunkStorage.pinPlan, he, not_lt.2 hbound]
    refine ⟨fs, ?_, ChunkStorage.isPinned_iff.2 ⟨d', he⟩, .refl fs, h⟩
    rw [FileSystem.pinChunk, hpin]

/-- Reading a chunk changes the recency order at most. -/
theorem Roomy.chunk (h : fs.Roomy size live wanted) (x : ChunkHash) :
    Repairs fs (fs.chunk x).2 ∧ (fs.chunk x).2.Roomy size live wanted := by
  have hentry : ∀ y, (fs.chunk x).2.storage.entry y = fs.storage.entry y :=
    ChunkStorage.entry_get fs.storage x
  have hpinned : ∀ y, (fs.chunk x).2.isPinned y = fs.isPinned y := fun y => by
    change ChunkStorage.isPinned _ y = ChunkStorage.isPinned _ y
    rw [ChunkStorage.isPinned, hentry, ChunkStorage.isPinned]
  have hcounters : (fs.chunk x).2.storage.pinnedBytes = fs.storage.pinnedBytes ∧
      (fs.chunk x).2.storage.maxPinnedBytes = fs.storage.maxPinnedBytes := by
    change (fs.storage.get x).2.pinnedBytes = _ ∧ (fs.storage.get x).2.maxPinnedBytes = _
    unfold ChunkStorage.get
    rcases fs.storage.entry x with _ | ⟨d, _ | _⟩ <;> exact ⟨rfl, rfl⟩
  refine ⟨⟨rfl, fun y hy => (hpinned y).trans hy, fun y hy => ?_⟩,
    ChunkStorage.inv_get h.storage x, h.wanted_subset, fun y hy => ?_, ?_⟩
  · rwa [ChunkStorage.contains, hentry]
  · rw [ChunkStorage.sizeOf_congr (hentry y)]
    exact h.sized y hy
  · rw [hcounters.1, hcounters.2]
    simp only [hpinned]
    exact h.room

/-- What `chunk` returns is the chunk, and no larger than it may be. -/
theorem Roomy.chunk_eq_some (h : fs.Roomy size live wanted) (hx : x ∈ live)
    (hd : (fs.chunk x).1 = some d) : ChunkHash.of d = x ∧ d.length ≤ size x := by
  have hget : (fs.storage.entry x).map ChunkEntry.data = some d :=
    (ChunkStorage.get_fst fs.storage x).symm.trans hd
  obtain ⟨e, he, rfl⟩ := Option.map_eq_some_iff.1 hget
  exact ⟨(h.storage.keyed x e he).symm, ChunkStorage.sizeOf_eq he ▸ h.sized x hx⟩

omit [Sha256] in
theorem chunk_eq_none (h : (fs.chunk x).1 = none) : ¬ fs.storage.contains x := by
  have hget : (fs.storage.entry x).map ChunkEntry.data = none :=
    (ChunkStorage.get_fst fs.storage x).symm.trans h
  rw [ChunkStorage.contains, Option.map_eq_none_iff.1 hget]
  exact Bool.false_ne_true

end Edfs.FileSystem
