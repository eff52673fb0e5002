import Edfs.Base.Slice
import Edfs.Filesystem.FileSystem
import Edfs.Filesystem.StorageInvariant

/-!
# What a read returns

`read_file` walks over a file's chunk references with a running offset and takes of each stored
chunk the part the request overlaps; a chunk that is not stored counts as zeros.

* `window`: what the walk collects, for any contents of the references; `window_eq_slice`: the
  slice of the contents put together, where each has the size its reference counts;
* `overlapping`: the references a request touches, the only ones a window depends on;
* `readLoop_eq_some`, `readFile_eq_some`: a read returns the window of what is stored;
* `missingLoop_eq_some`: `missing_chunk_hashes_for` lists what it touches and the store lacks.
-/

namespace Edfs.Chunk

open Slice

/-- The parts between `offset` and `stop` of the contents of a list of references, the first of
them laid out at `start`. -/
def window (f : ChunkRef → Bytes) (offset stop : ℕ) : ℕ → List ChunkRef → Bytes
  | _, [] => []
  | start, r :: rs =>
      slice start offset stop ((f r).take r.size) ++ window f offset stop (start + r.size) rs

/-- The references of a list that the bytes between `offset` and `stop` touch. -/
def overlapping (offset stop : ℕ) : ℕ → List ChunkRef → List ChunkRef
  | _, [] => []
  | start, r :: rs =>
      (if start < stop ∧ offset < start + r.size then [r] else [])
        ++ overlapping offset stop (start + r.size) rs

theorem overlapping_subset (offset stop start : ℕ) (refs : List ChunkRef) :
    overlapping offset stop start refs ⊆ refs := by
  induction refs generalizing start with
  | nil => exact List.Subset.refl _
  | cons r rs ih =>
    unfold overlapping
    refine List.append_subset.2 ⟨?_, fun x hx => List.mem_cons_of_mem r (ih _ hx)⟩
    split_ifs
    · exact List.cons_subset.2 ⟨List.mem_cons_self, List.nil_subset _⟩
    · exact List.nil_subset _

theorem overlapping_after {offset stop start : ℕ} (h : stop ≤ start) (refs : List ChunkRef) :
    overlapping offset stop start refs = [] := by
  induction refs generalizing start with
  | nil => rfl
  | cons r rs ih =>
    rw [overlapping, ih (by omega), if_neg (by omega)]
    rfl

theorem window_after (f : ChunkRef → Bytes) {offset stop start : ℕ} (h : stop ≤ start)
    (refs : List ChunkRef) : window f offset stop start refs = [] := by
  induction refs generalizing start with
  | nil => rfl
  | cons r rs ih =>
    rw [window, ih (by omega), slice_after _ h]
    rfl

/-- An empty window takes nothing. -/
theorem window_empty (f : ChunkRef → Bytes) {offset stop : ℕ} (h : stop ≤ offset) (start : ℕ)
    (refs : List ChunkRef) : window f offset stop start refs = [] := by
  induction refs generalizing start with
  | nil => rfl
  | cons r rs ih =>
    rw [window, ih, List.append_nil, slice]
    refine List.drop_eq_nil_of_le ?_
    rw [List.length_take]
    omega

/-- A window depends only on the references it touches. -/
theorem window_congr {f g : ChunkRef → Bytes} {offset stop start : ℕ} {refs : List ChunkRef}
    (h : ∀ r ∈ overlapping offset stop start refs, f r = g r) :
    window f offset stop start refs = window g offset stop start refs := by
  induction refs generalizing start with
  | nil => rfl
  | cons r rs ih =>
    unfold overlapping at h
    rw [window, window, ih fun x hx => h x (List.mem_append_right _ hx)]
    congr 1
    by_cases ht : start < stop ∧ offset < start + r.size
    · rw [h r (by simp [ht])]
    · -- the reference is not touched: nothing is taken of either
      rcases not_and_or.1 ht with ht | ht
      · rw [slice_after _ (not_lt.1 ht), slice_after _ (not_lt.1 ht)]
      · have hlen : ∀ p : Bytes, start + (p.take r.size).length ≤ offset := fun p => by
          rw [List.length_take]
          omega
        rw [slice_before (hlen _), slice_before (hlen _)]

/-- Where the contents have the sizes the references count, a window is the slice of the contents
put together. -/
theorem window_eq_slice {f : ChunkRef → Bytes} {refs : List ChunkRef}
    (h : ∀ r ∈ refs, r.size ≤ (f r).length) (offset stop start : ℕ) :
    window f offset stop start refs
      = slice start offset stop (refs.flatMap fun r => (f r).take r.size) := by
  induction refs generalizing start with
  | nil => simp [window]
  | cons r rs ih =>
    have hr : ((f r).take r.size).length = r.size := by
      rw [List.length_take, Nat.min_eq_left (h r List.mem_cons_self)]
    rw [window, ih (fun x hx => h x (List.mem_cons_of_mem r hx)), List.flatMap_cons, slice_append,
      hr]

end Edfs.Chunk

namespace Edfs.ChunkStorage

/-- What a read finds for a reference: the stored bytes, or else zeros. -/
def found (s : ChunkStorage) (r : ChunkRef) : Bytes :=
  (s.entry r.hash).elim (List.replicate r.size 0) ChunkEntry.data

theorem found_of_entry {s : ChunkStorage} {r : ChunkRef} {e : ChunkEntry}
    (h : s.entry r.hash = some e) : s.found r = e.data := by
  simp [found, h]

theorem found_congr {s s' : ChunkStorage} (h : s'.entry = s.entry) : s'.found = s.found := by
  funext r
  simp [found, h]

end Edfs.ChunkStorage

namespace Edfs.FileSystem

open Chunk Slice

/-! ### Reading -/

/-- The part of one chunk that a read takes is the slice of it. -/
theorem chunk_part (offset readEnd start size : ℕ) (data : Bytes) :
    (let availableEnd := min (min (readEnd - start) size) data.length
     if offset - start < availableEnd then (data.take availableEnd).drop (offset - start) else [])
      = slice start offset readEnd (data.take size) := by
  dsimp only
  have htake : data.take (min (min (readEnd - start) size) data.length)
      = (data.take size).take (readEnd - start) := by
    rw [List.take_take, ← List.take_eq_take_min]
  rw [slice, ← htake]
  split_ifs with h
  · rfl
  · refine (List.drop_eq_nil_of_le ?_).symm
    rw [List.length_take]
    omega

/-- A read that comes to its end has collected the window of what is stored, and has changed only
the recency order. -/
theorem readLoop_eq_some [Sha256] {offset readEnd start : ℕ} {refs : List ChunkRef}
    {output result : Bytes} {s s' : ChunkStorage}
    (h : readLoop offset readEnd refs start output s = some (result, s')) :
    result = output ++ window s.found offset readEnd start refs ∧ s'.entry = s.entry ∧
      (s.Inv → s'.Inv) := by
  induction refs generalizing start output s with
  | nil =>
    cases h
    exact ⟨by simp [window], rfl, id⟩
  | cons r rs ih =>
    unfold readLoop at h
    cases hend : checkedAdd start r.size with
    | none => simp [hend] at h
    | some chunkEnd =>
      obtain ⟨-, rfl⟩ := checkedAdd_eq_some.1 hend
      have hfound : (s.get r.hash).1.getD (List.replicate r.size 0) = s.found r := by
        rw [ChunkStorage.get_fst, ChunkStorage.found]
        cases s.entry r.hash <;> rfl
      simp only [hend, hfound] at h
      split_ifs at h with hbefore hafter hpart
      · obtain ⟨hr, hs⟩ := ih h
        refine ⟨?_, hs⟩
        rw [hr, window, slice_before]
        · rfl
        · rw [List.length_take]
          omega
      · cases h
        refine ⟨?_, rfl, id⟩
        rw [window_after _ hafter]
        exact (List.append_nil _).symm
      all_goals
        obtain ⟨hr, hs, hinv⟩ := ih h
        have hget : (s.get r.hash).2.entry = s.entry := funext (ChunkStorage.entry_get s r.hash)
        refine ⟨?_, hs.trans hget, fun hi => hinv (ChunkStorage.inv_get hi r.hash)⟩
        rw [hr, window, ChunkStorage.found_congr hget,
          ← chunk_part offset readEnd start r.size (s.found r)]
        dsimp only
      · rw [if_pos hpart, List.append_assoc]
      · rw [if_neg hpart]
        rfl

/-- A read comes to its end where the running offset cannot overflow. -/
theorem readLoop_isSome {offset readEnd start : ℕ} {refs : List ChunkRef} (output : Bytes)
    (s : ChunkStorage) (h : start + totalSize refs ≤ u64Max) :
    (readLoop offset readEnd refs start output s).isSome := by
  induction refs generalizing start output s with
  | nil => rfl
  | cons r rs ih =>
    rw [totalSize_cons] at h
    unfold readLoop
    rw [checkedAdd_eq_some.2 ⟨(by omega : start + r.size ≤ u64Max), rfl⟩]
    dsimp only
    split_ifs
    · exact ih _ _ (by omega)
    · rfl
    all_goals exact ih _ _ (by omega)

section ReadFile

variable {PeerId : Type} [CrdtTree PeerId]

/-- The metadata of a node is read off its entry in the tree. -/
theorem metadata_congr {fs fs' : FileSystem PeerId} {n : NodeId}
    (h : fs'.tree.find n = fs.tree.find n) : fs'.metadata n = fs.metadata n := by
  unfold FileSystem.metadata NodeTree.isTrashed NodeTree.parentId NodeTree.metadata
  rw [h]

/-- What a read of a regular file returns, if it returns. -/
theorem readFile_eq_some [Sha256] {fs fs' : FileSystem PeerId} {n : NodeId} {name : String}
    {size offset length : ℕ} {refs : List ChunkRef} {r : Except FileSystemError Bytes}
    (hm : fs.metadata n = .ok (.regularFile name size refs))
    (h : fs.readFile n offset length = some (r, fs')) :
    r = .ok (window fs.storage.found offset (min (saturatingAdd offset length) size) 0 refs) ∧
      fs'.tree = fs.tree ∧ fs'.storage.entry = fs.storage.entry ∧
      (fs.storage.Inv → fs'.storage.Inv) := by
  unfold readFile at h
  rw [hm] at h
  dsimp only at h
  split_ifs at h with hempty
  · cases h
    refine ⟨?_, rfl, rfl, id⟩
    rw [window_empty _ hempty]
  · obtain ⟨⟨result, storage⟩, hloop, he⟩ := Option.map_eq_some_iff.1 h
    cases he
    obtain ⟨rfl, hentry, hinv⟩ := readLoop_eq_some hloop
    exact ⟨rfl, rfl, hentry, hinv⟩

theorem readFile_isSome {fs : FileSystem PeerId} {n : NodeId} {name : String} {size : ℕ}
    {refs : List ChunkRef} (hm : fs.metadata n = .ok (.regularFile name size refs))
    (htotal : totalSize refs ≤ u64Max) (offset length : ℕ) :
    (fs.readFile n offset length).isSome := by
  unfold readFile
  rw [hm]
  dsimp only
  split_ifs
  · rfl
  · rw [Option.isSome_map]
    exact readLoop_isSome _ _ (by omega)

theorem readFileAll_eq {fs : FileSystem PeerId} {n : NodeId} {name : String} {size : ℕ}
    {refs : List ChunkRef} (hm : fs.metadata n = .ok (.regularFile name size refs)) :
    fs.readFileAll n = fs.readFile n 0 size := by
  unfold readFileAll
  rw [hm]

/-- A read changes only the recency order of the store. -/
theorem readFile_state [Sha256] {fs fs' : FileSystem PeerId} {n : NodeId} {offset length : ℕ}
    {r : Except FileSystemError Bytes} (h : fs.readFile n offset length = some (r, fs')) :
    fs'.tree = fs.tree ∧ fs'.storage.entry = fs.storage.entry ∧
      (fs.storage.Inv → fs'.storage.Inv) := by
  cases hm : fs.metadata n with
  | error e =>
    rw [readFile, hm] at h
    cases h
    exact ⟨rfl, rfl, id⟩
  | ok m =>
    cases m with
    | regularFile name size refs => exact (readFile_eq_some hm h).2
    | directory name =>
      rw [readFile, hm] at h
      cases h
      exact ⟨rfl, rfl, id⟩
    | symlink name target =>
      rw [readFile, hm] at h
      cases h
      exact ⟨rfl, rfl, id⟩

theorem readFileAll_state [Sha256] {fs fs' : FileSystem PeerId} {n : NodeId}
    {r : Except FileSystemError Bytes} (h : fs.readFileAll n = some (r, fs')) :
    fs'.tree = fs.tree ∧ fs'.storage.entry = fs.storage.entry ∧
      (fs.storage.Inv → fs'.storage.Inv) := by
  unfold readFileAll at h
  cases hm : fs.metadata n with
  | error e =>
    rw [hm] at h
    cases h
    exact ⟨rfl, rfl, id⟩
  | ok m =>
    rw [hm] at h
    cases m with
    | regularFile name size refs => exact readFile_state h
    | directory name => cases h; exact ⟨rfl, rfl, id⟩
    | symlink name target => cases h; exact ⟨rfl, rfl, id⟩

end ReadFile

/-! ### Missing chunks -/

/-- `missing_chunk_hashes_for` lists the references that a request touches and the store lacks. -/
theorem missingLoop_eq_some {s : ChunkStorage} {offset readEnd start : ℕ} {refs : List ChunkRef}
    {missing : List ChunkHash} (h : missingLoop s offset readEnd refs start = some missing) :
    missing = ((overlapping offset readEnd start refs).filter
      fun r => !s.contains r.hash).map ChunkRef.hash := by
  induction refs generalizing start missing with
  | nil =>
    cases h
    rfl
  | cons r rs ih =>
    unfold missingLoop at h
    cases hend : checkedAdd start r.size with
    | none => simp [hend] at h
    | some chunkEnd =>
      obtain ⟨-, rfl⟩ := checkedAdd_eq_some.1 hend
      simp only [hend] at h
      have hhead : (if start < readEnd ∧ offset < start + r.size ∧ s.contains r.hash = false then
          [r.hash] else []) =
          ((if start < readEnd ∧ offset < start + r.size then [r] else []).filter
            fun r => !s.contains r.hash).map ChunkRef.hash := by
        by_cases ht : start < readEnd ∧ offset < start + r.size
        · cases hc : s.contains r.hash <;> simp [ht.1, ht.2, hc]
        · rw [if_neg ht, if_neg fun h => ht ⟨h.1, h.2.1⟩]
          rfl
      rw [hhead] at h
      rw [overlapping, List.filter_append, List.map_append]
      by_cases hstop : readEnd ≤ start + r.size
      · rw [if_pos hstop] at h
        rw [← Option.some.inj h, overlapping_after hstop]
        exact (List.append_nil _).symm
      · rw [if_neg hstop] at h
        obtain ⟨rest, hrest, hmissing⟩ := Option.map_eq_some_iff.1 h
        rw [← hmissing, ih hrest]

theorem missingLoop_isSome (s : ChunkStorage) (offset readEnd : ℕ) {start : ℕ}
    {refs : List ChunkRef} (h : start + totalSize refs ≤ u64Max) :
    (missingLoop s offset readEnd refs start).isSome := by
  induction refs generalizing start with
  | nil => rfl
  | cons r rs ih =>
    rw [totalSize_cons] at h
    unfold missingLoop
    rw [checkedAdd_eq_some.2 ⟨(by omega : start + r.size ≤ u64Max), rfl⟩]
    dsimp only
    by_cases hstop : readEnd ≤ start + r.size
    · rw [if_pos hstop]
      rfl
    · rw [if_neg hstop, Option.isSome_map]
      exact ih (by omega)

end Edfs.FileSystem
