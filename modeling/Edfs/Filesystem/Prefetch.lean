import Edfs.Filesystem.Reading
import Edfs.Reference

/-!
# The prefetch list and the reader

Before a read the missing chunks of its range are fetched, by `missing_chunk_hashes_for`; the read
itself takes zeros for a chunk it does not find. The two loops are written separately.

* `readLoopLogged`, the reader's loop with a record of the references it takes zeros for;
  `readLoopLogged_erase`: the record changes nothing;
* `readLoopLogged_log`: what it records;
* `missing_matches_reader`: the prefetch list is that record.
-/

namespace Edfs.FileSystem

open Chunk Slice

/-! ### The loop with a record -/

/-- The loop of `read_file`, and the hashes of the references for which it takes zeros. -/
def readLoopLogged (offset readEnd : ℕ) : List ChunkRef → ℕ → Bytes → List ChunkHash →
    ChunkStorage → Option ((Bytes × List ChunkHash) × ChunkStorage)
  | [], _, output, fallbacks, s => some ((output, fallbacks), s)
  | r :: rs, chunkStart, output, fallbacks, s =>
    match checkedAdd chunkStart r.size with
    | none => none
    | some chunkEnd =>
      if chunkEnd ≤ offset then readLoopLogged offset readEnd rs chunkEnd output fallbacks s
      else if readEnd ≤ chunkStart then some ((output, fallbacks), s)
      else
        let (found, s) := s.get r.hash
        let data := found.getD (List.replicate r.size 0)
        let fallbacks := if found.isNone then fallbacks ++ [r.hash] else fallbacks
        let startInChunk := offset - chunkStart
        let endInChunk := min (readEnd - chunkStart) r.size
        let availableEnd := min endInChunk data.length
        let output :=
          if startInChunk < availableEnd then
            output ++ (data.take availableEnd).drop startInChunk
          else output
        readLoopLogged offset readEnd rs chunkEnd output fallbacks s

/-- The record changes nothing. -/
theorem readLoopLogged_erase (offset readEnd : ℕ) (refs : List ChunkRef) (start : ℕ)
    (output : Bytes) (fallbacks : List ChunkHash) (s : ChunkStorage) :
    (readLoopLogged offset readEnd refs start output fallbacks s).map (fun x => (x.1.1, x.2))
      = readLoop offset readEnd refs start output s := by
  induction refs generalizing start output fallbacks s with
  | nil => rfl
  | cons r rs ih =>
    unfold readLoopLogged readLoop
    cases checkedAdd start r.size with
    | none => rfl
    | some chunkEnd =>
      dsimp only
      split_ifs
      · exact ih ..
      · rfl
      all_goals exact ih ..

/-- The reader takes zeros for the references that the request touches and the store lacks. -/
theorem readLoopLogged_log {offset readEnd start : ℕ} {refs : List ChunkRef} {output result : Bytes}
    {fallbacks log : List ChunkHash} {s s' : ChunkStorage}
    (h : readLoopLogged offset readEnd refs start output fallbacks s = some ((result, log), s')) :
    log = fallbacks ++ ((overlapping offset readEnd start refs).filter
      fun r => !s.contains r.hash).map ChunkRef.hash := by
  induction refs generalizing start output fallbacks s with
  | nil =>
    cases h
    simp [overlapping]
  | cons r rs ih =>
    unfold readLoopLogged at h
    cases hend : checkedAdd start r.size with
    | none => simp [hend] at h
    | some chunkEnd =>
      obtain ⟨-, rfl⟩ := checkedAdd_eq_some.1 hend
      simp only [hend] at h
      rw [overlapping, List.filter_append, List.map_append]
      by_cases hbefore : start + r.size ≤ offset
      · rw [if_pos hbefore] at h
        rw [if_neg (by omega), ih h]
        rfl
      · rw [if_neg hbefore] at h
        by_cases hafter : readEnd ≤ start
        · rw [if_pos hafter] at h
          cases h
          rw [if_neg (by omega), overlapping_after (by omega)]
          simp
        · rw [if_neg hafter] at h
          rw [if_pos (by omega)]
          have hcontains : ∀ x : ChunkRef, (s.get r.hash).2.contains x.hash = s.contains x.hash :=
            fun x => by rw [ChunkStorage.contains, ChunkStorage.entry_get, ChunkStorage.contains]
          have hnone : (s.get r.hash).1.isNone = !s.contains r.hash := by
            rw [ChunkStorage.get_fst, ChunkStorage.contains]
            cases s.entry r.hash <;> rfl
          have hlog := ih h
          simp only [hcontains, hnone] at hlog
          rw [hlog]
          cases hc : s.contains r.hash <;> simp [hc]

/-! ### The two lists -/

section

variable {PeerId : Type} [CrdtTree PeerId]

/-- `read_file`, with the same record. -/
def readFileLogged (fs : FileSystem PeerId) (nodeId : NodeId) (offset length : ℕ) :
    Option (Except FileSystemError (Bytes × List ChunkHash) × FileSystem PeerId) :=
  match fs.metadata nodeId with
  | .error e => some (.error e, fs)
  | .ok (.regularFile _ size chunkRefs) =>
    let readEnd := min (saturatingAdd offset length) size
    if readEnd ≤ offset then some (.ok ([], []), fs)
    else
      (readLoopLogged offset readEnd chunkRefs 0 [] [] fs.storage).map fun x =>
        (.ok x.1, { fs with storage := x.2 })
  | .ok _ => some (.error .isADirectory, fs)

theorem readFileLogged_erase (fs : FileSystem PeerId) (nodeId : NodeId) (offset length : ℕ) :
    (fs.readFileLogged nodeId offset length).map (fun x => (x.1.map Prod.fst, x.2))
      = fs.readFile nodeId offset length := by
  unfold readFileLogged readFile
  cases fs.metadata nodeId with
  | error e => rfl
  | ok m =>
    cases m with
    | regularFile name size refs =>
      dsimp only
      split_ifs
      · rfl
      · rw [← readLoopLogged_erase _ _ _ _ _ [], Option.map_map, Option.map_map]
        rfl
    | directory name => rfl
    | symlink name target => rfl

/-- **The prefetch list matches the reader.** For a non-empty request,
`missing_chunk_hashes_for` returns what the read takes zeros for; if that is nothing, the read
returns the slice of the contents put together, whatever contents the references have that agree
with the store. -/
theorem missing_matches_reader [Sha256] {fs : FileSystem PeerId} {n : NodeId} {name : String}
    {size : ℕ} {refs : List ChunkRef} (hm : fs.metadata n = .ok (.regularFile name size refs))
    (htotal : totalSize refs ≤ u64Max) {offset length : ℕ}
    (hlt : offset < min (saturatingAdd offset length) size) :
    ∃ output missing fs', fs.readFile n offset length = some (.ok output, fs') ∧
      fs.readFileLogged n offset length = some (.ok (output, missing), fs') ∧
      fs.missingChunkHashesFor n offset length = some (.ok missing) ∧
      ∀ content : ChunkRef → Bytes, missing = [] →
        (∀ r ∈ refs, r.size ≤ (content r).length ∧
          ∀ e, fs.storage.entry r.hash = some e → content r = e.data) →
        output = ((refs.flatMap fun r => (content r).take r.size).take
          (min (saturatingAdd offset length) size)).drop offset := by
  set readEnd := min (saturatingAdd offset length) size with hreadEnd
  obtain ⟨⟨result, fs'⟩, hread⟩ :=
    Option.isSome_iff_exists.1 (readFile_isSome hm htotal offset length)
  obtain ⟨rfl, -⟩ := readFile_eq_some hm hread
  -- the read with a record comes to the same end
  obtain ⟨⟨outcome, fs''⟩, hlogged, hsame⟩ := Option.map_eq_some_iff.1
    ((readFileLogged_erase fs n offset length).trans hread)
  obtain ⟨houtcome, rfl⟩ := Prod.mk.inj hsame
  have hloop := hlogged
  rw [readFileLogged, hm] at hloop
  dsimp only at hloop
  rw [if_neg (not_le.2 hlt)] at hloop
  obtain ⟨⟨⟨output, missing⟩, storage⟩, hrun, hfs⟩ := Option.map_eq_some_iff.1 hloop
  obtain ⟨rfl, rfl⟩ := Prod.mk.inj hfs
  obtain rfl : output = _ := Except.ok.inj houtcome
  have hmissing := readLoopLogged_log hrun
  obtain ⟨listed, hlisted⟩ := Option.isSome_iff_exists.1 (missingLoop_isSome fs.storage offset
    readEnd (by omega : 0 + totalSize refs ≤ u64Max))
  refine ⟨_, missing, _, hread, hlogged, ?_, fun content hempty hcontent => ?_⟩
  · rw [missingChunkHashesFor, hm, hmissing, List.nil_append, ← missingLoop_eq_some hlisted]
    exact congrArg (Option.map Except.ok) hlisted
  · have hstored : ∀ r ∈ overlapping offset readEnd 0 refs, fs.storage.contains r.hash := by
      intro r hr
      by_contra hnot
      have hlist : r.hash ∈ missing := by
        rw [hmissing]
        simp only [List.nil_append, List.mem_map, List.mem_filter]
        exact ⟨r, ⟨hr, by simpa using hnot⟩, rfl⟩
      rw [hempty] at hlist
      exact List.not_mem_nil hlist
    have hwindow : window fs.storage.found offset readEnd 0 refs
        = window content offset readEnd 0 refs := by
      refine window_congr fun r hr => ?_
      obtain ⟨e, he⟩ := ChunkStorage.contains_iff.1 (hstored r hr)
      rw [ChunkStorage.found_of_entry he,
        (hcontent r (overlapping_subset _ _ _ _ hr)).2 e he]
    rw [hwindow, window_eq_slice fun r hr => (hcontent r hr).1, slice_zero]

end

open Reference

/-- A node that has received a file's metadata and none of its chunks. -/
def withNoChunk : FileSystem ℕ :=
  (⟨NodeTree.new 0, ChunkStorage.new 0⟩ : FileSystem ℕ).applyOperations (fun _ => 1)
    [⟨⟨1, 1⟩, .root, .regularFile "f" 3 [⟨⟨[7]⟩, 1⟩, ⟨⟨[8, 9]⟩, 2⟩], ⟨UuidV5.newV5 Uuid.nil "f"⟩⟩]

/-- A request that begins where the second chunk does. -/
theorem missing_matches_reader_edge :
    ∃ output missing fs', withNoChunk.readFileLogged ⟨UuidV5.newV5 Uuid.nil "f"⟩ 1 2
        = some (.ok (output, missing), fs') ∧
      withNoChunk.missingChunkHashesFor ⟨UuidV5.newV5 Uuid.nil "f"⟩ 1 2 = some (.ok missing) := by
  have hm : withNoChunk.metadata ⟨UuidV5.newV5 Uuid.nil "f"⟩
      = .ok (.regularFile "f" 3 [⟨⟨[7]⟩, 1⟩, ⟨⟨[8, 9]⟩, 2⟩]) := rfl
  have hlt : 1 < min (saturatingAdd 1 2) 3 := by decide
  obtain ⟨output, missing, fs', -, hlogged, hmissing, -⟩ :=
    missing_matches_reader hm (by decide) hlt
  exact ⟨output, missing, fs', hlogged, hmissing⟩

end Edfs.FileSystem
