import Edfs.Filesystem.Mutators
import Edfs.Filesystem.Reading
import Edfs.Reference

/-!
# The readers' arithmetic

The metadata of a file may come from another node, with any `u64`s as the sizes of its references.
`read_file` and `missing_chunk_hashes_for` add them up to a running offset, subtract it from the end
of the request and slice stored chunks of any length. Here they do so with each of these operations
checked.

* `Fault`; `readFileWith`, `missingChunkHashesForWith`: the readers over an addition, which checks
  in a debug build and wraps in a release build; `readFileWith_erase`,
  `missingChunkHashesForWith_erase`: without the checks they are those of the model;
* `readLoopWith_cons`: whatever the addition does, no subtraction and no slice goes out of range;
* `readLoop_isSome_iff`, `missingLoop_isSome_iff`: when the running offset overflows;
* `received_metadata_iff`, `faultless_of_moves`.
-/

namespace Edfs

/-- What can go wrong in an operation of the readers. -/
inductive Fault
  | addOverflow
  | subUnderflow
  | sliceOutOfRange
  deriving DecidableEq

/-- `a + b` on `u64` in a debug build. -/
def addOrFault (a b : ℕ) : Except Fault ℕ :=
  if a + b ≤ u64Max then .ok (a + b) else .error .addOverflow

/-- `a + b` on `u64` in a release build. -/
def wrappingAdd (a b : ℕ) : Except Fault ℕ := .ok ((a + b) % 2 ^ 64)

/-- `a - b` on `u64`. -/
def subOrFault (a b : ℕ) : Except Fault ℕ := if b ≤ a then .ok (a - b) else .error .subUnderflow

/-- `&data[start..stop]`. -/
def sliceOrFault (data : Bytes) (start stop : ℕ) : Except Fault Bytes :=
  if start ≤ stop ∧ stop ≤ data.length then .ok ((data.take stop).drop start)
  else .error .sliceOutOfRange

theorem toOption_addOrFault (a b : ℕ) : (addOrFault a b).toOption = checkedAdd a b := by
  unfold addOrFault checkedAdd
  split_ifs <;> rfl

theorem addOrFault_error {a b : ℕ} {e : Fault} (h : addOrFault a b = .error e) :
    e = .addOverflow := by
  unfold addOrFault at h
  split_ifs at h
  cases h
  rfl

theorem subOrFault_ok {a b : ℕ} (h : b ≤ a) : subOrFault a b = .ok (a - b) := if_pos h

theorem sliceOrFault_ok {data : Bytes} {start stop : ℕ} (h : start ≤ stop)
    (hstop : stop ≤ data.length) :
    sliceOrFault data start stop = .ok ((data.take stop).drop start) :=
  if_pos ⟨h, hstop⟩

namespace FileSystem

open Chunk Slice

/-! ### The readers with checked operations -/

/-- The loop of `read_file`. -/
def readLoopWith (add : ℕ → ℕ → Except Fault ℕ) (offset readEnd : ℕ) :
    List ChunkRef → ℕ → Bytes → ChunkStorage → Except Fault (Bytes × ChunkStorage)
  | [], _, output, s => .ok (output, s)
  | r :: rs, chunkStart, output, s => do
    let chunkEnd ← add chunkStart r.size
    if chunkEnd ≤ offset then readLoopWith add offset readEnd rs chunkEnd output s
    else if readEnd ≤ chunkStart then pure (output, s)
    else
      let (found, s) := s.get r.hash
      let data := found.getD (List.replicate r.size 0)
      let startInChunk := offset - chunkStart
      let endInChunk := min (← subOrFault readEnd chunkStart) r.size
      let availableEnd := min endInChunk data.length
      let output ←
        if startInChunk < availableEnd then
          (output ++ ·) <$> sliceOrFault data startInChunk availableEnd
        else pure output
      readLoopWith add offset readEnd rs chunkEnd output s

/-- The loop of `missing_chunk_hashes_for`. -/
def missingLoopWith (add : ℕ → ℕ → Except Fault ℕ) (s : ChunkStorage) (offset readEnd : ℕ) :
    List ChunkRef → ℕ → Except Fault (List ChunkHash)
  | [], _ => .ok []
  | r :: rs, chunkStart => do
    let chunkEnd ← add chunkStart r.size
    let missing :=
      if chunkStart < readEnd ∧ offset < chunkEnd ∧ s.contains r.hash = false then [r.hash]
      else []
    if readEnd ≤ chunkEnd then pure missing
    else (missing ++ ·) <$> missingLoopWith add s offset readEnd rs chunkEnd

section

variable {PeerId : Type} [CrdtTree PeerId]

/-- `read_file`; the buffer is for `read_end - offset` bytes. -/
def readFileWith (add : ℕ → ℕ → Except Fault ℕ) (fs : FileSystem PeerId) (nodeId : NodeId)
    (offset length : ℕ) : Except Fault (Except FileSystemError Bytes × FileSystem PeerId) :=
  match fs.metadata nodeId with
  | .error e => .ok (.error e, fs)
  | .ok (.regularFile _ size chunkRefs) =>
    let readEnd := min (saturatingAdd offset length) size
    if readEnd ≤ offset then .ok (.ok [], fs)
    else do
      let _capacity ← subOrFault readEnd offset
      let (output, storage) ← readLoopWith add offset readEnd chunkRefs 0 [] fs.storage
      pure (.ok output, { fs with storage := storage })
  | .ok _ => .ok (.error .isADirectory, fs)

def missingChunkHashesForWith (add : ℕ → ℕ → Except Fault ℕ) (fs : FileSystem PeerId)
    (nodeId : NodeId) (offset length : ℕ) :
    Except Fault (Except FileSystemError (List ChunkHash)) :=
  match fs.metadata nodeId with
  | .error e => .ok (.error e)
  | .ok (.regularFile _ size chunkRefs) =>
    .ok <$> missingLoopWith add fs.storage offset (min (saturatingAdd offset length) size)
      chunkRefs 0
  | .ok _ => .ok (.error .isADirectory)

/-- Neither reader has a fault on a request. -/
def Faultless (add : ℕ → ℕ → Except Fault ℕ) (fs : FileSystem PeerId) (nodeId : NodeId)
    (offset length : ℕ) : Prop :=
  (fs.readFileWith add nodeId offset length).isOk ∧
    (fs.missingChunkHashesForWith add nodeId offset length).isOk

end

/-! ### What the checks find -/

/-- One round of the loop. The subtraction and the slice are in range, whatever the sum is: the
first comes after the test that the request goes on, and the second ends where the stored bytes
do. -/
theorem readLoopWith_cons (add : ℕ → ℕ → Except Fault ℕ) (offset readEnd start : ℕ)
    (r : ChunkRef) (rs : List ChunkRef) (output : Bytes) (s : ChunkStorage) :
    readLoopWith add offset readEnd (r :: rs) start output s =
      (add start r.size).bind fun chunkEnd =>
        if chunkEnd ≤ offset then readLoopWith add offset readEnd rs chunkEnd output s
        else if readEnd ≤ start then .ok (output, s)
        else readLoopWith add offset readEnd rs chunkEnd
          (output ++ slice start offset readEnd
            (((s.get r.hash).1.getD (List.replicate r.size 0)).take r.size)) (s.get r.hash).2 := by
  rw [readLoopWith]
  refine congrArg (Except.bind (add start r.size)) (funext fun chunkEnd => ?_)
  split_ifs with hbefore hafter
  · rfl
  · rfl
  · rw [subOrFault_ok (not_le.1 hafter).le, ← chunk_part]
    dsimp only [bind, Except.bind]
    split_ifs with hpart
    · rw [sliceOrFault_ok hpart.le (min_le_right _ _)]
      rfl
    · rw [List.append_nil]
      rfl

theorem readLoop_cons (offset readEnd start : ℕ) (r : ChunkRef) (rs : List ChunkRef)
    (output : Bytes) (s : ChunkStorage) :
    readLoop offset readEnd (r :: rs) start output s =
      (checkedAdd start r.size).bind fun chunkEnd =>
        if chunkEnd ≤ offset then readLoop offset readEnd rs chunkEnd output s
        else if readEnd ≤ start then some (output, s)
        else readLoop offset readEnd rs chunkEnd
          (output ++ slice start offset readEnd
            (((s.get r.hash).1.getD (List.replicate r.size 0)).take r.size)) (s.get r.hash).2 := by
  rw [readLoop]
  cases checkedAdd start r.size with
  | none => rfl
  | some chunkEnd =>
    rw [← chunk_part, Option.bind_some]
    dsimp only
    split_ifs with hbefore hafter hpart
    · rfl
    · rfl
    · rfl
    · rw [List.append_nil]

/-- The loop has no faults but those of its sums. -/
theorem readLoopWith_error {add : ℕ → ℕ → Except Fault ℕ} {offset readEnd start : ℕ}
    {refs : List ChunkRef} {output : Bytes} {s : ChunkStorage} {e : Fault}
    (h : readLoopWith add offset readEnd refs start output s = .error e) :
    ∃ a b, add a b = .error e := by
  induction refs generalizing start output s with
  | nil => cases h
  | cons r rs ih =>
    rw [readLoopWith_cons] at h
    cases hend : add start r.size with
    | error e' =>
      rw [hend] at h
      cases h
      exact ⟨_, _, hend⟩
    | ok chunkEnd =>
      rw [hend] at h
      dsimp only [Except.bind] at h
      split_ifs at h
      · exact ih h
      · exact ih h

theorem missingLoopWith_error {add : ℕ → ℕ → Except Fault ℕ} {s : ChunkStorage}
    {offset readEnd start : ℕ} {refs : List ChunkRef} {e : Fault}
    (h : missingLoopWith add s offset readEnd refs start = .error e) :
    ∃ a b, add a b = .error e := by
  induction refs generalizing start with
  | nil => cases h
  | cons r rs ih =>
    rw [missingLoopWith] at h
    cases hend : add start r.size with
    | error e' =>
      rw [hend] at h
      cases h
      exact ⟨_, _, hend⟩
    | ok chunkEnd =>
      rw [hend] at h
      dsimp only [bind, Except.bind] at h
      by_cases hstop : readEnd ≤ chunkEnd
      · rw [if_pos hstop] at h
        cases h
      · rw [if_neg hstop] at h
        cases hrest : missingLoopWith add s offset readEnd rs chunkEnd with
        | error e' =>
          rw [hrest] at h
          cases h
          exact ih hrest
        | ok missing =>
          rw [hrest] at h
          cases h

/-- Without the checks it is the loop of the model. -/
theorem readLoopWith_erase (offset readEnd start : ℕ) (refs : List ChunkRef) (output : Bytes)
    (s : ChunkStorage) :
    (readLoopWith addOrFault offset readEnd refs start output s).toOption =
      readLoop offset readEnd refs start output s := by
  induction refs generalizing start output s with
  | nil => rfl
  | cons r rs ih =>
    rw [readLoopWith_cons, readLoop_cons, ← toOption_addOrFault]
    cases addOrFault start r.size with
    | error e => rfl
    | ok chunkEnd =>
      dsimp only [Except.bind, Except.toOption, Option.bind_some]
      split_ifs
      · exact ih ..
      · rfl
      · exact ih ..

theorem missingLoopWith_erase (s : ChunkStorage) (offset readEnd start : ℕ)
    (refs : List ChunkRef) :
    (missingLoopWith addOrFault s offset readEnd refs start).toOption =
      missingLoop s offset readEnd refs start := by
  induction refs generalizing start with
  | nil => rfl
  | cons r rs ih =>
    rw [missingLoopWith, missingLoop, ← toOption_addOrFault]
    cases addOrFault start r.size with
    | error e => rfl
    | ok chunkEnd =>
      dsimp only [bind, Except.bind, Except.toOption]
      by_cases hstop : readEnd ≤ chunkEnd
      · rw [if_pos hstop, if_pos hstop]
        rfl
      · rw [if_neg hstop, if_neg hstop, ← ih]
        cases missingLoopWith addOrFault s offset readEnd rs chunkEnd <;> rfl

/-! ### When the running offset overflows -/

/-- With the first reference at `start`: `k` references on from one that begins before `stop`, the
running offset is still a `u64`. -/
def Fits (start stop k : ℕ) (refs : List ChunkRef) : Prop :=
  ∀ i ≤ refs.length, start + totalSize (refs.take i) < stop →
    start + totalSize (refs.take (i + k)) ≤ u64Max

instance (start stop k : ℕ) (refs : List ChunkRef) : Decidable (Fits start stop k refs) :=
  inferInstanceAs (Decidable (∀ i ≤ refs.length, _ → _))

theorem fits_cons {start stop k : ℕ} {r : ChunkRef} {rs : List ChunkRef} :
    Fits start stop k (r :: rs) ↔
      (start < stop → start + totalSize ((r :: rs).take k) ≤ u64Max) ∧
        Fits (start + r.size) stop k rs := by
  have htake : ∀ i, start + totalSize ((r :: rs).take (i + 1)) =
      start + r.size + totalSize (rs.take i) := fun i => by
    rw [List.take_succ_cons, totalSize_cons, Nat.add_assoc]
  constructor
  · intro h
    refine ⟨fun hlt => ?_, fun i hi hlt => ?_⟩
    · simpa using h 0 (Nat.zero_le _) hlt
    · have := h (i + 1) (Nat.succ_le_succ hi) (by rwa [htake])
      rwa [Nat.succ_add, htake] at this
  · rintro ⟨hfirst, hrest⟩ i hi hlt
    cases i with
    | zero => simpa using hfirst hlt
    | succ i =>
      rw [htake] at hlt
      rw [Nat.succ_add, htake]
      exact hrest i (Nat.le_of_succ_le_succ hi) hlt

theorem fits_after {start stop k : ℕ} (h : stop ≤ start) (refs : List ChunkRef) :
    Fits start stop k refs := fun _ _ hlt => absurd hlt (by omega)

/-- References that add up to a `u64` fit every request. -/
theorem fits_of_totalSize {start stop k : ℕ} {refs : List ChunkRef}
    (h : start + totalSize refs ≤ u64Max) : Fits start stop k refs := fun i _ _ => by
  have hsplit := congrArg totalSize (List.take_append_drop (i + k) refs)
  simp only [totalSize, List.map_append, List.sum_append] at h hsplit ⊢
  omega

/-- A read adds up the sizes until a reference begins behind the request, and the size of that one
too. -/
theorem readLoop_isSome_iff {offset readEnd start : ℕ} (hlt : offset < readEnd)
    {refs : List ChunkRef} (output : Bytes) (s : ChunkStorage) (hstart : start ≤ u64Max) :
    (readLoop offset readEnd refs start output s).isSome ↔
      start + totalSize (refs.take 1) ≤ u64Max ∧ Fits start readEnd 2 refs := by
  induction refs generalizing start output s with
  | nil =>
    refine iff_of_true rfl ⟨by simpa using hstart, fits_of_totalSize ?_⟩
    simpa using hstart
  | cons r rs ih =>
    have hone : totalSize ((r :: rs).take 1) = r.size := by simp
    have htwo : start + totalSize ((r :: rs).take 2) = start + r.size + totalSize (rs.take 1) := by
      rw [List.take_succ_cons, totalSize_cons, Nat.add_assoc]
    rw [readLoop_cons, fits_cons, hone, htwo]
    by_cases hend : start + r.size ≤ u64Max
    · rw [checkedAdd_eq_some.2 ⟨hend, rfl⟩, Option.bind_some, and_iff_right hend]
      by_cases hafter : readEnd ≤ start
      · -- nothing of the list is in the request
        rw [if_neg (by omega), if_pos hafter]
        exact iff_of_true rfl ⟨fun h => absurd h (by omega), fits_after (by omega) rs⟩
      · rw [if_neg hafter, imp_iff_right (not_le.1 hafter)]
        split_ifs
        · exact ih _ _ hend
        · exact ih _ _ hend
    · have hnone : checkedAdd start r.size = none := if_neg hend
      rw [hnone]
      exact iff_of_false (by simp) fun h => hend h.1

/-- `missing_chunk_hashes_for` adds up the sizes of the references that begin in the request, and
that of the first. -/
theorem missingLoop_isSome_iff (s : ChunkStorage) (offset readEnd : ℕ) {start : ℕ}
    {refs : List ChunkRef} (hstart : start ≤ u64Max) :
    (missingLoop s offset readEnd refs start).isSome ↔
      start + totalSize (refs.take 1) ≤ u64Max ∧ Fits start readEnd 1 refs := by
  induction refs generalizing start with
  | nil =>
    refine iff_of_true rfl ⟨by simpa using hstart, fits_of_totalSize ?_⟩
    simpa using hstart
  | cons r rs ih =>
    have hone : totalSize ((r :: rs).take 1) = r.size := by simp
    rw [missingLoop, fits_cons, hone]
    by_cases hend : start + r.size ≤ u64Max
    · rw [checkedAdd_eq_some.2 ⟨hend, rfl⟩, and_iff_right hend, and_iff_right fun _ => hend]
      dsimp only
      by_cases hstop : readEnd ≤ start + r.size
      · rw [if_pos hstop]
        exact iff_of_true rfl (fits_after hstop rs)
      · rw [if_neg hstop, Option.isSome_map, ih hend]
        refine ⟨And.right, fun h => ⟨?_, h⟩⟩
        simpa [Nat.add_comm] using h 0 (Nat.zero_le _) (by simpa using not_le.1 hstop)
    · have hnone : checkedAdd start r.size = none := if_neg hend
      rw [hnone]
      exact iff_of_false (by simp) fun h => hend h.1

/-! ### Requests -/

theorem isOk_iff_isSome {α : Type} (x : Except Fault α) : x.isOk ↔ x.toOption.isSome := by
  cases x <;> simp [Except.isOk, Except.toBool, Except.toOption]

section Requests

variable {PeerId : Type} [CrdtTree PeerId] {fs : FileSystem PeerId} {n : NodeId}
  {offset length : ℕ}

/-- A request is for a regular file, or both readers answer it with an error at once. -/
theorem request_cases (fs : FileSystem PeerId) (n : NodeId) (offset length : ℕ) :
    (∃ name size refs, fs.metadata n = .ok (.regularFile name size refs)) ∨
      ∃ e, fs.readFile n offset length = some (.error e, fs) ∧
        fs.missingChunkHashesFor n offset length = some (.error e) ∧
        ∀ add, fs.readFileWith add n offset length = .ok (.error e, fs) ∧
          fs.missingChunkHashesForWith add n offset length = .ok (.error e) := by
  unfold readFile missingChunkHashesFor readFileWith missingChunkHashesForWith
  cases fs.metadata n with
  | error e => exact Or.inr ⟨e, rfl, rfl, fun _ => ⟨rfl, rfl⟩⟩
  | ok m =>
    cases m with
    | regularFile name size refs => exact Or.inl ⟨name, size, refs, rfl⟩
    | directory name => exact Or.inr ⟨_, rfl, rfl, fun _ => ⟨rfl, rfl⟩⟩
    | symlink name target => exact Or.inr ⟨_, rfl, rfl, fun _ => ⟨rfl, rfl⟩⟩

/-- Without the checks it is the reader of the model. -/
theorem readFileWith_erase (fs : FileSystem PeerId) (n : NodeId) (offset length : ℕ) :
    (fs.readFileWith addOrFault n offset length).toOption = fs.readFile n offset length := by
  obtain ⟨name, size, refs, hm⟩ | ⟨e, hread, -, hwith⟩ := request_cases fs n offset length
  · rw [readFileWith, readFile, hm]
    dsimp only
    by_cases hempty : min (saturatingAdd offset length) size ≤ offset
    · rw [if_pos hempty, if_pos hempty]
      rfl
    · rw [if_neg hempty, if_neg hempty, subOrFault_ok (not_le.1 hempty).le, ← readLoopWith_erase]
      dsimp only [bind, Except.bind]
      cases readLoopWith addOrFault offset _ refs 0 [] fs.storage <;> rfl
  · rw [hread, (hwith addOrFault).1]
    rfl

theorem missingChunkHashesForWith_erase (fs : FileSystem PeerId) (n : NodeId)
    (offset length : ℕ) :
    (fs.missingChunkHashesForWith addOrFault n offset length).toOption =
      fs.missingChunkHashesFor n offset length := by
  obtain ⟨name, size, refs, hm⟩ | ⟨e, -, hmissing, hwith⟩ := request_cases fs n offset length
  · rw [missingChunkHashesForWith, missingChunkHashesFor, hm]
    dsimp only
    rw [← missingLoopWith_erase]
    cases missingLoopWith addOrFault fs.storage offset _ refs 0 <;> rfl
  · rw [hmissing, (hwith addOrFault).2]
    rfl

/-- A request has no faults but those of its sums. -/
theorem readFileWith_error {add : ℕ → ℕ → Except Fault ℕ} {e : Fault}
    (h : fs.readFileWith add n offset length = .error e) : ∃ a b, add a b = .error e := by
  obtain ⟨name, size, refs, hm⟩ | ⟨e', -, -, hwith⟩ := request_cases fs n offset length
  · rw [readFileWith, hm] at h
    dsimp only at h
    by_cases hempty : min (saturatingAdd offset length) size ≤ offset
    · rw [if_pos hempty] at h
      cases h
    · rw [if_neg hempty, subOrFault_ok (not_le.1 hempty).le] at h
      dsimp only [bind, Except.bind] at h
      cases hloop : readLoopWith add offset (min (saturatingAdd offset length) size) refs 0 []
          fs.storage with
      | error e' =>
        rw [hloop] at h
        cases h
        exact readLoopWith_error hloop
      | ok x =>
        rw [hloop] at h
        cases h
  · cases (hwith add).1.symm.trans h

theorem missingChunkHashesForWith_error {add : ℕ → ℕ → Except Fault ℕ} {e : Fault}
    (h : fs.missingChunkHashesForWith add n offset length = .error e) :
    ∃ a b, add a b = .error e := by
  obtain ⟨name, size, refs, hm⟩ | ⟨e', -, -, hwith⟩ := request_cases fs n offset length
  · rw [missingChunkHashesForWith, hm] at h
    dsimp only at h
    cases hloop : missingLoopWith add fs.storage offset (min (saturatingAdd offset length) size)
        refs 0 with
    | error e' =>
      rw [hloop] at h
      cases h
      exact missingLoopWith_error hloop
    | ok x =>
      rw [hloop] at h
      cases h
  · cases (hwith add).2.symm.trans h

/-- In a release build nothing faults. -/
theorem faultless_wrappingAdd (fs : FileSystem PeerId) (n : NodeId) (offset length : ℕ) :
    fs.Faultless wrappingAdd n offset length := by
  constructor
  · cases h : fs.readFileWith wrappingAdd n offset length with
    | ok x => rfl
    | error e =>
      obtain ⟨a, b, hadd⟩ := readFileWith_error h
      cases hadd
  · cases h : fs.missingChunkHashesForWith wrappingAdd n offset length with
    | ok x => rfl
    | error e =>
      obtain ⟨a, b, hadd⟩ := missingChunkHashesForWith_error h
      cases hadd

/-- The running offsets of both readers are `u64`s on a request that ends at `readEnd`. -/
def OffsetsFit (offset readEnd : ℕ) (refs : List ChunkRef) : Prop :=
  totalSize (refs.take 1) ≤ u64Max ∧ Fits 0 readEnd 1 refs ∧
    (offset < readEnd → Fits 0 readEnd 2 refs)

instance (offset readEnd : ℕ) (refs : List ChunkRef) : Decidable (OffsetsFit offset readEnd refs) :=
  inferInstanceAs (Decidable (_ ∧ _ ∧ (_ → _)))

theorem readFile_isSome_iff {name : String} {size : ℕ} {refs : List ChunkRef}
    (hm : fs.metadata n = .ok (.regularFile name size refs)) :
    (fs.readFile n offset length).isSome ↔ (offset < min (saturatingAdd offset length) size →
      totalSize (refs.take 1) ≤ u64Max ∧
        Fits 0 (min (saturatingAdd offset length) size) 2 refs) := by
  unfold readFile
  rw [hm]
  dsimp only
  by_cases hempty : min (saturatingAdd offset length) size ≤ offset
  · rw [if_pos hempty]
    exact iff_of_true rfl fun hlt => absurd hlt (not_lt.2 hempty)
  · rw [if_neg hempty, Option.isSome_map, readLoop_isSome_iff (not_le.1 hempty) _ _ (Nat.zero_le _),
      Nat.zero_add, imp_iff_right (not_le.1 hempty)]

theorem missingChunkHashesFor_isSome_iff {name : String} {size : ℕ} {refs : List ChunkRef}
    (hm : fs.metadata n = .ok (.regularFile name size refs)) :
    (fs.missingChunkHashesFor n offset length).isSome ↔
      totalSize (refs.take 1) ≤ u64Max ∧
        Fits 0 (min (saturatingAdd offset length) size) 1 refs := by
  unfold missingChunkHashesFor
  rw [hm]
  dsimp only
  rw [Option.isSome_map, missingLoop_isSome_iff _ _ _ (Nat.zero_le _), Nat.zero_add]

/-- In a debug build, neither reader has a fault if and only if the running offsets are `u64`s. -/
theorem faultless_iff (fs : FileSystem PeerId) (n : NodeId) (offset length : ℕ) :
    fs.Faultless addOrFault n offset length ↔ ∀ name size refs,
      fs.metadata n = .ok (.regularFile name size refs) →
      OffsetsFit offset (min (saturatingAdd offset length) size) refs := by
  rw [Faultless, isOk_iff_isSome, isOk_iff_isSome, readFileWith_erase,
    missingChunkHashesForWith_erase]
  constructor
  · rintro ⟨hread, hmissing⟩ name size refs hm
    obtain ⟨hone, hfits⟩ := (missingChunkHashesFor_isSome_iff hm).1 hmissing
    exact ⟨hone, hfits, fun hlt => ((readFile_isSome_iff hm).1 hread hlt).2⟩
  · intro h
    obtain ⟨name, size, refs, hm⟩ | ⟨e, hread, hmissing, -⟩ := request_cases fs n offset length
    · obtain ⟨hone, hmissing, hread⟩ := h name size refs hm
      exact ⟨(readFile_isSome_iff hm).2 fun hlt => ⟨hone, hread hlt⟩,
        (missingChunkHashesFor_isSome_iff hm).2 ⟨hone, hmissing⟩⟩
    · rw [hread, hmissing]
      exact ⟨rfl, rfl⟩

/-- **Received metadata and the readers' arithmetic.** After any operations, a request has no fault
in a debug build exactly if the running offsets are `u64`s, and its only fault is that they are not;
in a release build, where they wrap, no subtraction and no slice goes out of range either. -/
theorem received_metadata_iff (fs : FileSystem PeerId) (now : ℕ → ℕ)
    (ops : List (NodeOperation PeerId)) (n : NodeId) (offset length : ℕ) :
    ((fs.applyOperations now ops).Faultless addOrFault n offset length ↔ ∀ name size refs,
        (fs.applyOperations now ops).metadata n = .ok (.regularFile name size refs) →
        OffsetsFit offset (min (saturatingAdd offset length) size) refs) ∧
      (∀ e, (fs.applyOperations now ops).readFileWith addOrFault n offset length = .error e →
        e = .addOverflow) ∧
      (∀ e, (fs.applyOperations now ops).missingChunkHashesForWith addOrFault n offset length =
        .error e → e = .addOverflow) ∧
      (fs.applyOperations now ops).Faultless wrappingAdd n offset length := by
  refine ⟨faultless_iff _ n offset length, fun e he => ?_, fun e he => ?_,
    faultless_wrappingAdd _ n offset length⟩
  · obtain ⟨a, b, hadd⟩ := readFileWith_error he
    exact addOrFault_error hadd
  · obtain ⟨a, b, hadd⟩ := missingChunkHashesForWith_error he
    exact addOrFault_error hadd

/-- Where the sizes in all operations add up to `u64`s, no request has a fault. -/
theorem faultless_of_moves [LinearOrder PeerId] [LawfulCrdtTree PeerId] (hsound : fs.tree.Sound)
    {ops : List (NodeOperation PeerId)} (hops : ∀ op, op ∈ ops ∨ op ∈ fs.tree.moves →
      ∀ name size refs, op.metadata = .regularFile name size refs → totalSize refs ≤ u64Max)
    (now : ℕ → ℕ) (n : NodeId) (offset length : ℕ) :
    (fs.applyOperations now ops).Faultless addOrFault n offset length := by
  refine (faultless_iff _ n offset length).2 fun name size refs hm => ?_
  have hroot : n ≠ NodeId.root := by
    rintro rfl
    cases hm
  obtain ⟨x, hx, hmeta⟩ := Option.map_eq_some_iff.1 (treeMetadata_of_metadata hm hroot)
  obtain ⟨op, hop, -, rfl⟩ := (hsound.applyOperations now ops).exists_move hx
  have htotal : 0 + totalSize refs ≤ u64Max := by
    simpa using hops op (NodeTree.mem_moves_applyOperations hop) name size refs hmeta
  refine ⟨?_, fits_of_totalSize htotal, fun _ => fits_of_totalSize htotal⟩
  have hsplit := congrArg totalSize (List.take_append_drop 1 refs)
  simp only [totalSize, List.map_append, List.sum_append] at htotal hsplit ⊢
  omega

end Requests

open Reference

/-- A node that has received a file whose second reference counts `u64::MAX` bytes. -/
def withOverlong : FileSystem ℕ :=
  (⟨NodeTree.new 0, ChunkStorage.new 0⟩ : FileSystem ℕ).applyOperations (fun _ => 1)
    [⟨⟨1, 1⟩, .root, .regularFile "f" 2 [⟨⟨[7]⟩, 1⟩, ⟨⟨[8]⟩, u64Max⟩], ⟨5⟩⟩]

/-- Reading the two bytes that its size promises overflows, in both readers. -/
theorem received_metadata_overflows :
    withOverlong.readFileWith addOrFault ⟨5⟩ 0 2 = .error .addOverflow ∧
      withOverlong.missingChunkHashesForWith addOrFault ⟨5⟩ 0 2 = .error .addOverflow ∧
      ¬ withOverlong.Faultless addOrFault ⟨5⟩ 0 2 := by
  have hread : withOverlong.readFileWith addOrFault ⟨5⟩ 0 2 = .error .addOverflow := rfl
  refine ⟨hread, rfl, fun h => ?_⟩
  have hok := h.1
  rw [hread] at hok
  cases hok

end FileSystem

end Edfs
