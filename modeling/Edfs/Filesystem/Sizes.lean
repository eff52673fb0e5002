import Edfs.Base.Overlay
import Edfs.Filesystem.RoundTrip

/-!
# The size of a file and what can be read

A file's metadata have its size and its chunk references next to each other. `write_file` sets both
from the data; `truncate_file` sets the size to any number and can only shorten the references, so
after it has let the file grow they count fewer bytes than the size does.

* `FileHistory`, what a file should read as after its calls: cut, or extended with zeros; `Sized`,
  what its metadata have of that, kept by every call (`sized_step`);
* `Backed`: references that hold given bytes, in whatever store has their chunks;
* `read_count_iff`: a read returns as many bytes as the size says exactly when it does not go past
  the smallest size that the file has had since its content was last written.
-/

namespace Edfs

namespace FileSystem

open Chunk Execution Overlay Slice

/-- What the calls on a file make of it: its bytes, and the smallest size they have had since they
were written. -/
structure FileHistory where
  content : Bytes
  smallest : ℕ
  deriving DecidableEq

/-! ### References and the bytes they stand for -/

/-- Some well-formed store holds the bytes in the references. -/
def Backed [Sha256] (refs : List ChunkRef) (u : Bytes) : Prop :=
  ∃ s : ChunkStorage, s.Inv ∧ Holds s refs u

theorem Backed.truncate [Sha256] {refs : List ChunkRef} {u : Bytes} (h : Backed refs u) (k : ℕ) :
    Backed (Chunk.truncate refs k) (u.take k) := by
  obtain ⟨s, hs, hholds⟩ := h
  exact ⟨s, hs, holds_truncate hholds k⟩

theorem Backed.totalSize [Sha256] {refs : List ChunkRef} {u : Bytes} (h : Backed refs u) :
    Chunk.totalSize refs = u.length := by
  obtain ⟨s, -, hholds⟩ := h
  exact hholds.totalSize

/-- Every store that has the chunks holds the same bytes. -/
theorem Backed.holds [Sha256] [LawfulSha256] {refs : List ChunkRef} {u : Bytes}
    (h : Backed refs u) {s : ChunkStorage} (hs : s.Inv)
    (hstored : ∀ r ∈ refs, s.contains r.hash) : Holds s refs u := by
  obtain ⟨s₀, hs₀, hholds⟩ := h
  have hentry : ∀ r ∈ refs, ∃ e e₀, s.entry r.hash = some e ∧ s₀.entry r.hash = some e₀ ∧
      e.data = e₀.data ∧ r.size ≤ e₀.data.length := by
    intro r hr
    obtain ⟨e₀, he₀, hle⟩ := hholds.stored r hr
    obtain ⟨e, he⟩ := ChunkStorage.contains_iff.1 (hstored r hr)
    refine ⟨e, e₀, he, he₀, ChunkHash.of_injective ?_, hle⟩
    rw [← hs.keyed _ _ he, ← hs₀.keyed _ _ he₀]
  refine ⟨fun r hr => ?_, ?_⟩
  · obtain ⟨e, e₀, he, -, hdata, hle⟩ := hentry r hr
    exact ⟨e, he, by rwa [hdata]⟩
  · rw [← hholds.content]
    refine List.flatMap_congr fun r hr => ?_
    obtain ⟨e, e₀, he, he₀, hdata, -⟩ := hentry r hr
    rw [ChunkStorage.found_of_entry he, ChunkStorage.found_of_entry he₀, hdata]

/-! ### The history of a file -/

variable {PeerId : Type} [CrdtTree PeerId]

/-- The size and the references of a regular file. -/
def fileParts (fs : FileSystem PeerId) (n : NodeId) : Option (ℕ × List ChunkRef) :=
  match fs.metadata n with
  | .ok (.regularFile _ size refs) => some (size, refs)
  | _ => none

theorem fileParts_eq_some {fs : FileSystem PeerId} {n : NodeId} {size : ℕ}
    {refs : List ChunkRef} :
    fs.fileParts n = some (size, refs) ↔
      ∃ name, fs.metadata n = .ok (.regularFile name size refs) := by
  unfold fileParts
  cases hm : fs.metadata n with
  | error e => simp
  | ok m => cases m <;> simp

section History

variable [UuidV5] [Sha256] [FastCdc]

/-- A call's part in the history: a write that succeeds sets the bytes, a truncation cuts them or
extends them with zeros. -/
def FileHistory.after (h : FileHistory) (n : NodeId) (e : Event PeerId)
    (fs : FileSystem PeerId) : FileHistory :=
  match e.2 with
  | .mutate (.writeFile m data) =>
    if m = n ∧ (fs.writeFile (e.1 0) m data).1.isOk then ⟨data, data.length⟩ else h
  | .mutate (.truncateFile m k) =>
    if m = n then ⟨resize 0 h.content k, min h.smallest k⟩ else h
  | _ => h

/-- A step, with the history of the file. -/
def historyStep (n : NodeId) (e : Event PeerId) (s : FileSystem PeerId × FileHistory) :
    Option (FileSystem PeerId × FileHistory) :=
  (callStep e s.1).map fun fs => (fs, s.2.after n e s.1)

omit [UuidV5] in
/-- The call does not write or truncate the file. -/
theorem FileHistory.after_other {n : NodeId} {e : Event PeerId} (fs : FileSystem PeerId)
    (h : FileHistory) (hwrite : ∀ data, e.2 ≠ .mutate (.writeFile n data))
    (htruncate : ∀ k, e.2 ≠ .mutate (.truncateFile n k)) : h.after n e fs = h := by
  obtain ⟨now, call⟩ := e
  cases call with
  | mutate c =>
    cases c with
    | writeFile m data =>
      have hm : m ≠ n := fun heq => hwrite data (by rw [heq])
      simp [FileHistory.after, hm]
    | truncateFile m k =>
      have hm : m ≠ n := fun heq => htruncate k (by rw [heq])
      simp [FileHistory.after, hm]
    | _ => rfl
  | _ => rfl

variable [LinearOrder PeerId]

/-- A write or a truncation of the file, with a timestamp newer than the log and a size that a `u64`
counts; or any other call that leaves the file's size and references. -/
inductive OnFile (n : NodeId) (e : Event PeerId) (s : FileSystem PeerId × FileHistory) : Prop
  | write {data : Bytes} (he : e.2 = .mutate (.writeFile n data))
      (hnow : s.1.tree.Newest (e.1 0)) (hsize : data.length ≤ u64Max)
  | truncate {k : ℕ} (he : e.2 = .mutate (.truncateFile n k))
      (hnow : s.1.tree.Newest (e.1 0)) (hsize : k ≤ u64Max)
  | other (hwrite : ∀ data, e.2 ≠ .mutate (.writeFile n data))
      (htruncate : ∀ k, e.2 ≠ .mutate (.truncateFile n k))
      (hkeeps : ∀ fs, callStep e s.1 = some fs → fs.fileParts n = s.1.fileParts n)

end History

variable [Sha256]

/-- The metadata of a file with a history: the size is that of the bytes, and the references hold
what has stayed of the last write, which zeros follow. -/
def Sized (fs : FileSystem PeerId) (n : NodeId) (h : FileHistory) : Prop :=
  ∃ refs u, fs.fileParts n = some (h.content.length, refs) ∧ Backed refs u ∧
    u.length = h.smallest ∧ h.smallest ≤ h.content.length ∧
    h.content = resize 0 u h.content.length ∧ h.content.length ≤ u64Max

/-- A file whose references hold what there is of its bytes. -/
theorem sized_of_backed {fs : FileSystem PeerId} {n : NodeId} {size : ℕ}
    {refs : List ChunkRef} {u : Bytes} (hparts : fs.fileParts n = some (size, refs))
    (hu : Backed refs u) (hle : u.length ≤ size) (hsize : size ≤ u64Max) :
    fs.Sized n ⟨resize 0 u size, u.length⟩ := by
  refine ⟨refs, u, ?_, hu, rfl, ?_, ?_, ?_⟩
  · rw [length_resize, hparts]
  · exact hle.trans_eq length_resize.symm
  · rw [length_resize]
  · exact length_resize.trans_le hsize

/-- Reading a file of which all chunks are stored: what there is of the last write. -/
theorem Backed.read [LawfulSha256] {fs : FileSystem PeerId} (hs : fs.storage.Inv) {n : NodeId}
    {size : ℕ} {refs : List ChunkRef} {u : Bytes} (hparts : fs.fileParts n = some (size, refs))
    (hu : Backed refs u) (hle : u.length ≤ size) (hsize : size ≤ u64Max)
    (hstored : ∀ r ∈ refs, fs.storage.contains r.hash) (offset length : ℕ) :
    ∃ fs', fs.readFile n offset length
      = some (.ok ((u.take (min (offset + length) size)).drop offset), fs') := by
  obtain ⟨name, hm⟩ := fileParts_eq_some.1 hparts
  have hholds := hu.holds hs hstored
  obtain ⟨⟨r, fs'⟩, hr⟩ := Option.isSome_iff_exists.1
    (readFile_isSome hm (hu.totalSize.trans_le (hle.trans hsize)) offset length)
  obtain ⟨rfl, -⟩ := readFile_eq_some hm hr
  have hmin : min (saturatingAdd offset length) size = min (offset + length) size := by
    unfold saturatingAdd
    omega
  refine ⟨fs', ?_⟩
  rw [hr, window_eq_slice (fun r hr => hholds.size_le hr), hholds.content, hmin, slice_zero]

omit [Sha256] in
/-- The bytes found are as many as asked for exactly when they do not end too early, and then they
are what the file should read as. -/
theorem slice_resize {u : Bytes} {size stop : ℕ} (hstop : stop ≤ size) (offset : ℕ) :
    (((u.take stop).drop offset).length = stop - offset ↔ stop ≤ max offset u.length) ∧
      ((u.take stop).drop offset = ((resize 0 u size).take stop).drop offset ↔
        stop ≤ max offset u.length) := by
  have hlen : ((u.take stop).drop offset).length = min stop u.length - offset := by
    rw [List.length_drop, List.length_take]
  constructor
  · rw [hlen]
    omega
  · constructor
    · intro heq
      have hcount := congrArg List.length heq
      rw [hlen, List.length_drop, List.length_take, length_resize] at hcount
      omega
    · intro hle
      by_cases hu : stop ≤ u.length
      · rw [take_resize hu hstop]
      · -- the read is empty
        rw [List.drop_eq_nil_of_le, List.drop_eq_nil_of_le]
        · rw [List.length_take]
          omega
        · rw [List.length_take]
          omega

/-! ### What each call keeps -/

variable [LinearOrder PeerId] [LawfulCrdtTree PeerId]

theorem sized_truncate {fs : FileSystem PeerId} (hinv : fs.Inv) {n : NodeId} {h : FileHistory}
    (hs : fs.Sized n h) {now : ℕ} (hnow : fs.tree.Newest now) {k : ℕ} (hk : k ≤ u64Max) :
    (fs.truncateFile now n k).2.Sized n ⟨resize 0 h.content k, min h.smallest k⟩ := by
  obtain ⟨refs, u, hparts, hu, hlen, hle, hcontent, -⟩ := hs
  obtain ⟨name, hm⟩ := fileParts_eq_some.1 hparts
  obtain ⟨-, parent, hp⟩ := exists_parent_of_file hm
  rw [truncateFile_eq hm hp now k rfl]
  have hm' : FileSystem.metadata { fs with tree := (fs.tree.issue now n parent
      (.regularFile name k (Chunk.truncate refs k))).2 } n
      = .ok (.regularFile name k (Chunk.truncate refs k)) :=
    metadata_replace hinv.sound hnow hm hp _ rfl
  have hcut := sized_of_backed (fileParts_eq_some.2 ⟨name, hm'⟩) (hu.truncate k)
    (List.length_take_le k u) hk
  rw [resize_take, List.length_take, hlen, Nat.min_comm] at hcut
  rwa [hcontent, resize_resize (hlen.trans_le hle)]

variable [UuidV5] [FastCdc] [LawfulSha256] [LawfulFastCdc]

theorem sized_write {fs : FileSystem PeerId} (hinv : fs.Inv) {n : NodeId} {h : FileHistory}
    (hs : fs.Sized n h) {now : ℕ → ℕ} (hnow : fs.tree.Newest (now 0)) {data : Bytes}
    (hsize : data.length ≤ u64Max) :
    (fs.writeFile (now 0) n data).2.Sized n
      (h.after n (now, .mutate (.writeFile n data)) fs) := by
  unfold FileHistory.after
  dsimp only
  rcases hw : fs.writeFile (now 0) n data with ⟨e | r, fs'⟩
  · rcases writeFile_cases fs (now 0) n data with ⟨e', he⟩ | ⟨name, size, refs, p, -, -, -, hok⟩
    · cases he.symm.trans hw
      simpa [Except.isOk, Except.toBool] using hs
    · cases (hok _ rfl).symm.trans hw
  · obtain ⟨name, refs, hm, hholds, -⟩ := hasContent_write hinv hnow hw
    have hinv' := inv_mutate hinv (now 0) (.writeFile n data)
    simp only [mutate, Mutation.operations, hw] at hinv'
    have hwritten := sized_of_backed (fileParts_eq_some.2 ⟨name, hm⟩)
      ⟨fs'.storage, hinv'.storage, hholds⟩ le_rfl hsize
    rw [resize_length] at hwritten
    simpa [Except.isOk, Except.toBool] using hwritten

/-- **Every call keeps a file's metadata in step with its history.** -/
theorem sized_step {n : NodeId} {e : Event PeerId} {s s' : FileSystem PeerId × FileHistory}
    (hinv : s.1.Inv) (hs : s.1.Sized n s.2) (he : OnFile n e s)
    (hstep : historyStep n e s = some s') : s'.1.Inv ∧ s'.1.Sized n s'.2 := by
  obtain ⟨fs', hfs', rfl⟩ := Option.map_eq_some_iff.1 hstep
  refine ⟨inv_step hinv hfs', ?_⟩
  obtain ⟨now, call⟩ := e
  cases he with
  | write he hnow hsize =>
    obtain rfl : call = _ := he
    cases hfs'
    exact sized_write hinv hs hnow hsize
  | @truncate k he hnow hsize =>
    obtain rfl : call = _ := he
    cases hfs'
    rw [show s.2.after n (now, .mutate (.truncateFile n k)) s.1
      = ⟨resize 0 s.2.content k, min s.2.smallest k⟩ from if_pos rfl]
    exact sized_truncate hinv hs hnow hsize
  | other hwrite htruncate hkeeps =>
    dsimp only
    rw [FileHistory.after_other _ _ hwrite htruncate]
    unfold Sized
    rw [hkeeps fs' hfs']
    exact hs

/-- **How much of a file can be read**, for every regular file with references that hold what there
is of its bytes, and after any writes and truncations of it, with any other calls that leave it
alone in between: the size in the metadata is that of the bytes the calls have made of the file;
and when all its chunks are stored, a read returns as many bytes as the size says, and these very
bytes, exactly when it ends by the smallest size since the content was written, or is empty. -/
theorem read_count_iff {fs₀ fs : FileSystem PeerId} (hreach : fs₀.Reachable) {n : NodeId}
    {size : ℕ} {refs₀ : List ChunkRef} (hfile : fs₀.fileParts n = some (size, refs₀)) {u : Bytes}
    (hu : Backed refs₀ u) (hle : u.length ≤ size) (hsize : size ≤ u64Max)
    {events : List (Event PeerId)} {h : FileHistory}
    (hrun : run (historyStep n) events (fs₀, ⟨resize 0 u size, u.length⟩) = some (fs, h))
    (hmeets : Meets (historyStep n) (OnFile n) events (fs₀, ⟨resize 0 u size, u.length⟩)) :
    ∃ refs, fs.fileParts n = some (h.content.length, refs) ∧
      ((∀ r ∈ refs, fs.storage.contains r.hash) → ∀ offset length,
        let stop := min (offset + length) h.content.length
        ∃ b fs', fs.readFile n offset length = some (.ok b, fs') ∧
          (b.length = stop - offset ↔ stop ≤ max offset h.smallest) ∧
          (b = (h.content.take stop).drop offset ↔ stop ≤ max offset h.smallest)) := by
  obtain ⟨hinv, refs, v, hparts, hv, hlen, hsmall, hcontent, hmax⟩ :
      fs.Inv ∧ fs.Sized n h := by
    refine run_invariant_of_meets (I := fun s : FileSystem PeerId × FileHistory =>
      s.1.Inv ∧ s.1.Sized n s.2) ?_ ?_ hmeets hrun
    · intro e s s' he hs hstep
      exact sized_step hs.1 hs.2 he hstep
    · exact ⟨hreach.inv, sized_of_backed hfile hu hle hsize⟩
  refine ⟨refs, hparts, fun hstored offset length => ?_⟩
  obtain ⟨fs', hread⟩ := hv.read hinv.storage hparts (hlen.trans_le hsmall) hmax hstored offset
    length
  refine ⟨_, fs', hread, ?_⟩
  rw [← hlen]
  have hslice := slice_resize (u := v) (min_le_right (offset + length) h.content.length) offset
  rwa [← hcontent] at hslice

end FileSystem

end Edfs

namespace Edfs.FileSystem

open Execution Overlay Reference

/-- The file "f" is written, cut to one byte, and extended to three. -/
def cutAndGrown : List (Event ℕ) :=
  [(fun _ => 2, .mutate (.writeFile fileId [7, 8])),
    (fun _ => 3, .mutate (.truncateFile fileId 1)),
    (fun _ => 4, .mutate (.truncateFile fileId 3))]

/-- A new file. -/
def newFile : FileHistory := ⟨resize 0 [] 0, 0⟩

theorem cutAndGrown_onFile :
    Meets (historyStep fileId) (OnFile fileId) cutAndGrown (withFile, newFile) := by
  refine ⟨.write rfl (by decide) (by decide), fun s₁ h₁ =>
    ⟨.truncate rfl ?_ (by decide), fun s₂ h₂ => ⟨.truncate rfl ?_ (by decide), fun _ _ => trivial⟩⟩⟩
  · cases h₁
    decide
  · cases h₁
    cases h₂
    decide

/-- Of its three bytes, the first can be read. -/
theorem read_count_iff_cutAndGrown :
    ∃ fs h b fs', run (historyStep fileId) cutAndGrown (withFile, newFile) = some (fs, h) ∧
      h = ⟨[7, 0, 0], 1⟩ ∧ fs.readFile fileId 0 1 = some (.ok b, fs') ∧ b = [7] := by
  have hrun : run (historyStep fileId) cutAndGrown (withFile, newFile) = some (_, _) := rfl
  have hbacked : Backed [] [] := ⟨ChunkStorage.new 0, ChunkStorage.inv_new 0, holds_nil _⟩
  have hfile : withFile.fileParts fileId = some (0, []) := rfl
  obtain ⟨refs, hparts, hread⟩ := read_count_iff withFile_reachable hfile hbacked le_rfl (by decide)
    hrun cutAndGrown_onFile
  cases hparts
  obtain ⟨b, fs', hb, -, hslice⟩ := hread (by decide) 0 1
  exact ⟨_, _, b, fs', hrun, rfl, hb, hslice.2 (by decide)⟩

/-- A read of all three returns one. -/
theorem read_falls_short :
    ∃ fs h b fs', run (historyStep fileId) cutAndGrown (withFile, newFile) = some (fs, h) ∧
      Meets (historyStep fileId) (OnFile fileId) cutAndGrown (withFile, newFile) ∧
      (∃ name refs, fs.metadata fileId = .ok (.regularFile name 3 refs) ∧
        ∀ r ∈ refs, fs.storage.contains r.hash) ∧
      fs.readFile fileId 0 3 = some (.ok b, fs') ∧ b.length ≠ min (0 + 3) 3 - 0 :=
  ⟨_, _, _, _, rfl, cutAndGrown_onFile, ⟨_, _, rfl, by decide⟩, rfl, by decide⟩

end Edfs.FileSystem
