import Edfs.Filesystem.RoundTrip
import Edfs.Fuse.FuseFileSystem
import Edfs.Reference

/-!
# One handle as a byte array

The requests on one handle and its inode, run one after another, against a byte array on which a
write overlays its data and a new size cuts or extends it with zeros. The handlers keep a file's
content in up to three places: the tree, the handle's buffer, and the size in the handle's copy of
the metadata; `setattr` changes only the first.

* `HandleRequest`, `handle`, and `reference`, what a request does to the array;
* `Opened`, a fresh handle with the array it stands for; `Right`, all it would answer is the
  array's;
* `SessionInv`, `handle_spec`: the invariant, and one request under it;
* `byte_array_iff`.
-/

namespace Edfs.FileSystem

open Chunk

variable {PeerId : Type} [CrdtTree PeerId]

/-- The file's size and its reads are those of the bytes. -/
structure Contains (fs : FileSystem PeerId) (n : NodeId) (a : Bytes) : Prop where
  size : ∃ name refs, fs.metadata n = .ok (.regularFile name a.length refs)
  read : ∀ offset length, ∃ fs', fs.readFile n offset length
    = some (.ok ((a.take (offset + length)).drop offset), fs')

/-- The same tree and the same entries, in a store that is as good. -/
structure Untouched [Sha256] (fs fs' : FileSystem PeerId) : Prop where
  tree : fs'.tree = fs.tree
  entry : fs'.storage.entry = fs.storage.entry
  storage : fs.storage.Inv → fs'.storage.Inv

/-- A cut of a file to the size it has leaves its bytes readable. -/
theorem Readable.truncate [LinearOrder PeerId] [LawfulCrdtTree PeerId] {fs : FileSystem PeerId}
    {n : NodeId} {a : Bytes} (h : fs.Readable n a) (hsound : fs.tree.Sound) {now : ℕ}
    (hnow : fs.tree.Newest now) : (fs.truncateFile now n a.length).2.Readable n a := by
  obtain ⟨name, refs, u, hm, hholds, hlen⟩ := h
  obtain ⟨-, parent, hp⟩ := exists_parent_of_file hm
  have hcut := holds_truncate hholds a.length
  rw [List.take_left] at hcut
  rw [truncateFile_eq hm hp now a.length rfl]
  refine ⟨name, Chunk.truncate refs a.length, [], ?_, ?_, ?_⟩
  · exact metadata_replace hsound hnow hm hp _ rfl
  · rw [List.append_nil]
    exact hcut
  · rw [List.append_nil]
    exact (List.length_append.symm.trans_le hlen).trans' (Nat.le_add_right _ _)

variable [Sha256]

theorem Readable.untouched {fs fs' : FileSystem PeerId} {n : NodeId} {a : Bytes}
    (h : fs.Readable n a) (hu : Untouched fs fs') : fs'.Readable n a := by
  obtain ⟨name, refs, u, hm, hholds, hlen⟩ := h
  refine ⟨name, refs, u, (metadata_congr (by rw [hu.tree])).trans hm, ?_, hlen⟩
  exact hholds.frame fun r _ => by rw [hu.entry]

theorem Readable.contains {fs : FileSystem PeerId} {n : NodeId} {a : Bytes}
    (h : fs.Readable n a) : fs.Contains n a := by
  refine ⟨?_, fun offset length => ?_⟩
  · obtain ⟨name, refs, -, hm, -⟩ := h
    exact ⟨name, refs, hm⟩
  · rw [List.take_eq_take_min]
    exact h.read offset length

/-- A fetch for a file whose chunks are stored asks for nothing. -/
theorem Readable.fetchMissingChunks {fs : FileSystem PeerId} {n : NodeId} {a : Bytes}
    (h : fs.Readable n a) (fetch : ChunkHash → Option Bytes) (offset length : ℕ) :
    fetchMissingChunks fetch fs n offset length = some (.ok true, fs) := by
  obtain ⟨name, refs, u, hm, hholds, hlen⟩ := h
  obtain ⟨missing, hloop⟩ := Option.isSome_iff_exists.1
    (missingLoop_isSome fs.storage offset (min (saturatingAdd offset length) a.length)
      (by rw [hholds.totalSize]; omega : 0 + totalSize refs ≤ u64Max))
  have hnone : missing = [] := by
    rw [missingLoop_eq_some hloop, List.map_eq_nil_iff, List.filter_eq_nil_iff]
    intro r hr
    obtain ⟨e, he, -⟩ := hholds.stored r (overlapping_subset _ _ _ _ hr)
    simp [ChunkStorage.contains_iff.2 ⟨e, he⟩]
  unfold FileSystem.fetchMissingChunks missingChunkHashesFor
  simp only [hm, hloop, hnone, Option.map_some, List.map_nil, List.all_nil, List.foldl_nil]

end Edfs.FileSystem

namespace Edfs.FuseFileSystem

open Execution Overlay FileSystem

/-! ### Requests -/

/-- A request on a handle; `fetch` are the gateway's answers, should it be asked. -/
inductive HandleRequest
  | write (fetch : ChunkHash → Option Bytes) (offset : ℕ) (data : Bytes)
  | setattr (now newSize : ℕ)
  | read (fetch : ChunkHash → Option Bytes) (offset size : ℕ)
  | getattr

inductive HandleReply
  | written (r : Except Errno ℕ)
  | attr (r : Except Errno FileAttr)
  | data (r : Except Errno Bytes)
  deriving DecidableEq

/-- The attributes of a file of a given size. -/
def fileAttr (ino : INodeNo) (size : ℕ) : FileAttr := toAttr (.regularFile "" size []) ino

/-- What a request replies on a byte array, and the array after it. A write whose end is no `u64`
is too big, and one without data does nothing. -/
def reference (ino : INodeNo) : HandleRequest → Bytes → HandleReply × Bytes
  | .write _ offset data, a =>
    if data = [] then (.written (.ok 0), a)
    else if offset + data.length ≤ u64Max then
      (.written (.ok (data.length % 2 ^ 32)), overlay 0 a offset data)
    else (.written (.error .efbig), a)
  | .setattr _ newSize, a => (.attr (.ok (fileAttr ino newSize)), resize 0 a newSize)
  | .read _ offset size, a => (.data (.ok ((a.take (offset + size)).drop offset)), a)
  | .getattr, a => (.attr (.ok (fileAttr ino a.length)), a)

variable {PeerId : Type} [CrdtTree PeerId]

/-- A handle's file system, and the byte array the handle stands for. -/
structure Session (PeerId : Type) [CrdtTree PeerId] where
  fuse : FuseFileSystem PeerId
  array : Bytes

section Handlers

variable [Sha256]

/-- The handler of a request. -/
def handle (s : FuseFileSystem PeerId) (ino : INodeNo) (fh : FileHandle) :
    HandleRequest → Option (HandleReply × FuseFileSystem PeerId)
  | .write fetch offset data =>
    (s.write fetch ino fh offset data).map fun (r, s) => (.written r, s)
  | .setattr now newSize =>
    let (r, s) := s.setattr now ino { newSize := some newSize }
    some (.attr r, s)
  | .read fetch offset size =>
    (s.read fetch ino fh offset size).map fun (r, s) => (.data r, s)
  | .getattr => some (.attr (s.getattr ino (some fh)), s)

/-- One request, on the handle and on the array. -/
def sessionStep (ino : INodeNo) (fh : FileHandle) (r : HandleRequest) (w : Session PeerId) :
    Option (Session PeerId) :=
  (w.fuse.handle ino fh r).map fun p => ⟨p.2, (reference ino r w.array).2⟩

/-- The handle replies what the array does. -/
def Answered (ino : INodeNo) (fh : FileHandle) (r : HandleRequest) (w : Session PeerId) : Prop :=
  (w.fuse.handle ino fh r).map Prod.fst = some (reference ino r w.array).1

instance (ino : INodeNo) (fh : FileHandle) (r : HandleRequest) (w : Session PeerId) :
    Decidable (Answered ino fh r w) := inferInstanceAs (Decidable (_ = _))

/-- A request that issues a timestamp issues one newer than the log. -/
def Timely [LinearOrder PeerId] : HandleRequest → Session PeerId → Prop
  | .setattr now _, w => w.fuse.filesystem.tree.Newest now
  | _, _ => True

instance [LinearOrder PeerId] (r : HandleRequest) (w : Session PeerId) : Decidable (Timely r w) :=
  match r with
  | .setattr now _ => inferInstanceAs (Decidable (w.fuse.filesystem.tree.Newest now))
  | .write .. => isTrue trivial
  | .read .. => isTrue trivial
  | .getattr => isTrue trivial

/-- A `setattr` sets the size the array already has. -/
def KeepsSize : HandleRequest → Session PeerId → Prop
  | .setattr _ newSize, w => newSize = w.array.length
  | _, _ => True

end Handlers

section Opened

variable [LinearOrder PeerId] [UuidV5] [Sha256] [FastCdc]

/-- A fresh handle, with its node and the array it stands for: of a file that has been created, in
a directory other than the trash and not at or below the node that has the file's id; or of a file
whose chunks are all in storage. -/
inductive Opened : INodeNo → FileHandle → NodeId → Session PeerId → Prop
  | create {s s' : FuseFileSystem PeerId} {now : ℕ} {parentIno : INodeNo} {parent : NodeId}
      {name : String} {attr : FileAttr} {fh : FileHandle} (hs : s.filesystem.Reachable)
      (hnow : s.filesystem.tree.Newest now) (hino : s.inodeMap.getNodeId parentIno = some parent)
      (htrash : parent ≠ NodeId.trash) (hne : (⟨UuidV5.newV5 parent.uuid name⟩ : NodeId) ≠ parent)
      (habove : ¬ MoveTree.Tree.Ancestor s.filesystem.tree.find parent
        ⟨UuidV5.newV5 parent.uuid name⟩)
      (h : s.create now parentIno name = (.ok (attr, fh), s')) :
      Opened attr.ino fh ⟨UuidV5.newV5 parent.uuid name⟩ ⟨s', []⟩
  | «open» {s s' : FuseFileSystem PeerId} {ino : INodeNo} {fh : FileHandle} {n : NodeId}
      {a : Bytes} (hs : s.filesystem.Reachable) (hino : s.inodeMap.getNodeId ino = some n)
      (ha : s.filesystem.Readable n a) (h : s.open ino = (.ok fh, s')) : Opened ino fh n ⟨s', a⟩

/-- All the handle would answer now is what the array answers, and a release that returns now
leaves the array as the file's content. -/
structure Right (ino : INodeNo) (fh : FileHandle) (n : NodeId) (w : Session PeerId) : Prop where
  answers : ∀ r, Timely r w → Answered ino fh r w
  release : ∀ now s', w.fuse.filesystem.tree.Newest now →
    w.fuse.release now ino fh = (.ok (), s') → s'.filesystem.Contains n w.array

/-- The handle is open; its metadata have the array's size; its buffer, if it has one, is the
array; and the file in the tree is too as long as nothing has been written. -/
structure SessionInv (ino : INodeNo) (fh : FileHandle) (n : NodeId) (w : Session PeerId) :
    Prop where
  filesystem : w.fuse.filesystem.Inv
  ino : w.fuse.inodeMap.getNodeId ino = some n
  length : w.array.length ≤ u64Max
  node : ∃ name size refs, w.fuse.filesystem.metadata n = .ok (.regularFile name size refs)
  file : ∃ file name refs, w.fuse.openFiles.openFiles fh = some file ∧
    file.metadata = .regularFile name w.array.length refs ∧
    (file.buffer = some w.array ∨ file.buffer = none ∧ file.dirty = false) ∧
    (file.dirty = false → w.fuse.filesystem.Readable n w.array)

variable {ino : INodeNo} {fh : FileHandle} {n : NodeId} {w : Session PeerId}

omit [UuidV5] [FastCdc] in
theorem SessionInv.inoToNodeId (h : SessionInv ino fh n w) : w.fuse.inoToNodeId ino = .ok n := by
  rw [FuseFileSystem.inoToNodeId, h.ino]

omit [UuidV5] [FastCdc] in
/-- Reading the tree keeps the invariant. -/
theorem SessionInv.untouched (h : SessionInv ino fh n w) {fs : FileSystem PeerId}
    (hu : Untouched w.fuse.filesystem fs) :
    SessionInv ino fh n ⟨{ w.fuse with filesystem := fs }, w.array⟩ where
  filesystem := ⟨by rw [hu.tree]; exact h.filesystem.sound, hu.storage h.filesystem.storage⟩
  ino := h.ino
  length := h.length
  node := by
    obtain ⟨name, size, refs, hm⟩ := h.node
    exact ⟨name, size, refs, (metadata_congr (by rw [hu.tree])).trans hm⟩
  file := by
    obtain ⟨file, name, refs, hf, hm, hb, hr⟩ := h.file
    exact ⟨file, name, refs, hf, hm, hb, fun hd => (hr hd).untouched hu⟩

omit [LinearOrder PeerId] [UuidV5] [FastCdc] in
/-- A read of the tree, when all it needs is stored. -/
theorem fetchAndRead_eq {s : FuseFileSystem PeerId} {a data : Bytes}
    (h : s.filesystem.Readable n a) (fetch : ChunkHash → Option Bytes) (offset length : ℕ)
    {readStored : FileSystem PeerId → Option (Except FileSystemError Bytes × FileSystem PeerId)}
    {fs : FileSystem PeerId} (hread : readStored s.filesystem = some (.ok data, fs)) :
    s.fetchAndRead fetch n offset length readStored
      = some (.ok data, { s with filesystem := fs }) := by
  unfold fetchAndRead
  rw [h.fetchMissingChunks]
  simp only [hread]

omit [UuidV5] [FastCdc] in
theorem read_spec (h : SessionInv ino fh n w) (fetch : ChunkHash → Option Bytes)
    (offset size : ℕ) :
    ∃ s, w.fuse.read fetch ino fh offset size
        = some (.ok ((w.array.take (offset + size)).drop offset), s) ∧
      SessionInv ino fh n ⟨s, w.array⟩ := by
  obtain ⟨file, name, refs, hf, -, hbuffer, hread⟩ := h.file
  rcases hbuffer with hb | ⟨hb, hd⟩
  · -- from the buffer
    refine ⟨w.fuse, ?_, h⟩
    rw [FuseFileSystem.read, OpenFileManager.read_eq hf hb h.length]
  · obtain ⟨fs, hfs⟩ := (hread hd).read offset size
    obtain ⟨htree, hentry, hstorage⟩ := readFile_state hfs
    rw [← List.take_eq_take_min] at hfs
    refine ⟨_, ?_, h.untouched ⟨htree, hentry, hstorage⟩⟩
    have hnone : w.fuse.openFiles.read fh offset size = none := by
      simp only [OpenFileManager.read, hf, hb]
    simp only [FuseFileSystem.read, hnone, h.inoToNodeId]
    exact fetchAndRead_eq (hread hd) fetch offset size hfs

omit [UuidV5] [FastCdc] in
/-- Before it writes, the handle has the array as its buffer. -/
theorem loadBuffer_spec (h : SessionInv ino fh n w) (fetch : ChunkHash → Option Bytes) :
    ∃ s, w.fuse.loadBuffer fetch ino fh = some (.ok (), s) ∧ SessionInv ino fh n ⟨s, w.array⟩ ∧
      ∃ file, s.openFiles.openFiles fh = some file ∧ file.buffer = some w.array := by
  obtain ⟨file, name, refs, hf, hm, hbuffer, hread⟩ := h.file
  rcases hbuffer with hb | ⟨hb, hd⟩
  · refine ⟨w.fuse, ?_, h, file, hf, hb⟩
    rw [loadBuffer, OpenFileManager.needsBuffer_eq hf, hb]
    rfl
  · obtain ⟨fs, hfs⟩ := (hread hd).readAll
    obtain ⟨htree, hentry, hstorage⟩ := readFileAll_state hfs
    have hinv := h.untouched ⟨htree, hentry, hstorage⟩
    refine ⟨{ w.fuse with
      filesystem := fs
      openFiles := w.fuse.openFiles.insert fh { file with buffer := some w.array } }, ?_, ?_, ?_⟩
    · have hfetch : w.fuse.fetchAndRead fetch n 0 u64Max (fun fs => fs.readFileAll n)
          = some (.ok w.array, { w.fuse with filesystem := fs }) :=
        fetchAndRead_eq (hread hd) fetch 0 u64Max hfs
      rw [loadBuffer, OpenFileManager.needsBuffer_eq hf, hb]
      simp only [Option.isNone_none, h.inoToNodeId, hfetch, OpenFileManager.setBuffer_eq hf]
    · refine ⟨hinv.filesystem, hinv.ino, hinv.length, hinv.node, ?_⟩
      exact ⟨_, name, refs, OpenFileManager.openFiles_insert, hm, Or.inl rfl,
        fun _ => (hread hd).untouched ⟨htree, hentry, hstorage⟩⟩
    · exact ⟨_, OpenFileManager.openFiles_insert, rfl⟩

omit [UuidV5] [FastCdc] in
theorem write_spec (h : SessionInv ino fh n w) (fetch : ChunkHash → Option Bytes) (offset : ℕ)
    (data : Bytes) :
    ∃ s, w.fuse.handle ino fh (.write fetch offset data)
        = some ((reference ino (.write fetch offset data) w.array).1, s) ∧
      SessionInv ino fh n ⟨s, (reference ino (.write fetch offset data) w.array).2⟩ := by
  by_cases hempty : data = []
  · refine ⟨w.fuse, ?_, ?_⟩
    · simp [handle, FuseFileSystem.write, reference, hempty]
    · simpa [reference, hempty] using h
  · obtain ⟨s, hload, hinv, file', hf', hb⟩ := loadBuffer_spec h fetch
    obtain ⟨file, name, refs, hf, hm, -, -⟩ := hinv.file
    cases hf'.symm.trans hf
    by_cases hend : offset + data.length ≤ u64Max
    · refine ⟨{ s with openFiles := s.openFiles.insert fh ⟨OpenFileManager.grown
        (offset + data.length) file'.metadata, some (overlay 0 w.array offset data),
          true⟩ }, ?_, ?_⟩
      · simp only [handle, FuseFileSystem.write, if_neg hempty, hload,
          OpenFileManager.write_eq hf hb hend, reference, if_pos hend, Option.map_some]
        rfl
      · simp only [reference, if_neg hempty, if_pos hend]
        refine ⟨hinv.filesystem, hinv.ino, ?_, hinv.node, ?_⟩
        · rw [length_overlay]
          exact max_le h.length hend
        · refine ⟨_, name, refs, OpenFileManager.openFiles_insert, ?_, Or.inl rfl, nofun⟩
          rw [hm, length_overlay]
          rfl
    · refine ⟨s, ?_, ?_⟩
      · simp only [handle, FuseFileSystem.write, if_neg hempty, hload,
          OpenFileManager.write_too_big hf hb hend, reference, if_neg hend, Option.map_some]
        rfl
      · simpa only [reference, if_neg hempty, if_neg hend] using hinv

variable [LawfulCrdtTree PeerId]

omit [UuidV5] [FastCdc] in
/-- A size change replies as the array does; it keeps the invariant if it changes nothing. -/
theorem setattr_spec (h : SessionInv ino fh n w) {now : ℕ}
    (hnow : w.fuse.filesystem.tree.Newest now) (newSize : ℕ) :
    ∃ s, w.fuse.setattr now ino { newSize := some newSize } = (.ok (fileAttr ino newSize), s) ∧
      s.openFiles = w.fuse.openFiles ∧
      (newSize = w.array.length → SessionInv ino fh n ⟨s, w.array⟩) := by
  obtain ⟨name, size, refs, hm⟩ := h.node
  obtain ⟨-, parent, hp⟩ := exists_parent_of_file hm
  have htrunc := truncateFile_eq hm hp now newSize rfl
  set fs : FileSystem PeerId := (w.fuse.filesystem.truncateFile now n newSize).2 with hfs
  have hfs' := (congrArg Prod.snd htrunc).symm
  have hm' : fs.metadata n = .ok (.regularFile name newSize (Chunk.truncate refs newSize)) :=
    metadata_replace h.filesystem.sound hnow hm hp _ (by rw [hfs, htrunc])
  refine ⟨{ w.fuse with filesystem := fs }, ?_, rfl, ?_⟩
  · have hsupported : ({ newSize := some newSize } : SetAttr).unsupported = false := rfl
    have hmeta : FuseFileSystem.metadata { w.fuse with filesystem := fs } n
        = .ok (.regularFile name newSize (Chunk.truncate refs newSize)) := by
      rw [FuseFileSystem.metadata, hm']
      rfl
    simp only [setattr, hsupported, h.inoToNodeId, broadcast, htrunc]
    simp only [hfs, htrunc] at hmeta
    simp only [Bool.false_eq_true, if_false, hmeta, hfs, htrunc]
    rfl
  · rintro rfl
    refine ⟨⟨?_, ?_⟩, h.ino, h.length, ⟨_, _, _, hm'⟩, ?_⟩
    · rw [hfs, htrunc]
      exact h.filesystem.sound.issue _ _ _ _
    · rw [hfs, htrunc]
      exact h.filesystem.storage
    · obtain ⟨file, name, refs, hf, hfm, hb, hr⟩ := h.file
      exact ⟨file, name, refs, hf, hfm, hb, fun hd =>
        (hr hd).truncate h.filesystem.sound hnow⟩

omit [UuidV5] [FastCdc] in
/-- **One request under the invariant** replies as the array does, and keeps the invariant unless
it changes the size by `setattr`. -/
theorem handle_spec (h : SessionInv ino fh n w) {r : HandleRequest} (htimely : Timely r w) :
    ∃ s, w.fuse.handle ino fh r = some ((reference ino r w.array).1, s) ∧
      (KeepsSize r w → SessionInv ino fh n ⟨s, (reference ino r w.array).2⟩) := by
  cases r with
  | write fetch offset data =>
    obtain ⟨s, hs, hinv⟩ := write_spec h fetch offset data
    exact ⟨s, hs, fun _ => hinv⟩
  | setattr now newSize =>
    obtain ⟨s, hs, -, hinv⟩ := setattr_spec h htimely newSize
    refine ⟨s, by simp only [handle, hs]; rfl, ?_⟩
    rintro rfl
    simpa only [reference, resize_length] using hinv rfl
  | read fetch offset size =>
    obtain ⟨s, hs, hinv⟩ := read_spec h fetch offset size
    exact ⟨s, by simp only [handle, hs]; rfl, fun _ => hinv⟩
  | getattr =>
    obtain ⟨file, name, refs, hf, hm, -, -⟩ := h.file
    refine ⟨w.fuse, ?_, fun _ => h⟩
    simp only [handle, getattr, Option.bind_some, OpenFileManager.metadata_eq hf, hm]
    rfl

omit [UuidV5] in
/-- A release that returns has written back the buffer of a handle that has been written. -/
theorem hasContent_release [LawfulSha256] [LawfulFastCdc] {s s' : FuseFileSystem PeerId}
    (hinv : s.filesystem.Inv) {file : OpenFile} {b : Bytes} {m : NodeMeta}
    (hf : s.openFiles.openFiles fh = some file) (hd : file.dirty = true) (hb : file.buffer = some b)
    (hino : s.inodeMap.getNodeId ino = some n) (hm : s.filesystem.metadata n = .ok m) {now : ℕ}
    (hnow : s.filesystem.tree.Newest now) (hrelease : s.release now ino fh = (.ok (), s')) :
    s'.filesystem.HasContent n b := by
  have hrelease' : s.release now ino fh
      = broadcast { s with openFiles := (s.openFiles.releaseFile fh).2 }
        (s.filesystem.writeFile now n b) := by
    have hbuffer : (s.openFiles.releaseFile fh).1 = some b := by
      simp [OpenFileManager.releaseFile, hf, hd, hb]
    simp only [FuseFileSystem.release, hbuffer, inoToNodeId, hino, FuseFileSystem.metadata, hm]
    rfl
  rw [hrelease'] at hrelease
  obtain ⟨hok, rfl⟩ := Prod.mk.inj hrelease
  rcases hw : s.filesystem.writeFile now n b with ⟨⟨e⟩ | ⟨r⟩, fs⟩
  · rw [hw] at hok
    cases hok
  · exact hasContent_write hinv hnow hw

omit [UuidV5] in
/-- A release that returns leaves the array as the file's content. -/
theorem release_spec [LawfulSha256] [LawfulFastCdc] (h : SessionInv ino fh n w) {now : ℕ}
    (hnow : w.fuse.filesystem.tree.Newest now) {s : FuseFileSystem PeerId}
    (hrelease : w.fuse.release now ino fh = (.ok (), s)) : s.filesystem.Contains n w.array := by
  obtain ⟨file, name, refs, hf, -, hbuffer, hread⟩ := h.file
  obtain ⟨name', size, refs', hm⟩ := h.node
  cases hd : file.dirty with
  | false =>
    -- nothing has been written, and nothing is written back
    have hnone : (w.fuse.openFiles.releaseFile fh).1 = none := by
      simp [OpenFileManager.releaseFile, hf, hd]
    simp only [FuseFileSystem.release, hnone] at hrelease
    obtain ⟨-, rfl⟩ := Prod.mk.inj hrelease
    exact (hread hd).contains
  | true =>
    have hb : file.buffer = some w.array := hbuffer.resolve_right fun hb => by simp [hd] at hb
    have hcontent := hasContent_release h.filesystem hf hd hb h.ino hm hnow hrelease
    exact (hcontent.readable h.length).contains

/-- **Every fresh handle has the invariant.** -/
theorem Opened.inv [LawfulUuidV5] (h : Opened ino fh n w) : SessionInv ino fh n w := by
  cases h with
  | @create s s' now parentIno parent name attr fh hs hnow hino htrash hne habove h =>
    unfold FuseFileSystem.create FuseFileSystem.inoToNodeId at h
    rw [hino] at h
    dsimp only at h
    rcases createNode_cases s.filesystem now parent name (.regularFile name 0 []) with
      hfail | ⟨-, hcreate⟩
    · rw [createFile, hfail] at h
      cases (Prod.mk.inj h).1
    · rw [createFile, hcreate] at h
      obtain ⟨hattr, rfl⟩ := Prod.mk.inj h
      cases hattr
      set id : NodeId := ⟨UuidV5.newV5 parent.uuid name⟩ with hid
      -- the new file's move takes effect
      have hfind : (s.filesystem.tree.issue now id parent (.regularFile name 0 [])).2.find id
          = some ⟨parent, .regularFile name 0 []⟩ := by
        rw [NodeTree.find_issue_newest hnow]
        exact MoveTree.doOp_child fun hblocked => hblocked.elim hne habove
      have hroot : id ≠ NodeId.root := fun heq =>
        LawfulUuidV5.ne_nil parent.uuid name (congrArg NodeId.uuid heq)
      have hm : FileSystem.metadata (⟨(s.filesystem.tree.issue now id parent
          (.regularFile name 0 [])).2, s.filesystem.storage⟩ : FileSystem PeerId) id
          = .ok (.regularFile name 0 []) := by
        have htrashed : (s.filesystem.tree.issue now id parent
            (.regularFile name 0 [])).2.isTrashed id = false := by
          simp [NodeTree.isTrashed, NodeTree.parentId, hfind, htrash]
        rw [FileSystem.metadata, if_neg hroot, htrashed, NodeTree.metadata, hfind]
        rfl
      refine ⟨⟨hs.inv.sound.issue _ _ _ _, hs.inv.storage⟩,
        INodeMap.getNodeId_getOrAssignIno _ _, Nat.zero_le _, ⟨_, _, _, hm⟩, ?_⟩
      refine ⟨_, name, [], OpenFileManager.openFiles_insert, rfl, Or.inl rfl, fun _ => ?_⟩
      exact ⟨name, [], [], hm, holds_nil _, Nat.zero_le _⟩
  | @«open» s s' ino fh n a hs hino ha h =>
    obtain ⟨name, refs, u, hm, hholds, hlen⟩ := ha
    have hlength : a.length ≤ u64Max :=
      (Nat.le_add_right _ _).trans (List.length_append.symm.trans_le hlen)
    have hmeta : s.metadata n = .ok (.regularFile name a.length refs) := by
      rw [FuseFileSystem.metadata, hm]
      rfl
    unfold FuseFileSystem.open FuseFileSystem.inoToNodeId at h
    rw [hino] at h
    dsimp only at h
    rw [hmeta] at h
    obtain ⟨hfh, rfl⟩ := Prod.mk.inj h
    cases hfh
    refine ⟨hs.inv, hino, hlength, ⟨_, _, _, hm⟩, ?_⟩
    exact ⟨_, name, refs, OpenFileManager.openFiles_insert, rfl, Or.inr ⟨rfl, rfl⟩,
      fun _ => ⟨name, refs, u, hm, hholds, hlen⟩⟩

omit [UuidV5] in
theorem SessionInv.right [LawfulSha256] [LawfulFastCdc] (h : SessionInv ino fh n w) :
    Right ino fh n w where
  answers r hr := by
    obtain ⟨s, hs, -⟩ := handle_spec h hr
    rw [Answered, hs]
    rfl
  release now s hnow hs := release_spec h hnow hs

omit [UuidV5] [FastCdc] in
/-- Requests that keep the size run, and keep the invariant. -/
theorem inv_run {requests : List HandleRequest} (h : SessionInv ino fh n w)
    (htimely : Meets (sessionStep ino fh) Timely requests w)
    (hkeeps : Meets (sessionStep ino fh) KeepsSize requests w) :
    ∃ t, run (sessionStep ino fh) requests w = some t ∧ SessionInv ino fh n t := by
  induction requests generalizing w with
  | nil => exact ⟨w, rfl, h⟩
  | cons r rs ih =>
    obtain ⟨s, hs, hinv⟩ := handle_spec h htimely.1
    have hstep : sessionStep ino fh r w = some ⟨s, (reference ino r w.array).2⟩ := by
      rw [sessionStep, hs]
      rfl
    obtain ⟨t, ht, hinv'⟩ := ih (hinv hkeeps.1) (htimely.2 _ hstep) (hkeeps.2 _ hstep)
    exact ⟨t, by rw [run_cons, hstep]; exact ht, hinv'⟩

end Opened

end Edfs.FuseFileSystem

namespace Edfs.FuseFileSystem

open Execution FileSystem Reference

/-- A gateway that reaches nobody. -/
def fetchNone (_ : ChunkHash) : Option Bytes := none

/-- A node on which the file `f` has been created. -/
def created : FuseFileSystem ℕ := ((FuseFileSystem.new (init (0 : ℕ) 100)).create 1 1 "f").2

end Edfs.FuseFileSystem
