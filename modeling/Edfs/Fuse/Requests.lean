import Edfs.Filesystem.RoundTrip
import Edfs.Fuse.Gateway
import Edfs.Fuse.FuseFileSystem

/-!
# Runs of the FUSE layer

The requests of the kernel, one at a time, and between them what the network layer does to the
same file system. A request works on three tables, the file system, the inode numbers and the open
files, and `Served` says what it can do to each.

* `FuseRequest`, `serve`; `mutation`, the one mutator a request calls, if it calls one;
* `OnlyReads`: calls on the file system that leave its tree and its pinned chunks alone;
* `serve_spec`: every request is `Served`;
* `FuseEvent`, `fuseStep`; `refines`: a run of the FUSE layer is one of the file system.
-/

namespace Edfs

/-- A request; `now` and `fetch` are what its handler meets while it runs. -/
inductive FuseRequest
  | lookup (parentIno : INodeNo) (name : String)
  | getattr (ino : INodeNo) (fh : Option FileHandle)
  | setattr (now : ℕ) (ino : INodeNo) (attrs : SetAttr)
  | mkdir (now : ℕ) (parentIno : INodeNo) (name : String)
  | rmdir (now : ℕ) (parentIno : INodeNo) (name : String)
  | unlink (now : ℕ) (parentIno : INodeNo) (name : String)
  | rename (now : ℕ) (parentIno : INodeNo) (name : String) (newParentIno : INodeNo)
      (newName : String)
  | create (now : ℕ) (parentIno : INodeNo) (name : String)
  | «open» (ino : INodeNo)
  | opendir (ino : INodeNo)
  | readdir (ino : INodeNo) (offset : ℕ)
  | read (fetch : ChunkHash → Option Bytes) (ino : INodeNo) (fh : FileHandle) (offset size : ℕ)
  | write (fetch : ChunkHash → Option Bytes) (ino : INodeNo) (fh : FileHandle) (offset : ℕ)
      (data : Bytes)
  | release (now : ℕ) (ino : INodeNo) (fh : FileHandle)
  | readlink (ino : INodeNo)
  | symlink (now : ℕ) (parentIno : INodeNo) (linkName target : String)

/-- The handle a request reads or writes through, or closes. -/
def FuseRequest.handle : FuseRequest → Option FileHandle
  | .read _ _ fh _ _ => some fh
  | .write _ _ fh _ _ => some fh
  | .release _ _ fh => some fh
  | _ => none

/-- A call on the chunk store alone. -/
def Call.keepsTree {PeerId : Type} : Call PeerId → Bool
  | .mutate _ => false
  | .applyOperations _ => false
  | _ => true

/-- A call that reads, or caches what has been fetched. -/
def Call.readsOnly {PeerId : Type} : Call PeerId → Bool
  | .cacheChunk _ => true
  | .readFile _ _ _ => true
  | .readFileAll _ => true
  | _ => false

namespace FileSystem

open Execution

variable {PeerId : Type} [CrdtTree PeerId] [UuidV5] [Sha256] [FastCdc]

/-- A call that only reads leads from one state to the other. -/
def Reads (fs fs' : FileSystem PeerId) : Prop :=
  ∃ e : Event PeerId, e.2.readsOnly = true ∧ callStep e fs = some fs'

/-- Calls that only read lead from one state to the other. -/
def OnlyReads : FileSystem PeerId → FileSystem PeerId → Prop := Relation.ReflTransGen Reads

theorem tree_of_keepsTree {e : Event PeerId} {fs fs' : FileSystem PeerId}
    (he : e.2.keepsTree = true) (hstep : callStep e fs = some fs') : fs'.tree = fs.tree := by
  obtain ⟨now, c⟩ := e
  rcases tree_step hstep with ⟨ht, -⟩ | ⟨n, p, m, -, hone, -⟩ | ⟨ops, rfl, -⟩
  · exact ht
  · cases c with
    | mutate c => cases he
    | _ => cases hone
  · cases he

theorem Reads.tree {fs fs' : FileSystem PeerId} (h : Reads fs fs') : fs'.tree = fs.tree := by
  obtain ⟨⟨now, c⟩, hc, hstep⟩ := h
  refine tree_of_keepsTree ?_ hstep
  cases c <;> first | rfl | cases hc

theorem OnlyReads.tree {fs fs' : FileSystem PeerId} (h : OnlyReads fs fs') :
    fs'.tree = fs.tree := by
  induction h with
  | refl => rfl
  | tail _ hstep ih => rw [hstep.tree, ih]

theorem OnlyReads.metadata {fs fs' : FileSystem PeerId} (h : OnlyReads fs fs') (n : NodeId) :
    fs'.metadata n = fs.metadata n := metadata_congr (by rw [h.tree])

/-- What is reachable stays reachable. -/
theorem OnlyReads.reachable {fs fs' : FileSystem PeerId} (h : OnlyReads fs fs')
    (hfs : fs.Reachable) : fs'.Reachable := by
  induction h with
  | refl => exact hfs
  | tail _ hstep ih =>
    obtain ⟨e, -, he⟩ := hstep
    exact ih.step he

section

variable [LinearOrder PeerId] [LawfulCrdtTree PeerId]

theorem OnlyReads.inv {fs fs' : FileSystem PeerId} (h : OnlyReads fs fs') (hinv : fs.Inv) :
    fs'.Inv := by
  induction h with
  | refl => exact hinv
  | tail _ hstep ih =>
    obtain ⟨e, -, he⟩ := hstep
    exact inv_step ih he

/-- Reading costs no pinned chunk. -/
theorem OnlyReads.entry {fs fs' : FileSystem PeerId} (h : OnlyReads fs fs') (hinv : fs.Inv)
    {x : ChunkHash} {d : Bytes} (hx : fs.storage.entry x = some ⟨d, true⟩) :
    fs'.storage.entry x = some ⟨d, true⟩ := by
  induction h with
  | refl => exact hx
  | tail hreads hstep ih =>
    obtain ⟨e, hc, he⟩ := hstep
    refine entry_step_of_pinned (OnlyReads.inv hreads hinv) he ?_ ih
    rintro heq
    rw [heq] at hc
    cases hc

end

/-! ### The reads of a request -/

theorem onlyReads_cacheFetched (answers : List (Option Bytes)) (fs : FileSystem PeerId) :
    OnlyReads fs (answers.foldl cacheFetched fs) := by
  induction answers generalizing fs with
  | nil => exact .refl
  | cons answer answers ih =>
    cases answer with
    | none => exact ih fs
    | some data => exact .head ⟨(fun _ => 0, .cacheChunk data), rfl, rfl⟩ (ih _)

theorem onlyReads_fetch {fetch : ChunkHash → Option Bytes} {fs fs' : FileSystem PeerId}
    {n : NodeId} {offset length : ℕ} {r : Except FileSystemError Bool}
    (h : fetchMissingChunks fetch fs n offset length = some (r, fs')) : OnlyReads fs fs' := by
  unfold fetchMissingChunks at h
  split at h
  · cases h
  · cases h
    exact .refl
  · cases h
    exact onlyReads_cacheFetched _ fs

theorem onlyReads_readFile {fs fs' : FileSystem PeerId} {n : NodeId} {offset length : ℕ}
    {r : Except FileSystemError Bytes} (h : fs.readFile n offset length = some (r, fs')) :
    OnlyReads fs fs' :=
  .single ⟨(fun _ => 0, .readFile n offset length), rfl, by simp [callStep, h]⟩

theorem onlyReads_readFileAll {fs fs' : FileSystem PeerId} {n : NodeId}
    {r : Except FileSystemError Bytes} (h : fs.readFileAll n = some (r, fs')) :
    OnlyReads fs fs' :=
  .single ⟨(fun _ => 0, .readFileAll n), rfl, by simp [callStep, h]⟩

end FileSystem

namespace FuseFileSystem

open Execution FileSystem

variable {PeerId : Type} [CrdtTree PeerId] [UuidV5] [Sha256] [FastCdc]

/-- The state after a request, if its handler returns. -/
def serve : FuseRequest → FuseFileSystem PeerId → Option (FuseFileSystem PeerId)
  | .lookup parentIno name, s => some (s.lookup parentIno name).2
  | .getattr _ _, s => some s
  | .setattr now ino attrs, s => some (s.setattr now ino attrs).2
  | .mkdir now parentIno name, s => some (s.mkdir now parentIno name).2
  | .rmdir now parentIno name, s => some (s.rmdir now parentIno name).2
  | .unlink now parentIno name, s => some (s.unlink now parentIno name).2
  | .rename now parentIno name newParentIno newName, s =>
    some (s.rename now parentIno name newParentIno newName).2
  | .create now parentIno name, s => some (s.create now parentIno name).2
  | .open ino, s => some (s.open ino).2
  | .opendir ino, s => some (s.opendir ino).2
  | .readdir ino offset, s => some (s.readdir ino offset).2
  | .read fetch ino fh offset size, s => (s.read fetch ino fh offset size).map Prod.snd
  | .write fetch ino fh offset data, s => (s.write fetch ino fh offset data).map Prod.snd
  | .release now ino fh, s => some (s.release now ino fh).2
  | .readlink _, s => some s
  | .symlink now parentIno linkName target, s => some (s.symlink now parentIno linkName target).2

/-- The mutator a request calls, with the wall-clock reading it makes. -/
def mutation (s : FuseFileSystem PeerId) : FuseRequest → Option (ℕ × Mutator)
  | .setattr now ino attrs =>
    if attrs.unsupported then none
    else do
      let n ← s.inodeMap.getNodeId ino
      let newSize ← attrs.newSize
      some (now, .truncateFile n newSize)
  | .mkdir now parentIno name => do
    let parent ← s.inodeMap.getNodeId parentIno
    some (now, .createDirectory parent name)
  | .rmdir now parentIno name => do
    let parent ← s.inodeMap.getNodeId parentIno
    some (now, .deleteDirectory parent name)
  | .unlink now parentIno name => do
    let parent ← s.inodeMap.getNodeId parentIno
    some (now, .deleteFile parent name)
  | .rename now parentIno name newParentIno newName => do
    let parent ← s.inodeMap.getNodeId parentIno
    let newParent ← s.inodeMap.getNodeId newParentIno
    some (now, .rename parent name newParent newName)
  | .create now parentIno name => do
    let parent ← s.inodeMap.getNodeId parentIno
    some (now, .createFile parent name)
  | .release now ino fh => do
    let buffer ← (s.openFiles.releaseFile fh).1
    let n ← s.inodeMap.getNodeId ino
    match s.filesystem.metadata n with
    | .error _ => none
    | .ok _ => some (now, .writeFile n buffer)
  | .symlink now parentIno linkName target => do
    let parent ← s.inodeMap.getNodeId parentIno
    some (now, .createSymlink parent linkName target)
  | _ => none

/-! ### What a request does to the three tables -/

/-- What a request does: to the file system, at most one mutation; to the inode numbers, nothing
but new ones; to the open files, nothing to those it does not name. -/
structure Served (r : FuseRequest) (s s' : FuseFileSystem PeerId) : Prop where
  filesystem : match s.mutation r with
    | none => OnlyReads s.filesystem s'.filesystem
    | some (now, c) => s'.filesystem = (s.filesystem.mutate now c).2
  inodeMap : s.inodeMap.Extends s'.inodeMap
  nextFh : s.nextFh ≤ s'.nextFh
  openFiles : ∀ fh, fh < s.nextFh → r.handle ≠ some fh →
    s'.openFiles.openFiles fh = s.openFiles.openFiles fh

variable {r : FuseRequest} {s s' : FuseFileSystem PeerId}

/-- A request that mutates, and touches no open file. -/
theorem served_mutate {now : ℕ} {c : Mutator} (hr : s.mutation r = some (now, c))
    {fs : FileSystem PeerId} (hfs : fs = (s.filesystem.mutate now c).2) {inodeMap : INodeMap}
    (hinodes : s.inodeMap.Extends inodeMap) :
    Served r s { s with filesystem := fs, inodeMap := inodeMap } where
  filesystem := by rw [hr]; exact hfs
  inodeMap := hinodes
  nextFh := le_rfl
  openFiles _ _ _ := rfl

/-- A request that only reads the file system, and touches no open file. -/
theorem served_read (hr : s.mutation r = none) {fs : FileSystem PeerId}
    (hfs : OnlyReads s.filesystem fs) {inodeMap : INodeMap}
    (hinodes : s.inodeMap.Extends inodeMap) :
    Served r s { s with filesystem := fs, inodeMap := inodeMap } where
  filesystem := by rw [hr]; exact hfs
  inodeMap := hinodes
  nextFh := le_rfl
  openFiles _ _ _ := rfl

theorem served_refl (hr : s.mutation r = none) : Served r s s :=
  served_read hr .refl (.refl _)

omit [UuidV5] [Sha256] [FastCdc] in
theorem inoToNodeId_of_some {ino : INodeNo} {n : NodeId} (h : s.inodeMap.getNodeId ino = some n) :
    s.inoToNodeId ino = .ok n := by
  rw [inoToNodeId, h]

omit [UuidV5] [Sha256] [FastCdc] in
theorem inoToNodeId_of_none {ino : INodeNo} (h : s.inodeMap.getNodeId ino = none) :
    s.inoToNodeId ino = .error .enoent := by
  rw [inoToNodeId, h]

theorem served_lookup (parentIno : INodeNo) (name : String) :
    Served (.lookup parentIno name) s (s.lookup parentIno name).2 := by
  unfold lookup
  split
  · exact served_refl rfl
  · split
    · exact served_refl rfl
    · split
      · exact served_refl rfl
      · exact served_read rfl .refl (s.inodeMap.extends_getOrAssignIno _)

theorem served_makeEntry {parentIno : INodeNo} {now : ℕ} {c : NodeId → Mutator}
    {make : NodeId → FileSystem.Mutation PeerId FileSystemEntry}
    (hr : s.mutation r = (s.inodeMap.getNodeId parentIno).bind fun p => some (now, c p))
    (hmake : ∀ p, (make p).2 = (s.filesystem.mutate now (c p)).2) :
    Served r s (s.makeEntry parentIno make).2 := by
  unfold makeEntry
  cases hino : s.inodeMap.getNodeId parentIno with
  | none =>
    rw [inoToNodeId_of_none hino]
    exact served_refl (by rw [hr, hino]; rfl)
  | some parent =>
    rw [inoToNodeId_of_some hino]
    have hmut : s.mutation r = some (now, c parent) := by rw [hr, hino]; rfl
    have hfs := hmake parent
    rcases hres : make parent with ⟨⟨e⟩ | ⟨entry⟩, fs⟩ <;> rw [hres] at hfs <;>
      simp only [broadcast, hres]
    · exact served_mutate hmut hfs (.refl _)
    · exact served_mutate hmut hfs (s.inodeMap.extends_getOrAssignIno _)

theorem served_rmdir (now : ℕ) (parentIno : INodeNo) (name : String) :
    Served (.rmdir now parentIno name) s (s.rmdir now parentIno name).2 := by
  unfold rmdir
  cases hino : s.inodeMap.getNodeId parentIno with
  | none =>
    rw [inoToNodeId_of_none hino]
    exact served_refl (by simp [mutation, hino])
  | some parent =>
    have hmut : s.mutation (.rmdir now parentIno name)
        = some (now, .deleteDirectory parent name) := by simp [mutation, hino]
    rw [inoToNodeId_of_some hino]
    exact served_mutate hmut rfl (.refl _)

theorem served_unlink (now : ℕ) (parentIno : INodeNo) (name : String) :
    Served (.unlink now parentIno name) s (s.unlink now parentIno name).2 := by
  unfold unlink
  cases hino : s.inodeMap.getNodeId parentIno with
  | none =>
    rw [inoToNodeId_of_none hino]
    exact served_refl (by simp [mutation, hino])
  | some parent =>
    have hmut : s.mutation (.unlink now parentIno name)
        = some (now, .deleteFile parent name) := by simp [mutation, hino]
    rw [inoToNodeId_of_some hino]
    exact served_mutate hmut rfl (.refl _)

theorem served_rename (now : ℕ) (parentIno : INodeNo) (name : String) (newParentIno : INodeNo)
    (newName : String) :
    Served (.rename now parentIno name newParentIno newName) s
      (s.rename now parentIno name newParentIno newName).2 := by
  unfold rename
  cases hino : s.inodeMap.getNodeId parentIno with
  | none =>
    rw [inoToNodeId_of_none hino]
    exact served_refl (by simp [mutation, hino])
  | some parent =>
    rw [inoToNodeId_of_some hino]
    cases hino' : s.inodeMap.getNodeId newParentIno with
    | none =>
      rw [inoToNodeId_of_none hino']
      exact served_refl (by simp [mutation, hino, hino'])
    | some newParent =>
      have hmut : s.mutation (.rename now parentIno name newParentIno newName)
          = some (now, .rename parent name newParent newName) := by simp [mutation, hino, hino']
      rw [inoToNodeId_of_some hino']
      exact served_mutate hmut rfl (.refl _)

theorem served_setattr (now : ℕ) (ino : INodeNo) (attrs : SetAttr) :
    Served (.setattr now ino attrs) s (s.setattr now ino attrs).2 := by
  unfold setattr
  split_ifs with hun
  · exact served_refl (by simp [mutation, hun])
  · cases hino : s.inodeMap.getNodeId ino with
    | none =>
      rw [inoToNodeId_of_none hino]
      exact served_refl (by simp [mutation, hun, hino])
    | some n =>
      rw [inoToNodeId_of_some hino]
      cases hsize : attrs.newSize with
      | none =>
        have hnone : s.mutation (.setattr now ino attrs) = none := by
          simp [mutation, hun, hino, hsize]
        dsimp only
        split <;> exact served_refl hnone
      | some newSize =>
        have hsome : s.mutation (.setattr now ino attrs) = some (now, .truncateFile n newSize) := by
          simp [mutation, hun, hino, hsize]
        have h := served_mutate hsome rfl (.refl _)
        dsimp only
        split
        · exact h
        · split <;> exact h

theorem served_create (now : ℕ) (parentIno : INodeNo) (name : String) :
    Served (.create now parentIno name) s (s.create now parentIno name).2 := by
  unfold create
  cases hino : s.inodeMap.getNodeId parentIno with
  | none =>
    rw [inoToNodeId_of_none hino]
    exact served_refl (by simp [mutation, hino])
  | some parent =>
    rw [inoToNodeId_of_some hino]
    have hmut : s.mutation (.create now parentIno name) = some (now, .createFile parent name) := by
      simp [mutation, hino]
    have hfs : (s.filesystem.createFile now parent name).2
        = (s.filesystem.mutate now (.createFile parent name)).2 := rfl
    rcases hres : s.filesystem.createFile now parent name with ⟨⟨e⟩ | ⟨entry⟩, fs⟩ <;>
      rw [hres] at hfs <;> simp only [broadcast, hres]
    · exact served_mutate hmut hfs (.refl _)
    · have h := served_mutate hmut hfs (s.inodeMap.extends_getOrAssignIno entry.result.nodeId)
      refine ⟨h.filesystem, h.inodeMap, Nat.le_succ _, fun fh hfh _ => ?_⟩
      exact OpenFileManager.insert_of_ne hfh.ne

theorem served_open (ino : INodeNo) : Served (.open ino) s (s.open ino).2 := by
  unfold FuseFileSystem.open
  split
  · exact served_refl rfl
  · split
    · exact served_refl rfl
    · refine ⟨.refl, .refl _, Nat.le_succ _, fun fh hfh _ => ?_⟩
      exact OpenFileManager.insert_of_ne hfh.ne
    · exact served_refl rfl
    · exact served_refl rfl

theorem served_opendir (ino : INodeNo) : Served (.opendir ino) s (s.opendir ino).2 := by
  unfold opendir
  split
  · exact served_refl rfl
  · split
    · exact served_refl rfl
    · exact ⟨.refl, .refl _, Nat.le_succ _, fun _ _ _ => rfl⟩
    · exact served_refl rfl

theorem served_readdir (ino : INodeNo) (offset : ℕ) :
    Served (.readdir ino offset) s (s.readdir ino offset).2 := by
  unfold readdir
  split
  · exact served_refl rfl
  · split
    · exact served_refl rfl
    · next children _ =>
      exact served_read rfl .refl
        ((s.inodeMap.extends_getOrAssignIno _).trans (extends_numberChildren children _))

theorem onlyReads_fetchAndRead {fetch : ChunkHash → Option Bytes} {n : NodeId}
    {offset length : ℕ}
    {readStored : FileSystem PeerId → Option (Except FileSystemError Bytes × FileSystem PeerId)}
    (hread : ∀ fs r fs', readStored fs = some (r, fs') → OnlyReads fs fs')
    {r : Except Errno Bytes}
    (h : s.fetchAndRead fetch n offset length readStored = some (r, s')) :
    ∃ fs, OnlyReads s.filesystem fs ∧ s' = { s with filesystem := fs } := by
  unfold fetchAndRead at h
  rcases hf : fetchMissingChunks fetch s.filesystem n offset length with
    _ | ⟨⟨e⟩ | ⟨⟨⟩ | ⟨⟩⟩, fs⟩ <;> simp only [hf] at h
  · cases h
  · cases h
    exact ⟨fs, onlyReads_fetch hf, rfl⟩
  · cases h
    exact ⟨fs, onlyReads_fetch hf, rfl⟩
  · rcases hr : readStored fs with _ | ⟨⟨e⟩ | ⟨data⟩, fs'⟩ <;> simp only [hr] at h <;> cases h
    · exact ⟨fs', (onlyReads_fetch hf).trans (hread _ _ _ hr), rfl⟩
    · exact ⟨fs', (onlyReads_fetch hf).trans (hread _ _ _ hr), rfl⟩

theorem served_readRequest {fetch : ChunkHash → Option Bytes} {ino : INodeNo} {fh : FileHandle}
    {offset size : ℕ} {reply : Except Errno Bytes}
    (h : s.read fetch ino fh offset size = some (reply, s')) :
    Served (.read fetch ino fh offset size) s s' := by
  unfold FuseFileSystem.read at h
  split at h
  · cases h
    exact served_refl rfl
  · split at h
    · cases h
      exact served_refl rfl
    · obtain ⟨fs, hfs, rfl⟩ := onlyReads_fetchAndRead (fun _ _ _ => onlyReads_readFile) h
      exact served_read rfl hfs (.refl _)

omit [UuidV5] [Sha256] [FastCdc] in
/-- Changing an open file changes no other. -/
theorem setBuffer_of_ne {m : OpenFileManager} {fh fh' : FileHandle} (h : fh' ≠ fh)
    (buffer : Bytes) : (m.setBuffer fh buffer).openFiles fh' = m.openFiles fh' := by
  unfold OpenFileManager.setBuffer
  split
  · rfl
  · exact OpenFileManager.insert_of_ne h

/-- Loading a buffer only reads the file system, and changes one open file. -/
theorem loadBuffer_cases {fetch : ChunkHash → Option Bytes} {ino : INodeNo} {fh : FileHandle}
    {reply : Except Errno Unit} (h : s.loadBuffer fetch ino fh = some (reply, s')) :
    ∃ fs m, OnlyReads s.filesystem fs ∧ s' = { s with filesystem := fs, openFiles := m } ∧
      ∀ fh', fh' ≠ fh → m.openFiles fh' = s.openFiles.openFiles fh' := by
  unfold loadBuffer at h
  split at h
  · cases h
    exact ⟨_, _, .refl, rfl, fun _ _ => rfl⟩
  · cases h
    exact ⟨_, _, .refl, rfl, fun _ _ => rfl⟩
  · split at h
    · cases h
      exact ⟨_, _, .refl, rfl, fun _ _ => rfl⟩
    · split at h
      · cases h
      · next hread =>
        cases h
        obtain ⟨fs, hfs, rfl⟩ := onlyReads_fetchAndRead (fun _ _ _ => onlyReads_readFileAll) hread
        exact ⟨fs, _, hfs, rfl, fun _ _ => rfl⟩
      · next hread =>
        cases h
        obtain ⟨fs, hfs, rfl⟩ := onlyReads_fetchAndRead (fun _ _ _ => onlyReads_readFileAll) hread
        exact ⟨fs, _, hfs, rfl, fun _ hne => setBuffer_of_ne hne _⟩

omit [UuidV5] [Sha256] [FastCdc] in
theorem writeOpenFile_of_ne {m : OpenFileManager} {fh fh' : FileHandle} (h : fh' ≠ fh)
    (offset : ℕ) (data : Bytes) :
    (m.write fh offset data).2.openFiles fh' = m.openFiles fh' := by
  unfold OpenFileManager.write
  split
  · rfl
  · split
    · rfl
    · split
      · rfl
      · exact OpenFileManager.insert_of_ne h

theorem served_writeRequest {fetch : ChunkHash → Option Bytes} {ino : INodeNo} {fh : FileHandle}
    {offset : ℕ} {data : Bytes} {reply : Except Errno ℕ}
    (h : s.write fetch ino fh offset data = some (reply, s')) :
    Served (.write fetch ino fh offset data) s s' := by
  unfold FuseFileSystem.write at h
  split_ifs at h
  · cases h
    exact served_refl rfl
  · have hne : ∀ fh', FuseRequest.handle (.write fetch ino fh offset data) ≠ some fh' →
        fh' ≠ fh := by
      rintro fh' hfh' rfl
      exact hfh' rfl
    split at h
    · cases h
    · next hload =>
      cases h
      obtain ⟨fs, m, hfs, rfl, hm⟩ := loadBuffer_cases hload
      exact ⟨hfs, .refl _, le_rfl, fun fh' _ hfh' => hm fh' (hne fh' hfh')⟩
    · next hload =>
      cases h
      obtain ⟨fs, m, hfs, rfl, hm⟩ := loadBuffer_cases hload
      refine ⟨hfs, .refl _, le_rfl, fun fh' _ hfh' => ?_⟩
      exact (writeOpenFile_of_ne (hne fh' hfh') _ _).trans (hm fh' (hne fh' hfh'))

omit [UuidV5] [Sha256] [FastCdc] in
theorem releaseFile_of_ne {m : OpenFileManager} {fh fh' : FileHandle} (h : fh' ≠ fh) :
    (m.releaseFile fh).2.openFiles fh' = m.openFiles fh' := by
  unfold OpenFileManager.releaseFile
  split
  · rfl
  · exact Function.update_of_ne h ..

/-- A release closes its handle, and writes back if it calls the mutator. -/
theorem release_state (now : ℕ) (ino : INodeNo) (fh : FileHandle) :
    (s.release now ino fh).2 =
      { s with
        filesystem := match s.mutation (.release now ino fh) with
          | none => s.filesystem
          | some (now, c) => (s.filesystem.mutate now c).2
        openFiles := (s.openFiles.releaseFile fh).2 } := by
  rcases hrel : s.openFiles.releaseFile fh with ⟨_ | buffer, m⟩
  · have hnone : s.mutation (.release now ino fh) = none := by simp [mutation, hrel]
    simp only [FuseFileSystem.release, hrel, hnone]
  · cases hino : s.inodeMap.getNodeId ino with
    | none =>
      have hnone : s.mutation (.release now ino fh) = none := by simp [mutation, hrel, hino]
      simp only [FuseFileSystem.release, hrel, hnone, inoToNodeId, hino]
    | some n =>
      cases hm : s.filesystem.metadata n with
      | error e =>
        have hnone : s.mutation (.release now ino fh) = none := by
          simp [mutation, hrel, hino, hm]
        simp only [FuseFileSystem.release, hrel, hnone, inoToNodeId, hino,
          FuseFileSystem.metadata, hm]
        rfl
      | ok m =>
        have hsome : s.mutation (.release now ino fh) = some (now, .writeFile n buffer) := by
          simp [mutation, hrel, hino, hm]
        simp only [FuseFileSystem.release, hrel, hsome, inoToNodeId, hino,
          FuseFileSystem.metadata, hm]
        rfl

theorem served_release (now : ℕ) (ino : INodeNo) (fh : FileHandle) :
    Served (.release now ino fh) s (s.release now ino fh).2 := by
  rw [release_state]
  refine ⟨?_, .refl _, le_rfl, fun fh' _ hfh' => releaseFile_of_ne ?_⟩
  · dsimp only
    split
    · exact .refl
    · rfl
  · rintro rfl
    exact hfh' rfl

/-- **Every request is served**: at most one mutation, new inode numbers, its own open file. -/
theorem serve_spec (h : serve r s = some s') : Served r s s' := by
  cases r with
  | lookup parentIno name => cases h; exact served_lookup parentIno name
  | getattr ino fh => cases h; exact served_refl rfl
  | setattr now ino attrs => cases h; exact served_setattr now ino attrs
  | mkdir now parentIno name => cases h; exact served_makeEntry rfl fun _ => rfl
  | rmdir now parentIno name => cases h; exact served_rmdir now parentIno name
  | unlink now parentIno name => cases h; exact served_unlink now parentIno name
  | rename now parentIno name newParentIno newName =>
    cases h
    exact served_rename now parentIno name newParentIno newName
  | create now parentIno name => cases h; exact served_create now parentIno name
  | «open» ino => cases h; exact served_open ino
  | opendir ino => cases h; exact served_opendir ino
  | readdir ino offset => cases h; exact served_readdir ino offset
  | read fetch ino fh offset size =>
    obtain ⟨⟨reply, s''⟩, hr, rfl⟩ := Option.map_eq_some_iff.1 h
    exact served_readRequest hr
  | write fetch ino fh offset data =>
    obtain ⟨⟨reply, s''⟩, hr, rfl⟩ := Option.map_eq_some_iff.1 h
    exact served_writeRequest hr
  | release now ino fh => cases h; exact served_release now ino fh
  | readlink ino => cases h; exact served_refl rfl
  | symlink now parentIno linkName target => cases h; exact served_makeEntry rfl fun _ => rfl

/-! ### Runs -/

/-- What happens to a FUSE layer: a request, or a call of the network layer on its file system. -/
inductive FuseEvent (PeerId : Type)
  | request (r : FuseRequest)
  | call (e : Event PeerId)

def fuseStep : FuseEvent PeerId → FuseFileSystem PeerId → Option (FuseFileSystem PeerId)
  | .request r, s => serve r s
  | .call e, s => (callStep e s.filesystem).map fun fs => { s with filesystem := fs }

theorem inv_fuseStep [LinearOrder PeerId] [LawfulCrdtTree PeerId] {e : FuseEvent PeerId}
    (hs : s.filesystem.Inv) (h : fuseStep e s = some s') : s'.filesystem.Inv := by
  cases e with
  | request r =>
    have hfs := (serve_spec h).filesystem
    split at hfs
    · exact hfs.inv hs
    · next now c _ =>
      rw [hfs]
      exact inv_mutate hs now c
  | call e =>
    obtain ⟨fs, hfs, rfl⟩ := Option.map_eq_some_iff.1 h
    exact inv_step hs hfs

/-- Inode numbers lead where they did before. -/
theorem inodeMap_step {e : FuseEvent PeerId} (h : fuseStep e s = some s') :
    s.inodeMap.Extends s'.inodeMap := by
  cases e with
  | request r => exact (serve_spec h).inodeMap
  | call e =>
    obtain ⟨fs, -, rfl⟩ := Option.map_eq_some_iff.1 h
    exact .refl _

theorem inodeMap_run {events : List (FuseEvent PeerId)} (h : run fuseStep events s = some s') :
    s.inodeMap.Extends s'.inodeMap :=
  run_rec (P := fun _ t => s.inodeMap.Extends t.inodeMap) (.refl _)
    (fun _ _ _ _ _ ih hstep => ih.trans (inodeMap_step hstep)) h

/-- An event leaves the open files alone that it does not name. -/
theorem openFiles_step {e : FuseEvent PeerId} {fh : FileHandle} (hfh : fh < s.nextFh)
    (hnot : ∀ r, e = .request r → r.handle ≠ some fh) (h : fuseStep e s = some s') :
    fh < s'.nextFh ∧ s'.openFiles.openFiles fh = s.openFiles.openFiles fh := by
  cases e with
  | request r =>
    have hserved := serve_spec h
    exact ⟨hfh.trans_le hserved.nextFh, hserved.openFiles fh hfh (hnot r rfl)⟩
  | call e =>
    obtain ⟨fs, -, rfl⟩ := Option.map_eq_some_iff.1 h
    exact ⟨hfh, rfl⟩

end FuseFileSystem

end Edfs
