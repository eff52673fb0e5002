import Edfs.Fuse.Gateway
import Edfs.Fuse.OpenFile

/-!
# The FUSE handlers

`fuse/mod.rs`, `inode.rs` and `attr.rs`. A handler gives its reply and the state it leaves; `fetch`
are the gateway's answers while it runs, and `now` the wall-clock reading of the timestamp it may
issue. What `broadcast` sends does not affect a reply. `read` and `write` have no result where a
running `u64` offset of the read overflows.

* `INodeMap`, whose numbers lead back to the ids they were given for;
* `FuseFileSystem` and its handlers, in the order of the source.
-/

namespace Edfs

def fuseBlockSizeBytes : ℕ := 512

abbrev INodeNo := ℕ

/-- `INodeNo::ROOT`. -/
def INodeNo.root : INodeNo := 1

/-! ### Inode numbers -/

/-- The numbers given out, with what they stand for. -/
structure INodeMap where
  inoToId : INodeNo → Option NodeId
  idToIno : NodeId → Option INodeNo
  nextIno : INodeNo
  /-- The number of an id has been given out, and leads back to it. -/
  consistent : ∀ n ino, idToIno n = some ino → ino < nextIno ∧ inoToId ino = some n

namespace INodeMap

def new : INodeMap where
  inoToId := Function.update (fun _ => none) INodeNo.root (some NodeId.root)
  idToIno := Function.update (fun _ => none) NodeId.root (some INodeNo.root)
  nextIno := INodeNo.root + 1
  consistent n ino h := by
    by_cases hn : n = NodeId.root
    · subst hn
      rw [Function.update_self] at h
      cases h
      exact ⟨Nat.lt_succ_self _, Function.update_self ..⟩
    · rw [Function.update_of_ne hn] at h
      cases h

def getNodeId (m : INodeMap) (ino : INodeNo) : Option NodeId := m.inoToId ino

/-- Give the id the next number. -/
def assign (m : INodeMap) (n : NodeId) (h : m.idToIno n = none) : INodeMap where
  inoToId := Function.update m.inoToId m.nextIno (some n)
  idToIno := Function.update m.idToIno n (some m.nextIno)
  nextIno := m.nextIno + 1
  consistent n' ino h' := by
    by_cases hn : n' = n
    · subst hn
      rw [Function.update_self] at h'
      cases h'
      exact ⟨Nat.lt_succ_self _, Function.update_self ..⟩
    · rw [Function.update_of_ne hn] at h'
      obtain ⟨hlt, hid⟩ := m.consistent n' ino h'
      exact ⟨hlt.trans (Nat.lt_succ_self _), by rwa [Function.update_of_ne hlt.ne]⟩

def getOrAssignIno (m : INodeMap) (n : NodeId) : INodeNo × INodeMap :=
  match h : m.idToIno n with
  | some ino => (ino, m)
  | none => (m.nextIno, m.assign n h)

theorem getNodeId_getOrAssignIno (m : INodeMap) (n : NodeId) :
    (m.getOrAssignIno n).2.getNodeId (m.getOrAssignIno n).1 = some n := by
  unfold getOrAssignIno
  split
  case h_1 ino h => exact (m.consistent n ino h).2
  case h_2 h => exact Function.update_self ..

/-- No number leads to an id before it is given out. -/
def Bounded (m : INodeMap) : Prop := ∀ ino n, m.getNodeId ino = some n → ino < m.nextIno

theorem bounded_new : new.Bounded := by
  intro ino n h
  by_cases hino : ino = INodeNo.root
  · subst hino
    exact Nat.lt_succ_self _
  · have hnone : new.getNodeId ino = none := by
      simp [getNodeId, new, Function.update_of_ne hino]
    rw [hnone] at h
    cases h

/-- Numbers have been given out, and those given out before lead where they did. -/
structure Extends (m m' : INodeMap) : Prop where
  bounded : m.Bounded → m'.Bounded
  kept : m.Bounded → ∀ ino n, m.getNodeId ino = some n → m'.getNodeId ino = some n

theorem Extends.refl (m : INodeMap) : m.Extends m := ⟨id, fun _ _ _ h => h⟩

theorem Extends.trans {m m' m'' : INodeMap} (h : m.Extends m') (h' : m'.Extends m'') :
    m.Extends m'' :=
  ⟨fun hb => h'.bounded (h.bounded hb),
    fun hb ino n hn => h'.kept (h.bounded hb) ino n (h.kept hb ino n hn)⟩

theorem extends_getOrAssignIno (m : INodeMap) (n : NodeId) :
    m.Extends (m.getOrAssignIno n).2 := by
  unfold getOrAssignIno
  split
  case h_1 => exact .refl m
  case h_2 h =>
    constructor
    · intro hb ino x hx
      by_cases hino : ino = m.nextIno
      · exact hino.trans_lt (Nat.lt_succ_self _)
      · have hold : m.getNodeId ino = some x := (Function.update_of_ne hino ..).symm.trans hx
        exact (hb ino x hold).trans (Nat.lt_succ_self _)
    · intro hb ino x hx
      exact (Function.update_of_ne (hb ino x hx).ne ..).trans hx

end INodeMap

/-! ### Attributes -/

inductive FileType
  | directory
  | regularFile
  | symlink
  deriving DecidableEq

/-- The attributes of a node. Times are all `UNIX_EPOCH`. -/
structure FileAttr where
  ino : INodeNo
  size : ℕ
  blocks : ℕ
  kind : FileType
  perm : ℕ
  nlink : ℕ
  uid : ℕ
  gid : ℕ
  rdev : ℕ
  blksize : ℕ
  flags : ℕ
  deriving DecidableEq

def toAttr (m : NodeMeta) (ino : INodeNo) : FileAttr :=
  let (kind, size) := match m with
    | .directory _ => (FileType.directory, fuseBlockSizeBytes)
    | .regularFile _ size _ => (FileType.regularFile, size)
    | .symlink _ target => (FileType.symlink, target.utf8ByteSize)
  { ino := ino
    size := size
    blocks := (size + fuseBlockSizeBytes - 1) / fuseBlockSizeBytes
    kind := kind
    perm := 0o777
    nlink := if kind = .directory then 2 else 1
    uid := 0
    gid := 0
    rdev := 0
    blksize := fuseBlockSizeBytes
    flags := 0 }

/-- The arguments of a `setattr` request; times, modes and flags by their values. -/
structure SetAttr where
  mode : Option ℕ := none
  uid : Option ℕ := none
  gid : Option ℕ := none
  newSize : Option ℕ := none
  atime : Option ℕ := none
  mtime : Option ℕ := none
  ctime : Option ℕ := none
  crtime : Option ℕ := none
  chgtime : Option ℕ := none
  bkuptime : Option ℕ := none
  flags : Option ℕ := none

/-- The request sets something other than the size. -/
def SetAttr.unsupported (a : SetAttr) : Bool :=
  a.mode.isSome || a.uid.isSome || a.gid.isSome || a.atime.isSome || a.mtime.isSome ||
    a.ctime.isSome || a.crtime.isSome || a.chgtime.isSome || a.bkuptime.isSome || a.flags.isSome

/-! ### The handlers -/

structure FuseFileSystem (PeerId : Type) [CrdtTree PeerId] where
  filesystem : FileSystem PeerId
  inodeMap : INodeMap
  openFiles : OpenFileManager
  nextFh : FileHandle

namespace FuseFileSystem

variable {PeerId : Type} [CrdtTree PeerId]

def new (filesystem : FileSystem PeerId) : FuseFileSystem PeerId :=
  ⟨filesystem, .new, .new, 1⟩

/-- What a handler replies, and the state it leaves. -/
abbrev Reply (PeerId : Type) [CrdtTree PeerId] (α : Type) :=
  Except Errno α × FuseFileSystem PeerId

def inoToNodeId (s : FuseFileSystem PeerId) (ino : INodeNo) : Except Errno NodeId :=
  match s.inodeMap.getNodeId ino with
  | some n => .ok n
  | none => .error .enoent

def metadata (s : FuseFileSystem PeerId) (n : NodeId) : Except Errno NodeMeta :=
  (s.filesystem.metadata n).mapError .ofFileSystem

/-- `broadcast`: do a mutation, and send its operations. -/
def broadcast {α : Type} (s : FuseFileSystem PeerId) (r : FileSystem.Mutation PeerId α) :
    Reply PeerId α :=
  (match r.1 with
    | .error e => .error (.ofFileSystem e)
    | .ok m => .ok m.result,
    { s with filesystem := r.2 })

def lookup (s : FuseFileSystem PeerId) (parentIno : INodeNo) (name : String) :
    Reply PeerId FileAttr :=
  match s.inoToNodeId parentIno with
  | .error e => (.error e, s)
  | .ok parent =>
    match s.filesystem.childId parent name with
    | .error e => (.error (.ofFileSystem e), s)
    | .ok n =>
      match s.metadata n with
      | .error e => (.error e, s)
      | .ok m =>
        let (ino, inodeMap) := s.inodeMap.getOrAssignIno n
        (.ok (toAttr m ino), { s with inodeMap := inodeMap })

def getattr (s : FuseFileSystem PeerId) (ino : INodeNo) (fh : Option FileHandle) :
    Except Errno FileAttr :=
  match fh.bind s.openFiles.metadata with
  | some m => .ok (toAttr m ino)
  | none =>
    match s.inoToNodeId ino with
    | .error e => .error e
    | .ok n =>
      match s.metadata n with
      | .error e => .error e
      | .ok m => .ok (toAttr m ino)

/-- The source takes the handle too, and ignores it. -/
def setattr (s : FuseFileSystem PeerId) (now : ℕ) (ino : INodeNo) (a : SetAttr) :
    Reply PeerId FileAttr :=
  if a.unsupported then (.error .enotsup, s)
  else
    match s.inoToNodeId ino with
    | .error e => (.error e, s)
    | .ok n =>
      let (truncated, s) := match a.newSize with
        | some newSize => s.broadcast (s.filesystem.truncateFile now n newSize)
        | none => (.ok (), s)
      match truncated with
      | .error e => (.error e, s)
      | .ok () =>
        match s.metadata n with
        | .error e => (.error e, s)
        | .ok m => (.ok (toAttr m ino), s)

/-- The tail of `mkdir` and `symlink`: make the entry, and give it a number. -/
def makeEntry (s : FuseFileSystem PeerId) (parentIno : INodeNo)
    (make : NodeId → FileSystem.Mutation PeerId FileSystemEntry) : Reply PeerId FileAttr :=
  match s.inoToNodeId parentIno with
  | .error e => (.error e, s)
  | .ok parent =>
    match s.broadcast (make parent) with
    | (.error e, s) => (.error e, s)
    | (.ok entry, s) =>
      let (ino, inodeMap) := s.inodeMap.getOrAssignIno entry.nodeId
      (.ok (toAttr entry.metadata ino), { s with inodeMap := inodeMap })

def mkdir [UuidV5] (s : FuseFileSystem PeerId) (now : ℕ) (parentIno : INodeNo) (name : String) :
    Reply PeerId FileAttr :=
  s.makeEntry parentIno fun parent => s.filesystem.createDirectory now parent name

def rmdir (s : FuseFileSystem PeerId) (now : ℕ) (parentIno : INodeNo) (name : String) :
    Reply PeerId Unit :=
  match s.inoToNodeId parentIno with
  | .error e => (.error e, s)
  | .ok parent => s.broadcast (s.filesystem.deleteDirectory now parent name)

def unlink (s : FuseFileSystem PeerId) (now : ℕ) (parentIno : INodeNo) (name : String) :
    Reply PeerId Unit :=
  match s.inoToNodeId parentIno with
  | .error e => (.error e, s)
  | .ok parent => s.broadcast (s.filesystem.deleteFile now parent name)

def rename (s : FuseFileSystem PeerId) (now : ℕ) (parentIno : INodeNo) (name : String)
    (newParentIno : INodeNo) (newName : String) : Reply PeerId Unit :=
  match s.inoToNodeId parentIno with
  | .error e => (.error e, s)
  | .ok parent =>
    match s.inoToNodeId newParentIno with
    | .error e => (.error e, s)
    | .ok newParent => s.broadcast (s.filesystem.rename now parent name newParent newName)

def create [UuidV5] (s : FuseFileSystem PeerId) (now : ℕ) (parentIno : INodeNo)
    (name : String) : Reply PeerId (FileAttr × FileHandle) :=
  match s.inoToNodeId parentIno with
  | .error e => (.error e, s)
  | .ok parent =>
    match s.broadcast (s.filesystem.createFile now parent name) with
    | (.error e, s) => (.error e, s)
    | (.ok entry, s) =>
      let (ino, inodeMap) := s.inodeMap.getOrAssignIno entry.nodeId
      let fh := s.nextFh
      (.ok (toAttr entry.metadata ino, fh),
        { s with
          inodeMap := inodeMap
          openFiles := s.openFiles.createFile fh entry.metadata
          nextFh := fh + 1 })

def «open» (s : FuseFileSystem PeerId) (ino : INodeNo) : Reply PeerId FileHandle :=
  match s.inoToNodeId ino with
  | .error e => (.error e, s)
  | .ok n =>
    match s.metadata n with
    | .error e => (.error e, s)
    | .ok (.regularFile name size chunkRefs) =>
      (.ok s.nextFh,
        { s with
          openFiles := s.openFiles.openFile s.nextFh (.regularFile name size chunkRefs)
          nextFh := s.nextFh + 1 })
    | .ok (.directory _) => (.error .eisdir, s)
    | .ok (.symlink _ _) => (.error .einval, s)

/-- The source calls `next_fh` although nothing is kept for the handle. -/
def opendir (s : FuseFileSystem PeerId) (ino : INodeNo) : Reply PeerId FileHandle :=
  match s.inoToNodeId ino with
  | .error e => (.error e, s)
  | .ok n =>
    match s.metadata n with
    | .error e => (.error e, s)
    | .ok (.directory _) => (.ok s.nextFh, { s with nextFh := s.nextFh + 1 })
    | .ok _ => (.error .enotdir, s)

structure DirectoryEntry where
  ino : INodeNo
  kind : FileType
  name : String
  deriving DecidableEq

/-- The loop of `readdir`: the listed children get numbers, in order. -/
def numberChildren : List (NodeId × String × NodeMeta) → INodeMap → List DirectoryEntry × INodeMap
  | [], inodeMap => ([], inodeMap)
  | (child, name, m) :: children, inodeMap =>
    let (ino, inodeMap) := inodeMap.getOrAssignIno child
    let (entries, inodeMap) := numberChildren children inodeMap
    (⟨ino, (toAttr m ino).kind, name⟩ :: entries, inodeMap)

/-- The entries from `offset` on, each with the offset after it; the reply has as many of them as
fit in the size the caller gives. -/
def readdir (s : FuseFileSystem PeerId) (ino : INodeNo) (offset : ℕ) :
    Reply PeerId (List (DirectoryEntry × ℕ)) :=
  match s.inoToNodeId ino with
  | .error e => (.error e, s)
  | .ok n =>
    match s.filesystem.listDirectory n with
    | .error e => (.error (.ofFileSystem e), s)
    | .ok children =>
      let (parentIno, inodeMap) := s.inodeMap.getOrAssignIno (s.filesystem.parentId n)
      let (entries, inodeMap) := numberChildren children inodeMap
      let all := ⟨ino, .directory, "."⟩ :: ⟨parentIno, .directory, ".."⟩ :: entries
      (.ok ((all.zipIdx 1).drop offset), { s with inodeMap := inodeMap })

theorem extends_numberChildren (children : List (NodeId × String × NodeMeta))
    (m : INodeMap) : m.Extends (numberChildren children m).2 := by
  induction children generalizing m with
  | nil => exact .refl m
  | cons c children ih => exact (m.extends_getOrAssignIno c.1).trans (ih _)

section Data

variable [Sha256] (fetch : ChunkHash → Option Bytes)

/-- Fetch what a range of a file lacks, and then read: `readStored` is the read. -/
def fetchAndRead (s : FuseFileSystem PeerId) (n : NodeId) (offset length : ℕ)
    (readStored : FileSystem PeerId → Option (Except FileSystemError Bytes × FileSystem PeerId)) :
    Option (Reply PeerId Bytes) :=
  match FileSystem.fetchMissingChunks fetch s.filesystem n offset length with
  | none => none
  | some (.error e, fs) => some (.error (.ofFileSystem e), { s with filesystem := fs })
  | some (.ok false, fs) => some (.error .eio, { s with filesystem := fs })
  | some (.ok true, fs) =>
    match readStored fs with
    | none => none
    | some (.error e, fs) => some (.error (.ofFileSystem e), { s with filesystem := fs })
    | some (.ok data, fs) => some (.ok data, { s with filesystem := fs })

def read (s : FuseFileSystem PeerId) (ino : INodeNo) (fh : FileHandle) (offset size : ℕ) :
    Option (Reply PeerId Bytes) :=
  match s.openFiles.read fh offset size with
  | some data => some (.ok data, s)
  | none =>
    match s.inoToNodeId ino with
    | .error e => some (.error e, s)
    | .ok n => s.fetchAndRead fetch n offset size fun fs => fs.readFile n offset size

/-- The first part of `write`: load the handle's buffer if it has none. -/
def loadBuffer (s : FuseFileSystem PeerId) (ino : INodeNo) (fh : FileHandle) :
    Option (Reply PeerId Unit) :=
  match s.openFiles.needsBuffer fh with
  | .error e => some (.error e, s)
  | .ok false => some (.ok (), s)
  | .ok true =>
    match s.inoToNodeId ino with
    | .error e => some (.error e, s)
    | .ok n =>
      match s.fetchAndRead fetch n 0 u64Max fun fs => fs.readFileAll n with
      | none => none
      | some (.error e, s) => some (.error e, s)
      | some (.ok buffer, s) =>
        some (.ok (), { s with openFiles := s.openFiles.setBuffer fh buffer })

/-- The reply is the number of bytes written, as a `u32`. -/
def write (s : FuseFileSystem PeerId) (ino : INodeNo) (fh : FileHandle) (offset : ℕ)
    (data : Bytes) : Option (Reply PeerId ℕ) :=
  if data = [] then some (.ok 0, s)
  else
    match s.loadBuffer fetch ino fh with
    | none => none
    | some (.error e, s) => some (.error e, s)
    | some (.ok (), s) =>
      let (written, openFiles) := s.openFiles.write fh offset data
      some (written.map (· % 2 ^ 32), { s with openFiles := openFiles })

end Data

def release [Sha256] [FastCdc] (s : FuseFileSystem PeerId) (now : ℕ) (ino : INodeNo)
    (fh : FileHandle) : Reply PeerId Unit :=
  let (buffer, openFiles) := s.openFiles.releaseFile fh
  let s := { s with openFiles := openFiles }
  match buffer with
  | none => (.ok (), s)
  | some buffer =>
    match s.inoToNodeId ino with
    | .error e => (.error e, s)
    | .ok n =>
      match s.metadata n with
      | .error _ => (.ok (), s)
      | .ok _ => s.broadcast (s.filesystem.writeFile now n buffer)

def readlink (s : FuseFileSystem PeerId) (ino : INodeNo) : Except Errno String :=
  match s.inoToNodeId ino with
  | .error e => .error e
  | .ok n =>
    match s.metadata n with
    | .error e => .error e
    | .ok (.symlink _ target) => .ok target
    | .ok _ => .error .einval

def symlink [UuidV5] (s : FuseFileSystem PeerId) (now : ℕ) (parentIno : INodeNo)
    (linkName target : String) : Reply PeerId FileAttr :=
  s.makeEntry parentIno fun parent => s.filesystem.createSymlink now parent linkName target

end FuseFileSystem

end Edfs
