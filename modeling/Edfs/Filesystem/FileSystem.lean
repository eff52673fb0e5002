import Edfs.Filesystem.Chunk
import Edfs.Filesystem.Storage
import Edfs.Filesystem.Tree.NodeTree

/-!
# The file system

`filesystem/mod.rs`: the metadata tree and the chunk store behind one interface. Each mutator
gives its result, with the operations to broadcast, and the state it leaves, also when it fails;
`now` is the wall-clock reading of the timestamp it may issue. Reading goes through
`ChunkStorage.get`, so a read changes the recency order.

`readFile` and `missingChunkHashesFor` have no result where the source's running `u64` offset
overflows.
-/

namespace Edfs

inductive FileSystemError
  | notFound
  | reservedNode
  | storageFull
  | notADirectory
  | isADirectory
  | directoryNotEmpty
  | alreadyExists
  deriving DecidableEq

/-- `From<NodeTreeError>`. -/
def FileSystemError.ofTree : NodeTreeError → FileSystemError
  | .notFound => .notFound
  | .reservedNode => .reservedNode

/-- `From<StorageError>`. -/
def FileSystemError.ofStorage : StorageError → FileSystemError
  | .storageFull => .storageFull

/-- A result together with the operations to broadcast. -/
structure TreeMutation (PeerId α : Type) where
  result : α
  operations : List (NodeOperation PeerId)

structure FileSystemEntry where
  nodeId : NodeId
  metadata : NodeMeta
  deriving DecidableEq

structure FileSystem (PeerId : Type) [CrdtTree PeerId] where
  tree : NodeTree PeerId
  storage : ChunkStorage

namespace FileSystem

variable {PeerId : Type} [CrdtTree PeerId]

/-- What a mutator returns, and the state it leaves. -/
abbrev Mutation (PeerId : Type) [CrdtTree PeerId] (α : Type) :=
  Except FileSystemError (TreeMutation PeerId α) × FileSystem PeerId

def new (tree : NodeTree PeerId) (storage : ChunkStorage) : FileSystem PeerId := ⟨tree, storage⟩

/-! ### Looking up -/

def metadata (fs : FileSystem PeerId) (n : NodeId) : Except FileSystemError NodeMeta :=
  if n = NodeId.root then .ok (.directory "")
  else if fs.tree.isTrashed n then .error .notFound
  else
    match fs.tree.metadata n with
    | some m => .ok m
    | none => .error .notFound

def parentId (fs : FileSystem PeerId) (n : NodeId) : NodeId :=
  (fs.tree.parentId n).getD NodeId.root

def childId (fs : FileSystem PeerId) (parent : NodeId) (name : String) :
    Except FileSystemError NodeId :=
  match fs.tree.children parent with
  | .error e => .error (.ofTree e)
  | .ok children =>
    match children.find? fun c => (fs.tree.metadata c).any fun m => m.name = name with
    | some c => .ok c
    | none => .error .notFound

/-- The entries of a list of children: those whose metadata can be had. -/
def entries (fs : FileSystem PeerId) (children : List NodeId) :
    List (NodeId × String × NodeMeta) :=
  children.filterMap fun c => match fs.metadata c with
    | .ok m => some (c, m.name, m)
    | .error _ => none

def listDirectory (fs : FileSystem PeerId) (n : NodeId) :
    Except FileSystemError (List (NodeId × String × NodeMeta)) :=
  match fs.metadata n with
  | .error e => .error e
  | .ok (.directory _) =>
    match fs.tree.children n with
    | .error e => .error (.ofTree e)
    | .ok children => .ok (fs.entries children)
  | .ok _ => .error .notADirectory

/-! ### Changing the tree -/

/-- Return a tree operation that may fail. -/
def ofTree (fs : FileSystem PeerId)
    (r : Except NodeTreeError (NodeOperation PeerId) × NodeTree PeerId) : Mutation PeerId Unit :=
  match r with
  | (.error e, tree) => (.error (.ofTree e), { fs with tree := tree })
  | (.ok op, tree) => (.ok ⟨(), [op]⟩, { fs with tree := tree })

def createNode [UuidV5] (fs : FileSystem PeerId) (now : ℕ) (parent : NodeId) (name : String)
    (m : NodeMeta) : Mutation PeerId FileSystemEntry :=
  match fs.childId parent name with
  | .ok _ => (.error .alreadyExists, fs)
  | .error _ =>
    let nodeId : NodeId := ⟨UuidV5.newV5 parent.uuid name⟩
    let (op, tree) := fs.tree.createNode now parent nodeId m
    (.ok ⟨⟨nodeId, m⟩, [op]⟩, { fs with tree := tree })

def createDirectory [UuidV5] (fs : FileSystem PeerId) (now : ℕ) (parent : NodeId)
    (name : String) : Mutation PeerId FileSystemEntry :=
  fs.createNode now parent name (.directory name)

def createFile [UuidV5] (fs : FileSystem PeerId) (now : ℕ) (parent : NodeId)
    (name : String) : Mutation PeerId FileSystemEntry :=
  fs.createNode now parent name (.regularFile name 0 [])

def createSymlink [UuidV5] (fs : FileSystem PeerId) (now : ℕ) (parent : NodeId)
    (name target : String) : Mutation PeerId FileSystemEntry :=
  fs.createNode now parent name (.symlink name target)

def deleteDirectory (fs : FileSystem PeerId) (now : ℕ) (parent : NodeId) (name : String) :
    Mutation PeerId Unit :=
  match fs.childId parent name with
  | .error e => (.error e, fs)
  | .ok nodeId =>
    match fs.metadata nodeId with
    | .error e => (.error e, fs)
    | .ok (.directory _) =>
      match fs.tree.children nodeId with
      | .error e => (.error (.ofTree e), fs)
      | .ok children =>
        if children ≠ [] then (.error .directoryNotEmpty, fs)
        else fs.ofTree (fs.tree.deleteNode now nodeId)
    | .ok _ => (.error .notADirectory, fs)

def deleteFile (fs : FileSystem PeerId) (now : ℕ) (parent : NodeId) (name : String) :
    Mutation PeerId Unit :=
  match fs.childId parent name with
  | .error e => (.error e, fs)
  | .ok nodeId =>
    match fs.metadata nodeId with
    | .error e => (.error e, fs)
    | .ok (.directory _) => (.error .isADirectory, fs)
    | .ok _ => fs.ofTree (fs.tree.deleteNode now nodeId)

/-- The metadata `rename` gives a node: the same under a new name. -/
def renamed (newName : String) : NodeMeta → NodeMeta
  | .directory _ => .directory newName
  | .regularFile _ size chunkRefs => .regularFile newName size chunkRefs
  | .symlink _ target => .symlink newName target

@[simp] theorem renamed_name (newName : String) (m : NodeMeta) :
    (renamed newName m).name = newName := by cases m <;> rfl

def rename (fs : FileSystem PeerId) (now : ℕ) (parent : NodeId) (name : String)
    (newParent : NodeId) (newName : String) : Mutation PeerId Unit :=
  match fs.childId parent name with
  | .error e => (.error e, fs)
  | .ok nodeId =>
    let taken : Bool := match fs.childId newParent newName with
      | .ok existing => existing ≠ nodeId
      | .error _ => false
    if taken then (.error .alreadyExists, fs)
    else if newParent = parent ∧ newName = name then (.ok ⟨(), []⟩, fs)
    else
      match fs.metadata nodeId with
      | .error e => (.error e, fs)
      | .ok m => fs.ofTree (fs.tree.moveNode now nodeId newParent (renamed newName m))

/-- The tail of `write_file` and `truncate_file`: give a node new metadata where it is. -/
def replaceMeta (fs : FileSystem PeerId) (now : ℕ) (nodeId : NodeId) (m : NodeMeta) :
    Mutation PeerId Unit :=
  match fs.tree.parentId nodeId with
  | none => (.error .notFound, fs)
  | some parent => fs.ofTree (fs.tree.moveNode now nodeId parent m)

def writeFile [Sha256] [FastCdc] (fs : FileSystem PeerId) (now : ℕ) (nodeId : NodeId)
    (data : Bytes) : Mutation PeerId Unit :=
  match fs.metadata nodeId with
  | .error e => (.error e, fs)
  | .ok (.regularFile name _ _) =>
    let chunks := Chunk.split data
    let chunkRefs := chunks.map Chunk.reference
    match fs.storage.tryPin chunks with
    | (.error e, storage) => (.error (.ofStorage e), { fs with storage := storage })
    | (.ok (), storage) =>
      ({ fs with storage := storage }).replaceMeta now nodeId
        (.regularFile name data.length chunkRefs)
  | .ok _ => (.error .isADirectory, fs)

def truncateFile (fs : FileSystem PeerId) (now : ℕ) (nodeId : NodeId) (size : ℕ) :
    Mutation PeerId Unit :=
  match fs.metadata nodeId with
  | .error e => (.error e, fs)
  | .ok (.regularFile name _ chunkRefs) =>
    fs.replaceMeta now nodeId (.regularFile name size (Chunk.truncate chunkRefs size))
  | .ok _ => (.error .isADirectory, fs)

/-! ### Reading -/

/-- The loop of `read_file`: `chunkStart` is the running offset, `output` what has been read. -/
def readLoop (offset readEnd : ℕ) :
    List ChunkRef → ℕ → Bytes → ChunkStorage → Option (Bytes × ChunkStorage)
  | [], _, output, s => some (output, s)
  | r :: rs, chunkStart, output, s =>
    match checkedAdd chunkStart r.size with
    | none => none
    | some chunkEnd =>
      if chunkEnd ≤ offset then readLoop offset readEnd rs chunkEnd output s
      else if readEnd ≤ chunkStart then some (output, s)
      else
        let (found, s) := s.get r.hash
        let data := found.getD (List.replicate r.size 0)
        let startInChunk := offset - chunkStart
        let endInChunk := min (readEnd - chunkStart) r.size
        let availableEnd := min endInChunk data.length
        let output :=
          if startInChunk < availableEnd then
            output ++ (data.take availableEnd).drop startInChunk
          else output
        readLoop offset readEnd rs chunkEnd output s

def readFile (fs : FileSystem PeerId) (nodeId : NodeId) (offset length : ℕ) :
    Option (Except FileSystemError Bytes × FileSystem PeerId) :=
  match fs.metadata nodeId with
  | .error e => some (.error e, fs)
  | .ok (.regularFile _ size chunkRefs) =>
    let readEnd := min (saturatingAdd offset length) size
    if readEnd ≤ offset then some (.ok [], fs)
    else
      (readLoop offset readEnd chunkRefs 0 [] fs.storage).map fun (output, storage) =>
        (.ok output, { fs with storage := storage })
  | .ok _ => some (.error .isADirectory, fs)

def readFileAll (fs : FileSystem PeerId) (nodeId : NodeId) :
    Option (Except FileSystemError Bytes × FileSystem PeerId) :=
  match fs.metadata nodeId with
  | .error e => some (.error e, fs)
  | .ok (.regularFile _ size _) => fs.readFile nodeId 0 size
  | .ok _ => some (.error .isADirectory, fs)

/-- The loop of `missing_chunk_hashes_for`. -/
def missingLoop (s : ChunkStorage) (offset readEnd : ℕ) :
    List ChunkRef → ℕ → Option (List ChunkHash)
  | [], _ => some []
  | r :: rs, chunkStart =>
    match checkedAdd chunkStart r.size with
    | none => none
    | some chunkEnd =>
      let missing :=
        if chunkStart < readEnd ∧ offset < chunkEnd ∧ s.contains r.hash = false then [r.hash]
        else []
      if readEnd ≤ chunkEnd then some missing
      else (missingLoop s offset readEnd rs chunkEnd).map (missing ++ ·)

def missingChunkHashesFor (fs : FileSystem PeerId) (nodeId : NodeId) (offset length : ℕ) :
    Option (Except FileSystemError (List ChunkHash)) :=
  match fs.metadata nodeId with
  | .error e => some (.error e)
  | .ok (.regularFile _ size chunkRefs) =>
    (missingLoop fs.storage offset (min (saturatingAdd offset length) size) chunkRefs 0).map .ok
  | .ok _ => some (.error .isADirectory)

/-! ### The chunk store -/

def chunk (fs : FileSystem PeerId) (h : ChunkHash) : Option Bytes × FileSystem PeerId :=
  let (data, storage) := fs.storage.get h
  (data, { fs with storage := storage })

def pinChunk [Sha256] (fs : FileSystem PeerId) (data : Bytes) :
    Except FileSystemError Unit × FileSystem PeerId :=
  match fs.storage.tryPin [Chunk.new data] with
  | (.error e, storage) => (.error (.ofStorage e), { fs with storage := storage })
  | (.ok (), storage) => (.ok (), { fs with storage := storage })

def cacheChunk [Sha256] (fs : FileSystem PeerId) (data : Bytes) : FileSystem PeerId :=
  { fs with storage := fs.storage.cache (Chunk.new data) }

def isPinned (fs : FileSystem PeerId) (h : ChunkHash) : Bool := fs.storage.isPinned h

def isCached (fs : FileSystem PeerId) (h : ChunkHash) : Bool := fs.storage.isCached h

/-- `pinned_hashes`, as a set: the source lists a hash map in no particular order. -/
def pinnedHashes (fs : FileSystem PeerId) : Finset ChunkHash :=
  fs.storage.chunks.keys.filter fun h => fs.isPinned h

def promoteToPinned (fs : FileSystem PeerId) (h : ChunkHash) : Bool × FileSystem PeerId :=
  let (ok, storage) := fs.storage.promoteToPinned h
  (ok, { fs with storage := storage })

def evictChunk (fs : FileSystem PeerId) (h : ChunkHash) : Bool × FileSystem PeerId :=
  let (ok, storage) := fs.storage.evict h
  (ok, { fs with storage := storage })

/-! ### Replication -/

/-- The inner loop of `reachable_chunk_hashes`: the children of one node, with the set of visited
nodes, the queue and the hashes found so far. -/
def visitChildren (fs : FileSystem PeerId) :
    List NodeId → Finset NodeId → List NodeId → Finset ChunkHash →
      Finset NodeId × List NodeId × Finset ChunkHash
  | [], visited, queue, reachable => (visited, queue, reachable)
  | child :: rest, visited, queue, reachable =>
    if child = NodeId.trash ∨ child ∈ visited then fs.visitChildren rest visited queue reachable
    else
      match fs.tree.metadata child with
      | some (.regularFile _ _ chunkRefs) =>
        fs.visitChildren rest (insert child visited) queue
          (reachable ∪ (chunkRefs.map ChunkRef.hash).toFinset)
      | some (.directory _) =>
        fs.visitChildren rest (insert child visited) (queue ++ [child]) reachable
      | _ => fs.visitChildren rest (insert child visited) queue reachable

/-- The outer loop, for at most `fuel` queue entries. -/
def reachableLoop (fs : FileSystem PeerId) :
    ℕ → Finset NodeId → List NodeId → Finset ChunkHash → Finset ChunkHash
  | 0, _, _, reachable => reachable
  | _ + 1, _, [], reachable => reachable
  | fuel + 1, visited, nodeId :: queue, reachable =>
    match fs.tree.children nodeId with
    | .error _ => fs.reachableLoop fuel visited queue reachable
    | .ok children =>
      let (visited, queue, reachable) := fs.visitChildren children visited queue reachable
      fs.reachableLoop fuel visited queue reachable

/-- Every node enters the queue at most once, and there is at most one node for each operation of
the log. -/
def reachableChunkHashes (fs : FileSystem PeerId) : Finset ChunkHash :=
  fs.reachableLoop (fs.tree.operationIds.length + 1) {NodeId.root} [NodeId.root] ∅

def applyOperations (fs : FileSystem PeerId) (now : ℕ → ℕ) (ops : List (NodeOperation PeerId)) :
    FileSystem PeerId :=
  { fs with tree := fs.tree.applyOperations now ops }

def operationIds (fs : FileSystem PeerId) : List (NodeOperationId PeerId) := fs.tree.operationIds

def operationsMissingFrom [DecidableEq PeerId] (fs : FileSystem PeerId)
    (ids : List (NodeOperationId PeerId)) : List (NodeOperation PeerId) :=
  fs.tree.operationsMissingFrom ids

end FileSystem

end Edfs
