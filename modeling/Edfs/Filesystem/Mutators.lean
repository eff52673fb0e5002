import Edfs.Filesystem.FileSystem
import Edfs.Filesystem.Pinning
import Edfs.Reference

/-!
# The mutators

The nine calls that change a file system, as one type, and what each of them can do.

* `Issues`: the moves a call may issue, with what the call has checked before;
* `mutate_cases`: a call fails and changes nothing, or it succeeds with at most one issued
  move, and pins exactly its chunks;
* `mutate_all_or_nothing`, the same as the caller sees it.
-/

namespace Edfs

/-- A call that changes the file system. -/
inductive Mutator
  | createDirectory (parent : NodeId) (name : String)
  | createFile (parent : NodeId) (name : String)
  | createSymlink (parent : NodeId) (name target : String)
  | deleteDirectory (parent : NodeId) (name : String)
  | deleteFile (parent : NodeId) (name : String)
  | rename (parent : NodeId) (name : String) (newParent : NodeId) (newName : String)
  | writeFile (nodeId : NodeId) (data : Bytes)
  | truncateFile (nodeId : NodeId) (size : ℕ)
  | pinChunk (data : Bytes)
  deriving DecidableEq

namespace FileSystem

variable {PeerId : Type} [CrdtTree PeerId] [UuidV5] [Sha256] [FastCdc]

/-- The operations a mutator returns. -/
def Mutation.operations {α : Type} (r : Mutation PeerId α) :
    Except FileSystemError (List (NodeOperation PeerId)) × FileSystem PeerId :=
  (r.1.map TreeMutation.operations, r.2)

/-- Call a mutator at wall-clock time `now`. -/
def mutate (fs : FileSystem PeerId) (now : ℕ) :
    Mutator → Except FileSystemError (List (NodeOperation PeerId)) × FileSystem PeerId
  | .createDirectory parent name => (fs.createDirectory now parent name).operations
  | .createFile parent name => (fs.createFile now parent name).operations
  | .createSymlink parent name target => (fs.createSymlink now parent name target).operations
  | .deleteDirectory parent name => (fs.deleteDirectory now parent name).operations
  | .deleteFile parent name => (fs.deleteFile now parent name).operations
  | .rename parent name newParent newName =>
      (fs.rename now parent name newParent newName).operations
  | .writeFile nodeId data => (fs.writeFile now nodeId data).operations
  | .truncateFile nodeId size => (fs.truncateFile now nodeId size).operations
  | .pinChunk data => ((fs.pinChunk data).1.map fun _ => [], (fs.pinChunk data).2)

/-- The chunks a call pins, if it is one that pins. -/
def pins : Mutator → Option (List Chunk)
  | .writeFile _ data => some (Chunk.split data)
  | .pinChunk data => some [Chunk.new data]
  | _ => none

/-! ### What a mutator has checked -/

/-- The directory a call puts a node in, where its caller names one. -/
def target : Mutator → Option NodeId
  | .createDirectory parent _ => some parent
  | .createFile parent _ => some parent
  | .createSymlink parent _ _ => some parent
  | .rename _ _ newParent _ => some newParent
  | _ => none

omit [Sha256] [FastCdc] in
/-- A move a call may issue: the target it was given, the node, its new parent and its new
metadata. -/
inductive Issues (fs : FileSystem PeerId) : Option NodeId → NodeId → NodeId → NodeMeta → Prop
  | create {parent : NodeId} {m : NodeMeta} (hfree : ∀ c, fs.childId parent m.name ≠ .ok c) :
      Issues fs (some parent) ⟨UuidV5.newV5 parent.uuid m.name⟩ parent m
  | delete {n : NodeId} {m : NodeMeta} (hm : fs.tree.metadata n = some m)
      (hempty : m.isDirectory → fs.tree.children n = .ok []) :
      Issues fs none n NodeId.trash m
  | rename {n newParent : NodeId} {newName : String} {m : NodeMeta}
      (hm : fs.metadata n = .ok m) (hn : fs.tree.metadata n ≠ none)
      (hfree : ∀ c, fs.childId newParent newName = .ok c → c = n) :
      Issues fs (some newParent) n newParent (renamed newName m)
  | replace {n parent : NodeId} {name : String} {size size' : ℕ} {refs refs' : List ChunkRef}
      (hm : fs.metadata n = .ok (.regularFile name size refs))
      (hparent : fs.tree.parentId n = some parent) :
      Issues fs none n parent (.regularFile name size' refs')

omit [Sha256] [FastCdc] in
/-- A name that a call gives a node in a directory its caller names is no other node's there. -/
theorem Issues.taken {fs : FileSystem PeerId} {d n c : NodeId} {m : NodeMeta}
    (h : fs.Issues (some d) n d m) (hc : fs.childId d m.name = .ok c) : c = n := by
  cases h with
  | create hfree => exact absurd hc (hfree c)
  | rename hm hn hfree => exact hfree c (by rwa [renamed_name] at hc)

/-! ### Each function in turn -/

omit [UuidV5] [Sha256] [FastCdc] in
theorem treeMetadata_of_metadata {fs : FileSystem PeerId} {n : NodeId} {m : NodeMeta}
    (h : fs.metadata n = .ok m) (hn : n ≠ NodeId.root) : fs.tree.metadata n = some m := by
  unfold FileSystem.metadata at h
  rw [if_neg hn] at h
  split_ifs at h
  cases hm : fs.tree.metadata n with
  | none => simp [hm] at h
  | some m' => simpa [hm] using h

omit [UuidV5] [Sha256] [FastCdc] in
theorem metadata_root (fs : FileSystem PeerId) :
    fs.metadata NodeId.root = .ok (.directory "") := if_pos rfl

omit [UuidV5] [Sha256] [FastCdc] in
theorem parentId_isSome {t : NodeTree PeerId} {n : NodeId} {m : NodeMeta}
    (h : t.metadata n = some m) : ∃ p, t.parentId n = some p := by
  unfold NodeTree.metadata at h
  unfold NodeTree.parentId
  cases hf : t.find n with
  | none => simp [hf] at h
  | some x => exact ⟨x.parent, rfl⟩

omit [UuidV5] [Sha256] [FastCdc] in
/-- A child found by name is a node of the tree with that name. -/
theorem metadata_of_childId {fs : FileSystem PeerId} {parent c : NodeId} {name : String}
    (h : fs.childId parent name = .ok c) : ∃ m, fs.tree.metadata c = some m ∧ m.name = name := by
  unfold childId at h
  split at h
  · cases h
  · split at h
    · next hfind =>
      cases h
      have := List.find?_some hfind
      cases hm : fs.tree.metadata c with
      | none => simp [hm] at this
      | some m => exact ⟨m, rfl, by simpa [hm] using this⟩
    · cases h

omit [Sha256] [FastCdc] in
theorem createNode_cases (fs : FileSystem PeerId) (now : ℕ) (parent : NodeId) (name : String)
    (m : NodeMeta) :
    fs.createNode now parent name m = (.error .alreadyExists, fs) ∨
      (∀ c, fs.childId parent name ≠ .ok c) ∧
        fs.createNode now parent name m =
          (.ok ⟨⟨⟨UuidV5.newV5 parent.uuid name⟩, m⟩,
              [(fs.tree.issue now ⟨UuidV5.newV5 parent.uuid name⟩ parent m).1]⟩,
            { fs with
              tree := (fs.tree.issue now ⟨UuidV5.newV5 parent.uuid name⟩ parent m).2 }) := by
  unfold createNode
  cases h : fs.childId parent name with
  | ok c => exact Or.inl rfl
  | error e => exact Or.inr ⟨fun c => by simp, rfl⟩

omit [UuidV5] [Sha256] [FastCdc] in
/-- `move_node` cannot fail on a node of the tree. -/
theorem moveNode_eq {t : NodeTree PeerId} {n : NodeId} {m : NodeMeta}
    (h : t.metadata n = some m) (now : ℕ) (parent : NodeId) (m' : NodeMeta) :
    t.moveNode now n parent m' =
      (.ok (t.issue now n parent m').1, (t.issue now n parent m').2) := by
  simp [NodeTree.moveNode, h]

omit [Sha256] [FastCdc] in
/-- The tail of `delete_file` and `delete_directory`. -/
theorem deleteNode_cases {fs : FileSystem PeerId} {n : NodeId} {m : NodeMeta}
    (hm : fs.tree.metadata n = some m) (hempty : m.isDirectory → fs.tree.children n = .ok [])
    (now : ℕ) :
    (∃ e, fs.ofTree (fs.tree.deleteNode now n) = (.error e, fs)) ∨
      ∃ n' m, fs.Issues none n' NodeId.trash m ∧
        fs.ofTree (fs.tree.deleteNode now n) =
          (.ok ⟨(), [(fs.tree.issue now n' NodeId.trash m).1]⟩,
            { fs with tree := (fs.tree.issue now n' NodeId.trash m).2 }) := by
  unfold NodeTree.deleteNode
  cases n.isReserved with
  | true => exact Or.inl ⟨_, rfl⟩
  | false =>
    refine Or.inr ⟨n, m, .delete hm hempty, ?_⟩
    rw [hm]
    rfl

omit [UuidV5] [Sha256] [FastCdc] in
/-- The tail of `write_file` and `truncate_file` cannot fail once the metadata has been read. -/
theorem replaceMeta_eq {fs : FileSystem PeerId} {n parent : NodeId} {m : NodeMeta}
    (hm : fs.tree.metadata n = some m) (hp : fs.tree.parentId n = some parent) (now : ℕ)
    (m' : NodeMeta) :
    fs.replaceMeta now n m' =
      (.ok ⟨(), [(fs.tree.issue now n parent m').1]⟩,
        { fs with tree := (fs.tree.issue now n parent m').2 }) := by
  unfold replaceMeta
  rw [hp]
  dsimp only
  rw [moveNode_eq hm]
  rfl

omit [UuidV5] [Sha256] [FastCdc] in
/-- What the file system shows of a regular file is what the tree stores. -/
theorem exists_parent_of_file {fs : FileSystem PeerId} {n : NodeId} {name : String} {size : ℕ}
    {refs : List ChunkRef} (h : fs.metadata n = .ok (.regularFile name size refs)) :
    fs.tree.metadata n = some (.regularFile name size refs) ∧
      ∃ p, fs.tree.parentId n = some p := by
  have hroot : n ≠ NodeId.root := by
    rintro rfl
    rw [metadata_root] at h
    cases h
  have hm := treeMetadata_of_metadata h hroot
  exact ⟨hm, parentId_isSome hm⟩

omit [UuidV5] in
theorem writeFile_cases (fs : FileSystem PeerId) (now : ℕ) (n : NodeId) (data : Bytes) :
    (∃ e, fs.writeFile now n data = (.error e, fs)) ∨
      ∃ name size refs parent, fs.metadata n = .ok (.regularFile name size refs) ∧
        fs.tree.parentId n = some parent ∧
        (fs.storage.tryPin (Chunk.split data)).1 = .ok () ∧
        ∀ m, m = .regularFile name data.length ((Chunk.split data).map Chunk.reference) →
          fs.writeFile now n data =
            (.ok ⟨(), [(fs.tree.issue now n parent m).1]⟩,
              ⟨(fs.tree.issue now n parent m).2,
                (fs.storage.tryPin (Chunk.split data)).2⟩) := by
  unfold writeFile
  cases hm : fs.metadata n with
  | error e => exact Or.inl ⟨e, rfl⟩
  | ok m =>
    cases m with
    | directory name => exact Or.inl ⟨_, rfl⟩
    | symlink name target => exact Or.inl ⟨_, rfl⟩
    | regularFile name size refs =>
      obtain ⟨htree, parent, hp⟩ := exists_parent_of_file hm
      dsimp only
      rcases htry : fs.storage.tryPin (Chunk.split data) with ⟨⟨e⟩ | ⟨⟨⟩⟩, storage⟩
      · have hsame := ChunkStorage.tryPin_error (e := e) (by rw [htry])
        rw [htry] at hsame
        cases (show storage = fs.storage from hsame)
        exact Or.inl ⟨.ofStorage e, rfl⟩
      · refine Or.inr ⟨name, size, refs, parent, rfl, hp, rfl, ?_⟩
        rintro m rfl
        exact @replaceMeta_eq _ _ ⟨fs.tree, storage⟩ _ _ _ htree hp now _

omit [UuidV5] in
/-- `write_file` cannot fail on a regular file when the store has room. -/
theorem writeFile_eq {fs : FileSystem PeerId} {n parent : NodeId} {name : String} {size : ℕ}
    {refs : List ChunkRef} (hm : fs.metadata n = .ok (.regularFile name size refs))
    (hp : fs.tree.parentId n = some parent) {data : Bytes}
    (htry : (fs.storage.tryPin (Chunk.split data)).1 = .ok ()) (now : ℕ) :
    let m := .regularFile name data.length ((Chunk.split data).map Chunk.reference)
    fs.writeFile now n data =
      (.ok ⟨(), [(fs.tree.issue now n parent m).1]⟩,
        ⟨(fs.tree.issue now n parent m).2, (fs.storage.tryPin (Chunk.split data)).2⟩) := by
  rcases htry' : fs.storage.tryPin (Chunk.split data) with ⟨r, storage⟩
  rw [htry'] at htry
  cases htry
  unfold writeFile
  rw [hm]
  dsimp only
  rw [htry']
  exact @replaceMeta_eq _ _ ⟨fs.tree, storage⟩ _ _ _ (exists_parent_of_file hm).1 hp now _

omit [UuidV5] [Sha256] [FastCdc] in
/-- `truncate_file` cannot fail on a regular file. -/
theorem truncateFile_eq {fs : FileSystem PeerId} {n parent : NodeId} {name : String} {size₀ : ℕ}
    {refs : List ChunkRef} (hm : fs.metadata n = .ok (.regularFile name size₀ refs))
    (hp : fs.tree.parentId n = some parent) (now size : ℕ) {m : NodeMeta}
    (hnew : m = .regularFile name size (Chunk.truncate refs size)) :
    fs.truncateFile now n size =
      (.ok ⟨(), [(fs.tree.issue now n parent m).1]⟩,
        { fs with tree := (fs.tree.issue now n parent m).2 }) := by
  subst hnew
  unfold truncateFile
  rw [hm]
  exact replaceMeta_eq (exists_parent_of_file hm).1 hp now _

omit [UuidV5] [Sha256] [FastCdc] in
theorem truncateFile_cases (fs : FileSystem PeerId) (now : ℕ) (n : NodeId) (size : ℕ) :
    (∃ e, fs.truncateFile now n size = (.error e, fs)) ∨
      ∃ name size₀ refs parent, fs.metadata n = .ok (.regularFile name size₀ refs) ∧
        fs.tree.parentId n = some parent := by
  cases hm : fs.metadata n with
  | error e => exact Or.inl ⟨e, by rw [truncateFile, hm]⟩
  | ok m =>
    cases m with
    | directory name => exact Or.inl ⟨_, by rw [truncateFile, hm]⟩
    | symlink name target => exact Or.inl ⟨_, by rw [truncateFile, hm]⟩
    | regularFile name size₀ refs =>
      obtain ⟨-, parent, hp⟩ := exists_parent_of_file hm
      exact Or.inr ⟨name, size₀, refs, parent, rfl, hp⟩

omit [Sha256] [FastCdc] in
theorem deleteDirectory_cases (fs : FileSystem PeerId) (now : ℕ) (parent : NodeId)
    (name : String) :
    (∃ e, fs.deleteDirectory now parent name = (.error e, fs)) ∨
      ∃ n m, fs.Issues none n NodeId.trash m ∧
        fs.deleteDirectory now parent name =
          (.ok ⟨(), [(fs.tree.issue now n NodeId.trash m).1]⟩,
            { fs with tree := (fs.tree.issue now n NodeId.trash m).2 }) := by
  unfold deleteDirectory
  cases hc : fs.childId parent name with
  | error e => exact Or.inl ⟨e, rfl⟩
  | ok n =>
    obtain ⟨m, hm, -⟩ := metadata_of_childId hc
    dsimp only
    cases hfm : fs.metadata n with
    | error e => exact Or.inl ⟨e, rfl⟩
    | ok m' =>
      cases m' with
      | regularFile name size refs => exact Or.inl ⟨_, rfl⟩
      | symlink name target => exact Or.inl ⟨_, rfl⟩
      | directory name' =>
        cases hch : fs.tree.children n with
        | error e => exact Or.inl ⟨_, rfl⟩
        | ok children =>
          dsimp only
          split_ifs with hne
          · exact Or.inl ⟨_, rfl⟩
          · exact deleteNode_cases hm (fun _ => by rw [hch, not_not.1 hne]) now

omit [Sha256] [FastCdc] in
theorem deleteFile_cases (fs : FileSystem PeerId) (now : ℕ) (parent : NodeId) (name : String) :
    (∃ e, fs.deleteFile now parent name = (.error e, fs)) ∨
      ∃ n m, fs.Issues none n NodeId.trash m ∧
        fs.deleteFile now parent name =
          (.ok ⟨(), [(fs.tree.issue now n NodeId.trash m).1]⟩,
            { fs with tree := (fs.tree.issue now n NodeId.trash m).2 }) := by
  unfold deleteFile
  cases hc : fs.childId parent name with
  | error e => exact Or.inl ⟨e, rfl⟩
  | ok n =>
    dsimp only
    cases hfm : fs.metadata n with
    | error e => exact Or.inl ⟨e, rfl⟩
    | ok m' =>
      cases hdir : m'.isDirectory with
      | true =>
        cases m' with
        | directory name' => exact Or.inl ⟨_, rfl⟩
        | regularFile _ _ _ => cases hdir
        | symlink _ _ => cases hdir
      | false =>
        -- not the root, so the tree stores the metadata that has been checked
        have hroot : n ≠ NodeId.root := by
          rintro rfl
          rw [metadata_root] at hfm
          cases hfm
          cases hdir
        have hdel := deleteNode_cases (treeMetadata_of_metadata hfm hroot)
          (fun h => by simp [hdir] at h) now
        cases m' with
        | directory name' => cases hdir
        | regularFile _ _ _ => exact hdel
        | symlink _ _ => exact hdel

omit [Sha256] [FastCdc] in
theorem rename_cases (fs : FileSystem PeerId) (now : ℕ) (parent : NodeId) (name : String)
    (newParent : NodeId) (newName : String) :
    (∃ e, fs.rename now parent name newParent newName = (.error e, fs)) ∨
      (newParent = parent ∧ newName = name ∧
        fs.rename now parent name newParent newName = (.ok ⟨(), []⟩, fs)) ∨
      ¬ (newParent = parent ∧ newName = name) ∧
        ∃ n m, fs.childId parent name = .ok n ∧ fs.metadata n = .ok m ∧
          fs.Issues (some newParent) n newParent (renamed newName m) ∧
          fs.rename now parent name newParent newName =
            (.ok ⟨(), [(fs.tree.issue now n newParent (renamed newName m)).1]⟩,
              { fs with tree := (fs.tree.issue now n newParent (renamed newName m)).2 }) := by
  unfold rename
  cases hc : fs.childId parent name with
  | error e => exact Or.inl ⟨e, rfl⟩
  | ok n =>
    obtain ⟨m, hm, -⟩ := metadata_of_childId hc
    dsimp only
    split_ifs with htaken hsame
    · exact Or.inl ⟨_, rfl⟩
    · exact Or.inr (Or.inl ⟨hsame.1, hsame.2, rfl⟩)
    · cases hfm : fs.metadata n with
      | error e => exact Or.inl ⟨e, rfl⟩
      | ok m' =>
        refine Or.inr (Or.inr ⟨hsame, n, m', rfl, hfm,
          .rename hfm (by simp [hm]) fun c hcc => ?_, ?_⟩)
        · by_contra hne
          exact htaken (by simp [hcc, hne])
        · dsimp only
          rw [moveNode_eq hm]
          rfl

omit [UuidV5] [FastCdc] in
theorem pinChunk_cases (fs : FileSystem PeerId) (data : Bytes) :
    (∃ e, fs.pinChunk data = (.error e, fs)) ∨
      (fs.storage.tryPin [Chunk.new data]).1 = .ok () ∧
        fs.pinChunk data =
          (.ok (), { fs with storage := (fs.storage.tryPin [Chunk.new data]).2 }) := by
  unfold pinChunk
  rcases htry : fs.storage.tryPin [Chunk.new data] with ⟨⟨e⟩ | ⟨⟨⟩⟩, storage⟩
  · have hsame := ChunkStorage.tryPin_error (e := e) (by rw [htry])
    rw [htry] at hsame
    cases (show storage = fs.storage from hsame)
    exact Or.inl ⟨.ofStorage e, rfl⟩
  · exact Or.inr ⟨rfl, rfl⟩

/-! ### All of them -/

/-- What a successful call leaves: the tree changed by at most one issued move, and the chunks of
the call pinned. -/
structure Done (fs : FileSystem PeerId) (now : ℕ) (c : Mutator)
    (ops : List (NodeOperation PeerId)) (fs' : FileSystem PeerId) : Prop where
  /-- Nothing, or one issued move, which is what the call reports. -/
  tree : (ops = [] ∧ fs'.tree = fs.tree) ∨
    ∃ n parent m, fs.Issues (target c) n parent m ∧ ops = [(fs.tree.issue now n parent m).1] ∧
      fs'.tree = (fs.tree.issue now n parent m).2
  pinned : ∀ cs, pins c = some cs → ChunkStorage.PinsExactly fs.storage cs fs'.storage
  storage : pins c = none → fs'.storage = fs.storage
  /-- A rename of a name onto itself and `pin_chunk` report nothing. -/
  silent : ∀ p n d, c = .rename p n p n ∨ c = .pinChunk d → ops = []

omit [Sha256] [FastCdc] [UuidV5] in
theorem operations_error {α : Type} {r : Mutation PeerId α} {e : FileSystemError}
    {fs : FileSystem PeerId} (h : r = (.error e, fs)) : r.operations = (.error e, fs) := by
  rw [h]; rfl

omit [Sha256] [FastCdc] [UuidV5] in
theorem operations_ok {α : Type} {r : Mutation PeerId α} {x : α}
    {ops : List (NodeOperation PeerId)} {fs : FileSystem PeerId} (h : r = (.ok ⟨x, ops⟩, fs)) :
    r.operations = (.ok ops, fs) := by
  rw [h]; rfl

/-- A call fails and changes nothing, or it succeeds. -/
theorem mutate_cases (fs : FileSystem PeerId) (now : ℕ) (c : Mutator) :
    (∃ e, fs.mutate now c = (.error e, fs)) ∨
      ∃ ops fs', fs.mutate now c = (.ok ops, fs') ∧ fs.Done now c ops fs' := by
  have created : ∀ (c : Mutator) (parent : NodeId) (m : NodeMeta), pins c = none →
      target c = some parent →
      (∀ p n d, ¬ (c = .rename p n p n ∨ c = .pinChunk d)) →
      (∃ e, (fs.createNode now parent m.name m).operations = (.error e, fs)) ∨
        ∃ ops fs', (fs.createNode now parent m.name m).operations = (.ok ops, fs') ∧
          fs.Done now c ops fs' := by
    intro c parent m hpins htarget hc
    rcases createNode_cases fs now parent m.name m with h | ⟨hfree, h⟩
    · exact Or.inl ⟨_, operations_error h⟩
    · exact Or.inr ⟨_, _, operations_ok h,
        .inr ⟨_, _, _, htarget ▸ .create hfree, rfl, rfl⟩,
        fun cs hcs => by simp [hpins] at hcs, fun _ => rfl,
        fun p n d h => absurd h (hc p n d)⟩
  cases c with
  | createDirectory parent name =>
    exact created _ parent (.directory name) rfl rfl (by simp)
  | createFile parent name => exact created _ parent (.regularFile name 0 []) rfl rfl (by simp)
  | createSymlink parent name target =>
    exact created _ parent (.symlink name target) rfl rfl (by simp)
  | deleteDirectory parent name =>
    rcases deleteDirectory_cases fs now parent name with ⟨e, h⟩ | ⟨n, m, hi, h⟩
    · exact Or.inl ⟨e, operations_error h⟩
    · exact Or.inr ⟨_, _, operations_ok h, .inr ⟨_, _, _, hi, rfl, rfl⟩,
        fun cs hcs => by simp [pins] at hcs, fun _ => rfl, by simp⟩
  | deleteFile parent name =>
    rcases deleteFile_cases fs now parent name with ⟨e, h⟩ | ⟨n, m, hi, h⟩
    · exact Or.inl ⟨e, operations_error h⟩
    · exact Or.inr ⟨_, _, operations_ok h, .inr ⟨_, _, _, hi, rfl, rfl⟩,
        fun cs hcs => by simp [pins] at hcs, fun _ => rfl, by simp⟩
  | rename parent name newParent newName =>
    rcases rename_cases fs now parent name newParent newName with
      ⟨e, h⟩ | ⟨hp, hn, h⟩ | ⟨hne, n, m, -, -, hi, h⟩
    · exact Or.inl ⟨e, operations_error h⟩
    · exact Or.inr ⟨_, _, operations_ok h, .inl ⟨rfl, rfl⟩,
        fun cs hcs => by simp [pins] at hcs, fun _ => rfl, fun _ _ _ _ => rfl⟩
    · refine Or.inr ⟨_, _, operations_ok h, .inr ⟨_, _, _, hi, rfl, rfl⟩,
        fun cs hcs => by simp [pins] at hcs, fun _ => rfl, ?_⟩
      rintro p x d (heq | heq)
      · cases heq; exact absurd ⟨rfl, rfl⟩ hne
      · cases heq
  | writeFile n data =>
    rcases writeFile_cases fs now n data with ⟨e, h⟩ | ⟨name, size, refs, parent, hm, hp, htry, h⟩
    · exact Or.inl ⟨e, operations_error h⟩
    · refine Or.inr ⟨_, _, operations_ok (h _ rfl),
        .inr ⟨_, _, _, .replace hm hp, rfl, rfl⟩, ?_,
        fun hnone => by simp [pins] at hnone, by simp⟩
      intro cs hcs
      cases hcs
      exact ChunkStorage.tryPin_ok htry
  | truncateFile n size =>
    rcases truncateFile_cases fs now n size with ⟨e, h⟩ | ⟨name, size₀, refs, parent, hm, hp⟩
    · exact Or.inl ⟨e, operations_error h⟩
    · exact Or.inr ⟨_, _, operations_ok (truncateFile_eq hm hp now size rfl),
        .inr ⟨_, _, _, .replace hm hp, rfl, rfl⟩,
        fun cs hcs => by simp [pins] at hcs, fun _ => rfl, by simp⟩
  | pinChunk data =>
    rcases pinChunk_cases fs data with ⟨e, h⟩ | ⟨htry, h⟩
    · exact Or.inl ⟨e, by simp only [mutate, h]; rfl⟩
    · refine Or.inr ⟨[], (fs.pinChunk data).2, by simp only [mutate, h]; rfl,
        .inl ⟨rfl, by rw [h]⟩, ?_, fun hnone => by simp [pins] at hnone, fun _ _ _ _ => rfl⟩
      intro cs hcs
      cases hcs
      rw [h]
      exact ChunkStorage.tryPin_ok htry

/-- A successful call, as the case that `mutate_cases` gives. -/
theorem done_of_mutate {fs fs' : FileSystem PeerId} {now : ℕ} {c : Mutator}
    {ops : List (NodeOperation PeerId)} (h : fs.mutate now c = (.ok ops, fs')) :
    fs.Done now c ops fs' := by
  rcases mutate_cases fs now c with ⟨e, he⟩ | ⟨ops', fs'', ho, hd⟩
  · cases he.symm.trans h
  · cases ho.symm.trans h
    exact hd

theorem eq_of_mutate_error {fs fs' : FileSystem PeerId} {now : ℕ} {c : Mutator}
    {e : FileSystemError} (h : fs.mutate now c = (.error e, fs')) : fs' = fs := by
  rcases mutate_cases fs now c with ⟨e, he⟩ | ⟨ops', fs'', ho, -⟩
  · cases he.symm.trans h
    rfl
  · cases ho.symm.trans h

/-- **A mutator is all-or-nothing and fully reported**: after an error the file system is as
before; after a success the log has grown by exactly the reported operations, a rename of a name
onto itself and `pin_chunk` report none, and the chunk store has changed only in `write_file` and
`pin_chunk`, which pin exactly the chunks of their data. -/
theorem mutate_all_or_nothing [LinearOrder PeerId] [LawfulCrdtTree PeerId]
    {fs : FileSystem PeerId} {now : ℕ} (hfresh : fs.tree.Fresh now) (c : Mutator) :
    (∀ e fs', fs.mutate now c = (.error e, fs') → fs' = fs) ∧
      ∀ ops fs', fs.mutate now c = (.ok ops, fs') →
        fs'.tree.moves.Perm (ops ++ fs.tree.moves) ∧
        (∀ p n d, c = .rename p n p n ∨ c = .pinChunk d → ops = []) ∧
        (∀ n d, c = .writeFile n d →
          ChunkStorage.PinsExactly fs.storage (Chunk.split d) fs'.storage) ∧
        (∀ d, c = .pinChunk d →
          ChunkStorage.PinsExactly fs.storage [Chunk.new d] fs'.storage) ∧
        ((∀ n d, c ≠ .writeFile n d) → (∀ d, c ≠ .pinChunk d) → fs'.storage = fs.storage) := by
  refine ⟨fun e fs' => eq_of_mutate_error, fun ops fs' h => ?_⟩
  have hd := done_of_mutate h
  refine ⟨?_, hd.silent, ?_, ?_, fun hw hp => hd.storage ?_⟩
  · rcases hd.tree with ⟨rfl, ht⟩ | ⟨n, p, m, -, rfl, ht⟩
    · rw [ht]
      exact .refl _
    · rw [ht]
      exact NodeTree.moves_issue_perm hfresh _ _ _
  · rintro n d rfl
    exact hd.pinned _ rfl
  · rintro d rfl
    exact hd.pinned _ rfl
  · cases c with
    | writeFile n d => exact absurd rfl (hw n d)
    | pinChunk d => exact absurd rfl (hp d)
    | _ => rfl

end FileSystem

namespace FileSystem

open Reference

/-- A file has been created, on a store for two bytes. -/
def tight : FileSystem ℕ :=
  ((FileSystem.new (NodeTree.new 0) (ChunkStorage.new 2)).mutate 1
    (.createFile NodeId.root "a")).2

/-- The id of that file. -/
def tightFile : NodeId := ⟨UuidV5.newV5 Uuid.nil "a"⟩

/-- Two bytes are written, and a third one no longer fits. -/
theorem mutate_all_or_nothing_writeFile :
    ∃ ops fs₁, tight.mutate 2 (.writeFile tightFile [1, 2]) = (.ok ops, fs₁) ∧
      fs₁.tree.moves.Perm (ops ++ tight.tree.moves) ∧ fs₁.tree.moves.length = 2 ∧
      ChunkStorage.PinsExactly tight.storage (Chunk.split [1, 2]) fs₁.storage ∧
      ∃ e fs₂, fs₁.mutate 3 (.writeFile tightFile [3]) = (.error e, fs₂) ∧ fs₂ = fs₁ := by
  obtain ⟨ops, fs₁, hok, hlength, hfresh, e, fs₂, herror⟩ : ∃ ops fs₁,
      tight.mutate 2 (.writeFile tightFile [1, 2]) = (.ok ops, fs₁) ∧
        fs₁.tree.moves.length = 2 ∧ fs₁.tree.Fresh 3 ∧
        ∃ e fs₂, fs₁.mutate 3 (.writeFile tightFile [3]) = (.error e, fs₂) :=
    ⟨_, _, rfl, rfl, by decide, _, _, rfl⟩
  obtain ⟨hperm, -, hpins, -⟩ := (mutate_all_or_nothing (by decide) _).2 _ _ hok
  exact ⟨ops, fs₁, hok, hperm, hlength, hpins _ _ rfl, e, fs₂, herror,
    (mutate_all_or_nothing hfresh _).1 _ _ herror⟩

end FileSystem

end Edfs
