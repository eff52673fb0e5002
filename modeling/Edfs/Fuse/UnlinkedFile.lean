import Edfs.Filesystem.Moving
import Edfs.Fuse.Handle
import Edfs.Fuse.Requests

/-!
# Handles of unlinked files

A handle knows its file by an inode number, the number stands for a node id, and the id is derived
from the parent and the name. A file that has been unlinked keeps its id in the trash; a file that
is created again under the same parent and name has the same id, and an old handle writes to it.

* `NoFile`: an id that is no regular file's; kept by every mutator but a create that derives it;
* `AfterUnlink`: the states right after a file with a handle has been unlinked;
* `WritesNothing`: a release has nothing to write to a file, or writes what the file has;
* `unlinked_handle_iff`: later requests on the handle leave all entries alone if and only if its
  releases write nothing, as they do when no file is created again.
-/

namespace Edfs.FileSystem

variable {PeerId : Type} [CrdtTree PeerId]

/-- The id is not that of a regular file, other than one in the trash. -/
def NoFile (fs : FileSystem PeerId) (n : NodeId) : Prop :=
  ∀ name size refs, fs.metadata n ≠ .ok (.regularFile name size refs)

/-- The metadata of every node, and the content of every file, are as before. -/
structure EntriesKept (fs fs' : FileSystem PeerId) : Prop where
  metadata : ∀ n, fs'.metadata n = fs.metadata n
  content : ∀ n t, fs.HasContent n t → fs'.HasContent n t

theorem EntriesKept.refl (fs : FileSystem PeerId) : EntriesKept fs fs :=
  ⟨fun _ => rfl, fun _ _ h => h⟩

/-- With the same metadata and all pinned chunks the entries are the same. -/
theorem entriesKept_of_pinned {fs fs' : FileSystem PeerId}
    (hmeta : ∀ n, fs'.metadata n = fs.metadata n)
    (hpinned : ∀ x d, fs.storage.entry x = some ⟨d, true⟩ →
      fs'.storage.entry x = some ⟨d, true⟩) : EntriesKept fs fs' := by
  refine ⟨hmeta, fun n t h => ?_⟩
  obtain ⟨name, refs, hm, hholds, hpin⟩ := h
  have hentry : ∀ r ∈ refs, fs'.storage.entry r.hash = fs.storage.entry r.hash := by
    intro r hr
    obtain ⟨d, hd⟩ := ChunkStorage.isPinned_iff.1 (hpin r hr)
    rw [hd, hpinned _ d hd]
  refine ⟨name, refs, (hmeta n).trans hm, hholds.frame hentry, fun r hr => ?_⟩
  obtain ⟨d, hd⟩ := ChunkStorage.isPinned_iff.1 (hpin r hr)
  exact ChunkStorage.isPinned_iff.2 ⟨d, hpinned _ d hd⟩

variable [UuidV5]

/-- The call is a `create_file` that derives the id. -/
def Creates (n : NodeId) (c : Mutator) : Prop :=
  ∃ parent name, c = .createFile parent name ∧ (⟨UuidV5.newV5 parent.uuid name⟩ : NodeId) = n

variable [LinearOrder PeerId] [LawfulCrdtTree PeerId] {fs fs' : FileSystem PeerId} {n : NodeId}

omit [UuidV5] in
/-- A move makes a regular file of an id only if it moves that id to a live place as one. -/
theorem NoFile.issue (h : fs.NoFile n) {now : ℕ} (hnow : fs.tree.Newest now) {c p : NodeId}
    {m : NodeMeta} (hfs' : fs'.tree = (fs.tree.issue now c p m).2)
    (hmove : c = n → p = NodeId.trash ∨ ∀ name size refs, m ≠ .regularFile name size refs) :
    fs'.NoFile n := by
  intro name size refs hfile
  by_cases hc : c = n
  · subst hc
    rcases find_issue hnow c p m with ⟨hf, -⟩ | ⟨hf, -⟩
    · refine h name size refs ((metadata_congr ?_).trans hfile)
      rw [hfs', hf]
    · have hfind : fs'.tree.find c = some ⟨p, m⟩ := by rw [hfs', hf, Function.update_self]
      obtain ⟨q, hq⟩ := treeMetadata_eq_some.1 (exists_parent_of_file hfile).1
      cases hfind.symm.trans hq
      have hroot : c ≠ NodeId.root := by
        rintro rfl
        rw [metadata_root] at hfile
        cases hfile
      rcases hmove rfl with rfl | hkind
      · exact ne_trash_of_metadata hfile hroot hfind rfl
      · exact hkind name size refs rfl
  · rw [metadata_issue_of_ne hnow hc hfs'] at hfile
    exact h name size refs hfile

variable [Sha256] [FastCdc]

/-- **Only a create makes a regular file of an id.** -/
theorem NoFile.mutate (h : fs.NoFile n) {now : ℕ} (hnow : fs.tree.Newest now) {c : Mutator}
    (hc : ¬ Creates n c) : (fs.mutate now c).2.NoFile n := by
  have hcreate : ∀ parent name m, (∀ name' size refs, m ≠ .regularFile name' size refs) ∨
      (⟨UuidV5.newV5 parent.uuid name⟩ : NodeId) ≠ n →
      (fs.createNode now parent name m).2.NoFile n := by
    intro parent name m hm
    rcases createNode_cases fs now parent name m with he | ⟨-, he⟩
    · rwa [he]
    · rw [he]
      refine h.issue hnow rfl fun hid => Or.inr ?_
      exact hm.resolve_right fun hne => hne hid
  cases c with
  | createDirectory parent name => exact hcreate parent name _ (Or.inl fun _ _ _ => by simp)
  | createFile parent name =>
    exact hcreate parent name _ (Or.inr fun hid => hc ⟨parent, name, rfl, hid⟩)
  | createSymlink parent name target => exact hcreate parent name _ (Or.inl fun _ _ _ => by simp)
  | deleteDirectory parent name =>
    rcases deleteDirectory_cases fs now parent name with ⟨e, he⟩ | ⟨c, m, -, he⟩
    · simpa [FileSystem.mutate, Mutation.operations, he] using h
    · simp only [FileSystem.mutate, Mutation.operations, he]
      exact h.issue hnow rfl fun _ => Or.inl rfl
  | deleteFile parent name =>
    rcases deleteFile_cases fs now parent name with ⟨e, he⟩ | ⟨c, m, -, he⟩
    · simpa [FileSystem.mutate, Mutation.operations, he] using h
    · simp only [FileSystem.mutate, Mutation.operations, he]
      exact h.issue hnow rfl fun _ => Or.inl rfl
  | rename parent name newParent newName =>
    rcases rename_cases fs now parent name newParent newName with
      ⟨e, he⟩ | ⟨-, -, he⟩ | ⟨-, c, m, -, hm, -, he⟩
    · simpa [FileSystem.mutate, Mutation.operations, he] using h
    · simpa [FileSystem.mutate, Mutation.operations, he] using h
    · simp only [FileSystem.mutate, Mutation.operations, he]
      refine h.issue hnow rfl fun hid => Or.inr fun name' size refs heq => ?_
      subst hid
      -- what has been renamed to a file was one
      cases m with
      | regularFile name₀ size₀ refs₀ => exact h _ _ _ hm
      | _ => cases heq
  | writeFile c data =>
    rcases writeFile_cases fs now c data with ⟨e, he⟩ | ⟨name, size, refs, p, hm, -, -, he⟩
    · simpa [FileSystem.mutate, Mutation.operations, he] using h
    · simp only [FileSystem.mutate, Mutation.operations, he _ rfl]
      refine h.issue hnow rfl fun hid => ?_
      subst hid
      exact absurd hm (h name size refs)
  | truncateFile c size =>
    rcases truncateFile_cases fs now c size with ⟨e, he⟩ | ⟨name, size₀, refs, p, hm, hp⟩
    · simpa [FileSystem.mutate, Mutation.operations, he] using h
    · simp only [FileSystem.mutate, Mutation.operations, truncateFile_eq hm hp now size rfl]
      refine h.issue hnow rfl fun hid => ?_
      subst hid
      exact absurd hm (h name size₀ refs)
  | pinChunk data =>
    refine fun name size refs hfile => h name size refs ((metadata_congr ?_).trans hfile)
    show fs.tree.find n = (fs.pinChunk data).2.tree.find n
    unfold pinChunk
    split <;> rfl

omit [UuidV5] [Sha256] [FastCdc] in
/-- After a successful `delete_file` the id is no file's. -/
theorem noFile_deleteFile (h : fs.Rooted) {now : ℕ} (hnow : fs.tree.Newest now)
    {parent : NodeId} {name : String} {ops : TreeMutation PeerId Unit}
    (hn : fs.childId parent name = .ok n)
    (hdelete : fs.deleteFile now parent name = (.ok ops, fs')) : fs'.NoFile n := by
  obtain ⟨⟨⟩, ops⟩ := ops
  obtain ⟨n', hdel⟩ := deleteFile_ok hdelete
  cases hn.symm.trans hdel.resolved
  intro name' size refs hfile
  rw [hdel.trashed h hnow] at hfile
  cases hfile

end Edfs.FileSystem

namespace Edfs.FuseFileSystem

open Execution FileSystem

variable {PeerId : Type} [CrdtTree PeerId] [LinearOrder PeerId] [UuidV5] [Sha256] [FastCdc]

/-- An event of a local run, a request or a call on the chunk store; a timestamp that it issues is
newer than the log. -/
def StepLocal : FuseEvent PeerId → FuseFileSystem PeerId → Prop
  | .request r, s => ∀ x ∈ s.mutation r, s.filesystem.tree.Newest x.1
  | .call e, _ => e.2.keepsTree = true

instance (e : FuseEvent PeerId) (s : FuseFileSystem PeerId) : Decidable (StepLocal e s) :=
  match e with
  | .request r => inferInstanceAs (Decidable (∀ x ∈ s.mutation r, s.filesystem.tree.Newest x.1))
  | .call e => inferInstanceAs (Decidable (e.2.keepsTree = true))

/-- The request gives out a handle of a regular file: the inode, the handle and the node. -/
inductive Opens (s : FuseFileSystem PeerId) :
    FuseRequest → INodeNo → FileHandle → NodeId → Prop
  | create {s' : FuseFileSystem PeerId} {now : ℕ} {parentIno : INodeNo} {parent : NodeId}
      {name : String} {attr : FileAttr} {fh : FileHandle}
      (hparent : s.inodeMap.getNodeId parentIno = some parent)
      (h : s.create now parentIno name = (.ok (attr, fh), s')) :
      Opens s (.create now parentIno name) attr.ino fh ⟨UuidV5.newV5 parent.uuid name⟩
  | «open» {s' : FuseFileSystem PeerId} {ino : INodeNo} {fh : FileHandle} {n : NodeId}
      (hino : s.inodeMap.getNodeId ino = some n) (h : s.open ino = (.ok fh, s')) :
      Opens s (.open ino) ino fh n

/-- The request unlinks the node. -/
inductive Unlinks (s : FuseFileSystem PeerId) : FuseRequest → NodeId → Prop
  | unlink {s' : FuseFileSystem PeerId} {now : ℕ} {parentIno : INodeNo} {parent : NodeId}
      {name : String} {n : NodeId} (hparent : s.inodeMap.getNodeId parentIno = some parent)
      (hn : s.filesystem.childId parent name = .ok n)
      (h : s.unlink now parentIno name = (.ok (), s')) : Unlinks s (.unlink now parentIno name) n

/-- A state of a local run right after the file of a handle has been unlinked. -/
inductive AfterUnlink : INodeNo → FileHandle → NodeId → FuseFileSystem PeerId → Prop
  | intro {p : PeerId} {maxPinnedBytes : ℕ} {before middle : List (FuseEvent PeerId)}
      {r u : FuseRequest} {s₁ s₂ s₃ s : FuseFileSystem PeerId} {ino : INodeNo} {fh : FileHandle}
      {n : NodeId} (hbefore : run fuseStep before (.new (init p maxPinnedBytes)) = some s₁)
      (hopens : Opens s₁ r ino fh n) (hr : fuseStep (.request r) s₁ = some s₂)
      (hmiddle : run fuseStep middle s₂ = some s₃) (hunlinks : Unlinks s₃ u n)
      (hu : fuseStep (.request u) s₃ = some s)
      (hlocal : Meets fuseStep StepLocal (before ++ .request r :: (middle ++ [.request u]))
        (.new (init p maxPinnedBytes))) : AfterUnlink ino fh n s

/-- A release of the handle writes to no file, or what the file has already: the handle is clean,
or its node is no regular file's, or the store has no room for what has been written, or the file
has just this content. -/
def WritesNothing (s : FuseFileSystem PeerId) (fh : FileHandle) (n : NodeId) : Prop :=
  ∀ b, (s.openFiles.releaseFile fh).1 = some b →
    ∀ name size refs, s.filesystem.metadata n = .ok (.regularFile name size refs) →
      (s.filesystem.storage.tryPin (Chunk.split b)).1 = .ok () →
        size = b.length ∧ refs = (Chunk.split b).map Chunk.reference

/-- The event does not create a file with the id. -/
def StepNotCreated (n : NodeId) : FuseEvent PeerId → FuseFileSystem PeerId → Prop
  | .request r, s => ∀ x ∈ s.mutation r, ¬ Creates n x.2
  | .call _, _ => True

variable {s s' t : FuseFileSystem PeerId} {ino : INodeNo} {fh : FileHandle} {n : NodeId}

/-! ### Local runs -/

variable [LawfulCrdtTree PeerId]

omit [LinearOrder PeerId] [LawfulCrdtTree PeerId] in
/-- What an event of a local run does to the tree: nothing, or a mutation. -/
theorem filesystem_step {e : FuseEvent PeerId}
    (hkeep : ∀ c, e = .call c → c.2.keepsTree = true) (h : fuseStep e s = some s') :
    s'.filesystem.tree = s.filesystem.tree ∨
      ∃ r now c, e = .request r ∧ s.mutation r = some (now, c) ∧
        s'.filesystem = (s.filesystem.mutate now c).2 := by
  cases e with
  | request r =>
    have hfs := (serve_spec h).filesystem
    split at hfs
    · exact Or.inl hfs.tree
    · next now c hr => exact Or.inr ⟨r, now, c, rfl, hr, hfs⟩
  | call e =>
    obtain ⟨fs, hfs, rfl⟩ := Option.map_eq_some_iff.1 h
    exact Or.inl (tree_of_keepsTree (hkeep e rfl) hfs)

omit [UuidV5] [Sha256] [FastCdc] [LawfulCrdtTree PeerId] in
theorem StepLocal.keepsTree {e : FuseEvent PeerId} (h : StepLocal e s) (c : Event PeerId)
    (hc : e = .call c) : c.2.keepsTree = true := by
  subst hc
  exact h

theorem rooted_fuseStep [LawfulUuidV5] {e : FuseEvent PeerId} (hlocal : StepLocal e s)
    (hs : s.filesystem.Rooted) (h : fuseStep e s = some s') : s'.filesystem.Rooted := by
  rcases filesystem_step hlocal.keepsTree h with ht | ⟨r, now, c, rfl, hr, hfs⟩
  · constructor
    · rw [ht]
      exact hs.sound
    · rw [ht]
      exact hs.root
    · rw [ht]
      exact hs.trash
  · rw [hfs]
    have hnow : s.filesystem.tree.Newest now := hlocal (now, c) hr
    exact rooted_step (l := (now, c)) hnow hs rfl

theorem noFile_fuseStep {e : FuseEvent PeerId} (hlocal : StepLocal e s)
    (hnot : StepNotCreated n e s) (hs : s.filesystem.NoFile n) (h : fuseStep e s = some s') :
    s'.filesystem.NoFile n := by
  rcases filesystem_step hlocal.keepsTree h with ht | ⟨r, now, c, rfl, hr, hfs⟩
  · exact fun name size refs hfile =>
      hs name size refs ((metadata_congr (by rw [ht])).trans hfile)
  · rw [hfs]
    exact hs.mutate (hlocal (now, c) hr) (hnot (now, c) hr)

omit [LinearOrder PeerId] [LawfulCrdtTree PeerId] in
/-- The inode of a new handle leads to its node. -/
theorem Opens.getNodeId {r : FuseRequest} (h : Opens s r ino fh n)
    (hstep : fuseStep (.request r) s = some s') : s'.inodeMap.getNodeId ino = some n := by
  cases h with
  | @create s'' now parentIno parent name attr fh hparent hcreate =>
    have hs' : s' = s'' := by
      have h2 : (s.create now parentIno name).2 = s' := Option.some.inj hstep
      rw [← h2, hcreate]
    subst hs'
    unfold FuseFileSystem.create at hcreate
    rw [inoToNodeId_of_some hparent] at hcreate
    dsimp only at hcreate
    rcases createNode_cases s.filesystem now parent name (.regularFile name 0 []) with he | ⟨-, he⟩
    · rw [createFile, he] at hcreate
      cases (Prod.mk.inj hcreate).1
    · rw [createFile, he] at hcreate
      obtain ⟨hattr, rfl⟩ := Prod.mk.inj hcreate
      cases hattr
      exact INodeMap.getNodeId_getOrAssignIno _ _
  | @«open» s'' ino fh n hino hopen =>
    -- an open changes no inode number
    have hs' : s'.inodeMap = s.inodeMap := by
      have h2 : (s.open ino).2 = s' := Option.some.inj hstep
      rw [← h2]
      unfold FuseFileSystem.open
      split
      · rfl
      · split <;> rfl
    rw [hs']
    exact hino

/-- What every local run keeps. -/
structure LocalInv (s : FuseFileSystem PeerId) : Prop where
  rooted : s.filesystem.Rooted
  inv : s.filesystem.Inv
  bounded : s.inodeMap.Bounded

omit [UuidV5] [FastCdc] in
theorem localInv_new (p : PeerId) (maxPinnedBytes : ℕ) :
    LocalInv (.new (init p maxPinnedBytes)) :=
  ⟨rooted_new p _, inv_init p maxPinnedBytes, INodeMap.bounded_new⟩

theorem LocalInv.step [LawfulUuidV5] {e : FuseEvent PeerId} (hlocal : StepLocal e s)
    (h : LocalInv s) (hstep : fuseStep e s = some s') : LocalInv s' where
  rooted := rooted_fuseStep hlocal h.rooted hstep
  inv := inv_fuseStep h.inv hstep
  bounded := (inodeMap_step hstep).bounded h.bounded

theorem LocalInv.run [LawfulUuidV5] {events : List (FuseEvent PeerId)} (h : LocalInv s)
    (hlocal : Meets fuseStep StepLocal events s) (hrun : run fuseStep events s = some t) :
    LocalInv t :=
  run_invariant_of_meets (fun _ _ _ hC hI => hI.step hC) h hlocal hrun

/-- **Right after the unlink the handle's inode stands for a node that is no file.** -/
theorem AfterUnlink.noFile [LawfulUuidV5] (h : AfterUnlink ino fh n s) :
    LocalInv s ∧ s.inodeMap.getNodeId ino = some n ∧ s.filesystem.NoFile n := by
  obtain @⟨p, maxPinnedBytes, before, middle, r, u, s₁, s₂, s₃, s, ino, fh, n, hbefore, hopens, hr,
    hmiddle, hunlinks, hu, hlocal⟩ := h
  obtain ⟨hlocal₁, hrest⟩ := meets_append.1 hlocal
  obtain ⟨hlocal₂, hrest⟩ := hrest s₁ hbefore
  obtain ⟨hlocal₃, hrest⟩ := meets_append.1 (hrest s₂ hr)
  have hlocal₄ : StepLocal (.request u) s₃ := (hrest s₃ hmiddle).1
  have hinv₂ := ((localInv_new p maxPinnedBytes).run hlocal₁ hbefore).step hlocal₂ hr
  have hinv₃ := hinv₂.run hlocal₃ hmiddle
  have hino₃ := (inodeMap_run hmiddle).kept hinv₂.bounded ino n (hopens.getNodeId hr)
  refine ⟨hinv₃.step hlocal₄ hu, (inodeMap_step hu).kept hinv₃.bounded ino n hino₃, ?_⟩
  obtain @⟨s', now, parentIno, parent, name, n, hparent, hn, hunlink⟩ := hunlinks
  have hnow : s₃.filesystem.tree.Newest now :=
    hlocal₄ (now, .deleteFile parent name) (by simp [mutation, hparent])
  have hs : (s₃.unlink now parentIno name).2 = s := Option.some.inj hu
  rw [← hs]
  unfold FuseFileSystem.unlink at hunlink ⊢
  rw [inoToNodeId_of_some hparent] at hunlink ⊢
  rcases hdelete : s₃.filesystem.deleteFile now parent name with ⟨⟨e⟩ | ⟨ops⟩, fs⟩
  · simp [broadcast, hdelete] at hunlink
  · show (s₃.filesystem.deleteFile now parent name).2.NoFile n
    rw [hdelete]
    exact noFile_deleteFile hinv₃.rooted hnow hn hdelete

/-! ### Requests on the old handle -/

omit [LinearOrder PeerId] [LawfulCrdtTree PeerId] [UuidV5] [Sha256] [FastCdc] in
/-- A release can only write back what its handle has. -/
theorem mutation_release (hino : t.inodeMap.getNodeId ino = some n) {now now' : ℕ} {c : Mutator}
    (h : t.mutation (.release now ino fh) = some (now', c)) :
    ∃ b, (t.openFiles.releaseFile fh).1 = some b ∧ now = now' ∧ c = .writeFile n b := by
  cases hb : (t.openFiles.releaseFile fh).1 with
  | none => simp [mutation, hb] at h
  | some b =>
    cases hm : t.filesystem.metadata n with
    | error e => simp [mutation, hb, hino, hm] at h
    | ok m =>
      simp only [mutation, hb, hino, hm, Option.bind_eq_bind, Option.bind_some,
        Option.some.injEq, Prod.mk.injEq] at h
      exact ⟨b, rfl, h.1, h.2.symm⟩

omit [LinearOrder PeerId] [LawfulCrdtTree PeerId] [UuidV5] [FastCdc] in
/-- Without a file behind the inode nothing can be fetched for a read. -/
theorem fetchAndRead_of_noFile (hfile : t.filesystem.NoFile n)
    (fetch : ChunkHash → Option Bytes) (offset length : ℕ)
    (readStored : FileSystem PeerId → Option (Except FileSystemError Bytes × FileSystem PeerId)) :
    ∃ e, t.fetchAndRead fetch n offset length readStored = some (.error e, t) := by
  have hfetch : ∃ e, fetchMissingChunks fetch t.filesystem n offset length
      = some (.error e, t.filesystem) := by
    unfold fetchMissingChunks missingChunkHashesFor
    cases hm : t.filesystem.metadata n with
    | error e => exact ⟨e, rfl⟩
    | ok m =>
      cases m with
      | regularFile name size refs => exact absurd hm (hfile name size refs)
      | _ => exact ⟨_, rfl⟩
  obtain ⟨e, he⟩ := hfetch
  exact ⟨.ofFileSystem e, by simp only [fetchAndRead, he]⟩

omit [LinearOrder PeerId] [LawfulCrdtTree PeerId] [UuidV5] [FastCdc] in
/-- Then a write leaves the file system alone. -/
theorem write_of_noFile (hino : t.inodeMap.getNodeId ino = some n)
    (hfile : t.filesystem.NoFile n) {fetch : ChunkHash → Option Bytes} {offset : ℕ} {data : Bytes}
    {reply : Except Errno ℕ} (h : t.write fetch ino fh offset data = some (reply, s')) :
    s'.filesystem = t.filesystem := by
  unfold FuseFileSystem.write loadBuffer at h
  rw [inoToNodeId_of_some hino] at h
  obtain ⟨e, he⟩ := fetchAndRead_of_noFile hfile fetch 0 u64Max fun fs => fs.readFileAll n
  split_ifs at h with hempty
  · cases h
    rfl
  · rcases hneeds : t.openFiles.needsBuffer fh with e' | ⟨⟨⟩ | ⟨⟩⟩
    · simp only [hneeds] at h
      cases h
      rfl
    · simp only [hneeds] at h
      cases h
      rfl
    · simp only [hneeds, he] at h
      cases h
      rfl

omit [LinearOrder PeerId] [LawfulCrdtTree PeerId] in
/-- And so does a release. -/
theorem release_of_noFile (hino : t.inodeMap.getNodeId ino = some n)
    (hfile : t.filesystem.NoFile n) (now : ℕ) :
    (t.release now ino fh).2.filesystem = t.filesystem := by
  rw [release_state]
  dsimp only
  split
  · rfl
  · next now' c hc =>
    obtain ⟨b, hb, rfl, rfl⟩ := mutation_release hino hc
    rcases writeFile_cases t.filesystem now n b with ⟨e, he⟩ | ⟨name, size, refs, p, hm, -⟩
    · simp [mutate, Mutation.operations, he]
    · exact absurd hm (hfile name size refs)

/-- A write through any handle keeps all entries. -/
theorem write_keeps (hinv : t.filesystem.Inv) {fetch : ChunkHash → Option Bytes} {offset : ℕ}
    {data : Bytes} (h : serve (.write fetch ino fh offset data) t = some s') :
    EntriesKept t.filesystem s'.filesystem := by
  have hreads : OnlyReads t.filesystem s'.filesystem := (serve_spec h).filesystem
  exact entriesKept_of_pinned hreads.metadata fun x d => hreads.entry hinv

/-- A release keeps all entries if and only if it writes nothing. -/
theorem release_keeps_iff (hinv : t.filesystem.Inv) (hino : t.inodeMap.getNodeId ino = some n)
    {now : ℕ} (hnow : t.filesystem.tree.Newest now) :
    EntriesKept t.filesystem (t.release now ino fh).2.filesystem ↔ t.WritesNothing fh n := by
  by_cases hwrites : ∃ b name size refs, (t.openFiles.releaseFile fh).1 = some b ∧
      t.filesystem.metadata n = .ok (.regularFile name size refs) ∧
      (t.filesystem.storage.tryPin (Chunk.split b)).1 = .ok ()
  · obtain ⟨b, name, size, refs, hb, hm, htry⟩ := hwrites
    have hmut : t.mutation (.release now ino fh) = some (now, .writeFile n b) := by
      simp [mutation, hb, hino, hm]
    obtain ⟨-, parent, hp⟩ := exists_parent_of_file hm
    have hwrite := writeFile_eq hm hp htry now
    have hfs : (t.release now ino fh).2.filesystem = (t.filesystem.writeFile now n b).2 := by
      rw [release_state, hmut]
      rfl
    rw [hfs, hwrite]
    constructor
    · intro hkept b' hb' name' size' refs' hm' _
      cases hb.symm.trans hb'
      have hnew := hkept.metadata n
      rw [metadata_replace hinv.sound hnow hm hp _ rfl, hm'] at hnew
      cases hnew
      exact ⟨rfl, rfl⟩
    · intro hnothing
      obtain ⟨rfl, rfl⟩ := hnothing b hb name size refs hm htry
      refine entriesKept_of_pinned (fun c => ?_) fun x d hx => ?_
      · by_cases hc : n = c
        · subst hc
          rw [metadata_replace hinv.sound hnow hm hp _ rfl, hm]
        · exact metadata_issue_of_ne hnow hc rfl
      · exact (ChunkStorage.tryPin_ok htry).kept x _ hx
  · have hfs : (t.release now ino fh).2.filesystem = t.filesystem := by
      rw [release_state]
      dsimp only
      split
      · rfl
      · next now' c hc =>
        obtain ⟨b, hb, rfl, rfl⟩ := mutation_release hino hc
        rcases writeFile_cases t.filesystem now n b with
          ⟨e, he⟩ | ⟨name, size, refs, p, hm, -, htry, -⟩
        · simp [mutate, Mutation.operations, he]
        · exact absurd ⟨b, name, size, refs, hb, hm, htry⟩ hwrites
    rw [hfs]
    refine iff_of_true (.refl _) fun b hb name size refs hm htry => ?_
    exact absurd ⟨b, name, size, refs, hb, hm, htry⟩ hwrites

/-- **What a handle does after its file has been unlinked**, in every local run. Its writes keep all
entries; its releases keep them if and only if they write nothing; and as long as no file has been
created with the node's id again, both leave the file system as it is. -/
theorem unlinked_handle_iff [LawfulUuidV5] {after : List (FuseEvent PeerId)}
    (hs : AfterUnlink ino fh n s) (hrun : run fuseStep after s = some t)
    (hlocal : Meets fuseStep StepLocal after s) :
    (∀ fetch offset data t', serve (.write fetch ino fh offset data) t = some t' →
      EntriesKept t.filesystem t'.filesystem) ∧
    (∀ now t', t.filesystem.tree.Newest now → serve (.release now ino fh) t = some t' →
      (EntriesKept t.filesystem t'.filesystem ↔ t.WritesNothing fh n)) ∧
    (Meets fuseStep (StepNotCreated n) after s →
      (∀ fetch offset data t', serve (.write fetch ino fh offset data) t = some t' →
        t'.filesystem = t.filesystem) ∧
      ∀ now t', serve (.release now ino fh) t = some t' → t'.filesystem = t.filesystem) := by
  obtain ⟨hinv, hino, hfile⟩ := hs.noFile
  have hinv' := hinv.run hlocal hrun
  have hino' := (inodeMap_run hrun).kept hinv.bounded ino n hino
  refine ⟨fun fetch offset data t' h => write_keeps hinv'.inv h, fun now t' hnow h => ?_,
    fun hnot => ?_⟩
  · cases h
    exact release_keeps_iff hinv'.inv hino' hnow
  · have hfile' : t.filesystem.NoFile n :=
      run_invariant_of_meets (C := fun e s => StepLocal e s ∧ StepNotCreated n e s)
        (I := fun s => s.filesystem.NoFile n)
        (fun _ _ _ hC hI hstep => noFile_fuseStep hC.1 hC.2 hI hstep) hfile (hlocal.and hnot) hrun
    refine ⟨fun fetch offset data t' h => ?_, fun now t' h => ?_⟩
    · obtain ⟨⟨reply, t''⟩, hw, rfl⟩ := Option.map_eq_some_iff.1 h
      exact write_of_noFile hino' hfile' hw
    · cases h
      exact release_of_noFile hino' hfile' now

end Edfs.FuseFileSystem

namespace Edfs.FuseFileSystem

open Execution FileSystem Reference

/-- The file `f` is created, written through its handle and unlinked. -/
def unlinkEvents : List (FuseEvent ℕ) :=
  [.request (.create 1 1 "f"), .request (.write fetchNone 2 1 0 [7]), .request (.unlink 2 1 "f")]

/-- The state after that. -/
def unlinked : FuseFileSystem ℕ :=
  (run fuseStep unlinkEvents (.new (init 0 100))).getD (.new (init 0 100))

theorem afterUnlink_unlinked : AfterUnlink 2 1 fileId unlinked := by
  have hbefore : run fuseStep [] (FuseFileSystem.new (init (0 : ℕ) 100))
      = some (.new (init 0 100)) := rfl
  have hcreate : (FuseFileSystem.new (init (0 : ℕ) 100)).create 1 1 "f"
      = (.ok (fileAttr 2 0, 1), created) := rfl
  have hmiddle : run fuseStep [.request (.write fetchNone 2 1 0 [7])] created = some _ := rfl
  exact .intro hbefore (.create rfl hcreate) rfl hmiddle (.unlink rfl rfl rfl) rfl (by decide)

theorem unlinked_handle_iff_other :
    ∃ t t', run fuseStep [.request (.create 3 1 "g")] unlinked = some t ∧
      serve (.release 4 2 1) t = some t' ∧ t'.filesystem = t.filesystem := by
  have hrun : run fuseStep [.request (.create 3 1 "g")] unlinked
      = some (unlinked.create 3 1 "g").2 := rfl
  refine ⟨_, _, hrun, rfl, ?_⟩
  obtain ⟨-, -, hnot⟩ := unlinked_handle_iff afterUnlink_unlinked hrun (by decide)
  refine (hnot ⟨?_, fun _ _ => trivial⟩).2 4 _ rfl
  rintro x hx ⟨parent, name, hname, hid⟩
  cases hx
  cases hname
  cases hid

/-- Another `f` is created: a release of the old handle writes its byte to the new file. -/
theorem old_handle_writes :
    AfterUnlink 2 1 fileId unlinked ∧
      ∃ t t', run fuseStep [.request (.create 3 1 "f")] unlinked = some t ∧
        Meets fuseStep StepLocal [.request (.create 3 1 "f")] unlinked ∧
        t.filesystem.tree.Newest 4 ∧ serve (.release 4 2 1) t = some t' ∧
        t.filesystem.childId NodeId.root "f" = .ok fileId ∧
        ¬ EntriesKept t.filesystem t'.filesystem := by
  refine ⟨afterUnlink_unlinked, _, _, rfl, by decide, by decide, rfl, rfl, fun h => ?_⟩
  cases h.metadata fileId

end Edfs.FuseFileSystem
