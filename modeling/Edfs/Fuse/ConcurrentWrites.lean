import Edfs.Fuse.Handle

/-!
# Concurrent writes on one handle

The `write` requests of one handle, step by step and interleaved. A request that finds the handle
without a buffer fetches and reads the file, with an `await` and several lock acquisitions in
between, and then installs what it has read, whatever the handle has become meanwhile.

* `FetchState`, `nextFetch`: the steps of `fetchAndRead`; `alone_fetch`;
* `WriteState`, `next`: where a request stands, and its next step;
* `WriteWorld`, `writeStep`: the requests of a handle, in any order of steps;
* `alone_write`: a request that is not interrupted does what the handler does;
* `InstallsFirst`: a buffer is installed only while nothing has been written;
* `no_write_lost`.
-/

namespace Edfs.FuseFileSystem

open Execution Overlay FileSystem

variable {PeerId : Type} [CrdtTree PeerId] [Sha256]

/-! ### Fetching and reading, step by step -/

/-- Where a request stands that fetches what a range of a file lacks and then reads. -/
inductive FetchState
  /-- It looks for what the store lacks. -/
  | missing
  /-- It awaits the answers of the gateway. -/
  | awaiting (hashes : List ChunkHash)
  /-- It caches the answers, one by one. -/
  | caching (answers : List (Option Bytes)) (allFetched : Bool)
  /-- It reads. -/
  | loading
  deriving DecidableEq

/-- The next step of `fetchAndRead`, or its result; a step that takes a lock is one step. -/
def nextFetch (fetch : ChunkHash → Option Bytes) (n : NodeId) (offset length : ℕ)
    (readStored : FileSystem PeerId → Option (Except FileSystemError Bytes × FileSystem PeerId))
    (s : FuseFileSystem PeerId) :
    FetchState → Option ((FetchState ⊕ Except Errno Bytes) × FuseFileSystem PeerId)
  | .missing =>
    match s.filesystem.missingChunkHashesFor n offset length with
    | none => none
    | some (.error e) => some (.inr (.error (.ofFileSystem e)), s)
    | some (.ok hashes) => some (.inl (.awaiting hashes), s)
  | .awaiting hashes => some (.inl (.caching (hashes.map fetch) true), s)
  | .caching [] true => some (.inl .loading, s)
  | .caching [] false => some (.inr (.error .eio), s)
  | .caching (answer :: answers) allFetched =>
    some (.inl (.caching answers (allFetched && answer.isSome)),
      { s with filesystem := s.filesystem.cacheFetched answer })
  | .loading =>
    match readStored s.filesystem with
    | none => none
    | some (.error e, fs) => some (.inr (.error (.ofFileSystem e)), { s with filesystem := fs })
    | some (.ok data, fs) => some (.inr (.ok data), { s with filesystem := fs })

section Fetch

variable {fetch : ChunkHash → Option Bytes} {n : NodeId} {offset length : ℕ}
  {readStored : FileSystem PeerId → Option (Except FileSystemError Bytes × FileSystem PeerId)}
  {σ : Type} {step : σ × FuseFileSystem PeerId → σ × FuseFileSystem PeerId → Prop}
  (wrap : FetchState ⊕ Except Errno Bytes → σ)
  (hstep : ∀ f r (s s' : FuseFileSystem PeerId),
    nextFetch fetch n offset length readStored s f = some (r, s') →
      step (wrap (.inl f), s) (wrap r, s'))

include hstep

/-- Answers that are cached one by one are cached in order. -/
theorem alone_caching (answers : List (Option Bytes)) (allFetched : Bool)
    (s : FuseFileSystem PeerId) :
    Relation.ReflTransGen step (wrap (.inl (.caching answers allFetched)), s)
      (wrap (.inl (.caching [] (allFetched && answers.all Option.isSome))),
        { s with filesystem := answers.foldl cacheFetched s.filesystem }) := by
  induction answers generalizing allFetched s with
  | nil =>
    rw [List.all_nil, Bool.and_true]
    exact .refl
  | cons answer answers ih =>
    refine .head (hstep _ _ _ _ rfl) ?_
    rw [List.all_cons, ← Bool.and_assoc]
    exact ih _ _

/-- **Steps that nothing interrupts do what `fetchAndRead` does.** -/
theorem alone_fetch {s s' : FuseFileSystem PeerId} {r : Except Errno Bytes}
    (h : s.fetchAndRead fetch n offset length readStored = some (r, s')) :
    Relation.ReflTransGen step (wrap (.inl .missing), s) (wrap (.inr r), s') := by
  unfold fetchAndRead fetchMissingChunks at h
  rcases hmissing : s.filesystem.missingChunkHashesFor n offset length with _ | ⟨e⟩ | ⟨hashes⟩
  · simp [hmissing] at h
  · simp only [hmissing] at h
    cases h
    exact .single (hstep _ _ _ _ (by simp only [nextFetch, hmissing]))
  · refine .head (hstep _ _ _ _ (by simp only [nextFetch, hmissing]; rfl))
      (.head (hstep _ _ _ _ rfl) ((alone_caching wrap hstep _ _ s).trans ?_))
    rw [Bool.true_and]
    simp only [hmissing] at h
    cases hall : (hashes.map fetch).all Option.isSome with
    | false =>
      rw [hall] at h
      cases h
      exact .single (hstep _ _ _ _ rfl)
    | true =>
      rw [hall] at h
      refine .head (hstep _ _ _ _ rfl) ?_
      dsimp only at h
      rcases hread : readStored ((hashes.map fetch).foldl cacheFetched s.filesystem) with
        _ | ⟨⟨e⟩ | ⟨data⟩, fs⟩ <;> simp only [hread] at h <;> cases h
      · exact .single (hstep _ _ _ _ (by simp only [nextFetch, hread]))
      · exact .single (hstep _ _ _ _ (by simp only [nextFetch, hread]))

end Fetch

/-! ### Writes, step by step -/

structure WriteRequest where
  offset : ℕ
  data : Bytes

/-- Where a `write` request stands. -/
inductive WriteState
  | started
  /-- It needs the buffer, and fetches and reads the whole file. -/
  | fetching (n : NodeId) (state : FetchState)
  /-- It sets the handle's buffer. -/
  | installing (buffer : Bytes)
  | writing
  | replied (r : Except Errno ℕ)
  deriving DecidableEq

/-- The request goes on with what it has read. -/
def WriteState.ofFetch (n : NodeId) : FetchState ⊕ Except Errno Bytes → WriteState
  | .inl state => .fetching n state
  | .inr (.error e) => .replied (.error e)
  | .inr (.ok buffer) => .installing buffer

/-- A request's next step; a step that takes a lock is one step. -/
def next (fetch : ChunkHash → Option Bytes) (ino : INodeNo) (fh : FileHandle) (r : WriteRequest)
    (s : FuseFileSystem PeerId) : WriteState → Option (WriteState × FuseFileSystem PeerId)
  | .started =>
    if r.data = [] then some (.replied (.ok 0), s)
    else
      match s.openFiles.needsBuffer fh with
      | .error e => some (.replied (.error e), s)
      | .ok false => some (.writing, s)
      | .ok true =>
        match s.inoToNodeId ino with
        | .error e => some (.replied (.error e), s)
        | .ok n => some (.fetching n .missing, s)
  | .fetching n state =>
    (nextFetch fetch n 0 u64Max (fun fs => fs.readFileAll n) s state).map
      (Prod.map (WriteState.ofFetch n) id)
  | .installing buffer => some (.writing, { s with openFiles := s.openFiles.setBuffer fh buffer })
  | .writing =>
    let (written, openFiles) := s.openFiles.write fh r.offset r.data
    some (.replied (written.map (· % 2 ^ 32)), { s with openFiles := openFiles })
  | .replied _ => none

/-- The requests of a handle. -/
structure WriteWorld (PeerId ι : Type) [CrdtTree PeerId] where
  fuse : FuseFileSystem PeerId
  state : ι → WriteState

variable {ι : Type} [DecidableEq ι]

/-- All requests have been received, and none has done anything. -/
def started (s : FuseFileSystem PeerId) : WriteWorld PeerId ι := ⟨s, fun _ => .started⟩

/-- One request takes its next step; should it be an answer that comes, the gateway's answers are
given with it. -/
def writeStep (ino : INodeNo) (fh : FileHandle) (requests : ι → WriteRequest)
    (e : ι × (ChunkHash → Option Bytes)) (w : WriteWorld PeerId ι) :
    Option (WriteWorld PeerId ι) :=
  (next e.2 ino fh (requests e.1) w.fuse (w.state e.1)).map fun (state, s) =>
    ⟨s, Function.update w.state e.1 state⟩

/-! ### One request alone -/

section Alone

variable {fetch : ChunkHash → Option Bytes} {ino : INodeNo} {fh : FileHandle} {r : WriteRequest}

/-- Steps of a request that nothing interrupts. -/
def Alone (fetch : ChunkHash → Option Bytes) (ino : INodeNo) (fh : FileHandle) (r : WriteRequest) :
    WriteState × FuseFileSystem PeerId → WriteState × FuseFileSystem PeerId → Prop :=
  Relation.ReflTransGen fun p q => next fetch ino fh r p.2 p.1 = some q

/-- The steps that read the whole file. -/
theorem alone_fetching {n : NodeId} {s s' : FuseFileSystem PeerId} {e : Except Errno Bytes}
    (h : (s.fetchAndRead fetch n 0 u64Max fun fs => fs.readFileAll n) = some (e, s')) :
    Alone fetch ino fh r (.fetching n .missing, s) (.ofFetch n (.inr e), s') := by
  refine alone_fetch (WriteState.ofFetch n) (fun f res s₁ s₂ hnext => ?_) h
  change (nextFetch fetch n 0 u64Max _ s₁ f).map (Prod.map (WriteState.ofFetch n) id) = _
  rw [hnext]
  rfl

/-- The steps that load the buffer. -/
theorem alone_load {s s' : FuseFileSystem PeerId} {e : Except Errno Unit} (hne : r.data ≠ [])
    (h : s.loadBuffer fetch ino fh = some (e, s')) :
    Alone fetch ino fh r (.started, s)
      (match e with
        | .error e => .replied (.error e)
        | .ok () => .writing, s') := by
  unfold loadBuffer at h
  rcases hneeds : s.openFiles.needsBuffer fh with ⟨e⟩ | ⟨⟨⟩⟩
  · rw [hneeds] at h
    cases h
    exact .single (by simp only [next, if_neg hne, hneeds])
  · rw [hneeds] at h
    cases h
    exact .single (by simp only [next, if_neg hne, hneeds])
  · rw [hneeds] at h
    cases hino : s.inoToNodeId ino with
    | error e =>
      rw [hino] at h
      cases h
      exact .single (by simp only [next, if_neg hne, hneeds, hino])
    | ok n =>
      rw [hino] at h
      dsimp only at h
      rcases hload : s.fetchAndRead fetch n 0 u64Max fun fs => fs.readFileAll n with
        _ | ⟨⟨e⟩ | ⟨buffer⟩, s₁⟩
      · simp [hload] at h
      all_goals
        simp only [hload] at h
        cases h
        refine .head (by simp only [next, if_neg hne, hneeds, hino]; rfl) ?_
      · exact alone_fetching hload
      · exact (alone_fetching hload).tail rfl

/-- **A request that nothing interrupts does what the handler does.** -/
theorem alone_write {s s' : FuseFileSystem PeerId} {reply : Except Errno ℕ}
    (h : s.write fetch ino fh r.offset r.data = some (reply, s')) :
    Alone fetch ino fh r (.started, s) (.replied reply, s') := by
  unfold FuseFileSystem.write at h
  split_ifs at h with hempty
  · cases h
    exact .single (by simp only [next, if_pos hempty])
  · rcases hload : s.loadBuffer fetch ino fh with _ | ⟨⟨e⟩ | ⟨⟨⟩⟩, s₁⟩
    · simp [hload] at h
    · simp only [hload] at h
      cases h
      exact alone_load hempty hload
    · simp only [hload] at h
      cases h
      exact (alone_load hempty hload).tail rfl

end Alone

/-! ### Many requests -/

/-- A buffer is installed only while nothing has been written on the handle. -/
def InstallsFirst (fh : FileHandle) (e : ι × (ChunkHash → Option Bytes))
    (w : WriteWorld PeerId ι) : Prop :=
  match w.state e.1 with
  | .installing _ => (w.fuse.openFiles.openFiles fh).any OpenFile.dirty = false
  | _ => True

instance (fh : FileHandle) (e : ι × (ChunkHash → Option Bytes)) (w : WriteWorld PeerId ι) :
    Decidable (InstallsFirst fh e w) := by
  unfold InstallsFirst
  split <;> infer_instance

/-- A step that leaves open files, inode numbers and the tree alone. -/
structure LeavesHandles (s s' : FuseFileSystem PeerId) : Prop where
  openFiles : s'.openFiles = s.openFiles
  inodeMap : s'.inodeMap = s.inodeMap
  tree : s'.filesystem.tree = s.filesystem.tree
  storage : s.filesystem.storage.Inv → s'.filesystem.storage.Inv

section Steps

variable {fetch : ChunkHash → Option Bytes} {ino : INodeNo} {fh : FileHandle}

/-- Fetching and reading leaves the handles. -/
theorem leavesHandles_nextFetch {n : NodeId} {s s' : FuseFileSystem PeerId} {state : FetchState}
    {res : FetchState ⊕ Except Errno Bytes}
    (h : nextFetch fetch n 0 u64Max (fun fs => fs.readFileAll n) s state = some (res, s')) :
    LeavesHandles s s' := by
  have same : LeavesHandles s s := ⟨rfl, rfl, rfl, id⟩
  cases state with
  | missing =>
    simp only [nextFetch] at h
    split at h <;> cases h <;> exact same
  | awaiting hashes =>
    cases h
    exact same
  | caching answers allFetched =>
    cases answers with
    | nil => cases allFetched <;> cases h <;> exact same
    | cons answer answers =>
      cases h
      refine ⟨rfl, rfl, ?_, fun hs => ?_⟩
      · cases answer <;> rfl
      · cases answer with
        | none => exact hs
        | some data => exact ChunkStorage.inv_cache hs _
  | loading =>
    rcases hread : s.filesystem.readFileAll n with _ | ⟨res, fs⟩
    · simp [nextFetch, hread] at h
    · obtain ⟨htree, -, hstorage⟩ := readFileAll_state hread
      simp only [nextFetch, hread] at h
      cases res <;> cases h <;> exact ⟨rfl, rfl, htree, hstorage⟩

omit [DecidableEq ι] in
/-- What a step can do: nothing to the handle and no success, install a buffer, or write. -/
theorem next_cases {r : WriteRequest} (hne : r.data ≠ []) {s s' : FuseFileSystem PeerId}
    {state state' : WriteState} (h : next fetch ino fh r s state = some (state', s')) :
    (LeavesHandles s s' ∧ ∀ k, state' ≠ .replied (.ok k)) ∨
      (∃ b, state = .installing b ∧ state' = .writing ∧
        s' = { s with openFiles := s.openFiles.setBuffer fh b }) ∨
      (state = .writing ∧
        state' = .replied ((s.openFiles.write fh r.offset r.data).1.map (· % 2 ^ 32)) ∧
        s' = { s with openFiles := (s.openFiles.write fh r.offset r.data).2 }) := by
  have same : LeavesHandles s s := ⟨rfl, rfl, rfl, id⟩
  cases state with
  | started =>
    left
    simp only [next, if_neg hne] at h
    split at h
    · cases h; exact ⟨same, nofun⟩
    · cases h; exact ⟨same, nofun⟩
    · split at h <;> cases h <;> exact ⟨same, nofun⟩
  | fetching n state =>
    left
    obtain ⟨⟨res, s₁⟩, hfetch, heq⟩ := Option.map_eq_some_iff.1 h
    cases heq
    refine ⟨leavesHandles_nextFetch hfetch, ?_⟩
    rcases res with _ | ⟨_⟩ | ⟨_⟩ <;> exact nofun
  | installing buffer =>
    cases h
    exact Or.inr (Or.inl ⟨buffer, rfl, rfl, rfl⟩)
  | writing =>
    cases h
    exact Or.inr (Or.inr ⟨rfl, rfl, rfl⟩)
  | replied r => cases h

/-- The tree and the inode numbers are as at the start, and the data of every request that has
been acknowledged is in the buffer. -/
structure WriteInv (fh : FileHandle) (requests : ι → WriteRequest) (s₀ : FuseFileSystem PeerId)
    (w : WriteWorld PeerId ι) : Prop where
  tree : w.fuse.filesystem.tree = s₀.filesystem.tree
  storage : w.fuse.filesystem.storage.Inv
  inodeMap : w.fuse.inodeMap = s₀.inodeMap
  written : ∀ i k, w.state i = .replied (.ok k) → ∃ file b,
    w.fuse.openFiles.openFiles fh = some file ∧ file.dirty = true ∧ file.buffer = some b ∧
      Occurs (requests i).data (requests i).offset b

variable {requests : ι → WriteRequest} {s₀ : FuseFileSystem PeerId}

omit [DecidableEq ι] [Sha256] in
/-- A write that succeeds has overlaid a buffer. -/
theorem of_write_ok {m m' : OpenFileManager} {offset k : ℕ} {data : Bytes}
    (h : m.write fh offset data = (.ok k, m')) :
    ∃ file b, m.openFiles fh = some file ∧ file.buffer = some b ∧
      ∃ file', m'.openFiles fh = some file' ∧ file'.dirty = true ∧
        file'.buffer = some (overlay 0 b offset data) := by
  cases hf : m.openFiles fh with
  | none => simp [OpenFileManager.write, hf] at h
  | some file =>
    cases hb : file.buffer with
    | none => simp [OpenFileManager.write, hf, hb] at h
    | some b =>
      by_cases hend : offset + data.length ≤ u64Max
      · rw [OpenFileManager.write_eq hf hb hend] at h
        cases h
        exact ⟨file, b, rfl, hb, _, OpenFileManager.openFiles_insert, rfl, rfl⟩
      · rw [OpenFileManager.write_too_big hf hb hend] at h
        cases h

omit [DecidableEq ι] [Sha256] in
theorem of_write_error {m m' : OpenFileManager} {offset : ℕ} {data : Bytes} {e : Errno}
    (h : m.write fh offset data = (.error e, m')) : m' = m := by
  unfold OpenFileManager.write at h
  split at h
  · cases h; rfl
  · split at h
    · cases h; rfl
    · split at h <;> cases h
      rfl

/-- **A step that does not install a buffer late** keeps what has been acknowledged. -/
theorem writeInv_step (hne : ∀ i, (requests i).data ≠ [])
    (hdisj : ∀ i j, i ≠ j → (requests i).offset + (requests i).data.length ≤ (requests j).offset ∨
      (requests j).offset + (requests j).data.length ≤ (requests i).offset)
    {e : ι × (ChunkHash → Option Bytes)} {w w' : WriteWorld PeerId ι}
    (h : WriteInv fh requests s₀ w) (hfirst : InstallsFirst fh e w)
    (hstep : writeStep ino fh requests e w = some w') : WriteInv fh requests s₀ w' := by
  obtain ⟨i, fetch⟩ := e
  obtain ⟨⟨state, s⟩, hnext, rfl⟩ := Option.map_eq_some_iff.1 hstep
  dsimp only at hnext ⊢
  rcases next_cases (hne i) hnext with ⟨hleaves, hnot⟩ | ⟨b, hinst, rfl, rfl⟩ | ⟨-, rfl, rfl⟩
  · refine ⟨hleaves.tree.trans h.tree, hleaves.storage h.storage,
      hleaves.inodeMap.trans h.inodeMap, fun j k hj => ?_⟩
    rw [hleaves.openFiles]
    by_cases hji : j = i
    · subst hji
      simp only [Function.update_self] at hj
      exact absurd hj (hnot k)
    · simp only [Function.update_of_ne hji] at hj
      exact h.written j k hj
  · -- nothing has been acknowledged yet
    have hclean : (w.fuse.openFiles.openFiles fh).any OpenFile.dirty = false := by
      simpa only [InstallsFirst, hinst] using hfirst
    refine ⟨h.tree, h.storage, h.inodeMap, fun j k hj => ?_⟩
    by_cases hji : j = i
    · subst hji
      simp only [Function.update_self] at hj
      cases hj
    · simp only [Function.update_of_ne hji] at hj
      obtain ⟨file, b', hf, hd, -⟩ := h.written j k hj
      rw [hf, Option.any_some, hd] at hclean
      cases hclean
  · rcases hw : w.fuse.openFiles.write fh (requests i).offset (requests i).data with
      ⟨⟨e⟩ | ⟨k₀⟩, m⟩
    · refine ⟨h.tree, h.storage, h.inodeMap, fun j k hj => ?_⟩
      rw [of_write_error hw]
      by_cases hji : j = i
      · subst hji
        simp only [Function.update_self] at hj
        cases hj
      · simp only [Function.update_of_ne hji] at hj
        exact h.written j k hj
    · obtain ⟨file, b, hf, hb, file', hf', hd', hb'⟩ := of_write_ok hw
      refine ⟨h.tree, h.storage, h.inodeMap, fun j k hj => ⟨file', _, hf', hd', hb', ?_⟩⟩
      by_cases hji : j = i
      · subst hji
        exact occurs_overlay 0 b _ _
      · -- the range of an earlier write is not touched
        simp only [Function.update_of_ne hji] at hj
        obtain ⟨file₁, b₁, hf₁, -, hb₁, hoccurs⟩ := h.written j k hj
        cases hf.symm.trans hf₁
        cases hb.symm.trans hb₁
        exact hoccurs.overlay (hdisj j i hji) 0

end Steps

/-- **No acknowledged write is lost** when buffers are installed only before the first write: in
every such run of the write requests of a handle without a buffer, with data in disjoint ranges,
the buffer has the data of each request that has been acknowledged; and once all are, a release
that returns commits a content that has them all. -/
theorem no_write_lost [LinearOrder PeerId] [LawfulCrdtTree PeerId] [FastCdc] [LawfulSha256]
    [LawfulFastCdc] [UuidV5] [Nonempty ι] {requests : ι → WriteRequest}
    (hne : ∀ i, (requests i).data ≠ [])
    (hdisj : ∀ i j, i ≠ j → (requests i).offset + (requests i).data.length ≤ (requests j).offset ∨
      (requests j).offset + (requests j).data.length ≤ (requests i).offset)
    {s₀ : FuseFileSystem PeerId} (hs : s₀.filesystem.Reachable) {ino : INodeNo} {fh : FileHandle}
    {n : NodeId} {name : String} {size : ℕ} {refs : List ChunkRef}
    (hino : s₀.inodeMap.getNodeId ino = some n)
    (hm : s₀.filesystem.metadata n = .ok (.regularFile name size refs))
    {events : List (ι × (ChunkHash → Option Bytes))} {w : WriteWorld PeerId ι}
    (hrun : run (writeStep ino fh requests) events (started s₀) = some w)
    (hfirst : Meets (writeStep ino fh requests) (InstallsFirst fh) events (started s₀)) :
    (∀ i k, w.state i = .replied (.ok k) → ∃ file b, w.fuse.openFiles.openFiles fh = some file ∧
      file.buffer = some b ∧ Occurs (requests i).data (requests i).offset b) ∧
    ((∀ i, ∃ k, w.state i = .replied (.ok k)) → ∀ now s, w.fuse.filesystem.tree.Newest now →
      w.fuse.release now ino fh = (.ok (), s) → ∃ b, s.filesystem.HasContent n b ∧
        ∀ i, Occurs (requests i).data (requests i).offset b) := by
  have hstart : WriteInv fh requests s₀ (started s₀) := ⟨rfl, hs.inv.storage, rfl, nofun⟩
  have hinv : WriteInv fh requests s₀ w :=
    run_invariant_of_meets (I := WriteInv fh requests s₀)
      (fun _ _ _ hC h hstep => writeInv_step hne hdisj h hC hstep) hstart hfirst hrun
  refine ⟨fun i k hi => ?_, fun hall now s hnow hrelease => ?_⟩
  · obtain ⟨file, b, hf, -, hb, hoccurs⟩ := hinv.written i k hi
    exact ⟨file, b, hf, hb, hoccurs⟩
  · obtain ⟨i₀⟩ := ‹Nonempty ι›
    obtain ⟨k, hk⟩ := hall i₀
    obtain ⟨file, b, hf, hd, hb, -⟩ := hinv.written i₀ k hk
    have hm' : w.fuse.filesystem.metadata n = .ok (.regularFile name size refs) :=
      (metadata_congr (by rw [hinv.tree])).trans hm
    have hsound : w.fuse.filesystem.tree.Sound := by
      rw [hinv.tree]
      exact hs.inv.sound
    refine ⟨b, hasContent_release ⟨hsound, hinv.storage⟩ hf hd hb ?_ hm' hnow hrelease, fun i => ?_⟩
    · rw [hinv.inodeMap]
      exact hino
    · obtain ⟨k, hk⟩ := hall i
      obtain ⟨file', b', hf', -, hb', hoccurs⟩ := hinv.written i k hk
      cases hf.symm.trans hf'
      cases hb.symm.trans hb'
      exact hoccurs

end Edfs.FuseFileSystem

namespace Edfs.FuseFileSystem

open Execution Overlay FileSystem Reference

/-- Two writes next to each other. -/
def twoWrites : Bool → WriteRequest
  | false => ⟨0, [1]⟩
  | true => ⟨1, [2]⟩

/-- The created file, opened again: handle 2 has no buffer. -/
def reopened : FuseFileSystem ℕ := (created.open 2).2

theorem reopened_reachable : reopened.filesystem.Reachable :=
  ⟨0, 100, [(fun _ => 1, .mutate (.createFile NodeId.root "f"))], rfl⟩

/-- The second request starts when the first has replied. -/
def inTurn : List (Bool × (ChunkHash → Option Bytes)) :=
  List.replicate 7 (false, fetchNone) ++ List.replicate 2 (true, fetchNone)

theorem no_write_lost_inTurn :
    ∃ w, run (writeStep 2 2 twoWrites) inTurn (started reopened) = some w ∧
      (∀ i, ∃ k, w.state i = .replied (.ok k)) ∧
      (∀ i k, w.state i = .replied (.ok k) → ∃ file b, w.fuse.openFiles.openFiles 2 = some file ∧
        file.buffer = some b ∧ Occurs (twoWrites i).data (twoWrites i).offset b) ∧
      ∀ now s, w.fuse.filesystem.tree.Newest now → w.fuse.release now 2 2 = (.ok (), s) →
        ∃ b, s.filesystem.HasContent fileId b ∧
          ∀ i, Occurs (twoWrites i).data (twoWrites i).offset b := by
  obtain ⟨w, hrun, hok⟩ : ∃ w, run (writeStep 2 2 twoWrites) inTurn (started reopened) = some w ∧
      ∀ i, ∃ k, w.state i = .replied (.ok k) := by
    refine ⟨_, rfl, fun i => ⟨1, ?_⟩⟩
    cases i <;> rfl
  obtain ⟨hbuffer, hcommit⟩ := no_write_lost (by decide) (by decide) reopened_reachable rfl rfl
    hrun (by decide)
  exact ⟨w, hrun, hok, hbuffer, hcommit hok⟩

/-- The first request reads the file before the second one writes, and installs it after. -/
def crossed : List (Bool × (ChunkHash → Option Bytes)) :=
  List.replicate 5 (false, fetchNone) ++ List.replicate 7 (true, fetchNone) ++
    List.replicate 2 (false, fetchNone)

/-- Both requests are acknowledged, and the data of the second are not in the buffer. -/
theorem crossed_loses_write :
    ∃ w, run (writeStep 2 2 twoWrites) crossed (started reopened) = some w ∧
      w.state false = .replied (.ok 1) ∧ w.state true = .replied (.ok 1) ∧
      ∃ file b, w.fuse.openFiles.openFiles 2 = some file ∧ file.buffer = some b ∧
        ¬ Occurs (twoWrites true).data (twoWrites true).offset b :=
  ⟨_, rfl, rfl, rfl, _, _, rfl, rfl, by decide⟩

end Edfs.FuseFileSystem
