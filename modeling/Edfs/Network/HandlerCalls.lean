import Edfs.Network.Dispatcher

/-!
# The handlers' calls

All that the handlers do to a node's file system is to call it.

* `FileSystem.Calls`: a run of calls of some kind;
* `calls_chunk`, `calls_rebalance`, `calls_handleHeld`: the calls of each handler;
* `byHandlers`, `calls_step`, `calls_tick`: the calls of a step, and of a tick.
-/

namespace Edfs

open Execution

variable {PeerId : Type} [CrdtTree PeerId]

namespace FileSystem

variable [UuidV5] [Sha256] [FastCdc]

/-- Some calls of a kind lead from one state to the other. -/
def Calls (P : Call PeerId → Prop) (fs fs' : FileSystem PeerId) : Prop :=
  ∃ es : List (Event PeerId), (∀ e ∈ es, P e.2) ∧ run callStep es fs = some fs'

variable {P Q : Call PeerId → Prop} {fs fs₁ fs₂ : FileSystem PeerId}

theorem Calls.refl (P : Call PeerId → Prop) (fs : FileSystem PeerId) : Calls P fs fs :=
  ⟨[], fun _ h => absurd h List.not_mem_nil, rfl⟩

theorem Calls.single {e : Event PeerId} (he : P e.2) (h : callStep e fs = some fs₁) :
    Calls P fs fs₁ :=
  ⟨[e], fun _ hmem => List.mem_singleton.1 hmem ▸ he, by rw [run_cons, h]; rfl⟩

theorem Calls.trans (h₁ : Calls P fs fs₁) (h₂ : Calls P fs₁ fs₂) : Calls P fs fs₂ := by
  obtain ⟨es₁, hes₁, hrun₁⟩ := h₁
  obtain ⟨es₂, hes₂, hrun₂⟩ := h₂
  refine ⟨es₁ ++ es₂, fun e he => ?_, run_append_eq_some.2 ⟨fs₁, hrun₁, hrun₂⟩⟩
  exact (List.mem_append.1 he).elim (hes₁ e) (hes₂ e)

theorem Calls.mono (hPQ : ∀ call, P call → Q call) (h : Calls P fs fs₁) : Calls Q fs fs₁ := by
  obtain ⟨es, hes, hrun⟩ := h
  exact ⟨es, fun e he => hPQ _ (hes e he), hrun⟩

theorem Calls.inv [LinearOrder PeerId] [LawfulCrdtTree PeerId] (h : Calls P fs fs₁)
    (hinv : fs.Inv) : fs₁.Inv := by
  obtain ⟨es, -, hrun⟩ := h
  exact run_invariant (fun _ _ _ => inv_step) hinv hrun

/-- A call keeps the log, and adds to it what it reports or applies. -/
theorem mem_moves_step [LinearOrder PeerId] [LawfulCrdtTree PeerId] {e : Event PeerId}
    (hinv : fs.Inv) (hstep : callStep e fs = some fs₁) :
    fs.tree.moves ⊆ fs₁.tree.moves ∧
      ∀ op ∈ fs₁.tree.moves, op ∈ fs.tree.moves ∨ op ∈ emitted e fs ∨ op ∈ e.2.applied := by
  rcases tree_step hstep with ⟨ht, -⟩ | ⟨n, parent, m, -, hone, ht⟩ | ⟨ops, he, ht⟩
  · rw [ht]
    exact ⟨List.Subset.refl _, fun op => Or.inl⟩
  · have hmem := MoveTree.Coherent.mem_apply hinv.sound (fs.tree.issue (e.1 0) n parent m).1
    rw [ht, hone, NodeTree.moves, NodeTree.moves, NodeTree.state_issue]
    refine ⟨fun op hop => (hmem op).2 (Or.inl hop), fun op hop => ?_⟩
    exact ((hmem op).1 hop).imp_right fun h => Or.inl (List.mem_singleton.2 h.1)
  · rw [ht, he]
    refine ⟨?_, fun op hop => (NodeTree.mem_moves_applyOperations hop).symm.imp_right Or.inr⟩
    rw [NodeTree.moves, NodeTree.moves, NodeTree.state_applyOperations]
    exact (MoveTree.Coherent.timestamps_foldl hinv.sound ops).1

theorem Calls.moves_subset [LinearOrder PeerId] [LawfulCrdtTree PeerId] (h : Calls P fs fs₁)
    (hinv : fs.Inv) : fs.tree.moves ⊆ fs₁.tree.moves := by
  obtain ⟨es, -, hrun⟩ := h
  exact (run_invariant (I := fun fs₂ => fs₂.Inv ∧ fs.tree.moves ⊆ fs₂.tree.moves)
    (fun _ _ _ hi hstep => ⟨inv_step hi.1 hstep,
      List.Subset.trans hi.2 (mem_moves_step hi.1 hstep).1⟩)
    ⟨hinv, List.Subset.refl _⟩ hrun).2

/-- Without an eviction, a chunk stays pinned. -/
theorem Calls.isPinned [LinearOrder PeerId] [LawfulCrdtTree PeerId] (h : Calls P fs fs₁)
    (hinv : fs.Inv) (hP : ∀ x, ¬ P (.evictChunk x)) {x : ChunkHash} (hx : fs.isPinned x) :
    fs₁.isPinned x := by
  obtain ⟨es, hes, hrun⟩ := h
  induction es generalizing fs with
  | nil =>
    cases hrun
    exact hx
  | cons e es ih =>
    obtain ⟨fs₂, hfs₂, hrest⟩ := Option.bind_eq_some_iff.1 hrun
    have hkeep : e.2 ≠ .evictChunk x := fun heq => hP x (heq ▸ hes e List.mem_cons_self)
    obtain ⟨data, hdata⟩ := ChunkStorage.isPinned_iff.1 hx
    have hpinned := entry_step_of_pinned hinv hfs₂ hkeep hdata
    exact ih (inv_step hinv hfs₂) (ChunkStorage.isPinned_iff.2 ⟨data, hpinned⟩)
      (fun e he => hes e (List.mem_cons_of_mem _ he)) hrest

end FileSystem

namespace Network

/-- The calls of the chunk handler. -/
def byChunkHandler : Call PeerId → Prop
  | .cacheChunk _ | .chunk _ | .mutate (.pinChunk _) => True
  | _ => False

open FileSystem

variable [LinearOrder PeerId] [PeerBytes PeerId] [UuidV5] [Sha256] [FastCdc]

omit [LinearOrder PeerId] [PeerBytes PeerId] in
/-- A fetched chunk is pinned, or else cached. -/
theorem calls_finish (s : Surroundings PeerId) (hash : ChunkHash) (data : Bytes)
    (session : FetchSession PeerId) (f : ChunkFetcher PeerId) (fs : FileSystem PeerId) :
    Calls byChunkHandler fs (f.finish s hash data session fs).2.1 := by
  have hcache : ∀ fs : FileSystem PeerId, Calls byChunkHandler fs (fs.cacheChunk data) :=
    fun fs => .single (e := (fun _ => 0, .cacheChunk data)) trivial rfl
  have hpin : Calls byChunkHandler fs (fs.pinChunk data).2 :=
    .single (e := (fun _ => 0, .mutate (.pinChunk data))) trivial rfl
  unfold ChunkFetcher.finish
  dsimp only
  split_ifs
  · generalize fs.pinChunk data = r at hpin
    obtain ⟨r | r, fs₁⟩ := r
    · exact hpin.trans (hcache fs₁)
    · exact hpin
  · exact hcache fs

/-- **The chunk handler** looks chunks up, and stores those that have been fetched. -/
theorem calls_chunk (s : Surroundings PeerId) (e : ChunkEvent PeerId) (f : ChunkFetcher PeerId)
    (fs : FileSystem PeerId) : Calls byChunkHandler fs (ChunkHandler.handle s e f fs).2.1 := by
  rcases e with _ | hash | ⟨requestId, data | _ | _ | _⟩ | _
  case pullChunk => exact .single (e := (fun _ => 0, .chunk hash)) trivial rfl
  case response.chunkData =>
    change Calls _ _ (f.handleResponse s requestId data fs).2.1
    unfold ChunkFetcher.handleResponse
    split
    · exact .refl _ _
    · rename_i hash hrequest
      dsimp only
      split_ifs
      · exact .refl _ _
      · split
        · exact .refl _ _
        · exact calls_finish s hash data _ _ fs
  all_goals exact .refl _ _

open ReplicationNode

/-- The calls of `rebalance`. -/
def promotes : Call PeerId → Prop
  | .promoteToPinned _ => True
  | _ => False

/-- The calls of `evict_confirmed`. -/
def evicts : Call PeerId → Prop
  | .evictChunk _ => True
  | _ => False

theorem calls_rebalanceLoop (peerId : PeerId) (members : List PeerId) (now : ℕ)
    (trySend : ChunkHash → Bool) (live : List ChunkHash) (issued : ℕ)
    (node : ReplicationNode PeerId) :
    Calls promotes node.filesystem
      (rebalanceLoop peerId members now trySend live issued node).1.filesystem := by
  induction live generalizing issued node with
  | nil => exact .refl _ _
  | cons hash live ih =>
    unfold rebalanceLoop
    split_ifs with hdesignated hpinned hblocked hcached hmax hsend
    · exact ih _ _
    · exact ih _ _
    · -- the chunk is cached
      have hpromote : Calls promotes node.filesystem
          (node.filesystem.promoteToPinned hash).2 :=
        .single (e := (fun _ => 0, .promoteToPinned hash)) trivial rfl
      generalize node.filesystem.promoteToPinned hash = r at hpromote
      obtain ⟨promoted, fs⟩ := r
      cases promoted with
      | true => exact hpromote.trans (ih issued (node.setFilesystem fs))
      | false =>
        exact hpromote.trans
          (ih issued ((node.setFilesystem fs).block hash (now + chunkFetchBackoff)))
    · exact .refl _ _
    · exact ih _ _
    · exact ih _ _
    · exact ih _ _

/-- **Rebalancing** promotes chunks. -/
theorem calls_rebalance (peerId : PeerId) (connected : List PeerId) (now : ℕ)
    (trySend : ChunkHash → Bool) (live : List ChunkHash) (node : ReplicationNode PeerId) :
    Calls promotes node.filesystem
      (node.rebalance peerId connected now trySend live).1.filesystem := by
  unfold ReplicationNode.rebalance
  dsimp only
  split_ifs
  · exact .refl _ _
  · exact calls_rebalanceLoop _ _ _ _ _ _ _

omit [LinearOrder PeerId] [PeerBytes PeerId] in
theorem calls_foldl_evictOne [DecidableEq PeerId] (hashes : List ChunkHash)
    (node : ReplicationNode PeerId) :
    Calls evicts node.filesystem (hashes.foldl evictOne node).filesystem := by
  induction hashes generalizing node with
  | nil => exact .refl _ _
  | cons hash hashes ih =>
    refine Calls.trans ?_ (ih (node.evictOne hash))
    unfold evictOne
    dsimp only
    split_ifs
    · exact .single (e := (fun _ => 0, .evictChunk hash)) trivial rfl
    · exact .refl _ _

theorem calls_evictConfirmed {peerId : PeerId} {connected : List PeerId}
    {node node' : ReplicationNode PeerId} (h : node'.filesystem = node.filesystem) :
    Calls evicts node.filesystem
      (evictConfirmed peerId connected node').filesystem := by
  rw [← h]
  exact calls_foldl_evictOne _ node'

/-- **A `HeldChunks` response** evicts chunks. -/
theorem calls_handleHeld (peerId : PeerId) (connected : List PeerId) (requestId : ℕ)
    (hashes : List ChunkHash) (node : ReplicationNode PeerId) :
    Calls evicts node.filesystem
      (node.handleHeld peerId connected requestId hashes).filesystem := by
  unfold ReplicationNode.handleHeld
  split
  · exact .refl _ _
  · exact calls_evictConfirmed rfl

/-! ### A step of a handler -/

variable [Bincode PeerId]

/-- The event brings the operations. -/
def Delivers (operations : List (NodeOperation PeerId)) : Event PeerId → Prop
  | .gossip data => Bincode.decode data = some operations
  | .response _ (.missingOperations operations') => operations' = operations
  | _ => False

/-- The calls of the handlers on an event. -/
inductive byHandlers (e : Event PeerId) : Call PeerId → Prop
  | chunk {call : Call PeerId} (h : byChunkHandler call) : byHandlers e call
  | promote (hash : ChunkHash) : byHandlers e (.promoteToPinned hash)
  | deliver {operations : List (NodeOperation PeerId)} (h : Delivers operations e) :
      byHandlers e (.applyOperations operations)
  | evict (hash : ChunkHash) {requestId : ℕ} {hashes : List ChunkHash}
      (h : e = .response requestId (.heldChunks hashes)) : byHandlers e (.evictChunk hash)

variable {c : EventContext PeerId} {d d' : Dispatch PeerId}

/-- **A step of a handler** calls the file system at most. -/
theorem calls_step (h : Dispatch.Step c d d') :
    Calls (byHandlers d.event) d.node.filesystem d'.node.filesystem := by
  have hchunk : ∀ (e : ChunkEvent PeerId) (d₁ : Dispatch PeerId),
      d₁.node.filesystem = d.node.filesystem →
      Calls (byHandlers d.event) d.node.filesystem (d₁.chunk c e).node.filesystem := by
    intro e d₁ hd
    rw [← hd]
    exact (calls_chunk _ e d₁.node.fetcher d₁.node.filesystem).mono fun _ => .chunk
  have hdelivers : ∀ operations, Delivers operations d.event →
      Calls (byHandlers d.event) d.node.filesystem
        (d.node.filesystem.applyOperations c.wall operations) := fun operations hops =>
    .single (e := (c.wall, .applyOperations operations)) (.deliver hops) rfl
  cases h with
  | gossip hevent hdata =>
    refine hdelivers _ ?_
    rw [hevent]
    exact hdata
  | missingOperations hevent hne =>
    refine hdelivers _ ?_
    rw [hevent]
    exact rfl
  | fetchChunk hevent => exact hchunk _ _ rfl
  | servePull hevent => exact hchunk _ _ rfl
  | chunkResponse hevent => exact hchunk _ _ rfl
  | chunkFailure hevent => exact hchunk _ _ rfl
  | heldChunks hevent =>
    refine (calls_handleHeld ..).mono fun call hcall => ?_
    cases call with
    | evictChunk hash => exact .evict hash hevent
    | _ => exact absurd hcall id
  | rebalance h =>
    obtain ⟨-, rfl⟩ := Dispatch.rebalance_eq_some h
    refine (calls_rebalance ..).mono fun call hcall => ?_
    cases call with
    | promoteToPinned hash => exact .promote hash
    | _ => exact absurd hcall id
  | probe h =>
    obtain ⟨-, rfl⟩ := Dispatch.probe_eq_some h
    have hsame := (probe_spec c.localPeerId c.connected c.pinned
      d.node.toReplicationNode).filesystem
    change Calls _ _ (ReplicationNode.probeEvictionCandidates ..).1.filesystem
    rw [hsame]
    exact .refl _ _
  | _ => exact .refl _ _

omit [UuidV5] [FastCdc] in
/-- The calls are the same without the reply. -/
theorem byHandlers_of_step (h : Dispatch.Step c d d') {call : Call PeerId}
    (hcall : byHandlers d'.event call) : byHandlers d.event call := by
  have htake : byHandlers d.takeReply.event call → byHandlers d.event call := by
    intro hcall
    obtain ⟨_ | _ | _ | _ | _ | (_ | _), n, actions⟩ := d <;> cases hcall with
    | chunk h => exact .chunk h
    | promote hash => exact .promote hash
    | deliver h => exact .deliver h
    | evict hash h =>
      cases h <;> exact .evict hash rfl
  rcases event_step h with heq | heq
  · rwa [← heq]
  · exact htake (heq ▸ hcall)

/-- **A tick** calls the file system at most. -/
theorem calls_tick (h : Dispatcher.tick app c d = some d') :
    Calls (byHandlers d.event) d.node.filesystem d'.node.filesystem := by
  refine (tick_invariant (I := fun d₁ => Calls (byHandlers d.event) d.node.filesystem
      d₁.node.filesystem ∧ ∀ call, byHandlers d₁.event call → byHandlers d.event call) ?_ h
    ⟨.refl _ _, fun _ => id⟩).1
  rintro d₁ d₂ hstep ⟨hcalls, hmono⟩
  exact ⟨hcalls.trans ((calls_step hstep).mono hmono),
    fun call hcall => hmono call (byHandlers_of_step hstep hcall)⟩

end Network

end Edfs
