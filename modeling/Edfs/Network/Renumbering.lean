import Edfs.Network.Replication

/-!
# Requests under other ids

A node sends all its requests under ids from one counter. What the replication handler does depends
on the ids of its own requests only, and only up to their order: it does the same when its requests
are counted apart from the others.

* `renumber ids node`: the node as it would be if only the requests of `ids` had been sent;
* `renumber_rebalance`, `renumber_probe`, `renumber_handleHeld`, `renumber_outboundFailure`.
-/

namespace Edfs.ReplicationNode

variable {PeerId : Type} [CrdtTree PeerId]

/-- The node with other pending probes, and another next id. -/
def withIds (pending : ℕ → Option PeerId) (next : ℕ) (node : ReplicationNode PeerId) :
    ReplicationNode PeerId :=
  { node with
    handler.pendingProbes := pending
    nextRequestId := next }

/-- The node with its requests counted by themselves: the `k`-th of them is `ids[k]`. -/
def renumber (ids : List ℕ) (node : ReplicationNode PeerId) : ReplicationNode PeerId :=
  node.withIds (fun k => ids[k]?.bind node.handler.pendingProbes) ids.length

/-- The ids that a node has given to its probes: no other request is pending as a probe. -/
structure Numbering (ids : List ℕ) (node : ReplicationNode PeerId) : Prop where
  nodup : ids.Nodup
  lt : ∀ id ∈ ids, id < node.nextRequestId
  pending : ∀ id p, node.handler.pendingProbes id = some p → id ∈ ids

theorem numbering_new (fs : FileSystem PeerId) : Numbering [] ⟨fs, .new, 0⟩ :=
  ⟨List.nodup_nil, fun _ h => absurd h List.not_mem_nil, fun _ _ h => by cases h⟩

section

variable {ids : List ℕ} {node : ReplicationNode PeerId}

/-- A numbering stays one while no probe is added. -/
theorem Numbering.of_pending (h : Numbering ids node) {node' : ReplicationNode PeerId}
    (hpending : ∀ id p, node'.handler.pendingProbes id = some p →
      node.handler.pendingProbes id = some p)
    (hnext : node.nextRequestId ≤ node'.nextRequestId) : Numbering ids node' where
  nodup := h.nodup
  lt id hid := (h.lt id hid).trans_le hnext
  pending id p hp := h.pending id p (hpending id p hp)

theorem Numbering.outboundFailure (h : Numbering ids node) (id : ℕ) :
    Numbering ids (node.outboundFailure id) := by
  refine h.of_pending (fun x p hp => ?_) le_rfl
  dsimp only [ReplicationNode.outboundFailure] at hp
  by_cases hx : x = id
  · subst hx
    rw [Function.update_self] at hp
    cases hp
  · rwa [Function.update_of_ne hx] at hp

/-- The node that is about to send a probe. -/
theorem Numbering.concat (h : Numbering ids node) (peer : PeerId) :
    Numbering (ids ++ [node.nextRequestId]) (node.withIds
      (Function.update node.handler.pendingProbes node.nextRequestId (some peer))
      (node.nextRequestId + 1)) where
  nodup := by
    refine List.nodup_append.2 ⟨h.nodup, List.nodup_singleton _, fun id hid x hx => ?_⟩
    rw [List.mem_singleton.1 hx]
    exact (h.lt id hid).ne
  lt id hid := by
    rcases List.mem_append.1 hid with hid | hid
    · exact (h.lt id hid).trans (Nat.lt_succ_self _)
    · rw [List.mem_singleton.1 hid]
      exact Nat.lt_succ_self _
  pending id p hp := by
    by_cases hid : id = node.nextRequestId
    · exact List.mem_append_right _ (List.mem_singleton.2 hid)
    · dsimp only [withIds] at hp
      rw [Function.update_of_ne hid] at hp
      exact List.mem_append_left _ (h.pending id p hp)

/-- In a list without repetitions, changing the value at the `k`-th entry is changing the `k`-th
value. -/
theorem bind_update {α : Type} {l : List ℕ} (hnodup : l.Nodup) {k id : ℕ} (hk : l[k]? = some id)
    (f : ℕ → Option α) (v : Option α) : (fun i => l[i]?.bind (Function.update f id v)) =
      Function.update (fun i => l[i]?.bind f) k v := by
  funext i
  by_cases hi : i = k
  · subst hi
    rw [Function.update_self, hk, Option.bind_some, Function.update_self]
  · rw [Function.update_of_ne hi]
    cases hx : l[i]? with
    | none => rfl
    | some x =>
      have hne : x ≠ id := by
        rintro rfl
        obtain ⟨hlt, rfl⟩ := List.getElem?_eq_some_iff.1 hx
        obtain ⟨hlt', heq⟩ := List.getElem?_eq_some_iff.1 hk
        exact hi ((List.Nodup.getElem_inj_iff hnodup).1 heq.symm)
      rw [Option.bind_some, Option.bind_some, Function.update_of_ne hne]

/-- Nor does a value at no entry matter. -/
theorem bind_update_of_notMem {α : Type} {l : List ℕ} {id : ℕ} (hid : id ∉ l) (f : ℕ → Option α)
    (v : Option α) :
    (fun i : ℕ => l[i]?.bind (Function.update f id v)) = fun i => l[i]?.bind f := by
  funext i
  cases hx : l[i]? with
  | none => rfl
  | some x =>
    have hne : x ≠ id := by
      rintro rfl
      exact hid (List.mem_of_getElem? hx)
    rw [Option.bind_some, Option.bind_some, Function.update_of_ne hne]

/-- A failed request is forgotten under its other id. -/
theorem renumber_outboundFailure (h : Numbering ids node) {k id : ℕ} (hk : ids[k]? = some id) :
    renumber ids (node.outboundFailure id) = (renumber ids node).outboundFailure k :=
  congrArg (fun pending => node.withIds pending ids.length) (bind_update h.nodup hk _ _)

/-- A failed request of another kind does not matter. -/
theorem renumber_outboundFailure_of_notMem {id : ℕ} (hid : id ∉ ids) :
    renumber ids (node.outboundFailure id) = renumber ids node :=
  congrArg (fun pending => node.withIds pending ids.length) (bind_update_of_notMem hid _ _)

end

section

variable (pending : ℕ → Option PeerId) (next : ℕ)

theorem foldl_evictOne_withIds [DecidableEq PeerId] (hashes : List ChunkHash)
    (node : ReplicationNode PeerId) :
    hashes.foldl evictOne (node.withIds pending next) =
      (hashes.foldl evictOne node).withIds pending next := by
  induction hashes generalizing node with
  | nil => rfl
  | cons hash hashes ih => exact ih (node.evictOne hash)

variable [LinearOrder PeerId] [PeerBytes PeerId] [Sha256]

/-- Rebalancing does not look at the requests. -/
theorem rebalanceLoop_withIds (peerId : PeerId) (members : List PeerId) (now : ℕ)
    (trySend : ChunkHash → Bool) (live : List ChunkHash) (issued : ℕ)
    (node : ReplicationNode PeerId) :
    rebalanceLoop peerId members now trySend live issued (node.withIds pending next) =
      ((rebalanceLoop peerId members now trySend live issued node).1.withIds pending next,
        (rebalanceLoop peerId members now trySend live issued node).2) := by
  induction live generalizing issued node with
  | nil => rfl
  | cons hash live ih =>
    unfold rebalanceLoop
    rw [show (node.withIds pending next).filesystem = node.filesystem from rfl,
      show (node.withIds pending next).handler.blockedUntil = node.handler.blockedUntil from rfl]
    split_ifs
    · exact ih _ _
    · exact ih _ _
    · -- the chunk is cached
      generalize node.filesystem.promoteToPinned hash = r
      obtain ⟨promoted, fs⟩ := r
      cases promoted with
      | true => exact ih issued (node.setFilesystem fs)
      | false =>
        exact ih issued ((node.setFilesystem fs).block hash (now + chunkFetchBackoff))
    · rfl
    · -- the chunk is to be fetched
      rw [ih]
    · exact ih _ _
    · exact ih _ _

end

section

variable {ids : List ℕ} {node : ReplicationNode PeerId}

/-- A new request gets the next number. -/
theorem renumber_concat (h : Numbering ids node) (peer : PeerId) :
    renumber (ids ++ [node.nextRequestId]) (node.withIds
        (Function.update node.handler.pendingProbes node.nextRequestId (some peer))
        (node.nextRequestId + 1)) =
      (renumber ids node).withIds
        (Function.update (renumber ids node).handler.pendingProbes ids.length (some peer))
        (ids.length + 1) := by
  have hpending : (fun i : ℕ => (ids ++ [node.nextRequestId])[i]?.bind
        (Function.update node.handler.pendingProbes node.nextRequestId (some peer))) =
      Function.update (renumber ids node).handler.pendingProbes ids.length (some peer) := by
    funext i
    rcases lt_trichotomy i ids.length with hi | rfl | hi
    · have hne : ids[i] ≠ node.nextRequestId := (h.lt _ (List.getElem_mem hi)).ne
      simp [renumber, withIds, List.getElem?_append_left hi, List.getElem?_eq_getElem hi, hi.ne,
        hne]
    · simp
    · have hlength : (ids ++ [node.nextRequestId]).length ≤ i := by simpa using hi
      rw [Function.update_of_ne hi.ne', List.getElem?_eq_none hlength]
      simp [renumber, withIds, List.getElem?_eq_none hi.le]
  change node.withIds _ (ids ++ [node.nextRequestId]).length = node.withIds _ _
  rw [List.length_append, List.length_singleton]
  exact congrArg (fun pending => node.withIds pending (ids.length + 1)) hpending

/-- What a node sends, and what it sends with its requests counted by themselves. -/
structure Renumbered (ids : List ℕ) (node : ReplicationNode PeerId)
    (sent : List (CheckChunks PeerId))
    (r : ReplicationNode PeerId × List (CheckChunks PeerId)) : Prop where
  numbering : Numbering (ids ++ sent.map CheckChunks.requestId) node
  node_eq : r.1 = renumber (ids ++ sent.map CheckChunks.requestId) node
  sent : ∀ m ∈ sent, ∃ k : ℕ, (ids ++ sent.map CheckChunks.requestId)[k]? = some m.requestId ∧
    ⟨k, m.asker, m.answerer, m.hashes⟩ ∈ r.2

theorem sendProbes_renumber (h : Numbering ids node) (peerId : PeerId)
    (probes : List (PeerId × List ChunkHash)) :
    Renumbered ids (sendProbes peerId probes node).1 (sendProbes peerId probes node).2
      (sendProbes peerId probes (renumber ids node)) := by
  induction probes generalizing ids node with
  | nil => exact ⟨by simpa [sendProbes] using h, by simp [sendProbes], by simp [sendProbes]⟩
  | cons b probes ih =>
    obtain ⟨peer, batch⟩ := b
    have hrest := ih (h.concat peer)
    rw [renumber_concat h] at hrest
    obtain ⟨h₁, h₂, h₃⟩ := hrest
    simp only [List.append_assoc, List.singleton_append] at h₁ h₂ h₃
    refine ⟨h₁, h₂, fun m hm => ?_⟩
    rcases List.mem_cons.1 hm with rfl | hm
    · refine ⟨ids.length, ?_, List.mem_cons_self⟩
      simp [sendProbes]
    · obtain ⟨k, hk, hmem⟩ := h₃ m hm
      exact ⟨k, hk, List.mem_cons_of_mem _ hmem⟩

end

section

variable [LinearOrder PeerId] [PeerBytes PeerId] [Sha256]
  {ids : List ℕ} {node : ReplicationNode PeerId}

/-- **Rebalancing** does not look at the requests. -/
theorem renumber_rebalance (peerId : PeerId) (connected : List PeerId) (now : ℕ)
    (trySend : ChunkHash → Bool) (live : List ChunkHash) (node : ReplicationNode PeerId) :
    (renumber ids node).rebalance peerId connected now trySend live =
      (renumber ids (node.rebalance peerId connected now trySend live).1,
        (node.rebalance peerId connected now trySend live).2) := by
  unfold rebalance
  dsimp only
  split_ifs
  · rfl
  · rw [renumber, rebalanceLoop_withIds, renumber, (onlyPins_rebalanceLoop ..).pending]

theorem Numbering.rebalance (h : Numbering ids node) (peerId : PeerId) (connected : List PeerId)
    (now : ℕ) (trySend : ChunkHash → Bool) (live : List ChunkHash) :
    Numbering ids (node.rebalance peerId connected now trySend live).1 := by
  have hpins := rebalance_spec peerId connected now trySend live node
  exact h.of_pending (fun id p hp => hpins.pending ▸ hp) hpins.nextRequestId.ge

/-- **Probing** gives the next numbers to its requests. -/
theorem renumber_probe (h : Numbering ids node) (peerId : PeerId) (connected : List PeerId)
    (pinned : List ChunkHash) :
    Renumbered ids (node.probeEvictionCandidates peerId connected pinned).1
      (node.probeEvictionCandidates peerId connected pinned).2
      ((renumber ids node).probeEvictionCandidates peerId connected pinned) := by
  unfold probeEvictionCandidates
  dsimp only
  rw [show (renumber ids node).evictionCandidates peerId (currentMembers connected peerId) pinned =
    node.evictionCandidates peerId (currentMembers connected peerId) pinned from rfl]
  split_ifs
  · refine ⟨?_, ?_, by simp⟩
    · rw [List.map_nil, List.append_nil]
      exact h.of_pending (fun _ _ => id) le_rfl
    · rw [List.map_nil, List.append_nil]
      rfl
  · have hfiltered : Numbering ids { node with
        handler.confirmedHolders := node.handler.confirmedHolders.filter fun c =>
          c.1 ∈ node.evictionCandidates peerId (currentMembers connected peerId) pinned } :=
      h.of_pending (fun _ _ => id) le_rfl
    exact sendProbes_renumber hfiltered _ _

/-- **A response** is handled the same, when it comes under the number of its request. -/
theorem renumber_handleHeld (h : Numbering ids node) {k id : ℕ} (hk : ids[k]? = some id)
    (peerId : PeerId) (connected : List PeerId) (hashes : List ChunkHash) :
    (renumber ids node).handleHeld peerId connected k hashes =
      renumber ids (node.handleHeld peerId connected id hashes) := by
  have hpending : (renumber ids node).handler.pendingProbes k = node.handler.pendingProbes id := by
    simp [renumber, withIds, hk]
  unfold handleHeld
  rw [hpending]
  cases node.handler.pendingProbes id with
  | none => rfl
  | some peer =>
    dsimp only
    set noted : ReplicationNode PeerId := { node with
      handler.pendingProbes := Function.update node.handler.pendingProbes id none
      handler.confirmedHolders :=
        hashes.foldl (fun c hash => c.insert (hash, peer)) node.handler.confirmedHolders }
      with hnoted
    have hnoted' : ({ renumber ids node with
        handler.pendingProbes := Function.update (renumber ids node).handler.pendingProbes k none
        handler.confirmedHolders := hashes.foldl (fun c hash => c.insert (hash, peer))
          (renumber ids node).handler.confirmedHolders } : ReplicationNode PeerId) =
        noted.withIds (fun i : ℕ => ids[i]?.bind noted.handler.pendingProbes) ids.length :=
      congrArg (fun pending => noted.withIds pending ids.length) (bind_update h.nodup hk _ _).symm
    rw [hnoted', evictConfirmed, evictConfirmed, foldl_evictOne_withIds, renumber,
      (foldl_evictOne _ noted).2.2.2.1]
    rfl

theorem Numbering.handleHeld (h : Numbering ids node) (peerId : PeerId) (connected : List PeerId)
    (id : ℕ) (hashes : List ChunkHash) :
    Numbering ids (node.handleHeld peerId connected id hashes) := by
  obtain ⟨_, -, hevicts⟩ := handleHeld_spec peerId connected id hashes node
  exact h.of_pending hevicts.pending hevicts.nextRequestId.ge

end

end Edfs.ReplicationNode
