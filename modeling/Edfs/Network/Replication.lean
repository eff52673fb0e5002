import Edfs.Filesystem.Calls
import Edfs.Filesystem.StorageRuns
import Edfs.Network.ChunkFetcher

/-!
# Replication

`network/handlers/replication.rs` on one node. A node pins the reachable chunks it is designated
for, and evicts a pinned one it is not designated for once both designated holders have confirmed
that they have it pinned. Whom a node is connected to is an argument of every step that asks, and
so is the order in which it goes through a hash set. The timers that start `rebalance` and the
probes, and the fetches `rebalance` asks for, are left to the run.

* `rebalance`, `probeEvictionCandidates`, `answerCheck`, `handleHeld`, as the source computes them;
* `rebalance_spec`, `probe_spec`, `handleHeld_spec`: what each does to the pinned chunks, to the
  confirmations and to the pending probes.
-/

namespace Edfs

def maxHashesPerProbe : ℕ := 256

def maxFetchesPerRebalance : ℕ := 64

/-- The handler's state. The map from hashes to sets of confirmed holders is the list of its
pairs. -/
structure ReplicationHandler (PeerId : Type) where
  blockedUntil : ChunkHash → Option ℕ
  confirmedHolders : List (ChunkHash × PeerId)
  pendingProbes : ℕ → Option PeerId

def ReplicationHandler.new {PeerId : Type} : ReplicationHandler PeerId :=
  ⟨fun _ => none, [], fun _ => none⟩

/-- `Request::CheckChunks`, with the id of the request and who sends it to whom. -/
structure CheckChunks (PeerId : Type) where
  requestId : ℕ
  asker : PeerId
  answerer : PeerId
  hashes : List ChunkHash
  deriving DecidableEq

/-- `Response::HeldChunks`, with the id of the request it answers. -/
structure HeldChunks (PeerId : Type) where
  requestId : ℕ
  asker : PeerId
  answerer : PeerId
  hashes : List ChunkHash
  deriving DecidableEq

/-- A node: its file system, its handler and the id of the next request it sends. -/
structure ReplicationNode (PeerId : Type) [CrdtTree PeerId] where
  filesystem : FileSystem PeerId
  handler : ReplicationHandler PeerId
  nextRequestId : ℕ

/-- `slice::chunks`, for at most `fuel` pieces. -/
def batchesLoop {α : Type} (n : ℕ) : ℕ → List α → List (List α)
  | 0, _ => []
  | _ + 1, [] => []
  | fuel + 1, x :: xs => (x :: xs).take n :: batchesLoop n fuel ((x :: xs).drop n)

def batches {α : Type} (n : ℕ) (l : List α) : List (List α) := batchesLoop n l.length l

theorem ne_nil_of_mem_batches {α : Type} {n : ℕ} {l batch : List α} (h : batch ∈ batches n l) :
    l ≠ [] := by
  rintro rfl
  exact absurd h List.not_mem_nil

namespace ReplicationNode

variable {PeerId : Type}

/-- The peers a node is connected to, and itself. -/
def currentMembers (connected : List PeerId) (peerId : PeerId) : List PeerId :=
  connected ++ [peerId]

variable [PeerBytes PeerId] [Sha256]

def designatedHolders (hash : ChunkHash) (members : List PeerId) : List PeerId :=
  topPeers hash members 2

variable [CrdtTree PeerId] [DecidableEq PeerId]

def setFilesystem (node : ReplicationNode PeerId) (fs : FileSystem PeerId) :
    ReplicationNode PeerId := { node with filesystem := fs }

/-! ### Rebalancing -/

/-- Do not fetch a chunk again before the given time. -/
def block (node : ReplicationNode PeerId) (hash : ChunkHash) (time : ℕ) :
    ReplicationNode PeerId :=
  { node with
    handler.blockedUntil := Function.update node.handler.blockedUntil hash (some time) }

/-- The loop of `rebalance` over the reachable hashes; `trySend` says whether the channel takes a
fetch command, and the result lists the fetches asked for. -/
def rebalanceLoop (peerId : PeerId) (members : List PeerId) (now : ℕ)
    (trySend : ChunkHash → Bool) :
    List ChunkHash → ℕ → ReplicationNode PeerId → ReplicationNode PeerId × List ChunkHash
  | [], _, node => (node, [])
  | hash :: live, issued, node =>
    if peerId ∉ designatedHolders hash members then
      rebalanceLoop peerId members now trySend live issued node
    else if node.filesystem.isPinned hash then
      rebalanceLoop peerId members now trySend live issued node
    else if (node.handler.blockedUntil hash).any fun until_ => now < until_ then
      rebalanceLoop peerId members now trySend live issued node
    else if node.filesystem.isCached hash then
      let (promoted, fs) := node.filesystem.promoteToPinned hash
      let node := node.setFilesystem fs
      if promoted then rebalanceLoop peerId members now trySend live issued node
      else
        rebalanceLoop peerId members now trySend live issued
          (node.block hash (now + chunkFetchBackoff))
    else if maxFetchesPerRebalance ≤ issued then (node, [])
    else if trySend hash then
      let (node, fetches) := rebalanceLoop peerId members now trySend live (issued + 1) node
      (node, hash :: fetches)
    else rebalanceLoop peerId members now trySend live issued node

def rebalance (peerId : PeerId) (connected : List PeerId) (now : ℕ) (trySend : ChunkHash → Bool)
    (live : List ChunkHash) (node : ReplicationNode PeerId) :
    ReplicationNode PeerId × List ChunkHash :=
  let members := currentMembers connected peerId
  if members.length = 1 then (node, [])
  else rebalanceLoop peerId members now trySend live 0 node

/-! ### Probing -/

/-- The candidates a peer is asked about: those it is designated for and has not confirmed. -/
def byHolder (node : ReplicationNode PeerId) (members : List PeerId)
    (candidates : List ChunkHash) (peer : PeerId) : List ChunkHash :=
  candidates.filter fun hash =>
    peer ∈ designatedHolders hash members ∧ (hash, peer) ∉ node.handler.confirmedHolders

omit [PeerBytes PeerId] [Sha256] [DecidableEq PeerId] in
/-- Send a request for each batch, and remember whom it went to. -/
def sendProbes (peerId : PeerId) :
    List (PeerId × List ChunkHash) → ReplicationNode PeerId →
      ReplicationNode PeerId × List (CheckChunks PeerId)
  | [], node => (node, [])
  | (peer, batch) :: rest, node =>
    let requestId := node.nextRequestId
    let (node, sent) := sendProbes peerId rest
      { node with
        handler.pendingProbes := Function.update node.handler.pendingProbes requestId (some peer)
        nextRequestId := requestId + 1 }
    (node, ⟨requestId, peerId, peer, batch⟩ :: sent)

/-- The reachable ones of the pinned hashes that the node is not designated for. -/
def evictionCandidates (peerId : PeerId) (members : List PeerId) (pinned : List ChunkHash)
    (node : ReplicationNode PeerId) : List ChunkHash :=
  let reachable := node.filesystem.reachableChunkHashes
  pinned.filter fun hash => hash ∈ reachable ∧ peerId ∉ designatedHolders hash members

/-- The probes for the candidates, in batches. -/
def probes (node : ReplicationNode PeerId) (members : List PeerId) (candidates : List ChunkHash) :
    List (PeerId × List ChunkHash) :=
  members.flatMap fun peer =>
    (batches maxHashesPerProbe (node.byHolder members candidates peer)).map (peer, ·)

/-- `pinned` are the pinned hashes, in some order. -/
def probeEvictionCandidates (peerId : PeerId) (connected : List PeerId) (pinned : List ChunkHash)
    (node : ReplicationNode PeerId) : ReplicationNode PeerId × List (CheckChunks PeerId) :=
  let members := currentMembers connected peerId
  let candidates := node.evictionCandidates peerId members pinned
  if candidates = [] then ({ node with handler.confirmedHolders := [] }, [])
  else
    let node := { node with
      handler.confirmedHolders := node.handler.confirmedHolders.filter fun c => c.1 ∈ candidates }
    sendProbes peerId (node.probes members candidates) node

omit [PeerBytes PeerId] [Sha256] [DecidableEq PeerId] in
/-- The answer to a `CheckChunks` request: the hashes that are pinned. -/
def answerCheck (node : ReplicationNode PeerId) (r : CheckChunks PeerId) : HeldChunks PeerId :=
  ⟨r.requestId, r.asker, r.answerer, r.hashes.filter fun hash => node.filesystem.isPinned hash⟩

/-! ### Evicting -/

/-- Evict a chunk if it is pinned, and forget its confirmations. -/
def evictOne (node : ReplicationNode PeerId) (hash : ChunkHash) : ReplicationNode PeerId :=
  { node with
    filesystem :=
      if node.filesystem.isPinned hash then (node.filesystem.evictChunk hash).2
      else node.filesystem
    handler.confirmedHolders := node.handler.confirmedHolders.filter fun c => c.1 ≠ hash }

/-- The hashes that all their designated holders have confirmed. -/
def completed (peerId : PeerId) (connected : List PeerId) (node : ReplicationNode PeerId) :
    List ChunkHash :=
  let members := currentMembers connected peerId
  let live := node.filesystem.reachableChunkHashes
  (node.handler.confirmedHolders.map Prod.fst).dedup.filter fun hash =>
    hash ∈ live ∧ ∀ peer ∈ designatedHolders hash members,
      (hash, peer) ∈ node.handler.confirmedHolders

def evictConfirmed (peerId : PeerId) (connected : List PeerId) (node : ReplicationNode PeerId) :
    ReplicationNode PeerId := (completed peerId connected node).foldl evictOne node

/-- A `HeldChunks` response: note who has what, and evict. -/
def handleHeld (peerId : PeerId) (connected : List PeerId) (requestId : ℕ)
    (hashes : List ChunkHash) (node : ReplicationNode PeerId) : ReplicationNode PeerId :=
  match node.handler.pendingProbes requestId with
  | none => node
  | some peer =>
    evictConfirmed peerId connected
      { node with
        handler.pendingProbes := Function.update node.handler.pendingProbes requestId none
        handler.confirmedHolders :=
          hashes.foldl (fun c hash => c.insert (hash, peer)) node.handler.confirmedHolders }

/-- An `OutboundFailure` event. -/
def outboundFailure (requestId : ℕ) (node : ReplicationNode PeerId) : ReplicationNode PeerId :=
  { node with
    handler.pendingProbes := Function.update node.handler.pendingProbes requestId none }

end ReplicationNode

/-! ### What the steps do -/

namespace FileSystem

variable {PeerId : Type} [CrdtTree PeerId]

theorem mem_pinnedHashes {fs : FileSystem PeerId} {h : ChunkHash} :
    h ∈ fs.pinnedHashes ↔ fs.isPinned h := ChunkStorage.mem_pinnedHashes

theorem isPinned_evictChunk (fs : FileSystem PeerId) (h x : ChunkHash) :
    (fs.evictChunk h).2.isPinned x ↔ fs.isPinned x ∧ x ≠ h := by
  change (ChunkStorage.isPinned _ x = true) ↔ ChunkStorage.isPinned _ x = true ∧ _
  simp only [ChunkStorage.isPinned_iff]
  rw [show (fs.evictChunk h).2.storage = (fs.storage.evict h).2 from rfl]
  simp only [ChunkStorage.entry_evict]
  by_cases hx : x = h <;> simp [hx]

theorem isPinned_promoteToPinned {fs : FileSystem PeerId} {x : ChunkHash} (hx : fs.isPinned x)
    (h : ChunkHash) : (fs.promoteToPinned h).2.isPinned x := by
  obtain ⟨d, hd⟩ := ChunkStorage.isPinned_iff.1 hx
  exact ChunkStorage.isPinned_iff.2 ⟨d, ChunkStorage.entry_promote_of_pinned hd h⟩

end FileSystem

namespace ReplicationNode

variable {PeerId : Type} [CrdtTree PeerId] [LinearOrder PeerId] [Sha256]

/-- A step that at most pins chunks. -/
structure OnlyPins (node node' : ReplicationNode PeerId) : Prop where
  inv : node.filesystem.Inv → node'.filesystem.Inv
  pinned : ∀ h, node.filesystem.isPinned h → node'.filesystem.isPinned h
  confirmed : node'.handler.confirmedHolders = node.handler.confirmedHolders
  pending : node'.handler.pendingProbes = node.handler.pendingProbes
  nextRequestId : node'.nextRequestId = node.nextRequestId

theorem OnlyPins.refl (node : ReplicationNode PeerId) : OnlyPins node node :=
  ⟨id, fun _ => id, rfl, rfl, rfl⟩

theorem OnlyPins.trans {a b c : ReplicationNode PeerId} (h : OnlyPins a b) (h' : OnlyPins b c) :
    OnlyPins a c where
  inv := h'.inv ∘ h.inv
  pinned x := h'.pinned x ∘ h.pinned x
  confirmed := h'.confirmed.trans h.confirmed
  pending := h'.pending.trans h.pending
  nextRequestId := h'.nextRequestId.trans h.nextRequestId

theorem onlyPins_promote (node : ReplicationNode PeerId) (h : ChunkHash) :
    OnlyPins node (node.setFilesystem (node.filesystem.promoteToPinned h).2) where
  inv hinv := ⟨hinv.sound, ChunkStorage.inv_promoteToPinned hinv.storage h⟩
  pinned _ hx := FileSystem.isPinned_promoteToPinned hx h
  confirmed := rfl
  pending := rfl
  nextRequestId := rfl

variable [PeerBytes PeerId]

theorem onlyPins_rebalanceLoop (peerId : PeerId) (members : List PeerId) (now : ℕ)
    (trySend : ChunkHash → Bool) (live : List ChunkHash) (issued : ℕ)
    (node : ReplicationNode PeerId) :
    OnlyPins node (rebalanceLoop peerId members now trySend live issued node).1 := by
  induction live generalizing issued node with
  | nil => exact .refl node
  | cons hash live ih =>
    unfold rebalanceLoop
    split_ifs with hdesignated hpinned hblocked hcached hmax hsend
    · exact ih _ _
    · exact ih _ _
    · -- the chunk is cached
      have hpromote := onlyPins_promote node hash
      generalize node.filesystem.promoteToPinned hash = p at hpromote
      obtain ⟨promoted, fs⟩ := p
      cases promoted with
      | true => exact hpromote.trans (ih _ _)
      | false =>
        have hblock : OnlyPins (node.setFilesystem fs)
            ((node.setFilesystem fs).block hash (now + chunkFetchBackoff)) :=
          ⟨id, fun _ => id, rfl, rfl, rfl⟩
        exact (hpromote.trans hblock).trans (ih _ _)
    · exact .refl node
    · exact ih _ _
    · exact ih _ _
    · exact ih _ _

/-- **`rebalance` at most pins chunks.** -/
theorem rebalance_spec (peerId : PeerId) (connected : List PeerId) (now : ℕ)
    (trySend : ChunkHash → Bool) (live : List ChunkHash) (node : ReplicationNode PeerId) :
    OnlyPins node (rebalance peerId connected now trySend live node).1 := by
  unfold rebalance
  dsimp only
  split_ifs
  · exact .refl node
  · exact onlyPins_rebalanceLoop _ _ _ _ _ _ _

/-- A step that sends requests to others and may forget confirmations. -/
structure Probes (peerId : PeerId) (node node' : ReplicationNode PeerId)
    (sent : List (CheckChunks PeerId)) : Prop where
  filesystem : node'.filesystem = node.filesystem
  confirmed : node'.handler.confirmedHolders ⊆ node.handler.confirmedHolders
  nextRequestId : node.nextRequestId ≤ node'.nextRequestId
  asker : ∀ r ∈ sent, r.asker = peerId ∧ r.answerer ≠ peerId
  fresh : ∀ r ∈ sent, node.nextRequestId ≤ r.requestId ∧ r.requestId < node'.nextRequestId
  distinct : ∀ r ∈ sent, ∀ r' ∈ sent, r.requestId = r'.requestId → r = r'
  pending : ∀ id p, node'.handler.pendingProbes id = some p →
    node.handler.pendingProbes id = some p ∨ ∃ r ∈ sent, r.requestId = id ∧ r.answerer = p

omit [LinearOrder PeerId] [Sha256] [PeerBytes PeerId] in
theorem sendProbes_spec {peerId : PeerId} {probes : List (PeerId × List ChunkHash)}
    (hother : ∀ b ∈ probes, b.1 ≠ peerId) (node : ReplicationNode PeerId) :
    Probes peerId node (sendProbes peerId probes node).1 (sendProbes peerId probes node).2 := by
  induction probes generalizing node with
  | nil =>
    exact ⟨rfl, List.Subset.refl _, le_rfl, by simp [sendProbes], by simp [sendProbes],
      by simp [sendProbes], fun _ _ h => Or.inl h⟩
  | cons b probes ih =>
    obtain ⟨peer, batch⟩ := b
    have hrest := ih (fun b hb => hother b (List.mem_cons_of_mem _ hb))
      { node with
        handler.pendingProbes :=
          Function.update node.handler.pendingProbes node.nextRequestId (some peer)
        nextRequestId := node.nextRequestId + 1 }
    have hlater : ∀ r ∈ (sendProbes peerId ((peer, batch) :: probes) node).2,
        r = ⟨node.nextRequestId, peerId, peer, batch⟩ ∨ node.nextRequestId < r.requestId := by
      intro r hr
      rcases List.mem_cons.1 hr with rfl | hr
      · exact Or.inl rfl
      · exact Or.inr (hrest.fresh r hr).1
    refine ⟨hrest.filesystem, hrest.confirmed, (Nat.le_succ _).trans hrest.nextRequestId, ?_, ?_,
      ?_, ?_⟩
    · intro r hr
      rcases List.mem_cons.1 hr with rfl | hr
      · exact ⟨rfl, hother _ List.mem_cons_self⟩
      · exact hrest.asker r hr
    · intro r hr
      rcases List.mem_cons.1 hr with rfl | hr
      · exact ⟨le_rfl, hrest.nextRequestId⟩
      · obtain ⟨h1, h2⟩ := hrest.fresh r hr
        exact ⟨(Nat.le_succ _).trans h1, h2⟩
    · intro r hr r' hr' heq
      rcases List.mem_cons.1 hr with rfl | hr
      · rcases hlater r' hr' with rfl | hlt
        · rfl
        · exact absurd heq hlt.ne
      · rcases List.mem_cons.1 hr' with rfl | hr'
        · exact absurd heq (Nat.ne_of_gt (hrest.fresh r hr).1)
        · exact hrest.distinct r hr r' hr' heq
    · intro id p hp
      rcases hrest.pending id p hp with hp | ⟨r, hr, h1, h2⟩
      · by_cases hid : id = node.nextRequestId
        · subst hid
          simp only [Function.update_self] at hp
          cases hp
          exact Or.inr ⟨_, List.mem_cons_self, rfl, rfl⟩
        · simp only [Function.update_of_ne hid] at hp
          exact Or.inl hp
      · exact Or.inr ⟨r, List.mem_cons_of_mem _ hr, h1, h2⟩

/-- A node is not among those it asks. -/
theorem ne_of_mem_probes {node node' : ReplicationNode PeerId} {peerId : PeerId}
    {members : List PeerId} {pinned : List ChunkHash} {b : PeerId × List ChunkHash}
    (hb : b ∈ node.probes members (node'.evictionCandidates peerId members pinned)) :
    b.1 ≠ peerId := by
  obtain ⟨peer, -, hb⟩ := List.mem_flatMap.1 hb
  obtain ⟨batch, hbatch, rfl⟩ := List.mem_map.1 hb
  obtain ⟨hash, hmem⟩ := List.exists_mem_of_ne_nil _ (ne_nil_of_mem_batches hbatch)
  rw [byHolder, List.mem_filter, decide_eq_true_eq] at hmem
  obtain ⟨hcandidate, hpeer, -⟩ := hmem
  rw [evictionCandidates, List.mem_filter, decide_eq_true_eq] at hcandidate
  rintro rfl
  exact hcandidate.2.2 hpeer

/-- **A probe asks others, each request under a new id.** -/
theorem probe_spec (peerId : PeerId) (connected : List PeerId) (pinned : List ChunkHash)
    (node : ReplicationNode PeerId) :
    Probes peerId node (probeEvictionCandidates peerId connected pinned node).1
      (probeEvictionCandidates peerId connected pinned node).2 := by
  unfold probeEvictionCandidates
  dsimp only
  split_ifs with hnone
  · exact ⟨rfl, List.nil_subset _, le_rfl, by simp, by simp, by simp, fun _ _ h => Or.inl h⟩
  · obtain ⟨h1, h2, h3, h4, h5, h6, h7⟩ := sendProbes_spec (fun b hb => ne_of_mem_probes hb)
      { node with
        handler.confirmedHolders := node.handler.confirmedHolders.filter fun c =>
          c.1 ∈ node.evictionCandidates peerId (currentMembers connected peerId) pinned }
    exact ⟨h1, List.Subset.trans h2 List.filter_sublist.subset, h3, h4, h5, h6, h7⟩

/-- A step that may evict chunks all of whose designated holders are in a list of
confirmations. -/
structure Evicts (peerId : PeerId) (connected : List PeerId)
    (confirmations : List (ChunkHash × PeerId)) (node node' : ReplicationNode PeerId) : Prop where
  inv : node.filesystem.Inv → node'.filesystem.Inv
  pinned : ∀ h, node'.filesystem.isPinned h → node.filesystem.isPinned h
  evicted : ∀ h, node.filesystem.isPinned h → ¬ node'.filesystem.isPinned h →
    ∀ p ∈ designatedHolders h (currentMembers connected peerId), (h, p) ∈ confirmations
  confirmed : node'.handler.confirmedHolders ⊆ confirmations
  pending : ∀ id p, node'.handler.pendingProbes id = some p →
    node.handler.pendingProbes id = some p
  nextRequestId : node'.nextRequestId = node.nextRequestId

omit [LinearOrder PeerId] [Sha256] [PeerBytes PeerId] in
theorem isPinned_evictOne (node : ReplicationNode PeerId) (hash h : ChunkHash) :
    (node.evictOne hash).filesystem.isPinned h ↔ node.filesystem.isPinned h ∧ h ≠ hash := by
  unfold evictOne
  dsimp only
  split_ifs with hpinned
  · exact FileSystem.isPinned_evictChunk _ _ _
  · refine (and_iff_left_of_imp fun hh => ?_).symm
    rintro rfl
    exact hpinned hh

omit [PeerBytes PeerId] in
/-- Evicting a list of chunks. -/
theorem foldl_evictOne (hashes : List ChunkHash) (node : ReplicationNode PeerId) :
    (node.filesystem.Inv → (hashes.foldl evictOne node).filesystem.Inv) ∧
      (∀ h, (hashes.foldl evictOne node).filesystem.isPinned h ↔
        node.filesystem.isPinned h ∧ h ∉ hashes) ∧
      (hashes.foldl evictOne node).handler.confirmedHolders ⊆ node.handler.confirmedHolders ∧
      (hashes.foldl evictOne node).handler.pendingProbes = node.handler.pendingProbes ∧
      (hashes.foldl evictOne node).nextRequestId = node.nextRequestId := by
  induction hashes generalizing node with
  | nil => exact ⟨id, fun h => by simp, List.Subset.refl _, rfl, rfl⟩
  | cons hash hashes ih =>
    obtain ⟨h1, h2, h3, h4, h5⟩ := ih (node.evictOne hash)
    refine ⟨fun hinv => h1 ?_, fun h => ?_, List.Subset.trans h3 List.filter_sublist.subset, h4, h5⟩
    · unfold evictOne
      dsimp only
      split_ifs
      · exact ⟨hinv.sound, ChunkStorage.inv_evict hinv.storage hash⟩
      · exact hinv
    · rw [List.foldl_cons, h2, isPinned_evictOne, List.mem_cons, not_or, and_assoc]

/-- **A `HeldChunks` response** is noted for the peer that was asked, and evicts only what all
designated holders have confirmed. -/
theorem handleHeld_spec (peerId : PeerId) (connected : List PeerId) (requestId : ℕ)
    (hashes : List ChunkHash) (node : ReplicationNode PeerId) :
    ∃ confirmations, (∀ c ∈ confirmations, c ∈ node.handler.confirmedHolders ∨
        c.1 ∈ hashes ∧ node.handler.pendingProbes requestId = some c.2) ∧
      Evicts peerId connected confirmations node
        (handleHeld peerId connected requestId hashes node) := by
  unfold handleHeld
  cases hpending : node.handler.pendingProbes requestId with
  | none =>
    exact ⟨node.handler.confirmedHolders, fun c => Or.inl, id, fun _ => id,
      fun h hp hnot => absurd hp hnot, List.Subset.refl _, fun _ _ => id, rfl⟩
  | some peer =>
    set noted := hashes.foldl (fun c hash => c.insert (hash, peer)) node.handler.confirmedHolders
      with hnoted
    have hmem : ∀ c ∈ noted,
        c ∈ node.handler.confirmedHolders ∨ c.1 ∈ hashes ∧ some peer = some c.2 := by
      rw [hnoted]
      generalize node.handler.confirmedHolders = confirmed
      clear hnoted
      induction hashes generalizing confirmed with
      | nil => exact fun c hc => Or.inl hc
      | cons hash hashes ih =>
        intro c hc
        rcases ih _ c hc with hc | ⟨hc, hp⟩
        · rcases List.mem_insert_iff.1 hc with rfl | hc
          · exact Or.inr ⟨List.mem_cons_self, rfl⟩
          · exact Or.inl hc
        · exact Or.inr ⟨List.mem_cons_of_mem _ hc, hp⟩
    refine ⟨noted, hmem, ?_⟩
    set node₁ : ReplicationNode PeerId := { node with
      handler.pendingProbes := Function.update node.handler.pendingProbes requestId none
      handler.confirmedHolders := noted } with hnode₁
    obtain ⟨h1, h2, h3, h4, h5⟩ := foldl_evictOne (completed peerId connected node₁) node₁
    refine ⟨h1, fun h hh => ((h2 h).1 hh).1, fun h hp hnot => ?_, h3, fun id p hp => ?_, h5⟩
    · -- an evicted chunk is one of the completed ones
      have hc : h ∈ completed peerId connected node₁ := by
        by_contra hc
        exact hnot ((h2 h).2 ⟨hp, hc⟩)
      rw [completed, List.mem_filter, decide_eq_true_eq] at hc
      exact hc.2.2
    · dsimp only [evictConfirmed] at hp
      rw [h4] at hp
      by_cases hid : id = requestId
      · subst hid
        simp [hnode₁] at hp
      · simpa [hnode₁, hid] using hp

end ReplicationNode

end Edfs
