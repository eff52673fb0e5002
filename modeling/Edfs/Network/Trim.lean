import Edfs.Network.Repair

/-!
# Trimming extra copies

The second half of a round among fully connected nodes: each probes its eviction candidates, every
request is answered, and every reply handled, in any order, with nothing lost. A node asks only for
the confirmations it does not remember, and evicts only when a reply arrives.

* `Extra`, `probe_asks`, `handleHeld_held`: what a probe asks for, and what a reply leaves;
* `TrimWorld`, `trimStep`; `Trimming`, what every step keeps: `trimming_step`, `trimming_run`;
* `Active`, `no_extra_of_quiet`: a node that has asked for something ends without extra copies;
* `trim_idle`: where there is nothing to ask for, nothing happens.
-/

namespace Edfs

open Execution

/-! ### What a node asks for -/

theorem flatten_batchesLoop {α : Type} {n : ℕ} (hn : 0 < n) (fuel : ℕ) (l : List α)
    (hfuel : l.length ≤ fuel) : (batchesLoop n fuel l).flatten = l := by
  induction fuel generalizing l with
  | zero =>
    rw [List.length_eq_zero_iff.1 (Nat.le_zero.1 hfuel)]
    rfl
  | succ fuel ih =>
    cases l with
    | nil => rfl
    | cons x xs =>
      have hrest : ((x :: xs).drop n).length ≤ fuel := by
        rw [List.length_drop]
        omega
      rw [batchesLoop, List.flatten_cons, ih _ hrest, List.take_append_drop]

/-- The batches are the whole list. -/
theorem flatten_batches {α : Type} {n : ℕ} (hn : 0 < n) (l : List α) :
    (batches n l).flatten = l := flatten_batchesLoop hn l.length l le_rfl

namespace ReplicationNode

open ReplicationWorld RepairWorld

variable {PeerId : Type} [CrdtTree PeerId]

/-- What `sendProbes` sends: a request for each probe, which it remembers. -/
structure SendsAll (probes : List (PeerId × List ChunkHash)) (node node' : ReplicationNode PeerId)
    (sent : List (CheckChunks PeerId)) : Prop where
  confirmed : node'.handler.confirmedHolders = node.handler.confirmedHolders
  all : ∀ b ∈ probes, ∃ r ∈ sent, r.answerer = b.1 ∧ r.hashes = b.2
  probe : ∀ r ∈ sent, (r.answerer, r.hashes) ∈ probes
  pending : ∀ r ∈ sent, node'.handler.pendingProbes r.requestId = some r.answerer
  older : ∀ id < node.nextRequestId,
    node'.handler.pendingProbes id = node.handler.pendingProbes id

theorem sendProbes_sendsAll (peerId : PeerId) (probes : List (PeerId × List ChunkHash))
    (node : ReplicationNode PeerId) :
    SendsAll probes node (sendProbes peerId probes node).1 (sendProbes peerId probes node).2 := by
  induction probes generalizing node with
  | nil =>
    exact ⟨rfl, fun _ h => absurd h List.not_mem_nil, fun _ h => absurd h List.not_mem_nil,
      fun _ h => absurd h List.not_mem_nil, fun _ _ => rfl⟩
  | cons b probes ih =>
    obtain ⟨peer, batch⟩ := b
    have hrest := ih
      { node with
        handler.pendingProbes :=
          Function.update node.handler.pendingProbes node.nextRequestId (some peer)
        nextRequestId := node.nextRequestId + 1 }
    refine ⟨hrest.confirmed, fun b hb => ?_, fun r hr => ?_, fun r hr => ?_, fun id hid => ?_⟩
    · rcases List.mem_cons.1 hb with rfl | hb
      · exact ⟨_, List.mem_cons_self, rfl, rfl⟩
      · obtain ⟨r, hr, hasked⟩ := hrest.all b hb
        exact ⟨r, List.mem_cons_of_mem _ hr, hasked⟩
    · rcases List.mem_cons.1 hr with rfl | hr
      · exact List.mem_cons_self
      · exact List.mem_cons_of_mem _ (hrest.probe r hr)
    · rcases List.mem_cons.1 hr with rfl | hr
      · -- the requests after the first do not take its id
        exact (hrest.older _ (Nat.lt_succ_self _)).trans (Function.update_self _ _ _)
      · exact hrest.pending r hr
    · exact (hrest.older id (hid.trans (Nat.lt_succ_self _))).trans
        (Function.update_of_ne hid.ne _ _)

variable [LinearOrder PeerId] [PeerBytes PeerId] [Sha256]

/-- A reachable chunk that a node has pinned and is not designated for. -/
def Extra (members : List PeerId) (live : Finset ChunkHash) (p : PeerId)
    (node : ReplicationNode PeerId) (x : ChunkHash) : Prop :=
  node.filesystem.isPinned x ∧ x ∈ live ∧ p ∉ designatedHolders x members

/-- What a probe among `members` asks for. -/
structure AsksFor (members : List PeerId) (live : Finset ChunkHash) (p : PeerId)
    (node node' : ReplicationNode PeerId) (sent : List (CheckChunks PeerId)) : Prop where
  confirmed : ∀ x, Extra members live p node x → ∀ q,
    (x, q) ∈ node'.handler.confirmedHolders ↔ (x, q) ∈ node.handler.confirmedHolders
  all : ∀ x, Extra members live p node x → ∀ q ∈ designatedHolders x members,
    (x, q) ∈ node.handler.confirmedHolders ∨ ∃ r ∈ sent, r.answerer = q ∧ x ∈ r.hashes
  hashes : ∀ r ∈ sent, ∀ x ∈ r.hashes, x ∈ live ∧ r.answerer ∈ designatedHolders x members
  asked : ∀ r ∈ sent, ∃ x, Extra members live p node x ∧ r.answerer ∈ designatedHolders x members ∧
    (x, r.answerer) ∉ node.handler.confirmedHolders
  pending : ∀ r ∈ sent, node'.handler.pendingProbes r.requestId = some r.answerer
  older : ∀ id < node.nextRequestId,
    node'.handler.pendingProbes id = node.handler.pendingProbes id

variable {members connected : List PeerId} {live : Finset ChunkHash} {p : PeerId}
  {node : ReplicationNode PeerId} {pinned : List ChunkHash}

theorem mem_evictionCandidates [LawfulPeerBytes PeerId] (hview : FullView members p connected)
    (hpinned : Lists pinned node.filesystem.pinnedHashes)
    (hlive : node.filesystem.reachableChunkHashes = live) {x : ChunkHash} :
    x ∈ node.evictionCandidates p (currentMembers connected p) pinned ↔
      Extra members live p node x := by
  rw [evictionCandidates, List.mem_filter, decide_eq_true_eq, ← List.mem_toFinset, hpinned.2,
    FileSystem.mem_pinnedHashes, hlive, hview.designatedHolders_eq]
  rfl

/-- **A probe asks** each designated holder of each extra copy that is not known to have it. -/
theorem probe_asks [LawfulPeerBytes PeerId] (hview : FullView members p connected)
    (hpinned : Lists pinned node.filesystem.pinnedHashes)
    (hlive : node.filesystem.reachableChunkHashes = live) :
    AsksFor members live p node (node.probeEvictionCandidates p connected pinned).1
      (node.probeEvictionCandidates p connected pinned).2 := by
  have hcandidate := fun x => mem_evictionCandidates (x := x) hview hpinned hlive
  unfold probeEvictionCandidates
  dsimp only
  set candidates := node.evictionCandidates p (currentMembers connected p) pinned
  split_ifs with hnone
  · have hnot : ∀ x, ¬ Extra members live p node x := fun x hx => by
      have hmem := (hcandidate x).2 hx
      rw [hnone] at hmem
      exact List.not_mem_nil hmem
    exact ⟨fun x hx => absurd hx (hnot x), fun x hx => absurd hx (hnot x),
      fun _ h => absurd h List.not_mem_nil, fun _ h => absurd h List.not_mem_nil,
      fun _ h => absurd h List.not_mem_nil, fun _ _ => rfl⟩
  · set node₁ : ReplicationNode PeerId := { node with
      handler.confirmedHolders :=
        node.handler.confirmedHolders.filter fun c => c.1 ∈ candidates } with hnode₁
    have hkept : ∀ x, Extra members live p node x → ∀ q,
        (x, q) ∈ node₁.handler.confirmedHolders ↔ (x, q) ∈ node.handler.confirmedHolders := by
      intro x hx q
      rw [hnode₁, List.mem_filter, decide_eq_true_eq]
      exact and_iff_left ((hcandidate x).2 hx)
    have hholder : ∀ x q, x ∈ node₁.byHolder (currentMembers connected p) candidates q ↔
        Extra members live p node x ∧ q ∈ designatedHolders x members ∧
          (x, q) ∉ node.handler.confirmedHolders := by
      intro x q
      rw [byHolder, List.mem_filter, decide_eq_true_eq, hcandidate, hview.designatedHolders_eq]
      refine and_congr_right fun hx => ?_
      rw [hkept x hx]
    obtain ⟨hconfirmed, hall, hprobe, hpending, holder⟩ :=
      sendProbes_sendsAll p (node₁.probes (currentMembers connected p) candidates) node₁
    have hbatch : ∀ r ∈ (sendProbes p (node₁.probes (currentMembers connected p) candidates)
        node₁).2, r.hashes ∈ batches maxHashesPerProbe
          (node₁.byHolder (currentMembers connected p) candidates r.answerer) := by
      intro r hr
      obtain ⟨q, -, hq⟩ := List.mem_flatMap.1 (hprobe r hr)
      obtain ⟨batch, hbatch, heq⟩ := List.mem_map.1 hq
      cases heq
      exact hbatch
    refine ⟨fun x hx q => ?_, fun x hx q hq => or_iff_not_imp_left.2 fun hnot => ?_,
      fun r hr x hx => ?_, fun r hr => ?_, hpending, holder⟩
    · rw [hconfirmed]
      exact hkept x hx q
    · -- the hash is in one of the batches for the peer
      have hmem : x ∈ (batches maxHashesPerProbe
          (node₁.byHolder (currentMembers connected p) candidates q)).flatten := by
        rw [flatten_batches (by decide)]
        exact (hholder x q).2 ⟨hx, hq, hnot⟩
      obtain ⟨batch, hbatch, hxbatch⟩ := List.mem_flatten.1 hmem
      have hqmember : q ∈ currentMembers connected p :=
        hview.currentMembers_perm.mem_iff.2 (Ranking.top_subset hq)
      obtain ⟨r, hr, hanswerer, hhashes⟩ := hall (q, batch)
        (List.mem_flatMap.2 ⟨q, hqmember, List.mem_map.2 ⟨batch, hbatch, rfl⟩⟩)
      exact ⟨r, hr, hanswerer, hhashes ▸ hxbatch⟩
    · have hmem : x ∈ node₁.byHolder (currentMembers connected p) candidates r.answerer := by
        rw [← flatten_batches (n := maxHashesPerProbe) (by decide)
          (node₁.byHolder (currentMembers connected p) candidates r.answerer)]
        exact List.mem_flatten.2 ⟨r.hashes, hbatch r hr, hx⟩
      obtain ⟨hextra, hdesignated, -⟩ := (hholder x _).1 hmem
      exact ⟨hextra.2.1, hdesignated⟩
    · obtain ⟨x, hx⟩ := List.exists_mem_of_ne_nil _ (ne_nil_of_mem_batches (hbatch r hr))
      exact ⟨x, (hholder x _).1 hx⟩

/-! ### What a reply leaves -/

omit [LinearOrder PeerId] [PeerBytes PeerId] [Sha256] in
theorem mem_foldl_evictOne (hashes : List ChunkHash) (node : ReplicationNode PeerId)
    {c : ChunkHash × PeerId} :
    c ∈ (hashes.foldl evictOne node).handler.confirmedHolders ↔
      c ∈ node.handler.confirmedHolders ∧ c.1 ∉ hashes := by
  induction hashes generalizing node with
  | nil => simp
  | cons hash hashes ih =>
    rw [List.foldl_cons, ih, evictOne, List.mem_filter, decide_eq_true_eq, List.mem_cons, not_or,
      and_assoc]

omit [LinearOrder PeerId] [PeerBytes PeerId] [Sha256] in
theorem tree_foldl_evictOne (hashes : List ChunkHash) (node : ReplicationNode PeerId) :
    (hashes.foldl evictOne node).filesystem.tree = node.filesystem.tree := by
  induction hashes generalizing node with
  | nil => rfl
  | cons hash hashes ih =>
    rw [List.foldl_cons, ih, evictOne]
    dsimp only
    split_ifs <;> rfl

/-- A reply to a probe of `peer` has been handled. -/
structure Hears (members : List PeerId) (live : Finset ChunkHash) (p peer : PeerId) (requestId : ℕ)
    (hashes : List ChunkHash) (node node' : ReplicationNode PeerId) : Prop where
  tree : node'.filesystem.tree = node.filesystem.tree
  fewer : ∀ x, node'.filesystem.isPinned x → node.filesystem.isPinned x
  kept : ∀ x, node.filesystem.isPinned x → p ∈ designatedHolders x members →
    node'.filesystem.isPinned x
  sources : ∀ c ∈ node'.handler.confirmedHolders,
    c ∈ node.handler.confirmedHolders ∨ c.2 = peer
  pending : node'.handler.pendingProbes = Function.update node.handler.pendingProbes requestId none
  nextRequestId : node'.nextRequestId = node.nextRequestId
  confirmed : ∀ x, Extra members live p node' x → ∀ q,
    (x, q) ∈ node'.handler.confirmedHolders ↔
      (x, q) ∈ node.handler.confirmedHolders ∨ x ∈ hashes ∧ q = peer
  unconfirmed : ∀ x, Extra members live p node' x → ∃ q ∈ designatedHolders x members,
    (x, q) ∉ node'.handler.confirmedHolders

/-- **A reply** leaves no extra copy that all designated holders have confirmed, and evicts no
other chunk that the node is designated for. -/
theorem handleHeld_held [LawfulPeerBytes PeerId] (hview : FullView members p connected)
    (hlive : node.filesystem.reachableChunkHashes = live) {peer : PeerId} {requestId : ℕ}
    (hpending : node.handler.pendingProbes requestId = some peer) (hpeer : peer ≠ p)
    (hself : ∀ c ∈ node.handler.confirmedHolders, c.2 ≠ p) (hashes : List ChunkHash) :
    Hears members live p peer requestId hashes node
      (node.handleHeld p connected requestId hashes) := by
  unfold handleHeld
  rw [hpending]
  dsimp only
  set node₁ : ReplicationNode PeerId := { node with
    handler.pendingProbes := Function.update node.handler.pendingProbes requestId none
    handler.confirmedHolders := hashes.foldl (fun c hash => c.insert (hash, peer))
      node.handler.confirmedHolders } with hnode₁
  have hnoted : ∀ c, c ∈ node₁.handler.confirmedHolders ↔
      c ∈ node.handler.confirmedHolders ∨ c.1 ∈ hashes ∧ c.2 = peer := by
    intro c
    rw [hnode₁]
    dsimp only
    generalize node.handler.confirmedHolders = confirmed
    clear hnode₁ node₁
    induction hashes generalizing confirmed with
    | nil => simp
    | cons hash hashes ih =>
      rw [List.foldl_cons, ih, List.mem_insert_iff, List.mem_cons]
      obtain ⟨x, q⟩ := c
      rw [Prod.mk.injEq, or_and_right, or_comm (a := x = hash ∧ q = peer), or_assoc]
  have hnotself : ∀ c ∈ node₁.handler.confirmedHolders, c.2 ≠ p := by
    intro c hc
    rcases (hnoted c).1 hc with hc | ⟨-, hc⟩
    · exact hself c hc
    · rw [hc]
      exact hpeer
  have hcompleted : ∀ x, x ∈ completed p connected node₁ ↔ x ∈ live ∧
      ∀ q ∈ designatedHolders x members, (x, q) ∈ node₁.handler.confirmedHolders := by
    intro x
    have hreach : node₁.filesystem.reachableChunkHashes = live := hlive
    rw [completed, List.mem_filter, decide_eq_true_eq, hreach, hview.designatedHolders_eq]
    refine and_iff_right_of_imp fun hx => ?_
    -- some peer is designated
    have hne : designatedHolders x members ≠ [] :=
      Ranking.top_ne_nil (List.ne_nil_of_mem hview.1) two_ne_zero
    obtain ⟨q, hq⟩ := List.exists_mem_of_ne_nil _ hne
    exact List.mem_dedup.2 (List.mem_map.2 ⟨(x, q), hx.2 q hq, rfl⟩)
  obtain ⟨-, hpinned, -, hpendings, hid⟩ := foldl_evictOne (completed p connected node₁) node₁
  have hconfirmed := fun c => mem_foldl_evictOne (completed p connected node₁) node₁ (c := c)
  unfold evictConfirmed
  refine ⟨tree_foldl_evictOne _ _, fun x hx => ((hpinned x).1 hx).1, fun x hx hp => ?_,
    fun c hc => ?_, hpendings, hid, fun x hx q => ?_, fun x hx => ?_⟩
  · -- the node itself is never confirmed
    refine (hpinned x).2 ⟨hx, fun hcomplete => ?_⟩
    exact hnotself _ (((hcompleted x).1 hcomplete).2 p hp) rfl
  · exact ((hnoted c).1 ((hconfirmed c).1 hc).1).imp_right And.right
  · rw [hconfirmed, and_iff_left ((hpinned x).1 hx.1).2, hnoted]
  · by_contra hnone
    refine ((hpinned x).1 hx.1).2 ((hcompleted x).2 ⟨hx.2.1, fun q hq => ?_⟩)
    exact ((hconfirmed _).1 (not_not.1 fun hnot => hnone ⟨q, hq, hnot⟩)).1

end ReplicationNode

/-! ### The second half of a round -/

inductive TrimEvent (PeerId : Type)
  | probe (p : PeerId) (connected : List PeerId) (pinned : List ChunkHash)
  | checkChunks (r : CheckChunks PeerId)
  | heldChunks (m : HeldChunks PeerId) (connected : List PeerId)

/-- The nodes, and the requests and replies under way. -/
structure TrimWorld (PeerId : Type) [CrdtTree PeerId] where
  nodes : PeerId → ReplicationNode PeerId
  checks : Finset (CheckChunks PeerId)
  held : Finset (HeldChunks PeerId)

namespace TrimWorld

open ReplicationNode ReplicationWorld RepairWorld

variable {PeerId : Type} [CrdtTree PeerId]

def init (nodes : PeerId → ReplicationNode PeerId) : TrimWorld PeerId := ⟨nodes, ∅, ∅⟩

/-- Nothing is under way. -/
def Quiet (w : TrimWorld PeerId) : Prop := w.checks = ∅ ∧ w.held = ∅

variable [LinearOrder PeerId] [PeerBytes PeerId] [Sha256]

/-- One event of the second half of a round. Messages are taken once, and none is lost. -/
def trimStep (members : List PeerId) :
    TrimEvent PeerId → TrimWorld PeerId → Option (TrimWorld PeerId)
  | .probe p connected pinned, w =>
    if FullView members p connected ∧ Lists pinned (w.nodes p).filesystem.pinnedHashes then
      let (node, sent) := (w.nodes p).probeEvictionCandidates p connected pinned
      some { w with
        nodes := Function.update w.nodes p node
        checks := w.checks ∪ sent.toFinset }
    else none
  | .checkChunks r, w =>
    if r ∈ w.checks then
      some { w with
        checks := w.checks.erase r
        held := insert ((w.nodes r.answerer).answerCheck r) w.held }
    else none
  | .heldChunks m connected, w =>
    if m ∈ w.held ∧ FullView members m.asker connected then
      some { w with
        nodes := Function.update w.nodes m.asker
          ((w.nodes m.asker).handleHeld m.asker connected m.requestId m.hashes)
        held := w.held.erase m }
    else none

/-- A request that `p` has sent to `q`, and waits for. -/
structure Asked (members : List PeerId) (live : Finset ChunkHash) (w : TrimWorld PeerId)
    (p : PeerId) (id : ℕ) (q : PeerId) (hashes : List ChunkHash) : Prop where
  asker : p ∈ members
  answerer : q ∈ members ∧ q ≠ p
  lt : id < (w.nodes p).nextRequestId
  pending : (w.nodes p).handler.pendingProbes id = some q
  hashes : ∀ x ∈ hashes, x ∈ live ∧ q ∈ designatedHolders x members

/-- The invariant of the second half of a round that has begun with `nodes`. Nothing is pinned, a
copy of a designated holder is kept, and every message is waited for, under its own id. -/
structure Trimming (members : List PeerId) (live : Finset ChunkHash)
    (nodes : PeerId → ReplicationNode PeerId) (w : TrimWorld PeerId) : Prop where
  tree : ∀ p, (w.nodes p).filesystem.tree = (nodes p).filesystem.tree
  fewer : ∀ p x, (w.nodes p).filesystem.isPinned x → (nodes p).filesystem.isPinned x
  kept : ∀ p, ∀ x, p ∈ designatedHolders x members → (nodes p).filesystem.isPinned x →
    (w.nodes p).filesystem.isPinned x
  self : ∀ p ∈ members, ∀ c ∈ (w.nodes p).handler.confirmedHolders, c.2 ≠ p
  checks : ∀ r ∈ w.checks, Asked members live w r.asker r.requestId r.answerer r.hashes
  held : ∀ m ∈ w.held, Asked members live w m.asker m.requestId m.answerer m.hashes
  checks_distinct : ∀ r ∈ w.checks, ∀ r' ∈ w.checks,
    r.asker = r'.asker → r.requestId = r'.requestId → r = r'
  held_distinct : ∀ m ∈ w.held, ∀ m' ∈ w.held,
    m.asker = m'.asker → m.requestId = m'.requestId → m = m'
  apart : ∀ r ∈ w.checks, ∀ m ∈ w.held, r.asker = m.asker → r.requestId ≠ m.requestId

variable {members : List PeerId} {live : Finset ChunkHash} {p q : PeerId}
  {nodes : PeerId → ReplicationNode PeerId} {w w' : TrimWorld PeerId}

omit [LinearOrder PeerId] in
theorem trimming_init
    (hself : ∀ p ∈ members, ∀ c ∈ (nodes p).handler.confirmedHolders, c.2 ≠ p) :
    Trimming members live nodes (init nodes) where
  tree _ := rfl
  fewer _ _ := id
  kept _ _ _ := id
  self := hself
  checks _ h := absurd h (Finset.notMem_empty _)
  held _ h := absurd h (Finset.notMem_empty _)
  checks_distinct _ h := absurd h (Finset.notMem_empty _)
  held_distinct _ h := absurd h (Finset.notMem_empty _)
  apart _ h := absurd h (Finset.notMem_empty _)

omit [LinearOrder PeerId] in
/-- A request stays waited for. -/
theorem Asked.mono {id : ℕ} {hashes : List ChunkHash} (h : Asked members live w p id q hashes)
    (hnext : (w.nodes p).nextRequestId ≤ (w'.nodes p).nextRequestId)
    (hpending : (w'.nodes p).handler.pendingProbes id = (w.nodes p).handler.pendingProbes id) :
    Asked members live w' p id q hashes :=
  ⟨h.asker, h.answerer, h.lt.trans_le hnext, hpending.trans h.pending, h.hashes⟩

section Step

variable [LawfulCrdtTree PeerId] [LawfulPeerBytes PeerId]

theorem trimming_probe (hsound : ∀ p, (nodes p).filesystem.tree.Sound)
    (hlive : ∀ p ∈ members, (nodes p).filesystem.reachableChunkHashes = live)
    (h : Trimming members live nodes w) {connected : List PeerId} {pinned : List ChunkHash}
    (hstep : trimStep members (.probe p connected pinned) w = some w') :
    Trimming members live nodes w' := by
  simp only [trimStep] at hstep
  split_ifs at hstep with hguard
  obtain ⟨hview, hpinned⟩ := hguard
  have hp := hview.1
  have hprobe := probe_spec p connected pinned (w.nodes p)
  have hasks := probe_asks hview hpinned (reachable_eq hsound hlive hp (h.tree p))
  obtain rfl := Option.some.inj hstep
  generalize (w.nodes p).probeEvictionCandidates p connected pinned = r at hprobe hasks ⊢
  obtain ⟨node, sent⟩ := r
  set w₁ : TrimWorld PeerId := { w with
    nodes := Function.update w.nodes p node
    checks := w.checks ∪ sent.toFinset }
  have hself : w₁.nodes p = node := Function.update_self _ _ _
  have hother : ∀ a, a ≠ p → w₁.nodes a = w.nodes a := fun a ha => Function.update_of_ne ha _ _
  have hfs : ∀ a, (w₁.nodes a).filesystem = (w.nodes a).filesystem := by
    intro a
    by_cases ha : a = p
    · rw [ha, hself]
      exact hprobe.filesystem
    · rw [hother a ha]
  -- the older requests are still waited for
  have hold : ∀ {a : PeerId} {id : ℕ} {q : PeerId} {hashes : List ChunkHash},
      Asked members live w a id q hashes → Asked members live w₁ a id q hashes := by
    intro a id q hashes hasked
    by_cases ha : a = p
    · subst ha
      refine hasked.mono ?_ ?_
      · rw [hself]
        exact hprobe.nextRequestId
      · rw [hself]
        exact hasks.older id hasked.lt
    · refine hasked.mono ?_ ?_ <;> rw [hother a ha]
  have hmem : ∀ r, r ∈ w₁.checks ↔ r ∈ w.checks ∨ r ∈ sent := fun r => by
    rw [Finset.mem_union, List.mem_toFinset]
  have hnewer : ∀ r ∈ sent, ∀ {id : ℕ} {q : PeerId} {hashes : List ChunkHash},
      Asked members live w r.asker id q hashes → id < r.requestId := by
    intro r hr id q hashes hasked
    have hlt := hasked.lt
    rw [(hprobe.asker r hr).1] at hlt
    exact hlt.trans_le (hprobe.fresh r hr).1
  refine ⟨fun a => ?_, fun a x => ?_, fun a x => ?_, fun a ha c hc => ?_, fun r hr => ?_,
    fun m hm => hold (h.held m hm), fun r hr r' hr' hasker hid => ?_, h.held_distinct,
    fun r hr m hm hasker => ?_⟩
  · rw [hfs]
    exact h.tree a
  · rw [hfs]
    exact h.fewer a x
  · rw [hfs]
    exact h.kept a x
  · by_cases hap : a = p
    · subst hap
      rw [hself] at hc
      exact h.self a ha c (hprobe.confirmed hc)
    · rw [hother a hap] at hc
      exact h.self a ha c hc
  · rcases (hmem r).1 hr with hr | hr
    · exact hold (h.checks r hr)
    · obtain ⟨hasker, hne⟩ := hprobe.asker r hr
      obtain ⟨x, -, hdesignated, -⟩ := hasks.asked r hr
      rw [hasker]
      refine ⟨hp, ⟨Ranking.top_subset hdesignated, hne⟩, ?_, ?_, hasks.hashes r hr⟩
      · rw [hself]
        exact (hprobe.fresh r hr).2
      · rw [hself]
        exact hasks.pending r hr
  · rcases (hmem r).1 hr with hr | hr
    · rcases (hmem r').1 hr' with hr' | hr'
      · exact h.checks_distinct r hr r' hr' hasker hid
      · exact absurd hid (hnewer r' hr' (hasker ▸ h.checks r hr)).ne
    · rcases (hmem r').1 hr' with hr' | hr'
      · exact absurd hid (hnewer r hr (hasker.symm ▸ h.checks r' hr')).ne'
      · exact hprobe.distinct r hr r' hr' hid
  · rcases (hmem r).1 hr with hr | hr
    · exact h.apart r hr m hm hasker
    · exact (hnewer r hr (hasker.symm ▸ h.held m hm)).ne'

omit [LawfulCrdtTree PeerId] [LawfulPeerBytes PeerId] in
theorem trimming_checkChunks (h : Trimming members live nodes w) {r : CheckChunks PeerId}
    (hstep : trimStep members (.checkChunks r) w = some w') :
    Trimming members live nodes w' := by
  simp only [trimStep] at hstep
  split_ifs at hstep with hmem
  obtain rfl := Option.some.inj hstep
  have hasked := h.checks r hmem
  refine ⟨h.tree, h.fewer, h.kept, h.self, fun r' hr' => ?_, fun m hm => ?_,
    fun r' hr' r'' hr'' => ?_, fun m hm m' hm' hasker hid => ?_, fun r' hr' m hm hasker hid => ?_⟩
  · exact (h.checks r' (Finset.mem_of_mem_erase hr')).mono le_rfl rfl
  · rcases Finset.mem_insert.1 hm with rfl | hm
    · -- the answer names some of the hashes
      exact ⟨hasked.asker, hasked.answerer, hasked.lt, hasked.pending,
        fun x hx => hasked.hashes x (List.mem_of_mem_filter hx)⟩
    · exact (h.held m hm).mono le_rfl rfl
  · exact h.checks_distinct r' (Finset.mem_of_mem_erase hr') r'' (Finset.mem_of_mem_erase hr'')
  · rcases Finset.mem_insert.1 hm with rfl | hm
    · rcases Finset.mem_insert.1 hm' with rfl | hm'
      · rfl
      · exact absurd hid (h.apart r hmem m' hm' hasker)
    · rcases Finset.mem_insert.1 hm' with rfl | hm'
      · exact absurd hid.symm (h.apart r hmem m hm hasker.symm)
      · exact h.held_distinct m hm m' hm' hasker hid
  · obtain ⟨hne, hr'⟩ := Finset.mem_erase.1 hr'
    rcases Finset.mem_insert.1 hm with rfl | hm
    · exact hne (h.checks_distinct r' hr' r hmem hasker hid)
    · exact h.apart r' hr' m hm hasker hid

/-- What a node hears when it handles a reply. -/
theorem hears (hsound : ∀ p, (nodes p).filesystem.tree.Sound)
    (hlive : ∀ p ∈ members, (nodes p).filesystem.reachableChunkHashes = live)
    (h : Trimming members live nodes w) {m : HeldChunks PeerId} {connected : List PeerId}
    (hm : m ∈ w.held) (hview : FullView members m.asker connected) :
    Hears members live m.asker m.answerer m.requestId m.hashes (w.nodes m.asker)
      ((w.nodes m.asker).handleHeld m.asker connected m.requestId m.hashes) :=
  handleHeld_held hview (reachable_eq hsound hlive hview.1 (h.tree m.asker)) (h.held m hm).pending
    (h.held m hm).answerer.2 (h.self m.asker hview.1) m.hashes

theorem trimming_heldChunks (hsound : ∀ p, (nodes p).filesystem.tree.Sound)
    (hlive : ∀ p ∈ members, (nodes p).filesystem.reachableChunkHashes = live)
    (h : Trimming members live nodes w) {m : HeldChunks PeerId} {connected : List PeerId}
    (hstep : trimStep members (.heldChunks m connected) w = some w') :
    Trimming members live nodes w' := by
  simp only [trimStep] at hstep
  split_ifs at hstep with hguard
  obtain ⟨hmem, hview⟩ := hguard
  have hhears := hears hsound hlive h hmem hview
  have hasked := h.held m hmem
  obtain rfl := Option.some.inj hstep
  set p := m.asker
  set node := (w.nodes p).handleHeld p connected m.requestId m.hashes
  set w₁ : TrimWorld PeerId := { w with
    nodes := Function.update w.nodes p node
    held := w.held.erase m }
  have hself : w₁.nodes p = node := Function.update_self _ _ _
  have hother : ∀ a, a ≠ p → w₁.nodes a = w.nodes a := fun a ha => Function.update_of_ne ha _ _
  -- the other requests are still waited for
  have hold : ∀ {a : PeerId} {id : ℕ} {q : PeerId} {hashes : List ChunkHash},
      (a = p → id ≠ m.requestId) → Asked members live w a id q hashes →
        Asked members live w₁ a id q hashes := by
    intro a id q hashes hid hwaits
    by_cases ha : a = p
    · rw [ha] at hwaits ⊢
      refine hwaits.mono ?_ ?_
      · rw [hself]
        exact hhears.nextRequestId.ge
      · rw [hself, hhears.pending]
        exact Function.update_of_ne (hid ha) _ _
    · refine hwaits.mono ?_ ?_ <;> rw [hother a ha]
  refine ⟨fun a => ?_, fun a x hx => ?_, fun a x hdesignated hx => ?_, fun a ha c hc => ?_,
    fun r hr => ?_, fun m' hm' => ?_, h.checks_distinct, fun m' hm' m'' hm'' => ?_,
    fun r hr m' hm' => ?_⟩
  · by_cases ha : a = p
    · rw [ha, hself]
      exact hhears.tree.trans (h.tree p)
    · rw [hother a ha]
      exact h.tree a
  · by_cases ha : a = p
    · rw [ha, hself] at hx
      exact ha ▸ h.fewer p x (hhears.fewer x hx)
    · rw [hother a ha] at hx
      exact h.fewer a x hx
  · have hpinned := h.kept a x hdesignated hx
    by_cases ha : a = p
    · rw [ha] at hdesignated hpinned ⊢
      rw [hself]
      exact hhears.kept x hpinned hdesignated
    · rwa [hother a ha]
  · by_cases hap : a = p
    · rw [hap, hself] at hc
      rw [hap]
      rcases hhears.sources c hc with hc | hc
      · exact h.self p hview.1 c hc
      · rw [hc]
        exact hasked.answerer.2
    · rw [hother a hap] at hc
      exact h.self a ha c hc
  · exact hold (fun hasker => h.apart r hr m hmem hasker) (h.checks r hr)
  · obtain ⟨hne, hm'⟩ := Finset.mem_erase.1 hm'
    exact hold (fun hasker hid => hne (h.held_distinct m' hm' m hmem hasker hid)) (h.held m' hm')
  · exact h.held_distinct m' (Finset.mem_of_mem_erase hm') m'' (Finset.mem_of_mem_erase hm'')
  · exact h.apart r hr m' (Finset.mem_of_mem_erase hm')

/-- **What every step keeps.** -/
theorem trimming_step (hsound : ∀ p, (nodes p).filesystem.tree.Sound)
    (hlive : ∀ p ∈ members, (nodes p).filesystem.reachableChunkHashes = live)
    (h : Trimming members live nodes w) {e : TrimEvent PeerId}
    (hstep : trimStep members e w = some w') : Trimming members live nodes w' := by
  cases e with
  | probe p connected pinned => exact trimming_probe hsound hlive h hstep
  | checkChunks r => exact trimming_checkChunks h hstep
  | heldChunks m connected => exact trimming_heldChunks hsound hlive h hstep

theorem trimming_run (hsound : ∀ p, (nodes p).filesystem.tree.Sound)
    (hlive : ∀ p ∈ members, (nodes p).filesystem.reachableChunkHashes = live)
    (h : Trimming members live nodes w) {events : List (TrimEvent PeerId)}
    (hrun : run (trimStep members) events w = some w') : Trimming members live nodes w' :=
  run_invariant (I := Trimming members live nodes)
    (fun _ _ _ hu hstep => trimming_step hsound hlive hu hstep) h hrun

end Step

/-! ### Nodes with extra copies -/

/-- A message about a chunk that `p` has asked `q` for is under way. -/
def Asking (w : TrimWorld PeerId) (p q : PeerId) (x : ChunkHash) : Prop :=
  (∃ r ∈ w.checks, r.asker = p ∧ r.answerer = q ∧ x ∈ r.hashes) ∨
    ∃ m ∈ w.held, m.asker = p ∧ m.answerer = q ∧ x ∈ m.hashes

/-- A message of `p` is under way. -/
def Waiting (w : TrimWorld PeerId) (p : PeerId) : Prop :=
  (∃ r ∈ w.checks, r.asker = p) ∨ ∃ m ∈ w.held, m.asker = p

/-- A node that has probed: it knows or asks of all its extra copies who holds them, and waits for
an answer if it knows all of one. -/
structure Active (members : List PeerId) (live : Finset ChunkHash) (w : TrimWorld PeerId)
    (p : PeerId) : Prop where
  covers : ∀ x, Extra members live p (w.nodes p) x → ∀ q ∈ designatedHolders x members,
    (x, q) ∈ (w.nodes p).handler.confirmedHolders ∨ Asking w p q x
  waits : Waiting w p ∨ ∀ x, Extra members live p (w.nodes p) x →
    ∃ q ∈ designatedHolders x members, (x, q) ∉ (w.nodes p).handler.confirmedHolders

omit [LinearOrder PeerId] in
/-- **A node that has probed has no extra copies** when nothing is under way. -/
theorem Active.no_extra_of_quiet (h : Active members live w p) (hquiet : w.Quiet) (x : ChunkHash) :
    ¬ Extra members live p (w.nodes p) x := by
  obtain ⟨hchecks, hheld⟩ := hquiet
  intro hx
  rcases h.waits with (⟨r, hr, -⟩ | ⟨m, hm, -⟩) | hnone
  · rw [hchecks] at hr
    exact Finset.notMem_empty _ hr
  · rw [hheld] at hm
    exact Finset.notMem_empty _ hm
  · obtain ⟨q, hq, hnot⟩ := hnone x hx
    rcases (h.covers x hx q hq).resolve_left hnot with ⟨r, hr, -⟩ | ⟨m, hm, -⟩
    · rw [hchecks] at hr
      exact Finset.notMem_empty _ hr
    · rw [hheld] at hm
      exact Finset.notMem_empty _ hm

section Progress

variable [LawfulCrdtTree PeerId] [LawfulPeerBytes PeerId]

/-- A node has not taken part yet. -/
def Untouched (nodes : PeerId → ReplicationNode PeerId) (w : TrimWorld PeerId)
    (p : PeerId) : Prop :=
  w.nodes p = nodes p ∧ ¬ Waiting w p

/-- Its probe makes a node active, if there is something to ask for. -/
theorem active_probe (hsound : ∀ p, (nodes p).filesystem.tree.Sound)
    (hlive : ∀ p ∈ members, (nodes p).filesystem.reachableChunkHashes = live)
    (h : Trimming members live nodes w) {connected : List PeerId} {pinned : List ChunkHash}
    (hstep : trimStep members (.probe p connected pinned) w = some w')
    (hp : Active members live w p ∨ ∃ x, Extra members live p (w.nodes p) x ∧
      ∃ q ∈ designatedHolders x members, (x, q) ∉ (w.nodes p).handler.confirmedHolders) :
    Active members live w' p := by
  simp only [trimStep] at hstep
  split_ifs at hstep with hguard
  obtain ⟨hview, hpinned⟩ := hguard
  have hprobe := probe_spec p connected pinned (w.nodes p)
  have hasks := probe_asks hview hpinned (reachable_eq hsound hlive hview.1 (h.tree p))
  obtain rfl := Option.some.inj hstep
  generalize (w.nodes p).probeEvictionCandidates p connected pinned = r at hprobe hasks ⊢
  obtain ⟨node, sent⟩ := r
  set w₁ : TrimWorld PeerId := { w with
    nodes := Function.update w.nodes p node
    checks := w.checks ∪ sent.toFinset }
  have hself : w₁.nodes p = node := Function.update_self _ _ _
  have hextra : ∀ x, Extra members live p (w₁.nodes p) x ↔ Extra members live p (w.nodes p) x := by
    intro x
    rw [hself, Extra, hprobe.filesystem, Extra]
  have hsent : ∀ r ∈ sent, r ∈ w₁.checks ∧ r.asker = p := fun r hr =>
    ⟨Finset.mem_union_right _ (List.mem_toFinset.2 hr), (hprobe.asker r hr).1⟩
  refine ⟨fun x hx q hq => ?_, ?_⟩
  · rw [hextra] at hx
    rw [hself, hasks.confirmed x hx]
    refine (hasks.all x hx q hq).imp_right ?_
    rintro ⟨r, hr, hanswerer, hmem⟩
    exact Or.inl ⟨r, (hsent r hr).1, (hsent r hr).2, hanswerer, hmem⟩
  · rcases hp with hactive | ⟨x, hx, q, hq, hnot⟩
    · refine hactive.waits.imp ?_ fun hunconfirmed x hx => ?_
      · rintro (⟨r, hr, hasker⟩ | hheld)
        · exact Or.inl ⟨r, Finset.mem_union_left _ hr, hasker⟩
        · exact Or.inr hheld
      · rw [hextra] at hx
        obtain ⟨q, hq, hnot⟩ := hunconfirmed x hx
        refine ⟨q, hq, ?_⟩
        rwa [hself, hasks.confirmed x hx]
    · obtain ⟨r, hr, -⟩ := (hasks.all x hx q hq).resolve_left hnot
      exact Or.inl (Or.inl ⟨r, hsent r hr⟩)

omit [LinearOrder PeerId] [LawfulCrdtTree PeerId] [LawfulPeerBytes PeerId] in
/-- A node that does not change stays active, if no message of it is lost. -/
theorem Active.mono (h : Active members live w p) (hnode : w'.nodes p = w.nodes p)
    (hasking : ∀ q x, x ∈ live → q ∈ designatedHolders x members → Asking w p q x → Asking w' p q x)
    (hwaiting : Waiting w p → Waiting w' p) : Active members live w' p := by
  refine ⟨fun x hx q hq => ?_, ?_⟩
  · rw [hnode] at hx ⊢
    exact (h.covers x hx q hq).imp_right (hasking q x hx.2.1 hq)
  · rw [hnode]
    exact h.waits.imp_left hwaiting

omit [LawfulCrdtTree PeerId] [LawfulPeerBytes PeerId] in
theorem active_checkChunks (h : Trimming members live nodes w)
    (hfilled : ∀ q ∈ members, ∀ x ∈ wanted members live q, (nodes q).filesystem.isPinned x)
    {r : CheckChunks PeerId} (hstep : trimStep members (.checkChunks r) w = some w')
    (hp : Active members live w p) : Active members live w' p := by
  simp only [trimStep] at hstep
  split_ifs at hstep with hmem
  obtain rfl := Option.some.inj hstep
  refine hp.mono rfl (fun q x hx hq => ?_) ?_
  · rintro (⟨r', hr', hasker, hanswerer, hxr⟩ | ⟨m, hm, hasker⟩)
    · by_cases hr : r' = r
      · -- the answerer has the chunk pinned
        subst hr
        have hpinned : (w.nodes r'.answerer).filesystem.isPinned x := by
          refine h.kept _ x (hanswerer ▸ hq) (hfilled _ (h.checks r' hr').answerer.1 x ?_)
          exact Finset.mem_filter.2 ⟨hx, hanswerer ▸ hq⟩
        exact Or.inr ⟨_, Finset.mem_insert_self _ _, hasker, hanswerer,
          List.mem_filter.2 ⟨hxr, hpinned⟩⟩
      · exact Or.inl ⟨r', Finset.mem_erase.2 ⟨hr, hr'⟩, hasker, hanswerer, hxr⟩
    · exact Or.inr ⟨m, Finset.mem_insert_of_mem hm, hasker⟩
  · rintro (⟨r', hr', hasker⟩ | ⟨m, hm, hasker⟩)
    · by_cases hr : r' = r
      · subst hr
        exact Or.inr ⟨_, Finset.mem_insert_self _ _, hasker⟩
      · exact Or.inl ⟨r', Finset.mem_erase.2 ⟨hr, hr'⟩, hasker⟩
    · exact Or.inr ⟨m, Finset.mem_insert_of_mem hm, hasker⟩

theorem active_heldChunks (hsound : ∀ p, (nodes p).filesystem.tree.Sound)
    (hlive : ∀ p ∈ members, (nodes p).filesystem.reachableChunkHashes = live)
    (h : Trimming members live nodes w) {m : HeldChunks PeerId} {connected : List PeerId}
    (hstep : trimStep members (.heldChunks m connected) w = some w')
    (hp : Active members live w p) : Active members live w' p := by
  simp only [trimStep] at hstep
  split_ifs at hstep with hguard
  obtain ⟨hmem, hview⟩ := hguard
  have hhears := hears hsound hlive h hmem hview
  obtain rfl := Option.some.inj hstep
  by_cases hasker : p = m.asker
  · subst hasker
    set node := (w.nodes m.asker).handleHeld m.asker connected m.requestId m.hashes
    set w₁ : TrimWorld PeerId := { w with
      nodes := Function.update w.nodes m.asker node
      held := w.held.erase m }
    have hself : w₁.nodes m.asker = node := Function.update_self _ _ _
    refine ⟨fun x hx q hq => ?_, Or.inr fun x hx => ?_⟩
    · rw [hself] at hx ⊢
      rw [hhears.confirmed x hx]
      have hbefore : Extra members live m.asker (w.nodes m.asker) x :=
        ⟨hhears.fewer x hx.1, hx.2⟩
      rcases hp.covers x hbefore q hq with hconfirmed | hr | ⟨m', hm', hsame, hanswerer, hxm⟩
      · exact Or.inl (Or.inl hconfirmed)
      · exact Or.inr (Or.inl hr)
      · by_cases hm : m' = m
        · subst hm
          exact Or.inl (Or.inr ⟨hxm, hanswerer.symm⟩)
        · exact Or.inr (Or.inr ⟨m', Finset.mem_erase.2 ⟨hm, hm'⟩, hsame, hanswerer, hxm⟩)
    · rw [hself] at hx ⊢
      exact hhears.unconfirmed x hx
  · have hother : ∀ m' ∈ w.held, m'.asker = p → m' ∈ w.held.erase m := by
      intro m' hm' hsame
      refine Finset.mem_erase.2 ⟨?_, hm'⟩
      rintro rfl
      exact hasker hsame.symm
    refine hp.mono (Function.update_of_ne hasker _ _) (fun q x _ _ => ?_) ?_
    · rintro (hcheck | ⟨m', hm', hsame, hrest⟩)
      · exact Or.inl hcheck
      · exact Or.inr ⟨m', hother m' hm' hsame, hsame, hrest⟩
    · rintro (hcheck | ⟨m', hm', hsame⟩)
      · exact Or.inl hcheck
      · exact Or.inr ⟨m', hother m' hm' hsame, hsame⟩

/-- **An active node stays active.** -/
theorem active_step (hsound : ∀ p, (nodes p).filesystem.tree.Sound)
    (hlive : ∀ p ∈ members, (nodes p).filesystem.reachableChunkHashes = live)
    (h : Trimming members live nodes w)
    (hfilled : ∀ q ∈ members, ∀ x ∈ wanted members live q, (nodes q).filesystem.isPinned x)
    {e : TrimEvent PeerId} (hstep : trimStep members e w = some w')
    (hp : Active members live w p) : Active members live w' p := by
  cases e with
  | probe a connected pinned =>
    by_cases ha : p = a
    · subst ha
      exact active_probe hsound hlive h hstep (Or.inl hp)
    · simp only [trimStep] at hstep
      split_ifs at hstep
      obtain rfl := Option.some.inj hstep
      refine hp.mono (Function.update_of_ne ha _ _) (fun q x _ _ => ?_) ?_
      · rintro (⟨r, hr, hrest⟩ | hheld)
        · exact Or.inl ⟨r, Finset.mem_union_left _ hr, hrest⟩
        · exact Or.inr hheld
      · rintro (⟨r, hr, hrest⟩ | hheld)
        · exact Or.inl ⟨r, Finset.mem_union_left _ hr, hrest⟩
        · exact Or.inr hheld
  | checkChunks r => exact active_checkChunks h hfilled hstep hp
  | heldChunks m connected => exact active_heldChunks hsound hlive h hstep hp

omit [LawfulCrdtTree PeerId] [LawfulPeerBytes PeerId] in
/-- A node stays as it is until it probes. -/
theorem untouched_step (hp : Untouched nodes w p) {e : TrimEvent PeerId}
    (he : ∀ connected pinned, e ≠ .probe p connected pinned)
    (hstep : trimStep members e w = some w') : Untouched nodes w' p := by
  obtain ⟨hnode, hnot⟩ := hp
  cases e with
  | probe a connected pinned =>
    have ha : p ≠ a := fun ha => he connected pinned (ha ▸ rfl)
    simp only [trimStep] at hstep
    split_ifs at hstep
    have hasker := (probe_spec a connected pinned (w.nodes a)).asker
    obtain rfl := Option.some.inj hstep
    refine ⟨(Function.update_of_ne ha _ _).trans hnode, ?_⟩
    rintro (⟨r, hr, hsame⟩ | hm)
    · rcases Finset.mem_union.1 hr with hr | hr
      · exact hnot (Or.inl ⟨r, hr, hsame⟩)
      · exact ha (hsame.symm.trans (hasker r (List.mem_toFinset.1 hr)).1)
    · exact hnot (Or.inr hm)
  | checkChunks r =>
    simp only [trimStep] at hstep
    split_ifs at hstep with hmem
    obtain rfl := Option.some.inj hstep
    refine ⟨hnode, ?_⟩
    rintro (⟨r', hr', hsame⟩ | ⟨m, hm, hsame⟩)
    · exact hnot (Or.inl ⟨r', Finset.mem_of_mem_erase hr', hsame⟩)
    · rcases Finset.mem_insert.1 hm with rfl | hm
      · exact hnot (Or.inl ⟨r, hmem, hsame⟩)
      · exact hnot (Or.inr ⟨m, hm, hsame⟩)
  | heldChunks m connected =>
    simp only [trimStep] at hstep
    split_ifs at hstep with hguard
    have hasker : p ≠ m.asker := fun heq => hnot (Or.inr ⟨m, hguard.1, heq.symm⟩)
    obtain rfl := Option.some.inj hstep
    refine ⟨(Function.update_of_ne hasker _ _).trans hnode, ?_⟩
    rintro (hr | ⟨m', hm', hsame⟩)
    · exact hnot (Or.inl hr)
    · exact hnot (Or.inr ⟨m', Finset.mem_of_mem_erase hm', hsame⟩)

/-- **A node that has something to ask for** loses all its extra copies. -/
theorem no_extra_of_probe (hsound : ∀ p, (nodes p).filesystem.tree.Sound)
    (hlive : ∀ p ∈ members, (nodes p).filesystem.reachableChunkHashes = live)
    (hself : ∀ p ∈ members, ∀ c ∈ (nodes p).handler.confirmedHolders, c.2 ≠ p)
    (hfilled : ∀ q ∈ members, ∀ x ∈ wanted members live q, (nodes q).filesystem.isPinned x)
    (hasks : ∃ x, Extra members live p (nodes p) x ∧
      ∃ q ∈ designatedHolders x members, (x, q) ∉ (nodes p).handler.confirmedHolders)
    {events : List (TrimEvent PeerId)}
    (hrun : run (trimStep members) events (init nodes) = some w) (hquiet : w.Quiet)
    (hturn : ∃ connected pinned, .probe p connected pinned ∈ events) (x : ChunkHash) :
    ¬ Extra members live p (w.nodes p) x := by
  have key : Trimming members live nodes w ∧ (Active members live w p ∨
      Untouched nodes w p ∧ ∀ connected pinned, .probe p connected pinned ∉ events) := by
    refine run_rec (P := fun events w => Trimming members live nodes w ∧ (Active members live w p ∨
      Untouched nodes w p ∧ ∀ connected pinned, .probe p connected pinned ∉ events))
      ⟨trimming_init hself, Or.inr ⟨⟨rfl, ?_⟩, fun _ _ => List.not_mem_nil⟩⟩ ?_ hrun
    · rintro (⟨r, hr, -⟩ | ⟨m, hm, -⟩)
      · exact Finset.notMem_empty _ hr
      · exact Finset.notMem_empty _ hm
    · rintro events u e v - ⟨hu, hp⟩ hstep
      refine ⟨trimming_step hsound hlive hu hstep, ?_⟩
      rcases hp with hactive | ⟨huntouched, hnone⟩
      · exact Or.inl (active_step hsound hlive hu hfilled hstep hactive)
      · by_cases he : ∃ connected pinned, e = .probe p connected pinned
        · obtain ⟨connected, pinned, rfl⟩ := he
          exact Or.inl (active_probe hsound hlive hu hstep (Or.inr (huntouched.1.symm ▸ hasks)))
        · refine Or.inr ⟨untouched_step huntouched (fun connected pinned heq =>
            he ⟨connected, pinned, heq⟩) hstep, fun connected pinned hmem => ?_⟩
          rcases List.mem_append.1 hmem with hmem | hmem
          · exact hnone connected pinned hmem
          · exact he ⟨connected, pinned, (List.mem_singleton.1 hmem).symm⟩
  obtain ⟨connected, pinned, hmem⟩ := hturn
  rcases key.2 with hactive | ⟨-, hnone⟩
  · exact hactive.no_extra_of_quiet hquiet x
  · exact absurd hmem (hnone connected pinned)

omit [LawfulCrdtTree PeerId] in
/-- **Where no node has anything to ask for**, no file system changes. -/
theorem trim_idle (hlive : ∀ p ∈ members, (nodes p).filesystem.reachableChunkHashes = live)
    (hknown : ∀ p ∈ members, ∀ x, Extra members live p (nodes p) x →
      ∀ q ∈ designatedHolders x members, (x, q) ∈ (nodes p).handler.confirmedHolders)
    {events : List (TrimEvent PeerId)}
    (hrun : run (trimStep members) events (init nodes) = some w) (p : PeerId) :
    (w.nodes p).filesystem = (nodes p).filesystem := by
  have key : w.Quiet ∧ ∀ p, (w.nodes p).filesystem = (nodes p).filesystem ∧ ∀ x,
      Extra members live p (nodes p) x → ∀ q, (x, q) ∈ (nodes p).handler.confirmedHolders →
        (x, q) ∈ (w.nodes p).handler.confirmedHolders := by
    refine run_invariant (I := fun w => w.Quiet ∧ ∀ p,
      (w.nodes p).filesystem = (nodes p).filesystem ∧ ∀ x,
        Extra members live p (nodes p) x → ∀ q, (x, q) ∈ (nodes p).handler.confirmedHolders →
          (x, q) ∈ (w.nodes p).handler.confirmedHolders) ?_
      ⟨⟨rfl, rfl⟩, fun p => ⟨rfl, fun _ _ _ => id⟩⟩ hrun
    rintro e u v ⟨⟨hchecks, hheld⟩, hsame⟩ hstep
    cases e with
    | checkChunks r => simp [trimStep, hchecks] at hstep
    | heldChunks m connected => simp [trimStep, hheld] at hstep
    | probe a connected pinned =>
      simp only [trimStep] at hstep
      split_ifs at hstep with hguard
      obtain ⟨hview, hpinned⟩ := hguard
      have hprobe := probe_spec a connected pinned (u.nodes a)
      have hasks := probe_asks hview hpinned
        ((congrArg FileSystem.reachableChunkHashes (hsame a).1).trans (hlive a hview.1))
      obtain rfl := Option.some.inj hstep
      generalize (u.nodes a).probeEvictionCandidates a connected pinned = r at hprobe hasks ⊢
      obtain ⟨node, sent⟩ := r
      have hextra : ∀ x, Extra members live a (u.nodes a) x ↔ Extra members live a (nodes a) x := by
        intro x
        rw [Extra, (hsame a).1, Extra]
      have hsent : sent = [] := by
        refine List.eq_nil_iff_forall_not_mem.2 fun r hr => ?_
        obtain ⟨x, hx, hq, hnot⟩ := hasks.asked r hr
        exact hnot ((hsame a).2 x ((hextra x).1 hx) _
          (hknown a hview.1 x ((hextra x).1 hx) _ hq))
      refine ⟨⟨by simp [hchecks, hsent], hheld⟩, fun p => ?_⟩
      by_cases hp : p = a
      · subst hp
        dsimp only
        rw [Function.update_self]
        refine ⟨hprobe.filesystem.trans (hsame p).1, fun x hx q hq => ?_⟩
        exact (hasks.confirmed x ((hextra x).2 hx) q).2 ((hsame p).2 x hx q hq)
      · dsimp only
        rw [Function.update_of_ne hp]
        exact hsame p
  exact (key.2 p).1

end Progress

end TrimWorld

end Edfs
