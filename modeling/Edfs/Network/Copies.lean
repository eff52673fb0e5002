import Edfs.Network.Replication

/-!
# The copies of a chunk

The replication handlers of any number of nodes. Each node has its own view of whom it is connected
to, a new one at every step; requests and replies may be delayed, reordered or lost.

* `ReplicationWorld`, `replicationStep`: the nodes and the messages in flight;
* `everHolders`, `Attested`: who has ever pinned a chunk, and who has answered a probe of whom while
  holding it, in a run;
* `Inv`: what is confirmed has been attested, and a chunk leaves a node only below two others that
  have held it; `inv_step`, `inv_run`;
* `copies_kept`, `evicted_attested`.
-/

namespace Edfs

open Execution

inductive ReplicationEvent (PeerId : Type)
  | call (p : PeerId) (e : Event PeerId)
  | rebalance (p : PeerId) (connected : List PeerId) (now : ℕ) (trySend : ChunkHash → Bool)
      (live : List ChunkHash)
  | probe (p : PeerId) (connected : List PeerId) (pinned : List ChunkHash)
  | checkChunks (r : CheckChunks PeerId)
  | heldChunks (m : HeldChunks PeerId) (connected : List PeerId)
  | outboundFailure (p : PeerId) (requestId : ℕ)

structure ReplicationWorld (PeerId : Type) [CrdtTree PeerId] where
  nodes : PeerId → ReplicationNode PeerId
  requests : List (CheckChunks PeerId)
  replies : List (HeldChunks PeerId)

namespace ReplicationWorld

open ReplicationNode

variable {PeerId : Type} [CrdtTree PeerId]

def init (maxPinnedBytes : PeerId → ℕ) : ReplicationWorld PeerId where
  nodes p := ⟨FileSystem.init p (maxPinnedBytes p), .new, 0⟩
  requests := []
  replies := []

/-- The nodes that have a chunk pinned. -/
def holders (w : ReplicationWorld PeerId) (h : ChunkHash) : Set PeerId :=
  {p | (w.nodes p).filesystem.isPinned h}

theorem mem_holders {w : ReplicationWorld PeerId} {h : ChunkHash} {p : PeerId} :
    p ∈ w.holders h ↔ (w.nodes p).filesystem.isPinned h := Iff.rfl

/-- A node's connected peers are distinct, and others. -/
def View (p : PeerId) (connected : List PeerId) : Prop := connected.Nodup ∧ p ∉ connected

/-- A list goes through a set. -/
def Lists (l : List ChunkHash) (s : Finset ChunkHash) : Prop := l.Nodup ∧ l.toFinset = s

instance (l : List ChunkHash) (s : Finset ChunkHash) : Decidable (Lists l s) :=
  inferInstanceAs (Decidable (_ ∧ _))

variable [LinearOrder PeerId]

instance (p : PeerId) (connected : List PeerId) : Decidable (View p connected) :=
  inferInstanceAs (Decidable (_ ∧ _))

/-- A node has changed, and messages have been sent. -/
def advance (w : ReplicationWorld PeerId) (p : PeerId) (node : ReplicationNode PeerId)
    (sent : List (CheckChunks PeerId)) (answers : List (HeldChunks PeerId)) :
    ReplicationWorld PeerId :=
  ⟨Function.update w.nodes p node, sent ++ w.requests, answers ++ w.replies⟩

variable [PeerBytes PeerId] [UuidV5] [Sha256] [FastCdc]

/-- One event. A node's file system may be called in any way but to evict a chunk, which is for
the handler alone; in particular a fetched chunk may arrive at any time and be pinned. Messages
stay in flight, so they may arrive late or never. -/
def replicationStep :
    ReplicationEvent PeerId → ReplicationWorld PeerId → Option (ReplicationWorld PeerId)
  | .call _ (_, .evictChunk _), _ => none
  | .call p e, w =>
    ((w.nodes p).filesystem.callStep e).map fun fs =>
      w.advance p ((w.nodes p).setFilesystem fs) [] []
  | .rebalance p connected now trySend live, w =>
    if View p connected ∧ Lists live (w.nodes p).filesystem.reachableChunkHashes then
      some (w.advance p ((w.nodes p).rebalance p connected now trySend live).1 [] [])
    else none
  | .probe p connected pinned, w =>
    if View p connected ∧ Lists pinned (w.nodes p).filesystem.pinnedHashes then
      let (node, sent) := (w.nodes p).probeEvictionCandidates p connected pinned
      some (w.advance p node sent [])
    else none
  | .checkChunks r, w =>
    if r ∈ w.requests then
      some (w.advance r.answerer (w.nodes r.answerer) [] [(w.nodes r.answerer).answerCheck r])
    else none
  | .heldChunks m connected, w =>
    if m ∈ w.replies ∧ View m.asker connected then
      some (w.advance m.asker
        ((w.nodes m.asker).handleHeld m.asker connected m.requestId m.hashes) [] [])
    else none
  | .outboundFailure p requestId, w =>
    some (w.advance p ((w.nodes p).outboundFailure requestId) [] [])

/-! ### What an event does -/

theorem call_eq_some {p : PeerId} {e : Event PeerId} {w w' : ReplicationWorld PeerId}
    (h : replicationStep (.call p e) w = some w') :
    (∀ x, e.2 ≠ .evictChunk x) ∧ ∃ fs, (w.nodes p).filesystem.callStep e = some fs ∧
      w' = w.advance p ((w.nodes p).setFilesystem fs) [] [] := by
  obtain ⟨now, c⟩ := e
  cases c with
  | evictChunk x => cases h
  | _ =>
    simp only [replicationStep] at h
    obtain ⟨fs, hfs, rfl⟩ := Option.map_eq_some_iff.1 h
    exact ⟨nofun, fs, hfs, rfl⟩

theorem rebalance_eq_some {p : PeerId} {connected : List PeerId} {now : ℕ}
    {trySend : ChunkHash → Bool} {live : List ChunkHash} {w w' : ReplicationWorld PeerId}
    (h : replicationStep (.rebalance p connected now trySend live) w = some w') :
    w' = w.advance p ((w.nodes p).rebalance p connected now trySend live).1 [] [] := by
  simp only [replicationStep] at h
  split_ifs at h
  exact (Option.some.inj h).symm

theorem probe_eq_some {p : PeerId} {connected : List PeerId} {pinned : List ChunkHash}
    {w w' : ReplicationWorld PeerId}
    (h : replicationStep (.probe p connected pinned) w = some w') :
    w' = w.advance p ((w.nodes p).probeEvictionCandidates p connected pinned).1
      ((w.nodes p).probeEvictionCandidates p connected pinned).2 [] := by
  simp only [replicationStep] at h
  split_ifs at h
  exact (Option.some.inj h).symm

theorem checkChunks_eq_some {r : CheckChunks PeerId} {w w' : ReplicationWorld PeerId}
    (h : replicationStep (.checkChunks r) w = some w') :
    r ∈ w.requests ∧ w' = w.advance r.answerer (w.nodes r.answerer) []
      [(w.nodes r.answerer).answerCheck r] := by
  simp only [replicationStep] at h
  split_ifs at h with hr
  exact ⟨hr, (Option.some.inj h).symm⟩

theorem heldChunks_eq_some {m : HeldChunks PeerId} {connected : List PeerId}
    {w w' : ReplicationWorld PeerId}
    (h : replicationStep (.heldChunks m connected) w = some w') :
    m ∈ w.replies ∧ View m.asker connected ∧ w' = w.advance m.asker
      ((w.nodes m.asker).handleHeld m.asker connected m.requestId m.hashes) [] [] := by
  simp only [replicationStep] at h
  split_ifs at h with hm
  exact ⟨hm.1, hm.2, (Option.some.inj h).symm⟩

/-! ### The history of a run -/

/-- The nodes that have had a chunk pinned at some time of a run. -/
def everHolders (events : List (ReplicationEvent PeerId)) (w₀ : ReplicationWorld PeerId)
    (h : ChunkHash) : Set PeerId :=
  {p | ∃ before w, before <+: events ∧ run replicationStep before w₀ = some w ∧ p ∈ w.holders h}

/-- In a run, `p` has answered a request of `a` that names the chunk, while it had it pinned. -/
def Attested (events : List (ReplicationEvent PeerId)) (w₀ : ReplicationWorld PeerId)
    (a p : PeerId) (h : ChunkHash) : Prop :=
  ∃ before r w, before ++ [.checkChunks r] <+: events ∧
    run replicationStep before w₀ = some w ∧ r.asker = a ∧ r.answerer = p ∧ h ∈ r.hashes ∧
    p ∈ w.holders h

variable {w₀ w w' : ReplicationWorld PeerId} {events : List (ReplicationEvent PeerId)}
  {e : ReplicationEvent PeerId}

theorem Attested.mono {a p : PeerId} {h : ChunkHash} (ha : Attested events w₀ a p h)
    (e : ReplicationEvent PeerId) : Attested (events ++ [e]) w₀ a p h := by
  obtain ⟨before, r, w, hbefore, hrest⟩ := ha
  exact ⟨before, r, w, hbefore.trans (List.prefix_append _ _), hrest⟩

theorem Attested.mem_everHolders {a p : PeerId} {h : ChunkHash}
    (ha : Attested events w₀ a p h) : p ∈ everHolders events w₀ h := by
  obtain ⟨before, r, w, hbefore, hrun, -, -, -, hp⟩ := ha
  exact ⟨before, w, (List.prefix_append _ _).trans hbefore, hrun, hp⟩

theorem everHolders_nil (h : ChunkHash) : everHolders [] w₀ h = w₀.holders h := by
  ext p
  constructor
  · rintro ⟨before, w, hbefore, hrun, hp⟩
    cases List.prefix_nil.1 hbefore
    cases hrun
    exact hp
  · exact fun hp => ⟨[], w₀, List.prefix_rfl, rfl, hp⟩

theorem everHolders_concat (hrun : run replicationStep events w₀ = some w)
    (hstep : replicationStep e w = some w') (h : ChunkHash) :
    everHolders (events ++ [e]) w₀ h = everHolders events w₀ h ∪ w'.holders h := by
  have hrun' := run_concat_eq_some.2 ⟨w, hrun, hstep⟩
  ext p
  constructor
  · rintro ⟨before, u, hbefore, hu, hp⟩
    rcases List.prefix_concat_iff.1 hbefore with rfl | hbefore
    · cases hu.symm.trans hrun'
      exact Or.inr hp
    · exact Or.inl ⟨before, u, hbefore, hu, hp⟩
  · rintro (⟨before, u, hbefore, hu, hp⟩ | hp)
    · exact ⟨before, u, hbefore.trans (List.prefix_append _ _), hu, hp⟩
    · exact ⟨_, w', List.prefix_rfl, hrun', hp⟩

/-! ### What every run keeps -/

/-- Confirmations have been attested, messages are of this run, and a chunk has left a node only
below two others that have held it. -/
structure Inv (w₀ : ReplicationWorld PeerId) (events : List (ReplicationEvent PeerId))
    (w : ReplicationWorld PeerId) : Prop where
  filesystem : ∀ p, (w.nodes p).filesystem.Inv
  finite : ∀ h, (everHolders events w₀ h).Finite
  confirmed : ∀ a, ∀ c ∈ (w.nodes a).handler.confirmedHolders,
    c.2 ≠ a ∧ Attested events w₀ a c.2 c.1
  requests : ∀ r ∈ w.requests,
    r.answerer ≠ r.asker ∧ r.requestId < (w.nodes r.asker).nextRequestId
  distinct : ∀ r ∈ w.requests, ∀ r' ∈ w.requests,
    r.asker = r'.asker → r.requestId = r'.requestId → r = r'
  pending : ∀ a id p, (w.nodes a).handler.pendingProbes id = some p →
    ∃ r ∈ w.requests, r.asker = a ∧ r.requestId = id ∧ r.answerer = p
  replies : ∀ m ∈ w.replies,
    (∃ r ∈ w.requests, r.asker = m.asker ∧ r.requestId = m.requestId ∧ r.answerer = m.answerer) ∧
    ∀ h ∈ m.hashes, Attested events w₀ m.asker m.answerer h
  left : ∀ h, ∀ p ∈ everHolders events w₀ h, p ∉ w.holders h →
    Ranking.TwoAbove (rank h) (everHolders events w₀ h) p

/-- What an event does to a node, and which messages it sends. -/
structure Effect (w₀ : ReplicationWorld PeerId) (events : List (ReplicationEvent PeerId))
    (w : ReplicationWorld PeerId) (e : ReplicationEvent PeerId) (a : PeerId)
    (node : ReplicationNode PeerId) (sent : List (CheckChunks PeerId))
    (answers : List (HeldChunks PeerId)) : Prop where
  filesystem : node.filesystem.Inv
  confirmed : ∀ c ∈ node.handler.confirmedHolders, c.2 ≠ a ∧ Attested events w₀ a c.2 c.1
  nextRequestId : (w.nodes a).nextRequestId ≤ node.nextRequestId
  asker : ∀ r ∈ sent, r.asker = a ∧ r.answerer ≠ a
  fresh : ∀ r ∈ sent, (w.nodes a).nextRequestId ≤ r.requestId ∧ r.requestId < node.nextRequestId
  distinct : ∀ r ∈ sent, ∀ r' ∈ sent, r.requestId = r'.requestId → r = r'
  pending : ∀ id p, node.handler.pendingProbes id = some p →
    (w.nodes a).handler.pendingProbes id = some p ∨ ∃ r ∈ sent, r.requestId = id ∧ r.answerer = p
  answers : ∀ m ∈ answers,
    (∃ r ∈ w.requests, r.asker = m.asker ∧ r.requestId = m.requestId ∧ r.answerer = m.answerer) ∧
    ∀ h ∈ m.hashes, Attested (events ++ [e]) w₀ m.asker m.answerer h
  left : ∀ h, (w.nodes a).filesystem.isPinned h → ¬ node.filesystem.isPinned h →
    ∃ m connected, e = .heldChunks m connected ∧ m.asker = a ∧ View a connected ∧
      ∀ p ∈ designatedHolders h (currentMembers connected a), p ≠ a ∧ Attested events w₀ a p h

/-- A step that pins at most, and leaves the handler as it is, up to the chunks it will not
fetch. -/
theorem Effect.of_onlyPins (h : Inv w₀ events w) {a : PeerId} {node : ReplicationNode PeerId}
    (hpins : OnlyPins (w.nodes a) node) : Effect w₀ events w e a node [] [] where
  filesystem := hpins.inv (h.filesystem a)
  confirmed c hc := h.confirmed a c (hpins.confirmed ▸ hc)
  nextRequestId := hpins.nextRequestId.ge
  asker _ hr := absurd hr List.not_mem_nil
  fresh _ hr := absurd hr List.not_mem_nil
  distinct _ hr := absurd hr List.not_mem_nil
  pending _ _ hp := Or.inl (hpins.pending ▸ hp)
  answers _ hm := absurd hm List.not_mem_nil
  left x hx hnot := absurd (hpins.pinned x hx) hnot

theorem Effect.of_probes (h : Inv w₀ events w) {a : PeerId} {node : ReplicationNode PeerId}
    {sent : List (CheckChunks PeerId)} (hprobes : Probes a (w.nodes a) node sent) :
    Effect w₀ events w e a node sent [] where
  filesystem := hprobes.filesystem ▸ h.filesystem a
  confirmed c hc := h.confirmed a c (hprobes.confirmed hc)
  nextRequestId := hprobes.nextRequestId
  asker := hprobes.asker
  fresh := hprobes.fresh
  distinct := hprobes.distinct
  pending := hprobes.pending
  answers _ hm := absurd hm List.not_mem_nil
  left _ hx hnot := absurd (hprobes.filesystem ▸ hx) hnot

/-- The confirmations that a reply brings are attested: its request is the one that is pending. -/
theorem attested_of_reply (h : Inv w₀ events w) {m : HeldChunks PeerId} (hm : m ∈ w.replies)
    {p : PeerId} (hp : (w.nodes m.asker).handler.pendingProbes m.requestId = some p)
    {x : ChunkHash} (hx : x ∈ m.hashes) : p ≠ m.asker ∧ Attested events w₀ m.asker p x := by
  obtain ⟨⟨r, hr, hasker, hid, hanswerer⟩, hattested⟩ := h.replies m hm
  obtain ⟨r', hr', hasker', hid', hanswerer'⟩ := h.pending _ _ _ hp
  obtain rfl := h.distinct r hr r' hr' (hasker.trans hasker'.symm) (hid.trans hid'.symm)
  obtain rfl : p = m.answerer := hanswerer'.symm.trans hanswerer
  refine ⟨?_, hattested x hx⟩
  rw [← hanswerer, ← hasker]
  exact (h.requests r hr).1

theorem Effect.of_evicts (h : Inv w₀ events w) {m : HeldChunks PeerId} (hm : m ∈ w.replies)
    {connected : List PeerId} (hview : View m.asker connected) :
    Effect w₀ events w (.heldChunks m connected) m.asker
      ((w.nodes m.asker).handleHeld m.asker connected m.requestId m.hashes) [] [] := by
  obtain ⟨confirmations, hfrom, hevicts⟩ :=
    handleHeld_spec m.asker connected m.requestId m.hashes (w.nodes m.asker)
  have hattested : ∀ c ∈ confirmations, c.2 ≠ m.asker ∧ Attested events w₀ m.asker c.2 c.1 := by
    intro c hc
    rcases hfrom c hc with hold | ⟨hmem, hpending⟩
    · exact h.confirmed _ c hold
    · exact attested_of_reply h hm hpending hmem
  exact
    { filesystem := hevicts.inv (h.filesystem _)
      confirmed := fun c hc => hattested c (hevicts.confirmed hc)
      nextRequestId := hevicts.nextRequestId.ge
      asker := fun _ hr => absurd hr List.not_mem_nil
      fresh := fun _ hr => absurd hr List.not_mem_nil
      distinct := fun _ hr => absurd hr List.not_mem_nil
      pending := fun id p hp => Or.inl (hevicts.pending id p hp)
      answers := fun _ hm => absurd hm List.not_mem_nil
      left := fun x hx hnot => ⟨m, connected, rfl, rfl, hview, fun p hp =>
        hattested (x, p) (hevicts.evicted x hx hnot p hp)⟩ }

variable [LawfulCrdtTree PeerId]

omit [PeerBytes PeerId] in
/-- A file system called in any way but to evict a chunk keeps what is pinned. -/
theorem onlyPins_call {node : ReplicationNode PeerId} {c : Event PeerId} {fs : FileSystem PeerId}
    (hinv : node.filesystem.Inv) (hevict : ∀ x, c.2 ≠ .evictChunk x)
    (hc : node.filesystem.callStep c = some fs) : OnlyPins node (node.setFilesystem fs) where
  inv h := FileSystem.inv_step h hc
  pinned x hx := by
    obtain ⟨d, hd⟩ := ChunkStorage.isPinned_iff.1 hx
    exact ChunkStorage.isPinned_iff.2
      ⟨d, FileSystem.entry_step_of_pinned hinv hc (hevict x) hd⟩
  confirmed := rfl
  pending := rfl
  nextRequestId := rfl

/-- **What an event does**: one node changes, and sends messages. -/
theorem effect_step (h : Inv w₀ events w) (hrun : run replicationStep events w₀ = some w)
    (hstep : replicationStep e w = some w') : ∃ a node sent answers,
      w' = w.advance a node sent answers ∧ Effect w₀ events w e a node sent answers := by
  cases e with
  | call p c =>
    obtain ⟨hevict, fs, hfs, rfl⟩ := call_eq_some hstep
    exact ⟨_, _, _, _, rfl, .of_onlyPins h (onlyPins_call (h.filesystem p) hevict hfs)⟩
  | rebalance p connected now trySend live =>
    obtain rfl := rebalance_eq_some hstep
    exact ⟨_, _, _, _, rfl, .of_onlyPins h (rebalance_spec _ _ _ _ _ _)⟩
  | probe p connected pinned =>
    obtain rfl := probe_eq_some hstep
    exact ⟨_, _, _, _, rfl, .of_probes h (probe_spec _ _ _ _)⟩
  | checkChunks r =>
    obtain ⟨hr, rfl⟩ := checkChunks_eq_some hstep
    refine ⟨_, _, _, _, rfl, { Effect.of_onlyPins h (OnlyPins.refl _) with answers := ?_ }⟩
    intro m hm
    obtain rfl := List.mem_singleton.1 hm
    refine ⟨⟨r, hr, rfl, rfl, rfl⟩, fun x hx => ?_⟩
    obtain ⟨hasked, hpinned⟩ := List.mem_filter.1 hx
    exact ⟨events, r, w, List.prefix_rfl, hrun, rfl, rfl, hasked, hpinned⟩
  | heldChunks m connected =>
    obtain ⟨hm, hview, rfl⟩ := heldChunks_eq_some hstep
    exact ⟨_, _, _, _, rfl, .of_evicts h hm hview⟩
  | outboundFailure p requestId =>
    cases hstep
    refine ⟨_, _, _, _, rfl, { Effect.of_onlyPins h (OnlyPins.refl _) with pending := ?_ }⟩
    intro id q hq
    by_cases hid : id = requestId
    · subst hid
      simp [outboundFailure] at hq
    · exact Or.inl (by simpa [outboundFailure, hid] using hq)

omit [LinearOrder PeerId] [PeerBytes PeerId] [UuidV5] [Sha256] [FastCdc]
  [LawfulCrdtTree PeerId] in
/-- Nobody holds anything yet. -/
theorem holders_init (maxPinnedBytes : PeerId → ℕ) (h : ChunkHash) :
    (init maxPinnedBytes).holders h = ∅ :=
  Set.eq_empty_of_forall_notMem fun _ hp => Bool.false_ne_true hp

theorem inv_init (maxPinnedBytes : PeerId → ℕ) :
    Inv (init maxPinnedBytes) [] (init maxPinnedBytes) where
  filesystem p := FileSystem.inv_init p (maxPinnedBytes p)
  finite h := by
    rw [everHolders_nil, holders_init]
    exact Set.finite_empty
  confirmed _ _ hc := absurd hc List.not_mem_nil
  requests _ hr := absurd hr List.not_mem_nil
  distinct _ hr := absurd hr List.not_mem_nil
  pending _ _ _ hp := nomatch hp
  replies _ hm := absurd hm List.not_mem_nil
  left h p hp := by
    rw [everHolders_nil, holders_init] at hp
    exact absurd hp (Set.notMem_empty p)

omit [LawfulCrdtTree PeerId] in
/-- A node that evicts a chunk has the two holders it trusts above it. -/
theorem twoAbove_of_attested [LawfulPeerBytes PeerId] {a : PeerId} {connected : List PeerId}
    (hview : View a connected) {h : ChunkHash}
    (hattested : ∀ p ∈ designatedHolders h (currentMembers connected a),
      p ≠ a ∧ Attested events w₀ a p h) :
    ∃ x y, designatedHolders h (currentMembers connected a) = [x, y] ∧ x ≠ y ∧
      rank h a < rank h x ∧ rank h a < rank h y := by
  have hnodup : (currentMembers connected a).Nodup :=
    List.nodup_append_comm.1 (List.nodup_cons.2 ⟨hview.2, hview.1⟩)
  have hself : a ∉ designatedHolders h (currentMembers connected a) := fun ha =>
    (hattested a ha).1 rfl
  exact Ranking.exists_top_two (rank_injective h) hnodup
    (List.mem_append_right _ (List.mem_singleton_self a)) hself

section Step

variable {a : PeerId} {node : ReplicationNode PeerId} {sent : List (CheckChunks PeerId)}
  {answers : List (HeldChunks PeerId)}

omit [PeerBytes PeerId] [UuidV5] [Sha256] [FastCdc] [LawfulCrdtTree PeerId] in
theorem nodes_advance_self : (w.advance a node sent answers).nodes a = node :=
  Function.update_self _ _ _

omit [PeerBytes PeerId] [UuidV5] [Sha256] [FastCdc] [LawfulCrdtTree PeerId] in
theorem nodes_advance_of_ne {q : PeerId} (hq : q ≠ a) :
    (w.advance a node sent answers).nodes q = w.nodes q := Function.update_of_ne hq _ _

omit [LawfulCrdtTree PeerId] in
/-- The requests in flight are from ids that have been given out, to others. -/
theorem requests_step (h : Inv w₀ events w) (heffect : Effect w₀ events w e a node sent answers) :
    ∀ r ∈ (w.advance a node sent answers).requests, r.answerer ≠ r.asker ∧
      r.requestId < ((w.advance a node sent answers).nodes r.asker).nextRequestId := by
  intro r hr
  rcases List.mem_append.1 hr with hsent | hold
  · obtain ⟨hasker, hne⟩ := heffect.asker r hsent
    rw [hasker, nodes_advance_self]
    exact ⟨hne, (heffect.fresh r hsent).2⟩
  · obtain ⟨hne, hlt⟩ := h.requests r hold
    refine ⟨hne, ?_⟩
    by_cases hr : r.asker = a
    · rw [hr] at hlt ⊢
      rw [nodes_advance_self]
      exact hlt.trans_le heffect.nextRequestId
    · rwa [nodes_advance_of_ne hr]

omit [LawfulCrdtTree PeerId] in
/-- The ids of new requests are above those of the old ones. -/
theorem distinct_step (h : Inv w₀ events w) (heffect : Effect w₀ events w e a node sent answers) :
    ∀ r ∈ (w.advance a node sent answers).requests,
      ∀ r' ∈ (w.advance a node sent answers).requests,
        r.asker = r'.asker → r.requestId = r'.requestId → r = r' := by
  have hnew : ∀ r ∈ sent, ∀ r' ∈ w.requests, r.asker = r'.asker → r.requestId ≠ r'.requestId := by
    intro r hr r' hr' ha hid
    have hlt := (h.requests r' hr').2
    rw [← ha, ← hid, (heffect.asker r hr).1] at hlt
    exact absurd (heffect.fresh r hr).1 hlt.not_ge
  intro r hr r' hr' ha hid
  rcases List.mem_append.1 hr with hsent | hold <;>
    rcases List.mem_append.1 hr' with hsent' | hold'
  · exact heffect.distinct r hsent r' hsent' hid
  · exact absurd hid (hnew r hsent r' hold' ha)
  · exact absurd hid.symm (hnew r' hsent' r hold ha.symm)
  · exact h.distinct r hold r' hold' ha hid

omit [LawfulCrdtTree PeerId] in
/-- Each pending probe belongs to a request in flight. -/
theorem pending_step (h : Inv w₀ events w) (heffect : Effect w₀ events w e a node sent answers)
    (q : PeerId) (id : ℕ) (p : PeerId)
    (hp : ((w.advance a node sent answers).nodes q).handler.pendingProbes id = some p) :
    ∃ r ∈ (w.advance a node sent answers).requests,
      r.asker = q ∧ r.requestId = id ∧ r.answerer = p := by
  have hold : (w.nodes q).handler.pendingProbes id = some p →
      ∃ r ∈ (w.advance a node sent answers).requests,
        r.asker = q ∧ r.requestId = id ∧ r.answerer = p := fun hp => by
    obtain ⟨r, hr, hrest⟩ := h.pending q id p hp
    exact ⟨r, List.mem_append_right _ hr, hrest⟩
  by_cases hq : q = a
  · subst hq
    rw [nodes_advance_self] at hp
    rcases heffect.pending id p hp with hp | ⟨r, hr, hid, hanswerer⟩
    · exact hold hp
    · exact ⟨r, List.mem_append_left _ hr, (heffect.asker r hr).1, hid, hanswerer⟩
  · rw [nodes_advance_of_ne hq] at hp
    exact hold hp

omit [LawfulCrdtTree PeerId] in
/-- A chunk that leaves a node has two others above that have held it. -/
theorem left_step [LawfulPeerBytes PeerId] (h : Inv w₀ events w)
    (heffect : Effect w₀ events w e a node sent answers) {x : ChunkHash} {p : PeerId}
    (hp : p ∈ everHolders events w₀ x) (hnot : p ∉ (w.advance a node sent answers).holders x) :
    Ranking.TwoAbove (rank x) (everHolders events w₀ x) p := by
  by_cases hheld : p ∈ w.holders x
  · obtain rfl : p = a := by
      by_contra hpa
      rw [mem_holders, nodes_advance_of_ne hpa] at hnot
      exact hnot hheld
    rw [mem_holders, nodes_advance_self] at hnot
    obtain ⟨-, connected, -, -, hview, hattested⟩ := heffect.left x hheld hnot
    obtain ⟨y, z, hyz, hne, hy, hz⟩ := twoAbove_of_attested hview hattested
    have htrusted : ∀ q ∈ [y, z], q ∈ everHolders events w₀ x := fun q hq =>
      (hattested q (hyz ▸ hq)).2.mem_everHolders
    exact ⟨y, htrusted y (by simp), z, htrusted z (by simp), hne, hy, hz⟩
  · exact h.left x p hp hheld

/-- **Every event keeps the invariant.** -/
theorem inv_step [LawfulPeerBytes PeerId] (h : Inv w₀ events w)
    (hrun : run replicationStep events w₀ = some w) (hstep : replicationStep e w = some w') :
    Inv w₀ (events ++ [e]) w' := by
  have hever := fun x => everHolders_concat hrun hstep x
  obtain ⟨a, node, sent, answers, rfl, heffect⟩ := effect_step h hrun hstep
  refine ⟨fun q => ?_, fun x => ?_, fun q c hc => ?_, requests_step h heffect,
    distinct_step h heffect, pending_step h heffect, fun m hm => ?_, fun x p hp hnot => ?_⟩
  · by_cases hq : q = a
    · subst hq
      rw [nodes_advance_self]
      exact heffect.filesystem
    · rw [nodes_advance_of_ne hq]
      exact h.filesystem q
  · -- at most one node has pinned the chunk for the first time
    refine ((h.finite x).insert a).subset ?_
    rw [hever x]
    rintro q (hq | hq)
    · exact Or.inr hq
    · refine or_iff_not_imp_left.2 fun hqa => ?_
      rw [mem_holders, nodes_advance_of_ne hqa] at hq
      exact ⟨events, w, List.prefix_rfl, hrun, hq⟩
  · have hc' : c.2 ≠ q ∧ Attested events w₀ q c.2 c.1 := by
      by_cases hq : q = a
      · subst hq
        rw [nodes_advance_self] at hc
        exact heffect.confirmed c hc
      · rw [nodes_advance_of_ne hq] at hc
        exact h.confirmed q c hc
    exact ⟨hc'.1, hc'.2.mono e⟩
  · have hkept : (∃ r ∈ w.requests, r.asker = m.asker ∧ r.requestId = m.requestId ∧
        r.answerer = m.answerer) ∧
        ∀ x ∈ m.hashes, Attested (events ++ [e]) w₀ m.asker m.answerer x := by
      rcases List.mem_append.1 hm with hnew | hold
      · exact heffect.answers m hnew
      · obtain ⟨hr, hattested⟩ := h.replies m hold
        exact ⟨hr, fun x hx => (hattested x hx).mono e⟩
    obtain ⟨⟨r, hr, hrest⟩, hattested⟩ := hkept
    exact ⟨⟨r, List.mem_append_right _ hr, hrest⟩, hattested⟩
  · rw [hever x] at hp ⊢
    rcases hp with hp | hp
    · exact (left_step h heffect hp hnot).mono Set.subset_union_left
    · exact absurd hp hnot

end Step

theorem inv_run [LawfulPeerBytes PeerId] {maxPinnedBytes : PeerId → ℕ}
    (hrun : run replicationStep events (init maxPinnedBytes) = some w) :
    Inv (init maxPinnedBytes) events w :=
  run_rec (P := fun events w => Inv (init maxPinnedBytes) events w) (inv_init _)
    (fun _ _ _ _ ht ih hstep => inv_step ih ht hstep) hrun

/-- **Replication never loses copies.** In every run, as many nodes have a chunk pinned as have
ever had it pinned, or at least two. -/
theorem copies_kept [LawfulPeerBytes PeerId] {maxPinnedBytes : PeerId → ℕ}
    (hrun : run replicationStep events (init maxPinnedBytes) = some w) (h : ChunkHash) :
    min 2 (everHolders events (init maxPinnedBytes) h).encard ≤ (w.holders h).encard :=
  have hinv := inv_run hrun
  Ranking.min_two_le_encard (hinv.finite h) (hinv.left h)

/-- **Confirmations when they are used.** In every run, a node loses a pinned chunk only by a reply
to one of its probes; both designated holders of its view rank above it and have answered such a
probe while they had the chunk pinned, and at that moment two nodes above it have it pinned. -/
theorem evicted_attested [LawfulPeerBytes PeerId] {maxPinnedBytes : PeerId → ℕ}
    (hrun : run replicationStep events (init maxPinnedBytes) = some w)
    (hstep : replicationStep e w = some w') {a : PeerId} {h : ChunkHash} (hp : a ∈ w.holders h)
    (hnot : a ∉ w'.holders h) :
    ∃ m connected x y, e = .heldChunks m connected ∧ m.asker = a ∧
      designatedHolders h (currentMembers connected a) = [x, y] ∧ x ≠ y ∧
      (∀ p ∈ [x, y], rank h a < rank h p ∧ Attested events (init maxPinnedBytes) a p h) ∧
      Ranking.TwoAbove (rank h) (w'.holders h) a := by
  have hinv' := inv_step (inv_run hrun) hrun hstep
  have hever : a ∈ everHolders (events ++ [e]) (init maxPinnedBytes) h :=
    ⟨events, w, List.prefix_append _ _, hrun, hp⟩
  have hstayed := Ranking.exists_two_stayed (hinv'.finite h) (hinv'.left h) hever hnot
  obtain ⟨b, node, sent, answers, rfl, heffect⟩ := effect_step (inv_run hrun) hrun hstep
  obtain rfl : a = b := by
    by_contra hab
    rw [mem_holders, nodes_advance_of_ne hab] at hnot
    exact hnot hp
  obtain ⟨m, connected, rfl, hasker, hview, hattested⟩ :=
    heffect.left h hp (by rwa [mem_holders, nodes_advance_self] at hnot)
  obtain ⟨x, y, hxy, hne, hx, hy⟩ := twoAbove_of_attested hview hattested
  refine ⟨m, connected, x, y, rfl, hasker, hxy, hne, fun p hmem => ?_, hstayed⟩
  have hrank : rank h a < rank h p := by
    rcases List.mem_pair.1 hmem with rfl | rfl
    · exact hx
    · exact hy
  exact ⟨hrank, (hattested p (hxy ▸ hmem)).2⟩

end ReplicationWorld

end Edfs

namespace Edfs.ReplicationWorld

open Execution Reference ReplicationNode

/-- The only chunk of a file of one byte. -/
def piece : ChunkHash := (Chunk.new [9]).hash

/-- A node creates a file and writes one byte to it. -/
def writesFile (p : ℕ) : List (ReplicationEvent ℕ) :=
  [.call p (fun _ => 1, .mutate (.createFile NodeId.root "a")),
    .call p (fun _ => 2,
      .mutate (.writeFile ⟨UuidV5.newV5 NodeId.root.uuid "a"⟩ [9]))]

/-- Four nodes have the chunk. Node 0 probes nodes 1 and 2, and hears from node 1 only; then node 1
probes nodes 2 and 3, hears from both, and evicts the chunk. -/
def delayed : List (ReplicationEvent ℕ) :=
  writesFile 0 ++ writesFile 1 ++
    [.call 2 (fun _ => 3, .mutate (.pinChunk [9])), .call 3 (fun _ => 3, .mutate (.pinChunk [9])),
      .probe 0 [1, 2] [piece],
      .checkChunks ⟨0, 0, 1, [piece]⟩, .checkChunks ⟨1, 0, 2, [piece]⟩,
      .heldChunks ⟨0, 0, 1, [piece]⟩ [1, 2],
      .probe 1 [2, 3] [piece],
      .checkChunks ⟨0, 1, 2, [piece]⟩, .checkChunks ⟨1, 1, 3, [piece]⟩,
      .heldChunks ⟨0, 1, 2, [piece]⟩ [2, 3], .heldChunks ⟨1, 1, 3, [piece]⟩ [2, 3]]

/-- Node 0 hears from node 2. -/
def late : ReplicationEvent ℕ := .heldChunks ⟨1, 0, 2, [piece]⟩ [1, 2]

/-- Node 0 evicts the chunk, trusting node 1, which no longer has it. -/
theorem trusts_evicted : ∃ w w', run replicationStep delayed (init fun _ => 100) = some w ∧
    replicationStep late w = some w' ∧ 0 ∈ w.holders piece ∧ 0 ∉ w'.holders piece ∧
    1 ∈ designatedHolders piece (currentMembers [1, 2] 0) ∧ 1 ∉ w.holders piece ∧
    1 ∉ w'.holders piece := by
  refine ⟨_, _, rfl, rfl, ?_⟩
  simp only [mem_holders]
  decide

/-- Node 0 and node 1 have both evicted the chunk by now, and two copies are left. -/
theorem copies_kept_late : ∃ w,
    run replicationStep (delayed ++ [late]) (init fun _ => 100) = some w ∧
    0 ∉ w.holders piece ∧ 1 ∉ w.holders piece ∧
    min 2 (everHolders (delayed ++ [late]) (init fun _ => 100) piece).encard ≤
      (w.holders piece).encard := by
  have hrun : run replicationStep (delayed ++ [late]) (init fun _ => 100) = some _ := rfl
  refine ⟨_, hrun, ?_, ?_, copies_kept hrun piece⟩ <;> rw [mem_holders] <;> decide

theorem evicted_attested_late : ∃ w w', run replicationStep delayed (init fun _ => 100) = some w ∧
    replicationStep late w = some w' ∧ ∃ m connected x y, late = .heldChunks m connected ∧
      m.asker = 0 ∧ designatedHolders piece (currentMembers connected 0) = [x, y] ∧ x ≠ y ∧
      (∀ p ∈ [x, y], rank piece 0 < rank piece p ∧
        Attested delayed (init fun _ => 100) 0 p piece) ∧
      Ranking.TwoAbove (rank piece) (w'.holders piece) 0 := by
  have hrun : run replicationStep delayed (init fun _ => 100) = some _ := rfl
  refine ⟨_, _, hrun, rfl, evicted_attested (e := late) hrun rfl ?_ ?_⟩ <;>
    rw [mem_holders] <;> decide

end Edfs.ReplicationWorld
