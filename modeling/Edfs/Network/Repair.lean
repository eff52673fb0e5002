import Edfs.Filesystem.LiveChunks
import Edfs.Network.Copies
import Edfs.Network.Pursuit

/-!
# Filling in missing copies

The first half of a round among fully connected nodes: each runs `rebalance`, the commands to fetch
chunks are carried out, the requests of the fetchers are answered, and their responses handled, in
any order, with nothing lost. All trees are the same, every reachable chunk is stored at one node
at least, and each node has room for the chunks it is designated for.

* `FullView`, `RepairWorld`, `repairStep`; `Ready`, what a round starts from;
* `rebalanceLoop_roomy`, `rebalanceLoop_progress`;
* `Repairing`, what every step keeps: `repairing_step`, `repairing_run`;
* `exists_repaired`: a node that lacks copies has one more at the end;
* `repair_idle`: where no copy is missing, nothing happens.
-/

namespace Edfs

open Execution

/-- A `PullChunk` request under way, and who sends it. -/
structure Pull (PeerId : Type) where
  asker : PeerId
  request : PullChunk PeerId
  deriving DecidableEq

/-- The response to a `PullChunk` request. -/
structure Pulled (PeerId : Type) where
  pull : Pull PeerId
  response : Response PeerId
  deriving DecidableEq

inductive RepairEvent (PeerId : Type)
  | rebalance (p : PeerId) (connected : List PeerId) (now : ℕ) (live : List ChunkHash)
  | fetch (p : PeerId) (hash : ChunkHash) (connected : List PeerId) (now : ℕ → ℕ)
  | pull (m : Pull PeerId)
  | pulled (m : Pulled PeerId) (connected : List PeerId) (now : ℕ → ℕ)

/-- The nodes and their fetchers, the commands to fetch chunks that wait to be taken, and the
messages under way. -/
structure RepairWorld (PeerId : Type) [CrdtTree PeerId] where
  nodes : PeerId → ReplicationNode PeerId
  fetchers : PeerId → ChunkFetcher PeerId
  commands : List (PeerId × ChunkHash)
  pulls : Finset (Pull PeerId)
  pulled : Finset (Pulled PeerId)

namespace RepairWorld

open ReplicationNode ReplicationWorld

variable {PeerId : Type}

section

variable [DecidableEq PeerId]

/-- A member is connected to all the others. -/
def FullView (members : List PeerId) (p : PeerId) (connected : List PeerId) : Prop :=
  p ∈ members ∧ connected.Perm (members.erase p)

instance (members : List PeerId) (p : PeerId) (connected : List PeerId) :
    Decidable (FullView members p connected) := inferInstanceAs (Decidable (_ ∧ _))

theorem FullView.currentMembers_perm {members : List PeerId} {p : PeerId}
    {connected : List PeerId} (h : FullView members p connected) :
    (currentMembers connected p).Perm members :=
  (List.perm_append_singleton p connected).trans
    ((h.2.cons p).trans (List.perm_cons_erase h.1).symm)

theorem FullView.mem_iff {members : List PeerId} (hnodup : members.Nodup) {p q : PeerId}
    {connected : List PeerId} (h : FullView members p connected) :
    q ∈ connected ↔ q ∈ members ∧ q ≠ p := by
  rw [h.2.mem_iff, hnodup.mem_erase_iff, and_comm]

end

variable [CrdtTree PeerId] [LinearOrder PeerId] [PeerBytes PeerId] [Sha256]

omit [CrdtTree PeerId] in
/-- All members see the same designated holders. -/
theorem FullView.designatedHolders_eq [LawfulPeerBytes PeerId] {members : List PeerId}
    {p : PeerId} {connected : List PeerId} (h : FullView members p connected) (x : ChunkHash) :
    designatedHolders x (currentMembers connected p) = designatedHolders x members :=
  Ranking.top_perm (rank_injective x) h.currentMembers_perm 2

/-- The chunk handler of a node handles an event. The ids of its requests are the next ones of the
node; an id that it does not use is skipped. -/
def handle (w : RepairWorld PeerId) (p : PeerId) (connected : List PeerId) (now : ℕ → ℕ)
    (e : ChunkEvent PeerId) : RepairWorld PeerId :=
  let node := w.nodes p
  let (f, fs, out) := ChunkHandler.handle
    ⟨connected, List.range' node.nextRequestId maxFetchTargets, now⟩ e (w.fetchers p)
    node.filesystem
  { w with
    nodes := Function.update w.nodes p
      { node with filesystem := fs, nextRequestId := node.nextRequestId + maxFetchTargets }
    fetchers := Function.update w.fetchers p f
    pulls := w.pulls ∪ (out.sent.map (Pull.mk p)).toFinset }

/-- One event of the first half of a round that begins at time `start`. Commands and messages are
taken once, and none is lost; a peer serves a `PullChunk` request as `ChunkHandler.handle` does. -/
def repairStep (members : List PeerId) (start : ℕ) :
    RepairEvent PeerId → RepairWorld PeerId → Option (RepairWorld PeerId)
  | .rebalance p connected now live, w =>
    if FullView members p connected ∧ start ≤ now ∧
        Lists live (w.nodes p).filesystem.reachableChunkHashes then
      let (node, fetches) := (w.nodes p).rebalance p connected now (fun _ => true) live
      some { w with
        nodes := Function.update w.nodes p node
        commands := w.commands ++ fetches.map (p, ·) }
    else none
  | .fetch p hash connected now, w =>
    if FullView members p connected ∧ (p, hash) ∈ w.commands then
      some ({ w with commands := w.commands.erase (p, hash) }.handle p connected now
        (.fetchChunk hash none true))
    else none
  | .pull m, w =>
    if m ∈ w.pulls then
      let node := w.nodes m.request.peer
      some { w with
        nodes := Function.update w.nodes m.request.peer
          (node.setFilesystem (node.filesystem.chunk m.request.hash).2)
        pulls := w.pulls.erase m
        pulled := insert ⟨m, ChunkHandler.served m.request.hash node.filesystem⟩ w.pulled }
    else none
  | .pulled m connected now, w =>
    if FullView members m.pull.asker connected ∧ m ∈ w.pulled then
      some ({ w with pulled := w.pulled.erase m }.handle m.pull.asker connected now
        (.response m.pull.request.requestId m.response))
    else none

/-- Nothing is under way. -/
def Quiet (w : RepairWorld PeerId) : Prop := w.commands = [] ∧ w.pulls = ∅ ∧ w.pulled = ∅

/-- The world in which a round begins. -/
def init (nodes : PeerId → ReplicationNode PeerId) (fetchers : PeerId → ChunkFetcher PeerId) :
    RepairWorld PeerId := ⟨nodes, fetchers, [], ∅, ∅⟩

/-- The bytes of a chunk, as far as a member has them. -/
def chunkBytes (members : List PeerId) (nodes : PeerId → ReplicationNode PeerId)
    (h : ChunkHash) : ℕ := members.toFinset.sup fun p => (nodes p).filesystem.storage.sizeOf h

/-- The reachable chunks that a node is designated for. -/
def wanted (members : List PeerId) (live : Finset ChunkHash) (p : PeerId) : Finset ChunkHash :=
  live.filter fun h => p ∈ designatedHolders h members

/-- **What a round starts from.** At least two nodes, with identical trees, nothing under way and no
back-off; every reachable chunk is stored at one of them, and each has room for the chunks it is
designated for. -/
structure Ready (members : List PeerId) (start : ℕ) (nodes : PeerId → ReplicationNode PeerId)
    (fetchers : PeerId → ChunkFetcher PeerId) : Prop where
  nodup : members.Nodup
  two : 2 ≤ members.length
  sameTree : ∀ p ∈ members, ∀ q ∈ members,
    (nodes p).filesystem.tree.find = (nodes q).filesystem.tree.find
  noProbe : ∀ p ∈ members, ∀ id, (nodes p).handler.pendingProbes id = none
  noFetch : ∀ p ∈ members, (∀ h, (fetchers p).sessions h = none) ∧
    ∀ id, (fetchers p).requests id = none
  noBackoff : ∀ p ∈ members, ∀ h t, (nodes p).handler.blockedUntil h = some t → t ≤ start
  stored : ∀ p ∈ members, ∀ h ∈ (nodes p).filesystem.reachableChunkHashes,
    ∃ q ∈ members, (nodes q).filesystem.storage.contains h
  capacity : ∀ p ∈ members, (nodes p).filesystem.storage.pinnedBytes +
    ∑ h ∈ wanted members (nodes p).filesystem.reachableChunkHashes p with
      ¬ (nodes p).filesystem.isPinned h, chunkBytes members nodes h ≤
    (nodes p).filesystem.storage.maxPinnedBytes

/-! ### Rebalancing -/

section Rebalance

variable {size : ChunkHash → ℕ} {live wantedHere : Finset ChunkHash} {peerId : PeerId}
  {current : List PeerId} {now : ℕ} {hashes : List ChunkHash} {node : ReplicationNode PeerId}

/-- A step of `rebalance` where there is room: the handler is left as it is, and what is to be
fetched is wanted and not stored. -/
structure Rebalances (size : ChunkHash → ℕ) (live wantedHere : Finset ChunkHash)
    (node : ReplicationNode PeerId) (r : ReplicationNode PeerId × List ChunkHash) : Prop where
  repairs : node.filesystem.Repairs r.1.filesystem
  handler : r.1.handler = node.handler
  nextRequestId : r.1.nextRequestId = node.nextRequestId
  roomy : r.1.filesystem.Roomy size live wantedHere
  fetches : ∀ h ∈ r.2, h ∈ wantedHere ∧ ¬ node.filesystem.storage.contains h

omit [LinearOrder PeerId] [PeerBytes PeerId] in
/-- Promoting a chunk, and going on. -/
theorem Rebalances.promoted {hash : ChunkHash} {r : ReplicationNode PeerId × List ChunkHash}
    (hrepairs : node.filesystem.Repairs (node.filesystem.promoteToPinned hash).2)
    (h : Rebalances size live wantedHere
      (node.setFilesystem (node.filesystem.promoteToPinned hash).2) r) :
    Rebalances size live wantedHere node r where
  repairs := hrepairs.trans h.repairs
  handler := h.handler
  nextRequestId := h.nextRequestId
  roomy := h.roomy
  fetches x hx := ⟨(h.fetches x hx).1, fun hc => (h.fetches x hx).2 (hrepairs.stored x hc)⟩

variable (now) in
/-- **What `rebalance` does where there is room.** -/
theorem rebalanceLoop_roomy
    (hwanted : ∀ h ∈ hashes, peerId ∈ designatedHolders h current ↔ h ∈ wantedHere)
    (hroomy : node.filesystem.Roomy size live wantedHere) (issued : ℕ) :
    Rebalances size live wantedHere node
      (rebalanceLoop peerId current now (fun _ => true) hashes issued node) := by
  induction hashes generalizing issued node with
  | nil => exact ⟨.refl _, rfl, rfl, hroomy, fun _ h => absurd h List.not_mem_nil⟩
  | cons hash hashes ih =>
    have hrest : ∀ h ∈ hashes, peerId ∈ designatedHolders h current ↔ h ∈ wantedHere :=
      fun h hh => hwanted h (List.mem_cons_of_mem hash hh)
    unfold rebalanceLoop
    split_ifs with hdesignated hpinned hblocked hcached hmax
    · exact ih hrest hroomy _
    · exact ih hrest hroomy _
    · -- a cached chunk is promoted
      obtain ⟨hok, -, hrepairs, hroomy'⟩ :=
        hroomy.promote ((hwanted hash List.mem_cons_self).1 (hdesignated)) hcached
      have hgoes := Rebalances.promoted hrepairs (ih hrest hroomy' issued)
      generalize node.filesystem.promoteToPinned hash = p at hok hgoes
      obtain ⟨promoted, fs⟩ := p
      obtain rfl : promoted = true := hok
      exact hgoes
    · exact ⟨.refl _, rfl, rfl, hroomy, fun _ h => absurd h List.not_mem_nil⟩
    · -- a chunk that is not stored is to be fetched
      have hlater := ih hrest hroomy (issued + 1)
      refine ⟨hlater.repairs, hlater.handler, hlater.nextRequestId, hlater.roomy, fun x hx => ?_⟩
      rcases List.mem_cons.1 hx with rfl | hx
      · refine ⟨(hwanted x List.mem_cons_self).1 (hdesignated), fun hc => ?_⟩
        exact (FileSystem.stored_iff.1 hc).elim hpinned hcached
      · exact hlater.fetches x hx
    · exact ih hrest hroomy _
    · exact ih hrest hroomy _

variable (now) in
/-- **`rebalance` makes progress**: if it wants a chunk that is not pinned, it pins one, or asks for
one to be fetched. -/
theorem rebalanceLoop_progress
    (hwanted : ∀ h ∈ hashes, peerId ∈ designatedHolders h current ↔ h ∈ wantedHere)
    (hroomy : node.filesystem.Roomy size live wantedHere)
    (hfree : ∀ h, ¬ (node.handler.blockedUntil h).any fun until_ => now < until_)
    (hmissing : ∃ h ∈ hashes, h ∈ wantedHere ∧ ¬ node.filesystem.isPinned h) :
    ∃ h ∈ wantedHere, ¬ node.filesystem.isPinned h ∧
      ((rebalanceLoop peerId current now (fun _ => true) hashes 0 node).1.filesystem.isPinned h ∨
        h ∈ (rebalanceLoop peerId current now (fun _ => true) hashes 0 node).2) := by
  induction hashes with
  | nil =>
    obtain ⟨h, hh, -⟩ := hmissing
    exact absurd hh List.not_mem_nil
  | cons hash hashes ih =>
    have hrest : ∀ h ∈ hashes, peerId ∈ designatedHolders h current ↔ h ∈ wantedHere :=
      fun h hh => hwanted h (List.mem_cons_of_mem hash hh)
    have hlater : (hash ∉ wantedHere ∨ node.filesystem.isPinned hash) →
        ∃ h ∈ hashes, h ∈ wantedHere ∧ ¬ node.filesystem.isPinned h := by
      intro hskip
      obtain ⟨h, hh, hw, hnot⟩ := hmissing
      refine ⟨h, (List.mem_cons.1 hh).resolve_left ?_, hw, hnot⟩
      rintro rfl
      exact hskip.elim (fun hskip => hskip hw) hnot
    have hhash := hwanted hash List.mem_cons_self
    unfold rebalanceLoop
    split_ifs with hdesignated hpinned hblocked hcached hmax
    · exact ih hrest (hlater (Or.inr hpinned))
    · exact absurd hblocked (hfree hash)
    · refine ⟨hash, hhash.1 (hdesignated), hpinned, Or.inl ?_⟩
      obtain ⟨hok, hnow, -, hroomy'⟩ :=
        hroomy.promote (hhash.1 (hdesignated)) hcached
      have hlater : Rebalances size live wantedHere
          (node.setFilesystem (node.filesystem.promoteToPinned hash).2) _ :=
        rebalanceLoop_roomy now hrest hroomy' 0
      have hkept := hlater.repairs.pinned hash hnow
      generalize node.filesystem.promoteToPinned hash = p at hok hkept
      obtain ⟨promoted, fs⟩ := p
      obtain rfl : promoted = true := hok
      exact hkept
    · exact absurd hmax (by decide)
    · exact ⟨hash, hhash.1 (hdesignated), hpinned, Or.inr List.mem_cons_self⟩
    · contradiction
    · exact ih hrest (hlater (Or.inl (mt hhash.2 hdesignated)))

/-- `rebalance` does nothing where no chunk is missing. -/
theorem rebalanceLoop_idle
    (hpinned : ∀ h ∈ hashes, peerId ∈ designatedHolders h current → node.filesystem.isPinned h)
    (issued : ℕ) :
    rebalanceLoop peerId current now (fun _ => true) hashes issued node = (node, []) := by
  induction hashes with
  | nil => rfl
  | cons hash hashes ih =>
    have hlater := ih fun h hh => hpinned h (List.mem_cons_of_mem hash hh)
    unfold rebalanceLoop
    by_cases hdesignated : peerId ∈ designatedHolders hash current
    · rw [if_neg (not_not.2 hdesignated), if_pos (hpinned hash List.mem_cons_self hdesignated)]
      exact hlater
    · rw [if_pos hdesignated]
      exact hlater

end Rebalance

/-! ### What every step keeps -/

/-- The requests of a node that are under way. -/
def asking (w : RepairWorld PeerId) (p : PeerId) : Set (PullChunk PeerId) :=
  {r | ⟨p, r⟩ ∈ w.pulls ∨ ∃ x, ⟨⟨p, r⟩, x⟩ ∈ w.pulled}

/-- A peer has had a chunk stored when the round began. -/
def Had (nodes : PeerId → ReplicationNode PeerId) (q : PeerId) (h : ChunkHash) : Prop :=
  (nodes q).filesystem.storage.contains h

/-- A wanted chunk that another member has had stored. -/
def Available (members : List PeerId) (live : Finset ChunkHash)
    (nodes : PeerId → ReplicationNode PeerId) (p : PeerId) (h : ChunkHash) : Prop :=
  h ∈ wanted members live p ∧ ∃ q ∈ members, q ≠ p ∧ Had nodes q h

/-- A response with the chunk, or an error from a peer that has not had it. -/
def Right (members : List PeerId) (nodes : PeerId → ReplicationNode PeerId) (m : Pulled PeerId) :
    Prop :=
  (∃ d, m.response = .chunkData d ∧ ChunkHash.of d = m.pull.request.hash ∧
      d.length ≤ chunkBytes members nodes m.pull.request.hash) ∨
    ∃ e, m.response = .error e ∧ ¬ Had nodes m.pull.request.peer m.pull.request.hash

/-- The invariant of the first half of a round that has begun with `nodes`. -/
structure Repairing (members : List PeerId) (live : Finset ChunkHash)
    (nodes : PeerId → ReplicationNode PeerId) (w : RepairWorld PeerId) : Prop where
  repairs : ∀ p, (nodes p).filesystem.Repairs (w.nodes p).filesystem
  handler : ∀ p, (w.nodes p).handler = (nodes p).handler
  roomy : ∀ p ∈ members, (w.nodes p).filesystem.Roomy (chunkBytes members nodes) live
    (wanted members live p)
  commands : ∀ c ∈ w.commands, c.1 ∈ members ∧ Available members live nodes c.1 c.2
  pursues : ∀ p ∈ members, (w.fetchers p).Pursues (Available members live nodes p) (Had nodes)
    (w.asking p) fun _ => False
  requests : ∀ p, ∀ r ∈ w.asking p, p ∈ members ∧ r.peer ∈ members ∧ r.hash ∈ live ∧
    r.requestId < (w.nodes p).nextRequestId
  distinct : ∀ p, ∀ r ∈ w.asking p, ∀ r' ∈ w.asking p, r'.requestId = r.requestId → r' = r
  right : ∀ m ∈ w.pulled, Right members nodes m

section Run

variable {members : List PeerId} {start : ℕ} {nodes : PeerId → ReplicationNode PeerId}
  {fetchers : PeerId → ChunkFetcher PeerId} {live : Finset ChunkHash} {w w' : RepairWorld PeerId}

omit [LinearOrder PeerId] [PeerBytes PeerId] [Sha256] in
theorem notMem_asking {p : PeerId} {r : PullChunk PeerId} (hpulls : w.pulls = ∅)
    (hpulled : w.pulled = ∅) : r ∉ w.asking p := by
  rintro (hr | ⟨x, hr⟩)
  · rw [hpulls] at hr
    exact Finset.notMem_empty _ hr
  · rw [hpulled] at hr
    exact Finset.notMem_empty _ hr

omit [PeerBytes PeerId] [Sha256] in
theorem sizeOf_le_chunkBytes {p : PeerId} (hp : p ∈ members) (h : ChunkHash) :
    (nodes p).filesystem.storage.sizeOf h ≤ chunkBytes members nodes h :=
  Finset.le_sup (f := fun p => (nodes p).filesystem.storage.sizeOf h) (List.mem_toFinset.2 hp)

theorem repairing_init (hready : Ready members start nodes fetchers)
    (hinv : ∀ p, (nodes p).filesystem.Inv)
    (hlive : ∀ p ∈ members, (nodes p).filesystem.reachableChunkHashes = live) :
    Repairing members live nodes (init nodes fetchers) where
  repairs _ := .refl _
  handler _ := rfl
  roomy p hp := ⟨(hinv p).storage, Finset.filter_subset _ _, fun h _ => sizeOf_le_chunkBytes hp h,
    hlive p hp ▸ hready.capacity p hp⟩
  commands _ hc := absurd hc List.not_mem_nil
  pursues p hp := ChunkFetcher.pursues_idle (hready.noFetch p hp).1 (hready.noFetch p hp).2 _ _ _
  requests _ _ hr := absurd hr (notMem_asking rfl rfl)
  distinct _ _ hr := absurd hr (notMem_asking rfl rfl)
  right _ hm := absurd hm (Finset.notMem_empty _)

/-- One node has changed, and what the invariant says of the nodes still holds. -/
structure NodesKept (members : List PeerId) (live : Finset ChunkHash)
    (nodes before after : PeerId → ReplicationNode PeerId) : Prop where
  repairs : ∀ q, (nodes q).filesystem.Repairs (after q).filesystem
  handler : ∀ q, (after q).handler = (nodes q).handler
  roomy : ∀ q ∈ members, (after q).filesystem.Roomy (chunkBytes members nodes) live
    (wanted members live q)
  nextRequestId : ∀ q, (before q).nextRequestId ≤ (after q).nextRequestId
  pinned : ∀ q x, (before q).filesystem.isPinned x → (after q).filesystem.isPinned x

theorem Repairing.update (h : Repairing members live nodes w) {p : PeerId}
    {node : ReplicationNode PeerId} (hrepairs : (w.nodes p).filesystem.Repairs node.filesystem)
    (hhandler : node.handler = (w.nodes p).handler)
    (hroomy : p ∈ members →
      node.filesystem.Roomy (chunkBytes members nodes) live (wanted members live p))
    (hnext : (w.nodes p).nextRequestId ≤ node.nextRequestId) :
    NodesKept members live nodes w.nodes (Function.update w.nodes p node) := by
  refine ⟨fun q => ?_, fun q => ?_, fun q hq => ?_, fun q => ?_, fun q x => ?_⟩ <;>
    by_cases hqp : q = p
  · subst hqp
    rw [Function.update_self]
    exact (h.repairs q).trans hrepairs
  · rw [Function.update_of_ne hqp]
    exact h.repairs q
  · subst hqp
    rw [Function.update_self]
    exact hhandler.trans (h.handler q)
  · rw [Function.update_of_ne hqp]
    exact h.handler q
  · subst hqp
    rw [Function.update_self]
    exact hroomy hq
  · rw [Function.update_of_ne hqp]
    exact h.roomy q hq
  · subst hqp
    rw [Function.update_self]
    exact hnext
  · rw [Function.update_of_ne hqp]
  · subst hqp
    rw [Function.update_self]
    exact hrepairs.pinned x
  · rw [Function.update_of_ne hqp]
    exact id

/-- A chunk that is to be fetched, is being fetched or has been pinned. -/
def Pursued (w : RepairWorld PeerId) (p : PeerId) (h : ChunkHash) : Prop :=
  (p, h) ∈ w.commands ∨ ((w.fetchers p).sessions h).isSome ∨ (w.nodes p).filesystem.isPinned h

section Handle

variable {w₁ : RepairWorld PeerId} {p : PeerId} {connected : List PeerId} {now : ℕ → ℕ}
  {e : ChunkEvent PeerId} {f : ChunkFetcher PeerId} {fs : FileSystem PeerId}
  {out : FetchOutput PeerId}

/-- What has changed when the handler of a node has handled an event. -/
theorem handle_eq (hnodes : w₁.nodes = w.nodes) (hfetchers : w₁.fetchers = w.fetchers)
    (hhandle : ChunkHandler.handle
      ⟨connected, List.range' (w.nodes p).nextRequestId maxFetchTargets, now⟩ e (w.fetchers p)
      (w.nodes p).filesystem = (f, fs, out)) :
    w₁.handle p connected now e = { w₁ with
      nodes := Function.update w.nodes p { w.nodes p with
        filesystem := fs
        nextRequestId := (w.nodes p).nextRequestId + maxFetchTargets }
      fetchers := Function.update w.fetchers p f
      pulls := w₁.pulls ∪ (out.sent.map (Pull.mk p)).toFinset } := by
  simp only [RepairWorld.handle, hnodes, hfetchers, hhandle]

/-- What is pursued stays so when an event is handled that drops no session, but for the sake of
the chunk. -/
theorem Pursued.handle {q : PeerId} {x : ChunkHash} (h : Pursued w q x)
    (hnodes : w₁.nodes = w.nodes) (hfetchers : w₁.fetchers = w.fetchers)
    (hhandle : ChunkHandler.handle
      ⟨connected, List.range' (w.nodes p).nextRequestId maxFetchTargets, now⟩ e (w.fetchers p)
      (w.nodes p).filesystem = (f, fs, out))
    (hrepairs : (w.nodes p).filesystem.Repairs fs)
    (hcommands : (q, x) ∈ w.commands → (q, x) ∈ w₁.commands ∨ q = p ∧ (f.sessions x).isSome)
    (hsessions : ((w.fetchers p).sessions x).isSome → (f.sessions x).isSome ∨ fs.isPinned x) :
    Pursued (w₁.handle p connected now e) q x := by
  rw [handle_eq hnodes hfetchers hhandle]
  unfold Pursued
  dsimp only
  by_cases hq : q = p
  · subst hq
    rw [Function.update_self, Function.update_self]
    rcases h with hcommand | hsession | hpinned
    · exact (hcommands hcommand).imp id fun hopen => Or.inl hopen.2
    · exact Or.inr (hsessions hsession)
    · exact Or.inr (Or.inr (hrepairs.pinned x hpinned))
  · rw [Function.update_of_ne hq, Function.update_of_ne hq]
    exact h.imp_left fun hcommand => (hcommands hcommand).resolve_right fun hopen => hq hopen.1

/-- The handler of a member handles an event, after a command or a message has been taken. -/
theorem Repairing.handle (h : Repairing members live nodes w)
    (hnodes : w₁.nodes = w.nodes) (hfetchers : w₁.fetchers = w.fetchers)
    (hcommands : ∀ c ∈ w₁.commands, c ∈ w.commands) (hpulled : ∀ m ∈ w₁.pulled, m ∈ w.pulled)
    (hasking : ∀ q, ∀ r ∈ w₁.asking q, r ∈ w.asking q)
    (hothers : ∀ q, q ≠ p → ∀ r ∈ w.asking q, r ∈ w₁.asking q) (hp : p ∈ members)
    (hnodup : members.Nodup) (hview : FullView members p connected) {hash : ChunkHash}
    (hhandle : ChunkHandler.handle
      ⟨connected, List.range' (w.nodes p).nextRequestId maxFetchTargets, now⟩ e (w.fetchers p)
      (w.nodes p).filesystem = (f, fs, out))
    (hrepairs : (w.nodes p).filesystem.Repairs fs)
    (hroomy : fs.Roomy (chunkBytes members nodes) live (wanted members live p))
    (hlive : hash ∈ live)
    (hasks : ChunkFetcher.Asks
      ⟨connected, List.range' (w.nodes p).nextRequestId maxFetchTargets, now⟩ hash out.sent)
    (hpursues : f.Pursues (Available members live nodes p) (Had nodes)
      (w₁.asking p ∪ {r | r ∈ out.sent}) fun _ => False) :
    Repairing members live nodes (w₁.handle p connected now e) := by
  rw [handle_eq hnodes hfetchers hhandle]
  set node : ReplicationNode PeerId := { w.nodes p with
    filesystem := fs
    nextRequestId := (w.nodes p).nextRequestId + maxFetchTargets }
  set w₂ : RepairWorld PeerId := { w₁ with
    nodes := Function.update w.nodes p node
    fetchers := Function.update w.fetchers p f
    pulls := w₁.pulls ∪ (out.sent.map (Pull.mk p)).toFinset } with hw₂
  have hnodes₂ : NodesKept members live nodes w.nodes w₂.nodes :=
    h.update hrepairs rfl (fun _ => hroomy) (Nat.le_add_right _ _)
  -- what is asked now
  have hnow : ∀ q r, r ∈ w₂.asking q ↔ r ∈ w₁.asking q ∨ q = p ∧ r ∈ out.sent := by
    intro q r
    have hpulls : (⟨q, r⟩ : Pull PeerId) ∈ w₂.pulls ↔ ⟨q, r⟩ ∈ w₁.pulls ∨ q = p ∧ r ∈ out.sent := by
      rw [hw₂, Finset.mem_union, List.mem_toFinset, List.mem_map]
      refine or_congr_right ⟨?_, ?_⟩
      · rintro ⟨r', hr', heq⟩
        cases heq
        exact ⟨rfl, hr'⟩
      · rintro ⟨rfl, hr⟩
        exact ⟨r, hr, rfl⟩
    change ⟨q, r⟩ ∈ w₂.pulls ∨ _ ↔ (_ ∨ _) ∨ _
    rw [hpulls, or_right_comm]
  have hnew : ∀ r ∈ out.sent, (w.nodes p).nextRequestId ≤ r.requestId ∧
      r.requestId < (w.nodes p).nextRequestId + maxFetchTargets := fun r hr => by
    have hid := List.mem_range'_1.1 (hasks.fresh r hr)
    exact hid
  have hold : ∀ r ∈ w₁.asking p, r.requestId < (w.nodes p).nextRequestId := fun r hr =>
    (h.requests p r (hasking p r hr)).2.2.2
  refine ⟨hnodes₂.repairs, hnodes₂.handler, hnodes₂.roomy,
    fun c hc => h.commands c (hcommands c hc), fun q hq => ?_, fun q r hr => ?_,
    fun q r hr r' hr' hid => ?_, fun m hm => h.right m (hpulled m hm)⟩
  · by_cases hqp : q = p
    · subst hqp
      rw [show w₂.fetchers q = f from Function.update_self _ _ _]
      refine hpursues.mono (fun r hr => (hnow q r).2 ?_) fun _ => id
      exact hr.imp_right fun hr => ⟨rfl, hr⟩
    · rw [show w₂.fetchers q = w.fetchers q from Function.update_of_ne hqp _ _]
      exact (h.pursues q hq).mono (fun r hr => (hnow q r).2 (Or.inl (hothers q hqp r hr)))
        fun _ => id
  · rcases (hnow q r).1 hr with hmem | ⟨rfl, hsent⟩
    · obtain ⟨hq, hpeer, hhash, hid⟩ := h.requests q r (hasking q r hmem)
      exact ⟨hq, hpeer, hhash, hid.trans_le (hnodes₂.nextRequestId q)⟩
    · rw [show w₂.nodes q = node from Function.update_self _ _ _]
      exact ⟨hp, ((hview.mem_iff hnodup).1 (hasks.peer r hsent)).1, hasks.hash r hsent ▸ hlive,
        (hnew r hsent).2⟩
  · rcases (hnow q r).1 hr with hmem | ⟨rfl, hsent⟩
    · rcases (hnow q r').1 hr' with hmem' | ⟨rfl, hsent'⟩
      · exact h.distinct q r (hasking q r hmem) r' (hasking q r' hmem') hid
      · exact absurd (hid ▸ hold r hmem) (hnew r' hsent').1.not_gt
    · rcases (hnow q r').1 hr' with hmem' | ⟨-, hsent'⟩
      · exact absurd (hid ▸ hold r' hmem') (hnew r hsent).1.not_gt
      · exact hasks.distinct r' hsent' r hsent hid

end Handle

/-! ### One step -/

variable [LawfulCrdtTree PeerId]

omit [PeerBytes PeerId] [Sha256] in
/-- The nodes still reach the same chunks. -/
theorem reachable_eq (hsound : ∀ p, (nodes p).filesystem.tree.Sound)
    (hlive : ∀ p ∈ members, (nodes p).filesystem.reachableChunkHashes = live) {p : PeerId}
    (hp : p ∈ members) {fs : FileSystem PeerId} (htree : fs.tree = (nodes p).filesystem.tree) :
    fs.reachableChunkHashes = live := by
  rw [FileSystem.reachableChunkHashes_congr (htree ▸ hsound p) (hsound p) (by rw [htree]),
    hlive p hp]

variable [LawfulPeerBytes PeerId]

omit [LawfulCrdtTree PeerId] [LawfulPeerBytes PeerId] in
/-- With at least two members, `rebalance` goes through all hashes. -/
theorem rebalance_eq (htwo : 2 ≤ members.length) {p : PeerId} {connected : List PeerId}
    (hview : FullView members p connected) (now : ℕ) (trySend : ChunkHash → Bool)
    (hashes : List ChunkHash) (node : ReplicationNode PeerId) :
    node.rebalance p connected now trySend hashes =
      rebalanceLoop p (currentMembers connected p) now trySend hashes 0 node := by
  unfold rebalance
  dsimp only
  rw [if_neg]
  rw [hview.currentMembers_perm.length_eq]
  omega

omit [CrdtTree PeerId] [LawfulCrdtTree PeerId] in
theorem mem_wanted_iff {p : PeerId} {connected : List PeerId} (hview : FullView members p connected)
    {hashes : List ChunkHash} (hhashes : Lists hashes live) :
    ∀ h ∈ hashes, p ∈ designatedHolders h (currentMembers connected p) ↔
      h ∈ wanted members live p := by
  intro h hh
  have hmem : h ∈ live := hhashes.2 ▸ List.mem_toFinset.2 hh
  rw [hview.designatedHolders_eq, wanted, Finset.mem_filter, and_iff_right hmem]

/-- What a step leads to. -/
structure Step (members : List PeerId) (live : Finset ChunkHash)
    (nodes : PeerId → ReplicationNode PeerId) (w w' : RepairWorld PeerId) : Prop where
  repairing : Repairing members live nodes w'
  pursued : ∀ p h, Pursued w p h → Pursued w' p h

theorem step_rebalance (hready : Ready members start nodes fetchers)
    (hinv : ∀ p, (nodes p).filesystem.Inv)
    (hlive : ∀ p ∈ members, (nodes p).filesystem.reachableChunkHashes = live)
    (h : Repairing members live nodes w) {p : PeerId} {connected : List PeerId} {now : ℕ}
    {hashes : List ChunkHash}
    (hstep : repairStep members start (.rebalance p connected now hashes) w = some w') :
    Step members live nodes w w' := by
  simp only [repairStep] at hstep
  split_ifs at hstep with hguard
  obtain ⟨hview, -, hhashes⟩ := hguard
  obtain rfl := Option.some.inj hstep
  rw [reachable_eq (fun p => (hinv p).sound) hlive hview.1 (h.repairs p).tree] at hhashes
  rw [rebalance_eq hready.two hview]
  obtain ⟨hrepairs, hhandler, hid, hroomy, hfetches⟩ :=
    rebalanceLoop_roomy now (mem_wanted_iff hview hhashes) (h.roomy p hview.1) 0
  set r := rebalanceLoop p (currentMembers connected p) now (fun _ => true) hashes 0 (w.nodes p)
  set w₁ : RepairWorld PeerId := { w with
    nodes := Function.update w.nodes p r.1
    commands := w.commands ++ r.2.map (p, ·) }
  have hnodes₁ : NodesKept members live nodes w.nodes w₁.nodes :=
    h.update hrepairs hhandler (fun _ => hroomy) hid.ge
  refine ⟨⟨hnodes₁.repairs, hnodes₁.handler, hnodes₁.roomy, fun c hc => ?_, h.pursues,
    fun q x hx => ?_, h.distinct, h.right⟩, fun q x hpursued => ?_⟩
  · rcases List.mem_append.1 hc with hc | hc
    · exact h.commands c hc
    · -- the node has not had the chunk, so another one has
      obtain ⟨x, hx, rfl⟩ := List.mem_map.1 hc
      obtain ⟨hwanted, hnot⟩ := hfetches x hx
      refine ⟨hview.1, hwanted, ?_⟩
      have hxlive : x ∈ (nodes p).filesystem.reachableChunkHashes :=
        (hlive p hview.1).symm ▸ (Finset.mem_filter.1 hwanted).1
      obtain ⟨q, hq, hhad⟩ := hready.stored p hview.1 x hxlive
      refine ⟨q, hq, ?_, hhad⟩
      rintro rfl
      exact hnot ((h.repairs q).stored x hhad)
  · obtain ⟨hq, hpeer, hhash, hlt⟩ := h.requests q x hx
    exact ⟨hq, hpeer, hhash, hlt.trans_le (hnodes₁.nextRequestId q)⟩
  · exact hpursued.imp (List.mem_append_left _) (Or.imp_right (hnodes₁.pinned q x))

omit [LawfulCrdtTree PeerId] [LawfulPeerBytes PeerId] in
theorem step_fetch (hready : Ready members start nodes fetchers)
    (h : Repairing members live nodes w) {p : PeerId} {hash : ChunkHash} {connected : List PeerId}
    {now : ℕ → ℕ} (hstep : repairStep members start (.fetch p hash connected now) w = some w') :
    Step members live nodes w w' := by
  simp only [repairStep] at hstep
  split_ifs at hstep with hguard
  obtain ⟨hview, hcommand⟩ := hguard
  obtain rfl := Option.some.inj hstep
  obtain ⟨-, havailable⟩ := h.commands _ hcommand
  set c : Surroundings PeerId :=
    ⟨connected, List.range' (w.nodes p).nextRequestId maxFetchTargets, now⟩ with hc
  have hholder : ∃ q ∈ connected, Had nodes q hash := by
    obtain ⟨-, q, hq, hne, hhad⟩ := havailable
    exact ⟨q, (hview.mem_iff hready.nodup).2 ⟨hq, hne⟩, hhad⟩
  have hfresh : ∀ r ∈ w.asking p, r.requestId ∉ c.ids := fun r hr hid =>
    (List.mem_range'_1.1 hid).1.not_gt (h.requests p r hr).2.2.2
  obtain ⟨hpursues, hsessions⟩ := (h.pursues p hview.1).fetchChunk (c := c) havailable
    (List.length_range' ..).ge hfresh hholder
  have hhandle : ChunkHandler.handle c (.fetchChunk hash none true) (w.fetchers p)
      (w.nodes p).filesystem = (((w.fetchers p).fetchChunk c hash none true).1,
        (w.nodes p).filesystem, ((w.fetchers p).fetchChunk c hash none true).2) := rfl
  refine ⟨h.handle rfl rfl (fun _ => List.mem_of_mem_erase) (fun _ => id) (fun _ _ => id)
    (fun _ _ _ => id) hview.1 hready.nodup hview hhandle (.refl _) (h.roomy p hview.1)
    (Finset.mem_filter.1 havailable.1).1
    (ChunkFetcher.asks_fetchChunk List.nodup_range' _ _) hpursues, fun q x hpursued => ?_⟩
  refine hpursued.handle rfl rfl hhandle (.refl _) (fun hcommand => ?_) fun hsession => ?_
  · by_cases heq : (q, x) = (p, hash)
    · cases heq
      exact Or.inr ⟨rfl, hsessions hash (Or.inr rfl)⟩
    · exact Or.inl ((List.mem_erase_of_ne heq).2 hcommand)
  · exact Or.inl (hsessions x (Or.inl hsession))

omit [LawfulCrdtTree PeerId] [LawfulPeerBytes PeerId] in
theorem step_pull (h : Repairing members live nodes w) {m : Pull PeerId}
    (hstep : repairStep members start (.pull m) w = some w') : Step members live nodes w w' := by
  simp only [repairStep] at hstep
  split_ifs at hstep with hmem
  obtain rfl := Option.some.inj hstep
  set p := m.request.peer
  set node := (w.nodes p).setFilesystem ((w.nodes p).filesystem.chunk m.request.hash).2
  set w₁ : RepairWorld PeerId := { w with
    nodes := Function.update w.nodes p node
    pulls := w.pulls.erase m
    pulled := insert ⟨m, ChunkHandler.served m.request.hash (w.nodes p).filesystem⟩ w.pulled }
  obtain ⟨-, hp, hmemlive, -⟩ := h.requests m.asker m.request (Or.inl hmem)
  obtain ⟨hrepairs, hroomy⟩ := (h.roomy p hp).chunk m.request.hash
  have hnodes₁ : NodesKept members live nodes w.nodes w₁.nodes :=
    h.update hrepairs rfl (fun _ => hroomy) le_rfl
  -- the request is answered, so it is still under way
  have hasking : ∀ q r, r ∈ w₁.asking q ↔ r ∈ w.asking q := by
    intro q r
    change ⟨q, r⟩ ∈ w.pulls.erase m ∨ (∃ x, _ ∈ insert _ w.pulled) ↔ _ ∨ _
    by_cases hqr : (⟨q, r⟩ : Pull PeerId) = m
    · refine iff_of_true (Or.inr ⟨_, Finset.mem_insert.2 (Or.inl (by rw [hqr]))⟩) (Or.inl ?_)
      rwa [hqr]
    · rw [Finset.mem_erase, and_iff_right hqr]
      refine or_congr_right (exists_congr fun x => Finset.mem_insert.trans (or_iff_right ?_))
      rintro heq
      exact hqr (congrArg Pulled.pull heq)
  refine ⟨⟨hnodes₁.repairs, hnodes₁.handler, hnodes₁.roomy, h.commands, fun q hq => ?_,
    fun q x hx => ?_, fun q x hx y hy => ?_, fun a ha => ?_⟩, fun q x hpursued => ?_⟩
  · exact (h.pursues q hq).mono (fun r hr => (hasking q r).2 hr) fun _ => id
  · obtain ⟨hq, hpeer, hhash, hlt⟩ := h.requests q x ((hasking q x).1 hx)
    exact ⟨hq, hpeer, hhash, hlt.trans_le (hnodes₁.nextRequestId q)⟩
  · exact h.distinct q x ((hasking q x).1 hx) y ((hasking q y).1 hy)
  · rcases Finset.mem_insert.1 ha with rfl | ha
    · -- the peer sends the chunk if it has it stored
      unfold Right
      dsimp only [ChunkHandler.served]
      cases hchunk : ((w.nodes p).filesystem.chunk m.request.hash).1 with
      | some d =>
        obtain ⟨hd, hle⟩ := (h.roomy p hp).chunk_eq_some hmemlive hchunk
        exact Or.inl ⟨d, rfl, hd, hle⟩
      | none =>
        exact Or.inr ⟨_, rfl, fun hhad =>
          FileSystem.chunk_eq_none hchunk ((h.repairs p).stored _ hhad)⟩
    · exact h.right a ha
  · exact hpursued.imp id (Or.imp_right (hnodes₁.pinned q x))

omit [LawfulCrdtTree PeerId] [LawfulPeerBytes PeerId] in
theorem step_pulled (hready : Ready members start nodes fetchers)
    (h : Repairing members live nodes w) {m : Pulled PeerId} {connected : List PeerId}
    {now : ℕ → ℕ} (hstep : repairStep members start (.pulled m connected now) w = some w') :
    Step members live nodes w w' := by
  simp only [repairStep] at hstep
  split_ifs at hstep with hguard
  obtain ⟨hview, hmem⟩ := hguard
  obtain rfl := Option.some.inj hstep
  set p := m.pull.asker
  set r := m.pull.request
  set w₁ : RepairWorld PeerId := { w with pulled := w.pulled.erase m }
  set c : Surroundings PeerId :=
    ⟨connected, List.range' (w.nodes p).nextRequestId maxFetchTargets, now⟩
  have hr : r ∈ w.asking p := Or.inr ⟨m.response, hmem⟩
  have hlive : r.hash ∈ live := (h.requests p r hr).2.2.1
  have hfresh : ∀ r ∈ w.asking p, r.requestId ∉ c.ids := fun r hr hid =>
    (List.mem_range'_1.1 hid).1.not_gt (h.requests p r hr).2.2.2
  have hholder : ∀ a, Available members live nodes p a → ∃ q ∈ connected, Had nodes q a := by
    rintro a ⟨-, q, hq, hne, hhad⟩
    exact ⟨q, (hview.mem_iff hready.nodup).2 ⟨hq, hne⟩, hhad⟩
  -- only this request ends
  have hasking : ∀ q, ∀ x ∈ w₁.asking q, x ∈ w.asking q := by
    rintro q x (hx | ⟨y, hy⟩)
    · exact Or.inl hx
    · exact Or.inr ⟨y, Finset.mem_of_mem_erase hy⟩
  have hstays : ∀ q x, x ∈ w.asking q → ¬ (q = p ∧ x = r) → x ∈ w₁.asking q := by
    rintro q x (hx | ⟨y, hy⟩) hne
    · exact Or.inl hx
    · refine Or.inr ⟨y, Finset.mem_erase.2 ⟨fun heq => hne ?_, hy⟩⟩
      exact ⟨congrArg (·.pull.asker) heq, congrArg (·.pull.request) heq⟩
  have hothers : ∀ q, q ≠ p → ∀ x ∈ w.asking q, x ∈ w₁.asking q := fun q hq x hx =>
    hstays q x hx fun heq => hq heq.1
  have hrest : ∀ x ∈ w.asking p \ {r}, x ∈ w₁.asking p := fun x hx =>
    hstays p x hx.1 fun heq => hx.2 heq.2
  have hpulled : ∀ m ∈ w₁.pulled, m ∈ w.pulled := fun _ => Finset.mem_of_mem_erase
  rcases h.right m hmem with ⟨d, hresponse, hd, hle⟩ | ⟨e, hresponse, hnot⟩
  · -- the chunk
    rw [hresponse]
    obtain ⟨f, fs, answers, heq, hpursues, hrepairs, hroomy, hsessions⟩ :=
      (h.pursues p hview.1).handleResponse (c := c) (h.distinct p r hr) hd hle
        (fun a ha => ha.1) (h.roomy p hview.1)
    have hhandle : ChunkHandler.handle c (.response r.requestId (.chunkData d)) (w.fetchers p)
        (w.nodes p).filesystem = (f, fs, ⟨[], answers⟩) := heq
    refine ⟨h.handle rfl rfl (fun _ => id) hpulled hasking hothers hview.1 hready.nodup hview
      hhandle hrepairs hroomy hlive ChunkFetcher.asks_nil
      (hpursues.mono (fun x hx => Or.inl (hrest x hx)) fun _ => id), fun q x hpursued => ?_⟩
    exact hpursued.handle rfl rfl hhandle hrepairs Or.inl (hsessions x)
  · -- an error
    rw [hresponse]
    obtain ⟨hpursues, hsessions⟩ := (h.pursues p hview.1).handleFailure (c := c)
      (h.distinct p r hr) hnot (List.length_range' ..).ge hfresh hholder
    have hasks := (h.pursues p hview.1).asks_handleFailure (c := c) (h.distinct p r hr)
      List.nodup_range'
    have hhandle : ChunkHandler.handle c (.response r.requestId (.error e)) (w.fetchers p)
        (w.nodes p).filesystem = (((w.fetchers p).handleFailure c r.requestId).1,
          (w.nodes p).filesystem, ((w.fetchers p).handleFailure c r.requestId).2) := rfl
    refine ⟨h.handle rfl rfl (fun _ => id) hpulled hasking hothers hview.1 hready.nodup hview
      hhandle (.refl _) (h.roomy p hview.1) hlive hasks
      (hpursues.mono (fun x hx => hx.imp_left (hrest x)) fun _ => id), fun q x hpursued => ?_⟩
    exact hpursued.handle rfl rfl hhandle (.refl _) Or.inl fun hs => Or.inl (hsessions x hs)

/-- **What every step keeps.** -/
theorem repairing_step (hready : Ready members start nodes fetchers)
    (hinv : ∀ p, (nodes p).filesystem.Inv)
    (hlive : ∀ p ∈ members, (nodes p).filesystem.reachableChunkHashes = live)
    (h : Repairing members live nodes w) {e : RepairEvent PeerId}
    (hstep : repairStep members start e w = some w') : Step members live nodes w w' := by
  cases e with
  | rebalance p connected now hashes => exact step_rebalance hready hinv hlive h hstep
  | fetch p hash connected now => exact step_fetch hready h hstep
  | pull m => exact step_pull h hstep
  | pulled m connected now => exact step_pulled hready h hstep

/-! ### Whole runs -/

omit [LawfulCrdtTree PeerId] [LawfulPeerBytes PeerId] in
theorem Step.refl (h : Repairing members live nodes w) : Step members live nodes w w :=
  ⟨h, fun _ _ => id⟩

/-- What is pursued stays pursued in a run. -/
theorem repairing_run (hready : Ready members start nodes fetchers)
    (hinv : ∀ p, (nodes p).filesystem.Inv)
    (hlive : ∀ p ∈ members, (nodes p).filesystem.reachableChunkHashes = live)
    (h : Repairing members live nodes w) {events : List (RepairEvent PeerId)}
    (hrun : run (repairStep members start) events w = some w') : Step members live nodes w w' := by
  refine run_invariant (I := Step members live nodes w) (fun e u v hu hstep => ?_) (.refl h) hrun
  have hv := repairing_step hready hinv hlive hu.repairing hstep
  exact ⟨hv.repairing, fun p x hx => hv.pursued p x (hu.pursued p x hx)⟩

omit [LawfulCrdtTree PeerId] [LawfulPeerBytes PeerId] in
/-- When nothing is under way, no session is left, and what has been pursued is pinned. -/
theorem Repairing.pinned_of_quiet (h : Repairing members live nodes w) (hquiet : w.Quiet)
    {p : PeerId} (hp : p ∈ members) {x : ChunkHash} (hx : Pursued w p x) :
    (w.nodes p).filesystem.isPinned x := by
  obtain ⟨hcommands, hpulls, hpulled⟩ := hquiet
  rcases hx with hcommand | hsession | hpinned
  · rw [hcommands] at hcommand
    exact absurd hcommand List.not_mem_nil
  · obtain ⟨s, hs⟩ := Option.isSome_iff_exists.1 hsession
    obtain ⟨id, hid⟩ := (h.pursues p hp).nonempty x s hs not_false
    obtain ⟨r, hr, -⟩ := (h.pursues p hp).attempts x s hs id (Finmap.mem_keys.1 hid)
    exact absurd hr (notMem_asking hpulls hpulled)
  · exact hpinned

/-- **A node that lacks copies has one more** at the end of the first half of a round. -/
theorem exists_repaired (hready : Ready members start nodes fetchers)
    (hinv : ∀ p, (nodes p).filesystem.Inv)
    (hlive : ∀ p ∈ members, (nodes p).filesystem.reachableChunkHashes = live)
    {events : List (RepairEvent PeerId)}
    (hrun : run (repairStep members start) events (init nodes fetchers) = some w)
    (hquiet : w.Quiet) {p : PeerId}
    (hturn : ∃ connected now hashes, .rebalance p connected now hashes ∈ events)
    (hmissing : ∃ x ∈ wanted members live p, ¬ (nodes p).filesystem.isPinned x) :
    ∃ x ∈ wanted members live p, ¬ (nodes p).filesystem.isPinned x ∧
      (w.nodes p).filesystem.isPinned x := by
  obtain ⟨connected, now, hashes, hmem⟩ := hturn
  obtain ⟨before, after, rfl⟩ := List.append_of_mem hmem
  obtain ⟨u, hbefore, hrest⟩ := run_append_eq_some.1 hrun
  obtain ⟨v, hstep, hafter⟩ := Option.bind_eq_some_iff.1 hrest
  have hu := (repairing_run hready hinv hlive (repairing_init hready hinv hlive) hbefore).repairing
  have hv := repairing_step hready hinv hlive hu hstep
  have hw := repairing_run hready hinv hlive hv.repairing hafter
  have hguard := hstep
  simp only [repairStep] at hguard
  split_ifs at hguard with hconditions
  obtain ⟨hview, hnow, hhashes⟩ := hconditions
  have hend : ∀ x, Pursued v p x → (w.nodes p).filesystem.isPinned x := fun x hx =>
    hw.repairing.pinned_of_quiet hquiet hview.1 (hw.pursued p x hx)
  by_cases hnone : ∃ x ∈ wanted members live p, ¬ (u.nodes p).filesystem.isPinned x
  · -- when it is the node's turn, it still lacks a chunk
    rw [reachable_eq (fun p => (hinv p).sound) hlive hview.1 (hu.repairs p).tree] at hhashes
    have hfree : ∀ x, ¬ ((u.nodes p).handler.blockedUntil x).any fun until_ => now < until_ := by
      intro x hblocked
      rw [hu.handler p] at hblocked
      obtain ⟨t, ht, hlt⟩ := (Option.any_eq_true _ _).1 hblocked
      exact ((hready.noBackoff p hview.1 x t ht).trans hnow).not_gt (of_decide_eq_true hlt)
    have hlisted : ∃ x ∈ hashes, x ∈ wanted members live p ∧
        ¬ (u.nodes p).filesystem.isPinned x := by
      obtain ⟨x, hx, hnot⟩ := hnone
      exact ⟨x, List.mem_toFinset.1 (hhashes.2.symm ▸ (Finset.mem_filter.1 hx).1), hx, hnot⟩
    obtain ⟨x, hx, hnot, hdone⟩ := rebalanceLoop_progress now
      (mem_wanted_iff hview hhashes) (hu.roomy p hview.1) hfree hlisted
    refine ⟨x, hx, mt ((hu.repairs p).pinned x) hnot, hend x ?_⟩
    obtain rfl := Option.some.inj hguard
    rw [rebalance_eq hready.two hview]
    rcases hdone with hpinned | hfetch
    · refine Or.inr (Or.inr ?_)
      change (Function.update u.nodes p _ p).filesystem.isPinned x = true
      rw [Function.update_self]
      exact hpinned
    · exact Or.inl (List.mem_append_right _ (List.mem_map.2 ⟨x, hfetch, rfl⟩))
  · -- it has been repaired already
    obtain ⟨x, hx, hnot⟩ := hmissing
    have hpinned : (u.nodes p).filesystem.isPinned x :=
      not_not.1 fun hlacks => hnone ⟨x, hx, hlacks⟩
    exact ⟨x, hx, hnot, hend x (hv.pursued p x (Or.inr (Or.inr hpinned)))⟩

omit [LawfulCrdtTree PeerId] in
/-- **Where no copy is missing, nothing happens.** -/
theorem repair_idle (hready : Ready members start nodes fetchers)
    (hlive : ∀ p ∈ members, (nodes p).filesystem.reachableChunkHashes = live)
    (hpinned : ∀ p ∈ members, ∀ x ∈ wanted members live p, (nodes p).filesystem.isPinned x)
    {events : List (RepairEvent PeerId)}
    (hrun : run (repairStep members start) events (init nodes fetchers) = some w) :
    w = init nodes fetchers := by
  refine run_invariant (I := fun w => w = init nodes fetchers) ?_ rfl hrun
  rintro e u v rfl hstep
  cases e with
  | rebalance p connected now hashes =>
    simp only [repairStep] at hstep
    split_ifs at hstep with hguard
    obtain ⟨hview, -, hhashes⟩ := hguard
    rw [← Option.some.inj hstep]
    rw [show ((init nodes fetchers).nodes p) = nodes p from rfl, hlive p hview.1] at hhashes
    have hidle : rebalance p connected now (fun _ => true) hashes ((init nodes fetchers).nodes p) =
        (nodes p, []) := by
      rw [rebalance_eq hready.two hview]
      exact rebalanceLoop_idle (fun x hx hdesignated =>
        hpinned p hview.1 x ((mem_wanted_iff hview hhashes x hx).1 hdesignated)) 0
    rw [hidle]
    simp [init]
  | fetch p hash connected now => simp [repairStep, init] at hstep
  | pull m => simp [repairStep, init] at hstep
  | pulled m connected now => simp [repairStep, init] at hstep

end Run

end RepairWorld

end Edfs
