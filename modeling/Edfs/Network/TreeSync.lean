import Edfs.Filesystem.Calls

/-!
# Metadata synchronisation

`network/handlers/tree_sync.rs` and `gossip.rs` over any number of replicas: local mutations are
gossiped, and a replica pulls from another what it has missed, by sending the ids it knows. Gossip
batches and the messages of a pull may be delayed, reordered, duplicated or lost.

* `SyncWorld`, `syncStep`: the replicas and the messages in flight; `received` records what each
  replica has issued or been delivered, a reply's `held` what its sender had when it answered;
* `Inv`: logs are what has been received, and messages tell the truth; `inv_step`, `inv_run`;
* `Quiet`, `PulledIn`: no new operation at two replicas, and a pull answered and applied meanwhile;
* `metadata_convergence`.
-/

namespace Edfs

open Execution

/-- `Request::PullMissingOperations`, with who asks whom. -/
structure PullMissingOperations (PeerId : Type) where
  asker : PeerId
  answerer : PeerId
  knownIds : List (NodeOperationId PeerId)
  deriving DecidableEq

/-- `Response::MissingOperations`; `held` is not part of the message, it records the log of the
answering replica. -/
structure MissingOperations (PeerId : Type) where
  asker : PeerId
  answerer : PeerId
  operations : List (NodeOperation PeerId)
  held : List (NodeOperation PeerId)
  deriving DecidableEq

inductive SyncEvent (PeerId : Type)
  | mutate (p : PeerId) (now : ℕ) (c : Mutator)
  | gossip (p : PeerId) (now : ℕ → ℕ) (ops : List (NodeOperation PeerId))
  | synchronizeWith (p q : PeerId)
  | answer (r : PullMissingOperations PeerId)
  | applyReply (now : ℕ → ℕ) (r : MissingOperations PeerId)

structure SyncWorld (PeerId : Type) [CrdtTree PeerId] where
  nodes : PeerId → FileSystem PeerId
  /-- The operations issued anywhere. -/
  issued : List (NodeOperation PeerId)
  /-- The operations each replica has issued or been delivered. -/
  received : PeerId → List (NodeOperation PeerId)
  requests : List (PullMissingOperations PeerId)
  replies : List (MissingOperations PeerId)

namespace SyncWorld

variable {PeerId : Type} [CrdtTree PeerId]

def init (maxPinnedBytes : PeerId → ℕ) : SyncWorld PeerId where
  nodes p := FileSystem.init p (maxPinnedBytes p)
  issued := []
  received _ := []
  requests := []
  replies := []

/-- The operations in a replica's log. -/
def log (w : SyncWorld PeerId) (p : PeerId) : List (NodeOperation PeerId) :=
  (w.nodes p).tree.moves

variable [LinearOrder PeerId]

/-- Hand operations to a replica; the handler skips an empty reply. -/
def deliver (w : SyncWorld PeerId) (p : PeerId) (now : ℕ → ℕ)
    (ops : List (NodeOperation PeerId)) : SyncWorld PeerId :=
  { w with
    nodes := Function.update w.nodes p
      (if ops = [] then w.nodes p else (w.nodes p).applyOperations now ops)
    received := Function.update w.received p (ops ++ w.received p) }

/-- The reply to a pull: the operations whose ids the asker did not name. -/
def replyTo (w : SyncWorld PeerId) (r : PullMissingOperations PeerId) :
    MissingOperations PeerId where
  asker := r.asker
  answerer := r.answerer
  operations := (w.nodes r.answerer).operationsMissingFrom r.knownIds
  held := w.log r.answerer

variable [UuidV5] [Sha256] [FastCdc]

/-- The operations a local mutation reports. -/
def emitted (w : SyncWorld PeerId) (p : PeerId) (now : ℕ) (c : Mutator) :
    List (NodeOperation PeerId) :=
  match ((w.nodes p).mutate now c).1 with
  | .ok ops => ops
  | .error _ => []

/-- One event. Gossip can bring any operations that have been issued, in any order and number;
messages of a pull stay in flight, so they may arrive late, repeatedly or never. -/
def syncStep : SyncEvent PeerId → SyncWorld PeerId → Option (SyncWorld PeerId)
  | .mutate p now c, w =>
    some { w with
      nodes := Function.update w.nodes p ((w.nodes p).mutate now c).2
      issued := w.emitted p now c ++ w.issued
      received := Function.update w.received p (w.emitted p now c ++ w.received p) }
  | .gossip p now ops, w =>
    if ∀ op ∈ ops, op ∈ w.issued then some (w.deliver p now ops) else none
  | .synchronizeWith p q, w =>
    some { w with requests := ⟨p, q, (w.nodes p).operationIds⟩ :: w.requests }
  | .answer r, w =>
    if r ∈ w.requests then some { w with replies := w.replyTo r :: w.replies } else none
  | .applyReply now r, w =>
    if r ∈ w.replies then some (w.deliver r.asker now r.operations) else none

/-- The operations an event hands to a replica. -/
def gained (w : SyncWorld PeerId) : SyncEvent PeerId → PeerId → List (NodeOperation PeerId)
  | .mutate p now c, q => if q = p then w.emitted p now c else []
  | .gossip p _ ops, q => if q = p then ops else []
  | .applyReply _ r, q => if q = r.asker then r.operations else []
  | _, _ => []

/-! ### What every run keeps -/

/-- Logs are what has been received, all of it issued; a request names ids its sender knows; and a
reply brings what its sender held, but for what the asker knew. -/
structure Inv (w : SyncWorld PeerId) : Prop where
  sound : ∀ p, (w.nodes p).tree.Sound
  mem_log : ∀ p op, op ∈ w.log p ↔ op ∈ w.received p
  issued : ∀ p, ∀ op ∈ w.received p, op ∈ w.issued
  requests : ∀ r ∈ w.requests, ∀ id ∈ r.knownIds, ∃ op ∈ w.received r.asker, operationId op = id
  replies : ∀ r ∈ w.replies, (∀ op ∈ r.held, op ∈ r.operations ∨ op ∈ w.received r.asker) ∧
    (∀ op ∈ r.operations, op ∈ r.held) ∧ ∀ op ∈ r.held, op ∈ w.received r.answerer

/-- Distinct operations carry distinct ids. -/
def UniqueIds (w : SyncWorld PeerId) : Prop := (w.issued.map operationId).Nodup

instance (w : SyncWorld PeerId) : Decidable w.UniqueIds :=
  inferInstanceAs (Decidable (List.Nodup _))

omit [LinearOrder PeerId] [UuidV5] [Sha256] [FastCdc] in
theorem UniqueIds.eq {w : SyncWorld PeerId} (h : w.UniqueIds) {a b : NodeOperation PeerId}
    (ha : a ∈ w.issued) (hb : b ∈ w.issued) (hid : operationId a = operationId b) : a = b :=
  List.inj_on_of_nodup_map h ha hb hid

theorem gossip_eq_some {p : PeerId} {now : ℕ → ℕ} {ops : List (NodeOperation PeerId)}
    {w w' : SyncWorld PeerId} (h : syncStep (.gossip p now ops) w = some w') :
    (∀ op ∈ ops, op ∈ w.issued) ∧ w' = w.deliver p now ops := by
  simp only [syncStep] at h
  split_ifs at h with hops
  exact ⟨hops, (Option.some.inj h).symm⟩

theorem answer_eq_some {r : PullMissingOperations PeerId} {w w' : SyncWorld PeerId}
    (h : syncStep (.answer r) w = some w') :
    r ∈ w.requests ∧ w' = { w with replies := w.replyTo r :: w.replies } := by
  simp only [syncStep] at h
  split_ifs at h with hr
  exact ⟨hr, (Option.some.inj h).symm⟩

theorem applyReply_eq_some {now : ℕ → ℕ} {r : MissingOperations PeerId}
    {w w' : SyncWorld PeerId} (h : syncStep (.applyReply now r) w = some w') :
    r ∈ w.replies ∧ w' = w.deliver r.asker now r.operations := by
  simp only [syncStep] at h
  split_ifs at h with hr
  exact ⟨hr, (Option.some.inj h).symm⟩

omit [LinearOrder PeerId] [UuidV5] [Sha256] [FastCdc] [CrdtTree PeerId] in
theorem update_append [DecidableEq PeerId] (f : PeerId → List (NodeOperation PeerId))
    (p q : PeerId) (ops : List (NodeOperation PeerId)) :
    Function.update f p (ops ++ f p) q = (if q = p then ops else []) ++ f q := by
  by_cases hq : q = p
  · subst hq
    rw [Function.update_self, if_pos rfl]
  · rw [Function.update_of_ne hq, if_neg hq]
    rfl

/-- The effect of an event on what replicas have received. -/
theorem received_step {e : SyncEvent PeerId} {w w' : SyncWorld PeerId}
    (hstep : syncStep e w = some w') (q : PeerId) :
    w'.received q = w.gained e q ++ w.received q := by
  cases e with
  | mutate p now c => cases hstep; exact update_append _ p q _
  | gossip p now ops =>
    obtain ⟨-, rfl⟩ := gossip_eq_some hstep
    exact update_append _ p q ops
  | synchronizeWith p q' => cases hstep; rfl
  | answer r =>
    obtain ⟨-, rfl⟩ := answer_eq_some hstep
    rfl
  | applyReply now r =>
    obtain ⟨-, rfl⟩ := applyReply_eq_some hstep
    exact update_append _ r.asker q r.operations

/-- What has been issued stays so, and only a local mutation issues more. -/
theorem issued_step {e : SyncEvent PeerId} {w w' : SyncWorld PeerId}
    (hstep : syncStep e w = some w') : w.issued <:+ w'.issued := by
  cases e with
  | mutate p now c => cases hstep; exact List.suffix_append _ _
  | gossip p now ops =>
    obtain ⟨-, rfl⟩ := gossip_eq_some hstep
    exact List.suffix_rfl
  | synchronizeWith p q' => cases hstep; exact List.suffix_rfl
  | answer r =>
    obtain ⟨-, rfl⟩ := answer_eq_some hstep
    exact List.suffix_rfl
  | applyReply now r =>
    obtain ⟨-, rfl⟩ := applyReply_eq_some hstep
    exact List.suffix_rfl

theorem UniqueIds.of_step {e : SyncEvent PeerId} {w w' : SyncWorld PeerId}
    (hstep : syncStep e w = some w') (h : w'.UniqueIds) : w.UniqueIds :=
  List.Nodup.sublist ((issued_step hstep).sublist.map _) h

/-- What an event hands to a replica has been issued, by the end of the event. -/
theorem gained_issued {e : SyncEvent PeerId} {w w' : SyncWorld PeerId} (h : w.Inv)
    (hstep : syncStep e w = some w') (q : PeerId) : ∀ op ∈ w.gained e q, op ∈ w'.issued := by
  intro op hop
  cases e with
  | mutate p now c =>
    cases hstep
    simp only [gained] at hop
    split_ifs at hop
    · exact List.mem_append_left _ hop
    · exact absurd hop List.not_mem_nil
  | gossip p now ops =>
    obtain ⟨hops, rfl⟩ := gossip_eq_some hstep
    simp only [gained] at hop
    split_ifs at hop
    · exact hops op hop
    · exact absurd hop List.not_mem_nil
  | synchronizeWith p q' => exact absurd hop List.not_mem_nil
  | answer r => exact absurd hop List.not_mem_nil
  | applyReply now r =>
    obtain ⟨hr, rfl⟩ := applyReply_eq_some hstep
    simp only [gained] at hop
    split_ifs at hop
    · obtain ⟨-, hheld, hrec⟩ := h.replies r hr
      exact h.issued _ op (hrec op (hheld op hop))
    · exact absurd hop List.not_mem_nil

variable [LawfulCrdtTree PeerId]

omit [UuidV5] [Sha256] [FastCdc] in
theorem inv_init (maxPinnedBytes : PeerId → ℕ) : (init maxPinnedBytes).Inv where
  sound p := NodeTree.sound_new p
  mem_log p op := by
    have : (NodeTree.new p).moves = [] := by rw [NodeTree.moves, NodeTree.state_new]; rfl
    simp [log, init, FileSystem.init, FileSystem.new, this]
  issued _ _ h := absurd h List.not_mem_nil
  requests _ h := absurd h List.not_mem_nil
  replies _ h := absurd h List.not_mem_nil

/-- The log of a replica after an event: what it was, and what the event has handed over. -/
theorem log_step {e : SyncEvent PeerId} {w w' : SyncWorld PeerId} (h : w.Inv)
    (hids : w'.UniqueIds) (hstep : syncStep e w = some w') (q : PeerId) :
    (w'.nodes q).tree.Sound ∧ ∀ op, op ∈ w'.log q ↔ op ∈ w.gained e q ∨ op ∈ w.log q := by
  have hissued : ∀ op ∈ w.issued, op ∈ w'.issued := fun op hop =>
    (issued_step hstep).subset hop
  have hgained := gained_issued h hstep
  have hts : ∀ a b : NodeOperation PeerId, a ∈ w'.issued → b ∈ w'.issued →
      a.timestamp = b.timestamp → a = b := fun a b ha hb hab =>
    hids.eq ha hb (operationId_inj.2 hab)
  have hlogged : ∀ p, ∀ op ∈ w.log p, op ∈ w'.issued := fun p op hop =>
    hissued op (h.issued p op ((h.mem_log p op).1 hop))
  -- a delivered batch ends up in the log
  have delivered : ∀ (p : PeerId) (now : ℕ → ℕ) (ops : List (NodeOperation PeerId)),
      (∀ op ∈ ops, op ∈ w'.issued) →
      ((w.deliver p now ops).nodes q).tree.Sound ∧ ∀ op, op ∈ (w.deliver p now ops).log q ↔
        op ∈ (if q = p then ops else []) ∨ op ∈ w.log q := by
    intro p now ops hops
    unfold deliver log
    by_cases hq : q = p
    · subst hq
      simp only [Function.update_self, if_true]
      by_cases hempty : ops = []
      · subst hempty
        simpa using h.sound q
      · rw [if_neg hempty]
        refine ⟨(h.sound q).applyOperations now ops, fun op => ?_⟩
        rw [or_comm]
        have hmem := MoveTree.Coherent.mem_foldl (h.sound q) hts (hlogged q) hops op
        rw [← NodeTree.state_applyOperations _ now] at hmem
        exact hmem
    · simp only [Function.update_of_ne hq, if_neg hq]
      exact ⟨h.sound q, fun op => by simp⟩
  cases e with
  | mutate p now c =>
    cases hstep
    by_cases hq : q = p
    · subst hq
      simp only [log, gained, if_true, Function.update_self]
      rcases FileSystem.mutate_cases (w.nodes q) now c with ⟨e, he⟩ | ⟨ops, fs', ho, hd⟩
      · rw [he]
        have : w.emitted q now c = [] := by simp only [emitted, he]
        rw [this]
        exact ⟨h.sound q, fun op => by simp⟩
      · have hem : w.emitted q now c = ops := by simp only [emitted, ho]
        rw [ho, hem]
        rcases hd.tree with ⟨rfl, ht⟩ | ⟨n, parent, m, -, rfl, ht⟩
        · rw [ht]
          exact ⟨h.sound q, fun op => by simp⟩
        · rw [ht]
          refine ⟨(h.sound q).issue _ _ _ _, fun op => ?_⟩
          -- an old operation with the new one's timestamp would share its id
          have hfresh : (w.nodes q).tree.Fresh now := by
            intro old hold hts
            have hnodup : ([((w.nodes q).tree.issue now n parent m).1] ++ w.issued).map
                operationId |>.Nodup := hem ▸ hids
            rw [List.singleton_append, List.map_cons, List.nodup_cons] at hnodup
            refine hnodup.1 (List.mem_map.2 ⟨old, ?_, operationId_inj.2 hts⟩)
            exact h.issued q old ((h.mem_log q old).1 hold)
          rw [(NodeTree.moves_issue_perm hfresh n parent m).mem_iff, List.mem_cons,
            List.mem_singleton]
    · simp only [log, gained, if_neg hq, Function.update_of_ne hq]
      exact ⟨h.sound q, fun op => by simp⟩
  | gossip p now ops =>
    obtain ⟨hops, rfl⟩ := gossip_eq_some hstep
    exact delivered p now ops hops
  | synchronizeWith p q' => cases hstep; exact ⟨h.sound q, fun op => by simp [gained, log]⟩
  | answer r =>
    obtain ⟨-, rfl⟩ := answer_eq_some hstep
    exact ⟨h.sound q, fun op => by simp [gained, log]⟩
  | applyReply now r =>
    obtain ⟨hr, rfl⟩ := applyReply_eq_some hstep
    refine delivered r.asker now r.operations fun op hop => ?_
    exact hgained r.asker op (by simpa [gained] using hop)

theorem inv_step {e : SyncEvent PeerId} {w w' : SyncWorld PeerId} (h : w.Inv)
    (hids : w'.UniqueIds) (hstep : syncStep e w = some w') : w'.Inv := by
  have hlog := log_step h hids hstep
  have hrec := received_step hstep
  have hmem : ∀ p op, op ∈ w'.log p ↔ op ∈ w'.received p := fun p op => by
    rw [(hlog p).2, hrec, List.mem_append, h.mem_log]
  have hkeep : ∀ p, ∀ op ∈ w.received p, op ∈ w'.received p := fun p op hop => by
    rw [hrec]
    exact List.mem_append_right _ hop
  have hissued : ∀ p, ∀ op ∈ w'.received p, op ∈ w'.issued := by
    intro p op hop
    rw [hrec, List.mem_append] at hop
    rcases hop with hop | hop
    · exact gained_issued h hstep p op hop
    · exact (issued_step hstep).subset (h.issued p op hop)
  have hrequest : ∀ r ∈ w.requests, ∀ id ∈ r.knownIds,
      ∃ op ∈ w'.received r.asker, operationId op = id := fun r hr id hid =>
    (h.requests r hr id hid).imp fun op hop => ⟨hkeep _ op hop.1, hop.2⟩
  have hreply : ∀ r ∈ w.replies, (∀ op ∈ r.held, op ∈ r.operations ∨ op ∈ w'.received r.asker) ∧
      (∀ op ∈ r.operations, op ∈ r.held) ∧ ∀ op ∈ r.held, op ∈ w'.received r.answerer := by
    intro r hr
    obtain ⟨hall, hheld, hans⟩ := h.replies r hr
    exact ⟨fun op hop => (hall op hop).imp_right (hkeep _ op), hheld,
      fun op hop => hkeep _ op (hans op hop)⟩
  refine ⟨fun p => (hlog p).1, hmem, hissued, ?_, ?_⟩
  · cases e with
    | mutate p now c => cases hstep; exact hrequest
    | gossip p now ops =>
      obtain ⟨-, rfl⟩ := gossip_eq_some hstep
      exact hrequest
    | synchronizeWith p q =>
      cases hstep
      intro r hr id hid
      rcases List.mem_cons.1 hr with rfl | hr
      · change id ∈ (w.nodes p).tree.operationIds at hid
        rw [NodeTree.operationIds_eq] at hid
        obtain ⟨op, hop, rfl⟩ := List.mem_map.1 hid
        exact ⟨op, (h.mem_log p op).1 hop, rfl⟩
      · exact hrequest r hr id hid
    | answer r =>
      obtain ⟨-, rfl⟩ := answer_eq_some hstep
      exact hrequest
    | applyReply now r =>
      obtain ⟨-, rfl⟩ := applyReply_eq_some hstep
      exact hrequest
  · cases e with
    | mutate p now c => cases hstep; exact hreply
    | gossip p now ops =>
      obtain ⟨-, rfl⟩ := gossip_eq_some hstep
      exact hreply
    | synchronizeWith p q => cases hstep; exact hreply
    | answer req =>
      obtain ⟨hreq, rfl⟩ := answer_eq_some hstep
      intro r hr
      rcases List.mem_cons.1 hr with rfl | hr
      · refine ⟨fun op hop => ?_, fun op hop => ?_, fun op hop => (h.mem_log _ op).1 hop⟩
        · -- an id the asker named belongs to an operation it has, and ids tell operations apart
          by_cases hid : operationId op ∈ req.knownIds
          · obtain ⟨op', hop', heq⟩ := h.requests req hreq _ hid
            have hop₂ := h.issued _ op ((h.mem_log _ op).1 hop)
            exact Or.inr (hids.eq (h.issued _ op' hop') hop₂ heq ▸ hop')
          · exact Or.inl (NodeTree.mem_operationsMissingFrom.2 ⟨hop, hid⟩)
        · exact (NodeTree.mem_operationsMissingFrom.1 hop).1
      · exact hreply r hr
    | applyReply now r =>
      obtain ⟨-, rfl⟩ := applyReply_eq_some hstep
      exact hreply

/-- Every state of a run that ends with distinct ids has the invariant. -/
theorem inv_run_from {w₀ w : SyncWorld PeerId} (h : w₀.Inv) {events : List (SyncEvent PeerId)}
    (hrun : run syncStep events w₀ = some w) : w.UniqueIds → w.Inv := by
  refine run_rec (P := fun _ w => w.UniqueIds → w.Inv) (fun _ => h) ?_ hrun
  intro _ t e u _ ih hstep hids
  exact inv_step (ih (hids.of_step hstep)) hids hstep

omit [LawfulCrdtTree PeerId] in
theorem UniqueIds.of_run {w₀ w : SyncWorld PeerId} {events : List (SyncEvent PeerId)}
    (hrun : run syncStep events w₀ = some w) : w.UniqueIds → w₀.UniqueIds := by
  refine run_rec (P := fun _ w => w.UniqueIds → w₀.UniqueIds) id ?_ hrun
  intro _ t e u _ ih hstep hids
  exact ih (hids.of_step hstep)

/-- Logs never lose an operation. -/
theorem log_subset_run {w₀ w : SyncWorld PeerId} (h : w₀.Inv) {events : List (SyncEvent PeerId)}
    (hrun : run syncStep events w₀ = some w) (hids : w.UniqueIds) (p : PeerId) :
    w₀.log p ⊆ w.log p := by
  refine run_rec (P := fun _ w => w.UniqueIds → w₀.log p ⊆ w.log p)
    (fun _ => List.Subset.refl _) ?_ hrun hids
  intro events t e u hpre ih hstep hids
  have hinv := inv_run_from h hpre (hids.of_step hstep)
  intro op hop
  exact ((log_step hinv hids hstep p).2 op).2 (Or.inr (ih (hids.of_step hstep) hop))

/-- After a replica applies a pull reply it has what the answering replica held. -/
theorem held_subset_log {w w' : SyncWorld PeerId} (h : w.Inv) {now : ℕ → ℕ}
    {r : MissingOperations PeerId} (hids : w'.UniqueIds)
    (hstep : syncStep (.applyReply now r) w = some w') : r.held ⊆ w'.log r.asker := by
  intro op hop
  rw [(log_step h hids hstep r.asker).2]
  obtain ⟨hr, -⟩ := applyReply_eq_some hstep
  rcases (h.replies r hr).1 op hop with hop | hop
  · exact Or.inl (by simpa [gained] using hop)
  · exact Or.inr ((h.mem_log _ op).2 hop)

/-! ### Convergence of two replicas -/

omit [LawfulCrdtTree PeerId] in
/-- The event brings the two replicas nothing that neither of them has. -/
def Quiet (p q : PeerId) (e : SyncEvent PeerId) (w : SyncWorld PeerId) : Prop :=
  ∀ op ∈ w.gained e p ++ w.gained e q, op ∈ w.log p ++ w.log q

omit [LawfulCrdtTree PeerId] in
instance (p q : PeerId) (e : SyncEvent PeerId) (w : SyncWorld PeerId) : Decidable (Quiet p q e w) :=
  inferInstanceAs (Decidable (∀ op ∈ _, op ∈ _))

omit [LawfulCrdtTree PeerId] in
/-- In the events from `w`, `q` answers a pull of `p` and later `p` applies that answer. -/
def PulledIn (p q : PeerId) (events : List (SyncEvent PeerId)) (w : SyncWorld PeerId) : Prop :=
  ∃ before between after req now t, run syncStep before w = some t ∧
    events = before ++ .answer req :: between ++ .applyReply now (t.replyTo req) :: after ∧
    req.asker = p ∧ req.answerer = q

/-- The same node has the same parent, the same metadata and the same children in both trees. -/
structure SameTree (t t' : NodeTree PeerId) : Prop where
  parentId : ∀ n, t.parentId n = t'.parentId n
  metadata : ∀ n, t.metadata n = t'.metadata n
  children : ∀ n, (t.children n).map List.toFinset = (t'.children n).map List.toFinset

omit [UuidV5] [Sha256] [FastCdc] in
/-- Sound replicas with the same operations show the same tree. -/
theorem sameTree_of_mem_iff {t t' : NodeTree PeerId} (h : t.Sound) (h' : t'.Sound)
    (hmem : ∀ op, op ∈ t.moves ↔ op ∈ t'.moves) : SameTree t t' := by
  have hstate : t.state = t'.state := MoveTree.Coherent.ext h h' hmem
  have hfind : ∀ n, t.find n = t'.find n := fun n => by
    rw [NodeTree.find_eq, NodeTree.find_eq, hstate]
  refine ⟨fun n => ?_, fun n => ?_, fun n => ?_⟩
  · rw [NodeTree.parentId, NodeTree.parentId, hfind]
  · rw [NodeTree.metadata, NodeTree.metadata, hfind]
  · have hset : (CrdtTree.children t.tree n).toFinset = (CrdtTree.children t'.tree n).toFinset := by
      ext c
      simp only [List.mem_toFinset, NodeTree.mem_crdtChildren, hfind]
    rw [NodeTree.children, NodeTree.children, hfind]
    split_ifs
    · rfl
    · exact congrArg Except.ok hset

/-- What the two replicas have between them does not change while it is quiet. -/
theorem union_of_quiet {p q : PeerId} {w₀ w : SyncWorld PeerId} (h : w₀.Inv)
    {events : List (SyncEvent PeerId)} (hrun : run syncStep events w₀ = some w)
    (hids : w.UniqueIds) (hquiet : Meets syncStep (Quiet p q) events w₀) :
    w.log p ++ w.log q ⊆ w₀.log p ++ w₀.log q := by
  refine run_rec (P := fun events w => w.UniqueIds → Meets syncStep (Quiet p q) events w₀ →
    w.log p ++ w.log q ⊆ w₀.log p ++ w₀.log q) (fun _ _ => List.Subset.refl _) ?_ hrun hids hquiet
  intro events t e u hpre ih hstep hids hquiet
  obtain ⟨hbefore, hlast⟩ := meets_concat.1 hquiet
  have hprev := ih (hids.of_step hstep) hbefore
  have hlog := log_step (inv_run_from h hpre (hids.of_step hstep)) hids hstep
  intro op hop
  apply hprev
  rcases List.mem_append.1 hop with hop | hop
  · rcases ((hlog p).2 op).1 hop with hop | hop
    · exact hlast t hpre op (List.mem_append_left _ hop)
    · exact List.mem_append_left _ hop
  · rcases ((hlog q).2 op).1 hop with hop | hop
    · exact hlast t hpre op (List.mem_append_right _ hop)
    · exact List.mem_append_right _ hop

/-- After a quiet period in which `p` has pulled from `q`, `p` has everything `q` has. -/
theorem log_subset_of_pulled {p q : PeerId} {w₀ w : SyncWorld PeerId} (h : w₀.Inv)
    {events : List (SyncEvent PeerId)} (hrun : run syncStep events w₀ = some w)
    (hids : w.UniqueIds) (hquiet : Meets syncStep (Quiet p q) events w₀)
    (hpull : PulledIn p q events w₀) : w.log q ⊆ w.log p := by
  obtain ⟨before, between, after, req, now, t, hbefore, rfl, rfl, rfl⟩ := hpull
  have hsplit := hrun
  rw [List.append_assoc, List.cons_append, run_append_eq_some] at hsplit
  obtain ⟨t', ht', hrest⟩ := hsplit
  cases hbefore.symm.trans ht'
  have hids₁ := UniqueIds.of_run hrest hids
  have hinv := inv_run_from h hbefore hids₁
  -- the answer is applied in the state `u`, which leaves `v`
  have hcut := hrest
  rw [← List.cons_append, run_append_eq_some] at hcut
  obtain ⟨u, hu, hafter⟩ := hcut
  rw [run_cons, Option.bind_eq_some_iff] at hafter
  obtain ⟨v, hv, hafter⟩ := hafter
  have hids₃ := UniqueIds.of_run hafter hids
  have hinvu := inv_run_from hinv hu (hids₃.of_step hv)
  have hheld : t.log req.answerer ⊆ w.log req.asker := fun op hop =>
    log_subset_run (inv_step hinvu hids₃ hv) hafter hids _ (held_subset_log hinvu hids₃ hv hop)
  have hown : t.log req.asker ⊆ w.log req.asker := log_subset_run hinv hrest hids _
  -- nothing has come to either replica that one of them did not have at the answer
  have hquiet' := hquiet
  rw [List.append_assoc, List.cons_append] at hquiet'
  have hunion := union_of_quiet hinv hrest hids ((meets_append.1 hquiet').2 t hbefore)
  intro op hop
  rcases List.mem_append.1 (hunion (List.mem_append_right _ hop)) with hop | hop
  · exact hown hop
  · exact hheld hop

omit [UuidV5] [Sha256] [FastCdc] [LawfulCrdtTree PeerId] in
theorem Inv.nodup_log {w : SyncWorld PeerId} (h : w.Inv) (p : PeerId) : (w.log p).Nodup :=
  MoveTree.Coherent.nodup (h.sound p)

omit [LawfulCrdtTree PeerId] in
theorem Quiet.symm {p q : PeerId} {e : SyncEvent PeerId} {w : SyncWorld PeerId}
    (h : Quiet p q e w) : Quiet q p e w := fun op hop =>
  List.mem_append.2 (List.mem_append.1 (h op (List.mem_append.2 (List.mem_append.1 hop).symm))).symm

/-- **Metadata convergence.** In every run whose operations have distinct ids: each replica's log
is duplicate-free and is what it has issued or been delivered; a replica that applies a pull reply
has all that the answering replica had; and two replicas that have pulled from each other while
nothing new came to either show the same tree. -/
theorem metadata_convergence {maxPinnedBytes : PeerId → ℕ} {events : List (SyncEvent PeerId)}
    {w : SyncWorld PeerId} (hrun : run syncStep events (init maxPinnedBytes) = some w)
    (hids : w.UniqueIds) :
    (∀ p, (w.log p).Nodup ∧ ∀ op, op ∈ w.log p ↔ op ∈ w.received p) ∧
      (∀ now r w', syncStep (.applyReply now r) w = some w' → r.held ⊆ w'.log r.asker) ∧
      ∀ p q later w', run syncStep later w = some w' → w'.UniqueIds →
        Meets syncStep (Quiet p q) later w → PulledIn p q later w → PulledIn q p later w →
        SameTree (w'.nodes p).tree (w'.nodes q).tree := by
  have hinv := inv_run_from (inv_init maxPinnedBytes) hrun hids
  refine ⟨fun p => ⟨hinv.nodup_log p, hinv.mem_log p⟩, ?_, ?_⟩
  · intro now r w' hstep
    obtain ⟨-, rfl⟩ := applyReply_eq_some hstep
    exact held_subset_log hinv hids hstep
  · intro p q later w' hlater hids' hquiet hpq hqp
    have hinv' := inv_run_from hinv hlater hids'
    refine sameTree_of_mem_iff (hinv'.sound p) (hinv'.sound q) fun op =>
      ⟨fun hop => ?_, fun hop => ?_⟩
    · exact log_subset_of_pulled hinv hlater hids' (hquiet.imp fun _ _ => Quiet.symm) hqp hop
    · exact log_subset_of_pulled hinv hlater hids' hquiet hpq hop

end SyncWorld

end Edfs

namespace Edfs.SyncWorld

open Execution Reference

/-- Two nodes have each created something, and each asks the other for what it misses. -/
def apart : List (SyncEvent ℕ) :=
  [.mutate 0 1 (.createFile NodeId.root "a"), .mutate 1 1 (.createDirectory NodeId.root "b"),
    .synchronizeWith 0 1, .synchronizeWith 1 0]

def pull (p q : ℕ) : PullMissingOperations ℕ := ⟨p, q, [(p, 2 ^ 16)]⟩

def reply (p q : ℕ) (m : NodeMeta) (name : String) : MissingOperations ℕ :=
  let op : NodeOperation ℕ := ⟨⟨2 ^ 16, q⟩, NodeId.root, m, ⟨UuidV5.newV5 NodeId.root.uuid name⟩⟩
  ⟨p, q, [op], [op]⟩

/-- The answers are given, and applied later in the other order. -/
def together : List (SyncEvent ℕ) :=
  [.answer (pull 0 1), .answer (pull 1 0),
    .applyReply (fun _ => 2) (reply 1 0 (.regularFile "a" 0 []) "a"),
    .applyReply (fun _ => 2) (reply 0 1 (.directory "b") "b")]

theorem metadata_convergence_pair :
    ∃ w w', run syncStep apart (init fun _ => 0) = some w ∧ run syncStep together w = some w' ∧
      (∀ p, (w.log p).Nodup ∧ ∀ op, op ∈ w.log p ↔ op ∈ w.received p) ∧
      SameTree (w'.nodes 0).tree (w'.nodes 1).tree := by
  have hrun : run syncStep apart (init fun _ => 0) = some _ := rfl
  obtain ⟨hlogs, -, hpair⟩ := metadata_convergence hrun (by decide)
  refine ⟨_, _, hrun, rfl, hlogs, hpair 0 1 together _ rfl (by decide) (by decide) ?_ ?_⟩
  · exact ⟨[], [.answer (pull 1 0), _], [], pull 0 1, fun _ => 2, _, rfl, rfl, rfl, rfl⟩
  · exact ⟨[.answer (pull 0 1)], [], [_], pull 1 0, fun _ => 2, _, rfl, rfl, rfl, rfl⟩

end Edfs.SyncWorld
