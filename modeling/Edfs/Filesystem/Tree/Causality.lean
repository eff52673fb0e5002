import Edfs.Base.Execution
import Edfs.Filesystem.Tree.NodeTree
import Edfs.Reference

/-!
# Causal timestamps

Any number of metadata trees that issue operations and apply batches of each other's, under
wall clocks of their own that may stand still, jump or run backwards.

* `TreeWorld`, `treeStep`: the trees, what has been issued, and what each node has issued or
  applied so far;
* `ClockInv`: a node's clock is at or past everything in its history, and a counter that is not
  zero stands at a timestamp of the history; `clockInv_step`: kept as long as the logical counter
  has room;
* `meets_causal_iff`: in every run, all issued timestamps exceed what their node has seen if and
  only if the logical counter has room whenever one is issued;
* `causal_run_iff`, the same with what follows: ids are unique, and an issued operation takes
  effect at once.
-/

namespace Edfs

open Execution

/-- A call on one node's tree. -/
inductive TreeCall (PeerId : Type)
  | createNode (parent n : NodeId) (m : NodeMeta)
  | moveNode (n parent : NodeId) (m : NodeMeta)
  | deleteNode (n : NodeId)
  | applyOperations (ops : List (NodeOperation PeerId))

/-- A call on a node, with the wall-clock readings it makes. -/
structure TreeEvent (PeerId : Type) where
  peer : PeerId
  now : ℕ → ℕ
  call : TreeCall PeerId

/-- The trees of all nodes; `issued` are the operations issued anywhere, `history` those each node
has issued or applied, latest first. -/
structure TreeWorld (PeerId : Type) [CrdtTree PeerId] where
  nodes : PeerId → NodeTree PeerId
  issued : List (NodeOperation PeerId)
  history : PeerId → List (NodeOperation PeerId)

variable {PeerId : Type} [CrdtTree PeerId]

/-- The operation a call issues, if it issues one, and the tree it leaves. -/
def NodeTree.perform (t : NodeTree PeerId) (now : ℕ → ℕ) :
    TreeCall PeerId → Option (NodeOperation PeerId) × NodeTree PeerId
  | .createNode parent n m => ((t.createNode (now 0) parent n m).map some id)
  | .moveNode n parent m => ((t.moveNode (now 0) n parent m).map Except.toOption id)
  | .deleteNode n => ((t.deleteNode (now 0) n).map Except.toOption id)
  | .applyOperations ops => (none, t.applyOperations now ops)

/-- What a call applies that others have issued. -/
def TreeCall.applied : TreeCall PeerId → List (NodeOperation PeerId)
  | .applyOperations ops => ops
  | _ => []

namespace TreeWorld

def init : TreeWorld PeerId := ⟨NodeTree.new, [], fun _ => []⟩

variable [LinearOrder PeerId]

/-- A call on one node; a batch can be applied once its operations have been issued. -/
def treeStep (e : TreeEvent PeerId) (w : TreeWorld PeerId) : Option (TreeWorld PeerId) :=
  if ∀ op ∈ e.call.applied, op ∈ w.issued then
    let (op, t) := (w.nodes e.peer).perform e.now e.call
    some
      { nodes := Function.update w.nodes e.peer t
        issued := op.toList ++ w.issued
        history := Function.update w.history e.peer
          (op.toList ++ e.call.applied.reverse ++ w.history e.peer) }
  else none

/-- The operation an event issues. -/
def issuedBy (e : TreeEvent PeerId) (w : TreeWorld PeerId) : Option (NodeOperation PeerId) :=
  ((w.nodes e.peer).perform e.now e.call).1

/-- The wall-clock readings of an event are below `2 ^ 48` milliseconds. -/
def ClockOk (e : TreeEvent PeerId) (_ : TreeWorld PeerId) : Prop := ∀ i, e.now i < 2 ^ 48

/-- An issued operation's counter exceeds those of all its node has issued or applied. -/
def Causal (e : TreeEvent PeerId) (w : TreeWorld PeerId) : Prop :=
  ∀ op, w.issuedBy e = some op →
    ∀ old ∈ w.history e.peer, old.timestamp.counter < op.timestamp.counter

/-- The node's logical counter has room whenever a timestamp is issued: the wall clock has passed
the clock's physical part, or the counter is below its mask. -/
def HasRoom (e : TreeEvent PeerId) (w : TreeWorld PeerId) : Prop :=
  (w.issuedBy e).isSome → (w.nodes e.peer).clock.Room (e.now 0)

instance (e : TreeEvent PeerId) (w : TreeWorld PeerId) : Decidable (HasRoom e w) :=
  inferInstanceAs (Decidable (_ → _))

/-- An issued operation is logged on top of everything and done on the tree as it was. -/
def TakesEffect (e : TreeEvent PeerId) (w : TreeWorld PeerId) : Prop :=
  ∀ op, w.issuedBy e = some op → ∀ w', treeStep e w = some w' →
    (w'.nodes e.peer).state = (w.nodes e.peer).state.push op

end TreeWorld

/-! ### The calls -/

omit [CrdtTree PeerId] in
/-- A local call issues nothing and leaves the tree alone, or it issues one operation. -/
theorem NodeTree.perform_local [CrdtTree PeerId] (t : NodeTree PeerId) (now : ℕ → ℕ)
    {c : TreeCall PeerId} (hc : ∀ ops, c ≠ .applyOperations ops) :
    t.perform now c = (none, t) ∨
      ∃ n p m, t.perform now c = (some (t.issue (now 0) n p m).1, (t.issue (now 0) n p m).2) := by
  cases c with
  | createNode parent n m => exact Or.inr ⟨n, parent, m, rfl⟩
  | moveNode n parent m =>
    by_cases h : (t.metadata n).isNone
    · exact Or.inl (by simp [perform, moveNode, h, Except.toOption])
    · exact Or.inr ⟨n, parent, m, by simp [perform, moveNode, h, Except.toOption]⟩
  | deleteNode n =>
    by_cases h : n.isReserved
    · exact Or.inl (by simp [perform, deleteNode, h, Except.toOption])
    · cases hm : t.metadata n with
      | none => exact Or.inl (by simp [perform, deleteNode, h, hm, Except.toOption])
      | some m =>
        exact Or.inr ⟨n, NodeId.trash, m, by simp [perform, deleteNode, h, hm, Except.toOption]⟩
  | applyOperations ops => exact absurd rfl (hc ops)

namespace TreeWorld

variable [LinearOrder PeerId]

/-- What an event does, and what it requires. -/
theorem treeStep_eq_some {e : TreeEvent PeerId} {w w' : TreeWorld PeerId} :
    treeStep e w = some w' ↔ (∀ op ∈ e.call.applied, op ∈ w.issued) ∧
      w' =
        { nodes := Function.update w.nodes e.peer ((w.nodes e.peer).perform e.now e.call).2
          issued := (w.issuedBy e).toList ++ w.issued
          history := Function.update w.history e.peer
            ((w.issuedBy e).toList ++ e.call.applied.reverse ++ w.history e.peer) } := by
  unfold treeStep issuedBy
  split_ifs with h
  · exact ⟨fun hs => ⟨h, (Option.some.inj hs).symm⟩, fun hs => congrArg some hs.2.symm⟩
  · exact ⟨fun hs => absurd hs (by simp), fun hs => absurd hs.1 h⟩

/-! ### The clock invariant -/

/-- A clock that is at or past everything in a history; a counter that is not zero stands at a
timestamp of the history. -/
structure ClockInv (c : HybridLogicalClock) (history : List (NodeOperation PeerId)) : Prop where
  physical : c.physical < 2 ^ 48
  logical : c.logical ≤ logicalMask
  le_pack : ∀ op ∈ history, op.timestamp.counter ≤ c.pack
  stands : c.logical = 0 ∨ ∃ op ∈ history, op.timestamp.counter = c.pack

omit [LinearOrder PeerId] [CrdtTree PeerId] in
theorem clockInv_new : @ClockInv PeerId .new [] :=
  ⟨by decide, Nat.zero_le _, by simp, Or.inl rfl⟩

omit [LinearOrder PeerId] [CrdtTree PeerId] in
/-- Issuing a timestamp with room left keeps the invariant, and exceeds all of the history. -/
theorem ClockInv.tick {c : HybridLogicalClock} {history : List (NodeOperation PeerId)}
    (h : ClockInv c history) {now : ℕ} (hnow : now < 2 ^ 48) (hroom : c.Room now)
    {op : NodeOperation PeerId} (hop : op.timestamp.counter = (c.next now).1) :
    ClockInv (c.tick now) (op :: history) ∧
      ∀ old ∈ history, old.timestamp.counter < op.timestamp.counter := by
  have hlt := c.lt_pack_next h.physical hnow hroom
  have hall : ∀ old ∈ history, old.timestamp.counter < op.timestamp.counter := fun old hold =>
    (h.le_pack old hold).trans_lt (hop ▸ hlt)
  refine ⟨⟨c.tick_physical_lt h.physical hnow, c.tick_logical_le hroom, ?_, ?_⟩, hall⟩
  · intro old hold
    rcases List.mem_cons.1 hold with rfl | hold
    · exact hop.le
    · exact (hall old hold).le.trans hop.le
  · exact Or.inr ⟨op, List.mem_cons_self, hop⟩

omit [LinearOrder PeerId] [CrdtTree PeerId] in
/-- Observing a timestamp keeps the invariant. -/
theorem ClockInv.observe {c : HybridLogicalClock} {history : List (NodeOperation PeerId)}
    (h : ClockInv c history) {now : ℕ} (hnow : now < 2 ^ 48) {op : NodeOperation PeerId}
    (hop : op.timestamp.counter < 2 ^ 64) :
    ClockInv (c.observe now op.timestamp.counter) (op :: history) := by
  obtain ⟨hle, hremote⟩ := c.le_pack_observe h.physical h.logical hnow hop
  refine ⟨c.observe_physical_lt h.physical hnow hop, c.observe_logical_le h.logical now _, ?_, ?_⟩
  · intro old hold
    rcases List.mem_cons.1 hold with rfl | hold
    · exact hremote
    · exact (h.le_pack old hold).trans hle
  · by_cases hzero : (c.observe now op.timestamp.counter).logical = 0
    · exact Or.inl hzero
    · rcases c.pack_observe_eq h.physical h.logical hnow hop hzero with ⟨hpack, hl⟩ | hpack
      · obtain ⟨old, hold, heq⟩ := h.stands.resolve_left hl
        exact Or.inr ⟨old, List.mem_cons_of_mem op hold, heq.trans hpack.symm⟩
      · exact Or.inr ⟨op, List.mem_cons_self, hpack.symm⟩

omit [LinearOrder PeerId] [CrdtTree PeerId] in
/-- Observing a batch, from any position of it on. -/
theorem ClockInv.observeAll {c : HybridLogicalClock} {history : List (NodeOperation PeerId)}
    (h : ClockInv c history) {now : ℕ → ℕ} (hnow : ∀ i, now i < 2 ^ 48)
    {ops : List (NodeOperation PeerId)} (hops : ∀ op ∈ ops, op.timestamp.counter < 2 ^ 64)
    (i : ℕ) :
    ClockInv ((ops.zipIdx i).foldl (fun c p => c.observe (now p.2) p.1.timestamp.counter) c)
      (ops.reverse ++ history) := by
  induction ops generalizing c history i with
  | nil => exact h
  | cons op ops ih =>
    rw [List.reverse_cons, List.append_assoc, List.singleton_append, List.zipIdx_cons,
      List.foldl_cons]
    exact ih (h.observe (hnow i) (hops op List.mem_cons_self))
      (fun x hx => hops x (List.mem_cons_of_mem op hx)) (i + 1)

omit [LinearOrder PeerId] [CrdtTree PeerId] in
/-- Without room, the timestamp issued does not exceed the history. -/
theorem ClockInv.room {c : HybridLogicalClock} {history : List (NodeOperation PeerId)}
    (h : ClockInv c history) {now : ℕ}
    (hall : ∀ old ∈ history, old.timestamp.counter < (c.next now).1) : c.Room now := by
  by_contra hroom
  obtain ⟨hnow, hlogical⟩ := not_or.1 hroom
  have hmask : c.logical = logicalMask := le_antisymm h.logical (not_lt.1 hlogical)
  obtain ⟨old, hold, heq⟩ := h.stands.resolve_left (by rw [hmask]; decide)
  have hwrap := c.pack_next_wrap h.physical (not_lt.1 hnow) hmask
  exact absurd (hall old hold) (by omega)

/-! ### Runs -/

/-- What every run with room keeps. -/
structure Inv (w : TreeWorld PeerId) : Prop where
  clock : ∀ p, ClockInv (w.nodes p).clock (w.history p)
  issued_lt : ∀ op ∈ w.issued, op.timestamp.counter < 2 ^ 64
  peerId : ∀ p, (w.nodes p).peerId = p
  /-- What is in a node's log the node has issued or applied. -/
  logged : ∀ p, ∀ op ∈ (w.nodes p).moves, op ∈ w.history p
  /-- What has been issued is in the history of its issuer. -/
  own : ∀ op ∈ w.issued, op ∈ w.history op.timestamp.actorId
  ids : (w.issued.map operationId).Nodup

variable [LawfulCrdtTree PeerId]

theorem inv_init : (init : TreeWorld PeerId).Inv where
  clock _ := clockInv_new
  issued_lt _ h := absurd h List.not_mem_nil
  peerId _ := rfl
  logged p op h := by
    have : (NodeTree.new p).moves = [] := by rw [NodeTree.moves, NodeTree.state_new]; rfl
    rw [init, this] at h
    exact absurd h List.not_mem_nil
  own _ h := absurd h List.not_mem_nil
  ids := List.nodup_nil

/-- A step that applies a batch. -/
theorem Inv.step_apply {w w' : TreeWorld PeerId} (h : w.Inv) {e : TreeEvent PeerId}
    {ops : List (NodeOperation PeerId)} (he : e.call = .applyOperations ops)
    (hclock : ClockOk e w) (hstep : treeStep e w = some w') : w'.Inv := by
  obtain ⟨happlied, rfl⟩ := treeStep_eq_some.1 hstep
  obtain ⟨p, now, call⟩ := e
  obtain rfl : call = _ := he
  have hperform : (w.nodes p).perform now (.applyOperations ops)
      = (none, (w.nodes p).applyOperations now ops) := rfl
  simp only [issuedBy, hperform, TreeCall.applied, Option.toList_none,
    List.nil_append] at happlied ⊢
  have hsub : ∀ q, w.history q ⊆ Function.update w.history p (ops.reverse ++ w.history p) q := by
    intro q
    by_cases hq : q = p
    · subst hq
      rw [Function.update_self]
      exact List.subset_append_right _ _
    · rw [Function.update_of_ne hq]
      exact List.Subset.refl _
  refine ⟨fun q => ?_, h.issued_lt, fun q => ?_, fun q op hop => ?_, fun op hop => ?_, h.ids⟩
  · by_cases hq : q = p
    · subst hq
      simp only [Function.update_self]
      exact (h.clock q).observeAll hclock (fun op hop => h.issued_lt op (happlied op hop)) 0
    · simp only [Function.update_of_ne hq]
      exact h.clock q
  · by_cases hq : q = p
    · subst hq
      simp only [Function.update_self]
      exact h.peerId q
    · simp only [Function.update_of_ne hq]
      exact h.peerId q
  · by_cases hq : q = p
    · subst hq
      simp only [Function.update_self] at hop ⊢
      rcases NodeTree.mem_moves_applyOperations hop with hop | hop
      · exact List.mem_append_left _ (List.mem_reverse.2 hop)
      · exact List.mem_append_right _ (h.logged q op hop)
    · simp only [Function.update_of_ne hq] at hop ⊢
      exact h.logged q op hop
  · exact hsub _ (h.own op hop)

/-- A step that issues an operation, with room left. -/
theorem Inv.step_issue {w w' : TreeWorld PeerId} (h : w.Inv) {e : TreeEvent PeerId}
    {n parent : NodeId} {m : NodeMeta} (happlied : e.call.applied = [])
    (he : (w.nodes e.peer).perform e.now e.call
      = (some ((w.nodes e.peer).issue (e.now 0) n parent m).1,
        ((w.nodes e.peer).issue (e.now 0) n parent m).2))
    (hclock : ClockOk e w) (hroom : (w.nodes e.peer).clock.Room (e.now 0))
    (hstep : treeStep e w = some w') :
    w'.Inv ∧
      (∀ old ∈ w.history e.peer, old.timestamp.counter
        < ((w.nodes e.peer).issue (e.now 0) n parent m).1.timestamp.counter) ∧
      (w'.nodes e.peer).state
        = (w.nodes e.peer).state.push ((w.nodes e.peer).issue (e.now 0) n parent m).1 := by
  obtain ⟨p, now, call⟩ := e
  simp only at happlied he hroom ⊢
  obtain ⟨-, rfl⟩ := treeStep_eq_some.1 hstep
  simp only [issuedBy, he, happlied, Option.toList_some, List.reverse_nil, List.append_nil,
    List.singleton_append]
  set t := w.nodes p with ht
  set op := (t.issue (now 0) n parent m).1 with hop
  have hts : op.timestamp = ⟨(t.clock.next (now 0)).1, p⟩ := by
    rw [hop, NodeTree.issue_fst]
    exact congrArg _ (h.peerId p)
  have hcounter : op.timestamp.counter = (t.clock.next (now 0)).1 := by rw [hts]
  obtain ⟨hinv, hcausal⟩ := (h.clock p).tick (hclock 0) hroom hcounter
  have hnewest : t.Newest (now 0) := fun old hold => by
    rw [show t.peerId = p from h.peerId p, ← hts]
    exact Clock.lt_of_counter_lt (hcausal old (h.logged p old hold))
  have hstate := NodeTree.state_issue_newest hnewest n parent m
  have hsub : ∀ q, w.history q ⊆ Function.update w.history p (op :: w.history p) q := by
    intro q
    by_cases hq : q = p
    · subst hq
      rw [Function.update_self]
      exact List.subset_cons_self _ _
    · rw [Function.update_of_ne hq]
      exact List.Subset.refl _
  refine ⟨⟨fun q => ?_, ?_, fun q => ?_, fun q x hx => ?_, ?_, ?_⟩, hcausal, ?_⟩
  · by_cases hq : q = p
    · subst hq
      simp only [Function.update_self]
      exact hinv
    · simp only [Function.update_of_ne hq]
      exact h.clock q
  · intro x hx
    rcases List.mem_cons.1 hx with rfl | hx
    · rw [hts]
      exact HybridLogicalClock.pack_lt hinv.physical
    · exact h.issued_lt x hx
  · by_cases hq : q = p
    · subst hq
      simp only [Function.update_self]
      exact h.peerId q
    · simp only [Function.update_of_ne hq]
      exact h.peerId q
  · by_cases hq : q = p
    · subst hq
      simp only [Function.update_self] at hx ⊢
      rw [NodeTree.moves, hstate, MoveTree.moves_push] at hx
      rcases List.mem_cons.1 hx with rfl | hx
      · exact List.mem_cons_self
      · exact List.mem_cons_of_mem _ (h.logged q x hx)
    · simp only [Function.update_of_ne hq] at hx ⊢
      exact h.logged q x hx
  · intro x hx
    rcases List.mem_cons.1 hx with rfl | hx
    · rw [hts]
      simp only [Function.update_self]
      exact List.mem_cons_self
    · exact hsub _ (h.own x hx)
  · refine List.nodup_cons.2 ⟨fun hmem => ?_, h.ids⟩
    -- an operation with the same id would be in the issuer's own history
    obtain ⟨old, hold, hid⟩ := List.mem_map.1 hmem
    have heq := operationId_inj.1 hid
    have hown := h.own old hold
    rw [heq, hts] at hown
    have hlt := hcausal old hown
    rw [heq] at hlt
    exact lt_irrefl _ hlt
  · rw [Function.update_self]
    exact hstate

/-- **A step with room** keeps the invariant, is causal and takes effect. -/
theorem Inv.step {w w' : TreeWorld PeerId} (h : w.Inv) {e : TreeEvent PeerId}
    (hclock : ClockOk e w) (hroom : HasRoom e w) (hstep : treeStep e w = some w') :
    w'.Inv ∧ Causal e w ∧ TakesEffect e w := by
  by_cases hbatch : ∃ ops, e.call = .applyOperations ops
  · obtain ⟨ops, he⟩ := hbatch
    have hnone : w.issuedBy e = none := by rw [issuedBy, he]; rfl
    refine ⟨h.step_apply he hclock hstep, ?_, ?_⟩
    · intro op hop
      cases hnone.symm.trans hop
    · intro op hop
      cases hnone.symm.trans hop
  · have happlied : e.call.applied = [] := by
      cases hc : e.call with
      | applyOperations ops => exact absurd ⟨ops, hc⟩ hbatch
      | _ => rfl
    rcases (w.nodes e.peer).perform_local e.now fun ops hc => hbatch ⟨ops, hc⟩ with
      he | ⟨n, parent, m, he⟩
    · -- the call fails and changes nothing
      have hnone : w.issuedBy e = none := by rw [issuedBy, he]
      obtain ⟨-, rfl⟩ := treeStep_eq_some.1 hstep
      refine ⟨?_, ?_, ?_⟩
      · simp only [hnone, he, happlied, Option.toList_none, List.reverse_nil, List.nil_append,
          Function.update_eq_self]
        exact h
      · intro op hop
        cases hnone.symm.trans hop
      · intro op hop
        cases hnone.symm.trans hop
    · have hop : w.issuedBy e = some ((w.nodes e.peer).issue (e.now 0) n parent m).1 := by
        rw [issuedBy, he]
      obtain ⟨hinv, hcausal, heffect⟩ :=
        h.step_issue happlied he hclock (hroom (by rw [hop]; rfl)) hstep
      refine ⟨hinv, fun op hop' => ?_, fun op hop' w'' hw'' => ?_⟩
      · cases hop.symm.trans hop'
        exact hcausal
      · cases hop.symm.trans hop'
        cases hstep.symm.trans hw''
        exact heffect

omit [LinearOrder PeerId] [LawfulCrdtTree PeerId] in
/-- A causal step had room. -/
theorem Inv.hasRoom {w : TreeWorld PeerId} (h : w.Inv) {e : TreeEvent PeerId}
    (hcausal : Causal e w) : HasRoom e w := by
  intro hsome
  obtain ⟨op, hop⟩ := Option.isSome_iff_exists.1 hsome
  have hall := hcausal op hop
  have hlocal : ∀ ops, e.call ≠ .applyOperations ops := by
    intro ops hc
    rw [issuedBy, hc] at hop
    cases hop
  rcases (w.nodes e.peer).perform_local e.now hlocal with he | ⟨n, parent, m, he⟩
  · rw [issuedBy, he] at hop
    cases hop
  · rw [issuedBy, he] at hop
    cases hop
    exact (h.clock e.peer).room hall

/-- The invariant after a run in which every issued timestamp had room. -/
theorem inv_run {events : List (TreeEvent PeerId)} {w : TreeWorld PeerId}
    (hrun : run treeStep events init = some w) (hclock : Meets treeStep ClockOk events init)
    (hroom : Meets treeStep HasRoom events init) : w.Inv :=
  run_invariant_of_meets (C := fun e w => ClockOk e w ∧ HasRoom e w)
    (fun _ _ _ hC h hstep => (h.step hC.1 hC.2 hstep).1) inv_init (hclock.and hroom) hrun

omit [LawfulCrdtTree PeerId] in
theorem meets_clockOk {events : List (TreeEvent PeerId)}
    (h : ∀ e ∈ events, ∀ i, e.now i < 2 ^ 48) (w : TreeWorld PeerId) :
    Meets treeStep ClockOk events w := by
  induction events generalizing w with
  | nil => trivial
  | cons e events ih =>
    exact ⟨h e List.mem_cons_self, fun w' _ => ih (fun e he => h e (List.mem_cons_of_mem _ he)) w'⟩

/-- In every run, all issued timestamps exceed what their node has seen if and only if the logical
counter has room whenever a timestamp is issued. -/
theorem meets_causal_iff {events : List (TreeEvent PeerId)} {w : TreeWorld PeerId}
    (hrun : run treeStep events init = some w) (hclock : Meets treeStep ClockOk events init) :
    Meets treeStep Causal events init ↔ Meets treeStep HasRoom events init := by
  refine run_rec (s := init) (P := fun events _ =>
    Meets treeStep ClockOk events init →
      (Meets treeStep Causal events init ↔ Meets treeStep HasRoom events init)) ?_ ?_ hrun hclock
  · exact fun _ => Iff.rfl
  · intro events t e u hrun ih hstep hclock
    obtain ⟨hclocks, hlast⟩ := meets_concat.1 hclock
    rw [meets_concat, meets_concat, ih hclocks]
    refine and_congr_right fun hroom => ?_
    have hinv := inv_run hrun hclocks hroom
    constructor
    · intro h t' ht'
      cases hrun.symm.trans ht'
      exact hinv.hasRoom (h t hrun)
    · intro h t' ht'
      cases hrun.symm.trans ht'
      exact (hinv.step (hlast t hrun) (h t hrun) hstep).2.1

/-- In a run with room every issued operation takes effect at once. -/
theorem meets_takesEffect {events : List (TreeEvent PeerId)} {w : TreeWorld PeerId}
    (hrun : run treeStep events init = some w) (hclock : Meets treeStep ClockOk events init)
    (hroom : Meets treeStep HasRoom events init) : Meets treeStep TakesEffect events init := by
  refine run_rec (s := init) (P := fun events _ =>
    Meets treeStep ClockOk events init → Meets treeStep HasRoom events init →
      Meets treeStep TakesEffect events init) ?_ ?_ hrun hclock hroom
  · exact fun _ _ => trivial
  · intro events t e u hrun ih hstep hclock hroom
    obtain ⟨hclocks, hlast⟩ := meets_concat.1 hclock
    obtain ⟨hrooms, hlast'⟩ := meets_concat.1 hroom
    refine meets_concat.2 ⟨ih hclocks hrooms, fun t' ht' => ?_⟩
    cases hrun.symm.trans ht'
    exact ((inv_run hrun hclocks hrooms).step (hlast t hrun) (hlast' t hrun) hstep).2.2

/-- **Causal timestamps.** In every run with wall clocks below `2 ^ 48` milliseconds, every issued
counter exceeds those of all operations its node has issued or applied before if and only if the
logical counter has room whenever a timestamp is issued. In such a run the ids of all issued
operations are distinct, and every issued operation is ordered after everything in its node's log
and takes effect at once. -/
theorem causal_run_iff {events : List (TreeEvent PeerId)} {w : TreeWorld PeerId}
    (hrun : run treeStep events init = some w) (hclock : Meets treeStep ClockOk events init) :
    (Meets treeStep Causal events init ↔ Meets treeStep HasRoom events init) ∧
      (Meets treeStep HasRoom events init →
        (w.issued.map operationId).Nodup ∧ Meets treeStep TakesEffect events init) :=
  ⟨meets_causal_iff hrun hclock, fun hroom =>
    ⟨(inv_run hrun hclock hroom).ids, meets_takesEffect hrun hclock hroom⟩⟩

end TreeWorld

end Edfs

namespace Edfs.TreeWorld

open Execution Reference

/-- A create at the first millisecond. -/
def createEvent : TreeEvent ℕ := ⟨0, fun _ => 1, .createNode NodeId.root ⟨1⟩ (.directory "d")⟩

/-- What a node that has created `d` in its fifth millisecond has issued, and then one that has
seen this and renames it in what it takes for the second. -/
def createD : NodeOperation ℕ := ⟨⟨5 * 2 ^ 16, 0⟩, NodeId.root, .directory "d", ⟨1⟩⟩

def renameD : NodeOperation ℕ := ⟨⟨5 * 2 ^ 16 + 1, 1⟩, NodeId.root, .directory "e", ⟨1⟩⟩

/-- Two nodes apply each other's operations, and issue newer ones; the clock of the second node is
behind. -/
def relayEvents : List (TreeEvent ℕ) :=
  [⟨0, fun _ => 5, .createNode NodeId.root ⟨1⟩ (.directory "d")⟩,
    ⟨1, fun _ => 2, .applyOperations [createD]⟩,
    ⟨1, fun _ => 2, .moveNode ⟨1⟩ NodeId.root (.directory "e")⟩,
    ⟨0, fun _ => 5, .applyOperations [renameD]⟩,
    ⟨0, fun _ => 5, .deleteNode ⟨1⟩⟩]

theorem causal_run_iff_relay :
    ∃ w, run treeStep relayEvents (init : TreeWorld ℕ) = some w ∧ w.issued.length = 3 ∧
      Meets treeStep Causal relayEvents (init : TreeWorld ℕ) ∧
      (w.issued.map operationId).Nodup ∧
      Meets treeStep TakesEffect relayEvents (init : TreeWorld ℕ) := by
  obtain ⟨w, hrun, hlength⟩ : ∃ w, run treeStep relayEvents (init : TreeWorld ℕ) = some w ∧
      w.issued.length = 3 := ⟨_, rfl, rfl⟩
  have hroom : Meets treeStep HasRoom relayEvents (init : TreeWorld ℕ) := by decide
  obtain ⟨hiff, hholds⟩ := causal_run_iff hrun (meets_clockOk (by simp [relayEvents]) init)
  exact ⟨w, hrun, hlength, hiff.2 hroom, hholds hroom⟩

/-- The clock after a burst of creates in one millisecond. -/
theorem clock_burst (k : ℕ) :
    ∃ w, run treeStep (List.replicate (k + 1) createEvent) (init : TreeWorld ℕ) = some w ∧
      (w.nodes 0).clock = ⟨1, k⟩ := by
  induction k with
  | zero => exact ⟨_, rfl, rfl⟩
  | succ k ih =>
    obtain ⟨w, hrun, hclock⟩ := ih
    obtain ⟨w', hstep⟩ : ∃ w', treeStep createEvent w = some w' :=
      ⟨_, treeStep_eq_some.2 ⟨fun op hop => absurd hop List.not_mem_nil, rfl⟩⟩
    refine ⟨w', ?_, ?_⟩
    · rw [List.replicate_succ', run_concat, hrun]
      exact hstep
    · obtain ⟨-, rfl⟩ := treeStep_eq_some.1 hstep
      show (NodeTree.issue (w.nodes 0) 1 _ _ _).2.clock = _
      rw [NodeTree.issue_clock, hclock]
      rfl

/-- After 65536 creates in one millisecond the next one is not newer than what its node has
issued. -/
theorem burst_not_causal :
    ∃ w, run treeStep (List.replicate (2 ^ 16 + 1) createEvent) (init : TreeWorld ℕ) = some w ∧
      Meets treeStep ClockOk (List.replicate (2 ^ 16 + 1) createEvent) (init : TreeWorld ℕ) ∧
      ¬ Meets treeStep Causal (List.replicate (2 ^ 16 + 1) createEvent) (init : TreeWorld ℕ) := by
  have hnow : 1 < 2 ^ 48 := by decide
  have hclock : Meets treeStep ClockOk (List.replicate (2 ^ 16 + 1) createEvent) init :=
    meets_clockOk (fun e he i => by rw [List.eq_of_mem_replicate he]; exact hnow) init
  obtain ⟨w, hrun, hw⟩ := clock_burst (2 ^ 16 - 1)
  obtain ⟨w', hrun', -⟩ := clock_burst (2 ^ 16)
  refine ⟨w', hrun', hclock, fun hcausal => ?_⟩
  have hroom := (meets_causal_iff hrun' hclock).1 hcausal
  rw [List.replicate_succ', meets_concat] at hroom
  have := hroom.2 w hrun rfl
  change (w.nodes 0).clock.Room 1 at this
  rw [hw] at this
  exact absurd this (by decide)

end Edfs.TreeWorld
