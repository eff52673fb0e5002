import Mathlib.Tactic
import Mathlib.Logic.Relation
import Mathlib.Data.List.Sort
import Mathlib.Order.WellFoundedSet

/-!
# Replicated move trees

A tree whose only operation is the move: put a node under a parent, with new metadata. Moves
carry distinct timestamps; a replica keeps the log of the moves it has received in timestamp
order, latest first, and inserts a late move by undoing the later ones, doing it, and redoing
them. A move that would put a node under itself or below one of its descendants has no effect.

* `Tree`, `Edge`, `Ancestor`, `Acyclic`; `Move`, `doOp`, `undoOp`;
* `State.apply`, the undo/do/redo insertion, and `Coherent`, the states it builds from the
  empty one;
* `apply_newest`: a move newer than the log takes effect at once;
* `Coherent.newest_wins`: where a node is that nothing is put under; `Coherent.leaf_congr`: it stays
  there when others are moved;
* `Coherent.ext`: two replicas with the same moves have the same tree, whatever the order of
  arrival; `Coherent.foldl_eq`, for one batch in two orders;
* `InForce`, the latest move of a node that takes effect; `Coherent.tree_inForce` and
  `Coherent.exists_inForce`: a node is where the move in force has put it;
* `Coherent.tree_apply`: what a move does to the tree that is inserted below later ones, if it
  is `Steady`, that is hinders none of them and frees none.
-/

namespace MoveTree

/-- What a tree stores for a node: where it hangs and what it carries. -/
structure Node (Id Meta : Type) where
  parent : Id
  metadata : Meta
  deriving DecidableEq

/-- A move of `child` under `parent`, with the metadata it gets there. -/
structure Move (Ts Id Meta : Type) where
  timestamp : Ts
  parent : Id
  metadata : Meta
  child : Id
  deriving DecidableEq

/-- A log entry: the move, and what the tree stored for the child before it. -/
structure LogMove (Ts Id Meta : Type) extends Move Ts Id Meta where
  oldp : Option (Node Id Meta)
  deriving DecidableEq

/-- A tree, as the lookup of its nodes. -/
abbrev Tree (Id Meta : Type) := Id → Option (Node Id Meta)

variable {Ts Id Meta : Type}

/-- `a` is the parent of `c`. -/
def Tree.Edge (t : Tree Id Meta) (c a : Id) : Prop := (t c).map Node.parent = some a

/-- `a` is a proper ancestor of `c`. -/
def Tree.Ancestor (t : Tree Id Meta) : Id → Id → Prop := Relation.TransGen t.Edge

/-- No node is its own ancestor. -/
def Tree.Acyclic (t : Tree Id Meta) : Prop := ∀ c, ¬ t.Ancestor c c

/-- Nothing is above what the tree does not have. -/
theorem Tree.not_ancestor_of_none {t : Tree Id Meta} {c : Id} (h : t c = none) (a : Id) :
    ¬ t.Ancestor c a := by
  intro ha
  obtain ⟨b, hb, -⟩ := Relation.TransGen.head'_iff.1 ha
  simp [Tree.Edge, h] at hb

/-- Above a node are its parent, and what is above that. -/
theorem Tree.ancestor_cases {t : Tree Id Meta} {c a : Id} {x : Node Id Meta} (h : t c = some x)
    (ha : t.Ancestor c a) : a = x.parent ∨ t.Ancestor x.parent a := by
  obtain ⟨b, hb, hrest⟩ := Relation.TransGen.head'_iff.1 ha
  obtain rfl : x.parent = b := by simpa [Tree.Edge, h] using hb
  exact Relation.reflTransGen_iff_eq_or_transGen.1 hrest

/-- The move would put its child under itself or below a descendant. -/
def Move.Blocked (m : Move Ts Id Meta) (t : Tree Id Meta) : Prop :=
  m.child = m.parent ∨ t.Ancestor m.parent m.child

section Ops

variable [DecidableEq Id]

open scoped Classical in
/-- Do a move: reparent the child and replace its metadata, unless the move is blocked. -/
noncomputable def doOp (t : Tree Id Meta) (m : Move Ts Id Meta) : Tree Id Meta :=
  if m.Blocked t then t else Function.update t m.child (some ⟨m.parent, m.metadata⟩)

/-- Undo a logged move. -/
def undoOp (t : Tree Id Meta) (e : LogMove Ts Id Meta) : Tree Id Meta :=
  Function.update t e.child e.oldp

/-- The log entry of a move done on `t`. -/
def record (t : Tree Id Meta) (m : Move Ts Id Meta) : LogMove Ts Id Meta :=
  { m with oldp := t m.child }

theorem doOp_blocked {t : Tree Id Meta} {m : Move Ts Id Meta} (h : m.Blocked t) : doOp t m = t :=
  if_pos h

theorem doOp_free {t : Tree Id Meta} {m : Move Ts Id Meta} (h : ¬ m.Blocked t) :
    doOp t m = Function.update t m.child (some ⟨m.parent, m.metadata⟩) :=
  if_neg h

/-- A move touches no node but its child. -/
theorem doOp_of_ne (t : Tree Id Meta) (m : Move Ts Id Meta) {x : Id} (h : x ≠ m.child) :
    doOp t m x = t x := by
  by_cases hb : m.Blocked t
  · rw [doOp_blocked hb]
  · rw [doOp_free hb, Function.update_of_ne h]

theorem doOp_child {t : Tree Id Meta} {m : Move Ts Id Meta} (h : ¬ m.Blocked t) :
    doOp t m m.child = some ⟨m.parent, m.metadata⟩ := by
  rw [doOp_free h, Function.update_self]

theorem undo_doOp (t : Tree Id Meta) (m : Move Ts Id Meta) :
    undoOp (doOp t m) (record t m) = t := by
  funext x
  by_cases hx : x = m.child
  · subst hx; simp [undoOp, record]
  · simp [undoOp, record, Function.update_of_ne hx, doOp_of_ne t m hx]

/-! ### Acyclicity -/

theorem edge_update {t : Tree Id Meta} {c p : Id} {d : Meta} {x a : Id} :
    Tree.Edge (Function.update t c (some ⟨p, d⟩)) x a ↔
      (x = c ∧ a = p) ∨ (x ≠ c ∧ t.Edge x a) := by
  unfold Tree.Edge
  by_cases hx : x = c
  · subst hx; simp [eq_comm]
  · simp [hx]

/-- A path of the moved tree that is not a path of the old one climbs to the moved node and
goes on from its new parent. -/
theorem ancestor_update {t : Tree Id Meta} {c p : Id} {d : Meta}
    (hcp : ¬ (c = p ∨ t.Ancestor p c)) {x a : Id}
    (h : Tree.Ancestor (Function.update t c (some ⟨p, d⟩)) x a) :
    t.Ancestor x a ∨ (Relation.ReflTransGen t.Edge x c ∧ Relation.ReflTransGen t.Edge p a) := by
  have nopath : ¬ Relation.ReflTransGen t.Edge p c := fun hr => by
    rcases Relation.reflTransGen_iff_eq_or_transGen.1 hr with h | h
    · exact hcp (Or.inl h)
    · exact hcp (Or.inr h)
  induction h using Relation.TransGen.head_induction_on with
  | single h =>
    rcases edge_update.1 h with ⟨rfl, rfl⟩ | ⟨-, h⟩
    · exact Or.inr ⟨.refl, .refl⟩
    · exact Or.inl (.single h)
  | head h _ ih =>
    rcases edge_update.1 h with ⟨rfl, rfl⟩ | ⟨-, h⟩
    · rcases ih with ih | ⟨ih, -⟩
      · exact Or.inr ⟨.refl, ih.to_reflTransGen⟩
      · exact absurd ih nopath
    · rcases ih with ih | ⟨ih, ih'⟩
      · exact Or.inl (.head h ih)
      · exact Or.inr ⟨.head h ih, ih'⟩

omit [DecidableEq Id] in
theorem acyclic_empty : Tree.Acyclic (fun _ : Id => (none : Option (Node Id Meta))) :=
  fun c => Tree.not_ancestor_of_none rfl c

theorem acyclic_doOp {t : Tree Id Meta} (h : t.Acyclic) (m : Move Ts Id Meta) :
    (doOp t m).Acyclic := by
  by_cases hb : m.Blocked t
  · rwa [doOp_blocked hb]
  · rw [doOp_free hb]
    intro x hx
    rcases ancestor_update hb hx with hx | ⟨h1, h2⟩
    · exact h x hx
    · rcases Relation.reflTransGen_iff_eq_or_transGen.1 (h2.trans h1) with h | h
      · exact hb (Or.inl h)
      · exact hb (Or.inr h)

omit [DecidableEq Id] in
/-- In an acyclic tree a move to the parent the node already has is not blocked. -/
theorem not_blocked_of_parent {t : Tree Id Meta} (h : t.Acyclic) {m : Move Ts Id Meta}
    {n : Node Id Meta} (hn : t m.child = some n) (hp : m.parent = n.parent) :
    ¬ m.Blocked t := by
  have hedge : t.Edge m.child m.parent := by simp [Tree.Edge, hn, hp]
  rintro (hc | hc)
  · exact h m.child (.single (by rwa [← hc] at hedge))
  · exact h m.child (.head hedge hc)

/-- New metadata for a node where it is leaves all paths as they are. -/
theorem edge_update_same {t : Tree Id Meta} {c p : Id} {d d' : Meta} (h : t c = some ⟨p, d⟩) :
    Tree.Edge (Function.update t c (some ⟨p, d'⟩)) = t.Edge := by
  funext x a
  refine propext (edge_update.trans ?_)
  by_cases hx : x = c
  · subst hx
    simp [Tree.Edge, h, eq_comm]
  · simp [hx]

/-- A node can go back to a parent it has been moved away from. -/
theorem not_blocked_back {t : Tree Id Meta} (ht : t.Acyclic) {c p p' : Id} {d d' : Meta}
    (hc : t c = some ⟨p, d⟩) (hp' : ¬ (c = p' ∨ t.Ancestor p' c)) :
    ¬ (c = p ∨ Tree.Ancestor (Function.update t c (some ⟨p', d'⟩)) p c) := by
  have hedge : t.Edge c p := congrArg (Option.map Node.parent) hc
  rintro (rfl | h)
  · exact ht c (.single hedge)
  · have hpath : Relation.ReflTransGen t.Edge p c := by
      rcases ancestor_update hp' h with h | ⟨h, -⟩
      · exact h.to_reflTransGen
      · exact h
    exact ht c (.head' hedge hpath)

/-- A node that has been moved goes back to its parent, with the metadata of the move that brings
it back. -/
theorem doOp_back {t : Tree Id Meta} (ht : t.Acyclic) {p : Id} {d : Meta} {r w : Move Ts Id Meta}
    (hn : t r.child = some ⟨p, d⟩) (hchild : w.child = r.child) (hp : w.parent = p) :
    doOp (doOp t r) w w.child = some ⟨p, w.metadata⟩ := by
  subst hp
  refine doOp_child ?_
  by_cases hr : r.Blocked t
  · rw [doOp_blocked hr]
    exact not_blocked_of_parent ht (hchild ▸ hn) rfl
  · rw [doOp_free hr, Move.Blocked, hchild]
    exact not_blocked_back ht hn hr

/-- New metadata for a node does not hinder a later move of it. -/
theorem doOp_stay {t : Tree Id Meta} (ht : t.Acyclic) {p : Id} {d : Meta} {r w : Move Ts Id Meta}
    (hn : t r.child = some ⟨p, d⟩) (hchild : w.child = r.child) (hp : w.parent = p) :
    (r.Blocked t → doOp (doOp t w) r r.child = some ⟨p, w.metadata⟩) ∧
      (¬ r.Blocked t → doOp (doOp t w) r r.child = some ⟨r.parent, r.metadata⟩) := by
  subst hp
  have hfree := doOp_free (not_blocked_of_parent ht (hchild ▸ hn) (m := w) rfl)
  rw [hchild] at hfree
  have hiff : r.Blocked (doOp t w) ↔ r.Blocked t := by
    rw [Move.Blocked, Tree.Ancestor, hfree, edge_update_same hn]
    rfl
  constructor
  · intro hr
    rw [doOp_blocked (hiff.2 hr), hfree, Function.update_self]
  · intro hr
    exact doOp_child (mt hiff.1 hr)

/-! ### Logs -/

/-- A replica's state: its log, latest move first, and the tree. -/
@[ext] structure State (Ts Id Meta : Type) where
  log : List (LogMove Ts Id Meta)
  tree : Tree Id Meta

/-- The state of a replica that has received nothing. -/
def State.empty : State Ts Id Meta := ⟨[], fun _ => none⟩

/-- The moves of the log. -/
def State.moves (s : State Ts Id Meta) : List (Move Ts Id Meta) := s.log.map LogMove.toMove

/-- Do a move on top of everything logged. -/
noncomputable def State.push (s : State Ts Id Meta) (m : Move Ts Id Meta) : State Ts Id Meta :=
  ⟨record s.tree m :: s.log, doOp s.tree m⟩

omit [DecidableEq Id] in
@[simp] theorem moves_empty : (State.empty : State Ts Id Meta).moves = [] := rfl

@[simp] theorem moves_push (s : State Ts Id Meta) (m : Move Ts Id Meta) :
    (s.push m).moves = m :: s.moves := rfl

variable [LinearOrder Ts]

/-- Insert a move below the later entries of the log: undo them, do it, redo them. A timestamp
that is already logged is ignored. -/
noncomputable def applyOp (m : Move Ts Id Meta) :
    List (LogMove Ts Id Meta) → Tree Id Meta → State Ts Id Meta
  | [], t => State.push ⟨[], t⟩ m
  | e :: es, t =>
    if m.timestamp < e.timestamp then (applyOp m es (undoOp t e)).push e.toMove
    else if m.timestamp = e.timestamp then ⟨e :: es, t⟩
    else State.push ⟨e :: es, t⟩ m

/-- Receive a move. -/
noncomputable def State.apply (s : State Ts Id Meta) (m : Move Ts Id Meta) : State Ts Id Meta :=
  applyOp m s.log s.tree

/-- A move that is older than the latest logged one goes in below it. -/
theorem apply_push {s : State Ts Id Meta} {a b : Move Ts Id Meta}
    (h : a.timestamp < b.timestamp) : (s.push b).apply a = (s.apply a).push b := by
  have hbelow : a.timestamp < (record s.tree b).timestamp := h
  unfold State.apply
  rw [State.push, applyOp, if_pos hbelow, undo_doOp]
  rfl

/-- A move newer than everything logged takes effect at once. -/
theorem apply_newest {s : State Ts Id Meta} {m : Move Ts Id Meta}
    (h : ∀ e ∈ s.moves, e.timestamp < m.timestamp) : s.apply m = s.push m := by
  obtain ⟨log, t⟩ := s
  cases log with
  | nil => rfl
  | cons e es =>
    have he : e.timestamp < m.timestamp := h e.toMove (by simp [State.moves])
    simp [State.apply, applyOp, he.not_gt, he.ne']

/-- Two replicas in one state that each do a new move and then receive the other's: the earlier
move is done first on both. -/
theorem exchange {s : State Ts Id Meta} {a b : Move Ts Id Meta}
    (hab : a.timestamp < b.timestamp) (ha : ∀ e ∈ s.moves, e.timestamp < a.timestamp) :
    (s.push a).apply b = (s.push a).push b ∧ (s.push b).apply a = (s.push a).push b := by
  constructor
  · refine apply_newest fun e he => ?_
    rcases List.mem_cons.1 he with rfl | he
    · exact hab
    · exact (ha e he).trans hab
  · rw [apply_push hab, apply_newest ha]

/-- Two replicas in one state, of which one moves a node and the other only gives it new metadata:
once both have both moves, the node is as the later one has left it, or as the second has if the
first is blocked. -/
theorem exchange_stay {s s' : State Ts Id Meta} (hs : s.tree.Acyclic) {r w : Move Ts Id Meta}
    (hr : ∀ e ∈ s.moves, e.timestamp < r.timestamp) (hw : ∀ e ∈ s.moves, e.timestamp < w.timestamp)
    (hne : r.timestamp ≠ w.timestamp) {p : Id} {d : Meta} (hn : s.tree r.child = some ⟨p, d⟩)
    (hchild : w.child = r.child) (hp : w.parent = p)
    (hs' : s' = (s.push r).apply w ∨ s' = (s.push w).apply r) :
    (w.timestamp < r.timestamp ∧ ¬ r.Blocked s.tree →
        s'.tree r.child = some ⟨r.parent, r.metadata⟩) ∧
      (¬ (w.timestamp < r.timestamp ∧ ¬ r.Blocked s.tree) →
        s'.tree r.child = some ⟨p, w.metadata⟩) := by
  rcases lt_or_gt_of_ne hne with hlt | hlt
  · have heq : s' = (s.push r).push w := hs'.elim (·.trans (exchange hlt hr).1)
      (·.trans (exchange hlt hr).2)
    refine ⟨fun h => absurd h.1 hlt.asymm, fun _ => ?_⟩
    rw [heq, ← hchild]
    exact doOp_back hs hn hchild hp
  · have heq : s' = (s.push w).push r := hs'.elim (·.trans (exchange hlt hw).2)
      (·.trans (exchange hlt hw).1)
    obtain ⟨hblocked, hfree⟩ := doOp_stay hs hn hchild hp
    rw [heq]
    refine ⟨fun h => hfree h.2, fun h => hblocked ?_⟩
    by_contra hb
    exact h ⟨hlt, hb⟩

/-- The log grows by exactly a move whose timestamp is not yet logged. -/
theorem apply_moves_perm {s : State Ts Id Meta} {m : Move Ts Id Meta}
    (h : ∀ e ∈ s.moves, e.timestamp ≠ m.timestamp) : (s.apply m).moves.Perm (m :: s.moves) := by
  obtain ⟨log, t⟩ := s
  unfold State.apply
  induction log generalizing t with
  | nil => rfl
  | cons e es ih =>
    have he : e.timestamp ≠ m.timestamp := h e.toMove (by simp [State.moves])
    have ih' := ih (undoOp t e) fun x hx => h x (List.mem_cons_of_mem _ hx)
    unfold applyOp
    split_ifs with h1 h2
    · exact (ih'.cons _).trans (List.Perm.swap _ _ _)
    · exact absurd h2.symm he
    · rfl

theorem mem_moves_apply {s : State Ts Id Meta} {m x : Move Ts Id Meta}
    (hx : x ∈ (s.apply m).moves) : x = m ∨ x ∈ s.moves := by
  obtain ⟨log, t⟩ := s
  unfold State.apply at hx
  induction log generalizing t with
  | nil => simpa [applyOp] using hx
  | cons e es ih =>
    unfold applyOp at hx
    split_ifs at hx with h1 h2
    · rcases List.mem_cons.1 hx with hx | hx
      · exact Or.inr (hx ▸ List.mem_cons_self)
      · exact (ih _ hx).imp_right (List.mem_cons_of_mem _)
    · exact Or.inr hx
    · exact List.mem_cons.1 hx

/-! ### Coherent states -/

/-- The states built by doing moves in timestamp order. -/
inductive Coherent : State Ts Id Meta → Prop
  | empty : Coherent State.empty
  | push {s : State Ts Id Meta} {m : Move Ts Id Meta} (hs : Coherent s)
      (hm : ∀ e ∈ s.moves, e.timestamp < m.timestamp) : Coherent (s.push m)

/-- Undoing the latest entry of a coherent state leaves a coherent state, and redoing it gives
the state back. -/
theorem Coherent.undo {e : LogMove Ts Id Meta} {es : List (LogMove Ts Id Meta)}
    {t : Tree Id Meta} (h : Coherent (State.mk (e :: es) t)) :
    Coherent (State.mk es (undoOp t e)) ∧
      (∀ x ∈ (State.mk es (undoOp t e)).moves, x.timestamp < e.timestamp) ∧
      (State.mk es (undoOp t e)).push e.toMove = ⟨e :: es, t⟩ := by
  generalize hs : State.mk (e :: es) t = s at h
  cases h with
  | empty => simp [State.empty] at hs
  | @push s m hs' hm =>
    obtain ⟨⟨rfl, rfl⟩, rfl⟩ : (e = record s.tree m ∧ es = s.log) ∧ t = doOp s.tree m := by
      simpa [State.push] using hs
    rw [undo_doOp]
    exact ⟨hs', hm, rfl⟩

/-- **Receiving a move keeps a replica coherent.** -/
theorem Coherent.apply {s : State Ts Id Meta} (h : Coherent s) (m : Move Ts Id Meta) :
    Coherent (s.apply m) := by
  obtain ⟨log, t⟩ := s
  unfold State.apply
  induction log generalizing t with
  | nil => exact .push h (by simp [State.moves])
  | cons e es ih =>
    obtain ⟨hes, hlt, -⟩ := h.undo
    unfold applyOp
    split_ifs with h1 h2
    · refine .push (ih _ hes) fun x hx => ?_
      rcases mem_moves_apply (s := ⟨es, undoOp t e⟩) hx with rfl | hx
      · exact h1
      · exact hlt x hx
    · exact h
    · have hme : e.timestamp < m.timestamp := lt_of_le_of_ne (not_lt.1 h1) (Ne.symm h2)
      refine .push h fun x hx => ?_
      rcases List.mem_cons.1 hx with rfl | hx
      · exact hme
      · exact (hlt x hx).trans hme

theorem Coherent.foldl {s : State Ts Id Meta} (h : Coherent s) (ms : List (Move Ts Id Meta)) :
    Coherent (ms.foldl State.apply s) := by
  induction ms generalizing s with
  | nil => exact h
  | cons m ms ih => exact ih (h.apply m)

/-- A timestamp that is already logged is ignored. -/
theorem Coherent.apply_logged {s : State Ts Id Meta} (h : Coherent s) {m e : Move Ts Id Meta}
    (he : e ∈ s.moves) (ht : e.timestamp = m.timestamp) : s.apply m = s := by
  obtain ⟨log, t⟩ := s
  unfold State.apply
  induction log generalizing t with
  | nil => simp [State.moves] at he
  | cons x xs ih =>
    obtain ⟨hxs, hlt, hredo⟩ := h.undo
    unfold applyOp
    rcases List.mem_cons.1 he with rfl | he
    · simp [ht]
    · have hlt' : m.timestamp < x.timestamp := ht ▸ hlt e he
      rw [if_pos hlt', ih _ hxs he, hredo]

theorem Coherent.acyclic {s : State Ts Id Meta} (h : Coherent s) : s.tree.Acyclic := by
  induction h with
  | empty => exact acyclic_empty
  | push _ _ ih => exact acyclic_doOp ih _

/-- A node of a coherent state is where one of the moves has put it. -/
theorem Coherent.exists_move {s : State Ts Id Meta} (h : Coherent s) {c : Id} {x : Node Id Meta}
    (hc : s.tree c = some x) : ∃ m ∈ s.moves, m.child = c ∧ x = ⟨m.parent, m.metadata⟩ := by
  induction h with
  | empty => cases hc
  | @push s m _ _ ih =>
    by_cases hb : m.Blocked s.tree
    · obtain ⟨m', hm', hx⟩ := ih ((congrFun (doOp_blocked hb) c).symm.trans hc)
      exact ⟨m', List.mem_cons_of_mem m hm', hx⟩
    · by_cases hcm : c = m.child
      · subst hcm
        exact ⟨m, List.mem_cons_self, rfl, Option.some.inj (hc.symm.trans (doOp_child hb))⟩
      · obtain ⟨m', hm', hx⟩ := ih ((doOp_of_ne s.tree m hcm).symm.trans hc)
        exact ⟨m', List.mem_cons_of_mem m hm', hx⟩

/-- **The newest move of a node wins**, if no move puts anything under the node. -/
theorem Coherent.newest_wins {s : State Ts Id Meta} (h : Coherent s) {m : Move Ts Id Meta}
    (hm : m ∈ s.moves) (hnewest : ∀ x ∈ s.moves, x.child = m.child → x.timestamp ≤ m.timestamp)
    (hleaf : ∀ x ∈ s.moves, x.parent ≠ m.child) :
    s.tree m.child = some ⟨m.parent, m.metadata⟩ := by
  induction h with
  | empty => cases hm
  | @push s x hs hx ih =>
    by_cases hchild : x.child = m.child
    · -- it is the latest one: nothing else could block it
      have hmx : m = x := (List.mem_cons.1 hm).resolve_right fun hold =>
        (hx m hold).not_ge (hnewest x List.mem_cons_self hchild)
      subst hmx
      refine doOp_child ?_
      rintro (hself | habove)
      · exact hleaf m List.mem_cons_self hself.symm
      · obtain ⟨b, -, hb⟩ := Relation.TransGen.tail'_iff.1 habove
        obtain ⟨y, hy, hparent⟩ := Option.map_eq_some_iff.1 hb
        obtain ⟨m', hm', -, rfl⟩ := hs.exists_move hy
        exact hleaf m' (List.mem_cons_of_mem _ hm') hparent
    · have hold : m ∈ s.moves := (List.mem_cons.1 hm).resolve_left fun hmx =>
        hchild (congrArg Move.child hmx.symm)
      exact (doOp_of_ne s.tree x (Ne.symm hchild)).trans
        (ih hold (fun y hy => hnewest y (List.mem_cons_of_mem _ hy))
          fun y hy => hleaf y (List.mem_cons_of_mem _ hy))

/-- A node that nothing is put under stays where it is when the log gets moves of other nodes, and
moves of it that are no newer than the latest. -/
theorem Coherent.leaf_congr {s s' : State Ts Id Meta} (h : Coherent s) (h' : Coherent s') {c : Id}
    (hsub : s.moves ⊆ s'.moves) (hleaf : ∀ x ∈ s'.moves, x.parent ≠ c)
    (hold : ∀ x ∈ s'.moves, x.child = c → ∃ m ∈ s.moves, m.child = c ∧ x.timestamp ≤ m.timestamp) :
    s'.tree c = s.tree c := by
  by_cases hmoved : ∃ m ∈ s.moves, m.child = c
  · -- the newest of its moves in the old log is the newest in the new one
    have hfinite : {m | m ∈ s.moves ∧ m.child = c}.Finite :=
      (List.finite_toSet s.moves).subset fun _ hm => hm.1
    obtain ⟨m, ⟨hm, rfl⟩, hnewest⟩ := Set.exists_max_image _ Move.timestamp hfinite hmoved
    have hs := h.newest_wins hm (fun x hx hchild => hnewest x ⟨hx, hchild⟩)
      fun x hx => hleaf x (hsub hx)
    refine (h'.newest_wins (hsub hm) (fun x hx hchild => ?_) hleaf).trans hs.symm
    obtain ⟨y, hy, hyc, hxy⟩ := hold x hx hchild
    exact hxy.trans (hnewest y ⟨hy, hyc⟩)
  · -- the node has never been moved
    have hnone : ∀ t : State Ts Id Meta, Coherent t → (∀ m ∈ t.moves, m.child ≠ c) →
        t.tree c = none := fun t ht hno => by
      by_contra hne
      obtain ⟨x, hx⟩ := Option.ne_none_iff_exists'.1 hne
      obtain ⟨m, hm, hchild, -⟩ := ht.exists_move hx
      exact hno m hm hchild
    rw [hnone s h fun m hm hchild => hmoved ⟨m, hm, hchild⟩, hnone s' h' fun m hm hchild => ?_]
    obtain ⟨y, hy, hyc, -⟩ := hold m hm hchild
    exact hmoved ⟨y, hy, hyc⟩

/-- The log of a coherent state is strictly ordered, latest first. -/
theorem Coherent.pairwise {s : State Ts Id Meta} (h : Coherent s) :
    s.moves.Pairwise fun a b => b.timestamp < a.timestamp := by
  induction h with
  | empty => exact .nil
  | push _ hm ih => exact List.pairwise_cons.2 ⟨hm, ih⟩

theorem Coherent.nodup {s : State Ts Id Meta} (h : Coherent s) : s.moves.Nodup :=
  h.pairwise.imp fun hab => by rintro rfl; exact lt_irrefl _ hab

/-- Membership in the log after a move: the log never loses an entry and gains at most the
move. -/
theorem Coherent.mem_apply {s : State Ts Id Meta} (h : Coherent s) (m x : Move Ts Id Meta) :
    x ∈ (s.apply m).moves ↔
      x ∈ s.moves ∨ (x = m ∧ ∀ e ∈ s.moves, e.timestamp ≠ m.timestamp) := by
  by_cases hm : ∀ e ∈ s.moves, e.timestamp ≠ m.timestamp
  · rw [(apply_moves_perm hm).mem_iff, List.mem_cons, or_comm]
    exact or_congr_right (and_iff_left hm).symm
  · obtain ⟨e, he, ht⟩ : ∃ e ∈ s.moves, e.timestamp = m.timestamp := by
      simpa using hm
    rw [h.apply_logged he ht]
    exact (or_iff_left fun hx => hm hx.2).symm

/-- A batch of moves costs no entry of the log, and afterwards each of its timestamps is logged. -/
theorem Coherent.timestamps_foldl {s : State Ts Id Meta} (h : Coherent s)
    (ms : List (Move Ts Id Meta)) : s.moves ⊆ (ms.foldl State.apply s).moves ∧
      ∀ m ∈ ms, ∃ x ∈ (ms.foldl State.apply s).moves, x.timestamp = m.timestamp := by
  induction ms generalizing s with
  | nil => exact ⟨List.Subset.refl _, fun m hm => absurd hm List.not_mem_nil⟩
  | cons m ms ih =>
    obtain ⟨hkeep, hlogged⟩ := ih (h.apply m)
    refine ⟨fun x hx => hkeep ((h.mem_apply m x).2 (Or.inl hx)), fun m' hm' => ?_⟩
    rcases List.mem_cons.1 hm' with rfl | hm'
    · by_cases hnew : ∀ e ∈ s.moves, e.timestamp ≠ m'.timestamp
      · exact ⟨m', hkeep ((h.mem_apply m' m').2 (Or.inr ⟨rfl, hnew⟩)), rfl⟩
      · obtain ⟨e, he, ht⟩ : ∃ e ∈ s.moves, e.timestamp = m'.timestamp := by simpa using hnew
        exact ⟨e, hkeep ((h.mem_apply m' e).2 (Or.inl he)), ht⟩
    · exact hlogged m' hm'

/-- A batch of moves whose timestamps tell them apart ends up in the log, but for those whose
timestamp has been logged before. -/
theorem Coherent.mem_foldl_iff {s : State Ts Id Meta} (h : Coherent s)
    {ms : List (Move Ts Id Meta)}
    (hms : ∀ a ∈ ms, ∀ b ∈ ms, a.timestamp = b.timestamp → a = b) (x : Move Ts Id Meta) :
    x ∈ (ms.foldl State.apply s).moves ↔
      x ∈ s.moves ∨ x ∈ ms ∧ ∀ e ∈ s.moves, e.timestamp ≠ x.timestamp := by
  induction ms generalizing s with
  | nil => simp
  | cons m ms ih =>
    rw [List.foldl_cons, ih (h.apply m) fun a ha b hb =>
      hms a (List.mem_cons_of_mem m ha) b (List.mem_cons_of_mem m hb)]
    constructor
    · rintro (hx | ⟨hx, hnew⟩)
      · rcases (h.mem_apply m x).1 hx with hx | ⟨rfl, hnew⟩
        · exact Or.inl hx
        · exact Or.inr ⟨List.mem_cons_self, hnew⟩
      · exact Or.inr ⟨List.mem_cons_of_mem m hx, fun e he =>
          hnew e ((h.mem_apply m e).2 (Or.inl he))⟩
    · rintro (hx | ⟨hx, hnew⟩)
      · exact Or.inl ((h.mem_apply m x).2 (Or.inl hx))
      · rcases List.mem_cons.1 hx with rfl | hmem
        · exact Or.inl ((h.mem_apply x x).2 (Or.inr ⟨rfl, hnew⟩))
        by_cases hxm : x = m
        · exact Or.inl ((h.mem_apply m x).2 (Or.inr ⟨hxm, hxm ▸ hnew⟩))
        · refine Or.inr ⟨hmem, fun e he ht => ?_⟩
          rcases (h.mem_apply m e).1 he with he | ⟨rfl, -⟩
          · exact hnew e he ht
          · exact hxm (hms x hx e List.mem_cons_self ht.symm)

/-- A batch of moves whose timestamps tell them apart, also from the logged ones, ends up in the
log. -/
theorem Coherent.mem_foldl {s : State Ts Id Meta} (h : Coherent s) {ms : List (Move Ts Id Meta)}
    {U : Move Ts Id Meta → Prop} (hU : ∀ a b, U a → U b → a.timestamp = b.timestamp → a = b)
    (hs : ∀ x ∈ s.moves, U x) (hms : ∀ x ∈ ms, U x) (x : Move Ts Id Meta) :
    x ∈ (ms.foldl State.apply s).moves ↔ x ∈ s.moves ∨ x ∈ ms := by
  rw [h.mem_foldl_iff fun a ha b hb => hU a b (hms a ha) (hms b hb)]
  refine or_congr_right' fun hx => and_iff_left_of_imp fun hmem e he ht => ?_
  exact hx (hU e x (hs e he) (hms x hmem) ht ▸ he)

/-- The state that doing a list of moves builds, latest first. -/
noncomputable def build (ms : List (Move Ts Id Meta)) : State Ts Id Meta :=
  ms.foldr (fun m s => s.push m) State.empty

omit [LinearOrder Ts] in
@[simp] theorem build_cons (m : Move Ts Id Meta) (ms : List (Move Ts Id Meta)) :
    build (m :: ms) = (build ms).push m := rfl

theorem Coherent.eq_build {s : State Ts Id Meta} (h : Coherent s) : s = build s.moves := by
  induction h with
  | empty => rfl
  | push _ _ ih => rw [moves_push, build_cons, ← ih]

/-- **Convergence**: coherent replicas with the same moves are in the same state. -/
theorem Coherent.ext {s s' : State Ts Id Meta} (h : Coherent s) (h' : Coherent s')
    (hm : ∀ m, m ∈ s.moves ↔ m ∈ s'.moves) : s = s' := by
  have hperm : s.moves.Perm s'.moves := (List.perm_ext_iff_of_nodup h.nodup h'.nodup).2 hm
  have heq : s.moves = s'.moves :=
    hperm.eq_of_pairwise (fun a b _ _ hab hba => absurd hab (lt_asymm hba)) h.pairwise h'.pairwise
  rw [h.eq_build, h'.eq_build, heq]

/-- The moves of a log that are older than a move. -/
def older (ms : List (Move Ts Id Meta)) (m : Move Ts Id Meta) : List (Move Ts Id Meta) :=
  ms.filter fun x => x.timestamp < m.timestamp

/-- The tree in which a move is done: that of the older ones. -/
noncomputable def before (ms : List (Move Ts Id Meta)) (m : Move Ts Id Meta) : Tree Id Meta :=
  (build (older ms m)).tree

/-- A move of a log that takes effect. -/
def Effective (ms : List (Move Ts Id Meta)) (m : Move Ts Id Meta) : Prop :=
  m ∈ ms ∧ ¬ m.Blocked (before ms m)

/-- The latest move of its node that takes effect. -/
def InForce (ms : List (Move Ts Id Meta)) (m : Move Ts Id Meta) : Prop :=
  Effective ms m ∧ ∀ x, Effective ms x → x.child = m.child → x.timestamp ≤ m.timestamp

/-- A later move of the same node takes effect. -/
def Overtaken (ms : List (Move Ts Id Meta)) (m : Move Ts Id Meta) : Prop :=
  ∃ x, Effective ms x ∧ x.child = m.child ∧ m.timestamp < x.timestamp

section Push

variable {s : State Ts Id Meta} {m : Move Ts Id Meta}

omit [DecidableEq Id] in
/-- All that a move is newer than is older than it. -/
theorem older_newest (hm : ∀ e ∈ s.moves, e.timestamp < m.timestamp) :
    older s.moves m = s.moves :=
  List.filter_eq_self.2 fun e he => decide_eq_true (hm e he)

omit [DecidableEq Id] in
theorem older_push {x : Move Ts Id Meta} (hx : x.timestamp ≤ m.timestamp) :
    older (m :: s.moves) x = older s.moves x :=
  List.filter_cons_of_neg (by simpa using hx)

theorem before_newest (hs : Coherent s) (hm : ∀ e ∈ s.moves, e.timestamp < m.timestamp) :
    before s.moves m = s.tree := by
  rw [before, older_newest hm, ← hs.eq_build]

theorem before_push {x : Move Ts Id Meta} (hx : x.timestamp ≤ m.timestamp) :
    before (m :: s.moves) x = before s.moves x := by
  rw [before, older_push hx, before]

theorem effective_push (hs : Coherent s) (hm : ∀ e ∈ s.moves, e.timestamp < m.timestamp)
    {x : Move Ts Id Meta} :
    Effective (m :: s.moves) x ↔ (x = m ∧ ¬ m.Blocked s.tree) ∨ Effective s.moves x := by
  unfold Effective
  rw [List.mem_cons, or_and_right]
  refine or_congr (and_congr_right fun hxm => ?_) (and_congr_right fun hx => ?_)
  · rw [hxm, before_push le_rfl, before_newest hs hm]
  · rw [before_push (hm x hx).le]

theorem overtaken_push (hs : Coherent s) (hm : ∀ e ∈ s.moves, e.timestamp < m.timestamp)
    {x : Move Ts Id Meta} (hx : x.timestamp < m.timestamp) :
    Overtaken (m :: s.moves) x ↔
      (m.child = x.child ∧ ¬ m.Blocked s.tree) ∨ Overtaken s.moves x := by
  simp only [Overtaken, effective_push hs hm, or_and_right, exists_or]
  refine or_congr_left ⟨?_, fun h => ⟨m, ⟨rfl, h.2⟩, h.1, hx⟩⟩
  rintro ⟨y, ⟨rfl, hfree⟩, hchild, -⟩
  exact ⟨hchild, hfree⟩

end Push

/-- **A node is where the move in force has put it.** -/
theorem Coherent.tree_inForce {s : State Ts Id Meta} (h : Coherent s) {m : Move Ts Id Meta}
    (hm : InForce s.moves m) : s.tree m.child = some ⟨m.parent, m.metadata⟩ := by
  induction h with
  | empty => exact absurd hm.1.1 List.not_mem_nil
  | @push s x hs hx ih =>
    obtain ⟨heff, hlast⟩ := hm
    by_cases hb : x.Blocked s.tree
    · -- the move on top does nothing
      have hiff : ∀ y, Effective (s.push x).moves y ↔ Effective s.moves y := fun y => by
        rw [moves_push, effective_push hs hx]
        exact or_iff_right fun h => h.2 hb
      refine (congrFun (doOp_blocked hb) _).trans (ih ⟨(hiff m).1 heff, fun y hy => ?_⟩)
      exact hlast y ((hiff y).2 hy)
    · have htop : Effective (s.push x).moves x := (effective_push hs hx).2 (Or.inl ⟨rfl, hb⟩)
      rcases (effective_push hs hx).1 heff with ⟨rfl, -⟩ | hold
      · exact doOp_child hb
      · have hne : m.child ≠ x.child := fun heq =>
          (hlast x htop heq.symm).not_gt (hx m hold.1)
        refine (doOp_of_ne s.tree x hne).trans (ih ⟨hold, fun y hy => hlast y ?_⟩)
        exact (effective_push hs hx).2 (Or.inr hy)

/-- Where a node is, a move in force has put it. -/
theorem Coherent.exists_inForce {s : State Ts Id Meta} (h : Coherent s) {c : Id}
    {x : Node Id Meta} (hc : s.tree c = some x) :
    ∃ m, InForce s.moves m ∧ m.child = c ∧ x = ⟨m.parent, m.metadata⟩ := by
  induction h with
  | empty => cases hc
  | @push s m hs hm ih =>
    by_cases htop : ¬ m.Blocked s.tree ∧ c = m.child
    · obtain ⟨hb, rfl⟩ := htop
      refine ⟨m, ⟨(effective_push hs hm).2 (Or.inl ⟨rfl, hb⟩), fun y hy _ => ?_⟩, rfl,
        Option.some.inj (hc.symm.trans (doOp_child hb))⟩
      rcases (effective_push hs hm).1 hy with ⟨rfl, -⟩ | hy
      · exact le_rfl
      · exact (hm y hy.1).le
    · have hsame : (s.push m).tree c = s.tree c := by
        by_cases hb : m.Blocked s.tree
        · exact congrFun (doOp_blocked hb) c
        · exact doOp_of_ne s.tree m fun hcm => htop ⟨hb, hcm⟩
      obtain ⟨x', ⟨heff, hlast⟩, hchild, hx⟩ := ih (hsame.symm.trans hc)
      refine ⟨x', ⟨(effective_push hs hm).2 (Or.inr heff), fun y hy hyc => ?_⟩, hchild, hx⟩
      rcases (effective_push hs hm).1 hy with ⟨rfl, hb⟩ | hy
      · exact absurd ⟨hb, (hyc.trans hchild).symm⟩ htop
      · exact hlast y hy hyc

/-! ### Inserting a move -/

/-- Inserting a move changes for none of the later ones whether it is blocked, as far as the node
has not been moved again by then. -/
def Steady (ms : List (Move Ts Id Meta)) (o : Move Ts Id Meta) : Prop :=
  ∀ m ∈ ms, o.timestamp < m.timestamp → Overtaken (older ms m) o ∨
    (m.Blocked (Function.update (before ms m) o.child (some ⟨o.parent, o.metadata⟩)) ↔
      m.Blocked (before ms m))

theorem Steady.pop {s : State Ts Id Meta} {o m : Move Ts Id Meta}
    (hm : ∀ e ∈ s.moves, e.timestamp < m.timestamp) (h : Steady (m :: s.moves) o) :
    Steady s.moves o := by
  intro x hx hox
  have hpush := h x (List.mem_cons_of_mem m hx) hox
  rwa [older_push (hm x hx).le, before_push (hm x hx).le] at hpush

/-- **What a move does that is inserted**: nothing, if it is blocked or a later move of the node
takes effect; else it puts its node there, as it would on top of the log. -/
theorem Coherent.tree_apply {s : State Ts Id Meta} (h : Coherent s) {o : Move Ts Id Meta}
    (hnew : ∀ e ∈ s.moves, e.timestamp ≠ o.timestamp)
    (hsteady : o.Blocked (before s.moves o) ∨ Steady s.moves o) :
    (o.Blocked (before s.moves o) ∨ Overtaken s.moves o → (s.apply o).tree = s.tree) ∧
      (¬ (o.Blocked (before s.moves o) ∨ Overtaken s.moves o) →
        (s.apply o).tree = Function.update s.tree o.child (some ⟨o.parent, o.metadata⟩)) := by
  induction h with
  | empty =>
    have hnone : ¬ Overtaken (State.empty : State Ts Id Meta).moves o := by
      rintro ⟨x, ⟨hx, -⟩, -⟩
      exact List.not_mem_nil hx
    refine ⟨fun hb => doOp_blocked (hb.resolve_right hnone), fun hb => doOp_free ?_⟩
    exact fun hblocked => hb (Or.inl hblocked)
  | @push s m hs hm ih =>
    rw [moves_push] at hnew hsteady ⊢
    rcases lt_or_gt_of_ne (hnew m List.mem_cons_self) with hlt | hlt
    · -- the move is newer than the log
      have hall : ∀ e ∈ (s.push m).moves, e.timestamp < o.timestamp := by
        intro e he
        rcases List.mem_cons.1 he with rfl | he
        · exact hlt
        · exact (hm e he).trans hlt
      have hnone : ¬ Overtaken (m :: s.moves) o := by
        rintro ⟨x, ⟨hx, -⟩, -, hox⟩
        exact hox.asymm (hall x hx)
      rw [show before (m :: s.moves) o = (s.push m).tree from before_newest (hs.push hm) hall,
        apply_newest hall]
      refine ⟨fun hb => doOp_blocked (hb.resolve_right hnone), fun hb => doOp_free ?_⟩
      exact fun hblocked => hb (Or.inl hblocked)
    · -- it goes in below the latest one, which is done again
      rw [before_push hlt.le] at hsteady ⊢
      rw [apply_push hlt, overtaken_push hs hm hlt]
      obtain ⟨hstay, hput⟩ := ih (fun e he => hnew e (List.mem_cons_of_mem m he))
        (hsteady.imp_right (Steady.pop hm))
      by_cases hold : o.Blocked (before s.moves o) ∨ Overtaken s.moves o
      · have htree : ((s.apply o).push m).tree = (s.push m).tree :=
          congrArg (fun t => doOp t m) (hstay hold)
        exact ⟨fun _ => htree, fun hb => absurd (hold.imp_right Or.inr) hb⟩
      · -- the two trees differ at the node, and so do those after the latest move
        have hiff := (hsteady.resolve_left fun hb => hold (Or.inl hb)) m List.mem_cons_self hlt
        rw [older_push le_rfl, older_newest hm, before_push le_rfl, before_newest hs hm] at hiff
        replace hiff := hiff.resolve_left fun hov => hold (Or.inr hov)
        have htree : ((s.apply o).push m).tree =
            doOp (Function.update s.tree o.child (some ⟨o.parent, o.metadata⟩)) m :=
          congrArg (fun t => doOp t m) (hput hold)
        have hpush : (s.push m).tree = doOp s.tree m := rfl
        rw [htree, hpush]
        by_cases hb : m.Blocked s.tree
        · rw [doOp_blocked hb, doOp_blocked (hiff.2 hb)]
          refine ⟨fun hov => absurd ?_ hold, fun _ => rfl⟩
          exact hov.imp_right fun hov => hov.resolve_left fun hov => hov.2 hb
        · rw [doOp_free hb, doOp_free (mt hiff.1 hb)]
          by_cases hchild : m.child = o.child
          · refine ⟨fun _ => ?_, fun hov => absurd (Or.inr (Or.inl ⟨hchild, hb⟩)) hov⟩
            rw [hchild, Function.update_idem]
          · refine ⟨fun hov => absurd ?_ hold, fun _ => ?_⟩
            · exact hov.imp_right fun hov => hov.resolve_left fun hov => hchild hov.1
            · exact Function.update_comm (Ne.symm hchild) _ _ _

end Ops

end MoveTree
