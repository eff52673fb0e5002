import Edfs.Base.MoveTree
import Mathlib.Data.List.AList

/-!
# Move trees that compute

A replica of `MoveTree` that keeps its nodes in a finite map, so that whether a move is blocked
can be decided by climbing from the new parent.

* `climbs`, which forgets each node it leaves and so needs no more steps than there are nodes;
  `climbs_iff`: it finds exactly the ancestors;
* `Replica.applyOp` and `Replica.state_applyOp`: the replica simulates `State.apply`.
-/

namespace MoveTree

variable {Ts Id Meta : Type} [DecidableEq Id]

/-- The nodes of a finite tree. -/
abbrev Nodes (Id Meta : Type) := AList fun _ : Id => Node Id Meta

/-- The lookup of a finite tree. -/
def Nodes.tree (t : Nodes Id Meta) : Tree Id Meta := fun x => t.lookup x

/-- Whether `c` is reached by climbing from `x`. -/
def climbs (c : Id) : ℕ → Nodes Id Meta → Id → Bool
  | 0, _, _ => false
  | fuel + 1, t, x =>
    match t.lookup x with
    | none => false
    | some n => n.parent = c || climbs c fuel (t.erase x) n.parent

/-! ### Climbing finds the ancestors -/

theorem edge_erase {t : Nodes Id Meta} {p x a : Id} :
    (Nodes.tree (t.erase p)).Edge x a ↔ x ≠ p ∧ t.tree.Edge x a := by
  unfold Tree.Edge Nodes.tree
  by_cases hx : x = p
  · subst hx; simp
  · simp [hx, AList.lookup_erase_ne hx]

/-- A path to `c` either keeps clear of `p` or has a tail that leaves `p` for good. -/
theorem ancestor_erase {t : Nodes Id Meta} {p a c x : Id} (hp : t.tree.Edge p a)
    (h : t.tree.Ancestor x c) :
    (Nodes.tree (t.erase p)).Ancestor x c ∨ a = c ∨ (Nodes.tree (t.erase p)).Ancestor a c := by
  have parent_unique : ∀ {b}, t.tree.Edge p b → a = b := fun hb => by
    unfold Tree.Edge at hp hb
    rw [hp] at hb
    exact Option.some.inj hb
  induction h using Relation.TransGen.head_induction_on with
  | @single x hx =>
    by_cases hxp : x = p
    · subst hxp
      exact Or.inr (Or.inl (parent_unique hx))
    · exact Or.inl (.single (edge_erase.2 ⟨hxp, hx⟩))
  | @head x y hx _ ih =>
    rcases ih with ih | ih
    · by_cases hxp : x = p
      · subst hxp
        exact Or.inr (Or.inr (parent_unique hx ▸ ih))
      · exact Or.inl (.head (edge_erase.2 ⟨hxp, hx⟩) ih)
    · exact Or.inr ih

theorem length_keys_erase {t : Nodes Id Meta} {x : Id} (h : x ∈ t) :
    (t.erase x).keys.length + 1 = t.keys.length := by
  rw [AList.keys_erase, List.length_erase_of_mem (AList.mem_keys.1 h)]
  exact Nat.succ_pred_eq_of_pos (List.length_pos_of_mem (AList.mem_keys.1 h))

theorem ancestor_mono {t : Nodes Id Meta} {p x a : Id}
    (h : (Nodes.tree (t.erase p)).Ancestor x a) : t.tree.Ancestor x a :=
  Relation.TransGen.mono (fun _ _ h => (edge_erase.1 h).2) _ _ h

/-- **With fuel for every node, climbing finds exactly the ancestors.** -/
theorem climbs_iff (c : Id) {fuel : ℕ} {t : Nodes Id Meta} (hfuel : t.keys.length ≤ fuel)
    (x : Id) : climbs c fuel t x ↔ t.tree.Ancestor x c := by
  induction fuel generalizing t x with
  | zero =>
    refine iff_of_false (by simp [climbs]) fun h => ?_
    obtain ⟨b, hb, -⟩ := Relation.TransGen.head'_iff.1 h
    have hx : x ∈ t := by
      refine AList.lookup_isSome.1 ?_
      unfold Tree.Edge Nodes.tree at hb
      cases hl : t.lookup x <;> simp_all
    have := List.length_pos_of_mem (AList.mem_keys.1 hx)
    omega
  | succ fuel ih =>
    unfold climbs
    cases hl : t.lookup x with
    | none =>
      exact iff_of_false (by simp) (Tree.not_ancestor_of_none hl c)
    | some n =>
      have hx : x ∈ t := AList.lookup_isSome.1 (by simp [hl])
      have hedge : t.tree.Edge x n.parent := by simp [Tree.Edge, Nodes.tree, hl]
      have hlen := length_keys_erase hx
      have hrec := ih (t := t.erase x) (by omega) n.parent
      simp only [Bool.or_eq_true, decide_eq_true_eq, hrec]
      constructor
      · rintro (rfl | h)
        · exact .single hedge
        · exact .head hedge (ancestor_mono h)
      · intro h
        rcases ancestor_erase hedge h with h | h
        · -- a path from `x` cannot keep clear of it
          obtain ⟨b, hb, -⟩ := Relation.TransGen.head'_iff.1 h
          exact absurd rfl (edge_erase.1 hb).1
        · exact h

/-! ### The replica -/

/-- A replica that computes: its log, latest first, and its nodes. -/
structure Replica (Ts Id Meta : Type) where
  log : List (LogMove Ts Id Meta)
  nodes : Nodes Id Meta

namespace Replica

def empty : Replica Ts Id Meta := ⟨[], ∅⟩

/-- The replica as a state of the machine. -/
def state (r : Replica Ts Id Meta) : State Ts Id Meta := ⟨r.log, r.nodes.tree⟩

/-- Whether a move is blocked. -/
def blocked (t : Nodes Id Meta) (m : Move Ts Id Meta) : Bool :=
  m.child = m.parent || climbs m.child t.keys.length t m.parent

def doOp (t : Nodes Id Meta) (m : Move Ts Id Meta) : Nodes Id Meta :=
  if blocked t m then t else t.insert m.child ⟨m.parent, m.metadata⟩

def undoOp (t : Nodes Id Meta) (e : LogMove Ts Id Meta) : Nodes Id Meta :=
  match e.oldp with
  | none => t.erase e.child
  | some n => t.insert e.child n

def push (r : Replica Ts Id Meta) (m : Move Ts Id Meta) : Replica Ts Id Meta :=
  ⟨{ m with oldp := r.nodes.lookup m.child } :: r.log, doOp r.nodes m⟩

/-- Insert a move below the later entries of the log. -/
def applyOp [LinearOrder Ts] (m : Move Ts Id Meta) :
    List (LogMove Ts Id Meta) → Nodes Id Meta → Replica Ts Id Meta
  | [], t => push ⟨[], t⟩ m
  | e :: es, t =>
    if m.timestamp < e.timestamp then (applyOp m es (undoOp t e)).push e.toMove
    else if m.timestamp = e.timestamp then ⟨e :: es, t⟩
    else push ⟨e :: es, t⟩ m

/-- The nodes under a parent. -/
def children (r : Replica Ts Id Meta) (p : Id) : List Id :=
  r.nodes.keys.filter fun c => (r.nodes.lookup c).any fun n => n.parent = p

@[simp] theorem state_empty :
    (empty : Replica Ts Id Meta).state = State.empty := rfl

theorem tree_insert (t : Nodes Id Meta) (x : Id) (n : Node Id Meta) :
    Nodes.tree (t.insert x n) = Function.update t.tree x (some n) := by
  funext y
  by_cases hy : y = x
  · subst hy; simp [Nodes.tree]
  · simp [Nodes.tree, AList.lookup_insert_ne hy, Function.update_of_ne hy]

theorem tree_erase (t : Nodes Id Meta) (x : Id) :
    Nodes.tree (t.erase x) = Function.update t.tree x none := by
  funext y
  by_cases hy : y = x
  · subst hy; simp [Nodes.tree]
  · simp [Nodes.tree, AList.lookup_erase_ne hy, Function.update_of_ne hy]

theorem blocked_iff (t : Nodes Id Meta) (m : Move Ts Id Meta) :
    blocked t m ↔ m.Blocked t.tree := by
  simp [blocked, Move.Blocked, climbs_iff m.child le_rfl]

theorem tree_doOp (t : Nodes Id Meta) (m : Move Ts Id Meta) :
    (doOp t m).tree = MoveTree.doOp t.tree m := by
  unfold doOp
  split_ifs with hb
  · rw [doOp_blocked ((blocked_iff t m).1 hb)]
  · rw [doOp_free (mt (blocked_iff t m).2 hb), tree_insert]

theorem tree_undoOp (t : Nodes Id Meta) (e : LogMove Ts Id Meta) :
    (undoOp t e).tree = MoveTree.undoOp t.tree e := by
  unfold undoOp MoveTree.undoOp
  cases e.oldp with
  | none => exact tree_erase t e.child
  | some n => exact tree_insert t e.child n

theorem state_push (r : Replica Ts Id Meta) (m : Move Ts Id Meta) :
    (r.push m).state = r.state.push m := by
  rw [state, push, tree_doOp]
  rfl

/-- **The replica simulates the machine.** -/
theorem state_applyOp [LinearOrder Ts] (m : Move Ts Id Meta) (es : List (LogMove Ts Id Meta))
    (t : Nodes Id Meta) : (applyOp m es t).state = MoveTree.applyOp m es t.tree := by
  induction es generalizing t with
  | nil => exact state_push ⟨[], t⟩ m
  | cons e es ih =>
    unfold applyOp MoveTree.applyOp
    split_ifs
    · rw [state_push, ih, tree_undoOp]
    · rfl
    · exact state_push ⟨e :: es, t⟩ m

theorem children_nodup (r : Replica Ts Id Meta) (p : Id) :
    (r.children p).Nodup := (AList.keys_nodup r.nodes).filter _

theorem mem_children (r : Replica Ts Id Meta) (p c : Id) :
    c ∈ r.children p ↔ r.state.tree.Edge c p := by
  unfold children Tree.Edge state Nodes.tree
  rw [List.mem_filter, ← AList.mem_keys, ← AList.lookup_isSome]
  cases hl : r.nodes.lookup c <;> simp [hl]

end Replica

end MoveTree
