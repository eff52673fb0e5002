import Edfs.Base.MoveTree
import Edfs.Domain
import Edfs.Filesystem.Tree.Hlc
import Mathlib.Data.Prod.Lex

/-!
# The metadata tree

`filesystem/tree/mod.rs` over the `crdt_tree` crate. The crate is a parameter: `CrdtTree` is the
interface the code uses, `LawfulCrdtTree` what the crate documents of it, namely that a replica's
log and tree are those of a `MoveTree` state and that `children` lists each child once, in an
order of its own.

* `NodeTree` and its operations, as the source computes them;
* `NodeTree.Sound`, a replica's log and tree built by the documented machine;
* `Fresh` and `Newest`, what is assumed of an issued timestamp, and what an issued operation does
  to the log and to the tree under each.
-/

namespace Edfs

/-- `crdt_tree::Clock`: ordered by the counter, then by the actor. -/
@[ext] structure Clock (PeerId : Type) where
  counter : ℕ
  actorId : PeerId
  deriving DecidableEq

instance {PeerId : Type} [LinearOrder PeerId] : LinearOrder (Clock PeerId) :=
  LinearOrder.lift' (fun c => toLex (c.counter, c.actorId)) fun a b h => by
    have h' := toLex.injective h
    exact Clock.ext (Prod.ext_iff.1 h').1 (Prod.ext_iff.1 h').2

theorem Clock.lt_of_counter_lt {PeerId : Type} [LinearOrder PeerId] {a b : Clock PeerId}
    (h : a.counter < b.counter) : a < b := Prod.Lex.toLex_lt_toLex.2 (Or.inl h)

/-- `OpMove<NodeId, NodeMeta, PeerId>`. -/
abbrev NodeOperation (PeerId : Type) := MoveTree.Move (Clock PeerId) NodeId NodeMeta

/-- Whether operations have all been issued can be evaluated. -/
instance {PeerId : Type} [DecidableEq PeerId] (ops issued : List (NodeOperation PeerId)) :
    Decidable (∀ op ∈ ops, op ∈ issued) := List.decidableBAll _ _

abbrev NodeOperationId (PeerId : Type) := PeerId × ℕ

/-- The id of an operation: who issued it, with which counter. -/
def operationId {PeerId : Type} (op : NodeOperation PeerId) : NodeOperationId PeerId :=
  (op.timestamp.actorId, op.timestamp.counter)

theorem operationId_inj {PeerId : Type} {a b : NodeOperation PeerId} :
    operationId a = operationId b ↔ a.timestamp = b.timestamp := by
  rw [Clock.ext_iff, operationId, operationId, Prod.ext_iff, and_comm]

/-- The part of `crdt_tree::TreeReplica` the code uses. -/
class CrdtTree (PeerId : Type) where
  TreeReplica : Type
  new : PeerId → TreeReplica
  applyOp : TreeReplica → NodeOperation PeerId → TreeReplica
  log : TreeReplica → List (MoveTree.LogMove (Clock PeerId) NodeId NodeMeta)
  find : TreeReplica → NodeId → Option (MoveTree.Node NodeId NodeMeta)
  children : TreeReplica → NodeId → List NodeId

/-- A replica's log and tree, as a state of the documented machine. -/
def CrdtTree.state {PeerId : Type} [CrdtTree PeerId] (r : TreeReplica PeerId) :
    MoveTree.State (Clock PeerId) NodeId NodeMeta := ⟨log r, find r⟩

/-- What the crate documents: `apply_op` keeps the log in timestamp order by undoing the later
moves, doing the new one and redoing the rest; and `children` lists the nodes under a parent. -/
class LawfulCrdtTree (PeerId : Type) [LinearOrder PeerId] [CrdtTree PeerId] : Prop where
  state_new : ∀ p : PeerId, CrdtTree.state (CrdtTree.new p) = MoveTree.State.empty
  state_applyOp : ∀ (r : CrdtTree.TreeReplica PeerId) (op : NodeOperation PeerId),
    CrdtTree.state (CrdtTree.applyOp r op) = (CrdtTree.state r).apply op
  children_nodup : ∀ (r : CrdtTree.TreeReplica PeerId) (p : NodeId),
    (CrdtTree.children r p).Nodup
  mem_children : ∀ (r : CrdtTree.TreeReplica PeerId) (p c : NodeId),
    c ∈ CrdtTree.children r p ↔ (CrdtTree.state r).tree.Edge c p

inductive NodeTreeError
  | notFound
  | reservedNode
  deriving DecidableEq

structure NodeTree (PeerId : Type) [CrdtTree PeerId] where
  peerId : PeerId
  tree : CrdtTree.TreeReplica PeerId
  clock : HybridLogicalClock

namespace NodeTree

variable {PeerId : Type} [CrdtTree PeerId]

def new (peerId : PeerId) : NodeTree PeerId := ⟨peerId, CrdtTree.new peerId, .new⟩

def find (t : NodeTree PeerId) (n : NodeId) : Option (MoveTree.Node NodeId NodeMeta) :=
  CrdtTree.find t.tree n

def metadata (t : NodeTree PeerId) (n : NodeId) : Option NodeMeta :=
  (t.find n).map MoveTree.Node.metadata

def parentId (t : NodeTree PeerId) (n : NodeId) : Option NodeId :=
  (t.find n).map MoveTree.Node.parent

def children (t : NodeTree PeerId) (p : NodeId) : Except NodeTreeError (List NodeId) :=
  if p.isReserved = false ∧ t.find p = none then .error .notFound
  else .ok (CrdtTree.children t.tree p)

def isTrashed (t : NodeTree PeerId) (n : NodeId) : Bool := t.parentId n = some NodeId.trash

/-- Issue a timestamp at wall-clock time `now` and make the operation. -/
def moveOperation (t : NodeTree PeerId) (now : ℕ) (n parent : NodeId) (m : NodeMeta) :
    NodeOperation PeerId × NodeTree PeerId :=
  let (counter, clock) := t.clock.next now
  (⟨⟨counter, t.peerId⟩, parent, m, n⟩, { t with clock := clock })

/-- Make an operation and apply it; the tail of `create_node`, `move_node` and `delete_node`. -/
def issue (t : NodeTree PeerId) (now : ℕ) (n parent : NodeId) (m : NodeMeta) :
    NodeOperation PeerId × NodeTree PeerId :=
  let (op, t) := t.moveOperation now n parent m
  (op, { t with tree := CrdtTree.applyOp t.tree op })

def createNode (t : NodeTree PeerId) (now : ℕ) (parent n : NodeId) (m : NodeMeta) :
    NodeOperation PeerId × NodeTree PeerId :=
  t.issue now n parent m

def moveNode (t : NodeTree PeerId) (now : ℕ) (n parent : NodeId) (m : NodeMeta) :
    Except NodeTreeError (NodeOperation PeerId) × NodeTree PeerId :=
  if (t.metadata n).isNone then (.error .notFound, t)
  else
    let (op, t) := t.issue now n parent m
    (.ok op, t)

def deleteNode (t : NodeTree PeerId) (now : ℕ) (n : NodeId) :
    Except NodeTreeError (NodeOperation PeerId) × NodeTree PeerId :=
  if n.isReserved then (.error .reservedNode, t)
  else
    match t.metadata n with
    | none => (.error .notFound, t)
    | some m =>
      let (op, t) := t.issue now n NodeId.trash m
      (.ok op, t)

/-- Observe every timestamp of a batch, then apply its operations; `now` are the wall-clock
readings of the observations. -/
def applyOperations (t : NodeTree PeerId) (now : ℕ → ℕ) (ops : List (NodeOperation PeerId)) :
    NodeTree PeerId :=
  { t with
    clock := ops.zipIdx.foldl (fun c p => c.observe (now p.2) p.1.timestamp.counter) t.clock
    tree := ops.foldl CrdtTree.applyOp t.tree }

def operationIds (t : NodeTree PeerId) : List (NodeOperationId PeerId) :=
  (CrdtTree.log t.tree).map fun e => operationId e.toMove

def operationsMissingFrom [DecidableEq PeerId] (t : NodeTree PeerId)
    (ids : List (NodeOperationId PeerId)) : List (NodeOperation PeerId) :=
  ((CrdtTree.log t.tree).filter fun e => operationId e.toMove ∉ ids).map MoveTree.LogMove.toMove

/-! ### The replica as a move tree -/

/-- The log and the tree of a replica. -/
def state (t : NodeTree PeerId) : MoveTree.State (Clock PeerId) NodeId NodeMeta :=
  CrdtTree.state t.tree

/-- The operations in the log. -/
def moves (t : NodeTree PeerId) : List (NodeOperation PeerId) := t.state.moves

theorem find_eq (t : NodeTree PeerId) : t.find = t.state.tree := rfl

theorem operationIds_eq (t : NodeTree PeerId) : t.operationIds = t.moves.map operationId := by
  simp [operationIds, moves, state, CrdtTree.state, MoveTree.State.moves, Function.comp_def]

theorem mem_operationsMissingFrom [DecidableEq PeerId] {t : NodeTree PeerId}
    {ids : List (NodeOperationId PeerId)} {op : NodeOperation PeerId} :
    op ∈ t.operationsMissingFrom ids ↔ op ∈ t.moves ∧ operationId op ∉ ids := by
  simp only [operationsMissingFrom, moves, state, CrdtTree.state, MoveTree.State.moves,
    List.mem_map, List.mem_filter, decide_eq_true_eq]
  constructor
  · rintro ⟨e, ⟨he, hid⟩, rfl⟩
    exact ⟨⟨e, he, rfl⟩, hid⟩
  · rintro ⟨⟨e, he, rfl⟩, hid⟩
    exact ⟨e, ⟨he, hid⟩, rfl⟩

theorem edge_iff (t : NodeTree PeerId) (c p : NodeId) :
    t.state.tree.Edge c p ↔ ∃ m, t.find c = some ⟨p, m⟩ := by
  unfold MoveTree.Tree.Edge
  rw [← find_eq]
  rcases t.find c with _ | ⟨q, m⟩ <;> simp

/-- The operation the tree issues. -/
theorem issue_fst (t : NodeTree PeerId) (now : ℕ) (n parent : NodeId) (m : NodeMeta) :
    (t.issue now n parent m).1 = ⟨⟨(t.clock.next now).1, t.peerId⟩, parent, m, n⟩ := rfl

theorem issue_clock (t : NodeTree PeerId) (now : ℕ) (n parent : NodeId) (m : NodeMeta) :
    (t.issue now n parent m).2.clock = t.clock.tick now := rfl

/-- The timestamp issued next is not in the log yet. -/
def Fresh (t : NodeTree PeerId) (now : ℕ) : Prop :=
  ∀ e ∈ t.moves, e.timestamp ≠ ⟨(t.clock.next now).1, t.peerId⟩

/-- The timestamp issued next is newer than the log. -/
def Newest [LinearOrder PeerId] (t : NodeTree PeerId) (now : ℕ) : Prop :=
  ∀ e ∈ t.moves, e.timestamp < ⟨(t.clock.next now).1, t.peerId⟩

instance [DecidableEq PeerId] (t : NodeTree PeerId) (now : ℕ) : Decidable (t.Fresh now) :=
  inferInstanceAs (Decidable (∀ e ∈ t.moves, e.timestamp ≠ _))

instance [LinearOrder PeerId] (t : NodeTree PeerId) (now : ℕ) : Decidable (t.Newest now) :=
  inferInstanceAs (Decidable (∀ e ∈ t.moves, e.timestamp < _))

variable [LinearOrder PeerId]

variable [LawfulCrdtTree PeerId]

@[simp] theorem state_new (p : PeerId) : (NodeTree.new p).state = MoveTree.State.empty :=
  LawfulCrdtTree.state_new p

theorem state_issue (t : NodeTree PeerId) (now : ℕ) (n parent : NodeId) (m : NodeMeta) :
    (t.issue now n parent m).2.state = t.state.apply (t.issue now n parent m).1 :=
  LawfulCrdtTree.state_applyOp t.tree _

theorem state_foldl_applyOp (ops : List (NodeOperation PeerId))
    (r : CrdtTree.TreeReplica PeerId) :
    CrdtTree.state (ops.foldl CrdtTree.applyOp r)
      = ops.foldl MoveTree.State.apply (CrdtTree.state r) := by
  induction ops generalizing r with
  | nil => rfl
  | cons op ops ih => rw [List.foldl_cons, ih, LawfulCrdtTree.state_applyOp, List.foldl_cons]

theorem state_applyOperations (t : NodeTree PeerId) (now : ℕ → ℕ)
    (ops : List (NodeOperation PeerId)) :
    (t.applyOperations now ops).state = ops.foldl MoveTree.State.apply t.state :=
  state_foldl_applyOp ops t.tree

/-- Receiving a batch logs nothing else. -/
theorem mem_moves_applyOperations {t : NodeTree PeerId} {now : ℕ → ℕ}
    {ops : List (NodeOperation PeerId)} {op : NodeOperation PeerId}
    (h : op ∈ (t.applyOperations now ops).moves) : op ∈ ops ∨ op ∈ t.moves := by
  rw [moves, state_applyOperations] at h
  unfold moves
  generalize t.state = s at h ⊢
  induction ops generalizing s with
  | nil => exact Or.inr h
  | cons x ops ih =>
    rcases ih _ h with h | h
    · exact Or.inl (List.mem_cons_of_mem x h)
    · rcases MoveTree.mem_moves_apply h with rfl | h
      · exact Or.inl List.mem_cons_self
      · exact Or.inr h

theorem mem_crdtChildren {t : NodeTree PeerId} {p c : NodeId} :
    c ∈ CrdtTree.children t.tree p ↔ ∃ m, t.find c = some ⟨p, m⟩ :=
  (LawfulCrdtTree.mem_children t.tree p c).trans (edge_iff t c p)

/-- The log grows by exactly the issued operation. -/
theorem moves_issue_perm {t : NodeTree PeerId} {now : ℕ} (h : t.Fresh now) (n parent : NodeId)
    (m : NodeMeta) :
    (t.issue now n parent m).2.moves.Perm ((t.issue now n parent m).1 :: t.moves) := by
  rw [moves, state_issue]
  exact MoveTree.apply_moves_perm h

/-- An operation newer than the log is done on top of it. -/
theorem state_issue_newest {t : NodeTree PeerId} {now : ℕ} (h : t.Newest now)
    (n parent : NodeId) (m : NodeMeta) :
    (t.issue now n parent m).2.state = t.state.push (t.issue now n parent m).1 := by
  rw [state_issue]
  exact MoveTree.apply_newest h

theorem find_issue_newest {t : NodeTree PeerId} {now : ℕ} (h : t.Newest now)
    (n parent : NodeId) (m : NodeMeta) :
    (t.issue now n parent m).2.find = MoveTree.doOp t.find (t.issue now n parent m).1 := by
  rw [find_eq, state_issue_newest h]
  rfl

/-! ### Sound replicas -/

/-- The replica's log and tree are built by the documented machine. -/
def Sound (t : NodeTree PeerId) : Prop := MoveTree.Coherent t.state

theorem sound_new (p : PeerId) : (NodeTree.new p).Sound := by
  rw [Sound, state_new]
  exact .empty

theorem Sound.issue {t : NodeTree PeerId} (h : t.Sound) (now : ℕ) (n parent : NodeId)
    (m : NodeMeta) : (t.issue now n parent m).2.Sound := by
  rw [Sound, state_issue]
  exact MoveTree.Coherent.apply h _

theorem Sound.applyOperations {t : NodeTree PeerId} (h : t.Sound) (now : ℕ → ℕ)
    (ops : List (NodeOperation PeerId)) : (t.applyOperations now ops).Sound := by
  rw [Sound, state_applyOperations]
  exact MoveTree.Coherent.foldl h ops

omit [LawfulCrdtTree PeerId] in
theorem Sound.acyclic {t : NodeTree PeerId} (h : t.Sound) : MoveTree.Tree.Acyclic t.find :=
  MoveTree.Coherent.acyclic h

end NodeTree

end Edfs
