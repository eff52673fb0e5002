import Edfs.Base.Execution
import Edfs.Filesystem.Tree.NodeTree

/-!
# Batching operations for the network

`network/network_bridge.rs`: the file system's operations go through a bounded channel to a task
that gathers them, until it has a full batch or has been idle for a while, and sends them on to the
swarm, cut into commands of limited size. The deadline, the closing of either channel and the
calls of `broadcast` may come at any moment.

* `BatchTask`, `NetworkBridge`, `BridgeEvent` and `step`;
* `Conserves`: what has been sent and what is gathered is what has been received; `conserves_step`:
  every event keeps it;
* `run_sending`: the loop that cuts the batch ends;
* `batching_conserves`, about all runs.
-/

namespace Edfs

open Execution

def maxBatchOperations : ℕ := 64

/-- The capacity of the channel of operations. -/
def operationsCapacity : ℕ := 256

variable {PeerId : Type}

/-- Where the batching task is: in `rx.recv` of the outer loop, in the `select!` of the gathering
loop, or before a round of the loop that cuts the batch. -/
inductive BatchTask (PeerId : Type)
  | receiving
  | gathering (batch : List (NodeOperation PeerId))
  | sending (batch : List (NodeOperation PeerId))
  | ended

/-- The two channels and the task between them. -/
structure NetworkBridge (PeerId : Type) where
  /-- The vectors in the channel of operations, oldest first. -/
  operations : List (List (NodeOperation PeerId))
  /-- Every sender of that channel has been dropped. -/
  closed : Bool
  swarmOpen : Bool
  task : BatchTask PeerId
  /-- The vectors the task has received. -/
  received : List (List (NodeOperation PeerId))
  /-- The operations of the `BroadcastOperations` commands it has sent. -/
  commands : List (List (NodeOperation PeerId))

inductive BridgeEvent (PeerId : Type)
  | broadcast (operations : List (NodeOperation PeerId))
  | close
  | closeSwarm
  | receive
  | deadline
  | send

namespace NetworkBridge

def new : NetworkBridge PeerId := ⟨[], false, true, .receiving, [], []⟩

/-- The head of the gathering loop. -/
def gather (batch : List (NodeOperation PeerId)) : BatchTask PeerId :=
  if batch.length < maxBatchOperations then .gathering batch else .sending batch

/-- `broadcast`; it waits while the channel is full. An empty vector is not sent, and the error when
the task has ended is ignored. -/
def broadcast (operations : List (NodeOperation PeerId)) (b : NetworkBridge PeerId) :
    Option (NetworkBridge PeerId) :=
  match b.closed, operations, b.task with
  | true, _, _ => none
  | false, [], _ => some b
  | false, _ :: _, .ended => some b
  | false, _ :: _, _ =>
    if b.operations.length < operationsCapacity then
      some { b with operations := b.operations ++ [operations] }
    else none

/-- `rx.recv`. It has no result only when the channel is closed and empty: that ends the outer loop,
and disables the branch of the `select!`. -/
def receive (b : NetworkBridge PeerId) : Option (NetworkBridge PeerId) :=
  match b.task, b.operations with
  | .receiving, operations :: rest =>
    some { b with
      operations := rest
      task := gather operations
      received := b.received ++ [operations] }
  | .receiving, [] => if b.closed then some { b with task := .ended } else none
  | .gathering batch, operations :: rest =>
    some { b with
      operations := rest
      task := gather (batch ++ operations)
      received := b.received ++ [operations] }
  | _, _ => none

/-- A round of the loop that cuts the batch; when the swarm is gone the task returns. -/
def send (b : NetworkBridge PeerId) : Option (NetworkBridge PeerId) :=
  match b.task with
  | .sending [] => some { b with task := .receiving }
  | .sending (op :: rest) =>
    let batch := op :: rest
    let count := min batch.length maxBatchOperations
    let remaining := batch.drop count
    let operations := batch.take count
    if b.swarmOpen then
      some { b with
        task := .sending remaining
        commands := b.commands ++ [operations] }
    else some { b with task := .ended }
  | _ => none

def step : BridgeEvent PeerId → NetworkBridge PeerId → Option (NetworkBridge PeerId)
  | .broadcast operations, b => b.broadcast operations
  | .close, b => some { b with closed := true }
  | .closeSwarm, b => some { b with swarmOpen := false }
  | .receive, b => b.receive
  | .deadline, b =>
    match b.task with
    | .gathering batch => some { b with task := .sending batch }
    | _ => none
  | .send, b => b.send

/-! ### Conservation -/

end NetworkBridge

/-- What the task holds. -/
def BatchTask.batch : BatchTask PeerId → List (NodeOperation PeerId)
  | .gathering batch | .sending batch => batch
  | _ => []

@[simp] theorem BatchTask.batch_receiving : (receiving : BatchTask PeerId).batch = [] := rfl
@[simp] theorem BatchTask.batch_gathering (batch : List (NodeOperation PeerId)) :
    (gathering batch).batch = batch := rfl
@[simp] theorem BatchTask.batch_sending (batch : List (NodeOperation PeerId)) :
    (sending batch).batch = batch := rfl
@[simp] theorem BatchTask.batch_ended : (ended : BatchTask PeerId).batch = [] := rfl

/-- The operations a caller hands over. -/
def BridgeEvent.offered : BridgeEvent PeerId → List (NodeOperation PeerId)
  | .broadcast operations => operations
  | _ => []

namespace NetworkBridge

variable {b b' : NetworkBridge PeerId}

@[simp] theorem batch_gather (batch : List (NodeOperation PeerId)) :
    (gather batch).batch = batch := by
  unfold gather
  split_ifs <;> rfl

theorem gather_ne_ended (batch : List (NodeOperation PeerId)) : gather batch ≠ .ended := by
  unfold gather
  split_ifs <;> nofun

/-- A cut of a batch is a command of proper size. -/
theorem sendable (op : NodeOperation PeerId) (rest : List (NodeOperation PeerId)) :
    (op :: rest).take (min (op :: rest).length maxBatchOperations) ≠ [] ∧
      ((op :: rest).take (min (op :: rest).length maxBatchOperations)).length
        ≤ maxBatchOperations := by
  constructor
  · simp [maxBatchOperations]
  · rw [List.length_take]
    omega

/-- What has been sent and what the task holds is what it has received, in order; and with what is
still in the channel it is all that callers have offered. -/
structure Conserves (offered : List (NodeOperation PeerId)) (b : NetworkBridge PeerId) : Prop where
  sizes : ∀ operations ∈ b.commands,
    operations ≠ [] ∧ operations.length ≤ maxBatchOperations
  received : b.swarmOpen = true → b.commands.flatten ++ b.task.batch = b.received.flatten
  offered : b.swarmOpen = true → b.received.flatten ++ b.operations.flatten = offered
  ended : b.swarmOpen = true → b.task = .ended → b.closed = true

theorem conserves_new : Conserves [] (new : NetworkBridge PeerId) :=
  ⟨by simp [new], fun _ => rfl, fun _ => rfl, fun _ h => nomatch h⟩

variable {offered : List (NodeOperation PeerId)}

theorem conserves_broadcast {operations : List (NodeOperation PeerId)} (h : b.Conserves offered)
    (hstep : b.broadcast operations = some b') : b'.Conserves (offered ++ operations) := by
  unfold broadcast at hstep
  split at hstep
  · cases hstep
  · cases hstep
    simpa using h
  · rename_i hclosed hended
    cases hstep
    -- the task ends with the swarm open only after the channel is closed
    have hgone : b.swarmOpen ≠ true := fun hopen => by
      simpa [hclosed] using h.ended hopen hended
    exact ⟨h.sizes, h.received, fun hopen => absurd hopen hgone, h.ended⟩
  · split_ifs at hstep
    cases hstep
    refine ⟨h.sizes, h.received, fun hopen => ?_, h.ended⟩
    rw [← h.offered hopen]
    simp

theorem conserves_receive (h : b.Conserves offered) (hstep : b.receive = some b') :
    b'.Conserves offered := by
  unfold receive at hstep
  split at hstep
  · rename_i operations rest htask hops
    cases hstep
    refine ⟨h.sizes, fun hopen => ?_, fun hopen => ?_, fun _ hended =>
      absurd hended (gather_ne_ended operations)⟩
    · have hreceived := h.received hopen
      rw [htask] at hreceived
      simp [← hreceived]
    · simp [← h.offered hopen, hops]
  · rename_i htask hops
    split_ifs at hstep with hclosed
    cases hstep
    refine ⟨h.sizes, fun hopen => ?_, h.offered, fun _ _ => hclosed⟩
    have hreceived := h.received hopen
    rwa [htask] at hreceived
  · rename_i batch operations rest htask hops
    cases hstep
    refine ⟨h.sizes, fun hopen => ?_, fun hopen => ?_, fun _ hended =>
      absurd hended (gather_ne_ended _)⟩
    · have hreceived := h.received hopen
      rw [htask] at hreceived
      simp [← hreceived]
    · simp [← h.offered hopen, hops]
  · cases hstep

theorem conserves_send (h : b.Conserves offered) (hstep : b.send = some b') :
    b'.Conserves offered := by
  unfold send at hstep
  split at hstep
  · rename_i htask
    cases hstep
    refine ⟨h.sizes, fun hopen => ?_, h.offered, nofun⟩
    have hreceived := h.received hopen
    rwa [htask] at hreceived
  · rename_i op rest htask
    dsimp only at hstep
    split_ifs at hstep with hopen
    · cases hstep
      refine ⟨fun operations hmem => ?_, fun _ => ?_, h.offered, nofun⟩
      · rcases List.mem_append.1 hmem with hmem | hmem
        · exact h.sizes operations hmem
        · obtain rfl := List.mem_singleton.1 hmem
          exact sendable op rest
      · have hreceived := h.received hopen
        rw [htask] at hreceived
        simp [← hreceived]
    · cases hstep
      exact ⟨h.sizes, fun h => absurd h hopen, fun h => absurd h hopen, fun h => absurd h hopen⟩
  · cases hstep

/-- **Every event conserves.** -/
theorem conserves_step {e : BridgeEvent PeerId} (h : b.Conserves offered)
    (hstep : step e b = some b') : b'.Conserves (offered ++ e.offered) := by
  cases e with
  | broadcast operations => exact conserves_broadcast h hstep
  | close =>
    cases hstep
    simp only [BridgeEvent.offered, List.append_nil]
    exact ⟨h.sizes, h.received, h.offered, fun _ _ => rfl⟩
  | closeSwarm =>
    cases hstep
    exact ⟨h.sizes, nofun, nofun, nofun⟩
  | receive => simpa [BridgeEvent.offered] using conserves_receive h hstep
  | deadline =>
    simp only [step] at hstep
    split at hstep
    · rename_i batch htask
      cases hstep
      simp only [BridgeEvent.offered, List.append_nil]
      refine ⟨h.sizes, fun hopen => ?_, h.offered, nofun⟩
      have hreceived := h.received hopen
      rwa [htask] at hreceived
    · cases hstep
  | send => simpa [BridgeEvent.offered] using conserves_send h hstep

/-! ### The loop that cuts the batch -/

/-- **The loop ends**: with the swarm open, the batch is cut in as many rounds as it has commands,
and the task receives again. -/
theorem run_sending {batch : List (NodeOperation PeerId)} (htask : b.task = .sending batch)
    (hopen : b.swarmOpen = true) :
    ∃ b', run step (List.replicate ((batch.length + 63) / 64 + 1) .send) b = some b' ∧
      b'.task = .receiving ∧ b'.commands.flatten = b.commands.flatten ++ batch := by
  induction hn : (batch.length + 63) / 64 generalizing b batch with
  | zero =>
    have hempty : batch = [] := List.length_eq_zero_iff.1 (by omega)
    subst hempty
    refine ⟨{ b with task := .receiving }, ?_, rfl, (List.append_nil _).symm⟩
    simp [step, send, htask]
  | succ n ih =>
    obtain ⟨op, rest, rfl⟩ : ∃ op rest, batch = op :: rest :=
      List.exists_cons_of_ne_nil fun h => by simp [h] at hn
    set count := min (op :: rest).length maxBatchOperations with hcount
    -- what is left needs one round less
    have hleft : (((op :: rest).drop count).length + 63) / 64 = n := by
      rw [List.length_drop, hcount, maxBatchOperations]
      omega
    set cut : NetworkBridge PeerId := { b with
      task := .sending ((op :: rest).drop count)
      commands := b.commands ++ [(op :: rest).take count] } with hcut
    have hsend : step .send b = some cut := by
      simp only [step, send, htask]
      exact if_pos hopen
    obtain ⟨b', hrun, hdone, hflat⟩ := ih (show cut.task = .sending _ from rfl) hopen hleft
    refine ⟨b', ?_, hdone, ?_⟩
    · rw [List.replicate_succ, run_cons, hsend]
      exact hrun
    · rw [hflat, hcut]
      simp

/-- **Batching loses, repeats and reorders nothing.** -/
theorem batching_conserves {events : List (BridgeEvent PeerId)}
    (h : run step events new = some b) :
    (∀ operations ∈ b.commands, operations ≠ [] ∧ operations.length ≤ maxBatchOperations) ∧
    (b.swarmOpen = true → b.task = .receiving ∨ b.task = .ended →
      b.commands.flatten = b.received.flatten) ∧
    (b.swarmOpen = true → b.received.flatten ++ b.operations.flatten
      = events.flatMap BridgeEvent.offered) ∧
    ∀ batch, b.task = .sending batch → b.swarmOpen = true →
      ∃ b', run step (List.replicate ((batch.length + 63) / 64 + 1) .send) b = some b' ∧
        b'.task = .receiving := by
  have hconserves : b.Conserves (events.flatMap BridgeEvent.offered) := by
    refine run_rec (P := fun events (b : NetworkBridge PeerId) =>
      b.Conserves (events.flatMap BridgeEvent.offered)) conserves_new ?_ h
    intro events b e b' _ ih hstep
    simpa using conserves_step ih hstep
  refine ⟨hconserves.sizes, fun hopen hidle => ?_, hconserves.offered, fun batch htask hopen => ?_⟩
  · have hreceived := hconserves.received hopen
    rcases hidle with hidle | hidle <;> rw [hidle] at hreceived <;> simpa using hreceived
  · obtain ⟨b', hrun, hdone, -⟩ := run_sending htask hopen
    exact ⟨b', hrun, hdone⟩

def creation : NodeOperation ℕ := ⟨⟨1, 0⟩, .root, .directory "a", ⟨7⟩⟩

/-- Sixty-five operations: the gathering loop ends at once, and the batch is cut in two. -/
theorem batching_conserves_two :
    ∃ b, run step [.broadcast (List.replicate 65 creation), .receive, .send, .send, .send] new
        = some b ∧ b.commands.flatten = b.received.flatten := by
  obtain ⟨b, h, htask, hopen⟩ : ∃ b, run step [.broadcast (List.replicate 65 creation), .receive,
      .send, .send, .send] new = some b ∧ b.task = .receiving ∧ b.swarmOpen = true :=
    ⟨_, rfl, rfl, rfl⟩
  exact ⟨b, h, (batching_conserves h).2.1 hopen (.inl htask)⟩

end NetworkBridge

end Edfs
