import Edfs.Network.ClusterClocks
import Edfs.Network.Spread

/-!
# Convergence of the cluster

When no more operations are reported and those that have been have spread, by gossip or along chains
of pulls, all nodes show the same tree. Gossip may be lost and requests may fail, as long as the
operations of each node get to each other node in one way.

* `own_run`: a node has what its calls have reported;
* `log_of_knows`: where all operations have spread to;
* `program_converges`.
-/

namespace Edfs.Network.Cluster

open Execution

variable {PeerId : Type} [CrdtTree PeerId] [LinearOrder PeerId] [PeerBytes PeerId] [UuidV5]
  [Sha256] [FastCdc] [Bincode PeerId] [LawfulCrdtTree PeerId]
  {maxPinnedBytes start : PeerId → ℕ} {events before after : List (ClusterEvent PeerId)}
  {p : PeerId} {u w w' : Cluster PeerId}

omit [LawfulCrdtTree PeerId] in
/-- Without calls nothing is reported. -/
theorem issued_run (hcall : ∀ l ∈ events, ∀ p e, l ≠ .call p e)
    (hrun : run clusterStep events u = some w) : w.issued = u.issued := by
  induction events generalizing u with
  | nil =>
    cases hrun
    rfl
  | cons l events ih =>
    obtain ⟨v, hstep, hrest⟩ := Option.bind_eq_some_iff.1 hrun
    rw [ih (fun l hl => hcall l (List.mem_cons_of_mem _ hl)) hrest]
    exact issued_of_ne_call hstep (hcall l List.mem_cons_self)

omit [PeerBytes PeerId] [Bincode PeerId] in
/-- A call logs what it reports, unless the id is taken. -/
theorem emitted_known {fs fs' : FileSystem PeerId} (hinv : fs.Inv) {e : Edfs.Event PeerId}
    (hstep : FileSystem.callStep e fs = some fs') :
    ∀ op ∈ FileSystem.emitted e fs, operationId op ∈ idsOf fs' := by
  intro op hop
  rcases FileSystem.tree_step hstep with ⟨-, hnil⟩ | ⟨n, parent, m, -, hone, ht⟩ | ⟨ops, he, -⟩
  · rw [hnil] at hop
    exact absurd hop List.not_mem_nil
  · rw [hone] at hop
    obtain ⟨x, hx, hts⟩ := (MoveTree.Coherent.timestamps_foldl hinv.sound _).2 op hop
    refine ⟨x, ?_, operationId_inj.2 hts⟩
    rw [NodeTree.moves, ht, NodeTree.state_issue]
    exact hx
  · obtain ⟨now, call⟩ := e
    obtain rfl : call = _ := he
    exact absurd hop List.not_mem_nil

/-- A node has what its calls have reported. -/
theorem own_run (hrun : run clusterStep events (init maxPinnedBytes start) = some w) :
    ∀ q, ∀ op ∈ w.issued q, operationId op ∈ w.knows q := by
  refine (run_invariant (I := fun w : Cluster PeerId => (∀ q, (w.nodes q).filesystem.Inv) ∧
    ∀ q, ∀ op ∈ w.issued q, operationId op ∈ w.knows q) ?_
    ⟨fun q => FileSystem.inv_init q _, fun _ _ h => absurd h List.not_mem_nil⟩ hrun).2
  rintro l w w' ⟨hinv, hown⟩ hstep
  have hgrows := knows_step hinv hstep
  refine ⟨inv_step hstep hinv, fun q op hop => ?_⟩
  by_cases hcall : ∃ p e, l = .call p e
  · obtain ⟨p, e, rfl⟩ := hcall
    obtain ⟨-, fs, hfs, rfl⟩ := call_eq_some hstep
    by_cases hq : q = p
    · subst hq
      simp only [Function.update_self] at hop
      rcases List.mem_append.1 hop with hold | hnew
      · exact hgrows q (hown q op hold)
      · simpa [knows] using emitted_known (hinv q) hfs op hnew
    · simp only [Function.update_of_ne hq] at hop
      exact hgrows q (hown q op hop)
  · have hissued := issued_of_ne_call hstep fun p e hl => hcall ⟨p, e, hl⟩
    exact hgrows q (hown q op (hissued ▸ hop))

variable [LawfulUuidV5] [LawfulBincode PeerId]

/-- A node that knows all ids has all operations, and nothing else. -/
theorem log_of_knows (hrun : run clusterStep events (init maxPinnedBytes start) = some w)
    (hroom : Meets clusterStep ClockRoom events (init maxPinnedBytes start))
    (hknows : ∀ q, ∀ op ∈ w.issued q, operationId op ∈ w.knows p) (op : NodeOperation PeerId) :
    op ∈ w.log p ↔ op ∈ w.issued op.timestamp.actorId := by
  refine ⟨log_traced hrun p op, fun hop => ?_⟩
  obtain ⟨op', hop', hid⟩ := hknows _ op hop
  obtain ⟨t, ht⟩ := timed_run hrun hroom
  obtain rfl := ht.ids_injective (log_traced hrun p op' hop') hop hid
  exact hop'

/-- **The program converges.** In every run in which the clocks have room: if no operation is
reported after some moment, and by the end the operations of each node have reached some nodes, by
gossip or along chains of pulls, then these nodes have the same tree. Their logs are what all calls
have ever reported. -/
theorem program_converges (hbefore : run clusterStep before (init maxPinnedBytes start) = some u)
    (hafter : run clusterStep after u = some w)
    (hroom : Meets clusterStep ClockRoom (before ++ after) (init maxPinnedBytes start))
    (hquiet : w.issued = u.issued) {S : Set PeerId}
    (hspread : ∀ q, w.issued q ≠ [] → ∀ p ∈ S,
      Flows u after q p ∨ Heard (before ++ after) w q p) :
    (∀ p ∈ S, ∀ op, op ∈ w.log p ↔ op ∈ w.issued op.timestamp.actorId) ∧
    ∀ p ∈ S, ∀ q ∈ S,
      (w.nodes p).filesystem.tree.state = (w.nodes q).filesystem.tree.state := by
  have hrun := run_append_eq_some.2 ⟨u, hbefore, hafter⟩
  have hlog : ∀ p ∈ S, ∀ op, op ∈ w.log p ↔ op ∈ w.issued op.timestamp.actorId := by
    refine fun p hp => log_of_knows hrun hroom fun q op hop => ?_
    rcases hspread q (List.ne_nil_of_mem hop) p hp with hflows | hheard
    · exact flows_spread hbefore hflows hafter (own_run hbefore q op (hquiet ▸ hop))
    · exact heard_spread hrun hheard op hop
  refine ⟨hlog, fun p hp q hq => ?_⟩
  exact MoveTree.Coherent.ext (inv_run hrun p).sound (inv_run hrun q).sound fun op =>
    (hlog p hp op).trans (hlog q hq op).symm

end Edfs.Network.Cluster

namespace Edfs.Network.Cluster

open Execution Reference

/-- Node 1 hears of the directory that node 0 has created, and node 2 pulls it. -/
def spreading : List (ClusterEvent ℕ) :=
  [.tick 1 (context 1 [0] []) (.gossip 0 []),
    .tick 2 (context 2 [0] []) (.swarm (.connectionEstablished 0 1)),
    .tick 0 (context 0 [2] []) (.request ⟨0, 2, 0, .pullMissingOperations []⟩),
    .tick 2 (context 2 [0] []) (.response ⟨0, 2, 0, .missingOperations created⟩)]

theorem clockRoom_spreading : Meets clusterStep ClockRoom (publishing ++ spreading)
    (init (fun _ : ℕ => 100) fun _ => 0) := by
  refine meets_append.2 ⟨clockRoom_publishing, fun u _ => ?_⟩
  exact ⟨fun _ => show 2 < 2 ^ 48 by decide, fun _ _ => ⟨fun _ => show 2 < 2 ^ 48 by decide,
    fun _ _ => ⟨fun _ => show 2 < 2 ^ 48 by decide, fun _ _ => ⟨fun _ => show 2 < 2 ^ 48 by decide,
      fun _ _ => trivial⟩⟩⟩⟩

theorem program_converges_spreading : ∃ u w : Cluster ℕ,
    run clusterStep publishing (init (fun _ => 100) fun _ => 0) = some u ∧
    run clusterStep spreading u = some w ∧
    (∀ p ∈ ({0, 1, 2} : Set ℕ), ∀ op, op ∈ w.log p ↔ op ∈ w.issued op.timestamp.actorId) ∧
    ∀ p ∈ ({0, 1, 2} : Set ℕ), ∀ q ∈ ({0, 1, 2} : Set ℕ),
      (w.nodes p).filesystem.tree.state = (w.nodes q).filesystem.tree.state := by
  obtain ⟨w, hrun⟩ := Option.isSome_iff_exists.1 (show (run clusterStep
    (publishing ++ spreading) (init (fun _ => 100) fun _ => 0)).isSome by rfl)
  obtain ⟨u, hbefore, hafter⟩ := run_append_eq_some.1 hrun
  have hnext : (run clusterStep publishing (init (fun _ => 100) fun _ => 0)).map
      (fun u => (u.nodes 2).nextRequestId) = some 0 := by rfl
  have hflushed : (run clusterStep (publishing ++ spreading) (init (fun _ => 100) fun _ => 0)).map
      (fun w => (w.mutated 0, (w.bridges 0).held, w.broadcasts 0, (w.bridges 0).commands)) =
      some ([], [], [], [created]) := by rfl
  rw [hbefore, Option.map_some, Option.some.injEq] at hnext
  rw [hrun, Option.map_some, Option.some.injEq] at hflushed
  obtain ⟨hmutated, hheld, hbroadcasts, hcommands⟩ := by simpa only [Prod.mk.injEq] using hflushed
  have hquiet : w.issued = u.issued := issued_run (by simp [spreading]) hafter
  refine ⟨u, w, hbefore, hafter, program_converges hbefore hafter clockRoom_spreading hquiet ?_⟩
  intro q hq p hp
  -- only node 0 has reported anything
  obtain rfl : q = 0 := by
    by_contra hne
    obtain ⟨v, hstep, hrest⟩ := Option.bind_eq_some_iff.1 hbefore
    obtain ⟨-, fs, -, rfl⟩ := call_eq_some hstep
    rw [hquiet, issued_run (by simp) hrest] at hq
    exact hq (Function.update_of_ne hne _ _)
  rcases hp with rfl | rfl | rfl
  · exact Or.inl (.wait (.wait (.wait (.wait (.self 0) _) _) _) _)
  · refine Or.inr ⟨hmutated, hheld, hbroadcasts, fun operations hops => ?_⟩
    rw [hcommands] at hops
    obtain rfl := List.mem_singleton.1 hops
    exact ⟨[], rfl, context 1 [0] [], 0, by simp [publishing, spreading]⟩
  · exact Or.inl (.pull (r := ⟨0, 2, 0, .missingOperations created⟩) (c := context 2 [0] [])
      (.self 0) rfl [.tick 1 (context 1 [0] []) (.gossip 0 []),
        .tick 2 (context 2 [0] []) (.swarm (.connectionEstablished 0 1)),
        .tick 0 (context 0 [2] []) (.request ⟨0, 2, 0, .pullMissingOperations []⟩)]
      hnext.le rfl)

end Edfs.Network.Cluster
