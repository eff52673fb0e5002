import Edfs.Filesystem.Tree.Causality
import Mathlib.Data.Set.Card

/-!
# How many timestamps a millisecond has

A clock whose logical part is not zero stands at a timestamp that has been issued, on its own node
or on another. So a logical part past one has been issued right after the one below it, and when
a clock is at the mask, the logical parts up to it have all been issued, with one physical part.

* `Dense`: the logical parts of the issued timestamps leave no gaps; `Dense.step`;
* `stamped`: the operations with one physical part; `Dense.le_stamped`: how many there are when
  the mask is reached;
* `Dense.room`: a clock has room where there are fewer.
-/

namespace Edfs

open Execution

variable {PeerId : Type}

/-- The operations among `ops` whose timestamps have a given physical part. -/
def stamped (ops : Set (NodeOperation PeerId)) (physical : ℕ) : Set (NodeOperation PeerId) :=
  {op ∈ ops | op.timestamp.counter / 2 ^ logicalBits = physical}

/-- Fewer operations have fewer of each physical part. -/
theorem encard_stamped_lt {ops ops' : Set (NodeOperation PeerId)} (h : ops ⊆ ops') {k : ℕ∞}
    (hrate : ∀ physical, (stamped ops' physical).encard < k) (physical : ℕ) :
    (stamped ops physical).encard < k := by
  have hsub : stamped ops physical ⊆ stamped ops' physical := fun _ hop => ⟨h hop.1, hop.2⟩
  exact (Set.encard_le_encard hsub).trans_lt (hrate physical)

namespace TreeWorld

variable [CrdtTree PeerId] [LinearOrder PeerId]

/-- What a node has seen has been issued, and an issued logical part past one has been issued after
the one below it. -/
structure Dense (w : TreeWorld PeerId) : Prop where
  history : ∀ p, ∀ op ∈ w.history p, op ∈ w.issued
  succ : ∀ op ∈ w.issued, 2 ≤ op.timestamp.counter % 2 ^ 16 →
    ∃ old ∈ w.issued, op.timestamp.counter = old.timestamp.counter + 1

omit [LinearOrder PeerId] in
theorem dense_init : (init : TreeWorld PeerId).Dense :=
  ⟨fun _ _ h => absurd h List.not_mem_nil, fun _ h => absurd h List.not_mem_nil⟩

variable {w w' : TreeWorld PeerId}

omit [LinearOrder PeerId] in
/-- Below an issued timestamp all of its physical part have been issued, except maybe the first. -/
theorem Dense.below (h : w.Dense) {op : NodeOperation PeerId} (hop : op ∈ w.issued) {k : ℕ}
    (hk : 1 ≤ k) (hle : k ≤ op.timestamp.counter % 2 ^ 16) :
    ∃ old ∈ w.issued,
      old.timestamp.counter = op.timestamp.counter / 2 ^ 16 * 2 ^ 16 + k := by
  -- down from the timestamp to `k`
  induction hd : op.timestamp.counter % 2 ^ 16 - k generalizing op with
  | zero => exact ⟨op, hop, by omega⟩
  | succ d ih =>
    obtain ⟨old, hold, hsucc⟩ := h.succ op hop (by omega)
    obtain ⟨old', hold', heq⟩ := ih hold (by omega) (by omega)
    have hphysical : old.timestamp.counter / 2 ^ 16 = op.timestamp.counter / 2 ^ 16 := by omega
    exact ⟨old', hold', by rw [heq, hphysical]⟩

omit [LinearOrder PeerId] in
/-- Where the mask is reached, all logical parts from one on have been issued. -/
theorem Dense.le_stamped (h : w.Dense) {op : NodeOperation PeerId} (hop : op ∈ w.issued)
    (hmask : op.timestamp.counter % 2 ^ 16 = logicalMask) :
    (logicalMask : ℕ∞) ≤
      (stamped {old | old ∈ w.issued} (op.timestamp.counter / 2 ^ logicalBits)).encard := by
  have hlogical : logicalMask = 2 ^ 16 - 1 := rfl
  have hbits : 2 ^ logicalBits = 2 ^ 16 := rfl
  have : Nonempty (NodeOperation PeerId) := ⟨op⟩
  choose! f hissued hcounter using fun k (hk : k ∈ Set.Icc 1 logicalMask) =>
    h.below hop hk.1 (hmask ▸ hk.2)
  have hcard : (Set.Icc 1 logicalMask).encard = logicalMask := by
    rw [← Finset.coe_Icc, Set.encard_coe_eq_coe_finsetCard, Nat.card_Icc, Nat.add_sub_cancel]
  rw [← hcard]
  refine Set.encard_le_encard_of_injOn (f := f) (fun k hk => ⟨hissued k hk, ?_⟩) ?_
  · obtain ⟨hlow, hhigh⟩ := hk
    rw [hcounter k ⟨hlow, hhigh⟩, hbits]
    omega
  · intro k hk k' hk' heq
    have hk := hcounter k hk
    rw [heq, hcounter k' hk'] at hk
    omega

omit [LinearOrder PeerId] in
/-- **A clock has room** where no physical part is on so many operations. -/
theorem Dense.room (h : w.Dense) {p : PeerId} (hclock : ClockInv (w.nodes p).clock (w.history p))
    (hrate : ∀ physical, (stamped {op | op ∈ w.issued} physical).encard < logicalMask) (now : ℕ) :
    (w.nodes p).clock.Room now := by
  by_contra hroom
  obtain ⟨-, hlogical⟩ := not_or.1 hroom
  have hmask : (w.nodes p).clock.logical = logicalMask :=
    le_antisymm hclock.logical (not_lt.1 hlogical)
  obtain ⟨op, hop, heq⟩ := hclock.stands.resolve_left (by rw [hmask]; decide)
  have hlow : op.timestamp.counter % 2 ^ 16 = logicalMask := by
    rw [heq, HybridLogicalClock.pack_eq hclock.physical, hmask]
    simp [logicalMask, logicalBits]
  exact absurd (h.le_stamped (h.history p op hop) hlow) (not_le.2 (hrate _))

/-- Dense timestamps stay dense, as long as the clocks have room. -/
theorem Dense.step [LawfulCrdtTree PeerId] (h : w.Dense) (hinv : w.Inv) {e : TreeEvent PeerId}
    (hclock : ClockOk e w) (hroom : HasRoom e w) (hstep : treeStep e w = some w') : w'.Dense := by
  obtain ⟨happlied, rfl⟩ := treeStep_eq_some.1 hstep
  refine ⟨fun q op hop => ?_, fun op hop hlow => ?_⟩
  · by_cases hq : q = e.peer
    · subst hq
      simp only [Function.update_self, List.append_assoc, List.mem_append, List.mem_reverse] at hop
      rcases hop with hnew | hbatch | hold
      · exact List.mem_append_left _ hnew
      · exact List.mem_append_right _ (happlied op hbatch)
      · exact List.mem_append_right _ (h.history e.peer op hold)
    · simp only [Function.update_of_ne hq] at hop
      exact List.mem_append_right _ (h.history q op hop)
  · rcases List.mem_append.1 hop with hnew | hold
    · -- the timestamp of this event: the clock stands at the one below it
      have hissued : w.issuedBy e = some op := by simpa using hnew
      obtain ⟨n, parent, m, he⟩ : ∃ n parent m, (w.nodes e.peer).perform e.now e.call =
          (some ((w.nodes e.peer).issue (e.now 0) n parent m).1,
            ((w.nodes e.peer).issue (e.now 0) n parent m).2) := by
        refine ((w.nodes e.peer).perform_local e.now fun ops hc => ?_).resolve_left fun he => ?_
        · rw [issuedBy, hc] at hissued
          cases hissued
        · rw [issuedBy, he] at hissued
          cases hissued
      have hcounter : op.timestamp.counter = ((w.nodes e.peer).clock.next (e.now 0)).1 := by
        rw [issuedBy, he] at hissued
        cases hissued
        rw [NodeTree.issue_fst]
      rw [hcounter] at hlow ⊢
      have hinv := hinv.clock e.peer
      obtain ⟨hlogical, hnext⟩ := HybridLogicalClock.next_eq_succ hinv.physical (hclock 0)
        (hroom (by rw [hissued]; rfl)) hlow
      obtain ⟨old, hold, heq⟩ := hinv.stands.resolve_left hlogical
      exact ⟨old, List.mem_append_right _ (h.history e.peer old hold), by rw [hnext, heq]⟩
    · obtain ⟨old, hmem, hsucc⟩ := h.succ op hold hlow
      exact ⟨old, List.mem_append_right _ hmem, hsucc⟩

end TreeWorld

end Edfs
