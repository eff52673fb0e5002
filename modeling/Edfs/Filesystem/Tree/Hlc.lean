import Mathlib.Tactic

/-!
# The hybrid logical clock

`filesystem/tree/hlc.rs`: a physical part in milliseconds and a logical counter, packed into one
`u64` with sixteen bits for the counter. The stored counter is not bounded; `pack` masks it.

* `next`, `observe`, `pack`, with the wall-clock reading as an argument;
* `lt_pack_next`: an issued timestamp exceeds the clock's last one as long as the counter does
  not run past its mask;
* `pack_next_wrap`: it falls back to the start of the millisecond when it does.
-/

namespace Edfs

def logicalBits : ℕ := 16

def logicalMask : ℕ := 2 ^ logicalBits - 1

structure HybridLogicalClock where
  physical : ℕ
  logical : ℕ
  deriving DecidableEq

namespace HybridLogicalClock

def new : HybridLogicalClock := ⟨0, 0⟩

/-- `(physical << 16) | (logical & mask)` on `u64`. -/
def pack (c : HybridLogicalClock) : ℕ :=
  ((c.physical <<< logicalBits) % 2 ^ 64) ||| (c.logical &&& logicalMask)

/-- The clock after issuing a timestamp at wall-clock time `now`. -/
def tick (c : HybridLogicalClock) (now : ℕ) : HybridLogicalClock :=
  if c.physical < now then ⟨now, 0⟩ else ⟨c.physical, c.logical + 1⟩

/-- Issue a timestamp. -/
def next (c : HybridLogicalClock) (now : ℕ) : ℕ × HybridLogicalClock :=
  ((c.tick now).pack, c.tick now)

/-- Take in a remote timestamp. -/
def observe (c : HybridLogicalClock) (now remote : ℕ) : HybridLogicalClock :=
  let remotePhysical := remote >>> logicalBits
  let remoteLogical := remote &&& logicalMask
  let physical := max (max now c.physical) remotePhysical
  { physical := physical
    logical := match decide (physical = c.physical), decide (physical = remotePhysical) with
      | true, true => max c.logical remoteLogical
      | true, false => c.logical
      | false, true => remoteLogical
      | false, false => 0 }

/-! ### Packing -/

/-- The sixteen low bits of a counter. -/
theorem and_logicalMask (n : ℕ) : n &&& logicalMask = n % 2 ^ 16 :=
  Nat.and_two_pow_sub_one_eq_mod n 16

/-- For a physical part below `2 ^ 48` the packed timestamp is arithmetic. -/
theorem pack_eq {c : HybridLogicalClock} (h : c.physical < 2 ^ 48) :
    c.pack = c.physical * 2 ^ 16 + c.logical % 2 ^ 16 := by
  have hlt : c.physical * 2 ^ 16 < 2 ^ 64 := by
    calc c.physical * 2 ^ 16 < 2 ^ 48 * 2 ^ 16 := Nat.mul_lt_mul_of_pos_right h (by norm_num)
      _ = 2 ^ 64 := by norm_num
  have hlow : c.logical % 2 ^ 16 < 2 ^ 16 := Nat.mod_lt _ (by norm_num)
  rw [pack, and_logicalMask, Nat.shiftLeft_eq, logicalBits, Nat.mod_eq_of_lt hlt,
    ← Nat.shiftLeft_eq, Nat.shiftLeft_add_eq_or_of_lt hlow]

theorem pack_lt {c : HybridLogicalClock} (h : c.physical < 2 ^ 48) : c.pack < 2 ^ 64 := by
  rw [pack_eq h]
  have : c.logical % 2 ^ 16 < 2 ^ 16 := Nat.mod_lt _ (by norm_num)
  omega

/-- The two fields of a timestamp. -/
theorem remote_eq (remote : ℕ) :
    remote = (remote >>> logicalBits) * 2 ^ 16 + (remote &&& logicalMask) := by
  rw [and_logicalMask, Nat.shiftRight_eq_div_pow, logicalBits]
  omega

theorem remote_physical_lt {remote : ℕ} (h : remote < 2 ^ 64) :
    remote >>> logicalBits < 2 ^ 48 := by
  rw [Nat.shiftRight_eq_div_pow, logicalBits]
  omega

theorem remote_logical_lt (remote : ℕ) : remote &&& logicalMask < 2 ^ 16 := by
  rw [and_logicalMask]
  exact Nat.mod_lt _ (by norm_num)

/-! ### Issuing -/

/-- The counter does not run past its mask when the clock issues a timestamp at `now`. -/
def Room (c : HybridLogicalClock) (now : ℕ) : Prop :=
  c.physical < now ∨ c.logical < logicalMask

instance (c : HybridLogicalClock) (now : ℕ) : Decidable (c.Room now) :=
  inferInstanceAs (Decidable (_ ∨ _))

theorem tick_physical_lt {c : HybridLogicalClock} {now : ℕ} (h : c.physical < 2 ^ 48)
    (hnow : now < 2 ^ 48) : (c.tick now).physical < 2 ^ 48 := by
  unfold tick
  split_ifs
  · exact hnow
  · exact h

theorem tick_logical_le {c : HybridLogicalClock} {now : ℕ} (h : c.Room now) :
    (c.tick now).logical ≤ logicalMask := by
  unfold tick
  split_ifs with hnow
  · exact Nat.zero_le _
  · exact h.resolve_left hnow

/-- **A timestamp issued with room left exceeds the clock's last one.** -/
theorem lt_pack_next {c : HybridLogicalClock} {now : ℕ} (hp : c.physical < 2 ^ 48)
    (hnow : now < 2 ^ 48) (hroom : c.Room now) : c.pack < (c.next now).1 := by
  have hmask : logicalMask = 2 ^ 16 - 1 := rfl
  rw [next, pack_eq hp, pack_eq (tick_physical_lt hp hnow)]
  have hlow : c.logical % 2 ^ 16 < 2 ^ 16 := Nat.mod_lt _ (by norm_num)
  unfold tick
  split_ifs with h
  · dsimp only; omega
  · have := hroom.resolve_left h
    dsimp only
    rw [Nat.mod_eq_of_lt (by omega), Nat.mod_eq_of_lt (by omega)]
    omega

/-- Without room the timestamp falls back to the start of the millisecond. -/
theorem pack_next_wrap {c : HybridLogicalClock} {now : ℕ} (hp : c.physical < 2 ^ 48)
    (hnow : now ≤ c.physical) (hl : c.logical = logicalMask) :
    (c.next now).1 < c.pack := by
  have hmask : logicalMask = 2 ^ 16 - 1 := rfl
  have htick : c.tick now = ⟨c.physical, c.logical + 1⟩ := if_neg (not_lt.2 hnow)
  rw [next, htick, pack_eq hp, pack_eq (c := ⟨c.physical, c.logical + 1⟩) hp]
  dsimp only
  rw [hl, hmask]
  omega

/-- A timestamp whose logical part is past one is the successor of the clock's last one. -/
theorem next_eq_succ {c : HybridLogicalClock} {now : ℕ} (hp : c.physical < 2 ^ 48)
    (hnow : now < 2 ^ 48) (hroom : c.Room now) (h : 2 ≤ (c.next now).1 % 2 ^ 16) :
    c.logical ≠ 0 ∧ (c.next now).1 = c.pack + 1 := by
  have hmask : logicalMask = 2 ^ 16 - 1 := rfl
  rw [next, pack_eq (tick_physical_lt hp hnow)] at h ⊢
  rw [pack_eq hp]
  unfold tick at h ⊢
  split_ifs at h ⊢ with hlt
  · dsimp only at h
    omega
  · have := hroom.resolve_left hlt
    dsimp only at h ⊢
    omega

/-! ### Observing -/

theorem observe_physical_lt {c : HybridLogicalClock} {now remote : ℕ} (h : c.physical < 2 ^ 48)
    (hnow : now < 2 ^ 48) (hr : remote < 2 ^ 64) : (c.observe now remote).physical < 2 ^ 48 := by
  have := remote_physical_lt hr
  simp only [observe]
  omega

/-- The four merge cases: which side the merged clock takes its counter from. -/
theorem observe_cases (c : HybridLogicalClock) (now remote : ℕ) :
    let c' := c.observe now remote
    (c'.physical = c.physical ∧ c'.physical = remote >>> logicalBits ∧
        c'.logical = max c.logical (remote &&& logicalMask)) ∨
      (c'.physical = c.physical ∧ remote >>> logicalBits < c'.physical ∧
        c'.logical = c.logical) ∨
      (c.physical < c'.physical ∧ c'.physical = remote >>> logicalBits ∧
        c'.logical = remote &&& logicalMask) ∨
      (c.physical < c'.physical ∧ remote >>> logicalBits < c'.physical ∧ c'.logical = 0) := by
  simp only [observe]
  by_cases h1 : max (max now c.physical) (remote >>> logicalBits) = c.physical <;>
    by_cases h2 : max (max now c.physical) (remote >>> logicalBits) = remote >>> logicalBits
  · exact Or.inl ⟨h1, h2, by simp only [decide_eq_true h1, decide_eq_true h2]⟩
  · exact Or.inr (Or.inl ⟨h1, by omega, by simp only [decide_eq_true h1, decide_eq_false h2]⟩)
  · exact Or.inr (Or.inr (Or.inl
      ⟨by omega, h2, by simp only [decide_eq_false h1, decide_eq_true h2]⟩))
  · exact Or.inr (Or.inr (Or.inr
      ⟨by omega, by omega, by simp only [decide_eq_false h1, decide_eq_false h2]⟩))

theorem observe_logical_le {c : HybridLogicalClock} (h : c.logical ≤ logicalMask)
    (now remote : ℕ) : (c.observe now remote).logical ≤ logicalMask := by
  have hmask : logicalMask = 2 ^ 16 - 1 := rfl
  have := remote_logical_lt remote
  rcases observe_cases c now remote with ⟨-, -, hl⟩ | ⟨-, -, hl⟩ | ⟨-, -, hl⟩ | ⟨-, -, hl⟩ <;>
    omega

/-- Observing never moves the clock back, and moves it to the remote timestamp at least. -/
theorem le_pack_observe {c : HybridLogicalClock} {now remote : ℕ} (hp : c.physical < 2 ^ 48)
    (hl : c.logical ≤ logicalMask) (hnow : now < 2 ^ 48) (hr : remote < 2 ^ 64) :
    c.pack ≤ (c.observe now remote).pack ∧ remote ≤ (c.observe now remote).pack := by
  have hmask : logicalMask = 2 ^ 16 - 1 := rfl
  have hp' := observe_physical_lt hp hnow hr
  have hl' := observe_logical_le hl now remote
  have hrem := remote_eq remote
  have hrl := remote_logical_lt remote
  rw [pack_eq hp, pack_eq hp', Nat.mod_eq_of_lt (by omega), Nat.mod_eq_of_lt (by omega)]
  rcases observe_cases c now remote with ⟨h1, h2, h3⟩ | ⟨h1, h2, h3⟩ | ⟨h1, h2, h3⟩ |
    ⟨h1, h2, h3⟩ <;> omega

/-- A merged clock whose counter is not zero stands at its own last timestamp or at the remote
one. -/
theorem pack_observe_eq {c : HybridLogicalClock} {now remote : ℕ} (hp : c.physical < 2 ^ 48)
    (hl : c.logical ≤ logicalMask) (hnow : now < 2 ^ 48) (hr : remote < 2 ^ 64)
    (h0 : (c.observe now remote).logical ≠ 0) :
    ((c.observe now remote).pack = c.pack ∧ c.logical ≠ 0) ∨
      (c.observe now remote).pack = remote := by
  have hmask : logicalMask = 2 ^ 16 - 1 := rfl
  have hp' := observe_physical_lt hp hnow hr
  have hl' := observe_logical_le hl now remote
  have hrem := remote_eq remote
  rw [pack_eq hp, pack_eq hp', Nat.mod_eq_of_lt (by omega), Nat.mod_eq_of_lt (by omega)]
  rcases observe_cases c now remote with ⟨h1, h2, h3⟩ | ⟨h1, h2, h3⟩ | ⟨h1, h2, h3⟩ |
    ⟨h1, h2, h3⟩ <;> omega

end HybridLogicalClock

end Edfs
