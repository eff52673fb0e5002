import Mathlib.Tactic

/-!
# Slices of a list laid out from a running offset

A file is stored as pieces that follow each other; a reader walks over them with the offset each
piece starts at and takes what it needs of each. `slice start offset stop p` is the part between
`offset` and `stop` of a piece `p` that starts at `start`.

* `slice_append`: the slice of a concatenation is the slices of its parts, each at its own start;
* `slice_zero`: at start zero it is the plain slice.
-/

namespace Slice

variable {α : Type*}

/-- The part between `offset` and `stop` of a piece that starts at `start`. -/
def slice (start offset stop : ℕ) (p : List α) : List α :=
  (p.take (stop - start)).drop (offset - start)

@[simp] theorem slice_nil (start offset stop : ℕ) : slice start offset stop ([] : List α) = [] := by
  simp [slice]

theorem slice_zero (offset stop : ℕ) (p : List α) :
    slice 0 offset stop p = (p.take stop).drop offset := rfl

/-- A piece that ends before the slice has no part in it. -/
theorem slice_before {start offset stop : ℕ} {p : List α} (h : start + p.length ≤ offset) :
    slice start offset stop p = [] := by
  refine List.drop_eq_nil_of_le ?_
  rw [List.length_take]
  omega

/-- A piece that starts after the slice has no part in it. -/
theorem slice_after {start offset stop : ℕ} (p : List α) (h : stop ≤ start) :
    slice start offset stop p = [] := by
  rw [slice, Nat.sub_eq_zero_of_le h]
  simp

/-- The slice of a concatenation, piece by piece. -/
theorem slice_append (start offset stop : ℕ) (p q : List α) :
    slice start offset stop (p ++ q)
      = slice start offset stop p ++ slice (start + p.length) offset stop q := by
  unfold slice
  rw [List.take_append, List.drop_append, List.length_take]
  congr 1
  by_cases h : p.length ≤ stop - start
  · rw [Nat.min_eq_right h]
    congr 1
    · omega
    · congr 1
      omega
  · -- the slice ends inside the first piece
    rw [Nat.sub_eq_zero_of_le (by omega : stop - start ≤ p.length),
      Nat.sub_eq_zero_of_le (by omega : stop ≤ start + p.length)]
    simp

end Slice
