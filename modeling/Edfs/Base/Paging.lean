import Mathlib.Data.List.Count
import Mathlib.Data.List.Nodup

/-!
# Reading a changing list by offsets

A reader takes some elements from its offset on and puts its offset behind them, while the list
changes between its calls. What it has taken of an element is counted by what stands before the
offset, as long as no change moves the element across it.

* `count_take_page`: the elements of a page come to stand before the offset;
* `Steady`: a change after which the elements of both lists are on the same side of the offset;
* `count_take_end`: at the end every element stands before the offset.
-/

namespace Paging

variable {α : Type*} [DecidableEq α]

/-- What is taken in a page comes to stand before the offset. -/
theorem count_take_page (l : List α) (offset k : ℕ) (x : α) :
    (l.take (offset + ((l.drop offset).take k).length)).count x
      = (l.take offset).count x + ((l.drop offset).take k).count x := by
  rw [List.take_add, List.count_append]
  congr 2
  rw [List.length_take, ← List.take_eq_take_min]

/-- The elements of both lists are on the same side of the offset. -/
def Steady (offset : ℕ) (l l' : List α) : Prop :=
  ∀ x ∈ l, x ∈ l' → (x ∈ l.take offset ↔ x ∈ l'.take offset)

instance (offset : ℕ) (l l' : List α) : Decidable (Steady offset l l') :=
  inferInstanceAs (Decidable (∀ x ∈ l, x ∈ l' → (x ∈ l.take offset ↔ x ∈ l'.take offset)))

theorem count_take (l : List α) (hl : l.Nodup) (offset : ℕ) (x : α) :
    (l.take offset).count x = if x ∈ l.take offset then 1 else 0 :=
  (hl.sublist (List.take_sublist offset l)).count

theorem Steady.count_take_eq {offset : ℕ} {l l' : List α} (h : Steady offset l l')
    (hl : l.Nodup) (hl' : l'.Nodup) {x : α} (hx : x ∈ l) (hx' : x ∈ l') :
    (l'.take offset).count x = (l.take offset).count x := by
  rw [count_take l hl, count_take l' hl', if_congr (h x hx hx') rfl rfl]

/-- When nothing is left to take, every element stands before the offset, once. -/
theorem count_take_end {l : List α} (hl : l.Nodup) {offset : ℕ} (hend : l.drop offset = [])
    {x : α} (hx : x ∈ l) : (l.take offset).count x = 1 := by
  rw [List.take_of_length_le (List.drop_eq_nil_iff.1 hend)]
  exact List.count_eq_one_of_mem hl hx

end Paging
