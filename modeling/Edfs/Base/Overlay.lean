import Mathlib.Data.List.GetD
import Mathlib.Tactic

/-!
# Overlaying arrays

A list as an array that is blank past its end. `overlay` puts elements at an offset and fills a gap
past the end with blanks; `resize` cuts, or extends with blanks.

* `overlay_eq`: extending the array and replacing the range computes the overlay;
* `Occurs`: elements stand at an offset; `occurs_overlay`, `Occurs.overlay`: an overlay puts its
  elements there, and keeps those of disjoint ranges;
* `overlays`: a list of overlays, one after the other.
-/

namespace Overlay

variable {α : Type*}

/-- Cut the array to a length, or extend it with blanks. -/
def resize (blank : α) (a : List α) (n : ℕ) : List α :=
  a.take n ++ List.replicate (n - a.length) blank

/-- Put `d` at `offset`, over what is there. -/
def overlay (blank : α) (a : List α) (offset : ℕ) (d : List α) : List α :=
  (List.range (max a.length (offset + d.length))).map fun i =>
    if offset ≤ i ∧ i < offset + d.length then d.getD (i - offset) blank else a.getD i blank

/-- The array has `d` at `offset`. -/
def Occurs (d : List α) (offset : ℕ) (a : List α) : Prop := (a.drop offset).take d.length = d

instance [DecidableEq α] (d : List α) (offset : ℕ) (a : List α) : Decidable (Occurs d offset a) :=
  inferInstanceAs (Decidable (_ = _))

variable {blank : α} {a d : List α} {n offset : ℕ}

@[simp] theorem length_resize : (resize blank a n).length = n := by
  simp only [resize, List.length_append, List.length_take, List.length_replicate]
  omega

theorem resize_of_le (h : n ≤ a.length) : resize blank a n = a.take n := by
  simp [resize, Nat.sub_eq_zero_of_le h]

theorem resize_length : resize blank a a.length = a := by
  rw [resize_of_le le_rfl, List.take_length]

theorem getElem?_resize (i : ℕ) :
    (resize blank a n)[i]? = if i < n then some (a.getD i blank) else none := by
  by_cases hn : i < n
  · rw [if_pos hn, resize]
    by_cases ha : i < a.length
    · rw [List.getElem?_append_left (by simp [hn, ha]), List.getElem?_take_of_lt hn,
        List.getElem?_eq_getElem ha, List.getD_eq_getElem _ _ ha]
    · rw [List.getElem?_append_right (by simp; omega), List.getD_eq_default _ _ (not_lt.1 ha),
        List.getElem?_replicate_of_lt (by simp; omega)]
  · rw [if_neg hn, List.getElem?_eq_none (by simpa using hn)]

/-- An array that has been extended is resized as the array itself. -/
theorem resize_resize {m : ℕ} (h : a.length ≤ m) :
    resize blank (resize blank a m) n = resize blank a n := by
  refine List.ext_getElem? fun i => ?_
  rw [getElem?_resize, getElem?_resize]
  congr 2
  by_cases hi : i < m
  · rw [List.getD_eq_getElem?_getD, getElem?_resize, if_pos hi]
    rfl
  · rw [List.getD_eq_default _ _ (by simpa using hi), List.getD_eq_default _ _ (by omega)]

theorem resize_take : resize blank (a.take n) n = resize blank a n := by
  unfold resize
  rw [List.take_take, Nat.min_self, List.length_take]
  congr 2
  omega

/-- Before the end of the array, the extension reads as the array. -/
theorem take_resize {k : ℕ} (hk : k ≤ a.length) (hn : k ≤ n) :
    (resize blank a n).take k = a.take k := by
  rw [resize, List.take_append_of_le_length, List.take_take, Nat.min_eq_left hn]
  rw [List.length_take]
  omega

@[simp] theorem length_overlay :
    (overlay blank a offset d).length = max a.length (offset + d.length) := by
  simp [overlay]

theorem getElem?_overlay (i : ℕ) :
    (overlay blank a offset d)[i]? =
      if offset ≤ i ∧ i < offset + d.length then d[i - offset]?
      else if i < max a.length (offset + d.length) then some (a.getD i blank) else none := by
  by_cases hi : i < max a.length (offset + d.length)
  · rw [if_pos hi, overlay, List.getElem?_map, List.getElem?_range hi, Option.map_some]
    split_ifs with hd
    · have hlt : i - offset < d.length := by omega
      rw [List.getElem?_eq_getElem hlt, List.getD_eq_getElem _ _ hlt]
    · rfl
  · rw [if_neg hi, if_neg (by omega), List.getElem?_eq_none (by simpa using hi)]

/-- Extending the array to the end of the range and replacing the range is the overlay. -/
theorem overlay_eq (blank : α) (a : List α) (offset : ℕ) (d : List α) :
    let b := if a.length < offset + d.length then resize blank a (offset + d.length) else a
    overlay blank a offset d = b.take offset ++ d ++ b.drop (offset + d.length) := by
  intro b
  have hb : b = resize blank a (max a.length (offset + d.length)) := by
    unfold b
    split_ifs with h
    · rw [max_eq_right h.le]
    · rw [max_eq_left (not_lt.1 h), resize_length]
  have hlen : b.length = max a.length (offset + d.length) := by rw [hb, length_resize]
  have htake : (b.take offset).length = offset := by
    rw [List.length_take]
    omega
  refine List.ext_getElem? fun i => ?_
  rw [getElem?_overlay, List.append_assoc]
  by_cases h₁ : i < offset
  · rw [if_neg (by omega), if_pos (by omega), List.getElem?_append_left (by omega),
      List.getElem?_take_of_lt h₁, hb, getElem?_resize, if_pos (by omega)]
  · rw [List.getElem?_append_right (by omega), htake]
    by_cases h₂ : i < offset + d.length
    · rw [if_pos ⟨not_lt.1 h₁, h₂⟩, List.getElem?_append_left (by omega)]
    · rw [if_neg fun h => h₂ h.2, List.getElem?_append_right (by omega), List.getElem?_drop, hb,
        getElem?_resize, show offset + d.length + (i - offset - d.length) = i by omega]

theorem occurs_iff :
    Occurs d offset a ↔ ∀ i < d.length, a[offset + i]? = d[i]? := by
  unfold Occurs
  constructor
  · intro h i hi
    rw [← List.getElem?_drop, ← List.getElem?_take_of_lt hi, h]
  · intro h
    refine List.ext_getElem? fun i => ?_
    by_cases hi : i < d.length
    · rw [List.getElem?_take_of_lt hi, List.getElem?_drop, h i hi]
    · rw [List.getElem?_eq_none (not_lt.1 hi),
        List.getElem?_eq_none ((List.length_take_le _ _).trans (not_lt.1 hi))]

/-- An overlay puts its elements in their place. -/
theorem occurs_overlay (blank : α) (a : List α) (offset : ℕ) (d : List α) :
    Occurs d offset (overlay blank a offset d) := by
  refine occurs_iff.2 fun i hi => ?_
  rw [getElem?_overlay, if_pos (by omega), Nat.add_sub_cancel_left]

/-- An overlay keeps what stands in a disjoint range. -/
theorem Occurs.overlay {d' : List α} {offset' : ℕ} (h : Occurs d offset a)
    (hdisj : offset + d.length ≤ offset' ∨ offset' + d'.length ≤ offset) (blank : α) :
    Occurs d offset (overlay blank a offset' d') := by
  refine occurs_iff.2 fun i hi => ?_
  have ha := occurs_iff.1 h i hi
  have hlt : offset + i < a.length := by
    rw [List.getElem?_eq_getElem hi] at ha
    exact (List.getElem?_eq_some_iff.1 ha).1
  rw [getElem?_overlay, if_neg (by omega), if_pos (by omega), List.getD_eq_getElem _ _ hlt, ← ha,
    List.getElem?_eq_getElem hlt]

/-- Put several pieces into the array, in order. -/
def overlays (blank : α) (a : List α) (writes : List (ℕ × List α)) : List α :=
  writes.foldl (fun a w => overlay blank a w.1 w.2) a

@[simp] theorem overlays_nil : overlays blank a [] = a := rfl

theorem overlays_concat (writes : List (ℕ × List α)) :
    overlays blank a (writes ++ [(offset, d)]) = overlay blank (overlays blank a writes) offset d :=
  List.foldl_append

end Overlay
