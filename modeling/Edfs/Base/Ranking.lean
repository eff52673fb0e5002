import Mathlib.Data.List.Sort
import Mathlib.Tactic

/-!
# Ranking by a key

The best elements of a list by a key in a linear order, greatest key first, and what is left of a
finite set whose elements may leave only below two others.

* `top`; `top_length_perm`, `top_perm`; `exists_top_two`: a member that is not among the best two
  has two members above it;
* `top_cons`, `Displaces`: a new element takes at most one of the best places, and one that is not
  among the best can leave without a change;
* `exists_two_stayed`, `min_two_le_encard`: when everything that has left a set has two elements of
  the set above it, it has two above it that stayed, and so at least two stayed, or all.
-/

namespace Ranking

variable {α κ : Type*} [LinearOrder κ] (key : α → κ)

/-- The best `n` elements of a list, best first; equal keys stay in their order. -/
def top (l : List α) (n : ℕ) : List α := (l.insertionSort fun a b => key b ≤ key a).take n

variable {key}

/-- Ranking a whole list only reorders it. -/
theorem top_length_perm (l : List α) : (top key l l.length).Perm l := by
  rw [top, List.take_of_length_le (List.length_insertionSort _ l).le]
  exact List.perm_insertionSort _ l

/-- The best elements do not depend on the order of the list. -/
theorem top_perm (hkey : Function.Injective key) {l l' : List α} (h : l.Perm l') (n : ℕ) :
    top key l n = top key l' n := by
  have : IsTrans α fun a b => key b ≤ key a := ⟨fun _ _ _ h h' => h'.trans h⟩
  have : Std.Total fun a b : α => key b ≤ key a := ⟨fun a b => le_total (key b) (key a)⟩
  have hsorted := List.pairwise_insertionSort (fun a b => key b ≤ key a) l
  have hsorted' := List.pairwise_insertionSort (fun a b => key b ≤ key a) l'
  have hperm := (List.perm_insertionSort (fun a b => key b ≤ key a) l).trans
    (h.trans (List.perm_insertionSort (fun a b => key b ≤ key a) l').symm)
  rw [top, top, hperm.eq_of_pairwise (fun a b _ _ hab hba => hkey (le_antisymm hba hab))
    hsorted hsorted']

theorem top_subset {l : List α} {n : ℕ} {a : α} (h : a ∈ top key l n) : a ∈ l :=
  (List.perm_insertionSort _ l).mem_iff.1 (List.mem_of_mem_take h)

theorem top_ne_nil {l : List α} (hl : l ≠ []) {n : ℕ} (hn : n ≠ 0) : top key l n ≠ [] := by
  rw [top, Ne, List.take_eq_nil_iff, not_or]
  refine ⟨hn, fun h => hl (List.length_eq_zero_iff.1 ?_)⟩
  rw [← List.length_insertionSort (fun a b => key b ≤ key a) l, h]
  rfl

/-- A member that is not among the best two has two others above it, which are the best two. -/
theorem exists_top_two (hkey : Function.Injective key) {l : List α} (hl : l.Nodup) {a : α}
    (ha : a ∈ l) (hnot : a ∉ top key l 2) :
    ∃ x y, top key l 2 = [x, y] ∧ x ≠ y ∧ key a < key x ∧ key a < key y := by
  have : IsTrans α fun a b => key b ≤ key a := ⟨fun _ _ _ h h' => h'.trans h⟩
  have : Std.Total fun a b : α => key b ≤ key a := ⟨fun a b => le_total (key b) (key a)⟩
  have hperm := List.perm_insertionSort (fun a b => key b ≤ key a) l
  have hsorted := List.pairwise_insertionSort (fun a b => key b ≤ key a) l
  unfold top at hnot ⊢
  generalize l.insertionSort (fun a b => key b ≤ key a) = sorted at *
  have hnd : sorted.Nodup := hperm.nodup_iff.2 hl
  have ha' : a ∈ sorted := hperm.mem_iff.2 ha
  rcases sorted with _ | ⟨x, _ | ⟨y, rest⟩⟩
  · exact absurd ha' List.not_mem_nil
  · exact absurd ha' hnot
  · have harest : a ∈ rest := by
      rcases List.mem_cons.1 ha' with rfl | ha'
      · exact absurd List.mem_cons_self hnot
      · rcases List.mem_cons.1 ha' with rfl | ha'
        · exact absurd (List.mem_cons_of_mem _ List.mem_cons_self) hnot
        · exact ha'
    obtain ⟨hx, hrest⟩ := List.pairwise_cons.1 hsorted
    obtain ⟨hy, -⟩ := List.pairwise_cons.1 hrest
    obtain ⟨hxnot, hnd'⟩ := List.nodup_cons.1 hnd
    obtain ⟨hynot, -⟩ := List.nodup_cons.1 hnd'
    have above : ∀ z, z ∉ rest → key a ≤ key z → key a < key z := fun z hz hle =>
      lt_of_le_of_ne hle fun heq => hz (hkey heq ▸ harest)
    exact ⟨x, y, rfl, fun h => hxnot (h ▸ List.mem_cons_self),
      above x (fun h => hxnot (List.mem_cons_of_mem _ h)) (hx a (List.mem_cons_of_mem _ harest)),
      above y hynot (hy a harest)⟩

/-! ### One element more, one element less -/

theorem length_top (l : List α) (n : ℕ) : (top key l n).length = min n l.length := by
  rw [top, List.length_take, List.length_insertionSort]

theorem nodup_top {l : List α} (hl : l.Nodup) (n : ℕ) : (top key l n).Nodup :=
  ((List.perm_insertionSort _ l).nodup_iff.2 hl).sublist (List.take_sublist n _)

/-- The best elements are above those left out. -/
theorem lt_of_mem_top (hkey : Function.Injective key) {l : List α} {n : ℕ} {a b : α}
    (ha : a ∈ top key l n) (hb : b ∈ l) (hnot : b ∉ top key l n) : key b < key a := by
  have : IsTrans α fun a b => key b ≤ key a := ⟨fun _ _ _ h h' => h'.trans h⟩
  have : Std.Total fun a b : α => key b ≤ key a := ⟨fun a b => le_total (key b) (key a)⟩
  have hsorted := List.pairwise_insertionSort (fun a b => key b ≤ key a) l
  have hmem := (List.perm_insertionSort (fun a b => key b ≤ key a) l).mem_iff.2 hb
  rw [← List.take_append_drop n (l.insertionSort _)] at hsorted hmem
  have hle := (List.pairwise_append.1 hsorted).2.2 a ha b
    ((List.mem_append.1 hmem).resolve_left hnot)
  exact lt_of_le_of_ne hle fun heq => hnot (hkey heq ▸ ha)

variable (key) in
/-- A new element is put somewhere between the others, whose order stays. -/
theorem top_cons (p : α) (l : List α) : ∃ a b : List α,
    (∀ n, top key l n = (a ++ b).take n) ∧ ∀ n, top key (p :: l) n = (a ++ p :: b).take n := by
  refine ⟨(l.insertionSort fun a b => key b ≤ key a).takeWhile fun b => decide ¬ key b ≤ key p,
    (l.insertionSort fun a b => key b ≤ key a).dropWhile fun b => decide ¬ key b ≤ key p,
    fun n => ?_, fun n => ?_⟩
  · rw [List.takeWhile_append_dropWhile, top]
  · rw [top, List.insertionSort_cons, List.orderedInsert_eq_take_drop]

/-- With an element put into the middle of a list, its beginning is the same, or the element is
in it and the last one has left. -/
theorem take_insert (a b : List α) (p : α) (n : ℕ) :
    (a ++ p :: b).take n = (a ++ b).take n ∨
      ∃ k, (a ++ p :: b).take n = a ++ p :: b.take k ∧
        (a ++ b).take n = a ++ b.take (k + 1) := by
  rcases Nat.lt_or_ge a.length n with h | h
  · obtain ⟨k, rfl⟩ : ∃ k, n = a.length + (k + 1) := ⟨n - a.length - 1, by omega⟩
    refine .inr ⟨k, ?_, ?_⟩ <;> rw [List.take_length_add_append]
    rfl
  · left
    rw [List.take_append_of_le_length h, List.take_append_of_le_length h]

/-- What one new element `p` may change in a list of the best: it takes at most one place, and the
others keep their order. -/
structure Displaces [DecidableEq α] (p : α) (old new : List α) : Prop where
  subset : ∀ x ∈ new, x = p ∨ x ∈ old
  one : ∀ x ∈ old, ∀ y ∈ old, x ∉ new → y ∉ new → x = y
  order : (new.filter (· ≠ p)).Sublist old

theorem displaces_top [DecidableEq α] {p : α} {l : List α} (hp : p ∉ l) (n : ℕ) :
    Displaces p (top key l n) (top key (p :: l) n) := by
  obtain ⟨a, b, hold, hnew⟩ := top_cons key p l
  have hnot : p ∉ (a ++ b).take n := fun h => hp (top_subset (n := n) (hold n ▸ h))
  have hkeep : ∀ q : List α, p ∉ q → q.filter (· ≠ p) = q := fun q hq =>
    List.filter_eq_self.2 fun x hx => decide_eq_true fun heq => hq (heq ▸ hx)
  rw [hold, hnew]
  rcases take_insert a b p n with heq | ⟨k, hk, hk'⟩
  · rw [heq]
    exact ⟨fun x hx => .inr hx, fun x hx y _ h _ => absurd hx h, by rw [hkeep _ hnot]⟩
  · rw [hk'] at hnot ⊢
    rw [hk]
    obtain ⟨hpa, hpb⟩ := not_or.1 (List.mem_append.not.1 hnot)
    have hsub : (b.take k).Sublist (b.take (k + 1)) := List.take_sublist_take_left (by omega)
    -- the only one that can have left is the last of the old ones
    have hlast : ∀ x ∈ a ++ b.take (k + 1), x ∉ a ++ p :: b.take k → b[k]? = some x := by
      intro x hx hxnot
      rw [List.take_add_one] at hx
      simp only [List.mem_append, List.mem_cons, not_or, Option.mem_toList] at hx hxnot
      tauto
    refine ⟨fun x hx => ?_, fun x hx y hy hxnot hynot => ?_, ?_⟩
    · rcases List.mem_append.1 hx with hxa | hxb
      · exact .inr (List.mem_append_left _ hxa)
      · exact (List.mem_cons.1 hxb).imp_right fun h => List.mem_append_right _ (hsub.subset h)
    · exact Option.some.inj ((hlast x hx hxnot).symm.trans (hlast y hy hynot))
    · rw [List.filter_append, List.filter_cons_of_neg (by simp), hkeep a hpa,
        hkeep _ fun h => hpb (hsub.subset h)]
      exact (List.Sublist.refl a).append hsub

/-- An element that is not among the best can leave. -/
theorem top_of_not_mem (hkey : Function.Injective key) {p : α} {l rest : List α}
    (h : l.Perm (p :: rest)) {n : ℕ} (hp : p ∉ top key l n) : top key rest n = top key l n := by
  obtain ⟨a, b, hold, hnew⟩ := top_cons key p rest
  rw [top_perm hkey h n, hnew] at hp ⊢
  rw [hold]
  rcases take_insert a b p n with heq | ⟨k, hk, -⟩
  · exact heq.symm
  · exact absurd (hk ▸ List.mem_append_right a List.mem_cons_self) hp

/-- Two elements of `S` above `x`. -/
def TwoAbove (key : α → κ) (S : Set α) (x : α) : Prop :=
  ∃ y ∈ S, ∃ z ∈ S, y ≠ z ∧ key x < key y ∧ key x < key z

theorem TwoAbove.mono {S T : Set α} {x : α} (h : TwoAbove key S x) (hST : S ⊆ T) :
    TwoAbove key T x := by
  obtain ⟨y, hy, z, hz, hrest⟩ := h
  exact ⟨y, hST hy, z, hST hz, hrest⟩

/-- When everything that has left `E` has two elements of `E` above it, it has two above it that
have stayed. -/
theorem exists_two_stayed {E S : Set α} (hE : E.Finite)
    (h : ∀ x ∈ E, x ∉ S → TwoAbove key E x) {x : α} (hx : x ∈ E) (hxS : x ∉ S) :
    TwoAbove key S x := by
  -- by induction on the number of elements above
  induction hn : {y ∈ E | key x < key y}.ncard using Nat.strong_induction_on
    generalizing x with
  | _ n ih =>
    subst hn
    obtain ⟨y, hy, z, hz, hyz, hxy, hxz⟩ := h x hx hxS
    have climb : ∀ v ∈ E, key x < key v → v ∉ S → TwoAbove key S x := by
      intro v hv hxv hvS
      have hsub : {u ∈ E | key v < key u} ⊂ {u ∈ E | key x < key u} :=
        ⟨fun u hu => ⟨hu.1, hxv.trans hu.2⟩, fun hsub => lt_irrefl _ (hsub ⟨hv, hxv⟩).2⟩
      have hfewer := Set.ncard_lt_ncard hsub (hE.subset (Set.sep_subset _ _))
      obtain ⟨u, hu, u', hu', hne, hvu, hvu'⟩ := ih _ hfewer hv hvS rfl
      exact ⟨u, hu, u', hu', hne, hxv.trans hvu, hxv.trans hvu'⟩
    by_cases hyS : y ∈ S
    · by_cases hzS : z ∈ S
      · exact ⟨y, hyS, z, hzS, hyz, hxy, hxz⟩
      · exact climb z hz hxz hzS
    · exact climb y hy hxy hyS

/-- Two elements stayed, or all did. -/
theorem min_two_le_encard {E S : Set α} (hE : E.Finite)
    (h : ∀ x ∈ E, x ∉ S → TwoAbove key E x) : min 2 E.encard ≤ S.encard := by
  by_cases hsub : E ⊆ S
  · exact (min_le_right _ _).trans (Set.encard_le_encard hsub)
  · obtain ⟨x, hx, hxS⟩ := Set.not_subset.1 hsub
    obtain ⟨y, hy, z, hz, hyz, -⟩ := exists_two_stayed hE h hx hxS
    have hpair : ({y, z} : Set α) ⊆ S := Set.insert_subset hy (Set.singleton_subset_iff.2 hz)
    exact (min_le_left _ _).trans ((Set.encard_pair hyz).symm.le.trans (Set.encard_le_encard hpair))

end Ranking
