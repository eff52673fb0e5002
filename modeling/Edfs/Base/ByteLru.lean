import Mathlib.Tactic
import Mathlib.Algebra.BigOperators.Group.Finset.Basic
import Mathlib.Algebra.Order.BigOperators.Group.Finset
import Mathlib.Data.List.TakeWhile

/-!
# Byte-bounded recency queues

A cache of weighted keys with a bound on their total weight, as the queue of its keys, least
recently used first. A new key enters at the back after keys have left at the front until it
fits; a key heavier than the bound, or already present, changes nothing.

`pushAll_keeps_iff` says when a batch of new keys leaves the keys of interest in the cache: the
part of the queue from the first of them on has to fit together with the whole batch.
-/

namespace ByteLru

variable {K : Type} [DecidableEq K] (w : K → ℕ) (max : ℕ)

/-- The weight of a queue. -/
def total (q : List K) : ℕ := (q.map w).sum

/-- Drop keys at the front until `need` more fits. -/
def room (need : ℕ) : List K → List K
  | [] => []
  | k :: q => if max < total w (k :: q) + need then room need q else k :: q

/-- Enter a key at the back. -/
def push (q : List K) (k : K) : List K :=
  if k ∈ q ∨ max < w k then q else room w max (w k) q ++ [k]

/-- Enter the keys of a batch in turn. -/
def pushAll (q ks : List K) : List K := ks.foldl (push w max) q

section Room

omit [DecidableEq K]

@[simp] theorem total_nil : total w [] = 0 := rfl

@[simp] theorem total_cons (k : K) (q : List K) : total w (k :: q) = w k + total w q := by
  simp [total]

@[simp] theorem total_append (p q : List K) : total w (p ++ q) = total w p + total w q := by
  simp [total]

theorem total_perm {p q : List K} (h : p.Perm q) : total w p = total w q := (h.map w).sum_eq

theorem total_congr {w' : K → ℕ} {q : List K} (h : ∀ k ∈ q, w k = w' k) :
    total w q = total w' q := congrArg List.sum (List.map_congr_left h)

theorem total_filter (p : K → Bool) (q : List K) :
    total w q = total w (q.filter p) + total w (q.filter fun k => !p k) := by
  induction q with
  | nil => rfl
  | cons k q ih => cases hk : p k <;> simp [hk, ih] <;> omega

theorem room_suffix (need : ℕ) (q : List K) : room w max need q <:+ q := by
  induction q with
  | nil => exact List.suffix_rfl
  | cons k q ih =>
    unfold room
    split_ifs
    · exact ih.trans (List.suffix_cons k q)
    · exact List.suffix_rfl

theorem total_room {need : ℕ} (h : need ≤ max) (q : List K) :
    total w (room w max need q) + need ≤ max := by
  induction q with
  | nil => simpa [room] using h
  | cons k q ih =>
    unfold room
    split_ifs with hk
    · exact ih
    · exact not_lt.1 hk

theorem room_congr {w' : K → ℕ} {need : ℕ} {q : List K} (h : ∀ k ∈ q, w k = w' k) :
    room w max need q = room w' max need q := by
  induction q with
  | nil => rfl
  | cons k q ih =>
    rw [room, room, total_congr w h, ih fun x hx => h x (List.mem_cons_of_mem k hx)]

/-- A key leaves only while it does not fit together with what was behind it. -/
theorem lt_of_room {need : ℕ} {a b : List K} {k : K} (h : room w max need (a ++ k :: b) = b) :
    max < total w (k :: b) + need := by
  induction a with
  | nil =>
    rw [List.nil_append, room] at h
    split_ifs at h with hk
    · exact hk
    · exact absurd (congrArg List.length h) (by simp)
  | cons y a ih =>
    rw [List.cons_append, room] at h
    split_ifs at h
    · exact ih h
    · have hlen := congrArg List.length h
      simp only [List.length_cons, List.length_append] at hlen
      omega

/-- Nothing leaves from a back part that fits. -/
theorem room_append {need : ℕ} {b : List K} (h : total w b + need ≤ max) (a : List K) :
    ∃ a', a' <:+ a ∧ room w max need (a ++ b) = a' ++ b := by
  induction a with
  | nil =>
    refine ⟨[], List.suffix_rfl, ?_⟩
    cases b with
    | nil => rfl
    | cons k b => exact if_neg (not_lt.2 h)
  | cons k a ih =>
    rw [List.cons_append, room]
    split_ifs with hk
    · obtain ⟨a', ha', he⟩ := ih
      exact ⟨a', ha'.trans (List.suffix_cons k a), he⟩
    · exact ⟨k :: a, List.suffix_rfl, rfl⟩

end Room

theorem total_eq_sum {q : List K} (h : q.Nodup) : total w q = ∑ k ∈ q.toFinset, w k :=
  (List.sum_toFinset w h).symm

theorem perm_cons_filter_ne {q : List K} (h : q.Nodup) {k : K} (hk : k ∈ q) :
    q.Perm (k :: q.filter (· ≠ k)) := by
  refine (List.perm_cons_erase hk).trans (.cons k ?_)
  rw [h.erase_eq_filter]
  exact .of_eq (List.filter_congr fun x _ => by by_cases hx : x = k <;> simp [hx])

/-- Taking a key out of a queue takes out its weight. -/
theorem total_filter_ne {q : List K} (h : q.Nodup) {k : K} (hk : k ∈ q) :
    total w (q.filter (· ≠ k)) + w k = total w q := by
  rw [total_perm w (perm_cons_filter_ne h hk), total_cons, Nat.add_comm]

/-- Moving a key to the back permutes the queue. -/
theorem perm_touch {q : List K} (h : q.Nodup) {k : K} (hk : k ∈ q) :
    (q.filter (· ≠ k) ++ [k]).Perm q :=
  (List.perm_append_singleton k _).trans (perm_cons_filter_ne h hk).symm

/-! ### One key -/

theorem mem_push {q : List K} {k x : K} (h : x ∈ push w max q k) : x ∈ q ∨ x = k := by
  unfold push at h
  split_ifs at h with hk
  · exact Or.inl h
  · rcases List.mem_append.1 h with h | h
    · exact Or.inl ((room_suffix w max _ q).mem h)
    · exact Or.inr (List.mem_singleton.1 h)

theorem nodup_push {q : List K} (h : q.Nodup) (k : K) : (push w max q k).Nodup := by
  unfold push
  split_ifs with hk
  · exact h
  · have hs := room_suffix w max (w k) q
    refine List.nodup_append.2 ⟨h.sublist hs.sublist, List.nodup_singleton k, ?_⟩
    rintro x hx y hy rfl
    exact hk (Or.inl (List.mem_singleton.1 hy ▸ hs.mem hx))

theorem total_push_le {q : List K} (h : total w q ≤ max) (k : K) :
    total w (push w max q k) ≤ max := by
  unfold push
  split_ifs with hk
  · exact h
  · simpa using total_room w max (not_lt.1 (not_or.1 hk).2) q

/-! ### A batch -/

@[simp] theorem pushAll_nil (q : List K) : pushAll w max q [] = q := rfl

@[simp] theorem pushAll_cons (q : List K) (k : K) (ks : List K) :
    pushAll w max q (k :: ks) = pushAll w max (push w max q k) ks := rfl

theorem mem_pushAll {q ks : List K} {x : K} (h : x ∈ pushAll w max q ks) : x ∈ q ∨ x ∈ ks := by
  induction ks generalizing q with
  | nil => exact Or.inl h
  | cons k ks ih =>
    rcases ih h with h | h
    · exact (mem_push w max h).imp_right fun (e : x = k) => e ▸ List.mem_cons_self
    · exact Or.inr (List.mem_cons_of_mem k h)

theorem nodup_pushAll {q : List K} (h : q.Nodup) (ks : List K) : (pushAll w max q ks).Nodup := by
  induction ks generalizing q with
  | nil => exact h
  | cons k ks ih => exact ih (nodup_push w max h k)

theorem total_pushAll_le {q : List K} (h : total w q ≤ max) (ks : List K) :
    total w (pushAll w max q ks) ≤ max := by
  induction ks generalizing q with
  | nil => exact h
  | cons k ks ih => exact ih (total_push_le w max h k)

/-- A back part that fits together with the keys of the batch it lacks is kept, and the batch
enters behind it. -/
theorem pushAll_append {ks b : List K} (a : List K) (hb : (a ++ b).Nodup)
    (ha : ∀ k ∈ ks, k ∉ a)
    (hfit : total w b + ∑ k ∈ ks.toFinset \ b.toFinset, w k ≤ max) :
    ∃ a' b', a' <:+ a ∧ pushAll w max (a ++ b) ks = a' ++ b' ∧ b ⊆ b' ∧ ks ⊆ b' := by
  induction ks generalizing a b with
  | nil => exact ⟨a, b, List.suffix_rfl, rfl, List.Subset.refl b, List.nil_subset b⟩
  | cons k ks ih =>
    have hk := ha k List.mem_cons_self
    have ha' : ∀ k ∈ ks, k ∉ a := fun x hx => ha x (List.mem_cons_of_mem k hx)
    by_cases hkb : k ∈ b
    · have hpush : push w max (a ++ b) k = a ++ b :=
        if_pos (Or.inl (List.mem_append_right a hkb))
      have hset : (k :: ks).toFinset \ b.toFinset = ks.toFinset \ b.toFinset := by
        rw [List.toFinset_cons, Finset.insert_sdiff_of_mem _ (List.mem_toFinset.2 hkb)]
      rw [hset] at hfit
      obtain ⟨a', b', h1, h2, h3, h4⟩ := ih a hb ha' hfit
      rw [pushAll_cons, hpush]
      exact ⟨a', b', h1, h2, h3, List.cons_subset.2 ⟨h3 hkb, h4⟩⟩
    · have hsum : ∑ x ∈ (k :: ks).toFinset \ b.toFinset, w x
          = w k + ∑ x ∈ ks.toFinset \ (b ++ [k]).toFinset, w x := by
        have hset : (k :: ks).toFinset \ b.toFinset
            = insert k (ks.toFinset \ (b ++ [k]).toFinset) := by
          ext x
          by_cases hx : x = k
          · subst hx; simp [hkb]
          · simp [hx]
        rw [hset, Finset.sum_insert (by simp)]
      have hroom : total w b + w k ≤ max := by omega
      obtain ⟨a', ha's, hr⟩ := room_append w max hroom a
      have hpush : push w max (a ++ b) k = a' ++ (b ++ [k]) := by
        have hnot : ¬ (k ∈ a ++ b ∨ max < w k) := by
          rintro (h | h)
          · exact (List.mem_append.1 h).elim hk hkb
          · omega
        rw [push, if_neg hnot, hr, List.append_assoc]
      have hnd : (a' ++ (b ++ [k])).Nodup := by
        have := nodup_push w max hb k
        rwa [hpush] at this
      obtain ⟨a'', b', h1, h2, h3, h4⟩ := ih a' (b := b ++ [k]) hnd
        (fun x hx hxa => ha' x hx (ha's.mem hxa))
        (by simp only [total_append, total_cons, total_nil]; omega)
      rw [pushAll_cons, hpush]
      refine ⟨a'', b', h1.trans ha's, h2, fun x hx => h3 (List.mem_append_left [k] hx), ?_⟩
      exact List.cons_subset.2 ⟨h3 (by simp), h4⟩

/-- Keys leave in queue order: while a key is still there, so is all that was behind it. -/
theorem subset_pushAll {ks : List K} {f : K} (hf : f ∉ ks) (a : List K) {b : List K}
    (hb : (a ++ f :: b).Nodup) (hmem : f ∈ pushAll w max (a ++ f :: b) ks) :
    b ⊆ pushAll w max (a ++ f :: b) ks := by
  induction ks generalizing a b with
  | nil => exact fun x hx => List.mem_append_right a (List.mem_cons_of_mem f hx)
  | cons k ks ih =>
    obtain ⟨hfk, hfks⟩ := not_or.1 (mt List.mem_cons.2 hf)
    rw [pushAll_cons] at hmem ⊢
    by_cases hk : k ∈ a ++ f :: b ∨ max < w k
    · rw [push, if_pos hk] at hmem ⊢
      exact ih hfks a hb hmem
    · have hnd := nodup_push w max hb k
      rw [push, if_neg hk] at hmem hnd ⊢
      -- either `f` has just left, and then it cannot come back, or the queue still ends in `f :: b`
      obtain ⟨d, hd⟩ := room_suffix w max (w k) (a ++ f :: b)
      rcases List.append_eq_append_iff.1 hd with ⟨c, rfl, hc⟩ | ⟨c, rfl, hc⟩
      · rw [hc, List.append_assoc, List.cons_append] at hmem hnd ⊢
        exact fun x hx => ih hfks c hnd hmem (List.mem_append_left [k] hx)
      · cases c with
        | nil =>
          rw [List.nil_append] at hc
          rw [← hc, List.cons_append] at hmem hnd ⊢
          exact fun x hx => ih hfks [] hnd hmem (List.mem_append_left [k] hx)
        | cons y c =>
          obtain ⟨rfl, hb'⟩ := List.cons.inj hc
          have hfb : f ∉ b := (List.nodup_cons.1 (List.nodup_append.1 hb).2.1).1
          rcases mem_pushAll w max hmem with h | h
          · rcases List.mem_append.1 h with h | h
            · exact absurd (hb' ▸ List.mem_append_right c h) hfb
            · exact absurd (List.mem_singleton.1 h) hfk
          · exact absurd h hfks

/-- **When a batch keeps the keys of interest.** Let `R` hold of every key of the batch, none of
which is in the queue yet. After the batch every `R` key of the queue and of the batch is there
if and only if the batch is empty or fits together with the queue from its first `R` key on. -/
theorem pushAll_keeps_iff (R : K → Prop) [DecidablePred R] {q ks : List K} (hq : q.Nodup)
    (hmax : total w q ≤ max) (hnew : ∀ k ∈ ks, k ∉ q) (hR : ∀ k ∈ ks, R k) :
    (∀ k, R k → k ∈ q ∨ k ∈ ks → k ∈ pushAll w max q ks) ↔
      ks = [] ∨ total w (q.dropWhile fun k => ¬ R k) + ∑ k ∈ ks.toFinset, w k ≤ max := by
  set a := q.takeWhile fun k => ¬ R k with ha
  set t := q.dropWhile fun k => ¬ R k with ht
  have hsplit : a ++ t = q := List.takeWhile_append_dropWhile
  have hna : ∀ k ∈ a, ¬ R k := fun k hk => by simpa using List.mem_takeWhile_imp hk
  have hnewt : ∀ k ∈ ks, k ∉ t := fun k hk h => hnew k hk (hsplit ▸ List.mem_append_right a h)
  have hdisj : ks.toFinset \ t.toFinset = ks.toFinset :=
    Finset.sdiff_eq_self_of_disjoint (Finset.disjoint_left.2 fun k hk h =>
      hnewt k (List.mem_toFinset.1 hk) (List.mem_toFinset.1 h))
  constructor
  · intro hall
    by_cases hks : ks = []
    · exact Or.inl hks
    right
    set r := pushAll w max q ks with hr
    have hrt : t ⊆ r := by
      cases hct : t with
      | nil => exact List.nil_subset r
      | cons f b =>
        have hRf : R f := by
          have h := List.head?_dropWhile_not (fun k => decide (¬ R k)) q
          rw [← ht, hct] at h
          simpa using h
        have hfq : f ∈ q := hsplit ▸ List.mem_append_right a (hct ▸ List.mem_cons_self)
        have hfks : f ∉ ks := fun h => hnew f h hfq
        have hfr : f ∈ r := hall f hRf (Or.inl hfq)
        have hq' : q = a ++ f :: b := by rw [← hct, hsplit]
        have hb : b ⊆ r := by
          rw [hr, hq'] at hfr ⊢
          exact subset_pushAll w max hfks a (hq' ▸ hq) hfr
        exact List.cons_subset.2 ⟨hfr, hb⟩
    have hks' : ks ⊆ r := fun k hk => hall k (hR k hk) (Or.inr hk)
    have htn : t.Nodup := hq.sublist (hsplit ▸ List.sublist_append_right a t)
    calc total w t + ∑ k ∈ ks.toFinset, w k
        = ∑ k ∈ t.toFinset ∪ ks.toFinset, w k := by
          rw [total_eq_sum w htn, Finset.sum_union]
          exact Finset.disjoint_left.2 fun k hk h =>
            hnewt k (List.mem_toFinset.1 h) (List.mem_toFinset.1 hk)
      _ ≤ ∑ k ∈ r.toFinset, w k := Finset.sum_le_sum_of_subset fun k hk => by
          rcases Finset.mem_union.1 hk with h | h
          · exact List.mem_toFinset.2 (hrt (List.mem_toFinset.1 h))
          · exact List.mem_toFinset.2 (hks' (List.mem_toFinset.1 h))
      _ = total w r := (total_eq_sum w (nodup_pushAll w max hq ks)).symm
      _ ≤ max := total_pushAll_le w max hmax ks
  · rintro (rfl | hfit) k hRk hk
    · simpa using hk
    · obtain ⟨a', b', -, he, htb, hkb⟩ := pushAll_append w max a (b := t) (hsplit ▸ hq)
        (fun k hk h => hna k h (hR k hk)) (by rw [hdisj]; exact hfit)
      rw [← hsplit, he]
      refine List.mem_append_right a' ?_
      rcases hk with hk | hk
      · rw [← hsplit] at hk
        exact htb ((List.mem_append.1 hk).resolve_left fun h => hna k h hRk)
      · exact hkb hk

end ByteLru
