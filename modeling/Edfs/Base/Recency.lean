import Mathlib.Tactic

/-!
# Recency

A log lists the keys that have been touched, in time order, each as often as it was touched. A key
is older than another if its last touch comes before the other's last touch.

* `Older`, `older_concat`: one more touch, `Older.asymm`;
* `Recent`, a queue in recency order; `Recent.touch`: a touched key goes to the back.
-/

namespace Recency

variable {K : Type*}

/-- The last touch of `x` comes before the last touch of `y`. -/
def Older (log : List K) (x y : K) : Prop := ∃ a b, log = a ++ x :: b ∧ x ∉ b ∧ y ∈ b

variable {log q : List K} {x y z : K}

/-- A touched key has a last touch. -/
theorem exists_last (h : x ∈ log) : ∃ a b, log = a ++ x :: b ∧ x ∉ b := by
  obtain ⟨b, a, hlog, hx⟩ := List.eq_append_cons_of_mem (List.mem_reverse.2 h)
  refine ⟨a.reverse, b.reverse, ?_, by simpa using hx⟩
  have hrev := congrArg List.reverse hlog
  simpa using hrev

theorem older_concat :
    Older (log ++ [z]) x y ↔ z ≠ x ∧ (Older log x y ∨ z = y ∧ x ∈ log) := by
  constructor
  · rintro ⟨a, b, hlog, hx, hy⟩
    rcases List.eq_nil_or_concat b with rfl | ⟨b, z', rfl⟩
    · exact absurd hy List.not_mem_nil
    have hsplit : log ++ [z] = (a ++ x :: b) ++ [z'] := by simpa using hlog
    obtain ⟨rfl, hz⟩ := List.append_inj' hsplit rfl
    obtain rfl := List.cons.inj hz |>.1
    rw [List.concat_eq_append, List.mem_append, List.mem_singleton] at hx hy
    obtain ⟨hxb, hxz⟩ := not_or.1 hx
    refine ⟨fun h => hxz h.symm, hy.imp (fun hyb => ⟨a, b, rfl, hxb, hyb⟩) fun h => ?_⟩
    exact ⟨h.symm, List.mem_append_right a List.mem_cons_self⟩
  · rintro ⟨hzx, ⟨a, b, rfl, hx, hy⟩ | ⟨rfl, hx⟩⟩
    · exact ⟨a, b ++ [z], by simp, by simp [hx, hzx.symm], by simp [hy]⟩
    · obtain ⟨a, b, rfl, hxb⟩ := exists_last hx
      exact ⟨a, b ++ [z], by simp, by simp [hxb, hzx.symm], by simp⟩

theorem Older.ne (h : Older log x y) : x ≠ y := by
  obtain ⟨a, b, -, hx, hy⟩ := h
  rintro rfl
  exact hx hy

theorem Older.asymm (h : Older log x y) : ¬ Older log y x := by
  induction log using List.reverseRecOn with
  | nil =>
    obtain ⟨a, b, hlog, -⟩ := h
    exact absurd hlog (by simp)
  | append_singleton log z ih =>
    intro h'
    obtain ⟨hzx, h⟩ := older_concat.1 h
    obtain ⟨hzy, h'⟩ := older_concat.1 h'
    have hold := h.resolve_right fun hz => hzy hz.1
    exact ih hold (h'.resolve_right fun hz => hzx hz.1)

/-- A queue of touched keys, the older ones first. -/
structure Recent (log q : List K) : Prop where
  touched : ∀ k ∈ q, k ∈ log
  older : q.Pairwise (Older log)

theorem recent_nil : Recent log [] := ⟨nofun, .nil⟩

theorem Recent.sublist {q' : List K} (h : Recent log q) (hsub : q'.Sublist q) : Recent log q' :=
  ⟨fun k hk => h.touched k (hsub.subset hk), h.older.sublist hsub⟩

/-- The key that none is more recent than is at the back. -/
theorem eq_concat_of_newest (hq : q.Pairwise (Older log)) (hx : x ∈ q)
    (hnewest : ∀ y ∈ q, y = x ∨ Older log y x) : ∃ a, q = a ++ [x] := by
  rcases List.eq_nil_or_concat q with rfl | ⟨a, l, rfl⟩
  · exact absurd hx List.not_mem_nil
  rw [List.concat_eq_append] at hq hx hnewest ⊢
  refine ⟨a, ?_⟩
  rcases List.mem_append.1 hx with hxa | hxl
  · have hold := (List.pairwise_append.1 hq).2.2 x hxa l (List.mem_singleton_self l)
    rcases hnewest l (List.mem_append_right a (List.mem_singleton_self l)) with rfl | hlx
    · rfl
    · exact absurd hlx hold.asymm
  · rw [List.mem_singleton.1 hxl]

/-- A touched key goes to the back. -/
theorem Recent.touch (h : Recent log q) (hz : z ∉ q) : Recent (log ++ [z]) (q ++ [z]) := by
  have hne : ∀ k ∈ q, z ≠ k := fun k hk heq => hz (heq ▸ hk)
  constructor
  · intro k hk
    rcases List.mem_append.1 hk with hk | hk
    · exact List.mem_append_left _ (h.touched k hk)
    · exact List.mem_append_right _ hk
  · refine List.pairwise_append.2 ⟨?_, List.pairwise_singleton _ z, ?_⟩
    · exact h.older.imp_of_mem fun hx _ hxy => older_concat.2 ⟨hne _ hx, .inl hxy⟩
    · intro k hk k' hk'
      obtain rfl := List.mem_singleton.1 hk'
      exact older_concat.2 ⟨hne k hk, .inr ⟨rfl, h.touched k hk⟩⟩

end Recency
