import Mathlib.Tactic

/-!
# Runs of labelled partial transitions

`step l s` is the state the event `l` leads to from `s`, if it can happen there. `run` takes a
whole list of events; `Meets` says that each event of a run happens in a state that satisfies a
condition on the two.

* `run_rec`, the induction over runs by their last event;
* `run_invariant`, `run_invariant_of_meets`: what every step preserves, a run preserves.
-/

namespace Execution

variable {S L : Type*} (step : L → S → Option S)

/-- The state after a list of events. -/
def run : List L → S → Option S
  | [], s => some s
  | l :: ls, s => (step l s).bind (run ls)

@[simp] theorem run_nil (s : S) : run step [] s = some s := rfl

@[simp] theorem run_cons (l : L) (ls : List L) (s : S) :
    run step (l :: ls) s = (step l s).bind (run step ls) := rfl

theorem run_append (ls ls' : List L) (s : S) :
    run step (ls ++ ls') s = (run step ls s).bind (run step ls') := by
  induction ls generalizing s with
  | nil => rfl
  | cons l ls ih => cases h : step l s <;> simp [h, ih]

theorem run_concat (ls : List L) (l : L) (s : S) :
    run step (ls ++ [l]) s = (run step ls s).bind (step l) := by
  rw [run_append]
  exact congrArg _ (funext fun t => by cases h : step l t <;> simp [h])

variable {step}

theorem run_append_eq_some {ls ls' : List L} {s u : S} :
    run step (ls ++ ls') s = some u ↔
      ∃ t, run step ls s = some t ∧ run step ls' t = some u := by
  rw [run_append, Option.bind_eq_some_iff]

theorem run_concat_eq_some {ls : List L} {l : L} {s u : S} :
    run step (ls ++ [l]) s = some u ↔ ∃ t, run step ls s = some t ∧ step l t = some u := by
  rw [run_concat, Option.bind_eq_some_iff]

/-- Induction over runs, by the last event. -/
theorem run_rec {s : S} {P : List L → S → Prop} (nil : P [] s)
    (snoc : ∀ ls t l u, run step ls s = some t → P ls t → step l t = some u → P (ls ++ [l]) u)
    {ls : List L} {t : S} (h : run step ls s = some t) : P ls t := by
  induction ls using List.reverseRecOn generalizing t with
  | nil => cases h; exact nil
  | append_singleton ls l ih =>
    obtain ⟨u, hu, hl⟩ := run_concat_eq_some.1 h
    exact snoc ls u l t hu (ih hu) hl

/-- What every step preserves, a run preserves. -/
theorem run_invariant {I : S → Prop} (hstep : ∀ l s t, I s → step l s = some t → I t)
    {s t : S} {ls : List L} (hs : I s) (h : run step ls s = some t) : I t :=
  run_rec (P := fun _ t => I t) hs (fun _ t l u _ ht hl => hstep l t u ht hl) h

/-! ### Conditions on the steps of a run -/

variable (step) in
/-- Every event of the list happens, when it does, in a state where the condition holds. -/
def Meets (C : L → S → Prop) : List L → S → Prop
  | [], _ => True
  | l :: ls, s => C l s ∧ ∀ t, step l s = some t → Meets C ls t

theorem meets_append {C : L → S → Prop} {ls ls' : List L} {s : S} :
    Meets step C (ls ++ ls') s ↔
      Meets step C ls s ∧ ∀ t, run step ls s = some t → Meets step C ls' t := by
  induction ls generalizing s with
  | nil => simp [Meets]
  | cons l ls ih =>
    simp only [List.cons_append, Meets, ih, run_cons, Option.bind_eq_some_iff]
    constructor
    · rintro ⟨hl, hrest⟩
      exact ⟨⟨hl, fun t ht => (hrest t ht).1⟩, fun u ⟨t, ht, hu⟩ => (hrest t ht).2 u hu⟩
    · rintro ⟨⟨hl, hls⟩, hrest⟩
      exact ⟨hl, fun t ht => ⟨hls t ht, fun u hu => hrest u ⟨t, ht, hu⟩⟩⟩

theorem meets_concat {C : L → S → Prop} {ls : List L} {l : L} {s : S} :
    Meets step C (ls ++ [l]) s ↔
      Meets step C ls s ∧ ∀ t, run step ls s = some t → C l t := by
  rw [meets_append]
  simp [Meets]

theorem Meets.imp {C D : L → S → Prop} (hCD : ∀ l s, C l s → D l s) {ls : List L} {s : S}
    (h : Meets step C ls s) : Meets step D ls s := by
  induction ls generalizing s with
  | nil => trivial
  | cons l ls ih => exact ⟨hCD l s h.1, fun t ht => ih (h.2 t ht)⟩

theorem Meets.and {C D : L → S → Prop} {ls : List L} {s : S} (hC : Meets step C ls s)
    (hD : Meets step D ls s) : Meets step (fun l s => C l s ∧ D l s) ls s := by
  induction ls generalizing s with
  | nil => trivial
  | cons l ls ih => exact ⟨⟨hC.1, hD.1⟩, fun t ht => ih (hC.2 t ht) (hD.2 t ht)⟩

/-- Whether a run meets a decidable condition can be evaluated. -/
def decideMeets {C : L → S → Prop} [∀ l s, Decidable (C l s)] :
    ∀ (ls : List L) (s : S), Decidable (Meets step C ls s)
  | [], _ => isTrue trivial
  | l :: ls, s =>
    match h : step l s with
    | none => decidable_of_iff (C l s) ⟨fun hc => ⟨hc, fun t ht => by simp [h] at ht⟩, And.left⟩
    | some t =>
      have := decideMeets (C := C) ls t
      decidable_of_iff (C l s ∧ Meets step C ls t)
        ⟨fun hc => ⟨hc.1, fun u hu => by cases h.symm.trans hu; exact hc.2⟩,
          fun hc => ⟨hc.1, hc.2 t h⟩⟩

instance {C : L → S → Prop} [∀ l s, Decidable (C l s)] (ls : List L) (s : S) :
    Decidable (Meets step C ls s) := decideMeets ls s

/-- What every step that meets the condition preserves, a run of such steps preserves. -/
theorem run_invariant_of_meets {C : L → S → Prop} {I : S → Prop}
    (hstep : ∀ l s t, C l s → I s → step l s = some t → I t) {s t : S} {ls : List L}
    (hs : I s) (hC : Meets step C ls s) (h : run step ls s = some t) : I t := by
  have key : Meets step C ls s → I t := by
    refine run_rec (P := fun ls t => Meets step C ls s → I t) (fun _ => hs) ?_ h
    intro ls t l u ht ih hl hm
    obtain ⟨hls, hlast⟩ := meets_concat.1 hm
    exact hstep l t u (hlast t ht) (ih hls) hl
  exact key hC

end Execution
