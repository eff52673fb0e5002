import Edfs.Base.Execution

/-!
# Forward simulations

A machine refines a more abstract one if the other answers each of its steps, from related states,
by a run to related states.

* `Reaches`: some run leads to a state with a property;
* `Simulates`;
* `Simulates.answers`: whole runs are answered by runs, prefix by prefix.
-/

namespace Execution

variable {L S L' S' : Type}

/-- Some run leads to a state with the property. -/
def Reaches (step : L → S → Option S) (s : S) (P : S → Prop) : Prop :=
  ∃ ls t, run step ls s = some t ∧ P t

/-- Each step of the first machine is answered by a run of the second. -/
def Simulates (step : L → S → Option S) (step' : L' → S' → Option S') (R : S → S' → Prop) : Prop :=
  ∀ l s t s', R s s' → step l s = some t → Reaches step' s' (R t)

section

variable {step : L → S → Option S} {P Q : S → Prop} {s t : S}

theorem Reaches.stay (h : P s) : Reaches step s P := ⟨[], s, rfl, h⟩

theorem Reaches.after {l : L} (hstep : step l s = some t) (h : P t) : Reaches step s P := by
  refine ⟨[l], t, ?_, h⟩
  rw [run_cons, hstep]
  rfl

theorem Reaches.bind (h : Reaches step s P) (hPQ : ∀ t, P t → Reaches step t Q) :
    Reaches step s Q := by
  obtain ⟨ls, t, hrun, ht⟩ := h
  obtain ⟨ls', u, hrun', hu⟩ := hPQ t ht
  exact ⟨ls ++ ls', u, run_append_eq_some.2 ⟨t, hrun, hrun'⟩, hu⟩

end

variable {step : L → S → Option S} {step' : L' → S' → Option S'} {R : S → S' → Prop}

/-- A run is answered by a run that passes through states related to all of its own. -/
theorem Simulates.answers (h : Simulates step step' R) {s t : S} {s' : S'} {ls : List L}
    (hs : R s s') (hrun : run step ls s = some t) :
    ∃ ls' t', run step' ls' s' = some t' ∧ R t t' ∧
      ∀ before u, before <+: ls → run step before s = some u →
        ∃ before' u', before' <+: ls' ∧ run step' before' s' = some u' ∧ R u u' := by
  refine run_rec (P := fun ls t => ∃ ls' t', run step' ls' s' = some t' ∧ R t t' ∧
      ∀ before u, before <+: ls → run step before s = some u →
        ∃ before' u', before' <+: ls' ∧ run step' before' s' = some u' ∧ R u u') ?_ ?_ hrun
  · refine ⟨[], s', rfl, hs, fun before u hbefore hu => ?_⟩
    cases List.prefix_nil.1 hbefore
    cases hu
    exact ⟨[], s', List.prefix_rfl, rfl, hs⟩
  · rintro ls t l u hpre ⟨ls₁, t₁, hrun₁, ht, hbefores⟩ hstep
    obtain ⟨ls₂, u₁, hrun₂, hu⟩ := h l t u t₁ ht hstep
    have hrun' : run step' (ls₁ ++ ls₂) s' = some u₁ := by
      rw [run_append, hrun₁]
      exact hrun₂
    refine ⟨ls₁ ++ ls₂, u₁, hrun', hu, fun before v hbefore hv => ?_⟩
    rcases List.prefix_concat_iff.1 hbefore with rfl | hbefore
    · cases hv.symm.trans (run_concat_eq_some.2 ⟨t, hpre, hstep⟩)
      exact ⟨_, u₁, List.prefix_rfl, hrun', hu⟩
    · obtain ⟨before', v', hbefore', hv'⟩ := hbefores before v hbefore hv
      exact ⟨before', v', hbefore'.trans (List.prefix_append _ _), hv'⟩

end Execution
