import Mathlib.Logic.Basic

set_option autoImplicit false

/- Runs of labelled steps, and what carries over from one step to a run. -/
namespace Simulation

variable {L S T : Type}

/-- The steps with these labels, one after the other. -/
inductive Runs (step : L → S → S → Prop) : List L → S → S → Prop
  | nil (s : S) : Runs step [] s s
  | cons {l : L} {ls : List L} {s s' s'' : S} (first : step l s s') (rest : Runs step ls s' s'') :
      Runs step (l :: ls) s s''

variable {step : L → S → S → Prop} {step' : L → T → T → Prop} {labels : List L} {s s' : S}

/-- What every step preserves holds at the end of a run. -/
theorem Runs.invariant {Inv : S → Prop} (run : Runs step labels s s')
    (preserved : ∀ l s s', step l s s' → Inv s → Inv s') (start : Inv s) : Inv s' := by
  induction run with
  | nil => exact start
  | cons first rest ih => exact ih (preserved _ _ _ first start)

/-- If every step is matched by a step of another system, every run is matched by a run. -/
theorem Runs.simulated {Match : S → T → Prop} {t : T} (run : Runs step labels s s')
    (matched : ∀ l s s' t, step l s s' → Match s t → ∃ t', step' l t t' ∧ Match s' t') (start : Match s t) :
    ∃ t', Runs step' labels t t' ∧ Match s' t' := by
  induction run generalizing t with
  | nil => exact ⟨t, .nil t, start⟩
  | cons first rest ih =>
    obtain ⟨t', first', next⟩ := matched _ _ _ _ first start
    obtain ⟨t'', rest', last⟩ := ih next
    exact ⟨t'', .cons first' rest', last⟩

end Simulation
