import Speedex.Library.Fallible

set_option autoImplicit false

/- Two computations that may throw, side by side. -/
namespace Fallible

variable {ε α β γ δ ι : Type} {R : α → β → Prop} {S : γ → δ → Prop}

/-- Both throw the same, or both end with related results. -/
inductive Agrees (R : α → β → Prop) : Except ε α → Except ε β → Prop
  | ok {a : α} {b : β} (related : R a b) : Agrees R (.ok a) (.ok b)
  | error (e : ε) : Agrees R (.error e) (.error e)

theorem Agrees.bind {x : Except ε α} {y : Except ε β} {f : α → Except ε γ} {g : β → Except ε δ} (agrees : Agrees R x y)
    (next : ∀ a b, R a b → Agrees S (f a) (g b)) : Agrees S (x >>= f) (y >>= g) := by
  cases agrees with
  | ok related => exact next _ _ related
  | error e => exact .error e

/-- Loops agree when their steps do. -/
theorem Agrees.foldlM {f : α → ι → Except ε α} {g : β → ι → Except ε β}
    (step : ∀ i a b, R a b → Agrees R (f a i) (g b i)) (l : List ι) {a : α} {b : β} (start : R a b) :
    Agrees R (l.foldlM f a) (l.foldlM g b) := by
  induction l generalizing a b with
  | nil => exact .ok start
  | cons i l ih =>
    rw [List.foldlM_cons, List.foldlM_cons]
    exact (step i a b start).bind (fun a b related => ih related)

theorem Agrees.of_ok {a : α} {y : Except ε β} (agrees : Agrees R (.ok a) y) : ∃ b, y = .ok b ∧ R a b := by
  cases agrees with
  | ok related => exact ⟨_, rfl, related⟩

/-- What throws nothing on the right throws nothing on the left. -/
theorem Agrees.of_ok_right {x : Except ε α} {b : β} (agrees : Agrees R x (.ok b)) : ∃ a, x = .ok a ∧ R a b := by
  cases agrees with
  | ok related => exact ⟨_, rfl, related⟩

end Fallible
