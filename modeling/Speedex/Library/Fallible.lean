import Mathlib.Data.List.Basic
import Mathlib.Tactic.Common

set_option autoImplicit false

/- Loops that may throw: a fold in `Except` and the rules to reason about it. -/
namespace Fallible

variable {ε α β σ : Type}

theorem bind_eq_ok {x : Except ε α} {f : α → Except ε β} {b : β} :
    (x >>= f) = .ok b ↔ ∃ a, x = .ok a ∧ f a = .ok b := by
  cases x with
  | error e => exact ⟨nofun, fun ⟨_, absurd, _⟩ => nomatch absurd⟩
  | ok a => exact ⟨fun done => ⟨a, rfl, done⟩, fun ⟨_, rfl, done⟩ => done⟩

/-- A loop that throws nothing keeps whatever each of its steps keeps; `done` is the part of the
list the loop has passed. -/
theorem foldlM_invariant {f : σ → α → Except ε σ} (P : List α → σ → Prop) {l : List α} {s s' : σ}
    (start : P [] s) (run : l.foldlM f s = .ok s')
    (step : ∀ done a s s', done ++ [a] <+: l → P done s → f s a = .ok s' → P (done ++ [a]) s') :
    P l s' := by
  have general : ∀ rest done s, done ++ rest = l → P done s → rest.foldlM f s = .ok s' → P l s' := by
    intro rest
    induction rest with
    | nil =>
      intro done s whole kept run
      rw [List.append_nil] at whole
      cases run
      exact whole ▸ kept
    | cons a rest ih =>
      intro done s whole kept run
      rw [List.foldlM_cons, bind_eq_ok] at run
      obtain ⟨s₁, once, run⟩ := run
      have reached : done ++ [a] ++ rest = l := by simpa using whole
      exact ih (done ++ [a]) s₁ reached (step done a s s₁ ⟨rest, reached⟩ kept once) run
  exact general l [] s rfl start run

/-- A loop whose every step succeeds under the invariant succeeds. -/
theorem foldlM_total {f : σ → α → Except ε σ} (P : List α → σ → Prop) {l : List α} {s : σ}
    (start : P [] s)
    (step : ∀ done a s, done ++ [a] <+: l → P done s → ∃ s', f s a = .ok s' ∧ P (done ++ [a]) s') :
    ∃ s', l.foldlM f s = .ok s' ∧ P l s' := by
  have general : ∀ rest done s, done ++ rest = l → P done s →
      ∃ s', rest.foldlM f s = .ok s' ∧ P l s' := by
    intro rest
    induction rest with
    | nil =>
      intro done s whole kept
      rw [List.append_nil] at whole
      exact ⟨s, rfl, whole ▸ kept⟩
    | cons a rest ih =>
      intro done s whole kept
      have reached : done ++ [a] ++ rest = l := by simpa using whole
      obtain ⟨s₁, once, kept⟩ := step done a s ⟨rest, reached⟩ kept
      obtain ⟨s', run, final⟩ := ih (done ++ [a]) s₁ reached kept
      exact ⟨s', by rw [List.foldlM_cons, once]; exact run, final⟩
  exact general l [] s rfl start

/-- A loop without a state succeeds if and only if each of its steps does. -/
theorem forM_eq_ok {f : α → Except ε Unit} {l : List α} : l.forM f = .ok () ↔ ∀ a ∈ l, f a = .ok () := by
  induction l with
  | nil => exact iff_of_true rfl (fun a absurd => (List.not_mem_nil absurd).elim)
  | cons a l ih =>
    show (f a >>= fun _ => l.forM f) = .ok () ↔ _
    rw [bind_eq_ok, List.forall_mem_cons, ← ih]
    constructor
    · rintro ⟨_, once, rest⟩
      exact ⟨once, rest⟩
    · rintro ⟨once, rest⟩
      exact ⟨(), once, rest⟩

/-- A traversal whose every call succeeds returns the list of their results. -/
theorem mapM_total {f : α → Except ε β} {l : List α} (each : ∀ a ∈ l, ∃ b, f a = .ok b) :
    ∃ bs, l.mapM f = .ok bs ∧ List.Forall₂ (fun a b => f a = .ok b) l bs := by
  induction l with
  | nil => exact ⟨[], rfl, List.Forall₂.nil⟩
  | cons a l ih =>
    obtain ⟨b, once⟩ := each a List.mem_cons_self
    obtain ⟨bs, run, rest⟩ := ih (fun a member => each a (List.mem_cons_of_mem _ member))
    refine ⟨b :: bs, ?_, List.Forall₂.cons once rest⟩
    rw [List.mapM_cons, once, run]
    rfl

/-- A traversal that succeeds has called its function on every element. -/
theorem forall₂_of_mapM {f : α → Except ε β} {l : List α} {bs : List β} (run : l.mapM f = .ok bs) :
    List.Forall₂ (fun a b => f a = .ok b) l bs := by
  induction l generalizing bs with
  | nil =>
    cases run
    exact List.Forall₂.nil
  | cons a l ih =>
    rw [List.mapM_cons, bind_eq_ok] at run
    obtain ⟨b, once, run⟩ := run
    rw [bind_eq_ok] at run
    obtain ⟨rest, run, whole⟩ := run
    cases whole
    exact List.Forall₂.cons once (ih run)

end Fallible
