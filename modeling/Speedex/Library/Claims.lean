import Mathlib.Algebra.BigOperators.Group.List.Basic
import Mathlib.Algebra.Order.Group.Multiset
import Mathlib.Data.Multiset.UnionInter
import Mathlib.Tactic.Common

set_option autoImplicit false

/- Steps that claim resources, each of which can be claimed once, and add to a tally. Which lists of such steps go
through, and what they do, does not depend on their order. -/
namespace Claims

variable {C R S T τ : Type}

/-- What a step claims and what it adds. -/
@[ext] structure Effect (R T : Type) where
  claims : Multiset R
  tally : T

namespace Effect

variable [AddCommMonoid T]

instance : Zero (Effect R T) := ⟨⟨0, 0⟩⟩
instance : Add (Effect R T) := ⟨fun e e' => ⟨e.claims + e'.claims, e.tally + e'.tally⟩⟩

@[simp] theorem zero_claims : (0 : Effect R T).claims = 0 := rfl
@[simp] theorem zero_tally : (0 : Effect R T).tally = 0 := rfl
@[simp] theorem add_claims (e e' : Effect R T) : (e + e').claims = e.claims + e'.claims := rfl
@[simp] theorem add_tally (e e' : Effect R T) : (e + e').tally = e.tally + e'.tally := rfl

instance : AddCommMonoid (Effect R T) where
  zero_add e := Effect.ext (zero_add _) (zero_add _)
  add_zero e := Effect.ext (add_zero _) (add_zero _)
  add_assoc e e' e'' := Effect.ext (add_assoc _ _ _) (add_assoc _ _ _)
  add_comm e e' := Effect.ext (add_comm _ _) (add_comm _ _)
  nsmul := nsmulRec

end Effect

/-- No resource is claimed twice, and none that is taken. -/
structure Admissible (taken : R → Prop) (e : Effect R T) : Prop where
  nodup : e.claims.Nodup
  free : ∀ r ∈ e.claims, ¬ taken r

variable [AddCommMonoid T] {taken : R → Prop} {e e' : Effect R T}

theorem admissible_zero : Admissible taken (0 : Effect R T) :=
  ⟨Multiset.nodup_zero, fun r member => absurd member (Multiset.notMem_zero r)⟩

theorem admissible_add : Admissible taken (e + e') ↔
    Admissible taken e ∧ Admissible (fun r => taken r ∨ r ∈ e.claims) e' := by
  constructor
  · rintro ⟨nodup, free⟩
    obtain ⟨first, second, apart⟩ := Multiset.nodup_add.mp nodup
    refine ⟨⟨first, fun r member => free r (Multiset.mem_add.mpr (.inl member))⟩, second, ?_⟩
    rintro r member (before | claimed)
    · exact free r (Multiset.mem_add.mpr (.inr member)) before
    · exact Multiset.disjoint_left.mp apart claimed member
  · rintro ⟨⟨first, free⟩, second, free'⟩
    refine ⟨Multiset.nodup_add.mpr ⟨first, second, Multiset.disjoint_left.mpr ?_⟩, ?_⟩
    · exact fun claimed member => free' _ member (.inr claimed)
    · intro r member
      rcases Multiset.mem_add.mp member with old | new
      · exact free r old
      · exact fun before => free' r new (.inl before)

theorem Admissible.left (admissible : Admissible taken (e + e')) : Admissible taken e := (admissible_add.mp admissible).1

/-- A single new claim is admissible if it is not taken and not claimed before. -/
theorem admissible_add_singleton {r : R} {tally : T} : Admissible taken (e + ⟨{r}, tally⟩) ↔
    Admissible taken e ∧ ¬ taken r ∧ r ∉ e.claims := by
  rw [admissible_add]
  refine and_congr_right (fun _ => ⟨fun second => ?_, fun fresh => ⟨Multiset.nodup_singleton r, ?_⟩⟩)
  · exact not_or.mp (second.free r (Multiset.mem_singleton_self r))
  · intro r' member
    rw [Multiset.mem_singleton.mp member]
    exact not_or.mpr fresh

/-- What claims nothing is admissible. -/
theorem admissible_add_tally {tally : T} : Admissible taken (e + ⟨0, tally⟩) ↔ Admissible taken e := by
  rw [admissible_add]
  exact and_iff_left ⟨Multiset.nodup_zero, fun r member => absurd member (Multiset.notMem_zero r)⟩

/-- The effect of a list of steps. What a step does may depend on a context that the steps before it made. -/
def effects (effect : C → τ → Option (C × Effect R T)) : C → List τ → Option (C × Effect R T)
  | c, [] => some (c, 0)
  | c, t :: ts => (effect c t).bind (fun first => (effects effect first.1 ts).map (fun rest => (rest.1, first.2 + rest.2)))

/-- The steps of a machine do what their effects say; `After` relates a state to the context and the effect of all
steps so far. -/
structure Realizes (taken : R → Prop) (effect : C → τ → Option (C × Effect R T)) (After : C → Effect R T → S → Prop)
    (step : S → τ → Option S) : Prop where
  accepts : ∀ {c E s t c' e}, After c E s → effect c t = some (c', e) → Admissible taken (E + e) →
    ∃ s', step s t = some s'
  only : ∀ {c E s t s'}, After c E s → Admissible taken E → step s t = some s' →
    ∃ c' e, effect c t = some (c', e) ∧ Admissible taken (E + e) ∧ After c' (E + e) s'

section Runs

variable {step : S → τ → Option S} {effect : C → τ → Option (C × Effect R T)} {After : C → Effect R T → S → Prop}
  {c : C} {E : Effect R T} {s : S} {ts : List τ}

/-- A list of steps does what its effect says. -/
theorem Realizes.run (realizes : Realizes taken effect After step) (after : After c E s) (admissible : Admissible taken E)
    {s' : S} (run : ts.foldlM step s = some s') :
    ∃ c' e, effects effect c ts = some (c', e) ∧ Admissible taken (E + e) ∧ After c' (E + e) s' := by
  induction ts generalizing c E s with
  | nil =>
    cases run
    exact ⟨c, 0, rfl, by rwa [add_zero], by rwa [add_zero]⟩
  | cons t ts ih =>
    rw [List.foldlM_cons, Option.bind_eq_bind, Option.bind_eq_some_iff] at run
    obtain ⟨s₁, first, rest⟩ := run
    obtain ⟨c₁, e₁, effected, admissible₁, after₁⟩ := realizes.only after admissible first
    obtain ⟨c₂, e₂, effected₂, admissible₂, after₂⟩ := ih after₁ admissible₁ rest
    refine ⟨c₂, e₁ + e₂, ?_, ?_, ?_⟩
    · rw [effects, effected, Option.bind_some, effected₂, Option.map_some]
    · rwa [← add_assoc]
    · rwa [← add_assoc]

/-- A list of steps with an admissible effect goes through. -/
theorem Realizes.run_accepts (realizes : Realizes taken effect After step) (after : After c E s) {c' : C} {e : Effect R T}
    (effected : effects effect c ts = some (c', e)) (admissible : Admissible taken (E + e)) :
    ∃ s', ts.foldlM step s = some s' := by
  induction ts generalizing c E s e with
  | nil => exact ⟨s, rfl⟩
  | cons t ts ih =>
    rw [effects, Option.bind_eq_some_iff] at effected
    obtain ⟨⟨c₁, e₁⟩, first, effected⟩ := effected
    obtain ⟨⟨c₂, e₂⟩, rest, same⟩ := Option.map_eq_some_iff.mp effected
    cases same
    rw [← add_assoc] at admissible
    obtain ⟨s₁, stepped⟩ := realizes.accepts after first admissible.left
    obtain ⟨c₁', e₁', first', -, after₁⟩ := realizes.only after admissible.left.left stepped
    rw [first] at first'
    cases first'
    obtain ⟨s', run⟩ := ih after₁ rest admissible
    exact ⟨s', by rw [List.foldlM_cons, stepped]; exact run⟩

end Runs

section Orders

variable {step : S → τ → Option S} {effect : τ → Option (Effect R T)} {After : Effect R T → S → Prop}
  {E : Effect R T} {s : S} {ts ts' : List τ}

/-- Steps whose effects do not depend on each other. -/
def alone (effect : τ → Option (Effect R T)) (_ : Unit) (t : τ) : Option (Unit × Effect R T) := (effect t).map (fun e => ((), e))

/-- The effect of a list of such steps, where a step without effect counts as nothing. -/
def total (effect : τ → Option (Effect R T)) (ts : List τ) : Effect R T := (ts.map (fun t => (effect t).getD 0)).sum

theorem total_perm (same : ts.Perm ts') : total effect ts = total effect ts' := (same.map _).sum_eq

@[simp] theorem total_cons (t : τ) (ts : List τ) : total effect (t :: ts) = (effect t).getD 0 + total effect ts := by
  rw [total, total, List.map_cons, List.sum_cons]

theorem effects_alone {e : Effect R T} : effects (alone effect) () ts = some ((), e) ↔
    (∀ t ∈ ts, (effect t).isSome = true) ∧ e = total effect ts := by
  induction ts generalizing e with
  | nil =>
    constructor
    · intro none
      cases none
      exact ⟨fun t member => absurd member List.not_mem_nil, rfl⟩
    · rintro ⟨-, rfl⟩
      rfl
  | cons t ts ih =>
    rw [effects, alone, List.forall_mem_cons, total_cons]
    cases effected : effect t with
    | none => simp
    | some e₁ =>
      simp only [Option.map_some, Option.bind_some, Option.map_eq_some_iff, Option.getD_some, Option.isSome_some,
        true_and]
      constructor
      · rintro ⟨⟨c, e₂⟩, rest, same⟩
        cases same
        obtain ⟨all, total⟩ := ih.mp rest
        exact ⟨all, by rw [total]⟩
      · rintro ⟨all, rfl⟩
        exact ⟨((), total effect ts), ih.mpr ⟨all, rfl⟩, rfl⟩

/-- In another order the same list goes through too, with the same effect. -/
theorem Realizes.run_perm (realizes : Realizes taken (alone effect) (fun _ => After) step) (same : ts.Perm ts')
    {s₁ : S} (after : After E s) (after' : After E s₁) (admissible : Admissible taken E) {s' : S}
    (run : ts.foldlM step s = some s') :
    ∃ s'', ts'.foldlM step s₁ = some s'' ∧ Admissible taken (E + total effect ts) ∧ After (E + total effect ts) s' ∧
      After (E + total effect ts) s'' := by
  obtain ⟨c, e, effected, admissible', after₂⟩ := realizes.run after admissible run
  obtain ⟨all, rfl⟩ := effects_alone.mp effected
  have effected' : effects (alone effect) () ts' = some ((), total effect ts) :=
    effects_alone.mpr ⟨fun t member => all t (same.mem_iff.mpr member), total_perm same⟩
  obtain ⟨s'', run'⟩ := realizes.run_accepts after' effected' admissible'
  obtain ⟨c', e', effected'', -, after₃⟩ := realizes.run after' admissible run'
  rw [effected'] at effected''
  cases effected''
  exact ⟨s'', run', admissible', after₂, after₃⟩

/-- A machine that may also refuse a step, and then is where it was. -/
structure Performs (taken : R → Prop) (effect : τ → Option (Effect R T)) (After : Effect R T → S → Prop)
    (step : S → τ → Option (S × Bool)) : Prop where
  done : ∀ {E s t s'}, After E s → Admissible taken E → step s t = some (s', true) →
    ∃ e, effect t = some e ∧ Admissible taken (E + e) ∧ After (E + e) s'
  refused : ∀ {E s t s'}, After E s → Admissible taken E → step s t = some (s', false) → After E s'

/-- The steps of a list that are done. -/
def perform (step : S → τ → Option (S × Bool)) : S → List τ → Option (S × List τ)
  | s, [] => some (s, [])
  | s, t :: ts => (step s t).bind (fun first =>
      (perform step first.1 ts).map (fun rest => (rest.1, if first.2 then t :: rest.2 else rest.2)))

/-- The steps that are done have effects, and the machine ends as after these. -/
theorem Performs.run {step : S → τ → Option (S × Bool)} (performs : Performs taken effect After step) (after : After E s)
    (admissible : Admissible taken E) {s' : S} {done : List τ} (run : perform step s ts = some (s', done)) :
    (∀ t ∈ done, (effect t).isSome = true) ∧ Admissible taken (E + total effect done) ∧ After (E + total effect done) s' := by
  induction ts generalizing E s done with
  | nil =>
    cases run
    refine ⟨fun t member => absurd member List.not_mem_nil, ?_, ?_⟩
    · rwa [total, List.map_nil, List.sum_nil, add_zero]
    · rwa [total, List.map_nil, List.sum_nil, add_zero]
  | cons t ts ih =>
    rw [perform, Option.bind_eq_some_iff] at run
    obtain ⟨⟨s₁, accepted⟩, first, run⟩ := run
    obtain ⟨⟨s₂, rest⟩, later, same⟩ := Option.map_eq_some_iff.mp run
    cases accepted with
    | false =>
      cases same
      exact ih (performs.refused after admissible first) admissible later
    | true =>
      cases same
      obtain ⟨e, effected, admissible₁, after₁⟩ := performs.done after admissible first
      obtain ⟨all, admissible₂, after₂⟩ := ih after₁ admissible₁ later
      rw [if_pos rfl, total_cons, effected, Option.getD_some, ← add_assoc]
      refine ⟨?_, admissible₂, after₂⟩
      rw [List.forall_mem_cons]
      exact ⟨by rw [effected]; rfl, all⟩

end Orders

end Claims
