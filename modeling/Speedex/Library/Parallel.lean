import Mathlib.Data.List.Perm.Basic
import Mathlib.Data.List.Basic
import Mathlib.Tactic.Common

set_option autoImplicit false

/- What a library leaves open: the order within the parts of a partition, and the way a parallel loop
divides its range. -/
namespace Parallel

variable {α σ : Type}

/-- `std::partition`: the elements with the property come first, in any order. -/
structure StdPartition (α : Type) where
  run : (α → Bool) → List α → List α × List α
  front : ∀ p items, (run p items).1.Perm (items.filter p)
  rest : ∀ p items, (run p items).2.Perm (items.filter (fun a => !p a))

/-- The partition that keeps the order. -/
def StdPartition.stable : StdPartition α where
  run p items := (items.filter p, items.filter (fun a => !p a))
  front _ _ := List.Perm.refl _
  rest _ _ := List.Perm.refl _

/-- How `parallel_reduce` runs its bodies: one body goes over ranges one after another, and a range may
be given to a new body that is joined later. -/
inductive Reduction (α : Type) where
  | chunk (items : List α)
  | onward (first next : Reduction α)
  | split (left right : Reduction α)

namespace Reduction

/-- The elements, in the order of the range. -/
def items : Reduction α → List α
  | .chunk items => items
  | .onward first next => first.items ++ next.items
  | .split left right => left.items ++ right.items

/-- The state of the body at the end. A new body starts with `fresh`. -/
def run (apply : List α → σ → σ) (fresh : σ) (join : σ → σ → σ) : Reduction α → σ → σ
  | .chunk items, s => apply items s
  | .onward first next, s => run apply fresh join next (run apply fresh join first s)
  | .split left right, s => join (run apply fresh join left s) (run apply fresh join right fresh)

/-- A body that joins the measure of what it sees measures the whole range, however it is divided. -/
theorem run_eq {apply : List α → σ → σ} {fresh : σ} {join : σ → σ → σ} {measure : List α → σ}
    (applied : ∀ items s, apply items s = join s (measure items))
    (append : ∀ items items', measure (items ++ items') = join (measure items) (measure items'))
    (assoc : ∀ a b c, join (join a b) c = join a (join b c)) (neutral : ∀ s, join fresh s = s)
    (r : Reduction α) (s : σ) : r.run apply fresh join s = join s (measure r.items) := by
  induction r generalizing s with
  | chunk items => exact applied items s
  | onward first next ih ih' => rw [run, ih', ih, assoc, items, append]
  | split left right ih ih' => rw [run, ih, ih', neutral, assoc, items, append]

end Reduction

/-- How `parallel_for` divides a range. -/
structure Division (α : Type) where
  run : List α → List (List α)
  covers : ∀ items, (run items).flatten = items

/-- A body of its own for every element. -/
def Division.single : Division α where
  run items := items.map (fun item => [item])
  covers items := by
    induction items with
    | nil => rfl
    | cons item items ih => rw [List.map_cons, List.flatten_cons, ih]; rfl

/-- The splits that a scheduler makes: a range is kept, or split and its halves divided further. -/
inductive Splits where
  | keep
  | split (first rest : Splits)

section Divide

variable {ε R : Type} {isDivisible : R → Bool} {halve : R → Except ε (R × R)}

variable (isDivisible halve) in
/-- How `parallel_for` divides a range with a splitting constructor: only divisible ranges are split. -/
def divide : Splits → R → Except ε (List R)
  | .keep, range => .ok [range]
  | .split first rest, range =>
    if isDivisible range then
      match halve range with
      | .error e => .error e
      | .ok halves =>
        match divide first halves.1, divide rest halves.2 with
        | .ok parts, .ok parts' => .ok (parts ++ parts')
        | .error e, _ => .error e
        | _, .error e => .error e
    else .ok [range]

theorem divide_of_indivisible {range : R} (whole : isDivisible range = false) (splits : Splits) :
    divide isDivisible halve splits range = .ok [range] := by
  cases splits with
  | keep => rfl
  | split first rest => rw [divide, if_neg (by rw [whole]; exact Bool.false_ne_true)]

/-- What one split keeps, every division keeps. -/
theorem divide_spec (Good : R → Prop) (Covers : R → List R → Prop)
    (keep : ∀ range, Good range → Covers range [range])
    (split : ∀ range, Good range → isDivisible range = true → ∃ first rest, halve range = .ok (first, rest) ∧
      Good first ∧ Good rest ∧
      ∀ parts parts', Covers first parts → Covers rest parts' → Covers range (parts ++ parts'))
    (splits : Splits) {range : R} (good : Good range) :
    ∃ parts, divide isDivisible halve splits range = .ok parts ∧ Covers range parts := by
  induction splits generalizing range with
  | keep => exact ⟨[range], rfl, keep range good⟩
  | split plan plan' ih ih' =>
    by_cases divisible : isDivisible range = true
    · obtain ⟨first, rest, halved, good, good', join⟩ := split range good divisible
      obtain ⟨parts, run, covers⟩ := ih good
      obtain ⟨parts', run', covers'⟩ := ih' good'
      refine ⟨parts ++ parts', ?_, join parts parts' covers covers'⟩
      simp only [divide, if_pos divisible, halved, run, run']
    · rw [divide, if_neg divisible]
      exact ⟨[range], rfl, keep range good⟩

end Divide

/-- The order in which concurrent effects happen. -/
structure Interleaving (α : Type) where
  run : List α → List α
  perm : ∀ items, (run items).Perm items

/-- One effect after the other. -/
def Interleaving.sequential : Interleaving α := ⟨id, List.Perm.refl⟩

end Parallel
