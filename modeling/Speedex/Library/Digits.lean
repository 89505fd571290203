import Mathlib.Algebra.GroupWithZero.Nat
import Mathlib.Order.Lattice
import Mathlib.Order.Fin.Basic
import Mathlib.Data.List.Lex
import Mathlib.Tactic.Common
import Mathlib.Algebra.Order.Ring.Nat

set_option autoImplicit false

/- Digit strings of a fixed length: common prefixes, truncation with zero fill
and the lexicographic order, as a radix tree uses them. -/
namespace Digits

/-- Hexadecimal digits. -/
instance (priority := 2000) neZeroSixteen : NeZero 16 := ⟨by decide⟩

variable {α : Type}

theorem take_of_take {a b : List α} {n m : Nat} (same : a.take n = b.take n) (below : m ≤ n) :
    a.take m = b.take m := by
  have shorter := congrArg (List.take m) same
  simpa only [List.take_take, Nat.min_eq_left below] using shorter

section CommonPrefix

variable [DecidableEq α]

/-- Length of the longest common prefix of two digit strings. -/
def commonLen : List α → List α → Nat
  | x :: xs, y :: ys => if x = y then commonLen xs ys + 1 else 0
  | _, _ => 0

theorem commonLen_le_left (a b : List α) : commonLen a b ≤ a.length := by
  fun_induction commonLen a b with
  | case1 x xs ys ih => simpa using ih
  | case2 => exact Nat.zero_le _
  | case3 => exact Nat.zero_le _

theorem commonLen_comm (a b : List α) : commonLen a b = commonLen b a := by
  fun_induction commonLen a b with
  | case1 x xs ys ih => simp [commonLen, ih]
  | case2 x xs y ys apart => simp [commonLen, Ne.symm apart]
  | case3 a b short =>
    cases a with
    | nil => cases b <;> rfl
    | cons x xs =>
      cases b with
      | nil => rfl
      | cons y ys => exact absurd rfl (short x xs y ys rfl)

theorem commonLen_le_right (a b : List α) : commonLen a b ≤ b.length := by
  rw [commonLen_comm]
  exact commonLen_le_left b a

@[simp] theorem commonLen_self (a : List α) : commonLen a a = a.length := by
  induction a with
  | nil => rfl
  | cons x xs ih => simp [commonLen, ih]

/-- A common prefix of length `n` is exactly agreement of the first `n` digits. -/
theorem le_commonLen_iff {n : Nat} {a b : List α} (left : n ≤ a.length) (right : n ≤ b.length) :
    n ≤ commonLen a b ↔ a.take n = b.take n := by
  induction n generalizing a b with
  | zero => simp
  | succ n ih =>
    match a, b, left, right with
    | x :: xs, y :: ys, left, right =>
      have inner := ih (a := xs) (b := ys) (by simpa using left) (by simpa using right)
      by_cases same : x = y
      · simp [commonLen, same, inner]
      · simp [commonLen, same]

theorem take_commonLen (a b : List α) : a.take (commonLen a b) = b.take (commonLen a b) :=
  (le_commonLen_iff (commonLen_le_left a b) (commonLen_le_right a b)).mp (Nat.le_refl _)

end CommonPrefix

section Digit

variable [Zero α]

/-- The digit at position `n`. -/
def digit (a : List α) (n : Nat) : α := a.getD n 0

/-- Keep the first `n` digits and zero the rest. -/
def truncate (a : List α) (n : Nat) : List α := a.take n ++ List.replicate (a.length - n) 0

@[simp] theorem length_truncate (a : List α) {n : Nat} (inside : n ≤ a.length) :
    (truncate a n).length = a.length := by
  simp [truncate, Nat.min_eq_left inside, Nat.add_sub_cancel' inside]

theorem take_truncate (a : List α) {n : Nat} (inside : n ≤ a.length) :
    (truncate a n).take n = a.take n := by
  simp [truncate, Nat.min_eq_left inside]

/-- Truncation forgets every digit beyond the cut. -/
theorem truncate_congr {a b : List α} {n : Nat} (same : a.take n = b.take n)
    (lengths : a.length = b.length) : truncate a n = truncate b n := by
  simp only [truncate, same, lengths]

/-- Truncating once is enough. -/
theorem truncate_idem (a : List α) {n : Nat} (inside : n ≤ a.length) :
    truncate (truncate a n) n = truncate a n := by
  rw [truncate, take_truncate a inside, length_truncate a inside]
  rfl

theorem take_truncate_of_le (a : List α) {m n : Nat} (inside : n ≤ a.length) (below : m ≤ n) :
    (truncate a n).take m = a.take m := take_of_take (take_truncate a inside) below

theorem digit_truncate (a : List α) (n j : Nat) : digit (truncate a n) j = if j < n then digit a j else 0 := by
  rw [digit, truncate, digit, List.getD_eq_getElem?_getD, List.getD_eq_getElem?_getD, List.getElem?_append]
  by_cases before : j < n
  · rw [if_pos before]
    by_cases inside : j < a.length
    · rw [if_pos (by rw [List.length_take]; omega), List.getElem?_take_of_lt before]
    · rw [if_neg (by rw [List.length_take]; omega), List.getElem?_eq_none (l := a) (by omega), List.getElem?_replicate]
      split <;> rfl
  · rw [if_neg before, if_neg (by rw [List.length_take]; omega), List.getElem?_replicate]
    split <;> rfl

theorem take_succ_digit {a : List α} {n : Nat} (inside : n < a.length) :
    a.take (n + 1) = a.take n ++ [digit a n] := by
  rw [List.take_add_one, List.getElem?_eq_getElem inside, digit,
    List.getD_eq_getElem?_getD, List.getElem?_eq_getElem inside]
  rfl

theorem take_succ_eq {a b : List α} {n : Nat} (left : n < a.length) (right : n < b.length) :
    a.take (n + 1) = b.take (n + 1) ↔ a.take n = b.take n ∧ digit a n = digit b n := by
  rw [take_succ_digit left, take_succ_digit right]
  constructor
  · intro same
    have parts := List.append_inj' same rfl
    exact ⟨parts.1, by simpa using parts.2⟩
  · rintro ⟨front, last⟩
    rw [front, last]

/-- Two strings that agree up to `n` inherit the digit at any position below `n`. -/
theorem digit_eq_of_take {a b : List α} {n m : Nat} (same : a.take n = b.take n) (below : m < n) :
    digit a m = digit b m := by
  have at_m := congrArg (fun l => l[m]?) same
  simp only [List.getElem?_take, below, ↓reduceIte] at at_m
  simp only [digit, List.getD_eq_getElem?_getD, at_m]

/-- Strings of one length with the same digits before a cut have the same front. -/
theorem take_eq_of_digit {a b : List α} {n : Nat} (lengths : a.length = b.length)
    (same : ∀ j < n, digit a j = digit b j) : a.take n = b.take n := by
  apply List.ext_getElem
  · rw [List.length_take, List.length_take, lengths]
  · intro j inside inside'
    rw [List.length_take] at inside inside'
    have digits := same j (by omega)
    rw [digit, digit, List.getD_eq_getElem?_getD, List.getD_eq_getElem?_getD, List.getElem?_eq_getElem (by omega),
      List.getElem?_eq_getElem (by omega)] at digits
    rw [List.getElem_take, List.getElem_take]
    exact digits

theorem ext_digit {a b : List α} (lengths : a.length = b.length) (same : ∀ j < a.length, digit a j = digit b j) : a = b := by
  have front := take_eq_of_digit lengths same
  rwa [List.take_length, lengths, List.take_length] at front

variable [DecidableEq α]

/-- Different strings of one length part at their common length. -/
theorem digit_commonLen_ne {a b : List α} (lengths : a.length = b.length) (apart : a ≠ b) :
    commonLen a b < a.length ∧ digit a (commonLen a b) ≠ digit b (commonLen a b) := by
  induction a generalizing b with
  | nil => cases b with
    | nil => exact absurd rfl apart
    | cons y ys => simp at lengths
  | cons x xs ih =>
    cases b with
    | nil => simp at lengths
    | cons y ys =>
      by_cases same : x = y
      · subst same
        have inner := ih (b := ys) (by simpa using lengths) (by simpa using apart)
        simpa [commonLen, digit] using inner
      · simp [commonLen, digit, same]

/-- The first position at which two strings differ is their common length. -/
theorem commonLen_eq {a b : List α} {n : Nat} (left : n < a.length) (right : n < b.length)
    (same : a.take n = b.take n) (apart : digit a n ≠ digit b n) : commonLen a b = n := by
  have least := (le_commonLen_iff left.le right.le).mpr same
  by_contra more
  have next : n + 1 ≤ commonLen a b := by omega
  rw [le_commonLen_iff left right, take_succ_eq left right] at next
  exact apart next.2

end Digit

section Order

variable [LinearOrder α]

theorem lt_of_take_lt {a b : List α} {n : Nat} (lengths : a.length = b.length)
    (smaller : a.take n < b.take n) : a < b := by
  induction n generalizing a b with
  | zero => simp at smaller
  | succ n ih =>
    match a, b, lengths with
    | [], [], _ => simp at smaller
    | x :: xs, y :: ys, lengths =>
      simp only [List.take_succ_cons, List.cons_lt_cons_iff] at smaller ⊢
      exact smaller.imp_right (fun tail => ⟨tail.1, ih (by simpa using lengths) tail.2⟩)

/-- Cutting two strings keeps their order, though no longer strictly. -/
theorem take_le_of_lt {a b : List α} {n : Nat} (lengths : a.length = b.length) (smaller : a < b) :
    a.take n ≤ b.take n := by
  by_contra larger
  exact absurd (lt_of_take_lt lengths.symm (not_le.mp larger)) (lt_asymm smaller)

variable [Zero α]

/-- The first differing digit decides the lexicographic order. -/
theorem lt_of_digit_lt {a b : List α} {n : Nat} (left : n < a.length) (right : n < b.length)
    (same : a.take n = b.take n) (smaller : digit a n < digit b n) : a < b := by
  induction n generalizing a b with
  | zero =>
    match a, b, left, right with
    | x :: xs, y :: ys, _, _ => exact List.cons_lt_cons_iff.mpr (Or.inl (by simpa [digit] using smaller))
  | succ n ih =>
    match a, b, left, right with
    | x :: xs, y :: ys, left, right =>
      simp only [List.take_succ_cons, List.cons.injEq] at same
      refine List.cons_lt_cons_iff.mpr (Or.inr ⟨same.1, ih ?_ ?_ same.2 ?_⟩)
      · simpa using left
      · simpa using right
      · simpa [digit] using smaller

end Order

section Value

variable {n : Nat}

/-- The number that digits write, the most significant digit first. -/
def value : List (Fin n) → Nat
  | [] => 0
  | d :: ds => d.val * n ^ ds.length + value ds

theorem value_lt (ds : List (Fin n)) : value ds < n ^ ds.length := by
  induction ds with
  | nil => simp [value]
  | cons d ds ih =>
    calc value (d :: ds) < d.val * n ^ ds.length + n ^ ds.length := Nat.add_lt_add_left ih _
      _ = (d.val + 1) * n ^ ds.length := (Nat.succ_mul _ _).symm
      _ ≤ n * n ^ ds.length := Nat.mul_le_mul_right _ d.isLt
      _ = n ^ (d :: ds).length := by rw [List.length_cons, Nat.pow_succ, Nat.mul_comm]

theorem value_append (a b : List (Fin n)) : value (a ++ b) = value a * n ^ b.length + value b := by
  induction a with
  | nil => simp [value]
  | cons d ds ih =>
    rw [List.cons_append, value, value, ih, List.length_append, Nat.pow_add, Nat.add_mul, Nat.mul_assoc, Nat.add_assoc]

/-- Strings of one length are ordered like the numbers they write. -/
theorem value_lt_of_lt {a b : List (Fin n)} (lengths : a.length = b.length) (smaller : a < b) :
    value a < value b := by
  induction a generalizing b with
  | nil => cases b with
    | nil => simp at smaller
    | cons y ys => simp at lengths
  | cons x xs ih =>
    cases b with
    | nil => simp at lengths
    | cons y ys =>
      have tails : xs.length = ys.length := by simpa using lengths
      rw [value, value, tails]
      rcases List.cons_lt_cons_iff.mp smaller with head | ⟨rfl, tail⟩
      · calc x.val * n ^ ys.length + value xs < (x.val + 1) * n ^ ys.length := by
              rw [Nat.succ_mul]
              exact Nat.add_lt_add_left (tails ▸ value_lt xs) _
          _ ≤ y.val * n ^ ys.length := Nat.mul_le_mul_right _ head
          _ ≤ y.val * n ^ ys.length + value ys := Nat.le_add_right _ _
      · exact Nat.add_lt_add_left (ih tails tail) _

theorem lt_iff_value {a b : List (Fin n)} (lengths : a.length = b.length) : a < b ↔ value a < value b := by
  constructor
  · exact value_lt_of_lt lengths
  · intro less
    rcases lt_trichotomy a b with before | rfl | after
    · exact before
    · exact (Nat.lt_irrefl _ less).elim
    · exact (Nat.lt_asymm less (value_lt_of_lt lengths.symm after)).elim

theorem value_injective {a b : List (Fin n)} (lengths : a.length = b.length) (same : value a = value b) : a = b := by
  rcases lt_trichotomy a b with before | rfl | after
  · exact absurd (value_lt_of_lt lengths before) (by omega)
  · rfl
  · exact absurd (value_lt_of_lt lengths.symm after) (by omega)

end Value

end Digits
