import Mathlib.Data.BitVec
import Mathlib.Algebra.BigOperators.Group.List.Basic
import Mathlib.Algebra.Order.BigOperators.Group.List

set_option autoImplicit false

/- Signed 64-bit arithmetic on `BitVec 64`: sums and differences that stay in range are exact. The
operations that C++ leaves undefined on some operands are fallible. -/
namespace Machine

/-- `INT64_MAX`. -/
def int64Max : Int := 2 ^ 63 - 1

theorem bmod_of_range {n : Int} (low : -2 ^ 63 ≤ n) (high : n ≤ int64Max) : n.bmod (2 ^ 64) = n := by
  rw [int64Max] at high
  exact Int.bmod_eq_of_le (by omega) (by omega)

theorem toInt_add_of_range {x y : BitVec 64} (low : -2 ^ 63 ≤ x.toInt + y.toInt)
    (high : x.toInt + y.toInt ≤ int64Max) : (x + y).toInt = x.toInt + y.toInt := by
  rw [BitVec.toInt_add]
  exact bmod_of_range low high

theorem toInt_sub_of_range {x y : BitVec 64} (low : -2 ^ 63 ≤ x.toInt - y.toInt)
    (high : x.toInt - y.toInt ≤ int64Max) : (x - y).toInt = x.toInt - y.toInt := by
  rw [BitVec.toInt_sub]
  exact bmod_of_range low high

/-- A machine sum is the exact sum reduced once. -/
theorem toInt_sum (amounts : List (BitVec 64)) :
    amounts.sum.toInt = (amounts.map BitVec.toInt).sum.bmod (2 ^ 64) := by
  induction amounts with
  | nil => rfl
  | cons a amounts ih =>
    rw [List.sum_cons, BitVec.toInt_add, ih, List.map_cons, List.sum_cons, Int.add_bmod_bmod]

/-- A machine sum that fits is the exact sum. -/
theorem toNat_sum {w : Nat} {amounts : List (BitVec w)} (fits : (amounts.map BitVec.toNat).sum < 2 ^ w) :
    amounts.sum.toNat = (amounts.map BitVec.toNat).sum := by
  induction amounts with
  | nil => simp
  | cons a amounts ih =>
    rw [List.map_cons, List.sum_cons] at fits
    rw [List.sum_cons, List.map_cons, List.sum_cons, BitVec.toNat_add, ih (by omega), Nat.mod_eq_of_lt fits]

/-- Below the sign bit, both readings of a word agree. -/
theorem toInt_of_lt {w : Nat} {x : BitVec w} (small : 2 * x.toNat < 2 ^ w) : x.toInt = x.toNat :=
  BitVec.toInt_eq_toNat_of_lt small

theorem toNat_of_toInt {w : Nat} {x : BitVec w} {n : Nat} (same : x.toInt = n) : x.toNat = n := by
  have bound := x.isLt
  rw [BitVec.toInt_eq_toNat_cond] at same
  split at same <;> omega

theorem toNat_signExtend_of_lt {x : BitVec 64} (small : x.toNat < 2 ^ 63) : (x.signExtend 128).toNat = x.toNat := by
  have positive : x.msb = false := BitVec.msb_eq_false_iff_two_mul_lt.mpr (by omega)
  rw [BitVec.toNat_signExtend, positive, BitVec.toNat_setWidth_of_le (by decide)]
  simp

theorem sle_of_not_sle {x y : BitVec 64} (more : ¬ x.sle y = true) : y.sle x = true := by
  rw [BitVec.sle_iff_toInt_le] at more ⊢
  omega

/-- What C++ leaves undefined. -/
inductive Undefined where
  | divisionByZero
  | shiftPastWidth
deriving DecidableEq, Repr

def checkedDiv {w : Nat} (a b : BitVec w) : Except Undefined (BitVec w) :=
  if b = 0 then .error .divisionByZero else .ok (a / b)

def checkedShiftRight {w : Nat} (a : BitVec w) (count : Nat) : Except Undefined (BitVec w) :=
  if count < w then .ok (a >>> count) else .error .shiftPastWidth

def checkedShiftLeft {w : Nat} (a : BitVec w) (count : Nat) : Except Undefined (BitVec w) :=
  if count < w then .ok (a <<< count) else .error .shiftPastWidth

theorem checkedDiv_ok {w : Nat} {a b : BitVec w} (nonzero : b ≠ 0) : checkedDiv a b = .ok (a / b) := by
  rw [checkedDiv, if_neg nonzero]

theorem checkedShiftRight_ok {w : Nat} {a : BitVec w} {count : Nat} (within : count < w) :
    checkedShiftRight a count = .ok (a >>> count) := by
  rw [checkedShiftRight, if_pos within]

theorem checkedShiftLeft_ok {w : Nat} {a : BitVec w} {count : Nat} (within : count < w) :
    checkedShiftLeft a count = .ok (a <<< count) := by
  rw [checkedShiftLeft, if_pos within]

/-- A left shift that loses no bits multiplies. -/
theorem toNat_shiftLeft_of_lt {w : Nat} {a : BitVec w} {count : Nat} (fits : a.toNat * 2 ^ count < 2 ^ w) :
    (a <<< count).toNat = a.toNat * 2 ^ count := by
  rw [BitVec.toNat_shiftLeft, Nat.shiftLeft_eq, Nat.mod_eq_of_lt fits]

/-- Taking a shifted word off again leaves no more than there was. -/
theorem shiftRight_le {w : Nat} (a : BitVec w) (count : Nat) : (a >>> count).toNat ≤ a.toNat := by
  rw [BitVec.toNat_ushiftRight, Nat.shiftRight_eq_div_pow]
  exact Nat.div_le_self _ _

end Machine
