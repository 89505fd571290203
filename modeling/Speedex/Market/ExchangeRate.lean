import Speedex.Library.Machine
import Speedex.Market.Price
import Mathlib.Tactic.Ring

set_option autoImplicit false

/- `divide_prices` and `get_execution_prices`: the rate between two assets as a price, and the two
limit prices up to which offers are executed in full and in part. -/
namespace Speedex

open Machine

/-- `divide_prices`: the rate with 64 fractional bits, of which `PRICE_RADIX` are kept. -/
def dividePrices (sellPrice buyPrice : Price) : Except Undefined Price := do
  let extraBitsLen := 64 - PriceUtils.priceRadix
  let ratio ← checkedDiv (sellPrice.setWidth 128 <<< 64) (buyPrice.setWidth 128)
  .ok (((ratio >>> extraBitsLen) &&& (BitVec.allOnes 64).setWidth 128).setWidth 64)

/-- `get_execution_prices`: the full execution price and the partial execution price. -/
def getExecutionPrices (sellPrice buyPrice : Price) (smoothMult : BitVec 8) :
    Except Undefined (Price × Price) := do
  let upperBoundPrice ← dividePrices sellPrice buyPrice
  if smoothMult ≠ 0 then
    let step ← checkedShiftRight upperBoundPrice smoothMult.toNat
    .ok (upperBoundPrice - step, upperBoundPrice)
  else .ok (upperBoundPrice, upperBoundPrice)

/-- The rate as a price, rounded down, with no bound on its size. -/
def exactRate (sellPrice buyPrice : Price) : Nat := sellPrice.toNat * 2 ^ 24 / buyPrice.toNat

namespace PriceUtils

theorem isValidPrice_iff {price : Price} : isValidPrice price = true ↔ 0 < price.toNat ∧ price.toNat < 2 ^ 48 := by
  have bound : priceMax.toNat = 2 ^ 48 - 1 := rfl
  have zero : price ≠ 0 ↔ price.toNat ≠ 0 := not_congr BitVec.toNat_eq
  rw [isValidPrice, Bool.and_eq_true, BitVec.ule_iff_toNat_le, bound, bne_iff_ne, zero]
  omega

theorem aOverBLtC_iff {a b c : Price} (small : a.toNat < 2 ^ 48) :
    aOverBLtC a b c = true ↔ a.toNat * 2 ^ 24 < b.toNat * c.toNat := by
  have left : (a.setWidth 128 <<< priceRadix).toNat = a.toNat * 2 ^ 24 := by
    rw [BitVec.toNat_shiftLeft, BitVec.toNat_setWidth_of_le (by decide), Nat.shiftLeft_eq]
    exact Nat.mod_eq_of_lt (by rw [priceRadix]; omega)
  have product : b.toNat * c.toNat < 2 ^ 64 * 2 ^ 64 := Nat.mul_lt_mul'' b.isLt c.isLt
  have right : (b.setWidth 128 * c.setWidth 128).toNat = b.toNat * c.toNat := by
    rw [BitVec.toNat_mul, BitVec.toNat_setWidth_of_le (by decide), BitVec.toNat_setWidth_of_le (by decide)]
    exact Nat.mod_eq_of_lt (by omega)
  rw [aOverBLtC, BitVec.ult_iff_toNat_lt, left, right]

end PriceUtils

/-- `wide_multiply_val_by_a_over_b`, where `b` may be zero. -/
def PriceUtils.wideMultiplyChecked (value : BitVec 128) (a b : Price) : Except Undefined (BitVec 128) := do
  let denom := b.setWidth 128
  let numer := a.setWidth 128
  let quotient ← checkedDiv value denom
  let modulo := quotient * numer
  let remainder ← checkedDiv (value % denom * numer) denom
  .ok (modulo + remainder)

open PriceUtils

theorem setWidth_ne_zero {b : Price} (positive : 0 < b.toNat) : b.setWidth 128 ≠ 0 := by
  intro zero
  have none := congrArg BitVec.toNat zero
  rw [BitVec.toNat_setWidth_of_le (by decide)] at none
  exact absurd none positive.ne'

theorem wideMultiplyChecked_ok {value : BitVec 128} {a b : Price} (positive : 0 < b.toNat) :
    wideMultiplyChecked value a b = .ok (wideMultiplyValByAOverB value a b) := by
  simp only [wideMultiplyChecked, checkedDiv_ok (setWidth_ne_zero positive)]
  rfl

/-- The wide product is rounded down, and wraps. -/
theorem toNat_wideMultiply (value : BitVec 128) {a b : Price} (positive : 0 < b.toNat) :
    (wideMultiplyValByAOverB value a b).toNat = value.toNat * a.toNat / b.toNat % 2 ^ 128 := by
  have wideA : (a.setWidth 128).toNat = a.toNat := BitVec.toNat_setWidth_of_le (by decide)
  have wideB : (b.setWidth 128).toNat = b.toNat := BitVec.toNat_setWidth_of_le (by decide)
  have small : value.toNat % b.toNat * a.toNat < 2 ^ 64 * 2 ^ 64 :=
    Nat.mul_lt_mul'' ((Nat.mod_lt _ positive).trans b.isLt) a.isLt
  have split : value.toNat * a.toNat / b.toNat =
      value.toNat / b.toNat * a.toNat + value.toNat % b.toNat * a.toNat / b.toNat := by
    calc value.toNat * a.toNat / b.toNat
        = (b.toNat * (value.toNat / b.toNat * a.toNat) + value.toNat % b.toNat * a.toNat) / b.toNat := by
          rw [← Nat.mul_assoc, ← Nat.add_mul, Nat.div_add_mod]
      _ = _ := Nat.mul_add_div positive _ _
  rw [wideMultiplyValByAOverB, BitVec.toNat_add, BitVec.toNat_mul, BitVec.toNat_udiv, BitVec.toNat_udiv,
    BitVec.toNat_mul, BitVec.toNat_umod, wideA, wideB, Nat.mod_eq_of_lt (by omega : _ % _ * _ < 2 ^ 128),
    Nat.mod_add_mod, split]

theorem exactRate_mul_le (sellPrice buyPrice : Price) :
    exactRate sellPrice buyPrice * buyPrice.toNat ≤ sellPrice.toNat * 2 ^ 24 :=
  Nat.div_mul_le_self _ _

theorem lt_exactRate_succ_mul (sellPrice : Price) {buyPrice : Price} (positive : 0 < buyPrice.toNat) :
    sellPrice.toNat * 2 ^ 24 < (exactRate sellPrice buyPrice + 1) * buyPrice.toNat :=
  Nat.lt_mul_of_div_lt (Nat.lt_succ_self _) positive

variable {sellPrice buyPrice : Price} {smoothMult : BitVec 8}

theorem dividePrices_eq (sell : isValidPrice sellPrice = true) (buy : isValidPrice buyPrice = true) :
    dividePrices sellPrice buyPrice = .ok (BitVec.ofNat 64 (exactRate sellPrice buyPrice)) := by
  have sell := isValidPrice_iff.mp sell
  have buy := isValidPrice_iff.mp buy
  have wide : (sellPrice.setWidth 128 <<< 64).toNat = sellPrice.toNat * 2 ^ 64 := by
    rw [BitVec.toNat_shiftLeft, BitVec.toNat_setWidth_of_le (by decide), Nat.shiftLeft_eq]
    exact Nat.mod_eq_of_lt (by omega)
  have quotient : sellPrice.toNat * 2 ^ 64 / buyPrice.toNat / 2 ^ 40 = exactRate sellPrice buyPrice := by
    have split : sellPrice.toNat * 2 ^ 64 = sellPrice.toNat * 2 ^ 24 * 2 ^ 40 := by ring
    rw [exactRate, Nat.div_div_eq_div_mul, split, Nat.mul_div_mul_right _ _ (by decide)]
  rw [dividePrices, checkedDiv_ok (setWidth_ne_zero buy.1)]
  refine congrArg Except.ok (BitVec.eq_of_toNat_eq ?_)
  have mask : ((BitVec.allOnes 64).setWidth 128).toNat = 2 ^ 64 - 1 := by decide
  rw [BitVec.toNat_setWidth, BitVec.toNat_and, mask, Nat.and_two_pow_sub_one_eq_mod, Nat.mod_mod,
    BitVec.toNat_ushiftRight, BitVec.toNat_udiv, wide, BitVec.toNat_setWidth_of_le (by decide),
    Nat.shiftRight_eq_div_pow, priceRadix, quotient, BitVec.toNat_ofNat]

/-- The partial execution price: the rate in 64 bits. -/
def upperPrice (sellPrice buyPrice : Price) : Price := BitVec.ofNat 64 (exactRate sellPrice buyPrice)

/-- The full execution price. -/
def lowerPrice (sellPrice buyPrice : Price) (smoothMult : BitVec 8) : Price :=
  upperPrice sellPrice buyPrice - if smoothMult = 0 then 0 else upperPrice sellPrice buyPrice >>> smoothMult.toNat

theorem getExecutionPrices_eq (sell : isValidPrice sellPrice = true) (buy : isValidPrice buyPrice = true)
    (within : smoothMult.toNat < 64) : getExecutionPrices sellPrice buyPrice smoothMult =
      .ok (lowerPrice sellPrice buyPrice smoothMult, upperPrice sellPrice buyPrice) := by
  rw [getExecutionPrices, dividePrices_eq sell buy, lowerPrice]
  by_cases zero : smoothMult = 0
  · refine (if_neg (not_not.mpr zero)).trans ?_
    rw [if_pos zero, sub_zero]
    rfl
  · refine (if_pos zero).trans ?_
    rw [checkedShiftRight_ok within, if_neg zero]
    rfl

theorem toNat_upperPrice : (upperPrice sellPrice buyPrice).toNat = exactRate sellPrice buyPrice % 2 ^ 64 :=
  BitVec.toNat_ofNat _ _

theorem toNat_lowerPrice : (lowerPrice sellPrice buyPrice smoothMult).toNat = (upperPrice sellPrice buyPrice).toNat -
    if smoothMult = 0 then 0 else (upperPrice sellPrice buyPrice).toNat / 2 ^ smoothMult.toNat := by
  rw [lowerPrice]
  by_cases zero : smoothMult = 0
  · rw [if_pos zero, if_pos zero, sub_zero, Nat.sub_zero]
  · rw [if_neg zero, if_neg zero, BitVec.toNat_sub_of_le (BitVec.le_def.mpr (shiftRight_le _ _)),
      BitVec.toNat_ushiftRight, Nat.shiftRight_eq_div_pow]

theorem lowerPrice_le : lowerPrice sellPrice buyPrice smoothMult ≤ upperPrice sellPrice buyPrice := by
  rw [BitVec.le_def, toNat_lowerPrice]
  exact Nat.sub_le _ _

/-- A shift by the width of a price or more is undefined. -/
theorem getExecutionPrices_undefined (sell : isValidPrice sellPrice = true) (buy : isValidPrice buyPrice = true)
    (beyond : 64 ≤ smoothMult.toNat) : getExecutionPrices sellPrice buyPrice smoothMult = .error .shiftPastWidth := by
  have nonzero : smoothMult ≠ 0 := by
    intro zero
    rw [zero] at beyond
    simp at beyond
  rw [getExecutionPrices, dividePrices_eq sell buy]
  refine (if_pos nonzero).trans ?_
  rw [checkedShiftRight, if_neg (Nat.not_lt.mpr beyond)]
  rfl

/-- What the execution prices promise: they bound the rate from below, and no offer up to them is
refused by the comparison that clearing makes. -/
def ExecutionPriceBounds (sellPrice buyPrice : Price) (smoothMult : BitVec 8) : Prop :=
  ∃ lower upper, getExecutionPrices sellPrice buyPrice smoothMult = .ok (lower, upper) ∧ lower ≤ upper ∧
    upper.toNat = exactRate sellPrice buyPrice ∧
    ∀ minPrice, minPrice ≤ upper → aOverBLtC sellPrice buyPrice minPrice = false

/-- A limit price up to the rate passes the comparison of clearing. -/
theorem aOverBLtC_of_le_rate {minPrice : Price} (sell : isValidPrice sellPrice = true)
    (below : minPrice.toNat ≤ exactRate sellPrice buyPrice) : aOverBLtC sellPrice buyPrice minPrice = false := by
  rw [← Bool.not_eq_true, aOverBLtC_iff (isValidPrice_iff.mp sell).2, Nat.not_lt]
  calc buyPrice.toNat * minPrice.toNat
      ≤ buyPrice.toNat * exactRate sellPrice buyPrice := Nat.mul_le_mul_left _ below
    _ ≤ sellPrice.toNat * 2 ^ 24 := Nat.mul_div_le _ _

/-- The quotient is cut to 64 bits, so the bounds hold exactly for rates below `2 ^ 64`. -/
theorem executionPriceBounds_iff (sell : isValidPrice sellPrice = true) (buy : isValidPrice buyPrice = true) :
    ExecutionPriceBounds sellPrice buyPrice smoothMult ↔
      exactRate sellPrice buyPrice < 2 ^ 64 ∧ smoothMult.toNat < 64 := by
  constructor
  · rintro ⟨lower, upper, returned, -, exact, -⟩
    refine ⟨exact ▸ upper.isLt, ?_⟩
    by_contra beyond
    rw [getExecutionPrices_undefined sell buy (Nat.not_lt.mp beyond)] at returned
    cases returned
  · rintro ⟨small, within⟩
    have exact := @toNat_upperPrice sellPrice buyPrice
    rw [Nat.mod_eq_of_lt small] at exact
    refine ⟨_, _, getExecutionPrices_eq sell buy within, lowerPrice_le, exact, ?_⟩
    intro minPrice below
    apply aOverBLtC_of_le_rate sell
    rw [← exact]
    exact BitVec.le_def.mp below

theorem executionPriceBounds_sample : isValidPrice 16777216 = true ∧
    (ExecutionPriceBounds 16777216 16777216 5 ↔ exactRate 16777216 16777216 < 2 ^ 64 ∧ (5 : BitVec 8).toNat < 64) :=
  ⟨by decide, executionPriceBounds_iff (by decide) (by decide)⟩

/-- The largest price against the smallest: the quotient is a multiple of `2 ^ 64`, and nothing of
it is left. -/
theorem executionPrices_truncated : isValidPrice (2 ^ 47) = true ∧ isValidPrice 1 = true ∧
    getExecutionPrices (2 ^ 47) 1 5 = .ok (0, 0) ∧ exactRate (2 ^ 47) 1 = 2 ^ 71 ∧
    ¬ ExecutionPriceBounds (2 ^ 47) 1 5 := by
  have returned : getExecutionPrices (2 ^ 47) 1 5 = .ok (0, 0) := by decide
  refine ⟨by decide, by decide, returned, by decide, ?_⟩
  rintro ⟨lower, upper, same, -, exact, -⟩
  rw [returned] at same
  cases same
  revert exact
  decide

end Speedex
