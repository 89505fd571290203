import Mathlib.Tactic.NormNum
import Mathlib.Tactic.SplitIfs
import Speedex.Library.LimbProduct
import Speedex.Market.Tatonnement
import Speedex.Market.TatonnementRuns

set_option autoImplicit false

/- How far the trial price of `get_trial_price` is from the exact update. -/
namespace Speedex

open Machine PriceUtils

section Halves

variable (x : BitVec 128)

theorem toNat_uint64Max : uint64Max.toNat = 2 ^ 64 - 1 := by decide +kernel

theorem toNat_lowHalf : (lowHalf x).toNat = x.toNat % 2 ^ 64 := by
  rw [lowHalf, BitVec.toNat_and, toNat_uint64Max, Nat.and_two_pow_sub_one_eq_mod]

theorem toNat_highHalf : (highHalf x).toNat = x.toNat / 2 ^ 64 := by
  have bound := x.isLt
  rw [highHalf, BitVec.toNat_and, toNat_uint64Max, Nat.and_two_pow_sub_one_eq_mod, BitVec.toNat_ushiftRight,
    Nat.shiftRight_eq_div_pow]
  exact Nat.mod_eq_of_lt (by omega)

/-- Products of halves do not wrap. -/
theorem toNat_mul_halves {a b : BitVec 128} (left : a.toNat < 2 ^ 64) (right : b.toNat < 2 ^ 64) :
    (a * b).toNat = a.toNat * b.toNat := by
  rw [BitVec.toNat_mul]
  exact Nat.mod_eq_of_lt (calc a.toNat * b.toNat
    _ < 2 ^ 64 * 2 ^ 64 := Nat.mul_lt_mul'' left right
    _ = 2 ^ 128 := by norm_num)

theorem toNat_capPrice (out : BitVec 128) : (capPrice out).toNat = min (2 ^ 48 - 1) out.toNat := by
  have bound : (priceMax.setWidth 128).toNat = 2 ^ 48 - 1 := rfl
  have top : priceMax.toNat = 2 ^ 48 - 1 := rfl
  rw [capPrice]
  split_ifs with above
  · rw [BitVec.lt_def, bound] at above
    omega
  · have below := BitVec.le_def.mp (BitVec.not_lt.mp above)
    rw [bound] at below
    rw [BitVec.toNat_setWidth, Nat.mod_eq_of_lt (by omega)]
    omega

end Halves

/-- What `safe_multiply_and_drop_lowbits` computes when 80 to 128 bits are dropped: the product of the high
limbs is capped first. -/
def cappedProduct (first second lowbitsToDrop : Nat) : Nat :=
  LimbProduct.lowerParts (2 ^ 64) (2 ^ (lowbitsToDrop - 64)) first second +
    min (2 ^ (lowbitsToDrop - 80) - 1) (first / 2 ^ 64 * (second / 2 ^ 64)) * 2 ^ (128 - lowbitsToDrop)

section Product

variable {lowbitsToDrop : Nat}

theorem lowerParts_lt (low : 80 ≤ lowbitsToDrop) {first second : Nat} (left : first < 2 ^ 128) (right : second < 2 ^ 128) :
    LimbProduct.lowerParts (2 ^ 64) (2 ^ (lowbitsToDrop - 64)) first second < 2 ^ 114 := by
  have limb : ∀ a b : Nat, a < 2 ^ 64 → b < 2 ^ 64 → a * b / 2 ^ (lowbitsToDrop - 64) < 2 ^ 112 := by
    intro a b small small'
    have product : a * b < 2 ^ 64 * 2 ^ 64 := Nat.mul_lt_mul'' small small'
    have divisor : 2 ^ 16 ≤ 2 ^ (lowbitsToDrop - 64) := Nat.pow_le_pow_right (by decide) (by omega)
    calc a * b / 2 ^ (lowbitsToDrop - 64)
      _ ≤ a * b / 2 ^ 16 := Nat.div_le_div_left divisor (by decide)
      _ < 2 ^ 112 := by omega
  have lowLow : first % 2 ^ 64 * (second % 2 ^ 64) / (2 ^ 64 * 2 ^ (lowbitsToDrop - 64)) ≤
      first % 2 ^ 64 * (second % 2 ^ 64) / 2 ^ (lowbitsToDrop - 64) :=
    Nat.div_le_div_left (Nat.le_mul_of_pos_left _ (by decide)) (Nat.two_pow_pos _)
  have part := limb (first % 2 ^ 64) (second % 2 ^ 64) (Nat.mod_lt _ (by decide)) (Nat.mod_lt _ (by decide))
  have part' := limb (first % 2 ^ 64) (second / 2 ^ 64) (Nat.mod_lt _ (by decide)) (by omega)
  have part'' := limb (first / 2 ^ 64) (second % 2 ^ 64) (by omega) (Nat.mod_lt _ (by decide))
  rw [LimbProduct.lowerParts]
  omega

/-- The capped part stays below `2 ^ 48`. -/
theorem capped_lt (low : 80 ≤ lowbitsToDrop) (high : lowbitsToDrop ≤ 128) (product : Nat) :
    min (2 ^ (lowbitsToDrop - 80) - 1) product * 2 ^ (128 - lowbitsToDrop) + 2 ^ (128 - lowbitsToDrop) ≤ 2 ^ 48 := by
  have whole : 2 ^ (lowbitsToDrop - 80) * 2 ^ (128 - lowbitsToDrop) = 2 ^ 48 := by
    rw [← Nat.pow_add]
    congr 1
    omega
  have least : 1 ≤ 2 ^ (lowbitsToDrop - 80) := Nat.one_le_two_pow
  rw [← whole, ← Nat.succ_mul]
  exact Nat.mul_le_mul_right _ (by omega)

theorem safeMultiply_spec (first second : BitVec 128) (low : 80 ≤ lowbitsToDrop) (high : lowbitsToDrop ≤ 128) :
    ∃ delta, safeMultiplyAndDropLowbits first second lowbitsToDrop = .ok delta ∧
      delta.toNat = min (2 ^ 48 - 1) (cappedProduct first.toNat second.toNat lowbitsToDrop) := by
  have left := first.isLt
  have right := second.isLt
  have within : lowbitsToDrop - 64 < 128 := by omega
  have lowFirst : (lowHalf first).toNat < 2 ^ 64 := by rw [toNat_lowHalf]; omega
  have lowSecond : (lowHalf second).toNat < 2 ^ 64 := by rw [toNat_lowHalf]; omega
  have highFirst : (highHalf first).toNat < 2 ^ 64 := by rw [toNat_highHalf]; omega
  have highSecond : (highHalf second).toNat < 2 ^ 64 := by rw [toNat_highHalf]; omega
  have shift : 2 ^ 64 * 2 ^ (lowbitsToDrop - 64) = 2 ^ lowbitsToDrop := by
    rw [← Nat.pow_add]
    congr 1
    omega
  -- the lowest part
  have lowLow : (if lowbitsToDrop < 128 then (lowHalf first * lowHalf second) >>> lowbitsToDrop else 0 : BitVec 128).toNat =
      first.toNat % 2 ^ 64 * (second.toNat % 2 ^ 64) / 2 ^ lowbitsToDrop := by
    have product := toNat_mul_halves lowFirst lowSecond
    rw [toNat_lowHalf, toNat_lowHalf] at product
    split_ifs with few
    · rw [BitVec.toNat_ushiftRight, Nat.shiftRight_eq_div_pow, product]
    · have all : lowbitsToDrop = 128 := by omega
      have bound := (lowHalf first * lowHalf second).isLt
      rw [product] at bound
      rw [all, Nat.div_eq_of_lt bound]
      rfl
  have lowHigh : ((lowHalf first * highHalf second) >>> (lowbitsToDrop - 64)).toNat =
      first.toNat % 2 ^ 64 * (second.toNat / 2 ^ 64) / 2 ^ (lowbitsToDrop - 64) := by
    rw [BitVec.toNat_ushiftRight, Nat.shiftRight_eq_div_pow, toNat_mul_halves lowFirst highSecond, toNat_lowHalf,
      toNat_highHalf]
  have highLow : ((highHalf first * lowHalf second) >>> (lowbitsToDrop - 64)).toNat =
      first.toNat / 2 ^ 64 * (second.toNat % 2 ^ 64) / 2 ^ (lowbitsToDrop - 64) := by
    rw [BitVec.toNat_ushiftRight, Nat.shiftRight_eq_div_pow, toNat_mul_halves highFirst lowSecond, toNat_lowHalf,
      toNat_highHalf]
  -- the capped part
  have used : usedHighbits lowbitsToDrop = lowbitsToDrop - 80 := by
    rw [usedHighbits, priceBitLen, priceRadix, if_pos (by omega)]
    omega
  have most : (((1 <<< usedHighbits lowbitsToDrop) - 1 : BitVec 64).setWidth 128).toNat = 2 ^ (lowbitsToDrop - 80) - 1 := by
    have small : 2 ^ (lowbitsToDrop - 80) ≤ 2 ^ 48 := Nat.pow_le_pow_right (by decide) (by omega)
    have least : 1 ≤ 2 ^ (lowbitsToDrop - 80) := Nat.one_le_two_pow
    have one : ((1 <<< (lowbitsToDrop - 80) : Nat) : BitVec 64).toNat = 2 ^ (lowbitsToDrop - 80) := by
      rw [BitVec.natCast_eq_ofNat, BitVec.toNat_ofNat, Nat.one_shiftLeft]
      exact Nat.mod_eq_of_lt (by omega)
    rw [used, BitVec.toNat_setWidth, BitVec.toNat_sub_of_le (BitVec.le_def.mpr (by rw [one]; exact least)), one]
    exact Nat.mod_eq_of_lt (by rw [show (1 : BitVec 64).toNat = 1 from rfl]; omega)
  have product := toNat_mul_halves highFirst highSecond
  rw [toNat_highHalf, toNat_highHalf] at product
  have capped : (if ((1 <<< usedHighbits lowbitsToDrop) - 1 : BitVec 64).setWidth 128 < highHalf first * highHalf second then
        ((1 <<< usedHighbits lowbitsToDrop) - 1 : BitVec 64).setWidth 128
      else highHalf first * highHalf second).toNat =
      min (2 ^ (lowbitsToDrop - 80) - 1) (first.toNat / 2 ^ 64 * (second.toNat / 2 ^ 64)) := by
    split_ifs with above
    · rw [BitVec.lt_def, most, product] at above
      rw [most]
      omega
    · have below := BitVec.le_def.mp (BitVec.not_lt.mp above)
      rw [most, product] at below
      rw [product]
      omega
  have room := capped_lt low high (first.toNat / 2 ^ 64 * (second.toNat / 2 ^ 64))
  have lower := lowerParts_lt low left right
  rw [LimbProduct.lowerParts, shift] at lower
  have positive := Nat.two_pow_pos (128 - lowbitsToDrop)
  rw [safeMultiplyAndDropLowbits, if_neg (by omega)]
  simp only [checkedShiftRight_ok within]
  refine ⟨_, if_pos high, ?_⟩
  rw [toNat_capPrice, BitVec.toNat_add, BitVec.toNat_add, BitVec.toNat_add, BitVec.toNat_shiftLeft, Nat.shiftLeft_eq,
    lowLow, lowHigh, highLow, capped, cappedProduct, LimbProduct.lowerParts, shift]
  generalize min (2 ^ (lowbitsToDrop - 80) - 1) _ * 2 ^ (128 - lowbitsToDrop) = upper at room ⊢
  omega

end Product

section Update

variable (demand supply : BitVec 128) (oldPrice : Price) (step : BitVec 64) (volumeRelativizer : BitVec 16)
  (controlParams : TatonnementControlParameters)

def lowbitsToDrop : Nat := controlParams.stepRadix.toNat + priceRadix

/-- The first factor, as a number. -/
def exactPTimesStep : Nat := step.toNat * oldPrice.toNat

/-- The second factor, as a number. -/
def exactPTimesDiff : Nat :=
  oldPrice.toNat * (if controlParams.useVolumeRelativizer then volumeRelativizer else 1).toNat *
    (demand.toNat - supply.toNat + (supply.toNat - demand.toNat))

def exactMove : Nat :=
  exactPTimesStep oldPrice step * exactPTimesDiff demand supply oldPrice volumeRelativizer controlParams /
    2 ^ lowbitsToDrop controlParams

/-- The update in exact numbers, clamped. -/
def exactTrialPrice : Nat :=
  if supply < demand then
    min (2 ^ 48 - 1) (max 1 (oldPrice.toNat + exactMove demand supply oldPrice step volumeRelativizer controlParams))
  else max 1 (oldPrice.toNat - exactMove demand supply oldPrice step volumeRelativizer controlParams)

/-- No factor and no sum leaves its width. -/
structure NothingWraps : Prop where
  pTimesStep : exactPTimesStep oldPrice step < 2 ^ 128
  pTimesDiff : exactPTimesDiff demand supply oldPrice volumeRelativizer controlParams < 2 ^ 128
  out : cappedProduct (exactPTimesStep oldPrice step)
    (exactPTimesDiff demand supply oldPrice volumeRelativizer controlParams) (lowbitsToDrop controlParams) < 2 ^ 128
  price : oldPrice.toNat + min (2 ^ 48 - 1) (cappedProduct (exactPTimesStep oldPrice step)
    (exactPTimesDiff demand supply oldPrice volumeRelativizer controlParams) (lowbitsToDrop controlParams)) < 2 ^ 64

/-- The trial price is the exact one up to two units, and nothing wraps on the way. -/
def UpdatesExactly : Prop :=
  ∃ price, getTrialPrice demand supply oldPrice step volumeRelativizer controlParams = .ok price ∧
    NothingWraps demand supply oldPrice step volumeRelativizer controlParams ∧
    price.toNat ≤ exactTrialPrice demand supply oldPrice step volumeRelativizer controlParams + 2 ∧
    exactTrialPrice demand supply oldPrice step volumeRelativizer controlParams ≤ price.toNat + 2

/-- The second factor fits, and the product of the high limbs stays below the cap. -/
structure StepFits : Prop where
  pTimesDiff : exactPTimesDiff demand supply oldPrice volumeRelativizer controlParams < 2 ^ 128
  uncapped : exactPTimesStep oldPrice step / 2 ^ 64 *
    (exactPTimesDiff demand supply oldPrice volumeRelativizer controlParams / 2 ^ 64) <
      2 ^ (lowbitsToDrop controlParams - 80)

/-- The other limb products make up for what the cap takes away. -/
def OutweighsCap : Prop :=
  let lower := LimbProduct.lowerParts (2 ^ 64) (2 ^ (lowbitsToDrop controlParams - 64)) (exactPTimesStep oldPrice step)
    (exactPTimesDiff demand supply oldPrice volumeRelativizer controlParams)
  if supply < demand then 2 ^ (128 - lowbitsToDrop controlParams) ≤ oldPrice.toNat + lower + 3
  else oldPrice.toNat + 2 ^ (128 - lowbitsToDrop controlParams) ≤ 2 ^ 48 + lower + 3

/-- The radices of all searches, that is 60 and those from 73 to 95, lie here. -/
def SearchRadix : Prop := 56 ≤ controlParams.stepRadix.toNat ∧ controlParams.stepRadix.toNat ≤ 104

variable {demand supply oldPrice step volumeRelativizer controlParams}

theorem exactPTimesStep_lt (valid : isValidPrice oldPrice = true) : exactPTimesStep oldPrice step < 2 ^ 112 := by
  obtain ⟨-, small⟩ := isValidPrice_iff.mp valid
  have bound := step.isLt
  calc exactPTimesStep oldPrice step
    _ < 2 ^ 64 * 2 ^ 48 := Nat.mul_lt_mul'' bound small
    _ = 2 ^ 112 := by norm_num

theorem toNat_pTimesStep (valid : isValidPrice oldPrice = true) :
    (step.setWidth 128 * oldPrice.setWidth 128).toNat = exactPTimesStep oldPrice step := by
  have fits : exactPTimesStep oldPrice step < 2 ^ 112 := exactPTimesStep_lt valid
  rw [BitVec.toNat_mul, BitVec.toNat_setWidth_of_le (by decide), BitVec.toNat_setWidth_of_le (by decide)]
  exact Nat.mod_eq_of_lt (by rw [exactPTimesStep] at fits; omega)

theorem toNat_pTimesDiff {diff : BitVec 128} (gap : diff.toNat = demand.toNat - supply.toNat + (supply.toNat - demand.toNat)) :
    (oldPrice.setWidth 128 * (if controlParams.useVolumeRelativizer then volumeRelativizer else 1).setWidth 128 * diff).toNat =
      exactPTimesDiff demand supply oldPrice volumeRelativizer controlParams % 2 ^ 128 := by
  rw [BitVec.toNat_mul, BitVec.toNat_mul, BitVec.toNat_setWidth_of_le (by decide), BitVec.toNat_setWidth_of_le (by decide),
    gap, exactPTimesDiff, Nat.mod_mul_mod]

/-- The trial price, in numbers; the second factor may have wrapped. -/
theorem getTrialPrice_spec (radix : SearchRadix controlParams) (valid : isValidPrice oldPrice = true) :
    ∃ price delta, getTrialPrice demand supply oldPrice step volumeRelativizer controlParams = .ok price ∧
      delta = min (2 ^ 48 - 1) (cappedProduct (exactPTimesStep oldPrice step)
        (exactPTimesDiff demand supply oldPrice volumeRelativizer controlParams % 2 ^ 128) (lowbitsToDrop controlParams)) ∧
      price.toNat = if supply < demand then min (2 ^ 48 - 1) (oldPrice.toNat + delta)
        else if oldPrice.toNat ≤ delta then 1 else oldPrice.toNat - delta := by
  obtain ⟨positive, small⟩ := isValidPrice_iff.mp valid
  have low : 80 ≤ controlParams.stepRadix.toNat + priceRadix := by rw [priceRadix]; have := radix.1; omega
  have high : controlParams.stepRadix.toNat + priceRadix ≤ 128 := by rw [priceRadix]; have := radix.2; omega
  rw [getTrialPrice]
  by_cases more : supply < demand
  · have above := BitVec.lt_def.mp more
    have gap : (demand - supply).toNat = demand.toNat - supply.toNat + (supply.toNat - demand.toNat) := by
      rw [BitVec.toNat_sub_of_le (BitVec.le_def.mpr above.le)]
      omega
    obtain ⟨delta, multiplied, value⟩ := safeMultiply_spec (step.setWidth 128 * oldPrice.setWidth 128)
      (oldPrice.setWidth 128 * (if controlParams.useVolumeRelativizer then volumeRelativizer else 1).setWidth 128 *
        (demand - supply)) low high
    rw [toNat_pTimesStep valid, toNat_pTimesDiff gap] at value
    have sum : ((oldPrice + delta).setWidth 128).toNat = oldPrice.toNat + delta.toNat := by
      rw [BitVec.toNat_setWidth_of_le (by decide), BitVec.toNat_add]
      exact Nat.mod_eq_of_lt (by omega)
    refine ⟨imposeBounds ((oldPrice + delta).setWidth 128), delta.toNat, ?_, value, ?_⟩
    · simp only [if_pos more, multiplied]
      rfl
    · have bound : (priceMax.setWidth 128).toNat = 2 ^ 48 - 1 := rfl
      have top : priceMax.toNat = 2 ^ 48 - 1 := rfl
      rw [if_pos more, imposeBounds]
      split_ifs with beyond zero
      · rw [BitVec.lt_def, bound, sum] at beyond
        omega
      · rw [zero] at sum
        have none : (0 : BitVec 128).toNat = 0 := rfl
        omega
      · have below := BitVec.le_def.mp (BitVec.not_lt.mp beyond)
        rw [bound, sum] at below
        rw [BitVec.toNat_setWidth, sum, Nat.mod_eq_of_lt (by omega)]
        omega
  · have below := BitVec.le_def.mp (BitVec.not_lt.mp more)
    have gap : (supply - demand).toNat = demand.toNat - supply.toNat + (supply.toNat - demand.toNat) := by
      rw [BitVec.toNat_sub_of_le (BitVec.le_def.mpr below)]
      omega
    obtain ⟨delta, multiplied, value⟩ := safeMultiply_spec (step.setWidth 128 * oldPrice.setWidth 128)
      (oldPrice.setWidth 128 * (if controlParams.useVolumeRelativizer then volumeRelativizer else 1).setWidth 128 *
        (supply - demand)) low high
    rw [toNat_pTimesStep valid, toNat_pTimesDiff gap] at value
    refine ⟨if oldPrice ≤ delta then 1 else oldPrice - delta, delta.toNat, ?_, value, ?_⟩
    · simp only [if_neg more, multiplied]
      rfl
    · rw [if_neg more]
      by_cases reached : oldPrice ≤ delta
      · rw [if_pos reached, if_pos (BitVec.le_def.mp reached)]
        rfl
      · have less := BitVec.lt_def.mp (BitVec.not_le.mp reached)
        rw [if_neg reached, if_neg (by omega)]
        exact BitVec.toNat_sub_of_le (BitVec.le_def.mpr less.le)

/-- What of the product is capped. -/
theorem cappedProduct_cases {first second n : Nat} (low : 80 ≤ n) (high : n ≤ 128) :
    (first / 2 ^ 64 * (second / 2 ^ 64) < 2 ^ (n - 80) ∧
      cappedProduct first second n ≤ first * second / 2 ^ n ∧ first * second / 2 ^ n ≤ cappedProduct first second n + 2) ∨
    (2 ^ (n - 80) ≤ first / 2 ^ 64 * (second / 2 ^ 64) ∧ 2 ^ 48 ≤ first * second / 2 ^ n ∧
      cappedProduct first second n + 2 ^ (128 - n) =
        LimbProduct.lowerParts (2 ^ 64) (2 ^ (n - 64)) first second + 2 ^ 48) := by
  have base : 2 ^ 64 = 2 ^ (n - 64) * 2 ^ (128 - n) := by
    rw [← Nat.pow_add]
    congr 1
    omega
  have whole : 2 ^ 64 * 2 ^ (n - 64) = 2 ^ n := by
    rw [← Nat.pow_add]
    congr 1
    omega
  have top : 2 ^ (n - 80) * 2 ^ (128 - n) = 2 ^ 48 := by
    rw [← Nat.pow_add]
    congr 1
    omega
  have error := LimbProduct.shifted_error base (by decide) first second
  rw [whole, LimbProduct.shifted] at error
  rw [cappedProduct]
  rcases Nat.lt_or_ge (first / 2 ^ 64 * (second / 2 ^ 64)) (2 ^ (n - 80)) with small | large
  · refine .inl ⟨small, ?_⟩
    rwa [Nat.min_eq_right (by omega)]
  · have least : 1 ≤ 2 ^ (n - 80) := Nat.one_le_two_pow
    have reached := Nat.mul_le_mul_right (2 ^ (128 - n)) large
    refine .inr ⟨large, by omega, ?_⟩
    rw [Nat.min_eq_left (by omega), Nat.add_assoc, ← Nat.succ_mul, Nat.succ_eq_add_one, Nat.sub_add_cancel least, top]

theorem nothingWraps (radix : SearchRadix controlParams) (valid : isValidPrice oldPrice = true)
    (fits : exactPTimesDiff demand supply oldPrice volumeRelativizer controlParams < 2 ^ 128) :
    NothingWraps demand supply oldPrice step volumeRelativizer controlParams where
  pTimesStep := (exactPTimesStep_lt valid).trans (by norm_num)
  pTimesDiff := fits
  out := by
    have low : 80 ≤ lowbitsToDrop controlParams := by rw [lowbitsToDrop, priceRadix]; have := radix.1; omega
    have high : lowbitsToDrop controlParams ≤ 128 := by rw [lowbitsToDrop, priceRadix]; have := radix.2; omega
    have bound : exactPTimesStep oldPrice step < 2 ^ 112 := exactPTimesStep_lt valid
    have lower := lowerParts_lt low (bound.trans (by norm_num)) fits
    have upper := capped_lt low high (exactPTimesStep oldPrice step / 2 ^ 64 *
      (exactPTimesDiff demand supply oldPrice volumeRelativizer controlParams / 2 ^ 64))
    have positive := Nat.two_pow_pos (128 - lowbitsToDrop controlParams)
    rw [cappedProduct]
    omega
  price := by
    obtain ⟨-, small⟩ := isValidPrice_iff.mp valid
    omega

theorem updatesExactly_iff (radix : SearchRadix controlParams) (valid : isValidPrice oldPrice = true) :
    UpdatesExactly demand supply oldPrice step volumeRelativizer controlParams ↔
      exactPTimesDiff demand supply oldPrice volumeRelativizer controlParams < 2 ^ 128 ∧
        (StepFits demand supply oldPrice step volumeRelativizer controlParams ∨
          OutweighsCap demand supply oldPrice step volumeRelativizer controlParams) := by
  obtain ⟨positive, small⟩ := isValidPrice_iff.mp valid
  have low : 80 ≤ lowbitsToDrop controlParams := by rw [lowbitsToDrop, priceRadix]; have := radix.1; omega
  have high : lowbitsToDrop controlParams ≤ 128 := by rw [lowbitsToDrop, priceRadix]; have := radix.2; omega
  obtain ⟨price, delta, run, moved, value⟩ :=
    @getTrialPrice_spec demand supply oldPrice step volumeRelativizer controlParams radix valid
  have settled : UpdatesExactly demand supply oldPrice step volumeRelativizer controlParams ↔
      exactPTimesDiff demand supply oldPrice volumeRelativizer controlParams < 2 ^ 128 ∧
        price.toNat ≤ exactTrialPrice demand supply oldPrice step volumeRelativizer controlParams + 2 ∧
        exactTrialPrice demand supply oldPrice step volumeRelativizer controlParams ≤ price.toNat + 2 := by
    constructor
    · rintro ⟨price', run', unwrapped, near⟩
      cases run.symm.trans run'
      exact ⟨unwrapped.pTimesDiff, near⟩
    · rintro ⟨fits, near⟩
      exact ⟨price, run, nothingWraps radix valid fits, near⟩
  rw [settled]
  refine and_congr_right (fun fits => ?_)
  rw [Nat.mod_eq_of_lt fits] at moved
  rcases @cappedProduct_cases (exactPTimesStep oldPrice step)
      (exactPTimesDiff demand supply oldPrice volumeRelativizer controlParams) _ low high with
    ⟨uncapped, least, most⟩ | ⟨capped, top, sum⟩
  · refine iff_of_true ?_ (.inl ⟨fits, uncapped⟩)
    rw [exactTrialPrice, exactMove, value]
    split_ifs <;> omega
  · have none : ¬ StepFits demand supply oldPrice step volumeRelativizer controlParams :=
      fun within => absurd within.uncapped (Nat.not_lt.mpr capped)
    rw [or_iff_right none, exactTrialPrice, exactMove, value, OutweighsCap]
    by_cases more : supply < demand
    · rw [if_pos more, if_pos more, if_pos more]
      omega
    · rw [if_neg more, if_neg more, if_neg more]
      split_ifs <;> omega

/-- A larger difference moves the price at least as far. -/
theorem getTrialPrice_mono (radix : SearchRadix controlParams) (valid : isValidPrice oldPrice = true)
    {demand' supply' : BitVec 128} (same : supply < demand ↔ supply' < demand')
    (wider : demand.toNat - supply.toNat + (supply.toNat - demand.toNat) ≤
      demand'.toNat - supply'.toNat + (supply'.toNat - demand'.toNat))
    (fits : StepFits demand' supply' oldPrice step volumeRelativizer controlParams) {price price' : Price}
    (run : getTrialPrice demand supply oldPrice step volumeRelativizer controlParams = .ok price)
    (run' : getTrialPrice demand' supply' oldPrice step volumeRelativizer controlParams = .ok price') :
    if supply < demand then price ≤ price' else price' ≤ price := by
  have low : 80 ≤ lowbitsToDrop controlParams := by rw [lowbitsToDrop, priceRadix]; have := radix.1; omega
  have high : lowbitsToDrop controlParams ≤ 128 := by rw [lowbitsToDrop, priceRadix]; have := radix.2; omega
  obtain ⟨price₁, delta, run₁, moved, value⟩ :=
    @getTrialPrice_spec demand supply oldPrice step volumeRelativizer controlParams radix valid
  obtain ⟨price₂, delta', run₂, moved', value'⟩ :=
    @getTrialPrice_spec demand' supply' oldPrice step volumeRelativizer controlParams radix valid
  cases run.symm.trans run₁
  cases run'.symm.trans run₂
  have less : exactPTimesDiff demand supply oldPrice volumeRelativizer controlParams ≤
      exactPTimesDiff demand' supply' oldPrice volumeRelativizer controlParams := Nat.mul_le_mul_left _ wider
  have upper : exactPTimesStep oldPrice step / 2 ^ 64 *
      (exactPTimesDiff demand supply oldPrice volumeRelativizer controlParams / 2 ^ 64) ≤
      exactPTimesStep oldPrice step / 2 ^ 64 *
        (exactPTimesDiff demand' supply' oldPrice volumeRelativizer controlParams / 2 ^ 64) :=
    Nat.mul_le_mul_left _ (Nat.div_le_div_right less)
  have uncapped := fits.uncapped
  have base : 2 ^ 64 = 2 ^ (lowbitsToDrop controlParams - 64) * 2 ^ (128 - lowbitsToDrop controlParams) := by
    rw [← Nat.pow_add]
    congr 1
    omega
  have farther := LimbProduct.shifted_mono base (by decide) (exactPTimesStep oldPrice step) less
  rw [LimbProduct.shifted, LimbProduct.shifted] at farther
  have below : exactPTimesStep oldPrice step / 2 ^ 64 *
      (exactPTimesDiff demand supply oldPrice volumeRelativizer controlParams / 2 ^ 64) ≤
      2 ^ (lowbitsToDrop controlParams - 80) - 1 := by omega
  have below' : exactPTimesStep oldPrice step / 2 ^ 64 *
      (exactPTimesDiff demand' supply' oldPrice volumeRelativizer controlParams / 2 ^ 64) ≤
      2 ^ (lowbitsToDrop controlParams - 80) - 1 := by omega
  rw [Nat.mod_eq_of_lt (less.trans_lt fits.pTimesDiff), cappedProduct, Nat.min_eq_right below] at moved
  rw [Nat.mod_eq_of_lt fits.pTimesDiff, cappedProduct, Nat.min_eq_right below'] at moved'
  have deltas : delta ≤ delta' := by omega
  by_cases more : supply < demand
  · rw [if_pos more] at value ⊢
    rw [if_pos (same.mp more)] at value'
    rw [BitVec.le_def]
    omega
  · rw [if_neg more] at value ⊢
    rw [if_neg (fun absurd => more (same.mpr absurd))] at value'
    obtain ⟨positive, -⟩ := isValidPrice_iff.mp valid
    rw [BitVec.le_def]
    split_ifs at value value' <;> omega

end Update

end Speedex
