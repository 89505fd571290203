import Mathlib.Data.List.FinRange
import Mathlib.Tactic.SplitIfs
import Speedex.Market.ExchangeRate
import Speedex.Market.Tatonnement

set_option autoImplicit false

/- Which runs of the price search keep every price between one and `PRICE_MAX`. -/
namespace Speedex

open Machine PriceUtils

/-- What all workers have in common. -/
structure WorkerParameters (controlParams : TatonnementControlParameters) : Prop where
  minStep : controlParams.minStep = 1 <<< 7
  stepAdjustRadix : controlParams.stepAdjustRadix = 5
  stepRadix : 73 ≤ controlParams.stepRadix.toNat ∧ controlParams.stepRadix.toNat ≤ 95

theorem workerParameters_common : ∀ controlParams ∈ workerParameters, WorkerParameters controlParams := by
  intro controlParams member
  simp only [workerParameters, List.mem_cons, List.not_mem_nil, or_false] at member
  rcases member with rfl | rfl | rfl | rfl | rfl | rfl <;> exact ⟨rfl, rfl, by decide⟩

section Prices

variable {demand supply : BitVec 128} {oldPrice : Price} {step : BitVec 64} {volumeRelativizer : BitVec 16}
  {controlParams : TatonnementControlParameters}

theorem imposeBounds_valid (val : BitVec 128) : isValidPrice (imposeBounds val) = true := by
  have bound : (priceMax.setWidth 128).toNat = 2 ^ 48 - 1 := rfl
  rw [isValidPrice_iff, imposeBounds]
  split_ifs with above zero
  · decide
  · decide
  · have positive : val.toNat ≠ 0 := fun none => zero (BitVec.eq_of_toNat_eq none)
    have below := BitVec.not_lt.mp above
    rw [BitVec.le_def, bound] at below
    rw [BitVec.toNat_setWidth, Nat.mod_eq_of_lt (by omega)]
    omega

theorem capPrice_lt (out : BitVec 128) : (capPrice out).toNat < 2 ^ 48 := by
  have bound : (priceMax.setWidth 128).toNat = 2 ^ 48 - 1 := rfl
  rw [capPrice]
  split_ifs with above
  · decide
  · have below := BitVec.le_def.mp (BitVec.not_lt.mp above)
    rw [bound] at below
    rw [BitVec.toNat_setWidth, Nat.mod_eq_of_lt (by omega)]
    omega

/-- With these radices the multiplication throws nothing. -/
theorem safeMultiply_total (first second : BitVec 128) {lowbitsToDrop : Nat} (low : 64 ≤ lowbitsToDrop)
    (high : lowbitsToDrop < 192) :
    ∃ delta, safeMultiplyAndDropLowbits first second lowbitsToDrop = .ok delta ∧ delta.toNat < 2 ^ 48 := by
  have within : lowbitsToDrop - 64 < 128 := by omega
  rw [safeMultiplyAndDropLowbits, if_neg (by omega)]
  simp only [checkedShiftRight_ok within]
  by_cases few : lowbitsToDrop ≤ 128
  · exact ⟨_, if_pos few, capPrice_lt _⟩
  · exact ⟨_, if_neg few, capPrice_lt _⟩

/-- A trial price is valid, whatever the demand, the supply and the step. -/
theorem getTrialPrice_valid (params : WorkerParameters controlParams) (valid : isValidPrice oldPrice = true) :
    ∃ price, getTrialPrice demand supply oldPrice step volumeRelativizer controlParams = .ok price ∧
      isValidPrice price = true := by
  have radix := params.stepRadix
  have low : 64 ≤ controlParams.stepRadix.toNat + priceRadix := by rw [priceRadix]; omega
  have high : controlParams.stepRadix.toNat + priceRadix < 192 := by rw [priceRadix]; omega
  rw [getTrialPrice]
  by_cases more : supply < demand
  · obtain ⟨delta, multiplied, -⟩ := safeMultiply_total (step.setWidth 128 * oldPrice.setWidth 128)
      (oldPrice.setWidth 128 * (if controlParams.useVolumeRelativizer then volumeRelativizer else 1).setWidth 128 *
        (demand - supply)) low high
    refine ⟨_, ?_, imposeBounds_valid ((oldPrice + delta).setWidth 128)⟩
    simp only [if_pos more, multiplied]
    rfl
  · obtain ⟨delta, multiplied, -⟩ := safeMultiply_total (step.setWidth 128 * oldPrice.setWidth 128)
      (oldPrice.setWidth 128 * (if controlParams.useVolumeRelativizer then volumeRelativizer else 1).setWidth 128 *
        (supply - demand)) low high
    refine ⟨if oldPrice ≤ delta then 1 else oldPrice - delta, ?_, ?_⟩
    · simp only [if_neg more, multiplied]
      rfl
    · obtain ⟨positive, small⟩ := isValidPrice_iff.mp valid
      split_ifs with reached
      · decide
      · have less := BitVec.not_le.mp reached
        rw [isValidPrice_iff, BitVec.toNat_sub_of_le (BitVec.le_def.mpr (BitVec.lt_def.mp less).le)]
        have less := BitVec.lt_def.mp less
        omega

variable {numAssets : Nat}

/-- Prices that a search may work with. -/
def ValidPrices (prices : Fin numAssets → Price) : Prop := ∀ asset, isValidPrice (prices asset) = true

theorem setTrialPrices_valid (params : WorkerParameters controlParams) {oldPrices : Fin numAssets → Price}
    (valid : ValidPrices oldPrices) (step : BitVec 64) (volumeRelativizers : Fin numAssets → BitVec 16)
    (demands supplies : Fin numAssets → BitVec 128) :
    ∃ prices, setTrialPrices oldPrices step controlParams volumeRelativizers demands supplies = .ok prices ∧
      ValidPrices prices := by
  have each : ∀ asset, ∃ price, getTrialPrice (demands asset) (supplies asset) (oldPrices asset) step
      (volumeRelativizers asset) controlParams = .ok price ∧ isValidPrice price = true := fun asset =>
    getTrialPrice_valid params (valid asset)
  choose prices priced valid' using each
  exact ⟨prices, Branches.sequence_ok priced, valid'⟩

end Prices

section Steps

/-- A step that neither vanishes when it shrinks nor overflows. -/
def SaneStep (step : BitVec 64) : Prop := 100 ≤ step.toNat ∧ step.toNat < 2 ^ 59

variable {step : BitVec 64}

theorem incrementStep_sane (sane : SaneStep step) : ∃ step', incrementStep step (stepUp 5) 5 = .ok step' ∧
    SaneStep step' := by
  have up : stepUp 5 = 44 := by decide
  have shifted : ((step * (44 : BitVec 16).setWidth 64) >>> 5).toNat < 2 ^ 59 := by
    have bound := (step * (44 : BitVec 16).setWidth 64).isLt
    rw [BitVec.toNat_ushiftRight, Nat.shiftRight_eq_div_pow]
    omega
  refine ⟨_, by rw [incrementStep, up, checkedShiftRight_ok (by decide)]; rfl, ?_⟩
  split_ifs with less
  · exact sane
  · have more := BitVec.le_def.mp (BitVec.not_lt.mp less)
    exact ⟨sane.1.trans more, shifted⟩

/-- Only steps of at least `min_step` shrink, and to four fifths at the least. -/
theorem decrementStep_sane (sane : SaneStep step) (enough : ¬ step < 1 <<< 7) :
    ∃ step', decrementStep step (stepDown 5) 5 = .ok step' ∧ SaneStep step' := by
  have down : stepDown 5 = 25 := by decide
  have least : 128 ≤ step.toNat := BitVec.le_def.mp (BitVec.not_lt.mp enough)
  have small := sane.2
  have value : ((step * (25 : BitVec 16).setWidth 64) >>> (5 : BitVec 8).toNat).toNat = step.toNat * 25 / 32 := by
    have factor : ((25 : BitVec 16).setWidth 64).toNat = 25 := rfl
    have radix : (5 : BitVec 8).toNat = 5 := rfl
    rw [BitVec.toNat_ushiftRight, Nat.shiftRight_eq_div_pow, BitVec.toNat_mul, factor, radix,
      Nat.mod_eq_of_lt (by omega)]
  refine ⟨_, by rw [decrementStep, down, checkedShiftRight_ok (by decide)]; rfl, ?_⟩
  unfold SaneStep
  rw [value]
  omega

/-- A normalisation shrinks the step, but not below `min_step`. -/
theorem shrink_sane (sane : SaneStep step) (count : Nat) :
    SaneStep (if step >>> count < 1 <<< 7 then 1 <<< 7 else step >>> count) := by
  have less := shiftRight_le step count
  have small := sane.2
  unfold SaneStep
  split_ifs with few
  · decide
  · have least : 128 ≤ (step >>> count).toNat := BitVec.le_def.mp (BitVec.not_lt.mp few)
    omega

end Steps

section Normalize

/-- The smallest and the largest price are prices of the list. -/
theorem extremes_spec (prices : List Price) (low high : Price) :
    let extremes := prices.foldl
      (fun m price => (if price < m.1 then price else m.1, if m.2 < price then price else m.2)) (low, high)
    extremes.1 ∈ low :: prices ∧ extremes.2 ∈ high :: prices ∧ ∀ price ∈ high :: prices, price ≤ extremes.2 := by
  induction prices generalizing low high with
  | nil => simp
  | cons price prices ih =>
    obtain ⟨least, greatest, bound⟩ := ih (if price < low then price else low) (if high < price then price else high)
    have top : high ≤ (if high < price then price else high) ∧ price ≤ (if high < price then price else high) := by
      split_ifs with more
      · exact ⟨BitVec.le_of_lt more, BitVec.le_refl _⟩
      · exact ⟨BitVec.le_refl _, BitVec.not_lt.mp more⟩
    have topped := bound _ List.mem_cons_self
    refine ⟨?_, ?_, ?_⟩
    · rw [List.foldl_cons]
      rcases List.mem_cons.mp least with new | old
      · rw [new]
        split_ifs <;> simp
      · simp [old]
    · rw [List.foldl_cons]
      rcases List.mem_cons.mp greatest with new | old
      · rw [new]
        split_ifs <;> simp
      · simp [old]
    · intro other member
      rw [List.foldl_cons]
      rcases List.mem_cons.mp member with rfl | member
      · exact BitVec.le_trans top.1 topped
      · rcases List.mem_cons.mp member with rfl | member
        · exact BitVec.le_trans top.2 topped
        · exact bound other (List.mem_cons_of_mem _ member)

variable {numAssets : Nat} {prices : Fin numAssets → Price}

theorem extremePrices_spec (prices : Fin numAssets → Price) (some : 0 < numAssets) : (∃ asset, (extremePrices prices).1 = prices asset) ∧
    (∃ asset, (extremePrices prices).2 = prices asset) ∧ ∀ asset, prices asset ≤ (extremePrices prices).2 := by
  have first : (List.ofFn prices).head?.getD 0 = prices ⟨0, some⟩ := by
    cases numAssets with
    | zero => omega
    | succ n =>
      rw [List.ofFn_succ]
      rfl
  have member : ∀ asset, prices asset ∈ List.ofFn prices := fun asset => List.mem_ofFn.mpr ⟨asset, rfl⟩
  have named : ∀ price, price ∈ prices ⟨0, some⟩ :: List.ofFn prices → ∃ asset, price = prices asset := by
    intro price among
    rcases List.mem_cons.mp among with rfl | among
    · exact ⟨_, rfl⟩
    · obtain ⟨asset, at_asset⟩ := List.mem_ofFn.mp among
      exact ⟨asset, at_asset.symm⟩
  obtain ⟨least, greatest, bound⟩ := extremes_spec (List.ofFn prices) (prices ⟨0, some⟩) (prices ⟨0, some⟩)
  rw [extremePrices, first]
  exact ⟨named _ least, named _ greatest, fun asset => bound _ (List.mem_cons_of_mem _ (member asset))⟩

/-- The leading zeros of a valid price. -/
theorem clzll_valid {price : Price} (valid : isValidPrice price = true) : ∃ zeros : Nat, clzll price = .ok zeros ∧
    16 ≤ zeros ∧ zeros ≤ 63 ∧ price.toNat < 2 ^ (64 - zeros) ∧ 2 ^ (63 - zeros) ≤ price.toNat := by
  obtain ⟨positive, small⟩ := isValidPrice_iff.mp valid
  have nonzero : price ≠ 0 := fun zero => by rw [zero] at positive; exact absurd positive (by decide)
  have below := BitVec.toNat_lt_two_pow_sub_clz (x := price)
  have above := BitVec.two_pow_sub_clz_le_toNat_of_ne_zero (by omega) nonzero
  refine ⟨price.clz.toNat, by rw [clzll, if_neg nonzero], ?_, ?_, below, above⟩
  · by_contra few
    have much : 2 ^ 48 ≤ 2 ^ (64 - 1 - price.clz.toNat) := Nat.pow_le_pow_right (by omega) (by omega)
    omega
  · by_contra many
    have one : 2 ^ (64 - price.clz.toNat) ≤ 2 ^ 0 := Nat.pow_le_pow_right (by omega) (by omega)
    omega

/-- Prices that leave the normalisation room are still valid after it, and it never asks for a negative shift. -/
theorem normalizePrices_roomy (some : 0 < numAssets) (valid : ValidPrices prices)
    (roomy : ∀ asset, (prices asset).toNat < 2 ^ 45) :
    ∃ prices' : Fin numAssets → Price, ∃ adjust : Nat, normalizePrices prices = .ok (prices', adjust) ∧ adjust < 64 ∧
      ValidPrices prices' := by
  obtain ⟨⟨low, least⟩, ⟨high, greatest⟩, bound⟩ := extremePrices_spec prices some
  obtain ⟨lowZeros, lowLeading, -⟩ := clzll_valid (valid low)
  obtain ⟨zeros, leading, -, most, below, above⟩ := clzll_valid (valid high)
  rw [normalizePrices, least, greatest, leading, lowLeading]
  have enough : 19 ≤ zeros := by
    by_contra few
    have much : 2 ^ 45 ≤ 2 ^ (63 - zeros) := Nat.pow_le_pow_right (by omega) (by omega)
    have room := roomy high
    omega
  have space : (zeros : Int) - (64 - priceBitLen) = ((zeros - 16 : Nat) : Int) := by
    rw [priceBitLen, priceRadix]
    omega
  show ∃ prices' : Fin numAssets → Price, ∃ adjust : Nat,
    (if (zeros : Int) - (64 - priceBitLen) > 10 then _ else _) = _ ∧ _
  rw [space]
  by_cases wide : ((zeros - 16 : Nat) : Int) > 10
  · refine ⟨fun asset => prices asset <<< ((zeros - 16) / 2), (zeros - 16) / 2, ?_, by omega, ?_⟩
    · rw [if_pos wide]
      rfl
    · intro asset
      have top : (prices asset).toNat < 2 ^ (64 - zeros) := by
        have less := BitVec.le_def.mp (bound asset)
        rw [greatest] at less
        omega
      have grown : (prices asset).toNat * 2 ^ ((zeros - 16) / 2) < 2 ^ 48 :=
        calc (prices asset).toNat * 2 ^ ((zeros - 16) / 2)
          _ < 2 ^ (64 - zeros) * 2 ^ ((zeros - 16) / 2) := Nat.mul_lt_mul_of_pos_right top (Nat.two_pow_pos _)
          _ = 2 ^ (64 - zeros + (zeros - 16) / 2) := (pow_add _ _ _).symm
          _ ≤ 2 ^ 48 := Nat.pow_le_pow_right (by omega) (by omega)
      rw [isValidPrice_iff, toNat_shiftLeft_of_lt (grown.trans (by decide))]
      exact ⟨Nat.mul_pos (isValidPrice_iff.mp (valid asset)).1 (Nat.two_pow_pos _), grown⟩
  · refine ⟨prices, 0, ?_, by omega, valid⟩
    rw [if_neg wide, if_neg (by omega)]
    rfl

/-- With a price in the top three bits the caller is told to shift by minus two. -/
theorem normalizePrices_crowded (valid : ValidPrices prices) {asset : Fin numAssets}
    (crowded : 2 ^ 45 ≤ (prices asset).toNat) :
    normalizePrices prices = .ok (fun asset => prices asset >>> 2, -2) := by
  have some : 0 < numAssets := asset.pos
  obtain ⟨⟨low, least⟩, ⟨high, greatest⟩, bound⟩ := extremePrices_spec prices some
  obtain ⟨lowZeros, lowLeading, -⟩ := clzll_valid (valid low)
  obtain ⟨zeros, leading, fewest, -, below, -⟩ := clzll_valid (valid high)
  rw [normalizePrices, least, greatest, leading, lowLeading]
  have few : zeros < 19 := by
    by_contra many
    have little : 2 ^ (64 - zeros) ≤ 2 ^ 45 := Nat.pow_le_pow_right (by omega) (by omega)
    have less := BitVec.le_def.mp (bound asset)
    rw [greatest] at less
    omega
  have space : (zeros : Int) - (64 - priceBitLen) < 3 := by
    rw [priceBitLen, priceRadix]
    omega
  show (if (zeros : Int) - (64 - priceBitLen) > 10 then _ else _) = _
  rw [if_neg (by omega), if_pos space]

end Normalize

section Searches

variable {numAssets : Nat} {controlParams : TatonnementControlParameters} {taxRate : BitVec 8}
  {volumeRelativizers : Fin numAssets → BitVec 16} {state : GridState numAssets} {answer : RoundAnswer numAssets}

/-- What every search keeps, so long as no normalisation meets a price that is too high. -/
structure Searching (state : GridState numAssets) : Prop where
  prices : ValidPrices state.pricesWorkspace
  trials : ∀ trialPrices, state.trialPrices = some trialPrices → ValidPrices trialPrices
  step : SaneStep state.step
  fresh : state.trialPrices = none → state.roundNumber = 0 ∧ state.clearing = false
  -- with no asset the first round clears
  assets : numAssets = 0 → state.roundNumber ≤ 1 ∧ (state.roundNumber = 1 → state.clearing = true)

def RoundResult.Valid : RoundResult numAssets → Prop
  | .running state => Searching state ∧ 0 < state.roundNumber
  | .returned _ pricesWorkspace => ValidPrices pricesWorkspace

theorem start_searching (params : WorkerParameters controlParams) {prices : Fin numAssets → Price}
    (valid : ValidPrices prices) (supplies demands : Fin numAssets → BitVec 128) :
    Searching (.start controlParams prices supplies demands) where
  prices := valid
  trials := by
    intro trialPrices some
    cases some
  step := by
    show SaneStep controlParams.minStep
    rw [params.minStep]
    unfold SaneStep
    decide
  fresh _ := ⟨rfl, rfl⟩
  assets _ := ⟨Nat.zero_le _, fun (one : 0 = 1) => absurd one (by decide)⟩

/-- Accepting or rejecting the trial prices changes neither of the two vectors' validity, nor the round. -/
theorem acceptOrReject_ok (params : WorkerParameters controlParams) {trialPrices : Fin numAssets → Price}
    (prices : ValidPrices state.pricesWorkspace) (trials : ValidPrices trialPrices) (sane : SaneStep state.step) :
    ∃ state', state.acceptOrReject controlParams trialPrices answer = .ok state' ∧
      ValidPrices state'.pricesWorkspace ∧ SaneStep state'.step ∧ state'.trialPrices = state.trialPrices ∧
      state'.roundNumber = state.roundNumber ∧ state'.clearing = state.clearing := by
  rw [GridState.acceptOrReject, params.minStep, params.stepAdjustRadix]
  by_cases accept : answer.isBetterThan = true ∨ state.step < 1 <<< 7 ∨ state.clearing = true ∨ 0 < state.forceStepRounds
  · obtain ⟨step, incremented, sane⟩ := incrementStep_sane sane
    rw [if_pos accept, incremented]
    exact ⟨_, rfl, trials, sane, rfl, rfl, rfl⟩
  · have enough : ¬ state.step < 1 <<< 7 := fun few => accept (.inr (.inl few))
    have calm : ¬ 0 < state.forceStepRounds := fun forced => accept (.inr (.inr (.inr forced)))
    obtain ⟨step, decremented, sane⟩ := decrementStep_sane sane enough
    rw [if_neg accept, if_neg calm, decremented]
    exact ⟨_, rfl, prices, sane, rfl, rfl, rfl⟩

theorem checkClearing_of_noAssets (none : numAssets = 0) (demands supplies : Fin numAssets → BitVec 128) :
    checkClearing demands supplies taxRate = true := by
  subst none
  rw [checkClearing, decide_eq_true_eq]
  exact fun asset => asset.elim0

/-- The LP check reads the trial prices only after a round has set them. -/
theorem checkFeasibility_ok (searching : Searching state) (solverRes : Bool) :
    ∃ clearing, state.checkFeasibility solverRes = .ok clearing ∧ (state.clearing = true → clearing = true) ∧
      (solverRes = false → clearing = state.clearing) ∧
      (clearing = true → ∃ trialPrices, state.trialPrices = some trialPrices) := by
  cases tried : state.trialPrices with
  | none =>
    obtain ⟨first, calm⟩ := searching.fresh tried
    refine ⟨false, ?_, fun clear => absurd (calm.symm.trans clear) (by decide), fun _ => calm.symm,
      fun absurd => by cases absurd⟩
    rw [GridState.checkFeasibility, first, calm]
    rfl
  | some trialPrices =>
    refine ⟨if state.roundNumber % GridState.lpCheckFreq = GridState.lpCheckFreq - 1 then state.clearing || solverRes
      else state.clearing, ?_, ?_, ?_, fun _ => ⟨_, rfl⟩⟩
    · rw [GridState.checkFeasibility]
      split_ifs with check
      · rw [tried]
      · rfl
    · intro clear
      rw [clear]
      split_ifs <;> rfl
    · intro failed
      rw [failed, Bool.or_false, ite_self]

/-- A round up to the normalisation throws nothing and keeps the prices valid. -/
theorem search_ok (taxRate : BitVec 8) (volumeRelativizers : Fin numAssets → BitVec 16)
    (answer : RoundAnswer numAssets) (params : WorkerParameters controlParams) (searching : Searching state) :
    ∃ result, state.search controlParams taxRate volumeRelativizers answer = .ok result ∧ result.Valid := by
  obtain ⟨clearing, checked, keeps, -, tried⟩ := checkFeasibility_ok searching answer.solverRes
  rw [GridState.search, checked]
  cases clearing with
  | true =>
    obtain ⟨trialPrices, some⟩ := tried rfl
    cases first : answer.notFirstClear with
    | true =>
      exact ⟨.returned false state.pricesWorkspace, rfl, searching.prices⟩
    | false =>
      refine ⟨.returned true trialPrices, ?_, searching.trials _ some⟩
      rw [some]
      rfl
  | false =>
    have calm : state.clearing = false := by
      cases clear : state.clearing with
      | true => exact absurd (keeps clear) (by decide)
      | false => rfl
    obtain ⟨trialPrices, set, valid⟩ := setTrialPrices_valid params searching.prices state.step volumeRelativizers
      state.demandsSearch state.suppliesSearch
    have started : numAssets = 0 → state.roundNumber = 0 := by
      intro none
      obtain ⟨early, clears⟩ := searching.assets none
      by_contra late
      exact absurd (calm.symm.trans (clears (by omega))) (by decide)
    let tried : GridState numAssets := { state with
      trialPrices := some trialPrices
      roundNumber := state.roundNumber + 1
      forceStepRounds := if trialPrices = state.pricesWorkspace then 10 else state.forceStepRounds
      clearing := checkClearing answer.demandsWorkspace answer.suppliesWorkspace taxRate }
    have moves : ∃ state', tried.acceptOrReject controlParams trialPrices answer = .ok state' ∧
        ValidPrices state'.pricesWorkspace ∧ SaneStep state'.step ∧ state'.trialPrices = tried.trialPrices ∧
        state'.roundNumber = tried.roundNumber ∧ state'.clearing = tried.clearing :=
      acceptOrReject_ok params searching.prices valid searching.step
    obtain ⟨state', moved, prices, sane, trials, number, clears⟩ := moves
    show ∃ result, (setTrialPrices _ _ _ _ _ _ >>= _) = _ ∧ _
    rw [set]
    show ∃ result, (if (state.roundNumber + 1) % 10000 = 9999 ∧ answer.otherFinisher then _ else
      (tried.acceptOrReject controlParams trialPrices answer >>= _)) = _ ∧ _
    by_cases ended : (state.roundNumber + 1) % 10000 = 9999 ∧ answer.otherFinisher = true
    · rw [if_pos ended]
      exact ⟨_, rfl, searching.prices⟩
    · rw [if_neg ended, moved]
      refine ⟨_, rfl, ⟨prices, ?_, sane, ?_, ?_⟩, number ▸ Nat.succ_pos _⟩
      · intro trialPrices' at_state
        rw [trials] at at_state
        cases at_state
        exact valid
      · intro none
        rw [trials] at none
        cases none
      · intro none
        rw [number, clears]
        refine ⟨?_, fun _ => checkClearing_of_noAssets none _ _⟩
        show state.roundNumber + 1 ≤ 1
        rw [started none]

/-- The normalisation goes wrong on a price in the top three bits, and otherwise keeps what a search keeps. -/
theorem normalize_ok (params : WorkerParameters controlParams) (searching : Searching state) (some : 0 < numAssets)
    (roomy : ∀ asset, (state.pricesWorkspace asset).toNat < 2 ^ 45) :
    ∃ state', state.normalize controlParams = .ok state' ∧ Searching state' ∧
      state'.roundNumber = state.roundNumber := by
  obtain ⟨prices', adjust, normalized, few, valid⟩ := normalizePrices_roomy some searching.prices roomy
  rw [GridState.normalize, normalized, params.minStep]
  by_cases still : (adjust : Int) = 0
  · refine ⟨{ state with pricesWorkspace := prices' }, ?_,
      ⟨valid, searching.trials, searching.step, searching.fresh, searching.assets⟩, rfl⟩
    show (if (adjust : Int) = 0 then _ else _) = _
    rw [if_pos still]
  · refine ⟨{ state with
        pricesWorkspace := prices'
        step := if state.step >>> adjust < 1 <<< 7 then 1 <<< 7 else state.step >>> adjust }, ?_,
      ⟨valid, searching.trials, shrink_sane searching.step adjust, searching.fresh, searching.assets⟩, rfl⟩
    show (if (adjust : Int) = 0 then _ else _) = _
    rw [if_neg still, if_pos (by omega), Int.toNat_natCast, checkedShiftRight_ok few]
    rfl

theorem normalize_crowded (searching : Searching state) {asset : Fin numAssets}
    (crowded : 2 ^ 45 ≤ (state.pricesWorkspace asset).toNat) :
    state.normalize controlParams = .error .negativeShift := by
  rw [GridState.normalize, normalizePrices_crowded searching.prices crowded]
  rfl

/-- The round comes to a normalisation only with prices below an eighth of the range. -/
def GridState.SafeRound (controlParams : TatonnementControlParameters) (taxRate : BitVec 8)
    (volumeRelativizers : Fin numAssets → BitVec 16) (state : GridState numAssets)
    (answer : RoundAnswer numAssets) : Prop :=
  ∀ state', state.search controlParams taxRate volumeRelativizers answer = .ok (.running state') →
    state'.roundNumber % 1000 = 0 → ∀ asset, (state'.pricesWorkspace asset).toNat < 2 ^ 45

theorem round_ok (params : WorkerParameters controlParams) (searching : Searching state)
    (safe : state.SafeRound controlParams taxRate volumeRelativizers answer) :
    ∃ result, state.round controlParams taxRate volumeRelativizers answer = .ok result ∧ result.Valid := by
  obtain ⟨result, searched, valid⟩ := search_ok taxRate volumeRelativizers answer params searching
  rw [GridState.round, searched]
  cases result with
  | returned success pricesWorkspace => exact ⟨_, rfl, valid⟩
  | running state' =>
    show ∃ result, (if state'.roundNumber % 1000 = 0 then (state'.normalize controlParams >>= _) else _) = _ ∧ _
    by_cases due : state'.roundNumber % 1000 = 0
    · have some : 0 < numAssets := by
        by_contra none
        obtain ⟨early, -⟩ := valid.1.assets (by omega)
        have started := valid.2
        omega
      obtain ⟨state'', normalized, searching', number⟩ := normalize_ok params valid.1 some (safe state' searched due)
      rw [if_pos due, normalized]
      exact ⟨_, rfl, searching', number ▸ valid.2⟩
    · rw [if_neg due]
      exact ⟨_, rfl, valid⟩

theorem round_crowded (params : WorkerParameters controlParams) (searching : Searching state)
    (crowded : ¬ state.SafeRound controlParams taxRate volumeRelativizers answer) :
    state.round controlParams taxRate volumeRelativizers answer = .error .negativeShift := by
  unfold GridState.SafeRound at crowded
  push Not at crowded
  obtain ⟨state', searched, due, asset, high⟩ := crowded
  obtain ⟨result, searched', valid⟩ := search_ok taxRate volumeRelativizers answer params searching
  cases searched.symm.trans searched'
  rw [GridState.round, searched]
  show (if state'.roundNumber % 1000 = 0 then (state'.normalize controlParams >>= _) else _) = _
  rw [if_pos due, normalize_crowded valid.1 high]
  rfl

end Searches

section Oracle

variable {numAssets : Nat} {taxRate : BitVec 8} {volumeRelativizers : Fin numAssets → BitVec 16}
  {state : OracleState numAssets} {action : OracleAction numAssets}

/-- The shared prices are valid, and so are both price vectors of every search; no step is zero. -/
structure OracleState.PricesValid (state : OracleState numAssets) : Prop where
  shared : ValidPrices state.internalSharedPriceWorkspace
  workspaces : ∀ search, some search ∈ state.searches → ValidPrices search.pricesWorkspace
  trials : ∀ search, some search ∈ state.searches → ∀ trialPrices, search.trialPrices = some trialPrices →
    ValidPrices trialPrices
  steps : ∀ search, some search ∈ state.searches → search.step ≠ 0

structure OracleState.Running (state : OracleState numAssets) : Prop where
  shared : ValidPrices state.internalSharedPriceWorkspace
  searches : ∀ search, some search ∈ state.searches → Searching search

theorem OracleState.Running.pricesValid (running : state.Running) : state.PricesValid where
  shared := running.shared
  workspaces search member := (running.searches search member).prices
  trials search member := (running.searches search member).trials
  steps search member := by
    intro zero
    have enough := (running.searches search member).step.1
    rw [zero] at enough
    exact absurd enough (by decide)

theorem new_running {prices : Fin numAssets → Price} (valid : ValidPrices prices) :
    (OracleState.new prices).Running where
  shared := valid
  searches search member := by
    obtain ⟨params, -, none⟩ := List.mem_map.mp member
    cases none

/-- A query brings valid prices. -/
def OracleAction.Valid : OracleAction numAssets → Prop
  | .query prices => ValidPrices prices
  | _ => True

/-- If the action is a round, then no normalisation of it meets a price in the top three bits. -/
def OracleState.SafeAction (taxRate : BitVec 8) (volumeRelativizers : Fin numAssets → BitVec 16)
    (state : OracleState numAssets) : OracleAction numAssets → Prop
  | .round worker answer _ => ∀ controlParams search, workerParameters[worker]? = some controlParams →
      state.searches[worker]? = some (some search) →
      search.SafeRound controlParams taxRate volumeRelativizers answer
  | _ => True

theorem Running.set {search : Option (GridState numAssets)} {worker : Nat} {prices : Fin numAssets → Price}
    (running : state.Running) (valid : ValidPrices prices) (searching : ∀ state', search = some state' → Searching state') :
    (OracleState.mk prices (state.searches.set worker search)).Running where
  shared := valid
  searches state' member := by
    rcases List.mem_or_eq_of_mem_set member with old | new
    · exact running.searches state' old
    · exact searching state' new.symm

theorem step_ok (running : state.Running) (valid : action.Valid)
    (safe : state.SafeAction taxRate volumeRelativizers action) :
    ∃ state', state.step taxRate volumeRelativizers action = .ok state' ∧ state'.Running := by
  cases action with
  | query prices => exact ⟨_, rfl, valid, running.searches⟩
  | start worker supplies demands =>
    rw [OracleState.step]
    split
    · rename_i controlParams known waiting
      have params := workerParameters_common _ (List.mem_of_getElem? known)
      refine ⟨_, rfl, Running.set running running.shared ?_⟩
      intro search started
      cases started
      exact start_searching params running.shared supplies demands
    · exact ⟨_, rfl, running⟩
  | round worker answer timeoutHappened =>
    rw [OracleState.step]
    split
    · rename_i controlParams search known busy
      have params := workerParameters_common _ (List.mem_of_getElem? known)
      have searching := running.searches search (List.mem_of_getElem? busy)
      obtain ⟨result, rounded, kept⟩ := round_ok params searching (safe controlParams search known busy)
      rw [rounded]
      cases result with
      | running search' =>
        refine ⟨_, rfl, Running.set running running.shared ?_⟩
        intro search'' same
        cases same
        exact kept.1
      | returned success pricesWorkspace =>
        refine ⟨_, rfl, Running.set running ?_ (fun search' absurd => by cases absurd)⟩
        split_ifs
        · exact kept
        · exact running.shared
    · exact ⟨_, rfl, running⟩

theorem step_crowded (running : state.Running) (crowded : ¬ state.SafeAction taxRate volumeRelativizers action) :
    state.step taxRate volumeRelativizers action = .error .negativeShift := by
  cases action with
  | query prices => exact absurd trivial crowded
  | start worker supplies demands => exact absurd trivial crowded
  | round worker answer timeoutHappened =>
    unfold OracleState.SafeAction at crowded
    push Not at crowded
    obtain ⟨controlParams, search, known, busy, high⟩ := crowded
    have params := workerParameters_common _ (List.mem_of_getElem? known)
    have searching := running.searches search (List.mem_of_getElem? busy)
    rw [OracleState.step, known, busy]
    dsimp only
    rw [round_crowded params searching high]

/-- Whatever a step that ends well leaves behind can go on. -/
theorem step_running {state' : OracleState numAssets} (running : state.Running) (valid : action.Valid)
    (stepped : state.step taxRate volumeRelativizers action = .ok state') : state'.Running := by
  by_cases safe : state.SafeAction taxRate volumeRelativizers action
  · obtain ⟨state'', stepped', running⟩ := step_ok running valid safe
    cases stepped.symm.trans stepped'
    exact running
  · rw [step_crowded running safe] at stepped
    cases stepped

/-- A run in which every normalisation finds all prices below an eighth of the range. -/
def SafeRun (taxRate : BitVec 8) (volumeRelativizers : Fin numAssets → BitVec 16) (prices : Fin numAssets → Price)
    (actions : List (OracleAction numAssets)) : Prop :=
  ∀ done action state, done ++ [action] <+: actions →
    done.foldlM (OracleState.step taxRate volumeRelativizers) (OracleState.new prices) = .ok state →
    state.SafeAction taxRate volumeRelativizers action

theorem run_running {prices : Fin numAssets → Price} {done : List (OracleAction numAssets)} (valid : ValidPrices prices)
    (queries : ∀ action ∈ done, action.Valid)
    (run : done.foldlM (OracleState.step taxRate volumeRelativizers) (OracleState.new prices) = .ok state) :
    state.Running := by
  refine Fallible.foldlM_invariant (fun _ state => state.Running) (new_running valid) run ?_
  intro before action state state' within running stepped
  exact step_running running (queries action (within.subset (by simp))) stepped

theorem run_ok {prices : Fin numAssets → Price} {done : List (OracleAction numAssets)} (valid : ValidPrices prices)
    (queries : ∀ action ∈ done, action.Valid) (safe : SafeRun taxRate volumeRelativizers prices done) :
    ∃ state, done.foldlM (OracleState.step taxRate volumeRelativizers) (OracleState.new prices) = .ok state := by
  have step : ∀ before action state, before ++ [action] <+: done →
      before.foldlM (OracleState.step taxRate volumeRelativizers) (OracleState.new prices) = .ok state →
      ∃ state', state.step taxRate volumeRelativizers action = .ok state' ∧
        (before ++ [action]).foldlM (OracleState.step taxRate volumeRelativizers) (OracleState.new prices) =
          .ok state' := by
    intro before action state within run
    have early : ∀ action' ∈ before ++ [action], action'.Valid := fun action' member =>
      queries action' (within.subset member)
    have running := run_running valid (fun action' member => early action' (List.mem_append_left _ member)) run
    obtain ⟨state', stepped, -⟩ := step_ok running (early action (by simp)) (safe before action state within run)
    refine ⟨state', stepped, ?_⟩
    rw [List.foldlM_append, run]
    show (state.step taxRate volumeRelativizers action >>= pure) = _
    rw [stepped]
    rfl
  obtain ⟨state, run, -⟩ := Fallible.foldlM_total (fun before state =>
    before.foldlM (OracleState.step taxRate volumeRelativizers) (OracleState.new prices) = .ok state) rfl step
  exact ⟨state, run⟩

/-- The prices stay valid and no shift goes wrong in exactly the runs whose normalisations all find room. -/
theorem tatonnement_prices_valid_iff {prices : Fin numAssets → Price} {actions : List (OracleAction numAssets)}
    (valid : ValidPrices prices) (queries : ∀ action ∈ actions, action.Valid) :
    (∀ done, done <+: actions → ∃ state,
      done.foldlM (OracleState.step taxRate volumeRelativizers) (OracleState.new prices) = .ok state ∧
        state.PricesValid) ↔
      SafeRun taxRate volumeRelativizers prices actions := by
  have early : ∀ done, done <+: actions → ∀ action ∈ done, action.Valid := fun done front action member =>
    queries action (front.subset member)
  constructor
  · intro sound done action state within run
    have running := run_running valid (early done ((List.prefix_append done [action]).trans within)) run
    by_contra crowded
    obtain ⟨state', run', -⟩ := sound _ within
    rw [List.foldlM_append, run] at run'
    have stepped : (state.step taxRate volumeRelativizers action >>= pure) = Except.ok state' := run'
    rw [step_crowded running crowded] at stepped
    cases stepped
  · intro safe done front
    obtain ⟨state, run⟩ := run_ok valid (early done front)
      (fun before action state within => safe before action state (within.trans front))
    exact ⟨state, run, (run_running valid (early done front) run).pricesValid⟩

/-- One asset at `PRICE_MAX` that everybody wants, and one at the lowest price that nobody wants. -/
def extremeMarket : Fin 2 → Price := ![priceMax, 1]

def scarceAnswer : RoundAnswer 2 where
  solverRes := false
  notFirstClear := false
  suppliesWorkspace := ![0, 1 <<< 40]
  demandsWorkspace := ![1 <<< 40, 0]
  isBetterThan := false
  otherFinisher := false

def scarceRun : List (OracleAction 2) :=
  .query extremeMarket :: .start 0 scarceAnswer.suppliesWorkspace scarceAnswer.demandsWorkspace ::
    List.replicate 1000 (.round 0 scarceAnswer false)

theorem extremeMarket_valid : ValidPrices extremeMarket := by
  unfold ValidPrices
  decide

theorem tatonnement_prices_valid_scarce :
    (∀ done, done <+: scarceRun → ∃ state,
      done.foldlM (OracleState.step 10 (fun _ => 1)) (OracleState.new extremeMarket) = .ok state ∧ state.PricesValid) ↔
      SafeRun 10 (fun _ => 1) extremeMarket scarceRun := by
  refine tatonnement_prices_valid_iff extremeMarket_valid ?_
  intro action member
  rcases List.mem_cons.mp member with rfl | member
  · exact extremeMarket_valid
  · rcases List.mem_cons.mp member with rfl | member
    · exact trivial
    · rw [(List.mem_replicate.mp member).2]
      exact trivial

/-- A search that stays at the extreme prices. -/
structure Stuck (rounds : Nat) (state : GridState 2) : Prop where
  prices : state.pricesWorkspace = extremeMarket
  supplies : state.suppliesSearch = scarceAnswer.suppliesWorkspace
  demands : state.demandsSearch = scarceAnswer.demandsWorkspace
  number : state.roundNumber = rounds
  searching : Searching state
  clearing : state.clearing = false

theorem getTrialPrice_top {demand supply : BitVec 128} {step : BitVec 64} {volumeRelativizer : BitVec 16}
    {controlParams : TatonnementControlParameters} (params : WorkerParameters controlParams) (more : supply < demand) :
    getTrialPrice demand supply priceMax step volumeRelativizer controlParams = .ok priceMax := by
  have radix := params.stepRadix
  obtain ⟨delta, multiplied, small⟩ := safeMultiply_total (step.setWidth 128 * priceMax.setWidth 128)
    (priceMax.setWidth 128 * (if controlParams.useVolumeRelativizer then volumeRelativizer else 1).setWidth 128 *
      (demand - supply)) (show 64 ≤ controlParams.stepRadix.toNat + priceRadix by rw [priceRadix]; omega)
    (show controlParams.stepRadix.toNat + priceRadix < 192 by rw [priceRadix]; omega)
  rw [getTrialPrice]
  simp only [if_pos more, multiplied]
  show Except.ok (imposeBounds ((priceMax + delta).setWidth 128)) = _
  have top : priceMax.toNat = 2 ^ 48 - 1 := rfl
  have wide : (priceMax.setWidth 128).toNat = 2 ^ 48 - 1 := rfl
  have sum : ((priceMax + delta).setWidth 128).toNat = 2 ^ 48 - 1 + delta.toNat := by
    rw [BitVec.toNat_setWidth, BitVec.toNat_add, top]
    omega
  rw [imposeBounds]
  split_ifs with above zero
  · rfl
  · rw [zero] at sum
    exact absurd sum (by rw [show (0 : BitVec 128).toNat = 0 from rfl]; omega)
  · have least : delta.toNat = 0 := by
      have below := BitVec.le_def.mp (BitVec.not_lt.mp above)
      omega
    have none : delta = 0 := BitVec.eq_of_toNat_eq least
    rw [none]
    rfl

theorem getTrialPrice_bottom {demand supply : BitVec 128} {step : BitVec 64} {volumeRelativizer : BitVec 16}
    {controlParams : TatonnementControlParameters} (params : WorkerParameters controlParams) (less : ¬ supply < demand) :
    getTrialPrice demand supply 1 step volumeRelativizer controlParams = .ok 1 := by
  have radix := params.stepRadix
  obtain ⟨delta, multiplied, -⟩ := safeMultiply_total (step.setWidth 128 * (1 : Price).setWidth 128)
    ((1 : Price).setWidth 128 * (if controlParams.useVolumeRelativizer then volumeRelativizer else 1).setWidth 128 *
      (supply - demand)) (show 64 ≤ controlParams.stepRadix.toNat + priceRadix by rw [priceRadix]; omega)
    (show controlParams.stepRadix.toNat + priceRadix < 192 by rw [priceRadix]; omega)
  rw [getTrialPrice]
  simp only [if_neg less, multiplied]
  show Except.ok (if 1 ≤ delta then 1 else 1 - delta) = _
  split_ifs with reached
  · rfl
  · have none : delta = 0 := BitVec.eq_of_toNat_eq (by
      have few : delta.toNat < 1 := BitVec.lt_def.mp (BitVec.not_le.mp reached)
      have zero : (0 : BitVec 64).toNat = 0 := rfl
      omega)
    rw [none]
    rfl

theorem stuck_search {rounds : Nat} {state : GridState 2} {controlParams : TatonnementControlParameters}
    (params : WorkerParameters controlParams) (stuck : Stuck rounds state) :
    ∃ state', state.search controlParams 10 (fun _ => 1) scarceAnswer = .ok (.running state') ∧
      Stuck (rounds + 1) state' := by
  obtain ⟨prices, supplies, demands, number, searching, calm⟩ := stuck
  obtain ⟨clearing, checked, -, failed, -⟩ := checkFeasibility_ok searching scarceAnswer.solverRes
  have on := failed rfl
  rw [calm] at on
  have priced : ∀ asset, getTrialPrice (scarceAnswer.demandsWorkspace asset) (scarceAnswer.suppliesWorkspace asset)
      (extremeMarket asset) state.step 1 controlParams = .ok (extremeMarket asset) := by
    rw [Fin.forall_fin_two]
    exact ⟨getTrialPrice_top params (by decide), getTrialPrice_bottom params (by decide)⟩
  have set : setTrialPrices state.pricesWorkspace state.step controlParams (fun _ => 1) state.demandsSearch
      state.suppliesSearch = .ok extremeMarket := by
    rw [prices, demands, supplies]
    exact Branches.sequence_ok priced
  obtain ⟨step, incremented, -⟩ := incrementStep_sane searching.step
  have searched : ∃ state', state.search controlParams 10 (fun _ => 1) scarceAnswer = .ok (.running state') ∧
      state'.pricesWorkspace = extremeMarket ∧ state'.suppliesSearch = scarceAnswer.suppliesWorkspace ∧
      state'.demandsSearch = scarceAnswer.demandsWorkspace ∧ state'.roundNumber = rounds + 1 ∧
      state'.clearing = false := by
    rw [GridState.search, checked, on]
    show ∃ state', (setTrialPrices _ _ _ _ _ _ >>= _) = _ ∧ _
    rw [set, ← prices, ← number]
    refine ⟨{ state with
      trialPrices := some state.pricesWorkspace
      roundNumber := state.roundNumber + 1
      forceStepRounds := 9
      clearing := false
      suppliesSearch := scarceAnswer.suppliesWorkspace
      demandsSearch := scarceAnswer.demandsWorkspace
      step := step }, ?_, rfl, rfl, rfl, rfl, rfl⟩
    have unfinished : ¬ ((state.roundNumber + 1) % 10000 = 9999 ∧ scarceAnswer.otherFinisher = true) := by
      intro both
      exact absurd both.2 (by decide)
    have unclear : checkClearing scarceAnswer.demandsWorkspace scarceAnswer.suppliesWorkspace 10 = false := by decide
    show (if (state.roundNumber + 1) % 10000 = 9999 ∧ scarceAnswer.otherFinisher = true then _ else _) = _
    rw [if_neg unfinished, unclear, if_pos rfl, GridState.acceptOrReject,
      if_pos (.inr (.inr (.inr (show 0 < 10 by decide)))), params.stepAdjustRadix]
    show ((incrementStep state.step (stepUp 5) 5 >>= _) >>= _) = _
    rw [incremented]
    rfl
  obtain ⟨state', searched, prices, supplies, demands, number, calm⟩ := searched
  obtain ⟨result, searched', valid⟩ := search_ok 10 (fun _ => 1) scarceAnswer params searching
  cases searched.symm.trans searched'
  exact ⟨state', searched, prices, supplies, demands, number, valid.1, calm⟩

/-- The first worker after some rounds in the extreme market. -/
theorem stuck_run (rounds : Nat) (few : rounds < 1000) : ∃ state search,
    (OracleAction.query extremeMarket :: .start 0 scarceAnswer.suppliesWorkspace scarceAnswer.demandsWorkspace ::
      List.replicate rounds (.round 0 scarceAnswer false)).foldlM (OracleState.step 10 (fun _ => 1))
        (OracleState.new extremeMarket) = .ok state ∧
      state.searches[0]? = some (some search) ∧ Stuck rounds search := by
  have params : WorkerParameters ⟨95, 1 <<< 7, 5, true, false⟩ := workerParameters_common _ (by decide)
  induction rounds with
  | zero =>
    refine ⟨_, _, rfl, rfl, rfl, rfl, rfl, rfl, start_searching params extremeMarket_valid _ _, rfl⟩
  | succ rounds ih =>
    obtain ⟨state, search, run, busy, stuck⟩ := ih (by omega)
    obtain ⟨search', searched, stuck'⟩ := stuck_search params stuck
    have within : 0 < state.searches.length := (List.getElem?_eq_some_iff.mp busy).1
    refine ⟨{ state with searches := state.searches.set 0 (some search') }, search', ?_,
      List.getElem?_set_self within, stuck'⟩
    rw [List.replicate_succ', ← List.cons_append, ← List.cons_append, List.foldlM_append, run]
    show (state.step 10 (fun _ => 1) (.round 0 scarceAnswer false) >>= pure) = _
    have rounded : search.round ⟨95, 1 <<< 7, 5, true, false⟩ 10 (fun _ => 1) scarceAnswer = .ok (.running search') := by
      rw [GridState.round, searched]
      show (if search'.roundNumber % 1000 = 0 then _ else _) = _
      rw [if_neg (by rw [stuck'.number]; omega)]
    have known : workerParameters[0]? = some ⟨95, 1 <<< 7, 5, true, false⟩ := rfl
    rw [OracleState.step, known, busy]
    dsimp only
    rw [rounded]
    rfl

/-- After a thousand rounds the step is shifted by minus two. -/
theorem scarceRun_negativeShift : ValidPrices extremeMarket ∧
    scarceRun.foldlM (OracleState.step 10 (fun _ => 1)) (OracleState.new extremeMarket) = .error .negativeShift := by
  refine ⟨extremeMarket_valid, ?_⟩
  obtain ⟨state, search, run, busy, stuck⟩ := stuck_run 999 (by decide)
  have params : WorkerParameters ⟨95, 1 <<< 7, 5, true, false⟩ := workerParameters_common _ (by decide)
  obtain ⟨search', searched, stuck'⟩ := stuck_search params stuck
  have crowded : ¬ search.SafeRound ⟨95, 1 <<< 7, 5, true, false⟩ 10 (fun _ => 1) scarceAnswer := by
    intro safe
    have room := safe search' searched (by rw [stuck'.number]) 0
    rw [stuck'.prices] at room
    exact absurd room (by decide)
  rw [scarceRun, List.replicate_succ', ← List.cons_append, ← List.cons_append, List.foldlM_append, run]
  show (state.step 10 (fun _ => 1) (.round 0 scarceAnswer false) >>= pure) = _
  have known : workerParameters[0]? = some ⟨95, 1 <<< 7, 5, true, false⟩ := rfl
  rw [OracleState.step, known, busy]
  dsimp only
  rw [round_crowded params stuck.searching crowded]
  rfl

end Oracle

end Speedex
