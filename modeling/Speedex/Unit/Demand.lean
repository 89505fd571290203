import Speedex.Market.ExchangeRate
import Speedex.Unit.SupplyLookup

set_option autoImplicit false

/- `calculate_demands_and_supplies`: what a work unit sells and buys at given prices. Offers up to the
lower execution price are counted in full, and those up to the upper one in part. -/
namespace Speedex

open Cumulative Machine PriceUtils

/-- How the computation ends without a result. -/
inductive DemandFailure where
  | undefined (reason : Undefined)
  | runtimeError (what : String)
deriving DecidableEq, Repr

def DemandFailure.brokenIndex : DemandFailure := .runtimeError
  "This should absolutely never happen, and means indexed_metadata or binary search is broken (or maybe an overflow)"

def DemandFailure.overflowing : DemandFailure :=
  .runtimeError "this should not happen unless something has begun to overflow"

/-- `demands_workspace` and `supplies_workspace`. -/
abbrev Workspace := AssetID → BitVec 128

def Workspace.add (workspace : Workspace) (asset : AssetID) (volume : BitVec 128) : Workspace :=
  fun other => if other = asset then workspace other + volume else workspace other

/-- What offers sell and buy, with the radix of prices. -/
structure Volumes where
  sell : BitVec 128
  buy : BitVec 128
deriving DecidableEq, Repr

/-- `partial_sell_volume` and `partial_buy_volume`. -/
def partialVolumes (sellPrice buyPrice : Price) (smoothMult : BitVec 8) (partialExecEndow : BitVec 64)
    (partialExecEndowTimesPrice : BitVec 128) : Except DemandFailure Volumes :=
  if smoothMult = 0 then .ok ⟨0, 0⟩
  else do
    -- the shift is made on the `uint64_t`, and only its result is widened
    let shifted ← (checkedShiftLeft partialExecEndow smoothMult.toNat).mapError .undefined
    let endowOverEpsilon := shifted.setWidth 128
    let endowTimesPriceOverEpsilon ←
      (checkedShiftLeft partialExecEndowTimesPrice smoothMult.toNat).mapError .undefined
    let sellWideMultiplyResult ←
      (wideMultiplyChecked endowTimesPriceOverEpsilon buyPrice sellPrice).mapError .undefined
    if endowOverEpsilon <<< priceRadix < sellWideMultiplyResult then .error .overflowing
    else
      let buyWideMultiplyResult ←
        (wideMultiplyChecked (endowOverEpsilon <<< priceRadix) sellPrice buyPrice).mapError .undefined
      if buyWideMultiplyResult < endowTimesPriceOverEpsilon then .error .overflowing
      else .ok ⟨endowOverEpsilon <<< priceRadix - sellWideMultiplyResult,
        buyWideMultiplyResult - endowTimesPriceOverEpsilon⟩

/-- `full_sell_volume` and `full_buy_volume`. -/
def fullVolumes (sellPrice buyPrice : Price) (smoothMult : BitVec 8) (metadataPartial metadataFull : EndowAccumulator) :
    Except DemandFailure Volumes :=
  let fullExecEndow := metadataFull.endow
  let partialExecEndow := metadataPartial.endow - fullExecEndow
  let partialExecEndowTimesPrice := metadataPartial.endowTimesPrice - metadataFull.endowTimesPrice
  if metadataPartial.endowTimesPrice.slt metadataFull.endowTimesPrice then .error .brokenIndex
  else do
    let between ← partialVolumes sellPrice buyPrice smoothMult partialExecEndow partialExecEndowTimesPrice
    let fullExecVolume := fullExecEndow.setWidth 128 <<< priceRadix
    let bought ← (wideMultiplyChecked fullExecVolume sellPrice buyPrice).mapError .undefined
    .ok ⟨between.sell + fullExecVolume, between.buy + bought⟩

/-- `calculate_demands_and_supplies_from_metadata`. -/
def calculateDemandsAndSuppliesFromMetadata (category : OfferCategory) (prices : AssetID → Price)
    (demandsWorkspace suppliesWorkspace : Workspace) (smoothMult : BitVec 8)
    (metadataPartial metadataFull : EndowAccumulator) : Except DemandFailure (Workspace × Workspace) := do
  let volumes ←
    fullVolumes (prices category.sellAsset) (prices category.buyAsset) smoothMult metadataPartial metadataFull
  .ok (demandsWorkspace.add category.buyAsset volumes.buy, suppliesWorkspace.add category.sellAsset volumes.sell)

/-- `calculate_demands_and_supplies`. -/
def calculateDemandsAndSupplies (index : List IndexedMetadata) (category : OfferCategory) (prices : AssetID → Price)
    (demandsWorkspace suppliesWorkspace : Workspace) (smoothMult : BitVec 8) :
    Except DemandFailure (Workspace × Workspace) := do
  let executionPrices ←
    (getExecutionPrices (prices category.sellAsset) (prices category.buyAsset) smoothMult).mapError .undefined
  let metadataPartial := getMetadata index executionPrices.2
  let metadataFull := if smoothMult ≠ 0 then getMetadata index executionPrices.1 else metadataPartial
  -- from here on both functions have the same text
  calculateDemandsAndSuppliesFromMetadata category prices demandsWorkspace suppliesWorkspace smoothMult
    metadataPartial metadataFull

/-- No step of `partialVolumes` wraps or throws, for the amount `e` and the amount times price `t` of the
offers between the execution prices. -/
structure PartialFits (sell buy s e t : Nat) : Prop where
  endow : e * 2 ^ s < 2 ^ 64
  price : t * 2 ^ s < 2 ^ 128
  sold : t * 2 ^ s * buy / sell ≤ e * 2 ^ s * 2 ^ 24
  wide : e * 2 ^ s * 2 ^ 24 * sell / buy < 2 ^ 128
  bought : t * 2 ^ s ≤ e * 2 ^ s * 2 ^ 24 * sell / buy

section Volumes

variable {sellPrice buyPrice : Price} {smoothMult : BitVec 8} {s e t : Nat}

/-- Offers worth at most the rate fit if their scaled amount fits a `uint64_t`. -/
theorem partialFits_of_rate (buy : 0 < buyPrice.toNat)
    (exact : exactRate sellPrice buyPrice < 2 ^ 64) (fits : e * 2 ^ s < 2 ^ 64)
    (cheap : t ≤ e * exactRate sellPrice buyPrice) : PartialFits sellPrice.toNat buyPrice.toNat s e t := by
  have scaled : t * 2 ^ s ≤ e * 2 ^ s * exactRate sellPrice buyPrice := by
    calc t * 2 ^ s ≤ e * exactRate sellPrice buyPrice * 2 ^ s := Nat.mul_le_mul_right _ cheap
      _ = e * 2 ^ s * exactRate sellPrice buyPrice := Nat.mul_right_comm _ _ _
  have worth : e * 2 ^ s * exactRate sellPrice buyPrice < 2 ^ 64 * 2 ^ 64 := Nat.mul_lt_mul'' fits exact
  have below := exactRate_mul_le sellPrice buyPrice
  have above := lt_exactRate_succ_mul sellPrice buy
  refine ⟨fits, by omega, ?_, ?_, ?_⟩
  · apply Nat.div_le_of_le_mul
    calc t * 2 ^ s * buyPrice.toNat
        ≤ e * 2 ^ s * exactRate sellPrice buyPrice * buyPrice.toNat := Nat.mul_le_mul_right _ scaled
      _ = e * 2 ^ s * (exactRate sellPrice buyPrice * buyPrice.toNat) := Nat.mul_assoc _ _ _
      _ ≤ e * 2 ^ s * (sellPrice.toNat * 2 ^ 24) := Nat.mul_le_mul_left _ below
      _ = sellPrice.toNat * (e * 2 ^ s * 2 ^ 24) := by ring
  · apply Nat.div_lt_of_lt_mul
    calc e * 2 ^ s * 2 ^ 24 * sellPrice.toNat
        = e * 2 ^ s * (sellPrice.toNat * 2 ^ 24) := by ring
      _ ≤ (2 ^ 64 - 1) * (sellPrice.toNat * 2 ^ 24) := Nat.mul_le_mul_right _ (by omega)
      _ < 2 ^ 64 * ((exactRate sellPrice buyPrice + 1) * buyPrice.toNat) := by omega
      _ ≤ 2 ^ 64 * (2 ^ 64 * buyPrice.toNat) := Nat.mul_le_mul_left _ (Nat.mul_le_mul_right _ exact)
      _ = buyPrice.toNat * 2 ^ 128 := by ring
  · rw [Nat.le_div_iff_mul_le buy]
    calc t * 2 ^ s * buyPrice.toNat
        ≤ e * 2 ^ s * exactRate sellPrice buyPrice * buyPrice.toNat := Nat.mul_le_mul_right _ scaled
      _ = e * 2 ^ s * (exactRate sellPrice buyPrice * buyPrice.toNat) := Nat.mul_assoc _ _ _
      _ ≤ e * 2 ^ s * (sellPrice.toNat * 2 ^ 24) := Nat.mul_le_mul_left _ below
      _ = e * 2 ^ s * 2 ^ 24 * sellPrice.toNat := by ring

theorem partialFits_none (sell buy s : Nat) : PartialFits sell buy s 0 0 := by
  constructor <;> simp

/-- The interpolation sells no more than there is, since the offers are dearer than the lower price. -/
theorem partialSold_le (sell : 0 < sellPrice.toNat) (buy : 0 < buyPrice.toNat)
    (dear : e * (exactRate sellPrice buyPrice - exactRate sellPrice buyPrice / 2 ^ s + 1) ≤ t) :
    e * 2 ^ s * 2 ^ 24 - t * 2 ^ s * buyPrice.toNat / sellPrice.toNat ≤ e * 2 ^ 24 := by
  generalize rate_eq : exactRate sellPrice buyPrice = rate at dear
  have below := exactRate_mul_le sellPrice buyPrice
  have above := lt_exactRate_succ_mul sellPrice buy
  rw [rate_eq] at below above
  have shifted := Nat.div_mul_le_self rate (2 ^ s)
  have lower := Nat.div_le_self rate (2 ^ s)
  have gap : (2 ^ s - 1) * (sellPrice.toNat * 2 ^ 24) ≤ (rate - rate / 2 ^ s + 1) * 2 ^ s * buyPrice.toNat := by
    have split : (rate - rate / 2 ^ s + 1) * 2 ^ s * buyPrice.toNat + rate / 2 ^ s * 2 ^ s * buyPrice.toNat =
        2 ^ s * ((rate + 1) * buyPrice.toNat) := by
      rw [← Nat.add_mul, ← Nat.add_mul, show rate - rate / 2 ^ s + 1 + rate / 2 ^ s = rate + 1 by omega]
      ring
    have more : 2 ^ s * (sellPrice.toNat * 2 ^ 24) ≤ 2 ^ s * ((rate + 1) * buyPrice.toNat) :=
      Nat.mul_le_mul_left _ above.le
    have less := (Nat.mul_le_mul_right buyPrice.toNat shifted).trans below
    rw [Nat.sub_mul, Nat.one_mul]
    omega
  have enough : e * (2 ^ s - 1) * 2 ^ 24 ≤ t * 2 ^ s * buyPrice.toNat / sellPrice.toNat := by
    rw [Nat.le_div_iff_mul_le sell]
    calc e * (2 ^ s - 1) * 2 ^ 24 * sellPrice.toNat
        = e * ((2 ^ s - 1) * (sellPrice.toNat * 2 ^ 24)) := by ring
      _ ≤ e * ((rate - rate / 2 ^ s + 1) * 2 ^ s * buyPrice.toNat) := Nat.mul_le_mul_left _ gap
      _ = e * (rate - rate / 2 ^ s + 1) * (2 ^ s * buyPrice.toNat) := by ring
      _ ≤ t * (2 ^ s * buyPrice.toNat) := Nat.mul_le_mul_right _ dear
      _ = t * 2 ^ s * buyPrice.toNat := (Nat.mul_assoc _ _ _).symm
  have whole : e * 2 ^ s * 2 ^ 24 = e * (2 ^ s - 1) * 2 ^ 24 + e * 2 ^ 24 := by
    obtain ⟨k, power⟩ := Nat.exists_eq_succ_of_ne_zero (Nat.two_pow_pos s).ne'
    rw [power, Nat.succ_sub_one, Nat.succ_eq_add_one]
    ring
  omega

theorem toNat_volume {endow : BitVec 64} : (endow.setWidth 128 <<< priceRadix).toNat = endow.toNat * 2 ^ 24 := by
  have bound := endow.isLt
  have wide : (endow.setWidth 128).toNat = endow.toNat := BitVec.toNat_setWidth_of_le (by decide)
  rw [toNat_shiftLeft_of_lt (by rw [wide, priceRadix]; omega), wide, priceRadix]

/-- What the offers between the execution prices sell. -/
def partialSold (sell buy s e t : Nat) : Nat := if s = 0 then 0 else e * 2 ^ s * 2 ^ 24 - t * 2 ^ s * buy / sell

/-- What they buy. -/
def partialBought (sell buy s e t : Nat) : Nat := if s = 0 then 0 else e * 2 ^ s * 2 ^ 24 * sell / buy - t * 2 ^ s

/-- Where nothing overflows, the volumes are the exact ones, rounded. -/
theorem partialVolumes_spec (sell : 0 < sellPrice.toNat) (buy : 0 < buyPrice.toNat) (within : smoothMult.toNat < 64)
    {endow : BitVec 64} {price : BitVec 128}
    (fits : PartialFits sellPrice.toNat buyPrice.toNat smoothMult.toNat endow.toNat price.toNat) :
    ∃ volumes, partialVolumes sellPrice buyPrice smoothMult endow price = .ok volumes ∧
      volumes.sell.toNat = partialSold sellPrice.toNat buyPrice.toNat smoothMult.toNat endow.toNat price.toNat ∧
      volumes.buy.toNat = partialBought sellPrice.toNat buyPrice.toNat smoothMult.toNat endow.toNat price.toNat := by
  by_cases zero : smoothMult = 0
  · refine ⟨⟨0, 0⟩, if_pos zero, ?_, ?_⟩
    · rw [zero, partialSold, if_pos (by decide)]
      rfl
    · rw [zero, partialBought, if_pos (by decide)]
      rfl
  have positive : smoothMult.toNat ≠ 0 := fun none => zero (BitVec.eq_of_toNat_eq none)
  have volume : ((endow <<< smoothMult.toNat).setWidth 128 <<< priceRadix).toNat =
      endow.toNat * 2 ^ smoothMult.toNat * 2 ^ 24 := by
    rw [toNat_volume, toNat_shiftLeft_of_lt fits.endow]
  have scaled : (price <<< smoothMult.toNat).toNat = price.toNat * 2 ^ smoothMult.toNat :=
    toNat_shiftLeft_of_lt fits.price
  have small := fits.endow
  have sellWide : (wideMultiplyValByAOverB (price <<< smoothMult.toNat) buyPrice sellPrice).toNat =
      price.toNat * 2 ^ smoothMult.toNat * buyPrice.toNat / sellPrice.toNat := by
    rw [toNat_wideMultiply _ sell, scaled, Nat.mod_eq_of_lt (fits.sold.trans_lt (by omega))]
  have buyWide : (wideMultiplyValByAOverB ((endow <<< smoothMult.toNat).setWidth 128 <<< priceRadix)
      sellPrice buyPrice).toNat =
      endow.toNat * 2 ^ smoothMult.toNat * 2 ^ 24 * sellPrice.toNat / buyPrice.toNat := by
    rw [toNat_wideMultiply _ buy, volume, Nat.mod_eq_of_lt fits.wide]
  rw [partialVolumes, if_neg zero, partialSold, if_neg positive, partialBought, if_neg positive]
  simp only [checkedShiftLeft_ok within, checkedShiftLeft_ok (within.trans (by decide : 64 < 128)),
    wideMultiplyChecked_ok sell, wideMultiplyChecked_ok buy]
  refine ⟨_, (if_neg ?_).trans (if_neg ?_), ?_, ?_⟩
  · rw [BitVec.not_lt, BitVec.le_def, sellWide, volume]
    exact fits.sold
  · rw [BitVec.not_lt, BitVec.le_def, scaled, buyWide]
    exact fits.bought
  · rw [BitVec.toNat_sub_of_le, volume, sellWide]
    rw [BitVec.le_def, sellWide, volume]
    exact fits.sold
  · rw [BitVec.toNat_sub_of_le, buyWide, scaled]
    rw [BitVec.le_def, scaled, buyWide]
    exact fits.bought

/-- The unit never buys more than what it sells is worth. -/
theorem bought_mul_le (sell buy s e t full : Nat) :
    (partialBought sell buy s e t + full * sell / buy) * buy ≤ (partialSold sell buy s e t + full) * sell := by
  have rest := Nat.div_mul_le_self (full * sell) buy
  rw [Nat.add_mul, Nat.add_mul]
  refine Nat.add_le_add ?_ rest
  rw [partialBought, partialSold]
  by_cases zero : s = 0
  · rw [if_pos zero, if_pos zero, Nat.zero_mul]
    exact Nat.zero_le _
  · rw [if_neg zero, if_neg zero, Nat.sub_mul, Nat.sub_mul]
    have bought := Nat.div_mul_le_self (e * 2 ^ s * 2 ^ 24 * sell) buy
    have worth := Nat.div_mul_le_self (t * 2 ^ s * buy) sell
    omega

theorem fullVolumes_spec (sell : 0 < sellPrice.toNat) (buy : 0 < buyPrice.toNat) (within : smoothMult.toNat < 64)
    {metadataPartial metadataFull : EndowAccumulator}
    (ordered : ¬ metadataPartial.endowTimesPrice.slt metadataFull.endowTimesPrice = true)
    (endow : (metadataPartial.endow - metadataFull.endow).toNat = e)
    (price : (metadataPartial.endowTimesPrice - metadataFull.endowTimesPrice).toNat = t)
    (fits : PartialFits sellPrice.toNat buyPrice.toNat smoothMult.toNat e t) :
    ∃ volumes, fullVolumes sellPrice buyPrice smoothMult metadataPartial metadataFull = .ok volumes ∧
      volumes.sell.toNat =
        partialSold sellPrice.toNat buyPrice.toNat smoothMult.toNat e t + metadataFull.endow.toNat * 2 ^ 24 ∧
      volumes.buy.toNat * buyPrice.toNat ≤ volumes.sell.toNat * sellPrice.toNat := by
  subst endow price
  obtain ⟨between, returned, sold_eq, bought_eq⟩ := partialVolumes_spec sell buy within fits
  have bound := metadataFull.endow.isLt
  have small := fits.endow
  have sold_le : between.sell.toNat ≤ (metadataPartial.endow - metadataFull.endow).toNat * 2 ^ smoothMult.toNat * 2 ^ 24 := by
    rw [sold_eq, partialSold]
    split
    · exact Nat.zero_le _
    · exact Nat.sub_le _ _
  have supply : (between.sell + metadataFull.endow.setWidth 128 <<< priceRadix).toNat =
      between.sell.toNat + metadataFull.endow.toNat * 2 ^ 24 := by
    rw [BitVec.toNat_add, toNat_volume, Nat.mod_eq_of_lt (by omega)]
  have rest : (wideMultiplyValByAOverB (metadataFull.endow.setWidth 128 <<< priceRadix) sellPrice buyPrice).toNat ≤
      metadataFull.endow.toNat * 2 ^ 24 * sellPrice.toNat / buyPrice.toNat := by
    rw [toNat_wideMultiply _ buy, toNat_volume]
    exact Nat.mod_le _ _
  rw [fullVolumes, if_neg ordered, returned]
  simp only [wideMultiplyChecked_ok buy]
  refine ⟨_, rfl, supply.trans (congrArg (· + _) sold_eq), ?_⟩
  calc (between.buy + wideMultiplyValByAOverB (metadataFull.endow.setWidth 128 <<< priceRadix) sellPrice buyPrice).toNat *
        buyPrice.toNat
      ≤ (between.buy.toNat + metadataFull.endow.toNat * 2 ^ 24 * sellPrice.toNat / buyPrice.toNat) * buyPrice.toNat := by
        rw [BitVec.toNat_add]
        exact Nat.mul_le_mul_right _ ((Nat.mod_le _ _).trans (Nat.add_le_add_left rest _))
    _ ≤ (between.sell.toNat + metadataFull.endow.toNat * 2 ^ 24) * sellPrice.toNat := by
        rw [bought_eq, sold_eq]
        exact bought_mul_le _ _ _ _ _ _
    _ = _ := by rw [supply]

end Volumes

/-- What the volumes promise for the offers up to the execution prices. -/
structure BoundedVolumes (offers : List Offer) (sellPrice buyPrice lower upper : Price) (volumes : Volumes) : Prop where
  full_le : sold (upTo lower offers) * 2 ^ 24 ≤ volumes.sell.toNat
  le_part : volumes.sell.toNat ≤ sold (upTo upper offers) * 2 ^ 24
  bought_le : volumes.buy.toNat * buyPrice.toNat ≤ volumes.sell.toNat * sellPrice.toNat

/-- Both computations add the same bounded volumes to the workspaces. -/
def SmoothedVolumes (book : OfferTrie) (category : OfferCategory) (prices : AssetID → Price) (smoothMult : BitVec 8) : Prop :=
  ∃ lower upper volumes,
    getExecutionPrices (prices category.sellAsset) (prices category.buyAsset) smoothMult = .ok (lower, upper) ∧
    BoundedVolumes book.listOffers (prices category.sellAsset) (prices category.buyAsset) lower upper volumes ∧
    ∀ demandsWorkspace suppliesWorkspace : Workspace,
      calculateDemandsAndSupplies (generateMetadataIndex book) category prices demandsWorkspace suppliesWorkspace smoothMult =
        .ok (demandsWorkspace.add category.buyAsset volumes.buy, suppliesWorkspace.add category.sellAsset volumes.sell) ∧
      calculateDemandsAndSuppliesFromMetadata category prices demandsWorkspace suppliesWorkspace smoothMult
        (getMetadata (generateMetadataIndex book) upper) (getMetadata (generateMetadataIndex book) lower) =
        .ok (demandsWorkspace.add category.buyAsset volumes.buy, suppliesWorkspace.add category.sellAsset volumes.sell)

/-- The lower execution price is looked up exactly, and the scaled amount of the offers between the
execution prices fits a `uint64_t` at a rate that fits one too. -/
def Smoothable (offers : List Offer) (sellPrice buyPrice : Price) (smoothMult : BitVec 8) : Prop :=
  let lower := lowerPrice sellPrice buyPrice smoothMult
  let upper := upperPrice sellPrice buyPrice
  ¬ GreatestPrice offers lower ∧ (between offers lower upper = [] ∨
    exactRate sellPrice buyPrice < 2 ^ 64 ∧ sold (between offers lower upper) * 2 ^ smoothMult.toNat < 2 ^ 64)

section Book

variable {book : OfferTrie} {category : OfferCategory} {prices : AssetID → Price} {sellPrice buyPrice : Price}
  {smoothMult : BitVec 8}

/-- With the execution prices looked up, one computation is the other. -/
theorem calculateDemandsAndSupplies_eq {index : List IndexedMetadata}
    (sell : isValidPrice (prices category.sellAsset) = true) (buy : isValidPrice (prices category.buyAsset) = true)
    (within : smoothMult.toNat < 64) (demandsWorkspace suppliesWorkspace : Workspace) :
    calculateDemandsAndSupplies index category prices demandsWorkspace suppliesWorkspace smoothMult =
      calculateDemandsAndSuppliesFromMetadata category prices demandsWorkspace suppliesWorkspace smoothMult
        (getMetadata index (upperPrice (prices category.sellAsset) (prices category.buyAsset)))
        (getMetadata index (lowerPrice (prices category.sellAsset) (prices category.buyAsset) smoothMult)) := by
  have same : (if smoothMult ≠ 0
      then getMetadata index (lowerPrice (prices category.sellAsset) (prices category.buyAsset) smoothMult)
      else getMetadata index (upperPrice (prices category.sellAsset) (prices category.buyAsset))) =
      getMetadata index (lowerPrice (prices category.sellAsset) (prices category.buyAsset) smoothMult) := by
    by_cases zero : smoothMult = 0
    · rw [if_neg (not_not.mpr zero), lowerPrice, if_pos zero, sub_zero]
    · rw [if_pos zero]
  rw [calculateDemandsAndSupplies, getExecutionPrices_eq sell buy within]
  exact congrArg (calculateDemandsAndSuppliesFromMetadata category prices demandsWorkspace suppliesWorkspace smoothMult _) same

theorem fullVolumes_seen (stocked : Stocked book) (fits : sold book.listOffers < 2 ^ 63)
    (sell : isValidPrice sellPrice = true) (buy : isValidPrice buyPrice = true) (within : smoothMult.toNat < 64)
    (smoothable : Smoothable book.listOffers sellPrice buyPrice smoothMult) :
    ∃ volumes, fullVolumes sellPrice buyPrice smoothMult
        (getMetadata (generateMetadataIndex book) (upperPrice sellPrice buyPrice))
        (getMetadata (generateMetadataIndex book) (lowerPrice sellPrice buyPrice smoothMult)) = .ok volumes ∧
      BoundedVolumes book.listOffers sellPrice buyPrice (lowerPrice sellPrice buyPrice smoothMult)
        (upperPrice sellPrice buyPrice) volumes := by
  obtain ⟨other, small⟩ := smoothable
  have sell := isValidPrice_iff.mp sell
  have buy := isValidPrice_iff.mp buy
  have le := @lowerPrice_le sellPrice buyPrice smoothMult
  have inside := @mem_between book.listOffers (lowerPrice sellPrice buyPrice smoothMult) (upperPrice sellPrice buyPrice)
  have partly := getMetadata_seen stocked fits (upperPrice sellPrice buyPrice)
  have fully := getMetadata_seen stocked fits (lowerPrice sellPrice buyPrice smoothMult)
  rw [seen_of_not_greatest other] at fully
  have amounts := sold_seen_eq le other
  have worths := worth_seen_eq le other
  generalize lower_eq : lowerPrice sellPrice buyPrice smoothMult = lower at *
  generalize upper_eq : upperPrice sellPrice buyPrice = upper at *
  have endow : ((getMetadata (generateMetadataIndex book) upper).endow -
      (getMetadata (generateMetadataIndex book) lower).endow).toNat = sold (between book.listOffers lower upper) := by
    have whole := toNat_of_toInt partly.endow
    have part := toNat_of_toInt fully.endow
    rw [BitVec.toNat_sub_of_le (BitVec.le_def.mpr (by omega))]
    omega
  have price : ((getMetadata (generateMetadataIndex book) upper).endowTimesPrice -
      (getMetadata (generateMetadataIndex book) lower).endowTimesPrice).toNat = worth (between book.listOffers lower upper) := by
    have whole := toNat_of_toInt partly.endowTimesPrice
    have part := toNat_of_toInt fully.endowTimesPrice
    rw [BitVec.toNat_sub_of_le (BitVec.le_def.mpr (by omega))]
    omega
  have ordered : ¬ (getMetadata (generateMetadataIndex book) upper).endowTimesPrice.slt
      (getMetadata (generateMetadataIndex book) lower).endowTimesPrice = true := by
    rw [BitVec.slt_iff_toInt_lt, partly.endowTimesPrice, fully.endowTimesPrice]
    omega
  have scaled : PartialFits sellPrice.toNat buyPrice.toNat smoothMult.toNat (sold (between book.listOffers lower upper))
        (worth (between book.listOffers lower upper)) ∧
      partialSold sellPrice.toNat buyPrice.toNat smoothMult.toNat (sold (between book.listOffers lower upper))
        (worth (between book.listOffers lower upper)) ≤ sold (between book.listOffers lower upper) * 2 ^ 24 := by
    rcases small with none | ⟨exact, small⟩
    · rw [none, sold_nil, worth_nil]
      refine ⟨partialFits_none _ _ _, ?_⟩
      rw [partialSold]
      split <;> simp
    · have rate := @toNat_upperPrice sellPrice buyPrice
      have lowered := @toNat_lowerPrice sellPrice buyPrice smoothMult
      rw [upper_eq, Nat.mod_eq_of_lt exact] at rate
      rw [upper_eq, lower_eq, rate] at lowered
      refine ⟨partialFits_of_rate buy.1 exact small (worth_le_of_price (fun offer listed => ?_)), ?_⟩
      · rw [← rate]
        exact BitVec.le_def.mp (inside listed).2
      · rw [partialSold]
        by_cases zero : smoothMult.toNat = 0
        · rw [if_pos zero]
          exact Nat.zero_le _
        · have positive : smoothMult ≠ 0 := fun none => zero (none ▸ rfl)
          rw [if_neg positive] at lowered
          rw [if_neg zero]
          refine partialSold_le sell.1 buy.1 (le_worth_of_price (fun offer listed => ?_))
          rw [← lowered]
          exact BitVec.lt_def.mp (inside listed).1
  obtain ⟨volumes, returned, supply, bought⟩ := fullVolumes_spec sell.1 buy.1 within ordered endow price scaled.1
  have seen_le := sold_le (seen_sublist book.listOffers upper)
  rw [toNat_of_toInt fully.endow] at supply
  refine ⟨volumes, returned, ?_, ?_, bought⟩ <;> omega

theorem Workspace.add_inj {workspace : Workspace} {asset : AssetID} {volume volume' : BitVec 128}
    (same : workspace.add asset volume = workspace.add asset volume') : volume = volume' := by
  have here := congrFun same asset
  rwa [Workspace.add, Workspace.add, if_pos rfl, if_pos rfl, add_right_inj] at here

/-- Without smoothing, the greatest limit price as the rate loses the offers of that price. -/
theorem fullVolumes_greatest (stocked : Stocked book) (fits : sold book.listOffers < 2 ^ 63)
    (sell : isValidPrice sellPrice = true) (buy : isValidPrice buyPrice = true) (price : Price) :
    ∃ volumes, fullVolumes sellPrice buyPrice 0 (getMetadata (generateMetadataIndex book) price)
        (getMetadata (generateMetadataIndex book) price) = .ok volumes ∧
      volumes.sell.toNat = sold (seen book.listOffers price) * 2 ^ 24 := by
  have looked := toNat_of_toInt (getMetadata_seen stocked fits price).endow
  have ordered : ¬ (getMetadata (generateMetadataIndex book) price).endowTimesPrice.slt
      (getMetadata (generateMetadataIndex book) price).endowTimesPrice = true := by
    rw [BitVec.slt_iff_toInt_lt]
    exact lt_irrefl _
  obtain ⟨volumes, returned, supply, -⟩ := fullVolumes_spec (isValidPrice_iff.mp sell).1 (isValidPrice_iff.mp buy).1
    (by decide : (0 : BitVec 8).toNat < 64) ordered (congrArg BitVec.toNat (sub_self _)) (congrArg BitVec.toNat (sub_self _))
    (partialFits_none _ _ _)
  refine ⟨volumes, returned, ?_⟩
  rw [supply, looked, partialSold, if_pos (by decide), Nat.zero_add]

end Book

section Sample

/-- Half of what an `int64_t` holds, just below the price one. -/
def largeOffer : Offer := { soleOffer with amount := 1 <<< 62, minPrice := 2 ^ 24 - 1 }

def samplePrices : AssetID → Price := fun _ => 2 ^ 24

end Sample

end Speedex
