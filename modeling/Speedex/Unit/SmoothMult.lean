import Speedex.Market.ExchangeRate
import Speedex.Unit.SupplyLookup
import Mathlib.Order.Bounds.Basic

set_option autoImplicit false

/- `max_feasible_smooth_mult`: the first limit price that an amount does not cover, and the largest
shift of the rate that keeps the price out. -/
namespace Speedex

open Cumulative Machine PriceUtils

def uint8Max : BitVec 8 := 255

/-- The last loop: `out` grows as long as the shifted rate reaches the difference. -/
def countShifts (rawDifference exactExchangeRate : Price) (out : Nat) : Except Undefined Nat :=
  if out < 64 then
    if rawDifference ≤ exactExchangeRate >>> out then countShifts rawDifference exactExchangeRate (out + 1)
    else .ok out
  else .error .shiftPastWidth
termination_by 64 - out

/-- What follows the search, with the price that it found. -/
def smoothMultBelow (exactExchangeRate maxActivatedPrice : Price) : Except Undefined (BitVec 8) := do
  let rawDifference := exactExchangeRate - maxActivatedPrice
  if exactExchangeRate ≤ maxActivatedPrice then .ok uint8Max
  else
    let out ← countShifts rawDifference exactExchangeRate 0
    if 0 < out then .ok (BitVec.ofNat 8 (out - 1)) else .ok 0

/-- `max_feasible_smooth_mult`. -/
def maxFeasibleSmoothMult (index : List IndexedMetadata) (amount : BitVec 64) (sellPrice buyPrice : Price) :
    Except Undefined (BitVec 8) := do
  let last := index.length - 1
  let exactExchangeRate ← dividePrices sellPrice buyPrice
  if last = 0 then .ok uint8Max
  else if (entryAt index last).2.endow.slt amount then .ok uint8Max
  else
    let place := search (fun i => amount.slt (entryAt index i).2.endow) 1 last
    if amount.slt (entryAt index place).2.endow then smoothMultBelow exactExchangeRate (entryAt index place).1
    else if place + 1 = index.length then .ok uint8Max
    else smoothMultBelow exactExchangeRate (entryAt index (place + 1)).1

section Shifts

variable {rawDifference exactExchangeRate maxActivatedPrice : Price}

/-- The loop stops before the width at the first shift that falls below the difference. -/
theorem countShifts_spec {out : Nat} (within : out < 64) (beyond : exactExchangeRate >>> 63 < rawDifference) :
    ∃ last, countShifts rawDifference exactExchangeRate out = .ok last ∧ last < 64 ∧
      (∀ m, out ≤ m → m < last → rawDifference ≤ exactExchangeRate >>> m) ∧
      exactExchangeRate >>> last < rawDifference := by
  fun_induction countShifts rawDifference exactExchangeRate out with
  | case1 out inside reached ih =>
    have later : out + 1 < 64 := by
      by_contra full
      have here : out = 63 := by omega
      rw [here] at reached
      exact absurd beyond (BitVec.not_lt.mpr reached)
    obtain ⟨last, returned, small, before, stops⟩ := ih later
    refine ⟨last, returned, small, fun m low high => ?_, stops⟩
    rcases low.lt_or_eq with less | rfl
    · exact before m less high
    · exact reached
  | case2 out inside short =>
    exact ⟨out, rfl, inside, fun m low high => absurd high (Nat.not_lt.mpr low), BitVec.not_le.mp short⟩
  | case3 out outside => exact absurd within outside

theorem le_shiftRight_iff (above : maxActivatedPrice < exactExchangeRate) (m : Nat) :
    exactExchangeRate - maxActivatedPrice ≤ exactExchangeRate >>> m ↔
      exactExchangeRate.toNat - exactExchangeRate.toNat / 2 ^ m ≤ maxActivatedPrice.toNat := by
  have shifted := Nat.div_le_self exactExchangeRate.toNat (2 ^ m)
  have above := BitVec.lt_def.mp above
  rw [BitVec.le_def, BitVec.toNat_sub_of_le (BitVec.le_def.mpr above.le), BitVec.toNat_ushiftRight,
    Nat.shiftRight_eq_div_pow]
  omega

theorem smoothMultBelow_spec (small : maxActivatedPrice.toNat < 2 ^ 48) (above : maxActivatedPrice < exactExchangeRate) :
    ∃ out, smoothMultBelow exactExchangeRate maxActivatedPrice = .ok out ∧
      IsGreatest {m | exactExchangeRate.toNat - exactExchangeRate.toNat / 2 ^ m ≤ maxActivatedPrice.toNat} out.toNat := by
  have beyond : exactExchangeRate >>> 63 < exactExchangeRate - maxActivatedPrice := by
    have above := BitVec.lt_def.mp above
    rw [BitVec.lt_def, BitVec.toNat_sub_of_le (BitVec.le_def.mpr above.le), BitVec.toNat_ushiftRight,
      Nat.shiftRight_eq_div_pow]
    omega
  obtain ⟨last, returned, within, before, stops⟩ := countShifts_spec (by decide : 0 < 64) beyond
  have unshifted : exactExchangeRate - maxActivatedPrice ≤ exactExchangeRate >>> 0 :=
    (le_shiftRight_iff above 0).mpr (by simp)
  have positive : 0 < last := by
    rcases Nat.eq_zero_or_pos last with rfl | positive
    · exact absurd stops (BitVec.not_lt.mpr unshifted)
    · exact positive
  refine ⟨BitVec.ofNat 8 (last - 1), ?_, ?_⟩
  · rw [smoothMultBelow, if_neg (BitVec.not_le.mpr above), returned]
    exact if_pos positive
  · rw [BitVec.toNat_ofNat, Nat.mod_eq_of_lt (by omega)]
    constructor
    · exact (le_shiftRight_iff above (last - 1)).mp (before (last - 1) (Nat.zero_le _) (by omega))
    · intro m reached
      by_contra more
      apply absurd ((le_shiftRight_iff above last).mpr ?_) (BitVec.not_le.mpr stops)
      have fewer : exactExchangeRate.toNat / 2 ^ m ≤ exactExchangeRate.toNat / 2 ^ last :=
        Nat.div_le_div_left (Nat.pow_le_pow_right (by decide) (by omega)) (Nat.two_pow_pos last)
      exact (Nat.sub_le_sub_left fewer _).trans reached

end Shifts

/-- What the offers with limit prices below `x` sell. -/
def soldBelow (x : Nat) (offers : List Offer) : Nat := sold (offers.filter (fun offer => offer.minPrice.toNat < x))

/-- The multiplier that `max_feasible_smooth_mult` promises for the rate `r`. -/
def LargestFeasible (offers : List Offer) (amount : BitVec 64) (r : Nat) (out : BitVec 8) : Prop :=
  if soldBelow r offers ≤ amount.toInt then out = uint8Max
  else IsGreatest {m | soldBelow (r - r / 2 ^ m) offers ≤ amount.toInt} out.toNat

def FeasibleSmoothMult (book : OfferTrie) (amount : BitVec 64) (sellPrice buyPrice : Price) : Prop :=
  ∃ out, maxFeasibleSmoothMult (generateMetadataIndex book) amount sellPrice buyPrice = .ok out ∧
    LargestFeasible book.listOffers amount (exactRate sellPrice buyPrice) out

theorem soldBelow_le {x y : Nat} (le : x ≤ y) (offers : List Offer) : soldBelow x offers ≤ soldBelow y offers := by
  refine sold_le (List.monotone_filter_right offers (fun offer below => ?_))
  rw [decide_eq_true_eq] at below ⊢
  omega

theorem soldBelow_le_sold (x : Nat) (offers : List Offer) : soldBelow x offers ≤ sold offers :=
  sold_le List.filter_sublist

theorem half_of_shift (r : Nat) {m : Nat} (shifted : 0 < m) : r / 2 ^ m ≤ r / 2 :=
  Nat.div_le_div_left (Nat.le_pow shifted) (by decide)

/-- Any shift leaves at least half of a rate beyond 64 bits, and so more than every limit price. -/
theorem feasible_of_beyond {r price : Nat} (beyond : 2 ^ 64 ≤ r) (small : price < 2 ^ 48) :
    {m | r - r / 2 ^ m ≤ price} = {0} := by
  ext m
  rw [Set.mem_ofPred_eq, Set.mem_singleton_iff]
  constructor
  · intro reached
    by_contra shifted
    have fewer := half_of_shift r (Nat.pos_of_ne_zero shifted)
    omega
  · rintro rfl
    simp

/-- With the price that the search finds, the multiplier is decided by comparisons of prices. -/
theorem largestFeasible_iff {offers : List Offer} {amount : BitVec 64} {price : Nat}
    (covers : ∀ x, (soldBelow x offers : Int) ≤ amount.toInt ↔ x ≤ price) (r : Nat) (out : BitVec 8) :
    LargestFeasible offers amount r out ↔
      if r ≤ price then out = uint8Max else IsGreatest {m | r - r / 2 ^ m ≤ price} out.toNat := by
  simp only [LargestFeasible, covers]

section Index

variable {book : OfferTrie} {amount : BitVec 64}

theorem entryAt_mem {index : List IndexedMetadata} {i : Nat} (inside : i < index.length) : entryAt index i ∈ index := by
  rw [entryAt_eq inside]
  exact List.get_mem _ _

theorem entryAt_lt (stocked : Stocked book) {i j : Nat} (less : i < j) (inside : j < (generateMetadataIndex book).length) :
    (entryAt (generateMetadataIndex book) i).1 < (entryAt (generateMetadataIndex book) j).1 := by
  rw [entryAt_eq inside, entryAt_eq (less.trans inside)]
  exact List.pairwise_iff_get.mp (List.pairwise_map.mp (index_increasing stocked)) _ _ less

/-- A limit price is a key of the index. -/
theorem exists_entryAt (stocked : Stocked book) {offer : Offer} (listed : offer ∈ book.listOffers) :
    ∃ i, i < (generateMetadataIndex book).length ∧ (entryAt (generateMetadataIndex book) i).1 = offer.minPrice := by
  have key := (index_prices stocked offer.minPrice).mpr (Or.inr ⟨offer, listed, rfl⟩)
  obtain ⟨entry, indexed, same⟩ := List.mem_map.mp key
  obtain ⟨i, rfl⟩ := List.get_of_mem indexed
  refine ⟨i, i.isLt, ?_⟩
  rw [entryAt_eq i.isLt, same]

theorem entryAt_endow (stocked : Stocked book) (fits : sold book.listOffers < 2 ^ 63) {i : Nat}
    (inside : i < (generateMetadataIndex book).length) : (entryAt (generateMetadataIndex book) i).2.endow.toInt =
      sold (upTo (entryAt (generateMetadataIndex book) i).1 book.listOffers) :=
  (index_sums stocked fits _ (entryAt_mem inside)).endow

/-- The last entry has all the offers. -/
theorem entryAt_last (stocked : Stocked book) (fits : sold book.listOffers < 2 ^ 63) :
    (entryAt (generateMetadataIndex book) ((generateMetadataIndex book).length - 1)).2.endow.toInt =
      sold book.listOffers := by
  have filled : 0 < (generateMetadataIndex book).length := by
    rw [generateMetadataIndex_eq, indexOf, List.length_cons]
    exact Nat.succ_pos _
  rw [entryAt_endow stocked fits (by omega)]
  refine congrArg (fun offers => ((sold offers : Nat) : Int)) (List.filter_eq_self.mpr (fun offer listed => ?_))
  obtain ⟨i, inside, price⟩ := exists_entryAt stocked listed
  rw [decide_eq_true_eq, ← price]
  rcases (show i ≤ (generateMetadataIndex book).length - 1 by omega).lt_or_eq with less | rfl
  · exact Std.le_of_lt (entryAt_lt stocked less (by omega))
  · exact BitVec.le_refl _

theorem entryAt_endow_mono (stocked : Stocked book) (fits : sold book.listOffers < 2 ^ 63) {i j : Nat} (le : i ≤ j)
    (inside : j < (generateMetadataIndex book).length) :
    (entryAt (generateMetadataIndex book) i).2.endow.toInt ≤ (entryAt (generateMetadataIndex book) j).2.endow.toInt := by
  rcases le.lt_or_eq with less | rfl
  · rw [entryAt_endow stocked fits (by omega), entryAt_endow stocked fits inside]
    exact Int.ofNat_le.mpr (sold_le (upTo_sublist (Std.le_of_lt (entryAt_lt stocked less inside)) _))
  · exact Int.le_refl _

/-- The price of the first entry beyond the amount decides which offers the amount covers. -/
theorem soldBelow_le_iff (stocked : Stocked book) (fits : sold book.listOffers < 2 ^ 63) {place : Nat}
    (inside : place < (generateMetadataIndex book).length)
    (before : ∀ i, i < place → (entryAt (generateMetadataIndex book) i).2.endow.toInt ≤ amount.toInt)
    (beyond : amount.toInt < (entryAt (generateMetadataIndex book) place).2.endow.toInt) (positive : 0 < place) (x : Nat) :
    (soldBelow x book.listOffers : Int) ≤ amount.toInt ↔ x ≤ (entryAt (generateMetadataIndex book) place).1.toNat := by
  constructor
  · intro covered
    by_contra above
    rw [entryAt_endow stocked fits inside] at beyond
    have fewer : sold (upTo (entryAt (generateMetadataIndex book) place).1 book.listOffers) ≤ soldBelow x book.listOffers := by
      refine sold_le (List.monotone_filter_right _ (fun offer low => ?_))
      rw [decide_eq_true_eq] at low ⊢
      have low := BitVec.le_def.mp low
      omega
    omega
  · intro below
    have covered := before (place - 1) (by omega)
    rw [entryAt_endow stocked fits (by omega)] at covered
    have inside' : ∀ offer ∈ book.listOffers, offer.minPrice.toNat < x →
        offer.minPrice ≤ (entryAt (generateMetadataIndex book) (place - 1)).1 := by
      intro offer listed low
      obtain ⟨i, indexed, price⟩ := exists_entryAt stocked listed
      rw [← price] at low ⊢
      have early : i < place := by
        by_contra late
        rcases (Nat.not_lt.mp late).lt_or_eq with less | rfl
        · have above := BitVec.lt_def.mp (entryAt_lt stocked less indexed)
          omega
        · omega
      rcases (show i ≤ place - 1 by omega).lt_or_eq with less | rfl
      · exact Std.le_of_lt (entryAt_lt stocked less (by omega))
      · exact BitVec.le_refl _
    have same : book.listOffers.filter (fun offer => offer.minPrice.toNat < x) =
        (upTo (entryAt (generateMetadataIndex book) (place - 1)).1 book.listOffers).filter
          (fun offer => offer.minPrice.toNat < x) := by
      rw [upTo, List.filter_filter]
      refine List.filter_congr (fun offer listed => ?_)
      rw [Bool.eq_iff_iff, Bool.and_eq_true, decide_eq_true_eq, decide_eq_true_eq]
      exact ⟨fun low => ⟨low, inside' offer listed low⟩, And.left⟩
    have fewer : soldBelow x book.listOffers ≤
        sold (upTo (entryAt (generateMetadataIndex book) (place - 1)).1 book.listOffers) := by
      rw [soldBelow, same]
      exact sold_le List.filter_sublist
    omega

theorem search_places (stocked : Stocked book) (fits : sold book.listOffers < 2 ^ 63)
    (filled : 0 < (generateMetadataIndex book).length - 1) :
    FirstPlace (fun i => amount.slt (entryAt (generateMetadataIndex book) i).2.endow) 1
      ((generateMetadataIndex book).length - 1)
      (search (fun i => amount.slt (entryAt (generateMetadataIndex book) i).2.endow) 1
        ((generateMetadataIndex book).length - 1)) := by
  refine search_spec filled (fun i j _ le high pass => ?_)
  have grows := entryAt_endow_mono stocked fits le (by omega)
  rw [BitVec.slt_iff_toInt_lt] at pass ⊢
  omega

variable {sellPrice buyPrice : Price}

/-- An amount that covers the whole book is found at the ends of the index. -/
theorem maxFeasibleSmoothMult_covered (stocked : Stocked book) (fits : sold book.listOffers < 2 ^ 63)
    (sell : isValidPrice sellPrice = true) (buy : isValidPrice buyPrice = true)
    (covered : (sold book.listOffers : Int) ≤ amount.toInt) :
    maxFeasibleSmoothMult (generateMetadataIndex book) amount sellPrice buyPrice = .ok uint8Max := by
  have whole := entryAt_last stocked fits
  rw [maxFeasibleSmoothMult, dividePrices_eq sell buy]
  by_cases bare : (generateMetadataIndex book).length - 1 = 0
  · exact if_pos bare
  refine (if_neg bare).trans ?_
  by_cases more : (entryAt (generateMetadataIndex book) ((generateMetadataIndex book).length - 1)).2.endow.slt amount = true
  · exact if_pos more
  have found := @search_places book amount stocked fits (by omega)
  have small : ∀ i, i < (generateMetadataIndex book).length →
      ¬ amount.slt (entryAt (generateMetadataIndex book) i).2.endow = true := by
    intro i inside
    have grows := entryAt_endow_mono stocked fits (show i ≤ (generateMetadataIndex book).length - 1 by omega) (by omega)
    rw [BitVec.slt_iff_toInt_lt]
    omega
  refine (if_neg more).trans ?_
  generalize search _ 1 ((generateMetadataIndex book).length - 1) = place at found
  have high := found.le_stop
  have ended : place + 1 = (generateMetadataIndex book).length := by
    by_contra early
    exact small place (by omega) (found.passes (by omega))
  exact (if_neg (small place (by omega))).trans (if_pos ended)

/-- Otherwise the search finds the price from which on the amount is too small. -/
theorem maxFeasibleSmoothMult_short (stocked : Stocked book) (fits : sold book.listOffers < 2 ^ 63)
    (sell : isValidPrice sellPrice = true) (buy : isValidPrice buyPrice = true)
    (start : 0 ≤ amount.toInt) (short : amount.toInt < sold book.listOffers) : ∃ price : Price, price.toNat < 2 ^ 48 ∧
      maxFeasibleSmoothMult (generateMetadataIndex book) amount sellPrice buyPrice =
        smoothMultBelow (BitVec.ofNat 64 (exactRate sellPrice buyPrice)) price ∧
      ∀ x, (soldBelow x book.listOffers : Int) ≤ amount.toInt ↔ x ≤ price.toNat := by
  have whole := entryAt_last stocked fits
  have first : (entryAt (generateMetadataIndex book) 0).2.endow.toInt = 0 := by
    rw [generateMetadataIndex_eq]
    rfl
  have filled : 0 < (generateMetadataIndex book).length - 1 := by
    by_contra bare
    rw [Nat.eq_zero_of_not_pos bare, first] at whole
    omega
  have found := @search_places book amount stocked fits filled
  rw [maxFeasibleSmoothMult, dividePrices_eq sell buy]
  have less : ¬ (entryAt (generateMetadataIndex book) ((generateMetadataIndex book).length - 1)).2.endow.slt amount = true := by
    rw [BitVec.slt_iff_toInt_lt]
    omega
  generalize search _ 1 ((generateMetadataIndex book).length - 1) = place at found
  have high := found.le_stop
  have passes : amount.slt (entryAt (generateMetadataIndex book) place).2.endow = true := by
    rcases high.lt_or_eq with early | rfl
    · exact found.passes early
    · rw [BitVec.slt_iff_toInt_lt]
      omega
  refine ⟨(entryAt (generateMetadataIndex book) place).1, ?_, ?_, soldBelow_le_iff stocked fits (by omega) ?_
    (BitVec.slt_iff_toInt_lt.mp passes) found.start_le⟩
  · have key := List.mem_map_of_mem (f := Prod.fst) (entryAt_mem (show place < (generateMetadataIndex book).length by omega))
    rcases (index_prices stocked _).mp key with zero | ⟨offer, listed, price⟩
    · rw [zero]
      decide
    · rw [← price]
      exact (isValidPrice_iff.mp (stocked.offer listed).1).2
  · exact (if_neg filled.ne').trans ((if_neg less).trans (if_pos passes))
  · intro i early
    rcases Nat.eq_zero_or_pos i with rfl | positive
    · omega
    · have fails := found.before i positive early
      rw [Bool.eq_false_iff, ne_eq, BitVec.slt_iff_toInt_lt] at fails
      omega

/-- If the amounts of the book fit an `int64_t`, the multiplier is exact unless the rate is truncated
to 64 bits and the truncated rate counts. -/
theorem feasibleSmoothMult_iff (stocked : Stocked book) (sell : isValidPrice sellPrice = true)
    (buy : isValidPrice buyPrice = true) (start : 0 ≤ amount.toInt) (fits : sold book.listOffers ≤ 2 ^ 63 - 1) :
    FeasibleSmoothMult book amount sellPrice buyPrice ↔ exactRate sellPrice buyPrice < 2 ^ 64 ∨
      (sold book.listOffers : Int) ≤ amount.toInt ∨
      amount.toInt < soldBelow (exactRate sellPrice buyPrice % 2 ^ 64 - exactRate sellPrice buyPrice % 2 ^ 64 / 2)
        book.listOffers := by
  have fits : sold book.listOffers < 2 ^ 63 := by omega
  rcases le_or_gt (sold book.listOffers : Int) amount.toInt with covered | short
  · have below := soldBelow_le_sold (exactRate sellPrice buyPrice) book.listOffers
    refine iff_of_true ⟨uint8Max, maxFeasibleSmoothMult_covered stocked fits sell buy covered, ?_⟩ (Or.inr (Or.inl covered))
    exact (if_pos (by omega)).mpr rfl
  · obtain ⟨price, small, returned, covers⟩ := @maxFeasibleSmoothMult_short book amount sellPrice buyPrice
      stocked fits sell buy start short
    have threshold : ∀ x, amount.toInt < soldBelow x book.listOffers ↔ price.toNat < x := by
      intro x
      rw [← Int.not_le, covers, Nat.not_le]
    rw [threshold, or_iff_right (Int.not_le.mpr short), FeasibleSmoothMult, returned]
    have rate : (BitVec.ofNat 64 (exactRate sellPrice buyPrice)).toNat = exactRate sellPrice buyPrice % 2 ^ 64 :=
      BitVec.toNat_ofNat _ _
    by_cases low : BitVec.ofNat 64 (exactRate sellPrice buyPrice) ≤ price
    · have returns : ∀ out, smoothMultBelow (BitVec.ofNat 64 (exactRate sellPrice buyPrice)) price = .ok out ↔ uint8Max = out := by
        intro out
        rw [smoothMultBelow, if_pos low, Except.ok.injEq]
      rw [BitVec.le_def, rate] at low
      simp only [returns, exists_eq_left', largestFeasible_iff covers]
      rcases lt_or_ge (exactRate sellPrice buyPrice) (2 ^ 64) with exact | beyond
      · rw [Nat.mod_eq_of_lt exact] at low
        exact iff_of_true ((if_pos low).mpr trivial) (Or.inl exact)
      · refine iff_of_false ?_ (by omega)
        rw [if_neg (by omega), feasible_of_beyond beyond small]
        rintro ⟨zero, -⟩
        revert zero
        decide
    · obtain ⟨out, same, greatest⟩ := smoothMultBelow_spec small (BitVec.not_le.mp low)
      rw [BitVec.le_def, rate] at low
      rw [rate] at greatest
      simp only [same, Except.ok.injEq, exists_eq_left', largestFeasible_iff covers]
      rcases lt_or_ge (exactRate sellPrice buyPrice) (2 ^ 64) with exact | beyond
      · rw [Nat.mod_eq_of_lt exact] at low greatest
        exact iff_of_true ((if_neg low).mpr greatest) (Or.inl exact)
      · rw [if_neg (by omega), feasible_of_beyond beyond small, or_iff_right (Nat.not_lt.mpr beyond)]
        constructor
        · rintro ⟨zero, -⟩
          by_contra reached
          have one := greatest.2 (show (1 : Nat) ∈ _ from Nat.not_lt.mp reached)
          rw [Set.mem_singleton_iff.mp zero] at one
          omega
        · intro above
          have zero : out.toNat = 0 := by
            by_contra shifted
            have reached : exactRate sellPrice buyPrice % 2 ^ 64 - exactRate sellPrice buyPrice % 2 ^ 64 / 2 ^ out.toNat ≤
                price.toNat := greatest.1
            have fewer := half_of_shift (exactRate sellPrice buyPrice % 2 ^ 64) (Nat.pos_of_ne_zero shifted)
            omega
          rw [zero]
          exact isGreatest_singleton

end Index

theorem feasibleSmoothMult_sample : sold (soleBook soleOffer).listOffers ≤ 2 ^ 63 - 1 ∧
    (FeasibleSmoothMult (soleBook soleOffer) 5 (2 ^ 24) (2 ^ 24) ↔ exactRate (2 ^ 24) (2 ^ 24) < 2 ^ 64 ∨
      (sold (soleBook soleOffer).listOffers : Int) ≤ (5 : BitVec 64).toInt ∨ (5 : BitVec 64).toInt <
        soldBelow (exactRate (2 ^ 24) (2 ^ 24) % 2 ^ 64 - exactRate (2 ^ 24) (2 ^ 24) % 2 ^ 64 / 2)
          (soleBook soleOffer).listOffers) :=
  ⟨by decide, feasibleSmoothMult_iff (soleBook_stocked (by decide) (by decide)) (by decide) (by decide) (by decide)
    (by decide)⟩

/-- The rate `2 ^ 71` is truncated to zero, and the amount zero seems to cover the offer below it. -/
theorem maxFeasibleSmoothMult_truncated : isValidPrice (2 ^ 47) = true ∧ isValidPrice 1 = true ∧
    sold (soleBook soleOffer).listOffers = 5 ∧ exactRate (2 ^ 47) 1 = 2 ^ 71 ∧
    maxFeasibleSmoothMult (generateMetadataIndex (soleBook soleOffer)) 0 (2 ^ 47) 1 = .ok uint8Max ∧
    ¬ FeasibleSmoothMult (soleBook soleOffer) 0 (2 ^ 47) 1 := by
  have returned : maxFeasibleSmoothMult (generateMetadataIndex (soleBook soleOffer)) 0 (2 ^ 47) 1 = .ok uint8Max := by
    rw [index_soleBook, maxFeasibleSmoothMult, search]
    decide
  refine ⟨by decide, by decide, by decide, by decide, returned, ?_⟩
  rintro ⟨out, same, largest⟩
  rw [returned] at same
  cases same
  rw [LargestFeasible, if_neg (by decide)] at largest
  have one := largest.1
  revert one
  decide

end Speedex
