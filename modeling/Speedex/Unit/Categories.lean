import Speedex.Library.OffDiagonal
import Speedex.Market.Offer
import Mathlib.Data.Finset.Prod
import Mathlib.Data.Finset.Card
import Mathlib.Tactic.NormNum
import Mathlib.Tactic.SplitIfs

set_option autoImplicit false

/- `work_unit_manager_utils.h`: the work units of all ordered pairs of distinct assets in one vector. Asset
counts and indices are 32 bit words; `int` is such a word read as a signed number. -/
namespace Speedex

inductive CategoryFault where
  /-- `invalid asset number`. -/
  | invalidAssetNumber
  /-- `invalid offer type`. -/
  | invalidOfferType
  /-- A signed product that does not fit, which C++ leaves undefined. -/
  | overflow
  | divisionByZero
  /-- `std::vector::reserve` of a negative count. -/
  | lengthError
  /-- An index outside a vector. -/
  | outOfRange
  /-- `Cannot decrease number of assets`. -/
  | fewerAssets
deriving DecidableEq, Repr

def mapTypeToInt : OfferType → Except CategoryFault (BitVec 32)
  | .sell => .ok 0
  | .other _ => .error .invalidOfferType

def mapIntToType (type : Int) : OfferType := if type = 0 then .sell else .other (-1)

def categoryToIdx (id : OfferCategory) (assetCount : BitVec 32) : Except CategoryFault (BitVec 32) :=
  if assetCount ≤ id.sellAsset ∨ assetCount ≤ id.buyAsset then .error .invalidAssetNumber
  else do
    let unitsPerOrderType := assetCount * (assetCount - 1)
    let idxInOrderType := id.sellAsset * (assetCount - 1) + (id.buyAsset - if id.buyAsset > id.sellAsset then 1 else 0)
    let type ← mapTypeToInt id.type
    return unitsPerOrderType * type + idxInOrderType

/-- `int` arithmetic throughout; `/` and `%` round towards zero. -/
def categoryFromIdx (idx assetCount : BitVec 32) : Except CategoryFault OfferCategory :=
  let unitsPerOrderType := assetCount.toInt * (assetCount.toInt - 1)
  if unitsPerOrderType ≥ 2 ^ 31 then .error .overflow
  else if unitsPerOrderType = 0 then .error .divisionByZero
  else
    let remainder := idx.toInt.tmod unitsPerOrderType
    let sellAsset := BitVec.ofInt 32 (remainder.tdiv (assetCount.toInt - 1))
    let buyAsset := BitVec.ofInt 32 (remainder.tmod (assetCount.toInt - 1))
    .ok {
      type := mapIntToType (idx.toInt.tdiv unitsPerOrderType)
      sellAsset := sellAsset
      buyAsset := if buyAsset ≥ sellAsset then buyAsset + 1 else buyAsset }

def getNumWorkUnitsByAssetCount (assetCount : BitVec 32) : BitVec 32 := assetCount * (assetCount - 1)

/-- The category of the offers that sell one asset for another. -/
def pairCategory (sellAsset buyAsset : AssetID) : OfferCategory where
  sellAsset := sellAsset
  buyAsset := buyAsset
  type := .sell

/-- The most assets for which every index is an `int`. -/
def maxAssetCount : Nat := 46341

variable {assetCount idx : BitVec 32} {sellAsset buyAsset : AssetID}

theorem units_lt {n : Nat} (few : n ≤ maxAssetCount) : n * (n - 1) < 2 ^ 31 := by
  calc n * (n - 1) ≤ 46341 * 46340 := Nat.mul_le_mul few (Nat.sub_le_sub_right few 1)
    _ < 2 ^ 31 := by decide

theorem toNat_pred (positive : 0 < assetCount.toNat) : (assetCount - 1).toNat = assetCount.toNat - 1 := by
  bv_omega

theorem toNat_skip (sellAsset buyAsset : AssetID) :
    (buyAsset - if buyAsset > sellAsset then 1 else 0).toNat = OffDiagonal.skip sellAsset.toNat buyAsset.toNat := by
  unfold OffDiagonal.skip
  have compare : buyAsset > sellAsset ↔ buyAsset.toNat > sellAsset.toNat := BitVec.lt_def
  by_cases above : buyAsset > sellAsset
  · rw [if_pos above, if_pos (compare.mp above)]
    bv_omega
  · rw [if_neg above, if_neg (fun above' => above (compare.mpr above'))]
    bv_omega

/-- With few assets the unsigned arithmetic is exact. -/
theorem categoryToIdx_eq (few : assetCount.toNat ≤ maxAssetCount) (other : sellAsset ≠ buyAsset)
    (sell : sellAsset.toNat < assetCount.toNat) (buy : buyAsset.toNat < assetCount.toNat) :
    ∃ idx, categoryToIdx (pairCategory sellAsset buyAsset) assetCount = .ok idx ∧
      idx.toNat = OffDiagonal.index (assetCount.toNat - 1) sellAsset.toNat buyAsset.toNat := by
  have other' : sellAsset.toNat ≠ buyAsset.toNat := fun same => other (BitVec.eq_of_toNat_eq same)
  have small := OffDiagonal.index_lt other' (Nat.le_sub_one_of_lt sell) (Nat.le_sub_one_of_lt buy)
  rw [Nat.sub_add_cancel (Nat.zero_lt_of_lt sell)] at small
  have fits := small.trans (units_lt few)
  refine ⟨sellAsset * (assetCount - 1) + (buyAsset - if buyAsset > sellAsset then 1 else 0), ?_, ?_⟩
  · have valid : ¬ (assetCount ≤ sellAsset ∨ assetCount ≤ buyAsset) := by
      rw [BitVec.le_def, BitVec.le_def]
      omega
    unfold categoryToIdx pairCategory
    dsimp only
    rw [if_neg valid]
    show Except.ok (_ * 0 + _) = _
    rw [mul_zero, zero_add]
  · unfold OffDiagonal.index at fits ⊢
    rw [BitVec.toNat_add, BitVec.toNat_mul, toNat_pred (Nat.zero_lt_of_lt sell), toNat_skip, Nat.mod_add_mod]
    exact Nat.mod_eq_of_lt (fits.trans (by decide))

theorem toInt_eq_toNat {x : BitVec 32} (small : x.toNat < 2 ^ 31) : x.toInt = x.toNat :=
  BitVec.toInt_eq_toNat_of_lt (by omega)

theorem toNat_of_nonneg {x : BitVec 32} (nonneg : 0 ≤ x.toInt) : (x.toNat : Int) = x.toInt := by
  rw [BitVec.toInt_eq_toNat_cond] at nonneg ⊢
  split at nonneg <;> split <;> omega

/-- An index below the number of work units names a pair. -/
theorem categoryFromIdx_eq (few : assetCount.toNat ≤ maxAssetCount)
    (inside : idx.toNat < assetCount.toNat * (assetCount.toNat - 1)) :
    ∃ sellAsset buyAsset, categoryFromIdx idx assetCount = .ok (pairCategory sellAsset buyAsset) ∧
      sellAsset.toNat = idx.toNat / (assetCount.toNat - 1) ∧
      buyAsset.toNat = OffDiagonal.unskip (idx.toNat / (assetCount.toNat - 1)) (idx.toNat % (assetCount.toNat - 1)) := by
  have fits := units_lt few
  have positive : 0 < assetCount.toNat := Nat.pos_of_mul_pos_right (Nat.zero_lt_of_lt inside)
  have count : assetCount.toInt = assetCount.toNat := toInt_eq_toNat (few.trans_lt (by decide))
  have index : idx.toInt = idx.toNat := toInt_eq_toNat (inside.trans fits)
  have width : (assetCount.toNat : Int) - 1 = (assetCount.toNat - 1 : Nat) := by omega
  have units : (assetCount.toNat : Int) * (assetCount.toNat - 1 : Nat) =
      (assetCount.toNat * (assetCount.toNat - 1) : Nat) := (Int.natCast_mul _ _).symm
  have row : idx.toNat / (assetCount.toNat - 1) < 2 ^ 32 :=
    (Nat.div_le_self _ _).trans_lt ((inside.trans fits).trans (by decide))
  have place : idx.toNat % (assetCount.toNat - 1) < 2 ^ 32 :=
    (Nat.mod_le _ _).trans_lt ((inside.trans fits).trans (by decide))
  refine ⟨BitVec.ofNat 32 (idx.toNat / (assetCount.toNat - 1)),
    BitVec.ofNat 32 (OffDiagonal.unskip (idx.toNat / (assetCount.toNat - 1)) (idx.toNat % (assetCount.toNat - 1))),
    ?_, ?_, ?_⟩
  · unfold categoryFromIdx
    dsimp only
    rw [count, index, width, units, if_neg (by omega), if_neg (by omega), ← Int.ofNat_tmod, Nat.mod_eq_of_lt inside,
      ← Int.ofNat_tdiv, ← Int.ofNat_tdiv, ← Int.ofNat_tmod, Nat.div_eq_of_lt inside, BitVec.ofInt_natCast,
      BitVec.ofInt_natCast]
    have compare : BitVec.ofNat 32 (idx.toNat % (assetCount.toNat - 1)) ≥
        BitVec.ofNat 32 (idx.toNat / (assetCount.toNat - 1)) ↔
        idx.toNat / (assetCount.toNat - 1) ≤ idx.toNat % (assetCount.toNat - 1) := by
      rw [ge_iff_le, BitVec.le_def, BitVec.toNat_ofNat, BitVec.toNat_ofNat, Nat.mod_eq_of_lt row, Nat.mod_eq_of_lt place]
    unfold OffDiagonal.unskip pairCategory
    by_cases past : idx.toNat / (assetCount.toNat - 1) ≤ idx.toNat % (assetCount.toNat - 1)
    · rw [if_pos (compare.mpr past), if_pos past, BitVec.ofNat_add]
      rfl
    · rw [if_neg (fun past' => past (compare.mp past')), if_neg past]
      rfl
  · rw [BitVec.toNat_ofNat, Nat.mod_eq_of_lt row]
  · rw [BitVec.toNat_ofNat, Nat.mod_eq_of_lt]
    unfold OffDiagonal.unskip
    split
    · have below : idx.toNat % (assetCount.toNat - 1) ≤ idx.toNat := Nat.mod_le _ _
      omega
    · exact place

/-- The two functions are inverse to each other between the ordered pairs of distinct assets and the indices
below the number of pairs. -/
structure IndexBijection (assetCount : BitVec 32) : Prop where
  ofPair : ∀ sellAsset buyAsset : AssetID, sellAsset ≠ buyAsset → sellAsset.toNat < assetCount.toNat →
    buyAsset.toNat < assetCount.toNat →
    ∃ idx, categoryToIdx (pairCategory sellAsset buyAsset) assetCount = .ok idx ∧ 0 ≤ idx.toInt ∧
      idx.toInt < assetCount.toNat * (assetCount.toNat - 1 : Nat) ∧
      categoryFromIdx idx assetCount = .ok (pairCategory sellAsset buyAsset)
  ofIdx : ∀ idx : BitVec 32, 0 ≤ idx.toInt → idx.toInt < assetCount.toNat * (assetCount.toNat - 1 : Nat) →
    ∃ sellAsset buyAsset, categoryFromIdx idx assetCount = .ok (pairCategory sellAsset buyAsset) ∧
      sellAsset ≠ buyAsset ∧ sellAsset.toNat < assetCount.toNat ∧ buyAsset.toNat < assetCount.toNat ∧
      categoryToIdx (pairCategory sellAsset buyAsset) assetCount = .ok idx

theorem indexBijection_of_few (few : assetCount.toNat ≤ maxAssetCount) : IndexBijection assetCount where
  ofPair := by
    intro sellAsset buyAsset other sell buy
    have other' : sellAsset.toNat ≠ buyAsset.toNat := fun same => other (BitVec.eq_of_toNat_eq same)
    have row := Nat.le_sub_one_of_lt sell
    have column := Nat.le_sub_one_of_lt buy
    obtain ⟨idx, toIdx, value⟩ := categoryToIdx_eq few other sell buy
    have inside := OffDiagonal.index_lt other' row column
    rw [Nat.sub_add_cancel (Nat.zero_lt_of_lt sell), ← value] at inside
    have signed : idx.toInt = idx.toNat := toInt_eq_toNat (inside.trans (units_lt few))
    obtain ⟨sellAsset', buyAsset', fromIdx, sold, bought⟩ := categoryFromIdx_eq few inside
    rw [value, OffDiagonal.index_div other' row column] at sold
    rw [value, OffDiagonal.index_div other' row column, OffDiagonal.index_mod other' row column,
      OffDiagonal.unskip_skip other'] at bought
    rw [BitVec.eq_of_toNat_eq sold, BitVec.eq_of_toNat_eq bought] at fromIdx
    refine ⟨idx, toIdx, ?_, ?_, fromIdx⟩
    · omega
    · rw [signed]
      exact_mod_cast inside
  ofIdx := by
    intro idx nonneg below
    have unsigned : (idx.toNat : Int) = idx.toInt := toNat_of_nonneg nonneg
    have inside : idx.toNat < assetCount.toNat * (assetCount.toNat - 1) := by
      rw [← unsigned] at below
      exact_mod_cast below
    have positive : 0 < assetCount.toNat := Nat.pos_of_mul_pos_right (Nat.zero_lt_of_lt inside)
    obtain ⟨sellAsset, buyAsset, fromIdx, sold, bought⟩ := categoryFromIdx_eq few inside
    have cell : idx.toNat < (assetCount.toNat - 1 + 1) * (assetCount.toNat - 1) := by
      rwa [Nat.sub_add_cancel positive]
    have sell : sellAsset.toNat < assetCount.toNat := by
      have row := OffDiagonal.div_le cell
      omega
    have buy : buyAsset.toNat < assetCount.toNat := by
      have column := OffDiagonal.unskip_le cell
      omega
    have other : sellAsset ≠ buyAsset := by
      intro same
      apply OffDiagonal.unskip_ne (idx.toNat / (assetCount.toNat - 1)) (idx.toNat % (assetCount.toNat - 1))
      rw [← bought, ← sold, same]
    obtain ⟨idx', toIdx, value⟩ := categoryToIdx_eq few other sell buy
    rw [sold, bought, OffDiagonal.index_unskip] at value
    rw [BitVec.eq_of_toNat_eq value] at toIdx
    exact ⟨sellAsset, buyAsset, fromIdx, other, sell, buy, toIdx⟩

/-- With more assets there are more pairs than nonnegative `int` values. -/
theorem few_of_indexBijection (bijection : IndexBijection assetCount) : assetCount.toNat ≤ maxAssetCount := by
  by_contra many
  rw [maxAssetCount, not_le] at many
  let place (pair : Nat × Nat) : Nat :=
    match categoryToIdx (pairCategory (BitVec.ofNat 32 pair.1) (BitVec.ofNat 32 pair.2)) assetCount with
    | .ok idx => idx.toNat
    | .error _ => 0
  have spec : ∀ pair ∈ (Finset.range 46342).offDiag, ∃ idx,
      categoryToIdx (pairCategory (BitVec.ofNat 32 pair.1) (BitVec.ofNat 32 pair.2)) assetCount = .ok idx ∧
      place pair = idx.toNat ∧ idx.toNat < 2 ^ 31 ∧
      categoryFromIdx idx assetCount = .ok (pairCategory (BitVec.ofNat 32 pair.1) (BitVec.ofNat 32 pair.2)) := by
    intro pair member
    obtain ⟨row, column, other⟩ := Finset.mem_offDiag.mp member
    rw [Finset.mem_range] at row column
    have value : (BitVec.ofNat 32 pair.1).toNat = pair.1 := Nat.mod_eq_of_lt (row.trans (by decide))
    have value' : (BitVec.ofNat 32 pair.2).toNat = pair.2 := Nat.mod_eq_of_lt (column.trans (by decide))
    have other' : BitVec.ofNat 32 pair.1 ≠ BitVec.ofNat 32 pair.2 := by
      intro same
      rw [← value, ← value', same] at other
      exact other rfl
    obtain ⟨idx, toIdx, nonneg, _, fromIdx⟩ :=
      bijection.ofPair (BitVec.ofNat 32 pair.1) (BitVec.ofNat 32 pair.2) other' (by omega) (by omega)
    refine ⟨idx, toIdx, ?_, ?_, fromIdx⟩
    · show (match categoryToIdx _ assetCount with | .ok idx => idx.toNat | .error _ => 0) = _
      rw [toIdx]
    · rw [BitVec.toInt_eq_toNat_cond] at nonneg
      split at nonneg <;> omega
  have within : ∀ pair ∈ (Finset.range 46342).offDiag, place pair ∈ Finset.range (2 ^ 31) := by
    intro pair member
    obtain ⟨idx, _, same, small, _⟩ := spec pair member
    rwa [Finset.mem_range, same]
  have injective : Set.InjOn place (Finset.range 46342).offDiag := by
    intro pair member pair' member' same
    obtain ⟨idx, _, value, _, fromIdx⟩ := spec pair member
    obtain ⟨idx', _, value', _, fromIdx'⟩ := spec pair' member'
    have same' : idx = idx' := BitVec.eq_of_toNat_eq (by rw [← value, ← value', same])
    rw [same', fromIdx'] at fromIdx
    have category := Except.ok.inj fromIdx
    obtain ⟨row, column, _⟩ := Finset.mem_offDiag.mp member
    obtain ⟨row', column', _⟩ := Finset.mem_offDiag.mp member'
    rw [Finset.mem_range] at row column row' column'
    have sell : BitVec.ofNat 32 pair'.1 = BitVec.ofNat 32 pair.1 := congrArg OfferCategory.sellAsset category
    have buy : BitVec.ofNat 32 pair'.2 = BitVec.ofNat 32 pair.2 := congrArg OfferCategory.buyAsset category
    apply Prod.ext
    · bv_omega
    · bv_omega
  have crowded := Finset.card_le_card_of_injOn place within injective
  rw [Finset.offDiag_card, Finset.card_range, Finset.card_range] at crowded
  exact absurd crowded (by decide)

end Speedex
