import Speedex.Unit.Categories
import Speedex.Unit.WorkUnit

set_option autoImplicit false

/- `MerkleWorkUnitManager`: one work unit for each ordered pair of distinct assets, in one vector. -/
namespace Speedex

/-- The constructor of a work unit. -/
def MerkleWorkUnit.new (category : OfferCategory) : MerkleWorkUnit where
  category := category
  committedOffers := OfferTrie.empty
  uncommittedOffers := OfferTrie.empty
  lmdbInstance := { thunks := [], persistedRoundNumber := 0 }

/-- `std::move` of a work unit: the new tries do not take over the flag that says their hashes are valid. -/
def MerkleWorkUnit.moved (unit : MerkleWorkUnit) : MerkleWorkUnit :=
  { unit with
    committedOffers := { unit.committedOffers with hash := none }
    uncommittedOffers := { unit.uncommittedOffers with hash := none } }

structure MerkleWorkUnitManager where
  workUnits : List MerkleWorkUnit
  numAssets : BitVec 16

namespace MerkleWorkUnitManager

/-- `work_units[idx]`, where the `int` becomes a `size_t`. -/
def workUnitAt (manager : MerkleWorkUnitManager) (idx : BitVec 32) : Option MerkleWorkUnit :=
  if idx.toInt < 0 then none else manager.workUnits[idx.toNat]?

/-- `look_up_idx` and the work unit there. -/
def lookUp (manager : MerkleWorkUnitManager) (id : OfferCategory) : Except CategoryFault MerkleWorkUnit := do
  let idx ← categoryToIdx id (manager.numAssets.setWidth 32)
  match manager.workUnitAt idx with
  | none => throw .outOfRange
  | some unit => return unit

/-- The loop of `increase_num_traded_assets`. An old work unit is moved when its category comes up. -/
def newWorkUnit (manager : MerkleWorkUnitManager) (newAssetCount : BitVec 16) (i : Nat) :
    Except CategoryFault MerkleWorkUnit := do
  let category ← categoryFromIdx (BitVec.ofNat 32 i) (newAssetCount.setWidth 32)
  if category.buyAsset < manager.numAssets.setWidth 32 ∧ category.sellAsset < manager.numAssets.setWidth 32 then
    let unit ← manager.lookUp category
    return unit.moved
  else return MerkleWorkUnit.new category

def increaseNumTradedAssets (manager : MerkleWorkUnitManager) (newAssetCount : BitVec 16) :
    Except CategoryFault MerkleWorkUnitManager :=
  if newAssetCount < manager.numAssets then .error .fewerAssets
  else
    let newWorkUnitCount := getNumWorkUnitsByAssetCount (newAssetCount.setWidth 32)
    if newWorkUnitCount.toInt < 0 then .error .lengthError
    else do
      let newWorkUnits ← (List.range newWorkUnitCount.toNat).mapM (manager.newWorkUnit newAssetCount)
      return { workUnits := newWorkUnits, numAssets := newAssetCount }

/-- The constructor. -/
def new (numNewAssets : BitVec 16) : Except CategoryFault MerkleWorkUnitManager :=
  increaseNumTradedAssets { workUnits := [], numAssets := 0 } numNewAssets

/-- There is a work unit for every pair, each at the index of its category. -/
structure Indexed (manager : MerkleWorkUnitManager) : Prop where
  few : manager.numAssets.toNat ≤ maxAssetCount
  length : manager.workUnits.length = manager.numAssets.toNat * (manager.numAssets.toNat - 1)
  category : ∀ (i : Nat) (unit : MerkleWorkUnit), manager.workUnits[i]? = some unit →
    categoryFromIdx (BitVec.ofNat 32 i) (manager.numAssets.setWidth 32) = .ok unit.category

variable {manager manager' : MerkleWorkUnitManager} {newAssetCount : BitVec 16} {sellAsset buyAsset : AssetID}

theorem toNat_count (count : BitVec 16) : (count.setWidth 32).toNat = count.toNat := by
  rw [BitVec.toNat_setWidth]
  exact Nat.mod_eq_of_lt (count.isLt.trans (by decide))

/-- Every pair has its work unit. -/
theorem Indexed.lookUp (indexed : manager.Indexed) (other : sellAsset ≠ buyAsset)
    (sell : sellAsset.toNat < manager.numAssets.toNat) (buy : buyAsset.toNat < manager.numAssets.toNat) :
    ∃ unit, manager.lookUp (pairCategory sellAsset buyAsset) = .ok unit ∧ unit.category = pairCategory sellAsset buyAsset := by
  have bijection : IndexBijection (manager.numAssets.setWidth 32) :=
    indexBijection_of_few (by rw [toNat_count]; exact indexed.few)
  obtain ⟨idx, toIdx, nonneg, below, fromIdx⟩ := bijection.ofPair sellAsset buyAsset other
    (by rwa [toNat_count]) (by rwa [toNat_count])
  rw [toNat_count] at below
  have unsigned : (idx.toNat : Int) = idx.toInt := toNat_of_nonneg nonneg
  have inside : idx.toNat < manager.workUnits.length := by
    rw [indexed.length]
    rw [← unsigned] at below
    exact_mod_cast below
  have found : manager.workUnits[idx.toNat]? = some manager.workUnits[idx.toNat] := List.getElem?_eq_getElem inside
  have category := indexed.category _ _ found
  rw [BitVec.ofNat_toNat, BitVec.setWidth_eq, fromIdx] at category
  refine ⟨manager.workUnits[idx.toNat], ?_, (Except.ok.inj category).symm⟩
  unfold MerkleWorkUnitManager.lookUp
  rw [toIdx]
  show (match manager.workUnitAt idx with | none => _ | some unit => _) = _
  unfold workUnitAt
  rw [if_neg (by omega), found]
  rfl

/-- A work unit that is where its category says is the one that is looked up. -/
theorem Indexed.lookUp_eq (indexed : manager.Indexed) {i : Nat} {unit : MerkleWorkUnit}
    (found : manager.workUnits[i]? = some unit) : manager.lookUp unit.category = .ok unit := by
  have inside := (List.getElem?_eq_some_iff.mp found).1
  rw [indexed.length] at inside
  have fits := inside.trans (units_lt indexed.few)
  have value : (BitVec.ofNat 32 i).toNat = i := by
    rw [BitVec.toNat_ofNat]
    exact Nat.mod_eq_of_lt (fits.trans (by decide))
  have signed : (BitVec.ofNat 32 i).toInt = i := by
    rw [toInt_eq_toNat (by omega), value]
  have bijection : IndexBijection (manager.numAssets.setWidth 32) :=
    indexBijection_of_few (by rw [toNat_count]; exact indexed.few)
  obtain ⟨sellAsset, buyAsset, fromIdx, _, _, _, toIdx⟩ := bijection.ofIdx (BitVec.ofNat 32 i) (by omega)
    (by rw [signed, toNat_count]; exact_mod_cast inside)
  rw [indexed.category i unit found] at fromIdx
  rw [← Except.ok.inj fromIdx] at toIdx
  unfold MerkleWorkUnitManager.lookUp
  rw [toIdx]
  show (match manager.workUnitAt (BitVec.ofNat 32 i) with | none => _ | some unit => _) = _
  unfold workUnitAt
  rw [if_neg (by omega), value, found]
  rfl

/-- What growth does: the books of the old pairs are found under their categories as before, and the books of
the new pairs are empty. -/
structure Grown (manager manager' : MerkleWorkUnitManager) (newAssetCount : BitVec 16) : Prop where
  indexed : manager'.Indexed
  numAssets : manager'.numAssets = newAssetCount
  kept : ∀ sellAsset buyAsset : AssetID, sellAsset ≠ buyAsset → sellAsset.toNat < manager.numAssets.toNat →
    buyAsset.toNat < manager.numAssets.toNat →
    ∃ unit, manager.lookUp (pairCategory sellAsset buyAsset) = .ok unit ∧
      manager'.lookUp (pairCategory sellAsset buyAsset) = .ok unit.moved
  added : ∀ sellAsset buyAsset : AssetID, sellAsset ≠ buyAsset → sellAsset.toNat < newAssetCount.toNat →
    buyAsset.toNat < newAssetCount.toNat →
    manager.numAssets.toNat ≤ sellAsset.toNat ∨ manager.numAssets.toNat ≤ buyAsset.toNat →
    manager'.lookUp (pairCategory sellAsset buyAsset) = .ok (MerkleWorkUnit.new (pairCategory sellAsset buyAsset))

/-- The work unit that growth puts in the place of a pair. -/
theorem newWorkUnit_spec (indexed : manager.Indexed) {i : Nat}
    (fromIdx : categoryFromIdx (BitVec.ofNat 32 i) (newAssetCount.setWidth 32) = .ok (pairCategory sellAsset buyAsset))
    (other : sellAsset ≠ buyAsset) :
    ∃ unit, manager.newWorkUnit newAssetCount i = .ok unit ∧ unit.category = pairCategory sellAsset buyAsset ∧
      (sellAsset.toNat < manager.numAssets.toNat → buyAsset.toNat < manager.numAssets.toNat →
        ∃ old, manager.lookUp (pairCategory sellAsset buyAsset) = .ok old ∧ unit = old.moved) ∧
      (manager.numAssets.toNat ≤ sellAsset.toNat ∨ manager.numAssets.toNat ≤ buyAsset.toNat →
        unit = MerkleWorkUnit.new (pairCategory sellAsset buyAsset)) := by
  unfold newWorkUnit
  rw [fromIdx]
  show ∃ unit, (if buyAsset < _ ∧ sellAsset < _ then _ else _) = _ ∧ _
  by_cases old : buyAsset < manager.numAssets.setWidth 32 ∧ sellAsset < manager.numAssets.setWidth 32
  · rw [if_pos old]
    rw [BitVec.lt_def, BitVec.lt_def, toNat_count] at old
    obtain ⟨unit, found, category⟩ := indexed.lookUp other old.2 old.1
    refine ⟨unit.moved, ?_, category, fun _ _ => ⟨unit, found, rfl⟩, fun new => by omega⟩
    show (manager.lookUp (pairCategory sellAsset buyAsset) >>= _) = _
    rw [found]
    rfl
  · rw [if_neg old]
    rw [BitVec.lt_def, BitVec.lt_def, toNat_count] at old
    exact ⟨_, rfl, rfl, fun sell buy => absurd ⟨buy, sell⟩ old, fun _ => rfl⟩

/-- For a 16 bit count the number of pairs is an unsigned word. -/
theorem count_eq (newAssetCount : BitVec 16) :
    (getNumWorkUnitsByAssetCount (newAssetCount.setWidth 32)).toNat = newAssetCount.toNat * (newAssetCount.toNat - 1) := by
  unfold getNumWorkUnitsByAssetCount
  rw [BitVec.toNat_mul, toNat_count]
  by_cases none : newAssetCount.toNat = 0
  · rw [none, Nat.zero_mul, Nat.zero_mul, Nat.zero_mod]
  · have bound := newAssetCount.isLt
    have fits : newAssetCount.toNat * (newAssetCount.toNat - 1) < 2 ^ 32 := by
      calc newAssetCount.toNat * (newAssetCount.toNat - 1) ≤ 65535 * 65534 := Nat.mul_le_mul (by omega) (by omega)
        _ < 2 ^ 32 := by decide
    rw [toNat_pred (by rw [toNat_count]; omega), toNat_count, Nat.mod_eq_of_lt fits]

theorem Indexed.grown (indexed : manager.Indexed) (more : manager.numAssets.toNat ≤ newAssetCount.toNat)
    (few : newAssetCount.toNat ≤ maxAssetCount) :
    ∃ manager', manager.increaseNumTradedAssets newAssetCount = .ok manager' ∧ Grown manager manager' newAssetCount := by
  have bijection : IndexBijection (newAssetCount.setWidth 32) := indexBijection_of_few (by rwa [toNat_count])
  have count := count_eq newAssetCount
  have fits := units_lt few
  have signed : ∀ i < newAssetCount.toNat * (newAssetCount.toNat - 1), (BitVec.ofNat 32 i).toInt = i := by
    intro i below
    have value : (BitVec.ofNat 32 i).toNat = i := by
      rw [BitVec.toNat_ofNat]
      exact Nat.mod_eq_of_lt ((below.trans fits).trans (by decide))
    rw [toInt_eq_toNat (by omega), value]
  -- Each index names a pair, and the loop puts that pair's work unit there.
  have placed : ∀ i < newAssetCount.toNat * (newAssetCount.toNat - 1), ∃ unit sellAsset buyAsset,
      manager.newWorkUnit newAssetCount i = .ok unit ∧ unit.category = pairCategory sellAsset buyAsset ∧
      categoryFromIdx (BitVec.ofNat 32 i) (newAssetCount.setWidth 32) = .ok (pairCategory sellAsset buyAsset) := by
    intro i below
    obtain ⟨sellAsset, buyAsset, fromIdx, other, _⟩ := bijection.ofIdx (BitVec.ofNat 32 i)
      (by rw [signed i below]; omega) (by rw [signed i below, toNat_count]; exact_mod_cast below)
    obtain ⟨unit, put, category, _⟩ := newWorkUnit_spec indexed fromIdx other
    exact ⟨unit, sellAsset, buyAsset, put, category, fromIdx⟩
  obtain ⟨units, run, each⟩ := Fallible.mapM_total (f := manager.newWorkUnit newAssetCount)
    (l := List.range (newAssetCount.toNat * (newAssetCount.toNat - 1))) (by
      intro i member
      obtain ⟨unit, _, _, put, _⟩ := placed i (List.mem_range.mp member)
      exact ⟨unit, put⟩)
  have length : units.length = newAssetCount.toNat * (newAssetCount.toNat - 1) := by
    rw [← each.length_eq, List.length_range]
  have at_index : ∀ (i : Nat) (unit : MerkleWorkUnit), units[i]? = some unit → manager.newWorkUnit newAssetCount i = .ok unit := by
    intro i unit found
    obtain ⟨inside, value⟩ := List.getElem?_eq_some_iff.mp found
    have put := each.get (by rwa [List.length_range, ← length]) inside
    rwa [List.get_eq_getElem, List.get_eq_getElem, List.getElem_range, value] at put
  let manager' : MerkleWorkUnitManager := { workUnits := units, numAssets := newAssetCount }
  have indexed' : manager'.Indexed := by
    refine ⟨few, length, ?_⟩
    intro i unit found
    have below := (List.getElem?_eq_some_iff.mp found).1
    obtain ⟨unit', sellAsset, buyAsset, put, category, fromIdx⟩ := placed i (by rwa [← length])
    rw [at_index i unit found] at put
    rw [Except.ok.inj put, category]
    exact fromIdx
  -- What is looked up in the new vector is what the loop put there.
  have found_new : ∀ sellAsset buyAsset : AssetID, sellAsset ≠ buyAsset → sellAsset.toNat < newAssetCount.toNat →
      buyAsset.toNat < newAssetCount.toNat → ∃ i unit,
        categoryFromIdx (BitVec.ofNat 32 i) (newAssetCount.setWidth 32) = .ok (pairCategory sellAsset buyAsset) ∧
        manager.newWorkUnit newAssetCount i = .ok unit ∧ manager'.lookUp (pairCategory sellAsset buyAsset) = .ok unit := by
    intro sellAsset buyAsset other sell buy
    obtain ⟨idx, _, nonneg, below, fromIdx⟩ := bijection.ofPair sellAsset buyAsset other
      (by rwa [toNat_count]) (by rwa [toNat_count])
    rw [toNat_count, ← toNat_of_nonneg nonneg] at below
    have inside : idx.toNat < units.length := by
      rw [length]
      exact_mod_cast below
    have found : units[idx.toNat]? = some units[idx.toNat] := List.getElem?_eq_getElem inside
    have fromIdx' : categoryFromIdx (BitVec.ofNat 32 idx.toNat) (newAssetCount.setWidth 32) =
        .ok (pairCategory sellAsset buyAsset) := by
      rwa [BitVec.ofNat_toNat, BitVec.setWidth_eq]
    refine ⟨idx.toNat, units[idx.toNat], fromIdx', at_index _ _ found, ?_⟩
    have category := indexed'.category _ _ found
    rw [show manager'.numAssets = newAssetCount from rfl, fromIdx'] at category
    rw [Except.ok.inj category]
    exact indexed'.lookUp_eq found
  refine ⟨manager', ?_, indexed', rfl, ?_, ?_⟩
  · unfold increaseNumTradedAssets
    rw [if_neg (by rw [BitVec.lt_def]; omega)]
    dsimp only
    rw [if_neg, count, run]
    · rfl
    · rw [toInt_eq_toNat (by rw [count]; exact fits)]
      omega
  · intro sellAsset buyAsset other sell buy
    obtain ⟨i, unit, fromIdx, put, found⟩ := found_new sellAsset buyAsset other (by omega) (by omega)
    obtain ⟨unit', put', _, kept, _⟩ := newWorkUnit_spec indexed fromIdx other
    rw [put] at put'
    obtain ⟨old, lookedUp, same⟩ := kept sell buy
    rw [found, Except.ok.inj put', same]
    exact ⟨old, lookedUp, rfl⟩
  · intro sellAsset buyAsset other sell buy new
    obtain ⟨i, unit, fromIdx, put, found⟩ := found_new sellAsset buyAsset other sell buy
    obtain ⟨unit', put', _, _, added⟩ := newWorkUnit_spec indexed fromIdx other
    rw [put] at put'
    rw [found, Except.ok.inj put', added new]

/-- With more assets the `int` count is negative and the new vector is not made. -/
theorem few_of_grown {manager' : MerkleWorkUnitManager}
    (grown : manager.increaseNumTradedAssets newAssetCount = .ok manager') : newAssetCount.toNat ≤ maxAssetCount := by
  by_contra many
  rw [maxAssetCount, not_le] at many
  have count := count_eq newAssetCount
  have large : 2 ^ 31 ≤ newAssetCount.toNat * (newAssetCount.toNat - 1) := by
    calc 2 ^ 31 ≤ 46342 * 46341 := by decide
      _ ≤ newAssetCount.toNat * (newAssetCount.toNat - 1) := Nat.mul_le_mul many (by omega)
  have negative : (getNumWorkUnitsByAssetCount (newAssetCount.setWidth 32)).toInt < 0 := by
    have bound := (getNumWorkUnitsByAssetCount (newAssetCount.setWidth 32)).isLt
    rw [BitVec.toInt_eq_toNat_cond, if_neg (by omega)]
    omega
  unfold increaseNumTradedAssets at grown
  split_ifs at grown
  dsimp only at grown
  rw [if_pos negative] at grown
  cases grown

/-- The managers that the node can have: a new one, one that has grown, one with a changed work unit. A work
unit's category is constant. -/
inductive Reached : MerkleWorkUnitManager → Prop
  | new {numNewAssets : BitVec 16} {manager : MerkleWorkUnitManager} (made : new numNewAssets = .ok manager) : Reached manager
  | grow {manager manager' : MerkleWorkUnitManager} {newAssetCount : BitVec 16} (reached : Reached manager)
      (grown : manager.increaseNumTradedAssets newAssetCount = .ok manager') : Reached manager'
  | change {manager : MerkleWorkUnitManager} {i : Nat} {unit unit' : MerkleWorkUnit} (reached : Reached manager)
      (found : manager.workUnits[i]? = some unit) (category : unit'.category = unit.category) :
      Reached { manager with workUnits := manager.workUnits.set i unit' }

theorem Indexed.empty : Indexed { workUnits := [], numAssets := 0 } where
  few := Nat.zero_le _
  length := rfl
  category := by
    intro i unit found
    rw [List.getElem?_nil] at found
    cases found

theorem Indexed.increase (indexed : manager.Indexed) (grown : manager.increaseNumTradedAssets newAssetCount = .ok manager') :
    manager'.Indexed := by
  have more : manager.numAssets.toNat ≤ newAssetCount.toNat := by
    by_contra fewer
    unfold increaseNumTradedAssets at grown
    rw [if_pos (by rw [BitVec.lt_def]; omega)] at grown
    cases grown
  obtain ⟨manager'', run, growth⟩ := indexed.grown more (few_of_grown grown)
  cases grown.symm.trans run
  exact growth.indexed

theorem Reached.indexed (reached : Reached manager) : manager.Indexed := by
  induction reached with
  | new made => exact Indexed.empty.increase made
  | grow _ grown ih => exact ih.increase grown
  | @change manager i unit unit' _ found category ih =>
    refine ⟨ih.few, (List.length_set).trans ih.length, ?_⟩
    intro j other found'
    by_cases here : i = j
    · subst here
      have inside := (List.getElem?_eq_some_iff.mp found).1
      rw [List.getElem?_set_self inside, Option.some.injEq] at found'
      rw [← found', category]
      exact ih.category i unit found
    · rw [List.getElem?_set_ne here] at found'
      exact ih.category j other found'

end MerkleWorkUnitManager

/-- Indices and pairs correspond exactly for at most 46341 assets, and so many assets a manager can grow to
with every book in its place. -/
theorem workUnitIndexing_iff (assetCount : BitVec 32) (manager : MerkleWorkUnitManager) (newAssetCount : BitVec 16) :
    (IndexBijection assetCount ↔ assetCount.toNat ≤ maxAssetCount) ∧
      (manager.Reached → manager.numAssets.toNat ≤ newAssetCount.toNat →
        ((∃ manager', manager.increaseNumTradedAssets newAssetCount = .ok manager' ∧
          manager.Grown manager' newAssetCount) ↔ newAssetCount.toNat ≤ maxAssetCount)) := by
  refine ⟨⟨few_of_indexBijection, indexBijection_of_few⟩, ?_⟩
  intro reached more
  constructor
  · rintro ⟨manager', run, _⟩
    exact MerkleWorkUnitManager.few_of_grown run
  · exact reached.indexed.grown more

/-- From no assets to two: the books of both pairs are there, and empty. -/
theorem workUnitIndexing_sample :
    ∃ manager', MerkleWorkUnitManager.increaseNumTradedAssets { workUnits := [], numAssets := 0 } 2 = .ok manager' ∧
      MerkleWorkUnitManager.Grown { workUnits := [], numAssets := 0 } manager' 2 := by
  have reached : MerkleWorkUnitManager.Reached { workUnits := [], numAssets := 0 } :=
    .new (show MerkleWorkUnitManager.new 0 = .ok _ from rfl)
  exact ((workUnitIndexing_iff 2 _ 2).2 reached (by decide)).mpr (by decide)

/-- With 46342 assets the index of the last pair is negative and leads back to no pair, and no manager is made. -/
theorem workUnitIndexing_overflow :
    (categoryToIdx (pairCategory 46341 46340) 46342).map BitVec.toInt = .ok (-2147432675) ∧
      categoryFromIdx 0 46342 = .error .overflow ∧
      ∀ manager, MerkleWorkUnitManager.new 46342 ≠ .ok manager := by
  refine ⟨by decide, by decide, ?_⟩
  intro manager made
  cases made

end Speedex
