import Speedex.Market.Offer

set_option autoImplicit false

/- `work_unit_state_commitment.h`: what a block header says about the clearing of a work unit. -/
namespace Speedex

/-- `OfferKeyType`, an opaque array of exactly the key's length. -/
abbrev OfferKeyType := {key : Key // key.length = workUnitKeyLen}

def zeroKey : OfferKeyType := ⟨List.replicate workUnitKeyLen 0, List.length_replicate⟩

/-- `set_max`. -/
def maxKey : OfferKeyType := ⟨List.replicate workUnitKeyLen 15, List.length_replicate⟩

/-- The two amounts are 128 bit big endian numbers in the header. -/
structure SingleWorkUnitStateCommitment where
  rootHash : Hash
  fractionalSupplyActivated : FractionalAsset
  partialExecThresholdKey : OfferKeyType
  thresholdKeyIsNull : BitVec 32
  partialExecOfferActivationAmount : FractionalAsset
deriving DecidableEq

/-- `check_sanity`: the key is null exactly if the flag says so. -/
def SingleWorkUnitStateCommitment.checkSanity (commitment : SingleWorkUnitStateCommitment) : Bool :=
  if commitment.partialExecThresholdKey ≠ zeroKey then commitment.thresholdKeyIsNull = 0
  else commitment.thresholdKeyIsNull = 1

/-- `WorkUnitStateCommitmentChecker`. -/
structure WorkUnitStateCommitmentChecker where
  commitments : List SingleWorkUnitStateCommitment
  prices : List Price
  taxRate : BitVec 8

/-- `prices[asset]`. -/
def priceAt (prices : List Price) (asset : AssetID) : Price := prices.getD asset.toNat 0

/-- `SingleValidationStatistics`. -/
structure SingleValidationStatistics where
  activatedSupply : FractionalAsset
deriving DecidableEq, Repr

/-- `check`: declared and observed activation agree on every work unit. -/
def WorkUnitStateCommitmentChecker.check (checker : WorkUnitStateCommitmentChecker)
    (fullyClearedStats : List SingleValidationStatistics) : Bool :=
  (List.range checker.commitments.length).all (fun i =>
    match checker.commitments[i]? with
    | none => true
    | some commitment =>
      (fullyClearedStats.getD i ⟨0⟩).activatedSupply + commitment.partialExecOfferActivationAmount =
        commitment.fractionalSupplyActivated && commitment.checkSanity)

end Speedex
