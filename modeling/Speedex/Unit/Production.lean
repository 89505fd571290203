import Speedex.Unit.Commit

set_option autoImplicit false

/- `process_clear_offers`: how a block producer clears a work unit and what it puts into the header. -/
namespace Speedex

/-- `WorkUnitClearingParams`. -/
structure WorkUnitClearingParams where
  supplyActivated : FractionalAsset

namespace MerkleWorkUnit

/-- The end of `process_clear_offers` when an offer remains: the lowest one is executed in part. -/
def clearLowestOffer (unit : MerkleWorkUnit) (committedOffers : OfferTrie) (partialExecKey : OfferKeyType)
    (thunk : WorkUnitLMDBCommitmentThunk) (prices : List Price) (taxRate : BitVec 8)
    (remainingToClear : FractionalAsset) (effects : ClearingEffects)
    (clearingCommitmentLog : SingleWorkUnitStateCommitment) :
    Except String (MerkleWorkUnit × ClearingEffects × SingleWorkUnitStateCommitment) :=
  let (committedOffers, tryDelete) := committedOffers.performDeletion workUnitKeyLen partialExecKey.val
  match tryDelete with
  | none => .error "couldn't find partial exec offer!!!"
  | some partialExecOffer =>
    let effects := { effects with serialAccountLog := effects.serialAccountLog ++
      [LogEntry.selfModification partialExecOffer.owner partialExecOffer.offerId] }
    match effects.db.lookupUserId partialExecOffer.owner with
    | none => .error "(partialexec) Offer in manager from nonexistent account"
    | some idx => do
      let db ← clearOfferPartial partialExecOffer (priceAt prices unit.category.sellAsset)
        (priceAt prices unit.category.buyAsset) taxRate remainingToClear effects.db idx
      let sellAmount := partialSellAmount remainingToClear
      if partialExecOffer.amount.ult sellAmount then
        .error "should not have been partially clearing this offer"
      else
        let committedOffers ← insertReduced committedOffers partialExecKey.val
          { partialExecOffer with amount := partialExecOffer.amount - sellAmount }
        .ok ({ unit with
            committedOffers := committedOffers
            lmdbInstance := unit.lmdbInstance.setTopThunk
              (thunk.setPartialExec partialExecKey sellAmount partialExecOffer) },
          { effects with db := db },
          { clearingCommitmentLog with
            thresholdKeyIsNull := 0
            partialExecThresholdKey := partialExecKey })

/-- `process_clear_offers`. -/
def processClearOffers (unit : MerkleWorkUnit) (params : WorkUnitClearingParams) (prices : List Price)
    (taxRate : BitVec 8) (effects : ClearingEffects) (clearingCommitmentLog : SingleWorkUnitStateCommitment) :
    Except String (MerkleWorkUnit × ClearingEffects × SingleWorkUnitStateCommitment) :=
  let clearAmount := params.supplyActivated.floor
  if clearAmount.toNat > 2 ^ 63 - 1 then .error "trying to clear more than there should exist"
  else do
    let (fullyClearedTrie, committedOffers) ←
      unit.committedOffers.endowSplit workUnitKeyLen (clearAmount.setWidth 64)
    let effects ← fullyClearedTrie.apply (completeClearingFunc (priceAt prices unit.category.sellAsset)
      (priceAt prices unit.category.buyAsset) taxRate) effects
    let remainingToClear := params.supplyActivated - .fromInt64 fullyClearedTrie.getRootMetadata.endow
    let thunk ← unit.lmdbInstance.getTopThunk
    let thunk := { thunk with clearedOffers := fullyClearedTrie }
    let clearingCommitmentLog := { clearingCommitmentLog with
      fractionalSupplyActivated := params.supplyActivated
      partialExecOfferActivationAmount := remainingToClear }
    match committedOffers.getLowestKey with
    | none =>
      if remainingToClear ≠ FractionalAsset.fromIntegral 0 then
        .error "null partial_exec_key (lowest offer key) but remaining to clear is nonzero"
      else
        .ok ({ unit with
            committedOffers := committedOffers
            lmdbInstance := unit.lmdbInstance.setTopThunk thunk.setNoPartialExec },
          effects,
          { clearingCommitmentLog with partialExecThresholdKey := zeroKey, thresholdKeyIsNull := 1 })
    | some partialExecKey =>
      if full : partialExecKey.length = workUnitKeyLen then
        unit.clearLowestOffer committedOffers ⟨partialExecKey, full⟩ thunk prices taxRate remainingToClear effects
          clearingCommitmentLog
      else .error "invalid partial_exec_key size!?!!"

end MerkleWorkUnit

end Speedex
