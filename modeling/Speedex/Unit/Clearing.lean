import Speedex.Ledger.Database
import Speedex.Ledger.Transaction
import Speedex.Unit.Commitment

set_option autoImplicit false

/- `offer_clearing_logic.h` and `CompleteClearingFunc`: what clearing an offer pays its owner. -/
namespace Speedex

/-- What clearing changes outside the offer tries. -/
structure ClearingEffects where
  db : MemoryDatabase
  serialAccountLog : SerialAccountModificationLog

/-- The amount `clear_offer_full` pays, as the `int64_t` that `transfer_available` takes. -/
def fullBuyAmount (offer : Offer) (sellPrice buyPrice : Price) (taxRate : BitVec 8) : BitVec 64 :=
  let amount := FractionalAsset.fromUint64 offer.amount
  let buyAmountFractional :=
    FractionalAsset.fromRaw (PriceUtils.wideMultiplyValByAOverB amount.value sellPrice buyPrice)
  (buyAmountFractional.taxAndRound taxRate).setWidth 64

/-- `clear_offer_full`. -/
def clearOfferFull (offer : Offer) (sellPrice buyPrice : Price) (taxRate : BitVec 8) (db : MemoryDatabase)
    (dbIdx : Nat) : Except String MemoryDatabase :=
  db.transferAvailable dbIdx offer.category.buyAsset (fullBuyAmount offer sellPrice buyPrice taxRate)

/-- `out_buy_amount` of `clear_offer_partial`. -/
def partialBuyAmount (remainingToClear : FractionalAsset) (sellPrice buyPrice : Price) (taxRate : BitVec 8) :
    BitVec 64 :=
  let buyAmountFractional :=
    FractionalAsset.fromRaw (PriceUtils.wideMultiplyValByAOverB remainingToClear.value sellPrice buyPrice)
  (buyAmountFractional.taxAndRound taxRate).setWidth 64

/-- `out_sell_amount` of `clear_offer_partial`. -/
def partialSellAmount (remainingToClear : FractionalAsset) : BitVec 64 := remainingToClear.ceil.setWidth 64

/-- `clear_offer_partial`, less its output parameters. -/
def clearOfferPartial (offer : Offer) (sellPrice buyPrice : Price) (taxRate : BitVec 8)
    (remainingToClear : FractionalAsset) (db : MemoryDatabase) (dbIdx : Nat) : Except String MemoryDatabase :=
  db.transferAvailable dbIdx offer.category.buyAsset (partialBuyAmount remainingToClear sellPrice buyPrice taxRate)

/-- `CompleteClearingFunc`. -/
def completeClearingFunc (sellPrice buyPrice : Price) (taxRate : BitVec 8) (offer : Offer)
    (effects : ClearingEffects) : Except String ClearingEffects :=
  if PriceUtils.aOverBLtC sellPrice buyPrice offer.minPrice then
    .error "Trying to clear an offer with bad price"
  else if offer.amount = 0 then .error "offer amount was 0!"
  else
    match effects.db.lookupUserId offer.owner with
    | none => .error "Offer in manager from nonexistent account"
    | some idx => do
      let db ← clearOfferFull offer sellPrice buyPrice taxRate effects.db idx
      .ok { db := db
            serialAccountLog := effects.serialAccountLog ++ [.selfModification offer.owner offer.offerId] }

end Speedex
