import Speedex.Processing.DatabaseView
import Speedex.Unit.Replay

set_option autoImplicit false

/- `merkle_work_unit_manager.h`: the managers that collect the new offers of the transactions of one thread. -/
namespace Speedex

/-- The counters of `block_update_stats.h`. -/
@[ext] structure BlockStateUpdateStats where
  newOfferCount : BitVec 32
  cancelOfferCount : BitVec 32
  fullyClearOfferCount : BitVec 32
  partialClearOfferCount : BitVec 32
  paymentCount : BitVec 32
  newAccountCount : BitVec 32
deriving DecidableEq, Repr

namespace BlockStateUpdateStats

instance : Zero BlockStateUpdateStats := ⟨⟨0, 0, 0, 0, 0, 0⟩⟩

/-- `operator+=`. -/
instance : Add BlockStateUpdateStats := ⟨fun a b =>
  { newOfferCount := a.newOfferCount + b.newOfferCount
    cancelOfferCount := a.cancelOfferCount + b.cancelOfferCount
    fullyClearOfferCount := a.fullyClearOfferCount + b.fullyClearOfferCount
    partialClearOfferCount := a.partialClearOfferCount + b.partialClearOfferCount
    paymentCount := a.paymentCount + b.paymentCount
    newAccountCount := a.newAccountCount + b.newAccountCount }⟩

instance : AddCommMonoid BlockStateUpdateStats where
  add_assoc a b c := by ext1 <;> exact add_assoc _ _ _
  zero_add a := by ext1 <;> exact zero_add _
  add_zero a := by ext1 <;> exact add_zero _
  add_comm a b := by ext1 <;> exact add_comm _ _
  nsmul := nsmulRec

end BlockStateUpdateStats

/-- `OperationMetadata`. -/
structure OperationMetadata (V : Type) where
  txMetadata : TransactionMetadata
  sourceAccountIdx : Nat
  dbView : V
  operationId : BitVec 64
  localStats : BlockStateUpdateStats

/-- The constructor. -/
def OperationMetadata.new {V : Type} [DatabaseView V] (txMetadata : TransactionMetadata) (sourceAccountIdx : Nat)
    (db : MemoryDatabase) : OperationMetadata V where
  txMetadata := txMetadata
  sourceAccountIdx := sourceAccountIdx
  dbView := DatabaseView.new db
  operationId := 0
  localStats := 0

/-- What `what` says, or what goes wrong where the source has no exception. -/
def CategoryFault.what : CategoryFault → String
  | .invalidAssetNumber => "invalid asset number"
  | .invalidOfferType => "invalid offer type"
  | .overflow => "signed overflow"
  | .divisionByZero => "division by zero"
  | .lengthError => "vector::reserve"
  | .outOfRange => "index out of range"
  | .fewerAssets => "Cannot decrease number of assets"

/-- `validate_category`. -/
def validateCategory (id : OfferCategory) (assetCount : BitVec 32) : Bool :=
  if id.sellAsset = id.buyAsset then false
  else if assetCount ≤ id.sellAsset ∨ assetCount ≤ id.buyAsset then false
  else true

namespace MerkleWorkUnitManager

def lookUpIdx (manager : MerkleWorkUnitManager) (id : OfferCategory) : Except String (BitVec 32) :=
  (categoryToIdx id (manager.numAssets.setWidth 32)).mapError CategoryFault.what

def setWorkUnit (manager : MerkleWorkUnitManager) (idx : BitVec 32) (unit : MerkleWorkUnit) : MerkleWorkUnitManager :=
  { manager with workUnits := manager.workUnits.set idx.toNat unit }

def addOffers (manager : MerkleWorkUnitManager) (idx : BitVec 32) (trie : OfferTrie) : Except String MerkleWorkUnitManager :=
  match manager.workUnitAt idx with
  | none => .error (CategoryFault.what .outOfRange)
  | some unit => do
    let unit ← unit.addOffers trie
    .ok (manager.setWorkUnit idx unit)

def markForDeletion (manager : MerkleWorkUnitManager) (idx : BitVec 32) (key : Key) :
    Except String (MerkleWorkUnitManager × Option Offer) :=
  match manager.workUnitAt idx with
  | none => .error (CategoryFault.what .outOfRange)
  | some unit =>
    let (unit, found) := unit.markForDeletion key
    .ok (manager.setWorkUnit idx unit, found)

theorem markForDeletion_of_some {manager : MerkleWorkUnitManager} {idx : BitVec 32} {key : Key} {unit : MerkleWorkUnit}
    (here : manager.workUnitAt idx = some unit) :
    manager.markForDeletion idx key =
      .ok (manager.setWorkUnit idx (unit.markForDeletion key).1, (unit.markForDeletion key).2) := by
  simp only [markForDeletion, here]

theorem workUnitAt_of_markForDeletion {manager manager' : MerkleWorkUnitManager} {idx : BitVec 32} {key : Key}
    {found : Option Offer} (done : manager.markForDeletion idx key = .ok (manager', found)) :
    ∃ unit, manager.workUnitAt idx = some unit := by
  cases here : manager.workUnitAt idx with
  | none => simp [markForDeletion, here] at done
  | some unit => exact ⟨unit, rfl⟩

def unmarkForDeletion (manager : MerkleWorkUnitManager) (idx : BitVec 32) (key : Key) :
    Except String MerkleWorkUnitManager :=
  match manager.workUnitAt idx with
  | none => .error (CategoryFault.what .outOfRange)
  | some unit => .ok (manager.setWorkUnit idx (unit.unmarkForDeletion key).1)

end MerkleWorkUnitManager

/-- `BaseSerialManager`, with the fields of the class derived from it. -/
structure BaseSerialManager (D : Type) where
  newOffers : List OfferTrie
  derived : D

/-- What a `SerialTransactionHandler` works on. -/
structure SerialTransactionHandler (D : Type) where
  serialManager : BaseSerialManager D
  accountDatabase : MemoryDatabase
  workUnitManager : MerkleWorkUnitManager
  serialAccountLog : SerialAccountModificationLog

namespace SerialTransactionHandler

variable {D : Type}

def setNewOffers (handler : SerialTransactionHandler D) (newOffers : List OfferTrie) : SerialTransactionHandler D :=
  { handler with serialManager := { handler.serialManager with newOffers := newOffers } }

@[simp] theorem setNewOffers_accountDatabase (handler : SerialTransactionHandler D) (newOffers : List OfferTrie) :
    (handler.setNewOffers newOffers).accountDatabase = handler.accountDatabase := rfl

@[simp] theorem setNewOffers_workUnitManager (handler : SerialTransactionHandler D) (newOffers : List OfferTrie) :
    (handler.setNewOffers newOffers).workUnitManager = handler.workUnitManager := rfl

@[simp] theorem setNewOffers_serialAccountLog (handler : SerialTransactionHandler D) (newOffers : List OfferTrie) :
    (handler.setNewOffers newOffers).serialAccountLog = handler.serialAccountLog := rfl

@[simp] theorem setNewOffers_derived (handler : SerialTransactionHandler D) (newOffers : List OfferTrie) :
    (handler.setNewOffers newOffers).serialManager.derived = handler.serialManager.derived := rfl

/-- `ensure_suffient_new_offers_sz`. -/
def ensureSufficientNewOffersSz (handler : SerialTransactionHandler D) (idx : BitVec 32) : SerialTransactionHandler D :=
  handler.setNewOffers (handler.serialManager.newOffers ++
    List.replicate (idx.toNat + 1 - handler.serialManager.newOffers.length) OfferTrie.empty)

/-- An update of `new_offers.at(idx)`. -/
def updateNewOffers (handler : SerialTransactionHandler D) (idx : BitVec 32)
    (func : OfferTrie → Except String OfferTrie) : Except String (SerialTransactionHandler D) :=
  match handler.serialManager.newOffers[idx.toNat]? with
  | none => .error "vector::_M_range_check"
  | some trie => do
    let trie ← func trie
    .ok (handler.setNewOffers (handler.serialManager.newOffers.set idx.toNat trie))

/-- A new offer is marked only in the committed book: it cannot be deleted before it is committed. -/
def deleteOffer (handler : SerialTransactionHandler D) (idx : BitVec 32) (minPrice : Price) (owner : AccountID)
    (offerId : BitVec 64) : Except String (SerialTransactionHandler D × Option Offer) := do
  let handler := handler.ensureSufficientNewOffersSz idx
  let (workUnitManager, found) ← handler.workUnitManager.markForDeletion idx (generateKey minPrice owner offerId)
  .ok ({ handler with workUnitManager := workUnitManager }, found)

end SerialTransactionHandler

/-- What the handlers of operations need of a manager. -/
class SerialManager (D : Type) where
  addOffer {V : Type} [DatabaseView V] : SerialTransactionHandler D → OperationMetadata V → BitVec 32 → Offer →
    Except String (SerialTransactionHandler D × OperationMetadata V)
  undeleteOffer : SerialTransactionHandler D → BitVec 32 → Price → AccountID → BitVec 64 →
    Except String (SerialTransactionHandler D)
  unwindAddOffer : SerialTransactionHandler D → BitVec 32 → Offer → Except String (SerialTransactionHandler D)

/-- `ProcessingSerialManager` adds no fields. -/
structure ProcessingSerialManager where

namespace ProcessingSerialManager

variable (handler : SerialTransactionHandler ProcessingSerialManager)

def addOffer {V : Type} (metadata : OperationMetadata V) (idx : BitVec 32) (offer : Offer) :
    Except String (SerialTransactionHandler ProcessingSerialManager × OperationMetadata V) := do
  let handler ← (handler.ensureSufficientNewOffersSz idx).updateNewOffers idx (fun trie =>
    trie.insert .overwrite offer.key offer)
  .ok (handler, metadata)

def undeleteOffer (idx : BitVec 32) (minPrice : Price) (owner : AccountID) (offerId : BitVec 64) :
    Except String (SerialTransactionHandler ProcessingSerialManager) := do
  let workUnitManager ← handler.workUnitManager.unmarkForDeletion idx (generateKey minPrice owner offerId)
  .ok { handler with workUnitManager := workUnitManager }

def unwindAddOffer (idx : BitVec 32) (offer : Offer) :
    Except String (SerialTransactionHandler ProcessingSerialManager) :=
  handler.updateNewOffers idx (fun trie => .ok (trie.performDeletion workUnitKeyLen offer.key).1)

instance : SerialManager ProcessingSerialManager where
  addOffer handler metadata idx offer := addOffer handler metadata idx offer
  undeleteOffer := undeleteOffer
  unwindAddOffer := unwindAddOffer

end ProcessingSerialManager

structure ValidatingSerialManager where
  clearingCommitment : WorkUnitStateCommitmentChecker
  activatedSupplies : List SingleValidationStatistics

namespace ValidatingSerialManager

section Clearing

variable {V : Type} [DatabaseView V]

/-- `clear_offer_full` through a view. The status of the transfer is not looked at. -/
def clearOfferFull (offer : Offer) (sellPrice buyPrice : Price) (taxRate : BitVec 8) (db : MemoryDatabase) (view : V)
    (dbIdx : Nat) : Except String (MemoryDatabase × V) :=
  if buyPrice = 0 then .error (CategoryFault.what .divisionByZero)
  else do
    let (db, view, _) ← DatabaseView.transferAvailable db view dbIdx offer.category.buyAsset
      (fullBuyAmount offer sellPrice buyPrice taxRate)
    .ok (db, view)

variable (handler : SerialTransactionHandler ValidatingSerialManager)

/-- The two branches of `add_offer` that clear the offer at once. -/
def clearPreemptively (metadata : OperationMetadata V) (idx : BitVec 32) (offer : Offer) :
    Except String (SerialTransactionHandler ValidatingSerialManager × OperationMetadata V) :=
  let validation := handler.serialManager.derived
  let checker := validation.clearingCommitment
  match checker.prices[offer.category.sellAsset.toNat]?, checker.prices[offer.category.buyAsset.toNat]?,
    validation.activatedSupplies[idx.toNat]? with
  | some sellPrice, some buyPrice, some supply => do
    let (db, view) ← clearOfferFull offer sellPrice buyPrice checker.taxRate handler.accountDatabase metadata.dbView
      metadata.sourceAccountIdx
    .ok ({ handler with
        accountDatabase := db
        serialManager := { handler.serialManager with
          derived := { validation with
            activatedSupplies := validation.activatedSupplies.set idx.toNat
              ⟨supply.activatedSupply + .fromUint64 offer.amount⟩ } }
        serialAccountLog := handler.serialAccountLog ++
          [.selfModification metadata.txMetadata.sourceAccount metadata.operationId] },
      { metadata with dbView := view })
  | _, _, _ => .error (CategoryFault.what .outOfRange)

/-- `ensure_suffient_new_offers_sz`. -/
def ensureSufficientNewOffersSz (idx : BitVec 32) : SerialTransactionHandler ValidatingSerialManager :=
  let validation := handler.serialManager.derived
  { handler with serialManager := { handler.serialManager with
      derived := { validation with
        activatedSupplies := makeMinimumSize validation.activatedSupplies idx.toNat } } }.ensureSufficientNewOffersSz idx

def addOffer (metadata : OperationMetadata V) (idx : BitVec 32) (offer : Offer) :
    Except String (SerialTransactionHandler ValidatingSerialManager × OperationMetadata V) :=
  let handler := ensureSufficientNewOffersSz handler idx
  match handler.serialManager.derived.clearingCommitment.commitments[idx.toNat]? with
  | none => .error (CategoryFault.what .outOfRange)
  | some commitment =>
    if commitment.thresholdKeyIsNull = 1 then clearPreemptively handler metadata idx offer
    else if commitment.partialExecThresholdKey.val ≤ offer.key then do
      let handler ← handler.updateNewOffers idx (fun trie => trie.insert .rollback offer.key offer)
      .ok (handler, metadata)
    else clearPreemptively handler metadata idx offer

end Clearing

instance : SerialManager ValidatingSerialManager where
  addOffer handler metadata idx offer := addOffer handler metadata idx offer
  undeleteOffer handler _ _ _ _ := .ok handler
  unwindAddOffer handler _ _ := .ok handler

end ValidatingSerialManager

end Speedex
