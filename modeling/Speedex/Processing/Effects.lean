import Mathlib.Algebra.Group.Pi.Basic
import Speedex.Library.Claims
import Speedex.Processing.Operations
import Speedex.Unit.Undo

set_option autoImplicit false

/- What a transaction does to the state in which its block starts, whatever other transactions the block has: it claims
things that are there once, and it adds to sums and collections. -/
namespace Speedex

open Claims

/-- What only one transaction of a block can have. -/
inductive TxResource where
  | sequenceNumber (account offset : Nat)
  | newAccount (account : AccountID)
  | cancellation (unit : Nat) (key : Key)
deriving DecidableEq

/-- What the transactions of a block add up to. -/
@[ext] structure TxTally where
  balances : Nat → AssetID → BitVec 64
  created : Multiset UserAccount
  newOffers : Multiset (Nat × Offer)
  activated : Nat → FractionalAsset
  stats : BlockStateUpdateStats
  log : Multiset LogEntry

namespace TxTally

instance : Zero TxTally := ⟨⟨0, 0, 0, 0, 0, 0⟩⟩

instance : Add TxTally := ⟨fun a b =>
  { balances := a.balances + b.balances
    created := a.created + b.created
    newOffers := a.newOffers + b.newOffers
    activated := a.activated + b.activated
    stats := a.stats + b.stats
    log := a.log + b.log }⟩

@[simp] theorem zero_balances : (0 : TxTally).balances = 0 := rfl
@[simp] theorem zero_created : (0 : TxTally).created = 0 := rfl
@[simp] theorem zero_newOffers : (0 : TxTally).newOffers = 0 := rfl
@[simp] theorem zero_activated : (0 : TxTally).activated = 0 := rfl
@[simp] theorem zero_stats : (0 : TxTally).stats = 0 := rfl
@[simp] theorem zero_log : (0 : TxTally).log = 0 := rfl
@[simp] theorem add_balances (a b : TxTally) : (a + b).balances = a.balances + b.balances := rfl
@[simp] theorem add_created (a b : TxTally) : (a + b).created = a.created + b.created := rfl
@[simp] theorem add_newOffers (a b : TxTally) : (a + b).newOffers = a.newOffers + b.newOffers := rfl
@[simp] theorem add_activated (a b : TxTally) : (a + b).activated = a.activated + b.activated := rfl
@[simp] theorem add_stats (a b : TxTally) : (a + b).stats = a.stats + b.stats := rfl
@[simp] theorem add_log (a b : TxTally) : (a + b).log = a.log + b.log := rfl

instance : AddCommMonoid TxTally where
  add_assoc a b c := by ext1 <;> exact add_assoc _ _ _
  zero_add a := by ext1 <;> exact zero_add _
  add_zero a := by ext1 <;> exact add_zero _
  add_comm a b := by ext1 <;> exact add_comm _ _
  nsmul := nsmulRec

end TxTally

abbrev TxEffect := Effect TxResource TxTally

/-- A balance that gets an amount. -/
def credit (account : Nat) (asset : AssetID) (amount : BitVec 64) : Nat → AssetID → BitVec 64 :=
  Pi.single account (Pi.single asset amount)

/-- What becomes of a new offer. -/
inductive Disposition where
  | kept
  | cleared (buyAmount : BitVec 64)
deriving DecidableEq

/-- The state in which a block starts, and what becomes of its new offers; where there is no answer, taking the offer in
fails. -/
structure BlockContext where
  accountDatabase : MemoryDatabase
  workUnitManager : MerkleWorkUnitManager
  disposition : Nat → Offer → Option Disposition

/-- A block that is made keeps all new offers. -/
def keepAll (_ : Nat) (_ : Offer) : Option Disposition := some .kept

/-- A block that is validated clears those below the threshold key at once. -/
def WorkUnitStateCommitmentChecker.disposition (checker : WorkUnitStateCommitmentChecker) (idx : Nat) (offer : Offer) :
    Option Disposition := do
  let commitment ← checker.commitments[idx]?
  if commitment.thresholdKeyIsNull ≠ 1 ∧ commitment.partialExecThresholdKey.val ≤ offer.key then some .kept
  else
    let sellPrice ← checker.prices[offer.category.sellAsset.toNat]?
    let buyPrice ← checker.prices[offer.category.buyAsset.toNat]?
    if buyPrice = 0 then none else some (.cleared (fullBuyAmount offer sellPrice buyPrice checker.taxRate))

/-- A bit of an account's sequence number vector is set. -/
def MemoryDatabase.SequenceBit (db : MemoryDatabase) (account offset : Nat) : Prop :=
  ∃ data, db.database[account]? = some data ∧ data.sequenceNumberVec.getLsbD offset = true

namespace BlockContext

/-- What is taken before the block. -/
def taken (ctx : BlockContext) : TxResource → Prop
  | .sequenceNumber account offset => ctx.accountDatabase.SequenceBit account offset
  | .newAccount account => ctx.accountDatabase.reservedAccountIds account = true
  | .cancellation i key =>
    ∃ unit l, ctx.workUnitManager.workUnits[i]? = some unit ∧ unit.committedOffers.find key = some l ∧
      l.metadata.numDeletedSubnodes ≠ 0

/-- What the operations of a transaction have in common. -/
structure Sender where
  txMetadata : TransactionMetadata
  sourceAccountIdx : Nat

/-- The operations so far: their number, and the accounts that they created. -/
structure Progress where
  count : Nat
  created : List UserAccount

variable (ctx : BlockContext) (sender : Sender) (progress : Progress)

def operationId : BitVec 64 := sender.txMetadata.sequenceNumber + BitVec.ofNat 64 progress.count

def createAccountEffect (op : CreateAccountOp) : Option (Progress × TxEffect) :=
  if op.startingBalance.slt createAccountMinStartingBalance then none
  else if (ctx.accountDatabase.userIdToIdxMap op.newAccountId).isSome then none
  else some (
    { count := progress.count + 1
      created := progress.created ++
        [(UserAccount.new op.newAccountId op.newAccountPublicKey).transferAvailable nativeAsset op.startingBalance] },
    { claims := {.newAccount op.newAccountId}
      tally := { (0 : TxTally) with
        balances := credit sender.sourceAccountIdx nativeAsset (-op.startingBalance)
        stats := { (0 : BlockStateUpdateStats) with newAccountCount := 1 } } })

/-- What taking a new offer in adds, before it is paid for. -/
def addOfferTally (idx : Nat) (offer : Offer) : Disposition → TxTally
  | .kept => { (0 : TxTally) with newOffers := {(idx, offer)} }
  | .cleared buyAmount => { (0 : TxTally) with
      balances := credit sender.sourceAccountIdx offer.category.buyAsset buyAmount
      activated := Pi.single idx (.fromUint64 offer.amount)
      log := {.selfModification offer.owner offer.offerId} }

def createSellOfferEffect (op : CreateSellOfferOp) : Option (Progress × TxEffect) :=
  if !validateCategory op.category (ctx.workUnitManager.numAssets.setWidth 32) then none
  else if !PriceUtils.isValidPrice op.minPrice then none
  else if op.amount = 0 then none
  else
    match ctx.workUnitManager.lookUpIdx op.category with
    | .error _ => none
    | .ok idx =>
      let offer := makeOffer op sender.txMetadata (operationId sender progress)
      (ctx.disposition idx.toNat offer).map (fun disposition =>
        ({ progress with count := progress.count + 1 },
          { claims := 0
            tally := addOfferTally sender idx.toNat offer disposition +
              { (0 : TxTally) with
                balances := credit sender.sourceAccountIdx op.category.sellAsset (-op.amount)
                stats := { (0 : BlockStateUpdateStats) with newOfferCount := 1 } } }))

def cancelSellOfferEffect (op : CancelSellOfferOp) : Option (Progress × TxEffect) :=
  match ctx.workUnitManager.lookUpIdx op.category with
  | .error _ => none
  | .ok idx => do
    let key := generateKey op.minPrice sender.txMetadata.sourceAccount op.offerId
    let unit ← ctx.workUnitManager.workUnitAt idx
    let l ← unit.committedOffers.find key
    some (
      { progress with count := progress.count + 1 },
      { claims := {.cancellation idx.toNat key}
        tally := { (0 : TxTally) with
          balances := credit sender.sourceAccountIdx op.category.sellAsset l.value.amount
          stats := { (0 : BlockStateUpdateStats) with cancelOfferCount := 1 } } })

def paymentEffect (op : PaymentOp) : Option (Progress × TxEffect) :=
  let paid : TxTally := { (0 : TxTally) with
    balances := credit sender.sourceAccountIdx op.asset (-op.amount)
    stats := { (0 : BlockStateUpdateStats) with paymentCount := 1 } }
  match ctx.accountDatabase.lookupUserId op.receiver with
  | some idx =>
    some ({ progress with count := progress.count + 1 },
      { claims := 0, tally := paid + { (0 : TxTally) with balances := credit idx op.asset op.amount } })
  | none =>
    (progress.created.findIdx? (fun account => account.owner = op.receiver)).map (fun i =>
      ({ count := progress.count + 1
         created := progress.created.modify i (fun account => account.transferAvailable op.asset op.amount) },
        { claims := 0, tally := paid }))

def moneyPrinterEffect (op : MoneyPrinterOp) : Option (Progress × TxEffect) :=
  if op.amount.slt 0 then none
  else some ({ progress with count := progress.count + 1 },
    { claims := 0, tally := { (0 : TxTally) with balances := credit sender.sourceAccountIdx op.asset op.amount } })

/-- A transaction has at most `MAX_OPS_PER_TX` operations. -/
def operationEffect (op : Operation) : Option (Progress × TxEffect) :=
  if maxOpsPerTx.toNat ≤ progress.count then none
  else
    match op with
    | .createAccount op => createAccountEffect ctx sender progress op
    | .createSellOffer op => createSellOfferEffect ctx sender progress op
    | .cancelSellOffer op => cancelSellOfferEffect ctx sender progress op
    | .payment op => paymentEffect ctx sender progress op
    | .moneyPrinter op => moneyPrinterEffect sender progress op

/-- The bit of the source account's that a transaction sets. -/
def sequenceOffset (account : UserAccount) (sequenceNumber : BitVec 64) : Option Nat :=
  if sequenceNumber.ule account.lastCommittedId then none
  else if 64 ≤ (UserAccount.getSeqNumOffset sequenceNumber account.lastCommittedId).toNat then none
  else some (UserAccount.getSeqNumOffset sequenceNumber account.lastCommittedId).toNat

/-- The effect of a whole transaction, if it has one. -/
def transactionEffect (signedTx : SignedTransaction) : Option TxEffect :=
  let tx := signedTx.transaction
  if !checkTxFormatParameters tx then none
  else do
    let sourceAccountIdx ← ctx.accountDatabase.lookupUserId tx.metadata.sourceAccount
    let account ← ctx.accountDatabase.database[sourceAccountIdx]?
    let offset ← sequenceOffset account tx.metadata.sequenceNumber
    let (progress, e) ← effects (operationEffect ctx ⟨tx.metadata, sourceAccountIdx⟩) ⟨0, []⟩ tx.operations
    some (⟨{.sequenceNumber sourceAccountIdx offset}, 0⟩ + e +
      ⟨0, { (0 : TxTally) with created := progress.created, log := logModifiedAccounts signedTx }⟩)

end BlockContext

end Speedex
