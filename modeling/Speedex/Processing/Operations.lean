import Speedex.Library.Parallel
import Speedex.Processing.SerialManager

set_option autoImplicit false

/- `serial_transaction_processor.cc`: how the operations of a transaction are processed, for a block that is made and for
a block that is validated. -/
namespace Speedex

variable {D V : Type}

/-- What an operation leaves, and its status. -/
abbrev OperationOutcome (D V : Type) := SerialTransactionHandler D × OperationMetadata V × TransactionProcessingStatus

/-- The low bits of a sequence number are left to the ids of the operations. -/
def reservedSequenceNumLowbits : BitVec 64 := 255

def createAccountMinStartingBalance : BitVec 64 := 100

def checkTxFormatParameters (tx : Transaction) : Bool :=
  tx.metadata.sequenceNumber &&& reservedSequenceNumLowbits = 0

/-- `make_offer`. -/
def makeOffer (op : CreateSellOfferOp) (txMetadata : TransactionMetadata) (operationId : BitVec 64) : Offer where
  category := op.category
  offerId := operationId
  owner := txMetadata.sourceAccount
  amount := op.amount
  minPrice := op.minPrice

/-- A call that may fail, and what is done if it does not. -/
def onSuccess (result : Except String (OperationOutcome D V))
    (next : SerialTransactionHandler D → OperationMetadata V → Except String (OperationOutcome D V)) :
    Except String (OperationOutcome D V) := do
  let (handler, metadata, status) ← result
  if status ≠ .success then .ok (handler, metadata, status) else next handler metadata

def OperationMetadata.count (metadata : OperationMetadata V) (stats : BlockStateUpdateStats) : OperationMetadata V :=
  { metadata with localStats := metadata.localStats + stats }

section Handlers

variable [DatabaseView V] (handler : SerialTransactionHandler D) (metadata : OperationMetadata V)

def transferAvailable (account : Nat) (asset : AssetID) (amount : BitVec 64) : Except String (OperationOutcome D V) := do
  let (db, view, status) ← DatabaseView.transferAvailable handler.accountDatabase metadata.dbView account asset amount
  .ok ({ handler with accountDatabase := db }, { metadata with dbView := view }, status)

def escrow (account : Nat) (asset : AssetID) (amount : BitVec 64) : Except String (OperationOutcome D V) := do
  let (db, view, status) ← DatabaseView.escrow handler.accountDatabase metadata.dbView account asset amount
  .ok ({ handler with accountDatabase := db }, { metadata with dbView := view }, status)

def createNewAccount (account : AccountID) (pk : PublicKey) : Except String (OperationOutcome D V) :=
  let (db, creation, status) :=
    (DatabaseView.creation metadata.dbView).createNewAccount handler.accountDatabase account pk
  .ok ({ handler with accountDatabase := db },
    { metadata with dbView := DatabaseView.setCreation metadata.dbView creation }, status)

def processCreateAccount (op : CreateAccountOp) : Except String (OperationOutcome D V) :=
  if op.startingBalance.slt createAccountMinStartingBalance then .ok (handler, metadata, .startingBalanceTooLow)
  else
    let newAccountIdx := (DatabaseView.creation metadata.dbView).newIdx
    onSuccess (createNewAccount handler metadata op.newAccountId op.newAccountPublicKey) fun handler metadata =>
    onSuccess (transferAvailable handler metadata metadata.sourceAccountIdx nativeAsset (-op.startingBalance))
      fun handler metadata =>
    onSuccess (transferAvailable handler metadata newAccountIdx nativeAsset op.startingBalance) fun handler metadata =>
    .ok (handler, metadata.count { (0 : BlockStateUpdateStats) with newAccountCount := 1 }, .success)

variable [SerialManager D]

def processCreateSellOffer (op : CreateSellOfferOp) : Except String (OperationOutcome D V) :=
  if !validateCategory op.category (handler.workUnitManager.numAssets.setWidth 32) then
    .ok (handler, metadata, .invalidOfferCategory)
  else if !PriceUtils.isValidPrice op.minPrice then .ok (handler, metadata, .invalidPrice)
  else if op.amount = 0 then .ok (handler, metadata, .invalidAmount)
  else do
    let marketIdx ← handler.workUnitManager.lookUpIdx op.category
    let toAdd := makeOffer op metadata.txMetadata metadata.operationId
    let (handler, metadata) ← SerialManager.addOffer handler metadata marketIdx toAdd
    let (handler, metadata, status) ← escrow handler metadata metadata.sourceAccountIdx op.category.sellAsset op.amount
    if status ≠ .success then do
      let handler ← SerialManager.unwindAddOffer handler marketIdx toAdd
      .ok (handler, metadata, status)
    else .ok (handler, metadata.count { (0 : BlockStateUpdateStats) with newOfferCount := 1 }, .success)

def processCancelSellOffer (op : CancelSellOfferOp) : Except String (OperationOutcome D V) := do
  let marketIdx ← handler.workUnitManager.lookUpIdx op.category
  let (handler, foundOffer) ← handler.deleteOffer marketIdx op.minPrice metadata.txMetadata.sourceAccount op.offerId
  match foundOffer with
  | none => .ok (handler, metadata, .cancelOfferTargetNexist)
  | some foundOffer => do
    let (handler, metadata, status) ←
      escrow handler metadata metadata.sourceAccountIdx op.category.sellAsset (-foundOffer.amount)
    if status ≠ .success then do
      let handler ← SerialManager.undeleteOffer handler marketIdx op.minPrice metadata.txMetadata.sourceAccount op.offerId
      .ok (handler, metadata, status)
    else .ok (handler, metadata.count { (0 : BlockStateUpdateStats) with cancelOfferCount := 1 }, .success)

omit [SerialManager D] in
def processPayment (op : PaymentOp) : Except String (OperationOutcome D V) :=
  match (DatabaseView.creation metadata.dbView).lookupUserId handler.accountDatabase op.receiver with
  | none => .ok (handler, metadata, .recipientAccountNexist)
  | some targetAccountIdx =>
    onSuccess (transferAvailable handler metadata metadata.sourceAccountIdx op.asset (-op.amount)) fun handler metadata =>
    onSuccess (transferAvailable handler metadata targetAccountIdx op.asset op.amount) fun handler metadata =>
    .ok (handler, metadata.count { (0 : BlockStateUpdateStats) with paymentCount := 1 }, .success)

omit [SerialManager D] in
def processMoneyPrinter (op : MoneyPrinterOp) : Except String (OperationOutcome D V) :=
  if op.amount.slt 0 then .ok (handler, metadata, .invalidPrintMoneyAmount)
  else transferAvailable handler metadata metadata.sourceAccountIdx op.asset op.amount

/-- The overloads of `process_operation`. -/
def processOperation : Operation → Except String (OperationOutcome D V)
  | .createAccount op => processCreateAccount handler metadata op
  | .createSellOffer op => processCreateSellOffer handler metadata op
  | .cancelSellOffer op => processCancelSellOffer handler metadata op
  | .payment op => processPayment handler metadata op
  | .moneyPrinter op => processMoneyPrinter handler metadata op

/-- The loop over the operations from index `i` on; it ends with the index of the operation that failed. -/
def processOperations (handler : SerialTransactionHandler D) (metadata : OperationMetadata V) (i : Nat) :
    List Operation → Except String (SerialTransactionHandler D × OperationMetadata V × Nat × TransactionProcessingStatus)
  | [] => .ok (handler, metadata, i, .success)
  | op :: operations => do
    let operationId := metadata.txMetadata.sequenceNumber + BitVec.ofNat 64 i
    let (handler, metadata, status) ← processOperation handler { metadata with operationId := operationId } op
    if status ≠ .success then .ok (handler, metadata, i, status)
    else processOperations handler metadata (i + 1) operations

end Handlers

/-- The log entry of an operation, none where the transaction modifies its own account only. -/
def logOperation (metadata : TransactionMetadata) (i : Nat) (op : Operation) : SerialAccountModificationLog :=
  let opSeqNumber := metadata.sequenceNumber + BitVec.ofNat 64 i
  match op with
  | .createAccount op => [.otherModification metadata.sourceAccount opSeqNumber op.newAccountId]
  | .payment op => [.otherModification metadata.sourceAccount opSeqNumber op.receiver]
  | .createSellOffer _ | .cancelSellOffer _ | .moneyPrinter _ => []

/-- `log_modified_accounts`. -/
def logModifiedAccounts (signedTx : SignedTransaction) : SerialAccountModificationLog :=
  .newSelfTransaction signedTx ::
    (signedTx.transaction.operations.mapIdx (logOperation signedTx.transaction.metadata)).flatten

/-- An order in which an iteration over `new_accounts` meets its entries. -/
abbrev CommitOrder := Parallel.Interleaving (Nat × AccountID × UserAccount)

section Validator

/-- `validate_transaction`. -/
def validateTransaction (order : CommitOrder) (handler : SerialTransactionHandler ValidatingSerialManager)
    (stats : BlockStateUpdateStats) (signedTx : SignedTransaction) :
    Except String (SerialTransactionHandler ValidatingSerialManager × BlockStateUpdateStats × Bool) :=
  let tx := signedTx.transaction
  if !checkTxFormatParameters tx then .ok (handler, stats, false)
  else
    match handler.accountDatabase.lookupUserId tx.metadata.sourceAccount with
    | none => .ok (handler, stats, false)
    | some sourceAccountIdx => do
      let metadata : OperationMetadata UnbufferedMemoryDatabaseView :=
        .new tx.metadata sourceAccountIdx handler.accountDatabase
      let (db, idStatus) ← handler.accountDatabase.reserveSequenceNumber sourceAccountIdx tx.metadata.sequenceNumber
      if idStatus ≠ .success then .ok ({ handler with accountDatabase := db }, stats, false)
      else do
        let db ← db.commitSequenceNumber sourceAccountIdx tx.metadata.sequenceNumber
        let (handler, metadata, _, status) ←
          processOperations { handler with accountDatabase := db } metadata 0 tx.operations
        if status ≠ .success then .ok (handler, stats, false)
        else .ok ({ handler with
            serialAccountLog := handler.serialAccountLog ++ logModifiedAccounts signedTx
            accountDatabase := AccountCreationView.commit handler.accountDatabase
              (order.run metadata.dbView.creation.newAccounts) },
          stats + metadata.localStats, true)

end Validator

section Processor

variable [SerialManager D]

/-- `unwind_transaction` from operation `n - 1` down. -/
def unwindOperations (handler : SerialTransactionHandler D) (tx : Transaction) :
    Nat → Except String (SerialTransactionHandler D)
  | 0 => .ok handler
  | n + 1 => do
    let operationId := tx.metadata.sequenceNumber + BitVec.ofNat 64 n
    let handler ← match tx.operations[n]? with
      | some (.createAccount _) => .ok handler
      | some (.createSellOffer op) => do
        let marketIdx ← handler.workUnitManager.lookUpIdx op.category
        SerialManager.unwindAddOffer handler marketIdx (makeOffer op tx.metadata operationId)
      | some (.cancelSellOffer op) => do
        let marketIdx ← handler.workUnitManager.lookUpIdx op.category
        SerialManager.undeleteOffer handler marketIdx op.minPrice tx.metadata.sourceAccount op.offerId
      | some (.payment _) => .ok handler
      | some (.moneyPrinter _) => .error "cannot unwind unknown op type"
      | none => .error (CategoryFault.what .outOfRange)
    unwindOperations handler tx n

/-- `unwind_transaction`. -/
def unwindTransaction (handler : SerialTransactionHandler D) (tx : Transaction) (validOps : Nat) :
    Except String (SerialTransactionHandler D) :=
  match handler.accountDatabase.lookupUserId tx.metadata.sourceAccount with
  | none => .error "cannot unwind tx from nonexistent acct"
  | some _ => unwindOperations handler tx validOps

/-- `process_transaction`. -/
def processTransaction (order : CommitOrder) (handler : SerialTransactionHandler ProcessingSerialManager)
    (stats : BlockStateUpdateStats) (signedTx : SignedTransaction) :
    Except String (SerialTransactionHandler ProcessingSerialManager × BlockStateUpdateStats × TransactionProcessingStatus) :=
  let tx := signedTx.transaction
  if !checkTxFormatParameters tx then .ok (handler, stats, .invalidTxFormat)
  else
    match handler.accountDatabase.lookupUserId tx.metadata.sourceAccount with
    | none => .ok (handler, stats, .sourceAccountNexist)
    | some sourceAccountIdx => do
      let (db, seqNumStatus) ← handler.accountDatabase.reserveSequenceNumber sourceAccountIdx tx.metadata.sequenceNumber
      if seqNumStatus ≠ .success then .ok ({ handler with accountDatabase := db }, stats, seqNumStatus)
      else do
        let metadata : OperationMetadata BufferedMemoryDatabaseView := .new tx.metadata sourceAccountIdx db
        let (handler, metadata, i, status) ←
          processOperations { handler with accountDatabase := db } metadata 0 tx.operations
        if status ≠ .success then do
          let handler ← unwindTransaction handler tx i
          let db ← (metadata.dbView.unwind handler.accountDatabase).releaseSequenceNumber sourceAccountIdx
            tx.metadata.sequenceNumber
          .ok ({ handler with accountDatabase := db }, stats, status)
        else do
          let db := metadata.dbView.commit handler.accountDatabase (order.run metadata.dbView.creation.newAccounts)
          let db ← db.commitSequenceNumber sourceAccountIdx tx.metadata.sequenceNumber
          .ok ({ handler with
              accountDatabase := db
              serialAccountLog := handler.serialAccountLog ++ logModifiedAccounts signedTx },
            stats + metadata.localStats, .success)

end Processor

end Speedex
