import Speedex.Market.Offer

set_option autoImplicit false

/- `transaction.x` and the records of the account modification log that refer to transactions. -/
namespace Speedex

structure CreateAccountOp where
  startingBalance : BitVec 64
  newAccountId : AccountID
  newAccountPublicKey : List (BitVec 8)
deriving DecidableEq, Repr

structure CreateSellOfferOp where
  category : OfferCategory
  amount : BitVec 64
  minPrice : Price
deriving DecidableEq, Repr

structure CancelSellOfferOp where
  category : OfferCategory
  offerId : BitVec 64
  minPrice : Price
deriving DecidableEq, Repr

structure PaymentOp where
  receiver : AccountID
  asset : AssetID
  amount : BitVec 64
deriving DecidableEq, Repr

structure MoneyPrinterOp where
  asset : AssetID
  amount : BitVec 64
deriving DecidableEq, Repr

/-- The union of `Operation`; its discriminant is an `OperationType`. -/
inductive Operation where
  | createAccount (op : CreateAccountOp)
  | createSellOffer (op : CreateSellOfferOp)
  | cancelSellOffer (op : CancelSellOfferOp)
  | payment (op : PaymentOp)
  | moneyPrinter (op : MoneyPrinterOp)
deriving DecidableEq, Repr

structure TransactionMetadata where
  sourceAccount : AccountID
  sequenceNumber : BitVec 64
deriving DecidableEq, Repr

structure Transaction where
  metadata : TransactionMetadata
  operations : List Operation
  fee : BitVec 32
deriving DecidableEq, Repr

structure SignedTransaction where
  transaction : Transaction
  signature : List (BitVec 8)
deriving DecidableEq, Repr

/-- The insertions a `SerialAccountModificationLog` receives, each at the account it modifies. -/
inductive LogEntry where
  | selfModification (owner : AccountID) (operationId : BitVec 64)
  | otherModification (txOwner : AccountID) (sequenceNumber : BitVec 64) (modified : AccountID)
  | newSelfTransaction (tx : SignedTransaction)
deriving DecidableEq, Repr

/-- `SerialAccountModificationLog`, as the insertions made so far. -/
abbrev SerialAccountModificationLog := List LogEntry

end Speedex
