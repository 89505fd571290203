import Speedex.Market.Offer

set_option autoImplicit false

/- `revertable_asset.h` and `user_account.h`: balances that can be rolled back to their last
committed amount, and the accounts that hold them. -/
namespace Speedex

abbrev PublicKey := List (BitVec 8)

inductive TransactionProcessingStatus where
  | success
  | sourceAccountNexist
  | invalidOperationType
  | seqNumTooLow
  | seqNumTooHigh
  | seqNumTempInUse
  | startingBalanceTooLow
  | newAccountAlreadyExists
  | newAccountTempReserved
  | insufficientBalance
  | invalidTxFormat
  | invalidOfferCategory
  | invalidPrice
  | cancelOfferTargetNexist
  | recipientAccountNexist
  | invalidPrintMoneyAmount
  | invalidAmount
deriving DecidableEq, Repr

/-- Both amounts are `int64_t`; `fetch_add` wraps around. -/
@[ext] structure RevertableAsset where
  available : BitVec 64
  committedAvailable : BitVec 64
deriving DecidableEq, Repr

namespace RevertableAsset

/-- The default constructor. -/
def new : RevertableAsset := ⟨0, 0⟩

instance : Inhabited RevertableAsset := ⟨new⟩

def transferAvailable (amount : BitVec 64) (asset : RevertableAsset) : RevertableAsset :=
  { asset with available := asset.available + amount }

def escrow (amount : BitVec 64) (asset : RevertableAsset) : RevertableAsset :=
  { asset with available := asset.available - amount }

def conditionalTransferAvailable (amount : BitVec 64) (asset : RevertableAsset) : RevertableAsset × Bool :=
  let tentativeAvailable := asset.available + amount
  if tentativeAvailable.slt 0 then (asset, false)
  else ({ asset with available := tentativeAvailable }, true)

def conditionalEscrow (amount : BitVec 64) (asset : RevertableAsset) : RevertableAsset × Bool :=
  if BitVec.slt 0 amount then asset.conditionalTransferAvailable (-amount)
  else (asset.transferAvailable (-amount), true)

def commit (asset : RevertableAsset) : RevertableAsset :=
  { asset with committedAvailable := asset.available }

def rollback (asset : RevertableAsset) : RevertableAsset :=
  { asset with available := asset.committedAvailable }

def inValidState (asset : RevertableAsset) : Bool := BitVec.sle 0 asset.available

end RevertableAsset

/-- `MAX_OPS_PER_TX`, also the distance of consecutive sequence numbers. -/
def maxOpsPerTx : BitVec 64 := 256

@[ext] structure UserAccount where
  owner : AccountID
  pk : PublicKey
  ownedAssets : List RevertableAsset
  uncommittedAssets : List RevertableAsset
  sequenceNumberVec : BitVec 64
  lastCommittedId : BitVec 64
deriving DecidableEq, Repr

/-- Append default constructed elements up to a length. -/
def growTo {α : Type} [Inhabited α] (l : List α) (n : Nat) : List α :=
  l ++ List.replicate (n - l.length) default

namespace UserAccount

def new (owner : AccountID) (pk : PublicKey) : UserAccount :=
  ⟨owner, pk, [], [], 0, 0⟩

/-- `operate_on_asset`: assets beyond the committed ones live in the uncommitted vector. -/
def operateOnAsset {α : Type} (account : UserAccount) (asset : AssetID)
    (func : RevertableAsset → RevertableAsset × α) : UserAccount × α :=
  let ownedAssetsSize := account.ownedAssets.length
  if asset.toNat < ownedAssetsSize then
    let (value, result) := func (account.ownedAssets.getD asset.toNat default)
    ({ account with ownedAssets := account.ownedAssets.set asset.toNat value }, result)
  else
    let uncommittedAssets := growTo account.uncommittedAssets (asset.toNat - ownedAssetsSize + 1)
    let (value, result) := func (uncommittedAssets.getD (asset.toNat - ownedAssetsSize) default)
    ({ account with uncommittedAssets := uncommittedAssets.set (asset.toNat - ownedAssetsSize) value },
      result)

def transferAvailable (account : UserAccount) (asset : AssetID) (amount : BitVec 64) : UserAccount :=
  (account.operateOnAsset asset (fun a => (a.transferAvailable amount, ()))).1

def escrow (account : UserAccount) (asset : AssetID) (amount : BitVec 64) : UserAccount :=
  (account.operateOnAsset asset (fun a => (a.escrow amount, ()))).1

def conditionalTransferAvailable (account : UserAccount) (asset : AssetID) (amount : BitVec 64) :
    UserAccount × Bool := account.operateOnAsset asset (RevertableAsset.conditionalTransferAvailable amount)

def conditionalEscrow (account : UserAccount) (asset : AssetID) (amount : BitVec 64) :
    UserAccount × Bool := account.operateOnAsset asset (RevertableAsset.conditionalEscrow amount)

/-- Looking up a balance grows the uncommitted assets like every other operation. -/
def lookupAvailableBalance (account : UserAccount) (asset : AssetID) : UserAccount × BitVec 64 :=
  account.operateOnAsset asset (fun a => (a, a.available))

/-- `get_seq_num_offset`, a `uint8_t`. -/
def getSeqNumOffset (sequenceNumber lastCommittedId : BitVec 64) : BitVec 8 :=
  ((sequenceNumber - lastCommittedId) / maxOpsPerTx - 1).setWidth 8

/-- `get_seq_num_increment`: the position of the highest set bit, in sequence numbers. -/
def getSeqNumIncrement (bv : BitVec 64) : BitVec 64 :=
  if bv = 0 then 0 else (64 - bv.clz) * maxOpsPerTx

def reserveSequenceNumber (account : UserAccount) (sequenceNumber : BitVec 64) :
    UserAccount × TransactionProcessingStatus :=
  if sequenceNumber.ule account.lastCommittedId then (account, .seqNumTooLow)
  else
    let offset := getSeqNumOffset sequenceNumber account.lastCommittedId
    if offset.toNat ≥ 64 then (account, .seqNumTooHigh)
    else
      let bitMask := (1 : BitVec 64) <<< offset.toNat
      let reserved := { account with sequenceNumberVec := account.sequenceNumberVec ||| bitMask }
      if account.sequenceNumberVec &&& bitMask ≠ 0 then (reserved, .seqNumTempInUse)
      else (reserved, .success)

def releaseSequenceNumber (account : UserAccount) (sequenceNumber : BitVec 64) : Except String UserAccount :=
  if sequenceNumber.ule account.lastCommittedId then .error "cannot release invalid seq num!"
  else
    let offset := getSeqNumOffset sequenceNumber account.lastCommittedId
    if offset.toNat ≥ 64 then .error "cannot release too far forward seq num!"
    else .ok { account with sequenceNumberVec := account.sequenceNumberVec &&& ~~~((1 : BitVec 64) <<< offset.toNat) }

/-- `commit_sequence_number` does nothing: the bit is set already. -/
def commitSequenceNumber (account : UserAccount) (_ : BitVec 64) : UserAccount := account

def commit (account : UserAccount) : UserAccount :=
  { account with
    ownedAssets := account.ownedAssets.map RevertableAsset.commit ++
      account.uncommittedAssets.map (fun a => ⟨a.available, a.available⟩)
    uncommittedAssets := []
    lastCommittedId := account.lastCommittedId + getSeqNumIncrement account.sequenceNumberVec
    sequenceNumberVec := 0 }

def rollback (account : UserAccount) : UserAccount :=
  { account with
    ownedAssets := account.ownedAssets.map RevertableAsset.rollback
    uncommittedAssets := []
    sequenceNumberVec := 0 }

def inValidState (account : UserAccount) : Bool :=
  account.ownedAssets.all RevertableAsset.inValidState && account.uncommittedAssets.all RevertableAsset.inValidState

/-- The available balance of an asset; an asset the account has no entry for has none. -/
def available (account : UserAccount) (asset : AssetID) : BitVec 64 :=
  ((account.ownedAssets ++ account.uncommittedAssets).getD asset.toNat default).available

end UserAccount

end Speedex
