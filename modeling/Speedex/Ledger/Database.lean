import Mathlib.Logic.Function.Basic
import Speedex.Ledger.Account

set_option autoImplicit false

/- `MemoryDatabase`: the accounts of the committed state, and those that the current block creates. -/
namespace Speedex

structure AccountCreationThunk where
  currentBlockNumber : BitVec 64
  numAccountsCreated : Nat
deriving DecidableEq, Repr

/-- The maps and the set of the source are functions here; an absent key maps to `none`. -/
structure MemoryDatabase where
  userIdToIdxMap : AccountID → Option Nat
  uncommittedIdxMap : AccountID → Option Nat
  reservedAccountIds : AccountID → Bool
  database : List UserAccount
  uncommittedDb : List UserAccount
  accountCreationThunks : List AccountCreationThunk
  persistedRoundNumber : BitVec 64

/-- `MemoryDatabase::NATIVE_ASSET`. -/
def nativeAsset : AssetID := 0

namespace MemoryDatabase

def size (db : MemoryDatabase) : Nat := db.database.length

def findAccount (db : MemoryDatabase) (userIndex : Nat) : Except String UserAccount :=
  match db.database[userIndex]? with
  | some account => .ok account
  | none => .error "invalid db idx access"

/-- Replace the account at an index, as an update through the reference of `find_account` does. -/
def setAccount (db : MemoryDatabase) (userIndex : Nat) (account : UserAccount) : MemoryDatabase :=
  { db with database := db.database.set userIndex account }

def transferAvailable (db : MemoryDatabase) (userIndex : Nat) (assetType : AssetID) (change : BitVec 64) :
    Except String MemoryDatabase := do
  let account ← db.findAccount userIndex
  .ok (db.setAccount userIndex (account.transferAvailable assetType change))

def escrow (db : MemoryDatabase) (userIndex : Nat) (assetType : AssetID) (change : BitVec 64) :
    Except String MemoryDatabase := do
  let account ← db.findAccount userIndex
  .ok (db.setAccount userIndex (account.escrow assetType change))

def conditionalTransferAvailable (db : MemoryDatabase) (userIndex : Nat) (assetType : AssetID)
    (change : BitVec 64) : Except String (MemoryDatabase × Bool) := do
  let account ← db.findAccount userIndex
  let (account, done) := account.conditionalTransferAvailable assetType change
  .ok (db.setAccount userIndex account, done)

def conditionalEscrow (db : MemoryDatabase) (userIndex : Nat) (assetType : AssetID)
    (change : BitVec 64) : Except String (MemoryDatabase × Bool) := do
  let account ← db.findAccount userIndex
  let (account, done) := account.conditionalEscrow assetType change
  .ok (db.setAccount userIndex account, done)

def reserveSequenceNumber (db : MemoryDatabase) (userIndex : Nat) (sequenceNumber : BitVec 64) :
    Except String (MemoryDatabase × TransactionProcessingStatus) := do
  let account ← db.findAccount userIndex
  let (account, status) := account.reserveSequenceNumber sequenceNumber
  .ok (db.setAccount userIndex account, status)

def releaseSequenceNumber (db : MemoryDatabase) (userIndex : Nat) (sequenceNumber : BitVec 64) :
    Except String MemoryDatabase := do
  let account ← db.findAccount userIndex
  let account ← account.releaseSequenceNumber sequenceNumber
  .ok (db.setAccount userIndex account)

def commitSequenceNumber (db : MemoryDatabase) (userIndex : Nat) (sequenceNumber : BitVec 64) :
    Except String MemoryDatabase := do
  let account ← db.findAccount userIndex
  .ok (db.setAccount userIndex (account.commitSequenceNumber sequenceNumber))

/-- `lookup_user_id` only knows committed accounts. -/
def lookupUserId (db : MemoryDatabase) (account : AccountID) : Option Nat := db.userIdToIdxMap account

/-- `get_pk_nolock`, also of committed accounts only. -/
def getPkNolock (db : MemoryDatabase) (account : AccountID) : Option PublicKey :=
  (db.userIdToIdxMap account).bind (fun idx => db.database[idx]?.map UserAccount.pk)

/-- `add_account_to_db`: the new account joins the uncommitted ones. -/
def addAccountToDb (db : MemoryDatabase) (userId : AccountID) (pk : PublicKey) : MemoryDatabase × Nat :=
  match db.userIdToIdxMap userId, db.uncommittedIdxMap userId with
  | some idx, _ => (db, idx)
  | none, some idx => (db, idx)
  | none, none =>
    let idx := db.database.length + db.uncommittedDb.length
    ({ db with
      uncommittedIdxMap := Function.update db.uncommittedIdxMap userId (some idx)
      uncommittedDb := db.uncommittedDb ++ [UserAccount.new userId pk] }, idx)

def reserveAccountCreation (db : MemoryDatabase) (account : AccountID) :
    MemoryDatabase × TransactionProcessingStatus :=
  if (db.userIdToIdxMap account).isSome then (db, .newAccountAlreadyExists)
  else if db.reservedAccountIds account then (db, .newAccountTempReserved)
  else ({ db with reservedAccountIds := Function.update db.reservedAccountIds account true }, .success)

def releaseAccountCreation (db : MemoryDatabase) (account : AccountID) : MemoryDatabase :=
  { db with reservedAccountIds := Function.update db.reservedAccountIds account false }

/-- `commit_account_creation`; `emplace` keeps an entry that is there already. -/
def commitAccountCreation (db : MemoryDatabase) (accountId : AccountID) (accountData : UserAccount) :
    MemoryDatabase :=
  let newIdx := db.uncommittedDb.length + db.database.length
  { db with
    uncommittedIdxMap := if (db.uncommittedIdxMap accountId).isSome then db.uncommittedIdxMap
      else Function.update db.uncommittedIdxMap accountId (some newIdx)
    uncommittedDb := db.uncommittedDb ++ [accountData] }

def clearInternalDataStructures (db : MemoryDatabase) : MemoryDatabase :=
  { db with uncommittedDb := [], uncommittedIdxMap := fun _ => none, reservedAccountIds := fun _ => false }

def commitNewAccounts (db : MemoryDatabase) (currentBlockNumber : BitVec 64) : Except String MemoryDatabase :=
  let expected := match db.accountCreationThunks.getLast? with
    | none => db.persistedRoundNumber + 1
    | some thunk => thunk.currentBlockNumber + 1
  if expected ≠ currentBlockNumber ∧ ¬(currentBlockNumber = 0 ∧ db.persistedRoundNumber = 0) then
    .error "account creation thunks block number error"
  else
    let committed := { db with
      database := db.database ++ db.uncommittedDb.map UserAccount.commit
      userIdToIdxMap := fun account => (db.userIdToIdxMap account).or (db.uncommittedIdxMap account)
      accountCreationThunks := db.accountCreationThunks ++
        [AccountCreationThunk.mk currentBlockNumber db.uncommittedDb.length] }
    .ok committed.clearInternalDataStructures

def commitValues (db : MemoryDatabase) : MemoryDatabase :=
  { db with database := db.database.map UserAccount.commit }

def rollbackValues (db : MemoryDatabase) : MemoryDatabase :=
  { db with database := db.database.map UserAccount.rollback }

/-- One thunk of `rollback_new_accounts_`: the accounts it created are the last ones. -/
def rollbackThunk (db : MemoryDatabase) (thunk : AccountCreationThunk) : MemoryDatabase :=
  let kept := db.database.length - thunk.numAccountsCreated
  { db with
    userIdToIdxMap := (db.database.drop kept).foldl
      (fun map account => Function.update map account.owner none) db.userIdToIdxMap
    database := db.database.take kept }

/-- `rollback_new_accounts`: only the thunks of later blocks are undone. -/
def rollbackNewAccounts (db : MemoryDatabase) (currentBlockNumber : BitVec 64) : MemoryDatabase :=
  let undone := db.accountCreationThunks.filter (fun thunk => currentBlockNumber.ult thunk.currentBlockNumber)
  let rolledBack := undone.foldl rollbackThunk db
  { rolledBack.clearInternalDataStructures with
    accountCreationThunks := db.accountCreationThunks.filter
      (fun thunk => !currentBlockNumber.ult thunk.currentBlockNumber) }

/-- The available balance of the account at an index. -/
def available (db : MemoryDatabase) (userIndex : Nat) (asset : AssetID) : BitVec 64 :=
  match db.database[userIndex]? with
  | some account => account.available asset
  | none => 0

end MemoryDatabase

end Speedex
