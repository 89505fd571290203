import Speedex.Ledger.AccountView
import Speedex.Ledger.CreationView

set_option autoImplicit false

/- `memory_database_view.cc` and `operation_metadata.h`: the view of the database in which a transaction is worked off. -/
namespace Speedex

/-- An update through a reference to an account of the database. -/
def MemoryDatabase.updateAccount (db : MemoryDatabase) (userIndex : Nat) (func : UserAccount → UserAccount) : MemoryDatabase :=
  { db with database := db.database.modify userIndex func }

namespace AccountCreationView

/-- `lookup_user_id` asks the database first. -/
def lookupUserId (mainDb : MemoryDatabase) (view : AccountCreationView) (account : AccountID) : Option Nat :=
  (mainDb.lookupUserId account).or (view.temporaryIdxs.lookup account)

/-- The index that `create_new_account` hands out. -/
def newIdx (view : AccountCreationView) : Nat := view.temporaryIdxs.length + view.dbSize

/-- `new_accounts.find(account)->second.second`, which is undefined for an account that is not there. -/
def findNewAccount (view : AccountCreationView) (account : Nat) : Except String UserAccount :=
  match view.newAccounts.lookup account with
  | some row => .ok row.2
  | none => .error "new_accounts.end() dereferenced"

/-- An update through that reference. -/
def setNewAccount (view : AccountCreationView) (account : Nat) (data : UserAccount) : AccountCreationView :=
  { view with newAccounts := view.newAccounts.map (fun row => if row.1 = account then (row.1, row.2.1, data) else row) }

end AccountCreationView

namespace UserAccountView

/-- The iteration meets the entries of a map in any order, which makes no difference to the sums. -/
def commit (view : UserAccountView) (main : UserAccount) : UserAccount :=
  view.availableBuffer.entries.foldl (fun main entry => main.transferAvailable entry.1 entry.2) main

def unwind (view : UserAccountView) (main : UserAccount) : UserAccount :=
  view.availableSideEffects.entries.foldl (fun main entry => main.transferAvailable entry.1 (-entry.2)) main

end UserAccountView

/-- What the handlers of operations need of a view. -/
class DatabaseView (V : Type) where
  new : MemoryDatabase → V
  creation : V → AccountCreationView
  setCreation : V → AccountCreationView → V
  escrow : MemoryDatabase → V → Nat → AssetID → BitVec 64 →
    Except String (MemoryDatabase × V × TransactionProcessingStatus)
  transferAvailable : MemoryDatabase → V → Nat → AssetID → BitVec 64 →
    Except String (MemoryDatabase × V × TransactionProcessingStatus)

structure UnbufferedMemoryDatabaseView where
  creation : AccountCreationView

namespace UnbufferedMemoryDatabaseView

def escrow (mainDb : MemoryDatabase) (view : UnbufferedMemoryDatabaseView) (account : Nat) (asset : AssetID)
    (amount : BitVec 64) : Except String (MemoryDatabase × UnbufferedMemoryDatabaseView × TransactionProcessingStatus) :=
  if account < view.creation.dbSize then do
    let mainDb ← mainDb.escrow account asset amount
    .ok (mainDb, view, .success)
  else do
    let data ← view.creation.findNewAccount account
    .ok (mainDb, ⟨view.creation.setNewAccount account (data.escrow asset amount)⟩, .success)

def transferAvailable (mainDb : MemoryDatabase) (view : UnbufferedMemoryDatabaseView) (account : Nat) (asset : AssetID)
    (amount : BitVec 64) : Except String (MemoryDatabase × UnbufferedMemoryDatabaseView × TransactionProcessingStatus) :=
  if account < view.creation.dbSize then do
    let mainDb ← mainDb.transferAvailable account asset amount
    .ok (mainDb, view, .success)
  else do
    let data ← view.creation.findNewAccount account
    .ok (mainDb, ⟨view.creation.setNewAccount account (data.transferAvailable asset amount)⟩, .success)

instance : DatabaseView UnbufferedMemoryDatabaseView where
  new mainDb := ⟨.new mainDb⟩
  creation := creation
  setCreation _ creation := ⟨creation⟩
  escrow := escrow
  transferAvailable := transferAvailable

end UnbufferedMemoryDatabaseView

structure BufferedMemoryDatabaseView where
  creation : AccountCreationView
  accounts : AList (fun _ : Nat => UserAccountView)

namespace BufferedMemoryDatabaseView

/-- `get_existing_account`: an account without a view gets one. -/
def getExistingAccount (mainDb : MemoryDatabase) (view : BufferedMemoryDatabaseView) (account : Nat) :
    Except String (BufferedMemoryDatabaseView × UserAccountView) :=
  match view.accounts.lookup account with
  | some accountView => .ok (view, accountView)
  | none => do
    let _ ← mainDb.findAccount account
    .ok ({ view with accounts := view.accounts.insert account .new }, .new)

/-- A call through the view of an account of the database. -/
def callExistingAccount (mainDb : MemoryDatabase) (view : BufferedMemoryDatabaseView) (account : Nat)
    (call : UserAccountView → UserAccount → UserAccountView × UserAccount × TransactionProcessingStatus) :
    Except String (MemoryDatabase × BufferedMemoryDatabaseView × TransactionProcessingStatus) := do
  let (view, accountView) ← view.getExistingAccount mainDb account
  let main ← mainDb.findAccount account
  let (accountView, main, status) := call accountView main
  .ok (mainDb.setAccount account main, { view with accounts := view.accounts.insert account accountView }, status)

def escrow (mainDb : MemoryDatabase) (view : BufferedMemoryDatabaseView) (account : Nat) (asset : AssetID)
    (amount : BitVec 64) : Except String (MemoryDatabase × BufferedMemoryDatabaseView × TransactionProcessingStatus) :=
  if view.creation.dbSize ≤ account then do
    let data ← view.creation.findNewAccount account
    let (data, status) := data.conditionalEscrow asset amount
    .ok (mainDb, { view with creation := view.creation.setNewAccount account data },
      if status then .success else .insufficientBalance)
  else view.callExistingAccount mainDb account (fun accountView main => accountView.conditionalEscrow main asset amount)

def transferAvailable (mainDb : MemoryDatabase) (view : BufferedMemoryDatabaseView) (account : Nat) (asset : AssetID)
    (amount : BitVec 64) : Except String (MemoryDatabase × BufferedMemoryDatabaseView × TransactionProcessingStatus) :=
  if view.creation.dbSize ≤ account then do
    let data ← view.creation.findNewAccount account
    let (data, status) := data.conditionalTransferAvailable asset amount
    if status then .ok (mainDb, { view with creation := view.creation.setNewAccount account data }, .success)
    else .error "we passed an index out of db view that doesn't actually exist! error in memory_database_view.cc"
  else view.callExistingAccount mainDb account (fun accountView main => accountView.transferAvailable main asset amount)

instance : DatabaseView BufferedMemoryDatabaseView where
  new mainDb := ⟨.new mainDb, ∅⟩
  creation := creation
  setCreation view creation := { view with creation := creation }
  escrow := escrow
  transferAvailable := transferAvailable

/-- `commit`, for an order in which the iteration meets the new accounts. -/
def commit (mainDb : MemoryDatabase) (view : BufferedMemoryDatabaseView) (order : List (Nat × AccountID × UserAccount)) :
    MemoryDatabase :=
  AccountCreationView.commit
    (view.accounts.entries.foldl (fun db entry => db.updateAccount entry.1 entry.2.commit) mainDb) order

def unwind (mainDb : MemoryDatabase) (view : BufferedMemoryDatabaseView) : MemoryDatabase :=
  view.creation.unwind
    (view.accounts.entries.foldl (fun db entry => db.updateAccount entry.1 entry.2.unwind) mainDb)

end BufferedMemoryDatabaseView

end Speedex
