import Speedex.Ledger.Database

set_option autoImplicit false

/- `AccountCreationView`: the accounts that a transaction creates, before it is committed or unwound. -/
namespace Speedex

/-- Both maps of the source list their entries here; an iteration may meet them in any order. -/
structure AccountCreationView where
  dbSize : Nat
  newAccounts : List (Nat × AccountID × UserAccount)
  temporaryIdxs : List (AccountID × Nat)

/-- `emplace` keeps an entry that is there already. -/
def emplace {K V : Type} [DecidableEq K] (entries : List (K × V)) (key : K) (value : V) : List (K × V) :=
  if key ∈ entries.map Prod.fst then entries else entries ++ [(key, value)]

namespace AccountCreationView

/-- The constructor takes the size of the database. -/
def new (mainDb : MemoryDatabase) : AccountCreationView := ⟨mainDb.size, [], []⟩

/-- The accounts that the view creates. -/
def owners (view : AccountCreationView) : List AccountID := view.newAccounts.map (fun row => row.2.1)

def createNewAccount (mainDb : MemoryDatabase) (view : AccountCreationView) (account : AccountID) (pk : PublicKey) :
    MemoryDatabase × AccountCreationView × TransactionProcessingStatus :=
  let reserved := mainDb.reserveAccountCreation account
  if reserved.2 ≠ .success then (reserved.1, view, reserved.2)
  else
    let newIdx := view.temporaryIdxs.length + view.dbSize
    (reserved.1,
      { view with
        temporaryIdxs := emplace view.temporaryIdxs account newIdx
        newAccounts := emplace view.newAccounts newIdx (account, UserAccount.new account pk) },
      .success)

/-- `commit`, for an order in which the iteration meets the new accounts. -/
def commit (mainDb : MemoryDatabase) (order : List (Nat × AccountID × UserAccount)) : MemoryDatabase :=
  order.foldl (fun db row => db.commitAccountCreation row.2.1 row.2.2) mainDb

/-- The end of `unwind`. The loop passes the key of the map, that is the temporary index, as the account
to release. -/
def unwind (mainDb : MemoryDatabase) (view : AccountCreationView) : MemoryDatabase :=
  view.newAccounts.foldl (fun db row => db.releaseAccountCreation (BitVec.ofNat 64 row.1)) mainDb

end AccountCreationView

end Speedex
