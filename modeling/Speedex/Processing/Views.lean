import Mathlib.Algebra.Group.Pi.Lemmas
import Mathlib.Tactic.Abel
import Speedex.Processing.Effects

set_option autoImplicit false

/- What the calls of a view do to the balances, counted as words of 64 bits. -/
namespace Speedex

namespace RevertableAsset

variable (asset : RevertableAsset) (amount : BitVec 64)

theorem conditionalTransferAvailable_cases :
    asset.conditionalTransferAvailable amount = (asset.transferAvailable amount, true) ∨
      asset.conditionalTransferAvailable amount = (asset, false) := by
  rw [conditionalTransferAvailable]
  split
  · exact .inr rfl
  · exact .inl rfl

theorem conditionalEscrow_cases :
    asset.conditionalEscrow amount = (asset.transferAvailable (-amount), true) ∨
      asset.conditionalEscrow amount = (asset, false) := by
  rw [conditionalEscrow]
  split
  · exact conditionalTransferAvailable_cases asset (-amount)
  · exact .inl rfl

end RevertableAsset

namespace UserAccount

variable {α β : Type} (account : UserAccount) (asset : AssetID)

/-- An operation that changes no balance may still create the entry. -/
def touch : UserAccount := (account.operateOnAsset asset (fun entry => (entry, ()))).1

/-- What the operations of a transaction leave as it is, except for the sequence numbers. -/
def settled : AccountID × PublicKey × BitVec 64 × (AssetID → BitVec 64) :=
  (account.owner, account.pk, account.lastCommittedId, fun asset => (account.entry asset).committedAvailable)

/-- Only what a function does to the entry of the asset matters. -/
theorem operateOnAsset_congr {func : RevertableAsset → RevertableAsset × α} {func' : RevertableAsset → RevertableAsset × β}
    (same : (func (account.entry asset)).1 = (func' (account.entry asset)).1) :
    (account.operateOnAsset asset func).1 = (account.operateOnAsset asset func').1 := by
  rw [operateOnAsset, operateOnAsset]
  by_cases owned : asset.toNat < account.ownedAssets.length
  · rw [entry, List.getD_append _ _ _ _ owned] at same
    rw [if_pos owned, if_pos owned]
    show ({ account with ownedAssets := _ } : UserAccount) = { account with ownedAssets := _ }
    rw [same]
  · rw [entry, List.getD_append_right _ _ _ _ (Nat.le_of_not_lt owned),
      ← getD_growTo account.uncommittedAssets (asset.toNat - account.ownedAssets.length + 1)] at same
    rw [if_neg owned, if_neg owned]
    show ({ account with uncommittedAssets := _ } : UserAccount) = { account with uncommittedAssets := _ }
    rw [same]

/-- An operation that transfers an amount or refuses. -/
theorem operateOnAsset_cases {func : RevertableAsset → RevertableAsset × Bool} {amount : BitVec 64}
    (cases : func (account.entry asset) = ((account.entry asset).transferAvailable amount, true) ∨
      func (account.entry asset) = (account.entry asset, false)) :
    account.operateOnAsset asset func = (account.transferAvailable asset amount, true) ∨
      account.operateOnAsset asset func = (account.touch asset, false) := by
  rcases cases with done | refused
  · refine .inl (Prod.ext ?_ ?_)
    · exact operateOnAsset_congr account asset (by rw [done])
    · exact (operateOnAsset_result account asset _).trans (by rw [done])
  · refine .inr (Prod.ext ?_ ?_)
    · exact operateOnAsset_congr account asset (by rw [refused])
    · exact (operateOnAsset_result account asset _).trans (by rw [refused])

theorem conditionalTransferAvailable_cases (amount : BitVec 64) :
    account.conditionalTransferAvailable asset amount = (account.transferAvailable asset amount, true) ∨
      account.conditionalTransferAvailable asset amount = (account.touch asset, false) :=
  operateOnAsset_cases account asset ((account.entry asset).conditionalTransferAvailable_cases amount)

theorem conditionalEscrow_cases (amount : BitVec 64) :
    account.conditionalEscrow asset amount = (account.transferAvailable asset (-amount), true) ∨
      account.conditionalEscrow asset amount = (account.touch asset, false) :=
  operateOnAsset_cases account asset ((account.entry asset).conditionalEscrow_cases amount)

/-- To put an amount in escrow is to transfer it away. -/
theorem escrow_eq (amount : BitVec 64) : account.escrow asset amount = account.transferAvailable asset (-amount) := by
  refine operateOnAsset_congr account asset ?_
  show (_ : RevertableAsset) = _
  rw [RevertableAsset.escrow, RevertableAsset.transferAvailable, BitVec.sub_eq_add_neg]

theorem available_touch (other : AssetID) : (account.touch asset).available other = account.available other := by
  rw [touch, available_eq, entry_operateOnAsset]
  split
  · next same => rw [same]; rfl
  · rfl

/-- The fields that no operation on an asset looks at. -/
theorem operateOnAsset_frame (func : RevertableAsset → RevertableAsset × α) :
    (account.operateOnAsset asset func).1.owner = account.owner ∧ (account.operateOnAsset asset func).1.pk = account.pk ∧
      (account.operateOnAsset asset func).1.lastCommittedId = account.lastCommittedId ∧
      (account.operateOnAsset asset func).1.sequenceNumberVec = account.sequenceNumberVec := by
  rw [operateOnAsset]
  by_cases owned : asset.toNat < account.ownedAssets.length
  · rw [if_pos owned]
    exact ⟨rfl, rfl, rfl, rfl⟩
  · rw [if_neg owned]
    exact ⟨rfl, rfl, rfl, rfl⟩

theorem settled_operateOnAsset {func : RevertableAsset → RevertableAsset × α}
    (kept : (func (account.entry asset)).1.committedAvailable = (account.entry asset).committedAvailable) :
    (account.operateOnAsset asset func).1.settled = account.settled := by
  obtain ⟨owner, pk, last, -⟩ := operateOnAsset_frame account asset func
  rw [settled, settled, owner, pk, last]
  refine congrArg (fun committed => (account.owner, account.pk, account.lastCommittedId, committed)) (funext fun other => ?_)
  rw [entry_operateOnAsset]
  by_cases here : other = asset
  · rw [if_pos here, kept, here]
  · rw [if_neg here]

@[simp] theorem settled_transferAvailable (amount : BitVec 64) :
    (account.transferAvailable asset amount).settled = account.settled := settled_operateOnAsset account asset rfl

@[simp] theorem settled_touch : (account.touch asset).settled = account.settled := settled_operateOnAsset account asset rfl

@[simp] theorem sequenceNumberVec_transferAvailable (amount : BitVec 64) :
    (account.transferAvailable asset amount).sequenceNumberVec = account.sequenceNumberVec :=
  (operateOnAsset_frame account asset _).2.2.2

@[simp] theorem sequenceNumberVec_touch : (account.touch asset).sequenceNumberVec = account.sequenceNumberVec :=
  (operateOnAsset_frame account asset _).2.2.2

@[simp] theorem owner_transferAvailable (amount : BitVec 64) :
    (account.transferAvailable asset amount).owner = account.owner := (operateOnAsset_frame account asset _).1

end UserAccount

/-- What a call adds to the balance, as a word. -/
def ViewCall.change : ViewCall → BitVec 64
  | escrow amount => -amount
  | transferAvailable amount => amount

namespace UserAccountView

/-- A call is booked in the buffer, or the account pays what the buffer cannot, or it refuses. -/
theorem run_cases (call : ViewCall) (view : UserAccountView) (main : UserAccount) (asset : AssetID) :
    call.run view main asset =
        (view.setBuffer asset (view.availableBuffer.amount asset + call.change), main, .success) ∨
      call.run view main asset =
        ((view.addSideEffect asset (view.availableBuffer.amount asset + call.change)).setBuffer asset 0,
          main.transferAvailable asset (view.availableBuffer.amount asset + call.change), .success) ∨
      call.run view main asset =
        (view.setBuffer asset (view.availableBuffer.amount asset), main.touch asset, .insufficientBalance) := by
  cases call with
  | escrow amount =>
    simp only [ViewCall.run, ViewCall.change, conditionalEscrow, ← BitVec.sub_eq_add_neg]
    by_cases credit : amount.slt 0 = true
    · rw [if_pos credit]
      exact .inl rfl
    · rw [if_neg credit]
      by_cases short : (view.availableBuffer.amount asset - amount).slt 0 = true
      · rw [if_pos short]
        rcases main.conditionalEscrow_cases asset (-(view.availableBuffer.amount asset - amount)) with paid | refused
        · rw [paid, if_pos rfl, BitVec.neg_neg]
          exact .inr (.inl rfl)
        · rw [refused, if_neg Bool.false_ne_true]
          exact .inr (.inr rfl)
      · rw [if_neg short]
        exact .inl rfl
  | transferAvailable amount =>
    simp only [ViewCall.run, ViewCall.change, transferAvailable]
    by_cases short : (view.availableBuffer.amount asset + amount).slt 0 = true
    · rw [if_pos short]
      rcases main.conditionalTransferAvailable_cases asset (view.availableBuffer.amount asset + amount) with paid | refused
      · rw [paid, if_pos rfl]
        exact .inr (.inl rfl)
      · rw [refused, if_neg Bool.false_ne_true]
        exact .inr (.inr rfl)
    · rw [if_neg short]
      exact .inl rfl

/-- What a call does: the balance and the buffer together get the change, and the side effects stay with the balance. -/
structure Moved (view view' : UserAccountView) (main main' : UserAccount) (asset : AssetID) (change : BitVec 64) : Prop where
  total : ∀ other, main'.available other + view'.availableBuffer.amount other =
    main.available other + view.availableBuffer.amount other + if other = asset then change else 0
  taken : ∀ other, main'.available other - view'.availableSideEffects.amount other =
    main.available other - view.availableSideEffects.amount other
  settled : main'.settled = main.settled
  sequence : main'.sequenceNumberVec = main.sequenceNumberVec

/-- A call moves the whole change or nothing. -/
theorem run_moved {call : ViewCall} {view view' : UserAccountView} {main main' : UserAccount} {asset : AssetID}
    {status : TransactionProcessingStatus} (run : call.run view main asset = (view', main', status)) :
    (status = .success ∧ Moved view view' main main' asset call.change) ∨
      (status = .insufficientBalance ∧ Moved view view' main main' asset 0) := by
  rcases run_cases call view main asset with booked | paid | refused
  · rw [booked] at run
    cases run
    refine .inl ⟨rfl, ⟨fun other => ?_, fun other => rfl, rfl, rfl⟩⟩
    rw [setBuffer, amount_insert]
    split
    · next same => rw [same]; abel
    · rw [add_zero]
  · rw [paid] at run
    cases run
    refine .inl ⟨rfl, ⟨fun other => ?_, fun other => ?_, main.settled_transferAvailable _ _,
      main.sequenceNumberVec_transferAvailable _ _⟩⟩
    · rw [setBuffer, addSideEffect, amount_insert, UserAccount.available_transferAvailable]
      split
      · next same => rw [same]; abel
      · rw [add_zero]
    · rw [setBuffer, addSideEffect, amount_insert, UserAccount.available_transferAvailable]
      split
      · next same => rw [same]; abel
      · rfl
  · rw [refused] at run
    cases run
    refine .inr ⟨rfl, ⟨fun other => ?_, fun other => ?_, main.settled_touch _, main.sequenceNumberVec_touch _⟩⟩
    · rw [setBuffer, amount_insert, UserAccount.available_touch, ite_self, add_zero]
      split
      · next same => rw [same]
      · rfl
    · rw [UserAccount.available_touch]
      rfl

end UserAccountView

/-- Two databases that differ in available balances only. -/
structure OnlyBalances (db db' : MemoryDatabase) : Prop where
  frame : db' = { db with database := db'.database }
  settled : db'.database.map UserAccount.settled = db.database.map UserAccount.settled
  sequence : db'.database.map UserAccount.sequenceNumberVec = db.database.map UserAccount.sequenceNumberVec

/-- A change of the balances, together with what a view holds back. -/
structure Transferred (db : MemoryDatabase) (pending : Nat → AssetID → BitVec 64) (db' : MemoryDatabase)
    (pending' change : Nat → AssetID → BitVec 64) : Prop where
  only : OnlyBalances db db'
  total : db'.available + pending' = db.available + pending + change

section Databases

variable {db db' db'' : MemoryDatabase} {idx : Nat} {account account' : UserAccount} {asset : AssetID}

theorem OnlyBalances.refl (db : MemoryDatabase) : OnlyBalances db db := ⟨rfl, rfl, rfl⟩

theorem OnlyBalances.trans (only : OnlyBalances db db') (only' : OnlyBalances db' db'') : OnlyBalances db db'' := by
  refine ⟨?_, only'.settled.trans only.settled, only'.sequence.trans only.sequence⟩
  rw [only'.frame, only.frame]

theorem OnlyBalances.length (only : OnlyBalances db db') : db'.database.length = db.database.length := by
  rw [← List.length_map UserAccount.settled, only.settled, List.length_map]

theorem map_set_same {α β : Type} (f : α → β) {l : List α} {i : Nat} {a a' : α} (here : l[i]? = some a) (same : f a' = f a) :
    (l.set i a').map f = l.map f := by
  refine List.ext_getElem? (fun j => ?_)
  rw [List.getElem?_map, List.getElem?_map, List.getElem?_set]
  by_cases at_i : i = j
  · rw [if_pos at_i, if_pos (List.getElem?_eq_some_iff.mp here).1, ← at_i, here, Option.map_some, Option.map_some, same]
  · rw [if_neg at_i]

theorem onlyBalances_setAccount (here : db.database[idx]? = some account) (settled : account'.settled = account.settled)
    (sequence : account'.sequenceNumberVec = account.sequenceNumberVec) : OnlyBalances db (db.setAccount idx account') :=
  ⟨rfl, map_set_same _ here settled, map_set_same _ here sequence⟩

theorem available_of (here : db.database[idx]? = some account) : db.available idx asset = account.available asset := by
  rw [MemoryDatabase.available, here]

theorem available_setAccount (here : db.database[idx]? = some account) (other : Nat) : (db.setAccount idx account').available
    other asset = if other = idx then account'.available asset else db.available other asset := by
  have inside := (List.getElem?_eq_some_iff.mp here).1
  rw [MemoryDatabase.available, MemoryDatabase.available, MemoryDatabase.setAccount, List.getElem?_set]
  by_cases same : other = idx
  · rw [if_pos same.symm, if_pos inside, if_pos same]
  · rw [if_neg (Ne.symm same), if_neg same]

theorem findAccount_eq_ok : db.findAccount idx = .ok account ↔ db.database[idx]? = some account := by
  rw [MemoryDatabase.findAccount]
  cases found : db.database[idx]? <;> simp

@[simp] theorem credit_apply (idx other : Nat) (asset other' : AssetID) (amount : BitVec 64) :
    credit idx asset amount other other' = if other = idx ∧ other' = asset then amount else 0 := by
  rw [credit]
  by_cases here : other = idx
  · rw [here, Pi.single_eq_same]
    by_cases same : other' = asset
    · rw [same, Pi.single_eq_same, if_pos ⟨rfl, rfl⟩]
    · rw [Pi.single_eq_of_ne same, if_neg (fun both => same both.2)]
  · rw [Pi.single_eq_of_ne here, if_neg (fun both => here both.1)]
    rfl

/-- A payment straight to the database. -/
theorem transferred_transferAvailable {amount : BitVec 64} (done : db.transferAvailable idx asset amount = .ok db') :
    Transferred db 0 db' 0 (credit idx asset amount) := by
  obtain ⟨account, found, made⟩ := Fallible.bind_eq_ok.mp done
  have here := findAccount_eq_ok.mp found
  cases made
  refine ⟨onlyBalances_setAccount here (account.settled_transferAvailable _ _)
    (account.sequenceNumberVec_transferAvailable _ _), ?_⟩
  funext other other'
  rw [add_zero, add_zero, Pi.add_apply, Pi.add_apply, credit_apply, available_setAccount here]
  by_cases same : other = idx
  · rw [if_pos same, UserAccount.available_transferAvailable, same, available_of here]
    by_cases same' : other' = asset
    · rw [if_pos same', if_pos ⟨rfl, same'⟩, same']
    · rw [if_neg same', if_neg (fun both => same' both.2), add_zero]
  · rw [if_neg same, if_neg (fun both => same both.1), add_zero]

theorem escrow_eq_transferAvailable (db : MemoryDatabase) (idx : Nat) (asset : AssetID) (amount : BitVec 64) :
    db.escrow idx asset amount = db.transferAvailable idx asset (-amount) := by
  rw [MemoryDatabase.escrow, MemoryDatabase.transferAvailable]
  refine congrArg (Except.bind (db.findAccount idx)) (funext fun account => ?_)
  rw [UserAccount.escrow_eq]

end Databases

/-- A view with what it holds back. A call that succeeds changes what the database and the view hold together, or, of a
new account, the view alone. -/
class LawfulView (V : Type) extends DatabaseView V where
  pending : V → Nat → AssetID → BitVec 64
  creation_new (db : MemoryDatabase) : creation (new db) = .new db
  pending_new (db : MemoryDatabase) : pending (new db) = 0
  creation_setCreation (view : V) (c : AccountCreationView) : creation (setCreation view c) = c
  pending_setCreation (view : V) (c : AccountCreationView) : pending (setCreation view c) = pending view
  transferAvailable_existing {db db' : MemoryDatabase} {view view' : V} {idx : Nat} {asset : AssetID} {amount : BitVec 64}
    (existing : idx < (creation view).dbSize)
    (done : transferAvailable db view idx asset amount = .ok (db', view', .success)) :
    Transferred db (pending view) db' (pending view') (credit idx asset amount) ∧ creation view' = creation view
  escrow_existing {db db' : MemoryDatabase} {view view' : V} {idx : Nat} {asset : AssetID} {amount : BitVec 64}
    (existing : idx < (creation view).dbSize) (done : escrow db view idx asset amount = .ok (db', view', .success)) :
    Transferred db (pending view) db' (pending view') (credit idx asset (-amount)) ∧ creation view' = creation view
  transferAvailable_new {db db' : MemoryDatabase} {view view' : V} {idx : Nat} {asset : AssetID} {amount : BitVec 64}
    (new : (creation view).dbSize ≤ idx)
    (done : transferAvailable db view idx asset amount = .ok (db', view', .success)) :
    db' = db ∧ pending view' = pending view ∧ ∃ data, (creation view).findNewAccount idx = .ok data ∧
      creation view' = (creation view).setNewAccount idx (data.transferAvailable asset amount)

instance : LawfulView UnbufferedMemoryDatabaseView where
  pending _ := 0
  creation_new _ := rfl
  pending_new _ := rfl
  creation_setCreation _ _ := rfl
  pending_setCreation _ _ := rfl
  transferAvailable_existing {db db' view view' idx asset amount} existing done := by
    change idx < view.creation.dbSize at existing
    change UnbufferedMemoryDatabaseView.transferAvailable db view idx asset amount = _ at done
    rw [UnbufferedMemoryDatabaseView.transferAvailable, if_pos existing] at done
    obtain ⟨db₁, paid, made⟩ := Fallible.bind_eq_ok.mp done
    cases made
    exact ⟨transferred_transferAvailable paid, rfl⟩
  escrow_existing {db db' view view' idx asset amount} existing done := by
    change idx < view.creation.dbSize at existing
    change UnbufferedMemoryDatabaseView.escrow db view idx asset amount = _ at done
    rw [UnbufferedMemoryDatabaseView.escrow, if_pos existing, escrow_eq_transferAvailable] at done
    obtain ⟨db₁, paid, made⟩ := Fallible.bind_eq_ok.mp done
    cases made
    exact ⟨transferred_transferAvailable paid, rfl⟩
  transferAvailable_new {db db' view view' idx asset amount} new done := by
    change view.creation.dbSize ≤ idx at new
    change UnbufferedMemoryDatabaseView.transferAvailable db view idx asset amount = _ at done
    rw [UnbufferedMemoryDatabaseView.transferAvailable, if_neg (Nat.not_lt.mpr new)] at done
    obtain ⟨data, found, made⟩ := Fallible.bind_eq_ok.mp done
    cases made
    exact ⟨rfl, rfl, data, found, rfl⟩

namespace BufferedMemoryDatabaseView

variable {db db' : MemoryDatabase} {view view' : BufferedMemoryDatabaseView} {idx : Nat} {asset : AssetID}
  {status : TransactionProcessingStatus}

/-- The view of an account; one that is not there has empty maps. -/
def viewOf (view : BufferedMemoryDatabaseView) (idx : Nat) : UserAccountView := (view.accounts.lookup idx).getD .new

def pending (view : BufferedMemoryDatabaseView) (idx : Nat) (asset : AssetID) : BitVec 64 :=
  (view.viewOf idx).availableBuffer.amount asset

/-- What the view has taken out of the accounts. -/
def sideEffects (view : BufferedMemoryDatabaseView) (idx : Nat) (asset : AssetID) : BitVec 64 :=
  (view.viewOf idx).availableSideEffects.amount asset

theorem viewOf_insert (accountView : UserAccountView) (other : Nat) :
    viewOf { view with accounts := view.accounts.insert idx accountView } other =
      if other = idx then accountView else view.viewOf other := by
  rw [viewOf, viewOf]
  by_cases here : other = idx
  · rw [if_pos here, here, AList.lookup_insert, Option.getD_some]
  · rw [if_neg here, AList.lookup_insert_ne here]

/-- To get the view of an account does not change what the views hold. -/
theorem getExistingAccount_spec {accountView : UserAccountView}
    (got : view.getExistingAccount db idx = .ok (view', accountView)) :
    view'.creation = view.creation ∧ accountView = view.viewOf idx ∧ ∀ other, view'.viewOf other = view.viewOf other := by
  rw [getExistingAccount] at got
  cases present : view.accounts.lookup idx with
  | some v =>
    rw [present] at got
    cases got
    exact ⟨rfl, by rw [viewOf, present, Option.getD_some], fun other => rfl⟩
  | none =>
    rw [present] at got
    obtain ⟨account, -, made⟩ := Fallible.bind_eq_ok.mp got
    cases made
    have new : view.viewOf idx = .new := by rw [viewOf, present, Option.getD_none]
    refine ⟨rfl, new.symm, fun other => ?_⟩
    rw [viewOf_insert]
    split
    · next same => rw [same, new]
    · rfl

/-- What a call through the view of an existing account does. -/
structure Called (view view' : BufferedMemoryDatabaseView) (db db' : MemoryDatabase) (change : Nat → AssetID → BitVec 64) :
    Prop where
  creation : view'.creation = view.creation
  transferred : Transferred db view.pending db' view'.pending change
  taken : db'.available - view'.sideEffects = db.available - view.sideEffects

theorem called_of_moved {view₁ : BufferedMemoryDatabaseView} {v : UserAccountView} {main main' : UserAccount}
    {change : BitVec 64} (creation : view₁.creation = view.creation) (others : ∀ other, view₁.viewOf other = view.viewOf other)
    (here : db.database[idx]? = some main) (moved : (view.viewOf idx).Moved v main main' asset change) :
    Called view { view₁ with accounts := view₁.accounts.insert idx v } db (db.setAccount idx main') (credit idx asset change) where
  creation := creation
  transferred := by
    refine ⟨onlyBalances_setAccount here moved.settled moved.sequence, funext fun other => funext fun other' => ?_⟩
    rw [Pi.add_apply, Pi.add_apply, Pi.add_apply, Pi.add_apply, Pi.add_apply, Pi.add_apply, credit_apply, pending, pending,
      viewOf_insert, available_setAccount here, others]
    by_cases same : other = idx
    · rw [if_pos same, if_pos same, same, moved.total, available_of here]
      by_cases same' : other' = asset
      · rw [if_pos same', if_pos ⟨rfl, same'⟩]
      · rw [if_neg same', if_neg (fun both => same' both.2)]
    · rw [if_neg same, if_neg same, if_neg (fun both => same both.1), add_zero]
  taken := by
    funext other other'
    rw [Pi.sub_apply, Pi.sub_apply, Pi.sub_apply, Pi.sub_apply, sideEffects, sideEffects, viewOf_insert,
      available_setAccount here, others]
    by_cases same : other = idx
    · rw [if_pos same, if_pos same, same, moved.taken, available_of here]
    · rw [if_neg same, if_neg same]

@[simp] theorem credit_zero (idx : Nat) (asset : AssetID) : credit idx asset 0 = 0 := by
  rw [credit, Pi.single_zero, Pi.single_zero]

/-- A call through the view of an existing account moves the whole change or nothing. -/
theorem callExistingAccount_spec (call : ViewCall)
    (done : view.callExistingAccount db idx (fun accountView main => call.run accountView main asset) =
      .ok (db', view', status)) :
    (status = .success ∧ Called view view' db db' (credit idx asset call.change)) ∨
      (status = .insufficientBalance ∧ Called view view' db db' 0) := by
  obtain ⟨⟨view₁, accountView⟩, got, done⟩ := Fallible.bind_eq_ok.mp done
  obtain ⟨main, found, done⟩ := Fallible.bind_eq_ok.mp done
  obtain ⟨creation, rfl, others⟩ := getExistingAccount_spec got
  have here := findAccount_eq_ok.mp found
  rcases ran : call.run (view.viewOf idx) main asset with ⟨v, main', status'⟩
  simp only [ran] at done
  cases done
  rcases UserAccountView.run_moved ran with ⟨success, moved⟩ | ⟨refused, moved⟩
  · exact .inl ⟨success, called_of_moved creation others here moved⟩
  · have called := called_of_moved creation others here moved
    rw [credit_zero] at called
    exact .inr ⟨refused, called⟩

theorem transferAvailable_called {amount : BitVec 64} (existing : idx < view.creation.dbSize)
    (done : view.transferAvailable db idx asset amount = .ok (db', view', status)) :
    (status = .success ∧ Called view view' db db' (credit idx asset amount)) ∨
      (status = .insufficientBalance ∧ Called view view' db db' 0) := by
  rw [transferAvailable, if_neg (Nat.not_le.mpr existing)] at done
  exact callExistingAccount_spec (.transferAvailable amount) done

theorem escrow_called {amount : BitVec 64} (existing : idx < view.creation.dbSize)
    (done : view.escrow db idx asset amount = .ok (db', view', status)) :
    (status = .success ∧ Called view view' db db' (credit idx asset (-amount))) ∨
      (status = .insufficientBalance ∧ Called view view' db db' 0) := by
  rw [escrow, if_neg (Nat.not_le.mpr existing)] at done
  exact callExistingAccount_spec (.escrow amount) done

/-- A new account pays or the call throws. -/
theorem transferAvailable_new {amount : BitVec 64} (new : view.creation.dbSize ≤ idx)
    (done : view.transferAvailable db idx asset amount = .ok (db', view', status)) :
    status = .success ∧ db' = db ∧ ∃ data, view.creation.findNewAccount idx = .ok data ∧
      view' = { view with creation := view.creation.setNewAccount idx (data.transferAvailable asset amount) } := by
  rw [transferAvailable, if_pos new] at done
  obtain ⟨data, found, done⟩ := Fallible.bind_eq_ok.mp done
  rcases data.conditionalTransferAvailable_cases asset amount with paid | refused
  · rw [paid] at done
    cases done
    exact ⟨rfl, rfl, data, found, rfl⟩
  · rw [refused] at done
    cases done

instance : LawfulView BufferedMemoryDatabaseView where
  pending := pending
  creation_new _ := rfl
  pending_new _ := rfl
  creation_setCreation _ _ := rfl
  pending_setCreation _ _ := rfl
  transferAvailable_existing {db db' view view' idx asset amount} existing done := by
    rcases transferAvailable_called existing done with ⟨-, called⟩ | ⟨absurd, -⟩
    · exact ⟨called.transferred, called.creation⟩
    · cases absurd
  escrow_existing {db db' view view' idx asset amount} existing done := by
    rcases escrow_called existing done with ⟨-, called⟩ | ⟨absurd, -⟩
    · exact ⟨called.transferred, called.creation⟩
    · cases absurd
  transferAvailable_new {db db' view view' idx asset amount} new done := by
    obtain ⟨-, same, data, found, rfl⟩ := BufferedMemoryDatabaseView.transferAvailable_new new done
    exact ⟨same, rfl, data, found, rfl⟩

end BufferedMemoryDatabaseView

end Speedex
