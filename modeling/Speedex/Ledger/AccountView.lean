import Mathlib.Data.List.AList
import Mathlib.Data.List.GetD
import Mathlib.Algebra.BigOperators.Group.List.Basic
import Speedex.Library.Machine
import Speedex.Ledger.Account

set_option autoImplicit false

/- `memory_database_view.cc`: a view of an account collects the payments to it in a buffer, takes payments from it out of
the buffer first, and what the buffer cannot pay out of the account at once. -/
namespace Speedex

open Machine

/-- The maps of a view, `unordered_map<AssetID, int64_t>`. -/
abbrev AssetAmounts := AList (fun _ : AssetID => BitVec 64)

/-- The value of `operator[]`. -/
def AssetAmounts.amount (amounts : AssetAmounts) (asset : AssetID) : BitVec 64 := (amounts.lookup asset).getD 0

structure UserAccountView where
  availableBuffer : AssetAmounts
  availableSideEffects : AssetAmounts

namespace UserAccountView

/-- The constructor. -/
def new : UserAccountView := ⟨∅, ∅⟩

def setBuffer (view : UserAccountView) (asset : AssetID) (amount : BitVec 64) : UserAccountView :=
  { view with availableBuffer := view.availableBuffer.insert asset amount }

def addSideEffect (view : UserAccountView) (asset : AssetID) (amount : BitVec 64) : UserAccountView :=
  { view with
    availableSideEffects := view.availableSideEffects.insert asset (view.availableSideEffects.amount asset + amount) }

/-- `operator[]` leaves an entry in the buffer, also where the account refuses. -/
def conditionalEscrow (view : UserAccountView) (main : UserAccount) (asset : AssetID) (amount : BitVec 64) :
    UserAccountView × UserAccount × TransactionProcessingStatus :=
  let currentAvailableBuffer := view.availableBuffer.amount asset
  if amount.slt 0 then (view.setBuffer asset (currentAvailableBuffer - amount), main, .success)
  else
    let newBuffer := currentAvailableBuffer - amount
    if newBuffer.slt 0 then
      let (main, result) := main.conditionalEscrow asset (-newBuffer)
      if result then ((view.addSideEffect asset newBuffer).setBuffer asset 0, main, .success)
      else (view.setBuffer asset currentAvailableBuffer, main, .insufficientBalance)
    else (view.setBuffer asset newBuffer, main, .success)

def transferAvailable (view : UserAccountView) (main : UserAccount) (asset : AssetID) (amount : BitVec 64) :
    UserAccountView × UserAccount × TransactionProcessingStatus :=
  let currentBuffer := view.availableBuffer.amount asset
  let newBuffer := currentBuffer + amount
  if newBuffer.slt 0 then
    let (main, result) := main.conditionalTransferAvailable asset newBuffer
    if result then ((view.addSideEffect asset newBuffer).setBuffer asset 0, main, .success)
    else (view.setBuffer asset currentBuffer, main, .insufficientBalance)
  else (view.setBuffer asset newBuffer, main, .success)

end UserAccountView

section Amounts

@[simp] theorem amount_empty (asset : AssetID) : AssetAmounts.amount ∅ asset = 0 := rfl

theorem amount_insert (amounts : AssetAmounts) (asset other : AssetID) (v : BitVec 64) :
    AssetAmounts.amount (amounts.insert asset v) other = if other = asset then v else amounts.amount other := by
  by_cases here : other = asset
  · rw [if_pos here, here, AssetAmounts.amount, AList.lookup_insert, Option.getD_some]
  · rw [if_neg here, AssetAmounts.amount, AList.lookup_insert_ne here, AssetAmounts.amount]

theorem amount_erase (amounts : AssetAmounts) (asset other : AssetID) :
    AssetAmounts.amount (amounts.erase asset) other = if other = asset then 0 else amounts.amount other := by
  by_cases here : other = asset
  · rw [if_pos here, here, AssetAmounts.amount, AList.lookup_erase]
    rfl
  · rw [if_neg here, AssetAmounts.amount, AList.lookup_erase_ne here, AssetAmounts.amount]

/-- Amounts that differ from others in one asset. -/
def Shifted (f f' : AssetID → BitVec 64) (asset : AssetID) (change : Int) : Prop :=
  ∀ other, (f' other).toInt = (f other).toInt + if other = asset then change else 0

theorem Shifted.refl (f : AssetID → BitVec 64) (asset : AssetID) : Shifted f f asset 0 := by
  intro other
  simp

theorem shifted_of_eq {f f' : AssetID → BitVec 64} {asset : AssetID} {v : BitVec 64} {change : Int}
    (set : ∀ other, f' other = if other = asset then v else f other) (value : v.toInt = (f asset).toInt + change) :
    Shifted f f' asset change := by
  intro other
  by_cases here : other = asset
  · rw [set, if_pos here, if_pos here, here, value]
  · rw [set, if_neg here, if_neg here, Int.add_zero]

end Amounts

section Account

theorem getD_growTo {α : Type} [Inhabited α] (l : List α) (n i : Nat) : (growTo l n).getD i default = l.getD i default := by
  rw [growTo, List.getD_eq_getElem?_getD, List.getD_eq_getElem?_getD, List.getElem?_append]
  by_cases inside : i < l.length
  · rw [if_pos inside]
  · rw [if_neg inside, List.getElem?_replicate, List.getElem?_eq_none (l := l) (by omega)]
    split <;> rfl

theorem getD_set {α : Type} (l : List α) {i : Nat} (inside : i < l.length) (v d : α) (j : Nat) :
    (l.set i v).getD j d = if j = i then v else l.getD j d := by
  rw [List.getD_eq_getElem?_getD, List.getD_eq_getElem?_getD, List.getElem?_set]
  by_cases here : j = i
  · rw [if_pos here.symm, if_pos here, if_pos inside, Option.getD_some]
  · rw [if_neg (Ne.symm here), if_neg here]

namespace UserAccount

/-- The entry of an asset, or the one that the first operation on it creates. -/
def entry (account : UserAccount) (asset : AssetID) : RevertableAsset :=
  (account.ownedAssets ++ account.uncommittedAssets).getD asset.toNat default

theorem available_eq (account : UserAccount) (asset : AssetID) : account.available asset = (account.entry asset).available :=
  rfl

variable {α : Type} (account : UserAccount) (asset : AssetID) (func : RevertableAsset → RevertableAsset × α)

theorem operateOnAsset_result : (account.operateOnAsset asset func).2 = (func (account.entry asset)).2 := by
  rw [operateOnAsset, entry]
  by_cases owned : asset.toNat < account.ownedAssets.length
  · rw [if_pos owned, List.getD_append _ _ _ _ owned]
  · rw [if_neg owned, List.getD_append_right _ _ _ _ (Nat.le_of_not_lt owned)]
    show (func ((growTo _ _).getD _ default)).2 = _
    rw [getD_growTo]

/-- An operation on an asset changes the entry of this asset alone. -/
theorem entry_operateOnAsset (other : AssetID) : (account.operateOnAsset asset func).1.entry other =
    if other = asset then (func (account.entry asset)).1 else account.entry other := by
  have index : other.toNat = asset.toNat ↔ other = asset := BitVec.toNat_inj
  rw [operateOnAsset]
  by_cases owned : asset.toNat < account.ownedAssets.length
  · have room : asset.toNat < (account.ownedAssets ++ account.uncommittedAssets).length := by
      rw [List.length_append]
      omega
    rw [if_pos owned]
    show ((account.ownedAssets.set asset.toNat _) ++ account.uncommittedAssets).getD other.toNat default = _
    rw [← List.set_append_left _ _ owned, getD_set _ room, entry, List.getD_append _ _ _ _ owned, entry]
    simp only [index]
  · have beyond : account.ownedAssets.length ≤ asset.toNat := Nat.le_of_not_lt owned
    rw [if_neg owned]
    show (account.ownedAssets ++ (growTo _ _).set _ _).getD other.toNat default = _
    rw [entry, entry, List.getD_append_right _ _ _ _ beyond, getD_growTo]
    by_cases low : other.toNat < account.ownedAssets.length
    · have apart : other ≠ asset := fun same => owned (same ▸ low)
      rw [if_neg apart, List.getD_append _ _ _ _ low, List.getD_append _ _ _ _ low]
    · have room : asset.toNat - account.ownedAssets.length <
          (growTo account.uncommittedAssets (asset.toNat - account.ownedAssets.length + 1)).length := by
        rw [growTo, List.length_append, List.length_replicate]
        omega
      have same : other.toNat - account.ownedAssets.length = asset.toNat - account.ownedAssets.length ↔ other = asset := by
        rw [← index]
        omega
      rw [List.getD_append_right _ _ _ _ (Nat.le_of_not_lt low), List.getD_append_right _ _ _ _ (Nat.le_of_not_lt low),
        getD_set _ room, getD_growTo]
      simp only [same]

theorem available_transferAvailable (amount : BitVec 64) (other : AssetID) :
    (account.transferAvailable asset amount).available other =
      if other = asset then account.available asset + amount else account.available other := by
  rw [transferAvailable, available_eq, entry_operateOnAsset]
  split <;> rfl

/-- A payment out of an account is made when the account has the amount. -/
theorem conditionalTransferAvailable_spec {amount : BitVec 64} (nonneg : 0 ≤ (account.available asset).toInt)
    (negative : amount.toInt < 0) :
    ((account.conditionalTransferAvailable asset amount).2 = true ∧ 0 ≤ (account.available asset).toInt + amount.toInt ∧
      Shifted account.available (account.conditionalTransferAvailable asset amount).1.available asset amount.toInt) ∨
    ((account.conditionalTransferAvailable asset amount).2 = false ∧ (account.available asset).toInt + amount.toInt < 0 ∧
      Shifted account.available (account.conditionalTransferAvailable asset amount).1.available asset 0) := by
  have least := BitVec.le_toInt amount
  have most := BitVec.toInt_lt (x := account.available asset)
  have exact : (account.available asset + amount).toInt = (account.available asset).toInt + amount.toInt :=
    toInt_add_of_range (by omega) (by rw [int64Max]; omega)
  have zero : (0 : BitVec 64).toInt = 0 := rfl
  have sign : (account.available asset + amount).slt 0 = true ↔ (account.available asset).toInt + amount.toInt < 0 := by
    rw [BitVec.slt_iff_toInt_lt, exact, zero]
  rw [conditionalTransferAvailable, operateOnAsset_result, RevertableAsset.conditionalTransferAvailable, ← available_eq]
  by_cases refused : (account.available asset + amount).slt 0 = true
  · refine Or.inr ⟨by rw [if_pos refused], sign.mp refused, ?_⟩
    intro other
    rw [available_eq, entry_operateOnAsset, RevertableAsset.conditionalTransferAvailable, ← available_eq account asset,
      if_pos refused]
    by_cases here : other = asset
    · rw [if_pos here, if_pos here, here, Int.add_zero]
      rfl
    · rw [if_neg here, if_neg here, Int.add_zero]
      rfl
  · refine Or.inl ⟨by rw [if_neg refused], not_lt.mp (fun less => refused (sign.mpr less)), ?_⟩
    apply shifted_of_eq (v := account.available asset + amount) _ exact
    intro other
    rw [available_eq, entry_operateOnAsset, RevertableAsset.conditionalTransferAvailable, ← available_eq account asset,
      if_neg refused]
    split <;> rfl

end UserAccount

end Account

/-- A call through a view. -/
inductive ViewCall where
  | escrow (amount : BitVec 64)
  | transferAvailable (amount : BitVec 64)

namespace ViewCall

/-- What a successful call adds to the balance. -/
def delta : ViewCall → Int
  | escrow amount => -amount.toInt
  | transferAvailable amount => amount.toInt

def run (call : ViewCall) (view : UserAccountView) (main : UserAccount) (asset : AssetID) :
    UserAccountView × UserAccount × TransactionProcessingStatus :=
  match call with
  | escrow amount => view.conditionalEscrow main asset amount
  | transferAvailable amount => view.transferAvailable main asset amount

/-- The part of a call that the buffer does not cover. -/
def taken (call : ViewCall) (view : UserAccountView) (asset : AssetID) : Int :=
  min 0 ((view.availableBuffer.amount asset).toInt + call.delta)

/-- The sums that a call forms stay within `int64_t`. -/
def Fits (call : ViewCall) (view : UserAccountView) (asset : AssetID) : Prop :=
  (view.availableBuffer.amount asset).toInt + call.delta ≤ int64Max ∧
    -2 ^ 63 ≤ (view.availableSideEffects.amount asset).toInt + call.taken view asset

end ViewCall

namespace UserAccountView

variable {view : UserAccountView} {main : UserAccount} {asset : AssetID}

/-- A call that succeeds: the buffer and the account pay together. -/
structure Granted (view view' : UserAccountView) (main main' : UserAccount) (asset : AssetID) (delta taken : Int) : Prop where
  covered : 0 ≤ (main.available asset).toInt + taken
  buffer : Shifted view.availableBuffer.amount view'.availableBuffer.amount asset (delta - taken)
  sideEffects : Shifted view.availableSideEffects.amount view'.availableSideEffects.amount asset taken
  account : Shifted main.available main'.available asset taken

/-- A call that fails changes no amount. -/
structure Refused (view view' : UserAccountView) (main main' : UserAccount) (asset : AssetID) (taken : Int) : Prop where
  uncovered : (main.available asset).toInt + taken < 0
  buffer : Shifted view.availableBuffer.amount view'.availableBuffer.amount asset 0
  sideEffects : Shifted view.availableSideEffects.amount view'.availableSideEffects.amount asset 0
  account : Shifted main.available main'.available asset 0

theorem shifted_setBuffer {v : BitVec 64} {change : Int} (value : v.toInt = (view.availableBuffer.amount asset).toInt + change) :
    Shifted view.availableBuffer.amount (view.setBuffer asset v).availableBuffer.amount asset change :=
  shifted_of_eq (amount_insert _ _ · _) value

/-- A call whose payment fits into the buffer leaves the account alone. -/
theorem granted_of_buffer {newBuffer : BitVec 64} {delta : Int} (nonneg : 0 ≤ (main.available asset).toInt)
    (value : newBuffer.toInt = (view.availableBuffer.amount asset).toInt + delta) :
    Granted view (view.setBuffer asset newBuffer) main main asset delta 0 where
  covered := by rwa [Int.add_zero]
  buffer := shifted_setBuffer (by rw [value, Int.sub_zero])
  sideEffects := Shifted.refl _ _
  account := Shifted.refl _ _

/-- The account pays what the buffer cannot. -/
theorem granted_of_account {newBuffer : BitVec 64} {main' : UserAccount} {delta : Int}
    (covered : 0 ≤ (main.available asset).toInt + newBuffer.toInt)
    (value : newBuffer.toInt = (view.availableBuffer.amount asset).toInt + delta)
    (fits : -2 ^ 63 ≤ (view.availableSideEffects.amount asset).toInt + newBuffer.toInt) (negative : newBuffer.toInt < 0)
    (paid : Shifted main.available main'.available asset newBuffer.toInt) :
    Granted view ((view.addSideEffect asset newBuffer).setBuffer asset 0) main main' asset delta newBuffer.toInt where
  covered := covered
  buffer := by
    apply shifted_of_eq (fun other => amount_insert _ _ _ _)
    show (0 : Int) = _
    omega
  sideEffects := by
    have most := BitVec.toInt_lt (x := view.availableSideEffects.amount asset)
    apply shifted_of_eq (fun other => amount_insert _ _ _ _)
    exact toInt_add_of_range fits (by rw [int64Max]; omega)
  account := paid

/-- What both calls do with the new buffer when it is negative. -/
theorem debit_spec {newBuffer : BitVec 64} {delta : Int} {message : TransactionProcessingStatus} (failed : message ≠ .success)
    (nonneg : 0 ≤ (main.available asset).toInt)
    (value : newBuffer.toInt = (view.availableBuffer.amount asset).toInt + delta)
    (fits : -2 ^ 63 ≤ (view.availableSideEffects.amount asset).toInt + newBuffer.toInt) (negative : newBuffer.toInt < 0) :
    ∃ view' main' status,
      (if (main.conditionalTransferAvailable asset newBuffer).2 = true then
        ((view.addSideEffect asset newBuffer).setBuffer asset 0, (main.conditionalTransferAvailable asset newBuffer).1,
          TransactionProcessingStatus.success)
      else (view.setBuffer asset (view.availableBuffer.amount asset), (main.conditionalTransferAvailable asset newBuffer).1,
        message)) = (view', main', status) ∧
      ((status = .success ∧ Granted view view' main main' asset delta newBuffer.toInt) ∨
        (status ≠ .success ∧ Refused view view' main main' asset newBuffer.toInt)) := by
  rcases main.conditionalTransferAvailable_spec asset nonneg negative with ⟨paid, covered, account⟩ | ⟨unpaid, uncovered, account⟩
  · exact ⟨_, _, _, by rw [if_pos paid], Or.inl ⟨rfl, granted_of_account covered value fits negative account⟩⟩
  · refine ⟨view.setBuffer asset (view.availableBuffer.amount asset), _, message, by rw [if_neg (by rw [unpaid]; decide)],
      Or.inr ⟨failed, uncovered, ?_, Shifted.refl _ _, account⟩⟩
    exact shifted_setBuffer (Int.add_zero _).symm

/-- A call succeeds when the buffer and the account have the amount together. -/
theorem call_spec (call : ViewCall) (nonneg : 0 ≤ (main.available asset).toInt)
    (stocked : 0 ≤ (view.availableBuffer.amount asset).toInt) (fits : call.Fits view asset) :
    ∃ view' main' status, call.run view main asset = (view', main', status) ∧
      ((status = .success ∧ Granted view view' main main' asset call.delta (call.taken view asset)) ∨
        (status ≠ .success ∧ Refused view view' main main' asset (call.taken view asset))) := by
  obtain ⟨most, least⟩ := fits
  have zero : (0 : BitVec 64).toInt = 0 := rfl
  have bound := BitVec.toInt_lt (x := view.availableBuffer.amount asset)
  cases call with
  | escrow amount =>
    have low := BitVec.le_toInt amount
    have high := BitVec.toInt_lt (x := amount)
    simp only [ViewCall.delta] at most
    have value : (view.availableBuffer.amount asset - amount).toInt = (view.availableBuffer.amount asset).toInt + -amount.toInt := by
      rw [toInt_sub_of_range (by omega) (by omega), Int.sub_eq_add_neg]
    simp only [ViewCall.taken, ViewCall.delta, ViewCall.run, conditionalEscrow, ← value] at least ⊢
    by_cases credit : amount.slt 0 = true
    · have negative : amount.toInt < 0 := by rwa [BitVec.slt_iff_toInt_lt, zero] at credit
      rw [min_eq_left (by omega)]
      exact ⟨_, _, _, by rw [if_pos credit], Or.inl ⟨rfl, granted_of_buffer nonneg value⟩⟩
    · have positive : 0 ≤ amount.toInt := by
        rw [BitVec.slt_iff_toInt_lt, zero] at credit
        omega
      rw [if_neg credit]
      by_cases short : (view.availableBuffer.amount asset - amount).slt 0 = true
      · have negative : (view.availableBuffer.amount asset - amount).toInt < 0 := by rwa [BitVec.slt_iff_toInt_lt, zero] at short
        rw [min_eq_right (by omega)] at least ⊢
        have owed : (-(view.availableBuffer.amount asset - amount)).toInt = -(view.availableBuffer.amount asset - amount).toInt :=
          BitVec.toInt_neg_of_ne_intMin (fun least => by
            have word := congrArg BitVec.toInt least
            rw [BitVec.toInt_intMin] at word
            omega)
        have more : BitVec.slt 0 (-(view.availableBuffer.amount asset - amount)) = true := by
          rw [BitVec.slt_iff_toInt_lt, owed, zero]
          omega
        have same : main.conditionalEscrow asset (-(view.availableBuffer.amount asset - amount)) =
            main.conditionalTransferAvailable asset (view.availableBuffer.amount asset - amount) := by
          rw [UserAccount.conditionalEscrow, UserAccount.conditionalTransferAvailable]
          congr 1
          funext entry
          rw [RevertableAsset.conditionalEscrow, if_pos more, BitVec.neg_neg]
        rw [if_pos short, same]
        exact debit_spec (by decide) nonneg value least negative
      · have enough : 0 ≤ (view.availableBuffer.amount asset - amount).toInt := by
          rw [BitVec.slt_iff_toInt_lt, zero] at short
          omega
        rw [min_eq_left enough]
        exact ⟨_, _, _, by rw [if_neg short], Or.inl ⟨rfl, granted_of_buffer nonneg value⟩⟩
  | transferAvailable amount =>
    have low := BitVec.le_toInt amount
    simp only [ViewCall.delta] at most
    have value : (view.availableBuffer.amount asset + amount).toInt = (view.availableBuffer.amount asset).toInt + amount.toInt :=
      toInt_add_of_range (by omega) most
    simp only [ViewCall.taken, ViewCall.delta, ViewCall.run, transferAvailable, ← value] at least ⊢
    by_cases short : (view.availableBuffer.amount asset + amount).slt 0 = true
    · have negative : (view.availableBuffer.amount asset + amount).toInt < 0 := by rwa [BitVec.slt_iff_toInt_lt, zero] at short
      rw [min_eq_right (by omega)] at least ⊢
      rw [if_pos short]
      exact debit_spec (by decide) nonneg value least negative
    · have enough : 0 ≤ (view.availableBuffer.amount asset + amount).toInt := by
        rw [BitVec.slt_iff_toInt_lt, zero] at short
        omega
      rw [min_eq_left enough]
      exact ⟨_, _, _, by rw [if_neg short], Or.inl ⟨rfl, granted_of_buffer nonneg value⟩⟩

end UserAccountView

end Speedex
