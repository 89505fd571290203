import Mathlib.Data.List.Basic
import Mathlib.Tactic.SplitIfs
import Speedex.Processing.DatabaseView

set_option autoImplicit false

/- The accounts that one transaction creates: their indices go on where the database ends. -/
namespace Speedex

/-- `new_accounts` of a view that has created these accounts in this order. -/
def numberAccounts (n : Nat) (created : List UserAccount) : List (Nat × AccountID × UserAccount) :=
  (created.zipIdx n).map (fun row => (row.2, row.1.owner, row.1))

/-- `temporary_idxs`. -/
def numberOwners (n : Nat) (created : List UserAccount) : List (AccountID × Nat) :=
  (created.zipIdx n).map (fun row => (row.1.owner, row.2))

def creationView (n : Nat) (created : List UserAccount) : AccountCreationView :=
  ⟨n, numberAccounts n created, numberOwners n created⟩

variable {n : Nat} {created : List UserAccount} {account : UserAccount}

theorem numberAccounts_cons : numberAccounts n (account :: created) =
    (n, account.owner, account) :: numberAccounts (n + 1) created := rfl

theorem numberOwners_cons : numberOwners n (account :: created) =
    (account.owner, n) :: numberOwners (n + 1) created := rfl

theorem numberAccounts_concat (n : Nat) (created : List UserAccount) (account : UserAccount) :
    numberAccounts n (created ++ [account]) =
      numberAccounts n created ++ [(n + created.length, account.owner, account)] := by
  rw [numberAccounts, List.zipIdx_append, List.map_append]
  rfl

theorem numberOwners_concat (n : Nat) (created : List UserAccount) (account : UserAccount) :
    numberOwners n (created ++ [account]) = numberOwners n created ++ [(account.owner, n + created.length)] := by
  rw [numberOwners, List.zipIdx_append, List.map_append]
  rfl

theorem map_numberAccounts (n : Nat) (created : List UserAccount) :
    (numberAccounts n created).map (fun row => row.2.2) = created := by
  rw [numberAccounts, List.map_map]
  exact List.zipIdx_map_fst n created

@[simp] theorem length_numberOwners : (numberOwners n created).length = created.length := by
  rw [numberOwners, List.length_map, List.length_zipIdx]

theorem numbers_lt {row : Nat × AccountID × UserAccount} (member : row ∈ numberAccounts n created) :
    n ≤ row.1 ∧ row.1 < n + created.length := by
  obtain ⟨⟨account, i⟩, listed, rfl⟩ := List.mem_map.mp member
  obtain ⟨low, high, -⟩ := List.mem_zipIdx listed
  exact ⟨low, high⟩

theorem lookup_numberAccounts (n k : Nat) (created : List UserAccount) :
    (numberAccounts n created).lookup (n + k) = created[k]?.map (fun account => (account.owner, account)) := by
  induction created generalizing n k with
  | nil => rfl
  | cons account created ih =>
    rw [numberAccounts_cons, List.lookup_cons]
    cases k with
    | zero => simp
    | succ k =>
      have other : (n + (k + 1) == n) = false := by simp
      rw [other, List.getElem?_cons_succ, ← ih (n + 1) k, Nat.add_right_comm, Nat.add_assoc]

theorem lookup_numberOwners (n : Nat) (created : List UserAccount) (owner : AccountID) :
    (numberOwners n created).lookup owner = (created.findIdx? (fun account => account.owner = owner)).map (n + ·) := by
  induction created generalizing n with
  | nil => rfl
  | cons account created ih =>
    rw [numberOwners_cons, List.lookup_cons, List.findIdx?_cons]
    by_cases here : owner = account.owner
    · simp [here]
    · have other : (owner == account.owner) = false := by simp [here]
      rw [other, if_neg (by simpa using Ne.symm here), ih, Option.map_map]
      refine congrArg (fun f => Option.map f _) (funext fun i => ?_)
      rw [Function.comp_apply]
      omega

theorem getElem?_numberAccounts (n : Nat) (created : List UserAccount) (j : Nat) :
    (numberAccounts n created)[j]? = created[j]?.map (fun account => (n + j, account.owner, account)) := by
  rw [numberAccounts, List.getElem?_map, List.getElem?_zipIdx, Option.map_map]
  rfl

theorem getElem?_numberOwners (n : Nat) (created : List UserAccount) (j : Nat) :
    (numberOwners n created)[j]? = created[j]?.map (fun account => (account.owner, n + j)) := by
  rw [numberOwners, List.getElem?_map, List.getElem?_zipIdx, Option.map_map]
  rfl

/-- An update of a new account. -/
theorem setNewAccount_creationView {k : Nat} {func : UserAccount → UserAccount} (here : created[k]? = some account)
    (owner : ∀ account, (func account).owner = account.owner) :
    (creationView n created).setNewAccount (n + k) (func account) = creationView n (created.modify k func) := by
  have accounts : (numberAccounts n created).map
      (fun row => if row.1 = n + k then (row.1, row.2.1, func account) else row) =
        numberAccounts n (created.modify k func) := by
    refine List.ext_getElem? (fun j => ?_)
    rw [List.getElem?_map, getElem?_numberAccounts, getElem?_numberAccounts, List.getElem?_modify]
    by_cases same : k = j
    · rw [← same, here]
      simp [owner]
    · rw [Option.map_map]
      simp only [if_neg same, id_map']
      refine congrArg (fun f => Option.map f created[j]?) (funext fun account => ?_)
      exact if_neg (by simp only; omega)
  have owners : numberOwners n created = numberOwners n (created.modify k func) := by
    refine List.ext_getElem? (fun j => ?_)
    rw [getElem?_numberOwners, getElem?_numberOwners, List.getElem?_modify]
    cases created[j]? with
    | none => rfl
    | some account =>
      simp only [Option.map_some, Option.map_eq_map]
      split_ifs
      · rw [owner]
      · rfl
  rw [AccountCreationView.setNewAccount, creationView, creationView, accounts, owners]

theorem findNewAccount_creationView {k : Nat} {data : UserAccount} :
    (creationView n created).findNewAccount (n + k) = .ok data ↔ created[k]? = some data := by
  rw [AccountCreationView.findNewAccount, creationView, lookup_numberAccounts]
  cases created[k]? <;> simp

theorem newIdx_creationView : (creationView n created).newIdx = n + created.length := by
  rw [AccountCreationView.newIdx, creationView, length_numberOwners, Nat.add_comm]

theorem lookupUserId_creationView (mainDb : MemoryDatabase) (owner : AccountID) :
    (creationView n created).lookupUserId mainDb owner =
      (mainDb.lookupUserId owner).or ((created.findIdx? (fun account => account.owner = owner)).map (n + ·)) := by
  rw [AccountCreationView.lookupUserId, creationView, lookup_numberOwners]

theorem emplace_of_absent {K W : Type} [DecidableEq K] {entries : List (K × W)} {key : K} (value : W)
    (absent : key ∉ entries.map Prod.fst) : emplace entries key value = entries ++ [(key, value)] := by
  rw [emplace, if_neg absent]

/-- A new account goes to the end. -/
theorem createNewAccount_creationView {mainDb : MemoryDatabase} {owner : AccountID} {pk : PublicKey}
    (fresh : owner ∉ created.map UserAccount.owner) (reserved : (mainDb.reserveAccountCreation owner).2 = .success) :
    (creationView n created).createNewAccount mainDb owner pk =
      ((mainDb.reserveAccountCreation owner).1, creationView n (created ++ [UserAccount.new owner pk]), .success) := by
  have number : n + created.length ∉ (numberAccounts n created).map Prod.fst := by
    intro taken
    obtain ⟨row, listed, same⟩ := List.mem_map.mp taken
    have bound := numbers_lt listed
    omega
  have unknown : owner ∉ (numberOwners n created).map Prod.fst := by
    rw [numberOwners, List.map_map]
    intro taken
    obtain ⟨⟨account, i⟩, listed, same⟩ := List.mem_map.mp taken
    exact fresh (List.mem_map.mpr ⟨account, List.fst_mem_of_mem_zipIdx listed, same⟩)
  rw [AccountCreationView.createNewAccount, if_neg (not_not.mpr reserved)]
  simp only [creationView, length_numberOwners]
  rw [Nat.add_comm created.length n, emplace_of_absent _ number, emplace_of_absent _ unknown,
    numberAccounts_concat, numberOwners_concat]
  rfl

end Speedex
