import Speedex.Ledger.CommitmentUpdate
import Speedex.Ledger.Database

set_option autoImplicit false

/- `check_valid_state`: no account of the modification log is overdrawn. -/
namespace Speedex

namespace MemoryDatabase

/-- `_check_valid`: an index past the committed accounts passes. -/
def checkValid (db : MemoryDatabase) (accountIdx : Nat) : Bool :=
  match db.database[accountIdx]? with
  | none => true
  | some account => account.inValidState

/-- `ValidityCheckLambda` on one entry of the log. `idx` is not initialized, and a failed lookup leaves it so:
`uninitialized` is what is there when the owner is looked up. -/
def validityCheck (db : MemoryDatabase) (uninitialized : AccountID → Nat) (commitment : AccountModificationTxList)
    (errorFound : Bool) : Except String Bool :=
  let idx := (db.lookupUserId commitment.owner).getD (uninitialized commitment.owner)
  .ok (if db.checkValid idx then errorFound else true)

/-- `check_valid_state`. The log is divided into subtrees that are checked in any order. -/
def checkValidState (db : MemoryDatabase) (uninitialized : AccountID → Nat)
    (dirtyAccounts : List (TrieNode AccountModificationTxList)) : Except String Bool := do
  let errorFound ← dirtyAccounts.foldlM
    (fun errorFound workRoot => workRoot.applyValues (db.validityCheck uninitialized) errorFound) false
  if errorFound then return false
  else return db.uncommittedDb.all UserAccount.inValidState

end MemoryDatabase

/-- No balance is negative. -/
def UserAccount.Solvent (account : UserAccount) : Prop :=
  ∀ asset ∈ account.ownedAssets ++ account.uncommittedAssets, 0 ≤ asset.available.toInt

theorem UserAccount.inValidState_iff (account : UserAccount) : account.inValidState = true ↔ account.Solvent := by
  have entry : ∀ asset : RevertableAsset, asset.inValidState = true ↔ 0 ≤ asset.available.toInt := by
    intro asset
    rw [RevertableAsset.inValidState, BitVec.sle_iff_toInt_le]
    rfl
  unfold UserAccount.inValidState UserAccount.Solvent
  rw [Bool.and_eq_true, List.all_eq_true, List.all_eq_true, List.forall_mem_append]
  simp only [entry]

/-- In a solvent account every asset has a nonnegative balance. -/
theorem UserAccount.Solvent.available {account : UserAccount} (solvent : account.Solvent) (asset : AssetID) :
    0 ≤ (account.available asset).toInt := by
  unfold UserAccount.available
  rw [List.getD_eq_getElem?_getD]
  cases entry : (account.ownedAssets ++ account.uncommittedAssets)[asset.toNat]? with
  | none => exact Int.le_refl 0
  | some held => exact solvent held (List.mem_of_getElem? entry)

namespace MemoryDatabase

variable (db : MemoryDatabase) (log : TrieNode AccountModificationTxList)

/-- The owners of the entries of the log. -/
def Logged (log : TrieNode AccountModificationTxList) (owner : AccountID) : Prop :=
  ∃ key l, log.find key = some l ∧ l.value.owner = owner

def committedAccount (owner : AccountID) : Option UserAccount :=
  (db.userIdToIdxMap owner).bind (fun idx => db.database[idx]?)

/-- An account that the block creates; its index counts the committed accounts before it. -/
def bufferedAccount (owner : AccountID) : Option UserAccount :=
  (db.uncommittedIdxMap owner).bind (fun idx => db.uncommittedDb[idx - db.database.length]?)

/-- Every logged account, existing or new, is solvent. -/
def LogSolvent : Prop :=
  ∀ owner, Logged log owner → ∀ account, db.committedAccount owner = some account ∨ db.bufferedAccount owner = some account →
    account.Solvent

end MemoryDatabase

/-- A loop that raises a flag at the items that fail a check. -/
theorem foldlM_flag {α : Type} {loop : Bool → α → Except String Bool} {check : α → Bool}
    (once : ∀ flag a, loop flag a = .ok (if check a then flag else true)) (items : List α) (flag : Bool) :
    items.foldlM loop flag = .ok (if items.all check then flag else true) := by
  induction items generalizing flag with
  | nil => rfl
  | cons a items ih =>
    rw [List.foldlM_cons, once]
    show items.foldlM loop _ = _
    rw [ih, List.all_cons]
    cases check a with
    | true => rfl
    | false =>
      show Except.ok (if items.all check then true else true) = Except.ok true
      rw [ite_self]

/-- The check passes through all entries of the log, however it is divided. -/
theorem checked_iff {log : TrieNode AccountModificationTxList} {parts : List (TrieNode AccountModificationTxList)}
    (cover : TrieNode.PartsCover accountKeyLen log parts) {loop : AccountModificationTxList → Bool → Except String Bool}
    {check : AccountModificationTxList → Bool} (once : ∀ value flag, loop value flag = .ok (if check value then flag else true)) :
    ∃ errorFound, parts.foldlM (fun errorFound workRoot => workRoot.applyValues loop errorFound) false = .ok errorFound ∧
      (errorFound = false ↔ ∀ key l, log.find key = some l → check l.value = true) := by
  have part : ∀ flag (workRoot : TrieNode AccountModificationTxList), workRoot.applyValues loop flag =
      .ok (if workRoot.entries.all (fun row => check row.2.value) then flag else true) := by
    intro flag workRoot
    rw [TrieNode.applyValues_eq]
    exact foldlM_flag (fun flag row => once row.2.value flag) workRoot.entries flag
  refine ⟨_, foldlM_flag part parts false, ?_⟩
  have raised : ∀ passed : Bool, (if passed then false else true) = false ↔ passed = true := by decide
  rw [raised, List.all_eq_true]
  have shaped : ∀ workRoot ∈ parts, TrieNode.Shaped accountKeyLen workRoot := fun workRoot listed =>
    (cover.valid workRoot listed).elim (TrieNode.shaped_of_vacant accountKeyLen_pos) TrieNode.Canonical.shaped
  constructor
  · intro all key l found
    obtain ⟨workRoot, listed, here⟩ := cover.covered key l found
    exact List.all_eq_true.mp (all workRoot listed) (key, l) ((TrieNode.mem_entries_iff (shaped workRoot listed)).mpr here)
  · intro all workRoot listed
    rw [List.all_eq_true]
    intro row member
    exact all row.1 row.2 (cover.within workRoot listed _ _ ((TrieNode.mem_entries_iff (shaped workRoot listed)).mp member))

namespace MemoryDatabase

variable {db : MemoryDatabase} {log : TrieNode AccountModificationTxList} {parts : List (TrieNode AccountModificationTxList)}
  {uninitialized : AccountID → Nat}

/-- What `check_valid_state` computes. -/
theorem checkValidState_spec (cover : TrieNode.PartsCover accountKeyLen log parts) :
    ∃ valid, db.checkValidState uninitialized parts = .ok valid ∧
      (valid = true ↔ (∀ owner, Logged log owner →
          db.checkValid ((db.lookupUserId owner).getD (uninitialized owner)) = true) ∧
        ∀ account ∈ db.uncommittedDb, account.Solvent) := by
  obtain ⟨errorFound, run, passed⟩ := checked_iff cover
    (fun value flag => (rfl : db.validityCheck uninitialized value flag = .ok (if _ then flag else true)))
  have logged : (∀ key l, log.find key = some l →
      db.checkValid ((db.lookupUserId l.value.owner).getD (uninitialized l.value.owner)) = true) ↔
      ∀ owner, Logged log owner → db.checkValid ((db.lookupUserId owner).getD (uninitialized owner)) = true := by
    constructor
    · rintro all owner ⟨key, l, found, rfl⟩
      exact all key l found
    · intro all key l found
      exact all l.value.owner ⟨key, l, found, rfl⟩
  rw [logged] at passed
  rw [← passed]
  unfold checkValidState
  rw [run]
  cases errorFound with
  | true => exact ⟨false, rfl, by simp⟩
  | false =>
    refine ⟨_, rfl, ?_⟩
    rw [List.all_eq_true]
    simp only [UserAccount.inValidState_iff, true_and]

/-- The committed accounts that the check looks at. -/
theorem checkValid_iff (idx : Nat) : db.checkValid idx = true ↔ ∀ account, db.database[idx]? = some account → account.Solvent := by
  unfold checkValid
  cases db.database[idx]? with
  | none => simp
  | some account => simp [UserAccount.inValidState_iff]

/-- The check is exact unless the logged accounts are solvent and an account that is not logged gets in its way: a
buffered one, or a committed one that is checked in place of a new account. -/
theorem checkValidState_exact_iff (form : TrieNode.Vacant accountKeyLen log ∨ TrieNode.Canonical accountKeyLen log)
    (divided : TrieNode.Parts log parts) :
    (∀ uninitialized, ∃ valid, db.checkValidState uninitialized parts = .ok valid ∧ (valid = true ↔ db.LogSolvent log)) ↔
      (¬ db.LogSolvent log ∨ ((∀ account ∈ db.uncommittedDb, account.Solvent) ∧
        ((∀ owner, Logged log owner → db.lookupUserId owner ≠ none) ∨ ∀ account ∈ db.database, account.Solvent))) := by
  have cover := divided.cover form
  constructor
  · intro exact
    by_cases solvent : db.LogSolvent log
    · right
      have passes : ∀ uninitialized : AccountID → Nat, (∀ owner, Logged log owner →
          db.checkValid ((db.lookupUserId owner).getD (uninitialized owner)) = true) ∧
          ∀ account ∈ db.uncommittedDb, account.Solvent := by
        intro uninitialized
        obtain ⟨valid, run, same⟩ := exact uninitialized
        obtain ⟨valid', run', spec⟩ := @checkValidState_spec db log parts uninitialized cover
        cases run.symm.trans run'
        exact spec.mp (same.mpr solvent)
      refine ⟨(passes (fun _ => 0)).2, ?_⟩
      by_contra unlucky
      push Not at unlucky
      obtain ⟨⟨owner, logged, absent⟩, account, member, overdrawn⟩ := unlucky
      obtain ⟨idx, found⟩ := List.getElem?_of_mem member
      have checked := (passes (fun _ => idx)).1 owner logged
      rw [absent] at checked
      exact overdrawn (checkValid_iff idx |>.mp checked account found)
    · exact .inl solvent
  · intro condition uninitialized
    obtain ⟨valid, run, spec⟩ := @checkValidState_spec db log parts uninitialized cover
    refine ⟨valid, run, spec.trans ?_⟩
    constructor
    · -- A check that passes has seen every logged account, committed or buffered.
      rintro ⟨passed, buffered⟩ owner logged account found
      cases found with
      | inl committed =>
        obtain ⟨idx, known, here⟩ := Option.bind_eq_some_iff.mp committed
        have checked := passed owner logged
        rw [show db.lookupUserId owner = some idx from known] at checked
        exact checkValid_iff idx |>.mp checked account here
      | inr new =>
        obtain ⟨idx, _, here⟩ := Option.bind_eq_some_iff.mp new
        exact buffered account (List.mem_of_getElem? here)
    · intro solvent
      obtain ⟨buffered, lucky⟩ := condition.resolve_left (not_not.mpr solvent)
      refine ⟨?_, buffered⟩
      intro owner logged
      rw [checkValid_iff]
      intro account here
      cases lookup : db.lookupUserId owner with
      | some idx =>
        rw [lookup] at here
        exact solvent owner logged account (.inl (Option.bind_eq_some_iff.mpr ⟨idx, lookup, here⟩))
      | none =>
        cases lucky with
        | inl known => exact absurd lookup (known owner logged)
        | inr all => exact all account (List.mem_of_getElem? here)

end MemoryDatabase

/-- A block that creates account 12, while the committed account 7 is overdrawn and not in the log. -/
def overdraftDatabase : MemoryDatabase where
  userIdToIdxMap account := if account = 7 then some 0 else none
  uncommittedIdxMap account := if account = 12 then some 1 else none
  reservedAccountIds account := account = 12
  database := [{ UserAccount.new 7 [] with ownedAssets := [{ available := -1, committedAvailable := 5 }] }]
  uncommittedDb := [{ UserAccount.new 12 [] with uncommittedAssets := [{ available := 3, committedAvailable := 0 }] }]
  accountCreationThunks := []
  persistedRoundNumber := 0

/-- A log with one account. -/
def oneAccountLog (owner : AccountID) : TrieNode AccountModificationTxList :=
  .leaf (AccountIDPrefix.toKey owner) (.new owner) (Metadata.ofValue (AccountModificationTxList.new owner)) none

theorem canonical_oneAccountLog (owner : AccountID) : TrieNode.Canonical accountKeyLen (oneAccountLog owner) :=
  ⟨.leaf (AccountIDPrefix.length_toKey owner) ⟨rfl, rfl, .inl rfl, .inl rfl⟩, trivial⟩

theorem logged_oneAccountLog {owner account : AccountID} : MemoryDatabase.Logged (oneAccountLog owner) account ↔ account = owner := by
  unfold MemoryDatabase.Logged oneAccountLog
  simp only [TrieNode.find_leaf]
  constructor
  · rintro ⟨key, l, found, rfl⟩
    split at found
    · cases found
      rfl
    · cases found
  · rintro rfl
    exact ⟨_, _, if_pos rfl, rfl⟩

theorem checkValidState_exact_sample : ∃ valid,
    overdraftDatabase.checkValidState (fun _ => 0) [oneAccountLog 7] = .ok valid ∧
      (valid = true ↔ overdraftDatabase.LogSolvent (oneAccountLog 7)) := by
  refine (MemoryDatabase.checkValidState_exact_iff (.inr (canonical_oneAccountLog 7)) .whole).mpr ?_ (fun _ => 0)
  left
  intro solvent
  have negative := solvent 7 (logged_oneAccountLog.mpr rfl) _ (.inl rfl) _ List.mem_cons_self
  exact absurd negative (by decide)

/-- The new account 12 is solvent and alone in the log. Where `idx` happens to hold 0, the check looks at account 7. -/
theorem checkValidState_rejects :
    overdraftDatabase.LogSolvent (oneAccountLog 12) ∧
      overdraftDatabase.checkValidState (fun _ => 0) [oneAccountLog 12] = .ok false := by
  constructor
  · intro owner logged account found
    rw [logged_oneAccountLog.mp logged] at found
    have same : account = { UserAccount.new 12 [] with uncommittedAssets := [{ available := 3, committedAvailable := 0 }] } := by
      cases found with
      | inl committed => cases committed
      | inr new => exact (Option.some.inj new).symm
    rw [← UserAccount.inValidState_iff, same]
    decide
  · decide

end Speedex
