import Speedex.Ledger.CreationView
import Speedex.Library.IndexMap
import Mathlib.Tactic.SplitIfs

set_option autoImplicit false

/- The account directory over whole runs: transactions that create accounts and are committed or
unwound in any order, direct additions, and the commits and rollbacks of blocks. -/
namespace Speedex

open IndexMap

def ownersOf (accounts : List UserAccount) : List AccountID := accounts.map UserAccount.owner

/-- The database, the views of the transactions begun so far (none once a transaction has ended) and
the creations that transactions of the current block have committed. -/
structure Directory where
  db : MemoryDatabase
  views : List (Option AccountCreationView)
  succeeded : List (Nat × AccountID)

inductive DirectoryAction where
  | beginTransaction
  | createNewAccount (tx : Nat) (account : AccountID) (pk : PublicKey)
  | commit (tx : Nat) (order : List (Nat × AccountID × UserAccount))
  | unwind (tx : Nat)
  | addAccountToDb (account : AccountID) (pk : PublicKey)
  | commitNewAccounts (currentBlockNumber : BitVec 64)
  | rollbackNewAccounts (currentBlockNumber : BitVec 64)

namespace Directory

/-- The view of an open transaction. -/
def view? (s : Directory) (tx : Nat) : Option AccountCreationView := (s.views[tx]?).join

/-- One action. Blocks are committed and rolled back only while no transaction is open; a commit that
throws leaves everything as it was. -/
def step (s : Directory) : DirectoryAction → Option Directory
  | .beginTransaction => some { s with views := s.views ++ [some (.new s.db)] }
  | .createNewAccount tx account pk =>
    (s.view? tx).map (fun view =>
      let created := view.createNewAccount s.db account pk
      { s with db := created.1, views := s.views.set tx (some created.2.1) })
  | .commit tx order =>
    (s.view? tx).bind (fun view =>
      if order.Perm view.newAccounts then
        some { db := AccountCreationView.commit s.db order
               views := s.views.set tx none
               succeeded := s.succeeded ++ order.map (fun row => (tx, row.2.1)) }
      else none)
  | .unwind tx =>
    (s.view? tx).map (fun view => { s with db := view.unwind s.db, views := s.views.set tx none })
  | .addAccountToDb account pk => some { s with db := (s.db.addAccountToDb account pk).1 }
  | .commitNewAccounts currentBlockNumber =>
    if s.views.all Option.isNone then
      match s.db.commitNewAccounts currentBlockNumber with
      | .ok db => some { s with db := db, succeeded := [] }
      | .error _ => some s
    else none
  | .rollbackNewAccounts currentBlockNumber =>
    if s.views.all Option.isNone then
      some { s with db := s.db.rollbackNewAccounts currentBlockNumber, succeeded := [] }
    else none

/-- A run of actions. -/
def run (s : Directory) : List DirectoryAction → Option Directory
  | [] => some s
  | action :: actions => (s.step action).bind (fun s' => s'.run actions)

/-- What the directory promises. -/
structure Bijective (s : Directory) : Prop where
  distinct : (ownersOf (s.db.database ++ s.db.uncommittedDb)).Nodup
  userIdToIdxMap : ∀ account i, s.db.userIdToIdxMap account = some i ↔
    ∃ entry, s.db.database[i]? = some entry ∧ entry.owner = account
  uncommittedIdxMap : ∀ account i, s.db.uncommittedIdxMap account = some i ↔
    ∃ j entry, i = s.db.database.length + j ∧ s.db.uncommittedDb[j]? = some entry ∧ entry.owner = account
  succeeded : (s.succeeded.map Prod.snd).Nodup

/-- The condition on one action. A new account is not in the uncommitted buffer without a reservation;
an unwound transaction has no temporary index that is the id of an account which another open
transaction creates; and no open transaction creates an account that is added directly. -/
def Meets (s : Directory) : DirectoryAction → Prop
  | .createNewAccount _ account _ =>
    account ∈ ownersOf s.db.uncommittedDb → s.db.reservedAccountIds account = true
  | .unwind tx => ∀ view other view', s.view? tx = some view → other ≠ tx → s.view? other = some view' →
    ∀ row ∈ view.newAccounts, BitVec.ofNat 64 row.1 ∉ view'.owners
  | .addAccountToDb account _ => ∀ tx view, s.view? tx = some view → account ∉ view.owners
  | _ => True

/-- All the actions of a run meet the condition. -/
def AllMeet (s : Directory) : List DirectoryAction → Prop
  | [] => True
  | action :: actions => s.Meets action ∧ ∀ s', s.step action = some s' → s'.AllMeet actions

/-- The new accounts of an open view are reserved and nowhere else. -/
structure Pending (db : MemoryDatabase) (view : AccountCreationView) : Prop where
  distinct : view.owners.Nodup
  owned : ∀ row ∈ view.newAccounts, row.2.2.owner = row.2.1
  reserved : ∀ account ∈ view.owners, db.reservedAccountIds account = true
  committed : ∀ account ∈ view.owners, account ∉ ownersOf db.database
  uncommitted : ∀ account ∈ view.owners, account ∉ ownersOf db.uncommittedDb

/-- The invariant of the runs. -/
structure Sound (s : Directory) : Prop where
  committed : Indexes s.db.userIdToIdxMap 0 (ownersOf s.db.database)
  uncommitted : Indexes s.db.uncommittedIdxMap s.db.database.length (ownersOf s.db.uncommittedDb)
  apart : List.Disjoint (ownersOf s.db.database) (ownersOf s.db.uncommittedDb)
  pending : ∀ tx view, s.view? tx = some view → Pending s.db view
  separate : ∀ tx tx' view view', tx ≠ tx' → s.view? tx = some view → s.view? tx' = some view' →
    List.Disjoint view.owners view'.owners
  thunks : (s.db.accountCreationThunks.map AccountCreationThunk.numAccountsCreated).sum ≤ s.db.database.length
  succeeded : (s.succeeded.map Prod.snd).Nodup
  listed : ∀ account ∈ s.succeeded.map Prod.snd, account ∈ ownersOf s.db.uncommittedDb

section Views

variable {s : Directory} {tx other : Nat} {view : AccountCreationView}

theorem view?_set {db : MemoryDatabase} {succeeded : List (Nat × AccountID)} {view' : Option AccountCreationView}
    (opened : s.view? tx = some view) :
    view? ⟨db, s.views.set tx view', succeeded⟩ other = if other = tx then view' else s.view? other := by
  have inside : tx < s.views.length := by
    by_contra outside
    rw [view?, List.getElem?_eq_none (Nat.not_lt.mp outside)] at opened
    cases opened
  rw [view?, List.getElem?_set]
  by_cases here : other = tx
  · rw [if_pos here.symm, if_pos inside, if_pos here]
    rfl
  · rw [if_neg (Ne.symm here), if_neg here, view?]

theorem view?_none (closed : s.views.all Option.isNone = true) : s.view? tx = none := by
  rw [view?]
  rcases found : s.views[tx]? with _ | view
  · rfl
  · have none := List.all_eq_true.mp closed view (List.mem_of_getElem? found)
    rw [Option.isNone_iff_eq_none.mp none]
    rfl

end Views

section Databases

variable {db : MemoryDatabase} {account : AccountID}

@[simp] theorem ownersOf_append (accounts accounts' : List UserAccount) :
    ownersOf (accounts ++ accounts') = ownersOf accounts ++ ownersOf accounts' := List.map_append

@[simp] theorem length_ownersOf (accounts : List UserAccount) : (ownersOf accounts).length = accounts.length :=
  List.length_map _

theorem ownersOf_commit (accounts : List UserAccount) : ownersOf (accounts.map UserAccount.commit) = ownersOf accounts :=
  List.map_map

theorem reserve_spec (committed : Indexes db.userIdToIdxMap 0 (ownersOf db.database)) :
    ((db.reserveAccountCreation account).2 ≠ .success ∧ (db.reserveAccountCreation account).1 = db) ∨
      ((db.reserveAccountCreation account).2 = .success ∧ account ∉ ownersOf db.database ∧
        db.reservedAccountIds account = false ∧ (db.reserveAccountCreation account).1 =
          { db with reservedAccountIds := Function.update db.reservedAccountIds account true }) := by
  rw [MemoryDatabase.reserveAccountCreation]
  by_cases known : (db.userIdToIdxMap account).isSome = true
  · rw [if_pos known]
    exact Or.inl ⟨by simp, rfl⟩
  · rw [if_neg known]
    by_cases taken : db.reservedAccountIds account = true
    · rw [if_pos taken]
      exact Or.inl ⟨by simp, rfl⟩
    · rw [if_neg taken]
      exact Or.inr ⟨rfl, fun listed => known (committed.isSome_iff.mpr listed), Bool.not_eq_true _ ▸ taken, rfl⟩

/-- What the commit of a view leaves: the new accounts join the uncommitted ones. -/
structure Joined (db db' : MemoryDatabase) (created : List AccountID) : Prop where
  database : db'.database = db.database
  userIdToIdxMap : db'.userIdToIdxMap = db.userIdToIdxMap
  reserved : db'.reservedAccountIds = db.reservedAccountIds
  thunks : db'.accountCreationThunks = db.accountCreationThunks
  owners : ownersOf db'.uncommittedDb = ownersOf db.uncommittedDb ++ created
  indexes : Indexes db'.uncommittedIdxMap db'.database.length (ownersOf db'.uncommittedDb)

theorem commitAccountCreation_joins {data : UserAccount}
    (indexes : Indexes db.uncommittedIdxMap db.database.length (ownersOf db.uncommittedDb))
    (fresh : account ∉ ownersOf db.uncommittedDb) (owned : data.owner = account) :
    Joined db (db.commitAccountCreation account data) [account] := by
  have absent : ¬ (db.uncommittedIdxMap account).isSome = true := fun present => fresh (indexes.isSome_iff.mp present)
  have owners : ownersOf (db.uncommittedDb ++ [data]) = ownersOf db.uncommittedDb ++ [account] := by
    rw [ownersOf_append, ← owned]
    rfl
  refine ⟨rfl, rfl, rfl, rfl, owners, ?_⟩
  have grown := indexes.concat fresh
  rw [length_ownersOf, ← owners, Nat.add_comm] at grown
  rw [MemoryDatabase.commitAccountCreation, if_neg absent]
  exact grown

theorem commit_joins {order : List (Nat × AccountID × UserAccount)}
    (indexes : Indexes db.uncommittedIdxMap db.database.length (ownersOf db.uncommittedDb))
    (distinct : (order.map (fun row => row.2.1)).Nodup) (owned : ∀ row ∈ order, row.2.2.owner = row.2.1)
    (fresh : ∀ row ∈ order, row.2.1 ∉ ownersOf db.uncommittedDb) :
    Joined db (AccountCreationView.commit db order) (order.map (fun row => row.2.1)) := by
  induction order generalizing db with
  | nil => exact ⟨rfl, rfl, rfl, rfl, (List.append_nil _).symm, indexes⟩
  | cons row order ih =>
    rw [List.map_cons, List.nodup_cons] at distinct
    have once := commitAccountCreation_joins indexes (fresh row List.mem_cons_self) (owned row List.mem_cons_self)
    have rest := ih once.indexes distinct.2 (fun row' listed => owned row' (List.mem_cons_of_mem _ listed)) ?_
    · refine ⟨rest.database.trans once.database, rest.userIdToIdxMap.trans once.userIdToIdxMap,
        rest.reserved.trans once.reserved, rest.thunks.trans once.thunks, ?_, rest.indexes⟩
      rw [AccountCreationView.commit, List.foldl_cons]
      refine rest.owners.trans ?_
      rw [once.owners, List.append_assoc]
      rfl
    · intro row' listed present
      rw [once.owners, List.mem_append, List.mem_singleton] at present
      rcases present with old | same
      · exact fresh row' (List.mem_cons_of_mem _ listed) old
      · exact distinct.1 (same ▸ List.mem_map_of_mem listed)

/-- Unwinding only takes reservations back, those of the temporary indices. -/
theorem release_frame (rows : List (Nat × AccountID × UserAccount)) (db : MemoryDatabase) : ∃ kept : AccountID → Bool,
    rows.foldl (fun db row => db.releaseAccountCreation (BitVec.ofNat 64 row.1)) db = { db with reservedAccountIds := kept } ∧
      ∀ account, (∀ row ∈ rows, BitVec.ofNat 64 row.1 ≠ account) → kept account = db.reservedAccountIds account := by
  induction rows generalizing db with
  | nil => exact ⟨db.reservedAccountIds, rfl, fun _ _ => rfl⟩
  | cons row rows ih =>
    obtain ⟨kept, released, same⟩ := ih (db.releaseAccountCreation (BitVec.ofNat 64 row.1))
    refine ⟨kept, released, fun account other => ?_⟩
    rw [same account (fun row' listed => other row' (List.mem_cons_of_mem _ listed))]
    exact Function.update_of_ne (other row List.mem_cons_self).symm _ _

/-- Undoing a thunk takes the accounts of the end away. -/
theorem rollbackThunk_spec (committed : Indexes db.userIdToIdxMap 0 (ownersOf db.database)) (thunk : AccountCreationThunk) :
    Indexes (db.rollbackThunk thunk).userIdToIdxMap 0 (ownersOf (db.rollbackThunk thunk).database) ∧
      (db.rollbackThunk thunk).database.length = db.database.length - thunk.numAccountsCreated := by
  have erased := committed.take (db.database.length - thunk.numAccountsCreated)
  constructor
  · rw [ownersOf, ← List.map_drop, ← List.map_take, eraseAll, List.foldl_map] at erased
    exact erased
  · show (db.database.take _).length = _
    rw [List.length_take, Nat.min_eq_left (Nat.sub_le _ _)]

theorem rollbackThunks_spec {undone : List AccountCreationThunk}
    (committed : Indexes db.userIdToIdxMap 0 (ownersOf db.database)) :
    Indexes (undone.foldl MemoryDatabase.rollbackThunk db).userIdToIdxMap 0
        (ownersOf (undone.foldl MemoryDatabase.rollbackThunk db).database) ∧
      (undone.foldl MemoryDatabase.rollbackThunk db).database.length =
        db.database.length - (undone.map AccountCreationThunk.numAccountsCreated).sum := by
  induction undone generalizing db with
  | nil => exact ⟨committed, rfl⟩
  | cons thunk undone ih =>
    obtain ⟨indexes, shorter⟩ := rollbackThunk_spec committed thunk
    obtain ⟨rest, final⟩ := ih indexes
    refine ⟨rest, ?_⟩
    rw [List.foldl_cons, final, shorter, List.map_cons, List.sum_cons, Nat.sub_sub]

end Databases

section Steps

variable {s s' : Directory}

theorem sound_beginTransaction (sound : Sound s) : Sound { s with views := s.views ++ [some (.new s.db)] } := by
  have opened : ∀ tx view, view? { s with views := s.views ++ [some (.new s.db)] } tx = some view →
      s.view? tx = some view ∨ view.newAccounts = [] := by
    intro tx view found
    rw [view?] at found
    by_cases early : tx < s.views.length
    · rw [List.getElem?_append_left early] at found
      exact Or.inl found
    · rw [List.getElem?_append_right (Nat.not_lt.mp early)] at found
      cases place : tx - s.views.length with
      | zero =>
        rw [place] at found
        cases found
        exact Or.inr rfl
      | succ n =>
        rw [place] at found
        cases found
  refine ⟨sound.committed, sound.uncommitted, sound.apart, fun tx view found => ?_, ?_, sound.thunks, sound.succeeded,
    sound.listed⟩
  · rcases opened tx view found with old | empty
    · exact sound.pending tx view old
    · have none : view.owners = [] := by rw [AccountCreationView.owners, empty]; rfl
      constructor <;> simp [none, empty]
  · intro tx tx' view view' other found found'
    rcases opened tx view found with old | empty
    · rcases opened tx' view' found' with old' | empty'
      · exact sound.separate tx tx' view view' other old old'
      · rw [AccountCreationView.owners.eq_def view', empty']
        exact List.disjoint_nil_right _
    · rw [AccountCreationView.owners.eq_def view, empty]
      exact List.disjoint_nil_left _

theorem Pending.frame {db db' : MemoryDatabase} {view : AccountCreationView} (pending : Pending db view)
    (database : ownersOf db'.database = ownersOf db.database)
    (reserved : ∀ account ∈ view.owners, db'.reservedAccountIds account = true)
    (uncommitted : ∀ account ∈ view.owners, account ∉ ownersOf db'.uncommittedDb) : Pending db' view :=
  ⟨pending.distinct, pending.owned, reserved, fun account listed => database ▸ pending.committed account listed, uncommitted⟩

/-- A step that changes no list of accounts keeps the invariant if it keeps the views sound. -/
theorem Sound.frame (sound : Sound s) (committed : s'.db.userIdToIdxMap = s.db.userIdToIdxMap)
    (uncommitted : s'.db.uncommittedIdxMap = s.db.uncommittedIdxMap) (database : s'.db.database = s.db.database)
    (uncommittedDb : s'.db.uncommittedDb = s.db.uncommittedDb)
    (thunks : s'.db.accountCreationThunks = s.db.accountCreationThunks) (succeeded : s'.succeeded = s.succeeded)
    (pending : ∀ tx view, s'.view? tx = some view → Pending s'.db view)
    (separate : ∀ tx tx' view view', tx ≠ tx' → s'.view? tx = some view → s'.view? tx' = some view' →
      List.Disjoint view.owners view'.owners) : Sound s' := by
  refine ⟨?_, ?_, ?_, pending, separate, ?_, ?_, ?_⟩
  · rw [committed, database]
    exact sound.committed
  · rw [uncommitted, database, uncommittedDb]
    exact sound.uncommitted
  · rw [database, uncommittedDb]
    exact sound.apart
  · rw [thunks, database]
    exact sound.thunks
  · rw [succeeded]
    exact sound.succeeded
  · rw [succeeded, uncommittedDb]
    exact sound.listed

theorem emplace_eq {K V : Type} [DecidableEq K] (entries : List (K × V)) (key : K) (value : V) :
    emplace entries key value = entries ∨ emplace entries key value = entries ++ [(key, value)] := by
  rw [emplace]
  split
  · exact Or.inl rfl
  · exact Or.inr rfl

theorem sound_createNewAccount (sound : Sound s) {tx : Nat} {account : AccountID} {pk : PublicKey}
    (meets : s.Meets (.createNewAccount tx account pk)) (done : s.step (.createNewAccount tx account pk) = some s') :
    Sound s' := by
  rw [step, Option.map_eq_some_iff] at done
  obtain ⟨view, opened, rfl⟩ := done
  rw [AccountCreationView.createNewAccount]
  rcases @reserve_spec s.db account sound.committed with ⟨refused, same⟩ | ⟨success, known, free, same⟩
  · rw [if_pos refused, same]
    have views : ∀ other, view? { s with views := s.views.set tx (some view) } other = s.view? other := by
      intro other
      rw [view?_set opened]
      split
      next here => rw [here, opened]
      next => rfl
    exact sound.frame rfl rfl rfl rfl rfl rfl (fun other view' found => sound.pending other view' (views other ▸ found))
      (fun other other' view' view'' apart found found' =>
        sound.separate other other' view' view'' apart (views other ▸ found) (views other' ▸ found'))
  · rw [if_neg (not_not.mpr success), same]
    have untouched : ∀ other view', s.view? other = some view' → account ∉ view'.owners := by
      intro other view' found listed
      have taken := (sound.pending other view' found).reserved account listed
      rw [free] at taken
      cases taken
    have reserved : ∀ account', s.db.reservedAccountIds account' = true →
        Function.update s.db.reservedAccountIds account true account' = true := by
      intro account' taken
      rw [Function.update_apply]
      split
      · rfl
      · exact taken
    have kept : ∀ other view', s.view? other = some view' →
        Pending { s.db with reservedAccountIds := Function.update s.db.reservedAccountIds account true } view' :=
      fun other view' found => (sound.pending other view' found).frame rfl
        (fun account' listed => reserved account' ((sound.pending other view' found).reserved account' listed))
        (sound.pending other view' found).uncommitted
    dsimp only
    generalize view.temporaryIdxs.length + view.dbSize = newIdx
    generalize emplace view.temporaryIdxs account newIdx = temporaryIdxs
    generalize created_eq : emplace view.newAccounts newIdx (account, UserAccount.new account pk) = created
    have old := kept tx view opened
    -- the new view has one account more, if the index is new
    have rows : ∀ row ∈ created, row ∈ view.newAccounts ∨ row = (newIdx, account, UserAccount.new account pk) := by
      intro row listed
      rcases emplace_eq view.newAccounts newIdx (account, UserAccount.new account pk) with none | one
      · rw [← created_eq, none] at listed
        exact Or.inl listed
      · rw [← created_eq, one, List.mem_append, List.mem_singleton] at listed
        exact listed
    have owners : ∀ account' ∈ created.map (fun row => row.2.1), account' ∈ view.owners ∨ account' = account := by
      intro account' listed
      obtain ⟨row, present, rfl⟩ := List.mem_map.mp listed
      rcases rows row present with before | rfl
      · exact Or.inl (List.mem_map_of_mem before)
      · exact Or.inr rfl
    have fresh := untouched tx view opened
    have pending : Pending { s.db with reservedAccountIds := Function.update s.db.reservedAccountIds account true }
        ⟨view.dbSize, created, temporaryIdxs⟩ := by
      refine ⟨?_, ?_, ?_, ?_, ?_⟩
      · rcases emplace_eq view.newAccounts newIdx (account, UserAccount.new account pk) with none | one
        · rw [← created_eq, none]
          exact old.distinct
        · rw [← created_eq, one, AccountCreationView.owners, List.map_append, List.nodup_append']
          exact ⟨old.distinct, List.nodup_singleton _, List.disjoint_singleton.mpr fresh⟩
      · intro row listed
        rcases rows row listed with before | rfl
        · exact old.owned row before
        · rfl
      · intro account' listed
        rcases owners account' listed with before | rfl
        · exact old.reserved account' before
        · exact Function.update_self _ _ _
      · intro account' listed
        rcases owners account' listed with before | rfl
        · exact old.committed account' before
        · exact known
      · intro account' listed
        rcases owners account' listed with before | rfl
        · exact old.uncommitted account' before
        · intro present
          have taken := meets present
          rw [free] at taken
          cases taken
    have apart : ∀ other view', other ≠ tx → s.view? other = some view' →
        List.Disjoint (created.map (fun row => row.2.1)) view'.owners := by
      intro other view' differs found account' listed present
      rcases owners account' listed with before | rfl
      · exact sound.separate tx other view view' differs.symm opened found before present
      · exact untouched other view' found present
    refine sound.frame rfl rfl rfl rfl rfl rfl (fun other view' found => ?_)
      (fun other other' view' view'' differs found found' => ?_)
    · rw [view?_set opened] at found
      split at found
      next =>
        cases found
        exact pending
      next => exact kept other view' found
    · rw [view?_set opened] at found found'
      split at found
      next here =>
        cases found
        rw [if_neg (here ▸ differs.symm)] at found'
        exact apart other' view'' (here ▸ differs.symm) found'
      next there =>
        split at found'
        next =>
          cases found'
          exact (apart other view' there found).symm
        next => exact sound.separate other other' view' view'' differs found found'

theorem sound_commit (sound : Sound s) {tx : Nat} {order : List (Nat × AccountID × UserAccount)}
    (done : s.step (.commit tx order) = some s') : Sound s' := by
  rw [step, Option.bind_eq_some_iff] at done
  obtain ⟨view, opened, done⟩ := done
  rw [Option.ite_none_right_eq_some] at done
  obtain ⟨met, same⟩ := done
  cases same
  have pending := sound.pending tx view opened
  have owners : (order.map (fun row => row.2.1)).Perm view.owners := met.map _
  have distinct := owners.nodup_iff.mpr pending.distinct
  have fresh : ∀ account ∈ order.map (fun row => row.2.1), account ∉ ownersOf s.db.uncommittedDb :=
    fun account listed => pending.uncommitted _ (owners.mem_iff.mp listed)
  have joined := commit_joins sound.uncommitted distinct (fun row listed => pending.owned row (met.mem_iff.mp listed))
    (fun row listed => fresh _ (List.mem_map_of_mem listed))
  have left : ∀ other view', view? ⟨AccountCreationView.commit s.db order, s.views.set tx none,
      s.succeeded ++ order.map (fun row => (tx, row.2.1))⟩ other = some view' → other ≠ tx ∧ s.view? other = some view' := by
    intro other view' found
    rw [view?_set opened] at found
    split at found
    next => cases found
    next apart => exact ⟨apart, found⟩
  have created : (s.succeeded ++ order.map (fun row => (tx, row.2.1))).map Prod.snd =
      s.succeeded.map Prod.snd ++ order.map (fun row => row.2.1) := by
    rw [List.map_append, List.map_map]
    rfl
  refine ⟨?_, joined.indexes, ?_, fun other view' found => ?_, fun other other' view' view'' apart found found' => ?_, ?_, ?_, ?_⟩
  · rw [joined.userIdToIdxMap, joined.database]
    exact sound.committed
  · rw [joined.database, joined.owners, List.disjoint_append_right]
    exact ⟨sound.apart, fun account known listed => pending.committed account (owners.mem_iff.mp listed) known⟩
  · obtain ⟨apart, found⟩ := left other view' found
    have others := sound.pending other view' found
    refine others.frame (congrArg ownersOf joined.database)
      (fun account listed => (congrFun joined.reserved account).trans (others.reserved account listed)) (fun account listed => ?_)
    rw [joined.owners, List.mem_append]
    rintro (old | new)
    · exact others.uncommitted account listed old
    · exact sound.separate other tx view' view apart found opened listed (owners.mem_iff.mp new)
  · exact sound.separate other other' view' view'' apart (left other view' found).2 (left other' view'' found').2
  · rw [joined.thunks, joined.database]
    exact sound.thunks
  · rw [created, List.nodup_append']
    exact ⟨sound.succeeded, distinct, fun account old new => fresh account new (sound.listed account old)⟩
  · rw [created, joined.owners]
    intro account listed
    rw [List.mem_append] at listed ⊢
    exact listed.imp_left (sound.listed account)

theorem sound_unwind (sound : Sound s) {tx : Nat} (meets : s.Meets (.unwind tx)) (done : s.step (.unwind tx) = some s') :
    Sound s' := by
  rw [step, Option.map_eq_some_iff] at done
  obtain ⟨view, opened, rfl⟩ := done
  obtain ⟨kept, released, same⟩ := release_frame view.newAccounts s.db
  have left : ∀ other view', view? { s with db := view.unwind s.db, views := s.views.set tx none } other = some view' →
      other ≠ tx ∧ s.view? other = some view' := by
    intro other view' found
    rw [view?_set opened] at found
    split at found
    next => cases found
    next apart => exact ⟨apart, found⟩
  rw [AccountCreationView.unwind, released] at *
  refine sound.frame rfl rfl rfl rfl rfl rfl (fun other view' found => ?_)
    (fun other other' view' view'' apart found found' =>
      sound.separate other other' view' view'' apart (left other view' found).2 (left other' view'' found').2)
  obtain ⟨apart, found⟩ := left other view' found
  have others := sound.pending other view' found
  refine others.frame rfl (fun account listed => ?_) others.uncommitted
  show kept account = true
  rw [same account]
  · exact others.reserved account listed
  · intro row new here
    exact meets view other view' opened apart found row new (here ▸ listed)

theorem sound_addAccountToDb (sound : Sound s) {account : AccountID} {pk : PublicKey}
    (meets : s.Meets (.addAccountToDb account pk)) : Sound { s with db := (s.db.addAccountToDb account pk).1 } := by
  rw [MemoryDatabase.addAccountToDb]
  rcases known : s.db.userIdToIdxMap account with _ | idx
  · rcases waiting : s.db.uncommittedIdxMap account with _ | idx
    · have fresh := sound.uncommitted.eq_none_iff.mp waiting
      have owners : ownersOf (s.db.uncommittedDb ++ [UserAccount.new account pk]) =
          ownersOf s.db.uncommittedDb ++ [account] := ownersOf_append _ _
      have grown := sound.uncommitted.concat fresh
      rw [length_ownersOf, ← owners] at grown
      refine ⟨sound.committed, grown, ?_, fun tx view found => ?_, sound.separate, sound.thunks, sound.succeeded, ?_⟩
      · rw [owners, List.disjoint_append_right]
        exact ⟨sound.apart, List.disjoint_singleton.mpr (sound.committed.eq_none_iff.mp known)⟩
      · have pending := sound.pending tx view found
        refine pending.frame rfl pending.reserved (fun other listed => ?_)
        rw [owners, List.mem_append, List.mem_singleton]
        rintro (old | rfl)
        · exact pending.uncommitted other listed old
        · exact meets tx view found listed
      · intro other listed
        rw [owners]
        exact List.mem_append_left _ (sound.listed other listed)
    · exact sound
  · exact sound

theorem sound_commitNewAccounts (sound : Sound s) (closed : s.views.all Option.isNone = true)
    {currentBlockNumber : BitVec 64} {db : MemoryDatabase} (done : s.db.commitNewAccounts currentBlockNumber = .ok db) :
    Sound { s with db := db, succeeded := [] } := by
  simp only [MemoryDatabase.commitNewAccounts] at done
  split_ifs at done
  · cases done
    have none : ∀ tx view, s.view? tx = some view → False := by
      intro tx view found
      rw [view?_none closed] at found
      cases found
    have placed : Indexes s.db.uncommittedIdxMap (0 + (ownersOf s.db.database).length) (ownersOf s.db.uncommittedDb) := by
      rw [length_ownersOf, Nat.zero_add]
      exact sound.uncommitted
    have joined := sound.committed.append placed sound.apart
    rw [← ownersOf_commit s.db.uncommittedDb, ← ownersOf_append] at joined
    refine ⟨joined, indexes_nil _, List.disjoint_nil_right _, fun tx view found => (none tx view found).elim,
      fun tx _ view _ _ found => (none tx view found).elim, ?_, List.nodup_nil, by simp⟩
    have thunks := sound.thunks
    show ((s.db.accountCreationThunks ++ [AccountCreationThunk.mk currentBlockNumber s.db.uncommittedDb.length]).map
      AccountCreationThunk.numAccountsCreated).sum ≤ (s.db.database ++ s.db.uncommittedDb.map UserAccount.commit).length
    rw [List.map_append, List.sum_append, List.length_append, List.length_map]
    simpa using thunks

/-- The thunks of a database split into those of the later blocks and the others. -/
theorem sum_thunks (chosen : AccountCreationThunk → Bool) (thunks : List AccountCreationThunk) :
    (thunks.map AccountCreationThunk.numAccountsCreated).sum =
      ((thunks.filter chosen).map AccountCreationThunk.numAccountsCreated).sum +
        ((thunks.filter (fun thunk => !chosen thunk)).map AccountCreationThunk.numAccountsCreated).sum := by
  have parts := (List.filter_append_perm chosen thunks).map AccountCreationThunk.numAccountsCreated
  rw [← parts.sum_eq, List.map_append, List.sum_append]

theorem sound_rollbackNewAccounts (sound : Sound s) (closed : s.views.all Option.isNone = true)
    (currentBlockNumber : BitVec 64) :
    Sound { s with db := s.db.rollbackNewAccounts currentBlockNumber, succeeded := [] } := by
  have none : ∀ tx view, s.view? tx = some view → False := by
    intro tx view found
    rw [view?_none closed] at found
    cases found
  obtain ⟨indexes, shorter⟩ := @rollbackThunks_spec s.db
    (s.db.accountCreationThunks.filter (fun thunk => currentBlockNumber.ult thunk.currentBlockNumber)) sound.committed
  have whole := sum_thunks (fun thunk => currentBlockNumber.ult thunk.currentBlockNumber) s.db.accountCreationThunks
  have thunks := sound.thunks
  refine ⟨indexes, indexes_nil _, List.disjoint_nil_right _, fun tx view found => (none tx view found).elim,
    fun tx _ view _ _ found => (none tx view found).elim, ?_, List.nodup_nil, by simp⟩
  show ((s.db.accountCreationThunks.filter (fun thunk => !currentBlockNumber.ult thunk.currentBlockNumber)).map
    AccountCreationThunk.numAccountsCreated).sum ≤ _
  exact (show _ ≤ s.db.database.length - _ by omega).trans_eq shorter.symm

/-- One action keeps the invariant. -/
theorem sound_step {action : DirectoryAction} (sound : Sound s) (meets : s.Meets action) (done : s.step action = some s') :
    Sound s' := by
  cases action with
  | beginTransaction =>
    cases done
    exact sound_beginTransaction sound
  | createNewAccount tx account pk => exact sound_createNewAccount sound meets done
  | commit tx order => exact sound_commit sound done
  | unwind tx => exact sound_unwind sound meets done
  | addAccountToDb account pk =>
    cases done
    exact sound_addAccountToDb sound meets
  | commitNewAccounts currentBlockNumber =>
    rw [step, Option.ite_none_right_eq_some] at done
    obtain ⟨closed, done⟩ := done
    rcases committed : s.db.commitNewAccounts currentBlockNumber with error | db
    · rw [committed] at done
      cases done
      exact sound
    · rw [committed] at done
      cases done
      exact sound_commitNewAccounts sound closed committed
  | rollbackNewAccounts currentBlockNumber =>
    rw [step, Option.ite_none_right_eq_some] at done
    obtain ⟨closed, done⟩ := done
    cases done
    exact sound_rollbackNewAccounts sound closed currentBlockNumber

/-- A run of actions that meet the condition keeps the invariant. -/
theorem sound_run {actions : List DirectoryAction} (sound : Sound s) (meets : s.AllMeet actions)
    (done : s.run actions = some s') : Sound s' := by
  induction actions generalizing s with
  | nil =>
    cases done
    exact sound
  | cons action actions ih =>
    rw [run, Option.bind_eq_some_iff] at done
    obtain ⟨between, once, rest⟩ := done
    exact ih (sound_step sound meets.1 once) (meets.2 between once) rest

theorem lookup_owners {accounts : List UserAccount} {j : Nat} {account : AccountID} :
    (ownersOf accounts)[j]? = some account ↔ ∃ entry, accounts[j]? = some entry ∧ entry.owner = account := by
  rw [ownersOf, List.getElem?_map, Option.map_eq_some_iff]

theorem Sound.bijective (sound : Sound s) : s.Bijective := by
  refine ⟨?_, fun account i => ?_, fun account i => ?_, sound.succeeded⟩
  · rw [ownersOf_append]
    exact List.nodup_append'.mpr ⟨sound.committed.distinct, sound.uncommitted.distinct, sound.apart⟩
  · rw [sound.committed.lookup, ← lookup_owners]
    constructor
    · rintro ⟨j, rfl, listed⟩
      rwa [Nat.zero_add]
    · intro listed
      exact ⟨i, (Nat.zero_add i).symm, listed⟩
  · rw [sound.uncommitted.lookup]
    refine exists_congr (fun j => ?_)
    rw [lookup_owners, ← exists_and_left]

end Steps

/-- A database as a node starts with it: between blocks, and with no thunks. -/
structure Idle (db : MemoryDatabase) : Prop where
  userIdToIdxMap : Indexes db.userIdToIdxMap 0 (ownersOf db.database)
  uncommittedIdxMap : db.uncommittedIdxMap = fun _ => none
  uncommittedDb : db.uncommittedDb = []
  accountCreationThunks : db.accountCreationThunks = []

/-- The directory before any transaction. -/
def start (db : MemoryDatabase) : Directory := ⟨db, [], []⟩

theorem sound_start {db : MemoryDatabase} (idle : Idle db) : Sound (start db) := by
  have none : ∀ tx view, (start db).view? tx = some view → False := by
    intro tx view found
    cases found
  refine ⟨idle.userIdToIdxMap, ?_, ?_, fun tx view found => (none tx view found).elim,
    fun tx _ view _ _ found => (none tx view found).elim, ?_, List.nodup_nil, by simp [start]⟩
  · show Indexes db.uncommittedIdxMap _ (ownersOf db.uncommittedDb)
    rw [idle.uncommittedIdxMap, idle.uncommittedDb]
    exact indexes_nil _
  · show List.Disjoint _ (ownersOf db.uncommittedDb)
    rw [idle.uncommittedDb]
    exact List.disjoint_nil_right _
  · show (db.accountCreationThunks.map _).sum ≤ _
    rw [idle.accountCreationThunks]
    exact Nat.zero_le _

/-- Runs whose actions all meet the condition keep the directory a bijection. -/
theorem bijective_of_run {db : MemoryDatabase} {actions : List DirectoryAction} {s : Directory} (idle : Idle db)
    (meets : (start db).AllMeet actions) (done : (start db).run actions = some s) : s.Bijective :=
  (sound_run (sound_start idle) meets done).bijective

section Sample

def emptyDb : MemoryDatabase := ⟨fun _ => none, fun _ => none, fun _ => false, [], [], [], 0⟩

theorem idle_emptyDb : Idle emptyDb := ⟨indexes_nil 0, rfl, rfl, rfl⟩

/-- One transaction that creates account 2. -/
def createdOnce : List DirectoryAction :=
  [.beginTransaction, .createNewAccount 0 2 [], .commit 0 [(0, 2, UserAccount.new 2 [])], .commitNewAccounts 0]

theorem createdOnce_meets : (start emptyDb).AllMeet createdOnce := by
  refine ⟨trivial, fun s once => ?_⟩
  cases once
  exact ⟨fun waiting => (List.not_mem_nil waiting).elim, fun s _ => ⟨trivial, fun s _ => ⟨trivial, fun s _ => trivial⟩⟩⟩

theorem bijective_of_run_sample : Idle emptyDb ∧ (start emptyDb).AllMeet createdOnce ∧
    ∃ s, (start emptyDb).run createdOnce = some s ∧ s.Bijective := by
  obtain ⟨s, done⟩ := Option.isSome_iff_exists.mp (by decide : ((start emptyDb).run createdOnce).isSome = true)
  exact ⟨idle_emptyDb, createdOnce_meets, s, done, bijective_of_run idle_emptyDb createdOnce_meets done⟩

/-- Account 7 exists. One transaction creates account 2 and stays open; a second one creates accounts 8
and 9 under the temporary indices 1 and 2 and fails, which takes the reservation of account 2 back; and
a third one creates account 2 again. -/
def takenTwice : List DirectoryAction :=
  [.addAccountToDb 7 [], .commitNewAccounts 0,
    .beginTransaction, .beginTransaction, .beginTransaction,
    .createNewAccount 0 2 [], .createNewAccount 1 8 [], .createNewAccount 1 9 [], .unwind 1, .createNewAccount 2 2 [],
    .commit 0 [(1, 2, UserAccount.new 2 [])], .commit 2 [(1, 2, UserAccount.new 2 [])]]

theorem account_created_twice : Idle emptyDb ∧ ∃ s, (start emptyDb).run takenTwice = some s ∧
    ownersOf (s.db.database ++ s.db.uncommittedDb) = [7, 2, 2] ∧ s.succeeded = [(0, 2), (2, 2)] ∧ ¬ s.Bijective := by
  have owners : ((start emptyDb).run takenTwice).map (fun s => ownersOf (s.db.database ++ s.db.uncommittedDb)) =
      some [7, 2, 2] := by decide
  have succeeded : ((start emptyDb).run takenTwice).map succeeded = some [(0, 2), (2, 2)] := by decide
  obtain ⟨s, done, listed⟩ := Option.map_eq_some_iff.mp owners
  rw [done, Option.map_some, Option.some.injEq] at succeeded
  refine ⟨idle_emptyDb, s, done, listed, succeeded, fun bijective => ?_⟩
  have distinct := bijective.distinct
  rw [listed] at distinct
  revert distinct
  decide

end Sample

end Directory

end Speedex
