import Mathlib.Data.List.GetD
import Speedex.Ledger.Directory
import Speedex.Ledger.Transaction
import Speedex.Library.Machine
import Speedex.Library.Parallel

set_option autoImplicit false

/- Sharded signature checking: the controller distributes the accounts over the shards, and each shard
hands the transactions of its accounts to its checkers. -/
namespace Speedex

open Machine Parallel

structure AccountIDWithPK where
  account : AccountID
  pk : PublicKey
deriving DecidableEq

structure SignedTransactionWithPK where
  signedTransaction : SignedTransaction
  pk : PublicKey
deriving DecidableEq

def SignedTransactionWithPK.sourceAccount (tx : SignedTransactionWithPK) : AccountID :=
  tx.signedTransaction.transaction.metadata.sourceAccount

/-- The default constructor. -/
instance : Inhabited SignedTransactionWithPK := ⟨⟨⟨⟨⟨0, 0⟩, [], 0⟩, []⟩, []⟩⟩

/-- How a shard ends without a result. -/
inductive ShardFailure where
  | undefined (reason : Undefined)
  | outOfRange
  | runtimeError (what : String)
deriving DecidableEq, Repr

section Controller

variable {α : Type}

/-- `std::partition` of the range from an iterator to the end, with the iterator it returns. -/
def partitionFrom (partition : StdPartition α) (p : α → Bool) (first : Nat) (items : List α) : List α × Nat :=
  let parts := partition.run p (items.drop first)
  (items.take first ++ parts.1 ++ parts.2, first + parts.1.length)

/-- One round of the loop of `shard_accounts`. -/
def shardRound (partition : StdPartition α) (condition : α → Nat) (state : List α × List Nat) (i : Nat) :
    List α × List Nat :=
  let next := partitionFrom partition (fun v => condition v = i + 1) (state.2.getD i 0) state.1
  (next.1, state.2 ++ [next.2])

/-- `shard_accounts`: the array it leaves and the ends of the shards but the last. -/
def shardAccounts (partition : StdPartition α) (items : List α) (condition : α → Nat) (numVirtShards : Nat) :
    List α × List Nat :=
  if numVirtShards < 2 then (items, [items.length])
  else
    let first := partitionFrom partition (fun v => condition v = 0) 0 items
    (List.range (numVirtShards - 2)).foldl (shardRound partition condition) (first.1, [first.2])

/-- The elements between two iterators. -/
def slice (items : List α) (first last : Nat) : List α := (items.take last).drop first

/-- The end of `setup_controller_db`: the account lists of the virtual shards. -/
def shardLists (partition : StdPartition α) (items : List α) (condition : α → Nat) (numVirtShards : Nat) :
    List (List α) :=
  let state := shardAccounts partition items condition numVirtShards
  let ptr := fun i => state.2.getD i 0
  [slice state.1 0 (ptr 0)] ++
    if numVirtShards > 1 then
      (List.range' 1 (numVirtShards - 1 - 1)).map (fun i => slice state.1 (ptr (i - 1)) (ptr i)) ++
        [slice state.1 (ptr (numVirtShards - 2)) state.1.length]
    else []

/-- The array while it is partitioned: the first `k` parts have the elements with the conditions below
`k`, and the iterators point to their ends. -/
structure Parted (condition : α → Nat) (all : List α) (state : List α × List Nat) (parts : List (List α))
    (rest : List α) : Prop where
  array : state.1 = parts.flatten ++ rest
  count : state.2.length = parts.length
  ends : ∀ i < parts.length, state.2.getD i 0 = (parts.take (i + 1)).flatten.length
  part : ∀ i (items : List α), parts[i]? = some items → items.Perm (all.filter (fun a => condition a = i))
  remaining : rest.Perm (all.filter (fun a => parts.length ≤ condition a))

theorem Parted.next (partition : StdPartition α) {condition : α → Nat} {all rest : List α}
    {state : List α × List Nat} {parts : List (List α)} (parted : Parted condition all state parts rest) :
    ∃ front rest', Parted condition all
      ((partitionFrom partition (fun v => condition v = parts.length) parts.flatten.length state.1).1,
        state.2 ++ [(partitionFrom partition (fun v => condition v = parts.length) parts.flatten.length state.1).2])
      (parts ++ [front]) rest' := by
  have dropped : state.1.drop parts.flatten.length = rest := by rw [parted.array, List.drop_left]
  have kept : state.1.take parts.flatten.length = parts.flatten := by rw [parted.array, List.take_left]
  have front := partition.front (fun v => condition v = parts.length) rest
  have back := partition.rest (fun v => condition v = parts.length) rest
  refine ⟨(partition.run (fun v => condition v = parts.length) rest).1,
    (partition.run (fun v => condition v = parts.length) rest).2, ?_, ?_, ?_, ?_, ?_⟩
  · rw [partitionFrom, dropped, kept, List.flatten_append, List.flatten_singleton]
  · rw [List.length_append, List.length_append, parted.count]
    rfl
  · intro i inside
    rw [List.length_append, List.length_singleton] at inside
    rcases Nat.lt_succ_iff_lt_or_eq.mp inside with early | rfl
    · rw [List.getD_append _ _ _ _ (parted.count ▸ early), parted.ends i early, List.take_append_of_le_length early]
    · have whole : ∀ front : List α, (parts ++ [front]).take (parts.length + 1) = parts ++ [front] :=
        fun front => List.take_of_length_le (by rw [List.length_append, List.length_singleton])
      rw [List.getD_append_right _ _ _ _ (Nat.le_of_eq parted.count), parted.count, Nat.sub_self, whole,
        List.flatten_append, List.flatten_singleton, List.length_append]
      show (partitionFrom _ _ _ _).2 = _
      rw [partitionFrom, dropped]
  · intro i items found
    rcases Nat.lt_or_ge i parts.length with early | late
    · rw [List.getElem?_append_left early] at found
      exact parted.part i items found
    · rw [List.getElem?_append_right late, List.getElem?_singleton] at found
      split at found
      next here =>
        cases found
        have place : i = parts.length := by omega
        subst place
        refine front.trans ((parted.remaining.filter _).trans ?_)
        rw [List.filter_filter]
        refine List.Perm.of_eq (List.filter_congr (fun a _ => ?_))
        by_cases here : condition a = parts.length <;> simp [here]
      next => cases found
  · refine back.trans ((parted.remaining.filter _).trans ?_)
    rw [List.filter_filter]
    refine List.Perm.of_eq (List.filter_congr (fun a _ => ?_))
    rw [List.length_append, List.length_singleton, Bool.eq_iff_iff]
    simp
    omega

theorem shardAccounts_parted (partition : StdPartition α) (items : List α) (condition : α → Nat) (rounds : Nat) :
    ∃ parts rest, Parted condition items (shardAccounts partition items condition (rounds + 2)) parts rest ∧
      parts.length = rounds + 1 := by
  have start : Parted condition items (items, []) [] items :=
    ⟨rfl, rfl, fun i absurd => (Nat.not_lt_zero i absurd).elim, fun i l absurd => (Option.some_ne_none l absurd.symm).elim,
      by simp⟩
  rw [shardAccounts, if_neg (by omega), Nat.add_sub_cancel]
  induction rounds with
  | zero =>
    obtain ⟨front, rest', once⟩ := start.next partition
    exact ⟨[] ++ [front], rest', once, rfl⟩
  | succ rounds ih =>
    obtain ⟨parts, rest, parted, count⟩ := ih
    obtain ⟨front, rest', once⟩ := parted.next partition
    refine ⟨parts ++ [front], rest', ?_, by rw [List.length_append, count]; rfl⟩
    rw [List.range_succ, List.foldl_append]
    rw [List.foldl_cons, List.foldl_nil, shardRound]
    rw [parted.ends rounds (by omega), List.take_of_length_le (by omega), ← count]
    exact once

theorem slice_flatten {parts : List (List α)} {rest : List α} {i : Nat} (inside : i < parts.length) :
    slice (parts.flatten ++ rest) (parts.take i).flatten.length (parts.take (i + 1)).flatten.length = parts[i] := by
  have whole : parts.flatten ++ rest = (parts.take (i + 1)).flatten ++ ((parts.drop (i + 1)).flatten ++ rest) := by
    rw [← List.append_assoc, ← List.flatten_append, List.take_append_drop]
  rw [slice, whole, List.take_left, ← List.take_append_getElem inside, List.flatten_append, List.flatten_singleton,
    List.drop_left]

/-- The lists are the parts and what remains. -/
theorem shardLists_eq {partition : StdPartition α} {items rest : List α} {condition : α → Nat} {rounds : Nat}
    {parts : List (List α)} (count : parts.length = rounds + 1)
    (parted : Parted condition items (shardAccounts partition items condition (rounds + 2)) parts rest) :
    shardLists partition items condition (rounds + 2) = parts ++ [rest] := by
  have last : ∀ i, i < rounds + 1 → (shardAccounts partition items condition (rounds + 2)).2.getD i 0 =
      (parts.take (i + 1)).flatten.length := fun i inside => parted.ends i (count ▸ inside)
  have whole : (parts.take (rounds + 1)).flatten = parts.flatten := by rw [List.take_of_length_le (Nat.le_of_eq count)]
  have parts_eq : parts = parts[0] :: (List.range' 1 rounds).map (fun i => parts.getD i []) := by
    refine List.ext_getElem (by simp [count]) (fun i inside _ => ?_)
    cases i with
    | zero => rfl
    | succ i => simp [Nat.add_comm 1 i, List.getElem?_eq_getElem inside]
  have middle : (List.range' 1 rounds).map (fun i =>
      slice (shardAccounts partition items condition (rounds + 2)).1
        ((shardAccounts partition items condition (rounds + 2)).2.getD (i - 1) 0)
        ((shardAccounts partition items condition (rounds + 2)).2.getD i 0)) =
      (List.range' 1 rounds).map (fun i => parts.getD i []) := by
    refine List.map_congr_left (fun i listed => ?_)
    obtain ⟨positive, below⟩ := List.mem_range'_1.mp listed
    rw [last (i - 1) (by omega), last i (by omega), Nat.sub_add_cancel positive, parted.array,
      slice_flatten (by omega), List.getD_eq_getElem _ _ (by omega)]
  have first : slice (shardAccounts partition items condition (rounds + 2)).1 0
      ((shardAccounts partition items condition (rounds + 2)).2.getD 0 0) = parts[0] := by
    rw [last 0 (by omega), parted.array]
    exact slice_flatten (i := 0) (by omega)
  have final : slice (shardAccounts partition items condition (rounds + 2)).1
      ((shardAccounts partition items condition (rounds + 2)).2.getD rounds 0)
      (shardAccounts partition items condition (rounds + 2)).1.length = rest := by
    rw [last rounds (by omega), whole, slice, List.take_length, parted.array, List.drop_left]
  rw [shardLists, if_pos (by omega), parts_eq, ← middle, ← first, ← final]
  rfl

/-- Each element is in the list of its condition, as often as it was given. -/
theorem shardLists_spec (partition : StdPartition α) (items : List α) (condition : α → Nat) {numVirtShards : Nat}
    (positive : 1 ≤ numVirtShards) (below : ∀ a, condition a < numVirtShards) :
    (shardLists partition items condition numVirtShards).length = numVirtShards ∧
      ∀ i (part : List α), (shardLists partition items condition numVirtShards)[i]? = some part →
        part.Perm (items.filter (fun a => condition a = i)) := by
  rcases Nat.lt_or_ge 1 numVirtShards with several | one
  · obtain ⟨rounds, rfl⟩ := Nat.exists_eq_add_of_le' several
    obtain ⟨parts, rest, parted, count⟩ := shardAccounts_parted partition items condition rounds
    rw [shardLists_eq count parted]
    refine ⟨by rw [List.length_append, count]; rfl, fun i part found => ?_⟩
    rcases Nat.lt_or_ge i parts.length with early | late
    · rw [List.getElem?_append_left early] at found
      exact parted.part i part found
    · rw [List.getElem?_append_right late, List.getElem?_singleton] at found
      split at found
      next here =>
        cases found
        refine parted.remaining.trans (List.Perm.of_eq (List.filter_congr (fun a _ => ?_)))
        have top := below a
        rw [decide_eq_decide]
        omega
      next => cases found
  · obtain rfl : numVirtShards = 1 := by omega
    have sole : shardLists partition items condition 1 = [items] := by
      show [slice items 0 items.length] = [items]
      rw [slice, List.take_length, List.drop_zero]
    rw [sole]
    refine ⟨rfl, fun i part found => ?_⟩
    rw [List.getElem?_singleton] at found
    split at found
    next here =>
      cases found
      refine List.Perm.of_eq (List.filter_eq_self.mpr (fun a _ => ?_)).symm
      have top := below a
      rw [decide_eq_true_iff]
      omega
    next => cases found

def setupControllerDb (partition : StdPartition AccountIDWithPK) (accounts : List AccountIDWithPK)
    (numVirtShards : Nat) : List (List AccountIDWithPK) :=
  shardLists partition accounts (fun x => x.account.toNat % numVirtShards) numVirtShards

end Controller

section Shard

/-- `init_shard`, for the accounts of one virtual shard. -/
def initShard (db : MemoryDatabase) (accounts : List AccountIDWithPK) : Except String MemoryDatabase := do
  let added := accounts.foldl (fun db entry => (db.addAccountToDb entry.account entry.pk).1) db
  let db ← added.commitNewAccounts 0
  .ok db.commitValues

/-- The virtual shards that the controller sends to physical shard `j`. -/
def virtualShardsOf (numVirtShards numPhysShards j : Nat) : List Nat :=
  (List.range numVirtShards).filter (fun i => i % numPhysShards = j)

/-- The database of a physical shard, for an order in which its virtual shards arrive. -/
def initShards (shardList : List (List AccountIDWithPK)) (order : List Nat) : Except String MemoryDatabase :=
  order.foldlM (fun db i => initShard db (shardList.getD i [])) Directory.emptyDb

/-- `filter_txs`: the transactions of other shards are left at the default value, whose source account
is 0. -/
def filterTxs (db : MemoryDatabase) (txWithPkList : List SignedTransactionWithPK) : List SignedTransactionWithPK :=
  (txWithPkList.map (fun tx => if (db.getPkNolock tx.sourceAccount).isSome then tx else default)).filter
    (fun tx => tx.sourceAccount ≠ 0)

/-- The loop of `split_transaction_block`, with the rounds left. -/
def splitRounds {α : Type} (orig : List α) (length : Nat) : Nat → Nat → Nat → List (List α)
  | 0, _, _ => []
  | rounds + 1, remain, start =>
    let last := start + (if remain > 0 then length + 1 else length)
    slice orig start last :: splitRounds orig length rounds (remain - 1) last

def splitTransactionBlock {α : Type} (orig : List α) (numChildMachines : Nat) : Except ShardFailure (List (List α)) :=
  if numChildMachines = 0 then .error (.undefined .divisionByZero)
  else .ok (splitRounds orig (orig.length / numChildMachines) (min numChildMachines orig.length)
    (orig.length % numChildMachines) 0)

/-- `operator[]`. -/
def elementAt {α : Type} (items : List α) (i : Nat) : Except ShardFailure α :=
  match items[i]? with
  | some item => .ok item
  | none => .error .outOfRange

end Shard

section Checker

variable (sigCheck : Transaction → List (BitVec 8) → PublicKey → Bool)

def SignedTransactionWithPK.verifies (tx : SignedTransactionWithPK) : Bool :=
  sigCheck tx.signedTransaction.transaction tx.signedTransaction.signature tx.pk

/-- `SamSigCheckReduce::operator()`. -/
def samSigCheckRange (block : List SignedTransactionWithPK) (valid : Bool) : Bool :=
  if !valid then valid else valid && block.all (SignedTransactionWithPK.verifies sigCheck)

/-- A live checker: how it divides each list that it is sent. -/
structure Checker where
  schedule : List SignedTransactionWithPK → Reduction SignedTransactionWithPK
  covers : ∀ block, (schedule block).items = block

/-- `check_all_sigs`. -/
def checkAllSigs (checker : Checker) (block : List SignedTransactionWithPK) : Bool :=
  (checker.schedule block).run (samSigCheckRange sigCheck) true (fun valid other => valid && other) true

/-- `check_all_signatures`, the answer of a checker. -/
def checkAllSignatures (checker : Checker) (block : List SignedTransactionWithPK) : Nat :=
  if !checkAllSigs sigCheck checker block then 1 else 0

/-- The lists that `check_block` sends to its checkers. -/
def sentLists (db : MemoryDatabase) (checkers : List Checker) (block : List SignedTransactionWithPK) :
    Except ShardFailure (List (List SignedTransactionWithPK)) := do
  let split ← splitTransactionBlock (filterTxs db block) checkers.length
  (List.range checkers.length).mapM (elementAt split)

/-- One iteration of the loop of `check_block`. -/
def pollChecker (split : List (List SignedTransactionWithPK)) (checker : Checker) (i : Nat) :
    Except ShardFailure Unit := do
  let list ← elementAt split i
  if checkAllSignatures sigCheck checker list = 1 then .error (.runtimeError "sig checking failed!!!")
  else .ok ()

/-- `check_block`. The iterations run in parallel and the call throws if one of them does; here they run
in order. -/
def checkBlock (db : MemoryDatabase) (checkers : List Checker) (block : List SignedTransactionWithPK) :
    Except ShardFailure Nat := do
  let split ← splitTransactionBlock (filterTxs db block) checkers.length
  checkers.zipIdx.forM (fun entry => pollChecker sigCheck split entry.1 entry.2)
  .ok 0

end Checker

section Databases

open Directory

variable {db : MemoryDatabase} {known : AccountID → Prop}

/-- The database of a shard between two calls, with the accounts that it knows. -/
structure ShardDb (db : MemoryDatabase) (known : AccountID → Prop) : Prop where
  sound : Sound (start db)
  unpersisted : db.persistedRoundNumber = 0
  known : ∀ account, account ∈ ownersOf (db.database ++ db.uncommittedDb) ↔ known account

theorem ShardDb.addAccountToDb (shard : ShardDb db known) (entry : AccountIDWithPK) :
    ShardDb (db.addAccountToDb entry.account entry.pk).1 (fun account => known account ∨ account = entry.account) := by
  refine ⟨sound_addAccountToDb shard.sound (fun tx view absurd => ?_), ?_, fun account => ?_⟩
  · cases absurd
  · have same := shard.unpersisted
    unfold MemoryDatabase.addAccountToDb
    split <;> exact same
  · rw [← shard.known account]
    unfold MemoryDatabase.addAccountToDb
    split
    next idx found =>
      have committed := shard.sound.committed.isSome_iff.mp (Option.isSome_of_eq_some found)
      constructor
      · exact Or.inl
      · rintro (old | rfl)
        · exact old
        · rw [ownersOf_append]
          exact List.mem_append_left _ committed
    next idx _ found =>
      have waiting := shard.sound.uncommitted.isSome_iff.mp (Option.isSome_of_eq_some found)
      constructor
      · exact Or.inl
      · rintro (old | rfl)
        · exact old
        · rw [ownersOf_append]
          exact List.mem_append_right _ waiting
    next =>
      rw [← List.append_assoc, ownersOf_append, List.mem_append]
      exact or_congr_right (List.mem_singleton.trans Iff.rfl)

theorem ShardDb.addAccounts (shard : ShardDb db known) (accounts : List AccountIDWithPK) :
    ShardDb (accounts.foldl (fun db entry => (db.addAccountToDb entry.account entry.pk).1) db)
      (fun account => known account ∨ ∃ entry ∈ accounts, entry.account = account) := by
  induction accounts generalizing db known with
  | nil => exact ⟨shard.sound, shard.unpersisted, fun account => by simpa using shard.known account⟩
  | cons entry accounts ih =>
    have rest := ih (shard.addAccountToDb entry)
    refine ⟨rest.sound, rest.unpersisted, fun account => ?_⟩
    rw [List.foldl_cons, rest.known account, List.exists_mem_cons_iff, or_assoc]
    exact or_congr_right (or_congr_left eq_comm)

theorem sound_commitValues (sound : Sound (start db)) : Sound (start db.commitValues) := by
  have owners : ownersOf (db.database.map UserAccount.commit) = ownersOf db.database := ownersOf_commit db.database
  refine ⟨?_, ?_, ?_, fun tx view absurd => ?_, fun tx _ view _ _ absurd => ?_, ?_, sound.succeeded, sound.listed⟩
  · show IndexMap.Indexes db.userIdToIdxMap 0 (ownersOf (db.database.map UserAccount.commit))
    exact owners ▸ sound.committed
  · show IndexMap.Indexes db.uncommittedIdxMap (db.database.map UserAccount.commit).length _
    rw [List.length_map]
    exact sound.uncommitted
  · show List.Disjoint (ownersOf (db.database.map UserAccount.commit)) _
    exact owners ▸ sound.apart
  · cases absurd
  · cases absurd
  · show _ ≤ (db.database.map UserAccount.commit).length
    rw [List.length_map]
    exact sound.thunks

theorem ShardDb.commit (shard : ShardDb db known) :
    ∃ db', (db.commitNewAccounts 0 >>= fun db => .ok db.commitValues) = .ok db' ∧ ShardDb db' known ∧
      db'.uncommittedDb = [] := by
  have done : ∃ between, db.commitNewAccounts 0 = .ok between ∧ between.uncommittedDb = [] ∧
      between.persistedRoundNumber = db.persistedRoundNumber ∧
      ownersOf between.database = ownersOf (db.database ++ db.uncommittedDb) := by
    refine ⟨_, if_neg (fun refused => refused.2 ⟨rfl, shard.unpersisted⟩), rfl, rfl, ?_⟩
    show ownersOf (db.database ++ db.uncommittedDb.map UserAccount.commit) = _
    rw [ownersOf_append, ownersOf_commit, ownersOf_append]
  obtain ⟨between, committed, empty, unpersisted, owners⟩ := done
  have sound := sound_commitValues (sound_commitNewAccounts shard.sound rfl committed)
  refine ⟨between.commitValues, by rw [committed]; rfl, ⟨sound, unpersisted.trans shard.unpersisted, fun account => ?_⟩,
    empty⟩
  rw [← shard.known account, ← owners]
  show account ∈ ownersOf (between.database.map UserAccount.commit ++ between.uncommittedDb) ↔ _
  rw [empty, List.append_nil, ownersOf_commit]

theorem initShards_spec (shardList : List (List AccountIDWithPK)) (order : List Nat) :
    ∃ db, initShards shardList order = .ok db ∧ db.uncommittedDb = [] ∧
      ShardDb db (fun account => ∃ i ∈ order, ∃ entry ∈ shardList.getD i [], entry.account = account) := by
  have general : ∀ (order : List Nat) (db : MemoryDatabase) (known : AccountID → Prop), ShardDb db known →
      db.uncommittedDb = [] → ∃ db', order.foldlM (fun db i => initShard db (shardList.getD i [])) db = .ok db' ∧
        db'.uncommittedDb = [] ∧ ShardDb db' (fun account =>
          known account ∨ ∃ i ∈ order, ∃ entry ∈ shardList.getD i [], entry.account = account) := by
    intro order
    induction order with
    | nil =>
      intro db known shard empty
      exact ⟨db, rfl, empty, shard.sound, shard.unpersisted, fun account => by simpa using shard.known account⟩
    | cons i order ih =>
      intro db known shard empty
      obtain ⟨between, once, shard', empty'⟩ := (shard.addAccounts (shardList.getD i [])).commit
      obtain ⟨db', rest, empty'', final⟩ := ih between _ shard' empty'
      refine ⟨db', ?_, empty'', final.sound, final.unpersisted, fun account => ?_⟩
      · rw [List.foldlM_cons]
        show (initShard db (shardList.getD i []) >>= _) = _
        rw [initShard, once]
        exact rest
      · rw [final.known account, or_assoc, List.exists_mem_cons_iff]
  obtain ⟨db, done, empty, shard⟩ := general order emptyDb (fun _ => False)
    ⟨sound_start idle_emptyDb, rfl, fun account => by simp [emptyDb, ownersOf]⟩ rfl
  exact ⟨db, done, empty, shard.sound, shard.unpersisted, fun account => by simpa using shard.known account⟩

theorem ShardDb.getPkNolock (shard : ShardDb db known) (empty : db.uncommittedDb = []) (account : AccountID) :
    (db.getPkNolock account).isSome = true ↔ known account := by
  rw [← shard.known account, empty, List.append_nil, MemoryDatabase.getPkNolock]
  have indexes : IndexMap.Indexes db.userIdToIdxMap 0 (ownersOf db.database) := shard.sound.committed
  cases found : db.userIdToIdxMap account with
  | none =>
    have absent := indexes.eq_none_iff.mp found
    simpa using absent
  | some idx =>
    obtain ⟨j, rfl, listed⟩ := (indexes.lookup account idx).mp found
    obtain ⟨entry, here, -⟩ := lookup_owners.mp listed
    rw [Nat.zero_add, Option.bind_some, here]
    exact iff_of_true rfl (List.mem_of_getElem? listed)

end Databases

section Splitting

variable {α : Type}

theorem slice_append {orig : List α} {first middle last : Nat} (early : first ≤ middle) (late : middle ≤ last) :
    slice orig first middle ++ slice orig middle last = slice orig first last := by
  have front : orig.take middle = (orig.take last).take middle := by rw [List.take_take, Nat.min_eq_left late]
  have parts : (orig.take last).drop first =
      ((orig.take last).take middle ++ (orig.take last).drop middle).drop first := by rw [List.take_append_drop]
  rcases Nat.le_total orig.length middle with short | long
  · have none : slice orig middle last = [] := by
      rw [slice, List.drop_eq_nil_iff, List.length_take]
      omega
    rw [none, List.append_nil, slice, slice, List.take_of_length_le short, List.take_of_length_le (by omega)]
  · rw [slice, slice, slice, parts, front, List.drop_append_of_le_length]
    rw [List.length_take, List.length_take]
    omega

theorem splitRounds_spec (orig : List α) (length rounds remain first : Nat) :
    (splitRounds orig length rounds remain first).length = rounds ∧
      (splitRounds orig length rounds remain first).flatten =
        slice orig first (first + rounds * length + min rounds remain) := by
  induction rounds generalizing remain first with
  | zero =>
    refine ⟨rfl, ?_⟩
    rw [Nat.zero_mul, Nat.zero_min, slice]
    exact (List.drop_eq_nil_of_le (List.length_take_le _ _)).symm
  | succ rounds ih =>
    have next := ih (remain - 1) (first + (if remain > 0 then length + 1 else length))
    refine ⟨by rw [splitRounds, List.length_cons, next.1], ?_⟩
    have last : first + (if remain > 0 then length + 1 else length) + rounds * length + min rounds (remain - 1) =
        first + (rounds + 1) * length + min (rounds + 1) remain := by
      rw [Nat.succ_mul]
      split <;> omega
    rw [splitRounds, List.flatten_cons, next.2, slice_append (by omega) (by omega), last]

/-- The parts are the whole list, and there are as many as machines unless the list is shorter. -/
theorem splitTransactionBlock_spec (orig : List α) {numChildMachines : Nat} (positive : numChildMachines ≠ 0) :
    ∃ split, splitTransactionBlock orig numChildMachines = .ok split ∧ split.flatten = orig ∧
      split.length = min numChildMachines orig.length := by
  refine ⟨_, if_neg positive, ?_, (splitRounds_spec _ _ _ _ _).1⟩
  have remain := Nat.mod_lt orig.length (Nat.pos_of_ne_zero positive)
  have total : 0 + min numChildMachines orig.length * (orig.length / numChildMachines) +
      min (min numChildMachines orig.length) (orig.length % numChildMachines) = orig.length := by
    have whole := Nat.div_add_mod orig.length numChildMachines
    rcases Nat.lt_or_ge orig.length numChildMachines with short | long
    · rw [Nat.div_eq_of_lt short, Nat.mod_eq_of_lt short, Nat.min_eq_right (Nat.le_of_lt short), Nat.mul_zero,
        Nat.min_self, Nat.zero_add]
    · rw [Nat.min_eq_left long, Nat.min_eq_right (Nat.le_of_lt remain), Nat.zero_add, whole]
  rw [(splitRounds_spec _ _ _ _ _).2, total, slice, List.take_length, List.drop_zero]

theorem mapM_elementAt {items items' : List α} {n : Nat} :
    (List.range n).mapM (elementAt items) = .ok items' ↔ n ≤ items.length ∧ items' = items.take n := by
  induction n generalizing items' with
  | zero =>
    rw [List.range_zero, List.mapM_nil, List.take_zero]
    refine ⟨fun done => ⟨Nat.zero_le _, ?_⟩, fun same => by rw [same.2]; rfl⟩
    cases done
    rfl
  | succ n ih =>
    rw [List.range_succ, List.mapM_append, Fallible.bind_eq_ok]
    constructor
    · rintro ⟨front, first, rest⟩
      rw [Fallible.bind_eq_ok] at rest
      obtain ⟨back, last, done⟩ := rest
      obtain ⟨early, rfl⟩ := ih.mp first
      rw [List.mapM_cons, Fallible.bind_eq_ok] at last
      obtain ⟨item, found, last⟩ := last
      cases last
      cases done
      unfold elementAt at found
      split at found
      next item' here =>
        cases found
        obtain ⟨inside, rfl⟩ := List.getElem?_eq_some_iff.mp here
        exact ⟨inside, (List.take_append_getElem inside).symm ▸ rfl⟩
      next => cases found
    · rintro ⟨inside, rfl⟩
      refine ⟨items.take n, ih.mpr ⟨Nat.le_of_succ_le inside, rfl⟩, ?_⟩
      rw [List.mapM_cons, elementAt, List.getElem?_eq_getElem inside, ← List.take_append_getElem inside]
      rfl

/-- Sorting a list by a number below `n` only reorders it. -/
theorem flatMap_filter_perm (place : α → Nat) (items : List α) (n : Nat) :
    ((List.range n).flatMap (fun j => items.filter (fun a => place a = j))).Perm
      (items.filter (fun a => place a < n)) := by
  induction n with
  | zero => simp
  | succ n ih =>
    rw [List.range_succ, List.flatMap_append, List.flatMap_singleton]
    have early : (items.filter (fun a => place a < n + 1)).filter (fun a => place a < n) =
        items.filter (fun a => place a < n) := by
      rw [List.filter_filter]
      refine List.filter_congr (fun a _ => ?_)
      rw [Bool.eq_iff_iff]
      simp
      omega
    have last : (items.filter (fun a => place a < n + 1)).filter (fun a => !decide (place a < n)) =
        items.filter (fun a => place a = n) := by
      rw [List.filter_filter]
      refine List.filter_congr (fun a _ => ?_)
      rw [Bool.eq_iff_iff]
      simp
      omega
    have parts := List.filter_append_perm (fun a => decide (place a < n)) (items.filter (fun a => place a < n + 1))
    rw [early, last] at parts
    exact (ih.append_right _).trans parts

end Splitting

section Checks

variable {sigCheck : Transaction → List (BitVec 8) → PublicKey → Bool} {db : MemoryDatabase}
  {checkers : List Checker} {block : List SignedTransactionWithPK}

/-- The filter keeps the transactions of the accounts that the shard knows, unless their source is 0. -/
theorem filterTxs_eq {p : SignedTransactionWithPK → Bool}
    (known : ∀ tx ∈ block, (db.getPkNolock tx.sourceAccount).isSome = p tx) :
    filterTxs db block = block.filter (fun tx => p tx && decide (tx.sourceAccount ≠ 0)) := by
  induction block with
  | nil => rfl
  | cons tx block ih =>
    have rest := ih (fun tx' listed => known tx' (List.mem_cons_of_mem _ listed))
    unfold filterTxs at rest ⊢
    rw [List.map_cons, List.filter_cons, List.filter_cons, rest, known tx List.mem_cons_self]
    cases p tx with
    | true => simp
    | false => simp [show (default : SignedTransactionWithPK).sourceAccount = 0 from rfl]

theorem samSigCheckRange_eq (items : List SignedTransactionWithPK) (valid : Bool) :
    samSigCheckRange sigCheck items valid = (valid && items.all (SignedTransactionWithPK.verifies sigCheck)) := by
  cases valid <;> rfl

/-- A checker finds out whether all signatures verify, however it divides the list. -/
theorem checkAllSigs_eq (checker : Checker) :
    checkAllSigs sigCheck checker block = block.all (SignedTransactionWithPK.verifies sigCheck) := by
  rw [checkAllSigs, Reduction.run_eq samSigCheckRange_eq (fun _ _ => List.all_append) Bool.and_assoc Bool.true_and,
    checker.covers, Bool.true_and]

theorem pollChecker_ok {split : List (List SignedTransactionWithPK)} {checker : Checker} {i : Nat}
    (inside : i < split.length) : pollChecker sigCheck split checker i = .ok () ↔
      ∀ tx ∈ split[i], tx.verifies sigCheck = true := by
  rw [pollChecker, elementAt, List.getElem?_eq_getElem inside]
  show (if _ then _ else _) = _ ↔ _
  rw [checkAllSignatures, checkAllSigs_eq, ← List.all_eq_true]
  cases split[i].all (SignedTransactionWithPK.verifies sigCheck) <;> simp

/-- Enough transactions for its checkers: the shard sends each of them exactly once. -/
theorem sentLists_eq_ok (live : checkers ≠ []) {sent : List (List SignedTransactionWithPK)}
    (done : sentLists db checkers block = .ok sent) :
    checkers.length ≤ (filterTxs db block).length ∧ sent.flatten = filterTxs db block := by
  obtain ⟨split, divided, whole, count⟩ :=
    splitTransactionBlock_spec (filterTxs db block) (fun none => live (List.length_eq_zero_iff.mp none))
  rw [sentLists, divided] at done
  obtain ⟨enough, rfl⟩ := mapM_elementAt.mp done
  exact ⟨by omega, by rw [List.take_of_length_le (by omega), whole]⟩

theorem sentLists_of_enough (live : checkers ≠ []) (enough : checkers.length ≤ (filterTxs db block).length) :
    ∃ sent, sentLists db checkers block = .ok sent := by
  obtain ⟨split, divided, whole, count⟩ :=
    splitTransactionBlock_spec (filterTxs db block) (fun none => live (List.length_eq_zero_iff.mp none))
  refine ⟨split.take checkers.length, ?_⟩
  rw [sentLists, divided]
  exact mapM_elementAt.mpr ⟨by omega, rfl⟩

theorem checkBlock_ok_iff (live : checkers ≠ []) (enough : checkers.length ≤ (filterTxs db block).length) :
    checkBlock sigCheck db checkers block = .ok 0 ↔ ∀ tx ∈ filterTxs db block, tx.verifies sigCheck = true := by
  obtain ⟨split, divided, whole, count⟩ :=
    splitTransactionBlock_spec (filterTxs db block) (fun none => live (List.length_eq_zero_iff.mp none))
  have polled : checkBlock sigCheck db checkers block = .ok 0 ↔
      checkers.zipIdx.forM (fun entry => pollChecker sigCheck split entry.1 entry.2) = .ok () := by
    rw [checkBlock, divided]
    show (_ >>= fun _ => Except.ok 0) = _ ↔ _
    rw [Fallible.bind_eq_ok]
    exact ⟨fun done => done.elim (fun _ done => done.1), fun done => ⟨(), done, rfl⟩⟩
  rw [polled, Fallible.forM_eq_ok, ← whole]
  constructor
  · intro all tx listed
    obtain ⟨list, member, listed⟩ := List.mem_flatten.mp listed
    obtain ⟨i, inside, rfl⟩ := List.getElem_of_mem member
    have here : (checkers[i], i) ∈ checkers.zipIdx :=
      List.mem_zipIdx_iff_getElem?.mpr (List.getElem?_eq_getElem (by omega))
    exact (pollChecker_ok inside).mp (all _ here) tx listed
  · intro all entry listed
    have found := List.mem_zipIdx_iff_getElem?.mp listed
    have inside := (List.getElem?_eq_some_iff.mp found).1
    exact (pollChecker_ok (by omega)).mpr (fun tx member =>
      all tx (List.mem_flatten.mpr ⟨_, List.getElem_mem _, member⟩))

end Checks

section Coverage

variable (sigCheck : Transaction → List (BitVec 8) → PublicKey → Bool)

/-- The shard that an account is placed on. -/
def physicalShardOf (numVirtShards numPhysShards : Nat) (account : AccountID) : Nat :=
  account.toNat % numVirtShards % numPhysShards

/-- What sharded checking promises: the lists that all shards send are defined and have each transaction
exactly once, and all shards report success just if all signatures verify. -/
structure CoversBlock (dbs : Nat → MemoryDatabase) (checkers : Nat → List Checker) (numPhysShards : Nat)
    (block : List SignedTransactionWithPK) : Prop where
  sent : ∃ sent : Nat → List (List SignedTransactionWithPK),
    (∀ j < numPhysShards, sentLists (dbs j) (checkers j) block = .ok (sent j)) ∧
      ((List.range numPhysShards).flatMap (fun j => (sent j).flatten)).Perm block
  success : (∀ j < numPhysShards, checkBlock sigCheck (dbs j) (checkers j) block = .ok 0) ↔
    ∀ tx ∈ block, tx.verifies sigCheck = true

variable {sigCheck}

/-- A shard knows the accounts that are placed on it. -/
theorem initShards_places (partition : StdPartition AccountIDWithPK) (accounts : List AccountIDWithPK)
    {numVirtShards numPhysShards j : Nat} {order : List Nat} (virtual : 1 ≤ numVirtShards)
    (arrived : order.Perm (virtualShardsOf numVirtShards numPhysShards j)) :
    ∃ db, initShards (setupControllerDb partition accounts numVirtShards) order = .ok db ∧
      ∀ account ∈ accounts.map AccountIDWithPK.account, (db.getPkNolock account).isSome =
        decide (physicalShardOf numVirtShards numPhysShards account = j) := by
  obtain ⟨db, done, empty, shard⟩ := initShards_spec (setupControllerDb partition accounts numVirtShards) order
  refine ⟨db, done, fun account listed => ?_⟩
  obtain ⟨entry, given, rfl⟩ := List.mem_map.mp listed
  obtain ⟨count, parts⟩ := shardLists_spec partition accounts (fun x => x.account.toNat % numVirtShards) virtual
    (fun a => Nat.mod_lt _ virtual)
  rw [Bool.eq_iff_iff, shard.getPkNolock empty, decide_eq_true_iff]
  have part : ∀ i < numVirtShards, ∀ entry', entry' ∈ (setupControllerDb partition accounts numVirtShards).getD i [] ↔
      entry' ∈ accounts ∧ entry'.account.toNat % numVirtShards = i := by
    intro i inside entry'
    have found : (setupControllerDb partition accounts numVirtShards)[i]? =
        some ((setupControllerDb partition accounts numVirtShards).getD i []) := by
      have inside' : i < (setupControllerDb partition accounts numVirtShards).length := count.symm ▸ inside
      rw [List.getElem?_eq_getElem inside', List.getD_eq_getElem _ _ inside']
    rw [(parts i _ found).mem_iff, List.mem_filter, decide_eq_true_iff]
  constructor
  · rintro ⟨i, sent, entry', member, same⟩
    obtain ⟨inside, here⟩ := List.mem_filter.mp (arrived.mem_iff.mp sent)
    obtain ⟨-, place⟩ := (part i (List.mem_range.mp inside) entry').mp member
    rw [physicalShardOf, ← same, place]
    exact of_decide_eq_true here
  · intro here
    have inside : entry.account.toNat % numVirtShards < numVirtShards := Nat.mod_lt _ virtual
    exact ⟨entry.account.toNat % numVirtShards,
      arrived.mem_iff.mpr (List.mem_filter.mpr ⟨List.mem_range.mpr inside, decide_eq_true here⟩),
      entry, (part _ inside entry).mpr ⟨given, rfl⟩, rfl⟩

/-- Sharded checking covers a block of transactions by the given accounts just if none of them is by
account 0 and every shard has at least as many of them as it has checkers. -/
theorem coversBlock_iff (partition : StdPartition AccountIDWithPK) (accounts : List AccountIDWithPK)
    (block : List SignedTransactionWithPK) {numVirtShards numPhysShards : Nat} (orders : Nat → List Nat)
    (checkers : Nat → List Checker) (virtual : 1 ≤ numVirtShards) (physical : 1 ≤ numPhysShards)
    (arrived : ∀ j < numPhysShards, (orders j).Perm (virtualShardsOf numVirtShards numPhysShards j))
    (known : ∀ tx ∈ block, tx.sourceAccount ∈ accounts.map AccountIDWithPK.account)
    (live : ∀ j < numPhysShards, checkers j ≠ []) :
    ∃ dbs : Nat → MemoryDatabase,
      (∀ j < numPhysShards, initShards (setupControllerDb partition accounts numVirtShards) (orders j) = .ok (dbs j)) ∧
      (CoversBlock sigCheck dbs checkers numPhysShards block ↔
        (∀ tx ∈ block, tx.sourceAccount ≠ 0) ∧ ∀ j < numPhysShards, (checkers j).length ≤
          (block.filter (fun tx => physicalShardOf numVirtShards numPhysShards tx.sourceAccount = j)).length) := by
  have placed : ∀ j, ∃ db, j < numPhysShards →
      initShards (setupControllerDb partition accounts numVirtShards) (orders j) = .ok db ∧
        ∀ account ∈ accounts.map AccountIDWithPK.account, (db.getPkNolock account).isSome =
          decide (physicalShardOf numVirtShards numPhysShards account = j) := by
    intro j
    by_cases inside : j < numPhysShards
    · obtain ⟨db, found⟩ := initShards_places partition accounts virtual (arrived j inside)
      exact ⟨db, fun _ => found⟩
    · exact ⟨Directory.emptyDb, fun claimed => absurd claimed inside⟩
  choose dbs places using placed
  refine ⟨dbs, fun j inside => (places j inside).1, ?_⟩
  have filtered : ∀ j < numPhysShards, filterTxs (dbs j) block = block.filter (fun tx =>
      decide (physicalShardOf numVirtShards numPhysShards tx.sourceAccount = j) && decide (tx.sourceAccount ≠ 0)) :=
    fun j inside => filterTxs_eq (fun tx listed => (places j inside).2 tx.sourceAccount (known tx listed))
  constructor
  · rintro ⟨⟨sent, lists, whole⟩, -⟩
    refine ⟨fun tx listed => ?_, fun j inside => ?_⟩
    · obtain ⟨j, inside, member⟩ := List.mem_flatMap.mp (whole.mem_iff.mpr listed)
      have inside := List.mem_range.mp inside
      rw [(sentLists_eq_ok (live j inside) (lists j inside)).2, filtered j inside, List.mem_filter, Bool.and_eq_true]
        at member
      exact of_decide_eq_true member.2.2
    · refine Nat.le_trans (sentLists_eq_ok (live j inside) (lists j inside)).1 ?_
      rw [filtered j inside, ← List.filter_filter, List.filter_comm]
      exact List.length_filter_le _ _
  · rintro ⟨sources, enough⟩
    have own : ∀ j < numPhysShards, filterTxs (dbs j) block =
        block.filter (fun tx => physicalShardOf numVirtShards numPhysShards tx.sourceAccount = j) := by
      intro j inside
      rw [filtered j inside]
      refine List.filter_congr (fun tx listed => ?_)
      rw [decide_eq_true (sources tx listed), Bool.and_true]
    have defined : ∀ j, ∃ sent, j < numPhysShards → sentLists (dbs j) (checkers j) block = .ok sent := by
      intro j
      by_cases inside : j < numPhysShards
      · obtain ⟨sent, done⟩ := sentLists_of_enough (live j inside) (own j inside ▸ enough j inside)
        exact ⟨sent, fun _ => done⟩
      · exact ⟨[], fun claimed => absurd claimed inside⟩
    choose sent lists using defined
    have all : block.filter (fun tx => decide
        (physicalShardOf numVirtShards numPhysShards tx.sourceAccount < numPhysShards)) = block :=
      List.filter_eq_self.mpr (fun tx _ => decide_eq_true (Nat.mod_lt _ physical))
    refine ⟨⟨sent, lists, ?_⟩, ?_⟩
    · have joined := flatMap_filter_perm
        (fun tx : SignedTransactionWithPK => physicalShardOf numVirtShards numPhysShards tx.sourceAccount) block
        numPhysShards
      rw [all] at joined
      refine (List.Perm.of_eq ?_).trans joined
      refine List.flatMap_congr (fun j inside => ?_)
      have inside := List.mem_range.mp inside
      rw [(sentLists_eq_ok (live j inside) (lists j inside)).2, own j inside]
    · constructor
      · intro success tx listed
        have inside : physicalShardOf numVirtShards numPhysShards tx.sourceAccount < numPhysShards :=
          Nat.mod_lt _ physical
        refine (checkBlock_ok_iff (live _ inside) (own _ inside ▸ enough _ inside)).mp (success _ inside) tx ?_
        rw [own _ inside, List.mem_filter]
        exact ⟨listed, decide_eq_true rfl⟩
      · intro verified j inside
        refine (checkBlock_ok_iff (live j inside) (own j inside ▸ enough j inside)).mpr (fun tx listed => ?_)
        rw [own j inside] at listed
        exact verified tx (List.mem_of_mem_filter listed)

/-- A transaction by an account, and a check that only the transactions of account 1 pass. -/
def soleTransaction (account : AccountID) : SignedTransactionWithPK := ⟨⟨⟨⟨account, 0⟩, [], 0⟩, []⟩, []⟩

def onlyFirst (tx : Transaction) (_ : List (BitVec 8)) (_ : PublicKey) : Bool := tx.metadata.sourceAccount = 1

def plainChecker : Checker := ⟨.chunk, fun _ => rfl⟩

def loadedDb (accounts : List AccountID) : Except String MemoryDatabase :=
  initShards (setupControllerDb .stable (accounts.map (fun account => ⟨account, []⟩)) 1) [0]

theorem coversBlock_sample : ∃ dbs : Nat → MemoryDatabase, (∀ j < 1, loadedDb [1] = .ok (dbs j)) ∧
    (CoversBlock onlyFirst dbs (fun _ => [plainChecker]) 1 [soleTransaction 1] ↔
      (∀ tx ∈ [soleTransaction 1], tx.sourceAccount ≠ 0) ∧ ∀ j < 1, [plainChecker].length ≤
        ([soleTransaction 1].filter (fun tx => physicalShardOf 1 1 tx.sourceAccount = j)).length) := by
  refine coversBlock_iff .stable [⟨1, []⟩] [soleTransaction 1] (fun _ => [0]) (fun _ => [plainChecker]) (by decide)
    (by decide) (fun j inside => ?_) (by decide) (fun j _ => List.cons_ne_nil _ _)
  rw [Nat.lt_one_iff.mp inside]
  exact List.Perm.refl _

/-- One shard with one checker reports success on a block whose transaction by account 0 does not verify:
it is not sent at all. With two checkers and one transaction the shard reads past the end of its parts. -/
theorem coversBlock_misses :
    (∃ db, loadedDb [0, 1] = .ok db ∧
      checkBlock onlyFirst db [plainChecker] [soleTransaction 0, soleTransaction 1] = .ok 0 ∧
      (soleTransaction 0).verifies onlyFirst = false ∧
      ¬ CoversBlock onlyFirst (fun _ => db) (fun _ => [plainChecker]) 1 [soleTransaction 0, soleTransaction 1]) ∧
    ∃ db, loadedDb [1] = .ok db ∧
      checkBlock onlyFirst db [plainChecker, plainChecker] [soleTransaction 1] = .error .outOfRange := by
  refine ⟨⟨_, rfl, rfl, rfl, fun covers => ?_⟩, _, rfl, rfl⟩
  have verified := covers.success.mp (fun _ _ => rfl) (soleTransaction 0) List.mem_cons_self
  cases verified

end Coverage

end Speedex
