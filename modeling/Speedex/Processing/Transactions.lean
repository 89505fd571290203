import Speedex.Processing.Acceptance

set_option autoImplicit false

/- Between transactions: what the threads of a block share, and what each keeps to itself. -/
namespace Speedex

open Claims BlockContext

/-- What one thread of a block keeps to itself. -/
structure SerialThread (D : Type) where
  serialManager : BaseSerialManager D
  serialAccountLog : SerialAccountModificationLog
  stateUpdateStats : BlockStateUpdateStats

/-- A block whose transactions are being worked off. -/
structure BlockThreads (D : Type) where
  accountDatabase : MemoryDatabase
  workUnitManager : MerkleWorkUnitManager
  threads : List (SerialThread D)

namespace BlockThreads

variable {D : Type}

/-- What a thread works on. -/
def handler (block : BlockThreads D) (thread : SerialThread D) : SerialTransactionHandler D where
  serialManager := thread.serialManager
  accountDatabase := block.accountDatabase
  workUnitManager := block.workUnitManager
  serialAccountLog := thread.serialAccountLog

def store (block : BlockThreads D) (j : Nat) (handler : SerialTransactionHandler D) (stats : BlockStateUpdateStats) :
    BlockThreads D where
  accountDatabase := handler.accountDatabase
  workUnitManager := handler.workUnitManager
  threads := block.threads.set j ⟨handler.serialManager, handler.serialAccountLog, stats⟩

section Store

variable (block : BlockThreads D) (j : Nat) (handler : SerialTransactionHandler D) (stats : BlockStateUpdateStats)

@[simp] theorem store_accountDatabase : (block.store j handler stats).accountDatabase = handler.accountDatabase := rfl
@[simp] theorem store_workUnitManager : (block.store j handler stats).workUnitManager = handler.workUnitManager := rfl
@[simp] theorem store_threads : (block.store j handler stats).threads =
    block.threads.set j ⟨handler.serialManager, handler.serialAccountLog, stats⟩ := rfl

end Store

end BlockThreads

section Sequences

variable {account : UserAccount} {sequenceNumber : BitVec 64}

/-- A sequence number is refused, or its bit is set, for the first time or again. -/
theorem reserveSequenceNumber_cases (account : UserAccount) (sequenceNumber : BitVec 64) :
    (sequenceOffset account sequenceNumber = none ∧ (account.reserveSequenceNumber sequenceNumber).1 = account ∧
      (account.reserveSequenceNumber sequenceNumber).2 ≠ .success) ∨
    ∃ offset, offset < 64 ∧ sequenceOffset account sequenceNumber = some offset ∧
      (account.reserveSequenceNumber sequenceNumber).1 =
        { account with sequenceNumberVec := account.sequenceNumberVec ||| (1 : BitVec 64) <<< offset } ∧
      ((account.reserveSequenceNumber sequenceNumber).2 = .success ↔ account.sequenceNumberVec.getLsbD offset = false) := by
  rw [UserAccount.reserveSequenceNumber, sequenceOffset]
  by_cases low : sequenceNumber.ule account.lastCommittedId = true
  · rw [if_pos low, if_pos low]
    exact .inl ⟨rfl, rfl, fun success => TransactionProcessingStatus.noConfusion success⟩
  · rw [if_neg low, if_neg low]
    simp only [ge_iff_le]
    by_cases high : 64 ≤ (UserAccount.getSeqNumOffset sequenceNumber account.lastCommittedId).toNat
    · rw [if_pos high, if_pos high]
      exact .inl ⟨rfl, rfl, fun success => TransactionProcessingStatus.noConfusion success⟩
    · rw [if_neg high, if_neg high]
      refine .inr ⟨_, Nat.lt_of_not_le high, rfl, ?_⟩
      rw [← UserAccount.and_mask_eq_zero_iff (Nat.lt_of_not_le high)]
      split_ifs with taken
      · exact ⟨rfl, iff_of_false (fun used => used.elim) taken⟩
      · exact ⟨rfl, fun _ => not_not.mp taken, fun _ => rfl⟩

theorem sequenceOffset_congr {account' : UserAccount} (same : account'.settled = account.settled) :
    sequenceOffset account' sequenceNumber = sequenceOffset account sequenceNumber := by
  have last : account'.lastCommittedId = account.lastCommittedId := congrArg (fun settled => settled.2.2.1) same
  rw [sequenceOffset, sequenceOffset, last]

end Sequences

section Directories

variable {ctx : BlockContext} {leaked : AccountID → Prop} {claims : Multiset TxResource} {created : Multiset UserAccount}
  {db db' : MemoryDatabase} {idx : Nat} {sequenceNumber : BitVec 64}

/-- An account of the database and what it was at the start of the block. -/
theorem DirectoryAfter.account (after : DirectoryAfter ctx leaked claims created db) {account : UserAccount}
    (here : ctx.accountDatabase.database[idx]? = some account) :
    ∃ data, db.database[idx]? = some data ∧ data.settled = account.settled := by
  have same := congrArg (fun l => l[idx]?) after.settled
  simp only [List.getElem?_map, here, Option.map_some] at same
  obtain ⟨data, found, settled⟩ := Option.map_eq_some_iff.mp same
  exact ⟨data, found, settled⟩

/-- A bit is set. -/
theorem DirectoryAfter.sequenceSet (after : DirectoryAfter ctx leaked claims created db) {data : UserAccount} {offset : Nat}
    (here : db.database[idx]? = some data) (room : offset < 64) :
    DirectoryAfter ctx leaked (claims + {.sequenceNumber idx offset}) created
      (db.setAccount idx { data with sequenceNumberVec := data.sequenceNumberVec ||| (1 : BitVec 64) <<< offset }) where
  userIdToIdxMap := after.userIdToIdxMap
  settled := by
    rw [MemoryDatabase.setAccount, map_set_same UserAccount.settled here]
    · exact after.settled
    · rfl
  sequence other k := by
    rw [Multiset.mem_add, Multiset.mem_singleton, ← or_assoc, ← after.sequence, MemoryDatabase.SequenceBit,
      MemoryDatabase.SequenceBit, MemoryDatabase.setAccount, List.getElem?_set]
    by_cases same : idx = other
    · subst same
      rw [if_pos rfl, if_pos (List.getElem?_eq_some_iff.mp here).1, here]
      simp only [Option.some.injEq, exists_eq_left', BitVec.getLsbD_or, UserAccount.getLsbD_mask room, Bool.or_eq_true,
        decide_eq_true_eq, TxResource.sequenceNumber.injEq, true_and]
    · rw [if_neg same, or_iff_left (fun equal => same (TxResource.sequenceNumber.inj equal).1.symm)]
  reserved account := by
    have apart : TxResource.newAccount account ∈ claims + {.sequenceNumber idx offset} ↔ .newAccount account ∈ claims := by
      simp
    rw [apart]
    exact after.reserved account
  uncommittedDb := after.uncommittedDb
  uncommittedIdxMap := after.uncommittedIdxMap
  accountCreationThunks := after.accountCreationThunks
  persistedRoundNumber := after.persistedRoundNumber

/-- A sequence number is reserved: its bit was free. -/
theorem DirectoryAfter.reserveSequenceNumber (after : DirectoryAfter ctx leaked claims created db)
    (done : db.reserveSequenceNumber idx sequenceNumber = .ok (db', .success)) :
    ∃ account offset, ctx.accountDatabase.database[idx]? = some account ∧
      sequenceOffset account sequenceNumber = some offset ∧ ¬ ctx.taken (.sequenceNumber idx offset) ∧
      .sequenceNumber idx offset ∉ claims ∧
      DirectoryAfter ctx leaked (claims + {.sequenceNumber idx offset}) created db' ∧ db'.available = db.available := by
  obtain ⟨data, found, made⟩ := Fallible.bind_eq_ok.mp done
  have here := findAccount_eq_ok.mp found
  obtain ⟨same, success⟩ := Prod.mk.inj (Except.ok.inj made)
  change db.setAccount idx (data.reserveSequenceNumber sequenceNumber).1 = db' at same
  have inside : idx < ctx.accountDatabase.database.length := by
    rw [← after.length]
    exact (List.getElem?_eq_some_iff.mp here).1
  obtain ⟨data', here', settled⟩ := after.account (List.getElem?_eq_getElem inside)
  rw [here] at here'
  cases here'
  rcases reserveSequenceNumber_cases data sequenceNumber with ⟨-, -, refused⟩ | ⟨offset, room, offsetEq, set, free⟩
  · exact absurd success refused
  · have clear : ¬ db.SequenceBit idx offset := by
      rintro ⟨data', here', bit⟩
      rw [here] at here'
      cases here'
      rw [free.mp success] at bit
      cases bit
    rw [after.sequence, not_or] at clear
    refine ⟨_, offset, List.getElem?_eq_getElem inside, by rw [← sequenceOffset_congr settled, offsetEq], clear.1, clear.2, ?_, ?_⟩
    · rw [← same, set]
      exact after.sequenceSet here room
    · rw [← same, set]
      funext other asset
      rw [available_setAccount here]
      split_ifs with same
      · rw [same, available_of here]
        rfl
      · rfl

/-- A sequence number whose bit is free can be reserved. -/
theorem DirectoryAfter.takes_sequenceNumber (after : DirectoryAfter ctx leaked claims created db) {account : UserAccount}
    {offset : Nat} (there : ctx.accountDatabase.database[idx]? = some account)
    (offsetEq : sequenceOffset account sequenceNumber = some offset) (untaken : ¬ ctx.taken (.sequenceNumber idx offset))
    (unclaimed : .sequenceNumber idx offset ∉ claims) :
    ∃ db', db.reserveSequenceNumber idx sequenceNumber = .ok (db', .success) := by
  obtain ⟨data, here, settled⟩ := after.account there
  rw [← sequenceOffset_congr settled] at offsetEq
  rcases reserveSequenceNumber_cases data sequenceNumber with ⟨none, -⟩ | ⟨offset', -, offsetEq', -, free⟩
  · rw [none] at offsetEq
    cases offsetEq
  · rw [offsetEq] at offsetEq'
    cases offsetEq'
    have clear : data.sequenceNumberVec.getLsbD offset = false := by
      rw [← Bool.not_eq_true]
      intro set
      rcases (after.sequence idx offset).mp ⟨data, here, set⟩ with before | claimed
      · exact untaken before
      · exact unclaimed claimed
    exact ⟨_, by
      rw [MemoryDatabase.reserveSequenceNumber, findAccount_eq_ok.mpr here]
      show Except.ok (_, (data.reserveSequenceNumber sequenceNumber).2) = _
      rw [free.mpr clear]⟩

end Directories

end Speedex
