import Mathlib.Data.List.Forall2
import Speedex.Processing.Transactions

set_option autoImplicit false

/- The serial validators of a block: which blocks they take, and what they do, does not depend on the order in which they
work off the transactions, nor on who works off which. -/
namespace Speedex

open Claims BlockContext

/-- The own part of a thread. -/
structure ThreadKeeps {D : Type} (insertFn : InsertFn) (derived : D → (Nat → FractionalAsset) → Prop) (own : TxTally)
    (thread : SerialThread D) : Prop where
  newOffers : NewOffersAre insertFn own.newOffers thread.serialManager.newOffers
  derived : derived thread.serialManager.derived own.activated
  log : (thread.serialAccountLog : Multiset LogEntry) = own.log
  stats : thread.stateUpdateStats = own.stats

/-- A block whose transactions so far have this effect. -/
structure BlockAfter {D : Type} (ctx : BlockContext) (leaked : AccountID → Prop) (insertFn : InsertFn)
    (derived : D → (Nat → FractionalAsset) → Prop) (E : TxEffect) (block : BlockThreads D) : Prop where
  directory : DirectoryAfter ctx leaked E.claims E.tally.created block.accountDatabase
  balances : block.accountDatabase.available = ctx.accountDatabase.available + E.tally.balances
  books : BooksAfter ctx E.claims block.workUnitManager
  issued : Issued ctx E.claims E.tally.newOffers
  threads : ∃ owns : List TxTally, E.tally = owns.sum ∧ List.Forall₂ (ThreadKeeps insertFn derived) owns block.threads

section Lists

variable {M : Type} [AddCommMonoid M]

/-- One summand and the others. -/
theorem exists_others {l : List M} {j : Nat} {a : M} (here : l[j]? = some a) :
    ∃ others, l.sum = others + a ∧ ∀ b, (l.set j b).sum = others + b := by
  obtain ⟨inside, rfl⟩ := List.getElem?_eq_some_iff.mp here
  have split : ∀ b, (l.set j b).sum = (l.take j).sum + (l.drop (j + 1)).sum + b := by
    intro b
    rw [List.sum_set, if_pos inside, add_right_comm]
  refine ⟨(l.take j).sum + (l.drop (j + 1)).sum, ?_, split⟩
  rw [← split, List.set_getElem_self]

end Lists

variable {D V : Type} [LawfulView V] {ctx : BlockContext} {leaked : AccountID → Prop} {insertFn : InsertFn}
  {derived : D → (Nat → FractionalAsset) → Prop} {E : TxEffect} {block : BlockThreads D}

/-- A sequence number of which no new offer has been made yet. -/
theorem Issued.current {claims : Multiset TxResource} {newOffers : Multiset (Nat × Offer)} (issued : Issued ctx claims newOffers)
    {sequenceNumber : BitVec 64} {source : AccountID} {idx offset : Nat} {account : UserAccount}
    (aligned : UserAccount.Aligned sequenceNumber) (found : ctx.accountDatabase.lookupUserId source = some idx)
    (here : ctx.accountDatabase.database[idx]? = some account) (offsetEq : sequenceOffset account sequenceNumber = some offset)
    (unclaimed : .sequenceNumber idx offset ∉ claims) : ∀ o ∈ newOffers, o.2.owner = source →
      o.2.offerId.toNat / 256 ≠ sequenceNumber.toNat / 256 := by
  intro o member owner same
  obtain ⟨sequenceNumber', idx', account', offset', aligned', base, found', here', offsetEq', claimed⟩ := issued.based o member
  have equal : sequenceNumber' = sequenceNumber := by
    unfold UserAccount.Aligned at aligned aligned'
    exact BitVec.eq_of_toNat_eq (by omega)
  rw [owner, found] at found'
  cases found'
  rw [here] at here'
  cases here'
  rw [equal, offsetEq] at offsetEq'
  cases offsetEq'
  exact unclaimed claimed

/-- The other threads' part of a tally. -/
def Rejoins (insertFn : InsertFn) (derived : D → (Nat → FractionalAsset) → Prop) (threads : List (SerialThread D)) (j : Nat)
    (others : TxTally) : Prop :=
  ∀ own thread, ThreadKeeps insertFn derived own thread →
    ∃ owns, others + own = List.sum owns ∧ List.Forall₂ (ThreadKeeps insertFn derived) owns (threads.set j thread)

theorem forall₂_set {α β : Type} {R : α → β → Prop} {l : List α} {m : List β} (related : List.Forall₂ R l m) (j : Nat) {a : α}
    {b : β} (pair : R a b) : List.Forall₂ R (l.set j a) (m.set j b) := by
  induction related generalizing j with
  | nil => exact .nil
  | cons first rest ih =>
    cases j with
    | zero => exact .cons pair rest
    | succ j => exact .cons first (ih j)

/-- What a thread has done so far, and the others. -/
theorem BlockAfter.split (after : BlockAfter ctx leaked insertFn derived E block) {j : Nat} {thread : SerialThread D}
    (here : block.threads[j]? = some thread) :
    ∃ others own, E.tally = others + own ∧ ThreadKeeps insertFn derived own thread ∧
      Rejoins insertFn derived block.threads j others := by
  obtain ⟨owns, total, keeps⟩ := after.threads
  obtain ⟨inside, rfl⟩ := List.getElem?_eq_some_iff.mp here
  have inside' : j < owns.length := by
    rw [keeps.length_eq]
    exact inside
  obtain ⟨others, sum, rest⟩ := exists_others (List.getElem?_eq_getElem inside')
  refine ⟨others, owns[j], total.trans sum, keeps.get inside' inside, fun own thread keeps' => ⟨owns.set j own, ?_, ?_⟩⟩
  · exact (rest own).symm
  · exact forall₂_set keeps j keeps'

theorem aligned_of_format {tx : Transaction} (format : checkTxFormatParameters tx = true) :
    UserAccount.Aligned tx.metadata.sequenceNumber := by
  rw [checkTxFormatParameters, decide_eq_true_eq] at format
  have value := congrArg BitVec.toNat format
  rw [BitVec.toNat_and] at value
  exact (Nat.and_two_pow_sub_one_eq_mod tx.metadata.sequenceNumber.toNat 8).symm.trans value

/-- A transaction whose sequence number is reserved. -/
theorem BlockAfter.begin (after : BlockAfter ctx leaked insertFn derived E block)
    (admissible : Admissible ctx.taken E) {j : Nat} {thread : SerialThread D} (here : block.threads[j]? = some thread)
    {tx : Transaction} {idx : Nat} (format : checkTxFormatParameters tx = true)
    (known : ctx.accountDatabase.lookupUserId tx.metadata.sourceAccount = some idx) {db db' : MemoryDatabase}
    (size : db.size = ctx.accountDatabase.size)
    (reserved : block.accountDatabase.reserveSequenceNumber idx tx.metadata.sequenceNumber = .ok (db', .success)) :
    ∃ account offset others, ctx.accountDatabase.database[idx]? = some account ∧
      sequenceOffset account tx.metadata.sequenceNumber = some offset ∧
      Admissible ctx.taken (E + ⟨{.sequenceNumber idx offset}, 0⟩) ∧
      Rejoins insertFn derived block.threads j others ∧
      Working ⟨ctx, ⟨tx.metadata, idx⟩, insertFn, derived, leaked, others, thread.stateUpdateStats⟩ ⟨0, []⟩
        (E + ⟨{.sequenceNumber idx offset}, 0⟩)
        ({ block.handler thread with accountDatabase := db' }, (.new tx.metadata idx db : OperationMetadata V), 0) := by
  obtain ⟨account, offset, there, offsetEq, untaken, unclaimed, directory, balances⟩ :=
    after.directory.reserveSequenceNumber reserved
  obtain ⟨others, own, split, keeps, rejoins⟩ := after.split here
  have aligned := aligned_of_format format
  refine ⟨account, offset, others, there, offsetEq, admissible_add_singleton.mpr ⟨admissible, untaken, unclaimed⟩, rejoins, ?_⟩
  exact {
    directory := by simpa using directory
    balances := by
      show db'.available + LawfulView.pending (DatabaseView.new db : V) = _
      rw [balances, after.balances, LawfulView.pending_new, add_zero, Effect.add_tally, add_zero]
    books := after.books.congr (fun i key => by simp)
    own := by
      refine ⟨own, by rw [Effect.add_tally, add_zero, split], keeps.newOffers, keeps.derived, keeps.log, ?_⟩
      exact (add_zero _).trans keeps.stats
    issued := by
      rw [Effect.add_tally, add_zero]
      exact after.issued.mono (Multiset.le_add_right _ _)
    aligned := aligned
    claimed := ⟨tx.metadata.sequenceNumber, idx, account, offset, aligned, rfl, known, there, offsetEq,
      Multiset.mem_add.mpr (.inr (Multiset.mem_singleton_self _))⟩
    current := by
      rw [Effect.add_tally, add_zero]
      intro o member owner same
      exact absurd same (after.issued.current aligned known there offsetEq unclaimed o member owner)
    view := by
      show DatabaseView.creation (DatabaseView.new db : V) = _
      rw [LawfulView.creation_new, ← size]
      rfl
    fresh := fun account member => absurd member List.not_mem_nil
    txMetadata := rfl
    sourceAccountIdx := rfl
    count := rfl }

/-- The accounts that a transaction has created join the others. -/
theorem DirectoryAfter.commitCreated {claims : Multiset TxResource} {created : Multiset UserAccount} {db : MemoryDatabase}
    (after : DirectoryAfter ctx leaked claims created db) (rows : List (Nat × AccountID × UserAccount))
    (owners : ∀ row ∈ rows, row.2.1 = row.2.2.owner) :
    DirectoryAfter ctx leaked claims (created + (rows.map (fun row => row.2.2) : List UserAccount))
      (AccountCreationView.commit db rows) ∧ (AccountCreationView.commit db rows).available = db.available := by
  induction rows generalizing created db with
  | nil =>
    refine ⟨?_, rfl⟩
    rw [List.map_nil, Multiset.coe_nil, add_zero]
    exact after
  | cons row rows ih =>
    have owner := owners row List.mem_cons_self
    have joined : DirectoryAfter ctx leaked claims (created + {row.2.2}) (db.commitAccountCreation row.2.1 row.2.2) :=
      { after with
        uncommittedDb := by
          show ((db.uncommittedDb ++ [row.2.2] : List UserAccount) : Multiset UserAccount) = _
          rw [← Multiset.coe_add, after.uncommittedDb, add_assoc]
          rfl
        uncommittedIdxMap := fun id => by
          have known := after.uncommittedIdxMap id
          simp only [Multiset.mem_add, Multiset.mem_singleton, or_and_right, exists_or, exists_eq_left, ← or_assoc, ← known,
            MemoryDatabase.commitAccountCreation, ← owner]
          by_cases same : row.2.1 = id
          · subst same
            split_ifs with before
            · simp [before]
            · simp
          · split_ifs
            · simp [same]
            · rw [Function.update_of_ne (Ne.symm same)]
              simp [same] }
    obtain ⟨directory, available⟩ := ih joined (fun row' member => owners row' (List.mem_cons_of_mem row member))
    refine ⟨?_, available⟩
    rw [List.map_cons, ← Multiset.cons_coe, ← Multiset.singleton_add, ← add_assoc]
    exact directory

/-- A transaction whose accounts have joined and whose log is written. -/
theorem Working.finish {g : TxSetting D} {p : Progress} {handler : SerialTransactionHandler D}
    {metadata : OperationMetadata V} {n j : Nat} {threads : List (SerialThread D)}
    (working : Working g p E (handler, metadata, n)) (rejoins : Rejoins g.insertFn g.derived threads j g.others)
    {db : MemoryDatabase} {created : List UserAccount} (log : SerialAccountModificationLog)
    (directory : DirectoryAfter g.ctx g.leaked E.claims (E.tally.created + created) db)
    (balances : db.available = g.ctx.accountDatabase.available + E.tally.balances) :
    BlockAfter g.ctx g.leaked g.insertFn g.derived
      (E + ⟨0, { (0 : TxTally) with created := created, log := log }⟩)
      (BlockThreads.store ⟨handler.accountDatabase, handler.workUnitManager, threads⟩ j
        { handler with accountDatabase := db, serialAccountLog := handler.serialAccountLog ++ log }
        (g.stats₀ + metadata.localStats)) := by
  obtain ⟨own, split, keeps⟩ := working.own
  have keeps' : ThreadKeeps g.insertFn g.derived (own + { (0 : TxTally) with created := created, log := log })
      ⟨handler.serialManager, handler.serialAccountLog ++ log, g.stats₀ + metadata.localStats⟩ := {
    newOffers := by simpa using keeps.newOffers
    derived := by simpa using keeps.derived
    log := by
      show ((handler.serialAccountLog ++ log : List LogEntry) : Multiset LogEntry) = own.log + log
      rw [← Multiset.coe_add, show (handler.serialAccountLog : Multiset LogEntry) = own.log from keeps.log]
    stats := keeps.stats.trans (add_zero own.stats).symm }
  obtain ⟨owns, total, related⟩ := rejoins _ _ keeps'
  exact {
    directory := by simpa using directory
    balances := by
      refine balances.trans ?_
      simp
    books := by simpa using working.books
    issued := by simpa using working.issued
    threads := ⟨owns, by rw [← total, Effect.add_tally, split, add_assoc], related⟩ }

/-- A transaction, and the thread that gets it. Its operations are bounded by its type. -/
structure Job (n : Nat) where
  thread : Fin n
  signedTx : SignedTransaction
  bounded : signedTx.transaction.operations.length ≤ maxOpsPerTx.toNat

section Validators

variable {n : Nat}

/-- The next transaction of a block that is validated. A transaction that is invalid or throws ends the validation. -/
def validateNext (order : CommitOrder) (block : BlockThreads ValidatingSerialManager) (job : Job n) :
    Option (BlockThreads ValidatingSerialManager) :=
  block.threads[job.thread.val]?.bind (fun thread =>
    match validateTransaction order (block.handler thread) thread.stateUpdateStats job.signedTx with
    | .ok (handler, stats, true) => some (block.store job.thread handler stats)
    | _ => none)

/-- A block of `n` validators after transactions with this effect. -/
structure ValidatedBlock (ctx : BlockContext) (checker : WorkUnitStateCommitmentChecker) (n : Nat) (E : TxEffect)
    (block : BlockThreads ValidatingSerialManager) : Prop where
  after : BlockAfter ctx (fun _ => False) .rollback (ValidatingSerialManager.Counts checker) E block
  length : block.threads.length = n

variable {checker : WorkUnitStateCommitmentChecker} {order : CommitOrder} {block block' : BlockThreads ValidatingSerialManager}
  {job : Job n} {e : TxEffect}

/-- `commit_sequence_number` finds its bit set. -/
theorem commitSequenceNumber_eq_ok {db db' : MemoryDatabase} {idx : Nat} {sequenceNumber : BitVec 64} :
    db.commitSequenceNumber idx sequenceNumber = .ok db' ↔ db' = db ∧ idx < db.size := by
  rw [MemoryDatabase.commitSequenceNumber, MemoryDatabase.size]
  by_cases inside : idx < db.database.length
  · have found := findAccount_eq_ok.mpr (List.getElem?_eq_getElem inside)
    show (db.findAccount idx >>= _) = _ ↔ _
    rw [found]
    show Except.ok { db with database := db.database.set idx db.database[idx] } = _ ↔ _
    rw [List.set_getElem_self, Except.ok.injEq]
    exact ⟨fun same => ⟨same.symm, inside⟩, fun both => both.1.symm⟩
  · refine iff_of_false (fun done => inside ?_) (fun both => inside both.2)
    obtain ⟨account, found, -⟩ := Fallible.bind_eq_ok.mp done
    exact (List.getElem?_eq_some_iff.mp (findAccount_eq_ok.mp found)).1

/-- What a validator does with a valid transaction. -/
theorem validateTransaction_eq_ok {handler handler' : SerialTransactionHandler ValidatingSerialManager}
    {stats stats' : BlockStateUpdateStats} {signedTx : SignedTransaction} :
    validateTransaction order handler stats signedTx = .ok (handler', stats', true) ↔
      checkTxFormatParameters signedTx.transaction = true ∧ ∃ idx db handler₁ metadata i,
        handler.accountDatabase.lookupUserId signedTx.transaction.metadata.sourceAccount = some idx ∧
        handler.accountDatabase.reserveSequenceNumber idx signedTx.transaction.metadata.sequenceNumber = .ok (db, .success) ∧
        processOperations { handler with accountDatabase := db }
          (.new signedTx.transaction.metadata idx handler.accountDatabase : OperationMetadata UnbufferedMemoryDatabaseView) 0
          signedTx.transaction.operations = .ok (handler₁, metadata, i, .success) ∧
        handler' = { handler₁ with
          serialAccountLog := handler₁.serialAccountLog ++ logModifiedAccounts signedTx
          accountDatabase := AccountCreationView.commit handler₁.accountDatabase
            (order.run metadata.dbView.creation.newAccounts) } ∧
        stats' = stats + metadata.localStats := by
  rw [validateTransaction]
  by_cases format : checkTxFormatParameters signedTx.transaction = true
  case neg =>
    rw [if_pos (by simpa using format)]
    exact iff_of_false (fun done => by cases done) (fun both => format both.1)
  rw [if_neg (by simpa using format), and_iff_right format]
  cases known : handler.accountDatabase.lookupUserId signedTx.transaction.metadata.sourceAccount with
  | none => simp
  | some idx =>
    constructor
    · intro done
      obtain ⟨⟨db, idStatus⟩, reserved, done⟩ := Fallible.bind_eq_ok.mp done
      by_cases success : idStatus = .success
      case neg =>
        simp [success] at done
      subst success
      obtain ⟨db', committed, rest⟩ := Fallible.bind_eq_ok.mp done
      obtain ⟨rfl, -⟩ := commitSequenceNumber_eq_ok.mp committed
      obtain ⟨⟨handler₁, metadata, i, status⟩, processed, last⟩ := Fallible.bind_eq_ok.mp rest
      by_cases success : status = .success
      case neg =>
        simp [success] at last
      subst success
      cases last
      exact ⟨idx, db', handler₁, metadata, i, rfl, reserved, processed, rfl, rfl⟩
    · rintro ⟨idx', db, handler₁, metadata, i, same, reserved, processed, rfl, rfl⟩
      cases same
      have inside : idx < db.size := by
        obtain ⟨account, found, made⟩ := Fallible.bind_eq_ok.mp reserved
        have same : handler.accountDatabase.setAccount idx _ = db := congrArg Prod.fst (Except.ok.inj made)
        rw [← same, MemoryDatabase.size, MemoryDatabase.setAccount, List.length_set]
        exact (List.getElem?_eq_some_iff.mp (findAccount_eq_ok.mp found)).1
      have committed : db.commitSequenceNumber idx signedTx.transaction.metadata.sequenceNumber = .ok db :=
        commitSequenceNumber_eq_ok.mpr ⟨rfl, inside⟩
      show (handler.accountDatabase.reserveSequenceNumber _ _ >>= _) = _
      rw [reserved]
      show (db.commitSequenceNumber _ _ >>= _) = _
      rw [committed]
      show (processOperations _ _ _ _ >>= _) = _
      rw [processed]
      rfl

/-- The iteration over the new accounts meets each once. -/
theorem map_commitOrder (order : CommitOrder) (size : Nat) (created : List UserAccount) :
    ((order.run (numberAccounts size created)).map (fun row => row.2.2) : Multiset UserAccount) = created := by
  conv_rhs => rw [← map_numberAccounts size created]
  exact Multiset.coe_eq_coe.mpr ((order.perm _).map _)

theorem owner_of_commitOrder (order : CommitOrder) {size : Nat} {created : List UserAccount}
    {row : Nat × AccountID × UserAccount} (member : row ∈ order.run (numberAccounts size created)) :
    row.2.1 = row.2.2.owner := by
  obtain ⟨⟨account, i⟩, -, rfl⟩ := List.mem_map.mp ((order.perm _).mem_iff.mp member)
  rfl

/-- The setting in which a validator works off a transaction. -/
theorem validates_of {ctx : BlockContext} (sound : ctx.Sound) (disposition : ctx.disposition = checker.disposition)
    {tx : TransactionMetadata} {idx : Nat} (known : ctx.accountDatabase.lookupUserId tx.sourceAccount = some idx)
    (others : TxTally) (stats : BlockStateUpdateStats) :
    Validates ⟨ctx, ⟨tx, idx⟩, .rollback, ValidatingSerialManager.Counts checker, fun _ => False, others, stats⟩ checker where
  disposition := disposition
  insertFn := rfl
  derived := rfl
  leaked := fun _ => id
  sound := sound
  inside := sound.located _ _ known

theorem ValidatedBlock.only (sound : ctx.Sound) (disposition : ctx.disposition = checker.disposition)
    (validated : ValidatedBlock ctx checker n E block) (admissible : Admissible ctx.taken E)
    (done : validateNext order block job = some block') :
    ∃ e, transactionEffect ctx job.signedTx = some e ∧ Admissible ctx.taken (E + e) ∧
      ValidatedBlock ctx checker n (E + e) block' := by
  obtain ⟨thread, here, done⟩ := Option.bind_eq_some_iff.mp done
  have directory := validated.after.directory
  split at done
  case h_2 => cases done
  case h_1 handler' stats' valid =>
  obtain ⟨format, idx, db, handler₁, metadata, i, known, reserved, processed, rfl, rfl⟩ := validateTransaction_eq_ok.mp valid
  have known' : ctx.accountDatabase.lookupUserId job.signedTx.transaction.metadata.sourceAccount = some idx :=
    (congrFun directory.userIdToIdxMap _).symm.trans known
  obtain ⟨account, offset, others, there, offsetEq, admissible₁, rejoins, working⟩ :=
    validated.after.begin (V := UnbufferedMemoryDatabaseView) admissible here format known' directory.length reserved
  have validates := validates_of sound disposition known' others thread.stateUpdateStats
  obtain ⟨p, e, effected, admissible₂, working'⟩ := working.processOperations validates.adds sound validates.inside
    admissible₁ (by simpa using job.bounded) processed
  have view : metadata.dbView.creation = creationView ctx.accountDatabase.size p.created := working'.view
  obtain ⟨directory', available⟩ := working'.directory.commitCreated (order.run metadata.dbView.creation.newAccounts)
    (fun row member => owner_of_commitOrder order (view ▸ member))
  have created : ((order.run metadata.dbView.creation.newAccounts).map (fun row => row.2.2) : Multiset UserAccount) =
      p.created := by
    rw [view]
    exact map_commitOrder order _ _
  rw [created] at directory'
  have balances : (AccountCreationView.commit handler₁.accountDatabase (order.run metadata.dbView.creation.newAccounts)).available =
      ctx.accountDatabase.available + (E + ⟨{.sequenceNumber idx offset}, 0⟩ + e).tally.balances := by
    rw [available]
    refine Eq.trans ?_ working'.balances
    exact (add_zero _).symm
  have after := working'.finish rejoins (logModifiedAccounts job.signedTx) directory' balances
  refine ⟨⟨{.sequenceNumber idx offset}, 0⟩ + e +
    ⟨0, { (0 : TxTally) with created := p.created, log := logModifiedAccounts job.signedTx }⟩, ?_, ?_, ?_, ?_⟩
  · rw [transactionEffect, format]
    simp only [known', there, offsetEq, effected, Option.bind_eq_bind, Option.bind_some]
    rfl
  · rw [← add_assoc, ← add_assoc]
    exact admissible_add_tally.mpr admissible₂
  · cases done
    rw [← add_assoc, ← add_assoc]
    exact after
  · cases done
    rw [BlockThreads.store_threads, List.length_set, validated.length]

theorem ValidatedBlock.accepts (sound : ctx.Sound) (disposition : ctx.disposition = checker.disposition)
    (validated : ValidatedBlock ctx checker n E block) (effected : transactionEffect ctx job.signedTx = some e)
    (admissible : Admissible ctx.taken (E + e)) : ∃ block', validateNext order block job = some block' := by
  rw [transactionEffect] at effected
  by_cases format : checkTxFormatParameters job.signedTx.transaction = true
  case neg =>
    rw [if_pos (by simpa using format)] at effected
    cases effected
  rw [if_neg (by simpa using format)] at effected
  obtain ⟨idx, known, effected⟩ := Option.bind_eq_some_iff.mp effected
  obtain ⟨account, there, effected⟩ := Option.bind_eq_some_iff.mp effected
  obtain ⟨offset, offsetEq, effected⟩ := Option.bind_eq_some_iff.mp effected
  obtain ⟨⟨p, e'⟩, operations, effected⟩ := Option.bind_eq_some_iff.mp effected
  cases effected
  rw [← add_assoc, ← add_assoc, admissible_add_tally] at admissible
  obtain ⟨first, untaken, unclaimed⟩ := admissible_add_singleton.mp admissible.left
  have directory := validated.after.directory
  have inside : job.thread.val < block.threads.length := by
    rw [validated.length]
    exact job.thread.isLt
  have here := List.getElem?_eq_getElem inside
  obtain ⟨db, reserved⟩ := directory.takes_sequenceNumber there offsetEq untaken unclaimed
  obtain ⟨account', offset', others, there', offsetEq', -, -, working⟩ :=
    validated.after.begin (V := UnbufferedMemoryDatabaseView) first here format known directory.length reserved
  rw [there] at there'
  cases there'
  rw [offsetEq] at offsetEq'
  cases offsetEq'
  obtain ⟨handler₁, metadata, i, processed⟩ :=
    working.takes_operations (validates_of sound disposition known others _) operations admissible
  have known' : (block.handler block.threads[job.thread.val]).accountDatabase.lookupUserId
      job.signedTx.transaction.metadata.sourceAccount = some idx := (congrFun directory.userIdToIdxMap _).trans known
  exact ⟨_, by
    rw [validateNext, here, Option.bind_some,
      validateTransaction_eq_ok.mpr ⟨format, idx, db, handler₁, metadata, i, known', reserved, processed, rfl, rfl⟩]⟩

/-- The validators do what the transactions' effects say. -/
theorem realizes_validateNext (sound : ctx.Sound) (disposition : ctx.disposition = checker.disposition) (order : CommitOrder) :
    Realizes ctx.taken (alone (fun job : Job n => transactionEffect ctx job.signedTx))
      (fun _ => ValidatedBlock ctx checker n) (validateNext order) where
  accepts validated effected admissible := by
    obtain ⟨e, effected, same⟩ := Option.map_eq_some_iff.mp effected
    cases same
    exact validated.accepts sound disposition effected admissible
  only validated admissible done := by
    obtain ⟨e, effected, admissible', validated'⟩ := validated.only sound disposition admissible done
    exact ⟨(), e, by rw [alone, effected, Option.map_some], admissible', validated'⟩

end Validators

end Speedex
