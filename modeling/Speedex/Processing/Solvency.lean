import Speedex.Ledger.ValidState
import Speedex.Processing.Schedules

set_option autoImplicit false

/- A block whose modified accounts have been checked leaves nobody overdrawn: whoever gets or pays something is in the
modification log. -/
namespace Speedex

open Claims BlockContext

/-- Whose balance changes is in the log. -/
def Logs (ctx : BlockContext) (e : TxEffect) : Prop :=
  ∀ idx asset, e.tally.balances idx asset ≠ 0 → ∃ entry ∈ e.tally.log, ctx.accountDatabase.lookupUserId entry.account = some idx

section Effects

variable {ctx : BlockContext} {sender : Sender} {progress progress' : Progress} {op : Operation} {ops : List Operation}
  {e e' : TxEffect} {idx : Nat} {asset : AssetID} {signedTx : SignedTransaction}

theorem eq_of_credit {account : Nat} {asset' : AssetID} {amount : BitVec 64} (moved : credit account asset' amount idx asset ≠ 0) :
    idx = account := by
  by_contra other
  rw [credit, Pi.single_eq_of_ne other, Pi.zero_apply] at moved
  exact moved rfl

theorem ne_zero_of_add {a b : Nat → AssetID → BitVec 64} (moved : (a + b) idx asset ≠ 0) : a idx asset ≠ 0 ∨ b idx asset ≠ 0 := by
  by_contra none
  obtain ⟨first, second⟩ := not_or.mp none
  rw [Pi.add_apply, Pi.add_apply, not_not.mp first, not_not.mp second, add_zero] at moved
  exact moved rfl

/-- An operation moves money on the account of the sender and of who is paid. -/
theorem touched_by_operation (effected : operationEffect ctx sender progress op = some (progress', e))
    (moved : e.tally.balances idx asset ≠ 0) : idx = sender.sourceAccountIdx ∨
      ∃ paid : PaymentOp, op = .payment paid ∧ ctx.accountDatabase.lookupUserId paid.receiver = some idx := by
  unfold operationEffect at effected
  split at effected
  · cases effected
  cases op with
  | createAccount op =>
    simp only [createAccountEffect] at effected
    split_ifs at effected
    cases effected
    exact .inl (eq_of_credit moved)
  | createSellOffer op =>
    simp only [createSellOfferEffect] at effected
    split_ifs at effected
    split at effected
    · cases effected
    · obtain ⟨disposition, -, same⟩ := Option.map_eq_some_iff.mp effected
      cases same
      left
      rcases ne_zero_of_add moved with added | escrowed
      · cases disposition with
        | kept => exact absurd rfl added
        | cleared buyAmount => exact eq_of_credit added
      · exact eq_of_credit escrowed
  | cancelSellOffer op =>
    simp only [cancelSellOfferEffect] at effected
    split at effected
    · cases effected
    · obtain ⟨unit, -, effected⟩ := Option.bind_eq_some_iff.mp effected
      obtain ⟨l, -, same⟩ := Option.bind_eq_some_iff.mp effected
      cases same
      exact .inl (eq_of_credit moved)
  | payment op =>
    simp only [paymentEffect] at effected
    split at effected
    next receiver known =>
      cases effected
      rcases ne_zero_of_add moved with paid | received
      · exact .inl (eq_of_credit paid)
      · rw [eq_of_credit received]
        exact .inr ⟨op, rfl, known⟩
    next =>
      obtain ⟨i, -, same⟩ := Option.map_eq_some_iff.mp effected
      cases same
      exact .inl (eq_of_credit moved)
  | moneyPrinter op =>
    simp only [moneyPrinterEffect] at effected
    split_ifs at effected
    cases effected
    exact .inl (eq_of_credit moved)

theorem touched_by_operations (effected : effects (operationEffect ctx sender) progress ops = some (progress', e))
    (moved : e.tally.balances idx asset ≠ 0) : idx = sender.sourceAccountIdx ∨
      ∃ paid : PaymentOp, .payment paid ∈ ops ∧ ctx.accountDatabase.lookupUserId paid.receiver = some idx := by
  induction ops generalizing progress e with
  | nil =>
    cases effected
    exact absurd rfl moved
  | cons op ops ih =>
    obtain ⟨⟨progress₁, e₁⟩, first, effected⟩ := Option.bind_eq_some_iff.mp effected
    obtain ⟨⟨progress₂, e₂⟩, rest, same⟩ := Option.map_eq_some_iff.mp effected
    cases same
    rcases ne_zero_of_add moved with here | later
    · rcases touched_by_operation first here with own | ⟨paid, rfl, known⟩
      · exact .inl own
      · exact .inr ⟨paid, List.mem_cons_self, known⟩
    · rcases ih rest later with own | ⟨paid, member, known⟩
      · exact .inl own
      · exact .inr ⟨paid, List.mem_cons_of_mem op member, known⟩

theorem logs_transaction (effected : transactionEffect ctx signedTx = some e) : Logs ctx e := by
  intro idx asset moved
  rw [transactionEffect] at effected
  split at effected
  · cases effected
  obtain ⟨sourceAccountIdx, known, effected⟩ := Option.bind_eq_some_iff.mp effected
  obtain ⟨account, -, effected⟩ := Option.bind_eq_some_iff.mp effected
  obtain ⟨offset, -, effected⟩ := Option.bind_eq_some_iff.mp effected
  obtain ⟨⟨progress, e'⟩, operations, same⟩ := Option.bind_eq_some_iff.mp effected
  cases same
  have logged : ∀ entry ∈ logModifiedAccounts signedTx, entry ∈ (⟨{.sequenceNumber sourceAccountIdx offset}, 0⟩ + e' +
      ⟨0, { (0 : TxTally) with created := progress.created, log := logModifiedAccounts signedTx }⟩ : TxEffect).tally.log :=
    fun entry member => Multiset.mem_add.mpr (.inr (Multiset.mem_coe.mpr member))
  have moved' : e'.tally.balances idx asset ≠ 0 := by simpa using moved
  rcases touched_by_operations operations moved' with rfl | ⟨paid, member, receiver⟩
  · exact ⟨.newSelfTransaction signedTx, logged _ List.mem_cons_self, known⟩
  · obtain ⟨i, inside, here⟩ := List.mem_iff_getElem.mp member
    refine ⟨logOperation signedTx.transaction.metadata i (.payment paid) |>.head (List.cons_ne_nil _ _), logged _ ?_, receiver⟩
    refine List.mem_cons_of_mem _ (List.mem_flatten.mpr ⟨_, List.mem_mapIdx.mpr ⟨i, inside, rfl⟩, ?_⟩)
    rw [here]
    exact List.mem_singleton_self _

theorem logs_total {txs : List SignedTransaction} : Logs ctx (total (transactionEffect ctx) txs) := by
  induction txs with
  | nil => exact fun idx asset moved => absurd rfl moved
  | cons tx txs ih =>
    intro idx asset moved
    rw [total_cons] at moved ⊢
    rcases ne_zero_of_add moved with here | later
    · cases effected : transactionEffect ctx tx with
      | none =>
        rw [effected] at here
        exact absurd rfl here
      | some e =>
        rw [effected] at here
        obtain ⟨entry, member, known⟩ := logs_transaction effected idx asset here
        exact ⟨entry, Multiset.mem_add.mpr (.inl member), known⟩
    · obtain ⟨entry, member, known⟩ := ih idx asset later
      exact ⟨entry, Multiset.mem_add.mpr (.inr member), known⟩

end Effects

section Blocks

variable {ctx : BlockContext} {checker : WorkUnitStateCommitmentChecker} {n : Nat} {order : CommitOrder}
  {units : Parallel.Interleaving Nat} {mainStats : List SingleValidationStatistics} {stats : BlockStateUpdateStats}
  {jobs : List (Job n)} {outcome : ValidationOutcome} {log : TrieNode AccountModificationTxList}
  {parts : List (TrieNode AccountModificationTxList)} {uninitialized : AccountID → Nat}

/-- After a block that the validators take and whose logged accounts pass the last check, no account is overdrawn, if none
was before. -/
theorem validated_block_solvent (ready : ctx.Ready checker)
    (solvent : ∀ idx asset, 0 ≤ (ctx.accountDatabase.available idx asset).toInt)
    (done : validateTransactionBlock order units ctx checker mainStats stats jobs = some outcome)
    (logged : ∀ entry ∈ outcome.accountModificationLog, MemoryDatabase.Logged log entry.account)
    (cover : TrieNode.PartsCover accountKeyLen log parts)
    (checked : outcome.accountDatabase.checkValidState uninitialized parts = .ok true) :
    (∀ idx asset, 0 ≤ (outcome.accountDatabase.available idx asset).toInt) ∧
      ∀ account ∈ outcome.accountDatabase.uncommittedDb, account.Solvent := by
  obtain ⟨-, -, concludes⟩ := concludes_of_validated ready done
  obtain ⟨valid, run, exactly⟩ := MemoryDatabase.checkValidState_spec cover
  rw [checked] at run
  cases run
  obtain ⟨passed, created⟩ := exactly.mp rfl
  refine ⟨fun idx asset => ?_, created⟩
  by_cases moved : (total (transactionEffect ctx) (jobs.map Job.signedTx)).tally.balances idx asset = 0
  · rw [concludes.balances, Pi.add_apply, Pi.add_apply, moved, add_zero]
    exact solvent idx asset
  · obtain ⟨entry, member, known⟩ := logs_total idx asset moved
    rw [← concludes.log] at member
    have known' : outcome.accountDatabase.lookupUserId entry.account = some idx :=
      (congrFun concludes.directory.userIdToIdxMap entry.account).trans known
    have passes := passed entry.account (logged entry (Multiset.mem_coe.mp member))
    rw [known', Option.getD_some, MemoryDatabase.checkValid_iff] at passes
    rw [MemoryDatabase.available]
    cases here : outcome.accountDatabase.database[idx]? with
    | none => exact Int.le_refl 0
    | some account => exact (passes account here).available asset

theorem twoAccounts_solvent (idx : Nat) (asset : AssetID) : 0 ≤ (twoAccounts.available idx asset).toInt := by
  rw [MemoryDatabase.available]
  cases here : twoAccounts.database[idx]? with
  | none => exact Int.le_refl 0
  | some account =>
    have all : ∀ account ∈ twoAccounts.database, account.inValidState = true := by decide
    exact ((UserAccount.inValidState_iff account).mp (all account (List.mem_of_getElem? here))).available asset

theorem validated_block_solvent_sample : ∃ outcome,
    validateTransactionBlock .sequential .sequential twoAccountsContext halfCleared [] 0
      [(⟨0, sellBack, by decide⟩ : Job 1)] = some outcome ∧
    ∀ idx asset, 0 ≤ (outcome.accountDatabase.available idx asset).toInt := by
  have checks : (validateTransactionBlock .sequential .sequential twoAccountsContext halfCleared [] 0
      [(⟨0, sellBack, by decide⟩ : Job 1)]).any (fun outcome =>
        outcome.accountModificationLog.all (fun entry => entry.account = 2) &&
          decide (outcome.accountDatabase.checkValidState (fun _ => 0) [oneAccountLog 2] = .ok true)) = true := by decide
  obtain ⟨outcome, done, both⟩ := (Option.any_eq_true _ _).mp checks
  obtain ⟨owners, checked⟩ := Bool.and_eq_true_iff.mp both
  refine ⟨outcome, done, (validated_block_solvent twoAccountsContext_ready twoAccounts_solvent done (fun entry member => ?_)
    ((TrieNode.Parts.whole).cover (.inr (canonical_oneAccountLog 2))) (of_decide_eq_true checked)).1⟩
  rw [logged_oneAccountLog]
  exact of_decide_eq_true (List.all_eq_true.mp owners entry member)

end Blocks

end Speedex
