import Speedex.Processing.Merging

set_option autoImplicit false

/- `block_validator.cc`: which blocks the validators take, and what they make of them. -/
namespace Speedex

open Claims BlockContext

section Blocks

variable {ctx : BlockContext} {checker : WorkUnitStateCommitmentChecker} {n n' : Nat}
  {order order' : CommitOrder} {units units' : Parallel.Interleaving Nat}
  {mainStats : List SingleValidationStatistics} {stats : BlockStateUpdateStats} {jobs : List (Job n)} {jobs' : List (Job n')}
  {outcome : ValidationOutcome}

/-- What the validators make of a block that they take. -/
theorem concludes_of_validated (ready : ctx.Ready checker)
    (done : validateTransactionBlock order units ctx checker mainStats stats jobs = some outcome) :
    (∀ tx ∈ jobs.map Job.signedTx, (transactionEffect ctx tx).isSome = true) ∧
      Admissible ctx.taken (total (transactionEffect ctx) (jobs.map Job.signedTx)) ∧
      Concludes ctx mainStats stats (total (transactionEffect ctx) (jobs.map Job.signedTx)) outcome := by
  obtain ⟨block, run, finished⟩ := Option.bind_eq_some_iff.mp done
  obtain ⟨all, admissible, validated⟩ := validated_of_run ready run
  obtain ⟨outcome', finished', concludes⟩ := validated.finish ready units mainStats stats
  rw [finished'] at finished
  cases finished
  exact ⟨all, admissible, concludes⟩

theorem validated_of_admissible (ready : ctx.Ready checker) (order : CommitOrder) (units : Parallel.Interleaving Nat)
    (mainStats : List SingleValidationStatistics) (stats : BlockStateUpdateStats)
    (all : ∀ tx ∈ jobs.map Job.signedTx, (transactionEffect ctx tx).isSome = true)
    (admissible : Admissible ctx.taken (total (transactionEffect ctx) (jobs.map Job.signedTx))) :
    ∃ outcome, validateTransactionBlock order units ctx checker mainStats stats jobs = some outcome ∧
      Concludes ctx mainStats stats (total (transactionEffect ctx) (jobs.map Job.signedTx)) outcome := by
  obtain ⟨block, run, validated⟩ := run_of_admissible ready order all admissible
  obtain ⟨outcome, finished, concludes⟩ := validated.finish ready units mainStats stats
  exact ⟨outcome, by rw [validateTransactionBlock, run, Option.bind_some, finished]; rfl, concludes⟩

/-- Accounts 1 and 2 have ten units of two assets each. -/
def twoAccounts : MemoryDatabase where
  userIdToIdxMap account := if account = 1 then some 0 else if account = 2 then some 1 else none
  uncommittedIdxMap _ := none
  reservedAccountIds _ := false
  database :=
    [{ UserAccount.new 1 [] with ownedAssets := [⟨10, 10⟩, ⟨10, 10⟩] },
      { UserAccount.new 2 [] with ownedAssets := [⟨10, 10⟩, ⟨10, 10⟩] }]
  uncommittedDb := []
  accountCreationThunks := []
  persistedRoundNumber := 0

/-- New offers that sell asset 0 are kept, those that sell asset 1 are cleared at once. -/
def halfCleared : WorkUnitStateCommitmentChecker :=
  ⟨[{ MerkleWorkUnitManager.clearAll with thresholdKeyIsNull := 0 }, MerkleWorkUnitManager.clearAll], [1, 1], 10⟩

/-- Two accounts and two empty books. -/
def twoAccountsContext : BlockContext :=
  ⟨twoAccounts, ⟨[.new (pairCategory 0 1), .new (pairCategory 1 0)], 2⟩, halfCleared.disposition⟩

/-- Account 1 pays account 2 and sells two units. -/
def payAndSell : SignedTransaction :=
  ⟨⟨⟨1, 256⟩, [.payment ⟨2, 0, 5⟩, .createSellOffer ⟨pairCategory 0 1, 2, 16777216⟩], 0⟩, []⟩

/-- Account 2 sells three units of the other asset. -/
def sellBack : SignedTransaction := ⟨⟨⟨2, 256⟩, [.createSellOffer ⟨pairCategory 1 0, 3, 16777216⟩], 0⟩, []⟩

theorem twoAccountsContext_ready : twoAccountsContext.Ready halfCleared where
  sound := {
    located := by
      intro account idx found
      change (if account = 1 then some 0 else if account = 2 then some 1 else none) = some idx at found
      change idx < 2
      split_ifs at found <;> cases found <;> decide
    valid := by
      intro unit member
      rcases List.mem_cons.mp member with rfl | member
      · exact MerkleTrie.valid_new workUnitKeyLen
      · rw [List.mem_singleton.mp member]
        exact MerkleTrie.valid_new workUnitKeyLen }
  disposition := rfl
  indexed := MerkleWorkUnitManager.Indexed.empty.increase (show MerkleWorkUnitManager.increaseNumTradedAssets _ 2 = .ok _ from rfl)
  uncommitted := by
    intro unit member
    rcases List.mem_cons.mp member with rfl | member
    · exact MerkleTrie.valid_new workUnitKeyLen
    · rw [List.mem_singleton.mp member]
      exact MerkleTrie.valid_new workUnitKeyLen

/-- However the transactions of a block are ordered and divided among the validators, the verdict and what the block
comes to are the same. -/
theorem validateTransactionBlock_schedule_free (ready : ctx.Ready checker)
    (same : (jobs.map Job.signedTx).Perm (jobs'.map Job.signedTx)) :
    Option.Rel SameResults (validateTransactionBlock order units ctx checker mainStats stats jobs)
      (validateTransactionBlock order' units' ctx checker mainStats stats jobs') := by
  have equal : total (transactionEffect ctx) (jobs.map Job.signedTx) = total (transactionEffect ctx) (jobs'.map Job.signedTx) :=
    total_perm same
  cases done : validateTransactionBlock order units ctx checker mainStats stats jobs with
  | some outcome =>
    obtain ⟨all, admissible, concludes⟩ := concludes_of_validated ready done
    rw [equal] at admissible concludes
    obtain ⟨outcome', done', concludes'⟩ := validated_of_admissible ready order' units' mainStats stats
      (fun tx member => all tx (same.mem_iff.mpr member)) admissible
    rw [done']
    exact .some (concludes.same concludes')
  | none =>
    cases done' : validateTransactionBlock order' units' ctx checker mainStats stats jobs' with
    | none => exact .none
    | some outcome' =>
      obtain ⟨all, admissible, -⟩ := concludes_of_validated ready done'
      rw [← equal] at admissible
      obtain ⟨outcome, done'', -⟩ := validated_of_admissible ready order units mainStats stats
        (fun tx member => all tx (same.mem_iff.mp member)) admissible
      rw [done] at done''
      cases done''

theorem validateTransactionBlock_schedule_free_sample : ∃ outcome outcome',
    validateTransactionBlock .sequential .sequential twoAccountsContext halfCleared [] 0
      [(⟨0, payAndSell, by decide⟩ : Job 1), ⟨0, sellBack, by decide⟩] = some outcome ∧
    validateTransactionBlock .sequential .sequential twoAccountsContext halfCleared [] 0
      [(⟨0, sellBack, by decide⟩ : Job 2), ⟨1, payAndSell, by decide⟩] = some outcome' ∧ SameResults outcome outcome' := by
  have related : Option.Rel SameResults
      (validateTransactionBlock .sequential .sequential twoAccountsContext halfCleared [] 0
        [(⟨0, payAndSell, by decide⟩ : Job 1), ⟨0, sellBack, by decide⟩])
      (validateTransactionBlock .sequential .sequential twoAccountsContext halfCleared [] 0
        [(⟨0, sellBack, by decide⟩ : Job 2), ⟨1, payAndSell, by decide⟩]) :=
    validateTransactionBlock_schedule_free twoAccountsContext_ready (.swap _ _ _)
  have accepted : (validateTransactionBlock .sequential .sequential twoAccountsContext halfCleared [] 0
      [(⟨0, payAndSell, by decide⟩ : Job 1), ⟨0, sellBack, by decide⟩]).isSome = true := by decide
  obtain ⟨outcome, done⟩ := Option.isSome_iff_exists.mp accepted
  rw [done] at related
  cases done' : validateTransactionBlock .sequential .sequential twoAccountsContext halfCleared [] 0
      [(⟨0, sellBack, by decide⟩ : Job 2), ⟨1, payAndSell, by decide⟩] with
  | none =>
    rw [done'] at related
    cases related
  | some outcome' =>
    rw [done'] at related
    cases related with
    | some results => exact ⟨outcome, outcome', done, rfl, results⟩

end Blocks

end Speedex
