import Speedex.Processing.Steps

set_option autoImplicit false

/- What the serial managers do with a new offer. -/
namespace Speedex

open Claims BlockContext

theorem addsOffers_processing {V : Type} [LawfulView V] {g : TxSetting ProcessingSerialManager}
    (disposition : g.ctx.disposition = keepAll) (insertFn : g.insertFn = .overwrite) : AddsOffers g V := by
  intro p E handler handler' metadata metadata' i idx offer working bounded owner id operation done
  obtain ⟨handler₁, inserted, made⟩ := Fallible.bind_eq_ok.mp done
  cases made
  refine ⟨.kept, by rw [disposition]; rfl, working.kept bounded owner id ?_⟩
  rw [insertFn]
  exact inserted

namespace ValidatingSerialManager

/-- The supply that the statistics count for a work unit. -/
def supplyOf (activatedSupplies : List SingleValidationStatistics) (idx : Nat) : FractionalAsset :=
  (activatedSupplies[idx]?.map SingleValidationStatistics.activatedSupply).getD 0

/-- A manager that works under a commitment and has counted these supplies. -/
def Counts (checker : WorkUnitStateCommitmentChecker) (manager : ValidatingSerialManager) (activated : Nat → FractionalAsset) :
    Prop :=
  manager.clearingCommitment = checker ∧ supplyOf manager.activatedSupplies = activated

variable {checker : WorkUnitStateCommitmentChecker} {stats : List SingleValidationStatistics} {idx : Nat}

theorem supplyOf_makeMinimumSize (stats : List SingleValidationStatistics) (sz : Nat) :
    supplyOf (makeMinimumSize stats sz) = supplyOf stats := by
  funext j
  rw [supplyOf, supplyOf, makeMinimumSize]
  by_cases inside : j < stats.length
  · rw [List.getElem?_append_left inside]
  · rw [List.getElem?_append_right (Nat.le_of_not_lt inside), List.getElem?_eq_none (Nat.le_of_not_lt inside),
      List.getElem?_replicate]
    split_ifs <;> rfl

theorem supplyOf_set {supply : SingleValidationStatistics} (here : stats[idx]? = some supply) (more : FractionalAsset) :
    supplyOf (stats.set idx ⟨supply.activatedSupply + more⟩) = supplyOf stats + Pi.single idx more := by
  funext j
  have inside := (List.getElem?_eq_some_iff.mp here).1
  rw [Pi.add_apply, supplyOf, supplyOf, List.getElem?_set]
  by_cases same : idx = j
  · rw [if_pos same, if_pos inside, ← same, here, Pi.single_eq_same]
    rfl
  · rw [if_neg same, Pi.single_eq_of_ne (Ne.symm same), add_zero]

theorem length_makeMinimumSize (stats : List SingleValidationStatistics) (sz : Nat) :
    sz < (makeMinimumSize stats sz).length := by
  rw [makeMinimumSize, List.length_append, List.length_replicate]
  omega

end ValidatingSerialManager

section Validating

open ValidatingSerialManager

variable {g : TxSetting ValidatingSerialManager} {p : Progress} {E : TxEffect}
  {handler handler' : SerialTransactionHandler ValidatingSerialManager}
  {metadata metadata' : OperationMetadata UnbufferedMemoryDatabaseView} {i : Nat} {idx : BitVec 32} {offer : Offer}
  {checker : WorkUnitStateCommitmentChecker}

/-- The unbuffered view never refuses. -/
theorem UnbufferedMemoryDatabaseView.transferAvailable_status {db db' : MemoryDatabase}
    {view view' : UnbufferedMemoryDatabaseView} {account : Nat} {asset : AssetID} {amount : BitVec 64}
    {status : TransactionProcessingStatus}
    (done : DatabaseView.transferAvailable db view account asset amount = .ok (db', view', status)) : status = .success := by
  change UnbufferedMemoryDatabaseView.transferAvailable db view account asset amount = _ at done
  rw [UnbufferedMemoryDatabaseView.transferAvailable] at done
  split_ifs at done
  · obtain ⟨db₁, -, made⟩ := Fallible.bind_eq_ok.mp done
    cases made
    rfl
  · obtain ⟨data, -, made⟩ := Fallible.bind_eq_ok.mp done
    cases made
    rfl

/-- The handler after its statistics have grown. -/
def SerialTransactionHandler.sized (handler : SerialTransactionHandler ValidatingSerialManager) (idx : BitVec 32) :
    SerialTransactionHandler ValidatingSerialManager :=
  { handler with serialManager := { handler.serialManager with
      derived := { handler.serialManager.derived with
        activatedSupplies := makeMinimumSize handler.serialManager.derived.activatedSupplies idx.toNat } } }

theorem Working.sized (derived : g.derived = Counts checker) (working : Working g p E (handler, metadata, i)) :
    Working g p E (handler.sized idx, metadata, i) := by
  obtain ⟨own, split, keeps⟩ := working.own
  have counts := keeps.derived
  rw [derived] at counts
  exact { working with
    own := ⟨own, split, { keeps with
      derived := by
        rw [derived]
        exact ⟨counts.1, (supplyOf_makeMinimumSize _ _).trans counts.2⟩ }⟩ }

/-- A new offer that is cleared at once. -/
theorem Working.cleared (derived : g.derived = Counts checker)
    (inside : g.sender.sourceAccountIdx < g.ctx.accountDatabase.size) (working : Working g p E (handler, metadata, i))
    (owner : offer.owner = g.sender.txMetadata.sourceAccount) (operation : metadata.operationId = offer.offerId)
    (done : clearPreemptively handler metadata idx offer = .ok (handler', metadata')) :
    ∃ sellPrice buyPrice, checker.prices[offer.category.sellAsset.toNat]? = some sellPrice ∧
      checker.prices[offer.category.buyAsset.toNat]? = some buyPrice ∧ buyPrice ≠ 0 ∧
      Working g p (E + ⟨0, addOfferTally g.sender idx.toNat offer
        (.cleared (fullBuyAmount offer sellPrice buyPrice checker.taxRate))⟩) (handler', metadata', i) := by
  obtain ⟨own, split, keeps⟩ := working.own
  have counts := keeps.derived
  rw [derived] at counts
  obtain ⟨commitment, counts⟩ : handler.serialManager.derived.clearingCommitment = checker ∧
      supplyOf handler.serialManager.derived.activatedSupplies = own.activated := counts
  rw [clearPreemptively, commitment] at done
  cases sold : checker.prices[offer.category.sellAsset.toNat]? with
  | none => simp [sold] at done
  | some sellPrice =>
    cases bought : checker.prices[offer.category.buyAsset.toNat]? with
    | none => simp [bought] at done
    | some buyPrice =>
      cases counted : handler.serialManager.derived.activatedSupplies[idx.toNat]? with
      | none => simp [counted] at done
      | some supply =>
        simp only [sold, bought, counted] at done
        obtain ⟨⟨db, view⟩, paid, made⟩ := Fallible.bind_eq_ok.mp done
        cases made
        rw [ValidatingSerialManager.clearOfferFull] at paid
        split_ifs at paid with zero
        obtain ⟨⟨db₁, view₁, status⟩, call, made⟩ := Fallible.bind_eq_ok.mp paid
        cases made
        cases UnbufferedMemoryDatabaseView.transferAvailable_status call
        have existing : metadata.sourceAccountIdx < (DatabaseView.creation metadata.dbView).dbSize := by
          rw [working.view, working.sourceAccountIdx]
          exact inside
        obtain ⟨moved, creation⟩ := LawfulView.transferAvailable_existing existing call
        refine ⟨sellPrice, buyPrice, rfl, rfl, zero, ?_⟩
        have sender : metadata.sourceAccountIdx = g.sender.sourceAccountIdx := working.sourceAccountIdx
        have txMetadata : metadata.txMetadata = g.sender.txMetadata := working.txMetadata
        rw [sender] at moved
        have paid' := working.transferred moved creation
        exact { paid' with
          directory := by simpa [addOfferTally] using paid'.directory
          balances := by simpa [addOfferTally] using paid'.balances
          books := by simpa using paid'.books
          own := by
            refine ⟨own + addOfferTally g.sender idx.toNat offer
              (.cleared (fullBuyAmount offer sellPrice buyPrice checker.taxRate)), ?_, ?_, ?_, ?_, ?_⟩
            · rw [Effect.add_tally, split, add_assoc]
            · simpa [addOfferTally] using keeps.newOffers
            · rw [derived]
              refine ⟨rfl, ?_⟩
              rw [TxTally.add_activated, ← counts]
              exact supplyOf_set counted _
            · show ((handler.serialAccountLog ++ [_] : List LogEntry) : Multiset LogEntry) = own.log + {_}
              have before : (handler.serialAccountLog : Multiset LogEntry) = own.log := keeps.log
              rw [← Multiset.coe_add, before, txMetadata, ← owner, operation]
              rfl
            · simpa [addOfferTally] using keeps.stats
          issued := by simpa [addOfferTally] using paid'.issued
          claimed := by simpa using paid'.claimed
          current := by simpa [addOfferTally] using paid'.current
          fresh := by simpa using paid'.fresh }

theorem addsOffers_validating (disposition : g.ctx.disposition = checker.disposition) (insertFn : g.insertFn = .rollback)
    (derived : g.derived = Counts checker) (inside : g.sender.sourceAccountIdx < g.ctx.accountDatabase.size) :
    AddsOffers g UnbufferedMemoryDatabaseView := by
  intro p E handler handler' metadata metadata' i idx offer working bounded owner id operation done
  obtain ⟨own, split, keeps⟩ := working.own
  have counts := keeps.derived
  rw [derived] at counts
  have commitments : (ensureSufficientNewOffersSz handler idx).serialManager.derived.clearingCommitment = checker := counts.1
  change addOffer handler metadata idx offer = _ at done
  rw [addOffer] at done
  simp only [commitments] at done
  rw [disposition, WorkUnitStateCommitmentChecker.disposition]
  cases here : checker.commitments[idx.toNat]? with
  | none =>
    rw [here] at done
    cases done
  | some commitment =>
    simp only [here] at done
    simp only [Option.bind_eq_bind, Option.bind_some]
    by_cases beyond : commitment.thresholdKeyIsNull ≠ 1 ∧ commitment.partialExecThresholdKey.val ≤ offer.key
    · rw [if_neg beyond.1, if_pos beyond.2] at done
      obtain ⟨handler₁, inserted, made⟩ := Fallible.bind_eq_ok.mp done
      cases made
      rw [← insertFn] at inserted
      exact ⟨.kept, if_pos beyond, (working.sized derived).kept bounded owner id inserted⟩
    · have clears : clearPreemptively (ensureSufficientNewOffersSz handler idx) metadata idx offer =
          .ok (handler', metadata') := by
        split_ifs at done with null above
        · exact done
        · exact absurd ⟨null, above⟩ beyond
        · exact done
      obtain ⟨sellPrice, buyPrice, sold, bought, zero, working'⟩ :=
        ((working.sized derived).padded idx).cleared derived inside owner (operation.trans id.symm) clears
      rw [if_neg beyond, sold, bought]
      simp only [Option.bind_some, if_neg zero]
      exact ⟨_, rfl, working'.next⟩

end Validating

end Speedex
