import Speedex.Library.Fallible
import Speedex.Trie.Handle
import Speedex.Unit.Clearing

set_option autoImplicit false

/- `MerkleWorkUnit`: the offers of one category, with the records of the blocks that are not
persisted yet. -/
namespace Speedex

abbrev OfferTrie := MerkleTrie Offer

namespace OfferTrie

def empty : OfferTrie := MerkleTrie.new workUnitKeyLen

end OfferTrie

/-- `WorkUnitLMDBCommitmentThunk`. -/
structure WorkUnitLMDBCommitmentThunk where
  partialExecKey : OfferKeyType
  partialExecAmount : BitVec 64
  preexecutePartialExecOffer : Offer
  uncommittedOffersVec : List Offer
  clearedOffers : OfferTrie
  deletedKeys : List (Key × Offer)
  existsPartialExec : Bool
  currentBlockNumber : BitVec 64

namespace WorkUnitLMDBCommitmentThunk

/-- The constructor leaves `exists_partial_exec` uninitialized; `uninitialized` is what is there. -/
def new (uninitialized : Bool) (currentBlockNumber : BitVec 64) : WorkUnitLMDBCommitmentThunk where
  partialExecKey := zeroKey
  partialExecAmount := -1
  preexecutePartialExecOffer := default
  uncommittedOffersVec := []
  clearedOffers := OfferTrie.empty
  deletedKeys := []
  existsPartialExec := uninitialized
  currentBlockNumber := currentBlockNumber

def setNoPartialExec (thunk : WorkUnitLMDBCommitmentThunk) : WorkUnitLMDBCommitmentThunk :=
  { thunk with existsPartialExec := false, partialExecKey := maxKey }

def setPartialExec (thunk : WorkUnitLMDBCommitmentThunk) (buf : OfferKeyType) (amount : BitVec 64)
    (offer : Offer) : WorkUnitLMDBCommitmentThunk :=
  { thunk with
    partialExecKey := buf
    partialExecAmount := amount
    preexecutePartialExecOffer := offer
    existsPartialExec := true }

end WorkUnitLMDBCommitmentThunk

/-- The part of `WorkUnitLMDB` that is in memory. -/
structure WorkUnitLMDB where
  thunks : List WorkUnitLMDBCommitmentThunk
  persistedRoundNumber : BitVec 64

namespace WorkUnitLMDB

def addNewThunk (lmdb : WorkUnitLMDB) (uninitialized : Bool) (currentBlockNumber : BitVec 64) :
    Except String WorkUnitLMDB :=
  let added := { lmdb with thunks := lmdb.thunks ++ [.new uninitialized currentBlockNumber] }
  match lmdb.thunks.getLast? with
  | none => .ok added
  | some back =>
    if back.currentBlockNumber + 1 ≠ currentBlockNumber then .error "thunks in the wrong order!" else .ok added

def getTopThunk (lmdb : WorkUnitLMDB) : Except String WorkUnitLMDBCommitmentThunk :=
  match lmdb.thunks.getLast? with
  | none => .error "can't get top thunk when thunks.size() == 0"
  | some thunk => .ok thunk

/-- An update through the reference that `get_top_thunk` returns. -/
def setTopThunk (lmdb : WorkUnitLMDB) (thunk : WorkUnitLMDBCommitmentThunk) : WorkUnitLMDB :=
  { lmdb with thunks := lmdb.thunks.dropLast ++ [thunk] }

def popTopThunk (lmdb : WorkUnitLMDB) : Except String WorkUnitLMDB :=
  if lmdb.thunks.isEmpty then .error "can't pop_back from empty thunks list"
  else .ok { lmdb with thunks := lmdb.thunks.dropLast }

@[simp] theorem getTopThunk_setTopThunk (lmdb : WorkUnitLMDB) (thunk : WorkUnitLMDBCommitmentThunk) :
    (lmdb.setTopThunk thunk).getTopThunk = .ok thunk := by
  simp [setTopThunk, getTopThunk]

theorem popTopThunk_of_top {lmdb : WorkUnitLMDB} {thunk : WorkUnitLMDBCommitmentThunk}
    (top : lmdb.getTopThunk = .ok thunk) :
    lmdb.popTopThunk = .ok { lmdb with thunks := lmdb.thunks.dropLast } := by
  rw [getTopThunk] at top
  rw [popTopThunk]
  cases shape : lmdb.thunks with
  | nil =>
    rw [shape] at top
    cases top
  | cons => rfl

end WorkUnitLMDB

structure MerkleWorkUnit where
  category : OfferCategory
  committedOffers : OfferTrie
  uncommittedOffers : OfferTrie
  lmdbInstance : WorkUnitLMDB

namespace MerkleWorkUnit

def addOffers (unit : MerkleWorkUnit) (offers : OfferTrie) : Except String MerkleWorkUnit := do
  let uncommittedOffers ← unit.uncommittedOffers.mergeIn offers
  .ok { unit with uncommittedOffers := uncommittedOffers }

def markForDeletion (unit : MerkleWorkUnit) (key : Key) : MerkleWorkUnit × Option Offer :=
  let (committedOffers, found) := unit.committedOffers.markForDeletion key
  ({ unit with committedOffers := committedOffers }, found)

def unmarkForDeletion (unit : MerkleWorkUnit) (key : Key) : MerkleWorkUnit × Option Offer :=
  let (committedOffers, found) := unit.committedOffers.unmarkForDeletion key
  ({ unit with committedOffers := committedOffers }, found)

/-- `tentative_commit_for_validation`. -/
def tentativeCommitForValidation (unit : MerkleWorkUnit) (uninitialized : Bool)
    (currentBlockNumber : BitVec 64) : Except String MerkleWorkUnit := do
  let lmdbInstance ← unit.lmdbInstance.addNewThunk uninitialized currentBlockNumber
  let thunk ← lmdbInstance.getTopThunk
  let uncommittedOffersVec ← unit.uncommittedOffers.accumulateValues
  let (committedOffers, deletedKeys) ← unit.committedOffers.performMarkedDeletions workUnitKeyLen
  let committedOffers ← committedOffers.mergeIn unit.uncommittedOffers
  .ok { unit with
    committedOffers := committedOffers
    uncommittedOffers := OfferTrie.empty
    lmdbInstance := lmdbInstance.setTopThunk
      { thunk with uncommittedOffersVec := uncommittedOffersVec, deletedKeys := deletedKeys } }

/-- `undo_thunk`, on the committed offers. -/
def undoThunk (committedOffers : OfferTrie) (thunk : WorkUnitLMDBCommitmentThunk) : Except String OfferTrie := do
  let committedOffers ← thunk.deletedKeys.foldlM
    (fun trie kv => trie.insert .overwrite kv.1 kv.2) committedOffers
  let clearedOffers := thunk.clearedOffers.cleanSinglechildNodes thunk.partialExecKey.val
  let committedOffers ← committedOffers.mergeIn clearedOffers
  let committedOffers := thunk.uncommittedOffersVec.foldl
    (fun trie offer => (trie.markForDeletion offer.key).1) committedOffers
  let (committedOffers, _) ← committedOffers.performMarkedDeletions workUnitKeyLen
  if thunk.existsPartialExec then
    committedOffers.insert .overwrite thunk.partialExecKey.val thunk.preexecutePartialExecOffer
  else .ok committedOffers

def finalizeValidation (unit : MerkleWorkUnit) : Except String MerkleWorkUnit := do
  let size ← unit.uncommittedOffers.size
  if size ≠ 0 then .error "shouldn't have uncommitted_offers nonempty when calling finalize"
  else .ok { unit with committedOffers := unit.committedOffers.clearRollback }

def rollbackValidation (unit : MerkleWorkUnit) : Except String MerkleWorkUnit := do
  let committedOffers ← unit.committedOffers.doRollback
  let thunk ← unit.lmdbInstance.getTopThunk
  let committedOffers ← undoThunk committedOffers { thunk with uncommittedOffersVec := [] }
  let lmdbInstance ← unit.lmdbInstance.popTopThunk
  .ok { unit with
    committedOffers := committedOffers
    uncommittedOffers := OfferTrie.empty
    lmdbInstance := lmdbInstance }

/-- `rollback_thunks`: the thunks are visited from the oldest to the newest. -/
def rollbackThunks (unit : MerkleWorkUnit) (currentBlockNumber : BitVec 64) : Except String MerkleWorkUnit :=
  if currentBlockNumber.ule unit.lmdbInstance.persistedRoundNumber then
    .error "can't rollback persisted objects"
  else do
    let later := fun thunk : WorkUnitLMDBCommitmentThunk => currentBlockNumber.ult thunk.currentBlockNumber
    let committedOffers ← (unit.lmdbInstance.thunks.filter later).foldlM undoThunk unit.committedOffers
    .ok { unit with
      committedOffers := committedOffers
      lmdbInstance := { unit.lmdbInstance with
        thunks := unit.lmdbInstance.thunks.filter (fun thunk => !later thunk) } }

/-- The end of `tentative_clear_offers_for_validation` for a threshold key without an offer: the
commitment must say that everything clears. -/
def clearEverything (unit : MerkleWorkUnit) (committedOffers : OfferTrie) (effects : ClearingEffects)
    (statistics : SingleValidationStatistics) (localClearingLog : SingleWorkUnitStateCommitment)
    (func : Offer → ClearingEffects → Except String ClearingEffects) :
    Except String (Bool × MerkleWorkUnit × ClearingEffects × SingleValidationStatistics) :=
  let unit := { unit with committedOffers := committedOffers }
  if localClearingLog.partialExecThresholdKey ≠ zeroKey then .ok (false, unit, effects, statistics)
  else if localClearingLog.partialExecOfferActivationAmount ≠ FractionalAsset.fromIntegral 0 then
    .ok (false, unit, effects, statistics)
  else do
    let statistics : SingleValidationStatistics :=
      ⟨statistics.activatedSupply + .fromInt64 committedOffers.getRootMetadata.endow⟩
    let effects ← committedOffers.apply func effects
    let thunk ← unit.lmdbInstance.getTopThunk
    .ok (true,
      { unit with
        committedOffers := OfferTrie.empty
        lmdbInstance := unit.lmdbInstance.setTopThunk
          { thunk.setNoPartialExec with clearedOffers := committedOffers } },
      effects, statistics)

/-- What partial execution leaves of an offer goes back into the book. -/
def insertReduced (committedOffers : OfferTrie) (key : Key) (reduced : Offer) : Except String OfferTrie :=
  if reduced.amount ≠ 0 then committedOffers.insert .overwrite key reduced else .ok committedOffers

/-- The rest of `tentative_clear_offers_for_validation`, for the offer found at the threshold key. -/
def clearUpToPartial (unit : MerkleWorkUnit) (committedOffers : OfferTrie) (partialExecOffer : Offer)
    (endowBelowPartialExecKey : BitVec 64) (effects : ClearingEffects)
    (statistics : SingleValidationStatistics) (localClearingLog : SingleWorkUnitStateCommitment)
    (checker : WorkUnitStateCommitmentChecker)
    (func : Offer → ClearingEffects → Except String ClearingEffects) :
    Except String (Bool × MerkleWorkUnit × ClearingEffects × SingleValidationStatistics) := do
  let key := localClearingLog.partialExecThresholdKey
  let amount := localClearingLog.partialExecOfferActivationAmount
  let effects := { effects with serialAccountLog := effects.serialAccountLog ++
    [.selfModification partialExecOffer.owner partialExecOffer.offerId] }
  match effects.db.lookupUserId partialExecOffer.owner with
  | none =>
    let committedOffers ← committedOffers.insert .overwrite key.val partialExecOffer
    .ok (false, { unit with committedOffers := committedOffers }, effects, statistics)
  | some dbIdx =>
    let db ← clearOfferPartial partialExecOffer (priceAt checker.prices partialExecOffer.category.sellAsset)
      (priceAt checker.prices partialExecOffer.category.buyAsset) checker.taxRate amount effects.db dbIdx
    let effects := { effects with db := db }
    let sellAmount := partialSellAmount amount
    if partialExecOffer.amount.ult sellAmount then
      let committedOffers ← committedOffers.insert .overwrite key.val partialExecOffer
      .ok (false, { unit with committedOffers := committedOffers }, effects, statistics)
    else
      let thunk ← unit.lmdbInstance.getTopThunk
      let (clearedOffers, committedOffers) ← committedOffers.endowSplit workUnitKeyLen endowBelowPartialExecKey
      let effects ← clearedOffers.apply func effects
      let thunk := { thunk.setPartialExec key sellAmount partialExecOffer with clearedOffers := clearedOffers }
      let committedOffers ← insertReduced committedOffers key.val
        { partialExecOffer with amount := partialExecOffer.amount - sellAmount }
      .ok (true,
        { unit with
          committedOffers := committedOffers
          lmdbInstance := unit.lmdbInstance.setTopThunk thunk },
        effects, statistics)

/-- `tentative_clear_offers_for_validation`. -/
def tentativeClearOffersForValidation (unit : MerkleWorkUnit) (effects : ClearingEffects)
    (statistics : SingleValidationStatistics) (localClearingLog : SingleWorkUnitStateCommitment)
    (checker : WorkUnitStateCommitmentChecker) :
    Except String (Bool × MerkleWorkUnit × ClearingEffects × SingleValidationStatistics) :=
  let key := localClearingLog.partialExecThresholdKey
  let endowBelowPartialExecKey := unit.committedOffers.endowLtKey key.val
  let statistics : SingleValidationStatistics :=
    ⟨statistics.activatedSupply + .fromInt64 endowBelowPartialExecKey⟩
  let func := completeClearingFunc (priceAt checker.prices unit.category.sellAsset)
    (priceAt checker.prices unit.category.buyAsset) checker.taxRate
  let (committedOffers, partialExecOfferOpt) := unit.committedOffers.performDeletion workUnitKeyLen key.val
  match partialExecOfferOpt with
  | none => clearEverything unit committedOffers effects statistics localClearingLog func
  | some partialExecOffer => clearUpToPartial unit committedOffers partialExecOffer endowBelowPartialExecKey
      effects statistics localClearingLog checker func

/-- Everything `tentative_clear_offers_for_validation` can do when it does not throw. -/
inductive ClearingRun (unit : MerkleWorkUnit) (effects : ClearingEffects) (statistics : SingleValidationStatistics)
    (log : SingleWorkUnitStateCommitment) (checker : WorkUnitStateCommitmentChecker) :
    Bool → MerkleWorkUnit → ClearingEffects → SingleValidationStatistics → Prop
  /-- No offer at the key, and not everything is to clear. -/
  | absent {trie : OfferTrie}
      (deletion : unit.committedOffers.performDeletion workUnitKeyLen log.partialExecThresholdKey.val = (trie, none))
      (rejected : log.partialExecThresholdKey ≠ zeroKey ∨
        log.partialExecOfferActivationAmount ≠ FractionalAsset.fromIntegral 0) :
      ClearingRun unit effects statistics log checker false { unit with committedOffers := trie } effects
        ⟨statistics.activatedSupply +
          .fromInt64 (unit.committedOffers.endowLtKey log.partialExecThresholdKey.val)⟩
  | everything {trie : OfferTrie} {effects' : ClearingEffects} {thunk : WorkUnitLMDBCommitmentThunk}
      (deletion : unit.committedOffers.performDeletion workUnitKeyLen log.partialExecThresholdKey.val = (trie, none))
      (key : log.partialExecThresholdKey = zeroKey)
      (amount : log.partialExecOfferActivationAmount = FractionalAsset.fromIntegral 0)
      (applied : trie.apply (completeClearingFunc (priceAt checker.prices unit.category.sellAsset)
        (priceAt checker.prices unit.category.buyAsset) checker.taxRate) effects = .ok effects')
      (top : unit.lmdbInstance.getTopThunk = .ok thunk) :
      ClearingRun unit effects statistics log checker true
        { unit with
          committedOffers := OfferTrie.empty
          lmdbInstance := unit.lmdbInstance.setTopThunk { thunk.setNoPartialExec with clearedOffers := trie } }
        effects' ⟨statistics.activatedSupply +
          .fromInt64 (unit.committedOffers.endowLtKey log.partialExecThresholdKey.val) +
          .fromInt64 trie.getRootMetadata.endow⟩
  /-- The partially executed offer is put back: its owner has no account, or it offers too little. -/
  | putBack {trie inserted : OfferTrie} {offer : Offer} {db : MemoryDatabase}
      (deletion : unit.committedOffers.performDeletion workUnitKeyLen log.partialExecThresholdKey.val = (trie, some offer))
      (rejected : effects.db.lookupUserId offer.owner = none ∨
        offer.amount.ult (partialSellAmount log.partialExecOfferActivationAmount) = true)
      (insert : trie.insert .overwrite log.partialExecThresholdKey.val offer = .ok inserted) :
      ClearingRun unit effects statistics log checker false { unit with committedOffers := inserted }
        { db := db, serialAccountLog := effects.serialAccountLog ++ [.selfModification offer.owner offer.offerId] }
        ⟨statistics.activatedSupply +
          .fromInt64 (unit.committedOffers.endowLtKey log.partialExecThresholdKey.val)⟩
  | upToPartial {trie cleared rest left : OfferTrie} {offer : Offer} {dbIdx : Nat} {db : MemoryDatabase}
      {effects' : ClearingEffects} {thunk : WorkUnitLMDBCommitmentThunk}
      (deletion : unit.committedOffers.performDeletion workUnitKeyLen log.partialExecThresholdKey.val = (trie, some offer))
      (owner : effects.db.lookupUserId offer.owner = some dbIdx)
      (paid : clearOfferPartial offer (priceAt checker.prices offer.category.sellAsset)
        (priceAt checker.prices offer.category.buyAsset) checker.taxRate log.partialExecOfferActivationAmount
        effects.db dbIdx = .ok db)
      (enough : ¬ offer.amount.ult (partialSellAmount log.partialExecOfferActivationAmount) = true)
      (top : unit.lmdbInstance.getTopThunk = .ok thunk)
      (split : trie.endowSplit workUnitKeyLen (unit.committedOffers.endowLtKey log.partialExecThresholdKey.val) =
        .ok (cleared, rest))
      (applied : cleared.apply (completeClearingFunc (priceAt checker.prices unit.category.sellAsset)
        (priceAt checker.prices unit.category.buyAsset) checker.taxRate)
        { db := db, serialAccountLog := effects.serialAccountLog ++ [.selfModification offer.owner offer.offerId] } =
        .ok effects')
      (reduced : insertReduced rest log.partialExecThresholdKey.val { offer with
        amount := offer.amount - partialSellAmount log.partialExecOfferActivationAmount } = .ok left) :
      ClearingRun unit effects statistics log checker true
        { unit with
          committedOffers := left
          lmdbInstance := unit.lmdbInstance.setTopThunk
            { thunk.setPartialExec log.partialExecThresholdKey
                (partialSellAmount log.partialExecOfferActivationAmount) offer with clearedOffers := cleared } }
        effects' ⟨statistics.activatedSupply +
          .fromInt64 (unit.committedOffers.endowLtKey log.partialExecThresholdKey.val)⟩

theorem clearingRun_of_ok {unit unit' : MerkleWorkUnit} {effects effects' : ClearingEffects}
    {statistics statistics' : SingleValidationStatistics} {log : SingleWorkUnitStateCommitment}
    {checker : WorkUnitStateCommitmentChecker} {accepted : Bool}
    (run : unit.tentativeClearOffersForValidation effects statistics log checker =
      .ok (accepted, unit', effects', statistics')) :
    ClearingRun unit effects statistics log checker accepted unit' effects' statistics' := by
  rw [tentativeClearOffersForValidation] at run
  rcases deletion : unit.committedOffers.performDeletion workUnitKeyLen log.partialExecThresholdKey.val
    with ⟨trie, object⟩
  simp only [deletion] at run
  cases object with
  | none =>
    simp only [clearEverything] at run
    split_ifs at run with nonzero partly
    · cases run
      exact .absent deletion (Or.inl nonzero)
    · cases run
      exact .absent deletion (Or.inr partly)
    · obtain ⟨applied, apply, run⟩ := Fallible.bind_eq_ok.mp run
      obtain ⟨thunk, top, run⟩ := Fallible.bind_eq_ok.mp run
      cases run
      exact .everything deletion (not_not.mp nonzero) (not_not.mp partly) apply top
  | some offer =>
    simp only [clearUpToPartial] at run
    cases owner : effects.db.lookupUserId offer.owner with
    | none =>
      simp only [owner] at run
      obtain ⟨inserted, insert, run⟩ := Fallible.bind_eq_ok.mp run
      cases run
      exact .putBack deletion (Or.inl owner) insert
    | some dbIdx =>
      simp only [owner] at run
      obtain ⟨db, paid, run⟩ := Fallible.bind_eq_ok.mp run
      split_ifs at run with excess
      · obtain ⟨inserted, insert, run⟩ := Fallible.bind_eq_ok.mp run
        cases run
        exact .putBack deletion (Or.inr excess) insert
      · obtain ⟨thunk, top, run⟩ := Fallible.bind_eq_ok.mp run
        obtain ⟨⟨cleared, rest⟩, split, run⟩ := Fallible.bind_eq_ok.mp run
        obtain ⟨applied, apply, run⟩ := Fallible.bind_eq_ok.mp run
        obtain ⟨left, reduced, run⟩ := Fallible.bind_eq_ok.mp run
        cases run
        exact .upToPartial deletion owner paid excess top split apply reduced

end MerkleWorkUnit

end Speedex
