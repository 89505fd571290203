import Speedex.Unit.DoRollback
import Speedex.Unit.Proposed

set_option autoImplicit false

/- `rollback_validation` after a validation attempt: when it gives back the book from before the
block. -/
namespace Speedex

open TrieNode MerkleWorkUnit

section Attempt

variable {book news : OfferTrie} {keys : List OfferKeyType} {unit : MerkleWorkUnit}
  {thunk : WorkUnitLMDBCommitmentThunk} {key : Key} {l : Leaf Offer}
  {uninitialized : Bool} {unit' : MerkleWorkUnit}

theorem Proposed.recorded (proposed : Proposed .rollback book keys news unit thunk) {trie : OfferTrie}
    (undeleted : trie.Undeleted) {record : WorkUnitLMDBCommitmentThunk}
    (same : record.deletedKeys = thunk.deletedKeys) (cleared : record.clearedOffers = trie) :
    Recorded record (cancelledOffers book keys) := by
  refine ⟨?_, ?_, cleared ▸ undeleted⟩
  · rw [same]
    exact proposed.committed.deleted
  · rw [same]
    exact proposed.committed.full

/-- A rejected attempt leaves the book as it was proposed, but for the offer at the threshold key, which
it may have taken out and inserted again. -/
theorem restores_rejected (proposed : Proposed .rollback book keys news unit thunk) (uncleared : Uncleared uninitialized thunk)
    (funded : ∀ key l, book.find key = some l → l.value.amount ≠ 0)
    (lmdb : unit'.lmdbInstance = unit.lmdbInstance) (valid : unit'.committedOffers.Valid workUnitKeyLen)
    (finds : ∀ query, unit'.committedOffers.find query = if query = key
      then (unit.committedOffers.find key).map (fun l => plain l.value) else unit.committedOffers.find query) :
    Restores unit' book ↔ uninitialized = false ∧
      (∀ l, unit.committedOffers.find key = some l → l.marked .rollback = false) ∧
      RootSafe unit.committedOffers.find thunk.deletedKeys := by
  have kept : ∀ query l, unit'.committedOffers.find query = some l → l.marked .rollback = true →
      unit.committedOffers.find query = some l := by
    intro query l found new
    rw [finds] at found
    split_ifs at found with here
    · obtain ⟨l', -, rfl⟩ := Option.map_eq_some_iff.mp found
      rw [marked_plain] at new
      cases new
    · exact found
  have attempted : Attempted unit' thunk (cancelledOffers book keys) := by
    have vacant : thunk.clearedOffers.Valid workUnitKeyLen := by
      rw [uncleared.cleared]
      exact MerkleTrie.valid_new workUnitKeyLen
    obtain ⟨clean, same⟩ := vacant.cleaned thunk.partialExecKey.property
    refine ⟨valid, fun query l found => ?_, lmdb ▸ proposed.committed.top,
      proposed.recorded undeleted_empty rfl uncleared.cleared, clean.insertable _, same⟩
    rw [finds] at found
    split_ifs at found
    · obtain ⟨l', -, rfl⟩ := Option.map_eq_some_iff.mp found
      exact marked_plain _ _
    · exact proposed.undeleted query l found
  rw [restores_iff attempted proposed.valid
    (fun query l found new => proposed.new_absent (kept query l found new) new)]
  have undo : ∀ find query, undone (withoutNewOffers thunk) (cancelledOffers book keys) find query =
      if uninitialized = true ∧ query = zeroKey.val then some (plain default)
      else ((cancelledOffers book keys query).map plain).or (find query) := by
    intro find query
    rw [undone_withoutNewOffers, uncleared.exists_partial, uncleared.key, uncleared.offer, uncleared.cleared,
      OfferTrie.empty, MerkleTrie.find_new, Option.none_or]
  constructor
  · rintro ⟨safe, agree⟩
    have initial : uninitialized = false := by
      refine Bool.eq_false_iff.mpr (fun garbage => ?_)
      have there := agree zeroKey.val
      rw [undo, if_pos ⟨garbage, rfl⟩] at there
      exact funded _ _ there.symm rfl
    have old : ∀ l, unit.committedOffers.find key = some l → l.marked .rollback = false := by
      intro l found
      refine Bool.eq_false_iff.mpr (fun new => ?_)
      have there := agree key
      rw [undo, initial, if_neg (fun both => Bool.false_ne_true both.1), proposed.cancelled_absent found, finds,
        if_pos rfl, found, Option.map_some, Option.filter_some_pos (by rw [marked_plain]; rfl),
        proposed.new_absent found new] at there
      cases there
    refine ⟨initial, old, ?_⟩
    cases found : unit.committedOffers.find key with
    | some l => exact Or.inl ⟨key, l, found, old l found⟩
    | none =>
      have same : unit'.committedOffers.find = unit.committedOffers.find := by
        funext query
        rw [finds]
        split_ifs with here
        · rw [here, found]
          rfl
        · rfl
      rwa [same] at safe
  · rintro ⟨initial, old, safe⟩
    have same : unit'.committedOffers.find = unit.committedOffers.find := by
      funext query
      rw [finds]
      split_ifs with here
      · rw [here]
        cases found : unit.committedOffers.find key with
        | none => rfl
        | some l => exact congrArg some (proposed.old_present found (old l found)).1.symm
      · rfl
    rw [same]
    refine ⟨safe, fun query => ?_⟩
    rw [undo, initial, if_neg (fun both => Bool.false_ne_true both.1)]
    exact proposed.restored query

/-- When everything is cleared, the whole book is moved into the record and back. -/
theorem restores_everything (proposed : Proposed .rollback book keys news unit thunk) (unit' : MerkleWorkUnit)
    (record : WorkUnitLMDBCommitmentThunk) (top : unit'.lmdbInstance.getTopThunk = .ok record) (bare : unit'.committedOffers = OfferTrie.empty)
    (deleted : record.deletedKeys = thunk.deletedKeys) (whole : record.existsPartialExec = false)
    (valid : record.clearedOffers.Valid workUnitKeyLen)
    (finds : ∀ query, record.clearedOffers.find query = unit.committedOffers.find query) :
    Restores unit' book ↔
      ∀ query l, unit.committedOffers.find query = some l → l.marked .rollback = false := by
  have absent : ∀ query, unit'.committedOffers.find query = none := by
    intro query
    rw [bare]
    exact MerkleTrie.find_new workUnitKeyLen query
  have attempted : Attempted unit' record (cancelledOffers book keys) := by
    obtain ⟨clean, same⟩ := valid.cleaned record.partialExecKey.property
    refine ⟨bare ▸ MerkleTrie.valid_new workUnitKeyLen, bare ▸ undeleted_empty, top,
      proposed.recorded (fun query l found => ?_) deleted rfl, clean.insertable _, same⟩
    rw [finds] at found
    exact proposed.undeleted query l found
  rw [restores_iff attempted proposed.valid (fun query l found => by rw [absent] at found; cases found)]
  have undo : ∀ query, undone (withoutNewOffers record) (cancelledOffers book keys)
      (fun query => (unit'.committedOffers.find query).filter (fun l => !l.marked .rollback)) query =
      (unit.committedOffers.find query).or ((cancelledOffers book keys query).map plain) := by
    intro query
    rw [undone_withoutNewOffers, whole, if_neg (fun both => Bool.false_ne_true both.1), finds, absent,
      Option.filter_none, Option.or_none]
  constructor
  · rintro ⟨-, agree⟩ query l found
    refine Bool.eq_false_iff.mpr (fun new => ?_)
    have there := agree query
    rw [undo, found, proposed.new_absent found new] at there
    cases there
  · intro old
    refine ⟨Or.inr (Or.inl absent), fun query => ?_⟩
    rw [undo, ← proposed.restored query]
    cases found : unit.committedOffers.find query with
    | none => simp
    | some l =>
      rw [proposed.cancelled_absent found, Option.filter_some_pos (by simp [old query l found])]
      rfl

/-- After a partial execution the cleared offers come back from the split and the partly executed one from
its record. -/
theorem restores_partly (proposed : Proposed .rollback book keys news unit thunk) (unit' : MerkleWorkUnit)
    (record : WorkUnitLMDBCommitmentThunk) {trie cleared rest : OfferTrie} {threshold : BitVec 64} {reduced : Offer}
    (found : unit.committedOffers.find key = some l) (valid : trie.Valid workUnitKeyLen)
    (finds : ∀ query, trie.find query = if query = key then none else unit.committedOffers.find query)
    (split : trie.endowSplit workUnitKeyLen threshold = .ok (cleared, rest))
    (top : unit'.lmdbInstance.getTopThunk = .ok record) (deleted : record.deletedKeys = thunk.deletedKeys)
    (partly : record.existsPartialExec = true) (place : record.partialExecKey.val = key)
    (before : record.preexecutePartialExecOffer = l.value) (moved : record.clearedOffers = cleared)
    (left : MerkleWorkUnit.insertReduced rest key reduced = .ok unit'.committedOffers) :
    Restores unit' book ↔ l.marked .rollback = false ∧
      (∀ query l', cleared.find query = some l' → l'.marked .rollback = false) ∧
      (reduced.amount = 0 → RootSafe rest.find thunk.deletedKeys) := by
  have result := MerkleTrie.endowSplit_spec valid workUnitKeyLen_pos split
  have parts := result.find valid workUnitKeyLen_pos
  have full : key.length = workUnitKeyLen := place ▸ record.partialExecKey.property
  have untouched : ∀ query, query ≠ key →
      (cleared.find query).or (rest.find query) = unit.committedOffers.find query := by
    intro query other
    rw [← parts, finds, if_neg other]
  have outside : cleared.find key = none ∧ rest.find key = none := by
    have none := parts key
    rw [finds, if_pos rfl, eq_comm, Option.or_eq_none_iff] at none
    exact none
  rw [MerkleWorkUnit.insertReduced] at left
  have stays : unit'.committedOffers.Valid workUnitKeyLen ∧ ∀ query, unit'.committedOffers.find query =
      if query = key ∧ reduced.amount ≠ 0 then some (plain reduced) else rest.find query := by
    by_cases whole : reduced.amount = 0
    · rw [if_neg (not_not.mpr whole)] at left
      obtain rfl := Except.ok.inj left
      exact ⟨result.valid, fun query => (if_neg (fun both => both.2 whole)).symm⟩
    · obtain ⟨inserted, run, valid', finds'⟩ := MerkleTrie.insert_spec .overwrite reduced result.valid
        workUnitKeyLen_pos full
      rw [if_pos whole, run] at left
      obtain rfl := Except.ok.inj left
      refine ⟨valid', fun query => ?_⟩
      rw [finds']
      simp only [ne_eq, whole, not_false_eq_true, and_true]
      rfl
  have taken : ∀ query l', cleared.find query = some l' → unit.committedOffers.find query = some l' ∧ query ≠ key := by
    intro query l' there
    have other : query ≠ key := fun same => by
      rw [same, outside.1] at there
      cases there
    exact ⟨by rw [← untouched query other, there]; rfl, other⟩
  have behind : ∀ query l', rest.find query = some l' → unit.committedOffers.find query = some l' := by
    intro query l' there
    have other : query ≠ key := fun same => by
      rw [same, outside.2] at there
      cases there
    have whole := (result.find_iff valid workUnitKeyLen_pos).mpr (Or.inr there)
    rwa [finds, if_neg other] at whole
  have attempted : Attempted unit' record (cancelledOffers book keys) := by
    obtain ⟨insertable, same⟩ := result.insertable record.partialExecKey.val record.partialExecKey.property
    rw [← moved] at insertable same
    refine ⟨stays.1, fun query l' there => ?_, top,
      proposed.recorded (fun query l' there => proposed.undeleted query l' (taken query l' there).1) deleted moved,
      insertable, same⟩
    rw [stays.2] at there
    split_ifs at there
    · cases there
      exact marked_plain _ _
    · exact proposed.undeleted query l' (behind query l' there)
  have undo : ∀ query, undone (withoutNewOffers record) (cancelledOffers book keys)
      (fun query => (unit'.committedOffers.find query).filter (fun l => !l.marked .rollback)) query =
      if query = key then some (plain l.value)
      else (cleared.find query).or (((cancelledOffers book keys query).map plain).or
        ((rest.find query).filter (fun l => !l.marked .rollback))) := by
    intro query
    rw [undone_withoutNewOffers, partly, place, before, moved]
    by_cases here : query = key
    · rw [if_pos ⟨rfl, here⟩, if_pos here]
    · rw [if_neg (fun both => here both.2), if_neg here, stays.2, if_neg (fun both => here both.1)]
  rw [restores_iff attempted proposed.valid (fun query l' there new => by
    rw [stays.2] at there
    split_ifs at there
    · cases there
      rw [marked_plain] at new
      cases new
    · exact proposed.new_absent (behind query l' there) new), deleted]
  constructor
  · rintro ⟨safe, agree⟩
    refine ⟨Bool.eq_false_iff.mpr (fun new => ?_), fun query l' there => Bool.eq_false_iff.mpr (fun new => ?_),
      fun whole => ?_⟩
    · have here := agree key
      rw [undo, if_pos rfl, proposed.new_absent found new] at here
      cases here
    · have here := agree query
      rw [undo, if_neg (taken query l' there).2, there, proposed.new_absent (taken query l' there).1 new] at here
      cases here
    · have same : unit'.committedOffers.find = rest.find := by
        funext query
        rw [stays.2, if_neg (fun both => both.2 whole)]
      rwa [same] at safe
  · rintro ⟨old, clearedOld, safe⟩
    constructor
    · by_cases whole : reduced.amount = 0
      · have same : unit'.committedOffers.find = rest.find := by
          funext query
          rw [stays.2, if_neg (fun both => both.2 whole)]
        rw [same]
        exact safe whole
      · refine Or.inl ⟨key, plain reduced, ?_, marked_plain _ _⟩
        rw [stays.2, if_pos ⟨rfl, whole⟩]
    · intro query
      rw [undo]
      split_ifs with here
      · obtain ⟨form, there⟩ := proposed.old_present found old
        rw [here, there, ← form]
      · cases there : cleared.find query with
        | some l' =>
          rw [Option.some_or, (proposed.old_present (taken query l' there).1 (clearedOld query l' there)).2]
        | none =>
          have same := untouched query here
          rw [there, Option.none_or] at same
          rw [Option.none_or, same]
          exact proposed.restored query

end Attempt

section Claim

variable {unit proposal attempted : MerkleWorkUnit} {batches : List (List Offer)} {keys : List OfferKeyType}
  {uninitialized accepted : Bool} {currentBlockNumber : BitVec 64} {effects effects' : ClearingEffects}
  {statistics statistics' : SingleValidationStatistics} {log : SingleWorkUnitStateCommitment}
  {checker : WorkUnitStateCommitmentChecker}

/-- The commitment is rejected: for a key without an offer unless it says that everything clears, for
an owner without an account, and for a partial amount beyond the offer. -/
def Rejects (unit : MerkleWorkUnit) (db : MemoryDatabase) (log : SingleWorkUnitStateCommitment) : Prop :=
  match unit.committedOffers.find log.partialExecThresholdKey.val with
  | none => log.partialExecThresholdKey ≠ zeroKey ∨
      log.partialExecOfferActivationAmount ≠ FractionalAsset.fromIntegral 0
  | some l => db.lookupUserId l.value.owner = none ∨
      l.value.amount.ult (partialSellAmount log.partialExecOfferActivationAmount)

/-- The offers that the newest block cancelled. -/
def newestDeletedKeys (unit : MerkleWorkUnit) : List (Key × Offer) :=
  (unit.lmdbInstance.thunks.getLast?.map WorkUnitLMDBCommitmentThunk.deletedKeys).getD []

/-- When `rollback_validation` undoes an attempt: the offer at the threshold key is not new, a rejected
attempt finds `exists_partial_exec` false in the uninitialized record, an accepted one clears no new
offer, and what it leaves does not consist of new offers alone in a way that `do_rollback` mishandles. -/
def RollsBack (unit : MerkleWorkUnit) (uninitialized : Bool) (db : MemoryDatabase)
    (log : SingleWorkUnitStateCommitment) : Prop :=
  let key := log.partialExecThresholdKey.val
  let sellAmount := partialSellAmount log.partialExecOfferActivationAmount
  let cleared := unit.committedOffers.performDeletion workUnitKeyLen key
  (∀ l, unit.committedOffers.find key = some l → l.marked .rollback = false) ∧
  (Rejects unit db log → uninitialized = false ∧ RootSafe unit.committedOffers.find (newestDeletedKeys unit)) ∧
  (¬ Rejects unit db log → match unit.committedOffers.find key with
    | none => ∀ query l, unit.committedOffers.find query = some l → l.marked .rollback = false
    | some l => ∀ split rest,
      cleared.1.endowSplit workUnitKeyLen (unit.committedOffers.endowLtKey key) = .ok (split, rest) →
      (∀ query l', split.find query = some l' → l'.marked .rollback = false) ∧
      (l.value.amount - sellAmount = 0 → RootSafe rest.find (newestDeletedKeys unit)))

theorem newestDeletedKeys_of_top {thunk : WorkUnitLMDBCommitmentThunk}
    (top : unit.lmdbInstance.getTopThunk = .ok thunk) : newestDeletedKeys unit = thunk.deletedKeys := by
  rw [WorkUnitLMDB.getTopThunk] at top
  rw [newestDeletedKeys]
  cases last : unit.lmdbInstance.thunks.getLast? with
  | none =>
    rw [last] at top
    cases top
  | some back =>
    rw [last] at top
    cases top
    rfl

theorem rollsBack_of_rejects {db : MemoryDatabase} (rejects : Rejects unit db log) :
    RollsBack unit uninitialized db log ↔ uninitialized = false ∧
      (∀ l, unit.committedOffers.find log.partialExecThresholdKey.val = some l → l.marked .rollback = false) ∧
      RootSafe unit.committedOffers.find (newestDeletedKeys unit) := by
  rw [RollsBack]
  exact ⟨fun ⟨old, rejected, _⟩ => ⟨(rejected rejects).1, old, (rejected rejects).2⟩,
    fun ⟨initial, old, safe⟩ => ⟨old, fun _ => ⟨initial, safe⟩, fun accepts => absurd rejects accepts⟩⟩

theorem rollbackValidation_restores_iff (valid : unit.committedOffers.Valid workUnitKeyLen)
    (committed : unit.committedOffers.Plain) (idle : unit.uncommittedOffers = OfferTrie.empty)
    (funded : ∀ key l, unit.committedOffers.find key = some l → l.value.amount ≠ 0)
    (fresh : ∀ offer ∈ batches.flatten, unit.committedOffers.find offer.key = none)
    (propose : unit.proposeBlock .rollback batches keys uninitialized currentBlockNumber = .ok proposal)
    (clear : proposal.tentativeClearOffersForValidation effects statistics log checker =
      .ok (accepted, attempted, effects', statistics')) :
    Restores attempted unit.committedOffers ↔ RollsBack proposal uninitialized effects.db log := by
  obtain ⟨news, thunk, new, tentatively, uncleared, -⟩ := proposeBlock_spec valid committed idle propose
  have proposed : Proposed .rollback unit.committedOffers keys news proposal thunk :=
    ⟨valid, committed, fun key l found => by
      obtain ⟨form, place, listed⟩ := new.written key l found
      exact ⟨form, place ▸ fresh l.value listed⟩, tentatively⟩
  have cancelled := newestDeletedKeys_of_top tentatively.top
  have deleted := MerkleTrie.performDeletion_spec tentatively.valid workUnitKeyLen_pos
    log.partialExecThresholdKey.property
  cases clearingRun_of_ok clear with
  | @absent trie deletion rejected =>
    rw [deletion] at deleted
    obtain ⟨validD, findD, objectD⟩ := deleted
    have found := Option.map_eq_none_iff.mp objectD.symm
    have rejects : Rejects proposal effects.db log := by rwa [Rejects, found]
    rw [rollsBack_of_rejects rejects, cancelled]
    refine restores_rejected proposed uncleared funded rfl validD (fun query => ?_)
    rw [findD, found]
    rfl
  | @everything trie _ thunk' deletion key amount applied top =>
    rw [deletion] at deleted
    obtain ⟨validD, findD, objectD⟩ := deleted
    have found := Option.map_eq_none_iff.mp objectD.symm
    have accepts : ¬ Rejects proposal effects.db log := by
      rw [Rejects, found]
      exact fun rejected => rejected.elim (fun other => other key) (fun other => other amount)
    obtain rfl := Except.ok.inj (tentatively.top.symm.trans top)
    have same : ∀ query, trie.find query = proposal.committedOffers.find query := by
      intro query
      rw [findD]
      split_ifs with here
      · rw [here, found]
      · rfl
    rw [RollsBack, found]
    refine Iff.trans (restores_everything proposed _ { thunk.setNoPartialExec with clearedOffers := trie }
      (WorkUnitLMDB.getTopThunk_setTopThunk _ _) rfl rfl rfl validD same) ?_
    exact ⟨fun old => ⟨nofun, fun rejects => absurd rejects accepts, fun _ => old⟩, fun ⟨_, _, old⟩ => old accepts⟩
  | @putBack trie inserted offer db deletion rejected insert =>
    rw [deletion] at deleted
    obtain ⟨validD, findD, objectD⟩ := deleted
    obtain ⟨l, found, rfl⟩ := Option.map_eq_some_iff.mp objectD.symm
    have rejects : Rejects proposal effects.db log := by rwa [Rejects, found]
    obtain ⟨inserted', run, valid', finds⟩ := MerkleTrie.insert_spec .overwrite l.value validD workUnitKeyLen_pos
      log.partialExecThresholdKey.property
    obtain rfl := Except.ok.inj (run.symm.trans insert)
    rw [rollsBack_of_rejects rejects, cancelled]
    refine restores_rejected proposed uncleared funded rfl valid' (fun query => ?_)
    rw [finds, findD, found]
    split_ifs <;> rfl
  | @upToPartial trie cleared rest left offer dbIdx db _ thunk' deletion owner paid enough top split applied reduced =>
    rw [deletion] at deleted
    obtain ⟨validD, findD, objectD⟩ := deleted
    obtain ⟨l, found, rfl⟩ := Option.map_eq_some_iff.mp objectD.symm
    have accepts : ¬ Rejects proposal effects.db log := by
      rw [Rejects, found]
      exact fun rejected => rejected.elim (fun none => by rw [owner] at none; cases none) enough
    obtain rfl := Except.ok.inj (tentatively.top.symm.trans top)
    refine Iff.trans (restores_partly proposed _ { thunk.setPartialExec log.partialExecThresholdKey
        (partialSellAmount log.partialExecOfferActivationAmount) l.value with clearedOffers := cleared }
      found validD findD split (WorkUnitLMDB.getTopThunk_setTopThunk _ _) rfl rfl rfl rfl rfl reduced) ?_
    rw [RollsBack, found, cancelled, deletion]
    constructor
    · rintro ⟨old, clearedOld, safe⟩
      refine ⟨fun l' same => Option.some.inj same ▸ old, fun rejects => absurd rejects accepts,
        fun _ split' rest' split'' => ?_⟩
      rw [split] at split''
      cases split''
      exact ⟨clearedOld, safe⟩
    · rintro ⟨old, -, safe⟩
      exact ⟨old l rfl, safe accepts cleared rest split⟩

end Claim

section Sample

/-- An offer of 5 units and the account of its owner. -/
def sampleOffer : Offer where
  category := ⟨0, 1, .sell⟩
  offerId := 256
  owner := 7
  amount := 5
  minPrice := 1

def sampleEffects : ClearingEffects where
  db := { userIdToIdxMap := fun account => if account = 7 then some 0 else none
          uncommittedIdxMap := fun _ => none
          reservedAccountIds := fun _ => false
          database := [⟨7, [], [], [], 0, 0⟩]
          uncommittedDb := []
          accountCreationThunks := []
          persistedRoundNumber := 0 }
  serialAccountLog := []

def sampleUnit (committedOffers : OfferTrie) : MerkleWorkUnit where
  category := ⟨0, 1, .sell⟩
  committedOffers := committedOffers
  uncommittedOffers := OfferTrie.empty
  lmdbInstance := ⟨[], 0⟩

/-- The book with just that offer. -/
def sampleBook : OfferTrie := ⟨makeValueLeaf .overwrite sampleOffer.key sampleOffer, none⟩

/-- The header executes 2 units of the offer. -/
def sampleCommitment : SingleWorkUnitStateCommitment where
  rootHash := []
  fractionalSupplyActivated := FractionalAsset.fromIntegral 2
  partialExecThresholdKey := ⟨sampleOffer.key, sampleOffer.length_key⟩
  thresholdKeyIsNull := 0
  partialExecOfferActivationAmount := FractionalAsset.fromIntegral 2

def sampleChecker : WorkUnitStateCommitmentChecker := ⟨[sampleCommitment], [2, 1], 0⟩

theorem sampleBook_valid : sampleBook.Valid workUnitKeyLen :=
  Or.inr ⟨shaped_makeValueLeaf .overwrite sampleOffer sampleOffer.length_key, compactAt_leaf _ _ _ _⟩

theorem find_sampleBook (key : Key) : sampleBook.find key = if key = sampleOffer.key then some (plain sampleOffer) else none := by
  rw [sampleBook, MerkleTrie.find, makeValueLeaf, find_leaf]
  rfl

theorem rollbackValidation_restores_sample : ∃ proposal attempted accepted effects statistics,
    (sampleUnit sampleBook).proposeBlock .rollback [] [] false 1 = .ok proposal ∧
    proposal.tentativeClearOffersForValidation sampleEffects ⟨0⟩ sampleCommitment sampleChecker =
      .ok (accepted, attempted, effects, statistics) ∧
    (Restores attempted sampleBook ↔ RollsBack proposal false sampleEffects.db sampleCommitment) := by
  have valid : (sampleUnit sampleBook).committedOffers.Valid workUnitKeyLen := sampleBook_valid
  have stored : ∀ key l, (sampleUnit sampleBook).committedOffers.find key = some l → l = plain sampleOffer := by
    intro key l found
    rw [sampleUnit, find_sampleBook] at found
    split_ifs at found
    exact (Option.some.inj found).symm
  have committed : (sampleUnit sampleBook).committedOffers.Plain := by
    intro key l found
    rw [stored key l found]
    rfl
  have funded : ∀ key l, (sampleUnit sampleBook).committedOffers.find key = some l → l.value.amount ≠ 0 := by
    intro key l found
    rw [stored key l found]
    decide
  obtain ⟨proposal, attempted, accepted, effects, statistics, propose, clear⟩ :
      ∃ proposal attempted accepted effects statistics,
        (sampleUnit sampleBook).proposeBlock .rollback [] [] false 1 = .ok proposal ∧
        proposal.tentativeClearOffersForValidation sampleEffects ⟨0⟩ sampleCommitment sampleChecker =
          .ok (accepted, attempted, effects, statistics) := ⟨_, _, _, _, _, rfl, rfl⟩
  exact ⟨proposal, attempted, accepted, effects, statistics, propose, clear,
    rollbackValidation_restores_iff valid committed rfl funded (fun _ new => absurd new List.not_mem_nil)
      propose clear⟩

/-- The sample offer as a new offer: the partial execution leaves it in the book. -/
theorem rollbackValidation_keeps_new_offer : ¬ ∀ {unit proposal attempted : MerkleWorkUnit}
    {batches : List (List Offer)} {keys : List OfferKeyType} {uninitialized accepted : Bool}
    {currentBlockNumber : BitVec 64} {effects effects' : ClearingEffects}
    {statistics statistics' : SingleValidationStatistics} {log : SingleWorkUnitStateCommitment}
    {checker : WorkUnitStateCommitmentChecker}, unit.committedOffers.Valid workUnitKeyLen →
    unit.committedOffers.Plain → unit.uncommittedOffers = OfferTrie.empty →
    (∀ key l, unit.committedOffers.find key = some l → l.value.amount ≠ 0) →
    (∀ offer ∈ batches.flatten, unit.committedOffers.find offer.key = none) →
    unit.proposeBlock .rollback batches keys uninitialized currentBlockNumber = .ok proposal →
    proposal.tentativeClearOffersForValidation effects statistics log checker =
      .ok (accepted, attempted, effects', statistics') →
    Restores attempted unit.committedOffers := by
  intro claim
  have absent : ∀ key, OfferTrie.empty.find key = none := MerkleTrie.find_new workUnitKeyLen
  have nothing : ∀ key l, (sampleUnit OfferTrie.empty).committedOffers.find key ≠ some l :=
    fun key l found => Option.some_ne_none l (found.symm.trans (absent key))
  obtain ⟨unit', run, same, -⟩ := @claim (sampleUnit OfferTrie.empty) _ _ [[sampleOffer]] [] false _ 1 sampleEffects
    _ ⟨0⟩ _ sampleCommitment sampleChecker (MerkleTrie.valid_new workUnitKeyLen)
    (fun key l found => absurd found (nothing key l)) rfl (fun key l found => absurd found (nothing key l))
    (fun offer _ => absent offer.key) rfl rfl
  obtain rfl := Except.ok.inj run
  have stays := congrFun same sampleOffer.key
  rw [sampleUnit, absent] at stays
  exact absurd (congrArg Option.isSome stays) (by decide)

end Sample

end Speedex
