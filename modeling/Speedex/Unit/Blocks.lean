import Speedex.Trie.SplitAt
import Speedex.Unit.Production
import Speedex.Unit.Proposed

set_option autoImplicit false

/- A block on a work unit, validated or produced: what its clearing takes out of the book, and that
its record describes it. -/
namespace Speedex

open TrieNode MerkleWorkUnit

/-- What an execution of `sellAmount` leaves of an offer. -/
def remainder (offer : Offer) (sellAmount : BitVec 64) : Option (Leaf Offer) :=
  if offer.amount - sellAmount = 0 then none else some (plain { offer with amount := offer.amount - sellAmount })

/-- The clearing that a record describes: `book` before it and `left` after it. -/
structure ClearedInto (book : OfferTrie) (thunk : WorkUnitLMDBCommitmentThunk) (left : OfferTrie) : Prop where
  valid : left.Valid workUnitKeyLen
  cleared : ∀ key l, thunk.clearedOffers.find key = some l → book.find key = some l ∧ left.find key = none
  stays : ∀ key, (thunk.existsPartialExec = true → key ≠ thunk.partialExecKey.val) →
    thunk.clearedOffers.find key = none → left.find key = book.find key
  partly : thunk.existsPartialExec = true → thunk.clearedOffers.find thunk.partialExecKey.val = none ∧
    ∃ l, book.find thunk.partialExecKey.val = some l ∧ thunk.preexecutePartialExecOffer = l.value ∧
      ¬ l.value.amount.ult thunk.partialExecAmount = true ∧
      left.find thunk.partialExecKey.val = remainder l.value thunk.partialExecAmount
  whole : thunk.existsPartialExec = false → thunk.partialExecKey = maxKey ∧ ∀ key, left.find key = none
  cleaned : (∀ key, thunk.clearedOffers.find key ≠ none → key ≤ thunk.partialExecKey.val) →
    (∀ key, left.find key ≠ none → thunk.partialExecKey.val ≤ key) →
    (thunk.clearedOffers.cleanSinglechildNodes thunk.partialExecKey.val).Valid workUnitKeyLen ∧
      (thunk.clearedOffers.cleanSinglechildNodes thunk.partialExecKey.val).find = thunk.clearedOffers.find

section Clearing

variable {book trie cleared rest left : OfferTrie} {thunk : WorkUnitLMDBCommitmentThunk} {key : OfferKeyType}
  {sellAmount : BitVec 64}

/-- Nothing is left. -/
theorem clearedInto_everything (same : ∀ query, trie.find query = book.find query)
    (clean : (∀ query, trie.find query ≠ none → query ≤ maxKey.val) →
      (trie.cleanSinglechildNodes maxKey.val).Valid workUnitKeyLen ∧
        (trie.cleanSinglechildNodes maxKey.val).find = trie.find) (vacant : left.Valid workUnitKeyLen) (bare : ∀ query, left.find query = none) :
    ClearedInto book { thunk.setNoPartialExec with clearedOffers := trie } left where
  valid := vacant
  cleared query _ found := ⟨(same query).symm.trans found, bare query⟩
  stays query _ absent := (bare query).trans (absent.symm.trans (same query))
  partly := nofun
  whole _ := ⟨rfl, bare⟩
  cleaned below _ := clean below

theorem insertReduced_spec {offer : Offer} (valid : rest.Valid workUnitKeyLen)
    (run : insertReduced rest key.val offer = .ok left) : left.Valid workUnitKeyLen ∧ ∀ query,
      left.find query = if query = key.val ∧ offer.amount ≠ 0 then some (plain offer) else rest.find query := by
  rw [insertReduced] at run
  by_cases whole : offer.amount = 0
  · rw [if_neg (not_not.mpr whole)] at run
    obtain rfl := Except.ok.inj run
    exact ⟨valid, fun query => (if_neg (fun both => both.2 whole)).symm⟩
  · obtain ⟨inserted, insert, valid', finds⟩ := MerkleTrie.insert_spec .overwrite offer valid workUnitKeyLen_pos
      key.property
    rw [if_pos whole, insert] at run
    obtain rfl := Except.ok.inj run
    refine ⟨valid', fun query => ?_⟩
    rw [finds]
    simp only [ne_eq, whole, not_false_eq_true, and_true]
    rfl

/-- The offer at `key` is executed in part, and those in `cleared` in full. -/
theorem clearedInto_partly {l : Leaf Offer} (found : book.find key.val = some l)
    (enough : ¬ l.value.amount.ult sellAmount = true) (valid : rest.Valid workUnitKeyLen)
    (outside : rest.find key.val = none)
    (parts : ∀ query, query ≠ key.val → book.find query = (cleared.find query).or (rest.find query))
    (taken : ∀ query l', cleared.find query = some l' → query ≠ key.val ∧ rest.find query = none)
    (cleaned : (∀ query, cleared.find query ≠ none → query ≤ key.val) →
      (∀ query, rest.find query ≠ none → key.val ≤ query) →
      (cleared.cleanSinglechildNodes key.val).Valid workUnitKeyLen ∧
        (cleared.cleanSinglechildNodes key.val).find = cleared.find)
    (reduced : insertReduced rest key.val { l.value with amount := l.value.amount - sellAmount } = .ok left) :
    ClearedInto book { thunk.setPartialExec key sellAmount l.value with clearedOffers := cleared } left := by
  obtain ⟨valid', finds⟩ := insertReduced_spec valid reduced
  have elsewhere : ∀ query, query ≠ key.val → left.find query = rest.find query := by
    intro query other
    rw [finds, if_neg (fun both => other both.1)]
  have rest_of : left.find key.val = remainder l.value sellAmount := by
    rw [finds, remainder]
    by_cases used : l.value.amount - sellAmount = 0
    · rw [if_neg (fun both => both.2 used), if_pos used, outside]
    · rw [if_pos ⟨rfl, used⟩, if_neg used]
  refine ⟨valid', fun query l' there => ?_, fun query other absent => ?_, fun _ => ⟨?_, l, found, rfl, enough, rest_of⟩,
    nofun, fun below above => cleaned below (fun query there => above query ?_)⟩
  · obtain ⟨other, gone⟩ := taken query l' there
    exact ⟨by rw [parts query other, there]; rfl, by rw [elsewhere query other, gone]⟩
  · have other' := other rfl
    rw [elsewhere query other', parts query other', absent, Option.none_or]
  · refine Option.eq_none_iff_forall_ne_some.mpr (fun l' there => ?_)
    exact (taken key.val l' there).1 rfl
  · have other : query ≠ key.val := fun same => by
      rw [same, outside] at there
      exact there rfl
    rw [elsewhere query other]
    exact there

end Clearing

/-- The full clearing ends where the partial execution is. -/
def Ordered (thunk : WorkUnitLMDBCommitmentThunk) (left : OfferTrie) : Prop :=
  thunk.existsPartialExec = true →
    (∀ query, thunk.clearedOffers.find query ≠ none → query ≤ thunk.partialExecKey.val) ∧
    ∀ query, left.find query ≠ none → thunk.partialExecKey.val ≤ query

/-- A clearing step and the record it leaves; `thunk` is the record before it. -/
structure Clears (proposal attempted : MerkleWorkUnit) (thunk thunk' : WorkUnitLMDBCommitmentThunk) : Prop where
  lmdb : attempted.lmdbInstance = proposal.lmdbInstance.setTopThunk thunk'
  created : thunk'.uncommittedOffersVec = thunk.uncommittedOffersVec
  deleted : thunk'.deletedKeys = thunk.deletedKeys
  number : thunk'.currentBlockNumber = thunk.currentBlockNumber
  uncommitted : attempted.uncommittedOffers = proposal.uncommittedOffers
  category : attempted.category = proposal.category
  into : ClearedInto proposal.committedOffers thunk' attempted.committedOffers

section Clears

variable {proposal attempted : MerkleWorkUnit} {effects effects' : ClearingEffects}
  {log log' : SingleWorkUnitStateCommitment} {thunk : WorkUnitLMDBCommitmentThunk}

/-- An accepted validation clears the book as its record says. -/
theorem clears_of_accepted {statistics statistics' : SingleValidationStatistics}
    {checker : WorkUnitStateCommitmentChecker} (valid : proposal.committedOffers.Valid workUnitKeyLen)
    (top : proposal.lmdbInstance.getTopThunk = .ok thunk)
    (clear : proposal.tentativeClearOffersForValidation effects statistics log checker =
      .ok (true, attempted, effects', statistics')) : ∃ thunk', Clears proposal attempted thunk thunk' ∧
      (Funded proposal.committedOffers.entries → Ordered thunk' attempted.committedOffers) := by
  have deleted := MerkleTrie.performDeletion_spec valid workUnitKeyLen_pos log.partialExecThresholdKey.property
  cases clearingRun_of_ok clear with
  | @everything trie _ thunk' deletion key amount applied top' =>
    obtain rfl := Except.ok.inj (top.symm.trans top')
    rw [deletion] at deleted
    obtain ⟨validD, findD, objectD⟩ := deleted
    have found := Option.map_eq_none_iff.mp objectD.symm
    refine ⟨_, ⟨rfl, rfl, rfl, rfl, rfl, rfl, clearedInto_everything (fun query => ?_)
      (fun _ => validD.cleaned maxKey.property) (MerkleTrie.valid_new workUnitKeyLen)
      (MerkleTrie.find_new workUnitKeyLen)⟩, fun _ => nofun⟩
    rw [findD]
    split_ifs with here
    · rw [here, found]
    · rfl
  | @upToPartial trie cleared rest left offer dbIdx db _ thunk' deletion owner paid enough top' split applied reduced =>
    obtain rfl := Except.ok.inj (top.symm.trans top')
    have exactly := fun funded => MerkleTrie.performDeletion_endowSplit valid workUnitKeyLen_pos funded
      log.partialExecThresholdKey.property
    rw [deletion] at deleted exactly
    obtain ⟨validD, findD, objectD⟩ := deleted
    obtain ⟨l, found, rfl⟩ := Option.map_eq_some_iff.mp objectD.symm
    have result := MerkleTrie.endowSplit_spec validD workUnitKeyLen_pos split
    have parts := result.find validD workUnitKeyLen_pos
    have outside := parts log.partialExecThresholdKey.val
    rw [findD, if_pos rfl, eq_comm, Option.or_eq_none_iff] at outside
    refine ⟨_, ⟨rfl, rfl, rfl, rfl, rfl, rfl, clearedInto_partly found enough result.valid outside.2
      (fun query other => ?_) (fun query l' there => ⟨fun same => ?_, ?_⟩) (fun below above => ?_) reduced⟩,
      fun funded _ => ?_⟩
    · rw [← parts, findD, if_neg other]
    · rw [same, outside.1] at there
      cases there
    · exact result.disjoint validD workUnitKeyLen_pos there
    · refine result.cleaned _ log.partialExecThresholdKey.property (fun row listed => below row.1 ?_)
        (fun row listed => above row.1 ?_)
      · rw [(MerkleTrie.find_of_shaped result.shaped).mpr listed]
        exact Option.some_ne_none _
      · rw [(MerkleTrie.find_of_shaped (result.valid.shaped workUnitKeyLen_pos)).mpr listed]
        exact Option.some_ne_none _
    · obtain ⟨_, _, split', -, front, back⟩ := exactly funded
      obtain ⟨rfl, rfl⟩ := Prod.mk.inj (Except.ok.inj (split'.symm.trans split))
      refine ⟨fun query there => ?_, fun query there => ?_⟩
      · obtain ⟨l', there⟩ := Option.ne_none_iff_exists'.mp there
        have listed := (MerkleTrie.find_of_shaped result.shaped).mp there
        rw [front, entriesBelow, List.mem_filter] at listed
        exact (of_decide_eq_true listed.2).le
      · rw [(insertReduced_spec result.valid reduced).2 query] at there
        split_ifs at there with here
        · exact here.1.ge
        · obtain ⟨l', there⟩ := Option.ne_none_iff_exists'.mp there
          have listed := (MerkleTrie.find_of_shaped (result.valid.shaped workUnitKeyLen_pos)).mp there
          rw [back, List.mem_filter] at listed
          exact (of_decide_eq_true listed.2).le

/-- A producer clears the book as its record says, up to the lowest offer that stays. -/
theorem clears_of_produced {params : WorkUnitClearingParams} {prices : List Price} {taxRate : BitVec 8}
    (valid : proposal.committedOffers.Valid workUnitKeyLen)
    (top : proposal.lmdbInstance.getTopThunk = .ok thunk)
    (clear : proposal.processClearOffers params prices taxRate effects log = .ok (attempted, effects', log')) :
    ∃ thunk', Clears proposal attempted thunk thunk' ∧ Ordered thunk' attempted.committedOffers := by
  rw [processClearOffers] at clear
  split_ifs at clear with small
  obtain ⟨⟨cleared, remaining⟩, split, clear⟩ := Fallible.bind_eq_ok.mp clear
  obtain ⟨applied, -, clear⟩ := Fallible.bind_eq_ok.mp clear
  obtain ⟨thunk', top', clear⟩ := Fallible.bind_eq_ok.mp clear
  obtain rfl := Except.ok.inj (top.symm.trans top')
  have result := MerkleTrie.endowSplit_spec valid workUnitKeyLen_pos split
  have parts := result.find valid workUnitKeyLen_pos
  have lowest := MerkleTrie.getLowestKey_valid result.valid workUnitKeyLen_pos
  simp only at clear
  cases least : remaining.getLowestKey with
  | none =>
    rw [least] at lowest
    simp only [least] at clear
    split_ifs at clear
    cases clear
    refine ⟨_, ⟨rfl, rfl, rfl, rfl, rfl, rfl, @clearedInto_everything _ _ _ thunk (fun query => ?_) (fun below => ?_)
      result.valid lowest⟩, nofun⟩
    · rw [parts, lowest, Option.or_none]
    · refine result.cleaned maxKey.val maxKey.property (fun row listed => below row.1 ?_) (fun row listed => ?_)
      · rw [(MerkleTrie.find_of_shaped result.shaped).mpr listed]
        exact Option.some_ne_none _
      · have there := (MerkleTrie.find_of_shaped (result.valid.shaped workUnitKeyLen_pos)).mpr listed
        rw [lowest] at there
        cases there
  | some k =>
    rw [least] at lowest
    simp only [least] at clear
    split_ifs at clear with full
    simp only [clearLowestOffer] at clear
    have deleted := MerkleTrie.performDeletion_spec result.valid workUnitKeyLen_pos full
    rcases deletion : remaining.performDeletion workUnitKeyLen k with ⟨rest, object⟩
    rw [deletion] at deleted
    obtain ⟨validD, findD, objectD⟩ := deleted
    simp only [deletion] at clear
    cases object with
    | none => cases clear
    | some offer =>
      obtain ⟨l, found, rfl⟩ := Option.map_eq_some_iff.mp objectD.symm
      simp only at clear
      split at clear
      · cases clear
      · obtain ⟨db, -, clear⟩ := Fallible.bind_eq_ok.mp clear
        split_ifs at clear with enough
        obtain ⟨left, reduced, clear⟩ := Fallible.bind_eq_ok.mp clear
        cases clear
        have before : ∀ query l', cleared.find query = some l' → query < k := fun query l' there =>
          result.lt valid workUnitKeyLen_pos (by rw [there]; exact Option.some_ne_none _) lowest.1
        refine ⟨_, ⟨rfl, rfl, rfl, rfl, rfl, rfl, @clearedInto_partly _ _ _ _ thunk ⟨k, full⟩ _ l ?_ enough validD
          ?_ (fun query other => ?_) (fun query l' there => ?_) (fun below above => ?_) reduced⟩, fun _ => ⟨?_, ?_⟩⟩
        · have absent : cleared.find k = none := Option.eq_none_iff_forall_ne_some.mpr
            (fun l' there => lt_irrefl k (before k l' there))
          rw [parts, absent, Option.none_or, found]
        · rw [findD, if_pos rfl]
        · rw [parts, findD, if_neg other]
        · refine ⟨(before query l' there).ne, ?_⟩
          rw [findD, if_neg (before query l' there).ne, result.disjoint valid workUnitKeyLen_pos there]
        · refine result.cleaned k full (fun row listed => ?_) (fun row listed => lowest.2 row.1 ?_)
          · exact (before row.1 row.2 ((MerkleTrie.find_of_shaped result.shaped).mpr listed)).le
          · rw [(MerkleTrie.find_of_shaped (result.valid.shaped workUnitKeyLen_pos)).mpr listed]
            exact Option.some_ne_none _
        · intro query there
          obtain ⟨l', there⟩ := Option.ne_none_iff_exists'.mp there
          exact (before query l' there).le
        · intro query there
          rw [(@insertReduced_spec _ _ ⟨k, full⟩ _ validD reduced).2 query] at there
          split_ifs at there with here
          · exact here.1.ge
          · rw [findD] at there
            split_ifs at there with same
            · exact same.ge
            · exact lowest.2 query there

end Clears

end Speedex
