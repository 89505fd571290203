import Speedex.Unit.Blocks
import Speedex.Unit.Book

set_option autoImplicit false

/- Runs of blocks on a work unit. The record of a block determines what the block did to the book of
offers, so a run is described by the records it leaves. -/
namespace Speedex

open TrieNode MerkleWorkUnit

/-- The offers of a trie. -/
def OfferTrie.offers (book : OfferTrie) : Book := fun key => (book.find key).map Leaf.value

/-- What the record says that its block did. -/
def WorkUnitLMDBCommitmentThunk.effect (thunk : WorkUnitLMDBCommitmentThunk) : BlockEffect where
  created key := thunk.uncommittedOffersVec.find? (fun offer => offer.key = key)
  cancelled key := (thunk.deletedKeys.find? (fun row => row.1 = key)).map Prod.snd
  cleared := thunk.clearedOffers.offers
  partly := if thunk.existsPartialExec then
    some ⟨thunk.partialExecKey.val, thunk.preexecutePartialExecOffer, thunk.partialExecAmount⟩ else none

namespace OfferTrie

variable {book : OfferTrie} {key : Key} {offer : Offer}

theorem offers_eq_some : book.offers key = some offer ↔ ∃ l, book.find key = some l ∧ l.value = offer :=
  Option.map_eq_some_iff

theorem offers_eq_none : book.offers key = none ↔ book.find key = none := Option.map_eq_none_iff

/-- A plain book is determined by its offers. -/
theorem Plain.find (plain : book.Plain) (key : Key) : book.find key = (book.offers key).map Speedex.plain := by
  rw [offers]
  cases found : book.find key with
  | none => rfl
  | some l => exact congrArg some (plain key l found)

theorem Plain.ext {book' : OfferTrie} (left : book.Plain) (right : book'.Plain) (same : book.offers = book'.offers) :
    book.find = book'.find := by
  funext key
  rw [left.find, right.find, same]

end OfferTrie

theorem effect_cancelled {thunk : WorkUnitLMDBCommitmentThunk} {gone : Key → Option Offer}
    (listed : Lists thunk.deletedKeys gone) : thunk.effect.cancelled = gone := by
  funext key
  show (thunk.deletedKeys.find? _).map Prod.snd = gone key
  cases found : thunk.deletedKeys.find? (fun row => row.1 = key) with
  | none =>
    refine (Option.eq_none_iff_forall_ne_some.mpr (fun offer there => ?_)).symm
    have absent := List.find?_eq_none.mp found (key, offer) ((listed key offer).mpr there)
    exact absent (decide_eq_true rfl)
  | some row =>
    have here : row.1 = key := by simpa using List.find?_some found
    have there := (listed row.1 row.2).mp (List.mem_of_find?_eq_some found)
    rw [here] at there
    rw [there]
    rfl

theorem effect_created {insertFn : InsertFn} {offers : List Offer} {news : OfferTrie}
    {thunk : WorkUnitLMDBCommitmentThunk} (new : NewOffers insertFn offers news)
    (created : thunk.uncommittedOffersVec = news.entries.map (fun row => row.2.value)) :
    thunk.effect.created = news.offers := by
  have listed : ∀ {key : Key} {l : Leaf Offer}, news.find key = some l ↔ (key, l) ∈ news.entries :=
    (mem_entries_iff (new.valid.shaped workUnitKeyLen_pos)).symm
  funext key
  show thunk.uncommittedOffersVec.find? _ = news.offers key
  rw [created]
  cases found : news.find key with
  | none =>
    rw [OfferTrie.offers_eq_none.mpr found, List.find?_eq_none]
    intro offer there same
    obtain ⟨⟨key', l⟩, entry, rfl⟩ := List.mem_map.mp there
    have here := listed.mpr entry
    rw [← (new.written key' l here).2.1, of_decide_eq_true same, found] at here
    cases here
  | some l =>
    have value : news.offers key = some l.value := OfferTrie.offers_eq_some.mpr ⟨l, found, rfl⟩
    have own := (new.written key l found).2.1
    cases search : (news.entries.map (fun row => row.2.value)).find? (fun offer => offer.key = key) with
    | none =>
      refine absurd (decide_eq_true own) ?_
      exact List.find?_eq_none.mp search l.value (List.mem_map.mpr ⟨(key, l), listed.mp found, rfl⟩)
    | some offer =>
      obtain ⟨⟨key', l'⟩, entry, rfl⟩ := List.mem_map.mp (List.mem_of_find?_eq_some search)
      have here := listed.mpr entry
      have same : l'.value.key = key := by simpa using List.find?_some search
      rw [← (new.written key' l' here).2.1, same, found] at here
      rw [value, Option.some.inj here]

/-- A work unit between two blocks. -/
structure Settled (unit : MerkleWorkUnit) : Prop where
  valid : unit.committedOffers.Valid workUnitKeyLen
  plain : unit.committedOffers.Plain
  idle : unit.uncommittedOffers = OfferTrie.empty

/-- One block on a work unit, received and validated or produced; `proposal` is the work unit before the
clearing. New offers have keys that the book does not have: a key holds an offer id made from a sequence
number that its owner uses once. -/
inductive Block (unit : MerkleWorkUnit) (number : BitVec 64) (proposal : MerkleWorkUnit) : MerkleWorkUnit → Prop
  | validated {attempted final : MerkleWorkUnit} {batches : List (List Offer)} {keys : List OfferKeyType}
      {uninitialized : Bool} {effects effects' : ClearingEffects}
      {statistics statistics' : SingleValidationStatistics} {log : SingleWorkUnitStateCommitment}
      {checker : WorkUnitStateCommitmentChecker}
      (fresh : ∀ offer ∈ batches.flatten, unit.committedOffers.find offer.key = none)
      (propose : unit.proposeBlock .rollback batches keys uninitialized number = .ok proposal)
      (clear : proposal.tentativeClearOffersForValidation effects statistics log checker =
        .ok (true, attempted, effects', statistics'))
      (finalize : attempted.finalizeValidation = .ok final) : Block unit number proposal final
  | produced {final : MerkleWorkUnit} {batches : List (List Offer)} {keys : List OfferKeyType}
      {uninitialized : Bool} {effects effects' : ClearingEffects} {params : WorkUnitClearingParams}
      {prices : List Price} {taxRate : BitVec 8} {log log' : SingleWorkUnitStateCommitment}
      (fresh : ∀ offer ∈ batches.flatten, unit.committedOffers.find offer.key = none)
      (propose : unit.proposeBlock .overwrite batches keys uninitialized number = .ok proposal)
      (clear : proposal.processClearOffers params prices taxRate effects log = .ok (final, effects', log')) :
      Block unit number proposal final

/-- A block and the record that it leaves; `proposal` is the work unit before the clearing. -/
structure Outcome (before : MerkleWorkUnit) (number : BitVec 64) (proposal : MerkleWorkUnit)
    (thunk : WorkUnitLMDBCommitmentThunk) (after : MerkleWorkUnit) : Prop where
  settled : Settled after
  thunks : after.lmdbInstance.thunks = before.lmdbInstance.thunks ++ [thunk]
  persisted : after.lmdbInstance.persistedRoundNumber = before.lmdbInstance.persistedRoundNumber
  number : thunk.currentBlockNumber = number
  fits : thunk.effect.Fits before.committedOffers.offers
  applied : after.committedOffers.offers = thunk.effect.apply before.committedOffers.offers
  recorded : Recorded thunk thunk.effect.cancelled
  old : ∀ key l, thunk.clearedOffers.find key = some l → thunk.effect.created key = none → l = plain l.value
  created : (thunk.uncommittedOffersVec.map Offer.key).Pairwise (· < ·)
  ordered : Funded proposal.committedOffers.entries → Ordered thunk after.committedOffers
  cleaned : Ordered thunk after.committedOffers →
    (thunk.clearedOffers.cleanSinglechildNodes thunk.partialExecKey.val).Valid workUnitKeyLen ∧
      (thunk.clearedOffers.cleanSinglechildNodes thunk.partialExecKey.val).find = thunk.clearedOffers.find
  last : thunk.existsPartialExec = false → thunk.partialExecKey = maxKey

section Effect

variable {insertFn : InsertFn} {unit proposal attempted final : MerkleWorkUnit} {keys : List OfferKeyType}
  {offers : List Offer} {news left : OfferTrie} {thunk thunk' : WorkUnitLMDBCommitmentThunk} {number : BitVec 64}

theorem effect_proposed {effect : BlockEffect} (committed : TentativelyCommitted unit.committedOffers keys news proposal thunk)
    (created : effect.created = news.offers) (cancelled : effect.cancelled = cancelledOffers unit.committedOffers keys) :
    effect.proposed unit.committedOffers.offers = proposal.committedOffers.offers := by
  funext key
  rw [BlockEffect.proposed, created, cancelled, OfferTrie.offers, OfferTrie.offers, OfferTrie.offers,
    committed.find, Option.map_or, cancelledOffers, remainingOffers]
  by_cases gone : key ∈ keys.map Subtype.val
  · rw [if_pos gone, if_pos gone, Option.map_none]
    split_ifs with bare
    · rw [bare]
    · rfl
  · rw [if_neg gone, if_neg gone, if_pos rfl]

theorem effect_partly (thunk : WorkUnitLMDBCommitmentThunk) (partly : thunk.existsPartialExec = true) :
    thunk.effect.partly =
      some ⟨thunk.partialExecKey.val, thunk.preexecutePartialExecOffer, thunk.partialExecAmount⟩ := by
  rw [WorkUnitLMDBCommitmentThunk.effect, if_pos partly]

theorem effect_no_partly (thunk : WorkUnitLMDBCommitmentThunk) (partly : thunk.existsPartialExec = false) :
    thunk.effect.partly = none := by
  rw [WorkUnitLMDBCommitmentThunk.effect, if_neg (Bool.eq_false_iff.mp partly)]

theorem effect_cleared {key : Key} : thunk.effect.cleared key = none ↔ thunk.clearedOffers.find key = none :=
  OfferTrie.offers_eq_none

theorem remainder_value (offer : Offer) (sellAmount : BitVec 64) (key : Key) :
    (remainder offer sellAmount).map Leaf.value = PartialExecution.remainder ⟨key, offer, sellAmount⟩ := by
  rw [remainder, PartialExecution.remainder]
  split_ifs <;> rfl

/-- The clearing leaves the book that the record's effect leaves. -/
theorem effect_apply {book : Book} (proposed : thunk.effect.proposed book = proposal.committedOffers.offers)
    (into : ClearedInto proposal.committedOffers thunk left) : left.offers = thunk.effect.apply book := by
  funext key
  rw [BlockEffect.apply, proposed]
  by_cases stays : thunk.clearedOffers.find key = none
  · rw [if_neg (not_not.mpr (effect_cleared.mpr stays))]
    by_cases partly : thunk.existsPartialExec = true
    · obtain ⟨-, l, -, offer, -, rest⟩ := into.partly partly
      rw [effect_partly thunk partly]
      simp only
      by_cases here : key = thunk.partialExecKey.val
      · rw [if_pos here, here, OfferTrie.offers, rest, ← offer, remainder_value]
      · rw [if_neg here, OfferTrie.offers, into.stays key (fun _ => here) stays, OfferTrie.offers]
    · rw [effect_no_partly thunk (Bool.eq_false_iff.mpr partly), OfferTrie.offers,
        into.stays key (fun absurd => (partly absurd).elim) stays, OfferTrie.offers]
  · obtain ⟨l, there⟩ := Option.ne_none_iff_exists'.mp stays
    rw [if_pos (fun absent => stays (effect_cleared.mp absent)),
      OfferTrie.offers_eq_none.mpr (into.cleared key l there).2]

theorem effect_fits (new : NewOffers insertFn offers news)
    (fresh : ∀ offer ∈ offers, unit.committedOffers.find offer.key = none)
    (created : thunk.effect.created = news.offers)
    (cancelled : thunk.effect.cancelled = cancelledOffers unit.committedOffers keys)
    (proposed : thunk.effect.proposed unit.committedOffers.offers = proposal.committedOffers.offers)
    (into : ClearedInto proposal.committedOffers thunk left) : thunk.effect.Fits unit.committedOffers.offers where
  fresh key there := by
    rw [created] at there
    obtain ⟨offer, there⟩ := Option.ne_none_iff_exists'.mp there
    obtain ⟨l, found, -⟩ := OfferTrie.offers_eq_some.mp there
    obtain ⟨-, own, listed⟩ := new.written key l found
    rw [OfferTrie.offers_eq_none, ← own]
    exact fresh l.value listed
  cancelled key offer gone := by
    rw [cancelled, cancelledOffers] at gone
    split_ifs at gone
    exact gone
  cleared key offer there := by
    obtain ⟨l, found, value⟩ := OfferTrie.offers_eq_some.mp there
    rw [proposed]
    exact OfferTrie.offers_eq_some.mpr ⟨l, (into.cleared key l found).1, value⟩
  partly partly part := by
    by_cases exec : thunk.existsPartialExec = true
    · obtain ⟨absent, l, found, offer, enough, -⟩ := into.partly exec
      rw [effect_partly thunk exec] at part
      obtain rfl := Option.some.inj part
      rw [proposed]
      refine ⟨OfferTrie.offers_eq_some.mpr ⟨l, found, offer.symm⟩, OfferTrie.offers_eq_none.mpr absent, ?_⟩
      rw [offer]
      exact enough
    · rw [effect_no_partly thunk (Bool.eq_false_iff.mpr exec)] at part
      cases part
  whole none key := by
    rw [← effect_apply proposed into, OfferTrie.offers_eq_none]
    by_cases exec : thunk.existsPartialExec = true
    · rw [effect_partly thunk exec] at none
      cases none
    · exact (into.whole (Bool.eq_false_iff.mpr exec)).2 key

theorem le_maxKey {key : Key} {n : Nat} (full : key.length = n) : key ≤ List.replicate n 15 := by
  induction key generalizing n with
  | nil =>
    subst full
    exact le_refl _
  | cons digit key ih =>
    subst full
    rw [List.length_cons, List.replicate_succ, ← not_lt, List.cons_lt_cons_iff]
    rintro (above | ⟨-, above⟩)
    · exact absurd above (not_lt.mpr (Fin.le_last digit))
    · exact absurd above (not_lt.mpr (ih rfl))

theorem proposed_of_settled (settled : Settled unit) (new : NewOffers insertFn offers news)
    (fresh : ∀ offer ∈ offers, unit.committedOffers.find offer.key = none)
    (committed : TentativelyCommitted unit.committedOffers keys news proposal thunk) :
    Proposed insertFn unit.committedOffers keys news proposal thunk := by
  refine ⟨settled.valid, settled.plain, fun key l found => ?_, committed⟩
  obtain ⟨form, own, listed⟩ := new.written key l found
  exact ⟨form, own ▸ fresh l.value listed⟩

/-- Everything that later undoing and persisting need to know about a block. -/
theorem outcome_of_clears (settled : Settled unit) (new : NewOffers insertFn offers news)
    (fresh : ∀ offer ∈ offers, unit.committedOffers.find offer.key = none)
    (committed : TentativelyCommitted unit.committedOffers keys news proposal thunk)
    (appended : Appended unit number proposal thunk) (clears : Clears proposal attempted thunk thunk')
    (ordered : Funded proposal.committedOffers.entries → Ordered thunk' attempted.committedOffers)
    (kept : final.lmdbInstance = attempted.lmdbInstance) (idle : final.uncommittedOffers = attempted.uncommittedOffers)
    (valid : final.committedOffers.Valid workUnitKeyLen)
    (finds : ∀ key, final.committedOffers.find key =
      (attempted.committedOffers.find key).map (fun l => plain l.value)) :
    Outcome unit number proposal thunk' final := by
  have created : thunk'.effect.created = news.offers := effect_created new (clears.created.trans committed.created)
  have cancelled : thunk'.effect.cancelled = cancelledOffers unit.committedOffers keys := by
    refine effect_cancelled ?_
    rw [clears.deleted]
    exact committed.deleted
  have proposed := effect_proposed committed created cancelled
  have present_leaves := proposed_of_settled settled new fresh committed
  have same : final.committedOffers.offers = attempted.committedOffers.offers := by
    funext key
    rw [OfferTrie.offers, finds, Option.map_map]
    rfl
  have present : ∀ key, final.committedOffers.find key ≠ none ↔ attempted.committedOffers.find key ≠ none := by
    intro key
    rw [finds, ne_eq, Option.map_eq_none_iff]
  refine ⟨⟨valid, fun key l found => ?_, ?_⟩, ?_, ?_, ?_, ?_, ?_, ⟨?_, ?_, ?_⟩, fun key l there unlisted => ?_, ?_, ?_, ?_, ?_⟩
  · rw [finds] at found
    obtain ⟨l', -, rfl⟩ := Option.map_eq_some_iff.mp found
    rfl
  · rw [idle, clears.uncommitted, committed.idle]
  · rw [kept, clears.lmdb, WorkUnitLMDB.setTopThunk, appended.thunks, List.dropLast_concat]
  · rw [kept, clears.lmdb]
    exact appended.persisted
  · rw [clears.number, appended.blockNumber]
  · exact effect_fits new fresh created cancelled proposed clears.into
  · rw [same]
    exact effect_apply proposed clears.into
  · rw [cancelled, clears.deleted]
    exact committed.deleted
  · rw [clears.deleted]
    exact committed.full
  · intro key l there
    exact present_leaves.undeleted key l (clears.into.cleared key l there).1
  · have found := (clears.into.cleared key l there).1
    rw [created, OfferTrie.offers_eq_none] at unlisted
    rw [committed.find, unlisted, Option.none_or, remainingOffers] at found
    split_ifs at found
    exact settled.plain key l found
  · have keys_of : (news.entries.map (fun row => row.2.value)).map Offer.key = news.entries.map Prod.fst := by
      rw [List.map_map]
      refine List.map_congr_left (fun row listed => ?_)
      have found := (MerkleTrie.find_of_shaped (new.valid.shaped workUnitKeyLen_pos)).mpr listed
      exact (new.written row.1 row.2 found).2.1
    rw [clears.created, committed.created, keys_of, List.pairwise_map]
    exact entries_sorted (new.valid.shaped workUnitKeyLen_pos)
  · intro funded partly
    obtain ⟨below, above⟩ := ordered funded partly
    exact ⟨below, fun query there => above query ((present query).mp there)⟩
  · intro order
    cases partly : thunk'.existsPartialExec with
    | true =>
      obtain ⟨below, above⟩ := order partly
      exact clears.into.cleaned below (fun query there => above query ((present query).mpr there))
    | false =>
      obtain ⟨last, bare⟩ := clears.into.whole partly
      refine clears.into.cleaned (fun query there => ?_) (fun query there => absurd (bare query) there)
      obtain ⟨l, there⟩ := Option.ne_none_iff_exists'.mp there
      rw [last]
      exact le_maxKey (MerkleTrie.find_key_length committed.valid workUnitKeyLen_pos (clears.into.cleared query l there).1)
  · exact fun partly => (clears.into.whole partly).1

/-- What the clearing leaves in the book is as an insert function writes it. -/
theorem Proposed.left_written (proposed : Proposed insertFn unit.committedOffers keys news proposal thunk)
    (into : ClearedInto proposal.committedOffers thunk' left) {key : Key} {l : Leaf Offer}
    (found : left.find key = some l) : l = plain l.value ∨ l = written insertFn l.value := by
  have stays : thunk'.clearedOffers.find key = none := by
    refine Option.eq_none_iff_forall_ne_some.mpr (fun l' cleared => ?_)
    rw [(into.cleared key l' cleared).2] at found
    cases found
  by_cases fully : thunk'.existsPartialExec = true → key ≠ thunk'.partialExecKey.val
  · rw [into.stays key fully stays] at found
    rcases proposed.cases found with ⟨form, -⟩ | ⟨form, -⟩
    · exact Or.inr form
    · exact Or.inl form
  · rw [Classical.not_imp, not_not] at fully
    obtain ⟨partly, rfl⟩ := fully
    obtain ⟨-, l', -, -, -, rest⟩ := into.partly partly
    rw [rest, remainder] at found
    split_ifs at found
    obtain rfl := Option.some.inj found
    exact Or.inl rfl

theorem clearLeaf_written (insertFn : InsertFn) (offer : Offer) : clearLeaf (written insertFn offer) = plain offer := by
  cases insertFn <;> rfl

theorem finalizeValidation_ok (run : attempted.finalizeValidation = .ok final) :
    final = { attempted with committedOffers := attempted.committedOffers.clearRollback } := by
  obtain ⟨size, -, run⟩ := Fallible.bind_eq_ok.mp run
  split_ifs at run
  exact (Except.ok.inj run).symm

/-- Every block leaves its record, and the book that the record's effect leaves. -/
theorem block_outcome (settled : Settled unit) (block : Block unit number proposal final) :
    ∃ thunk, Outcome unit number proposal thunk final := by
  cases block with
  | @validated attempted _ batches keys _ _ _ _ _ _ _ fresh propose clear finalize =>
    obtain ⟨news, thunk, new, committed, -, appended⟩ :=
      proposeBlock_spec settled.valid settled.plain settled.idle propose
    obtain ⟨thunk', clears, ordered⟩ := clears_of_accepted committed.valid committed.top clear
    obtain rfl := finalizeValidation_ok finalize
    obtain ⟨valid, finds⟩ := MerkleTrie.clearRollback_valid clears.into.valid workUnitKeyLen_pos
    have proposed := proposed_of_settled settled new fresh committed
    refine ⟨thunk', outcome_of_clears settled new fresh committed appended clears ordered rfl rfl valid (fun key => ?_)⟩
    refine (finds key).trans (Option.map_congr (fun l found => ?_))
    rcases proposed.left_written clears.into found with form | form
    · rw [form, clearLeaf_written]
      rfl
    · rw [form, clearLeaf_written]
      rfl
  | @produced final batches keys _ _ _ _ _ _ _ _ fresh propose clear =>
    obtain ⟨news, thunk, new, committed, -, appended⟩ :=
      proposeBlock_spec settled.valid settled.plain settled.idle propose
    obtain ⟨thunk', clears, ordered⟩ := clears_of_produced committed.valid committed.top clear
    have proposed := proposed_of_settled settled new fresh committed
    refine ⟨thunk', outcome_of_clears settled new fresh committed appended clears (fun _ => ordered) rfl rfl
      clears.into.valid (fun key => ?_)⟩
    cases found : final.committedOffers.find key with
    | none => rfl
    | some l => exact congrArg some ((proposed.left_written clears.into found).elim id id)

end Effect

/-- A record from which `undo_thunk` can undo its block. -/
structure Undoable (thunk : WorkUnitLMDBCommitmentThunk) : Prop where
  recorded : Recorded thunk thunk.effect.cancelled
  old : ∀ key l, thunk.clearedOffers.find key = some l → thunk.effect.created key = none → l = plain l.value
  clean : (thunk.clearedOffers.cleanSinglechildNodes thunk.partialExecKey.val).Valid workUnitKeyLen
  same : (thunk.clearedOffers.cleanSinglechildNodes thunk.partialExecKey.val).find = thunk.clearedOffers.find

theorem Outcome.undoable {before proposal after : MerkleWorkUnit} {number : BitVec 64}
    {thunk : WorkUnitLMDBCommitmentThunk} (outcome : Outcome before number proposal thunk after)
    (ordered : Ordered thunk after.committedOffers) : Undoable thunk :=
  ⟨outcome.recorded, outcome.old, (outcome.cleaned ordered).1, (outcome.cleaned ordered).2⟩

/-- A sequence of blocks after block `number`; `proposals` are the work units before each clearing. -/
inductive Run : MerkleWorkUnit → BitVec 64 → List MerkleWorkUnit → MerkleWorkUnit → Prop
  | nil (unit : MerkleWorkUnit) (number : BitVec 64) : Run unit number [] unit
  | cons {unit next final proposal : MerkleWorkUnit} {number : BitVec 64} {proposals : List MerkleWorkUnit}
      (block : Block unit (number + 1) proposal next) (rest : Run next (number + 1) proposals final) :
      Run unit number (proposal :: proposals) final

/-- What a run leaves: its records, which determine the book. -/
structure RunOutcome (before : MerkleWorkUnit) (number : BitVec 64) (proposals : List MerkleWorkUnit)
    (records : List WorkUnitLMDBCommitmentThunk) (after : MerkleWorkUnit) : Prop where
  settled : Settled after
  thunks : after.lmdbInstance.thunks = before.lmdbInstance.thunks ++ records
  persisted : after.lmdbInstance.persistedRoundNumber = before.lmdbInstance.persistedRoundNumber
  length : records.length = proposals.length
  numbers : ∀ i (inside : i < records.length), records[i].currentBlockNumber = number + BitVec.ofNat 64 (i + 1)
  fits : BlockEffect.FitAll (records.map WorkUnitLMDBCommitmentThunk.effect) before.committedOffers.offers
  applied : after.committedOffers.offers =
    BlockEffect.applyAll (records.map WorkUnitLMDBCommitmentThunk.effect) before.committedOffers.offers
  undoable : (∀ proposal ∈ proposals, Funded proposal.committedOffers.entries) → ∀ thunk ∈ records, Undoable thunk

theorem Run.outcome {unit final : MerkleWorkUnit} {number : BitVec 64} {proposals : List MerkleWorkUnit}
    (run : Run unit number proposals final) (settled : Settled unit) :
    ∃ thunks, RunOutcome unit number proposals thunks final := by
  induction run with
  | nil unit number =>
    exact ⟨[], settled, (List.append_nil _).symm, rfl, rfl, nofun, trivial, rfl, fun _ => nofun⟩
  | @cons unit next final proposal number proposals block rest ih =>
    obtain ⟨thunk, first⟩ := block_outcome settled block
    obtain ⟨thunks, later⟩ := ih first.settled
    refine ⟨thunk :: thunks, later.settled, ?_, later.persisted.trans first.persisted, ?_, ?_, ⟨first.fits, ?_⟩, ?_, ?_⟩
    · rw [later.thunks, first.thunks, List.append_assoc, List.singleton_append]
    · rw [List.length_cons, List.length_cons, later.length]
    · rintro (_ | i) inside
      · exact first.number
      · rw [List.getElem_cons_succ, later.numbers i (by simpa using inside), BitVec.add_assoc]
        congr 1
        rw [show (1 : BitVec 64) = BitVec.ofNat 64 1 from rfl, ← BitVec.ofNat_add]
        congr 1
        omega
    · rw [← first.applied]
      exact later.fits
    · rw [later.applied, first.applied]
      rfl
    · intro funded
      obtain ⟨here, there⟩ := List.forall_mem_cons.mp funded
      exact List.forall_mem_cons.mpr ⟨first.undoable (first.ordered here), later.undoable there⟩

end Speedex
