import Speedex.Unit.Undo

set_option autoImplicit false

/- The first half of a block on a work unit: new offers arrive, offers are cancelled, and
`tentative_commit_for_validation` moves both into the committed offers. -/
namespace Speedex

open TrieNode

/-- The offers a serial manager collects. A validator stores them with `RollbackInsertFn`, a producer
with `OverwriteInsertFn`. -/
def newOfferTrie (insertFn : InsertFn) (offers : List Offer) : Except String OfferTrie :=
  offers.foldlM (fun trie offer => trie.insert insertFn offer.key offer) OfferTrie.empty

namespace MerkleWorkUnit

/-- Every serial manager hands over its offers. -/
def receiveOffers (insertFn : InsertFn) (unit : MerkleWorkUnit) (batches : List (List Offer)) : Except String MerkleWorkUnit :=
  batches.foldlM (fun unit batch => do
    let offers ← newOfferTrie insertFn batch
    unit.addOffers offers) unit

def cancelOffers (unit : MerkleWorkUnit) (keys : List OfferKeyType) : MerkleWorkUnit :=
  keys.foldl (fun unit key => (unit.markForDeletion key.val).1) unit

/-- A block up to its clearing. -/
def proposeBlock (insertFn : InsertFn) (unit : MerkleWorkUnit) (batches : List (List Offer))
    (keys : List OfferKeyType) (uninitialized : Bool) (currentBlockNumber : BitVec 64) : Except String MerkleWorkUnit := do
  let unit ← unit.receiveOffers insertFn batches
  (unit.cancelOffers keys).tentativeCommitForValidation uninitialized currentBlockNumber

end MerkleWorkUnit

/-- A trie of new offers, each under its own key. -/
structure NewOffers (insertFn : InsertFn) (offers : List Offer) (trie : OfferTrie) : Prop where
  valid : trie.Valid workUnitKeyLen
  written : ∀ key l, trie.find key = some l → l = written insertFn l.value ∧ l.value.key = key ∧ l.value ∈ offers
  all : ∀ offer ∈ offers, trie.find offer.key ≠ none

theorem newOffers_empty (insertFn : InsertFn) : NewOffers insertFn [] OfferTrie.empty where
  valid := MerkleTrie.valid_new workUnitKeyLen
  written key l found := by
    rw [OfferTrie.empty, MerkleTrie.find_new] at found
    cases found
  all := nofun

theorem newOfferTrie_spec (insertFn : InsertFn) (offers : List Offer) :
    ∃ trie, newOfferTrie insertFn offers = .ok trie ∧ NewOffers insertFn offers trie := by
  refine Fallible.foldlM_total (NewOffers insertFn) (newOffers_empty insertFn) ?_
  intro done offer trie _ before
  obtain ⟨trie', run, valid, finds⟩ := MerkleTrie.insert_spec insertFn offer before.valid workUnitKeyLen_pos
    offer.length_key
  refine ⟨trie', run, valid, fun key l found => ?_, fun other listed => ?_⟩
  · rw [finds] at found
    by_cases here : key = offer.key
    · rw [if_pos here] at found
      obtain rfl := Option.some.inj found
      exact ⟨rfl, here.symm, by simp⟩
    · rw [if_neg here] at found
      obtain ⟨new, same, listed⟩ := before.written key l found
      exact ⟨new, same, List.mem_append_left _ listed⟩
  · rw [finds]
    by_cases here : other.key = offer.key
    · rw [if_pos here]
      exact Option.some_ne_none _
    · rw [if_neg here]
      rcases List.mem_append.mp listed with old | new
      · exact before.all other old
      · rw [List.mem_singleton.mp new] at here
        exact absurd rfl here

theorem addOffers_spec {insertFn : InsertFn} {unit : MerkleWorkUnit} {offers offers' : List Offer} {trie : OfferTrie}
    (before : NewOffers insertFn offers unit.uncommittedOffers) (added : NewOffers insertFn offers' trie) :
    ∃ uncommittedOffers, unit.addOffers trie = .ok { unit with uncommittedOffers := uncommittedOffers } ∧
      NewOffers insertFn (offers ++ offers') uncommittedOffers := by
  obtain ⟨trie', run, valid, finds⟩ := MerkleTrie.mergeIn_spec (Or.inl before.valid) added.valid workUnitKeyLen_pos
  refine ⟨trie', by rw [MerkleWorkUnit.addOffers, run]; rfl, valid, fun key l found => ?_, fun offer listed => ?_⟩
  · rw [finds] at found
    rcases Option.or_eq_some_iff.mp found with new | ⟨-, old⟩
    · obtain ⟨form, same, listed⟩ := added.written key l new
      exact ⟨form, same, List.mem_append_right _ listed⟩
    · obtain ⟨form, same, listed⟩ := before.written key l old
      exact ⟨form, same, List.mem_append_left _ listed⟩
  · intro absent
    rw [finds, Option.or_eq_none_iff] at absent
    rcases List.mem_append.mp listed with old | new
    · exact before.all offer old absent.2
    · exact added.all offer new absent.1

/-- However the new offers are spread over serial managers, the work unit ends up with all of them. -/
theorem receiveOffers_spec (insertFn : InsertFn) {unit : MerkleWorkUnit} (idle : unit.uncommittedOffers = OfferTrie.empty)
    (batches : List (List Offer)) :
    ∃ uncommittedOffers,
      unit.receiveOffers insertFn batches = .ok { unit with uncommittedOffers := uncommittedOffers } ∧
      NewOffers insertFn batches.flatten uncommittedOffers := by
  obtain ⟨unit', run, trie, rfl, offers⟩ := Fallible.foldlM_total
    (f := fun (unit : MerkleWorkUnit) (batch : List Offer) => (do
      let offers ← newOfferTrie insertFn batch
      unit.addOffers offers : Except String MerkleWorkUnit))
    (fun done unit' => ∃ uncommittedOffers, unit' = { unit with uncommittedOffers := uncommittedOffers } ∧
      NewOffers insertFn done.flatten uncommittedOffers) (l := batches) (s := unit)
    ⟨OfferTrie.empty, by rw [← idle], newOffers_empty insertFn⟩ (by
      rintro done batch _ - ⟨trie, rfl, before⟩
      obtain ⟨added, collect, new⟩ := newOfferTrie_spec insertFn batch
      obtain ⟨trie', run, offers⟩ :=
        @addOffers_spec insertFn { unit with uncommittedOffers := trie } done.flatten batch added before new
      refine ⟨_, ?_, trie', rfl, ?_⟩
      · rw [collect]
        exact run
      · rwa [List.flatten_append, List.flatten_singleton])
  exact ⟨trie, run, offers⟩

theorem cancelOffers_spec {unit : MerkleWorkUnit} (valid : unit.committedOffers.Valid workUnitKeyLen)
    (keys : List OfferKeyType) :
    ∃ committedOffers, unit.cancelOffers keys = { unit with committedOffers := committedOffers } ∧
      MarkedAt unit.committedOffers (keys.map Subtype.val) committedOffers := by
  refine ⟨markAll unit.committedOffers (keys.map Subtype.val), ?_, markAll_spec valid ?_⟩
  · induction keys using List.reverseRecOn with
    | nil => rfl
    | append_singleton keys key ih =>
      rw [MerkleWorkUnit.cancelOffers, List.foldl_append, List.map_append, markAll_append]
      exact congrArg (fun u => (MerkleWorkUnit.markForDeletion u key.val).1) ih
  · intro key listed
    obtain ⟨key', -, rfl⟩ := List.mem_map.mp listed
    exact key'.property

section Commit

/-- The committed offers that the block cancels. -/
def cancelledOffers (book : OfferTrie) (keys : List OfferKeyType) (key : Key) : Option Offer :=
  if key ∈ keys.map Subtype.val then (book.find key).map Leaf.value else none

/-- The committed offers that the block leaves in the book. -/
def remainingOffers (book : OfferTrie) (keys : List OfferKeyType) (key : Key) : Option (Leaf Offer) :=
  if key ∈ keys.map Subtype.val then none else book.find key

/-- A work unit after `tentative_commit_for_validation`. -/
structure TentativelyCommitted (book : OfferTrie) (keys : List OfferKeyType) (news : OfferTrie)
    (unit : MerkleWorkUnit) (thunk : WorkUnitLMDBCommitmentThunk) : Prop where
  valid : unit.committedOffers.Valid workUnitKeyLen
  find : ∀ key, unit.committedOffers.find key = (news.find key).or (remainingOffers book keys key)
  idle : unit.uncommittedOffers = OfferTrie.empty
  top : unit.lmdbInstance.getTopThunk = .ok thunk
  created : thunk.uncommittedOffersVec = news.entries.map (fun row => row.2.value)
  deleted : Lists thunk.deletedKeys (cancelledOffers book keys)
  full : ∀ row ∈ thunk.deletedKeys, row.1.length = workUnitKeyLen

/-- The record of a block before its clearing. -/
structure Uncleared (uninitialized : Bool) (thunk : WorkUnitLMDBCommitmentThunk) : Prop where
  cleared : thunk.clearedOffers = OfferTrie.empty
  exists_partial : thunk.existsPartialExec = uninitialized
  key : thunk.partialExecKey = zeroKey
  offer : thunk.preexecutePartialExecOffer = default

/-- The leaves that carry the mark, with their values. -/
theorem mem_markedRows {trie : OfferTrie} (shaped : Shaped workUnitKeyLen trie.root) {mark : Mark} {key : Key}
    {offer : Offer} : (key, offer) ∈ markedRows mark trie.root ↔
      ((trie.find key).filter (fun l => l.marked mark)).map Leaf.value = some offer := by
  simp only [markedRows, List.mem_map, List.mem_filter, Option.map_eq_some_iff, Option.filter_eq_some_iff]
  constructor
  · rintro ⟨⟨key', l⟩, ⟨listed, marked⟩, same⟩
    cases same
    exact ⟨l, ⟨(mem_entries_iff shaped).mp listed, marked⟩, rfl⟩
  · rintro ⟨l, ⟨found, marked⟩, rfl⟩
    exact ⟨(key, l), ⟨(mem_entries_iff shaped).mpr found, marked⟩, rfl⟩

theorem MarkedAt.cancelled {book : OfferTrie} {keys : List OfferKeyType} {trie : OfferTrie}
    (marked : MarkedAt book (keys.map Subtype.val) trie) (committed : book.Plain) (key : Key) :
    ((trie.find key).filter (fun l => l.marked .deleted)).map Leaf.value = cancelledOffers book keys key ∧
      (trie.find key).filter (fun l => !l.marked .deleted) = remainingOffers book keys key := by
  rw [marked.find, cancelledOffers, remainingOffers]
  cases found : book.find key with
  | none => split_ifs <;> exact ⟨rfl, rfl⟩
  | some l =>
    have form := committed key l found
    split_ifs
    · have swapped : (swapLeaf 0 1 l).marked .deleted = true ∧ (swapLeaf 0 1 l).value = l.value := by
        rw [form]
        exact ⟨rfl, rfl⟩
      rw [Option.map_some, Option.filter_some_pos (p := fun l : Leaf Offer => l.marked .deleted) swapped.1,
        Option.filter_some_neg (p := fun l : Leaf Offer => !l.marked .deleted) (by simp [swapped.1]),
        Option.map_some, swapped.2]
      exact ⟨rfl, rfl⟩
    · have unmarked : l.marked .deleted = false := by
        rw [form]
        exact marked_plain _ _
      rw [Option.filter_some_neg (p := fun l : Leaf Offer => l.marked .deleted) (by simp [unmarked]),
        Option.filter_some_pos (p := fun l : Leaf Offer => !l.marked .deleted) (by simp [unmarked])]
      exact ⟨rfl, rfl⟩

theorem addNewThunk_ok {lmdb lmdb' : WorkUnitLMDB} {uninitialized : Bool} {currentBlockNumber : BitVec 64}
    (run : lmdb.addNewThunk uninitialized currentBlockNumber = .ok lmdb') :
    lmdb' = { lmdb with thunks := lmdb.thunks ++ [.new uninitialized currentBlockNumber] } := by
  rw [WorkUnitLMDB.addNewThunk] at run
  split at run
  · exact (Except.ok.inj run).symm
  · split at run
    · cases run
    · exact (Except.ok.inj run).symm

/-- The record of the block is the newest one. -/
structure Appended (unit : MerkleWorkUnit) (currentBlockNumber : BitVec 64) (unit' : MerkleWorkUnit)
    (thunk : WorkUnitLMDBCommitmentThunk) : Prop where
  category : unit'.category = unit.category
  blockNumber : thunk.currentBlockNumber = currentBlockNumber
  thunks : unit'.lmdbInstance.thunks = unit.lmdbInstance.thunks ++ [thunk]
  persisted : unit'.lmdbInstance.persistedRoundNumber = unit.lmdbInstance.persistedRoundNumber

/-- The block's record, and the book with the new offers in and the cancelled ones out. -/
theorem tentativeCommit_spec {insertFn : InsertFn} {unit unit' : MerkleWorkUnit} {book : OfferTrie} {keys : List OfferKeyType}
    {offers : List Offer} {uninitialized : Bool} {currentBlockNumber : BitVec 64}
    (cancelled : MarkedAt book (keys.map Subtype.val) unit.committedOffers) (committed : book.Plain)
    (new : NewOffers insertFn offers unit.uncommittedOffers)
    (run : unit.tentativeCommitForValidation uninitialized currentBlockNumber = .ok unit') :
    ∃ thunk, TentativelyCommitted book keys unit.uncommittedOffers unit' thunk ∧
      Uncleared uninitialized thunk ∧ Appended unit currentBlockNumber unit' thunk := by
  rw [MerkleWorkUnit.tentativeCommitForValidation] at run
  obtain ⟨lmdb, added, run⟩ := Fallible.bind_eq_ok.mp run
  obtain rfl := addNewThunk_ok added
  obtain ⟨thunk, top, run⟩ := Fallible.bind_eq_ok.mp run
  rw [WorkUnitLMDB.getTopThunk, List.getLast?_concat] at top
  obtain rfl := Except.ok.inj top
  obtain ⟨vec, collect, run⟩ := Fallible.bind_eq_ok.mp run
  have shaped := new.valid.shaped workUnitKeyLen_pos
  obtain ⟨-, values⟩ := accumulateValues_size shaped collect
  obtain ⟨⟨trie, rows⟩, delete, run⟩ := Fallible.bind_eq_ok.mp run
  obtain ⟨trie', delete', valid', finds⟩ := MerkleTrie.performMarkedDeletions_spec cancelled.valid
  rw [delete'] at delete
  obtain ⟨rfl, rfl⟩ := Prod.mk.inj (Except.ok.inj delete)
  obtain ⟨merged, unite, run⟩ := Fallible.bind_eq_ok.mp run
  obtain ⟨merged', unite', valid'', united⟩ := MerkleTrie.mergeIn_spec (Or.inl valid') new.valid workUnitKeyLen_pos
  rw [unite'] at unite
  obtain rfl := Except.ok.inj unite
  cases run
  refine ⟨_, ⟨valid'', fun key => ?_, rfl, WorkUnitLMDB.getTopThunk_setTopThunk _ _, values,
    fun key offer => ?_, ?_⟩, ⟨rfl, rfl, rfl, rfl⟩, rfl, rfl, ?_, rfl⟩
  · rw [united, finds, (cancelled.cancelled committed key).2]
  · rw [mem_markedRows (cancelled.valid.shaped workUnitKeyLen_pos), (cancelled.cancelled committed key).1]
  · rintro ⟨key, offer⟩ listed
    obtain ⟨l, found, -⟩ := Option.map_eq_some_iff.mp
      ((mem_markedRows (cancelled.valid.shaped workUnitKeyLen_pos)).mp listed)
    exact MerkleTrie.find_key_length cancelled.valid workUnitKeyLen_pos (Option.filter_eq_some_iff.mp found).1
  · simp [WorkUnitLMDB.setTopThunk]

theorem proposeBlock_spec {insertFn : InsertFn} {unit unit' : MerkleWorkUnit} {batches : List (List Offer)} {keys : List OfferKeyType}
    {uninitialized : Bool} {currentBlockNumber : BitVec 64} (valid : unit.committedOffers.Valid workUnitKeyLen)
    (committed : unit.committedOffers.Plain) (idle : unit.uncommittedOffers = OfferTrie.empty)
    (run : unit.proposeBlock insertFn batches keys uninitialized currentBlockNumber = .ok unit') :
    ∃ news thunk, NewOffers insertFn batches.flatten news ∧ TentativelyCommitted unit.committedOffers keys news unit' thunk ∧
      Uncleared uninitialized thunk ∧ Appended unit currentBlockNumber unit' thunk := by
  obtain ⟨news, received, new⟩ := receiveOffers_spec insertFn idle batches
  obtain ⟨trie, cancelled, marked⟩ :=
    @cancelOffers_spec { unit with uncommittedOffers := news } valid keys
  rw [MerkleWorkUnit.proposeBlock, received] at run
  simp only [bind, Except.bind, cancelled] at run
  obtain ⟨thunk, result, uncleared, appended⟩ := @tentativeCommit_spec
    insertFn { unit with committedOffers := trie, uncommittedOffers := news } _ _ _ _ _ _ marked committed new run
  exact ⟨news, thunk, new, result, uncleared, appended.category, appended.blockNumber, appended.thunks,
    appended.persisted⟩

end Commit

end Speedex
