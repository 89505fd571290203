import Speedex.Library.Fallible
import Speedex.Unit.WorkUnit

set_option autoImplicit false

/- `undo_thunk`: what undoing one block does to the committed offers, key by key. -/
namespace Speedex

open TrieNode

/-- A leaf as an insert function writes it. -/
def written (insertFn : InsertFn) (offer : Offer) : Leaf Offer := ⟨offer, insertFn.newMetadata offer⟩

abbrev plain := written .overwrite
abbrev tentative := written .rollback

@[simp] theorem written_value (insertFn : InsertFn) (offer : Offer) : (written insertFn offer).value = offer := rfl

@[simp] theorem marked_plain (mark : Mark) (offer : Offer) : (plain offer).marked mark = false := by
  cases mark <;> rfl

@[simp] theorem marked_tentative (offer : Offer) : (tentative offer).marked .rollback = true := rfl

@[simp] theorem marked_written (insertFn : InsertFn) (offer : Offer) :
    (written insertFn offer).marked .deleted = false := by
  cases insertFn <;> rfl

/-- The same keys with the same offers, metadata and marks. -/
def SameBook (book book' : OfferTrie) : Prop :=
  book.find = book'.find ∧ book.getRootMetadata = book'.getRootMetadata

/-- `rows` lists the map `gone`. -/
def Lists (rows : List (Key × Offer)) (gone : Key → Option Offer) : Prop :=
  ∀ key offer, (key, offer) ∈ rows ↔ gone key = some offer

namespace OfferTrie

/-- A book of the committed form: every leaf as `OverwriteInsertFn` writes it. -/
def Plain (book : OfferTrie) : Prop := ∀ key l, book.find key = some l → l = plain l.value

/-- No leaf is marked for deletion. -/
def Undeleted (book : OfferTrie) : Prop := ∀ key l, book.find key = some l → l.marked .deleted = false

theorem Plain.undeleted {book : OfferTrie} (plain : book.Plain) : book.Undeleted := by
  intro key l found
  rw [plain key l found]
  exact marked_plain _ _

theorem Plain.kept {book : OfferTrie} (plain : book.Plain) (key : Key) :
    (book.find key).filter (fun l => !l.marked .rollback) = book.find key := by
  cases found : book.find key with
  | none => rfl
  | some l =>
    refine Option.filter_some_pos ?_
    rw [plain key l found, marked_plain]
    rfl

/-- A leaf's metadata is determined by its marks. -/
theorem eq_plain {book : OfferTrie} {key : Key} {l : Leaf Offer} (valid : book.Valid workUnitKeyLen)
    (found : book.find key = some l) (undeleted : l.marked .deleted = false) (kept : l.marked .rollback = false) :
    l = plain l.value := by
  have own := find_leafMetadata (valid.shaped workUnitKeyLen_pos) found
  have noDelete := own.deleted.resolve_right (of_decide_eq_false undeleted)
  have noRollback := own.rollback.resolve_right (of_decide_eq_false kept)
  cases l with
  | mk value metadata =>
    refine congrArg (Leaf.mk value) (Metadata.ext noDelete ?_ noRollback own.endow)
    exact own.size

end OfferTrie

/-- Mark every key for deletion. -/
def markAll (book : OfferTrie) (keys : List Key) : OfferTrie :=
  keys.foldl (fun trie key => (trie.markForDeletion key).1) book

theorem markAll_append (book : OfferTrie) (keys keys' : List Key) :
    markAll book (keys ++ keys') = markAll (markAll book keys) keys' := List.foldl_append

/-- The book while some of its offers are marked for deletion. -/
structure MarkedAt (book : OfferTrie) (keys : List Key) (trie : OfferTrie) : Prop where
  valid : trie.Valid workUnitKeyLen
  find : ∀ key, trie.find key = if key ∈ keys then (book.find key).map (swapLeaf 0 1) else book.find key

theorem swapLeaf_swapLeaf (l : Leaf Offer) : swapLeaf 0 1 (swapLeaf 0 1 l) = swapLeaf 0 1 l := by
  by_cases unmarked : l.metadata.numDeletedSubnodes = 0 <;> simp [swapLeaf, unmarked]

theorem markAll_spec {book : OfferTrie} (valid : book.Valid workUnitKeyLen) {keys : List Key}
    (full : ∀ key ∈ keys, key.length = workUnitKeyLen) : MarkedAt book keys (markAll book keys) := by
  induction keys using List.reverseRecOn with
  | nil => exact ⟨valid, fun key => (if_neg List.not_mem_nil).symm⟩
  | append_singleton keys key ih =>
    have before := ih (fun key listed => full key (List.mem_append_left _ listed))
    obtain ⟨valid', finds, -⟩ := MerkleTrie.markForDeletion_spec before.valid workUnitKeyLen_pos
      (full key (by simp))
    rw [markAll_append]
    refine ⟨valid', fun query => ?_⟩
    rw [markAll, List.foldl_cons, List.foldl_nil, finds]
    by_cases here : query = key
    · rw [if_pos here, here, if_pos (by simp), before.find]
      split_ifs
      · rw [Option.map_map]
        exact congrArg (Option.map · _) (funext swapLeaf_swapLeaf)
      · rfl
    · rw [if_neg here, before.find]
      simp only [List.mem_append, List.mem_singleton, here, or_false]

/-- Without marks to begin with, exactly the keys marked are deleted. -/
theorem MarkedAt.delete {book : OfferTrie} {keys : List Key} {trie : OfferTrie} (marked : MarkedAt book keys trie)
    (valid : book.Valid workUnitKeyLen) (undeleted : book.Undeleted) : ∃ trie' rows, trie.performMarkedDeletions workUnitKeyLen = .ok (trie', rows) ∧
      trie'.Valid workUnitKeyLen ∧ ∀ key, trie'.find key = if key ∈ keys then none else book.find key := by
  obtain ⟨trie', run, valid', finds⟩ := MerkleTrie.performMarkedDeletions_spec marked.valid
  refine ⟨trie', _, run, valid', fun key => ?_⟩
  rw [finds, marked.find]
  cases found : book.find key with
  | none => split_ifs <;> rfl
  | some l =>
    have unmarked : l.metadata.numDeletedSubnodes ≠ 1 := of_decide_eq_false (undeleted key l found)
    split_ifs
    · refine Option.filter_some_neg ?_
      have swapped : (swapLeaf 0 1 l).marked .deleted = true := by
        have own := find_leafMetadata (valid.shaped workUnitKeyLen_pos) found
        rw [swapLeaf, if_pos (own.deleted.resolve_right unmarked)]
        rfl
      simp [swapped]
    · exact Option.filter_some_pos (by simp [undeleted key l found])

/-- A key after a block is undone. -/
def undone (thunk : WorkUnitLMDBCommitmentThunk) (gone : Key → Option Offer)
    (find : Key → Option (Leaf Offer)) (key : Key) : Option (Leaf Offer) :=
  if thunk.existsPartialExec ∧ key = thunk.partialExecKey.val then
    some (plain thunk.preexecutePartialExecOffer)
  else if key ∈ thunk.uncommittedOffersVec.map Offer.key then none
  else (thunk.clearedOffers.find key).or (((gone key).map plain).or (find key))

/-- What `undo_thunk` relies on in the record of a block: `gone` are the offers it cancelled. -/
structure Recorded (thunk : WorkUnitLMDBCommitmentThunk) (gone : Key → Option Offer) : Prop where
  listed : Lists thunk.deletedKeys gone
  full : ∀ row ∈ thunk.deletedKeys, row.1.length = workUnitKeyLen
  undeleted : thunk.clearedOffers.Undeleted

section Undo

variable {book : OfferTrie} {rows : List (Key × Offer)} {gone : Key → Option Offer}

/-- The deleted offers come back one by one. -/
theorem insertAll_spec (valid : book.Valid workUnitKeyLen) (listed : Lists rows gone)
    (full : ∀ row ∈ rows, row.1.length = workUnitKeyLen) :
    ∃ book', rows.foldlM (fun trie kv => trie.insert .overwrite kv.1 kv.2) book = .ok book' ∧
      book'.Valid workUnitKeyLen ∧ ∀ key, book'.find key = ((gone key).map plain).or (book.find key) := by
  obtain ⟨book', run, valid', finds⟩ := Fallible.foldlM_total
    (f := fun (trie : OfferTrie) (kv : Key × Offer) => trie.insert .overwrite kv.1 kv.2)
    (fun done trie => trie.Valid workUnitKeyLen ∧ ∀ key,
      (∃ offer, (key, offer) ∈ done ∧ trie.find key = some (plain offer)) ∨
      (∀ offer, (key, offer) ∉ done) ∧ trie.find key = book.find key) (l := rows) (s := book)
    ⟨valid, fun key => Or.inr ⟨fun offer => List.not_mem_nil, rfl⟩⟩ (by
      rintro done ⟨key, offer⟩ trie start ⟨valid, finds⟩
      have room := full (key, offer) (start.subset (by simp))
      obtain ⟨trie', run, valid', inserted⟩ := MerkleTrie.insert_spec .overwrite offer valid
        workUnitKeyLen_pos room
      refine ⟨trie', run, valid', fun query => ?_⟩
      rw [inserted query]
      by_cases here : query = key
      · exact Or.inl ⟨offer, by simp [here], by rw [if_pos here]; rfl⟩
      · rw [if_neg here]
        refine (finds query).imp (fun ⟨offer', old, found⟩ => ⟨offer', by simp [old], found⟩) ?_
        rintro ⟨fresh, same⟩
        refine ⟨fun offer' there => ?_, same⟩
        rcases List.mem_append.mp there with old | new
        · exact fresh offer' old
        · exact here (congrArg Prod.fst (List.mem_singleton.mp new)))
  refine ⟨book', run, valid', fun key => ?_⟩
  rcases finds key with ⟨offer, there, found⟩ | ⟨absent, found⟩
  · rw [found, (listed key offer).mp there]
    rfl
  · have none : gone key = none := Option.eq_none_iff_forall_ne_some.mpr
      (fun offer there => absent offer ((listed key offer).mpr there))
    rw [found, none]
    rfl

variable {thunk : WorkUnitLMDBCommitmentThunk}

/-- Undoing the cancellations and the clearing. -/
theorem restoreCleared_undeleted (recorded : Recorded thunk gone) (undeleted : book.Undeleted)
    (key : Key) (l : Leaf Offer)
    (found : (thunk.clearedOffers.find key).or (((gone key).map plain).or (book.find key)) = some l) :
    l.marked .deleted = false := by
  rcases Option.or_eq_some_iff.mp found with cleared | ⟨-, found⟩
  · exact recorded.undeleted key l cleared
  · rcases Option.or_eq_some_iff.mp found with back | ⟨-, kept⟩
    · obtain ⟨offer, -, rfl⟩ := Option.map_eq_some_iff.mp back
      exact marked_plain _ _
    · exact undeleted key l kept

theorem restoreDeleted_spec (recorded : Recorded thunk gone)
    (start : book.Valid workUnitKeyLen ∨ book.Hollow workUnitKeyLen ∧ thunk.deletedKeys = []) :
    ∃ book', thunk.deletedKeys.foldlM (fun trie kv => trie.insert .overwrite kv.1 kv.2) book = .ok book' ∧
      (book'.Valid workUnitKeyLen ∨ book'.Hollow workUnitKeyLen) ∧
      ∀ key, book'.find key = ((gone key).map plain).or (book.find key) := by
  rcases start with valid | ⟨hollow, nothing⟩
  · obtain ⟨book', run, valid', finds⟩ := insertAll_spec valid recorded.listed recorded.full
    exact ⟨book', run, Or.inl valid', finds⟩
  · refine ⟨book, by rw [nothing]; rfl, Or.inr hollow, fun key => ?_⟩
    have none : gone key = none := by
      refine Option.eq_none_iff_forall_ne_some.mpr (fun offer there => ?_)
      have listed := (recorded.listed key offer).mpr there
      rw [nothing] at listed
      cases listed
    rw [none]
    rfl

/-- Undoing a block whose new offers are gone already. -/
theorem undoThunk_ragged (recorded : Recorded thunk gone) (undeleted : book.Undeleted)
    (start : book.Valid workUnitKeyLen ∨ book.Hollow workUnitKeyLen ∧ thunk.deletedKeys = [])
    (insertable : (thunk.clearedOffers.cleanSinglechildNodes thunk.partialExecKey.val).Insertable
      workUnitKeyLen thunk.partialExecKey.val)
    (same : (thunk.clearedOffers.cleanSinglechildNodes thunk.partialExecKey.val).find = thunk.clearedOffers.find)
    (none : thunk.uncommittedOffersVec = []) :
    ∃ book', MerkleWorkUnit.undoThunk book thunk = .ok book' ∧ Shaped workUnitKeyLen book'.root ∧
      ∀ key, book'.find key = undone thunk gone book.find key := by
  obtain ⟨book₁, run₁, start₁, find₁⟩ := restoreDeleted_spec recorded start
  obtain ⟨book₂, run₂, insertable₂, find₂⟩ := MerkleTrie.mergeIn_insertable start₁ insertable workUnitKeyLen_pos
  have finds : ∀ key, book₂.find key =
      (thunk.clearedOffers.find key).or (((gone key).map plain).or (book.find key)) := by
    intro key
    rw [find₂, find₁, same]
  have shaped := insertable₂.shaped workUnitKeyLen_pos
  have unmarked := MerkleTrie.performMarkedDeletions_unmarked shaped (fun key l found =>
    restoreCleared_undeleted recorded undeleted key l ((finds key).symm.trans found))
  rw [MerkleWorkUnit.undoThunk, run₁]
  simp only [bind, Except.bind, run₂, none, List.foldl_nil, unmarked]
  by_cases partly : thunk.existsPartialExec = true
  · obtain ⟨book₃, run₃, shaped₃, find₃⟩ := MerkleTrie.insert_insertable .overwrite
      thunk.preexecutePartialExecOffer insertable₂ workUnitKeyLen_pos thunk.partialExecKey.property
    refine ⟨book₃, by rw [if_pos partly, run₃], shaped₃, fun key => ?_⟩
    rw [find₃, finds, undone, none, List.map_nil]
    by_cases here : key = thunk.partialExecKey.val
    · rw [if_pos here, if_pos ⟨partly, here⟩]
      rfl
    · rw [if_neg here, if_neg (fun both => here both.2), if_neg List.not_mem_nil]
  · refine ⟨book₂, by rw [if_neg partly], shaped, fun key => ?_⟩
    rw [finds, undone, none, List.map_nil, if_neg (fun both => partly both.1), if_neg List.not_mem_nil]

/-- Undoing a block whose record is in order. -/
theorem undoThunk_valid (recorded : Recorded thunk gone) (valid : book.Valid workUnitKeyLen)
    (undeleted : book.Undeleted)
    (clean : (thunk.clearedOffers.cleanSinglechildNodes thunk.partialExecKey.val).Valid workUnitKeyLen)
    (same : (thunk.clearedOffers.cleanSinglechildNodes thunk.partialExecKey.val).find = thunk.clearedOffers.find) :
    ∃ book', MerkleWorkUnit.undoThunk book thunk = .ok book' ∧ book'.Valid workUnitKeyLen ∧
      ∀ key, book'.find key = undone thunk gone book.find key := by
  obtain ⟨book₁, run₁, valid₁, find₁⟩ := insertAll_spec valid recorded.listed recorded.full
  obtain ⟨book₂, run₂, valid₂, find₂⟩ := MerkleTrie.mergeIn_spec (Or.inl valid₁) clean workUnitKeyLen_pos
  have finds : ∀ key, book₂.find key =
      (thunk.clearedOffers.find key).or (((gone key).map plain).or (book.find key)) := by
    intro key
    rw [find₂, find₁, same]
  have undeleted₂ : OfferTrie.Undeleted book₂ := fun key l found =>
    restoreCleared_undeleted recorded undeleted key l ((finds key).symm.trans found)
  have marked := markAll_spec valid₂ (fun key listed => by
    obtain ⟨offer, -, rfl⟩ := List.mem_map.mp listed
    exact offer.length_key : ∀ key ∈ thunk.uncommittedOffersVec.map Offer.key, key.length = workUnitKeyLen)
  obtain ⟨book₃, rows, run₃, valid₃, find₃⟩ := marked.delete valid₂ undeleted₂
  have marks : thunk.uncommittedOffersVec.foldl (fun trie offer => (trie.markForDeletion offer.key).1) book₂ =
      markAll book₂ (thunk.uncommittedOffersVec.map Offer.key) := by
    rw [markAll, List.foldl_map]
  rw [MerkleWorkUnit.undoThunk, run₁]
  simp only [bind, Except.bind, run₂, marks, run₃]
  by_cases partly : thunk.existsPartialExec = true
  · obtain ⟨book₄, run₄, valid₄, find₄⟩ := MerkleTrie.insert_spec .overwrite
      thunk.preexecutePartialExecOffer valid₃ workUnitKeyLen_pos thunk.partialExecKey.property
    refine ⟨book₄, by rw [if_pos partly, run₄], valid₄, fun key => ?_⟩
    rw [find₄, undone]
    by_cases here : key = thunk.partialExecKey.val
    · rw [if_pos here, if_pos ⟨partly, here⟩]
      rfl
    · rw [if_neg here, if_neg (fun both => here both.2), find₃, finds]
  · refine ⟨book₃, by rw [if_neg partly], valid₃, fun key => ?_⟩
    rw [undone, if_neg (fun both => partly both.1), find₃, finds]

end Undo

end Speedex
