import Speedex.Unit.Commit

set_option autoImplicit false

/- The committed offers while a block is proposed: which of them are new, and what is left of the
book without them. -/
namespace Speedex

open TrieNode MerkleWorkUnit

section Proposed

/-- A work unit whose committed offers were `book` when the block arrived. -/
structure Proposed (insertFn : InsertFn) (book : OfferTrie) (keys : List OfferKeyType) (news : OfferTrie) (unit : MerkleWorkUnit)
    (thunk : WorkUnitLMDBCommitmentThunk) : Prop where
  valid : book.Valid workUnitKeyLen
  settled : book.Plain
  new : ∀ key l, news.find key = some l → l = written insertFn l.value ∧ book.find key = none
  committed : TentativelyCommitted book keys news unit thunk

variable {insertFn : InsertFn} {book news : OfferTrie} {keys : List OfferKeyType} {unit : MerkleWorkUnit}
  {thunk : WorkUnitLMDBCommitmentThunk} {key : Key} {l : Leaf Offer}

/-- A leaf of the work unit is a new offer or one of the book that is not cancelled. -/
theorem Proposed.cases (proposed : Proposed insertFn book keys news unit thunk)
    (found : unit.committedOffers.find key = some l) :
    (l = written insertFn l.value ∧ book.find key = none) ∨
      (l = plain l.value ∧ remainingOffers book keys key = some l ∧ book.find key = some l) := by
  rw [proposed.committed.find, Option.or_eq_some_iff] at found
  rcases found with new | ⟨-, old⟩
  · exact Or.inl (proposed.new key l new)
  · refine Or.inr ⟨?_, old, ?_⟩
    · rw [remainingOffers] at old
      split_ifs at old
      exact proposed.settled key l old
    · rw [remainingOffers] at old
      split_ifs at old
      exact old

theorem Proposed.undeleted (proposed : Proposed insertFn book keys news unit thunk) : unit.committedOffers.Undeleted := by
  intro key l found
  rcases proposed.cases found with ⟨form, -⟩ | ⟨form, -⟩
  · rw [form, marked_written]
  · rw [form, marked_plain]

theorem Proposed.new_absent (proposed : Proposed .rollback book keys news unit thunk)
    (found : unit.committedOffers.find key = some l) (new : l.marked .rollback = true) : book.find key = none := by
  rcases proposed.cases found with ⟨-, absent⟩ | ⟨form, -⟩
  · exact absent
  · rw [form, marked_plain] at new
    cases new

theorem Proposed.old_present (proposed : Proposed .rollback book keys news unit thunk)
    (found : unit.committedOffers.find key = some l) (old : l.marked .rollback = false) :
    l = plain l.value ∧ book.find key = some l := by
  rcases proposed.cases found with ⟨form, -⟩ | ⟨form, -, there⟩
  · rw [form, marked_tentative] at old
    cases old
  · exact ⟨form, there⟩

/-- A cancelled offer is not in the work unit any more. -/
theorem Proposed.cancelled_absent (proposed : Proposed insertFn book keys news unit thunk)
    (found : unit.committedOffers.find key = some l) : cancelledOffers book keys key = none := by
  rw [cancelledOffers]
  split_ifs with cancelled
  · rcases proposed.cases found with ⟨-, absent⟩ | ⟨-, remaining, -⟩
    · rw [absent]
      rfl
    · rw [remainingOffers, if_pos cancelled] at remaining
      cases remaining
  · rfl

/-- Without the new offers and with the cancelled ones the work unit is the book again. -/
theorem Proposed.restored (proposed : Proposed .rollback book keys news unit thunk) (key : Key) :
    ((cancelledOffers book keys key).map plain).or
      ((unit.committedOffers.find key).filter (fun l => !l.marked .rollback)) = book.find key := by
  cases found : unit.committedOffers.find key with
  | some l =>
    rw [proposed.cancelled_absent found, Option.map_none, Option.none_or]
    cases mark : l.marked .rollback with
    | true => rw [Option.filter_some_neg (by simp [mark]), proposed.new_absent found mark]
    | false => rw [Option.filter_some_pos (by simp [mark]), (proposed.old_present found mark).2]
  | none =>
    have absent := found
    rw [proposed.committed.find, Option.or_eq_none_iff, remainingOffers] at absent
    rw [cancelledOffers, Option.filter_none, Option.or_none]
    split_ifs at absent ⊢ with cancelled
    · cases there : book.find key with
      | none => rfl
      | some l => exact congrArg some (proposed.settled key l there).symm
    · exact absent.2.symm

theorem undeleted_empty : OfferTrie.empty.Undeleted := by
  intro key l found
  rw [OfferTrie.empty, MerkleTrie.find_new] at found
  cases found

end Proposed

end Speedex
