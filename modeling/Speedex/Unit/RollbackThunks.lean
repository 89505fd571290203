import Speedex.Unit.Runs
import Speedex.Unit.Rollback

set_option autoImplicit false

/- `rollback_thunks`: undoing blocks that are not persisted yet. -/
namespace Speedex

open TrieNode MerkleWorkUnit

section Undo

variable {thunk : WorkUnitLMDBCommitmentThunk} {book : OfferTrie}

theorem created_iff {key : Key} : thunk.effect.created key ≠ none ↔ key ∈ thunk.uncommittedOffersVec.map Offer.key := by
  rw [← Option.isSome_iff_ne_none, List.mem_map]
  exact List.find?_isSome.trans (by simp)

/-- Undoing a block means undoing its effect. -/
theorem undoThunk_spec (undoable : Undoable thunk) (valid : book.Valid workUnitKeyLen) (committed : book.Plain) :
    ∃ book', undoThunk book thunk = .ok book' ∧ book'.Valid workUnitKeyLen ∧ book'.Plain ∧
      book'.offers = thunk.effect.undo book.offers := by
  obtain ⟨book', run, valid', finds⟩ :=
    undoThunk_valid undoable.recorded valid committed.undeleted undoable.clean undoable.same
  have written : ∀ key, book'.find key = (thunk.effect.undo book.offers key).map plain := by
    intro key
    rw [finds, undone]
    by_cases fully : thunk.existsPartialExec = true ∧ key = thunk.partialExecKey.val
    · rw [if_pos fully, fully.2]
      exact (congrArg (Option.map plain) (BlockEffect.undo_partly (effect_partly thunk fully.1) book.offers)).symm
    · have other : ¬ thunk.effect.ExecutesPartly key := by
        intro partly
        cases exec : thunk.existsPartialExec with
        | false =>
          rw [BlockEffect.ExecutesPartly, effect_no_partly thunk exec] at partly
          cases partly
        | true =>
          rw [BlockEffect.ExecutesPartly, effect_partly thunk exec] at partly
          exact fully ⟨exec, (Option.some.inj partly).symm⟩
      rw [if_neg fully, BlockEffect.undo_fully other]
      by_cases new : thunk.effect.created key = none
      · rw [if_neg (fun listed => created_iff.mpr listed new), if_neg (not_not.mpr new), Option.map_or, Option.map_or,
          ← committed.find]
        congr 1
        cases there : thunk.clearedOffers.find key with
        | none => rw [effect_cleared.mpr there]; rfl
        | some l =>
          have value : thunk.effect.cleared key = some l.value := OfferTrie.offers_eq_some.mpr ⟨l, there, rfl⟩
          rw [value]
          exact congrArg some (undoable.old key l there new)
      · rw [if_pos (created_iff.mp new), if_pos new]
        rfl
  refine ⟨book', run, valid', fun key l found => ?_, funext fun key => ?_⟩
  · rw [written] at found
    obtain ⟨offer, -, rfl⟩ := Option.map_eq_some_iff.mp found
    rfl
  · rw [OfferTrie.offers, written, Option.map_map]
    exact Option.map_id'

/-- The loop of `rollback_thunks`. -/
theorem undoThunks_spec {records : List WorkUnitLMDBCommitmentThunk} (undoable : ∀ thunk ∈ records, Undoable thunk)
    (valid : book.Valid workUnitKeyLen) (committed : book.Plain) :
    ∃ book', records.foldlM undoThunk book = .ok book' ∧ book'.Valid workUnitKeyLen ∧ book'.Plain ∧
      book'.offers = BlockEffect.undoAll (records.map WorkUnitLMDBCommitmentThunk.effect) book.offers := by
  induction records generalizing book with
  | nil => exact ⟨book, rfl, valid, committed, rfl⟩
  | cons thunk records ih =>
    obtain ⟨here, later⟩ := List.forall_mem_cons.mp undoable
    obtain ⟨book₁, run₁, valid₁, committed₁, offers₁⟩ := undoThunk_spec here valid committed
    obtain ⟨book₂, run₂, valid₂, committed₂, offers₂⟩ := ih later valid₁ committed₁
    refine ⟨book₂, ?_, valid₂, committed₂, ?_⟩
    · rw [List.foldlM_cons, run₁]
      exact run₂
    · rw [offers₂, offers₁]
      rfl

end Undo

section Claim

variable {unit final : MerkleWorkUnit} {number : BitVec 64} {proposals : List MerkleWorkUnit}
  {records : List WorkUnitLMDBCommitmentThunk}

/-- The records of the blocks after a round. -/
def MerkleWorkUnit.later (unit : MerkleWorkUnit) (number : BitVec 64) : List WorkUnitLMDBCommitmentThunk :=
  unit.lmdbInstance.thunks.filter (fun thunk => number.ult thunk.currentBlockNumber)

/-- `rollback_thunks` leaves the book and the records of an earlier work unit. -/
def RollsBackTo (final : MerkleWorkUnit) (number : BitVec 64) (unit : MerkleWorkUnit) : Prop :=
  ∃ unit', final.rollbackThunks number = .ok unit' ∧ SameBook unit'.committedOffers unit.committedOffers ∧
    unit'.lmdbInstance.thunks = unit.lmdbInstance.thunks

theorem RunOutcome.later_iff (outcome : RunOutcome unit number proposals records final)
    (short : number.toNat + proposals.length < 2 ^ 64) (thunk : WorkUnitLMDBCommitmentThunk) (listed : thunk ∈ records) :
    number.ult thunk.currentBlockNumber = true := by
  obtain ⟨i, inside, rfl⟩ := List.mem_iff_getElem.mp listed
  rw [outcome.numbers i inside]
  have room := outcome.length
  rw [BitVec.ult_iff_lt, BitVec.lt_def, BitVec.toNat_add, BitVec.toNat_ofNat]
  omega

theorem RunOutcome.filter (outcome : RunOutcome unit number proposals records final)
    (short : number.toNat + proposals.length < 2 ^ 64)
    (older : ∀ thunk ∈ unit.lmdbInstance.thunks, ¬ number.ult thunk.currentBlockNumber = true) :
    final.later number = records ∧
      final.lmdbInstance.thunks.filter (fun thunk => !number.ult thunk.currentBlockNumber) = unit.lmdbInstance.thunks := by
  have later := outcome.later_iff short
  rw [MerkleWorkUnit.later, outcome.thunks, List.filter_append, List.filter_append]
  refine ⟨?_, ?_⟩
  · rw [List.filter_eq_nil_iff.mpr older, List.filter_eq_self.mpr later, List.nil_append]
  · rw [List.filter_eq_self.mpr (fun thunk listed => by simp [older thunk listed]),
      List.filter_eq_nil_iff.mpr (fun thunk listed => by simp [later thunk listed]), List.append_nil]

end Claim

section Sample

/-- Two blocks that execute 2 units of the sample offer each. Undone from the older to the newer, they
leave the 3 units that the newer one found. -/
theorem sampleRun : ∃ proposals final, Run (sampleUnit sampleBook) 1 proposals final ∧ proposals.length = 2 ∧
    (∀ proposal ∈ proposals, Funded proposal.committedOffers.entries) ∧
    ∃ unit', final.rollbackThunks 1 = .ok unit' ∧
      (unit'.committedOffers.find sampleOffer.key).map (fun l => l.value.amount) = some 3 := by
  refine ⟨_, _, .cons
    (@Block.validated _ _ _ _ _ [] [] false sampleEffects _ ⟨0⟩ _ sampleCommitment sampleChecker nofun rfl rfl rfl)
    (.cons
      (@Block.validated _ _ _ _ _ [] [] false sampleEffects _ ⟨0⟩ _ sampleCommitment sampleChecker nofun rfl rfl rfl)
      (.nil _ _)), rfl, ?_, _, rfl, ?_⟩
  · refine List.forall_mem_cons.mpr ⟨⟨by decide, by decide⟩, ?_⟩
    exact List.forall_mem_cons.mpr ⟨⟨by decide, by decide⟩, nofun⟩
  · decide

theorem settled_sample : Settled (sampleUnit sampleBook) where
  valid := sampleBook_valid
  plain key l found := by
    rw [sampleUnit, find_sampleBook] at found
    split_ifs at found
    exact (Option.some.inj found).symm ▸ rfl
  idle := rfl

end Sample

end Speedex
