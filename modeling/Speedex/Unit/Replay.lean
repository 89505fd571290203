import Mathlib.Algebra.BigOperators.Group.List.Basic
import Speedex.Ledger.AccountView
import Speedex.Ledger.Directory
import Speedex.Library.Agreement
import Speedex.Library.Parallel
import Speedex.Unit.Manager

set_option autoImplicit false

/- `merkle_work_unit_manager.cc`: the loop that clears all work units for validation, and its copy for the replay of
persisted blocks. -/
namespace Speedex

open Fallible

/-- What a loop over the work units changes; `cleared` lists the units that it has cleared. -/
structure ClearingLoop where
  workUnits : List MerkleWorkUnit
  statistics : List SingleValidationStatistics
  effects : ClearingEffects
  existsFailure : Bool
  cleared : List Nat

namespace ClearingLoop

/-- The call of `tentative_clear_offers_for_validation` for one unit. -/
def clearUnit (checker : WorkUnitStateCommitmentChecker) (state : ClearingLoop) (i : Nat) :
    Except String (Bool × ClearingLoop) :=
  match state.workUnits[i]?, state.statistics[i]?, checker.commitments[i]? with
  | some unit, some statistics, some localClearingLog => do
    let (res, unit, effects, statistics) ← unit.tentativeClearOffersForValidation state.effects statistics
      localClearingLog checker
    .ok (res, { state with
      workUnits := state.workUnits.set i unit
      statistics := state.statistics.set i statistics
      effects := effects
      cleared := state.cleared ++ [i] })
  | _, _, _ => .error "index out of range"

/-- The body of the loop for validation: a unit that fails ends its range. -/
def validationBody (checker : WorkUnitStateCommitmentChecker) : List Nat → ClearingLoop → Except String ClearingLoop
  | [], state => .ok state
  | i :: range, state => do
    let (res, state) ← state.clearUnit checker i
    if !res then .ok { state with existsFailure := true } else validationBody checker range state

/-- The unit has not persisted the block yet. -/
def stale (currentBlockNumber : BitVec 64) (state : ClearingLoop) (i : Nat) : Bool :=
  match state.workUnits[i]? with
  | some unit => unit.lmdbInstance.persistedRoundNumber.ult currentBlockNumber
  | none => false

/-- The body of the loop for replay, where a unit that succeeds ends its range. -/
def loadingBody (checker : WorkUnitStateCommitmentChecker) (currentBlockNumber : BitVec 64) :
    List Nat → ClearingLoop → Except String ClearingLoop
  | [], state => .ok state
  | i :: range, state =>
    if state.stale currentBlockNumber i then do
      let (res, state) ← state.clearUnit checker i
      if res then .ok { state with existsFailure := true } else loadingBody checker currentBlockNumber range state
    else loadingBody checker currentBlockNumber range state

end ClearingLoop

/-- `make_minimum_size`. -/
def makeMinimumSize (stats : List SingleValidationStatistics) (sz : Nat) : List SingleValidationStatistics :=
  stats ++ List.replicate (sz + 1 - stats.length) ⟨0⟩

namespace MerkleWorkUnitManager

/-- Where both loops start. -/
def startClearing (manager : MerkleWorkUnitManager) (effects : ClearingEffects)
    (validationStatistics : List SingleValidationStatistics) : ClearingLoop where
  workUnits := manager.workUnits
  statistics := makeMinimumSize validationStatistics manager.workUnits.length
  effects := effects
  existsFailure := false
  cleared := []

variable (division : Parallel.Division Nat) (order : Parallel.Interleaving (List Nat))

/-- The manager's `tentative_clear_offers_for_validation`; the ranges run in any order. -/
def tentativeClearOffersForValidation (manager : MerkleWorkUnitManager) (effects : ClearingEffects)
    (validationStatistics : List SingleValidationStatistics) (clearingCommitmentLog : WorkUnitStateCommitmentChecker) :
    Except String (Bool × ClearingLoop) := do
  let state ← (order.run (division.run (List.range manager.workUnits.length))).foldlM
    (fun state range => ClearingLoop.validationBody clearingCommitmentLog range state)
    (manager.startClearing effects validationStatistics)
  .ok (!state.existsFailure, state)

/-- `clear_offers_for_data_loading`. -/
def clearOffersForDataLoading (manager : MerkleWorkUnitManager) (effects : ClearingEffects)
    (validationStatistics : List SingleValidationStatistics) (clearingCommitmentLog : WorkUnitStateCommitmentChecker)
    (currentBlockNumber : BitVec 64) : Except String (Bool × ClearingLoop) := do
  let state ← (order.run (division.run (List.range manager.workUnits.length))).foldlM
    (fun state range => ClearingLoop.loadingBody clearingCommitmentLog currentBlockNumber range state)
    (manager.startClearing effects validationStatistics)
  .ok (state.existsFailure, state)

end MerkleWorkUnitManager

section Databases

variable {db₀ db db' : MemoryDatabase} {credit : Nat → AssetID → BitVec 64}

/-- Two databases with the accounts of a third, where the balances of one are ahead by a credit. -/
structure Beside (db₀ : MemoryDatabase) (credit : Nat → AssetID → BitVec 64) (db db' : MemoryDatabase) : Prop where
  lookup : ∀ owner, db.lookupUserId owner = db₀.lookupUserId owner
  size : db.size = db₀.size
  lookup' : ∀ owner, db'.lookupUserId owner = db₀.lookupUserId owner
  size' : db'.size = db₀.size
  available : ∀ idx asset, db'.available idx asset = db.available idx asset + credit idx asset

theorem MemoryDatabase.transferAvailable_spec (db : MemoryDatabase) (idx : Nat) (asset : AssetID) (change : BitVec 64) :
    db.transferAvailable idx asset change = .error "invalid db idx access" ∧ db.size ≤ idx ∨
    ∃ db', db.transferAvailable idx asset change = .ok db' ∧ idx < db.size ∧ db'.size = db.size ∧
      (∀ owner, db'.lookupUserId owner = db.lookupUserId owner) ∧
      ∀ other b, db'.available other b =
        if other = idx ∧ b = asset then db.available other b + change else db.available other b := by
  rw [MemoryDatabase.transferAvailable, MemoryDatabase.findAccount]
  cases present : db.database[idx]? with
  | none => exact .inl ⟨rfl, List.getElem?_eq_none_iff.mp present⟩
  | some account =>
    have inside : idx < db.database.length := (List.getElem?_eq_some_iff.mp present).1
    refine .inr ⟨db.setAccount idx (account.transferAvailable asset change), rfl, inside, List.length_set,
      fun _ => rfl, ?_⟩
    intro other b
    rw [MemoryDatabase.available, MemoryDatabase.available, MemoryDatabase.setAccount, List.getElem?_set]
    by_cases here : idx = other
    · subst here
      rw [if_pos rfl, if_pos inside, present]
      dsimp only
      rw [UserAccount.available_transferAvailable]
      by_cases same : b = asset
      · rw [if_pos same, if_pos ⟨rfl, same⟩, same]
      · rw [if_neg same, if_neg (fun both => same both.2)]
    · rw [if_neg here, if_neg (fun both => here both.1.symm)]

theorem Beside.transferAvailable (beside : Beside db₀ credit db db') (idx : Nat) (asset : AssetID) (change : BitVec 64) :
    Fallible.Agrees (Beside db₀ credit) (db.transferAvailable idx asset change) (db'.transferAvailable idx asset change) := by
  have size := beside.size
  have size' := beside.size'
  obtain ⟨thrown, outside⟩ | ⟨db₁, done, inside, kept, lookups, available⟩ := db.transferAvailable_spec idx asset change
  · obtain ⟨thrown', -⟩ | ⟨db₁', -, inside', -⟩ := db'.transferAvailable_spec idx asset change
    · rw [thrown, thrown']
      exact .error _
    · omega
  · obtain ⟨-, outside'⟩ | ⟨db₁', done', -, kept', lookups', available'⟩ :=
      db'.transferAvailable_spec idx asset change
    · omega
    · rw [done, done']
      refine .ok ⟨fun owner => (lookups owner).trans (beside.lookup owner), kept.trans size,
        fun owner => (lookups' owner).trans (beside.lookup' owner), kept'.trans size', ?_⟩
      intro other b
      rw [available, available', beside.available]
      split
      · rw [BitVec.add_assoc, BitVec.add_comm (credit other b), ← BitVec.add_assoc]
      · rfl

/-- The same for all effects: both logs have since got the same entries. -/
structure Abreast (db₀ : MemoryDatabase) (credit : Nat → AssetID → BitVec 64) (log log' : SerialAccountModificationLog)
    (effects effects' : ClearingEffects) : Prop where
  db : Beside db₀ credit effects.db effects'.db
  logged : ∃ entries, effects.serialAccountLog = log ++ entries ∧ effects'.serialAccountLog = log' ++ entries

theorem Abreast.note {log log' : SerialAccountModificationLog} {effects effects' : ClearingEffects}
    (abreast : Abreast db₀ credit log log' effects effects') (beside : Beside db₀ credit db db') (entry : LogEntry) :
    Abreast db₀ credit log log' { db := db, serialAccountLog := effects.serialAccountLog ++ [entry] }
      { db := db', serialAccountLog := effects'.serialAccountLog ++ [entry] } := by
  obtain ⟨entries, here, there⟩ := abreast.logged
  refine ⟨beside, entries ++ [entry], ?_, ?_⟩
  · rw [here, List.append_assoc]
  · rw [there, List.append_assoc]

end Databases

section Units

variable {db₀ : MemoryDatabase} {credit : Nat → AssetID → BitVec 64} {effects effects' : ClearingEffects}
  {before before' : SerialAccountModificationLog}

theorem TrieNode.apply_agrees {V α β : Type} {R : α → β → Prop} {f : V → α → Except String α}
    {g : V → β → Except String β} (step : ∀ value a b, R a b → Fallible.Agrees R (f value a) (g value b)) (t : TrieNode V)
    {a : α} {b : β} (start : R a b) : Fallible.Agrees R (t.apply f a) (t.apply g b) := by
  induction t using TrieNode.induct generalizing a b with
  | leaf key value metadata hash =>
    rw [TrieNode.apply, TrieNode.apply]
    by_cases one : metadata.size ≠ 1
    · rw [if_pos one, if_pos one]
      exact .error _
    · rw [if_neg one, if_neg one]
      exact step value a b start
  | node pfx len children metadata hash ih =>
    rw [TrieNode.apply, TrieNode.apply]
    refine Fallible.Agrees.foldlM ?_ _ start
    intro digit a b related
    cases occupied : children digit with
    | none => exact .ok related
    | some c =>
      rw [TrieNode.applySlot, TrieNode.applySlot]
      exact ih digit c occupied related

theorem completeClearingFunc_agrees (sellPrice buyPrice : Price) (taxRate : BitVec 8) (offer : Offer)
    (abreast : Abreast db₀ credit before before' effects effects') :
    Fallible.Agrees (Abreast db₀ credit before before') (completeClearingFunc sellPrice buyPrice taxRate offer effects)
      (completeClearingFunc sellPrice buyPrice taxRate offer effects') := by
  rw [completeClearingFunc, completeClearingFunc, abreast.db.lookup, abreast.db.lookup']
  split
  · exact .error _
  · split
    · exact .error _
    · cases db₀.lookupUserId offer.owner with
      | none => exact .error _
      | some idx => exact (abreast.db.transferAvailable _ _ _).bind (fun db db' beside => .ok (abreast.note beside _))

/-- What clearing a unit gives does not depend on the balances. -/
def SameOutcome (db₀ : MemoryDatabase) (credit : Nat → AssetID → BitVec 64) (before before' : SerialAccountModificationLog)
    (result result' : Bool × MerkleWorkUnit × ClearingEffects × SingleValidationStatistics) : Prop :=
  result.1 = result'.1 ∧ result.2.1 = result'.2.1 ∧ result.2.2.2 = result'.2.2.2 ∧
    Abreast db₀ credit before before' result.2.2.1 result'.2.2.1

theorem clear_agrees (unit : MerkleWorkUnit) (statistics : SingleValidationStatistics)
    (log : SingleWorkUnitStateCommitment) (checker : WorkUnitStateCommitmentChecker)
    (abreast : Abreast db₀ credit before before' effects effects') :
    Fallible.Agrees (SameOutcome db₀ credit before before') (unit.tentativeClearOffersForValidation effects statistics log checker)
      (unit.tentativeClearOffersForValidation effects' statistics log checker) := by
  have func := fun sellPrice buyPrice offer effects effects' (abreast : Abreast db₀ credit before before' effects effects') =>
    completeClearingFunc_agrees sellPrice buyPrice checker.taxRate offer abreast
  rw [MerkleWorkUnit.tentativeClearOffersForValidation, MerkleWorkUnit.tentativeClearOffersForValidation]
  rcases unit.committedOffers.performDeletion workUnitKeyLen log.partialExecThresholdKey.val with ⟨trie, object⟩
  cases object with
  | none =>
    simp only [MerkleWorkUnit.clearEverything]
    by_cases named : log.partialExecThresholdKey ≠ zeroKey
    · rw [if_pos named, if_pos named]
      exact .ok ⟨rfl, rfl, rfl, abreast⟩
    · rw [if_neg named, if_neg named]
      by_cases partly : log.partialExecOfferActivationAmount ≠ FractionalAsset.fromIntegral 0
      · rw [if_pos partly, if_pos partly]
        exact .ok ⟨rfl, rfl, rfl, abreast⟩
      · rw [if_neg partly, if_neg partly]
        refine (trie.root.apply_agrees (func _ _) abreast).bind (fun e e' abreast => ?_)
        cases unit.lmdbInstance.getTopThunk with
        | error what => exact .error what
        | ok thunk => exact .ok ⟨rfl, rfl, rfl, abreast⟩
  | some offer =>
    simp only [MerkleWorkUnit.clearUpToPartial]
    rw [abreast.db.lookup, abreast.db.lookup']
    cases db₀.lookupUserId offer.owner with
    | none =>
      cases trie.insert .overwrite log.partialExecThresholdKey.val offer with
      | error what => exact .error what
      | ok inserted => exact .ok ⟨rfl, rfl, rfl, abreast.note abreast.db _⟩
    | some idx =>
      refine (abreast.db.transferAvailable idx _ _).bind (fun db db' beside => ?_)
      have abreast := abreast.note beside (.selfModification offer.owner offer.offerId)
      by_cases excess : offer.amount.ult (partialSellAmount log.partialExecOfferActivationAmount) = true
      · rw [if_pos excess, if_pos excess]
        cases trie.insert .overwrite log.partialExecThresholdKey.val offer with
        | error what => exact .error what
        | ok inserted => exact .ok ⟨rfl, rfl, rfl, abreast⟩
      · rw [if_neg excess, if_neg excess]
        cases unit.lmdbInstance.getTopThunk with
        | error what => exact .error what
        | ok thunk =>
          cases trie.endowSplit workUnitKeyLen (unit.committedOffers.endowLtKey log.partialExecThresholdKey.val) with
          | error what => exact .error what
          | ok parts =>
            refine (parts.1.root.apply_agrees (func _ _) abreast).bind (fun e e' abreast => ?_)
            cases MerkleWorkUnit.insertReduced parts.2 log.partialExecThresholdKey.val { offer with
              amount := offer.amount - partialSellAmount log.partialExecOfferActivationAmount } with
            | error what => exact .error what
            | ok left => exact .ok ⟨rfl, rfl, rfl, abreast⟩

end Units

section Loops

variable (checker : WorkUnitStateCommitmentChecker) (start : ClearingLoop)

/-- The clearing of a unit on its own throws nothing, and accepts or fails. -/
def accepts (i : Nat) : Bool :=
  match start.clearUnit checker i with
  | .ok (accepted, _) => accepted
  | .error _ => false

def fails (i : Nat) : Bool :=
  match start.clearUnit checker i with
  | .ok (accepted, _) => !accepted
  | .error _ => false

/-- What clearing a unit on its own pays to an account. -/
def creditOf (i idx : Nat) (asset : AssetID) : BitVec 64 :=
  match start.clearUnit checker i with
  | .ok (_, after) => after.effects.db.available idx asset - start.effects.db.available idx asset
  | .error _ => 0

/-- What clearing a unit on its own adds to the log. -/
def entriesOf (i : Nat) : SerialAccountModificationLog :=
  match start.clearUnit checker i with
  | .ok (_, after) => after.effects.serialAccountLog.drop start.effects.serialAccountLog.length
  | .error _ => []

/-- Every unit of the list is as its own clearing leaves it, the others are as they were, and all payments
have been made and logged. -/
structure Cleared (done : List Nat) (state : ClearingLoop) : Prop where
  cleared : state.cleared = done
  results : ∀ i ∈ done, ∃ accepted after, start.clearUnit checker i = .ok (accepted, after) ∧
    state.workUnits[i]? = after.workUnits[i]? ∧ state.statistics[i]? = after.statistics[i]?
  others : ∀ i ∉ done, state.workUnits[i]? = start.workUnits[i]? ∧ state.statistics[i]? = start.statistics[i]?
  db : Beside start.effects.db (fun idx asset => (done.map (fun i => creditOf checker start i idx asset)).sum)
    start.effects.db state.effects.db
  logged : state.effects.serialAccountLog = start.effects.serialAccountLog ++ done.flatMap (entriesOf checker start)

variable {checker start} {done : List Nat} {state : ClearingLoop}

theorem cleared_start (fresh : start.cleared = []) : Cleared checker start [] start where
  cleared := fresh
  results i absurd := by cases absurd
  others i _ := ⟨rfl, rfl⟩
  db := by
    refine ⟨fun _ => rfl, rfl, fun _ => rfl, rfl, ?_⟩
    intro idx asset
    rw [List.map_nil, List.sum_nil, add_zero]
  logged := by rw [List.flatMap_nil, List.append_nil]

/-- A further unit is cleared as on its own, whatever has been cleared before. -/
theorem Cleared.clearUnit (cleared : Cleared checker start done state) {i : Nat} (fresh : i ∉ done) :
    Fallible.Agrees (fun result result' => result.1 = result'.1 ∧ Cleared checker start (done ++ [i]) result'.2 ∧
        result'.2.existsFailure = state.existsFailure)
      (start.clearUnit checker i) (state.clearUnit checker i) := by
  obtain ⟨unitKept, statisticsKept⟩ := cleared.others i fresh
  cases own : start.workUnits[i]? with
  | none =>
    rw [ClearingLoop.clearUnit, ClearingLoop.clearUnit, unitKept, own]
    exact .error _
  | some unit =>
    cases counted : start.statistics[i]? with
    | none =>
      rw [ClearingLoop.clearUnit, ClearingLoop.clearUnit, unitKept, statisticsKept, own, counted]
      exact .error _
    | some statistics =>
      cases logged : checker.commitments[i]? with
      | none =>
        rw [ClearingLoop.clearUnit, ClearingLoop.clearUnit, unitKept, statisticsKept, own, counted, logged]
        exact .error _
      | some log =>
        have abreast : Abreast start.effects.db _ start.effects.serialAccountLog state.effects.serialAccountLog start.effects
            state.effects := ⟨cleared.db, [], (List.append_nil _).symm, (List.append_nil _).symm⟩
        have agrees := clear_agrees unit statistics log checker abreast
        have alone : start.clearUnit checker i = (do
            let (res, unit, effects, statistics) ← unit.tentativeClearOffersForValidation start.effects statistics log checker
            .ok (res, { start with
              workUnits := start.workUnits.set i unit
              statistics := start.statistics.set i statistics
              effects := effects
              cleared := start.cleared ++ [i] })) := by
          rw [ClearingLoop.clearUnit, own, counted, logged]
        have later : state.clearUnit checker i = (do
            let (res, unit, effects, statistics) ← unit.tentativeClearOffersForValidation state.effects statistics log checker
            .ok (res, { state with
              workUnits := state.workUnits.set i unit
              statistics := state.statistics.set i statistics
              effects := effects
              cleared := state.cleared ++ [i] })) := by
          rw [ClearingLoop.clearUnit, unitKept, statisticsKept, own, counted, logged]
        cases run : unit.tentativeClearOffersForValidation start.effects statistics log checker with
        | error what =>
          rw [run] at agrees alone
          cases run' : unit.tentativeClearOffersForValidation state.effects statistics log checker with
          | ok result =>
            rw [run'] at agrees
            cases agrees
          | error what' =>
            rw [run'] at agrees later
            cases agrees
            rw [alone, later]
            exact .error _
        | ok result =>
          rw [run] at agrees alone
          obtain ⟨result', run', accepted, sameUnit, sameStatistics, beside, entries, logged, logged'⟩ := agrees.of_ok
          rw [run'] at later
          rw [alone, later]
          have unitSlot : i < start.workUnits.length := (List.getElem?_eq_some_iff.mp own).1
          have statisticsSlot : i < start.statistics.length := (List.getElem?_eq_some_iff.mp counted).1
          have unitSlot' : i < state.workUnits.length := (List.getElem?_eq_some_iff.mp (unitKept.trans own)).1
          have statisticsSlot' : i < state.statistics.length :=
            (List.getElem?_eq_some_iff.mp (statisticsKept.trans counted)).1
          refine .ok ⟨accepted, ⟨?_, ?_, ?_, ?_, ?_⟩, rfl⟩
          · show state.cleared ++ [i] = done ++ [i]
            rw [cleared.cleared]
          · intro j member
            by_cases here : j = i
            · subst here
              refine ⟨_, _, alone, ?_, ?_⟩
              · show (state.workUnits.set j result'.2.1)[j]? = (start.workUnits.set j result.2.1)[j]?
                rw [List.getElem?_set_self unitSlot', List.getElem?_set_self unitSlot, sameUnit]
              · show (state.statistics.set j result'.2.2.2)[j]? = (start.statistics.set j result.2.2.2)[j]?
                rw [List.getElem?_set_self statisticsSlot', List.getElem?_set_self statisticsSlot, sameStatistics]
            · have earlier : j ∈ done := by
                rcases List.mem_append.mp member with earlier | last
                · exact earlier
                · exact absurd (List.mem_singleton.mp last) here
              obtain ⟨accepted', after, ran, unit', statistics'⟩ := cleared.results j earlier
              refine ⟨accepted', after, ran, ?_, ?_⟩
              · show (state.workUnits.set i result'.2.1)[j]? = _
                rw [List.getElem?_set_ne (fun same => here same.symm), unit']
              · show (state.statistics.set i result'.2.2.2)[j]? = _
                rw [List.getElem?_set_ne (fun same => here same.symm), statistics']
          · intro j absent
            have here : i ≠ j := fun same => absent (List.mem_append_right _ (List.mem_singleton.mpr same.symm))
            obtain ⟨unit', statistics'⟩ := cleared.others j (fun member => absent (List.mem_append_left _ member))
            constructor
            · show (state.workUnits.set i result'.2.1)[j]? = _
              rw [List.getElem?_set_ne here, unit']
            · show (state.statistics.set i result'.2.2.2)[j]? = _
              rw [List.getElem?_set_ne here, statistics']
          · refine ⟨fun _ => rfl, rfl, beside.lookup', beside.size', ?_⟩
            intro idx asset
            have own : creditOf checker start i idx asset =
                result.2.2.1.db.available idx asset - start.effects.db.available idx asset := by
              rw [creditOf, alone]
              rfl
            show result'.2.2.1.db.available idx asset = _
            rw [beside.available, List.map_append, List.sum_append, List.map_singleton, List.sum_singleton, own]
            generalize (done.map (fun i => creditOf checker start i idx asset)).sum = earlier
            calc result.2.2.1.db.available idx asset + earlier
              _ = result.2.2.1.db.available idx asset - start.effects.db.available idx asset +
                  start.effects.db.available idx asset + earlier := by rw [BitVec.sub_add_cancel]
              _ = start.effects.db.available idx asset + (earlier +
                  (result.2.2.1.db.available idx asset - start.effects.db.available idx asset)) := by
                rw [BitVec.add_comm (_ - _), BitVec.add_assoc, BitVec.add_comm (_ - _)]
          · have own : entriesOf checker start i = entries := by
              rw [entriesOf, alone]
              show result.2.2.1.serialAccountLog.drop start.effects.serialAccountLog.length = entries
              rw [logged, List.drop_left]
            show result'.2.2.1.serialAccountLog = _
            rw [logged', cleared.logged, List.append_assoc, List.flatMap_append, List.flatMap_singleton, own]

theorem Cleared.stale_eq (cleared : Cleared checker start done state) (currentBlockNumber : BitVec 64) {i : Nat}
    (fresh : i ∉ done) : state.stale currentBlockNumber i = start.stale currentBlockNumber i := by
  rw [ClearingLoop.stale, ClearingLoop.stale, (cleared.others i fresh).1]

variable (checker start) in
/-- The units of a range that the loop for replay comes to clear: it stops after the first success. -/
def loadingReach (currentBlockNumber : BitVec 64) : List Nat → List Nat
  | [] => []
  | i :: range =>
    if start.stale currentBlockNumber i then
      if accepts checker start i then [i] else i :: loadingReach currentBlockNumber range
    else loadingReach currentBlockNumber range

variable {currentBlockNumber : BitVec 64}

theorem loadingReach_sublist (range : List Nat) :
    (loadingReach checker start currentBlockNumber range).Sublist (range.filter (start.stale currentBlockNumber)) := by
  induction range with
  | nil => exact List.Sublist.refl _
  | cons i range ih =>
    rw [loadingReach]
    by_cases behind : start.stale currentBlockNumber i = true
    · rw [if_pos behind, List.filter_cons_of_pos behind]
      by_cases accepted : accepts checker start i = true
      · rw [if_pos accepted]
        exact List.Sublist.cons_cons _ (List.nil_sublist _)
      · rw [if_neg accepted]
        exact List.Sublist.cons_cons _ ih
    · rw [if_neg behind, List.filter_cons_of_neg behind]
      exact ih

theorem mem_loadingReach {range : List Nat} {i : Nat} (member : i ∈ loadingReach checker start currentBlockNumber range) :
    i ∈ range ∧ start.stale currentBlockNumber i = true :=
  List.mem_filter.mp ((loadingReach_sublist range).subset member)

/-- The loop reaches all stale units if and only if none but the last of them succeeds. -/
theorem loadingReach_eq_iff (range : List Nat) :
    loadingReach checker start currentBlockNumber range = range.filter (start.stale currentBlockNumber) ↔
      range.Pairwise (fun i j => start.stale currentBlockNumber i = true → start.stale currentBlockNumber j = true →
        accepts checker start i = false) := by
  induction range with
  | nil => exact iff_of_true rfl List.Pairwise.nil
  | cons i range ih =>
    rw [loadingReach, List.pairwise_cons, ← ih]
    by_cases behind : start.stale currentBlockNumber i = true
    · rw [if_pos behind, List.filter_cons_of_pos behind]
      cases accepted : accepts checker start i with
      | true =>
        rw [if_pos rfl, List.cons.injEq]
        constructor
        · intro both
          have none := both.2.symm
          refine ⟨fun j member _ behind' => ?_, ?_⟩
          · exact absurd behind' (List.filter_eq_nil_iff.mp none j member)
          · have bare := @loadingReach_sublist checker start currentBlockNumber range
            rw [none] at bare ⊢
            exact List.sublist_nil.mp bare
        · intro both
          refine ⟨rfl, (List.filter_eq_nil_iff.mpr ?_).symm⟩
          intro j member behind'
          exact absurd (both.1 j member behind behind') (by decide)
      | false =>
        rw [if_neg (by decide), List.cons.injEq]
        exact ⟨fun same => ⟨fun _ _ _ _ => rfl, same.2⟩, fun both => ⟨rfl, both.2⟩⟩
    · rw [if_neg behind, List.filter_cons_of_neg behind]
      exact ⟨fun same => ⟨fun _ _ absurd => (behind absurd).elim, same⟩, fun both => both.2⟩

/-- A unit that throws nothing on its own is cleared later with the same result. -/
theorem Cleared.clearUnit_ok (cleared : Cleared checker start done state) {i : Nat} (fresh : i ∉ done)
    (returns : accepts checker start i = true ∨ fails checker start i = true) :
    ∃ state', state.clearUnit checker i = .ok (accepts checker start i, state') ∧
      Cleared checker start (done ++ [i]) state' ∧ state'.existsFailure = state.existsFailure := by
  have agrees := cleared.clearUnit fresh
  rw [accepts, fails] at returns
  rw [accepts]
  cases alone : start.clearUnit checker i with
  | error what =>
    rw [alone] at returns
    simp at returns
  | ok result =>
    rw [alone] at agrees
    obtain ⟨result', run, same, kept⟩ := agrees.of_ok
    refine ⟨result'.2, ?_, kept⟩
    show state.clearUnit checker i = .ok (result.1, result'.2)
    rw [run, same]

/-- A range of the loop for replay, when no stale unit of it throws. -/
theorem loadingBody_spec {range : List Nat} (nodup : range.Nodup)
    (returns : ∀ i ∈ range, start.stale currentBlockNumber i = true →
      accepts checker start i = true ∨ fails checker start i = true)
    (cleared : Cleared checker start done state) (fresh : ∀ i ∈ range, i ∉ done) :
    ∃ state', ClearingLoop.loadingBody checker currentBlockNumber range state = .ok state' ∧
      Cleared checker start (done ++ loadingReach checker start currentBlockNumber range) state' ∧
      (state'.existsFailure = true ↔ state.existsFailure = true ∨
        ∃ i ∈ range, start.stale currentBlockNumber i = true ∧ accepts checker start i = true) := by
  induction range generalizing done state with
  | nil =>
    refine ⟨state, rfl, ?_, ?_⟩
    · rw [loadingReach, List.append_nil]
      exact cleared
    · simp
  | cons i range ih =>
    have first := fresh i List.mem_cons_self
    have others : ∀ j ∈ range, j ∉ done := fun j member => fresh j (List.mem_cons_of_mem _ member)
    have returns' : ∀ j ∈ range, start.stale currentBlockNumber j = true →
        accepts checker start j = true ∨ fails checker start j = true := fun j member =>
      returns j (List.mem_cons_of_mem _ member)
    have apart := List.nodup_cons.mp nodup
    rw [ClearingLoop.loadingBody, loadingReach, cleared.stale_eq currentBlockNumber first]
    by_cases behind : start.stale currentBlockNumber i = true
    · obtain ⟨state', run, cleared', same⟩ := cleared.clearUnit_ok first (returns i List.mem_cons_self behind)
      rw [if_pos behind, if_pos behind, run]
      show ∃ state'', (if accepts checker start i = true then _ else _) = _ ∧ _
      by_cases accepted : accepts checker start i = true
      · rw [if_pos accepted, if_pos accepted]
        refine ⟨_, rfl, ⟨cleared'.cleared, cleared'.results, cleared'.others, cleared'.db, cleared'.logged⟩, ?_⟩
        exact iff_of_true rfl (.inr ⟨i, List.mem_cons_self, behind, accepted⟩)
      · rw [if_neg accepted, if_neg accepted]
        have fresh' : ∀ j ∈ range, j ∉ done ++ [i] := by
          intro j member inside
          rcases List.mem_append.mp inside with earlier | here
          · exact others j member earlier
          · exact apart.1 (List.mem_singleton.mp here ▸ member)
        obtain ⟨state'', run', cleared'', failure⟩ := ih apart.2 returns' cleared' fresh'
        rw [List.append_assoc, List.singleton_append] at cleared''
        refine ⟨state'', run', cleared'', ?_⟩
        rw [failure, same]
        simp only [List.mem_cons, exists_eq_or_imp, accepted, and_false, false_or, Bool.false_eq_true]
    · rw [if_neg behind, if_neg behind]
      obtain ⟨state', run, cleared', failure⟩ := ih apart.2 returns' cleared others
      refine ⟨state', run, cleared', ?_⟩
      rw [failure]
      simp only [List.mem_cons, exists_eq_or_imp, behind, false_and, false_or, Bool.false_eq_true]

/-- All ranges of the loop for replay. -/
theorem loadingRanges_spec {ranges : List (List Nat)} (nodup : ranges.flatten.Nodup)
    (returns : ∀ i, start.stale currentBlockNumber i = true →
      accepts checker start i = true ∨ fails checker start i = true)
    (cleared : Cleared checker start done state) (fresh : ∀ i ∈ ranges.flatten, i ∉ done) :
    ∃ state', ranges.foldlM (fun state range => ClearingLoop.loadingBody checker currentBlockNumber range state) state =
        .ok state' ∧
      Cleared checker start (done ++ ranges.flatMap (loadingReach checker start currentBlockNumber)) state' ∧
      (state'.existsFailure = true ↔ state.existsFailure = true ∨
        ∃ i ∈ ranges.flatten, start.stale currentBlockNumber i = true ∧ accepts checker start i = true) := by
  induction ranges generalizing done state with
  | nil =>
    refine ⟨state, rfl, ?_, ?_⟩
    · rw [List.flatMap_nil, List.append_nil]
      exact cleared
    · simp
  | cons range ranges ih =>
    rw [List.flatten_cons] at nodup fresh
    obtain ⟨nodup, nodup', apart⟩ := List.nodup_append.mp nodup
    obtain ⟨state', run, cleared', failure⟩ := loadingBody_spec nodup (fun i _ => returns i) cleared
      (fun i member => fresh i (List.mem_append_left _ member))
    have fresh' : ∀ i ∈ ranges.flatten, i ∉ done ++ loadingReach checker start currentBlockNumber range := by
      intro i member inside
      rcases List.mem_append.mp inside with earlier | here
      · exact fresh i (List.mem_append_right _ member) earlier
      · exact apart i (mem_loadingReach here).1 i member rfl
    obtain ⟨state'', run', cleared'', failure'⟩ := ih nodup' cleared' fresh'
    refine ⟨state'', ?_, ?_, ?_⟩
    · rw [List.foldlM_cons, run]
      exact run'
    · rw [List.flatMap_cons, ← List.append_assoc]
      exact cleared''
    · rw [failure', failure, List.flatten_cons, or_assoc]
      simp only [List.mem_append, or_and_right, exists_or]

/-- A range of the loop for validation in which all units accept. -/
theorem validationBody_accepts {range : List Nat} (nodup : range.Nodup)
    (accepted : ∀ i ∈ range, accepts checker start i = true) (cleared : Cleared checker start done state)
    (fresh : ∀ i ∈ range, i ∉ done) :
    ∃ state', ClearingLoop.validationBody checker range state = .ok state' ∧
      Cleared checker start (done ++ range) state' ∧ state'.existsFailure = state.existsFailure := by
  induction range generalizing done state with
  | nil =>
    rw [List.append_nil]
    exact ⟨state, rfl, cleared, rfl⟩
  | cons i range ih =>
    have apart := List.nodup_cons.mp nodup
    obtain ⟨state', run, cleared', same⟩ := cleared.clearUnit_ok (fresh i List.mem_cons_self)
      (.inl (accepted i List.mem_cons_self))
    have fresh' : ∀ j ∈ range, j ∉ done ++ [i] := by
      intro j member inside
      rcases List.mem_append.mp inside with earlier | here
      · exact fresh j (List.mem_cons_of_mem _ member) earlier
      · exact apart.1 (List.mem_singleton.mp here ▸ member)
    obtain ⟨state'', run', cleared'', same'⟩ := ih apart.2 (fun j member => accepted j (List.mem_cons_of_mem _ member))
      cleared' fresh'
    rw [List.append_assoc, List.singleton_append] at cleared''
    refine ⟨state'', ?_, cleared'', same'.trans same⟩
    rw [ClearingLoop.validationBody, run, accepted i List.mem_cons_self]
    exact run'

/-- A range that throws nothing: if no failure is noted, all its units accept. -/
theorem validationBody_ok {range : List Nat} {state' : ClearingLoop} (nodup : range.Nodup)
    (cleared : Cleared checker start done state) (fresh : ∀ i ∈ range, i ∉ done)
    (run : ClearingLoop.validationBody checker range state = .ok state') :
    ∃ reached, reached.Sublist range ∧ Cleared checker start (done ++ reached) state' ∧
      (state'.existsFailure = false → state.existsFailure = false ∧ ∀ i ∈ range, accepts checker start i = true) := by
  induction range generalizing done state with
  | nil =>
    cases run
    refine ⟨[], List.Sublist.refl _, ?_, fun none => ⟨none, fun i absurd => by cases absurd⟩⟩
    rw [List.append_nil]
    exact cleared
  | cons i range ih =>
    have apart := List.nodup_cons.mp nodup
    have agrees := cleared.clearUnit (fresh i List.mem_cons_self)
    rw [ClearingLoop.validationBody] at run
    obtain ⟨⟨verdict, after⟩, cleared', run⟩ := bind_eq_ok.mp run
    rw [cleared'] at agrees
    obtain ⟨result, alone, accepted, kept, same⟩ := agrees.of_ok_right
    have own : accepts checker start i = verdict := by
      rw [accepts, alone]
      exact accepted
    cases verdict with
    | false =>
      cases run
      refine ⟨[i], List.Sublist.cons_cons _ (List.nil_sublist _), ?_, fun absurd => by cases absurd⟩
      exact ⟨kept.cleared, kept.results, kept.others, kept.db, kept.logged⟩
    | true =>
      have fresh' : ∀ j ∈ range, j ∉ done ++ [i] := by
        intro j member inside
        rcases List.mem_append.mp inside with earlier | here
        · exact fresh j (List.mem_cons_of_mem _ member) earlier
        · exact apart.1 (List.mem_singleton.mp here ▸ member)
      obtain ⟨reached, sub, kept', verdicts⟩ := ih apart.2 kept fresh' run
      rw [List.append_assoc, List.singleton_append] at kept'
      refine ⟨i :: reached, sub.cons_cons i, kept', ?_⟩
      intro none
      obtain ⟨none, rest⟩ := verdicts none
      refine ⟨same ▸ none, ?_⟩
      intro j member
      rcases List.mem_cons.mp member with rfl | later
      · exact own
      · exact rest j later

theorem validationRanges_accepts {ranges : List (List Nat)} (nodup : ranges.flatten.Nodup)
    (accepted : ∀ i ∈ ranges.flatten, accepts checker start i = true) (cleared : Cleared checker start done state)
    (fresh : ∀ i ∈ ranges.flatten, i ∉ done) :
    ∃ state', ranges.foldlM (fun state range => ClearingLoop.validationBody checker range state) state = .ok state' ∧
      Cleared checker start (done ++ ranges.flatten) state' ∧ state'.existsFailure = state.existsFailure := by
  induction ranges generalizing done state with
  | nil =>
    rw [List.flatten_nil, List.append_nil]
    exact ⟨state, rfl, cleared, rfl⟩
  | cons range ranges ih =>
    rw [List.flatten_cons] at nodup accepted fresh
    obtain ⟨nodup, nodup', apart⟩ := List.nodup_append.mp nodup
    obtain ⟨state', run, cleared', same⟩ := validationBody_accepts nodup
      (fun i member => accepted i (List.mem_append_left _ member)) cleared
      (fun i member => fresh i (List.mem_append_left _ member))
    have fresh' : ∀ i ∈ ranges.flatten, i ∉ done ++ range := by
      intro i member inside
      rcases List.mem_append.mp inside with earlier | here
      · exact fresh i (List.mem_append_right _ member) earlier
      · exact apart i here i member rfl
    obtain ⟨state'', run', cleared'', same'⟩ := ih nodup' (fun i member => accepted i (List.mem_append_right _ member))
      cleared' fresh'
    rw [List.append_assoc, ← List.flatten_cons] at cleared''
    refine ⟨state'', ?_, cleared'', same'.trans same⟩
    rw [List.foldlM_cons, run]
    exact run'

theorem validationRanges_ok {ranges : List (List Nat)} {state' : ClearingLoop} (nodup : ranges.flatten.Nodup)
    (cleared : Cleared checker start done state) (fresh : ∀ i ∈ ranges.flatten, i ∉ done)
    (run : ranges.foldlM (fun state range => ClearingLoop.validationBody checker range state) state = .ok state') :
    state'.existsFailure = false →
      state.existsFailure = false ∧ ∀ i ∈ ranges.flatten, accepts checker start i = true := by
  induction ranges generalizing done state with
  | nil =>
    cases run
    exact fun none => ⟨none, fun i absurd => by cases absurd⟩
  | cons range ranges ih =>
    rw [List.flatten_cons] at nodup fresh ⊢
    obtain ⟨nodup, nodup', apart⟩ := List.nodup_append.mp nodup
    rw [List.foldlM_cons] at run
    obtain ⟨middle, first, run⟩ := bind_eq_ok.mp run
    obtain ⟨reached, sub, cleared', verdicts⟩ := validationBody_ok nodup cleared
      (fun i member => fresh i (List.mem_append_left _ member)) first
    have fresh' : ∀ i ∈ ranges.flatten, i ∉ done ++ reached := by
      intro i member inside
      rcases List.mem_append.mp inside with earlier | here
      · exact fresh i (List.mem_append_right _ member) earlier
      · exact apart i (sub.subset here) i member rfl
    intro none
    obtain ⟨none, rest⟩ := ih nodup' cleared' fresh' run none
    obtain ⟨none, first⟩ := verdicts none
    refine ⟨none, ?_⟩
    intro i member
    rcases List.mem_append.mp member with here | later
    · exact first i here
    · exact rest i later

theorem eq_of_sublists {α β : Type} {f g : α → List β} {l : List α} (sub : ∀ a ∈ l, (f a).Sublist (g a))
    (whole : (l.flatMap g).length ≤ (l.flatMap f).length) : ∀ a ∈ l, f a = g a := by
  induction l with
  | nil =>
    intro a absurd
    cases absurd
  | cons a l ih =>
    have first := sub a List.mem_cons_self
    have rest : ∀ a ∈ l, (f a).Sublist (g a) := fun a member => sub a (List.mem_cons_of_mem _ member)
    have shorter : (l.flatMap f).length ≤ (l.flatMap g).length := by
      clear ih whole sub first
      induction l with
      | nil => exact Nat.le_refl _
      | cons b l ih =>
        have here := (rest b List.mem_cons_self).length_le
        have later := ih (fun a member => rest a (List.mem_cons_of_mem _ member))
        rw [List.flatMap_cons, List.flatMap_cons, List.length_append, List.length_append]
        omega
    rw [List.flatMap_cons, List.flatMap_cons, List.length_append, List.length_append] at whole
    have short := first.length_le
    intro b member
    rcases List.mem_cons.mp member with rfl | later
    · exact first.eq_of_length (by omega)
    · exact ih rest (by omega) b later

end Loops

namespace MerkleWorkUnitManager

variable {division : Parallel.Division Nat} {order : Parallel.Interleaving (List Nat)} {manager : MerkleWorkUnitManager}
  {effects : ClearingEffects} {validationStatistics : List SingleValidationStatistics}
  {checker : WorkUnitStateCommitmentChecker} {currentBlockNumber : BitVec 64}

theorem lt_of_stale {i : Nat} (behind : (manager.startClearing effects validationStatistics).stale currentBlockNumber i = true) :
    i < manager.workUnits.length := by
  rw [ClearingLoop.stale] at behind
  by_contra outside
  rw [startClearing, List.getElem?_eq_none (Nat.le_of_not_lt outside)] at behind
  cases behind

variable (division order manager effects validationStatistics checker currentBlockNumber) in
/-- The replay clears every stale unit just as validation does, leaves the others alone, and says whether one failed. -/
def ReplaysLikeValidation : Prop :=
  ∃ returned state done, manager.clearOffersForDataLoading division order effects validationStatistics checker
      currentBlockNumber = .ok (returned, state) ∧
    done.Perm ((List.range manager.workUnits.length).filter
      ((manager.startClearing effects validationStatistics).stale currentBlockNumber)) ∧
    Cleared checker (manager.startClearing effects validationStatistics) done state ∧
    (returned = false ↔ ∃ i, (manager.startClearing effects validationStatistics).stale currentBlockNumber i = true ∧
      fails checker (manager.startClearing effects validationStatistics) i = true)

variable (division manager effects validationStatistics checker currentBlockNumber) in
/-- No stale unit throws, in no range one succeeds before another, and some stale unit fails if and only
if none succeeds. -/
structure Replayable : Prop where
  returns : ∀ i, (manager.startClearing effects validationStatistics).stale currentBlockNumber i = true →
    accepts checker (manager.startClearing effects validationStatistics) i = true ∨
      fails checker (manager.startClearing effects validationStatistics) i = true
  last : ∀ range ∈ division.run (List.range manager.workUnits.length), range.Pairwise (fun i j =>
    (manager.startClearing effects validationStatistics).stale currentBlockNumber i = true →
    (manager.startClearing effects validationStatistics).stale currentBlockNumber j = true →
    accepts checker (manager.startClearing effects validationStatistics) i = false)
  verdict : (∃ i, (manager.startClearing effects validationStatistics).stale currentBlockNumber i = true ∧
      fails checker (manager.startClearing effects validationStatistics) i = true) ↔
    ¬ ∃ i, (manager.startClearing effects validationStatistics).stale currentBlockNumber i = true ∧
      accepts checker (manager.startClearing effects validationStatistics) i = true

theorem division_nodup (division : Parallel.Division Nat) (order : Parallel.Interleaving (List Nat)) (n : Nat) :
    (order.run (division.run (List.range n))).flatten.Perm (List.range n) ∧
      (order.run (division.run (List.range n))).flatten.Nodup := by
  have same : (order.run (division.run (List.range n))).flatten.Perm (List.range n) := by
    have perm := (order.perm (division.run (List.range n))).flatten
    rwa [division.covers] at perm
  exact ⟨same, same.nodup_iff.mpr List.nodup_range⟩

/-- The header is accepted under one schedule, so every unit accepts on its own. -/
theorem accepts_of_tentativeClear {state : ClearingLoop} (run : manager.tentativeClearOffersForValidation division order
      effects validationStatistics checker = .ok (true, state)) :
    ∀ i < manager.workUnits.length, accepts checker (manager.startClearing effects validationStatistics) i = true := by
  obtain ⟨same, nodup⟩ := division_nodup division order manager.workUnits.length
  rw [tentativeClearOffersForValidation] at run
  obtain ⟨state', loop, result⟩ := bind_eq_ok.mp run
  have both := Prod.mk.inj (Except.ok.inj result)
  have none : state'.existsFailure = false := by rw [← Bool.not_eq_true', both.1]
  obtain ⟨-, all⟩ := validationRanges_ok nodup (@cleared_start checker _ rfl) (fun i _ absurd => by cases absurd)
    loop none
  exact fun i inside => all i (same.mem_iff.mpr (List.mem_range.mpr inside))

theorem tentativeClear_of_accepts (all : ∀ i < manager.workUnits.length,
      accepts checker (manager.startClearing effects validationStatistics) i = true) :
    ∃ state done, manager.tentativeClearOffersForValidation division order effects validationStatistics checker =
        .ok (true, state) ∧ done.Perm (List.range manager.workUnits.length) ∧
      Cleared checker (manager.startClearing effects validationStatistics) done state := by
  obtain ⟨same, nodup⟩ := division_nodup division order manager.workUnits.length
  obtain ⟨state, loop, cleared, kept⟩ := validationRanges_accepts nodup
    (fun i member => all i (List.mem_range.mp (same.mem_iff.mp member)))
    (@cleared_start checker (manager.startClearing effects validationStatistics) rfl)
    (fun i _ absurd => by cases absurd)
  refine ⟨state, _, ?_, same, cleared⟩
  rw [tentativeClearOffersForValidation, loop]
  show Except.ok (!state.existsFailure, state) = _
  rw [kept]
  rfl

/-- A book without offers that waits for block 1. -/
def emptyUnit (sellAsset buyAsset : AssetID) : MerkleWorkUnit :=
  { MerkleWorkUnit.new (pairCategory sellAsset buyAsset) with lmdbInstance := ⟨[.new false 1], 0⟩ }

def twoEmptyUnits : MerkleWorkUnitManager := ⟨[emptyUnit 0 1, emptyUnit 1 0], 2⟩

/-- Everything is to clear. -/
def clearAll : SingleWorkUnitStateCommitment where
  rootHash := []
  fractionalSupplyActivated := FractionalAsset.fromIntegral 0
  partialExecThresholdKey := zeroKey
  thresholdKeyIsNull := 1
  partialExecOfferActivationAmount := FractionalAsset.fromIntegral 0

/-- The whole range is one part. -/
def undivided : Parallel.Division Nat where
  run items := [items]
  covers items := List.append_nil items

/-- What the replay does when no stale unit throws. -/
theorem clearOffersForDataLoading_ok (returns : ∀ i,
      (manager.startClearing effects validationStatistics).stale currentBlockNumber i = true →
      accepts checker (manager.startClearing effects validationStatistics) i = true ∨
        fails checker (manager.startClearing effects validationStatistics) i = true) :
    ∃ returned state, manager.clearOffersForDataLoading division order effects validationStatistics checker
        currentBlockNumber = .ok (returned, state) ∧
      Cleared checker (manager.startClearing effects validationStatistics)
        ((order.run (division.run (List.range manager.workUnits.length))).flatMap
          (loadingReach checker (manager.startClearing effects validationStatistics) currentBlockNumber)) state ∧
      (returned = true ↔ ∃ i, (manager.startClearing effects validationStatistics).stale currentBlockNumber i = true ∧
        accepts checker (manager.startClearing effects validationStatistics) i = true) := by
  obtain ⟨same, nodup⟩ := division_nodup division order manager.workUnits.length
  obtain ⟨state, run, cleared, failure⟩ := loadingRanges_spec nodup returns
    (@cleared_start checker (manager.startClearing effects validationStatistics) rfl)
    (fun i _ absurd => by cases absurd)
  refine ⟨state.existsFailure, state, ?_, cleared, ?_⟩
  · rw [clearOffersForDataLoading, run]
    rfl
  · rw [failure]
    constructor
    · rintro (absurd | ⟨i, -, both⟩)
      · cases absurd
      · exact ⟨i, both⟩
    · rintro ⟨i, behind, accepted⟩
      exact .inr ⟨i, same.mem_iff.mpr (List.mem_range.mpr (lt_of_stale behind)), behind, accepted⟩

/-- The replay is right in exactly these cases. -/
theorem replay_exact_iff : manager.ReplaysLikeValidation division order effects validationStatistics checker
    currentBlockNumber ↔ manager.Replayable division effects validationStatistics checker currentBlockNumber := by
  have filtered : ((order.run (division.run (List.range manager.workUnits.length))).flatMap (fun range => range.filter
      ((manager.startClearing effects validationStatistics).stale currentBlockNumber))).Perm
      ((List.range manager.workUnits.length).filter
        ((manager.startClearing effects validationStatistics).stale currentBlockNumber)) := by
    have same := (division_nodup division order manager.workUnits.length).1.filter
      ((manager.startClearing effects validationStatistics).stale currentBlockNumber)
    rwa [List.filter_flatten, ← List.flatMap_def] at same
  constructor
  · rintro ⟨returned, state, done, run, all, cleared, verdict⟩
    have returns : ∀ i, (manager.startClearing effects validationStatistics).stale currentBlockNumber i = true →
        accepts checker (manager.startClearing effects validationStatistics) i = true ∨
          fails checker (manager.startClearing effects validationStatistics) i = true := by
      intro i behind
      have member := all.mem_iff.mpr (List.mem_filter.mpr ⟨List.mem_range.mpr (lt_of_stale behind), behind⟩)
      obtain ⟨accepted, after, alone, -⟩ := cleared.results i member
      rw [accepts, fails, alone]
      cases accepted <;> simp
    obtain ⟨returned', state', run', cleared', failure⟩ :=
      @clearOffersForDataLoading_ok division order _ _ _ _ _ returns
    cases run.symm.trans run'
    refine ⟨returns, ?_, ?_⟩
    · have list := cleared.cleared.symm.trans cleared'.cleared
      rw [list] at all
      have whole := (filtered.trans all.symm).length_eq
      have each := eq_of_sublists (fun range _ => loadingReach_sublist range) whole.le
      intro range member
      exact (loadingReach_eq_iff range).mp (each range ((order.perm _).mem_iff.mpr member))
    · rw [← verdict, ← failure, Bool.not_eq_true]
  · rintro ⟨returns, last, verdict⟩
    obtain ⟨returned, state, run, cleared, failure⟩ :=
      @clearOffersForDataLoading_ok division order _ _ _ _ _ returns
    refine ⟨returned, state, _, run, ?_, cleared, ?_⟩
    · have each : ∀ range ∈ order.run (division.run (List.range manager.workUnits.length)),
          loadingReach checker (manager.startClearing effects validationStatistics) currentBlockNumber range =
            range.filter ((manager.startClearing effects validationStatistics).stale currentBlockNumber) :=
        fun range member => (loadingReach_eq_iff range).mpr (last range ((order.perm _).mem_iff.mp member))
      rw [List.flatMap_congr each]
      exact filtered
    · rw [verdict, ← failure, Bool.not_eq_true]

/-- After the first of two books the replay stops. -/
theorem twoEmptyUnits_not_replayed : ¬ twoEmptyUnits.ReplaysLikeValidation undivided .sequential
    ⟨Directory.emptyDb, []⟩ [] ⟨[clearAll, clearAll], [1, 1], 0⟩ 1 := by
  rintro ⟨returned, state, done, run, all, cleared, -⟩
  have first : ∃ state', twoEmptyUnits.clearOffersForDataLoading undivided .sequential ⟨Directory.emptyDb, []⟩ []
      ⟨[clearAll, clearAll], [1, 1], 0⟩ 1 = .ok (true, state') ∧ state'.cleared = [0] := ⟨_, rfl, rfl⟩
  obtain ⟨state', run', only⟩ := first
  cases run.symm.trans run'
  have both := all.length_eq
  rw [cleared.cleared.symm.trans only] at both
  exact absurd both (by decide)

end MerkleWorkUnitManager

end Speedex
