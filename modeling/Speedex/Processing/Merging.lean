import Speedex.Processing.Validation
import Speedex.Unit.Manager

set_option autoImplicit false

/- `block_validator.cc`: what the validators have collected is merged, and whoever has collected it, it adds up to the
same. -/
namespace Speedex

open Claims BlockContext TrieNode

/-- `ValidationStatistics::operator+=`. -/
def addStatistics (stats other : List SingleValidationStatistics) : List SingleValidationStatistics :=
  let stats := stats ++ List.replicate (other.length - stats.length) ⟨0⟩
  stats.mapIdx (fun i single =>
    match other[i]? with
    | some more => ⟨single.activatedSupply + more.activatedSupply⟩
    | none => single)

/-- `partial_finish`. -/
def SerialThread.partialFinish {D : Type} (thread : SerialThread D) (idx : Nat) (mainManager : MerkleWorkUnitManager) :
    Except String MerkleWorkUnitManager :=
  match thread.serialManager.newOffers[idx]? with
  | none => .ok mainManager
  | some trie => mainManager.addOffers (BitVec.ofNat 32 idx) trie

/-- The offers of one work unit, from all threads. -/
def finishUnit {D : Type} (threads : List (SerialThread D)) (mainManager : MerkleWorkUnitManager) (idx : Nat) :
    Except String MerkleWorkUnitManager :=
  threads.foldlM (fun mainManager thread => thread.partialFinish idx mainManager) mainManager

/-- What the transactions of a block leave behind. -/
structure ValidationOutcome where
  accountDatabase : MemoryDatabase
  workUnitManager : MerkleWorkUnitManager
  mainStats : List SingleValidationStatistics
  stats : BlockStateUpdateStats
  accountModificationLog : SerialAccountModificationLog

/-- The end of `validate_transaction_block`. The work units are finished in any order. -/
def finishValidation (units : Parallel.Interleaving Nat) (mainStats : List SingleValidationStatistics)
    (stats : BlockStateUpdateStats) (block : BlockThreads ValidatingSerialManager) : Except String ValidationOutcome := do
  let numWorkUnits := getNumWorkUnitsByAssetCount (block.workUnitManager.numAssets.setWidth 32)
  let workUnitManager ← (units.run (List.range numWorkUnits.toNat)).foldlM (finishUnit block.threads) block.workUnitManager
  .ok {
    accountDatabase := block.accountDatabase
    workUnitManager := workUnitManager
    mainStats := block.threads.foldl (fun mainStats thread =>
      addStatistics mainStats thread.serialManager.derived.activatedSupplies) mainStats
    stats := block.threads.foldl (fun stats thread => stats + thread.stateUpdateStats) stats
    accountModificationLog := block.threads.flatMap SerialThread.serialAccountLog }

theorem supplyOf_addStatistics (stats other : List SingleValidationStatistics) :
    ValidatingSerialManager.supplyOf (addStatistics stats other) =
      ValidatingSerialManager.supplyOf stats + ValidatingSerialManager.supplyOf other := by
  funext i
  rw [Pi.add_apply, ValidatingSerialManager.supplyOf, ValidatingSerialManager.supplyOf, ValidatingSerialManager.supplyOf,
    addStatistics, List.getElem?_mapIdx]
  by_cases inside : i < stats.length
  · rw [List.getElem?_append_left inside, List.getElem?_eq_getElem inside]
    cases other[i]? with
    | none => simp
    | some more => rfl
  · rw [List.getElem?_append_right (Nat.le_of_not_lt inside), List.getElem?_eq_none (Nat.le_of_not_lt inside),
      List.getElem?_replicate]
    by_cases below : i < other.length
    · rw [if_pos (by omega), List.getElem?_eq_getElem below]
      rfl
    · rw [if_neg (by omega), List.getElem?_eq_none (Nat.le_of_not_lt below)]
      simp

/-- A work unit that has received the new offers for it. -/
structure Received (idx : Nat) (offers : Multiset (Nat × Offer)) (unit₀ unit : MerkleWorkUnit) : Prop where
  frame : unit = { unit₀ with uncommittedOffers := unit.uncommittedOffers }
  valid : unit.uncommittedOffers.Valid workUnitKeyLen
  find : ∀ key l, unit.uncommittedOffers.find key = some l ↔
    (∃ offer, (idx, offer) ∈ offers ∧ offer.key = key ∧ l = tentative offer) ∨
      ((∀ offer, (idx, offer) ∈ offers → offer.key ≠ key) ∧ unit₀.uncommittedOffers.find key = some l)

/-- No two offers have the same owner and id. -/
def DistinctOffers (offers : Multiset (Nat × Offer)) : Prop := (offers.map (fun o => (o.2.owner, o.2.offerId))).Nodup

section Units

variable {D : Type} {derived : D → (Nat → FractionalAsset) → Prop} {idx : Nat} {offers own : Multiset (Nat × Offer)}
  {unit₀ unit : MerkleWorkUnit} {manager : MerkleWorkUnitManager}

theorem DistinctOffers.apart (distinct : DistinctOffers (offers + own)) {i i' : Nat} {offer offer' : Offer}
    (member : (i, offer) ∈ offers) (member' : (i', offer') ∈ own) : offer.key ≠ offer'.key := by
  intro same
  rw [DistinctOffers, Multiset.map_add, Multiset.nodup_add] at distinct
  have twice := Multiset.mem_map_of_mem (fun o : Nat × Offer => (o.2.owner, o.2.offerId)) member
  have again := Multiset.mem_map_of_mem (fun o : Nat × Offer => (o.2.owner, o.2.offerId)) member'
  rw [← owner_of_key same] at again
  exact Multiset.disjoint_left.mp distinct.2.2 twice again

/-- A trie of new offers is merged in. -/
theorem Received.merged (received : Received idx offers unit₀ unit) (distinct : DistinctOffers (offers + own))
    {trie : OfferTrie} (valid : trie.Valid workUnitKeyLen)
    (find : ∀ key l, trie.find key = some l ↔ ∃ offer, (idx, offer) ∈ own ∧ offer.key = key ∧ l = tentative offer) :
    ∃ unit', unit.addOffers trie = .ok unit' ∧ Received idx (offers + own) unit₀ unit' := by
  obtain ⟨merged, done, valid', finds⟩ := MerkleTrie.mergeIn_spec (.inl received.valid) valid workUnitKeyLen_pos
  refine ⟨{ unit with uncommittedOffers := merged }, ?_, ?_, valid', fun key l => ?_⟩
  · rw [MerkleWorkUnit.addOffers, done]
    rfl
  · exact congrArg (fun u : MerkleWorkUnit => { u with uncommittedOffers := merged }) received.frame
  · rw [finds]
    cases new : trie.find key with
    | some l' =>
      obtain ⟨offer, member, rfl, rfl⟩ := (find key l').mp new
      rw [Option.some_or, Option.some.injEq]
      constructor
      · rintro rfl
        exact .inl ⟨offer, Multiset.mem_add.mpr (.inr member), rfl, rfl⟩
      · rintro (⟨offer', listed, same, rfl⟩ | ⟨absent, -⟩)
        · rcases Multiset.mem_add.mp listed with old | listed
          · exact absurd same (distinct.apart old member)
          · have again := (find offer.key (tentative offer')).mpr ⟨offer', listed, same, rfl⟩
            rw [new] at again
            exact Option.some.inj again
        · exact absurd rfl (absent offer (Multiset.mem_add.mpr (.inr member)))
    | none =>
      have absent : ∀ offer, (idx, offer) ∈ own → offer.key ≠ key := by
        intro offer member same
        have found := (find key _).mpr ⟨offer, member, same, rfl⟩
        rw [new] at found
        cases found
      rw [Option.none_or, received.find]
      refine or_congr (exists_congr (fun offer => and_congr_left (fun here => ?_))) (and_congr_left (fun _ => forall_congr' (fun offer => ?_)))
      · rw [Multiset.mem_add, or_iff_left (fun member => absent offer member here.1)]
      · rw [Multiset.mem_add]
        exact ⟨fun old member => member.elim old (absent offer), fun all member => all (.inl member)⟩

theorem addOffers_eq (small : idx < 2 ^ 31) (here : manager.workUnits[idx]? = some unit) {trie : OfferTrie} {unit' : MerkleWorkUnit}
    (done : unit.addOffers trie = .ok unit') : manager.addOffers (BitVec.ofNat 32 idx) trie =
      .ok { manager with workUnits := manager.workUnits.set idx unit' } := by
  have value : (BitVec.ofNat 32 idx).toNat = idx := by
    rw [BitVec.toNat_ofNat]
    omega
  have found : manager.workUnitAt (BitVec.ofNat 32 idx) = some unit := by
    refine workUnitAt_eq_some.mpr ⟨?_, by rw [value, here]⟩
    rw [BitVec.toInt_eq_toNat_of_lt (by rw [value]; omega)]
    exact Int.natCast_nonneg _
  rw [MerkleWorkUnitManager.addOffers, found]
  show (unit.addOffers trie >>= _) = _
  rw [done]
  show Except.ok (manager.setWorkUnit (BitVec.ofNat 32 idx) unit') = _
  rw [MerkleWorkUnitManager.setWorkUnit, value]

/-- One work unit receives the offers of all threads. -/
theorem finishUnit_spec {threads : List (SerialThread D)} {owns : List TxTally}
    (related : List.Forall₂ (ThreadKeeps .rollback derived) owns threads) (small : idx < 2 ^ 31)
    (here : manager.workUnits[idx]? = some unit) (received : Received idx offers unit₀ unit)
    (distinct : DistinctOffers (offers + owns.sum.newOffers)) : ∃ unit',
      finishUnit threads manager idx = .ok { manager with workUnits := manager.workUnits.set idx unit' } ∧
      Received idx (offers + owns.sum.newOffers) unit₀ unit' := by
  induction related generalizing manager unit offers with
  | nil =>
    refine ⟨unit, ?_, by simpa using received⟩
    have same : manager.workUnits.set idx unit = manager.workUnits := by
      obtain ⟨inside, rfl⟩ := List.getElem?_eq_some_iff.mp here
      exact List.set_getElem_self inside
    rw [same]
    rfl
  | @cons own thread owns threads keeps related ih =>
    rw [List.sum_cons, TxTally.add_newOffers, ← add_assoc] at distinct ⊢
    have distinct' : DistinctOffers (offers + own.newOffers) := by
      rw [DistinctOffers, Multiset.map_add] at distinct
      exact (Multiset.nodup_add.mp distinct).1
    have inside := (List.getElem?_eq_some_iff.mp here).1
    cases listed : thread.serialManager.newOffers[idx]? with
    | none =>
      have nothing : ∀ offer, (idx, offer) ∉ own.newOffers := by
        intro offer member
        obtain ⟨trie, at_idx, -⟩ := (keeps.newOffers.find idx offer.key (tentative offer)).mpr ⟨offer, member, rfl, rfl⟩
        rw [listed] at at_idx
        cases at_idx
      have received' : Received idx (offers + own.newOffers) unit₀ unit :=
        { received with
          find := fun key l => by
            rw [received.find]
            simp only [Multiset.mem_add, nothing, or_false] }
      obtain ⟨unit', done, received''⟩ := ih here received' distinct
      refine ⟨unit', ?_, received''⟩
      rw [finishUnit, List.foldlM_cons, SerialThread.partialFinish, listed]
      exact done
    | some trie =>
      have find : ∀ key l, trie.find key = some l ↔
          ∃ offer, (idx, offer) ∈ own.newOffers ∧ offer.key = key ∧ l = tentative offer := by
        intro key l
        rw [← keeps.newOffers.find, listed]
        simp
      obtain ⟨unit₁, added, received₁⟩ :=
        received.merged distinct' (keeps.newOffers.valid trie (List.mem_of_getElem? listed)) find
      have here₁ : (manager.workUnits.set idx unit₁)[idx]? = some unit₁ := by
        rw [List.getElem?_set, if_pos rfl, if_pos inside]
      obtain ⟨unit', done, received'⟩ :=
        @ih _ unit₁ { manager with workUnits := manager.workUnits.set idx unit₁ } here₁ received₁ distinct
      refine ⟨unit', ?_, received'⟩
      rw [finishUnit, List.foldlM_cons, SerialThread.partialFinish, listed]
      simp only
      rw [addOffers_eq small here added]
      simp only [List.set_set] at done
      exact done

/-- Each work unit receives its offers, in whatever order they are finished. -/
theorem finishUnits_spec {threads : List (SerialThread D)} {owns : List TxTally}
    (related : List.Forall₂ (ThreadKeeps .rollback derived) owns threads)
    (valid : ∀ unit ∈ manager.workUnits, unit.uncommittedOffers.Valid workUnitKeyLen)
    (distinct : DistinctOffers owns.sum.newOffers) {units : List Nat} (once : units.Nodup)
    (inside : ∀ i ∈ units, i < manager.workUnits.length) (few : manager.workUnits.length ≤ 2 ^ 31) :
    ∃ manager', units.foldlM (finishUnit threads) manager = .ok manager' ∧ manager'.numAssets = manager.numAssets ∧
      manager'.workUnits.length = manager.workUnits.length ∧ ∀ i unit, manager.workUnits[i]? = some unit →
        ∃ unit', manager'.workUnits[i]? = some unit' ∧
          if i ∈ units then Received i owns.sum.newOffers unit unit' else unit' = unit := by
  induction units generalizing manager with
  | nil => exact ⟨manager, rfl, rfl, rfl, fun i unit here => ⟨unit, here, by simp⟩⟩
  | cons idx units ih =>
    obtain ⟨absent, once⟩ := List.nodup_cons.mp once
    have bound := inside idx List.mem_cons_self
    have here := List.getElem?_eq_getElem bound
    have start : Received idx 0 manager.workUnits[idx] manager.workUnits[idx] :=
      ⟨rfl, valid _ (List.getElem_mem bound), fun key l => by simp⟩
    obtain ⟨unit', done, received⟩ := finishUnit_spec related (bound.trans_le few) here start (by rwa [zero_add])
    rw [zero_add] at received
    have valid' : ∀ unit ∈ manager.workUnits.set idx unit', unit.uncommittedOffers.Valid workUnitKeyLen := by
      intro unit member
      rcases List.mem_or_eq_of_mem_set member with old | rfl
      · exact valid unit old
      · exact received.valid
    obtain ⟨manager', run, numAssets, length, units'⟩ :=
      @ih { manager with workUnits := manager.workUnits.set idx unit' } valid' once
        (fun i member => by rw [List.length_set]; exact inside i (List.mem_cons_of_mem idx member)) (by rwa [List.length_set])
    refine ⟨manager', ?_, numAssets, length.trans List.length_set, fun i unit here' => ?_⟩
    · rw [List.foldlM_cons, done]
      exact run
    · by_cases same : idx = i
      · subst same
        rw [here] at here'
        cases here'
        obtain ⟨unit'', found, kept⟩ := units' idx unit' (by rw [List.getElem?_set, if_pos rfl, if_pos bound])
        rw [if_neg absent] at kept
        exact ⟨unit'', found, by rw [if_pos List.mem_cons_self, kept]; exact received⟩
      · obtain ⟨unit'', found, kept⟩ := units' i unit (by rw [List.getElem?_set, if_neg same, here'])
        refine ⟨unit'', found, ?_⟩
        simp only [List.mem_cons, Ne.symm same, false_or]
        exact kept

end Units

/-- The validators at the start of a block. -/
def startValidation (ctx : BlockContext) (checker : WorkUnitStateCommitmentChecker) (n : Nat) :
    BlockThreads ValidatingSerialManager where
  accountDatabase := ctx.accountDatabase
  workUnitManager := ctx.workUnitManager
  threads := List.replicate n ⟨⟨[], ⟨checker, []⟩⟩, [], 0⟩

/-- `validate_transaction_block` up to its last check. The transactions come in the order in which they are worked off,
each with its validator. -/
def validateTransactionBlock (order : CommitOrder) (units : Parallel.Interleaving Nat) (ctx : BlockContext)
    (checker : WorkUnitStateCommitmentChecker) (mainStats : List SingleValidationStatistics) (stats : BlockStateUpdateStats)
    {n : Nat} (jobs : List (Job n)) : Option ValidationOutcome :=
  (jobs.foldlM (validateNext order) (startValidation ctx checker n)).bind (fun block =>
    (finishValidation units mainStats stats block).toOption)

/-- Between blocks nothing is left over from the last one. -/
structure BlockContext.Ready (ctx : BlockContext) (checker : WorkUnitStateCommitmentChecker) : Prop where
  sound : ctx.Sound
  disposition : ctx.disposition = checker.disposition
  indexed : ctx.workUnitManager.Indexed
  uncommitted : ∀ unit ∈ ctx.workUnitManager.workUnits, unit.uncommittedOffers.Valid workUnitKeyLen

/-- Two books hold the same offers with the same marks. -/
def SameOffers (unit unit' : MerkleWorkUnit) : Prop :=
  (∀ key, unit'.committedOffers.find key = unit.committedOffers.find key) ∧
    ∀ key, unit'.uncommittedOffers.find key = unit.uncommittedOffers.find key

/-- Outcomes that differ in the order of lists only. -/
structure SameResults (outcome outcome' : ValidationOutcome) : Prop where
  userIdToIdxMap : outcome'.accountDatabase.userIdToIdxMap = outcome.accountDatabase.userIdToIdxMap
  settled : outcome'.accountDatabase.database.map UserAccount.settled = outcome.accountDatabase.database.map UserAccount.settled
  available : outcome'.accountDatabase.available = outcome.accountDatabase.available
  sequence : ∀ idx offset, outcome'.accountDatabase.SequenceBit idx offset ↔ outcome.accountDatabase.SequenceBit idx offset
  reserved : outcome'.accountDatabase.reservedAccountIds = outcome.accountDatabase.reservedAccountIds
  created : outcome'.accountDatabase.uncommittedDb.Perm outcome.accountDatabase.uncommittedDb
  offers : List.Forall₂ SameOffers outcome.workUnitManager.workUnits outcome'.workUnitManager.workUnits
  supplies : ValidatingSerialManager.supplyOf outcome'.mainStats = ValidatingSerialManager.supplyOf outcome.mainStats
  stats : outcome'.stats = outcome.stats
  log : outcome'.accountModificationLog.Perm outcome.accountModificationLog

section Blocks

variable {ctx : BlockContext} {checker : WorkUnitStateCommitmentChecker} {n : Nat} {E : TxEffect}
  {block : BlockThreads ValidatingSerialManager}

theorem validated_start (ready : ctx.Ready checker) (n : Nat) : ValidatedBlock ctx checker n 0 (startValidation ctx checker n) where
  after := {
    directory := {
      userIdToIdxMap := rfl
      settled := rfl
      sequence := fun idx offset => by simp [startValidation]
      reserved := fun account => by simp [startValidation]
      uncommittedDb := (add_zero _).symm
      uncommittedIdxMap := fun id => by simp [startValidation]
      accountCreationThunks := rfl
      persistedRoundNumber := rfl }
    balances := (add_zero _).symm
    books := ⟨rfl, rfl, fun i unit here => ⟨unit, here, rfl, ready.sound.valid unit (List.mem_of_getElem? here),
      fun key => by simp⟩⟩
    issued := ⟨by simp, fun o member => absurd member (Multiset.notMem_zero o)⟩
    threads := by
      refine ⟨List.replicate n 0, by simp, ?_⟩
      induction n with
      | zero => exact .nil
      | succ n ih =>
        refine .cons ⟨⟨fun trie member => absurd member List.not_mem_nil, fun i key l => by simp⟩, ⟨rfl, ?_⟩, rfl, rfl⟩ ih
        funext i
        simp [ValidatingSerialManager.supplyOf] }
  length := List.length_replicate

/-- What a block comes to whose transactions have this effect. -/
structure Concludes (ctx : BlockContext) (mainStats : List SingleValidationStatistics) (stats : BlockStateUpdateStats)
    (E : TxEffect) (outcome : ValidationOutcome) : Prop where
  directory : DirectoryAfter ctx (fun _ => False) E.claims E.tally.created outcome.accountDatabase
  balances : outcome.accountDatabase.available = ctx.accountDatabase.available + E.tally.balances
  length : outcome.workUnitManager.workUnits.length = ctx.workUnitManager.workUnits.length
  unit : ∀ i unit₀, ctx.workUnitManager.workUnits[i]? = some unit₀ → ∃ book unit,
    outcome.workUnitManager.workUnits[i]? = some unit ∧ BookAfter E.claims i unit₀ book ∧
      Received i E.tally.newOffers book unit
  supplies : ValidatingSerialManager.supplyOf outcome.mainStats =
    ValidatingSerialManager.supplyOf mainStats + E.tally.activated
  stats : outcome.stats = stats + E.tally.stats
  log : (outcome.accountModificationLog : Multiset LogEntry) = E.tally.log

variable {derived : ValidatingSerialManager → (Nat → FractionalAsset) → Prop} {owns : List TxTally}
  {threads : List (SerialThread ValidatingSerialManager)}

theorem supplyOf_foldl
    (related : List.Forall₂ (ThreadKeeps .rollback (ValidatingSerialManager.Counts checker)) owns threads)
    (mainStats : List SingleValidationStatistics) :
    ValidatingSerialManager.supplyOf (threads.foldl (fun mainStats thread =>
      addStatistics mainStats thread.serialManager.derived.activatedSupplies) mainStats) =
        ValidatingSerialManager.supplyOf mainStats + owns.sum.activated := by
  induction related generalizing mainStats with
  | nil => exact (add_zero _).symm
  | cons keeps related ih =>
    rw [List.foldl_cons, ih, supplyOf_addStatistics, keeps.derived.2, List.sum_cons, TxTally.add_activated, add_assoc]

theorem stats_foldl (related : List.Forall₂ (ThreadKeeps .rollback derived) owns threads) (stats : BlockStateUpdateStats) :
    threads.foldl (fun stats thread => stats + thread.stateUpdateStats) stats = stats + owns.sum.stats := by
  induction related generalizing stats with
  | nil => exact (add_zero _).symm
  | cons keeps related ih =>
    rw [List.foldl_cons, ih, keeps.stats, List.sum_cons, TxTally.add_stats, add_assoc]

theorem log_flatMap (related : List.Forall₂ (ThreadKeeps .rollback derived) owns threads) :
    (threads.flatMap SerialThread.serialAccountLog : Multiset LogEntry) = owns.sum.log := by
  induction related with
  | nil => rfl
  | cons keeps related ih =>
    rw [List.flatMap_cons, ← Multiset.coe_add, ih, keeps.log, List.sum_cons, TxTally.add_log]

/-- The validators' work can always be merged. -/
theorem ValidatedBlock.finish (ready : ctx.Ready checker) (validated : ValidatedBlock ctx checker n E block)
    (units : Parallel.Interleaving Nat) (mainStats : List SingleValidationStatistics) (stats : BlockStateUpdateStats) :
    ∃ outcome, finishValidation units mainStats stats block = .ok outcome ∧ Concludes ctx mainStats stats E outcome := by
  obtain ⟨owns, total, related⟩ := validated.after.threads
  have books := validated.after.books
  have count : (getNumWorkUnitsByAssetCount (block.workUnitManager.numAssets.setWidth 32)).toNat =
      block.workUnitManager.workUnits.length := by
    rw [MerkleWorkUnitManager.count_eq, books.numAssets, books.length, ready.indexed.length]
  have valid : ∀ unit ∈ block.workUnitManager.workUnits, unit.uncommittedOffers.Valid workUnitKeyLen := by
    intro unit member
    obtain ⟨i, here⟩ := List.mem_iff_getElem?.mp member
    have inside : i < ctx.workUnitManager.workUnits.length := by
      rw [← books.length]
      exact (List.getElem?_eq_some_iff.mp here).1
    obtain ⟨unit', here', book⟩ := books.unit i _ (List.getElem?_eq_getElem inside)
    rw [here] at here'
    cases here'
    have kept := ready.uncommitted _ (List.getElem_mem inside)
    rw [book.frame]
    exact kept
  have few : block.workUnitManager.workUnits.length ≤ 2 ^ 31 := by
    rw [books.length, ready.indexed.length]
    exact Nat.le_of_lt (units_lt ready.indexed.few)
  have all := units.perm (List.range block.workUnitManager.workUnits.length)
  have distinct : DistinctOffers owns.sum.newOffers := by
    rw [← total]
    exact validated.after.issued.distinct
  obtain ⟨manager, run, numAssets, length, finished⟩ := finishUnits_spec related valid distinct
    (all.nodup_iff.mpr List.nodup_range) (fun i member => List.mem_range.mp (all.mem_iff.mp member)) few
  refine ⟨_, by rw [finishValidation, count, run]; rfl, ?_⟩
  exact {
    directory := validated.after.directory
    balances := validated.after.balances
    length := length.trans books.length
    unit := by
      intro i unit₀ here
      obtain ⟨book, found, after⟩ := books.unit i unit₀ here
      obtain ⟨unit, found', received⟩ := finished i book found
      rw [if_pos (all.mem_iff.mpr (List.mem_range.mpr (List.getElem?_eq_some_iff.mp found).1)), ← total] at received
      exact ⟨book, unit, found', after, received⟩
    supplies := by rw [supplyOf_foldl related, total]
    stats := by rw [stats_foldl related, total]
    log := by rw [log_flatMap related, total] }

/-- What a block comes to depends on the effect of its transactions. -/
theorem Concludes.same {mainStats : List SingleValidationStatistics} {stats : BlockStateUpdateStats}
    {outcome outcome' : ValidationOutcome} (concludes : Concludes ctx mainStats stats E outcome)
    (concludes' : Concludes ctx mainStats stats E outcome') : SameResults outcome outcome' where
  userIdToIdxMap := concludes'.directory.userIdToIdxMap.trans concludes.directory.userIdToIdxMap.symm
  settled := concludes'.directory.settled.trans concludes.directory.settled.symm
  available := concludes'.balances.trans concludes.balances.symm
  sequence idx offset := (concludes'.directory.sequence idx offset).trans (concludes.directory.sequence idx offset).symm
  reserved := funext fun account => Bool.eq_iff_iff.mpr
    ((concludes'.directory.reserved account).trans (concludes.directory.reserved account).symm)
  created := Multiset.coe_eq_coe.mp (concludes'.directory.uncommittedDb.trans concludes.directory.uncommittedDb.symm)
  offers := by
    refine List.forall₂_iff_get.mpr ⟨concludes.length.trans concludes'.length.symm, fun i bound bound' => ?_⟩
    have inside : i < ctx.workUnitManager.workUnits.length := by
      rw [← concludes.length]
      exact bound
    obtain ⟨book, unit, here, after, received⟩ := concludes.unit i _ (List.getElem?_eq_getElem inside)
    obtain ⟨book', unit', here', after', received'⟩ := concludes'.unit i _ (List.getElem?_eq_getElem inside)
    rw [List.getElem?_eq_getElem bound, Option.some.injEq] at here
    rw [List.getElem?_eq_getElem bound', Option.some.injEq] at here'
    rw [List.get_eq_getElem, List.get_eq_getElem, here, here']
    refine ⟨fun key => ?_, fun key => Option.ext fun l => ?_⟩
    · have committed : unit.committedOffers = book.committedOffers := by rw [received.frame]
      have committed' : unit'.committedOffers = book'.committedOffers := by rw [received'.frame]
      rw [committed, committed', after.find, after'.find]
    · have uncommitted : book.uncommittedOffers = book'.uncommittedOffers := by rw [after.frame, after'.frame]
      rw [received.find, received'.find, uncommitted]
  supplies := concludes'.supplies.trans concludes.supplies.symm
  stats := concludes'.stats.trans concludes.stats.symm
  log := Multiset.coe_eq_coe.mp (concludes'.log.trans concludes.log.symm)

theorem total_signedTx (jobs : List (Job n)) : total (fun job : Job n => transactionEffect ctx job.signedTx) jobs =
    total (transactionEffect ctx) (jobs.map Job.signedTx) := by
  rw [total, total, List.map_map]
  rfl

/-- In a run of the validators every transaction has an effect, and nothing is claimed twice. -/
theorem validated_of_run (ready : ctx.Ready checker) {order : CommitOrder} {jobs : List (Job n)}
    (run : jobs.foldlM (validateNext order) (startValidation ctx checker n) = some block) :
    (∀ tx ∈ jobs.map Job.signedTx, (transactionEffect ctx tx).isSome = true) ∧
      Admissible ctx.taken (total (transactionEffect ctx) (jobs.map Job.signedTx)) ∧
      ValidatedBlock ctx checker n (total (transactionEffect ctx) (jobs.map Job.signedTx)) block := by
  obtain ⟨c, e, effected, admissible, validated⟩ :=
    (realizes_validateNext ready.sound ready.disposition order).run (validated_start ready n) admissible_zero run
  obtain ⟨all, rfl⟩ := effects_alone.mp effected
  rw [zero_add, total_signedTx] at admissible validated
  exact ⟨List.forall_mem_map.mpr all, admissible, validated⟩

/-- The validators can work off transactions whose effects claim nothing twice. -/
theorem run_of_admissible (ready : ctx.Ready checker) (order : CommitOrder) {jobs : List (Job n)}
    (all : ∀ tx ∈ jobs.map Job.signedTx, (transactionEffect ctx tx).isSome = true)
    (admissible : Admissible ctx.taken (total (transactionEffect ctx) (jobs.map Job.signedTx))) :
    ∃ block, jobs.foldlM (validateNext order) (startValidation ctx checker n) = some block ∧
      ValidatedBlock ctx checker n (total (transactionEffect ctx) (jobs.map Job.signedTx)) block := by
  have effected : effects (alone (fun job : Job n => transactionEffect ctx job.signedTx)) () jobs =
      some ((), total (fun job => transactionEffect ctx job.signedTx) jobs) :=
    effects_alone.mpr ⟨fun job member => all job.signedTx (List.mem_map_of_mem member), rfl⟩
  rw [← total_signedTx] at admissible
  obtain ⟨block, run⟩ := (realizes_validateNext ready.sound ready.disposition order).run_accepts (validated_start ready n)
    effected (by rwa [zero_add])
  exact ⟨block, run, (validated_of_run ready run).2.2⟩

end Blocks

end Speedex
