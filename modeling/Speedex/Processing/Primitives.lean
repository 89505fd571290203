import Speedex.Processing.Working

set_option autoImplicit false

/- The steps of which operations are made, each with its effect. -/
namespace Speedex

open Claims BlockContext TrieNode

variable {D V : Type} [LawfulView V] {g : TxSetting D} {p : Progress} {E : TxEffect}
  {handler handler' : SerialTransactionHandler D} {metadata metadata' : OperationMetadata V} {i : Nat}

omit [LawfulView V] in
/-- Balances are not the handler's own. -/
theorem Keeps.transferred {own : TxTally} (keeps : Keeps g own (handler, metadata, i)) (db' : MemoryDatabase) (view' : V)
    (change : Nat → AssetID → BitVec 64) : Keeps g (own + { (0 : TxTally) with balances := change })
      ({ handler with accountDatabase := db' }, { metadata with dbView := view' }, i) where
  newOffers := by simpa using keeps.newOffers
  derived := by simpa using keeps.derived
  log := by simpa using keeps.log
  stats := by simpa using keeps.stats

/-- A change of balances. -/
theorem Working.transferred (working : Working g p E (handler, metadata, i)) {db' : MemoryDatabase} {view' : V}
    {change : Nat → AssetID → BitVec 64}
    (moved : Transferred handler.accountDatabase (LawfulView.pending metadata.dbView) db' (LawfulView.pending view') change)
    (creation : DatabaseView.creation view' = DatabaseView.creation metadata.dbView) :
    Working g p (E + ⟨0, { (0 : TxTally) with balances := change }⟩)
      ({ handler with accountDatabase := db' }, { metadata with dbView := view' }, i) := by
  obtain ⟨own, split, keeps⟩ := working.own
  exact {
    directory := by simpa using working.directory.onlyBalances moved.only
    balances := by
      show db'.available + LawfulView.pending view' = _
      rw [moved.total, working.balances, add_assoc]
      rfl
    books := by simpa using working.books
    own := ⟨_, by rw [Effect.add_tally, split, add_assoc], keeps.transferred db' view' change⟩
    issued := by simpa using working.issued
    aligned := working.aligned
    claimed := by simpa using working.claimed
    current := by simpa using working.current
    view := creation.trans working.view
    fresh := by simpa using working.fresh
    txMetadata := working.txMetadata
    sourceAccountIdx := working.sourceAccountIdx
    count := working.count }

theorem Working.transferAvailable (working : Working g p E (handler, metadata, i)) {idx : Nat} {asset : AssetID}
    {amount : BitVec 64} (inside : idx < g.ctx.accountDatabase.size)
    (done : Speedex.transferAvailable handler metadata idx asset amount = .ok (handler', metadata', .success)) :
    Working g p (E + ⟨0, { (0 : TxTally) with balances := credit idx asset amount }⟩) (handler', metadata', i) := by
  obtain ⟨⟨db, view, status⟩, call, made⟩ := Fallible.bind_eq_ok.mp done
  cases made
  have existing : idx < (DatabaseView.creation metadata.dbView).dbSize := by rw [working.view]; exact inside
  obtain ⟨moved, creation⟩ := LawfulView.transferAvailable_existing existing call
  exact working.transferred moved creation

theorem Working.escrow (working : Working g p E (handler, metadata, i)) {idx : Nat} {asset : AssetID}
    {amount : BitVec 64} (inside : idx < g.ctx.accountDatabase.size)
    (done : Speedex.escrow handler metadata idx asset amount = .ok (handler', metadata', .success)) :
    Working g p (E + ⟨0, { (0 : TxTally) with balances := credit idx asset (-amount) }⟩) (handler', metadata', i) := by
  obtain ⟨⟨db, view, status⟩, call, made⟩ := Fallible.bind_eq_ok.mp done
  cases made
  have existing : idx < (DatabaseView.creation metadata.dbView).dbSize := by rw [working.view]; exact inside
  obtain ⟨moved, creation⟩ := LawfulView.escrow_existing existing call
  exact working.transferred moved creation

theorem Working.counted (working : Working g p E (handler, metadata, i)) (stats : BlockStateUpdateStats) :
    Working g p (E + ⟨0, { (0 : TxTally) with stats := stats }⟩) (handler, metadata.count stats, i) := by
  obtain ⟨own, split, keeps⟩ := working.own
  have counted : Keeps g (own + { (0 : TxTally) with stats := stats }) (handler, metadata.count stats, i) := {
    newOffers := by simpa using keeps.newOffers
    derived := by simpa using keeps.derived
    log := by simpa using keeps.log
    stats := by
      show g.stats₀ + (metadata.localStats + stats) = own.stats + stats
      rw [← add_assoc, keeps.stats] }
  exact { working with
    directory := by simpa using working.directory
    balances := by
      refine working.balances.trans ?_
      simp
    books := by simpa using working.books
    own := ⟨_, by rw [Effect.add_tally, split, add_assoc], counted⟩
    issued := by simpa using working.issued
    claimed := by simpa using working.claimed
    current := by simpa using working.current
    fresh := by simpa using working.fresh }

/-- A payment to an account that the transaction has created. -/
theorem Working.transferAvailable_new (working : Working g p E (handler, metadata, i)) {k : Nat} {asset : AssetID}
    {amount : BitVec 64}
    (done : Speedex.transferAvailable handler metadata (g.ctx.accountDatabase.size + k) asset amount =
      .ok (handler', metadata', .success)) :
    Working g { p with created := p.created.modify k (fun account => account.transferAvailable asset amount) } E
      (handler', metadata', i) := by
  obtain ⟨⟨db, view, status⟩, call, made⟩ := Fallible.bind_eq_ok.mp done
  cases made
  have new : (DatabaseView.creation metadata.dbView).dbSize ≤ g.ctx.accountDatabase.size + k := by
    rw [working.view]
    exact Nat.le_add_right _ _
  obtain ⟨rfl, pending, data, found, creation⟩ := LawfulView.transferAvailable_new new call
  rw [working.view, findNewAccount_creationView] at found
  rw [working.view, setNewAccount_creationView found (fun account => account.owner_transferAvailable asset amount)] at creation
  obtain ⟨own, split, keeps⟩ := working.own
  exact { working with
    balances := by
      show handler.accountDatabase.available + LawfulView.pending view = _
      rw [pending, working.balances]
    own := ⟨own, split, { keeps with }⟩
    view := creation
    fresh := by
      intro account member
      obtain ⟨j, here⟩ := List.mem_iff_getElem?.mp member
      rw [List.getElem?_modify] at here
      obtain ⟨before, there, same⟩ := Option.map_eq_some_iff.mp here
      have owner : account.owner = before.owner := by
        rw [← same]
        split
        · exact before.owner_transferAvailable asset amount
        · rfl
      rw [owner]
      exact working.fresh before (List.mem_of_getElem? there) }

theorem reserveAccountCreation_eq_success {db : MemoryDatabase} {account : AccountID} :
    (db.reserveAccountCreation account).2 = .success ↔
      (db.userIdToIdxMap account).isSome = false ∧ db.reservedAccountIds account = false := by
  rw [MemoryDatabase.reserveAccountCreation]
  split_ifs with known taken
  · simp [known]
  · simp [taken]
  · simp [known, taken]

theorem reserveAccountCreation_of_free {db : MemoryDatabase} {account : AccountID}
    (reserved : (db.reserveAccountCreation account).2 = .success) : (db.reserveAccountCreation account).1 =
      { db with reservedAccountIds := Function.update db.reservedAccountIds account true } := by
  obtain ⟨unknown, free⟩ := reserveAccountCreation_eq_success.mp reserved
  rw [MemoryDatabase.reserveAccountCreation, if_neg (by simp [unknown]), if_neg (by simp [free])]

/-- What is claimed when an account id is reserved. -/
theorem DirectoryAfter.reserve {ctx : BlockContext} {leaked : AccountID → Prop} {claims : Multiset TxResource}
    {created : Multiset UserAccount} {db : MemoryDatabase} (after : DirectoryAfter ctx leaked claims created db)
    (account : AccountID) :
    DirectoryAfter ctx leaked (claims + {.newAccount account}) created
      { db with reservedAccountIds := Function.update db.reservedAccountIds account true } :=
  { after with
    sequence := fun idx offset => by
      have apart : TxResource.sequenceNumber idx offset ∈ claims + {.newAccount account} ↔
          .sequenceNumber idx offset ∈ claims := by simp
      rw [apart]
      exact after.sequence idx offset
    reserved := fun other => by
      rw [Multiset.mem_add, Multiset.mem_singleton]
      by_cases same : other = account
      · simp [same]
      · rw [or_iff_left (fun equal => same (TxResource.newAccount.inj equal)), ← after.reserved]
        exact iff_of_eq (congrArg (· = true) (Function.update_of_ne same _ _)) }

/-- A new account: its id was free. -/
theorem Working.createNewAccount (working : Working g p E (handler, metadata, i)) (admissible : Admissible g.ctx.taken E)
    {account : AccountID} {pk : PublicKey}
    (done : Speedex.createNewAccount handler metadata account pk = .ok (handler', metadata', .success)) :
    (g.ctx.accountDatabase.userIdToIdxMap account).isSome = false ∧ ¬ g.leaked account ∧
      Admissible g.ctx.taken (E + ⟨{.newAccount account}, 0⟩) ∧
      Working g { p with created := p.created ++ [UserAccount.new account pk] } (E + ⟨{.newAccount account}, 0⟩)
        (handler', metadata', i) := by
  have directory := working.directory
  rw [Speedex.createNewAccount, working.view] at done
  have reserved : (handler.accountDatabase.reserveAccountCreation account).2 = .success := by
    by_contra refused
    rw [AccountCreationView.createNewAccount, if_pos refused] at done
    exact refused (congrArg (fun outcome => outcome.2.2) (Except.ok.inj done))
  obtain ⟨unknown, free⟩ := reserveAccountCreation_eq_success.mp reserved
  rw [directory.userIdToIdxMap] at unknown
  have unclaimed : ¬ (g.ctx.accountDatabase.reservedAccountIds account = true ∨ .newAccount account ∈ E.claims ∨
      g.leaked account) := by
    rw [← directory.reserved, free]
    exact Bool.false_ne_true
  rw [not_or, not_or] at unclaimed
  obtain ⟨untaken, unclaimed, kept⟩ := unclaimed
  have fresh : account ∉ p.created.map UserAccount.owner := by
    intro taken
    obtain ⟨other, member, same⟩ := List.mem_map.mp taken
    exact unclaimed (same ▸ working.fresh other member)
  rw [createNewAccount_creationView fresh reserved, reserveAccountCreation_of_free reserved] at done
  cases done
  refine ⟨unknown, kept, admissible_add_singleton.mpr ⟨admissible, untaken, unclaimed⟩, ?_⟩
  obtain ⟨own, split, keeps⟩ := working.own
  exact { working with
    directory := by simpa using directory.reserve account
    balances := by
      rw [Effect.add_tally, add_zero]
      exact (congrArg _ (LawfulView.pending_setCreation _ _)).trans working.balances
    books := working.books.congr (fun i key => by simp)
    own := ⟨own, by rw [Effect.add_tally, add_zero, split], { keeps with }⟩
    issued := by
      rw [Effect.add_tally, add_zero]
      exact working.issued.mono (Multiset.le_add_right _ _)
    claimed := working.claimed.mono (Multiset.le_add_right _ _)
    current := by simpa using working.current
    view := LawfulView.creation_setCreation _ _
    fresh := by
      intro other member
      rw [Effect.add_claims, Multiset.mem_add]
      rcases List.mem_append.mp member with before | new
      · exact .inl (working.fresh other before)
      · rw [List.mem_singleton.mp new]
        exact .inr (Multiset.mem_singleton_self _) }

section Books

variable {idx : BitVec 32} {offer : Offer} {insertFn : InsertFn} {own : Multiset (Nat × Offer)} {newOffers : List OfferTrie}

/-- A longer list of tries. -/
theorem NewOffersAre.padded (are : NewOffersAre insertFn own newOffers) (n : Nat) :
    NewOffersAre insertFn own (newOffers ++ List.replicate n OfferTrie.empty) where
  valid trie member := by
    rcases List.mem_append.mp member with old | new
    · exact are.valid trie old
    · rw [List.eq_of_mem_replicate new]
      exact MerkleTrie.valid_new workUnitKeyLen
  find i key l := by
    rw [← are.find]
    refine exists_congr (fun trie => and_congr_left (fun found => ?_))
    by_cases inside : i < newOffers.length
    · rw [List.getElem?_append_left inside]
    · rw [List.getElem?_append_right (Nat.le_of_not_lt inside), List.getElem?_eq_none (Nat.le_of_not_lt inside),
        List.getElem?_replicate]
      split_ifs
      · refine iff_of_false (fun same => ?_) (fun absurd => absurd.elim)
        rw [← Option.some.inj same, OfferTrie.empty, MerkleTrie.find_new] at found
        cases found
      · exact Iff.rfl

/-- A trie with one more offer. -/
theorem NewOffersAre.inserted (are : NewOffersAre insertFn own newOffers) {i : Nat} {trie : OfferTrie}
    (here : newOffers[i]? = some trie) (other : ∀ offer', (i, offer') ∈ own → offer'.key ≠ offer.key) :
    ∃ trie', trie.insert insertFn offer.key offer = .ok trie' ∧
      NewOffersAre insertFn (own + {(i, offer)}) (newOffers.set i trie') := by
  obtain ⟨trie', done, valid, finds⟩ := MerkleTrie.insert_spec insertFn offer (are.valid trie (List.mem_of_getElem? here))
    workUnitKeyLen_pos offer.length_key
  refine ⟨trie', done, fun t member => ?_, fun j key l => ?_⟩
  · rcases List.mem_or_eq_of_mem_set member with old | rfl
    · exact are.valid t old
    · exact valid
  · simp only [Multiset.mem_add, Multiset.mem_singleton]
    have inside := (List.getElem?_eq_some_iff.mp here).1
    rw [List.getElem?_set]
    by_cases same : i = j
    · subst same
      rw [if_pos rfl, if_pos inside]
      constructor
      · rintro ⟨t, at_i, found⟩
        cases at_i
        rw [finds] at found
        split_ifs at found with new
        · cases found
          exact ⟨offer, .inr rfl, new.symm, rfl⟩
        · obtain ⟨offer', member, rfl, rfl⟩ := (are.find i key l).mp ⟨trie, here, found⟩
          exact ⟨offer', .inl member, rfl, rfl⟩
      · rintro ⟨offer', old | new, rfl, rfl⟩
        · refine ⟨trie', rfl, ?_⟩
          obtain ⟨t, at_i, found⟩ := (are.find i _ _).mpr ⟨offer', old, rfl, rfl⟩
          rw [here] at at_i
          cases at_i
          rw [finds, if_neg (other offer' old), found]
        · cases new
          exact ⟨trie', rfl, by rw [finds, if_pos rfl]; rfl⟩
    · rw [if_neg same]
      refine (are.find j key l).trans (exists_congr (fun offer' => and_congr_left (fun _ => ?_)))
      exact (or_iff_left (fun new => same (congrArg Prod.fst new).symm)).symm

/-- A book in which one more offer is cancelled. -/
theorem BookAfter.cancelled {claims : Multiset TxResource} {i : Nat} {unit₀ unit : MerkleWorkUnit} {key : Key}
    (after : BookAfter claims i unit₀ unit) (full : key.length = workUnitKeyLen) (found : (unit.markForDeletion key).2 = some offer) :
    ∃ l, unit₀.committedOffers.find key = some l ∧ l.value = offer ∧ l.metadata.numDeletedSubnodes = 0 ∧
      .cancellation i key ∉ claims ∧ BookAfter (claims + {.cancellation i key}) i unit₀ (unit.markForDeletion key).1 := by
  obtain ⟨valid, finds, object⟩ := MerkleTrie.markForDeletion_spec after.valid workUnitKeyLen_pos full
  change (unit.committedOffers.markForDeletion key).2 = _ at found
  rw [object, after.find] at found
  cases before : unit₀.committedOffers.find key with
  | none =>
    rw [before] at found
    cases found
  | some l =>
    rw [before, Option.map_some] at found
    have unclaimed : .cancellation i key ∉ claims := by
      intro claimed
      rw [if_pos claimed, swapLeaf] at found
      split_ifs at found with live
      · simp at found
      · simp [Option.filter, live] at found
    rw [if_neg unclaimed, Option.filter_some] at found
    by_cases live : l.metadata.numDeletedSubnodes = 0
    case neg =>
      rw [decide_eq_false live, if_neg Bool.false_ne_true] at found
      cases found
    rw [decide_eq_true live, if_pos rfl] at found
    refine ⟨l, rfl, Option.some.inj found, live, unclaimed, ?_, valid, fun query => ?_⟩
    · rw [MerkleWorkUnit.markForDeletion]
      exact (congrArg (fun u : MerkleWorkUnit => { u with committedOffers := (unit.committedOffers.markForDeletion key).1 })
        after.frame)
    · refine (finds query).trans ?_
      by_cases same : query = key
      · simp [same, after.find, before, unclaimed]
      · rw [if_neg same, after.find]
        simp [same]

theorem workUnitAt_eq_some {manager : MerkleWorkUnitManager} {unit : MerkleWorkUnit} :
    manager.workUnitAt idx = some unit ↔ 0 ≤ idx.toInt ∧ manager.workUnits[idx.toNat]? = some unit := by
  rw [MerkleWorkUnitManager.workUnitAt]
  split_ifs with negative
  · exact iff_of_false (fun absurd => absurd.elim) (fun both => absurd both.1 (by omega))
  · exact (and_iff_right (by omega)).symm

variable {ctx : BlockContext} {claims : Multiset TxResource} {manager : MerkleWorkUnitManager} {unit unit₀ : MerkleWorkUnit}

theorem BooksAfter.unitAt (after : BooksAfter ctx claims manager) (here : manager.workUnitAt idx = some unit) :
    ∃ unit₀, ctx.workUnitManager.workUnitAt idx = some unit₀ ∧ BookAfter claims idx.toNat unit₀ unit := by
  obtain ⟨nonneg, here⟩ := workUnitAt_eq_some.mp here
  have inside : idx.toNat < ctx.workUnitManager.workUnits.length := by
    rw [← after.length]
    exact (List.getElem?_eq_some_iff.mp here).1
  obtain ⟨unit', here', book⟩ := after.unit idx.toNat _ (List.getElem?_eq_getElem inside)
  rw [here] at here'
  cases here'
  exact ⟨_, workUnitAt_eq_some.mpr ⟨nonneg, List.getElem?_eq_getElem inside⟩, book⟩

/-- The other books do not change. -/
theorem BooksAfter.cancelled (after : BooksAfter ctx claims manager) {key : Key}
    (here : ctx.workUnitManager.workUnitAt idx = some unit₀)
    (book : BookAfter (claims + {.cancellation idx.toNat key}) idx.toNat unit₀ unit) :
    BooksAfter ctx (claims + {.cancellation idx.toNat key}) (manager.setWorkUnit idx unit) where
  numAssets := after.numAssets
  length := by rw [MerkleWorkUnitManager.setWorkUnit, List.length_set, after.length]
  unit i other here' := by
    obtain ⟨nonneg, here⟩ := workUnitAt_eq_some.mp here
    rw [MerkleWorkUnitManager.setWorkUnit, List.getElem?_set]
    by_cases same : idx.toNat = i
    · subst same
      rw [here] at here'
      cases here'
      rw [if_pos rfl, if_pos (by rw [after.length]; exact (List.getElem?_eq_some_iff.mp here).1)]
      exact ⟨unit, rfl, book⟩
    · rw [if_neg same]
      obtain ⟨unit', found, book'⟩ := after.unit i other here'
      refine ⟨unit', found, { book' with find := fun query => (book'.find query).trans ?_ }⟩
      have apart : TxResource.cancellation i query ∈ claims + {.cancellation idx.toNat key} ↔
          .cancellation i query ∈ claims := by
        rw [Multiset.mem_add, Multiset.mem_singleton]
        exact or_iff_left (fun equal => same (TxResource.cancellation.inj equal).1.symm)
      simp only [apart]

end Books

theorem Working.padded (working : Working g p E (handler, metadata, i)) (idx : BitVec 32) :
    Working g p E (handler.ensureSufficientNewOffersSz idx, metadata, i) := by
  obtain ⟨own, split, keeps⟩ := working.own
  exact { working with own := ⟨own, split, { keeps with newOffers := keeps.newOffers.padded _ }⟩ }

/-- A cancelled offer: it was in the book, and nobody had cancelled it. -/
theorem Working.deleteOffer (working : Working g p E (handler, metadata, i)) (admissible : Admissible g.ctx.taken E)
    {idx : BitVec 32} {minPrice : Price} {owner : AccountID} {offerId : BitVec 64} {offer : Offer}
    (done : handler.deleteOffer idx minPrice owner offerId = .ok (handler', some offer)) :
    ∃ unit l, g.ctx.workUnitManager.workUnitAt idx = some unit ∧
      unit.committedOffers.find (generateKey minPrice owner offerId) = some l ∧ l.value = offer ∧
      Admissible g.ctx.taken (E + ⟨{.cancellation idx.toNat (generateKey minPrice owner offerId)}, 0⟩) ∧
      Working g p (E + ⟨{.cancellation idx.toNat (generateKey minPrice owner offerId)}, 0⟩) (handler', metadata, i) := by
  generalize keyEq : generateKey minPrice owner offerId = key
  have full : key.length = workUnitKeyLen := by rw [← keyEq, length_generateKey]
  obtain ⟨⟨manager, found⟩, marked, made⟩ := Fallible.bind_eq_ok.mp done
  cases made
  rw [keyEq] at marked
  obtain ⟨unit, here⟩ := MerkleWorkUnitManager.workUnitAt_of_markForDeletion marked
  rw [MerkleWorkUnitManager.markForDeletion_of_some here] at marked
  obtain ⟨rfl, found⟩ := Prod.mk.inj (Except.ok.inj marked)
  obtain ⟨unit₀, here₀, book⟩ := working.books.unitAt here
  obtain ⟨l, before, value, live, unclaimed, cancelled⟩ := book.cancelled full found
  refine ⟨unit₀, l, here₀, before, value, admissible_add_singleton.mpr ⟨admissible, ?_, unclaimed⟩, ?_⟩
  · rintro ⟨unit', l', here', before', taken⟩
    rw [(workUnitAt_eq_some.mp here₀).2] at here'
    cases here'
    rw [before] at before'
    cases before'
    exact taken live
  · obtain ⟨own, split, keeps⟩ := working.own
    exact { working with
      directory := by
        rw [Effect.add_tally, add_zero]
        exact working.directory.congr (fun i offset => by simp) (fun account => by simp)
      balances := by
        rw [Effect.add_tally, add_zero]
        exact working.balances
      books := working.books.cancelled here₀ cancelled
      own := ⟨own, by rw [Effect.add_tally, add_zero, split], { keeps with newOffers := keeps.newOffers.padded _ }⟩
      issued := by
        rw [Effect.add_tally, add_zero]
        exact working.issued.mono (Multiset.le_add_right _ _)
      claimed := working.claimed.mono (Multiset.le_add_right _ _)
      current := by simpa using working.current
      fresh := fun account member => Multiset.mem_add.mpr (.inl (working.fresh account member)) }

/-- The id of the operation does not matter to the state. -/
theorem Working.named (working : Working g p E (handler, metadata, i)) (id : BitVec 64) :
    Working g p E (handler, { metadata with operationId := id }, i) := by
  obtain ⟨own, split, keeps⟩ := working.own
  exact { working with own := ⟨own, split, { keeps with }⟩ }

/-- The next operation. -/
theorem Working.next (working : Working g p E (handler, metadata, i)) :
    Working g { p with count := p.count + 1 } E (handler, metadata, i + 1) :=
  let ⟨own, split, keeps⟩ := working.own
  { working with
    own := ⟨own, split, { keeps with }⟩
    current := fun o member owner base => Nat.lt_succ_of_lt (working.current o member owner base)
    count := congrArg (· + 1) working.count }

section NewOffers

variable {offer : Offer} {idx : BitVec 32}

/-- The id of an operation: the upper bits tell the transaction, the low bits the operation. -/
theorem toNat_operationId {sender : Sender} (aligned : UserAccount.Aligned sender.txMetadata.sequenceNumber)
    (bounded : p.count < 256) :
    (operationId sender p).toNat = sender.txMetadata.sequenceNumber.toNat + p.count := by
  have small : (BitVec.ofNat 64 p.count).toNat = p.count := by
    rw [BitVec.toNat_ofNat]
    omega
  have top := sender.txMetadata.sequenceNumber.isLt
  unfold UserAccount.Aligned at aligned
  rw [operationId, BitVec.toNat_add, small]
  omega

/-- A new offer of this operation is no other one. -/
theorem Working.unissued (working : Working g p E (handler, metadata, i)) (bounded : p.count < 256)
    (owner : offer.owner = g.sender.txMetadata.sourceAccount) (id : offer.offerId = operationId g.sender p) {o : Nat × Offer}
    (member : o ∈ E.tally.newOffers) : (o.2.owner, o.2.offerId) ≠ (offer.owner, offer.offerId) := by
  intro same
  obtain ⟨sameOwner, sameId⟩ := Prod.mk.inj same
  have value := toNat_operationId working.aligned bounded
  have aligned := working.aligned
  unfold UserAccount.Aligned at aligned
  have before := working.current o member (sameOwner.trans owner) (by rw [sameId, id, value]; omega)
  rw [sameId, id, value] at before
  omega

theorem Working.issue (working : Working g p E (handler, metadata, i)) (bounded : p.count < 256)
    (owner : offer.owner = g.sender.txMetadata.sourceAccount) (id : offer.offerId = operationId g.sender p) (unit : Nat) :
    Issued g.ctx E.claims (E.tally.newOffers + {(unit, offer)}) where
  distinct := by
    rw [Multiset.map_add, Multiset.map_singleton, Multiset.nodup_add]
    refine ⟨working.issued.distinct, Multiset.nodup_singleton _, Multiset.disjoint_singleton.mpr ?_⟩
    intro taken
    obtain ⟨o, member, same⟩ := Multiset.mem_map.mp taken
    exact working.unissued bounded owner id member same
  based o member := by
    rcases Multiset.mem_add.mp member with old | new
    · exact working.issued.based o old
    · rw [Multiset.mem_singleton.mp new]
      obtain ⟨sequenceNumber, idx, account, offset, aligned, same, rest⟩ := working.claimed
      refine ⟨sequenceNumber, idx, account, offset, aligned, ?_, by rw [owner]; exact rest⟩
      have value := toNat_operationId working.aligned bounded
      have here := working.aligned
      unfold UserAccount.Aligned at here
      rw [id, value, ← same]
      omega

/-- A new offer that is kept. -/
theorem Working.kept (working : Working g p E (handler, metadata, i)) (bounded : p.count < 256)
    (owner : offer.owner = g.sender.txMetadata.sourceAccount) (id : offer.offerId = operationId g.sender p)
    (done : (handler.ensureSufficientNewOffersSz idx).updateNewOffers idx
      (fun trie => trie.insert g.insertFn offer.key offer) = .ok handler') :
    Working g { p with count := p.count + 1 } (E + ⟨0, addOfferTally g.sender idx.toNat offer .kept⟩)
      (handler', metadata, i + 1) := by
  have padded := working.padded idx
  obtain ⟨own, split, keeps⟩ := padded.own
  rw [SerialTransactionHandler.updateNewOffers] at done
  cases here : (handler.ensureSufficientNewOffersSz idx).serialManager.newOffers[idx.toNat]? with
  | none =>
    rw [here] at done
    cases done
  | some trie =>
    have other : ∀ offer', (idx.toNat, offer') ∈ own.newOffers → offer'.key ≠ offer.key := by
      intro offer' member same
      refine working.unissued bounded owner id (o := (idx.toNat, offer')) ?_ (owner_of_key same)
      rw [split, TxTally.add_newOffers]
      exact Multiset.mem_add.mpr (.inr member)
    obtain ⟨trie', inserted, newOffers⟩ := keeps.newOffers.inserted here other
    simp only [here, inserted] at done
    cases done
    have next := padded.next
    exact { next with
      directory := by simpa [addOfferTally] using next.directory
      balances := by simpa [addOfferTally] using next.balances
      books := by simpa using next.books
      own := by
        refine ⟨own + addOfferTally g.sender idx.toNat offer .kept, ?_, newOffers, ?_, ?_, ?_⟩
        · rw [Effect.add_tally, split, add_assoc]
        · simpa [addOfferTally] using keeps.derived
        · simpa [addOfferTally] using keeps.log
        · simpa [addOfferTally] using keeps.stats
      issued := by simpa [addOfferTally] using working.issue bounded owner id idx.toNat
      claimed := by simpa using next.claimed
      current := by
        intro o member sameOwner base
        rcases Multiset.mem_add.mp member with old | new
        · exact next.current o old sameOwner base
        · rw [Multiset.mem_singleton.mp new, id, toNat_operationId working.aligned bounded]
          have aligned := working.aligned
          unfold UserAccount.Aligned at aligned
          show _ < p.count + 1
          omega
      fresh := by simpa using next.fresh }

end NewOffers

end Speedex
