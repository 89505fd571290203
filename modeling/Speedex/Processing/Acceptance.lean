import Speedex.Processing.Managers

set_option autoImplicit false

/- A validator takes every operation that has an effect and claims nothing that is claimed already. -/
namespace Speedex

open Claims BlockContext ValidatingSerialManager

/-- What is fixed about a validator. -/
structure Validates (g : TxSetting ValidatingSerialManager) (checker : WorkUnitStateCommitmentChecker) : Prop where
  disposition : g.ctx.disposition = checker.disposition
  insertFn : g.insertFn = .rollback
  derived : g.derived = Counts checker
  leaked : ∀ account, ¬ g.leaked account
  sound : g.ctx.Sound
  inside : g.sender.sourceAccountIdx < g.ctx.accountDatabase.size

variable {g : TxSetting ValidatingSerialManager} {p p' : Progress} {E e : TxEffect}
  {handler : SerialTransactionHandler ValidatingSerialManager} {metadata : OperationMetadata UnbufferedMemoryDatabaseView}
  {i : Nat} {checker : WorkUnitStateCommitmentChecker}

theorem Validates.adds (validates : Validates g checker) : AddsOffers g UnbufferedMemoryDatabaseView :=
  addsOffers_validating validates.disposition validates.insertFn validates.derived validates.inside

/-- The handler takes a step. -/
def Takes (result : Except String (OperationOutcome ValidatingSerialManager UnbufferedMemoryDatabaseView)) : Prop :=
  ∃ handler' metadata', result = .ok (handler', metadata', .success)

theorem Takes.bind {result : Except String (OperationOutcome ValidatingSerialManager UnbufferedMemoryDatabaseView)}
    {next : SerialTransactionHandler ValidatingSerialManager → OperationMetadata UnbufferedMemoryDatabaseView →
      Except String (OperationOutcome ValidatingSerialManager UnbufferedMemoryDatabaseView)}
    (first : Takes result) (rest : ∀ handler' metadata', result = .ok (handler', metadata', .success) →
      Takes (next handler' metadata')) : Takes (onSuccess result next) := by
  obtain ⟨handler', metadata', done⟩ := first
  obtain ⟨handler'', metadata'', done'⟩ := rest _ _ done
  exact ⟨handler'', metadata'', onSuccess_eq_ok.mpr ⟨_, _, done, done'⟩⟩

section Primitives

variable {idx : Nat} {asset : AssetID} {amount : BitVec 64}

theorem Working.found (working : Working g p E (handler, metadata, i)) (inside : idx < g.ctx.accountDatabase.size) :
    ∃ account, handler.accountDatabase.findAccount idx = .ok account := by
  have inside' : idx < handler.accountDatabase.database.length := by
    rw [working.directory.length]
    exact inside
  exact ⟨_, findAccount_eq_ok.mpr (List.getElem?_eq_getElem inside')⟩

theorem Working.takes_transferAvailable (working : Working g p E (handler, metadata, i))
    (inside : idx < g.ctx.accountDatabase.size) : Takes (Speedex.transferAvailable handler metadata idx asset amount) := by
  obtain ⟨account, found⟩ := working.found inside
  have existing : idx < metadata.dbView.creation.dbSize := by
    rw [show metadata.dbView.creation = _ from working.view]
    exact inside
  exact ⟨_, _, by
    rw [Speedex.transferAvailable]
    show (UnbufferedMemoryDatabaseView.transferAvailable _ _ _ _ _ >>= _) = _
    rw [UnbufferedMemoryDatabaseView.transferAvailable, if_pos existing, MemoryDatabase.transferAvailable, found]
    rfl⟩

theorem Working.takes_escrow (working : Working g p E (handler, metadata, i))
    (inside : idx < g.ctx.accountDatabase.size) : Takes (Speedex.escrow handler metadata idx asset amount) := by
  obtain ⟨account, found⟩ := working.found inside
  have existing : idx < metadata.dbView.creation.dbSize := by
    rw [show metadata.dbView.creation = _ from working.view]
    exact inside
  exact ⟨_, _, by
    rw [Speedex.escrow]
    show (UnbufferedMemoryDatabaseView.escrow _ _ _ _ _ >>= _) = _
    rw [UnbufferedMemoryDatabaseView.escrow, if_pos existing, MemoryDatabase.escrow, found]
    rfl⟩

theorem Working.takes_transferAvailable_new (working : Working g p E (handler, metadata, i)) {k : Nat}
    (new : k < p.created.length) :
    Takes (Speedex.transferAvailable handler metadata (g.ctx.accountDatabase.size + k) asset amount) := by
  have view : metadata.dbView.creation = _ := working.view
  have beyond : ¬ g.ctx.accountDatabase.size + k < metadata.dbView.creation.dbSize := by
    rw [view]
    exact Nat.not_lt.mpr (Nat.le_add_right _ _)
  have found : metadata.dbView.creation.findNewAccount (g.ctx.accountDatabase.size + k) = .ok (p.created.get ⟨k, new⟩) := by
    rw [view]
    exact findNewAccount_creationView.mpr (List.getElem?_eq_getElem new)
  exact ⟨_, _, by
    rw [Speedex.transferAvailable]
    show (UnbufferedMemoryDatabaseView.transferAvailable _ _ _ _ _ >>= _) = _
    rw [UnbufferedMemoryDatabaseView.transferAvailable, if_neg beyond, found]
    rfl⟩

theorem Working.takes_createNewAccount (working : Working g p E (handler, metadata, i)) {account : AccountID} (pk : PublicKey)
    (kept : ¬ g.leaked account) (unknown : (g.ctx.accountDatabase.userIdToIdxMap account).isSome = false)
    (free : Admissible g.ctx.taken (E + ⟨{.newAccount account}, 0⟩)) :
    Takes (Speedex.createNewAccount handler metadata account pk) := by
  obtain ⟨-, untaken, unclaimed⟩ := admissible_add_singleton.mp free
  have reserved : (handler.accountDatabase.reserveAccountCreation account).2 = .success := by
    refine reserveAccountCreation_eq_success.mpr ⟨by rw [working.directory.userIdToIdxMap]; exact unknown, ?_⟩
    rw [← Bool.not_eq_true, working.directory.reserved, not_or, not_or]
    exact ⟨untaken, unclaimed, kept⟩
  have fresh : account ∉ p.created.map UserAccount.owner := by
    intro taken
    obtain ⟨other, member, same⟩ := List.mem_map.mp taken
    exact unclaimed (same ▸ working.fresh other member)
  exact ⟨_, _, by rw [Speedex.createNewAccount, working.view, createNewAccount_creationView fresh reserved]⟩

/-- An offer of the book that nobody has cancelled can be cancelled. -/
theorem Working.finds_deleteOffer (working : Working g p E (handler, metadata, i)) {unit : BitVec 32} {book : MerkleWorkUnit}
    {minPrice : Price} {owner : AccountID} {offerId : BitVec 64} {l : Leaf Offer}
    (here : g.ctx.workUnitManager.workUnitAt unit = some book)
    (listed : book.committedOffers.find (generateKey minPrice owner offerId) = some l)
    (free : Admissible g.ctx.taken (E + ⟨{.cancellation unit.toNat (generateKey minPrice owner offerId)}, 0⟩)) :
    ∃ handler', handler.deleteOffer unit minPrice owner offerId = .ok (handler', some l.value) := by
  obtain ⟨-, untaken, unclaimed⟩ := admissible_add_singleton.mp free
  obtain ⟨nonneg, inside⟩ := workUnitAt_eq_some.mp here
  obtain ⟨book', found, after⟩ := working.books.unit _ _ inside
  have live : l.metadata.numDeletedSubnodes = 0 := by
    by_contra marked
    exact untaken ⟨book, l, inside, listed, marked⟩
  obtain ⟨-, -, object⟩ := MerkleTrie.markForDeletion_spec after.valid workUnitKeyLen_pos
    (length_generateKey minPrice owner offerId)
  rw [after.find, listed, Option.map_some, if_neg unclaimed, Option.filter_some, decide_eq_true live, if_pos rfl,
    Option.map_some] at object
  have found' : handler.workUnitManager.workUnitAt unit = some book' := workUnitAt_eq_some.mpr ⟨nonneg, found⟩
  exact ⟨_, by
    rw [SerialTransactionHandler.deleteOffer]
    show (handler.workUnitManager.markForDeletion _ _ >>= _) = _
    rw [MerkleWorkUnitManager.markForDeletion_of_some found']
    show Except.ok (_, (book'.committedOffers.markForDeletion _).2) = _
    rw [object]⟩

/-- A new offer goes in if the commitment says what becomes of it. -/
theorem Working.takes_addOffer (validates : Validates g checker) (working : Working g p E (handler, metadata, i))
    {idx : BitVec 32} {offer : Offer} {disposition : Disposition}
    (disposed : g.ctx.disposition idx.toNat offer = some disposition) :
    ∃ handler' metadata', addOffer handler metadata idx offer = .ok (handler', metadata') := by
  have padded : Working g p E (ensureSufficientNewOffersSz handler idx, metadata, i) :=
    (working.sized validates.derived).padded idx
  obtain ⟨own, split, keeps⟩ := padded.own
  have counts := keeps.derived
  rw [validates.derived] at counts
  have commitments : (ensureSufficientNewOffersSz handler idx).serialManager.derived.clearingCommitment = checker := counts.1
  rw [validates.disposition, WorkUnitStateCommitmentChecker.disposition] at disposed
  obtain ⟨commitment, here, disposed⟩ := Option.bind_eq_some_iff.mp disposed
  rw [addOffer]
  simp only [commitments, here]
  by_cases beyond : commitment.thresholdKeyIsNull ≠ 1 ∧ commitment.partialExecThresholdKey.val ≤ offer.key
  · rw [if_neg beyond.1, if_pos beyond.2]
    have long : idx.toNat < (ensureSufficientNewOffersSz handler idx).serialManager.newOffers.length := by
      show idx.toNat < (handler.serialManager.newOffers ++ List.replicate _ _).length
      rw [List.length_append, List.length_replicate]
      show idx.toNat < handler.serialManager.newOffers.length + (idx.toNat + 1 - handler.serialManager.newOffers.length)
      omega
    have at_idx := List.getElem?_eq_getElem long
    obtain ⟨trie', inserted, -⟩ := MerkleTrie.insert_spec .rollback offer (keeps.newOffers.valid _ (List.mem_of_getElem? at_idx))
      workUnitKeyLen_pos offer.length_key
    exact ⟨_, _, by rw [SerialTransactionHandler.updateNewOffers, at_idx]; simp only [inserted]; rfl⟩
  · rw [if_neg beyond] at disposed
    obtain ⟨sellPrice, sold, disposed⟩ := Option.bind_eq_some_iff.mp disposed
    obtain ⟨buyPrice, bought, disposed⟩ := Option.bind_eq_some_iff.mp disposed
    split_ifs at disposed with zero
    have takes : Takes (Speedex.transferAvailable (ensureSufficientNewOffersSz handler idx) metadata g.sender.sourceAccountIdx
        offer.category.buyAsset (fullBuyAmount offer sellPrice buyPrice checker.taxRate)) :=
      padded.takes_transferAvailable validates.inside
    obtain ⟨handler₁, metadata₁, paid⟩ := takes
    have long : idx.toNat < (ensureSufficientNewOffersSz handler idx).serialManager.derived.activatedSupplies.length :=
      length_makeMinimumSize _ _
    have clears : ∃ handler' metadata', clearPreemptively (ensureSufficientNewOffersSz handler idx) metadata idx offer =
        .ok (handler', metadata') := by
      obtain ⟨⟨db, view, status⟩, call, -⟩ := Fallible.bind_eq_ok.mp paid
      have sender : metadata.sourceAccountIdx = g.sender.sourceAccountIdx := working.sourceAccountIdx
      exact ⟨_, _, by
        rw [clearPreemptively]
        simp only [commitments, sold, bought, List.getElem?_eq_getElem long]
        rw [ValidatingSerialManager.clearOfferFull, if_neg zero, sender]
        show ((DatabaseView.transferAvailable _ _ _ _ _ >>= _) >>= _) = _
        rw [call]
        rfl⟩
    split_ifs with null above
    · exact clears
    · exact absurd ⟨null, above⟩ beyond
    · exact clears

end Primitives

section Operations

variable (validates : Validates g checker) (working : Working g p E (handler, metadata, i))
  (admissible : Admissible g.ctx.taken (E + e))

include validates working

theorem Working.takes_moneyPrinter {op : MoneyPrinterOp} (effect : moneyPrinterEffect g.sender p op = some (p', e)) :
    Takes (Speedex.processMoneyPrinter handler metadata op) := by
  rw [moneyPrinterEffect] at effect
  rw [Speedex.processMoneyPrinter]
  split_ifs at effect ⊢
  rw [working.sourceAccountIdx]
  exact working.takes_transferAvailable validates.inside

theorem Working.takes_payment {op : PaymentOp} (effect : paymentEffect g.ctx g.sender p op = some (p', e)) :
    Takes (Speedex.processPayment handler metadata op) := by
  have known : handler.accountDatabase.lookupUserId op.receiver = g.ctx.accountDatabase.lookupUserId op.receiver :=
    congrFun working.directory.userIdToIdxMap op.receiver
  rw [Speedex.processPayment, working.view, lookupUserId_creationView, known]
  rw [paymentEffect] at effect
  cases found : g.ctx.accountDatabase.lookupUserId op.receiver with
  | some idx =>
    rw [Option.some_or]
    refine Takes.bind ?_ (fun handler₁ metadata₁ paid => Takes.bind ?_ (fun handler₂ metadata₂ received => ⟨_, _, rfl⟩))
    · rw [working.sourceAccountIdx]
      exact working.takes_transferAvailable validates.inside
    · rw [working.sourceAccountIdx] at paid
      exact (working.transferAvailable validates.inside paid).takes_transferAvailable (validates.sound.located _ _ found)
  | none =>
    rw [found] at effect
    obtain ⟨k, new, -⟩ := Option.map_eq_some_iff.mp effect
    rw [Option.none_or, new, Option.map_some]
    refine Takes.bind ?_ (fun handler₁ metadata₁ paid => Takes.bind ?_ (fun handler₂ metadata₂ received => ⟨_, _, rfl⟩))
    · rw [working.sourceAccountIdx]
      exact working.takes_transferAvailable validates.inside
    · rw [working.sourceAccountIdx] at paid
      exact (working.transferAvailable validates.inside paid).takes_transferAvailable_new
        (List.findIdx?_eq_some_iff_getElem.mp new).1

include admissible

theorem Working.takes_createAccount {op : CreateAccountOp} (effect : createAccountEffect g.ctx g.sender p op = some (p', e)) :
    Takes (Speedex.processCreateAccount handler metadata op) := by
  rw [createAccountEffect] at effect
  rw [Speedex.processCreateAccount, working.view, newIdx_creationView]
  split_ifs at effect ⊢ with low known
  cases effect
  have free : Admissible g.ctx.taken (E + ⟨{.newAccount op.newAccountId}, 0⟩) := ⟨admissible.nodup, admissible.free⟩
  refine Takes.bind ?_ (fun handler₁ metadata₁ created => ?_)
  · exact working.takes_createNewAccount _ (validates.leaked _) (Bool.not_eq_true _ ▸ known) free
  · obtain ⟨-, -, -, working₁⟩ := working.createNewAccount free.left created
    rw [working₁.sourceAccountIdx]
    refine Takes.bind (working₁.takes_transferAvailable validates.inside) (fun handler₂ metadata₂ paid => ?_)
    have working₂ := working₁.transferAvailable validates.inside paid
    refine Takes.bind (working₂.takes_transferAvailable_new ?_) (fun handler₃ metadata₃ received => ⟨_, _, rfl⟩)
    rw [List.length_append, List.length_singleton]
    exact Nat.lt_succ_self _

theorem Working.takes_cancelSellOffer {op : CancelSellOfferOp}
    (effect : cancelSellOfferEffect g.ctx g.sender p op = some (p', e)) :
    Takes (Speedex.processCancelSellOffer handler metadata op) := by
  rw [cancelSellOfferEffect] at effect
  cases known : g.ctx.workUnitManager.lookUpIdx op.category with
  | error what =>
    rw [known] at effect
    cases effect
  | ok idx =>
    rw [known] at effect
    obtain ⟨unit, here, effect⟩ := Option.bind_eq_some_iff.mp effect
    obtain ⟨l, listed, effect⟩ := Option.bind_eq_some_iff.mp effect
    cases effect
    have free : Admissible g.ctx.taken (E + ⟨{.cancellation idx.toNat
        (generateKey op.minPrice g.sender.txMetadata.sourceAccount op.offerId)}, 0⟩) := ⟨admissible.nodup, admissible.free⟩
    obtain ⟨handler₁, deleted⟩ := working.finds_deleteOffer here listed free
    obtain ⟨-, -, -, -, -, -, working₁⟩ := working.deleteOffer free.left deleted
    have takes : Takes (Speedex.escrow handler₁ metadata g.sender.sourceAccountIdx op.category.sellAsset (-l.value.amount)) :=
      working₁.takes_escrow validates.inside
    obtain ⟨handler₂, metadata₂, escrowed⟩ := takes
    exact ⟨_, _, by
      rw [Speedex.processCancelSellOffer, lookUpIdx_congr working.books, known]
      show (SerialTransactionHandler.deleteOffer _ _ _ _ _ >>= _) = _
      rw [working.txMetadata, deleted]
      show (Speedex.escrow _ _ _ _ _ >>= _) = _
      rw [working₁.sourceAccountIdx, escrowed]
      rfl⟩

omit admissible in
theorem Working.takes_createSellOffer (bounded : p.count < 256) (operation : metadata.operationId = operationId g.sender p)
    {op : CreateSellOfferOp} (effect : createSellOfferEffect g.ctx g.sender p op = some (p', e)) :
    Takes (Speedex.processCreateSellOffer handler metadata op) := by
  rw [createSellOfferEffect] at effect
  rw [Speedex.processCreateSellOffer, working.books.numAssets]
  split_ifs at effect ⊢
  cases known : g.ctx.workUnitManager.lookUpIdx op.category with
  | error what =>
    rw [known] at effect
    cases effect
  | ok idx =>
    rw [known] at effect
    obtain ⟨disposition, disposed, -⟩ := Option.map_eq_some_iff.mp effect
    have offer : makeOffer op metadata.txMetadata metadata.operationId =
        makeOffer op g.sender.txMetadata (operationId g.sender p) := by rw [operation, working.txMetadata]
    obtain ⟨handler₁, metadata₁, added⟩ := working.takes_addOffer validates disposed
    obtain ⟨_, -, working₁⟩ := validates.adds working bounded rfl rfl operation added
    have takes : Takes (Speedex.escrow handler₁ metadata₁ g.sender.sourceAccountIdx op.category.sellAsset op.amount) :=
      working₁.takes_escrow validates.inside
    obtain ⟨handler₂, metadata₂, escrowed⟩ := takes
    exact ⟨_, _, by
      rw [lookUpIdx_congr working.books, known]
      show (SerialManager.addOffer _ _ _ _ >>= _) = _
      rw [offer]
      show (addOffer _ _ _ _ >>= _) = _
      rw [added]
      show (Speedex.escrow _ _ _ _ _ >>= _) = _
      rw [working₁.sourceAccountIdx, escrowed]
      rfl⟩

end Operations

/-- An operation with an admissible effect is taken. -/
theorem Working.takes_operation (validates : Validates g checker) (working : Working g p E (handler, metadata, i))
    {op : Operation} (effect : operationEffect g.ctx g.sender p op = some (p', e)) (admissible : Admissible g.ctx.taken (E + e)) :
    Takes (Speedex.processOperation handler
      { metadata with operationId := metadata.txMetadata.sequenceNumber + BitVec.ofNat 64 i } op) := by
  have operation : metadata.txMetadata.sequenceNumber + BitVec.ofNat 64 i = operationId g.sender p := by
    have count : i = p.count := working.count
    have txMetadata : metadata.txMetadata = g.sender.txMetadata := working.txMetadata
    rw [operationId, count, txMetadata]
  rw [operation]
  have named := working.named (operationId g.sender p)
  unfold operationEffect at effect
  split_ifs at effect with many
  cases op with
  | createAccount op => exact named.takes_createAccount validates admissible effect
  | createSellOffer op => exact named.takes_createSellOffer validates (Nat.lt_of_not_le many) rfl effect
  | cancelSellOffer op => exact named.takes_cancelSellOffer validates admissible effect
  | payment op => exact named.takes_payment validates effect
  | moneyPrinter op => exact named.takes_moneyPrinter validates effect

/-- Operations with an admissible effect are all taken. -/
theorem Working.takes_operations (validates : Validates g checker) {operations : List Operation}
    (working : Working g p E (handler, metadata, i))
    (effected : effects (operationEffect g.ctx g.sender) p operations = some (p', e))
    (admissible : Admissible g.ctx.taken (E + e)) : ∃ handler' metadata' n,
      Speedex.processOperations handler metadata i operations = .ok (handler', metadata', n, .success) := by
  induction operations generalizing p E e handler metadata i with
  | nil => exact ⟨handler, metadata, i, rfl⟩
  | cons op operations ih =>
    obtain ⟨⟨p₁, e₁⟩, first, later⟩ := Option.bind_eq_some_iff.mp effected
    obtain ⟨⟨p₂, e₂⟩, rest, same⟩ := Option.map_eq_some_iff.mp later
    cases same
    rw [← add_assoc] at admissible
    obtain ⟨handler₁, metadata₁, done⟩ := working.takes_operation validates first admissible.left
    have bounded : p.count < maxOpsPerTx.toNat := by
      unfold operationEffect at first
      split_ifs at first with many
      exact Nat.lt_of_not_le many
    obtain ⟨p₁', e₁', first', -, working₁⟩ :=
      working.processOperation validates.adds validates.sound validates.inside admissible.left.left bounded done
    rw [first] at first'
    cases first'
    obtain ⟨handler', metadata', n, taken⟩ := ih working₁ rest admissible
    exact ⟨handler', metadata', n, by
      rw [Speedex.processOperations]
      show (Speedex.processOperation _ _ _ >>= _) = _
      rw [done]
      exact taken⟩

end Speedex
