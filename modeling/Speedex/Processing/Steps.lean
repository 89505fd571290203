import Speedex.Processing.Primitives

set_option autoImplicit false

/- An operation that succeeds has its effect. -/
namespace Speedex

open Claims BlockContext

variable {D V : Type} [LawfulView V] {g : TxSetting D} {p : Progress} {E : TxEffect}
  {handler handler' : SerialTransactionHandler D} {metadata metadata' : OperationMetadata V} {i : Nat}

omit [LawfulView V] in
theorem onSuccess_eq_ok {result : Except String (OperationOutcome D V)}
    {next : SerialTransactionHandler D → OperationMetadata V → Except String (OperationOutcome D V)} :
    onSuccess result next = .ok (handler, metadata, .success) ↔
      ∃ handler' metadata', result = .ok (handler', metadata', .success) ∧
        next handler' metadata' = .ok (handler, metadata, .success) := by
  constructor
  · intro done
    obtain ⟨⟨handler', metadata', status⟩, first, rest⟩ := Fallible.bind_eq_ok.mp done
    by_cases success : status = .success
    · subst success
      exact ⟨handler', metadata', first, rest⟩
    · change (if status ≠ .success then _ else _) = _ at rest
      rw [if_pos success] at rest
      cases rest
      exact absurd rfl success
  · rintro ⟨handler', metadata', first, rest⟩
    rw [onSuccess, first]
    exact rest

/-- What an operation that succeeds does to the state in the middle of a transaction. -/
def Achieves (g : TxSetting D) (E : TxEffect) (i : Nat) (effect : Option (Progress × TxEffect))
    (handler' : SerialTransactionHandler D) (metadata' : OperationMetadata V) : Prop :=
  ∃ p' e, effect = some (p', e) ∧ Admissible g.ctx.taken (E + e) ∧ Working g p' (E + e) (handler', metadata', i + 1)

/-- What both managers do with a new offer. -/
def AddsOffers [SerialManager D] (g : TxSetting D) (V : Type) [LawfulView V] : Prop :=
  ∀ {p : Progress} {E : TxEffect} {handler handler' : SerialTransactionHandler D} {metadata metadata' : OperationMetadata V}
    {i : Nat} {idx : BitVec 32} {offer : Offer}, Working g p E (handler, metadata, i) → p.count < 256 →
    offer.owner = g.sender.txMetadata.sourceAccount → offer.offerId = operationId g.sender p →
    metadata.operationId = operationId g.sender p →
    SerialManager.addOffer handler metadata idx offer = .ok (handler', metadata') →
    ∃ disposition, g.ctx.disposition idx.toNat offer = some disposition ∧
      Working g { p with count := p.count + 1 } (E + ⟨0, addOfferTally g.sender idx.toNat offer disposition⟩)
        (handler', metadata', i + 1)

theorem Working.processMoneyPrinter (working : Working g p E (handler, metadata, i)) (admissible : Admissible g.ctx.taken E)
    (inside : g.sender.sourceAccountIdx < g.ctx.accountDatabase.size) {op : MoneyPrinterOp}
    (done : Speedex.processMoneyPrinter handler metadata op = .ok (handler', metadata', .success)) :
    Achieves g E i (moneyPrinterEffect g.sender p op) handler' metadata' := by
  rw [Speedex.processMoneyPrinter] at done
  rw [moneyPrinterEffect]
  by_cases negative : op.amount.slt 0 = true
  · rw [if_pos negative] at done
    cases done
  · rw [if_neg negative, working.sourceAccountIdx] at done
    rw [if_neg negative]
    exact ⟨_, _, rfl, admissible_add_tally.mpr admissible, (working.transferAvailable inside done).next⟩

theorem Working.processCreateAccount (working : Working g p E (handler, metadata, i))
    (admissible : Admissible g.ctx.taken E) (inside : g.sender.sourceAccountIdx < g.ctx.accountDatabase.size)
    {op : CreateAccountOp} (done : Speedex.processCreateAccount handler metadata op = .ok (handler', metadata', .success)) :
    Achieves g E i (createAccountEffect g.ctx g.sender p op) handler' metadata' := by
  rw [Speedex.processCreateAccount] at done
  rw [createAccountEffect]
  by_cases low : op.startingBalance.slt createAccountMinStartingBalance = true
  · rw [if_pos low] at done
    cases done
  · rw [if_neg low, working.view, newIdx_creationView] at done
    rw [if_neg low]
    obtain ⟨handler₁, metadata₁, created, done⟩ := onSuccess_eq_ok.mp done
    obtain ⟨handler₂, metadata₂, paid, done⟩ := onSuccess_eq_ok.mp done
    obtain ⟨handler₃, metadata₃, received, done⟩ := onSuccess_eq_ok.mp done
    obtain ⟨unknown, -, admissible₁, working₁⟩ := working.createNewAccount admissible created
    rw [working₁.sourceAccountIdx] at paid
    have working₃ := (working₁.transferAvailable inside paid).transferAvailable_new received
    cases done
    rw [if_neg (by rw [unknown]; exact Bool.false_ne_true)]
    refine ⟨_, _, rfl, ?_, ?_⟩
    · exact ⟨admissible₁.nodup, admissible₁.free⟩
    · have last : (p.created ++ [UserAccount.new op.newAccountId op.newAccountPublicKey]).modify p.created.length
          (fun account => account.transferAvailable nativeAsset op.startingBalance) =
            p.created ++ [(UserAccount.new op.newAccountId op.newAccountPublicKey).transferAvailable nativeAsset
              op.startingBalance] := by
        rw [List.modify_eq_take_drop]
        simp
      have counted := (working₃.counted { (0 : BlockStateUpdateStats) with newAccountCount := 1 }).next
      simp only [last] at counted
      convert counted using 1
      rw [add_assoc, add_assoc]
      refine congrArg (E + ·) (Effect.ext ?_ (TxTally.ext ?_ ?_ ?_ ?_ ?_ ?_)) <;> simp

theorem Working.processPayment (working : Working g p E (handler, metadata, i)) (admissible : Admissible g.ctx.taken E)
    (sound : g.ctx.Sound) (inside : g.sender.sourceAccountIdx < g.ctx.accountDatabase.size) {op : PaymentOp}
    (done : Speedex.processPayment handler metadata op = .ok (handler', metadata', .success)) :
    Achieves g E i (paymentEffect g.ctx g.sender p op) handler' metadata' := by
  have known : handler.accountDatabase.lookupUserId op.receiver = g.ctx.accountDatabase.lookupUserId op.receiver :=
    congrFun working.directory.userIdToIdxMap op.receiver
  rw [Speedex.processPayment, working.view, lookupUserId_creationView, known] at done
  rw [paymentEffect]
  cases found : g.ctx.accountDatabase.lookupUserId op.receiver with
  | some idx =>
    rw [found, Option.some_or] at done
    obtain ⟨handler₁, metadata₁, paid, done⟩ := onSuccess_eq_ok.mp done
    obtain ⟨handler₂, metadata₂, received, done⟩ := onSuccess_eq_ok.mp done
    rw [working.sourceAccountIdx] at paid
    have working₂ := (working.transferAvailable inside paid).transferAvailable (sound.located _ _ found) received
    cases done
    refine ⟨_, _, rfl, admissible_add_tally.mpr admissible, ?_⟩
    convert (working₂.counted { (0 : BlockStateUpdateStats) with paymentCount := 1 }).next using 1
    rw [add_assoc, add_assoc]
    refine congrArg (E + ·) (Effect.ext ?_ (TxTally.ext ?_ ?_ ?_ ?_ ?_ ?_)) <;> simp
  | none =>
    rw [found, Option.none_or] at done
    cases new : p.created.findIdx? (fun account => account.owner = op.receiver) with
    | none =>
      rw [new] at done
      cases done
    | some k =>
      rw [new, Option.map_some] at done
      obtain ⟨handler₁, metadata₁, paid, done⟩ := onSuccess_eq_ok.mp done
      obtain ⟨handler₂, metadata₂, received, done⟩ := onSuccess_eq_ok.mp done
      rw [working.sourceAccountIdx] at paid
      have working₂ := (working.transferAvailable inside paid).transferAvailable_new received
      cases done
      refine ⟨_, _, rfl, admissible_add_tally.mpr admissible, ?_⟩
      convert (working₂.counted { (0 : BlockStateUpdateStats) with paymentCount := 1 }).next using 1
      rw [add_assoc]
      refine congrArg (E + ·) (Effect.ext ?_ (TxTally.ext ?_ ?_ ?_ ?_ ?_ ?_)) <;> simp

theorem lookUpIdx_congr {ctx : BlockContext} {claims : Multiset TxResource} {manager : MerkleWorkUnitManager}
    (after : BooksAfter ctx claims manager) (id : OfferCategory) : manager.lookUpIdx id = ctx.workUnitManager.lookUpIdx id := by
  rw [MerkleWorkUnitManager.lookUpIdx, MerkleWorkUnitManager.lookUpIdx, after.numAssets]

section Offers

variable [SerialManager D]

theorem Working.processCreateSellOffer (adds : AddsOffers g V) (working : Working g p E (handler, metadata, i))
    (admissible : Admissible g.ctx.taken E) (inside : g.sender.sourceAccountIdx < g.ctx.accountDatabase.size)
    (bounded : p.count < 256) (operation : metadata.operationId = operationId g.sender p) {op : CreateSellOfferOp}
    (done : Speedex.processCreateSellOffer handler metadata op = .ok (handler', metadata', .success)) :
    Achieves g E i (createSellOfferEffect g.ctx g.sender p op) handler' metadata' := by
  rw [Speedex.processCreateSellOffer, working.books.numAssets] at done
  rw [createSellOfferEffect]
  split_ifs at done ⊢
  case neg category price amount =>
    obtain ⟨idx, found, done⟩ := Fallible.bind_eq_ok.mp done
    obtain ⟨⟨handler₁, metadata₁⟩, added, done⟩ := Fallible.bind_eq_ok.mp done
    obtain ⟨⟨handler₂, metadata₂, status⟩, escrowed, done⟩ := Fallible.bind_eq_ok.mp done
    rw [lookUpIdx_congr working.books] at found
    have offer : makeOffer op metadata.txMetadata metadata.operationId =
        makeOffer op g.sender.txMetadata (operationId g.sender p) := by rw [operation, working.txMetadata]
    rw [offer] at added done
    obtain ⟨disposition, disposed, working₁⟩ := adds working bounded rfl rfl operation added
    by_cases success : status = .success
    · subst success
      rw [working₁.sourceAccountIdx] at escrowed
      have working₂ := working₁.escrow inside escrowed
      cases done
      simp only [found, disposed, Option.map_some]
      refine ⟨_, _, rfl, admissible_add_tally.mpr admissible, ?_⟩
      convert working₂.counted { (0 : BlockStateUpdateStats) with newOfferCount := 1 } using 1
      rw [add_assoc, add_assoc]
      refine congrArg (E + ·) (Effect.ext ?_ (TxTally.ext ?_ ?_ ?_ ?_ ?_ ?_)) <;> simp [makeOffer]
    · simp only [ne_eq, success, not_false_eq_true, if_true] at done
      obtain ⟨handler₃, unwound, made⟩ := Fallible.bind_eq_ok.mp done
      cases made
      exact absurd rfl success
  all_goals cases done

theorem Working.processCancelSellOffer (working : Working g p E (handler, metadata, i))
    (admissible : Admissible g.ctx.taken E) (inside : g.sender.sourceAccountIdx < g.ctx.accountDatabase.size)
    {op : CancelSellOfferOp} (done : Speedex.processCancelSellOffer handler metadata op = .ok (handler', metadata', .success)) :
    Achieves g E i (cancelSellOfferEffect g.ctx g.sender p op) handler' metadata' := by
  obtain ⟨idx, known, done⟩ := Fallible.bind_eq_ok.mp done
  obtain ⟨⟨handler₁, foundOffer⟩, deleted, done⟩ := Fallible.bind_eq_ok.mp done
  rw [lookUpIdx_congr working.books] at known
  rw [working.txMetadata] at deleted
  cases foundOffer with
  | none => cases done
  | some foundOffer =>
    obtain ⟨⟨handler₂, metadata₂, status⟩, escrowed, done⟩ := Fallible.bind_eq_ok.mp done
    obtain ⟨unit, l, here, found, value, admissible₁, working₁⟩ := working.deleteOffer admissible deleted
    by_cases success : status = .success
    · subst success
      rw [working₁.sourceAccountIdx] at escrowed
      have working₂ := working₁.escrow inside escrowed
      cases done
      rw [cancelSellOfferEffect, known]
      simp only [here, found, value, Option.bind_eq_bind, Option.bind_some]
      refine ⟨_, _, rfl, ⟨admissible₁.nodup, admissible₁.free⟩, ?_⟩
      convert (working₂.counted { (0 : BlockStateUpdateStats) with cancelOfferCount := 1 }).next using 1
      rw [add_assoc, add_assoc]
      refine congrArg (E + ·) (Effect.ext ?_ (TxTally.ext ?_ ?_ ?_ ?_ ?_ ?_)) <;> simp
    · simp only [ne_eq, success, not_false_eq_true, if_true] at done
      obtain ⟨handler₃, unwound, made⟩ := Fallible.bind_eq_ok.mp done
      cases made
      exact absurd rfl success

/-- One round of the loop over the operations. -/
theorem Working.processOperation (adds : AddsOffers g V) (sound : g.ctx.Sound)
    (inside : g.sender.sourceAccountIdx < g.ctx.accountDatabase.size) (working : Working g p E (handler, metadata, i))
    (admissible : Admissible g.ctx.taken E) (bounded : p.count < maxOpsPerTx.toNat) {op : Operation}
    (done : Speedex.processOperation handler
        { metadata with operationId := metadata.txMetadata.sequenceNumber + BitVec.ofNat 64 i } op =
      .ok (handler', metadata', .success)) :
    Achieves g E i (operationEffect g.ctx g.sender p op) handler' metadata' := by
  have operation : metadata.txMetadata.sequenceNumber + BitVec.ofNat 64 i = operationId g.sender p := by
    have count : i = p.count := working.count
    have txMetadata : metadata.txMetadata = g.sender.txMetadata := working.txMetadata
    rw [operationId, count, txMetadata]
  rw [operation] at done
  have named := working.named (operationId g.sender p)
  unfold operationEffect
  rw [if_neg (Nat.not_le.mpr bounded)]
  cases op with
  | createAccount op => exact named.processCreateAccount admissible inside done
  | createSellOffer op => exact named.processCreateSellOffer adds admissible inside bounded rfl done
  | cancelSellOffer op => exact named.processCancelSellOffer admissible inside done
  | payment op => exact named.processPayment admissible sound inside done
  | moneyPrinter op => exact named.processMoneyPrinter admissible inside done

/-- The operations of a transaction that all succeed have their effects. -/
theorem Working.processOperations (adds : AddsOffers g V) (sound : g.ctx.Sound)
    (inside : g.sender.sourceAccountIdx < g.ctx.accountDatabase.size) {operations : List Operation}
    (working : Working g p E (handler, metadata, i)) (admissible : Admissible g.ctx.taken E)
    (bounded : p.count + operations.length ≤ maxOpsPerTx.toNat) {n : Nat}
    (done : Speedex.processOperations handler metadata i operations = .ok (handler', metadata', n, .success)) :
    ∃ p' e, effects (operationEffect g.ctx g.sender) p operations = some (p', e) ∧ Admissible g.ctx.taken (E + e) ∧
      Working g p' (E + e) (handler', metadata', n) := by
  induction operations generalizing p E handler metadata i with
  | nil =>
    cases done
    exact ⟨p, 0, rfl, by rwa [add_zero], by rwa [add_zero]⟩
  | cons op operations ih =>
    obtain ⟨⟨handler₁, metadata₁, status⟩, first, rest⟩ := Fallible.bind_eq_ok.mp done
    by_cases success : status = .success
    · subst success
      rw [List.length_cons] at bounded
      obtain ⟨p₁, e₁, effect, admissible₁, working₁⟩ :=
        working.processOperation adds sound inside admissible (by omega) first
      have count : p₁.count = p.count + 1 := working₁.count.symm.trans (congrArg (· + 1) working.count)
      obtain ⟨p₂, e₂, effects', admissible₂, working₂⟩ := ih working₁ admissible₁ (by omega) rest
      refine ⟨p₂, e₁ + e₂, ?_, ?_, ?_⟩
      · rw [effects, effect, Option.bind_some, effects', Option.map_some]
      · rwa [← add_assoc]
      · rwa [← add_assoc]
    · simp only [ne_eq, success, not_false_eq_true, if_true] at rest
      cases rest
      exact absurd rfl success

end Offers

end Speedex
