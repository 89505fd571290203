import Speedex.Ledger.SequenceNumbers
import Speedex.Market.PriceKeys
import Speedex.Processing.NewAccounts
import Speedex.Processing.Views

set_option autoImplicit false

/- The state in the middle of a transaction, compared with the state in which the block started. -/
namespace Speedex

open Claims BlockContext TrieNode

/-- The part of the database that is not balances. Reservations may have leaked from transactions that failed. -/
structure DirectoryAfter (ctx : BlockContext) (leaked : AccountID → Prop) (claims : Multiset TxResource)
    (created : Multiset UserAccount) (db : MemoryDatabase) : Prop where
  userIdToIdxMap : db.userIdToIdxMap = ctx.accountDatabase.userIdToIdxMap
  settled : db.database.map UserAccount.settled = ctx.accountDatabase.database.map UserAccount.settled
  sequence : ∀ idx offset, db.SequenceBit idx offset ↔
    ctx.accountDatabase.SequenceBit idx offset ∨ .sequenceNumber idx offset ∈ claims
  reserved : ∀ account, db.reservedAccountIds account = true ↔
    ctx.accountDatabase.reservedAccountIds account = true ∨ .newAccount account ∈ claims ∨ leaked account
  uncommittedDb : (db.uncommittedDb : Multiset UserAccount) = ctx.accountDatabase.uncommittedDb + created
  uncommittedIdxMap : ∀ id, (db.uncommittedIdxMap id).isSome = true ↔
    (ctx.accountDatabase.uncommittedIdxMap id).isSome = true ∨ ∃ account ∈ created, account.owner = id
  accountCreationThunks : db.accountCreationThunks = ctx.accountDatabase.accountCreationThunks
  persistedRoundNumber : db.persistedRoundNumber = ctx.accountDatabase.persistedRoundNumber

/-- A work unit whose offers with a claimed cancellation are marked. -/
structure BookAfter (claims : Multiset TxResource) (i : Nat) (unit₀ unit : MerkleWorkUnit) : Prop where
  frame : unit = { unit₀ with committedOffers := unit.committedOffers }
  valid : unit.committedOffers.Valid workUnitKeyLen
  find : ∀ key, unit.committedOffers.find key = (unit₀.committedOffers.find key).map
    (fun l => if .cancellation i key ∈ claims then swapLeaf 0 1 l else l)

structure BooksAfter (ctx : BlockContext) (claims : Multiset TxResource) (manager : MerkleWorkUnitManager) : Prop where
  numAssets : manager.numAssets = ctx.workUnitManager.numAssets
  length : manager.workUnits.length = ctx.workUnitManager.workUnits.length
  unit : ∀ i unit₀, ctx.workUnitManager.workUnits[i]? = some unit₀ →
    ∃ unit, manager.workUnits[i]? = some unit ∧ BookAfter claims i unit₀ unit

/-- The tries of a manager hold these offers. -/
structure NewOffersAre (insertFn : InsertFn) (own : Multiset (Nat × Offer)) (newOffers : List OfferTrie) : Prop where
  valid : ∀ trie ∈ newOffers, trie.Valid workUnitKeyLen
  find : ∀ i key l, (∃ trie, newOffers[i]? = some trie ∧ trie.find key = some l) ↔
    ∃ offer, (i, offer) ∈ own ∧ offer.key = key ∧ l = written insertFn offer

/-- The sequence number from which an offer id is made is claimed. -/
def SequenceClaimed (ctx : BlockContext) (claims : Multiset TxResource) (owner : AccountID) (offerId : BitVec 64) : Prop :=
  ∃ sequenceNumber idx account offset, UserAccount.Aligned sequenceNumber ∧
    offerId.toNat / 256 = sequenceNumber.toNat / 256 ∧ ctx.accountDatabase.lookupUserId owner = some idx ∧
    ctx.accountDatabase.database[idx]? = some account ∧ sequenceOffset account sequenceNumber = some offset ∧
    .sequenceNumber idx offset ∈ claims

/-- No two new offers have the same owner and id. -/
structure Issued (ctx : BlockContext) (claims : Multiset TxResource) (newOffers : Multiset (Nat × Offer)) : Prop where
  distinct : (newOffers.map (fun o => (o.2.owner, o.2.offerId))).Nodup
  based : ∀ o ∈ newOffers, SequenceClaimed ctx claims o.2.owner o.2.offerId

/-- What stays fixed during a transaction: what the other threads have done to the block, and the statistics before
it. -/
structure TxSetting (D : Type) where
  ctx : BlockContext
  sender : Sender
  insertFn : InsertFn
  derived : D → (Nat → FractionalAsset) → Prop
  leaked : AccountID → Prop
  others : TxTally
  stats₀ : BlockStateUpdateStats

/-- What is fixed about the start of a block. -/
structure BlockContext.Sound (ctx : BlockContext) : Prop where
  located : ∀ account idx, ctx.accountDatabase.lookupUserId account = some idx → idx < ctx.accountDatabase.size
  valid : ∀ unit ∈ ctx.workUnitManager.workUnits, unit.committedOffers.Valid workUnitKeyLen

variable {D V : Type} [LawfulView V]

/-- What a handler keeps to itself adds up to its own part of the tally. -/
structure Keeps (g : TxSetting D) (own : TxTally) (s : SerialTransactionHandler D × OperationMetadata V × Nat) : Prop where
  newOffers : NewOffersAre g.insertFn own.newOffers s.1.serialManager.newOffers
  derived : g.derived s.1.serialManager.derived own.activated
  log : (s.1.serialAccountLog : Multiset LogEntry) = own.log
  stats : g.stats₀ + s.2.1.localStats = own.stats

/-- A handler in the middle of a transaction; `E` is the effect of all operations so far, of this transaction and of the
ones before it. -/
structure Working (g : TxSetting D) (p : Progress) (E : TxEffect)
    (s : SerialTransactionHandler D × OperationMetadata V × Nat) : Prop where
  directory : DirectoryAfter g.ctx g.leaked E.claims E.tally.created s.1.accountDatabase
  balances : s.1.accountDatabase.available + LawfulView.pending s.2.1.dbView =
    g.ctx.accountDatabase.available + E.tally.balances
  books : BooksAfter g.ctx E.claims s.1.workUnitManager
  own : ∃ own : TxTally, E.tally = g.others + own ∧ Keeps g own s
  issued : Issued g.ctx E.claims E.tally.newOffers
  aligned : UserAccount.Aligned g.sender.txMetadata.sequenceNumber
  claimed : SequenceClaimed g.ctx E.claims g.sender.txMetadata.sourceAccount g.sender.txMetadata.sequenceNumber
  current : ∀ o ∈ E.tally.newOffers, o.2.owner = g.sender.txMetadata.sourceAccount →
    o.2.offerId.toNat / 256 = g.sender.txMetadata.sequenceNumber.toNat / 256 → o.2.offerId.toNat % 256 < p.count
  view : DatabaseView.creation s.2.1.dbView = creationView g.ctx.accountDatabase.size p.created
  fresh : ∀ account ∈ p.created, .newAccount account.owner ∈ E.claims
  txMetadata : s.2.1.txMetadata = g.sender.txMetadata
  sourceAccountIdx : s.2.1.sourceAccountIdx = g.sender.sourceAccountIdx
  count : s.2.2 = p.count

section Components

variable {ctx : BlockContext} {leaked : AccountID → Prop} {claims claims' : Multiset TxResource}
  {created : Multiset UserAccount} {db db' : MemoryDatabase} {manager : MerkleWorkUnitManager}

theorem sequenceBit_iff {idx offset : Nat} : db.SequenceBit idx offset ↔
    ∃ bits, (db.database.map UserAccount.sequenceNumberVec)[idx]? = some bits ∧ bits.getLsbD offset = true := by
  rw [MemoryDatabase.SequenceBit, List.getElem?_map]
  constructor
  · rintro ⟨data, here, set⟩
    exact ⟨data.sequenceNumberVec, by rw [here, Option.map_some], set⟩
  · rintro ⟨bits, mapped, set⟩
    obtain ⟨data, here, rfl⟩ := Option.map_eq_some_iff.mp mapped
    exact ⟨data, here, set⟩

theorem DirectoryAfter.length (after : DirectoryAfter ctx leaked claims created db) :
    db.database.length = ctx.accountDatabase.database.length := by
  rw [← List.length_map UserAccount.settled, after.settled, List.length_map]

theorem DirectoryAfter.onlyBalances (after : DirectoryAfter ctx leaked claims created db) (only : OnlyBalances db db') :
    DirectoryAfter ctx leaked claims created db' where
  userIdToIdxMap := by rw [only.frame]; exact after.userIdToIdxMap
  settled := only.settled.trans after.settled
  sequence idx offset := by rw [sequenceBit_iff, only.sequence, ← sequenceBit_iff]; exact after.sequence idx offset
  reserved account := by rw [only.frame]; exact after.reserved account
  uncommittedDb := by rw [only.frame]; exact after.uncommittedDb
  uncommittedIdxMap id := by rw [only.frame]; exact after.uncommittedIdxMap id
  accountCreationThunks := by rw [only.frame]; exact after.accountCreationThunks
  persistedRoundNumber := by rw [only.frame]; exact after.persistedRoundNumber

/-- The directory does not depend on cancellations. -/
theorem DirectoryAfter.congr (after : DirectoryAfter ctx leaked claims created db)
    (sequence : ∀ idx offset, TxResource.sequenceNumber idx offset ∈ claims' ↔ .sequenceNumber idx offset ∈ claims)
    (reserved : ∀ account, TxResource.newAccount account ∈ claims' ↔ .newAccount account ∈ claims) :
    DirectoryAfter ctx leaked claims' created db :=
  { after with
    sequence := fun idx offset => by rw [sequence]; exact after.sequence idx offset
    reserved := fun account => by rw [reserved]; exact after.reserved account }

/-- A book depends on cancellations only. -/
theorem BooksAfter.congr (after : BooksAfter ctx claims manager)
    (same : ∀ i key, TxResource.cancellation i key ∈ claims' ↔ .cancellation i key ∈ claims) :
    BooksAfter ctx claims' manager :=
  { after with
    unit := fun i unit₀ here => by
      obtain ⟨unit, found, book⟩ := after.unit i unit₀ here
      refine ⟨unit, found, { book with find := fun key => ?_ }⟩
      rw [book.find]
      simp only [same] }

theorem SequenceClaimed.mono {owner : AccountID} {offerId : BitVec 64} (claimed : SequenceClaimed ctx claims owner offerId)
    (more : claims ≤ claims') : SequenceClaimed ctx claims' owner offerId := by
  obtain ⟨sequenceNumber, idx, account, offset, aligned, same, found, here, offsetEq, member⟩ := claimed
  exact ⟨sequenceNumber, idx, account, offset, aligned, same, found, here, offsetEq, Multiset.mem_of_le more member⟩

theorem Issued.mono {newOffers : Multiset (Nat × Offer)} (issued : Issued ctx claims newOffers) (more : claims ≤ claims') :
    Issued ctx claims' newOffers :=
  ⟨issued.distinct, fun o member => (issued.based o member).mono more⟩

/-- The owner and the id of an offer can be read off its key. -/
theorem owner_of_key {offer offer' : Offer} (same : offer.key = offer'.key) :
    (offer.owner, offer.offerId) = (offer'.owner, offer'.offerId) := by
  have digits : ∀ v w : BitVec 64, bigEndian v 16 = bigEndian w 16 → v = w := by
    intro v w same
    have values := congrArg Digits.value same
    have width : (2 : Nat) ^ 64 = 16 ^ 16 := by decide
    rw [value_bigEndian, value_bigEndian, Nat.mod_eq_of_lt (width ▸ v.isLt), Nat.mod_eq_of_lt (width ▸ w.isLt)] at values
    exact BitVec.eq_of_toNat_eq values
  rw [Offer.key, Offer.key, generateKey, generateKey, List.append_assoc, List.append_assoc] at same
  obtain ⟨-, rest⟩ := List.append_inj same (by rw [length_bigEndian, length_bigEndian])
  obtain ⟨owners, ids⟩ := List.append_inj rest (by rw [length_bigEndian, length_bigEndian])
  rw [digits _ _ owners, digits _ _ ids]

end Components

end Speedex
