import Mathlib.Data.Multiset.Filter
import Mathlib.Data.Prod.Lex
import Speedex.Library.Collapse
import Speedex.Library.Fallible
import Speedex.Ledger.Transaction

set_option autoImplicit false

/- `account_modification_log.h`: what an account's entry of the modification log collects, and how it
is normalised before it is hashed. -/
namespace Speedex

structure TxIdentifier where
  owner : AccountID
  sequenceNumber : BitVec 64
deriving DecidableEq, Repr

structure AccountModificationTxList where
  owner : AccountID
  newTransactionsSelf : List SignedTransaction
  identifiersSelf : List (BitVec 64)
  identifiersOthers : List TxIdentifier
deriving DecidableEq, Repr

/-- The values that `LogInsertFn` inserts. -/
inductive LogValue where
  | selfSequenceNumber (sequenceNumber : BitVec 64)
  | otherIdentifier (identifier : TxIdentifier)
  | selfTransaction (tx : SignedTransaction)
deriving DecidableEq, Repr

/-- The account whose list an entry goes to. -/
def LogEntry.account : LogEntry → AccountID
  | .selfModification owner _ => owner
  | .otherModification _ _ modified => modified
  | .newSelfTransaction tx => tx.transaction.metadata.sourceAccount

def LogEntry.value : LogEntry → LogValue
  | .selfModification _ operationId => .selfSequenceNumber operationId
  | .otherModification txOwner sequenceNumber _ => .otherIdentifier ⟨txOwner, sequenceNumber⟩
  | .newSelfTransaction tx => .selfTransaction tx

/-- `std::sort`. -/
def sortBy {α : Type} (less : α → α → Bool) (values : List α) : List α :=
  values.insertionSort (fun a b => less b a = false)

/-- The loop of `dedup` from index `i` on. The index moves on after an erasure as well. -/
def dedupFrom {α : Type} (comparator : α → α → Bool) : Nat → Nat → List α → List α
  | 0, _, values => values
  | fuel + 1, i, values =>
    match values[i]?, values[i - 1]? with
    | some here, some before =>
      if comparator here before then dedupFrom comparator fuel (i + 1) (values.eraseIdx i)
      else dedupFrom comparator fuel (i + 2) values
    | _, _ => values

/-- `dedup`; every round of its loop increases the index. -/
def dedup {α : Type} (comparator : α → α → Bool) (values : List α) : List α :=
  dedupFrom comparator values.length 1 values

def txIdentifierCompareFn (a b : TxIdentifier) : Bool :=
  a.owner.ult b.owner || (a.owner = b.owner && a.sequenceNumber.ult b.sequenceNumber)

def newSelfTransactionCompareFn (a b : SignedTransaction) : Bool :=
  a.transaction.metadata.sequenceNumber.ult b.transaction.metadata.sequenceNumber

namespace AccountModificationTxList

/-- `new_value`. -/
def new (account : AccountID) : AccountModificationTxList := ⟨account, [], [], []⟩

/-- The overloads of `value_insert`. -/
def valueInsert (mainValue : AccountModificationTxList) : LogValue → Except String AccountModificationTxList
  | .selfSequenceNumber sequenceNumber =>
    .ok { mainValue with identifiersSelf := mainValue.identifiersSelf ++ [sequenceNumber] }
  | .otherIdentifier identifier =>
    .ok { mainValue with identifiersOthers := mainValue.identifiersOthers ++ [identifier] }
  | .selfTransaction tx =>
    let newTransactionsSelf := mainValue.newTransactionsSelf ++ [tx]
    if newTransactionsSelf.length > 500000 then .error "invalid main_value!!!"
    else .ok { mainValue with newTransactionsSelf := newTransactionsSelf }

/-- `LogMergeFn::value_merge`. -/
def valueMerge (originalValue mergeInValue : AccountModificationTxList) : Except String AccountModificationTxList :=
  if originalValue.owner ≠ mergeInValue.owner then .error "owner mismatch when merging logs!!!"
  else .ok { originalValue with
    newTransactionsSelf := originalValue.newTransactionsSelf ++ mergeInValue.newTransactionsSelf
    identifiersSelf := originalValue.identifiersSelf ++ mergeInValue.identifiersSelf
    identifiersOthers := originalValue.identifiersOthers ++ mergeInValue.identifiersOthers }

/-- `LogNormalizeFn::apply_to_value`. -/
def normalize (log : AccountModificationTxList) : AccountModificationTxList where
  owner := log.owner
  newTransactionsSelf := dedup (fun a b =>
      a.transaction.metadata.sequenceNumber = b.transaction.metadata.sequenceNumber)
    (sortBy newSelfTransactionCompareFn log.newTransactionsSelf)
  identifiersSelf := dedup (fun a b => a = b) (sortBy BitVec.ult log.identifiersSelf)
  identifiersOthers := dedup (fun a b => a.owner = b.owner && a.sequenceNumber = b.sequenceNumber)
    (sortBy txIdentifierCompareFn log.identifiersOthers)

end AccountModificationTxList

section Lists

open Collapse

variable {α β : Type} [LinearOrder β] {f : α → β} {less same : α → α → Bool}

/-- The comparators order and identify values by a key. -/
structure ComparesBy (f : α → β) (less same : α → α → Bool) : Prop where
  less_iff : ∀ a b, less a b = true ↔ f a < f b
  same_iff : ∀ a b, same a b = true ↔ f a = f b

theorem dedupFrom_eq (compares : ComparesBy f less same) (done l : List α) (fuel : Nat) (enough : l.length ≤ fuel) :
    dedupFrom same fuel (done.length + 1) (done ++ l) = done ++ collapsePairs f l := by
  induction l using collapsePairs.induct f generalizing done fuel with
  | case1 a b rest equal ih =>
    obtain ⟨fuel, rfl⟩ : ∃ n, fuel = n + 1 := ⟨fuel - 1, by rw [List.length_cons] at enough; omega⟩
    have here : (done ++ a :: b :: rest)[done.length + 1]? = some b := by
      rw [List.getElem?_append_right (by omega), Nat.add_sub_cancel_left]
      rfl
    have before : (done ++ a :: b :: rest)[done.length + 1 - 1]? = some a := by
      rw [Nat.add_sub_cancel, List.getElem?_append_right (le_refl _), Nat.sub_self]
      rfl
    have erased : (done ++ a :: b :: rest).eraseIdx (done.length + 1) = (done ++ [a]) ++ rest := by
      rw [List.eraseIdx_append_of_length_le (by omega), Nat.add_sub_cancel_left, List.append_assoc]
      rfl
    have next := ih (done ++ [a]) fuel (by simp only [List.length_cons] at enough; omega)
    rw [List.length_append, List.length_singleton] at next
    rw [dedupFrom, here, before, erased]
    simp only
    rw [if_pos ((compares.same_iff b a).mpr equal), next, collapsePairs, if_pos equal, List.append_assoc]
    rfl
  | case2 a b rest other ih =>
    obtain ⟨fuel, rfl⟩ : ∃ n, fuel = n + 1 := ⟨fuel - 1, by rw [List.length_cons] at enough; omega⟩
    have here : (done ++ a :: b :: rest)[done.length + 1]? = some b := by
      rw [List.getElem?_append_right (by omega), Nat.add_sub_cancel_left]
      rfl
    have before : (done ++ a :: b :: rest)[done.length + 1 - 1]? = some a := by
      rw [Nat.add_sub_cancel, List.getElem?_append_right (le_refl _), Nat.sub_self]
      rfl
    have next := ih (done ++ [a, b]) fuel (by simp only [List.length_cons] at enough; omega)
    rw [List.length_append, List.length_cons, List.length_singleton, List.append_assoc] at next
    rw [dedupFrom, here, before]
    simp only
    rw [if_neg (fun equal => other ((compares.same_iff b a).mp equal)), collapsePairs, if_neg other]
    exact next.trans (List.append_assoc _ _ _)
  | case3 l short =>
    have ended : (done ++ l)[done.length + 1]? = none := by
      refine List.getElem?_eq_none ?_
      rcases l with _ | ⟨a, _ | ⟨b, rest⟩⟩
      · simp
      · simp
      · exact (short a b rest rfl).elim
    rw [collapsePairs]
    · cases fuel with
      | zero => rfl
      | succ fuel => rw [dedupFrom, ended]
    · exact short

theorem dedup_eq (compares : ComparesBy f less same) (values : List α) : dedup same values = collapsePairs f values :=
  dedupFrom_eq compares [] values values.length (le_refl _)

theorem sortBy_perm (less : α → α → Bool) (values : List α) : (sortBy less values).Perm values :=
  List.perm_insertionSort _ values

theorem ComparesBy.le_iff (compares : ComparesBy f less same) (a b : α) : less b a = false ↔ f a ≤ f b := by
  rw [← not_lt, ← compares.less_iff, Bool.not_eq_true]

theorem sortBy_sorted (compares : ComparesBy f less same) (values : List α) :
    (sortBy less values).Pairwise (fun a b => f a ≤ f b) := by
  have relation : (fun a b => less b a = false) = (fun a b => f a ≤ f b) :=
    funext fun a => funext fun b => propext (compares.le_iff a b)
  have total : Std.Total (fun a b => less b a = false) := ⟨fun a b => by
    rw [compares.le_iff, compares.le_iff]
    exact le_total _ _⟩
  have transitive : IsTrans α (fun a b => less b a = false) := ⟨fun a b c => by
    rw [compares.le_iff, compares.le_iff, compares.le_iff]
    exact le_trans⟩
  rw [← relation]
  exact List.pairwise_insertionSort _ values

/-- One list of a normalised log: every value of the source once, in order. -/
structure CanonicalList (f : α → β) (source out : List α) : Prop where
  strict : out.Pairwise (fun a b => f a < f b)
  members : ∀ a, a ∈ out ↔ a ∈ source

/-- A canonical list depends on the set of values only. -/
theorem CanonicalList.eq {source source' out out' : List α} (canonical : CanonicalList f source out)
    (canonical' : CanonicalList f source' out') (same : ∀ a, a ∈ source ↔ a ∈ source') : out = out' :=
  strict_ext canonical.strict canonical'.strict
    (fun a => by rw [canonical.members, canonical'.members, same])

variable {values : List α}

/-- Normalising a list gives every value once exactly if no two equal neighbours of the sorted list
straddle the pairs that the loop compares. -/
theorem normalizeList_canonical_iff (compares : ComparesBy f less same)
    (identified : ∀ a ∈ values, ∀ b ∈ values, f a = f b → a = b) :
    CanonicalList f values (dedup same (sortBy less values)) ↔ OddApart f (sortBy less values) := by
  have sorted := sortBy_sorted compares values
  have listed : ∀ {a}, a ∈ sortBy less values ↔ a ∈ values := (sortBy_perm less values).mem_iff
  rw [dedup_eq compares, ← collapsePairs_strict_iff sorted]
  refine ⟨CanonicalList.strict, fun strict => ⟨strict, fun a => ⟨fun there => ?_, fun there => ?_⟩⟩⟩
  · exact listed.mp (mem_of_mem_collapsePairs there)
  · obtain ⟨b, stays, key⟩ := exists_mem_collapsePairs (f := f) (listed.mpr there)
    rwa [identified a there b (listed.mp (mem_of_mem_collapsePairs stays)) key.symm]

/-- A second normalisation changes nothing in a canonical list. -/
theorem normalizeList_of_strict (compares : ComparesBy f less same)
    (strict : values.Pairwise (fun a b => f a < f b)) : dedup same (sortBy less values) = values := by
  have sorted : sortBy less values = values := List.Pairwise.insertionSort_eq
    (strict.imp (fun {a b} step => (compares.le_iff a b).mpr step.le))
  rw [sorted, dedup_eq compares, collapsePairs_eq_self strict]

end Lists

namespace LogValue

def selfSequenceNumber? : LogValue → Option (BitVec 64)
  | .selfSequenceNumber sequenceNumber => some sequenceNumber
  | _ => none

def otherIdentifier? : LogValue → Option TxIdentifier
  | .otherIdentifier identifier => some identifier
  | _ => none

def selfTransaction? : LogValue → Option SignedTransaction
  | .selfTransaction tx => some tx
  | _ => none

end LogValue

/-- The order of the three lists. -/
def identifierKey (identifier : TxIdentifier) : Nat ×ₗ Nat :=
  toLex (identifier.owner.toNat, identifier.sequenceNumber.toNat)

def transactionKey (tx : SignedTransaction) : Nat := tx.transaction.metadata.sequenceNumber.toNat

theorem comparesBy_self : ComparesBy BitVec.toNat BitVec.ult (fun a b : BitVec 64 => a = b) where
  less_iff a b := by rw [BitVec.ult_iff_lt, BitVec.lt_def]
  same_iff a b := by rw [decide_eq_true_eq, BitVec.toNat_inj]

theorem comparesBy_others : ComparesBy identifierKey txIdentifierCompareFn
    (fun a b => a.owner = b.owner && a.sequenceNumber = b.sequenceNumber) where
  less_iff a b := by
    rw [txIdentifierCompareFn, identifierKey, identifierKey, Prod.Lex.toLex_lt_toLex]
    simp [BitVec.ult_iff_lt, BitVec.lt_def, BitVec.toNat_inj]
  same_iff a b := by
    rw [identifierKey, identifierKey, toLex_inj, Prod.mk.injEq]
    simp [BitVec.toNat_inj]

theorem comparesBy_transactions : ComparesBy transactionKey newSelfTransactionCompareFn
    (fun a b => a.transaction.metadata.sequenceNumber = b.transaction.metadata.sequenceNumber) where
  less_iff a b := by rw [newSelfTransactionCompareFn, BitVec.ult_iff_lt, BitVec.lt_def]; rfl
  same_iff a b := by rw [decide_eq_true_eq, transactionKey, transactionKey, BitVec.toNat_inj]

theorem identifierKey_injective : Function.Injective identifierKey := by
  intro a b same
  rw [identifierKey, identifierKey, toLex_inj, Prod.mk.injEq, BitVec.toNat_inj, BitVec.toNat_inj] at same
  cases a
  cases b
  exact congrArg₂ TxIdentifier.mk same.1 same.2

/-- The lists that serial logs and merges of them build up from the entries of one account. -/
inductive Logged (owner : AccountID) : Multiset LogValue → AccountModificationTxList → Prop
  | new : Logged owner 0 (.new owner)
  | insert {entries : Multiset LogValue} {log log' : AccountModificationTxList} {value : LogValue}
      (logged : Logged owner entries log) (done : log.valueInsert value = .ok log') :
      Logged owner (value ::ₘ entries) log'
  | merge {entries entries' : Multiset LogValue} {log log' merged : AccountModificationTxList}
      (logged : Logged owner entries log) (logged' : Logged owner entries' log')
      (done : log.valueMerge log' = .ok merged) : Logged owner (entries + entries') merged

/-- The lists hold the entries, in some order. -/
structure Collects (owner : AccountID) (entries : Multiset LogValue) (log : AccountModificationTxList) : Prop where
  owner : log.owner = owner
  self : (log.identifiersSelf : Multiset (BitVec 64)) = entries.filterMap LogValue.selfSequenceNumber?
  others : (log.identifiersOthers : Multiset TxIdentifier) = entries.filterMap LogValue.otherIdentifier?
  transactions : (log.newTransactionsSelf : Multiset SignedTransaction) = entries.filterMap LogValue.selfTransaction?

section Collects

variable {owner : AccountID} {entries entries' : Multiset LogValue} {log log' merged : AccountModificationTxList}

theorem append_singleton_coe {α : Type} (l : List α) (a : α) : ((l ++ [a] : List α) : Multiset α) = a ::ₘ (l : Multiset α) := by
  rw [← Multiset.coe_add, add_comm]
  rfl

theorem Collects.insert {value : LogValue} (collects : Collects owner entries log)
    (done : log.valueInsert value = .ok log') : Collects owner (value ::ₘ entries) log' := by
  obtain ⟨own, self, others, transactions⟩ := collects
  cases value with
  | selfSequenceNumber sequenceNumber =>
    obtain rfl := Except.ok.inj done
    refine ⟨own, ?_, ?_, ?_⟩
    · rw [Multiset.filterMap_cons_some LogValue.selfSequenceNumber? _ _ rfl, ← self, ← append_singleton_coe]
    · rw [Multiset.filterMap_cons_none _ _ rfl, ← others]
    · rw [Multiset.filterMap_cons_none _ _ rfl, ← transactions]
  | otherIdentifier identifier =>
    obtain rfl := Except.ok.inj done
    refine ⟨own, ?_, ?_, ?_⟩
    · rw [Multiset.filterMap_cons_none _ _ rfl, ← self]
    · rw [Multiset.filterMap_cons_some LogValue.otherIdentifier? _ _ rfl, ← others, ← append_singleton_coe]
    · rw [Multiset.filterMap_cons_none _ _ rfl, ← transactions]
  | selfTransaction tx =>
    rw [AccountModificationTxList.valueInsert] at done
    split_ifs at done
    obtain rfl := Except.ok.inj done
    refine ⟨own, ?_, ?_, ?_⟩
    · rw [Multiset.filterMap_cons_none _ _ rfl, ← self]
    · rw [Multiset.filterMap_cons_none _ _ rfl, ← others]
    · rw [Multiset.filterMap_cons_some LogValue.selfTransaction? _ _ rfl, ← transactions, ← append_singleton_coe]

theorem Collects.merge (collects : Collects owner entries log) (collects' : Collects owner entries' log')
    (done : log.valueMerge log' = .ok merged) : Collects owner (entries + entries') merged := by
  rw [AccountModificationTxList.valueMerge] at done
  split_ifs at done
  obtain rfl := Except.ok.inj done
  refine ⟨collects.owner, ?_, ?_, ?_⟩
  · rw [Multiset.filterMap_add, ← collects.self, ← collects'.self, Multiset.coe_add]
  · rw [Multiset.filterMap_add, ← collects.others, ← collects'.others, Multiset.coe_add]
  · rw [Multiset.filterMap_add, ← collects.transactions, ← collects'.transactions, Multiset.coe_add]

theorem Logged.collects (logged : Logged owner entries log) : Collects owner entries log := by
  induction logged with
  | new => exact ⟨rfl, rfl, rfl, rfl⟩
  | insert _ done ih => exact ih.insert done
  | merge _ _ done ih ih' => exact ih.merge ih' done

end Collects

open Collapse

/-- In sorted order no two equal values straddle the pairs (first, second), (third, fourth) and so on. -/
def PairsUp {α β : Type} [LinearOrder β] (f : α → β) (values : Multiset α) : Prop :=
  ∀ l : List α, (l : Multiset α) = values → l.Pairwise (fun a b => f a ≤ f b) → OddApart f l

/-- Each list of entries, sorted, has at most two copies of a value, and two copies only where the
normalisation compares them. -/
structure Collapsible (entries : Multiset LogValue) : Prop where
  self : PairsUp BitVec.toNat (entries.filterMap LogValue.selfSequenceNumber?)
  others : PairsUp identifierKey (entries.filterMap LogValue.otherIdentifier?)
  transactions : PairsUp transactionKey (entries.filterMap LogValue.selfTransaction?)

/-- A log that holds every entry of its account once, in order. -/
structure CanonicalLog (owner : AccountID) (entries : Multiset LogValue) (log : AccountModificationTxList) : Prop where
  owner : log.owner = owner
  self : log.identifiersSelf.Pairwise (fun a b => a.toNat < b.toNat) ∧
    ∀ sequenceNumber, sequenceNumber ∈ log.identifiersSelf ↔ .selfSequenceNumber sequenceNumber ∈ entries
  others : log.identifiersOthers.Pairwise (fun a b => identifierKey a < identifierKey b) ∧
    ∀ identifier, identifier ∈ log.identifiersOthers ↔ .otherIdentifier identifier ∈ entries
  transactions : log.newTransactionsSelf.Pairwise (fun a b => transactionKey a < transactionKey b) ∧
    ∀ tx, tx ∈ log.newTransactionsSelf ↔ .selfTransaction tx ∈ entries

/-- Self transactions of one sequence number are one transaction. -/
def OneTransaction (entries : Multiset LogValue) : Prop :=
  ∀ tx tx', .selfTransaction tx ∈ entries → .selfTransaction tx' ∈ entries →
    tx.transaction.metadata.sequenceNumber = tx'.transaction.metadata.sequenceNumber → tx = tx'

section Normalize

variable {owner : AccountID} {entries entries' : Multiset LogValue} {log log' : AccountModificationTxList}

/-- The canonical log depends on the set of entries only. -/
theorem CanonicalLog.eq (canonical : CanonicalLog owner entries log) (canonical' : CanonicalLog owner entries' log')
    (same : ∀ value, value ∈ entries ↔ value ∈ entries') : log = log' := by
  have self := strict_ext canonical.self.1 canonical'.self.1
    (fun a => by rw [canonical.self.2, canonical'.self.2, same])
  have others := strict_ext canonical.others.1 canonical'.others.1
    (fun a => by rw [canonical.others.2, canonical'.others.2, same])
  have transactions := strict_ext canonical.transactions.1 canonical'.transactions.1
    (fun a => by rw [canonical.transactions.2, canonical'.transactions.2, same])
  have own := canonical.owner.trans canonical'.owner.symm
  cases log
  cases log'
  simp_all

/-- The sorted list of values that are identified by their key is unique, so one of them decides. -/
theorem pairsUp_iff {α β : Type} [LinearOrder β] {f : α → β} {less same : α → α → Bool}
    (compares : ComparesBy f less same) {values : List α}
    (identified : ∀ a ∈ values, ∀ b ∈ values, f a = f b → a = b) :
    PairsUp f (values : Multiset α) ↔ OddApart f (sortBy less values) := by
  refine ⟨fun pairs => pairs _ (Multiset.coe_eq_coe.mpr (sortBy_perm less values)) (sortBy_sorted compares values),
    fun apart l same sorted => ?_⟩
  have perm := (Multiset.coe_eq_coe.mp same).trans (sortBy_perm less values).symm
  have unique : l = sortBy less values := by
    refine List.Perm.eq_of_pairwise (fun a b there there' low high => ?_) sorted (sortBy_sorted compares values) perm
    exact identified a ((Multiset.coe_eq_coe.mp same).mem_iff.mp there) b
      ((sortBy_perm less values).mem_iff.mp there') (le_antisymm low high)
  rwa [unique]

theorem mem_filterMap_iff {α : Type} {project : LogValue → Option α} {embed : α → LogValue} {a : α}
    (inverse : ∀ value, project value = some a ↔ value = embed a) : a ∈ entries.filterMap project ↔ embed a ∈ entries := by
  rw [Multiset.mem_filterMap]
  constructor
  · rintro ⟨value, listed, found⟩
    rwa [← (inverse value).mp found]
  · exact fun listed => ⟨_, listed, (inverse _).mpr rfl⟩

/-- The normalised log is canonical, and stays as it is, exactly if the entries pair up in each list. -/
theorem normalize_canonical_iff (logged : Logged owner entries log) (oneTransaction : OneTransaction entries) :
    CanonicalLog owner entries log.normalize ∧ log.normalize.normalize = log.normalize ↔ Collapsible entries := by
  have collects := logged.collects
  have memSelf : ∀ a, a ∈ log.identifiersSelf ↔ .selfSequenceNumber a ∈ entries := fun a => by
    rw [← Multiset.mem_coe, collects.self]
    exact mem_filterMap_iff (fun value => by cases value <;> simp [LogValue.selfSequenceNumber?])
  have memOthers : ∀ a, a ∈ log.identifiersOthers ↔ .otherIdentifier a ∈ entries := fun a => by
    rw [← Multiset.mem_coe, collects.others]
    exact mem_filterMap_iff (fun value => by cases value <;> simp [LogValue.otherIdentifier?])
  have memTransactions : ∀ a, a ∈ log.newTransactionsSelf ↔ .selfTransaction a ∈ entries := fun a => by
    rw [← Multiset.mem_coe, collects.transactions]
    exact mem_filterMap_iff (fun value => by cases value <;> simp [LogValue.selfTransaction?])
  have oneSelf : ∀ a ∈ log.identifiersSelf, ∀ b ∈ log.identifiersSelf, a.toNat = b.toNat → a = b :=
    fun a _ b _ same => BitVec.eq_of_toNat_eq same
  have oneOther : ∀ a ∈ log.identifiersOthers, ∀ b ∈ log.identifiersOthers, identifierKey a = identifierKey b → a = b :=
    fun a _ b _ same => identifierKey_injective same
  have oneTx : ∀ a ∈ log.newTransactionsSelf, ∀ b ∈ log.newTransactionsSelf,
      transactionKey a = transactionKey b → a = b := fun a there b there' same =>
    oneTransaction a b ((memTransactions a).mp there) ((memTransactions b).mp there') (BitVec.eq_of_toNat_eq same)
  have self := (normalizeList_canonical_iff comparesBy_self oneSelf).trans (pairsUp_iff comparesBy_self oneSelf).symm
  have others := (normalizeList_canonical_iff comparesBy_others oneOther).trans
    (pairsUp_iff comparesBy_others oneOther).symm
  have transactions := (normalizeList_canonical_iff comparesBy_transactions oneTx).trans
    (pairsUp_iff comparesBy_transactions oneTx).symm
  rw [collects.self] at self
  rw [collects.others] at others
  rw [collects.transactions] at transactions
  constructor
  · rintro ⟨canonical, -⟩
    exact ⟨self.mp ⟨canonical.self.1, fun a => (canonical.self.2 a).trans (memSelf a).symm⟩,
      others.mp ⟨canonical.others.1, fun a => (canonical.others.2 a).trans (memOthers a).symm⟩,
      transactions.mp ⟨canonical.transactions.1, fun a => (canonical.transactions.2 a).trans (memTransactions a).symm⟩⟩
  · rintro ⟨pairsSelf, pairsOthers, pairsTransactions⟩
    have listSelf := self.mpr pairsSelf
    have listOthers := others.mpr pairsOthers
    have listTransactions := transactions.mpr pairsTransactions
    refine ⟨⟨collects.owner, ⟨listSelf.strict, fun a => (listSelf.members a).trans (memSelf a)⟩,
      ⟨listOthers.strict, fun a => (listOthers.members a).trans (memOthers a)⟩,
      ⟨listTransactions.strict, fun a => (listTransactions.members a).trans (memTransactions a)⟩⟩, ?_⟩
    have againSelf := normalizeList_of_strict comparesBy_self listSelf.strict
    have againOthers := normalizeList_of_strict comparesBy_others listOthers.strict
    have againTransactions := normalizeList_of_strict comparesBy_transactions listTransactions.strict
    simp only [AccountModificationTxList.normalize, againSelf, againOthers, againTransactions]

/-- Two copies of one identifier collapse. -/
theorem normalize_canonical_sample : CanonicalLog 7 {.selfSequenceNumber 256, .selfSequenceNumber 256}
      (AccountModificationTxList.normalize ⟨7, [], [256, 256], []⟩) ∧
    (AccountModificationTxList.normalize ⟨7, [], [256, 256], []⟩).normalize =
      AccountModificationTxList.normalize ⟨7, [], [256, 256], []⟩ ↔
    Collapsible {.selfSequenceNumber 256, .selfSequenceNumber 256} := by
  have once : Logged 7 {.selfSequenceNumber 256} ⟨7, [], [256], []⟩ := .insert .new rfl
  exact normalize_canonical_iff (.insert once rfl) (fun _ _ there _ _ => absurd there (by simp))

/-- Of three copies of one identifier two are left. -/
theorem normalize_keeps_duplicate : ¬ ∀ {owner : AccountID} {entries : Multiset LogValue}
    {log : AccountModificationTxList}, Logged owner entries log → OneTransaction entries →
    CanonicalLog owner entries log.normalize ∧ log.normalize.normalize = log.normalize := by
  intro claim
  have once : Logged 7 {.selfSequenceNumber 256} ⟨7, [], [256], []⟩ := .insert .new rfl
  have twice : Logged 7 {.selfSequenceNumber 256, .selfSequenceNumber 256} ⟨7, [], [256, 256], []⟩ := .insert once rfl
  have thrice : Logged 7 {.selfSequenceNumber 256, .selfSequenceNumber 256, .selfSequenceNumber 256}
      ⟨7, [], [256, 256, 256], []⟩ := .insert twice rfl
  have result := claim thrice (fun _ _ there _ _ => absurd there (by simp))
  exact absurd result.2 (by decide)

end Normalize

end Speedex
