import Speedex.Library.Cumulative
import Speedex.Market.PriceKeys
import Speedex.Trie.Frontier
import Speedex.Unit.WorkUnit

set_option autoImplicit false

/- The supply index of a work unit: `EndowAccumulator`, `metadata_traversal` down to the price digits
and the two binary searches in the index, `get_metadata` and its coroutine variant. -/
namespace Speedex

open Cumulative

/-- What the offers up to a price sell: the amount, and the amount times the limit price. -/
@[ext] structure EndowAccumulator where
  endow : BitVec 64
  endowTimesPrice : BitVec 128
deriving DecidableEq, Repr

namespace EndowAccumulator

instance : Zero EndowAccumulator := ⟨⟨0, 0⟩⟩
instance : Add EndowAccumulator := ⟨fun a b => ⟨a.endow + b.endow, a.endowTimesPrice + b.endowTimesPrice⟩⟩

@[simp] theorem zero_endow : (0 : EndowAccumulator).endow = 0 := rfl
@[simp] theorem zero_endowTimesPrice : (0 : EndowAccumulator).endowTimesPrice = 0 := rfl
@[simp] theorem add_endow (a b : EndowAccumulator) : (a + b).endow = a.endow + b.endow := rfl
@[simp] theorem add_endowTimesPrice (a b : EndowAccumulator) :
    (a + b).endowTimesPrice = a.endowTimesPrice + b.endowTimesPrice := rfl

instance : AddCommMonoid EndowAccumulator where
  add_assoc a b c := by ext1 <;> simp [add_assoc]
  zero_add a := by ext1 <;> simp
  add_zero a := by ext1 <;> simp
  add_comm a b := by ext1 <;> simp [add_comm]
  nsmul := nsmulRec

/-- `EndowAccumulator(price, metadata)`: the amount is an `int64_t`, the price a `uint64_t`. -/
def ofMetadata (price : Price) (metadata : Metadata) : EndowAccumulator :=
  ⟨metadata.endow, metadata.endow.signExtend 128 * price.setWidth 128⟩

end EndowAccumulator

/-- `IndexedMetadata`: a key, and the metadata up to it. -/
abbrev IndexedMetadata := Price × EndowAccumulator

namespace TrieNode

variable {V : Type}

/-- A subtree that the traversal stops at adds one entry. -/
def pushMetadata (pfx : Key) (metadata : Metadata) (s : List IndexedMetadata × EndowAccumulator) :
    List IndexedMetadata × EndowAccumulator :=
  let interpretedKey := readPriceBigEndian pfx
  let accMetadata := s.2 + EndowAccumulator.ofMetadata interpretedKey metadata
  (s.1 ++ [(interpretedKey, accMetadata)], accMetadata)

mutual

/-- `metadata_traversal`. -/
def metadataTraversal (queryLen : Nat) :
    TrieNode V → List IndexedMetadata × EndowAccumulator → List IndexedMetadata × EndowAccumulator
  | .leaf key _ metadata _, s => if queryLen ≤ key.length then pushMetadata key metadata s else s
  | .node pfx prefixLen children metadata _, s =>
    if queryLen ≤ prefixLen then pushMetadata pfx metadata s
    else (List.finRange 16).foldl (fun s b => metadataTraversalSlot queryLen (children b) s) s

def metadataTraversalSlot (queryLen : Nat) :
    Option (TrieNode V) → List IndexedMetadata × EndowAccumulator → List IndexedMetadata × EndowAccumulator
  | none, s => s
  | some c, s => metadataTraversal queryLen c s

end

/-- The entry of a subtree, before it is accumulated. -/
def priceGroup (c : TrieNode V) : Price × EndowAccumulator :=
  (readPriceBigEndian c.pfx, .ofMetadata (readPriceBigEndian c.pfx) c.metadata)

theorem pushMetadata_eq (c : TrieNode V) (vec : List IndexedMetadata) (acc : EndowAccumulator) :
    pushMetadata c.pfx c.metadata (vec, acc) =
      (vec ++ runningTotals acc [priceGroup c], acc + total [priceGroup c]) := by
  simp [pushMetadata, runningTotals, priceGroup]

/-- The traversal lists the running totals of the subtrees that it stops at. -/
theorem metadataTraversal_eq (queryLen : Nat) (t : TrieNode V) (vec : List IndexedMetadata) (acc : EndowAccumulator) :
    metadataTraversal queryLen t (vec, acc) =
      (vec ++ runningTotals acc ((frontier queryLen t).map priceGroup),
        acc + total ((frontier queryLen t).map priceGroup)) := by
  induction t using TrieNode.induct generalizing vec acc with
  | leaf key value m h =>
    rw [metadataTraversal, frontier]
    by_cases deep : queryLen ≤ key.length
    · rw [if_pos deep, if_pos deep, List.map_singleton]
      exact pushMetadata_eq (.leaf key value m h) vec acc
    · rw [if_neg deep, if_neg deep]
      simp
  | node p l cs m h ih =>
    rw [metadataTraversal]
    by_cases deep : queryLen ≤ l
    · rw [if_pos deep, frontier_of_le (t := .node p l cs m h) deep, List.map_singleton]
      exact pushMetadata_eq (.node p l cs m h) vec acc
    · rw [if_neg deep, frontier_node deep]
      generalize List.finRange 16 = branches
      induction branches generalizing vec acc with
      | nil => simp
      | cons b branches rest =>
        have once : metadataTraversalSlot queryLen (cs b) (vec, acc) =
            (vec ++ runningTotals acc ((frontierSlot queryLen (cs b)).map priceGroup),
              acc + total ((frontierSlot queryLen (cs b)).map priceGroup)) := by
          cases occupied : cs b with
          | none => simp [metadataTraversalSlot, frontierSlot]
          | some c => simpa [metadataTraversalSlot, frontierSlot] using ih b c occupied vec acc
        rw [List.foldl_cons, once, rest, List.flatMap_cons, List.map_append, runningTotals_append, total_append,
          List.append_assoc, add_assoc]

end TrieNode

/-- `generate_metadata_index`: the index starts with nothing at the lowest key. -/
def generateMetadataIndex (book : OfferTrie) : List IndexedMetadata :=
  (book.root.metadataTraversal priceDigits
    ([(readPriceBigEndian (List.replicate workUnitKeyLen 0), 0)], 0)).1

/-- `indexed_metadata[i]`. -/
def entryAt (index : List IndexedMetadata) (i : Nat) : IndexedMetadata := index.getD i (0, 0)

theorem entryAt_eq {index : List IndexedMetadata} {i : Nat} (inside : i < index.length) :
    entryAt index i = index.get ⟨i, inside⟩ := by
  rw [entryAt, List.getD_eq_getElem?_getD, List.getElem?_eq_getElem inside]
  rfl

/-- `get_metadata`. -/
def getMetadata (index : List IndexedMetadata) (p : Price) : EndowAccumulator :=
  let last := index.length - 1
  if last = 0 then 0
  else if (entryAt index last).1 < p then (entryAt index last).2
  else (entryAt index (search (fun i => p < (entryAt index i).1) 1 last - 1)).2

/-- A coroutine of `coro_get_metadata` is suspended at its start or when it awaits a key of the index,
or has written its result. -/
inductive GetMetadataTask where
  | created
  | awaiting (start last : Nat)
  | returned (endowOut : EndowAccumulator)
deriving DecidableEq, Repr

namespace GetMetadataTask

/-- The top of the coroutine's loop. -/
def enterLoop (index : List IndexedMetadata) (start last : Nat) : GetMetadataTask :=
  if last = start then .returned (entryAt index (last - 1)).2 else .awaiting start last

/-- One resumption, up to the next suspension. -/
def resume (index : List IndexedMetadata) (p : Price) : GetMetadataTask → GetMetadataTask
  | .created =>
    let last := index.length - 1
    if last = 0 then .returned 0
    else if (entryAt index last).1 < p then .returned (entryAt index last).2
    else enterLoop index 1 last
  | .awaiting start last =>
    let mp := (last + start) / 2
    if (entryAt index mp).1 ≤ p then enterLoop index (mp + 1) last else enterLoop index start mp
  | .returned endowOut => .returned endowOut

variable {index : List IndexedMetadata} {p : Price}

/-- The loop ends after finitely many resumptions, where the search of `get_metadata` ends. -/
theorem enterLoop_returns {start last : Nat} (ordered : start ≤ last) :
    ∃ n, (resume index p)^[n] (enterLoop index start last) =
      .returned (entryAt index (search (fun i => p < (entryAt index i).1) start last - 1)).2 := by
  fun_induction search (fun i => decide (p < (entryAt index i).1)) start last with
  | case1 start last inside pass ih =>
    obtain ⟨n, ended⟩ := ih (by omega)
    have low : ¬ (entryAt index ((last + start) / 2)).1 ≤ p := BitVec.not_le.mpr (of_decide_eq_true pass)
    refine ⟨n + 1, ?_⟩
    rw [Function.iterate_succ_apply, enterLoop, if_neg (by omega), resume, if_neg low, ended]
  | case2 start last inside fail ih =>
    obtain ⟨n, ended⟩ := ih (by omega)
    have high : (entryAt index ((last + start) / 2)).1 ≤ p := by
      rw [decide_eq_true_eq] at fail
      exact BitVec.not_lt.mp fail
    refine ⟨n + 1, ?_⟩
    rw [Function.iterate_succ_apply, enterLoop, if_neg (by omega), resume, if_pos high, ended]
  | case3 start last outside =>
    exact ⟨0, by rw [Function.iterate_zero_apply, enterLoop, if_pos (by omega)]⟩

/-- However the scheduler interleaves it with others, a resumed coroutine ends with the result of
`get_metadata`. -/
theorem created_returns (index : List IndexedMetadata) (p : Price) :
    ∃ n, (resume index p)^[n] .created = .returned (getMetadata index p) := by
  by_cases bare : index.length - 1 = 0
  · exact ⟨1, by rw [Function.iterate_one, resume, if_pos bare, getMetadata, if_pos bare]⟩
  by_cases above : (entryAt index (index.length - 1)).1 < p
  · exact ⟨1, by rw [Function.iterate_one, resume, if_neg bare, if_pos above, getMetadata, if_neg bare, if_pos above]⟩
  · obtain ⟨n, ended⟩ := @enterLoop_returns index p 1 (index.length - 1) (by omega)
    refine ⟨n + 1, ?_⟩
    rw [Function.iterate_succ_apply, resume, if_neg bare, if_neg above, ended, getMetadata, if_neg bare, if_neg above]

end GetMetadataTask

section Lookup

variable {groups : List (Price × EndowAccumulator)} {p : Price}

/-- An index over groups of offers. -/
def indexOf (groups : List (Price × EndowAccumulator)) : List IndexedMetadata := (0, 0) :: runningTotals 0 groups

theorem length_indexOf : (indexOf groups).length - 1 = groups.length := by
  rw [indexOf, List.length_cons, length_runningTotals, Nat.add_sub_cancel]

/-- Each entry has the total of the groups before it. -/
theorem entryAt_total {i : Nat} (inside : i ≤ groups.length) :
    (entryAt (indexOf groups) i).2 = total (groups.take i) := by
  cases i with
  | zero => rfl
  | succ i =>
    rw [entryAt, indexOf, List.getD_cons_succ, List.getD_eq_getElem?_getD, getElem?_runningTotals,
      List.getElem?_eq_getElem (by omega)]
    simp

theorem entryAt_key {i : Nat} (inside : i < groups.length) :
    (entryAt (indexOf groups) (i + 1)).1 = (groups.get ⟨i, inside⟩).1 := by
  rw [entryAt, indexOf, List.getD_cons_succ, List.getD_eq_getElem?_getD, getElem?_runningTotals,
    List.getElem?_eq_getElem inside]
  simp

/-- The keys of the index from the first group on. -/
theorem search_indexOf (ascending : Ascending groups) (filled : 0 < groups.length) (p : Price) :
    FirstPlace (fun i => p < (entryAt (indexOf groups) i).1) 1 groups.length
      (search (fun i => p < (entryAt (indexOf groups) i).1) 1 groups.length) := by
  refine search_spec filled (fun i j low le high pass => ?_)
  obtain ⟨i, rfl⟩ := Nat.exists_eq_succ_of_ne_zero (Nat.ne_of_gt low)
  obtain ⟨j, rfl⟩ := Nat.exists_eq_succ_of_ne_zero (Nat.ne_of_gt (low.trans le))
  have insideJ : j < groups.length := by omega
  have insideI : i < groups.length := by omega
  rw [decide_eq_true_eq, Nat.succ_eq_add_one, entryAt_key insideI] at pass
  rw [decide_eq_true_eq, Nat.succ_eq_add_one, entryAt_key insideJ]
  rcases (Nat.le_of_succ_le_succ le).lt_or_eq with less | rfl
  · exact Std.lt_trans pass (List.pairwise_iff_get.mp ascending ⟨i, insideI⟩ ⟨j, insideJ⟩ less)
  · exact pass

/-- The lookup adds up the groups up to the price, unless the price is the last key. -/
theorem getMetadata_of_ne (ascending : Ascending groups) (apart : ∀ row, groups.getLast? = some row → row.1 ≠ p) :
    getMetadata (indexOf groups) p = total (groups.filter (fun row => row.1 ≤ p)) := by
  rw [getMetadata, length_indexOf]
  by_cases bare : groups.length = 0
  · rw [if_pos bare, List.length_eq_zero_iff.mp bare]
    rfl
  obtain ⟨n, count⟩ := Nat.exists_eq_succ_of_ne_zero bare
  have lastKey : (entryAt (indexOf groups) groups.length).1 = (groups.get ⟨n, by omega⟩).1 := by
    rw [← entryAt_key (by omega), count]
  have lastRow : groups.getLast? = some (groups.get ⟨n, by omega⟩) := by
    have place : groups.length - 1 = n := by omega
    rw [List.getLast?_eq_getElem?, place, List.getElem?_eq_getElem (by omega)]
    rfl
  have greatest : ∀ i (inside : i < groups.length), (groups.get ⟨i, inside⟩).1 ≤ (groups.get ⟨n, by omega⟩).1 := by
    intro i inside
    rcases (Nat.le_of_lt_succ (count ▸ inside) : i ≤ n).lt_or_eq with less | rfl
    · exact Std.le_of_lt (List.pairwise_iff_get.mp ascending ⟨i, inside⟩ ⟨n, by omega⟩ less)
    · exact BitVec.le_refl _
  rw [if_neg bare]
  by_cases above : (entryAt (indexOf groups) groups.length).1 < p
  · rw [if_pos above, entryAt_total (Nat.le_refl _), List.take_length, List.filter_eq_self.mpr]
    intro row listed
    obtain ⟨⟨i, inside⟩, rfl⟩ := List.get_of_mem listed
    rw [lastKey] at above
    simpa using BitVec.le_trans (greatest i inside) (Std.le_of_lt above)
  · have within : p < (groups.get ⟨n, by omega⟩).1 := by
      rw [lastKey] at above
      exact BitVec.lt_of_le_ne (BitVec.not_lt.mp above) (fun same => apart _ lastRow same.symm)
    have found := search_indexOf ascending (Nat.pos_of_ne_zero bare) p
    rw [if_neg above]
    generalize search (fun i => decide (p < (entryAt (indexOf groups) i).1)) 1 groups.length = place at found
    have low := found.start_le
    have high := found.le_stop
    rw [entryAt_total (by omega), take_eq_filter ascending]
    · intro i row below listed
      have fails := found.before (i + 1) (by omega) (by omega)
      rw [entryAt_key (by omega), decide_eq_false_iff_not, BitVec.not_lt] at fails
      rw [List.getElem?_eq_getElem (by omega), Option.some.injEq] at listed
      exact listed ▸ fails
    · intro row listed
      rw [List.getElem?_eq_getElem (by omega), Option.some.injEq] at listed
      rw [← listed]
      by_cases early : place < groups.length
      · have passes := found.passes early
        rw [decide_eq_true_eq] at passes
        have key := @entryAt_key groups (place - 1) (by omega)
        rw [show place - 1 + 1 = place by omega] at key
        rw [key] at passes
        exact passes
      · have here : place - 1 = n := by omega
        subst here
        exact within

/-- At the last key the lookup leaves out the last group. -/
theorem getMetadata_last {front : List (Price × EndowAccumulator)} {acc : EndowAccumulator}
    (ascending : Ascending (front ++ [(p, acc)])) :
    getMetadata (indexOf (front ++ [(p, acc)])) p = total front := by
  have count : (front ++ [(p, acc)]).length = front.length + 1 := by simp
  have lastKey : (entryAt (indexOf (front ++ [(p, acc)])) (front ++ [(p, acc)]).length).1 = p := by
    rw [count, entryAt_key (by omega)]
    simp
  have found := search_indexOf ascending (by omega) p
  rw [getMetadata, length_indexOf, if_neg (by omega), if_neg (by rw [lastKey]; exact BitVec.lt_irrefl _)]
  generalize search (fun i => decide (p < (entryAt (indexOf (front ++ [(p, acc)])) i).1)) 1
    (front ++ [(p, acc)]).length = place at found
  have high := found.le_stop
  have place_eq : place = front.length + 1 := by
    by_contra other
    have early : place < (front ++ [(p, acc)]).length := by omega
    have passes := found.passes early
    obtain ⟨i, rfl⟩ := Nat.exists_eq_succ_of_ne_zero (Nat.ne_of_gt found.start_le)
    have inside : i < front.length := by omega
    have below := (List.pairwise_append.mp ascending).2.2 (front.get ⟨i, inside⟩) (List.get_mem _ _) (p, acc) (by simp)
    rw [decide_eq_true_eq, Nat.succ_eq_add_one, entryAt_key (by omega)] at passes
    simp only [List.get_eq_getElem, List.getElem_append_left inside] at passes below
    exact absurd passes (BitVec.lt_asymm below)
  rw [place_eq, entryAt_total (by omega), Nat.add_sub_cancel, List.take_left]

end Lookup

end Speedex
