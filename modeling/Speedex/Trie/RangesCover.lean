import Mathlib.Tactic.SplitIfs
import Speedex.Market.Offer
import Speedex.Trie.Ranges

set_option autoImplicit false

/- The parallel walks go over every leaf once, however the scheduler divides their ranges. -/
namespace Speedex

open TrieNode

variable {V : Type}

namespace TrieNode

/-- The leaves below a list of subtrees. -/
def leavesOf (workList : List (TrieNode V)) : List (Key × Leaf V) := workList.flatMap entries

theorem leavesOf_cons (work : TrieNode V) (workList : List (TrieNode V)) :
    leavesOf (work :: workList) = work.entries ++ leavesOf workList := List.flatMap_cons

theorem leavesOf_concat (workList : List (TrieNode V)) (work : TrieNode V) :
    leavesOf (workList ++ [work]) = leavesOf workList ++ work.entries := by
  rw [leavesOf, List.flatMap_append, List.flatMap_singleton, leavesOf]

theorem leavesOf_append (workList workList' : List (TrieNode V)) :
    leavesOf (workList ++ workList') = leavesOf workList ++ leavesOf workList' := List.flatMap_append

/-- A leaf that `clear_rollback` has to visit. -/
def tentative (row : Key × Leaf V) : Bool := row.2.metadata.numRollbackSubnodes = 1

variable [TrieValue V] {keyLen : Nat}

theorem Canonical.entries_pos {t : TrieNode V} (canonical : Canonical keyLen t) : 0 < t.entries.length :=
  List.length_pos_iff.mpr (CompactAt.entries_ne_nil canonical.compact)

theorem subtreeSize_eq {t : TrieNode V} (shaped : Shaped keyLen t) : t.subtreeSize = t.entries.length := by
  rw [subtreeSize, size_eq_length shaped, Int.toNat_natCast]

theorem rollbackSize_eq {t : TrieNode V} (shaped : Shaped keyLen t) :
    t.rollbackSize = t.entries.countP tentative := by
  have marks : ∀ rows : List (Key × Leaf V), (∀ row ∈ rows, LeafMetadata row.2.value row.2.metadata) →
      (rows.map (fun row : Key × Leaf V => row.2.metadata)).sum.numRollbackSubnodes = rows.countP tentative := by
    intro rows
    induction rows with
    | nil => intro _; rfl
    | cons row rows ih =>
      intro own
      have rest := ih (fun row' listed => own row' (List.mem_cons_of_mem _ listed))
      rw [List.map_cons, List.sum_cons, Metadata.add_numRollbackSubnodes, rest, List.countP_cons, tentative]
      obtain none | one := (own row List.mem_cons_self).rollback
      · rw [none, if_neg (by simp)]
        omega
      · rw [one, if_pos (by simp)]
        omega
  rw [rollbackSize, metadata_eq_sum shaped,
    marks _ (fun row listed => find_leafMetadata shaped ((mem_entries_iff shaped).mp listed)), Int.toNat_natCast]

theorem Canonical.children {t c : TrieNode V} (canonical : Canonical keyLen t) (listed : c ∈ t.childrenList) :
    Canonical keyLen c := by
  cases t with
  | leaf => exact absurd listed List.not_mem_nil
  | node pfx len cs m h =>
    obtain ⟨b, _, occupied⟩ := List.mem_filterMap.mp listed
    exact canonical.child occupied

/-- A lone item with several leaves has several children. -/
theorem descend_spec {workList : List (TrieNode V)} (canonical : ∀ t ∈ workList, Canonical keyLen t)
    (several : 2 ≤ (leavesOf workList).length) :
    ∃ first next rest, descend workList = first :: next :: rest ∧ (∀ t ∈ descend workList, Canonical keyLen t) ∧
      leavesOf (descend workList) = leavesOf workList := by
  rcases workList with _ | ⟨work, _ | ⟨work', rest⟩⟩
  · rw [leavesOf, List.flatMap_nil, List.length_nil] at several
    omega
  · have alone := canonical work List.mem_cons_self
    rw [leavesOf, List.flatMap_singleton] at several
    cases work with
    | leaf key value m h =>
      rw [entries_leaf, List.length_singleton] at several
      omega
    | node pfx len cs m h =>
      have two : 2 ≤ (node pfx len cs m h).childrenList.length := by
        have occupied := (compact_node.mp alone.compact).1
        rwa [← Branches.length_listed] at occupied
      obtain ⟨first, next, rest, listed⟩ : ∃ first next rest, (node pfx len cs m h).childrenList = first :: next :: rest := by
        match children : (node pfx len cs m h).childrenList with
        | [] => rw [children, List.length_nil] at two; omega
        | [_] => rw [children, List.length_singleton] at two; omega
        | first :: next :: rest => exact ⟨first, next, rest, rfl⟩
      refine ⟨first, next, rest, listed, fun t member => alone.children member, ?_⟩
      rw [descend, leavesOf, leavesOf, List.flatMap_singleton, entries_childrenList]
  · exact ⟨work, work', rest, rfl, canonical, rfl⟩

end TrieNode

variable [TrieValue V] {keyLen : Nat}

namespace AccumulateValuesRange

/-- A range whose size is the number of its leaves. -/
structure Good (keyLen : Nat) (range : AccumulateValuesRange V) : Prop where
  canonical : ∀ t ∈ range.workList, Canonical keyLen t
  size : range.workSize = (leavesOf range.workList).length

theorem splitLoop_spec {originalSz : Int} {range other : AccumulateValuesRange V} (good : Good keyLen range)
    (good' : Good keyLen other) (whole : range.workSize + other.workSize = originalSz)
    (next : other.vectorOffset = range.vectorOffset + (leavesOf range.workList).length) :
    ∃ range' other', splitLoop originalSz range other = .ok (range', other') ∧ Good keyLen range' ∧
      Good keyLen other' ∧ leavesOf range'.workList ++ leavesOf other'.workList =
        leavesOf range.workList ++ leavesOf other.workList ∧ range'.vectorOffset = range.vectorOffset ∧
      other'.vectorOffset = range.vectorOffset + (leavesOf range'.workList).length := by
  have size := good.size
  have size' := good'.size
  fun_induction splitLoop originalSz range other with
  | case1 range other more work alone =>
    obtain ⟨first, second, rest, listed, _⟩ := descend_spec good'.canonical (by omega)
    rw [alone] at listed
    cases listed
  | case2 range other more none =>
    obtain ⟨first, second, rest, listed, _⟩ := descend_spec good'.canonical (by omega)
    rw [none] at listed
    cases listed
  | case3 range other more first second rest listed ih =>
    obtain ⟨_, _, _, _, canonical, leaves⟩ := descend_spec good'.canonical (by omega)
    rw [listed] at canonical leaves
    rw [leavesOf_cons] at leaves
    have own := canonical first List.mem_cons_self
    have count := subtreeSize_eq own.shaped
    have total := congrArg List.length leaves
    rw [List.length_append] at total
    have taken : Good keyLen { range with
        workList := range.workList ++ [first], workSize := range.workSize + first.subtreeSize } := by
      refine ⟨fun t member => ?_, ?_⟩
      · obtain old | last := List.mem_append.mp member
        · exact good.canonical t old
        · exact List.mem_singleton.mp last ▸ own
      · show range.workSize + first.subtreeSize = (leavesOf (range.workList ++ [first])).length
        rw [leavesOf_concat, List.length_append]
        omega
    have left : Good keyLen (⟨second :: rest, other.workSize - first.subtreeSize,
        other.vectorOffset + first.subtreeSize⟩ : AccumulateValuesRange V) := by
      refine ⟨fun t member => canonical t (List.mem_cons_of_mem _ member), ?_⟩
      show other.workSize - first.subtreeSize = (leavesOf (second :: rest)).length
      omega
    have offset : other.vectorOffset + first.subtreeSize =
        range.vectorOffset + (leavesOf (range.workList ++ [first])).length := by
      rw [leavesOf_concat, List.length_append]
      omega
    obtain ⟨range', other', run, good₁, good₂, same, start, stop⟩ := ih taken left
      (by show range.workSize + first.subtreeSize + (other.workSize - first.subtreeSize) = originalSz; omega)
      offset taken.size left.size
    refine ⟨range', other', run, good₁, good₂, ?_, start, stop⟩
    rw [same, ← leaves]
    show leavesOf (range.workList ++ [first]) ++ leavesOf (second :: rest) = _
    rw [leavesOf_concat, List.append_assoc]
  | case4 range other done => exact ⟨range, other, rfl, good, good', rfl, rfl, next⟩

variable (keyLen) in
/-- Ranges that follow each other in the output, and their leaves. -/
def Laid : Nat → List (AccumulateValuesRange V) → Prop
  | _, [] => True
  | offset, range :: ranges =>
    range.vectorOffset = offset ∧ (∀ t ∈ range.workList, Shaped keyLen t) ∧
      Laid (offset + (leavesOf range.workList).length) ranges

def leaves (ranges : List (AccumulateValuesRange V)) : List (Key × Leaf V) :=
  ranges.flatMap (fun range => leavesOf range.workList)

theorem laid_append {offset : Nat} {ranges ranges' : List (AccumulateValuesRange V)}
    (laid : Laid keyLen offset ranges)
    (laid' : Laid keyLen (offset + (leaves ranges).length) ranges') :
    Laid keyLen offset (ranges ++ ranges') := by
  induction ranges generalizing offset with
  | nil => exact laid'
  | cons range ranges ih =>
    obtain ⟨start, shaped, rest⟩ := laid
    rw [leaves, List.flatMap_cons, List.length_append, ← Nat.add_assoc] at laid'
    exact ⟨start, shaped, ih rest laid'⟩

/-- Any division of a good range hands out its leaves in order, every part at its offset. -/
theorem divide_spec (grainSize : Nat) (splits : Parallel.Splits) {range : AccumulateValuesRange V}
    (good : Good keyLen range) :
    ∃ parts, Parallel.divide (isDivisible grainSize) split splits range = .ok parts ∧
      leaves parts = leavesOf range.workList ∧ Laid keyLen range.vectorOffset parts := by
  refine Parallel.divide_spec (Good keyLen)
    (fun range parts => leaves parts = leavesOf range.workList ∧
      Laid keyLen range.vectorOffset parts) ?_ ?_ splits good
  · intro range good
    refine ⟨?_, rfl, fun t member => (good.canonical t member).shaped, trivial⟩
    rw [leaves, List.flatMap_singleton]
  · intro range good _
    have fresh : Good keyLen (⟨[], 0, range.vectorOffset⟩ : AccumulateValuesRange V) :=
      ⟨fun t absurd => (List.not_mem_nil absurd).elim, rfl⟩
    obtain ⟨first, rest, run, good₁, good₂, same, start, stop⟩ := splitLoop_spec fresh good
      (by show 0 + range.workSize = range.workSize; omega) rfl
    refine ⟨first, rest, run, good₁, good₂, ?_⟩
    rintro parts parts' ⟨covers, laid⟩ ⟨covers', laid'⟩
    constructor
    · rw [leaves, List.flatMap_append, ← leaves, ← leaves, covers, covers', same]
      rfl
    · rw [start] at laid
      rw [stop, ← covers] at laid'
      exact laid_append laid laid'

/-- The writes of a subtree are its values, from the offset on. -/
theorem worker_eq {t : TrieNode V} (shaped : Shaped keyLen t) (offset : Nat) :
    accumulateValuesParallelWorker t offset = t.values.zipIdx offset := by
  induction shaped generalizing offset with
  | leaf full own => rw [accumulateValuesParallelWorker, values, entries_leaf]; rfl
  | @node pfx len cs m h inner full zeros shaped placed sum ih =>
    have slot : ∀ (b : Digit) (offset : Nat), accumulateSlotParallelWorker (cs b) offset =
        ((entriesSlot (cs b)).map (fun row => row.2.value)).zipIdx offset ∧
        slotSize (cs b) = (entriesSlot (cs b)).length := by
      intro b offset
      cases occupied : cs b with
      | none => exact ⟨rfl, rfl⟩
      | some c =>
        rw [accumulateSlotParallelWorker, slotSize, entriesSlot_some, subtreeSize_eq (shaped b c occupied)]
        exact ⟨ih b c occupied offset, rfl⟩
    have loop : ∀ (l : List Digit) (writes : List (V × Nat)) (offset : Nat),
        (l.foldl (fun (state : List (V × Nat) × Nat) b =>
          (state.1 ++ accumulateSlotParallelWorker (cs b) state.2, state.2 + slotSize (cs b))) (writes, offset)).1 =
        writes ++ ((l.flatMap (fun b => entriesSlot (cs b))).map (fun row => row.2.value)).zipIdx offset := by
      intro l
      induction l with
      | nil => intro writes offset; rw [List.foldl_nil]; exact (List.append_nil _).symm
      | cons b l rest =>
        intro writes offset
        rw [List.foldl_cons, rest, (slot b offset).1, (slot b offset).2, List.flatMap_cons, List.map_append,
          List.zipIdx_append, List.length_map, List.append_assoc]
    rw [accumulateValuesParallelWorker, loop, values, entries_node, List.nil_append]

theorem bodyWrites_eq {workList : List (TrieNode V)} (shaped : ∀ t ∈ workList, Shaped keyLen t) (offset : Nat) :
    bodyWrites workList offset = ((leavesOf workList).map (fun row => row.2.value)).zipIdx offset := by
  induction workList generalizing offset with
  | nil => rfl
  | cons work workList ih =>
    have own := shaped work List.mem_cons_self
    rw [bodyWrites, worker_eq own, ih (fun t member => shaped t (List.mem_cons_of_mem _ member)), leavesOf_cons,
      List.map_append, List.zipIdx_append, List.length_map, subtreeSize_eq own, values]

theorem writes_eq {offset : Nat} {ranges : List (AccumulateValuesRange V)}
    (laid : Laid keyLen offset ranges) :
    ranges.flatMap (fun range => bodyWrites range.workList range.vectorOffset) =
      ((leaves ranges).map (fun row => row.2.value)).zipIdx offset := by
  induction ranges generalizing offset with
  | nil => rfl
  | cons range ranges ih =>
    obtain ⟨start, shaped, rest⟩ := laid
    have split : leaves (range :: ranges) = leavesOf range.workList ++ leaves ranges := List.flatMap_cons
    rw [List.flatMap_cons, ih rest, start, bodyWrites_eq shaped, split, List.map_append, List.zipIdx_append,
      List.length_map]

omit [TrieValue V] in
/-- The values, written in any order, make up the list. -/
theorem foldlM_write {vec values : List V} {writes : List (V × Nat)} (perm : writes.Perm (values.zipIdx 0))
    (room : vec.length = values.length) : writes.foldlM write vec = .ok values := by
  have at_index : ∀ entry ∈ writes, values[entry.2]? = some entry.1 :=
    fun entry member => List.mem_zipIdx_iff_getElem?.mp (perm.mem_iff.mp member)
  obtain ⟨vec', run, length, written⟩ := Fallible.foldlM_total
    (fun done vec' => vec'.length = values.length ∧ ∀ entry ∈ done, vec'[entry.2]? = some entry.1)
    (f := write) (l := writes) (s := vec) ⟨room, fun _ absurd => (List.not_mem_nil absurd).elim⟩
    (fun done entry vec' prefix_le kept => by
      obtain ⟨length, written⟩ := kept
      have member : entry ∈ writes := prefix_le.subset (List.mem_append_right _ (List.mem_singleton_self _))
      have bound : entry.2 < vec'.length := length ▸ (List.getElem?_eq_some_iff.mp (at_index entry member)).1
      refine ⟨vec'.set entry.2 entry.1, if_pos bound, by rw [List.length_set, length], ?_⟩
      intro entry' listed
      rw [List.getElem?_set]
      split_ifs with same
      · have member' : entry' ∈ writes := prefix_le.subset listed
        have agree := (at_index entry member).symm.trans (same ▸ at_index entry' member')
        exact agree
      · obtain old | last := List.mem_append.mp listed
        · exact written entry' old
        · exact absurd (congrArg Prod.snd (List.mem_singleton.mp last)).symm same)
  rw [run]
  congr 1
  refine List.ext_getElem? (fun i => ?_)
  cases value : values[i]? with
  | none => exact List.getElem?_eq_none (length ▸ List.getElem?_eq_none_iff.mp value)
  | some v => exact written (v, i) (perm.mem_iff.mpr (List.mem_zipIdx_iff_getElem?.mpr value))

end AccumulateValuesRange

namespace ApplyRange

structure Good (keyLen : Nat) (range : ApplyRange V) : Prop where
  canonical : ∀ t ∈ range.workList, Canonical keyLen t
  size : range.workSize = (leavesOf range.workList).length

omit [TrieValue V] in
/-- Descending into the last item of a list divides it further. -/
theorem parts_descend {log work : TrieNode V} {before outside : List (TrieNode V)}
    (several : 2 ≤ work.entries.length) (parts : Parts log (before ++ ([work] ++ outside))) :
    Parts log (before ++ (work.childrenList ++ outside)) := by
  cases work with
  | leaf key value m h =>
    rw [entries_leaf, List.length_singleton] at several
    omega
  | node pfx len cs m h =>
    have front : Parts log (node pfx len cs m h :: (before ++ outside)) := parts.reorder List.perm_middle
    refine front.divide.reorder ?_
    rw [← List.append_assoc, ← List.append_assoc]
    exact List.perm_append_comm.append_right outside

theorem splitLoop_spec {originalSz : Int} {range other : ApplyRange V} (good : Good keyLen range)
    (good' : Good keyLen other) (whole : range.workSize + other.workSize = originalSz) :
    ∃ range' other', splitLoop originalSz range other = .ok (range', other') ∧ Good keyLen range' ∧
      Good keyLen other' ∧ leavesOf range'.workList ++ leavesOf other'.workList =
        leavesOf range.workList ++ leavesOf other.workList ∧
      ∀ log outside, Parts log (range.workList ++ (other.workList ++ outside)) →
        Parts log (range'.workList ++ (other'.workList ++ outside)) := by
  have size := good.size
  have size' := good'.size
  fun_induction splitLoop originalSz range other with
  | case1 range other more none =>
    rw [none] at size'
    have absurd : (leavesOf ([] : List (TrieNode V))).length = 0 := rfl
    omega
  | case2 range other more work listed ih =>
    have several : 2 ≤ (leavesOf other.workList).length := by omega
    obtain ⟨_, _, _, _, canonical, leaves⟩ := descend_spec good'.canonical several
    rw [listed, descend] at canonical leaves
    rw [listed, leavesOf, List.flatMap_singleton] at several
    have below : Good keyLen { other with workList := work.childrenList } :=
      ⟨canonical, by rw [leaves, ← listed]; exact size'⟩
    obtain ⟨range', other', run, good₁, good₂, same, parts⟩ := ih good below whole size below.size
    refine ⟨range', other', run, good₁, good₂, ?_, fun log outside before => ?_⟩
    · rw [same, listed, leaves]
    · rw [listed] at before
      exact parts log outside (parts_descend several before)
  | case3 range other more first second rest listed ih =>
    have own := good'.canonical first (listed ▸ List.mem_cons_self)
    have count := subtreeSize_eq own.shaped
    have leaves : leavesOf other.workList = first.entries ++ leavesOf (second :: rest) := by
      rw [listed, leavesOf_cons]
    have total := congrArg List.length leaves
    rw [List.length_append] at total
    have taken : Good keyLen (⟨range.workList ++ [first], range.workSize + first.subtreeSize⟩ : ApplyRange V) := by
      refine ⟨fun t member => ?_, ?_⟩
      · obtain old | last := List.mem_append.mp member
        · exact good.canonical t old
        · exact List.mem_singleton.mp last ▸ own
      · show range.workSize + first.subtreeSize = (leavesOf (range.workList ++ [first])).length
        rw [leavesOf_concat, List.length_append]
        omega
    have left : Good keyLen (⟨second :: rest, other.workSize - first.subtreeSize⟩ : ApplyRange V) := by
      refine ⟨fun t member => good'.canonical t (listed ▸ List.mem_cons_of_mem _ member), ?_⟩
      show other.workSize - first.subtreeSize = (leavesOf (second :: rest)).length
      omega
    obtain ⟨range', other', run, good₁, good₂, same, parts⟩ := ih taken left
      (by show range.workSize + first.subtreeSize + (other.workSize - first.subtreeSize) = originalSz; omega)
      taken.size left.size
    refine ⟨range', other', run, good₁, good₂, ?_, fun log outside before => parts log outside ?_⟩
    · rw [same, leaves]
      show leavesOf (range.workList ++ [first]) ++ leavesOf (second :: rest) = _
      rw [leavesOf_concat, List.append_assoc]
    · rw [listed] at before
      show Parts log ((range.workList ++ [first]) ++ ((second :: rest) ++ outside))
      rwa [List.append_assoc]
  | case4 range other done => exact ⟨range, other, rfl, good, good', rfl, fun _ _ before => before⟩

/-- Any division of a good range hands out its leaves, and divides a trie whenever the range is a part of it. -/
theorem divide_spec (grainSize : Nat) (splits : Parallel.Splits) {range : ApplyRange V} (good : Good keyLen range) :
    ∃ parts, Parallel.divide (isDivisible grainSize) split splits range = .ok parts ∧
      leavesOf (parts.flatMap workList) = leavesOf range.workList ∧
      ∀ log outside, Parts log (range.workList ++ outside) → Parts log (parts.flatMap workList ++ outside) := by
  refine Parallel.divide_spec (Good keyLen)
    (fun range parts => leavesOf (parts.flatMap workList) = leavesOf range.workList ∧
      ∀ log outside, Parts log (range.workList ++ outside) → Parts log (parts.flatMap workList ++ outside))
    ?_ ?_ splits good
  · intro range good
    rw [List.flatMap_singleton]
    exact ⟨rfl, fun _ _ before => before⟩
  · intro range good divisible
    have fresh : Good keyLen (⟨[], 0⟩ : ApplyRange V) := ⟨fun t absurd => (List.not_mem_nil absurd).elim, rfl⟩
    have busy : range.workSize ≠ 0 := by
      have more : range.workSize > grainSize := of_decide_eq_true divisible
      omega
    obtain ⟨first, rest, run, good₁, good₂, same, parts⟩ := splitLoop_spec fresh good
      (by show 0 + range.workSize = range.workSize; omega)
    refine ⟨first, rest, by rw [split, if_neg busy, run], good₁, good₂, ?_⟩
    rintro parts₁ parts₂ ⟨leaves₁, divides₁⟩ ⟨leaves₂, divides₂⟩
    rw [List.flatMap_append]
    constructor
    · rw [leavesOf_append, leaves₁, leaves₂, same]
      rfl
    · intro log outside before
      rw [List.append_assoc]
      apply divides₁
      have halves := parts log outside before
      have swapped := divides₂ log (first.workList ++ outside)
        (halves.reorder (by rw [← List.append_assoc, ← List.append_assoc]; exact List.perm_append_comm.append_right _))
      refine swapped.reorder ?_
      rw [← List.append_assoc, ← List.append_assoc]
      exact List.perm_append_comm.append_right _

end ApplyRange

namespace ClearRollbackRange

structure Good (keyLen : Nat) (range : ClearRollbackRange V) : Prop where
  canonical : ∀ t ∈ range.workList, Canonical keyLen t
  size : range.workSize = (leavesOf range.workList).countP tentative

/-- The leaves of `parts` are among these, with all the tentative ones. -/
def Covers (leaves parts : List (Key × Leaf V)) : Prop :=
  parts.Sublist leaves ∧ parts.filter tentative = leaves.filter tentative

theorem splitLoop_spec {originalSz : Int} {range other : ClearRollbackRange V} (good : Good keyLen range)
    (good' : Good keyLen other) (whole : range.workSize + other.workSize = originalSz) :
    ∃ range' other', splitLoop originalSz range other = .ok (range', other') ∧ Good keyLen range' ∧
      Good keyLen other' ∧ Covers (leavesOf range.workList ++ leavesOf other.workList)
        (leavesOf range'.workList ++ leavesOf other'.workList) := by
  have size := good.size
  have size' := good'.size
  have few := List.countP_le_length (p := tentative) (l := leavesOf other.workList)
  fun_induction splitLoop originalSz range other with
  | case1 range other more work alone =>
    obtain ⟨first, second, rest, listed, _⟩ := descend_spec good'.canonical (by omega)
    rw [alone] at listed
    cases listed
  | case2 range other more none =>
    obtain ⟨first, second, rest, listed, _⟩ := descend_spec good'.canonical (by omega)
    rw [none] at listed
    cases listed
  | case3 range other more first second rest listed busy ih =>
    obtain ⟨_, _, _, _, canonical, leaves⟩ := descend_spec good'.canonical (by omega)
    rw [listed] at canonical leaves
    rw [leavesOf_cons] at leaves
    have own := canonical first List.mem_cons_self
    have count := rollbackSize_eq own.shaped
    have total := congrArg (List.countP tentative) leaves
    rw [List.countP_append] at total
    have taken : Good keyLen { range with
        workList := range.workList ++ [first], workSize := range.workSize + first.rollbackSize } := by
      refine ⟨fun t member => ?_, ?_⟩
      · obtain old | last := List.mem_append.mp member
        · exact good.canonical t old
        · exact List.mem_singleton.mp last ▸ own
      · show range.workSize + first.rollbackSize = (leavesOf (range.workList ++ [first])).countP tentative
        rw [leavesOf_concat, List.countP_append]
        omega
    have left : Good keyLen (⟨second :: rest, other.workSize - first.rollbackSize,
        other.vectorOffset + first.rollbackSize⟩ : ClearRollbackRange V) := by
      refine ⟨fun t member => canonical t (List.mem_cons_of_mem _ member), ?_⟩
      show other.workSize - first.rollbackSize = (leavesOf (second :: rest)).countP tentative
      omega
    obtain ⟨range', other', run, good₁, good₂, covers⟩ := ih taken left
      (by show range.workSize + first.rollbackSize + (other.workSize - first.rollbackSize) = originalSz; omega)
      taken.size left.size List.countP_le_length
    refine ⟨range', other', run, good₁, good₂, ?_⟩
    rwa [leavesOf_concat, List.append_assoc, leaves] at covers
  | case4 range other more first second rest listed idle ih =>
    obtain ⟨_, _, _, _, canonical, leaves⟩ := descend_spec good'.canonical (by omega)
    rw [listed] at canonical leaves
    rw [leavesOf_cons] at leaves
    have own := canonical first List.mem_cons_self
    have count := rollbackSize_eq own.shaped
    have total := congrArg (List.countP tentative) leaves
    rw [List.countP_append] at total
    have left : Good keyLen { other with workList := second :: rest } := by
      refine ⟨fun t member => canonical t (List.mem_cons_of_mem _ member), ?_⟩
      show other.workSize = (leavesOf (second :: rest)).countP tentative
      omega
    obtain ⟨range', other', run, good₁, good₂, sub, same⟩ := ih good left whole size left.size List.countP_le_length
    refine ⟨range', other', run, good₁, good₂, ?_, ?_⟩
    · rw [← leaves]
      exact sub.trans ((List.sublist_append_right _ _).append_left _)
    · have vacuous : first.entries.filter tentative = [] :=
        List.filter_eq_nil_iff.mpr (fun row member marked => by
          have some := List.countP_pos_iff.mpr ⟨row, member, marked⟩
          omega)
      rw [same, ← leaves, List.filter_append, List.filter_append, List.filter_append, vacuous, List.nil_append]
  | case5 range other done => exact ⟨range, other, rfl, good, good', List.Sublist.refl _, rfl⟩

/-- Any division of a good range hands out its tentative leaves, and no leaf twice. -/
theorem divide_spec (grainSize : Nat) (splits : Parallel.Splits) {range : ClearRollbackRange V}
    (good : Good keyLen range) :
    ∃ parts, Parallel.divide (isDivisible grainSize) split splits range = .ok parts ∧
      Covers (leavesOf range.workList) (leavesOf (parts.flatMap workList)) := by
  refine Parallel.divide_spec (Good keyLen)
    (fun range parts => Covers (leavesOf range.workList) (leavesOf (parts.flatMap workList))) ?_ ?_
    splits good
  · intro range good
    rw [List.flatMap_singleton]
    exact ⟨List.Sublist.refl _, rfl⟩
  · intro range good _
    have fresh : Good keyLen (⟨[], 0, range.vectorOffset⟩ : ClearRollbackRange V) :=
      ⟨fun t absurd => (List.not_mem_nil absurd).elim, rfl⟩
    obtain ⟨first, rest, run, good₁, good₂, sub, same⟩ := splitLoop_spec fresh good
      (by show 0 + range.workSize = range.workSize; omega)
    refine ⟨first, rest, run, good₁, good₂, ?_⟩
    rintro parts parts' ⟨sub₁, same₁⟩ ⟨sub₂, same₂⟩
    rw [List.flatMap_append, leavesOf_append]
    constructor
    · exact (sub₁.append sub₂).trans sub
    · rw [List.filter_append, same₁, same₂, ← List.filter_append, same]
      rfl

end ClearRollbackRange

omit [TrieValue V] in
/-- A trie without keys has no leaves, whichever way they are read. -/
theorem makeEmptyNode_walks (keyLen : Nat) (h : Option Hash) :
    (node (List.replicate keyLen 0) 0 Branches.empty 0 h : TrieNode V).entries = [] ∧
    accumulateValuesParallelWorker (node (List.replicate keyLen 0) 0 Branches.empty 0 h : TrieNode V) 0 = [] ∧
    (node (List.replicate keyLen 0) 0 Branches.empty 0 h : TrieNode V).accumulateValues [] = .ok [] := by
  have silent : ∀ l : List Digit, l.foldl (fun (state : List (V × Nat) × Nat) b =>
      (state.1 ++ accumulateSlotParallelWorker (Branches.empty b) state.2, state.2 + slotSize (Branches.empty b : Option (TrieNode V))))
      ([], 0) = ([], 0) := by
    intro l
    induction l with
    | nil => rfl
    | cons b l ih => exact ih
  have unchanged : ∀ l : List Digit, l.foldlM (fun output b =>
      accumulateValuesSlot (Branches.empty b : Option (TrieNode V)) output) [] = .ok [] := by
    intro l
    induction l with
    | nil => rfl
    | cons b l ih => exact ih
  refine ⟨?_, ?_, ?_⟩
  · rw [entries_node, List.flatMap_eq_nil_iff]
    exact fun b _ => entriesSlot_none
  · rw [accumulateValuesParallelWorker, silent]
  · rw [accumulateValues, if_neg (by decide), unchanged]

/-- However the scheduler splits its ranges, a parallel walk throws nothing in a split and goes over every leaf
once; `clear_rollback_parallel` may leave out leaves that are not tentative. -/
theorem parallelRanges_cover [Inhabited V] {root : TrieNode V}
    (valid : Vacant keyLen root ∨ Canonical keyLen root)
    (grainSize : Nat) (splits : Parallel.Splits) :
    (∃ parts, Parallel.divide (AccumulateValuesRange.isDivisible grainSize) AccumulateValuesRange.split splits
        (.ofRoot root) = .ok parts ∧ AccumulateValuesRange.leaves parts = root.entries) ∧
    (∀ interleaving output,
      accumulateValuesParallel grainSize splits interleaving root output = .ok root.values) ∧
    (∀ values, root.accumulateValues [] = .ok values → values = root.values) ∧
    (∃ parts, Parallel.divide (ApplyRange.isDivisible grainSize) ApplyRange.split splits (.ofRoot root) = .ok parts ∧
      leavesOf (parts.flatMap ApplyRange.workList) = root.entries ∧
      Parts root (parts.flatMap ApplyRange.workList)) ∧
    ∃ parts, Parallel.divide (ClearRollbackRange.isDivisible grainSize) ClearRollbackRange.split splits
        (.ofRoot root) = .ok parts ∧
      ClearRollbackRange.Covers root.entries (leavesOf (parts.flatMap ClearRollbackRange.workList)) := by
  obtain ⟨h, rfl⟩ | canonical := valid
  · -- a trie without keys is not divisible, and its walk writes nothing
    obtain ⟨bare, silent, sequential⟩ := makeEmptyNode_walks (V := V) keyLen h
    have whole : ∀ size : Nat, size = 0 → decide ((size : Int) > grainSize) = false := by
      intro size none
      rw [decide_eq_false_iff_not]
      omega
    have kept : AccumulateValuesRange.isDivisible grainSize
        (.ofRoot (node (List.replicate keyLen 0) 0 Branches.empty 0 h : TrieNode V)) = false := whole 0 rfl
    have keptApply : ApplyRange.isDivisible grainSize
        (.ofRoot (node (List.replicate keyLen 0) 0 Branches.empty 0 h : TrieNode V)) = false := whole 0 rfl
    have keptClear : ClearRollbackRange.isDivisible grainSize
        (.ofRoot (node (List.replicate keyLen 0) 0 Branches.empty 0 h : TrieNode V)) = false := whole 0 rfl
    refine ⟨⟨_, Parallel.divide_of_indivisible kept splits, ?_⟩, fun interleaving output => ?_,
      fun values accumulated => ?_, ⟨_, Parallel.divide_of_indivisible keptApply splits, ?_, .whole⟩,
      _, Parallel.divide_of_indivisible keptClear splits, ?_⟩
    · rw [AccumulateValuesRange.leaves, List.flatMap_singleton]
      exact List.flatMap_singleton _ _
    · rw [accumulateValuesParallel, Parallel.divide_of_indivisible kept splits, values, bare]
      refine AccumulateValuesRange.foldlM_write ((interleaving.perm _).trans ?_)
        (by rw [AccumulateValuesRange.resize]; rfl)
      rw [List.flatMap_singleton]
      show (accumulateValuesParallelWorker _ 0 ++ []).Perm []
      rw [silent]
      exact List.Perm.refl _
    · rw [sequential] at accumulated
      rw [← Except.ok.inj accumulated, TrieNode.values, bare]
      rfl
    · rw [List.flatMap_singleton]
      exact List.flatMap_singleton _ _
    · rw [List.flatMap_singleton]
      exact ⟨List.Sublist.refl _, rfl⟩
  · have shaped := canonical.shaped
    have own : ∀ t ∈ [root], Canonical keyLen t := fun t member => List.mem_singleton.mp member ▸ canonical
    have whole : leavesOf [root] = root.entries := by rw [leavesOf, List.flatMap_singleton]
    have size : (root.subtreeSize : Int) = (leavesOf [root]).length := by rw [subtreeSize_eq shaped, whole]
    have rollback : (root.rollbackSize : Int) = (leavesOf [root]).countP tentative := by
      rw [rollbackSize_eq shaped, whole]
    refine ⟨?_, fun interleaving output => ?_, fun values accumulated => (accumulateValues_size shaped accumulated).2,
      ?_, ?_⟩
    · obtain ⟨parts, run, leaves, _⟩ := AccumulateValuesRange.divide_spec grainSize splits
        (show AccumulateValuesRange.Good keyLen (.ofRoot root) from ⟨own, size⟩)
      exact ⟨parts, run, leaves.trans whole⟩
    · obtain ⟨parts, run, leaves, laid⟩ := AccumulateValuesRange.divide_spec grainSize splits
        (show AccumulateValuesRange.Good keyLen (.ofRoot root) from ⟨own, size⟩)
      have room : (AccumulateValuesRange.resize root.subtreeSize output).length = root.values.length := by
        rw [AccumulateValuesRange.resize, List.length_take, List.length_append, List.length_replicate,
          subtreeSize_eq shaped, values, List.length_map]
        omega
      rw [accumulateValuesParallel, run]
      refine AccumulateValuesRange.foldlM_write ((interleaving.perm _).trans ?_) room
      rw [AccumulateValuesRange.writes_eq laid, leaves.trans whole, values]
      rfl
    · obtain ⟨parts, run, leaves, divides⟩ := ApplyRange.divide_spec grainSize splits
        (show ApplyRange.Good keyLen (.ofRoot root) from ⟨own, size⟩)
      have divided := divides root [] .whole
      rw [List.append_nil] at divided
      exact ⟨parts, run, leaves.trans whole, divided⟩
    · obtain ⟨parts, run, covers⟩ := ClearRollbackRange.divide_spec grainSize splits
        (show ClearRollbackRange.Good keyLen (.ofRoot root) from ⟨own, rollback⟩)
      exact ⟨parts, run, whole ▸ covers⟩

/-- All keys that continue a prefix by some digits and then zeros, every leaf with the same metadata. -/
def fullTrie (value : V) (m : Metadata) (keyLen : Nat) : Nat → Key → TrieNode V
  | 0, pfx => .leaf (pfx ++ List.replicate (keyLen - pfx.length) 0) value m none
  | depth + 1, pfx =>
    .node (pfx ++ List.replicate (keyLen - pfx.length) 0) pfx.length
      (fun b => some (fullTrie value m keyLen depth (pfx ++ [b]))) (16 ^ (depth + 1) • m) none

omit [TrieValue V] in
theorem fullTrie_metadata (value : V) (m : Metadata) (depth : Nat) (pfx : Key) :
    (fullTrie value m keyLen depth pfx).metadata = 16 ^ depth • m := by
  cases depth with
  | zero => rw [fullTrie, leaf_metadata, Nat.pow_zero, one_nsmul]
  | succ depth => rw [fullTrie, node_metadata]

omit [TrieValue V] in
theorem fullTrie_under (value : V) (m : Metadata) (depth : Nat) (pfx : Key) :
    Under pfx (fullTrie value m keyLen depth pfx) := by
  cases depth with
  | zero =>
    refine ⟨?_, ?_⟩
    · rw [fullTrie, leaf_prefixLen, List.length_append]
      omega
    · rw [fullTrie, leaf_pfx, List.take_left]
  | succ depth =>
    refine ⟨?_, ?_⟩
    · rw [fullTrie, node_prefixLen]
    · rw [fullTrie, node_pfx, List.take_left]

omit [TrieValue V] in
theorem fullTrie_entries (value : V) (m : Metadata) (depth : Nat) (pfx : Key) (row : Key × Leaf V)
    (listed : row ∈ (fullTrie value m keyLen depth pfx).entries) : row.2.metadata = m := by
  induction depth generalizing pfx with
  | zero =>
    rw [fullTrie, entries_leaf] at listed
    rw [List.mem_singleton.mp listed]
  | succ depth ih =>
    rw [fullTrie] at listed
    obtain ⟨b, c, occupied, listed⟩ := mem_entries_node.mp listed
    exact ih (pfx ++ [b]) (Option.some.inj occupied ▸ listed)

theorem fullTrie_canonical {value : V} {m : Metadata} (own : LeafMetadata value m) (depth : Nat) {pfx : Key}
    (inside : pfx.length + depth ≤ keyLen) : Canonical keyLen (fullTrie value m keyLen depth pfx) := by
  induction depth generalizing pfx with
  | zero =>
    rw [fullTrie]
    refine ⟨.leaf ?_ own, compactAt_leaf _ _ _ _⟩
    rw [List.length_append, List.length_replicate]
    omega
  | succ depth ih =>
    have child : ∀ b : Digit, Canonical keyLen (fullTrie value m keyLen depth (pfx ++ [b])) :=
      fun b => ih (by rw [List.length_append, List.length_singleton]; omega)
    rw [fullTrie]
    refine ⟨.node (by omega) ?_ ?_ ?_ ?_ ?_, compact_node.mpr ⟨?_, ?_⟩⟩
    · rw [List.length_append, List.length_replicate]
      omega
    · rw [Digits.truncate, List.take_left, List.length_append, List.length_replicate, Nat.add_sub_cancel_left]
    · intro b c occupied
      exact Option.some.inj occupied ▸ (child b).shaped
    · intro b c occupied
      rw [List.take_left, ← Option.some.inj occupied]
      exact fullTrie_under _ _ _ _
    · rw [Branches.total]
      simp only [Branches.weight_some, fullTrie_metadata, Finset.sum_const, Finset.card_univ, Fintype.card_fin]
      rw [Nat.pow_succ, mul_nsmul]
    · exact Branches.two_le_occupied (show (0 : Digit) ≠ 1 by decide) (Option.some_ne_none _) (Option.some_ne_none _)
    · intro b c occupied
      exact Option.some.inj occupied ▸ (child b).compact

/-- One leaf that is not tentative, before two subtrees of `16 ^ 3` tentative ones. -/
def mixedTrie : TrieNode Offer :=
  let children := Function.update (Function.update (Function.update Branches.empty
    0 (some (.leaf (List.replicate 44 0) default (Metadata.ofValue (default : Offer)) none)))
    1 (some (fullTrie default ⟨0, 1, 1, 0⟩ 44 3 [1])))
    2 (some (fullTrie default ⟨0, 1, 1, 0⟩ 44 3 [2]))
  .node (List.replicate 44 0) 0 children (Branches.total metadata children) none

theorem mixedTrie_canonical : Canonical 44 mixedTrie := by
  have own : LeafMetadata (default : Offer) ⟨0, 1, 1, 0⟩ := ⟨rfl, rfl, Or.inl rfl, Or.inr rfl⟩
  have plain : Canonical 44 (.leaf (List.replicate 44 0) default (Metadata.ofValue (default : Offer)) none) :=
    ⟨.leaf rfl ⟨rfl, rfl, Or.inl rfl, Or.inl rfl⟩, compactAt_leaf _ _ _ _⟩
  have full : ∀ b : Digit, Canonical 44 (fullTrie (default : Offer) ⟨0, 1, 1, 0⟩ 44 3 [b]) :=
    fun b => fullTrie_canonical own 3 (by rw [List.length_singleton]; decide)
  have child : ∀ b c, mixedTrie.children b = some c → Canonical 44 c ∧ Under ([] ++ [b]) c := by
    intro b c occupied
    obtain ⟨rfl, same⟩ | ⟨_, occupied⟩ := Branches.update_eq_some_iff.mp occupied
    · exact Option.some.inj same ▸ ⟨full 2, fullTrie_under _ _ _ _⟩
    · obtain ⟨rfl, same⟩ | ⟨_, occupied⟩ := Branches.update_eq_some_iff.mp occupied
      · exact Option.some.inj same ▸ ⟨full 1, fullTrie_under _ _ _ _⟩
      · obtain ⟨rfl, same⟩ | ⟨_, occupied⟩ := Branches.update_eq_some_iff.mp occupied
        · exact Option.some.inj same ▸ ⟨plain, by decide, rfl⟩
        · cases occupied
  refine ⟨.node (by decide) rfl rfl (fun b c occupied => (child b c occupied).1.shaped)
    (fun b c occupied => (child b c occupied).2) rfl, compact_node.mpr ⟨?_, fun b c occupied => (child b c occupied).1.compact⟩⟩
  exact Branches.two_le_occupied (show (0 : Digit) ≠ 1 by decide) (Option.some_ne_none _) (Option.some_ne_none _)

theorem mixedTrie_children : mixedTrie.childrenList =
    [.leaf (List.replicate 44 0) default (Metadata.ofValue (default : Offer)) none,
      fullTrie default ⟨0, 1, 1, 0⟩ 44 3 [1], fullTrie default ⟨0, 1, 1, 0⟩ 44 3 [2]] := rfl

theorem nsmul_numRollbackSubnodes (n : Nat) (m : Metadata) :
    (n • m).numRollbackSubnodes = n * m.numRollbackSubnodes := by
  induction n with
  | zero => rw [zero_nsmul, Nat.cast_zero, Int.zero_mul, Metadata.zero_numRollbackSubnodes]
  | succ n ih =>
    rw [succ_nsmul, Metadata.add_numRollbackSubnodes, ih, Nat.cast_succ, Int.add_mul, Int.one_mul]

theorem fullTrie_rollbackSize (b : Digit) :
    (fullTrie (default : Offer) ⟨0, 1, 1, 0⟩ 44 3 [b]).rollbackSize = 4096 := by
  rw [rollbackSize, fullTrie_metadata, nsmul_numRollbackSubnodes]
  rfl

theorem mixedTrie_rollbackSize : mixedTrie.rollbackSize = 8192 := by
  have total : mixedTrie.metadata.numRollbackSubnodes = 8192 := by
    rw [mixedTrie, node_metadata, Branches.total_update, Branches.total_update, Branches.total_update,
      Branches.total_empty]
    simp only [Branches.weight_some, fullTrie_metadata, Metadata.add_numRollbackSubnodes,
      Metadata.sub_numRollbackSubnodes, nsmul_numRollbackSubnodes]
    rfl
  rw [rollbackSize, total]
  rfl

theorem mixedTrie_split : ClearRollbackRange.split (.ofRoot mixedTrie) =
    .ok (⟨[fullTrie default ⟨0, 1, 1, 0⟩ 44 3 [1]], 4096, 0⟩,
      ⟨[fullTrie default ⟨0, 1, 1, 0⟩ 44 3 [2]], 4096, 4096⟩) := by
  have size : (ClearRollbackRange.ofRoot mixedTrie).workSize = 8192 := by
    rw [ClearRollbackRange.ofRoot, mixedTrie_rollbackSize]
    rfl
  have listed : descend (ClearRollbackRange.ofRoot mixedTrie).workList =
    [.leaf (List.replicate 44 0) default (Metadata.ofValue (default : Offer)) none,
      fullTrie default ⟨0, 1, 1, 0⟩ 44 3 [1], fullTrie default ⟨0, 1, 1, 0⟩ 44 3 [2]] := mixedTrie_children
  rw [ClearRollbackRange.split, size, ClearRollbackRange.splitLoop, if_pos (by decide)]
  split
  · rename_i alone
    rw [listed] at alone
    cases alone
  · rename_i none
    rw [listed] at none
    cases none
  · rename_i first next rest listed'
    rw [listed] at listed'
    cases listed'
    rw [if_neg (by decide), ClearRollbackRange.splitLoop, if_pos (by decide)]
    split
    · rename_i alone
      cases alone
    · rename_i none
      cases none
    · rename_i first next rest listed'
      cases listed'
      rw [fullTrie_rollbackSize, if_pos (by decide), ClearRollbackRange.splitLoop, if_neg (by decide), size]
      rfl

/-- A split drops a leaf that is not tentative. -/
theorem clearRollback_drops_leaf : Canonical 44 mixedTrie ∧
    ∃ parts, Parallel.divide (ClearRollbackRange.isDivisible 1000) ClearRollbackRange.split (.split .keep .keep)
      (.ofRoot mixedTrie) = .ok parts ∧
      (List.replicate 44 0, ⟨default, Metadata.ofValue (default : Offer)⟩) ∈ mixedTrie.entries ∧
      (List.replicate 44 0, ⟨default, Metadata.ofValue (default : Offer)⟩) ∉
        leavesOf (parts.flatMap ClearRollbackRange.workList) := by
  have divisible : ClearRollbackRange.isDivisible 1000 (.ofRoot mixedTrie) = true := by
    rw [ClearRollbackRange.isDivisible, ClearRollbackRange.ofRoot, mixedTrie_rollbackSize]
    rfl
  refine ⟨mixedTrie_canonical, [⟨[fullTrie default ⟨0, 1, 1, 0⟩ 44 3 [1]], 4096, 0⟩,
    ⟨[fullTrie default ⟨0, 1, 1, 0⟩ 44 3 [2]], 4096, 4096⟩], ?_, ?_, ?_⟩
  · rw [Parallel.divide, if_pos divisible, mixedTrie_split]
    rfl
  · exact mem_entries_node.mpr ⟨0, _, rfl, by rw [entries_leaf]; exact List.mem_singleton_self _⟩
  · intro member
    obtain ⟨work, listed, inside⟩ := List.mem_flatMap.mp member
    have marked : ∀ b : Digit, (List.replicate 44 0, ⟨default, Metadata.ofValue (default : Offer)⟩) ∉
        (fullTrie (default : Offer) ⟨0, 1, 1, 0⟩ 44 3 [b]).entries := by
      intro b there
      exact absurd (fullTrie_entries _ _ _ _ _ there) (by decide)
    obtain rfl | listed := List.mem_cons.mp listed
    · exact marked 1 inside
    · exact marked 2 (List.mem_singleton.mp listed ▸ inside)

theorem parallelRanges_cover_mixedTrie :
    (∃ parts, Parallel.divide (AccumulateValuesRange.isDivisible 1000) AccumulateValuesRange.split
        (.split .keep (.split .keep .keep)) (.ofRoot mixedTrie) = .ok parts ∧
      AccumulateValuesRange.leaves parts = mixedTrie.entries) ∧
    (∀ interleaving output, accumulateValuesParallel 1000 (.split .keep (.split .keep .keep)) interleaving mixedTrie
      output = .ok mixedTrie.values) ∧
    (∀ values, mixedTrie.accumulateValues [] = .ok values → values = mixedTrie.values) ∧
    (∃ parts, Parallel.divide (ApplyRange.isDivisible 1000) ApplyRange.split (.split .keep (.split .keep .keep))
        (.ofRoot mixedTrie) = .ok parts ∧ leavesOf (parts.flatMap ApplyRange.workList) = mixedTrie.entries ∧
      Parts mixedTrie (parts.flatMap ApplyRange.workList)) ∧
    ∃ parts, Parallel.divide (ClearRollbackRange.isDivisible 1000) ClearRollbackRange.split
        (.split .keep (.split .keep .keep)) (.ofRoot mixedTrie) = .ok parts ∧
      ClearRollbackRange.Covers mixedTrie.entries (leavesOf (parts.flatMap ClearRollbackRange.workList)) :=
  parallelRanges_cover (Or.inr mixedTrie_canonical) 1000 (.split .keep (.split .keep .keep))

end Speedex
