import Speedex.Library.Fallible
import Speedex.Library.Parallel
import Speedex.Trie.SubnodeUpdate
import Speedex.Trie.Walks

set_option autoImplicit false

/- The ranges into which the parallel walks divide a trie. A range is a list of subtrees; splitting it
replaces a lone subtree by its children and hands the first subtrees over. -/
namespace Speedex

namespace TrieNode

variable {V : Type}

/-- `children_list`, `children_list_ordered` and `children_list_nolock`. -/
def childrenList : TrieNode V → List (TrieNode V)
  | .leaf .. => []
  | .node _ _ children _ _ => (List.finRange 16).filterMap children

theorem entries_childrenList (pfx : Key) (len : Nat) (cs : Fin 16 → Option (TrieNode V)) (m : Metadata)
    (h : Option Hash) : (node pfx len cs m h).childrenList.flatMap entries = (node pfx len cs m h).entries := by
  rw [childrenList, entries_node]
  induction List.finRange 16 with
  | nil => rfl
  | cons b branches ih =>
    rw [List.flatMap_cons, ← ih]
    cases occupied : cs b with
    | none => rw [List.filterMap_cons_none occupied, entriesSlot_none, List.nil_append]
    | some c => rw [List.filterMap_cons_some occupied, entriesSlot_some, List.flatMap_cons]

/-- Dividing a trie into subtrees, in any order: a node is replaced by its children. -/
inductive Parts (log : TrieNode V) : List (TrieNode V) → Prop
  | whole : Parts log [log]
  | divide {pfx : Key} {len : Nat} {cs : Fin 16 → Option (TrieNode V)} {m : Metadata} {h : Option Hash} {rest : List (TrieNode V)}
      (parts : Parts log (.node pfx len cs m h :: rest)) : Parts log ((node pfx len cs m h).childrenList ++ rest)
  | reorder {parts parts' : List (TrieNode V)} (before : Parts log parts) (same : parts.Perm parts') : Parts log parts'

/-- What the parts of a log have in common with it. -/
structure PartsCover [TrieValue V] (keyLen : Nat) (log : TrieNode V) (parts : List (TrieNode V)) : Prop where
  valid : ∀ part ∈ parts, Vacant keyLen part ∨ Canonical keyLen part
  within : ∀ part ∈ parts, ∀ query l, part.find query = some l → log.find query = some l
  covered : ∀ query l, log.find query = some l → ∃ part ∈ parts, part.find query = some l

theorem Parts.cover [TrieValue V] {keyLen : Nat} {log : TrieNode V} (valid : Vacant keyLen log ∨ Canonical keyLen log)
    {parts : List (TrieNode V)} (divided : Parts log parts) : PartsCover keyLen log parts := by
  induction divided with
  | whole =>
    refine ⟨fun part listed => ?_, fun part listed query l found => ?_, fun query l found => ⟨log, List.mem_singleton.mpr rfl, found⟩⟩
    · rw [List.mem_singleton.mp listed]
      exact valid
    · rw [← List.mem_singleton.mp listed]
      exact found
  | @divide pfx len cs m h rest before ih =>
    have mem : ∀ c, c ∈ (node pfx len cs m h).childrenList ↔ ∃ b, cs b = some c := by
      intro c
      rw [childrenList, List.mem_filterMap]
      simp
    have form := ih.valid _ List.mem_cons_self
    have bare : Vacant keyLen (node pfx len cs m h) → ∀ b, cs b = none := by
      rintro ⟨h', shape⟩ b
      cases shape
      rfl
    refine ⟨fun part listed => ?_, fun part listed query l found => ?_, fun query l found => ?_⟩
    · rcases List.mem_append.mp listed with child | old
      · obtain ⟨b, occupied⟩ := (mem part).mp child
        rcases form with vacant | canonical
        · rw [bare vacant b] at occupied
          cases occupied
        · exact Or.inr (canonical.child occupied)
      · exact ih.valid part (List.mem_cons_of_mem _ old)
    · rcases List.mem_append.mp listed with child | old
      · obtain ⟨b, occupied⟩ := (mem part).mp child
        refine ih.within _ List.mem_cons_self query l ?_
        rcases form with vacant | canonical
        · rw [bare vacant b] at occupied
          cases occupied
        · have digit := (find_branch canonical.shaped occupied (by rw [found]; exact Option.some_ne_none l)).2.2.2
          rw [find_node, digit, occupied, findSlot_some]
          exact found
      · exact ih.within part (List.mem_cons_of_mem _ old) query l found
    · obtain ⟨part, listed, here⟩ := ih.covered query l found
      rcases List.mem_cons.mp listed with rfl | old
      · rw [find_node] at here
        obtain ⟨c, occupied, here⟩ := findSlot_eq_some.mp here
        exact ⟨c, List.mem_append_left _ ((mem c).mpr ⟨_, occupied⟩), here⟩
      · exact ⟨part, List.mem_append_right _ old, here⟩
  | reorder _ same ih =>
    exact ⟨fun part listed => ih.valid part (same.mem_iff.mpr listed), fun part listed => ih.within part (same.mem_iff.mpr listed),
      fun query l found => by
        obtain ⟨part, listed, here⟩ := ih.covered query l found
        exact ⟨part, same.mem_iff.mp listed, here⟩⟩

/-- Dividing a trie loses no leaf and doubles none. -/
theorem Parts.entries_perm {log : TrieNode V} {parts : List (TrieNode V)} (divided : Parts log parts) :
    (parts.flatMap entries).Perm log.entries := by
  induction divided with
  | whole => rw [List.flatMap_singleton]
  | @divide pfx len cs m h rest before ih =>
    rw [List.flatMap_append, entries_childrenList]
    rwa [List.flatMap_cons] at ih
  | reorder _ same ih => exact (same.symm.flatMap_right _).trans ih

mutual

/-- The nodes of a subtree. -/
def nodeCount : TrieNode V → Nat
  | .leaf .. => 1
  | .node _ _ children _ _ => 1 + ((List.finRange 16).map (fun b => nodeCountSlot (children b))).sum

def nodeCountSlot : Option (TrieNode V) → Nat
  | none => 0
  | some c => nodeCount c

end

theorem nodeCount_pos (t : TrieNode V) : 0 < t.nodeCount := by
  cases t with
  | leaf => exact Nat.one_pos
  | node => rw [nodeCount]; omega

theorem nodeCount_childrenList (t : TrieNode V) : (t.childrenList.map nodeCount).sum < t.nodeCount := by
  cases t with
  | leaf => exact Nat.one_pos
  | node pfx len cs m h =>
    have same : ((node pfx len cs m h).childrenList.map nodeCount).sum =
        ((List.finRange 16).map (fun b => nodeCountSlot (cs b))).sum := by
      rw [childrenList]
      induction List.finRange 16 with
      | nil => rfl
      | cons b branches ih =>
        rw [List.map_cons, List.sum_cons, ← ih]
        cases occupied : cs b with
        | none => rw [List.filterMap_cons_none occupied, nodeCountSlot, Nat.zero_add]
        | some c => rw [List.filterMap_cons_some occupied, List.map_cons, List.sum_cons, nodeCountSlot]
    rw [same, nodeCount]
    omega

/-- `size()`. -/
def subtreeSize (t : TrieNode V) : Nat := t.metadata.size.toNat

/-- `num_rollback_subnodes`. -/
def rollbackSize (t : TrieNode V) : Nat := t.metadata.numRollbackSubnodes.toNat

/-- `other.work_list = other.work_list.at(0)->children_list()` where the list has one element. -/
def descend : List (TrieNode V) → List (TrieNode V)
  | [work] => work.childrenList
  | workList => workList

theorem nodeCount_descend (workList : List (TrieNode V)) :
    ((descend workList).map nodeCount).sum ≤ (workList.map nodeCount).sum := by
  rcases workList with _ | ⟨work, _ | ⟨work', rest⟩⟩
  · exact Nat.le_refl _
  · rw [descend, List.map_singleton, List.sum_singleton]
    exact Nat.le_of_lt (nodeCount_childrenList work)
  · exact Nat.le_refl _

/-- Taking an item off the list leaves fewer nodes. -/
theorem nodeCount_rest {workList rest : List (TrieNode V)} {first : TrieNode V}
    (listed : descend workList = first :: rest) : (rest.map nodeCount).sum < (workList.map nodeCount).sum := by
  have fewer := nodeCount_descend workList
  have positive := nodeCount_pos first
  rw [listed, List.map_cons, List.sum_cons] at fewer
  omega

end TrieNode

open TrieNode

variable {V : Type}

/-- The errors that a splitting constructor throws, and a write beyond the output. -/
inductive RangeFault where
  /-- "shouldn't still have other.work_list.size() == 1" -/
  | singleItem
  /-- "shouldn't get to other.work_list.size() == 0" -/
  | noItem
  /-- "invalid access" -/
  | invalidAccess
deriving DecidableEq

/-- `AccumulateValuesRange` and `AccountAccumulateValuesRange`. -/
structure AccumulateValuesRange (V : Type) where
  workList : List (TrieNode V)
  workSize : Int
  vectorOffset : Nat

namespace AccumulateValuesRange

def ofRoot (workRoot : TrieNode V) : AccumulateValuesRange V where
  workList := [workRoot]
  workSize := workRoot.subtreeSize
  vectorOffset := 0

def isDivisible (grainSize : Nat) (range : AccumulateValuesRange V) : Bool := range.workSize > grainSize

/-- The loop of the splitting constructor; `range` is the object under construction. -/
def splitLoop (originalSz : Int) (range other : AccumulateValuesRange V) :
    Except RangeFault (AccumulateValuesRange V × AccumulateValuesRange V) :=
  if range.workSize < originalSz / 2 then
    match _ : descend other.workList with
    | [_] => .error .singleItem
    | [] => .error .noItem
    | first :: next :: rest =>
      splitLoop originalSz
        { range with workList := range.workList ++ [first], workSize := range.workSize + first.subtreeSize }
        { workList := next :: rest, workSize := other.workSize - first.subtreeSize,
          vectorOffset := other.vectorOffset + first.subtreeSize }
  else .ok (range, other)
termination_by (other.workList.map nodeCount).sum
decreasing_by exact nodeCount_rest ‹_›

def split (other : AccumulateValuesRange V) :
    Except RangeFault (AccumulateValuesRange V × AccumulateValuesRange V) :=
  splitLoop other.workSize ⟨[], 0, other.vectorOffset⟩ other

end AccumulateValuesRange

/-- `ApplyRange` and `AccountApplyRange`. -/
structure ApplyRange (V : Type) where
  workList : List (TrieNode V)
  workSize : Int

namespace ApplyRange

def ofRoot (workRoot : TrieNode V) : ApplyRange V where
  workList := [workRoot]
  workSize := workRoot.subtreeSize

def isDivisible (grainSize : Nat) (range : ApplyRange V) : Bool := range.workSize > grainSize

/-- Here a round of the loop either descends or takes an item. -/
def splitLoop (originalSz : Int) (range other : ApplyRange V) : Except RangeFault (ApplyRange V × ApplyRange V) :=
  if range.workSize < originalSz / 2 then
    match _ : other.workList with
    | [] => .error .noItem
    | [work] => splitLoop originalSz range { other with workList := work.childrenList }
    | first :: next :: rest =>
      splitLoop originalSz
        { workList := range.workList ++ [first], workSize := range.workSize + first.subtreeSize }
        { workList := next :: rest, workSize := other.workSize - first.subtreeSize }
  else .ok (range, other)
termination_by (other.workList.map nodeCount).sum
decreasing_by
  · rename_i listed
    rw [listed, List.map_singleton, List.sum_singleton]
    exact nodeCount_childrenList work
  · rename_i listed
    have taken : descend other.workList = first :: next :: rest := by rw [listed]; rfl
    exact nodeCount_rest taken

def split (other : ApplyRange V) : Except RangeFault (ApplyRange V × ApplyRange V) :=
  if other.workSize = 0 then .ok (⟨[], 0⟩, other) else splitLoop other.workSize ⟨[], 0⟩ other

end ApplyRange

structure ClearRollbackRange (V : Type) where
  workList : List (TrieNode V)
  workSize : Int
  vectorOffset : Nat

namespace ClearRollbackRange

def ofRoot (workRoot : TrieNode V) : ClearRollbackRange V where
  workList := [workRoot]
  workSize := workRoot.rollbackSize
  vectorOffset := 0

def isDivisible (grainSize : Nat) (range : ClearRollbackRange V) : Bool := range.workSize > grainSize

/-- Subtrees without a new leaf are dropped. The counter of a divided node, which
`clear_local_rollback_metadata` resets, is not read again. -/
def splitLoop (originalSz : Int) (range other : ClearRollbackRange V) :
    Except RangeFault (ClearRollbackRange V × ClearRollbackRange V) :=
  if range.workSize < originalSz / 2 then
    match _ : descend other.workList with
    | [_] => .error .singleItem
    | [] => .error .noItem
    | first :: next :: rest =>
      if 0 < first.rollbackSize then
        splitLoop originalSz
          { range with workList := range.workList ++ [first], workSize := range.workSize + first.rollbackSize }
          { workList := next :: rest, workSize := other.workSize - first.rollbackSize,
            vectorOffset := other.vectorOffset + first.rollbackSize }
      else splitLoop originalSz range { other with workList := next :: rest }
  else .ok (range, other)
termination_by (other.workList.map nodeCount).sum
decreasing_by
  · exact nodeCount_rest ‹_›
  · exact nodeCount_rest ‹_›

def split (other : ClearRollbackRange V) : Except RangeFault (ClearRollbackRange V × ClearRollbackRange V) :=
  splitLoop other.workSize ⟨[], 0, other.vectorOffset⟩ other

end ClearRollbackRange

def slotSize : Option (TrieNode V) → Nat
  | none => 0
  | some c => c.subtreeSize

mutual

/-- The writes of `accumulate_values_parallel_worker`, in its order. -/
def accumulateValuesParallelWorker : TrieNode V → Nat → List (V × Nat)
  | .leaf _ value _ _, offset => [(value, offset)]
  | .node _ _ children _ _, offset =>
    ((List.finRange 16).foldl (fun (state : List (V × Nat) × Nat) b =>
      (state.1 ++ accumulateSlotParallelWorker (children b) state.2,
        state.2 + slotSize (children b))) ([], offset)).1

def accumulateSlotParallelWorker : Option (TrieNode V) → Nat → List (V × Nat)
  | none, _ => []
  | some c, offset => accumulateValuesParallelWorker c offset

end

namespace AccumulateValuesRange

/-- The writes of the loop body: its items one after another. -/
def bodyWrites : List (TrieNode V) → Nat → List (V × Nat)
  | [], _ => []
  | work :: workList, vectorOffset =>
    accumulateValuesParallelWorker work vectorOffset ++ bodyWrites workList (vectorOffset + work.subtreeSize)

/-- `vec[offset] = value`. -/
def write (vec : List V) (entry : V × Nat) : Except RangeFault (List V) :=
  if entry.2 < vec.length then .ok (vec.set entry.2 entry.1) else .error .invalidAccess

/-- `output.resize(size)`. -/
def resize [Inhabited V] (size : Nat) (output : List V) : List V :=
  (output ++ List.replicate size default).take size

end AccumulateValuesRange

open AccumulateValuesRange in
/-- The bodies, and the coroutines that some of them start, write concurrently. -/
def accumulateValuesParallel [Inhabited V] (grainSize : Nat) (splits : Parallel.Splits)
    (interleaving : Parallel.Interleaving (V × Nat)) (root : TrieNode V) (output : List V) :
    Except RangeFault (List V) :=
  match Parallel.divide (isDivisible grainSize) split splits (ofRoot root) with
  | .error e => .error e
  | .ok ranges =>
    (interleaving.run (ranges.flatMap (fun range => bodyWrites range.workList range.vectorOffset))).foldlM
      write (resize root.subtreeSize output)

end Speedex
