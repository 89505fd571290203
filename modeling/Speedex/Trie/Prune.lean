import Speedex.Trie.Delete
import Speedex.Trie.Entries

set_option autoImplicit false

/- `perform_marked_deletions` and `do_rollback`: one walk that drops the marked leaves and
contracts the nodes left with a single child. -/
namespace Speedex

/-- The two marks a leaf can carry, each counted by a field of the metadata. -/
inductive Mark where
  | deleted
  | rollback
deriving DecidableEq, Repr

namespace Mark

def count : Mark → Metadata → Int
  | .deleted, m => m.numDeletedSubnodes
  | .rollback, m => m.numRollbackSubnodes

/-- What the walk throws at a leaf whose count is neither 0 nor 1. -/
def leafFault : Mark → Int → Option String
  | .deleted, _ => some "can't have num deleted subnodes not 0 or 1 at leaf"
  | .rollback, n => if n > 1 then some "can't have num rollback subnodes > 1 at leaf" else none

@[simp] theorem count_zero (mark : Mark) : mark.count 0 = 0 := by cases mark <;> rfl
@[simp] theorem count_add (mark : Mark) (a b : Metadata) :
    mark.count (a + b) = mark.count a + mark.count b := by cases mark <;> rfl

end Mark

/-- A leaf that carries the mark. -/
def Leaf.marked {V : Type} (mark : Mark) (l : Leaf V) : Bool := mark.count l.metadata = 1

namespace TrieNode

variable {V : Type}

mutual

/-- The walk: the node afterwards, whether the parent should erase it, the change of the metadata
and the leaves dropped, in the order the side effect handler sees them. -/
def prune (mark : Mark) :
    TrieNode V → Except String (TrieNode V × Bool × Metadata × List (Key × V))
  | .leaf key value metadata hash =>
    if mark.count metadata = 0 then .ok (.leaf key value metadata hash, false, 0, [])
    else if mark.count metadata = 1 then
      .ok (.leaf key value metadata none, true, -metadata, [(key, value)])
    else match mark.leafFault (mark.count metadata) with
      | some message => .error message
      | none => .ok (.leaf key value metadata none, true, 0, [])
  | .node pfx prefixLen children metadata hash =>
    if mark.count metadata = 0 then .ok (.node pfx prefixLen children metadata hash, false, 0, [])
    else do
      let visited ← Branches.sequence 16 (fun b => pruneSlot mark (children b))
      let remaining := fun b => (visited b).1
      let delta := ∑ b, (visited b).2.1
      .ok (.node pfx prefixLen remaining (metadata + delta) none, Branches.occupied remaining = 0, delta,
        (List.finRange 16).flatMap (fun b => (visited b).2.2))

def pruneSlot (mark : Mark) : Option (TrieNode V) →
    Except String (Option (TrieNode V) × Metadata × List (Key × V))
  | none => .ok (none, 0, [])
  | some child => do
    let (child', erase, delta, dropped) ← prune mark child
    .ok (if erase then none else some child'.collapse, delta, dropped)

end

/-- `perform_marked_deletions`, whose side effect handler collects the deleted leaves. -/
def performMarkedDeletions (t : TrieNode V) := prune .deleted t

/-- `do_rollback`. -/
def doRollback (t : TrieNode V) := prune .rollback t

/-- A node whose leaves have all been dropped. -/
def childless : TrieNode V → TrieNode V
  | .leaf key value metadata _ => .leaf key value metadata none
  | .node pfx prefixLen _ _ _ => .node pfx prefixLen Branches.empty 0 none

/-- The leaves the walk drops, in key order. -/
def markedRows (mark : Mark) (t : TrieNode V) : List (Key × V) :=
  (t.entries.filter (fun row => row.2.marked mark)).map (fun row => (row.1, row.2.value))

theorem count_sum (mark : Mark) (rows : List (Key × Leaf V)) :
    mark.count (rows.map (fun row => row.2.metadata)).sum =
      (rows.map (fun row => mark.count row.2.metadata)).sum := by
  induction rows with
  | nil => simp
  | cons row rows ih => simp [ih]

section Prune

variable [TrieValue V] {keyLen : Nat} {mark : Mark}

theorem count_leafMetadata {value : V} {m : Metadata} (own : LeafMetadata value m) :
    mark.count m = 0 ∨ mark.count m = 1 := by
  cases mark with
  | deleted => exact own.deleted
  | rollback => exact own.rollback

/-- The count at a node vanishes exactly if no leaf below carries the mark. -/
theorem count_eq_zero_iff {t : TrieNode V} (shaped : Shaped keyLen t) :
    mark.count t.metadata = 0 ↔ ∀ key l, t.find key = some l → l.marked mark = false := by
  rw [metadata_eq_sum shaped, count_sum]
  have binary : ∀ row ∈ t.entries, mark.count row.2.metadata = 0 ∨ mark.count row.2.metadata = 1 :=
    fun row listed => count_leafMetadata (find_leafMetadata shaped ((mem_entries_iff shaped).mp listed))
  have sum : ∀ rows : List (Key × Leaf V),
      (∀ row ∈ rows, mark.count row.2.metadata = 0 ∨ mark.count row.2.metadata = 1) →
      0 ≤ (rows.map (fun row => mark.count row.2.metadata)).sum ∧
      ((rows.map (fun row => mark.count row.2.metadata)).sum = 0 ↔
        ∀ row ∈ rows, mark.count row.2.metadata = 0) := by
    intro rows each
    induction rows with
    | nil => simp
    | cons row rows ih =>
      obtain ⟨nonneg, zero⟩ := ih (fun row listed => each row (List.mem_cons_of_mem _ listed))
      have here := each row List.mem_cons_self
      simp only [List.map_cons, List.sum_cons, List.forall_mem_cons]
      refine ⟨by omega, ?_⟩
      rw [← zero]
      omega
  rw [(sum t.entries binary).2]
  constructor
  · intro each key l found
    have unmarked := each (key, l) ((mem_entries_iff shaped).mpr found)
    simp only [Leaf.marked, unmarked]
    rfl
  · rintro each ⟨key, l⟩ listed
    have unmarked := each key l ((mem_entries_iff shaped).mp listed)
    have here := binary (key, l) listed
    simp only [Leaf.marked, decide_eq_false_iff_not] at unmarked
    exact here.resolve_right unmarked

theorem count_nonneg {t : TrieNode V} (shaped : Shaped keyLen t) : 0 ≤ mark.count t.metadata := by
  rw [metadata_eq_sum shaped, count_sum]
  refine List.sum_nonneg (fun n counted => ?_)
  obtain ⟨⟨key, l⟩, listed, rfl⟩ := List.mem_map.mp counted
  have own : mark.count l.metadata = 0 ∨ mark.count l.metadata = 1 :=
    count_leafMetadata (find_leafMetadata shaped ((mem_entries_iff shaped).mp listed))
  change 0 ≤ mark.count l.metadata
  omega

theorem markedRows_eq_nil {t : TrieNode V} (shaped : Shaped keyLen t)
    (none : ∀ key l, t.find key = some l → l.marked mark = false) : markedRows mark t = [] := by
  rw [markedRows, List.filter_eq_nil_iff.mpr, List.map_nil]
  rintro ⟨key, l⟩ listed
  rw [none key l ((mem_entries_iff shaped).mp listed)]
  exact Bool.false_ne_true

/-- What the walk leaves of a node. -/
structure Pruned (keyLen : Nat) (mark : Mark) (t : TrieNode V) (t' : TrieNode V) (erase : Bool)
    (delta : Metadata) : Prop where
  metadata : erase = false → t'.metadata = t.metadata + delta
  find : erase = false → ∀ query, t'.find query = (t.find query).filter (fun l => !l.marked mark)
  shaped : erase = false → Shaped keyLen t'
  under : erase = false → ∀ p, Under p t → Under p t'
  settled : erase = false → t.Compact → t'.Settled
  erased : erase = true → delta = -t.metadata ∧ t' = t.childless ∧
    ∀ query l, t.find query = some l → l.marked mark = true

theorem pruned_unmarked {t : TrieNode V} (shaped : Shaped keyLen t)
    (none : ∀ key l, t.find key = some l → l.marked mark = false) :
    Pruned keyLen mark t t false 0 := by
  refine ⟨fun _ => (add_zero _).symm, fun _ query => ?_, fun _ => shaped, fun _ _ below => below,
    fun _ => Compact.settled, fun erase => Bool.noConfusion erase⟩
  cases found : t.find query with
  | none => rfl
  | some l => simp [Option.filter, none query l found]

/-- The walk over a shaped trie does not throw; it drops the marked leaves and nothing else. -/
theorem prune_ok (mark : Mark) {t : TrieNode V} (shaped : Shaped keyLen t) : ∃ t' erase delta,
    prune mark t = .ok (t', erase, delta, markedRows mark t) ∧ Pruned keyLen mark t t' erase delta := by
  induction shaped with
  | @leaf key value m h full own =>
    have stored : Shaped keyLen (.leaf key value m h) := .leaf full own
    rw [prune]
    by_cases unmarked : mark.count m = 0
    · have none := (count_eq_zero_iff stored).mp unmarked
      rw [if_pos unmarked, markedRows_eq_nil stored none]
      exact ⟨_, _, _, rfl, pruned_unmarked stored none⟩
    · have marked := (count_leafMetadata own).resolve_left unmarked
      rw [if_neg unmarked, if_pos marked]
      refine ⟨.leaf key value m none, true, -m, by simp [markedRows, Leaf.marked, marked], ?_⟩
      refine ⟨nofun, nofun, nofun, nofun, nofun, fun _ => ⟨rfl, rfl, ?_⟩⟩
      intro query l found
      simp only [find_leaf, Option.ite_none_right_eq_some, Option.some.injEq] at found
      rw [← found.2]
      exact decide_eq_true marked
  | @node pfx len cs m h inner full zeros shaped placed sum ih =>
    have stored : Shaped keyLen (.node pfx len cs m h) := .node inner full zeros shaped placed sum
    rw [prune]
    by_cases unmarked : mark.count m = 0
    · have none := (count_eq_zero_iff stored).mp unmarked
      rw [if_pos unmarked, markedRows_eq_nil stored none]
      exact ⟨_, _, _, rfl, pruned_unmarked stored none⟩
    · -- one branch: its slot afterwards and what it dropped
      have branch : ∀ b, ∃ slot delta,
          pruneSlot mark (cs b) = .ok (slot, delta, ((entriesSlot (cs b)).filter
            (fun row => row.2.marked mark)).map (fun row => (row.1, row.2.value))) ∧
          Branches.weight metadata slot = Branches.weight metadata (cs b) + delta ∧
          (∀ query, findSlot slot query = (findSlot (cs b) query).filter (fun l => !l.marked mark)) ∧
          (∀ c, slot = some c → Shaped keyLen c ∧ Under (pfx.take len ++ [b]) c) ∧
          ((∀ c, cs b = some c → c.Compact) → ∀ c, slot = some c → c.Compact) := by
        intro b
        cases occupied : cs b with
        | none => exact ⟨none, 0, by rw [pruneSlot]; rfl, by simp, by simp, nofun, fun _ => nofun⟩
        | some c =>
          obtain ⟨c', erase, delta, done, result⟩ := ih b c occupied
          rw [pruneSlot, done]
          cases erase with
          | true =>
            obtain ⟨change, -, all⟩ := result.erased rfl
            refine ⟨none, delta, rfl, by simp [change], ?_, nofun, fun _ => nofun⟩
            intro query
            cases found : c.find query with
            | none => simp [found]
            | some l => simp [found, Option.filter, all query l found]
          | false =>
            obtain ⟨shapedC, findC, metadataC, underC⟩ := collapse_spec (result.shaped rfl)
            refine ⟨some c'.collapse, delta, rfl, ?_, ?_, ?_, ?_⟩
            · rw [Branches.weight_some, Branches.weight_some, metadataC, result.metadata rfl]
            · intro query
              rw [findSlot_some, findSlot_some, findC, result.find rfl]
            · rintro c'' ⟨⟩
              exact ⟨shapedC, underC _ (result.under rfl _ (placed b c occupied))⟩
            · rintro all c'' ⟨⟩
              exact compact_collapse (result.settled rfl (all c rfl))
      choose slots deltas done weights finds fits compacts using branch
      have whole := Branches.sequence_ok done
      have rows : (List.finRange 16).flatMap (fun b => ((entriesSlot (cs b)).filter
          (fun row => row.2.marked mark)).map (fun row => (row.1, row.2.value))) =
          markedRows mark (.node pfx len cs m h) := by
        rw [markedRows, entries_node, List.filter_flatMap, List.map_flatMap]
      have total : Branches.total metadata slots = m + ∑ b, deltas b := by
        rw [sum, Branches.total, Branches.total, ← Finset.sum_add_distrib]
        exact Finset.sum_congr rfl (fun b _ => weights b)
      have finds' : ∀ query, (node pfx len slots (m + ∑ b, deltas b) none).find query =
          ((node pfx len cs m h).find query).filter (fun l => !l.marked mark) := by
        intro query
        rw [find_node, find_node, finds]
      simp only [if_neg unmarked, whole, bind, Except.bind, rows]
      refine ⟨_, _, _, rfl, fun _ => rfl, fun _ => finds', fun _ => ?_, fun _ p below => below,
        fun erase compact => ?_, fun erase => ?_⟩
      · exact .node inner full zeros (fun b c occupied => (fits b c occupied).1)
          (fun b c occupied => (fits b c occupied).2) total.symm
      · obtain ⟨-, all⟩ := compact_node.mp compact
        rw [decide_eq_false_iff_not] at erase
        exact ⟨by omega, fun b => compacts b (all b)⟩
      · have erase : slots = Branches.empty :=
          (Branches.occupied_eq_zero_iff slots).mp (of_decide_eq_true erase)
        rw [erase, Branches.total_empty] at total
        refine ⟨(neg_eq_of_add_eq_zero_right total.symm).symm, ?_, ?_⟩
        · rw [childless, ← total, erase]
        · intro query l found
          have gone := finds' query
          rw [erase, find_node, Branches.empty_apply, findSlot_none, found] at gone
          simpa [Option.filter] using gone.symm

end Prune

end TrieNode

end Speedex
