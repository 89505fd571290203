import Speedex.Trie.Split

set_option autoImplicit false

/- On leaves with positive endowments whose sum does not overflow, `endow_split` succeeds and
takes the longest prefix that the threshold covers. -/
namespace Speedex

open Machine

namespace TrieNode

variable {V : Type}

/-- The exact endowment of a list of leaves, as no machine integer would wrap it. -/
def endowSum (rows : List (Key × Leaf V)) : Int :=
  (rows.map (fun row => row.2.metadata.endow.toInt)).sum

@[simp] theorem endowSum_nil : endowSum ([] : List (Key × Leaf V)) = 0 := rfl
@[simp] theorem endowSum_cons (row : Key × Leaf V) (rows : List (Key × Leaf V)) :
    endowSum (row :: rows) = row.2.metadata.endow.toInt + endowSum rows := by simp [endowSum]
@[simp] theorem endowSum_append (rows rows' : List (Key × Leaf V)) :
    endowSum (rows ++ rows') = endowSum rows + endowSum rows' := by simp [endowSum]

/-- Every leaf has a positive endowment and the sum is an `int64_t`. -/
structure Funded (rows : List (Key × Leaf V)) : Prop where
  positive : ∀ row ∈ rows, 0 < row.2.metadata.endow.toInt
  bounded : endowSum rows ≤ int64Max

theorem endowSum_nonneg {rows : List (Key × Leaf V)}
    (positive : ∀ row ∈ rows, 0 < row.2.metadata.endow.toInt) : 0 ≤ endowSum rows := by
  refine List.sum_nonneg ?_
  intro amount listed
  obtain ⟨row, member, rfl⟩ := List.mem_map.mp listed
  exact (positive row member).le

theorem Funded.of_append {front rows back : List (Key × Leaf V)} (funded : Funded (front ++ rows ++ back)) :
    Funded rows := by
  have positive : ∀ row ∈ rows, 0 < row.2.metadata.endow.toInt :=
    fun row listed => funded.positive row (by simp [listed])
  have before : 0 ≤ endowSum front := endowSum_nonneg (fun row listed => funded.positive row (by simp [listed]))
  have after : 0 ≤ endowSum back := endowSum_nonneg (fun row listed => funded.positive row (by simp [listed]))
  have total := funded.bounded
  simp only [endowSum_append] at total
  exact ⟨positive, by omega⟩

/-- The longest prefix covered by a threshold. -/
structure LongestPrefix (threshold : Int) (front back : List (Key × Leaf V)) : Prop where
  covered : endowSum front ≤ threshold
  maximal : ∀ row tail, back = row :: tail → threshold < endowSum front + row.2.metadata.endow.toInt

/-- The prefix a threshold covers is unique when every leaf has a positive endowment. -/
theorem LongestPrefix.eq {threshold : Int} {front back front' back' : List (Key × Leaf V)}
    (positive : ∀ row ∈ front ++ back, 0 < row.2.metadata.endow.toInt)
    (longest : LongestPrefix threshold front back) (longest' : LongestPrefix threshold front' back')
    (same : front ++ back = front' ++ back') : front = front' ∧ back = back' := by
  induction front generalizing front' threshold with
  | nil =>
    cases front' with
    | nil => exact ⟨rfl, by simpa using same⟩
    | cons row tail =>
      rw [List.nil_append, List.cons_append] at same
      have excess := longest.maximal row (tail ++ back') same
      have low := longest'.covered
      have nonneg : 0 ≤ endowSum tail := endowSum_nonneg (fun row' listed =>
        positive row' (by rw [List.nil_append, same]; simp [listed]))
      simp only [endowSum_nil, endowSum_cons] at excess low
      omega
  | cons row tail ih =>
    cases front' with
    | nil =>
      rw [List.nil_append, List.cons_append] at same
      have excess := longest'.maximal row (tail ++ back) same.symm
      have low := longest.covered
      have nonneg : 0 ≤ endowSum tail := endowSum_nonneg (fun row' listed =>
        positive row' (by simp [listed]))
      simp only [endowSum_nil, endowSum_cons] at excess low
      omega
    | cons row' tail' =>
      rw [List.cons_append, List.cons_append, List.cons.injEq] at same
      obtain ⟨rfl, same⟩ := same
      have next := @ih (threshold - row.2.metadata.endow.toInt) tail'
        (fun row' listed => positive row' (List.mem_cons_of_mem _ listed))
        ⟨by have := longest.covered; simp only [endowSum_cons] at this; omega, fun r t rest => by
          have := longest.maximal r t rest; simp only [endowSum_cons] at this; omega⟩
        ⟨by have := longest'.covered; simp only [endowSum_cons] at this; omega, fun r t rest => by
          have := longest'.maximal r t rest; simp only [endowSum_cons] at this; omega⟩ same
      exact ⟨congrArg _ next.1, next.2⟩

/-- The threshold that a prefix adds up to takes exactly that prefix. -/
theorem longestPrefix_sum (front back : List (Key × Leaf V))
    (positive : ∀ row ∈ front ++ back, 0 < row.2.metadata.endow.toInt) :
    LongestPrefix (endowSum front) front back := by
  refine ⟨le_refl _, ?_⟩
  rintro row tail rfl
  have more := positive row (by simp)
  omega

section Exact

variable [TrieValue V] {keyLen : Nat}

/-- The `endow` field of a node is the exact endowment of its leaves. -/
theorem endow_toInt {t : TrieNode V} (shaped : Shaped keyLen t) (funded : Funded t.entries) :
    t.metadata.endow.toInt = endowSum t.entries := by
  have nonneg := endowSum_nonneg funded.positive
  rw [metadata_eq_sum shaped, endow_sum, toInt_sum, List.map_map, List.map_map]
  refine bmod_of_range ?_ ?_
  · exact nonneg.trans' (by omega)
  · exact funded.bounded

/-- The amounts in the loop of `endow_split` after the branches in `done`. -/
structure SplitAmounts (threshold : BitVec 64) (cs : Fin 16 → Option (TrieNode V)) (done : List Digit)
    (s : SplitState V) : Prop where
  running : s.stopped = false →
    s.accEndow.toInt = endowSum (done.flatMap (fun b => entriesSlot (cs b))) ∧
      s.accEndow.toInt ≤ threshold.toInt
  stopped : s.stopped = true →
    endowSum (done.flatMap (fun b => entriesSlot (s.taken b))) ≤ threshold.toInt ∧
      (endowSum (done.flatMap (fun b => entriesSlot (s.taken b))) = threshold.toInt ∨
        ∃ row tail, done.flatMap (fun b => entriesSlot (s.rest b)) = row :: tail ∧
          threshold.toInt < endowSum (done.flatMap (fun b => entriesSlot (s.taken b))) +
            row.2.metadata.endow.toInt)

variable {pfx : Key} {len : Nat} {cs : Fin 16 → Option (TrieNode V)} {m : Metadata} {h : Option Hash}
  {threshold : BitVec 64}

/-- The iteration succeeds and keeps the account of the amounts. -/
theorem splitAmounts_step {done : List Digit} {b : Digit} {s : SplitState V}
    (stored : Shaped keyLen (.node pfx len cs m h))
    (funded : Funded (done.flatMap (fun b => entriesSlot (cs b)) ++ entriesSlot (cs b)))
    (nonneg : 0 ≤ threshold.toInt) (before : Splitting keyLen threshold pfx len cs done s) (fresh : b ∉ done)
    (amounts : SplitAmounts threshold cs done s)
    (children : ∀ c, cs b = some c → ∀ threshold' : BitVec 64, 0 ≤ threshold'.toInt →
      threshold'.toInt < endowSum c.entries → ∃ splitObj remaining,
        endowSplitSlot (some c) threshold' = .ok (splitObj, remaining) ∧
        LongestPrefix threshold'.toInt (entriesSlot splitObj) remaining.entries) :
    ∃ s', splitStep threshold (cs b) (endowSplitSlot (cs b)) b s = .ok s' ∧
      SplitAmounts threshold cs (done ++ [b]) s' := by
  obtain ⟨idle, here⟩ := before.future b fresh
  by_cases halted : s.stopped = true
  · refine ⟨s, by rw [splitStep, if_pos halted], fun running => ?_, fun _ => ?_⟩
    · rw [halted] at running
      cases running
    · obtain ⟨covered, tight⟩ := amounts.stopped halted
      simp only [List.flatMap_append, List.flatMap_singleton, idle, entriesSlot_none, List.append_nil]
      refine ⟨covered, tight.imp id ?_⟩
      rintro ⟨row, tail, rest, more⟩
      exact ⟨row, tail ++ entriesSlot (s.rest b), by rw [rest, List.cons_append], more⟩
  · have running := Bool.eq_false_iff.mpr halted
    obtain ⟨acc, low⟩ := amounts.running running
    have bare : done.flatMap (fun d => entriesSlot (s.rest d)) = [] := by
      refine List.flatMap_eq_nil_iff.mpr (fun d passed => ?_)
      rw [before.exhausted running d passed, entriesSlot_none]
    have taken : done.flatMap (fun d => entriesSlot (s.taken d)) =
        done.flatMap (fun d => entriesSlot (cs d)) := by
      have rows := before.rows
      rwa [bare, List.append_nil] at rows
    have fundedDone : Funded (done.flatMap (fun d => entriesSlot (cs d))) := by
      have split := funded
      rw [← List.nil_append (done.flatMap _)] at split
      exact split.of_append
    have accNonneg := endowSum_nonneg fundedDone.positive
    cases occupied : cs b with
    | none =>
      refine ⟨{ s with stopped := threshold.sle s.accEndow }, by rw [splitStep, if_neg halted]; rfl,
        fun going => ?_, fun stops => ?_⟩
      · simpa [occupied] using ⟨acc, low⟩
      · rw [BitVec.sle_iff_toInt_le] at stops
        simp only [List.flatMap_append, List.flatMap_singleton, idle, entriesSlot_none, List.append_nil,
          taken]
        exact ⟨by omega, Or.inl (by omega)⟩
    | some c =>
      have shapedC : Shaped keyLen c := by
        cases stored with
        | node _ _ _ shaped _ _ => exact shaped b c occupied
      rw [occupied, entriesSlot_some] at funded
      have fundedC : Funded c.entries := by
        have split := funded
        rw [← List.append_nil (_ ++ c.entries)] at split
        exact split.of_append
      have endow := endow_toInt shapedC fundedC
      have total := funded.bounded
      have nonnegC := endowSum_nonneg fundedC.positive
      rw [endowSum_append] at total
      have fully : (s.accEndow + c.metadata.endow).toInt = s.accEndow.toInt + endowSum c.entries := by
        rw [toInt_add_of_range, endow] <;> omega
      by_cases fits : (s.accEndow + c.metadata.endow).sle threshold = true
      · refine ⟨_, by rw [splitStep, if_neg halted]; simp only [if_pos fits]; rfl, fun _ => ?_, fun stops => ?_⟩
        · rw [BitVec.sle_iff_toInt_le] at fits
          simp only [List.flatMap_append, List.flatMap_singleton, occupied, entriesSlot_some,
            endowSum_append]
          exact ⟨by omega, fits⟩
        · rw [BitVec.sle_iff_toInt_le] at fits stops
          simp only [List.flatMap_append, List.flatMap_singleton, Function.update_self, entriesSlot_some,
            endowSum_append, flatMap_update _ _ _ fresh, taken]
          simp only at stops
          exact ⟨by omega, Or.inl (by omega)⟩
      · have excess := fits
        rw [BitVec.sle_iff_toInt_le] at excess
        have threshold' : (threshold - s.accEndow).toInt = threshold.toInt - s.accEndow.toInt := by
          have top : threshold.toInt ≤ int64Max := by rw [int64Max]; have := threshold.toInt_lt; omega
          refine toInt_sub_of_range ?_ ?_ <;> omega
        obtain ⟨splitObj, remaining, split, longest⟩ := children c occupied (threshold - s.accEndow)
          (by omega) (by omega)
        have result := endowSplit_spec shapedC (by rwa [endowSplitSlot] at split)
        refine ⟨_, by
          rw [splitStep, if_neg halted]
          simp only [if_neg fits, split, bind, Except.bind]
          rfl, fun going => ?_, fun _ => ?_⟩
        · simp only [sle_of_not_sle fits] at going
          cases going
        · obtain ⟨covered, maximal⟩ := longest
          simp only [List.flatMap_append, List.flatMap_singleton, Function.update_self, entriesSlot_some,
            endowSum_append, flatMap_update _ _ _ fresh, taken, bare, List.nil_append,
            collapse_entries result.shaped]
          refine ⟨by omega, Or.inr ?_⟩
          cases rest : remaining.entries with
          | nil =>
            have rows := congrArg endowSum result.rows
            rw [rest, List.append_nil] at rows
            omega
          | cons row tail =>
            have more := maximal row tail rest
            exact ⟨row, tail, rfl, by omega⟩

/-- A funded trie splits at every threshold below its endowment. -/
theorem endowSplit_ok {t : TrieNode V} (shaped : Shaped keyLen t) (funded : Funded t.entries)
    (nonneg : 0 ≤ threshold.toInt) (below : threshold.toInt < endowSum t.entries) :
    ∃ splitObj remaining, endowSplit t threshold = .ok (splitObj, remaining) ∧
      SplitResult keyLen t splitObj remaining ∧
      LongestPrefix threshold.toInt (entriesSlot splitObj) remaining.entries := by
  induction shaped generalizing threshold with
  | @leaf key value m h full own =>
    have stored : Shaped keyLen (.leaf key value m h) := .leaf full own
    refine ⟨none, .leaf key value m h, by rw [endowSplit], ?_, ?_⟩
    · exact ⟨by simp, (by simp), stored, fun _ below => below, fun _ => ⟨trivial, by simp⟩, fun _ _ _ _ _ => (by simp)⟩
    refine ⟨by simpa using nonneg, ?_⟩
    rintro row tail rest
    rw [entries_leaf, List.cons.injEq] at rest
    obtain ⟨rfl, -⟩ := rest
    simpa using below
  | @node pfx len cs m h inner full zeros shaped placed sum ih =>
    have stored : Shaped keyLen (.node pfx len cs m h) := .node inner full zeros shaped placed sum
    have endow := endow_toInt stored funded
    rw [node_metadata] at endow
    have occupied : Branches.occupied cs ≠ 0 := by
      intro none
      rw [(Branches.occupied_eq_zero_iff _).mp none, entries_node] at below
      simp only [entriesSlot_empty, List.flatMap_eq_nil_iff.mpr (fun _ _ => rfl), endowSum_nil] at below
      omega
    have partly : ¬ m.endow.sle threshold = true := by
      rw [BitVec.sle_iff_toInt_le]
      omega
    have positive : ¬ threshold.slt 0 = true := by
      rw [BitVec.slt_iff_toInt_lt, show (0 : BitVec 64).toInt = 0 from rfl]
      omega
    obtain ⟨s, loop, final, amounts⟩ := Fallible.foldlM_total
      (f := fun s b => splitStep threshold (cs b) (endowSplitSlot (cs b)) b s) (l := List.finRange 16)
      (fun done s => Splitting keyLen threshold pfx len cs done s ∧ SplitAmounts threshold cs done s)
      (s := ⟨0, Branches.empty, cs, m, false⟩)
      ⟨splitting_start stored, fun _ => ⟨rfl, nonneg⟩, (by simp)⟩ (by
        rintro done b s ⟨later, whole⟩ ⟨before, amounts⟩
        have nodup := List.nodup_finRange 16
        rw [← whole] at nodup
        have fresh : b ∉ done := by
          intro listed
          have apart := (List.nodup_append.mp (List.nodup_append.mp nodup).1).2.2
          exact apart b listed b (by simp) rfl
        have parts : Funded (done.flatMap (fun b => entriesSlot (cs b)) ++ entriesSlot (cs b)) := by
          have all := funded
          rw [entries_node, ← whole, List.flatMap_append, List.flatMap_append, List.flatMap_singleton,
            ← List.nil_append (done.flatMap _)] at all
          rw [List.append_assoc []] at all
          exact all.of_append
        obtain ⟨s', step, amounts'⟩ := splitAmounts_step stored parts nonneg before fresh amounts (by
          intro c here threshold' nonneg' below'
          rw [here, entriesSlot_some, ← List.append_nil (_ ++ c.entries)] at parts
          obtain ⟨splitObj, remaining, split, -, longest⟩ := ih b c here parts.of_append nonneg' below'
          exact ⟨splitObj, remaining, by rw [endowSplitSlot, split], longest⟩)
        refine ⟨s', step, splitting_step stored before fresh ?_ step, amounts'⟩
        intro c threshold' splitObj remaining here split
        rw [here, endowSplitSlot] at split
        exact endowSplit_spec (shaped b c here) split)
    have run : endowSplit (.node pfx len cs m h) threshold =
        .ok (if Branches.occupied s.taken = 0 then none
          else some (.node pfx len s.taken (Branches.total TrieNode.metadata s.taken) none),
          .node pfx len s.rest s.metadata none) := by
      rw [endowSplit, if_neg occupied, if_neg partly, if_neg positive, loop]
      simp only [bind, Except.bind]
      split_ifs <;> rfl
    have result := endowSplit_spec stored run
    refine ⟨_, _, run, result, ?_⟩
    have takenRows : entriesSlot (if Branches.occupied s.taken = 0 then none
        else some (.node pfx len s.taken (Branches.total TrieNode.metadata s.taken) none)) =
        (List.finRange 16).flatMap (fun b => entriesSlot (s.taken b)) := by
      split_ifs with bare
      · rw [(Branches.occupied_eq_zero_iff _).mp bare, entriesSlot_none]
        exact (List.flatMap_eq_nil_iff.mpr (fun b _ => entriesSlot_empty b)).symm
      · rw [entriesSlot_some, entries_node]
    have halted : s.stopped = true := by
      by_contra going
      obtain ⟨acc, low⟩ := amounts.running (Bool.eq_false_iff.mpr going)
      rw [entries_node] at below
      omega
    obtain ⟨covered, tight⟩ := amounts.stopped halted
    rw [← takenRows] at covered tight
    refine ⟨covered, fun row tail rest => ?_⟩
    rcases tight with exactly | ⟨row', tail', rest', more⟩
    · have positive := funded.positive row (by
        rw [← result.rows, rest]
        simp)
      omega
    · rw [entries_node, rest', List.cons.injEq] at rest
      rw [← rest.1]
      exact more

end Exact

end TrieNode

end Speedex
