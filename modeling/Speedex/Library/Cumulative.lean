import Mathlib.Algebra.BigOperators.Group.List.Basic
import Mathlib.Algebra.Order.Group.Nat
import Mathlib.Order.Basic

set_option autoImplicit false

/- Cumulative indexes: weights listed by ascending key, their running totals, and the binary search
for the place of a key. -/
namespace Cumulative

section Search

/-- The loop of a binary search. It ends at the first place where the test passes. -/
def search (test : Nat → Bool) (start stop : Nat) : Nat :=
  if start < stop then
    if test ((stop + start) / 2) then search test start ((stop + start) / 2)
    else search test ((stop + start) / 2 + 1) stop
  else stop
termination_by stop - start

variable {test : Nat → Bool} {start stop : Nat}

/-- `place` is the first place between `start` and `stop` where the test passes, and `stop` if there is
none. -/
structure FirstPlace (test : Nat → Bool) (start stop place : Nat) : Prop where
  start_le : start ≤ place
  le_stop : place ≤ stop
  before : ∀ i, start ≤ i → i < place → test i = false
  passes : place < stop → test place = true

/-- A test that passes from some place on is searched for that place. -/
theorem search_spec (ordered : start ≤ stop)
    (lasts : ∀ i j, start ≤ i → i ≤ j → j < stop → test i = true → test j = true) :
    FirstPlace test start stop (search test start stop) := by
  fun_induction search test start stop with
  | case1 start stop inside pass ih =>
    have found := ih (by omega) (fun i j low le high => lasts i j low le (by omega))
    refine ⟨found.start_le, by have := found.le_stop; omega, found.before, fun _ => ?_⟩
    by_cases early : search test start ((stop + start) / 2) < (stop + start) / 2
    · exact found.passes early
    · have here : search test start ((stop + start) / 2) = (stop + start) / 2 := by
        have := found.le_stop
        omega
      rw [here]
      exact pass
  | case2 start stop inside fail ih =>
    have found := ih (by omega) (fun i j low le high => lasts i j (by omega) le high)
    refine ⟨by have := found.start_le; omega, found.le_stop, fun i low high => ?_, found.passes⟩
    by_cases later : (stop + start) / 2 + 1 ≤ i
    · exact found.before i later high
    · apply Bool.eq_false_iff.mpr
      intro pass
      exact fail (lasts i ((stop + start) / 2) low (by omega) (by omega) pass)
  | case3 start stop outside =>
    exact ⟨ordered, Nat.le_refl _, fun i low high => by omega, fun inside => by omega⟩

end Search

section Totals

variable {K M : Type} [AddCommMonoid M]

/-- Every row with the total of the weights up to it. -/
def runningTotals : M → List (K × M) → List (K × M)
  | _, [] => []
  | acc, (key, weight) :: rows => (key, acc + weight) :: runningTotals (acc + weight) rows

/-- The sum of the weights. -/
def total (rows : List (K × M)) : M := (rows.map Prod.snd).sum

@[simp] theorem total_nil : total ([] : List (K × M)) = 0 := rfl
@[simp] theorem total_cons (row : K × M) (rows : List (K × M)) : total (row :: rows) = row.2 + total rows := by
  simp [total]
@[simp] theorem total_append (rows rows' : List (K × M)) : total (rows ++ rows') = total rows + total rows' := by
  simp [total]

@[simp] theorem runningTotals_nil (acc : M) : runningTotals acc ([] : List (K × M)) = [] := rfl

theorem runningTotals_append (acc : M) (rows rows' : List (K × M)) :
    runningTotals acc (rows ++ rows') = runningTotals acc rows ++ runningTotals (acc + total rows) rows' := by
  induction rows generalizing acc with
  | nil => simp
  | cons row rows ih =>
    rw [List.cons_append, runningTotals, ih, runningTotals, total_cons, add_assoc, List.cons_append]

@[simp] theorem keys_runningTotals (acc : M) (rows : List (K × M)) :
    (runningTotals acc rows).map Prod.fst = rows.map Prod.fst := by
  induction rows generalizing acc with
  | nil => rfl
  | cons row rows ih => rw [runningTotals, List.map_cons, ih, List.map_cons]

@[simp] theorem length_runningTotals (acc : M) (rows : List (K × M)) :
    (runningTotals acc rows).length = rows.length := by
  have keys := congrArg List.length (keys_runningTotals acc rows)
  rwa [List.length_map, List.length_map] at keys

theorem getElem?_runningTotals (acc : M) (rows : List (K × M)) (i : Nat) :
    (runningTotals acc rows)[i]? = rows[i]?.map (fun row => (row.1, acc + total (rows.take (i + 1)))) := by
  induction rows generalizing acc i with
  | nil => rfl
  | cons row rows ih =>
    cases i with
    | zero => simp [runningTotals]
    | succ i => simp [runningTotals, ih, add_assoc]

/-- Every row of the running totals is the total of the first rows. -/
theorem mem_runningTotals {acc : M} {rows : List (K × M)} {row : K × M} (listed : row ∈ runningTotals acc rows) :
    ∃ front last back, rows = front ++ last :: back ∧ row = (last.1, acc + total (front ++ [last])) := by
  induction rows generalizing acc with
  | nil => cases listed
  | cons head tail ih =>
    rw [runningTotals, List.mem_cons] at listed
    rcases listed with rfl | listed
    · exact ⟨[], head, tail, rfl, by simp⟩
    · obtain ⟨front, last, back, rfl, rfl⟩ := ih listed
      exact ⟨head :: front, last, back, rfl, by simp [add_assoc]⟩

end Totals

section Order

variable {K M : Type} [LE K] [LT K] [Std.IsLinearOrder K] [Std.LawfulOrderLT K] [DecidableLE K]
  {rows : List (K × M)}

/-- Rows by ascending key. -/
def Ascending (rows : List (K × M)) : Prop := rows.Pairwise (fun a b => a.1 < b.1)

/-- The rows before the first key beyond `p` are the rows up to `p`. -/
theorem take_eq_filter (ascending : Ascending rows) {p : K} {n : Nat}
    (below : ∀ i row, i < n → rows[i]? = some row → row.1 ≤ p)
    (beyond : ∀ row, rows[n]? = some row → p < row.1) : rows.take n = rows.filter (fun row => row.1 ≤ p) := by
  induction rows generalizing n with
  | nil => simp
  | cons row rows ih =>
    obtain ⟨least, ascending⟩ := List.pairwise_cons.mp ascending
    cases n with
    | zero =>
      have high : p < row.1 := beyond row rfl
      have none : rows.filter (fun row => row.1 ≤ p) = [] := by
        apply List.filter_eq_nil_iff.mpr
        intro row' listed
        simpa using Std.not_le.mpr (Std.lt_trans high (least row' listed))
      rw [List.take_zero, List.filter_cons_of_neg (by simpa using Std.not_le.mpr high), none]
    | succ n =>
      have low : row.1 ≤ p := below 0 row (by omega) rfl
      have rest := ih ascending (n := n) (fun i row' inside listed => below (i + 1) row' (by omega) listed)
        (fun row' listed => beyond row' listed)
      rw [List.take_succ_cons, List.filter_cons_of_pos (by simpa using low), rest]

end Order

end Cumulative
