import Speedex.Library.Fallible
import Mathlib.Algebra.BigOperators.Fin
import Mathlib.Data.Fintype.Option
import Mathlib.Algebra.Order.BigOperators.Group.Finset
import Mathlib.Tactic.Abel
import Mathlib.Data.BitVec

set_option autoImplicit false

/- Finite branch tables: a partial map from the `n` branches of a node to its
children, with the sum of a weight over the children and a fallible traversal. -/
namespace Branches

variable {n : Nat} {α β ε M : Type}

/-- Weight of one slot; an empty slot weighs nothing. -/
def weight [Zero M] (w : α → M) : Option α → M
  | none => 0
  | some a => w a

@[simp] theorem weight_none [Zero M] (w : α → M) : weight w none = 0 := rfl
@[simp] theorem weight_some [Zero M] (w : α → M) (a : α) : weight w (some a) = w a := rfl

/-- Total weight of the occupied branches. -/
def total [AddCommMonoid M] (w : α → M) (table : Fin n → Option α) : M :=
  ∑ b, weight w (table b)

/-- Number of occupied branches. -/
def occupied (table : Fin n → Option α) : Nat := total (fun _ => 1) table

/-- The table without children. -/
def empty : Fin n → Option α := fun _ => none

@[simp] theorem empty_apply (b : Fin n) : (empty : Fin n → Option α) b = none := rfl

@[simp] theorem total_empty [AddCommMonoid M] (w : α → M) : total w (empty : Fin n → Option α) = 0 := by
  simp [total]

/-- The weight outside one branch, which no change of that branch touches. -/
def others [AddCommMonoid M] (w : α → M) (table : Fin n → Option α) (b : Fin n) : M :=
  ∑ b' ∈ Finset.univ.erase b, weight w (table b')

theorem total_eq_add_others [AddCommMonoid M] (w : α → M) (table : Fin n → Option α) (b : Fin n) :
    total w table = weight w (table b) + others w table b :=
  (Finset.add_sum_erase _ (fun b' => weight w (table b')) (Finset.mem_univ b)).symm

@[simp] theorem others_update [AddCommMonoid M] (w : α → M) (table : Fin n → Option α) (b : Fin n)
    (slot : Option α) : others w (Function.update table b slot) b = others w table b := by
  apply Finset.sum_congr rfl
  intro b' outside
  rw [Function.update_of_ne (Finset.ne_of_mem_erase outside)]

/-- The children after a slot is overwritten. -/
theorem update_eq_some_iff {table : Fin n → Option α} {b d : Fin n} {slot : Option α} {a : α} :
    Function.update table b slot d = some a ↔ d = b ∧ slot = some a ∨ d ≠ b ∧ table d = some a := by
  by_cases same : d = b
  · subst same
    simp
  · simp [same]

/-- Overwriting a slot exchanges exactly that slot's weight. -/
theorem total_update [AddCommGroup M] (w : α → M) (table : Fin n → Option α) (b : Fin n)
    (slot : Option α) : total w (Function.update table b slot) =
      total w table - weight w (table b) + weight w slot := by
  rw [total_eq_add_others w _ b, total_eq_add_others w table b, others_update,
    Function.update_self]
  abel

theorem total_congr [AddCommMonoid M] {w : α → M} {v : β → M} {left : Fin n → Option α}
    {right : Fin n → Option β} (same : ∀ b, weight w (left b) = weight v (right b)) :
    total w left = total v right := Finset.sum_congr rfl (fun b _ => same b)

theorem occupied_update (table : Fin n → Option α) (b : Fin n) (slot : Option α) :
    occupied (Function.update table b slot) + weight (fun _ => 1) (table b) =
      occupied table + weight (fun _ => 1) slot := by
  rw [occupied, occupied, total_eq_add_others _ _ b, total_eq_add_others _ table b, others_update,
    Function.update_self]
  omega

theorem occupied_eq_zero_iff (table : Fin n → Option α) : occupied table = 0 ↔ table = empty := by
  constructor
  · intro bare
    funext b
    rw [occupied, total_eq_add_others _ table b] at bare
    cases at_b : table b with
    | none => rfl
    | some a => simp [at_b] at bare
  · rintro rfl
    exact total_empty _

theorem occupied_update_le (table : Fin n → Option α) (b : Fin n) (a : α) :
    occupied table ≤ occupied (Function.update table b (some a)) := by
  have counted := occupied_update table b (some a)
  have slot : weight (fun _ => 1) (table b) ≤ 1 := by cases table b <;> simp
  rw [weight_some] at counted
  omega

theorem occupied_le {table : Fin n → Option α} {table' : Fin n → Option β}
    (kept : ∀ b, table' b = none → table b = none) : occupied table ≤ occupied table' := by
  rw [occupied, occupied, total, total]
  refine Finset.sum_le_sum (fun b _ => ?_)
  cases slot : table' b with
  | none => simp [kept b slot]
  | some a => cases table b <;> simp

/-- A table with one child holds it on a single branch. -/
theorem eq_update_of_occupied_one {table : Fin n → Option α} (single : occupied table = 1)
    {b : Fin n} {a : α} (at_b : table b = some a) : table = Function.update empty b (some a) := by
  rw [occupied, total_eq_add_others _ table b, at_b, weight_some] at single
  funext b'
  by_cases same : b' = b
  · subst same
    simpa using at_b
  · rw [Function.update_of_ne same, empty_apply]
    cases at_b' : table b' with
    | none => rfl
    | some a' =>
      have counted := Finset.single_le_sum (f := fun b => weight (fun _ : α => 1) (table b))
        (fun _ _ => Nat.zero_le _) (Finset.mem_erase.mpr ⟨same, Finset.mem_univ b'⟩)
      simp only [at_b', weight_some] at counted
      rw [others] at single
      omega

/-- The lowest occupied branch, as `(*children.begin())` finds it. -/
def lowest : (n : Nat) → (Fin n → Option α) → Option α
  | 0, _ => none
  | n + 1, table =>
    match table 0 with
    | some a => some a
    | none => lowest n (fun b => table b.succ)

theorem lowest_mem {table : Fin n → Option α} {a : α} (found : lowest n table = some a) :
    ∃ b, table b = some a := by
  induction n with
  | zero => simp [lowest] at found
  | succ n ih =>
    simp only [lowest] at found
    cases first : table 0 with
    | some a' => exact ⟨0, by simpa [first] using found⟩
    | none =>
      simp only [first] at found
      obtain ⟨b, at_b⟩ := ih found
      exact ⟨b.succ, at_b⟩

theorem lowest_eq_none_iff (table : Fin n → Option α) : lowest n table = none ↔ table = empty := by
  induction n with
  | zero => exact ⟨fun _ => funext (fun b => b.elim0), fun _ => rfl⟩
  | succ n ih =>
    simp only [lowest]
    cases first : table 0 with
    | some a =>
      simp only [reduceCtorEq, false_iff]
      intro bare
      rw [bare] at first
      cases first
    | none =>
      rw [ih]
      constructor
      · intro rest
        funext b
        refine Fin.cases ?_ (fun b => ?_) b
        · exact first
        · exact congrFun rest b
      · rintro rfl
        rfl

theorem lowest_single {table : Fin n → Option α} {b : Fin n} {a : α} (at_b : table b = some a)
    (alone : ∀ b', b' ≠ b → table b' = none) : lowest n table = some a := by
  cases found : lowest n table with
  | none =>
    rw [lowest_eq_none_iff] at found
    rw [found] at at_b
    cases at_b
  | some a' =>
    obtain ⟨b', at_b'⟩ := lowest_mem found
    by_cases same : b' = b
    · rw [same, at_b] at at_b'
      exact at_b'.symm
    · rw [alone b' same] at at_b'
      cases at_b'

theorem exists_single {table : Fin n → Option α} (single : occupied table = 1) :
    ∃ b a, table = Function.update empty b (some a) := by
  cases found : lowest n table with
  | none =>
    rw [lowest_eq_none_iff] at found
    rw [found, occupied, total_empty] at single
    cases single
  | some a =>
    obtain ⟨b, at_b⟩ := lowest_mem found
    exact ⟨b, a, eq_update_of_occupied_one single at_b⟩

theorem exists_occupied {table : Fin n → Option α} (some : occupied table ≠ 0) : ∃ b a, table b = Option.some a := by
  cases found : lowest n table with
  | none => exact absurd ((occupied_eq_zero_iff table).mpr ((lowest_eq_none_iff table).mp found)) some
  | some a =>
    obtain ⟨b, at_b⟩ := lowest_mem found
    exact ⟨b, a, at_b⟩

/-- Beyond a single child there are two branches. -/
theorem exists_two {table : Fin n → Option α} (two : 2 ≤ occupied table) :
    ∃ b b' a a', b ≠ b' ∧ table b = some a ∧ table b' = some a' := by
  obtain ⟨b, a, at_b⟩ := exists_occupied (by omega : occupied table ≠ 0)
  have others := occupied_update table b none
  rw [at_b, weight_some, weight_none] at others
  obtain ⟨b', a', at_b'⟩ := exists_occupied (by omega : occupied (Function.update table b none) ≠ 0)
  rcases update_eq_some_iff.mp at_b' with ⟨-, bare⟩ | ⟨apart, at_b'⟩
  · cases bare
  · exact ⟨b, b', a, a', apart.symm, at_b, at_b'⟩

theorem two_le_occupied {table : Fin n → Option α} {b b' : Fin n} (apart : b ≠ b') (left : table b ≠ none)
    (right : table b' ≠ none) : 2 ≤ occupied table := by
  have filled : occupied table ≠ 0 := by
    intro bare
    rw [(occupied_eq_zero_iff table).mp bare] at left
    exact left rfl
  have several : occupied table ≠ 1 := by
    intro single
    obtain ⟨a, at_b⟩ := Option.ne_none_iff_exists'.mp left
    rw [eq_update_of_occupied_one single at_b, Function.update_of_ne apart.symm] at right
    exact right rfl
  omega

theorem occupied_congr {table : Fin n → Option α} {table' : Fin n → Option β}
    (same : ∀ b, table b = none ↔ table' b = none) : occupied table = occupied table' :=
  Nat.le_antisymm (occupied_le (fun b => (same b).mpr)) (occupied_le (fun b => (same b).mp))

/-- Visit every branch in order, stopping at the first error. -/
def sequence : (n : Nat) → (Fin n → Except ε α) → Except ε (Fin n → α)
  | 0, _ => .ok Fin.elim0
  | n + 1, f => do
    let first ← f 0
    let rest ← sequence n (fun b => f b.succ)
    return Fin.cons first rest

theorem sequence_ok {f : Fin n → Except ε α} {g : Fin n → α} (all : ∀ b, f b = .ok (g b)) :
    sequence n f = .ok g := by
  induction n with
  | zero => exact congrArg Except.ok (funext (fun b => b.elim0))
  | succ n ih =>
    have rest := ih (f := fun b => f b.succ) (g := fun b => g b.succ) (fun b => all b.succ)
    simp only [sequence, all 0, rest, bind, Except.bind, pure, Except.pure]
    exact congrArg Except.ok (funext (fun b => Fin.cases rfl (fun _ => rfl) b))

/-- Without an error every visit succeeded. -/
theorem sequence_eq_ok {f : Fin n → Except ε α} {g : Fin n → α} (done : sequence n f = .ok g) (b : Fin n) :
    f b = .ok (g b) := by
  induction n with
  | zero => exact b.elim0
  | succ n ih =>
    rw [sequence] at done
    obtain ⟨first, here, done⟩ := Fallible.bind_eq_ok.mp done
    obtain ⟨rest, there, done⟩ := Fallible.bind_eq_ok.mp done
    cases done
    cases b using Fin.cases with
    | zero => exact here
    | succ b => exact ih there b

section Bits

/- The bit vector of a branch table, the list of its children, and the place of a child in it. -/

/-- One bit for every occupied branch, the lowest branch in the lowest bit. -/
def bitVector : (n : Nat) → (Fin n → Option α) → BitVec n
  | 0, _ => 0#0
  | n + 1, table => BitVec.concat (bitVector n (fun b => table b.succ)) (table 0).isSome

theorem getLsbD_bitVector (table : Fin n → Option α) (b : Fin n) :
    (bitVector n table).getLsbD b = (table b).isSome := by
  induction n with
  | zero => exact b.elim0
  | succ n ih =>
    rw [bitVector, BitVec.getLsbD_concat]
    refine Fin.cases ?_ (fun b => ?_) b
    · rfl
    · rw [if_neg (by simp), Fin.val_succ, Nat.add_sub_cancel, ih]

theorem bitVector_congr {β : Type} {table : Fin n → Option α} {table' : Fin n → Option β}
    (same : ∀ b, (table b).isSome = (table' b).isSome) : bitVector n table = bitVector n table' := by
  refine BitVec.eq_of_getLsbD_eq (fun i inside => ?_)
  exact (getLsbD_bitVector table ⟨i, inside⟩).trans ((same _).trans (getLsbD_bitVector table' ⟨i, inside⟩).symm)

/-- The occupied branches in ascending order. -/
def listed (n : Nat) (table : Fin n → Option α) : List α := (List.finRange n).filterMap table

theorem length_listed (table : Fin n → Option α) : (listed n table).length = occupied table := by
  rw [listed, occupied, total, Fin.sum_univ_def, List.length_filterMap_eq_countP]
  induction List.finRange n with
  | nil => rfl
  | cons b rest ih =>
    rw [List.countP_cons, ih, List.map_cons, List.sum_cons]
    cases table b <;> simp [add_comm]

/-- How many branches below `b` are occupied. -/
def rank (bits : BitVec n) (b : Fin n) : Nat := (List.finRange n).countP (fun d => d < b && bits.getLsbD d)

/-- `__builtin_popcount`. -/
def popcount (bits : BitVec n) : Nat := (List.finRange n).countP (fun d : Fin n => bits.getLsbD d.val)

/-- As many bits as children. -/
theorem popcount_bitVector (table : Fin n → Option α) : popcount (bitVector n table) = occupied table := by
  rw [← length_listed, listed, List.length_filterMap_eq_countP, popcount]
  exact List.countP_congr (fun d _ => by rw [getLsbD_bitVector])

/-- The bits below a branch. -/
theorem popcount_below (bits : BitVec n) (b : Fin n) : popcount (bits &&& (1#n <<< b.val - 1#n)) = rank bits b := by
  have mask : 1#n <<< b.val - 1#n = BitVec.ofNat n (2 ^ b.val - 1) := by
    have small : 2 ^ b.val < 2 ^ n := Nat.pow_lt_pow_right (by decide) b.isLt
    have positive : 0 < 2 ^ b.val := Nat.two_pow_pos b.val
    have above : 1 < 2 ^ n := by omega
    refine BitVec.eq_of_toNat_eq ?_
    rw [BitVec.toNat_sub, BitVec.toNat_shiftLeft, BitVec.toNat_ofNat, BitVec.toNat_ofNat, Nat.mod_eq_of_lt above,
      Nat.shiftLeft_eq, Nat.one_mul, Nat.mod_eq_of_lt small, Nat.mod_eq_of_lt (by omega : 2 ^ b.val - 1 < 2 ^ n),
      show 2 ^ n - 1 + 2 ^ b.val = 2 ^ n + (2 ^ b.val - 1) by omega, Nat.add_mod_left, Nat.mod_eq_of_lt (by omega)]
  rw [mask, popcount, rank]
  refine List.countP_congr (fun d _ => ?_)
  rw [BitVec.getLsbD_and, BitVec.getLsbD_ofNat, Nat.testBit_two_pow_sub_one]
  simp [d.isLt, and_comm]

theorem listed_succ (table : Fin (n + 1) → Option α) :
    listed (n + 1) table = (table 0).toList ++ listed n (fun b => table b.succ) := by
  rw [listed, List.finRange_succ, List.filterMap_cons, List.filterMap_map]
  cases table 0 <;> rfl

theorem rank_zero (bits : BitVec (n + 1)) : rank bits 0 = 0 := by
  rw [rank, List.countP_eq_zero]
  intro d _
  simp

theorem rank_succ (table : Fin (n + 1) → Option α) (b : Fin n) :
    rank (bitVector (n + 1) table) b.succ =
      (table 0).toList.length + rank (bitVector n (fun b => table b.succ)) b := by
  rw [rank, List.finRange_succ, List.countP_cons, List.countP_map, add_comm, rank]
  congr 1
  · have bit := getLsbD_bitVector table 0
    rw [Fin.val_zero] at bit
    simp only [Fin.succ_pos, decide_true, Bool.true_and, Fin.val_zero, bit]
    cases table 0 <;> rfl
  · refine List.countP_congr (fun d _ => ?_)
    simp only [Function.comp_apply, Fin.succ_lt_succ_iff, getLsbD_bitVector]

/-- The child at a branch stands in the list where the branches below it are counted. -/
theorem listed_rank {table : Fin n → Option α} {b : Fin n} {a : α} (at_b : table b = some a) :
    (listed n table)[rank (bitVector n table) b]? = some a := by
  induction n with
  | zero => exact b.elim0
  | succ n ih =>
    rw [listed_succ]
    revert at_b
    refine Fin.cases ?_ (fun b => ?_) b
    · intro at_b
      rw [rank_zero, at_b]
      rfl
    · intro at_b
      rw [rank_succ, List.getElem?_append_right (by omega), Nat.add_sub_cancel_left]
      exact ih at_b

/-- Tables with the same occupied branches are told apart by their children. -/
theorem table_eq_of_listed {table table' : Fin n → Option α} (bits : bitVector n table = bitVector n table')
    (same : listed n table = listed n table') : table = table' := by
  funext b
  have bit : (table b).isSome = (table' b).isSome := by rw [← getLsbD_bitVector, bits, getLsbD_bitVector]
  cases left : table b with
  | none =>
    rw [left] at bit
    exact (Option.not_isSome_iff_eq_none.mp (by rw [← bit]; nofun)).symm
  | some a =>
    rw [left] at bit
    obtain ⟨a', right⟩ := Option.isSome_iff_exists.mp bit.symm
    have found := listed_rank left
    rw [same, bits, listed_rank right] at found
    rw [right, found]

end Bits

end Branches
