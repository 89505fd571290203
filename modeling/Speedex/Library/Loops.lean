import Mathlib.Data.BitVec
import Mathlib.Data.List.Basic

set_option autoImplicit false

/- Counting loops whose counter is narrower than the bound it runs to. With room for the bound the loop visits
every index once; without it the counter wraps around and the loop never ends. -/
namespace Machine

variable {w : Nat} {σ : Type}

/-- `for (i = 0; i < size; i++)` from `i` on, with an unsigned counter of `w` bits. -/
def countLoop (size : Nat) (body : BitVec w → σ → σ) : Nat → BitVec w → σ → Option σ
  | 0, _, _ => none
  | fuel + 1, i, s => if i.toNat < size then countLoop size body fuel (i + 1) (body i s) else some s

variable {size : Nat} {body : BitVec w → σ → σ}

/-- A counter that cannot reach the bound never leaves the loop. -/
theorem countLoop_wraps (wide : 2 ^ w ≤ size) (fuel : Nat) (i : BitVec w) (s : σ) : countLoop size body fuel i s = none := by
  induction fuel generalizing i s with
  | zero => rfl
  | succ fuel ih =>
    have inside : i.toNat < size := i.isLt.trans_le wide
    rw [countLoop, if_pos inside]
    exact ih _ _

theorem countLoop_from (narrow : size < 2 ^ w) (fuel : Nat) {i : Nat} (inside : i ≤ size) (s : σ) :
    countLoop size body fuel (BitVec.ofNat w i) s =
      if size - i < fuel then some ((List.range' i (size - i)).foldl (fun s j => body (BitVec.ofNat w j) s) s)
      else none := by
  induction fuel generalizing i s with
  | zero => rw [countLoop, if_neg (Nat.not_lt_zero _)]
  | succ fuel ih =>
    have value : (BitVec.ofNat w i).toNat = i := by
      rw [BitVec.toNat_ofNat]
      apply Nat.mod_eq_of_lt
      omega
    have next : BitVec.ofNat w i + 1 = BitVec.ofNat w (i + 1) := (BitVec.ofNat_add i 1).symm
    rw [countLoop, value]
    by_cases more : i < size
    · have rest : size - i = size - (i + 1) + 1 := by omega
      rw [if_pos more, next, ih more, rest, List.range'_succ, List.foldl_cons]
      simp only [Nat.add_lt_add_iff_right]
    · have last : size - i = 0 := by omega
      rw [if_neg more, last, if_pos (Nat.succ_pos fuel)]
      rfl

/-- What a loop returns, whatever fuel it is given. -/
theorem countLoop_eq_some_iff {fuel : Nat} {s r : σ} :
    countLoop size body fuel 0 s = some r ↔ size < 2 ^ w ∧ size < fuel ∧
      r = (List.range size).foldl (fun s i => body (BitVec.ofNat w i) s) s := by
  by_cases narrow : size < 2 ^ w
  · have run := @countLoop_from w σ size body narrow fuel 0 (Nat.zero_le size) s
    rw [Nat.sub_zero, ← List.range_eq_range'] at run
    rw [show (0 : BitVec w) = BitVec.ofNat w 0 from rfl, run]
    by_cases enough : size < fuel
    · rw [if_pos enough, Option.some.injEq]
      simp only [narrow, enough, true_and, eq_comm]
    · rw [if_neg enough]
      simp only [enough, false_and, and_false, reduceCtorEq]
  · rw [countLoop_wraps (not_lt.mp narrow)]
    simp only [narrow, false_and, reduceCtorEq]

end Machine
