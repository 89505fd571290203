import Mathlib.Data.Nat.ModEq
import Mathlib.Tactic.Ring
import Mathlib.Tactic.Common

set_option autoImplicit false

/- A product of two factors of two limbs each, shifted down limb product by limb product: the carries between
the limb products are lost. -/
namespace LimbProduct

variable {base drop keep : Nat}

/-- The parts below the product of the high limbs. -/
def lowerParts (base drop first second : Nat) : Nat :=
  first % base * (second % base) / (base * drop) +
    (first % base * (second / base) / drop + first / base * (second % base) / drop)

/-- The product over `base * drop`, where `base = drop * keep`. -/
def shifted (base drop keep first second : Nat) : Nat :=
  lowerParts base drop first second + first / base * (second / base) * keep

theorem mul_eq (split : base = drop * keep) (first second : Nat) : first * second =
    first % base * (second % base) +
      (base * (first % base * (second / base)) + base * (first / base * (second % base))) +
      base * drop * (first / base * (second / base) * keep) := by
  have square : base * base = base * drop * keep := by
    rw [Nat.mul_assoc, ← split]
  calc first * second
    _ = (first % base + base * (first / base)) * (second % base + base * (second / base)) := by
      rw [Nat.mod_add_div, Nat.mod_add_div]
    _ = first % base * (second % base) +
          (base * (first % base * (second / base)) + base * (first / base * (second % base))) +
          base * base * (first / base * (second / base)) := by ring
    _ = _ := by
      rw [square]
      ring

/-- At most two units are lost. -/
theorem shifted_error (split : base = drop * keep) (positive : 0 < base) (first second : Nat) :
    shifted base drop keep first second ≤ first * second / (base * drop) ∧
      first * second / (base * drop) ≤ shifted base drop keep first second + 2 := by
  have divisor : 0 < drop := Nat.pos_of_ne_zero (fun none => by simp [none] at split; omega)
  have whole : 0 < base * drop := Nat.mul_pos positive divisor
  have cancel : ∀ m, base * m / (base * drop) = m / drop := fun m => Nat.mul_div_mul_left m drop positive
  rw [mul_eq split first second, Nat.add_mul_div_left _ _ whole, shifted, lowerParts]
  generalize first % base * (second % base) = low
  have outer := Nat.div_add_div_le_add_div (x := low)
    (y := base * (first % base * (second / base)) + base * (first / base * (second % base))) (z := base * drop)
  have inner := Nat.div_add_div_le_add_div (x := base * (first % base * (second / base)))
    (y := base * (first / base * (second % base))) (z := base * drop)
  have outer' := Nat.add_div_le_div_add_div_add_one low
    (base * (first % base * (second / base)) + base * (first / base * (second % base))) (base * drop)
  have inner' := Nat.add_div_le_div_add_div_add_one (base * (first % base * (second / base)))
    (base * (first / base * (second % base))) (base * drop)
  rw [cancel, cancel] at inner inner'
  omega

/-- The result grows with a factor. -/
theorem shifted_mono (split : base = drop * keep) (positive : 0 < base) (first : Nat) {second second' : Nat}
    (less : second ≤ second') : shifted base drop keep first second ≤ shifted base drop keep first second' := by
  have divisor : 0 < drop := Nat.pos_of_ne_zero (fun none => by simp [none] at split; omega)
  rw [shifted, shifted, lowerParts, lowerParts]
  rcases Nat.lt_or_ge (second / base) (second' / base) with carried | same
  · -- the lower limb of the larger factor may be anything, but its upper limb makes up for it
    have upper : second / base + 1 ≤ second' / base := carried
    have below : second % base ≤ base := (Nat.mod_lt _ positive).le
    have lowLow : first % base * (second % base) / (base * drop) ≤ first % base / drop := by
      rw [← Nat.mul_div_mul_left (first % base) drop positive, Nat.mul_comm base (first % base)]
      exact Nat.div_le_div_right (Nat.mul_le_mul_left _ below)
    have lowHigh : first % base / drop + first % base * (second / base) / drop ≤ first % base * (second' / base) / drop :=
      calc first % base / drop + first % base * (second / base) / drop
        _ ≤ (first % base + first % base * (second / base)) / drop := Nat.div_add_div_le_add_div
        _ = first % base * (second / base + 1) / drop := by rw [Nat.mul_add, Nat.mul_one, Nat.add_comm]
        _ ≤ first % base * (second' / base) / drop := Nat.div_le_div_right (Nat.mul_le_mul_left _ upper)
    have highLow : first / base * (second % base) / drop ≤ first / base * keep := by
      have room : first / base * base = drop * (first / base * keep) := by
        rw [split]
        ring
      rw [← Nat.mul_div_cancel_left (first / base * keep) divisor, ← room]
      exact Nat.div_le_div_right (Nat.mul_le_mul_left _ below)
    have highHigh : first / base * keep + first / base * (second / base) * keep ≤ first / base * (second' / base) * keep :=
      calc first / base * keep + first / base * (second / base) * keep
        _ = first / base * (second / base + 1) * keep := by ring
        _ ≤ first / base * (second' / base) * keep := Nat.mul_le_mul_right _ (Nat.mul_le_mul_left _ upper)
    generalize first % base * (second' % base) / (base * drop) = lower
    generalize first / base * (second' % base) / drop = lower'
    omega
  · have limb : second / base = second' / base := Nat.le_antisymm (Nat.div_le_div_right less) same
    have rest : second % base ≤ second' % base := by
      have first := Nat.mod_add_div second base
      have second := Nat.mod_add_div second' base
      rw [limb] at first
      omega
    rw [limb]
    have lowLow := Nat.div_le_div_right (c := base * drop) (Nat.mul_le_mul_left (first % base) rest)
    have highLow := Nat.div_le_div_right (c := drop) (Nat.mul_le_mul_left (first / base) rest)
    omega

end LimbProduct
