import Mathlib.Data.BitVec
import Speedex.Library.Digits

set_option autoImplicit false

/- Four bits of a machine word as a hexadecimal digit, and bytes as pairs of digits: strings of bytes have
the same common prefixes and the same order as the digits that write them. -/
namespace Nibbles

variable {w v : Nat}

/-- The four bits from position `p` on. -/
def nibble (x : BitVec w) (p : Nat) : Fin 16 := Fin.ofNat 16 (x >>> p).toNat

theorem val_nibble (x : BitVec w) (p : Nat) : (nibble x p).val = x.toNat / 2 ^ p % 16 := by
  rw [nibble, Fin.val_ofNat, BitVec.toNat_ushiftRight, Nat.shiftRight_eq_div_pow]

theorem testBit_nibble (x : BitVec w) (p i : Nat) : (nibble x p).val.testBit i = (decide (i < 4) && x.getLsbD (p + i)) := by
  rw [val_nibble, show (16 : Nat) = 2 ^ 4 from rfl, Nat.testBit_mod_two_pow, ← Nat.shiftRight_eq_div_pow,
    Nat.testBit_shiftRight]
  rfl

/-- A digit is determined by its bits. -/
theorem nibble_eq_iff (x : BitVec w) (y : BitVec v) (p q : Nat) :
    nibble x p = nibble y q ↔ ∀ i < 4, x.getLsbD (p + i) = y.getLsbD (q + i) := by
  constructor
  · intro same i inside
    have bits := congrArg (fun d : Fin 16 => d.val.testBit i) same
    simpa only [testBit_nibble, inside, decide_true, Bool.true_and] using bits
  · intro bits
    apply Fin.ext
    apply Nat.eq_of_testBit_eq
    intro i
    rw [testBit_nibble, testBit_nibble]
    by_cases inside : i < 4
    · rw [bits i inside]
    · simp [inside]

theorem nibble_eq_zero_iff (x : BitVec w) (p : Nat) : nibble x p = 0 ↔ ∀ i < 4, x.getLsbD (p + i) = false := by
  have zero : nibble (0 : BitVec w) p = 0 := by
    apply Fin.ext
    rw [val_nibble]
    simp
  rw [← zero, nibble_eq_iff]
  simp

/-- Two words differ in a digit where their difference has one. -/
theorem nibble_xor_eq_zero_iff (x y : BitVec w) (p : Nat) : nibble (x ^^^ y) p = 0 ↔ nibble x p = nibble y p := by
  rw [nibble_eq_zero_iff, nibble_eq_iff]
  simp only [BitVec.getLsbD_xor, bne_eq_false_iff_eq]

/-- A mask of four bits selects a digit. -/
theorem and_mask_eq_zero_iff (x : BitVec w) {mask : BitVec w} {p : Nat}
    (bits : ∀ i < w, mask.getLsbD i = decide (p ≤ i ∧ i < p + 4)) : x &&& mask = 0 ↔ nibble x p = 0 := by
  rw [nibble_eq_zero_iff]
  constructor
  · intro none i small
    by_cases inside : p + i < w
    · have bit := congrArg (fun b : BitVec w => b.getLsbD (p + i)) none
      simp only [BitVec.getLsbD_and, bits _ inside] at bit
      simpa [small] using bit
    · exact BitVec.getLsbD_of_ge _ _ (by omega)
  · intro none
    apply BitVec.eq_of_getLsbD_eq
    intro i inside
    rw [BitVec.getLsbD_and, bits i inside]
    by_cases here : p ≤ i ∧ i < p + 4
    · have bit := none (i - p) (by omega)
      rw [Nat.add_sub_cancel' here.1] at bit
      simp [bit]
    · simp [here]

theorem nibble_or_left {x y : BitVec w} {p : Nat} (bare : nibble y p = 0) : nibble (x ||| y) p = nibble x p := by
  rw [nibble_eq_zero_iff] at bare
  rw [nibble_eq_iff]
  intro i small
  rw [BitVec.getLsbD_or, bare i small, Bool.or_false]

theorem nibble_or_right {x y : BitVec w} {p : Nat} (bare : nibble x p = 0) : nibble (x ||| y) p = nibble y p := by
  rw [BitVec.or_comm]
  exact nibble_or_left bare

theorem nibble_setWidth (x : BitVec w) {p : Nat} (inside : p + 4 ≤ v) : nibble (x.setWidth v) p = nibble x p := by
  rw [nibble_eq_iff]
  intro i small
  rw [BitVec.getLsbD_setWidth]
  simp [show p + i < v by omega]

theorem nibble_shiftRight (x : BitVec w) (p s : Nat) : nibble (x >>> s) p = nibble x (s + p) := by
  rw [nibble_eq_iff]
  intro i _
  rw [BitVec.getLsbD_ushiftRight, Nat.add_assoc]

/-- The two digits of a byte, the high one first. -/
def ofByte (b : BitVec 8) : List (Fin 16) := [nibble b 4, nibble b 0]

def ofBytes (bytes : List (BitVec 8)) : List (Fin 16) := bytes.flatMap ofByte

@[simp] theorem ofBytes_nil : ofBytes [] = [] := rfl
@[simp] theorem ofBytes_cons (b : BitVec 8) (bytes : List (BitVec 8)) :
    ofBytes (b :: bytes) = nibble b 4 :: nibble b 0 :: ofBytes bytes := rfl

@[simp] theorem length_ofBytes (bytes : List (BitVec 8)) : (ofBytes bytes).length = 2 * bytes.length := by
  induction bytes with
  | nil => rfl
  | cons b bytes ih =>
    rw [ofBytes_cons, List.length_cons, List.length_cons, ih, List.length_cons]
    omega

/-- The position of a digit within its byte. -/
def half (j : Nat) : Nat := if j % 2 = 0 then 4 else 0

theorem digit_ofBytes (bytes : List (BitVec 8)) (j : Nat) :
    Digits.digit (ofBytes bytes) j = nibble (bytes.getD (j / 2) 0) (half j) := by
  induction bytes generalizing j with
  | nil =>
    rw [ofBytes_nil, List.getD_nil]
    exact ((nibble_eq_zero_iff _ _).mpr (fun i _ => BitVec.getLsbD_zero)).symm
  | cons b bytes ih =>
    cases j with
    | zero => rfl
    | succ j =>
      cases j with
      | zero => rfl
      | succ j =>
        have next : (j + 1 + 1) / 2 = j / 2 + 1 := by omega
        have parity : (j + 1 + 1) % 2 = j % 2 := by omega
        have same : half (j + 1 + 1) = half j := by rw [half, half, parity]
        rw [next, same, List.getD_cons_succ, ← ih]
        rfl

theorem toNat_byte (b : BitVec 8) : b.toNat = 16 * (nibble b 4).val + (nibble b 0).val := by
  have bound := b.isLt
  rw [val_nibble, val_nibble]
  omega

theorem ofByte_injective {b b' : BitVec 8} (high : nibble b 4 = nibble b' 4) (low : nibble b 0 = nibble b' 0) : b = b' := by
  apply BitVec.eq_of_toNat_eq
  rw [toNat_byte b, toNat_byte b', high, low]

theorem ofBytes_injective {a b : List (BitVec 8)} (same : ofBytes a = ofBytes b) : a = b := by
  induction a generalizing b with
  | nil =>
    cases b with
    | nil => rfl
    | cons y ys => cases same
  | cons x xs ih =>
    cases b with
    | nil => cases same
    | cons y ys =>
      rw [ofBytes_cons, ofBytes_cons, List.cons.injEq, List.cons.injEq] at same
      obtain ⟨high, low, rest⟩ := same
      rw [ofByte_injective high low, ih rest]

/-- `memcmp` on strings of one length. -/
def memcmp : List (BitVec 8) → List (BitVec 8) → Ordering
  | x :: xs, y :: ys => if x < y then .lt else if y < x then .gt else memcmp xs ys
  | _, _ => .eq

/-- The order of `memcmp` is lexicographic. -/
theorem memcmp_lt_iff {a b : List (BitVec 8)} (lengths : a.length = b.length) : memcmp a b = .lt ↔ a < b := by
  induction a generalizing b with
  | nil =>
    cases b with
    | nil => simp [memcmp]
    | cons y ys => cases lengths
  | cons x xs ih =>
    cases b with
    | nil => cases lengths
    | cons y ys =>
      rw [memcmp, List.cons_lt_cons_iff]
      by_cases less : x < y
      · simp [less]
      · by_cases more : y < x
        · have apart : x ≠ y := fun same => BitVec.lt_irrefl x (same ▸ more)
          simp [less, more, apart]
        · have same : x = y := BitVec.le_antisymm (BitVec.not_lt.mp more) (BitVec.not_lt.mp less)
          simp [same, ih (Nat.succ.inj lengths), BitVec.lt_irrefl]

/-- Bytes are compared like the digits that write them. -/
theorem memcmp_spec {a b : List (BitVec 8)} (lengths : a.length = b.length) :
    (memcmp a b = .lt ↔ ofBytes a < ofBytes b) ∧ (memcmp a b = .gt ↔ ofBytes b < ofBytes a) ∧ (memcmp a b = .eq ↔ a = b) := by
  induction a generalizing b with
  | nil =>
    cases b with
    | nil => simp [memcmp]
    | cons y ys => cases lengths
  | cons x xs ih =>
    cases b with
    | nil => cases lengths
    | cons y ys =>
      obtain ⟨less, more, same⟩ := ih (Nat.succ.inj lengths)
      have order : ∀ x y : BitVec 8, x < y ↔ nibble x 4 < nibble y 4 ∨ nibble x 4 = nibble y 4 ∧ nibble x 0 < nibble y 0 := by
        intro x y
        have left := toNat_byte x
        have right := toNat_byte y
        have lowX := (nibble x 0).isLt
        have lowY := (nibble y 0).isLt
        rw [BitVec.lt_def, Fin.lt_def, Fin.lt_def, Fin.ext_iff]
        omega
      simp only [memcmp, ofBytes_cons, List.cons_lt_cons_iff]
      rcases lt_trichotomy x.toNat y.toNat with below | here | above
      · have apart : x ≠ y := fun same => lt_irrefl _ (same ▸ below)
        rw [← BitVec.lt_def] at below
        rw [if_pos below]
        rw [order] at below
        simp only [true_iff, reduceCtorEq, false_iff, List.cons.injEq, apart, false_and]
        refine ⟨below.imp_right (fun tail => ⟨tail.1, Or.inl tail.2⟩), ?_, trivial⟩
        rcases below with high | ⟨high, low⟩
        · simp [lt_asymm high, high.ne']
        · simp [high, low.ne', lt_asymm low]
      · obtain rfl : x = y := BitVec.eq_of_toNat_eq here
        rw [if_neg (BitVec.lt_irrefl x), if_neg (BitVec.lt_irrefl x)]
        simp [less, more, same]
      · have apart : x ≠ y := fun same => lt_irrefl _ (same ▸ above)
        have not_below : ¬ x < y := by
          rw [BitVec.lt_def]
          exact lt_asymm above
        rw [← BitVec.lt_def] at above
        rw [if_neg not_below, if_pos above]
        rw [order] at above
        simp only [true_iff, reduceCtorEq, false_iff, List.cons.injEq, apart, false_and]
        refine ⟨?_, above.imp_right (fun tail => ⟨tail.1, Or.inl tail.2⟩), trivial⟩
        rcases above with high | ⟨high, low⟩
        · simp [lt_asymm high, high.ne']
        · simp [high, low.ne', lt_asymm low]

end Nibbles
