import Mathlib.Data.BitVec
import Mathlib.Data.Fin.Basic
import Mathlib.Data.List.Basic
import Speedex.Library.Digits

set_option autoImplicit false

/- Byte strings: numbers in big endian order, and hexadecimal digits packed two to a byte. -/
namespace Bytes

abbrev Byte := BitVec 8

/-- The low `n` bytes of a number, most significant first. -/
def bigEndian : Nat → Nat → List Byte
  | 0, _ => []
  | n + 1, x => bigEndian n (x / 256) ++ [BitVec.ofNat 8 x]

@[simp] theorem length_bigEndian (n x : Nat) : (bigEndian n x).length = n := by
  induction n generalizing x with
  | zero => rfl
  | succ n ih => rw [bigEndian, List.length_append, ih, List.length_singleton]

theorem mod_of_bigEndian {n x y : Nat} (same : bigEndian n x = bigEndian n y) :
    x % 256 ^ n = y % 256 ^ n := by
  induction n generalizing x y with
  | zero => rw [Nat.pow_zero, Nat.mod_one, Nat.mod_one]
  | succ n ih =>
    rw [bigEndian, bigEndian] at same
    obtain ⟨high, low⟩ := List.append_inj same (by rw [length_bigEndian, length_bigEndian])
    have high := ih high
    have low : x % 256 = y % 256 := by
      have value := congrArg BitVec.toNat (List.cons.inj low).1
      rwa [BitVec.toNat_ofNat, BitVec.toNat_ofNat] at value
    rw [Nat.pow_succ', Nat.mod_mul, Nat.mod_mul, high, low]

theorem bigEndian_inj {n x y : Nat} (left : x < 256 ^ n) (right : y < 256 ^ n)
    (same : bigEndian n x = bigEndian n y) : x = y := by
  have value := mod_of_bigEndian same
  rwa [Nat.mod_eq_of_lt left, Nat.mod_eq_of_lt right] at value

/-- Two digits to a byte, the first one in the high half; a last single digit gets a zero. -/
def pack : List (Fin 16) → List Byte
  | [] => []
  | [high] => [BitVec.ofNat 8 (high.val * 16)]
  | high :: low :: rest => BitVec.ofNat 8 (high.val * 16 + low.val) :: pack rest

/-- The digits of a byte string. -/
def unpack (bytes : List Byte) : List (Fin 16) :=
  bytes.flatMap (fun byte => [Fin.ofNat 16 (byte.toNat / 16), Fin.ofNat 16 byte.toNat])

theorem length_unpack (bytes : List Byte) : (unpack bytes).length = 2 * bytes.length := by
  induction bytes with
  | nil => rfl
  | cons byte bytes ih =>
    rw [unpack, List.flatMap_cons, List.length_append, ← unpack, ih, List.length_cons]
    simp only [List.length_cons, List.length_nil]
    omega

theorem pack_unpack (bytes : List Byte) : pack (unpack bytes) = bytes := by
  induction bytes with
  | nil => rfl
  | cons byte bytes ih =>
    have small := byte.isLt
    rw [unpack, List.flatMap_cons, ← unpack]
    simp only [List.cons_append, List.nil_append, pack, ih, List.cons.injEq, and_true]
    refine BitVec.eq_of_toNat_eq ?_
    rw [BitVec.toNat_ofNat, Fin.val_ofNat, Fin.val_ofNat]
    omega

theorem byte_inj {a b c d : Fin 16}
    (same : BitVec.ofNat 8 (a.val * 16 + b.val) = BitVec.ofNat 8 (c.val * 16 + d.val)) : a = c ∧ b = d := by
  have value := congrArg BitVec.toNat same
  rw [BitVec.toNat_ofNat, BitVec.toNat_ofNat] at value
  have := a.isLt
  have := b.isLt
  have := c.isLt
  have := d.isLt
  exact ⟨Fin.ext (by omega), Fin.ext (by omega)⟩

/-- Digit strings of one length are told apart by their bytes. -/
theorem pack_inj {a b : List (Fin 16)} (lengths : a.length = b.length) (same : pack a = pack b) : a = b := by
  induction a using pack.induct generalizing b with
  | case1 => exact (List.length_eq_zero_iff.mp lengths.symm).symm
  | case2 high =>
    obtain ⟨high', rfl⟩ := List.length_eq_one_iff.mp lengths.symm
    have first : BitVec.ofNat 8 (high.val * 16 + (0 : Fin 16).val) =
        BitVec.ofNat 8 (high'.val * 16 + (0 : Fin 16).val) := (List.cons.inj same).1
    rw [(byte_inj first).1]
  | case3 high low rest ih =>
    match b, lengths with
    | high' :: low' :: rest', lengths =>
      rw [pack, pack] at same
      obtain ⟨first, rest⟩ := List.cons.inj same
      obtain ⟨rfl, rfl⟩ := byte_inj first
      rw [ih (by simpa using lengths) rest]

theorem length_pack (a : List (Fin 16)) : (pack a).length = (a.length + 1) / 2 := by
  induction a using pack.induct with
  | case1 => rfl
  | case2 high => simp [pack]
  | case3 high low rest ih =>
    rw [pack, List.length_cons, ih, List.length_cons, List.length_cons]
    omega

/-- The bytes that hold the first `n` digits, of which the last may be half used. -/
theorem take_pack {a : List (Fin 16)} {n : Nat} (inside : n ≤ a.length)
    (padded : n % 2 = 1 → Digits.digit a n = 0) : (pack a).take ((n + 1) / 2) = pack (a.take n) := by
  induction a using pack.induct generalizing n with
  | case1 => simp [pack]
  | case2 high =>
    match n, inside with
    | 0, _ => rfl
    | 1, _ => rfl
  | case3 high low rest ih =>
    match n, inside, padded with
    | 0, _, _ => rfl
    | 1, _, padded =>
      have zero : low = 0 := padded rfl
      rw [zero]
      rfl
    | n + 2, inside, padded =>
      have half : (n + 2 + 1) / 2 = (n + 1) / 2 + 1 := by omega
      rw [half, pack, List.take_succ_cons, List.take_succ_cons, List.take_succ_cons, pack,
        ih (by simpa using inside) (fun odd => padded (by omega))]

/-- `0xF0` where the last byte is half used. -/
def lastMask (n : Nat) : Byte := if n % 2 = 0 then 255 else 240

theorem and_lastMask (high low : Fin 16) :
    BitVec.ofNat 8 (high.val * 16 + low.val) &&& 240 = BitVec.ofNat 8 (high.val * 16) := by
  revert high low
  decide

/-- The same bytes with the half that is not used masked out. -/
theorem mask_take_pack {a : List (Fin 16)} {n : Nat} (even : a.length % 2 = 0) (inside : n ≤ a.length) :
    ((pack a).take ((n + 1) / 2)).modify ((n + 1) / 2 - 1) (fun byte => byte &&& lastMask n) = pack (a.take n) := by
  induction a using pack.induct generalizing n with
  | case1 => simp [pack]
  | case2 high => simp at even
  | case3 high low rest ih =>
    have full : ∀ byte : Byte, byte &&& 255 = byte := fun byte => BitVec.and_allOnes
    match n, inside with
    | 0, _ => rfl
    | 1, _ =>
      simp only [pack, List.take_succ_cons, List.take_zero]
      exact congrArg (fun byte => [byte]) (and_lastMask high low)
    | 2, _ =>
      simp only [pack, List.take_succ_cons, List.take_zero]
      exact congrArg (fun byte => [byte]) (full _)
    | n + 3, inside =>
      have half : (n + 3 + 1) / 2 = (n + 1 + 1) / 2 + 1 := by omega
      have last : (n + 1 + 1) / 2 + 1 - 1 = (n + 1 + 1) / 2 - 1 + 1 := by omega
      have parity : lastMask (n + 3) = lastMask (n + 1) := by
        unfold lastMask
        rw [show (n + 3) % 2 = (n + 1) % 2 by omega]
      rw [half, last, parity, pack, List.take_succ_cons, List.modify_succ_cons,
        ih (by simp only [List.length_cons] at even; omega) (by simpa using inside)]
      rfl

end Bytes
