import Speedex.Market.ExchangeRate
import Speedex.Market.Offer
import Mathlib.Tactic.Ring

set_option autoImplicit false

/- The limit price at the front of an offer's key. Keys are ordered by it first. -/
namespace Speedex

/-- Nibbles of a price in a key: `PRICE_BIT_LEN` bits. -/
def priceDigits : Nat := 12

/-- `read_price_big_endian`, two digits to a byte. -/
def readPriceBigEndian (buf : Key) : Price :=
  (buf.take priceDigits).foldl (fun (p : Price) digit => (p <<< 4) + BitVec.ofNat 64 digit.val) 0

theorem toNat_foldl_digits (digits : Key) (p : Price) :
    (digits.foldl (fun (p : Price) digit => (p <<< 4) + BitVec.ofNat 64 digit.val) p).toNat =
      (p.toNat * 16 ^ digits.length + Digits.value digits) % 2 ^ 64 := by
  induction digits generalizing p with
  | nil => simp [Digits.value, Nat.mod_eq_of_lt p.isLt]
  | cons d ds ih =>
    have step : ((p <<< 4) + BitVec.ofNat 64 d.val).toNat ≡ p.toNat * 16 + d.val [MOD 2 ^ 64] := by
      rw [BitVec.toNat_add, BitVec.toNat_shiftLeft, Nat.shiftLeft_eq, BitVec.toNat_ofNat]
      exact ((Nat.mod_modEq _ _).trans ((Nat.mod_modEq _ _).add (Nat.mod_modEq _ _)))
    have spread : (p.toNat * 16 + d.val) * 16 ^ ds.length + Digits.value ds =
        p.toNat * 16 ^ (d :: ds).length + Digits.value (d :: ds) := by
      rw [Digits.value, List.length_cons]
      ring
    rw [List.foldl_cons, ih, ← spread]
    exact (step.mul_right _).add_right _

theorem toNat_readPrice (buf : Key) : (readPriceBigEndian buf).toNat = Digits.value (buf.take priceDigits) := by
  have zero : (0 : Price).toNat = 0 := rfl
  rw [readPriceBigEndian, toNat_foldl_digits, zero, Nat.zero_mul, Nat.zero_add]
  apply Nat.mod_eq_of_lt
  calc Digits.value (buf.take priceDigits) < 16 ^ (buf.take priceDigits).length := Digits.value_lt _
    _ ≤ 16 ^ priceDigits := Nat.pow_le_pow_right (by decide) (List.length_take_le _ _)
    _ < 2 ^ 64 := by decide

/-- The price depends on its digits only. -/
theorem readPrice_congr {a b : Key} (same : a.take priceDigits = b.take priceDigits) :
    readPriceBigEndian a = readPriceBigEndian b := by
  rw [readPriceBigEndian, same, readPriceBigEndian]

theorem readPrice_lt {a b : Key} (lengths : a.length = b.length)
    (smaller : a.take priceDigits < b.take priceDigits) : readPriceBigEndian a < readPriceBigEndian b := by
  rw [BitVec.lt_def, toNat_readPrice, toNat_readPrice]
  exact Digits.value_lt_of_lt (by rw [List.length_take, List.length_take, lengths]) smaller

/-- Keys in order have prices in order. -/
theorem readPrice_le {a b : Key} (lengths : a.length = b.length) (smaller : a < b) :
    readPriceBigEndian a ≤ readPriceBigEndian b := by
  rcases (Digits.take_le_of_lt lengths smaller (n := priceDigits)).lt_or_eq with less | same
  · exact BitVec.le_of_lt (readPrice_lt lengths less)
  · rw [readPrice_congr same]
    exact BitVec.le_refl _

theorem value_bigEndian {w : Nat} (v : BitVec w) (n : Nat) : Digits.value (bigEndian v n) = v.toNat % 16 ^ n := by
  induction n with
  | zero => simp [bigEndian, Digits.value, Nat.mod_one]
  | succ n ih =>
    have digit : (v >>> (4 * n)).toNat = v.toNat / 16 ^ n := by
      rw [BitVec.toNat_ushiftRight, Nat.shiftRight_eq_div_pow, Nat.pow_mul]
    rw [bigEndian, Digits.value, ih, length_bigEndian, Fin.val_ofNat, digit, Nat.pow_succ, Nat.mod_mul,
      Nat.mul_comm (16 ^ n), Nat.add_comm]

theorem readPrice_generateKey {minPrice : Price} (owner : AccountID) (offerId : BitVec 64)
    (small : minPrice.toNat < 2 ^ 48) : readPriceBigEndian (generateKey minPrice owner offerId) = minPrice := by
  have front : (generateKey minPrice owner offerId).take priceDigits = bigEndian minPrice 12 := by
    rw [generateKey, List.append_assoc, List.take_append_of_le_length (by rw [length_bigEndian]; rfl)]
    exact List.take_of_length_le (by rw [length_bigEndian]; rfl)
  apply BitVec.eq_of_toNat_eq
  rw [toNat_readPrice, front, value_bigEndian]
  exact Nat.mod_eq_of_lt (by omega)

end Speedex
