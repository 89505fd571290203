import Speedex.Market.PriceKeys
import Speedex.Trie.PrefixType
import Speedex.Library.Fallible
import Mathlib.Data.List.GetD

set_option autoImplicit false

/- The keys of offers as bytes: `generate_key` writes the limit price, the owner and the id of an offer in big endian
order, so that keys are ordered by price first. -/
namespace Speedex

open Nibbles

/-- `WORKUNIT_KEY_LEN`. -/
def workUnitKeyBytes : Nat := 22

/-- `PRICE_BYTES`. -/
def priceBytes : Nat := 6

section Writers

variable {n w : Nat}

/-- The byte that a big endian writer stores at a position. -/
def bigEndianByte (value : BitVec w) (sz loc : Nat) : BitVec 8 := (value >>> ((sz - loc - 1) * 8)).setWidth 8

/-- The loop of the big endian writers. -/
def writeBigEndian (buf : PrefixType n) (value : BitVec w) (sz offset : Nat) : Except String (PrefixType n) :=
  (List.range sz).foldlM (fun buf loc => buf.setAt (loc + offset) (bigEndianByte value sz loc)) buf

def writePriceBigEndian (buf : PrefixType n) (price : Price) : Except String (PrefixType n) :=
  writeBigEndian buf price priceBytes 0

/-- `write_unsigned_big_endian` of a `uint64_t`. -/
def writeUnsignedBigEndian (buf : PrefixType n) (value : BitVec 64) (offset : Nat) : Except String (PrefixType n) :=
  writeBigEndian buf value 8 offset

/-- `read_price_big_endian`. -/
def PrefixType.readPriceBigEndian (buf : PrefixType n) : Price :=
  (buf.bytes.take priceBytes).foldl (fun (p : Price) byte => (p <<< 8) + byte.setWidth 64) 0

end Writers

/-- `generate_key` into a buffer. -/
def PrefixType.generateKey (minPrice : Price) (owner : AccountID) (offerId : BitVec 64)
    (buf : PrefixType workUnitKeyBytes) : Except String (PrefixType workUnitKeyBytes) := do
  let buf ← writePriceBigEndian buf minPrice
  let buf ← writeUnsignedBigEndian buf owner priceBytes
  writeUnsignedBigEndian buf offerId (priceBytes + 8)

section Bytes

variable {n w : Nat}

/-- A writer stores the bytes of its value, and leaves the others. -/
theorem writeBigEndian_spec (buf : PrefixType n) (value : BitVec w) {sz offset : Nat} (inside : sz + offset ≤ n) :
    ∃ buf', writeBigEndian buf value sz offset = .ok buf' ∧
      ∀ j, buf'.byte j = if offset ≤ j ∧ j < sz + offset then bigEndianByte value sz (j - offset) else buf.byte j := by
  suffices written : ∀ k ≤ sz, ∃ buf',
      (List.range k).foldlM (fun buf loc => buf.setAt (loc + offset) (bigEndianByte value sz loc)) buf =
        (.ok buf' : Except String (PrefixType n)) ∧
      ∀ j, buf'.byte j = if offset ≤ j ∧ j < k + offset then bigEndianByte value sz (j - offset) else buf.byte j from
    written sz (Nat.le_refl sz)
  intro k
  induction k with
  | zero => exact fun _ => ⟨buf, rfl, fun j => (if_neg (by omega)).symm⟩
  | succ k ih =>
    intro most
    obtain ⟨before, stored, bytes⟩ := ih (by omega)
    have room : k + offset < n := by omega
    refine ⟨before.put (k + offset) (bigEndianByte value sz k), ?_, fun j => ?_⟩
    · rw [List.range_succ, List.foldlM_append, stored]
      show before.setAt _ _ >>= _ = _
      rw [PrefixType.setAt_ok before room]
      rfl
    · rw [PrefixType.byte_put before room, bytes]
      by_cases here : j = k + offset
      · rw [if_pos here, if_pos (by omega), here, Nat.add_sub_cancel]
      · by_cases earlier : offset ≤ j ∧ j < k + offset
        · rw [if_neg here, if_pos earlier, if_pos (by omega)]
        · rw [if_neg here, if_neg earlier, if_neg (by omega)]

theorem digit_append_left {a : Key} (b : Key) {j : Nat} (inside : j < a.length) : Digits.digit (a ++ b) j = Digits.digit a j :=
  List.getD_append _ _ _ _ inside

theorem digit_append_right {a : Key} (b : Key) {j : Nat} (beyond : a.length ≤ j) :
    Digits.digit (a ++ b) j = Digits.digit b (j - a.length) :=
  List.getD_append_right _ _ _ _ beyond

theorem digit_bigEndian (value : BitVec w) {sz j : Nat} (inside : j < sz) :
    Digits.digit (Speedex.bigEndian value sz) j = nibble value (4 * (sz - 1 - j)) := by
  induction sz generalizing j with
  | zero => omega
  | succ sz ih =>
    cases j with
    | zero => rfl
    | succ j =>
      have position : sz + 1 - 1 - (j + 1) = sz - 1 - j := by omega
      rw [position, ← ih (Nat.lt_of_succ_lt_succ inside)]
      rfl

/-- The digits of the bytes of a value are its own. -/
theorem nibble_bigEndianByte (value : BitVec w) {sz j : Nat} (inside : j < 2 * sz) :
    nibble (bigEndianByte value sz (j / 2)) (half j) = Digits.digit (Speedex.bigEndian value (2 * sz)) j := by
  have position : (sz - j / 2 - 1) * 8 + half j = 4 * (2 * sz - 1 - j) := by
    unfold half
    split <;> omega
  have room : half j + 4 ≤ 8 := by
    unfold half
    split <;> omega
  rw [digit_bigEndian value inside, bigEndianByte, nibble_setWidth _ room, nibble_shiftRight, position]

theorem foldl_bytes (bytes : List (BitVec 8)) (p : Price) :
    bytes.foldl (fun (p : Price) byte => (p <<< 8) + byte.setWidth 64) p =
      (ofBytes bytes).foldl (fun (p : Price) digit => (p <<< 4) + BitVec.ofNat 64 digit.val) p := by
  induction bytes generalizing p with
  | nil => rfl
  | cons b bs ih =>
    have step : (p <<< 8) + b.setWidth 64 =
        (((p <<< 4) + BitVec.ofNat 64 (nibble b 4).val) <<< 4) + BitVec.ofNat 64 (nibble b 0).val := by
      have bound := b.isLt
      have digits := toNat_byte b
      apply BitVec.eq_of_toNat_eq
      simp only [BitVec.toNat_add, BitVec.toNat_shiftLeft, BitVec.toNat_setWidth, BitVec.toNat_ofNat, Nat.shiftLeft_eq]
      omega
    rw [List.foldl_cons, ih, step, ofBytes_cons, List.foldl_cons, List.foldl_cons]

theorem take_ofBytes (bytes : List (BitVec 8)) (k : Nat) : (ofBytes bytes).take (2 * k) = ofBytes (bytes.take k) := by
  induction bytes generalizing k with
  | nil => simp
  | cons b bs ih =>
    cases k with
    | zero => simp
    | succ k => simp [Nat.mul_succ, ih]

/-- The price at the front of a key, read from its bytes or from its digits. -/
theorem PrefixType.readPrice_eq (p : PrefixType n) : p.readPriceBigEndian = Speedex.readPriceBigEndian p.toKey := by
  rw [PrefixType.readPriceBigEndian, foldl_bytes, Speedex.readPriceBigEndian, PrefixType.toKey, ← take_ofBytes]
  rfl

end Bytes

section Keys

/-- The bytes that `generate_key` writes have the digits of the key. -/
theorem PrefixType.generateKey_spec (minPrice : Price) (owner : AccountID) (offerId : BitVec 64)
    (buf : PrefixType workUnitKeyBytes) : ∃ p, PrefixType.generateKey minPrice owner offerId buf = .ok p ∧
      p.toKey = Speedex.generateKey minPrice owner offerId := by
  obtain ⟨first, stored, price⟩ := writeBigEndian_spec buf minPrice (show priceBytes + 0 ≤ workUnitKeyBytes by decide)
  obtain ⟨second, stored', account⟩ := writeBigEndian_spec first owner (show 8 + priceBytes ≤ workUnitKeyBytes by decide)
  obtain ⟨p, stored'', id⟩ := writeBigEndian_spec second offerId (show 8 + (priceBytes + 8) ≤ workUnitKeyBytes by decide)
  refine ⟨p, ?_, ?_⟩
  · unfold PrefixType.generateKey writePriceBigEndian writeUnsignedBigEndian
    exact Fallible.bind_eq_ok.mpr ⟨first, stored, Fallible.bind_eq_ok.mpr ⟨second, stored', stored''⟩⟩
  · apply Digits.ext_digit
    · rw [PrefixType.length_toKey, length_generateKey]
      rfl
    · intro j bounded
      rw [PrefixType.length_toKey] at bounded
      have len : 2 * workUnitKeyBytes = 44 := rfl
      have six : priceBytes = 6 := rfl
      rw [PrefixType.digit_byte _ bounded, id, account, price, Speedex.generateKey]
      rcases Nat.lt_or_ge j 12 with inPrice | afterPrice
      · rw [if_neg (by omega), if_neg (by omega), if_pos (by omega), Nat.sub_zero, six,
          nibble_bigEndianByte minPrice (by omega), List.append_assoc, digit_append_left _ (by simpa using inPrice)]
      · rcases Nat.lt_or_ge j 28 with inOwner | afterOwner
        · have index : j / 2 - 6 = (j - 12) / 2 := by omega
          have same : half j = half (j - 12) := by
            unfold half
            congr 1
            rw [show (j - 12) % 2 = j % 2 by omega]
          rw [if_neg (by omega), if_pos (by omega), six, index, same, nibble_bigEndianByte owner (by omega), List.append_assoc,
            digit_append_right _ (by simpa using afterPrice), length_bigEndian,
            digit_append_left _ (by rw [length_bigEndian]; omega)]
        · have index : j / 2 - 14 = (j - 28) / 2 := by omega
          have same : half j = half (j - 28) := by
            unfold half
            congr 1
            rw [show (j - 28) % 2 = j % 2 by omega]
          rw [if_pos (by omega), six, index, same, nibble_bigEndianByte offerId (by omega),
            digit_append_right _ (by simpa using afterOwner), List.length_append, length_bigEndian, length_bigEndian]

theorem value_generateKey {minPrice : Price} (owner : AccountID) (offerId : BitVec 64) (small : minPrice.toNat < 2 ^ 48) :
    Digits.value (Speedex.generateKey minPrice owner offerId) =
      (minPrice.toNat * 2 ^ 64 + owner.toNat) * 2 ^ 64 + offerId.toNat := by
  have boundOwner := owner.isLt
  have boundId := offerId.isLt
  have word : (16 : Nat) ^ 16 = 2 ^ 64 := by decide
  rw [Speedex.generateKey, Digits.value_append, Digits.value_append, value_bigEndian, value_bigEndian, value_bigEndian,
    length_bigEndian, length_bigEndian, Nat.mod_eq_of_lt (by omega), Nat.mod_eq_of_lt (by omega), Nat.mod_eq_of_lt (by omega), word]

/-- Offers in the order of their limit prices, then of their owners, then of their ids. -/
def KeyBefore (minPrice : Price) (owner : AccountID) (offerId : BitVec 64) (minPrice' : Price) (owner' : AccountID)
    (offerId' : BitVec 64) : Prop :=
  minPrice < minPrice' ∨ minPrice = minPrice' ∧ (owner < owner' ∨ owner = owner' ∧ offerId < offerId')

variable {minPrice minPrice' : Price} {owner owner' : AccountID} {offerId offerId' : BitVec 64}

theorem generateKey_lt_iff (small : minPrice.toNat < 2 ^ 48) (small' : minPrice'.toNat < 2 ^ 48) :
    Speedex.generateKey minPrice owner offerId < Speedex.generateKey minPrice' owner' offerId' ↔
      KeyBefore minPrice owner offerId minPrice' owner' offerId' := by
  have boundOwner := owner.isLt
  have boundOwner' := owner'.isLt
  have boundId := offerId.isLt
  have boundId' := offerId'.isLt
  rw [Digits.lt_iff_value (by simp), value_generateKey owner offerId small, value_generateKey owner' offerId' small',
    KeyBefore, BitVec.lt_def, BitVec.lt_def, BitVec.lt_def, ← BitVec.toNat_inj, ← BitVec.toNat_inj]
  omega

theorem generateKey_inj (small : minPrice.toNat < 2 ^ 48) (small' : minPrice'.toNat < 2 ^ 48) :
    Speedex.generateKey minPrice owner offerId = Speedex.generateKey minPrice' owner' offerId' ↔
      minPrice = minPrice' ∧ owner = owner' ∧ offerId = offerId' := by
  constructor
  · intro same
    have values := congrArg Digits.value same
    have boundOwner := owner.isLt
    have boundOwner' := owner'.isLt
    have boundId := offerId.isLt
    have boundId' := offerId'.isLt
    rw [value_generateKey owner offerId small, value_generateKey owner' offerId' small'] at values
    rw [← BitVec.toNat_inj, ← BitVec.toNat_inj, ← BitVec.toNat_inj]
    omega
  · intro same
    rw [same.1, same.2.1, same.2.2]

/-- The keys of two offers with prices below `2^48`: they are ordered as bytes like the offers, they differ when the
offers do, the price can be read back, and the operations on them are those on their digits below the last one. -/
theorem PrefixType.generateKey_keys (small : minPrice.toNat < 2 ^ 48) (small' : minPrice'.toNat < 2 ^ 48)
    (buf buf' : PrefixType workUnitKeyBytes) :
    ∃ p p', PrefixType.generateKey minPrice owner offerId buf = .ok p ∧
      PrefixType.generateKey minPrice' owner' offerId' buf' = .ok p' ∧
      (p.bytes < p'.bytes ↔ KeyBefore minPrice owner offerId minPrice' owner' offerId') ∧
      (p.bytes = p'.bytes ↔ minPrice = minPrice' ∧ owner = owner' ∧ offerId = offerId') ∧
      p.readPriceBigEndian = minPrice ∧ p.Consistent := by
  obtain ⟨p, stored, key⟩ := PrefixType.generateKey_spec minPrice owner offerId buf
  obtain ⟨p', stored', key'⟩ := PrefixType.generateKey_spec minPrice' owner' offerId' buf'
  have lengths : p.bytes.length = p'.bytes.length := by simp
  refine ⟨p, p', stored, stored', ?_, ?_, ?_, p.consistent⟩
  · rw [← memcmp_lt_iff lengths, (memcmp_spec lengths).1, ← generateKey_lt_iff small small', ← key, ← key']
    rfl
  · rw [← generateKey_inj small small', ← key, ← key']
    exact ⟨congrArg ofBytes, ofBytes_injective⟩
  · rw [PrefixType.readPrice_eq, key, readPrice_generateKey _ _ small]

theorem PrefixType.generateKey_keys_sample : ∃ p p',
    PrefixType.generateKey 3 1 9 PrefixType.zero = .ok p ∧ PrefixType.generateKey 3 2 4 PrefixType.zero = .ok p' ∧
      (p.bytes < p'.bytes ↔ KeyBefore 3 1 9 3 2 4) ∧ (p.bytes = p'.bytes ↔ (3 : Price) = 3 ∧ (1 : AccountID) = 2 ∧ (9 : BitVec 64) = 4) ∧
      p.readPriceBigEndian = 3 ∧ p.Consistent :=
  PrefixType.generateKey_keys (by decide) (by decide) PrefixType.zero PrefixType.zero

/-- The whole key cannot be kept: `truncate` refuses to cut it at its end. -/
theorem PrefixType.truncate_whole_key : ∃ p, PrefixType.generateKey 3 1 9 PrefixType.zero = .ok p ∧
    p.truncate (8 * workUnitKeyBytes) = .error "can't branch beyond end" := by
  obtain ⟨p, stored, _⟩ := PrefixType.generateKey_spec 3 1 9 PrefixType.zero
  exact ⟨p, stored, (p.consistent.beyond _ (Nat.le_refl _)).2.1⟩

end Keys

end Speedex
