import Speedex.Library.Nibbles
import Speedex.Trie.Node

set_option autoImplicit false

/- `prefix_type`: a key as 64 bit words that hold its bytes in little endian order. Its operations are those of
`Digits` on the digits of the key, which is how the tries see it. -/
namespace Speedex

open Nibbles

/-- `WORDS`. -/
def prefixWords (maxLenBytes : Nat) : Nat := maxLenBytes / 8 + if maxLenBytes % 8 = 0 then 0 else 1

/-- `prefix_type<MAX_LEN_BYTES, 4>`. Prefix lengths are counted in bits. -/
@[ext] structure PrefixType (maxLenBytes : Nat) where
  data : List (BitVec 64)
  sized : data.length = prefixWords maxLenBytes
deriving DecidableEq

namespace PrefixType

variable {n : Nat}

/-- The default constructor. -/
def zero : PrefixType n := ⟨List.replicate (prefixWords n) 0, List.length_replicate⟩

def word (p : PrefixType n) (i : Nat) : BitVec 64 := p.data.getD i 0

/-- `operator[]`. -/
def byte (p : PrefixType n) (i : Nat) : BitVec 8 := (p.word (i / 8) >>> (8 * (i % 8))).setWidth 8

/-- `get_bytes_array`. -/
def bytes (p : PrefixType n) : List (BitVec 8) := (List.range n).map p.byte

/-- The digits of the key. -/
def toKey (p : PrefixType n) : Key := ofBytes p.bytes

/-- How far into a word the first difference lies, rounded down to a digit. -/
def wordOffset (diff : BitVec 64) : Nat :=
  let offset := diff.ctz.toNat - diff.ctz.toNat % 8
  if (diff >>> offset) &&& 0xF0 = 0 ∧ (diff >>> offset) &&& 0x0F ≠ 0 then offset + 4 else offset

/-- The loop of `get_prefix_match_len`, which stops at the first word that differs. -/
def scanWords (res : Nat) : Nat → List (BitVec 64) → List (BitVec 64) → Nat
  | i, x :: xs, y :: ys =>
    if x ^^^ y ≠ 0 then min (i * 64 + wordOffset (x ^^^ y)) res else scanWords res (i + 1) xs ys
  | _, _, _ => res

def getPrefixMatchLen (p : PrefixType n) (selfLen : Nat) (other : PrefixType n) (otherLen : Nat) : Nat :=
  let res := scanWords (8 * n) 0 p.data other.data
  min (res - res % 4) (min selfLen otherLen)

def getBranchBits (p : PrefixType n) (branchPoint : Nat) : Except String Digit :=
  if branchPoint ≥ 8 * n then .error "can't branch beyond end"
  else
    let byte : BitVec 8 := (p.word (branchPoint / 64) >>> (8 * (branchPoint % 64 / 8))).setWidth 8
    .ok (if branchPoint % 8 = 0 then nibble byte 4 else nibble byte 0)

/-- The bits that `truncate` keeps of the word it cuts. -/
def truncateMask (truncatePoint : Nat) : BitVec 64 :=
  let wordOffset := 8 * (truncatePoint % 64 / 8)
  let mask := ((1 : BitVec 64) <<< wordOffset) - 1
  if truncatePoint % 8 ≠ 0 then mask ||| (0xF0 : BitVec 64) <<< wordOffset else mask

def truncate (p : PrefixType n) (truncatePoint : Nat) : Except String (PrefixType n) :=
  if truncatePoint ≥ 8 * n then .error "can't branch beyond end"
  else .ok ⟨p.data.mapIdx (fun i word => if i < truncatePoint / 64 then word
    else if i = truncatePoint / 64 then word &&& truncateMask truncatePoint else 0),
    by rw [List.length_mapIdx, p.sized]⟩

/-- Store a byte. -/
def put (p : PrefixType n) (i : Nat) (b : BitVec 8) : PrefixType n :=
  ⟨p.data.set (i / 8) ((p.word (i / 8) &&& ~~~((0xFF : BitVec 64) <<< (8 * (i % 8)))) ||| b.setWidth 64 <<< (8 * (i % 8))),
    by rw [List.length_set, p.sized]⟩

/-- An assignment through `at`. -/
def setAt (p : PrefixType n) (i : Nat) (b : BitVec 8) : Except String (PrefixType n) :=
  if i ≥ n then .error "invalid prefix array access!" else .ok (p.put i b)

/-- `set_next_branch_bits` of `merkle_trie_utils.h`. The mask is an `int` that is cut to a byte. -/
def setNextBranchBits (p : PrefixType n) (fixedLenBits : Nat) (branchBits : Digit) : Except String (PrefixType n) :=
  let remainingBits := fixedLenBits % 8
  if fixedLenBits / 8 ≥ n then .error "invalid access"
  else
    let kept := p.byte (fixedLenBits / 8) &&& ((0xFF : BitVec 32) <<< (8 - remainingBits)).setWidth 8
    p.setAt (fixedLenBits / 8) (kept ||| (BitVec.ofNat 8 branchBits.val) <<< (8 - remainingBits - 4))

/-- `operator<=>`. -/
def compare (p q : PrefixType n) : Ordering := memcmp p.bytes q.bytes

/-- The position of a digit in its word. -/
def place (j : Nat) : Nat := 8 * (j / 2 % 8) + half j

theorem place_mod (j : Nat) : place (j % 16) = place j := by
  have parity : j % 16 % 2 = j % 2 := by omega
  have byte : j % 16 / 2 % 8 = j / 2 % 8 := by omega
  rw [place, place, half, half, parity, byte]

theorem place_lt (j : Nat) : place j + 4 ≤ 64 := by
  unfold place half
  split <;> omega

@[simp] theorem length_bytes (p : PrefixType n) : p.bytes.length = n := by simp [bytes]

@[simp] theorem length_toKey (p : PrefixType n) : p.toKey.length = 2 * n := by simp [toKey]

theorem digit_toKey (p : PrefixType n) {j : Nat} (inside : j < 2 * n) :
    Digits.digit p.toKey j = nibble (p.word (j / 16)) (place j) := by
  have bounded : j / 2 < n := by omega
  have room : half j + 4 ≤ 8 := by unfold half; split <;> omega
  rw [toKey, digit_ofBytes, bytes, List.getD_eq_getElem?_getD, List.getElem?_map, List.getElem?_range bounded]
  show nibble (p.byte (j / 2)) (half j) = _
  rw [byte, nibble_setWidth _ room, nibble_shiftRight, Nat.div_div_eq_div_mul, place]

section MatchLen

theorem and_high_eq_zero_iff (x : BitVec 64) : x &&& 0xF0 = 0 ↔ nibble x 4 = 0 := and_mask_eq_zero_iff x (by decide)

theorem and_low_eq_zero_iff (x : BitVec 64) : x &&& 0x0F = 0 ↔ nibble x 0 = 0 := and_mask_eq_zero_iff x (by decide)

/-- The offset is that of the first digit in which two words differ. -/
theorem wordOffset_spec {diff : BitVec 64} (differs : diff ≠ 0) : ∃ d < 16, wordOffset diff = 4 * d ∧
    nibble diff (place d) ≠ 0 ∧ ∀ d' < d, nibble diff (place d') = 0 := by
  have below : ∀ i < diff.ctz.toNat, diff.getLsbD i = false := fun i less => BitVec.getLsbD_false_of_lt_ctz less
  have here : diff.getLsbD diff.ctz.toNat = true := BitVec.getLsbD_true_ctz_of_ne_zero differs
  have inside : diff.ctz.toNat < 64 := by
    have less := (BitVec.ctz_lt_iff_ne_zero (x := diff)).mpr differs
    rwa [BitVec.lt_def] at less
  rw [wordOffset]
  generalize diff.ctz.toNat = c at below here inside
  have byte : c - c % 8 = 8 * (c / 8) := by omega
  have high : place (2 * (c / 8)) = 8 * (c / 8) + 4 := by unfold place half; split <;> omega
  have low : place (2 * (c / 8) + 1) = 8 * (c / 8) := by unfold place half; split <;> omega
  -- the bytes before the one with the first difference agree
  have early : ∀ d' < 2 * (c / 8), nibble diff (place d') = 0 := by
    intro d' less
    rw [nibble_eq_zero_iff]
    intro i small
    apply below
    unfold place half
    split <;> omega
  simp only [byte, and_high_eq_zero_iff, ne_eq, and_low_eq_zero_iff, nibble_shiftRight, Nat.add_zero]
  by_cases bare : nibble diff (8 * (c / 8) + 4) = 0
  · have odd : ¬ nibble diff (8 * (c / 8)) = 0 := by
      intro none
      by_cases half : c % 8 < 4
      · have bit := (nibble_eq_zero_iff _ _).mp none (c % 8) half
        rw [Nat.div_add_mod, here] at bit
        cases bit
      · have bit := (nibble_eq_zero_iff _ _).mp bare (c % 8 - 4) (by omega)
        rw [show 8 * (c / 8) + 4 + (c % 8 - 4) = c by omega, here] at bit
        cases bit
    rw [if_pos ⟨bare, odd⟩]
    refine ⟨2 * (c / 8) + 1, by omega, by omega, by rwa [low], fun d' less => ?_⟩
    rcases Nat.lt_succ_iff_lt_or_eq.mp less with before | rfl
    · exact early d' before
    · rwa [high]
  · rw [if_neg (fun both => bare both.1)]
    exact ⟨2 * (c / 8), by omega, by omega, by rwa [high], early⟩

/-- The loop finds the first digit in which two lists of words differ. -/
theorem scanWords_spec (res : Nat) {xs ys : List (BitVec 64)} (lengths : xs.length = ys.length) (i : Nat) :
    (scanWords res i xs ys = res ∧ xs = ys) ∨
      ∃ k < xs.length, ∃ d < 16, scanWords res i xs ys = min (64 * (i + k) + 4 * d) res ∧
        (∀ k' < k, xs.getD k' 0 = ys.getD k' 0) ∧ nibble (xs.getD k 0) (place d) ≠ nibble (ys.getD k 0) (place d) ∧
        ∀ d' < d, nibble (xs.getD k 0) (place d') = nibble (ys.getD k 0) (place d') := by
  induction xs generalizing ys i with
  | nil =>
    cases ys with
    | nil => exact Or.inl ⟨rfl, rfl⟩
    | cons y ys => cases lengths
  | cons x xs ih =>
    cases ys with
    | nil => cases lengths
    | cons y ys =>
      rw [scanWords]
      by_cases same : x ^^^ y = 0
      · rw [if_neg (not_not.mpr same)]
        obtain rfl : x = y := BitVec.xor_eq_zero_iff.mp same
        rcases ih (Nat.succ.inj lengths) (i + 1) with ⟨done, rfl⟩ | ⟨k, inside, d, small, done, before, differs, early⟩
        · exact Or.inl ⟨done, rfl⟩
        · refine Or.inr ⟨k + 1, Nat.succ_lt_succ inside, d, small, ?_, ?_, differs, early⟩
          · rw [done]
            congr 1
            omega
          · intro k' less
            cases k' with
            | zero => rfl
            | succ k' => exact before k' (by omega)
      · rw [if_pos same]
        obtain ⟨d, small, offset, differs, early⟩ := wordOffset_spec same
        refine Or.inr ⟨0, Nat.succ_pos _, d, small, ?_, ?_, ?_, ?_⟩
        · rw [offset]
          congr 1
          omega
        · intro k' absurd
          exact (Nat.not_lt_zero _ absurd).elim
        · exact fun equal => differs ((nibble_xor_eq_zero_iff x y _).mpr equal)
        · exact fun d' less => (nibble_xor_eq_zero_iff x y _).mp (early d' less)

/-- `get_prefix_match_len` is the common length of the digits, in bits. -/
theorem getPrefixMatchLen_spec (p q : PrefixType n) (selfLen otherLen : Nat) :
    p.getPrefixMatchLen selfLen q otherLen =
      min (4 * Digits.commonLen p.toKey q.toKey) (min selfLen otherLen) := by
  have lengths : p.data.length = q.data.length := p.sized.trans q.sized.symm
  have full : ∀ {a b : Key}, a.length = 2 * n → a = b → 4 * Digits.commonLen a b = 8 * n := by
    rintro a b long rfl
    rw [Digits.commonLen_self, long]
    omega
  suffices done : scanWords (8 * n) 0 p.data q.data = 4 * Digits.commonLen p.toKey q.toKey by
    rw [getPrefixMatchLen, done]
    congr 1
    omega
  rcases scanWords_spec (8 * n) lengths 0 with ⟨done, same⟩ | ⟨k, inside, d, small, done, before, differs, early⟩
  · obtain rfl : p = q := PrefixType.ext same
    rw [done, full (length_toKey p) rfl]
  · -- digits before the difference
    have agree : ∀ j < 16 * k + d, j < 2 * n → Digits.digit p.toKey j = Digits.digit q.toKey j := by
      intro j less bounded
      rw [digit_toKey p bounded, digit_toKey q bounded, ← place_mod]
      rcases Nat.lt_or_ge (j / 16) k with earlier | later
      · rw [word, word, before _ earlier]
      · obtain rfl : k = j / 16 := by omega
        exact early (j % 16) (by omega)
    rw [done]
    by_cases beyond : 2 * n ≤ 16 * k + d
    · rw [full (length_toKey p) (Digits.ext_digit (by simp) (fun j less => ?_))]
      · omega
      · rw [length_toKey] at less
        exact agree j (by omega) less
    · have here : Digits.commonLen p.toKey q.toKey = 16 * k + d := by
        apply Digits.commonLen_eq
        · rw [length_toKey]
          omega
        · rw [length_toKey]
          omega
        · exact Digits.take_eq_of_digit (by simp) (fun j less => agree j less (by omega))
        · rw [digit_toKey p (by omega), digit_toKey q (by omega), ← place_mod]
          rw [show (16 * k + d) / 16 = k by omega, show (16 * k + d) % 16 = d by omega]
          exact differs
      rw [here]
      omega

end MatchLen

section Cut

/-- `get_branch_bits` reads the digit at its branch point. -/
theorem getBranchBits_spec (p : PrefixType n) {digits : Nat} (inside : digits < 2 * n) :
    p.getBranchBits (4 * digits) = .ok (Digits.digit p.toKey digits) := by
  have word : 4 * digits / 64 = digits / 16 := by omega
  have byte : 4 * digits % 64 / 8 = digits / 2 % 8 := by omega
  rw [getBranchBits, if_neg (by omega), digit_toKey p inside, word, byte, place, half]
  dsimp only
  by_cases even : digits % 2 = 0
  · rw [if_pos even, if_pos (by omega), nibble_setWidth _ (by decide), nibble_shiftRight]
  · rw [if_neg even, if_neg (by omega), nibble_setWidth _ (by decide), nibble_shiftRight]

theorem getLsbD_low_ones {m : Nat} (small : m < 64) (i : Nat) :
    (((1 : BitVec 64) <<< m) - 1).getLsbD i = decide (i < m) := by
  have one : (1 : BitVec 64).toNat = 1 := rfl
  have power : 2 ^ m < 2 ^ 64 := Nat.pow_lt_pow_right (by decide) small
  have positive : 1 ≤ 2 ^ m := Nat.one_le_two_pow
  have value : (((1 : BitVec 64) <<< m) - 1).toNat = 2 ^ m - 1 := by
    rw [BitVec.toNat_sub, BitVec.toNat_shiftLeft, Nat.shiftLeft_eq, one, Nat.one_mul, Nat.mod_eq_of_lt power]
    omega
  rw [BitVec.getLsbD, value, Nat.testBit_two_pow_sub_one]

theorem getLsbD_high_digit (m i : Nat) :
    ((0xF0 : BitVec 64) <<< m).getLsbD i = decide (i < 64 ∧ m + 4 ≤ i ∧ i < m + 8) := by
  have bits : ∀ k, (0xF0 : BitVec 64).getLsbD k = decide (4 ≤ k ∧ k < 8) := by
    intro k
    by_cases inside : k < 64
    · revert k
      decide
    · rw [BitVec.getLsbD_of_ge _ _ (by omega), decide_eq_false (by omega)]
  rw [BitVec.getLsbD_shiftLeft, bits, Bool.eq_iff_iff]
  simp only [Bool.and_eq_true, decide_eq_true_eq, Bool.not_eq_true', decide_eq_false_iff_not]
  omega

/-- The mask keeps the digits before the cut. -/
theorem getLsbD_truncateMask {digits j i : Nat} (same : j / 16 = digits / 16) (small : i < 4) :
    (truncateMask (4 * digits)).getLsbD (place j + i) = decide (j < digits) := by
  have offset : 8 * (4 * digits % 64 / 8) = 8 * (digits / 2 % 8) := by omega
  have low := @getLsbD_low_ones (8 * (digits / 2 % 8)) (by omega)
  unfold truncateMask
  simp only [offset]
  by_cases odd : 4 * digits % 8 ≠ 0
  · rw [if_pos odd, BitVec.getLsbD_or, low, getLsbD_high_digit, Bool.eq_iff_iff]
    simp only [Bool.or_eq_true, decide_eq_true_eq]
    unfold place half
    split <;> omega
  · rw [if_neg odd, low, decide_eq_decide]
    unfold place half
    split <;> omega

theorem word_mapIdx (p : PrefixType n) (f : Nat → BitVec 64 → BitVec 64) (sized) {i : Nat} (inside : i < prefixWords n) :
    (⟨p.data.mapIdx f, sized⟩ : PrefixType n).word i = f i (p.word i) := by
  have bounded : i < p.data.length := p.sized ▸ inside
  simp [word, List.getD_eq_getElem?_getD, bounded]

theorem lt_prefixWords {j : Nat} (inside : j < 2 * n) : j / 16 < prefixWords n := by
  unfold prefixWords
  split <;> omega

/-- `truncate` keeps the digits before its cut. -/
theorem truncate_spec (p : PrefixType n) {digits : Nat} (inside : digits < 2 * n) :
    ∃ p', p.truncate (4 * digits) = .ok p' ∧ p'.toKey = Digits.truncate p.toKey digits := by
  refine ⟨_, by rw [truncate, if_neg (by omega)], ?_⟩
  apply Digits.ext_digit
  · rw [Digits.length_truncate _ (by rw [length_toKey]; omega), length_toKey, length_toKey]
  · intro j bounded
    rw [length_toKey] at bounded
    have cut : 4 * digits / 64 = digits / 16 := by omega
    have nothing : nibble (0 : BitVec 64) (place j) = 0 :=
      (nibble_eq_zero_iff _ _).mpr (fun _ _ => BitVec.getLsbD_zero)
    rw [digit_toKey _ bounded, word_mapIdx _ _ _ (lt_prefixWords bounded), Digits.digit_truncate, digit_toKey _ bounded, cut]
    rcases lt_trichotomy (j / 16) (digits / 16) with before | here | after
    · rw [if_pos before, if_pos (by omega)]
    · rw [if_neg (by omega), if_pos here]
      by_cases kept : j < digits
      · rw [if_pos kept, nibble_eq_iff]
        intro i small
        rw [BitVec.getLsbD_and, getLsbD_truncateMask here small, decide_eq_true kept, Bool.and_true]
      · rw [if_neg kept, nibble_eq_zero_iff]
        intro i small
        rw [BitVec.getLsbD_and, getLsbD_truncateMask here small, decide_eq_false kept, Bool.and_false]
    · rw [if_neg (by omega), if_neg (by omega), if_neg (by omega), nothing]

end Cut

section Store

theorem word_put (p : PrefixType n) {i : Nat} (inside : i < n) (b : BitVec 8) (k : Nat) :
    (p.put i b).word k = if k = i / 8 then
      (p.word (i / 8) &&& ~~~((0xFF : BitVec 64) <<< (8 * (i % 8)))) ||| b.setWidth 64 <<< (8 * (i % 8)) else p.word k := by
  have room : i / 8 < p.data.length := by
    rw [p.sized, prefixWords]
    split <;> omega
  show (p.data.set _ _).getD k 0 = _
  rw [List.getD_eq_getElem?_getD, List.getElem?_set]
  by_cases here : k = i / 8
  · rw [if_pos here.symm, if_pos here, if_pos room]
    rfl
  · rw [if_neg (Ne.symm here), if_neg here, word, List.getD_eq_getElem?_getD]

/-- Storing a byte changes this byte alone. -/
theorem byte_put (p : PrefixType n) {i : Nat} (inside : i < n) (b : BitVec 8) (j : Nat) :
    (p.put i b).byte j = if j = i then b else p.byte j := by
  have ones : ∀ k, (0xFF : BitVec 64).getLsbD k = decide (k < 8) := by
    intro k
    by_cases bounded : k < 64
    · revert k
      decide
    · rw [BitVec.getLsbD_of_ge _ _ (by omega), decide_eq_false (by omega)]
  apply BitVec.eq_of_getLsbD_eq
  intro k small
  have bit : ∀ q : PrefixType n, (q.byte j).getLsbD k = (q.word (j / 8)).getLsbD (8 * (j % 8) + k) := by
    intro q
    rw [byte, BitVec.getLsbD_setWidth, BitVec.getLsbD_ushiftRight]
    simp [small]
  rw [bit, word_put p inside]
  by_cases same : j / 8 = i / 8
  · rw [if_pos same]
    simp only [BitVec.getLsbD_or, BitVec.getLsbD_and, BitVec.getLsbD_not, BitVec.getLsbD_shiftLeft, BitVec.getLsbD_setWidth, ones]
    by_cases here : j = i
    · subst here
      have position : 8 * (j % 8) + k < 64 := by omega
      rw [if_pos rfl, Nat.add_sub_cancel_left]
      simp [small, position, show k < 64 by omega]
    · have position : 8 * (j % 8) + k < 64 := by omega
      rw [if_neg here, bit, same]
      by_cases before : j % 8 < i % 8
      · have low : 8 * (j % 8) + k < 8 * (i % 8) := by omega
        simp [position, low]
      · have high : ¬ 8 * (j % 8) + k < 8 * (i % 8) := by omega
        have above : ¬ 8 * (j % 8) + k - 8 * (i % 8) < 8 := by omega
        have beyond : b.getLsbD (8 * (j % 8) + k - 8 * (i % 8)) = false := BitVec.getLsbD_of_ge _ _ (by omega)
        simp [position, high, above, beyond]
  · have apart : j ≠ i := fun here => same (congrArg (· / 8) here)
    rw [if_neg same, if_neg apart, bit]

theorem setAt_ok (p : PrefixType n) {i : Nat} (inside : i < n) (b : BitVec 8) : p.setAt i b = .ok (p.put i b) := by
  rw [setAt, if_neg (by omega)]

theorem digit_byte (p : PrefixType n) {j : Nat} (inside : j < 2 * n) :
    Digits.digit p.toKey j = nibble (p.byte (j / 2)) (half j) := by
  have bounded : j / 2 < n := by omega
  rw [toKey, digit_ofBytes, bytes, List.getD_eq_getElem?_getD, List.getElem?_map, List.getElem?_range bounded]
  rfl

/-- `set_next_branch_bits` keeps the digits before the branch and puts the branch bits after them. Where the branch
begins a byte it clears the other digit of the byte. -/
theorem setNextBranchBits_spec (p : PrefixType n) {digits : Nat} (inside : digits < 2 * n) (branchBits : Digit) :
    ∃ p', p.setNextBranchBits (4 * digits) branchBits = .ok p' ∧ ∀ j < 2 * n, Digits.digit p'.toKey j =
      if j = digits then branchBits else if digits % 2 = 0 ∧ j = digits + 1 then 0 else Digits.digit p.toKey j := by
  have index : 4 * digits / 8 = digits / 2 := by omega
  have room : digits / 2 < n := by omega
  have high : ∀ d : Digit, nibble (BitVec.ofNat 8 d.val <<< 4) 4 = d ∧ nibble (BitVec.ofNat 8 d.val <<< 4) 0 = 0 := by decide
  have low : ∀ d : Digit, nibble (BitVec.ofNat 8 d.val <<< 0) 0 = d ∧ nibble (BitVec.ofNat 8 d.val <<< 0) 4 = 0 := by decide
  refine ⟨_, by rw [setNextBranchBits, if_neg (by omega), index, setAt_ok p room], fun j bounded => ?_⟩
  rw [digit_byte _ bounded, digit_byte _ bounded, byte_put p room]
  by_cases here : j / 2 = digits / 2
  · rw [if_pos here, ← here]
    by_cases even : digits % 2 = 0
    · -- the branch begins the byte, and the mask is empty
      have aligned : 4 * digits % 8 = 0 := by omega
      have mask : ((0xFF : BitVec 32) <<< (8 - 0)).setWidth 8 = 0 := by decide
      have bare : ∀ q, nibble (p.byte (j / 2) &&& (0 : BitVec 8)) q = 0 := by
        intro q
        rw [nibble_eq_zero_iff]
        intro i _
        have none : (0 : BitVec 8).getLsbD (q + i) = false := BitVec.getLsbD_zero
        rw [BitVec.getLsbD_and, none, Bool.and_false]
      rw [aligned, mask, nibble_or_right (bare _)]
      by_cases first : j = digits
      · rw [if_pos first, first, half, if_pos even]
        exact (high branchBits).1
      · rw [if_neg first, if_pos ⟨even, by omega⟩, half, if_neg (by omega)]
        exact (high branchBits).2
    · have aligned : 4 * digits % 8 = 4 := by omega
      have bits : ∀ k < 8, (((0xFF : BitVec 32) <<< (8 - 4)).setWidth 8).getLsbD k = decide (4 ≤ k) := by decide
      rw [aligned]
      by_cases second : j = digits
      · have bare : nibble (p.byte (j / 2) &&& ((0xFF : BitVec 32) <<< (8 - 4)).setWidth 8) 0 = 0 := by
          rw [nibble_eq_zero_iff]
          intro i small
          rw [BitVec.getLsbD_and, bits _ (by omega), decide_eq_false (by omega), Bool.and_false]
        rw [if_pos second, half, if_neg (by omega), nibble_or_right bare]
        exact (low branchBits).1
      · rw [if_neg second, if_neg (fun both => even both.1), half, if_pos (by omega), nibble_or_left (low branchBits).2,
          nibble_eq_iff]
        intro i small
        rw [BitVec.getLsbD_and, bits _ (by omega), decide_eq_true (by omega), Bool.and_true]
  · rw [if_neg here, if_neg (by omega), if_neg (by omega)]

/-- `operator<=>` compares the digits. -/
theorem compare_spec (p q : PrefixType n) : (p.compare q = .lt ↔ p.toKey < q.toKey) ∧
    (p.compare q = .gt ↔ q.toKey < p.toKey) ∧ (p.compare q = .eq ↔ p.toKey = q.toKey) := by
  obtain ⟨less, more, same⟩ := memcmp_spec (a := p.bytes) (b := q.bytes) (by simp)
  refine ⟨less, more, same.trans ⟨fun equal => congrArg ofBytes equal, ofBytes_injective⟩⟩

end Store

/-- The operations on a key are those on the digits of its bytes, up to the last digit. Beyond it they throw. What
`set_next_branch_bits` leaves in the rest of the byte that it writes is not part of this. -/
structure Consistent (p : PrefixType n) : Prop where
  order : ∀ q : PrefixType n, (p.compare q = .lt ↔ p.bytes < q.bytes) ∧ (p.compare q = .gt ↔ q.bytes < p.bytes) ∧
    (p.compare q = .eq ↔ p.bytes = q.bytes)
  matchLen : ∀ (q : PrefixType n) (selfLen otherLen : Nat),
    p.getPrefixMatchLen selfLen q otherLen = min (4 * Digits.commonLen p.toKey q.toKey) (min selfLen otherLen)
  branch : ∀ digits < 2 * n, p.getBranchBits (4 * digits) = .ok (Digits.digit p.toKey digits)
  cut : ∀ digits < 2 * n, ∃ p', p.truncate (4 * digits) = .ok p' ∧ p'.toKey = Digits.truncate p.toKey digits
  store : ∀ digits < 2 * n, ∀ branchBits, ∃ p', p.setNextBranchBits (4 * digits) branchBits = .ok p' ∧
    Digits.digit p'.toKey digits = branchBits ∧
    ∀ j < 2 * n, j < digits ∨ digits / 2 < j / 2 → Digits.digit p'.toKey j = Digits.digit p.toKey j
  beyond : ∀ len ≥ 8 * n, p.getBranchBits len = .error "can't branch beyond end" ∧
    p.truncate len = .error "can't branch beyond end" ∧
    ∀ branchBits, p.setNextBranchBits len branchBits = .error "invalid access"

theorem consistent (p : PrefixType n) : p.Consistent where
  order q := by
    obtain ⟨less, more, same⟩ := memcmp_spec (a := p.bytes) (b := q.bytes) (by simp)
    have lengths : p.bytes.length = q.bytes.length := by simp
    refine ⟨memcmp_lt_iff lengths, ?_, same⟩
    rw [compare, more, ← memcmp_lt_iff lengths.symm]
    exact (memcmp_spec lengths.symm).1.symm
  matchLen := p.getPrefixMatchLen_spec
  branch digits inside := p.getBranchBits_spec inside
  cut digits inside := p.truncate_spec inside
  store digits inside branchBits := by
    obtain ⟨p', stored, after⟩ := p.setNextBranchBits_spec inside branchBits
    refine ⟨p', stored, ?_, fun j bounded other => ?_⟩
    · rw [after _ inside, if_pos rfl]
    · rw [after _ bounded, if_neg (by omega), if_neg (by omega)]
  beyond len more := by
    refine ⟨?_, ?_, fun branchBits => ?_⟩
    · rw [getBranchBits, if_pos more]
    · rw [truncate, if_pos more]
    · rw [setNextBranchBits, if_pos (by omega)]

end PrefixType

end Speedex
