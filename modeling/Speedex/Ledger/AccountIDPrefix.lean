import Speedex.Library.Machine
import Speedex.Market.OfferKeys

set_option autoImplicit false

/- `AccountIDPrefix`: the keys of the account modification log, account ids on which the prefix operations are shifts.
The commitment trie has the same ids as its keys, but as `prefix_type<8>` of their big endian bytes. -/
namespace Speedex

open Nibbles Machine

/-- How an operation on a key fails. -/
inductive PrefixFault where
  | throws (message : String)
  | undefined (reason : Undefined)
deriving DecidableEq

namespace AccountIDPrefix

/-- The count of a shift, which must be less than the width. -/
def shiftCount (count : Int) : Except PrefixFault Nat :=
  if 0 ≤ count ∧ count < 64 then .ok count.toNat else .error (.undefined .shiftPastWidth)

def getBranchBits (pfx : AccountID) (branchPoint : Nat) : Except PrefixFault Digit :=
  if branchPoint ≥ 64 then .error (.throws "can't branch beyond end")
  else do
    let count ← shiftCount (60 - branchPoint)
    return nibble (pfx >>> count) 0

def getPrefixMatchLen (pfx : AccountID) (selfLen : Nat) (other : AccountID) (otherLen : Nat) : Nat :=
  let diff := pfx ^^^ other
  let computed := if diff ≠ 0 then diff.clz.toNat - diff.clz.toNat % 4 else 64
  min computed (min selfLen otherLen)

def truncate (pfx : AccountID) (truncatePoint : Nat) : Except PrefixFault AccountID := do
  let count ← shiftCount (64 - truncatePoint)
  return pfx &&& BitVec.allOnes 64 <<< count

/-- The offset is a `uint8_t`. -/
def setNextBranchBits (pfx : AccountID) (fixedLen : Nat) (bb : Digit) : Except PrefixFault AccountID := do
  let offset ← shiftCount ((60 - fixedLen) % 256)
  let mask := (0x0F : BitVec 64) <<< offset
  let adjust := BitVec.ofNat 64 bb.val <<< offset
  return (pfx &&& ~~~mask) ||| adjust

/-- The digits of the bytes that `get_bytes_array` writes. -/
def toKey (pfx : AccountID) : Key := Speedex.bigEndian pfx 16

@[simp] theorem length_toKey (pfx : AccountID) : (toKey pfx).length = 16 := length_bigEndian _ _

theorem digit_toKey (pfx : AccountID) {j : Nat} (inside : j < 16) : Digits.digit (toKey pfx) j = nibble pfx (60 - 4 * j) := by
  rw [toKey, digit_bigEndian pfx inside]
  congr 1
  omega

theorem shiftCount_ok {count : Int} (low : 0 ≤ count) (high : count < 64) : shiftCount count = .ok count.toNat := by
  rw [shiftCount, if_pos ⟨low, high⟩]

theorem getBranchBits_spec (pfx : AccountID) {digits : Nat} (inside : digits < 16) :
    getBranchBits pfx (4 * digits) = .ok (Digits.digit (toKey pfx) digits) := by
  have count : ((60 : Int) - (4 * digits : Nat)).toNat = 60 - 4 * digits := by omega
  rw [getBranchBits, if_neg (by omega), shiftCount_ok (by omega) (by omega), count, digit_toKey pfx inside]
  show Except.ok (nibble (pfx >>> (60 - 4 * digits)) 0) = _
  rw [nibble_shiftRight, Nat.add_zero]

theorem getPrefixMatchLen_spec (pfx other : AccountID) (selfLen otherLen : Nat) :
    getPrefixMatchLen pfx selfLen other otherLen =
      min (4 * Digits.commonLen (toKey pfx) (toKey other)) (min selfLen otherLen) := by
  rw [getPrefixMatchLen]
  congr 1
  by_cases same : pfx ^^^ other = 0
  · obtain rfl : pfx = other := BitVec.xor_eq_zero_iff.mp same
    rw [if_neg (not_not.mpr same), Digits.commonLen_self, length_toKey]
  · rw [if_pos same]
    have here : (pfx ^^^ other).getLsbD (64 - 1 - (pfx ^^^ other).clz.toNat) = true :=
      BitVec.getLsbD_true_clz_of_ne_zero (by decide) same
    have high : ∀ i, 64 - (pfx ^^^ other).clz.toNat ≤ i → (pfx ^^^ other).getLsbD i = false := fun i above =>
      Nat.testBit_lt_two_pow (Nat.lt_of_lt_of_le BitVec.toNat_lt_two_pow_sub_clz (Nat.pow_le_pow_right (by decide) above))
    have few : (pfx ^^^ other).clz.toNat < 64 := by
      have less := BitVec.clz_lt_iff_ne_zero.mpr same
      rwa [BitVec.lt_def] at less
    generalize (pfx ^^^ other).clz.toNat = m at here high few
    have agree : ∀ j < m / 4, Digits.digit (toKey pfx) j = Digits.digit (toKey other) j := by
      intro j less
      rw [digit_toKey pfx (by omega), digit_toKey other (by omega), ← nibble_xor_eq_zero_iff, nibble_eq_zero_iff]
      exact fun i small => high _ (by omega)
    have apart : Digits.digit (toKey pfx) (m / 4) ≠ Digits.digit (toKey other) (m / 4) := by
      rw [digit_toKey pfx (by omega), digit_toKey other (by omega), Ne, ← nibble_xor_eq_zero_iff, nibble_eq_zero_iff]
      intro none
      have bit := none (3 - m % 4) (by omega)
      rw [show 60 - 4 * (m / 4) + (3 - m % 4) = 64 - 1 - m by omega, here] at bit
      cases bit
    rw [Digits.commonLen_eq (by rw [length_toKey]; omega) (by rw [length_toKey]; omega)
      (Digits.take_eq_of_digit (by simp) agree) apart]
    omega

/-- At the length 0 the shift is by the full width, and at the full length nothing is cut off. -/
theorem truncate_spec (pfx : AccountID) {digits : Nat} (inside : digits ≤ 16) :
    truncate pfx (4 * digits) = if digits = 0 then .error (.undefined .shiftPastWidth)
      else .ok (pfx &&& BitVec.allOnes 64 <<< (64 - 4 * digits)) := by
  rw [truncate]
  by_cases none : digits = 0
  · rw [if_pos none, shiftCount, if_neg (by omega)]
    rfl
  · have count : ((64 : Int) - (4 * digits : Nat)).toNat = 64 - 4 * digits := by omega
    rw [if_neg none, shiftCount_ok (by omega) (by omega), count]
    rfl

theorem toKey_truncate (pfx : AccountID) {digits : Nat} (inside : digits ≤ 16) :
    toKey (pfx &&& BitVec.allOnes 64 <<< (64 - 4 * digits)) = Digits.truncate (toKey pfx) digits := by
  apply Digits.ext_digit
  · rw [Digits.length_truncate _ (by rwa [length_toKey]), length_toKey, length_toKey]
  · intro j bounded
    rw [length_toKey] at bounded
    rw [digit_toKey _ bounded, Digits.digit_truncate, digit_toKey _ bounded]
    have mask : ∀ i < 4, (BitVec.allOnes 64 <<< (64 - 4 * digits)).getLsbD (60 - 4 * j + i) = decide (j < digits) := by
      intro i small
      rw [BitVec.getLsbD_shiftLeft, BitVec.getLsbD_allOnes, Bool.eq_iff_iff]
      simp only [Bool.and_eq_true, decide_eq_true_eq, Bool.not_eq_true', decide_eq_false_iff_not]
      omega
    by_cases kept : j < digits
    · rw [if_pos kept, nibble_eq_iff]
      intro i small
      rw [BitVec.getLsbD_and, mask i small, decide_eq_true kept, Bool.and_true]
    · rw [if_neg kept, nibble_eq_zero_iff]
      intro i small
      rw [BitVec.getLsbD_and, mask i small, decide_eq_false kept, Bool.and_false]

theorem setNextBranchBits_end (pfx : AccountID) (bb : Digit) :
    setNextBranchBits pfx 64 bb = .error (.undefined .shiftPastWidth) := rfl

theorem setNextBranchBits_spec (pfx : AccountID) {digits : Nat} (inside : digits < 16) (bb : Digit) :
    ∃ pfx', setNextBranchBits pfx (4 * digits) bb = .ok pfx' ∧
      ∀ j < 16, Digits.digit (toKey pfx') j = if j = digits then bb else Digits.digit (toKey pfx) j := by
  have offset : (((60 : Int) - (4 * digits : Nat)) % 256).toNat = 60 - 4 * digits := by omega
  refine ⟨_, by rw [setNextBranchBits, shiftCount_ok (by omega) (by omega), offset]; rfl, fun j bounded => ?_⟩
  have ones : ∀ k, (0x0F : BitVec 64).getLsbD k = decide (k < 4) := by
    intro k
    by_cases within : k < 64
    · revert k
      decide
    · rw [BitVec.getLsbD_of_ge _ _ (by omega), decide_eq_false (by omega)]
  have digit : ∀ d : Digit, nibble (BitVec.ofNat 64 d.val) 0 = d := by decide
  have small : ∀ k ≥ 4, (BitVec.ofNat 64 bb.val).getLsbD k = false := by
    intro k more
    have bound : bb.val < 2 ^ k := Nat.lt_of_lt_of_le bb.isLt (Nat.pow_le_pow_right (n := 2) (by decide) more)
    rw [BitVec.getLsbD_ofNat, Nat.testBit_lt_two_pow bound, Bool.and_false]
  rw [digit_toKey _ bounded, digit_toKey _ bounded]
  by_cases here : j = digits
  · rw [if_pos here, here, ← digit bb, nibble_eq_iff, digit bb]
    intro i low
    have position : 60 - 4 * digits + i < 64 := by omega
    simp only [BitVec.getLsbD_or, BitVec.getLsbD_and, BitVec.getLsbD_not, BitVec.getLsbD_shiftLeft, ones,
      Nat.add_sub_cancel_left, Nat.zero_add]
    simp [low, position]
  · rw [if_neg here, nibble_eq_iff]
    intro i low
    have position : 60 - 4 * j + i < 64 := by omega
    simp only [BitVec.getLsbD_or, BitVec.getLsbD_and, BitVec.getLsbD_not, BitVec.getLsbD_shiftLeft, ones]
    by_cases before : j < digits
    · have above : ¬ 60 - 4 * j + i - (60 - 4 * digits) < 4 := by omega
      have beyond := small (60 - 4 * j + i - (60 - 4 * digits)) (by omega)
      simp [position, above, beyond]
    · have after : 60 - 4 * j + i < 60 - 4 * digits := by omega
      simp [position, after]

end AccountIDPrefix

/-- The key of an account in the commitment trie. -/
def PrefixType.ofAccount (owner : AccountID) : Except String (PrefixType 8) :=
  writeUnsignedBigEndian PrefixType.zero owner 0

theorem PrefixType.ofAccount_spec (owner : AccountID) :
    ∃ p, PrefixType.ofAccount owner = .ok p ∧ p.toKey = AccountIDPrefix.toKey owner := by
  obtain ⟨p, stored, bytes⟩ := writeBigEndian_spec (PrefixType.zero (n := 8)) owner (show 8 + 0 ≤ 8 by decide)
  refine ⟨p, stored, ?_⟩
  apply Digits.ext_digit
  · rw [PrefixType.length_toKey, AccountIDPrefix.length_toKey]
  · intro j bounded
    rw [PrefixType.length_toKey] at bounded
    rw [PrefixType.digit_byte p bounded, bytes, if_pos (by omega), Nat.sub_zero, nibble_bigEndianByte owner (by omega)]
    rfl

/-- One result of the two key types: keys with the same digits, or the same exception. -/
def SameKey : Except PrefixFault AccountID → Except String (PrefixType 8) → Prop
  | .ok pfx, .ok p => AccountIDPrefix.toKey pfx = p.toKey
  | .error (.throws message), .error message' => message = message'
  | _, _ => False

/-- The operations of the two key types give the same results on two accounts at a length. -/
structure KeyTypesAgree (pfx other : AccountID) (p q : PrefixType 8) (selfLen otherLen len : Nat) (bb : Digit) : Prop where
  cut : SameKey (AccountIDPrefix.truncate pfx len) (p.truncate len)
  matchLen : AccountIDPrefix.getPrefixMatchLen pfx selfLen other otherLen = p.getPrefixMatchLen selfLen q otherLen
  branch : AccountIDPrefix.getBranchBits pfx len = (p.getBranchBits len).mapError .throws
  store : SameKey (AccountIDPrefix.setNextBranchBits pfx len bb) (p.setNextBranchBits len bb)

section Agree

variable {pfx other : AccountID} {p q : PrefixType 8} {digits : Nat}

theorem sameKey_truncate_iff (key : p.toKey = AccountIDPrefix.toKey pfx) (inside : digits ≤ 16) :
    SameKey (AccountIDPrefix.truncate pfx (4 * digits)) (p.truncate (4 * digits)) ↔ 0 < digits ∧ digits < 16 := by
  rw [AccountIDPrefix.truncate_spec pfx inside]
  by_cases none : digits = 0
  · subst none
    obtain ⟨p', cut, _⟩ := p.truncate_spec (show 0 < 2 * 8 by decide)
    rw [if_pos rfl, cut]
    exact ⟨False.elim, fun absurd => (Nat.lt_irrefl 0 absurd.1).elim⟩
  · rw [if_neg none]
    rcases inside.lt_or_eq with less | rfl
    · obtain ⟨p', cut, after⟩ := p.truncate_spec less
      rw [cut]
      refine ⟨fun _ => ⟨Nat.pos_of_ne_zero none, less⟩, fun _ => ?_⟩
      show AccountIDPrefix.toKey _ = p'.toKey
      rw [AccountIDPrefix.toKey_truncate pfx inside, after, key]
    · rw [((PrefixType.consistent p).beyond (4 * 16) (by decide)).2.1]
      exact ⟨False.elim, fun absurd => (Nat.lt_irrefl 16 absurd.2).elim⟩

/-- `set_next_branch_bits` clears the digit after the branch in one key type only. -/
theorem sameKey_setNextBranchBits_iff (key : p.toKey = AccountIDPrefix.toKey pfx) (inside : digits < 16) (bb : Digit) :
    SameKey (AccountIDPrefix.setNextBranchBits pfx (4 * digits) bb) (p.setNextBranchBits (4 * digits) bb) ↔
      (digits % 2 = 0 → Digits.digit (AccountIDPrefix.toKey pfx) (digits + 1) = 0) := by
  obtain ⟨pfx', stored, after⟩ := AccountIDPrefix.setNextBranchBits_spec pfx inside bb
  obtain ⟨p', stored', after'⟩ := p.setNextBranchBits_spec inside bb
  rw [stored, stored']
  show AccountIDPrefix.toKey pfx' = p'.toKey ↔ _
  constructor
  · intro same even
    have digit := congrArg (fun key => Digits.digit key (digits + 1)) same
    simp only [after _ (show digits + 1 < 16 by omega), after' _ (show digits + 1 < 2 * 8 by omega)] at digit
    rwa [if_neg (by omega), if_neg (by omega), if_pos ⟨even, trivial⟩] at digit
  · intro cleared
    apply Digits.ext_digit (by simp)
    intro j bounded
    rw [AccountIDPrefix.length_toKey] at bounded
    rw [after j bounded, after' j bounded, key]
    by_cases here : j = digits
    · rw [if_pos here, if_pos here]
    · rw [if_neg here, if_neg here]
      by_cases next : digits % 2 = 0 ∧ j = digits + 1
      · rw [if_pos next, next.2, cleared next.1]
      · rw [if_neg next]

/-- The two key types agree, except at the length 0, where `AccountIDPrefix` shifts by the full width, at the full
length, where it misses the guards of `prefix_type`, and at whole bytes, when `prefix_type` clears a digit that is set. -/
theorem keyTypesAgree_iff (pfx other : AccountID) (selfLen otherLen : Nat) (inside : digits ≤ 16) (bb : Digit) :
    ∃ p q, PrefixType.ofAccount pfx = .ok p ∧ PrefixType.ofAccount other = .ok q ∧
      (KeyTypesAgree pfx other p q selfLen otherLen (4 * digits) bb ↔
        (0 < digits ∧ digits < 16) ∧ (digits % 2 = 0 → Digits.digit (AccountIDPrefix.toKey pfx) (digits + 1) = 0)) := by
  obtain ⟨p, stored, key⟩ := PrefixType.ofAccount_spec pfx
  obtain ⟨q, stored', key'⟩ := PrefixType.ofAccount_spec other
  refine ⟨p, q, stored, stored', ?_⟩
  constructor
  · intro agree
    have cut := (sameKey_truncate_iff key inside).mp agree.cut
    exact ⟨cut, (sameKey_setNextBranchBits_iff key cut.2 bb).mp agree.store⟩
  · intro ⟨cut, cleared⟩
    refine ⟨(sameKey_truncate_iff key inside).mpr cut, ?_, ?_, (sameKey_setNextBranchBits_iff key cut.2 bb).mpr cleared⟩
    · rw [AccountIDPrefix.getPrefixMatchLen_spec, p.getPrefixMatchLen_spec, key, key']
    · rw [AccountIDPrefix.getBranchBits_spec pfx cut.2, p.getBranchBits_spec cut.2, key]
      rfl

theorem keyTypesAgree_sample : ∃ p q, PrefixType.ofAccount 7 = .ok p ∧ PrefixType.ofAccount 12 = .ok q ∧
    (KeyTypesAgree 7 12 p q 64 64 (4 * 15) 3 ↔
      (0 < 15 ∧ 15 < 16) ∧ (15 % 2 = 0 → Digits.digit (AccountIDPrefix.toKey 7) (15 + 1) = 0)) :=
  keyTypesAgree_iff 7 12 64 64 (by decide) 3

/-- Truncation to the empty prefix, which a new root needs. -/
theorem truncate_to_nothing : AccountIDPrefix.truncate 7 0 = .error (.undefined .shiftPastWidth) ∧
    ∃ p p', PrefixType.ofAccount 7 = .ok p ∧ p.truncate 0 = .ok p' ∧ p'.toKey = List.replicate 16 0 := by
  obtain ⟨p, stored, key⟩ := PrefixType.ofAccount_spec 7
  obtain ⟨p', cut, after⟩ := p.truncate_spec (show 0 < 2 * 8 by decide)
  refine ⟨rfl, p, p', stored, cut, ?_⟩
  rw [after, key]
  rfl

end Agree

end Speedex
