import Mathlib.Data.Set.Insert
import Speedex.Ledger.Account

set_option autoImplicit false

/- Replay protection: the 64 bits of an account stand for the sequence numbers after its last committed
one, and a number committed once is never accepted again. -/
namespace Speedex

namespace UserAccount

/-- What `check_tx_format_parameters` asks of a sequence number. -/
def Aligned (sequenceNumber : BitVec 64) : Prop := sequenceNumber.toNat % 256 = 0

/-- The 64 numbers an account accepts. -/
def InWindow (lastCommittedId sequenceNumber : BitVec 64) : Prop :=
  lastCommittedId.toNat < sequenceNumber.toNat ∧ sequenceNumber.toNat ≤ lastCommittedId.toNat + 64 * 256

/-- The bit that stands for a number of the window. -/
def windowBit (lastCommittedId sequenceNumber : BitVec 64) : Nat :=
  (sequenceNumber.toNat - lastCommittedId.toNat) / 256 - 1

/-- A number above the window that the narrowing to `uint8_t` maps to a bit of it. -/
def Aliased (lastCommittedId sequenceNumber : BitVec 64) : Prop :=
  lastCommittedId.toNat + 64 * 256 < sequenceNumber.toNat ∧ windowBit lastCommittedId sequenceNumber % 256 < 64

/-- The number is reserved in the current block. -/
def Reserves (account : UserAccount) (sequenceNumber : BitVec 64) : Prop :=
  Aligned sequenceNumber ∧ InWindow account.lastCommittedId sequenceNumber ∧
    account.sequenceNumberVec.getLsbD (windowBit account.lastCommittedId sequenceNumber) = true

section Offset

variable {lastCommittedId sequenceNumber : BitVec 64}

theorem getSeqNumOffset_toNat (last : Aligned lastCommittedId) (aligned : Aligned sequenceNumber)
    (above : lastCommittedId.toNat < sequenceNumber.toNat) :
    (getSeqNumOffset sequenceNumber lastCommittedId).toNat = windowBit lastCommittedId sequenceNumber % 256 := by
  have width := sequenceNumber.isLt
  have gap : (sequenceNumber - lastCommittedId).toNat = sequenceNumber.toNat - lastCommittedId.toNat := by
    rw [BitVec.toNat_sub]
    omega
  have quotient : ((sequenceNumber - lastCommittedId) / maxOpsPerTx).toNat =
      (sequenceNumber.toNat - lastCommittedId.toNat) / 256 := by
    rw [BitVec.toNat_udiv, gap]
    rfl
  have one : (1 : BitVec 64).toNat = 1 := rfl
  unfold Aligned at last aligned
  rw [getSeqNumOffset, BitVec.toNat_setWidth, BitVec.toNat_sub, quotient, one, windowBit]
  omega

/-- In the window distinct numbers have distinct bits. -/
theorem windowBit_injective {sequenceNumber' : BitVec 64} (last : Aligned lastCommittedId)
    (aligned : Aligned sequenceNumber) (aligned' : Aligned sequenceNumber')
    (above : lastCommittedId.toNat < sequenceNumber.toNat) (above' : lastCommittedId.toNat < sequenceNumber'.toNat)
    (same : windowBit lastCommittedId sequenceNumber = windowBit lastCommittedId sequenceNumber') :
    sequenceNumber = sequenceNumber' := by
  unfold Aligned at last aligned aligned'
  unfold windowBit at same
  refine BitVec.eq_of_toNat_eq ?_
  omega

theorem windowBit_lt (last : Aligned lastCommittedId) (aligned : Aligned sequenceNumber)
    (inside : InWindow lastCommittedId sequenceNumber) : windowBit lastCommittedId sequenceNumber < 64 := by
  obtain ⟨above, below⟩ := inside
  unfold Aligned at last aligned
  unfold windowBit
  omega

/-- Without the narrowing the offset tells whether a number is in the window. -/
theorem offset_lt_iff (last : Aligned lastCommittedId) (aligned : Aligned sequenceNumber)
    (above : lastCommittedId.toNat < sequenceNumber.toNat) (unaliased : ¬ Aliased lastCommittedId sequenceNumber) :
    (getSeqNumOffset sequenceNumber lastCommittedId).toNat < 64 ↔ InWindow lastCommittedId sequenceNumber := by
  rw [getSeqNumOffset_toNat last aligned above]
  constructor
  · intro low
    refine ⟨above, not_lt.mp (fun high => unaliased ⟨high, low⟩)⟩
  · intro inside
    have small := windowBit_lt last aligned inside
    omega

theorem offset_eq (last : Aligned lastCommittedId) (aligned : Aligned sequenceNumber)
    (inside : InWindow lastCommittedId sequenceNumber) :
    (getSeqNumOffset sequenceNumber lastCommittedId).toNat = windowBit lastCommittedId sequenceNumber := by
  have small := windowBit_lt last aligned inside
  rw [getSeqNumOffset_toNat last aligned inside.1]
  omega

end Offset

section Calls

variable {account account' : UserAccount} {sequenceNumber : BitVec 64}

theorem getLsbD_mask {i : Nat} (room : i < 64) (j : Nat) : ((1 : BitVec 64) <<< i).getLsbD j = decide (j = i) := by
  rw [show (1 : BitVec 64) = 1#64 from rfl, ← BitVec.twoPow_eq, BitVec.getLsbD_twoPow]
  simp [room, eq_comm]

theorem and_mask_eq_zero_iff {bits : BitVec 64} {i : Nat} (room : i < 64) :
    bits &&& (1 : BitVec 64) <<< i = 0 ↔ bits.getLsbD i = false := by
  constructor
  · intro bare
    have bit := congrArg (fun b : BitVec 64 => b.getLsbD i) bare
    rw [BitVec.getLsbD_and, getLsbD_mask room] at bit
    simpa using bit
  · intro clear
    refine BitVec.eq_of_getLsbD_eq (fun j _ => ?_)
    rw [BitVec.getLsbD_and, getLsbD_mask room]
    by_cases here : j = i
    · rw [here, clear]
      simp
    · simp [here]

/-- `reserve_sequence_number` on a number that the narrowing does not alias. -/
theorem reserveSequenceNumber_spec (last : Aligned account.lastCommittedId) (aligned : Aligned sequenceNumber)
    (unaliased : ¬ Aliased account.lastCommittedId sequenceNumber) :
    (¬ InWindow account.lastCommittedId sequenceNumber ∧ (account.reserveSequenceNumber sequenceNumber).1 = account ∧
      (account.reserveSequenceNumber sequenceNumber).2 ≠ .success) ∨
    (InWindow account.lastCommittedId sequenceNumber ∧
      (account.reserveSequenceNumber sequenceNumber).1 = { account with
        sequenceNumberVec :=
          account.sequenceNumberVec ||| (1 : BitVec 64) <<< windowBit account.lastCommittedId sequenceNumber } ∧
      ((account.reserveSequenceNumber sequenceNumber).2 = .success ↔ ¬ account.Reserves sequenceNumber)) := by
  rw [reserveSequenceNumber]
  by_cases above : account.lastCommittedId.toNat < sequenceNumber.toNat
  · have low : ¬ sequenceNumber.ule account.lastCommittedId = true := by
      rw [BitVec.ule_iff_le, BitVec.le_def]
      omega
    rw [if_neg low]
    by_cases inside : InWindow account.lastCommittedId sequenceNumber
    · have small := windowBit_lt last aligned inside
      have offset := offset_eq last aligned inside
      right
      simp only [offset, ge_iff_le]
      rw [if_neg (by omega)]
      by_cases taken : account.sequenceNumberVec &&& (1 : BitVec 64) <<< windowBit account.lastCommittedId sequenceNumber = 0
      · rw [if_neg (not_not.mpr taken)]
        refine ⟨inside, rfl, ⟨fun _ reserved => ?_, fun _ => rfl⟩⟩
        have bit := reserved.2.2
        rw [(and_mask_eq_zero_iff small).mp taken] at bit
        cases bit
      · rw [if_pos taken]
        refine ⟨inside, rfl, ⟨nofun, fun free => (free ⟨aligned, inside, ?_⟩).elim⟩⟩
        rw [and_mask_eq_zero_iff small, Bool.not_eq_false] at taken
        exact taken
    · have high : ¬ (getSeqNumOffset sequenceNumber account.lastCommittedId).toNat < 64 :=
        fun small => inside ((offset_lt_iff last aligned above unaliased).mp small)
      left
      simp only
      rw [if_pos (not_lt.mp high)]
      exact ⟨inside, rfl, nofun⟩
  · have low : sequenceNumber.ule account.lastCommittedId = true := by
      rw [BitVec.ule_iff_le, BitVec.le_def]
      omega
    left
    rw [if_pos low]
    exact ⟨fun inside => above inside.1, rfl, nofun⟩

/-- `release_sequence_number` on a number that the narrowing does not alias. -/
theorem releaseSequenceNumber_spec (last : Aligned account.lastCommittedId) (aligned : Aligned sequenceNumber)
    (unaliased : ¬ Aliased account.lastCommittedId sequenceNumber) :
    account.releaseSequenceNumber sequenceNumber = .ok account' ↔
      InWindow account.lastCommittedId sequenceNumber ∧ account' = { account with
        sequenceNumberVec :=
          account.sequenceNumberVec &&& ~~~((1 : BitVec 64) <<< windowBit account.lastCommittedId sequenceNumber) } := by
  rw [releaseSequenceNumber]
  by_cases above : account.lastCommittedId.toNat < sequenceNumber.toNat
  · have low : ¬ sequenceNumber.ule account.lastCommittedId = true := by
      rw [BitVec.ule_iff_le, BitVec.le_def]
      omega
    rw [if_neg low]
    by_cases inside : InWindow account.lastCommittedId sequenceNumber
    · have small := windowBit_lt last aligned inside
      have offset := offset_eq last aligned inside
      simp only [offset, ge_iff_le]
      rw [if_neg (by omega), Except.ok.injEq]
      exact ⟨fun same => ⟨inside, same.symm⟩, fun both => both.2.symm⟩
    · have high : ¬ (getSeqNumOffset sequenceNumber account.lastCommittedId).toNat < 64 :=
        fun small => inside ((offset_lt_iff last aligned above unaliased).mp small)
      simp only
      rw [if_pos (not_lt.mp high)]
      exact ⟨nofun, fun both => (inside both.1).elim⟩
  · have low : sequenceNumber.ule account.lastCommittedId = true := by
      rw [BitVec.ule_iff_le, BitVec.le_def]
      omega
    rw [if_pos low]
    exact ⟨nofun, fun both => (above both.1.1).elim⟩

theorem reserves_of_reserved {sequenceNumber' : BitVec 64} (last : Aligned account.lastCommittedId)
    (aligned : Aligned sequenceNumber) (inside : InWindow account.lastCommittedId sequenceNumber)
    (bits : account' = { account with sequenceNumberVec :=
      account.sequenceNumberVec ||| (1 : BitVec 64) <<< windowBit account.lastCommittedId sequenceNumber }) :
    account'.Reserves sequenceNumber' ↔ account.Reserves sequenceNumber' ∨ sequenceNumber' = sequenceNumber := by
  subst bits
  have small := windowBit_lt last aligned inside
  unfold Reserves
  simp only [BitVec.getLsbD_or, getLsbD_mask small, Bool.or_eq_true, decide_eq_true_eq]
  constructor
  · rintro ⟨aligned', inside', old | same⟩
    · exact Or.inl ⟨aligned', inside', old⟩
    · exact Or.inr (windowBit_injective last aligned' aligned inside'.1 inside.1 same)
  · rintro (⟨aligned', inside', old⟩ | rfl)
    · exact ⟨aligned', inside', Or.inl old⟩
    · exact ⟨aligned, inside, Or.inr rfl⟩

theorem reserves_of_released {sequenceNumber' : BitVec 64} (last : Aligned account.lastCommittedId)
    (aligned : Aligned sequenceNumber) (inside : InWindow account.lastCommittedId sequenceNumber)
    (bits : account' = { account with sequenceNumberVec :=
      account.sequenceNumberVec &&& ~~~((1 : BitVec 64) <<< windowBit account.lastCommittedId sequenceNumber) }) :
    account'.Reserves sequenceNumber' ↔ account.Reserves sequenceNumber' ∧ sequenceNumber' ≠ sequenceNumber := by
  subst bits
  have small := windowBit_lt last aligned inside
  unfold Reserves
  constructor
  · rintro ⟨aligned', inside', kept⟩
    rw [BitVec.getLsbD_and, BitVec.getLsbD_not, getLsbD_mask small] at kept
    refine ⟨⟨aligned', inside', (Bool.and_eq_true_iff.mp kept).1⟩, ?_⟩
    rintro rfl
    simp at kept
  · rintro ⟨⟨aligned', inside', bit⟩, other⟩
    have apart : windowBit account.lastCommittedId sequenceNumber' ≠ windowBit account.lastCommittedId sequenceNumber :=
      fun same => other (windowBit_injective last aligned' aligned inside'.1 inside.1 same)
    have small' := windowBit_lt last aligned' inside'
    refine ⟨aligned', inside', ?_⟩
    rw [BitVec.getLsbD_and, BitVec.getLsbD_not, getLsbD_mask small]
    simp [bit, apart, small']

end Calls

section Commit

variable {bits : BitVec 64}

/-- The increment of a commit is the position after the highest bit. -/
theorem getSeqNumIncrement_spec (some : bits ≠ 0) : ∃ i < 64, bits.getLsbD i = true ∧
    (∀ j, bits.getLsbD j = true → j ≤ i) ∧ (getSeqNumIncrement bits).toNat = (i + 1) * 256 := by
  have below := BitVec.clz_lt_iff_ne_zero.mpr some
  have count : bits.clz.toNat < 64 := BitVec.lt_def.mp below
  refine ⟨63 - bits.clz.toNat, by omega, ?_, fun j bit => ?_, ?_⟩
  · exact BitVec.getLsbD_true_clz_of_ne_zero (by decide) some
  · have small := BitVec.toNat_lt_two_pow_sub_clz (x := bits)
    by_contra high
    have clear : bits.getLsbD j = false := by
      rw [BitVec.getLsbD, Nat.testBit_lt_two_pow]
      exact lt_of_lt_of_le small (Nat.pow_le_pow_right (by decide) (by omega))
    rw [clear] at bit
    cases bit
  · have difference : (64 - bits.clz).toNat = 64 - bits.clz.toNat := by
      rw [BitVec.toNat_sub, show (64 : BitVec 64).toNat = 64 from rfl]
      omega
    rw [getSeqNumIncrement, if_neg some, BitVec.toNat_mul, difference, show maxOpsPerTx.toNat = 256 from rfl]
    omega

end Commit

/-- The calls seen so far: the numbers reserved in the current block and those reserved at a commit. -/
structure SequenceHistory where
  reserved : Set (BitVec 64)
  committed : Set (BitVec 64)

/-- Runs of calls on an account. `allowed` restricts the numbers that calls are made with, by the last
committed id that they meet. -/
inductive SequenceRun (allowed : BitVec 64 → BitVec 64 → Prop) (start : UserAccount) :
    UserAccount → SequenceHistory → Prop
  | start : SequenceRun allowed start start ⟨{sequenceNumber | start.Reserves sequenceNumber}, ∅⟩
  | reserve {account : UserAccount} {history : SequenceHistory} {sequenceNumber : BitVec 64}
      (run : SequenceRun allowed start account history) (aligned : Aligned sequenceNumber)
      (call : allowed account.lastCommittedId sequenceNumber) :
      SequenceRun allowed start (account.reserveSequenceNumber sequenceNumber).1
        ⟨if (account.reserveSequenceNumber sequenceNumber).2 = .success then insert sequenceNumber history.reserved
          else history.reserved, history.committed⟩
  | release {account account' : UserAccount} {history : SequenceHistory} {sequenceNumber : BitVec 64}
      (run : SequenceRun allowed start account history) (aligned : Aligned sequenceNumber)
      (call : allowed account.lastCommittedId sequenceNumber)
      (done : account.releaseSequenceNumber sequenceNumber = .ok account') :
      SequenceRun allowed start account' ⟨history.reserved \ {sequenceNumber}, history.committed⟩
  | commit {account : UserAccount} {history : SequenceHistory} (run : SequenceRun allowed start account history) :
      SequenceRun allowed start account.commit ⟨∅, history.committed ∪ history.reserved⟩
  | rollback {account : UserAccount} {history : SequenceHistory} (run : SequenceRun allowed start account history) :
      SequenceRun allowed start account.rollback ⟨∅, history.committed⟩

/-- The bits that are set stand for 64 bit numbers; between blocks none is set. -/
def Room (account : UserAccount) : Prop :=
  ∀ i, account.sequenceNumberVec.getLsbD i = true → account.lastCommittedId.toNat + (i + 1) * 256 < 2 ^ 64

/-- The account agrees with its history. -/
structure Tracks (account : UserAccount) (history : SequenceHistory) : Prop where
  last : Aligned account.lastCommittedId
  room : account.Room
  reserved : ∀ sequenceNumber, sequenceNumber ∈ history.reserved ↔ account.Reserves sequenceNumber
  committed : ∀ sequenceNumber ∈ history.committed, sequenceNumber.toNat ≤ account.lastCommittedId.toNat

section Run

variable {account account' : UserAccount} {history : SequenceHistory} {sequenceNumber : BitVec 64}

theorem Tracks.reserve (tracks : Tracks account history) (aligned : Aligned sequenceNumber)
    (unaliased : ¬ Aliased account.lastCommittedId sequenceNumber) :
    Tracks (account.reserveSequenceNumber sequenceNumber).1
      ⟨if (account.reserveSequenceNumber sequenceNumber).2 = .success then insert sequenceNumber history.reserved
        else history.reserved, history.committed⟩ := by
  rcases reserveSequenceNumber_spec tracks.last aligned unaliased with ⟨-, same, rejected⟩ | ⟨inside, bits, accepted⟩
  · rw [same, if_neg rejected]
    exact tracks
  · have reserves := fun other => @reserves_of_reserved _ _ _ other tracks.last aligned inside bits
    have small := windowBit_lt tracks.last aligned inside
    refine ⟨?_, fun i bit => ?_, fun other => ?_, ?_⟩
    · rw [bits]
      exact tracks.last
    · rw [bits, BitVec.getLsbD_or, getLsbD_mask small, Bool.or_eq_true, decide_eq_true_eq] at bit
      rw [bits]
      rcases bit with old | rfl
      · exact tracks.room i old
      · have width := sequenceNumber.isLt
        have last := tracks.last
        obtain ⟨above, -⟩ := inside
        unfold Aligned at last aligned
        show account.lastCommittedId.toNat + _ < 2 ^ 64
        unfold windowBit
        omega
    · rw [reserves]
      by_cases success : (account.reserveSequenceNumber sequenceNumber).2 = .success
      · simp only [if_pos success, Set.mem_insert_iff, tracks.reserved, or_comm]
      · have taken : account.Reserves sequenceNumber := not_not.mp (fun free => success (accepted.mpr free))
        simp only [if_neg success, tracks.reserved]
        exact ⟨Or.inl, fun either => either.elim id (fun same => same ▸ taken)⟩
    · rw [bits]
      exact tracks.committed

theorem Tracks.release (tracks : Tracks account history) (aligned : Aligned sequenceNumber)
    (unaliased : ¬ Aliased account.lastCommittedId sequenceNumber)
    (done : account.releaseSequenceNumber sequenceNumber = .ok account') :
    Tracks account' ⟨history.reserved \ {sequenceNumber}, history.committed⟩ := by
  obtain ⟨inside, bits⟩ := (releaseSequenceNumber_spec tracks.last aligned unaliased).mp done
  have small := windowBit_lt tracks.last aligned inside
  have reserves := fun other => @reserves_of_released _ _ _ other tracks.last aligned inside bits
  refine ⟨?_, fun i bit => ?_, fun other => ?_, ?_⟩
  · rw [bits]
    exact tracks.last
  · rw [bits, BitVec.getLsbD_and] at bit
    rw [bits]
    exact tracks.room i (Bool.and_eq_true_iff.mp bit).1
  · rw [reserves, Set.mem_sdiff, tracks.reserved, Set.mem_singleton_iff]
  · rw [bits]
    exact tracks.committed

/-- A commit moves the last committed id to the highest number reserved. -/
theorem commit_lastCommittedId (last : Aligned account.lastCommittedId) (room : account.Room) :
    Aligned account.commit.lastCommittedId ∧ account.lastCommittedId.toNat ≤ account.commit.lastCommittedId.toNat ∧
      ∀ sequenceNumber, account.Reserves sequenceNumber → sequenceNumber.toNat ≤ account.commit.lastCommittedId.toNat := by
  by_cases bare : account.sequenceNumberVec = 0
  · have same : account.commit.lastCommittedId = account.lastCommittedId := by
      rw [commit, bare, getSeqNumIncrement, if_pos rfl]
      exact BitVec.add_zero _
    rw [same]
    refine ⟨last, le_refl _, fun sequenceNumber reserved => ?_⟩
    have bit := reserved.2.2
    rw [bare] at bit
    simp at bit
  · obtain ⟨i, inside, top, highest, increment⟩ := getSeqNumIncrement_spec bare
    have fits := room i top
    have moved : account.commit.lastCommittedId.toNat = account.lastCommittedId.toNat + (i + 1) * 256 := by
      rw [commit, BitVec.toNat_add, increment]
      exact Nat.mod_eq_of_lt fits
    unfold Aligned at last ⊢
    rw [moved]
    refine ⟨by omega, by omega, fun sequenceNumber reserved => ?_⟩
    obtain ⟨aligned, ⟨above, -⟩, bit⟩ := reserved
    have low := highest _ bit
    unfold Aligned at aligned
    unfold windowBit at low
    omega

theorem not_reserves_of_clear (clear : account.sequenceNumberVec = 0) : ¬ account.Reserves sequenceNumber := by
  rintro ⟨-, -, bit⟩
  rw [clear] at bit
  simp at bit

theorem room_of_clear (clear : account.sequenceNumberVec = 0) : account.Room := by
  intro i bit
  rw [clear] at bit
  simp at bit

theorem Tracks.commit (tracks : Tracks account history) :
    Tracks account.commit ⟨∅, history.committed ∪ history.reserved⟩ := by
  obtain ⟨last, higher, covers⟩ := commit_lastCommittedId tracks.last tracks.room
  refine ⟨last, room_of_clear rfl, fun other => ?_, ?_⟩
  · exact iff_of_false (Set.notMem_empty other) (not_reserves_of_clear rfl)
  · rintro other (old | new)
    · exact (tracks.committed other old).trans higher
    · exact covers other ((tracks.reserved other).mp new)

theorem Tracks.rollback (tracks : Tracks account history) : Tracks account.rollback ⟨∅, history.committed⟩ :=
  ⟨tracks.last, room_of_clear rfl, fun other => iff_of_false (Set.notMem_empty other) (not_reserves_of_clear rfl),
    tracks.committed⟩

/-- Every call keeps the account in agreement with its history. -/
theorem SequenceRun.tracks {start : UserAccount}
    (run : SequenceRun (fun last sequenceNumber => ¬ Aliased last sequenceNumber) start account history)
    (last : Aligned start.lastCommittedId) (room : start.Room) : Tracks account history := by
  induction run with
  | start => exact ⟨last, room, fun _ => Iff.rfl, fun _ => False.elim⟩
  | reserve run aligned call ih => exact ih.reserve aligned call
  | release run aligned call done ih => exact ih.release aligned call done
  | commit run ih => exact ih.commit
  | rollback run ih => exact ih.rollback

end Run

/-- What replay protection promises about an account after the calls in `history`. -/
structure ReplayProtected (allowed : BitVec 64 → BitVec 64 → Prop) (account : UserAccount) (history : SequenceHistory) :
    Prop where
  reserve : ∀ sequenceNumber, Aligned sequenceNumber → allowed account.lastCommittedId sequenceNumber →
    ((account.reserveSequenceNumber sequenceNumber).2 = .success ↔
      InWindow account.lastCommittedId sequenceNumber ∧ sequenceNumber ∉ history.reserved)
  release : ∀ sequenceNumber, Aligned sequenceNumber → allowed account.lastCommittedId sequenceNumber →
    sequenceNumber ∈ history.reserved → ∃ account', account.releaseSequenceNumber sequenceNumber = .ok account' ∧
      account'.lastCommittedId = account.lastCommittedId ∧
      ∀ other, account'.Reserves other ↔ account.Reserves other ∧ other ≠ sequenceNumber
  committed : ∀ sequenceNumber ∈ history.committed, (account.reserveSequenceNumber sequenceNumber).2 ≠ .success

section Claim

variable {start account : UserAccount} {history : SequenceHistory}

/-- No sequence number is used twice, as long as no call is made with a number that the narrowing to
`uint8_t` maps back into the window. -/
theorem replayProtected_of_run
    (run : SequenceRun (fun last sequenceNumber => ¬ Aliased last sequenceNumber) start account history)
    (last : Aligned start.lastCommittedId) (room : start.Room) :
    ReplayProtected (fun last sequenceNumber => ¬ Aliased last sequenceNumber) account history := by
  have tracks := run.tracks last room
  refine ⟨fun sequenceNumber aligned unaliased => ?_, fun sequenceNumber aligned unaliased listed => ?_,
    fun sequenceNumber used => ?_⟩
  · rw [tracks.reserved]
    rcases reserveSequenceNumber_spec tracks.last aligned unaliased with ⟨outside, -, rejected⟩ | ⟨inside, -, accepted⟩
    · exact iff_of_false rejected (fun both => outside both.1)
    · rw [accepted]
      exact ⟨fun free => ⟨inside, free⟩, fun both => both.2⟩
  · have inside := ((tracks.reserved sequenceNumber).mp listed).2.1
    have done := (releaseSequenceNumber_spec tracks.last aligned unaliased).mpr ⟨inside, rfl⟩
    exact ⟨_, done, rfl, fun other => reserves_of_released tracks.last aligned inside rfl⟩
  · have low : sequenceNumber.ule account.lastCommittedId = true := by
      rw [BitVec.ule_iff_le, BitVec.le_def]
      exact tracks.committed sequenceNumber used
    rw [reserveSequenceNumber, if_pos low]
    nofun

theorem replayProtected_sample : ∃ history,
    SequenceRun (fun last sequenceNumber => ¬ Aliased last sequenceNumber) (UserAccount.new 7 [])
      ((UserAccount.new 7 []).reserveSequenceNumber 256).1.commit history ∧
    ReplayProtected (fun last sequenceNumber => ¬ Aliased last sequenceNumber)
      ((UserAccount.new 7 []).reserveSequenceNumber 256).1.commit history := by
  have fresh : SequenceRun (fun last sequenceNumber => ¬ Aliased last sequenceNumber) (UserAccount.new 7 []) _ _ :=
    .start
  have aligned : Aligned 256 := rfl
  have run := (fresh.reserve aligned (fun aliased => absurd aliased.1 (by decide))).commit
  exact ⟨_, run, replayProtected_of_run run rfl (room_of_clear rfl)⟩

/-- The number of the 257th transaction is accepted for a fresh account, committed as the number of the first
transaction, and accepted again once the window has moved up to it. -/
theorem sequence_number_used_twice : ¬ ∀ {start account : UserAccount} {history : SequenceHistory},
    SequenceRun (fun _ _ => True) start account history → Aligned start.lastCommittedId → start.Room →
    ReplayProtected (fun _ _ => True) account history := by
  intro claim
  have fresh : SequenceRun (fun _ _ => True) (UserAccount.new 7 []) _ _ := .start
  have first : Aligned 65792 := rfl
  have second : Aligned 16640 := rfl
  have third : Aligned 33024 := rfl
  have fourth : Aligned 49408 := rfl
  have moved := ((((fresh.reserve first trivial).commit.reserve second trivial).commit.reserve third
    trivial).commit.reserve fourth trivial).commit
  have used : (65792 : BitVec 64) ∈ (if ((UserAccount.new 7 []).reserveSequenceNumber (65792)).2 = .success
      then insert (65792 : BitVec 64) {s | (UserAccount.new 7 []).Reserves s}
      else {s | (UserAccount.new 7 []).Reserves s}) := by
    rw [if_pos (by decide)]
    exact Set.mem_insert _ _
  have rejected := (claim moved rfl (room_of_clear rfl)).committed (65792)
    (Or.inl (Or.inl (Or.inl (Or.inr used))))
  exact rejected (by decide)

end Claim

end UserAccount

end Speedex
