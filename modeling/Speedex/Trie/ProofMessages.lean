import Speedex.Trie.Proofs

set_option autoImplicit false

/- The messages of a trie and the messages of a proof. The hash of a subtree is the hash of the message at
the place where its keys part; a proof node spells that message out for the key it is about. -/
namespace Speedex

open Branches Bytes

section Forks

variable {V : Type} [HashedValue V]

/-- A place where live keys part, or a whole live key. -/
structure Fork (keyLen : Nat) (live : Key → Option V) (front : Key) : Prop where
  occupied : Occupied live front
  inside : front.length ≤ keyLen
  parts : front.length < keyLen → ∃ d d', d ≠ d' ∧ Occupied live (front ++ [d]) ∧ Occupied live (front ++ [d'])

/-- The place where the live keys below some digits first part. -/
structure ForkBelow (keyLen : Nat) (live : Key → Option V) (front goal : Key) : Prop where
  fork : Fork keyLen live goal
  starts : goal.take front.length = front
  all : ∀ key, live key ≠ none → key.take front.length = front → key.take goal.length = goal

/-- The message that is hashed where keys part. -/
noncomputable def forkMessage (sha : Sha256) (keyLen : Nat) (live : Key → Option V) (front : Key) : List Byte :=
  if front.length = keyLen then ((live front).map (leafDigest (headerOf front))).getD []
  else branchDigest (headerOf front) (childHashes sha keyLen live front)

variable {sha : Sha256} {keyLen : Nat} {live : Key → Option V} {front goal : Key}

omit [HashedValue V] in
theorem ForkBelow.refl (fork : Fork keyLen live front) : ForkBelow keyLen live front front :=
  ⟨fork, List.take_length, fun _ _ below => below⟩

omit [HashedValue V] in
/-- A key that goes on below some digits has a next one. -/
theorem next_digit {key : Key} (below : key.take front.length = front) (more : front.length < key.length) :
    key.take (front ++ [Digits.digit key front.length]).length = front ++ [Digits.digit key front.length] := by
  rw [List.length_append, List.length_singleton, Digits.take_succ_digit more, below]

omit [HashedValue V] in
theorem exists_forkBelow (full : ∀ key, live key ≠ none → key.length = keyLen) (some : Occupied live front)
    (inside : front.length ≤ keyLen) : ∃ goal, ForkBelow keyLen live front goal := by
  obtain ⟨gap, lengths⟩ : ∃ gap, keyLen = front.length + gap := ⟨keyLen - front.length, by omega⟩
  induction gap generalizing front with
  | zero => exact ⟨front, .refl ⟨some, inside, fun short => by omega⟩⟩
  | succ gap ih =>
    obtain ⟨key, present, below⟩ := id some
    have more : front.length < key.length := by
      rw [full key present]
      omega
    have next := next_digit below more
    have here : Occupied live (front ++ [Digits.digit key front.length]) := ⟨key, present, next⟩
    by_cases single : ∀ d, Occupied live (front ++ [d]) → d = Digits.digit key front.length
    · obtain ⟨goal, fork, starts, all⟩ := ih here (by rw [List.length_append, List.length_singleton]; omega)
        (by rw [List.length_append, List.length_singleton]; omega)
      refine ⟨goal, fork, take_of_take_append starts, fun other present below => all other present ?_⟩
      have more : front.length < other.length := by
        rw [full other present]
        omega
      have next := next_digit below more
      rw [single _ ⟨other, present, next⟩] at next
      exact next
    · obtain ⟨d, there, apart⟩ : ∃ d, Occupied live (front ++ [d]) ∧ d ≠ Digits.digit key front.length := by
        simpa using single
      exact ⟨front, .refl ⟨some, inside, fun _ => ⟨d, _, apart, there, here⟩⟩⟩

/-- Two children make a message of their own. -/
theorem branchHash_fork {header : List Byte} {hashes : Fin 16 → Option Hash} {d d' : Digit} (apart : d ≠ d')
    (left : hashes d ≠ none) (right : hashes d' ≠ none) :
    branchHash sha header hashes = sha.digest (branchDigest header hashes) := by
  have two := two_le_occupied apart left right
  unfold branchHash
  split
  · exact if_neg (by omega)
  · rfl

/-- The hash of the contents below some digits. -/
theorem ForkBelow.contentsHash_eq (full : ∀ key, live key ≠ none → key.length = keyLen)
    (below : ForkBelow keyLen live front goal) :
    contentsHash sha live (keyLen - front.length) front = sha.digest (forkMessage sha keyLen live goal) := by
  have inside := below.fork.inside
  have longer : front.length ≤ goal.length := by
    have cut := congrArg List.length below.starts
    rw [List.length_take] at cut
    omega
  rw [show keyLen - front.length = (keyLen - goal.length) + (goal.length - front.length) by omega,
    @contentsHash_extend _ _ _ _ _ _ _ goal (by omega) below.starts below.fork.occupied below.all, forkMessage]
  by_cases whole : goal.length = keyLen
  · obtain ⟨key, present, same⟩ := below.fork.occupied
    rw [List.take_of_length_le (by rw [full key present]; omega)] at same
    obtain ⟨value, here⟩ := Option.ne_none_iff_exists'.mp present
    rw [if_pos whole, whole, Nat.sub_self, contentsHash, ← same, here]
    rfl
  · obtain ⟨d, d', apart, left, right⟩ := below.fork.parts (by omega)
    rw [if_neg whole, show keyLen - goal.length = (keyLen - (goal.length + 1)) + 1 by omega, contentsHash]
    exact branchHash_fork apart (by rw [if_pos left]; simp) (by rw [if_pos right]; simp)

end Forks

section Headers

/-- A message is told apart by the digits of its header and what follows them. -/
theorem headerOf_append_inj {front front' : Key} {rest rest' : List Byte} (small : 4 * front.length < 2 ^ 16)
    (small' : 4 * front'.length < 2 ^ 16) :
    headerOf front ++ rest = headerOf front' ++ rest' ↔ front = front' ∧ rest = rest' := by
  constructor
  · intro same
    rw [headerOf, headerOf, List.append_assoc, List.append_assoc] at same
    obtain ⟨lengths, same⟩ := List.append_inj same (by rw [Bytes.length_bigEndian, Bytes.length_bigEndian])
    have lengths : front.length = front'.length := by
      have bits := Bytes.bigEndian_inj small small' lengths
      omega
    obtain ⟨digits, same⟩ := List.append_inj same (by rw [length_pack, length_pack, lengths])
    exact ⟨pack_inj lengths digits, same⟩
  · rintro ⟨rfl, rfl⟩
    rfl

/-- The mask touches the last byte of the prefix, if there is one. -/
theorem writeMaskedHeader_eq {key : List Byte} {prefixLen : Nat} {mask : Byte}
    (empty : numPrefixBytes prefixLen = 0 → mask = 255) :
    writeMaskedHeader key prefixLen mask = Bytes.bigEndian 2 prefixLen ++
      (key.take (numPrefixBytes prefixLen)).modify (numPrefixBytes prefixLen - 1) (fun byte => byte &&& mask) := by
  have full : (fun byte : Byte => byte &&& 255) = id := funext (fun byte => BitVec.and_allOnes)
  have length : Bytes.bigEndian 2 prefixLen = [BitVec.ofNat 8 (prefixLen / 256), BitVec.ofNat 8 prefixLen] := rfl
  rw [writeMaskedHeader]
  cases bytes : numPrefixBytes prefixLen with
  | zero => rw [empty bytes, full, List.modify_id, List.modify_id]
  | succ n =>
    rw [length, List.cons_append, List.cons_append, List.nil_append, List.modify_succ_cons, List.modify_succ_cons]
    rfl

/-- The message of a proof node whose prefix ends inside the key. -/
theorem nodeMessage_eq {fresh : Nat → Byte} {proofNode : ProofNode} {key : Key} {n : Nat} (even : key.length % 2 = 0)
    (inside : n ≤ key.length) (prefixLength : proofNode.prefixLength.toNat = 4 * n) :
    nodeMessage fresh proofNode (pack key) =
      headerOf (key.take n) ++ (Bytes.bigEndian 2 proofNode.bv.toNat ++ hashBytes fresh proofNode) := by
  have cut : (key.take n).length = n := by rw [List.length_take, Nat.min_eq_left inside]
  have mask : (if 4 * n % 8 = 0 then 255 else 240 : Byte) = lastMask n := by
    unfold lastMask
    exact if_congr (by omega) rfl rfl
  rw [nodeMessage, prefixLength, mask, writeMaskedHeader_eq, numPrefixBytes_digits, mask_take_pack even inside, headerOf,
    cut, List.append_assoc]
  intro none
  rw [numPrefixBytes_digits] at none
  unfold lastMask
  exact if_pos (by omega)

/-- The message of a leaf proof. -/
theorem leafMessage_eq {key : Key} {valueBytes : List Byte} :
    leafMessage (pack key) (4 * key.length) valueBytes = headerOf key ++ valueBytes := by
  have full : (fun byte : Byte => byte &&& 255) = id := funext (fun byte => BitVec.and_allOnes)
  rw [leafMessage, writeMaskedHeader_eq (fun _ => rfl), full, List.modify_id, numPrefixBytes_digits, ← length_pack,
    List.take_length, headerOf]

end Headers

section Matching

variable {V : Type} [HashedValue V] {sha : Sha256} {keyLen : Nat} {live : Key → Option V}

/-- A proof node that spells out the message of the node below some digits of a key. -/
structure Matches (sha : Sha256) (keyLen : Nat) (live : Key → Option V) (fresh : Nat → Byte) (proofNode : ProofNode)
    (key front : Key) : Prop where
  short : front.length < keyLen
  below : key.take front.length = front
  prefixLength : proofNode.prefixLength.toNat = 4 * front.length
  bv : proofNode.bv = bitVector 16 (childHashes sha keyLen live front)
  hashes : hashBytes fresh proofNode = (listed 16 (childHashes sha keyLen live front)).flatten

/-- What is hashed where keys part, or for a whole key. -/
theorem forkMessage_cases {front : Key} (full : ∀ key, live key ≠ none → key.length = keyLen)
    (fork : Fork keyLen live front) :
    (∃ value, front.length = keyLen ∧ live front = some value ∧
      forkMessage sha keyLen live front = headerOf front ++ HashedValue.copyData value) ∨
    front.length < keyLen ∧ forkMessage sha keyLen live front = headerOf front ++
      (Bytes.bigEndian 2 (bitVector 16 (childHashes sha keyLen live front)).toNat ++
        (listed 16 (childHashes sha keyLen live front)).flatten) := by
  by_cases whole : front.length = keyLen
  · obtain ⟨key, present, same⟩ := fork.occupied
    rw [List.take_of_length_le (by rw [full key present]; omega)] at same
    obtain ⟨value, here⟩ := Option.ne_none_iff_exists'.mp present
    rw [same] at here
    exact Or.inl ⟨value, whole, here, by rw [forkMessage, if_pos whole, here]; rfl⟩
  · have inside := fork.inside
    refine Or.inr ⟨by omega, ?_⟩
    rw [forkMessage, if_neg whole, branchDigest, List.append_assoc]

/-- The message of a proof node is that of the place with its prefix length. -/
theorem nodeMessage_eq_iff {fresh : Nat → Byte} {proofNode : ProofNode} {key front : Key}
    (full : ∀ key, live key ≠ none → key.length = keyLen) (long : key.length = keyLen) (even : keyLen % 2 = 0)
    (small : 4 * keyLen < 2 ^ 16) (apart : proofNode.prefixLength.toNat ≠ 4 * keyLen) (fork : Fork keyLen live front) :
    nodeMessage fresh proofNode (pack key) = forkMessage sha keyLen live front ↔
      Matches sha keyLen live fresh proofNode key front := by
  have inside := fork.inside
  constructor
  · intro same
    -- both messages start with the prefix length
    have start : ∃ rest, nodeMessage fresh proofNode (pack key) =
        Bytes.bigEndian 2 proofNode.prefixLength.toNat ++ rest := by
      rw [nodeMessage, writeMaskedHeader_eq, List.append_assoc, List.append_assoc]
      · exact ⟨_, rfl⟩
      · intro none
        unfold numPrefixBytes at none
        split at none
        · rename_i aligned
          exact if_pos aligned
        · omega
    have other : ∃ rest, forkMessage sha keyLen live front = Bytes.bigEndian 2 (4 * front.length) ++ rest := by
      rcases @forkMessage_cases _ _ sha _ _ _ full fork with ⟨value, -, -, message⟩ | ⟨-, message⟩
      all_goals
        rw [message, headerOf, List.append_assoc]
        exact ⟨_, rfl⟩
    obtain ⟨rest, start⟩ := start
    obtain ⟨rest', other⟩ := other
    have prefixLength : proofNode.prefixLength.toNat = 4 * front.length := by
      have lengths := (List.append_inj (start.symm.trans (same.trans other))
        (by rw [Bytes.length_bigEndian, Bytes.length_bigEndian])).1
      exact Bytes.bigEndian_inj proofNode.prefixLength.isLt (by omega) lengths
    rcases @forkMessage_cases _ _ sha _ _ _ full fork with ⟨value, whole, -⟩ | ⟨short, message⟩
    · rw [whole] at prefixLength
      exact absurd prefixLength apart
    rw [nodeMessage_eq (by omega) (by omega) prefixLength, message,
      headerOf_append_inj (by rw [List.length_take]; omega) (by omega)] at same
    obtain ⟨below, same⟩ := same
    obtain ⟨bits, hashes⟩ := List.append_inj same (by rw [Bytes.length_bigEndian, Bytes.length_bigEndian])
    refine ⟨short, below, prefixLength, ?_, hashes⟩
    exact BitVec.eq_of_toNat_eq (Bytes.bigEndian_inj proofNode.bv.isLt (BitVec.isLt _) bits)
  · intro same
    rcases @forkMessage_cases _ _ sha _ _ _ full fork with ⟨value, whole, -⟩ | ⟨short, message⟩
    · exact absurd whole same.short.ne
    · rw [nodeMessage_eq (by omega) (by omega) same.prefixLength, message, same.below, same.bv, same.hashes]

/-- The message of a leaf proof is that of a key with its value. -/
theorem leafMessage_eq_iff {key front : Key} {valueBytes : List Byte}
    (full : ∀ key, live key ≠ none → key.length = keyLen) (long : key.length = keyLen)
    (small : 4 * keyLen < 2 ^ 16) (fork : Fork keyLen live front) :
    leafMessage (pack key) (4 * keyLen) valueBytes = forkMessage sha keyLen live front ↔
      front = key ∧ ∃ value, live key = some value ∧ HashedValue.copyData value = valueBytes := by
  have inside := fork.inside
  rw [← long, leafMessage_eq]
  constructor
  · intro same
    rw [long] at same
    rcases @forkMessage_cases _ _ sha _ _ _ full fork with ⟨value, whole, here, message⟩ | ⟨short, message⟩
    · rw [message, headerOf_append_inj (by omega) (by omega)] at same
      obtain ⟨rfl, bytes⟩ := same
      exact ⟨rfl, value, here, bytes.symm⟩
    · rw [message, headerOf_append_inj (by omega) (by omega)] at same
      rw [← same.1] at short
      omega
  · rintro ⟨rfl, value, here, rfl⟩
    rcases @forkMessage_cases _ _ sha _ _ _ full fork with ⟨value', -, here', message⟩ | ⟨short, -⟩
    · rw [here'] at here
      cases here
      rw [long, message]
    · omega

end Matching

end Speedex
