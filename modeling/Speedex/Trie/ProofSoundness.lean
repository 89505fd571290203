import Speedex.Trie.HashRuns
import Speedex.Trie.ProofMessages

set_option autoImplicit false

/- What the validator of `proof_utils.cc` accepts. The hash it expects next belongs to a place in the trie
on the path of the key, or to nothing that the proof can present, or it lies beyond the hashes of a node. -/
namespace Speedex

open Branches Bytes TrieNode

section Digits

theorem getElem?_pack {key : Key} {n : Nat} (inside : n < key.length) : (pack key)[n / 2]? =
    some (BitVec.ofNat 8 ((Digits.digit key (n / 2 * 2)).val * 16 + (Digits.digit key (n / 2 * 2 + 1)).val)) := by
  induction key using pack.induct generalizing n with
  | case1 => simp at inside
  | case2 high =>
    have first : n = 0 := by simpa using inside
    rw [first]
    rfl
  | case3 high low rest ih =>
    rcases n with _ | _ | n
    · rfl
    · rfl
    · have half : (n + 2) / 2 = n / 2 + 1 := by omega
      have twice : (n / 2 + 1) * 2 = n / 2 * 2 + 1 + 1 := by omega
      rw [pack, half, List.getElem?_cons_succ, ih (by simpa using inside), twice]
      rfl

theorem halves_of_byte (high low : Fin 16) :
    ((BitVec.ofNat 8 (high.val * 16 + low.val) &&& 0xF0#8) >>> 4).toNat = high.val ∧
      (BitVec.ofNat 8 (high.val * 16 + low.val) &&& 0x0F#8).toNat = low.val := by
  revert high low
  decide

theorem proofBranchBits_eq {key : Key} {n : Nat} (inside : n < key.length) :
    proofBranchBits (pack key) (4 * n) = .ok (Digits.digit key n).val := by
  have place : 4 * n / 8 = n / 2 := by omega
  rw [proofBranchBits, place, getElem?_pack inside]
  rcases Nat.even_or_odd' n with ⟨half, rfl | rfl⟩
  · have at_half : 2 * half / 2 * 2 = 2 * half := by omega
    have bits : 4 * (2 * half) % 8 = 0 := by omega
    simp only [bits, at_half]
    exact congrArg Except.ok (halves_of_byte _ _).1
  · have at_half : (2 * half + 1) / 2 * 2 + 1 = 2 * half + 1 := by omega
    have bits : 4 * (2 * half + 1) % 8 = 4 := by omega
    simp only [bits, at_half]
    exact congrArg Except.ok (halves_of_byte _ _).2

theorem getExpectedHashIdx_eq {proofNode : ProofNode} {key : Key} {n : Nat} (inside : n < key.length)
    (prefixLength : proofNode.prefixLength.toNat = 4 * n) :
    getExpectedHashIdx proofNode (pack key) = .ok (rank proofNode.bv (Digits.digit key n)) := by
  rw [getExpectedHashIdx, prefixLength, proofBranchBits_eq inside]
  exact congrArg Except.ok (popcount_below _ _)

/-- Lists of pieces of one length are told apart by what they make together. -/
theorem prefix_of_flatten {α : Type} {width : Nat} (positive : 0 < width) {pieces pieces' : List (List α)} {rest : List α}
    (sized : ∀ piece ∈ pieces, piece.length = width) (sized' : ∀ piece ∈ pieces', piece.length = width)
    (same : pieces.flatten ++ rest = pieces'.flatten) : pieces <+: pieces' := by
  induction pieces generalizing pieces' with
  | nil => exact List.nil_prefix
  | cons piece pieces ih =>
    have first := sized piece List.mem_cons_self
    cases pieces' with
    | nil =>
      have length := congrArg List.length same
      rw [List.flatten_cons, List.length_append, List.length_append, first, List.flatten_nil, List.length_nil] at length
      omega
    | cons piece' pieces' =>
      rw [List.flatten_cons, List.flatten_cons, List.append_assoc] at same
      obtain ⟨rfl, others⟩ := List.append_inj same (by rw [first, sized' piece' List.mem_cons_self])
      exact List.cons_prefix_cons.mpr ⟨rfl, ih (fun piece listed => sized piece (List.mem_cons_of_mem _ listed))
        (fun piece listed => sized' piece (List.mem_cons_of_mem _ listed)) others⟩

end Digits

section Sound

variable {V : Type} [HashedValue V]

/-- A message that the validator may hash for a node or a leaf. -/
def Presented (maxKeyLenBits : Nat) (fresh : Nat → Nat → Byte) (proof : Proof) (message : List Byte) : Prop :=
  message = leafMessage proof.pfx maxKeyLenBits proof.valueBytes ∨
    ∃ i proofNode, proof.nodes[i]? = some proofNode ∧ proofNode.prefixLength.toNat ≠ maxKeyLenBits ∧
      message = nodeMessage (fresh i) proofNode proof.pfx

/-- `SHA256` tells the messages of a proof from those of a trie, and makes no zeros of them. -/
structure CollisionFree (sha : Sha256) (keyLen : Nat) (live : Key → Option V) (fresh : Nat → Nat → Byte)
    (proof : Proof) : Prop where
  root : sha.digest (rootMessage proof) = contentsRoot sha keyLen live →
    rootMessage proof = rootDigest (Set.ncard {key | live key ≠ none} % 2 ^ 32) (contentsHash sha live keyLen [])
  fork : ∀ front message, Fork keyLen live front → Presented (4 * keyLen) fresh proof message →
    sha.digest message = sha.digest (forkMessage sha keyLen live front) → message = forkMessage sha keyLen live front
  nonzero : ∀ message, Presented (4 * keyLen) fresh proof message → sha.digest message ≠ zeroHash

/-- An accepted proof of membership is about a key with its value, an accepted proof of absence about a
key that is not there, and no run leaves the vectors and buffers. -/
def SoundResult (live : Key → Option V) (proof : Proof) (result : Except Fault Bool) : Prop :=
  result ≠ .error .outOfBounds ∧ (result = .ok true →
    (proof.membershipFlag = 1 →
      ∃ value, live (unpack proof.pfx) = some value ∧ HashedValue.copyData value = proof.valueBytes) ∧
    (proof.membershipFlag = 0 → live (unpack proof.pfx) = none))

/-- What the validator compares with: the hash below some digits of the key, a hash that no message of the
proof has, or a place beyond the hashes of a proof node. -/
inductive Expected where
  | below (front : Key)
  | stray
  | beyond
deriving DecidableEq

variable (sha : Sha256) (keyLen : Nat) (live : Key → Option V) (fresh : Nat → Nat → Byte) (proof : Proof)

/-- A node proof reads or writes outside: the prefix is longer than the key, there are more hashes than
bits, or there is no hash to compare with. -/
def NodeOverrun (expected : Expected) (proofNode : ProofNode) : Prop :=
  proofNode.prefixLength.toNat ≠ 4 * keyLen ∧ (proof.pfx.length < numPrefixBytes proofNode.prefixLength.toNat ∨
    popcount proofNode.bv < proofNode.hashes.length ∨ expected = .beyond)

/-- A leaf proof reads or writes outside: the length of the buffer wraps to a smaller one, or there is no
hash to compare with. -/
def LeafOverrun (expected : Expected) (proofNode : ProofNode) : Prop :=
  proofNode.prefixLength.toNat = 4 * keyLen ∧ proofNode.bv = 0 ∧
    let length := proof.valueBytes.length + (numPrefixBytes (4 * keyLen) + 2)
    length % 2 ^ 32 < 2 ^ 31 ∧ (length % 2 ^ 32 < length ∨ expected = .beyond)

/-- The proof node is that of the place where the keys below the expected digits part. -/
def Follows (i : Nat) (expected : Expected) (proofNode : ProofNode) (goal : Key) : Prop :=
  ∃ front, expected = .below front ∧ ForkBelow keyLen live front goal ∧
    Matches sha keyLen live (fresh i) proofNode (unpack proof.pfx) goal

open Classical in
/-- What the validator expects after such a node. -/
noncomputable def nextExpected (proofNode : ProofNode) (goal : Key) : Expected :=
  let digit := Digits.digit (unpack proof.pfx) goal.length
  if proofNode.hashes.length ≤ rank proofNode.bv digit then .beyond
  else if Occupied live (goal ++ [digit]) then .below (goal ++ [digit]) else .stray

/-- The ways to mislead the validator: no nodes; an overrun, after nodes that are right; and nodes that are
right but end above a key that is there, for a proof that it is not. -/
def Misled : Nat → Expected → List ProofNode → Prop
  | _, _, [] => True
  | i, expected, [back] =>
    if proof.membershipFlag ≠ 0 then LeafOverrun keyLen proof expected back
    else NodeOverrun keyLen proof expected back ∨
      (∃ goal, Follows sha keyLen live fresh proof i expected back goal) ∧ live (unpack proof.pfx) ≠ none
  | i, expected, proofNode :: next :: rest =>
    NodeOverrun keyLen proof expected proofNode ∨
      ∃ goal, Follows sha keyLen live fresh proof i expected proofNode goal ∧
        Misled (i + 1) (nextExpected live proof proofNode goal) (next :: rest)

/-- The proof carries the size and the root hash of the trie. -/
def RootMatches : Prop :=
  let size := Set.ncard {key | live key ≠ none} % 2 ^ 32
  proof.trieSize.toNat = size ∧ proof.rootNodeHash = if size = 0 then zeroHash else contentsHash sha live keyLen []

/-- What the validator expects at first: without a size, no hash that a message has. -/
noncomputable def firstExpected : Expected :=
  if Set.ncard {key | live key ≠ none} % 2 ^ 32 = 0 then .stray else .below []

/-- The expected hash. -/
def Means (parentHash : Option Hash) : Expected → Prop
  | .below front => parentHash = some (contentsHash sha live (keyLen - front.length) front) ∧
      Occupied live front ∧ front.length ≤ keyLen
  | .stray => ∃ hash, parentHash = some hash ∧ ∀ message, Presented (4 * keyLen) fresh proof message → sha.digest message ≠ hash
  | .beyond => parentHash = none

variable {sha : Sha256} {keyLen : Nat} {live : Key → Option V} {fresh : Nat → Nat → Byte} {proof : Proof}

theorem contentsHash_length (full : ∀ key, live key ≠ none → key.length = keyLen) {front : Key}
    (some : Occupied live front) (inside : front.length ≤ keyLen) :
    (contentsHash sha live (keyLen - front.length) front).length = 32 := by
  obtain ⟨goal, below⟩ := exists_forkBelow full some inside
  rw [below.contentsHash_eq full, sha.length]

/-- A hash of a proof node that is right is the hash of one of the children. -/
theorem Matches.hash_eq (full : ∀ key, live key ≠ none → key.length = keyLen) {bytes : Nat → Byte} {proofNode : ProofNode}
    {key front : Key} (same : Matches sha keyLen live bytes proofNode key front)
    (sized : ∀ hash ∈ proofNode.hashes, hash.length = 32) {i : Nat} (inside : i < proofNode.hashes.length) :
    proofNode.hashes[i]? = (listed 16 (childHashes sha keyLen live front))[i]? := by
  have sized' : ∀ hash ∈ listed 16 (childHashes sha keyLen live front), hash.length = 32 := by
    intro hash among
    obtain ⟨d, -, at_d⟩ := List.mem_filterMap.mp among
    obtain ⟨some, rfl⟩ := childHashes_eq_some_iff.mp at_d
    have length : (front ++ [d]).length = front.length + 1 := by rw [List.length_append, List.length_singleton]
    have short := same.short
    rw [← length]
    exact contentsHash_length full some (by omega)
  have hashes := same.hashes
  rw [hashBytes] at hashes
  obtain ⟨rest, whole⟩ := prefix_of_flatten (by decide : 0 < 32) sized sized' hashes
  rw [← whole, List.getElem?_append_left inside]

/-- One node of a proof: it leaves the buffers, or it is refused, or it is right. -/
inductive NodeOutcome (sha : Sha256) (keyLen : Nat) (live : Key → Option V) (fresh : Nat → Nat → Byte) (proof : Proof)
    (i : Nat) (expected : Expected) (proofNode : ProofNode) : Except Fault Bool → Prop
  | overrun (excess : NodeOverrun keyLen proof expected proofNode) :
      NodeOutcome sha keyLen live fresh proof i expected proofNode (.error .outOfBounds)
  | refused (excess : ¬ NodeOverrun keyLen proof expected proofNode)
      (none : ∀ goal, ¬ Follows sha keyLen live fresh proof i expected proofNode goal) :
      NodeOutcome sha keyLen live fresh proof i expected proofNode (.ok false)
  | accepted (excess : ¬ NodeOverrun keyLen proof expected proofNode) (goal : Key)
      (follows : Follows sha keyLen live fresh proof i expected proofNode goal) :
      NodeOutcome sha keyLen live fresh proof i expected proofNode (.ok true)

theorem pack_key : pack (unpack proof.pfx) = proof.pfx := pack_unpack _

section Run

variable (full : ∀ key, live key ≠ none → key.length = keyLen) (long : (unpack proof.pfx).length = keyLen)
  (even : keyLen % 2 = 0) (small : 4 * keyLen < 2 ^ 16) (free : CollisionFree sha keyLen live fresh proof)

include full long even small free

theorem node_outcome {i : Nat} {expected : Expected} {parentHash : Option Hash} {proofNode : ProofNode}
    (means : Means sha keyLen live fresh proof parentHash expected) (here : proof.nodes[i]? = some proofNode) :
    NodeOutcome sha keyLen live fresh proof i expected proofNode
      (validateTrieNodeProof sha (4 * keyLen) (fresh i) proofNode parentHash proof.pfx) := by
  rw [validateTrieNodeProof]
  by_cases leaf : proofNode.prefixLength.toNat = 4 * keyLen
  · rw [if_pos leaf]
    refine .refused (fun excess => excess.1 leaf) ?_
    rintro goal ⟨front, -, -, same⟩
    have short := same.short
    rw [same.prefixLength] at leaf
    omega
  rw [if_neg leaf]
  by_cases reads : proof.pfx.length < numPrefixBytes proofNode.prefixLength.toNat
  · rw [if_pos reads]
    exact .overrun ⟨leaf, Or.inl reads⟩
  rw [if_neg reads]
  by_cases writes : popcount proofNode.bv < proofNode.hashes.length
  · rw [if_pos writes]
    exact .overrun ⟨leaf, Or.inr (Or.inl writes)⟩
  rw [if_neg writes]
  have excess : expected ≠ .beyond → ¬ NodeOverrun keyLen proof expected proofNode := by
    rintro some ⟨-, long | many | beyond⟩
    exacts [reads long, writes many, some beyond]
  have presented : Presented (4 * keyLen) fresh proof (nodeMessage (fresh i) proofNode proof.pfx) :=
    Or.inr ⟨i, proofNode, here, leaf, rfl⟩
  cases expected with
  | beyond =>
    rw [show parentHash = none from means, compareHash]
    exact .overrun ⟨leaf, Or.inr (Or.inr rfl)⟩
  | stray =>
    obtain ⟨hash, rfl, apart⟩ := means
    rw [compareHash, decide_eq_false (apart _ presented)]
    refine .refused (excess nofun) ?_
    rintro goal ⟨front, ⟨⟩, -⟩
  | below front =>
    obtain ⟨rfl, some, inside⟩ := means
    have accepts : ∀ goal, ForkBelow keyLen live front goal →
        (sha.digest (nodeMessage (fresh i) proofNode proof.pfx) = contentsHash sha live (keyLen - front.length) front ↔
          Matches sha keyLen live (fresh i) proofNode (unpack proof.pfx) goal) := by
      intro goal below
      have message := @nodeMessage_eq_iff V _ sha _ _ (fresh i) _ _ _ full long even small leaf below.fork
      rw [pack_key] at message
      rw [below.contentsHash_eq full, ← message]
      exact ⟨free.fork goal _ below.fork presented, fun same => by rw [same]⟩
    rw [compareHash]
    by_cases same : sha.digest (nodeMessage (fresh i) proofNode proof.pfx) =
      contentsHash sha live (keyLen - front.length) front
    · rw [decide_eq_true same]
      obtain ⟨goal, below⟩ := exists_forkBelow full some inside
      exact .accepted (excess nofun) goal ⟨front, rfl, below, (accepts goal below).mp same⟩
    · rw [decide_eq_false same]
      refine .refused (excess nofun) ?_
      rintro goal ⟨front', ⟨⟩, below, follows⟩
      exact same ((accepts goal below).mpr follows)

/-- After a node that is right, what is expected is right. -/
theorem means_next (typed : proof.WellTyped) {i : Nat} {expected : Expected} {proofNode : ProofNode} {goal : Key}
    (here : proof.nodes[i]? = some proofNode) (follows : Follows sha keyLen live fresh proof i expected proofNode goal) :
    Means sha keyLen live fresh proof
      proofNode.hashes[rank proofNode.bv (Digits.digit (unpack proof.pfx) goal.length)]?
      (nextExpected live proof proofNode goal) := by
  obtain ⟨front, -, -, same⟩ := follows
  have short := same.short
  have onward : ∀ d : Digit, (goal ++ [d]).length = goal.length + 1 := by simp
  rw [nextExpected]
  split
  · rename_i none
    exact List.getElem?_eq_none none
  rename_i inside
  have hash := same.hash_eq full (typed.hashes proofNode (List.mem_of_getElem? here)) (Nat.lt_of_not_le inside)
  split
  · rename_i some
    refine ⟨?_, some, by rw [onward]; omega⟩
    rw [hash, same.bv, onward]
    exact listed_rank (childHashes_eq_some_iff.mpr ⟨some, rfl⟩)
  · rename_i none
    -- the hash is that of a child on another digit, whose messages all start with that digit
    have listed := List.getElem?_eq_getElem (Nat.lt_of_not_le inside)
    obtain ⟨d, -, at_d⟩ := List.mem_filterMap.mp (List.mem_of_getElem? (hash.symm.trans listed))
    obtain ⟨some, digest⟩ := childHashes_eq_some_iff.mp at_d
    refine ⟨_, listed, fun message presented equal => ?_⟩
    have inner : (goal ++ [d]).length ≤ keyLen := by
      rw [onward]
      omega
    obtain ⟨goal', below⟩ := exists_forkBelow full some inner
    have message_eq := free.fork goal' message below.fork presented (by
      rw [equal, digest, ← below.contentsHash_eq full, onward])
    have key : (unpack proof.pfx).take goal'.length = goal' := by
      rcases presented with rfl | ⟨j, other, -, node, rfl⟩
      · rw [← pack_key, leafMessage_eq_iff full long small below.fork] at message_eq
        rw [← message_eq.1, List.take_length]
      · rw [← pack_key, nodeMessage_eq_iff full long even small node below.fork] at message_eq
        exact message_eq.below
    have next : (unpack proof.pfx).take (goal.length + 1) = goal ++ [d] := by
      have longer : goal.length + 1 ≤ goal'.length := by
        have cut := congrArg List.length below.starts
        rw [List.length_take, onward] at cut
        omega
      rw [← below.starts, onward, ← key, List.take_take, Nat.min_eq_left longer]
    rw [Digits.take_succ_digit (by omega), same.below] at next
    have digit : Digits.digit (unpack proof.pfx) goal.length = d := by simpa using next
    rw [digit] at none
    exact none some

omit even in
/-- A leaf proof that is accepted is about a key with its value. -/
theorem leaf_sound_iff {expected : Expected} {parentHash : Option Hash} {proofNode : ProofNode}
    (means : Means sha keyLen live fresh proof parentHash expected) (member : proof.membershipFlag ≠ 0) :
    SoundResult live proof
        (validateTrieLeafProof sha (4 * keyLen) proofNode proof.valueBytes parentHash proof.pfx) ↔
      ¬ LeafOverrun keyLen proof expected proofNode := by
  have refused : ∀ result, result ≠ .error .outOfBounds → result ≠ .ok true → SoundResult live proof result :=
    fun result inside no => ⟨inside, fun yes => absurd yes no⟩
  rw [validateTrieLeafProof]
  by_cases other : proofNode.prefixLength.toNat ≠ 4 * keyLen ∨ proofNode.bv ≠ 0
  · rw [if_pos other]
    refine iff_of_true (refused _ nofun nofun) ?_
    rintro ⟨length, bits, -⟩
    exact other.elim (· length) (· bits)
  rw [if_neg other]
  obtain ⟨length, bits⟩ : proofNode.prefixLength.toNat = 4 * keyLen ∧ proofNode.bv = 0 := by tauto
  have int := BitVec.toInt_eq_toNat_cond (BitVec.ofNat 32 (proof.valueBytes.length + (numPrefixBytes (4 * keyLen) + 2)))
  rw [BitVec.toNat_ofNat] at int
  rw [LeafOverrun]
  dsimp only
  generalize proof.valueBytes.length + (numPrefixBytes (4 * keyLen) + 2) = total at int ⊢
  simp only [length, bits, true_and]
  by_cases negative : (BitVec.ofNat 32 total).toInt < 0
  · rw [if_pos negative]
    refine iff_of_true (refused _ nofun nofun) (fun excess => ?_)
    rw [int] at negative
    split at negative <;> omega
  rw [if_neg negative]
  have room : total % 2 ^ 32 < 2 ^ 31 ∧ (BitVec.ofNat 32 total).toInt = (total % 2 ^ 32 : Nat) := by
    rw [int] at negative ⊢
    split at negative
    · rename_i half
      exact ⟨by omega, if_pos half⟩
    · omega
  by_cases wraps : (BitVec.ofNat 32 total).toInt < total
  · rw [if_pos wraps]
    exact iff_of_false (fun sound => sound.1 rfl) (not_not.mpr ⟨room.1, Or.inl (by omega)⟩)
  rw [if_neg wraps]
  have fits : ¬ total % 2 ^ 32 < total := by omega
  simp only [room.1, fits, true_and, false_or]
  cases expected with
  | beyond =>
    rw [show parentHash = none from means, compareHash]
    exact iff_of_false (fun sound => sound.1 rfl) (not_not.mpr rfl)
  | stray =>
    obtain ⟨hash, rfl, apart⟩ := means
    rw [compareHash, decide_eq_false (apart _ (Or.inl rfl))]
    exact iff_of_true (refused _ nofun nofun) nofun
  | below front =>
    obtain ⟨rfl, some, inside⟩ := means
    refine iff_of_true ⟨nofun, fun accepted => ⟨fun _ => ?_, fun absent => absurd absent member⟩⟩ nofun
    obtain ⟨goal, below⟩ := exists_forkBelow full some inside
    rw [compareHash] at accepted
    have same := of_decide_eq_true (Except.ok.inj accepted)
    rw [below.contentsHash_eq full] at same
    have message := free.fork goal _ below.fork (Or.inl rfl) same
    rw [← pack_key, leafMessage_eq_iff full long small below.fork] at message
    exact message.2

/-- The loop of the validator is sound unless it is misled. -/
theorem validateNodes_sound_iff (typed : proof.WellTyped) {nodes : List ProofNode} {i : Nat} {expected : Expected}
    {parentHash : Option Hash} (means : Means sha keyLen live fresh proof parentHash expected)
    (tail : ∀ j proofNode, nodes[j]? = some proofNode → proof.nodes[i + j]? = some proofNode) :
    SoundResult live proof (validateNodes sha (4 * keyLen) fresh proof i parentHash nodes) ↔
      ¬ Misled sha keyLen live fresh proof i expected nodes := by
  induction nodes generalizing i expected parentHash with
  | nil =>
    rw [validateNodes, Misled]
    exact iff_of_false (fun sound => sound.1 rfl) (not_not.mpr trivial)
  | cons proofNode rest ih =>
    have here : proof.nodes[i]? = some proofNode := tail 0 proofNode rfl
    have outcome := node_outcome full long even small free means here
    cases rest with
    | nil =>
      rw [validateNodes, Misled]
      by_cases member : proof.membershipFlag ≠ 0
      · rw [if_pos member, if_pos member]
        exact leaf_sound_iff full long small free means member
      rw [if_neg member, if_neg member]
      generalize validateTrieNodeProof sha (4 * keyLen) (fresh i) proofNode parentHash proof.pfx = result at outcome
      have absent : proof.membershipFlag = 0 := not_not.mp member
      cases outcome with
      | overrun excess => exact iff_of_false (fun sound => sound.1 rfl) (not_not.mpr (Or.inl excess))
      | refused excess none =>
        refine iff_of_true ⟨nofun, nofun⟩ ?_
        rintro (excess' | ⟨⟨goal, follows⟩, -⟩)
        exacts [excess excess', none goal follows]
      | accepted excess goal follows =>
        constructor
        · rintro ⟨-, sound⟩ (excess' | ⟨-, present⟩)
          exacts [excess excess', present ((sound rfl).2 absent)]
        · intro right
          refine ⟨nofun, fun _ => ⟨fun member => absurd (absent.symm.trans member) (by decide), fun _ => ?_⟩⟩
          exact not_not.mp (fun present => right (Or.inr ⟨⟨goal, follows⟩, present⟩))
    | cons next rest =>
      rw [validateNodes, Misled]
      generalize validateTrieNodeProof sha (4 * keyLen) (fresh i) proofNode parentHash proof.pfx = result at outcome
      cases outcome with
      | overrun excess => exact iff_of_false (fun sound => sound.1 rfl) (not_not.mpr (Or.inl excess))
      | refused excess none =>
        refine iff_of_true ⟨nofun, nofun⟩ ?_
        rintro (excess' | ⟨goal, follows, -⟩)
        exacts [excess excess', none goal follows]
      | accepted excess goal follows =>
        obtain ⟨front, -, -, same⟩ := id follows
        have idx := getExpectedHashIdx_eq (n := goal.length) (by rw [long]; exact same.short) same.prefixLength
        rw [pack_key] at idx
        simp only [bind, Except.bind, idx, if_true]
        rw [ih (means_next full long even small free typed here follows)
          (fun j other at_j => by rw [Nat.add_assoc, Nat.add_comm 1]; exact tail (j + 1) other at_j)]
        refine not_congr ⟨fun misled => Or.inr ⟨goal, follows, misled⟩, ?_⟩
        rintro (excess' | ⟨goal', ⟨-, -, -, same'⟩, misled⟩)
        · exact absurd excess' excess
        · -- a node belongs to one place
          have lengths : goal'.length = goal.length := by
            have bits := same.prefixLength.symm.trans same'.prefixLength
            omega
          rwa [← same'.below, lengths, same.below] at misled

end Run

section Root

/-- With a size and a root hash that are right, what is expected at first is right. -/
theorem means_first (free : CollisionFree sha keyLen live fresh proof) (root : RootMatches sha keyLen live proof) :
    Means sha keyLen live fresh proof (some proof.rootNodeHash) (firstExpected live) := by
  rw [root.2, firstExpected]
  split
  · exact ⟨_, rfl, free.nonzero⟩
  · rename_i filled
    refine ⟨by rw [List.length_nil, Nat.sub_zero], ?_, Nat.zero_le _⟩
    have some : {key | live key ≠ none}.ncard ≠ 0 := fun bare => filled (by rw [bare, Nat.zero_mod])
    obtain ⟨key, present⟩ := Set.nonempty_of_ncard_ne_zero some
    exact ⟨key, present, rfl⟩

theorem root_matches_iff (free : CollisionFree sha keyLen live fresh proof) :
    sha.digest (rootMessage proof) = contentsRoot sha keyLen live ↔ RootMatches sha keyLen live proof := by
  constructor
  · intro same
    obtain ⟨size, hash⟩ := List.append_inj (free.root same) (by rw [Bytes.length_bigEndian, Bytes.length_bigEndian])
    exact ⟨Bytes.bigEndian_inj proof.trieSize.isLt (Nat.mod_lt _ (by decide)) size, hash⟩
  · rintro ⟨size, hash⟩
    rw [contentsRoot, rootMessage, rootDigest, size, hash]

variable [Inhabited V] {t t' : MerkleTrie V} {hash : Hash} {ranges : List (List Digit)}

/-- The validator is sound unless the size, the root hash and the length of the key are right and the nodes
mislead it. -/
theorem validateTrieProof_sound_iff (hashed : t.Hashed sha keyLen) (frozen : t.freezeAndHash sha ranges = .ok (t', hash))
    (even : keyLen % 2 = 0) (small : 4 * keyLen < 2 ^ 16) (typed : proof.WellTyped)
    (free : CollisionFree sha keyLen t.liveFind fresh proof) :
    SoundResult t.liveFind proof (validateTrieProof sha (4 * keyLen) fresh proof hash) ↔
      ¬ (RootMatches sha keyLen t.liveFind proof ∧ proof.pfx.length = numPrefixBytes (4 * keyLen) ∧
        Misled sha keyLen t.liveFind fresh proof 0 (firstExpected t.liveFind) proof.nodes) := by
  have full : ∀ key, t.liveFind key ≠ none → key.length = keyLen :=
    fun key present => (liveFind_under hashed.shaped present).1
  obtain ⟨t'', frozen', -⟩ := MerkleTrie.freezeAndHash_spec hashed ranges
  have top : hash = contentsRoot sha keyLen t.liveFind := by
    rw [frozen] at frozen'
    cases frozen'
    rfl
  rw [validateTrieProof, top]
  by_cases root : RootMatches sha keyLen t.liveFind proof
  · rw [if_neg (not_not.mpr ((root_matches_iff free).mpr root))]
    by_cases length : proof.pfx.length = numPrefixBytes (4 * keyLen)
    · have long : (unpack proof.pfx).length = keyLen := by
        rw [length_unpack, length, numPrefixBytes_digits]
        omega
      rw [if_neg (not_not.mpr length), validateNodes_sound_iff full long even small free typed
        (means_first free root) (fun j other at_j => by rw [Nat.zero_add]; exact at_j)]
      exact not_congr ⟨fun misled => ⟨root, length, misled⟩, fun all => all.2.2⟩
    · rw [if_pos length]
      exact iff_of_true ⟨nofun, nofun⟩ (fun all => length all.2.1)
  · rw [if_pos (fun same => root ((root_matches_iff free).mp same))]
    exact iff_of_true ⟨nofun, nofun⟩ (fun all => root all.1)

end Root

end Sound

section Offers

/-- A proof about the only key of a trie with one offer. -/
def loneProof (nodes : List ProofNode) : Proof where
  nodes := nodes
  pfx := [0, 0]
  trieSize := 1
  rootNodeHash := sha256.digest (leafMessage [0, 0] 16 tenUnits.xdr)
  valueBytes := tenUnits.xdr
  membershipFlag := 1

theorem lone_collisionFree {nodes : List ProofNode} (leaves : ∀ proofNode ∈ nodes, proofNode.prefixLength = 16)
    {live : Key → Option Offer} (lone : ∀ key, live key = if key = [0, 0, 0, 0] then some tenUnits else none) :
    CollisionFree sha256 4 live (fun _ _ => 0) (loneProof nodes) := by
  have only : ∀ key, live key ≠ none → key = [0, 0, 0, 0] := by
    intro key present
    rw [lone] at present
    by_contra other
    exact present (if_neg other)
  have here : live [0, 0, 0, 0] ≠ none := by
    rw [lone]
    nofun
  have fork : Fork 4 live [0, 0, 0, 0] := ⟨⟨_, here, rfl⟩, le_refl _, fun short => absurd short (by decide)⟩
  have message : forkMessage sha256 4 live [0, 0, 0, 0] = leafMessage [0, 0] 16 tenUnits.xdr := by
    have whole : ([0, 0, 0, 0] : Key).length = 4 := rfl
    rw [forkMessage, if_pos whole, lone, if_pos rfl]
    rfl
  have unique : ∀ front, Fork 4 live front → front = [0, 0, 0, 0] := by
    intro front at_front
    obtain ⟨key, present, below⟩ := at_front.occupied
    have inside := at_front.inside
    rcases Nat.lt_or_ge front.length 4 with short | whole
    · obtain ⟨d, d', apart, ⟨left, present, there⟩, ⟨right, present', there'⟩⟩ := at_front.parts short
      rw [only left present] at there
      rw [only right present', List.length_append, List.length_singleton] at there'
      rw [List.length_append, List.length_singleton, there'] at there
      exact absurd (by simpa using there.symm) apart
    · rw [only key present, List.take_of_length_le (by simpa using whole)] at below
      exact below.symm
  have presented : ∀ bytes, Presented 16 (fun _ _ => 0) (loneProof nodes) bytes →
      bytes = leafMessage [0, 0] 16 tenUnits.xdr := by
    rintro bytes (rfl | ⟨i, proofNode, at_i, inner, -⟩)
    · rfl
    · exact absurd (congrArg BitVec.toNat (leaves proofNode (List.mem_of_getElem? at_i))) inner
  refine ⟨fun _ => ?_, fun front bytes at_front there _ => ?_, fun bytes there => ?_⟩
  · have keys : {key | live key ≠ none} = {[0, 0, 0, 0]} :=
      Set.ext (fun key => ⟨only key, fun same => by rw [Set.mem_singleton_iff.mp same]; exact here⟩)
    have whole : ForkBelow 4 live [] [0, 0, 0, 0] :=
      ⟨fork, rfl, fun key present _ => by rw [only key present]; rfl⟩
    have full : ∀ key, live key ≠ none → key.length = 4 := fun key present => by rw [only key present]; rfl
    have top : contentsHash sha256 live 4 [] = _ := whole.contentsHash_eq full
    rw [keys, Set.ncard_singleton, top, message]
    rfl
  · rw [presented bytes there, unique front at_front, message]
  · rw [presented bytes there]
    decide +kernel

theorem validateTrieProof_sound_sample : ∃ (t t' : MerkleTrie Offer) (hash : Hash),
    (MerkleTrie.new 4).insert .overwrite [0, 0, 0, 0] tenUnits = .ok t ∧ t.freezeAndHash sha256 [] = .ok (t', hash) ∧
      validateTrieProof sha256 16 (fun _ _ => 0) (loneProof [⟨16, 0, []⟩]) hash = .ok true ∧
      (SoundResult t.liveFind (loneProof [⟨16, 0, []⟩])
        (validateTrieProof sha256 (4 * 4) (fun _ _ => 0) (loneProof [⟨16, 0, []⟩]) hash) ↔
      ¬ (RootMatches sha256 4 t.liveFind (loneProof [⟨16, 0, []⟩]) ∧ [0, 0].length = numPrefixBytes (4 * 4) ∧
        Misled sha256 4 t.liveFind (fun _ _ => 0) (loneProof [⟨16, 0, []⟩]) 0 (firstExpected t.liveFind)
          [⟨16, 0, []⟩])) := by
  refine ⟨_, _, _, rfl, rfl, by decide +kernel, ?_⟩
  refine @validateTrieProof_sound_iff _ _ _ _ _ (loneProof [⟨16, 0, []⟩]) _ _ _ _ [] ?_ rfl rfl (by decide) ?_ ?_
  · exact (MerkleTrie.hashed_new (by decide)).insert (by decide) rfl rfl
  · exact ⟨by decide +kernel, by decide⟩
  · exact lone_collisionFree (by decide) (fun key => (liveFind_leaf key).trans (if_congr (and_iff_left (by decide)) rfl rfl))

/-- A proof without nodes is read where there is none. -/
theorem proof_without_nodes : ∃ (t t' : MerkleTrie Offer) (hash : Hash),
    (MerkleTrie.new 4).insert .overwrite [0, 0, 0, 0] tenUnits = .ok t ∧ t.freezeAndHash sha256 [] = .ok (t', hash) ∧
      CollisionFree sha256 4 t.liveFind (fun _ _ => 0) (loneProof []) ∧ (loneProof []).WellTyped ∧
      validateTrieProof sha256 16 (fun _ _ => 0) (loneProof []) hash = .error .outOfBounds := by
  refine ⟨_, _, _, rfl, rfl, ?_, ⟨by decide +kernel, by decide⟩, by decide +kernel⟩
  exact lone_collisionFree (List.forall_mem_nil _) (fun key => (liveFind_leaf key).trans (if_congr (and_iff_left (by decide)) rfl rfl))

end Offers

end Speedex
