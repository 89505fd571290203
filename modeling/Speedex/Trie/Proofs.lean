import Speedex.Trie.RootHash

set_option autoImplicit false

/- Proofs that a key is in a trie or not: how a frozen trie makes them, and how `proof_utils.cc` checks
them against a root hash. -/
namespace Speedex

open Branches Bytes

/-- A `ProofNode`; its first four bytes are the prefix length in bits and the bit vector. -/
structure ProofNode where
  prefixLength : BitVec 16
  bv : BitVec 16
  hashes : List Hash
deriving DecidableEq

structure Proof where
  nodes : List ProofNode
  pfx : List Byte
  trieSize : BitVec 32
  rootNodeHash : Hash
  valueBytes : List Byte
  membershipFlag : BitVec 32
deriving DecidableEq

/-- A `Hash` has 32 bytes. -/
structure Proof.WellTyped (proof : Proof) : Prop where
  rootNodeHash : proof.rootNodeHash.length = 32
  hashes : ∀ proofNode ∈ proof.nodes, ∀ hash ∈ proofNode.hashes, hash.length = 32

section Validate

/-- How a run of the validator goes wrong: it leaves a vector or a buffer, `new` throws, or it shifts by a
negative number. -/
inductive Fault where
  | outOfBounds
  | badAlloc
  | badShift
deriving DecidableEq

/-- `proof_branch_bits`. -/
def proofBranchBits (key : List Byte) (prefixLen : Nat) : Except Fault Nat :=
  match key[prefixLen / 8]? with
  | none => .error .outOfBounds
  | some byte =>
    if 4 < prefixLen % 8 then .error .badShift
    else .ok ((byte &&& (0xF0#8 >>> (prefixLen % 8))) >>> (4 - prefixLen % 8)).toNat

/-- `get_expected_hash_idx`. -/
def getExpectedHashIdx (proofNode : ProofNode) (key : List Byte) : Except Fault Nat := do
  let branchBits ← proofBranchBits key proofNode.prefixLength.toNat
  .ok (popcount (proofNode.bv &&& (1#16 <<< branchBits - 1#16)))

/-- The message of `validate_trie_root_proof`. -/
def rootMessage (proof : Proof) : List Byte := Bytes.bigEndian 4 proof.trieSize.toNat ++ proof.rootNodeHash

/-- `write_node_header` from a pointer, with a mask for the last byte. -/
def writeMaskedHeader (key : List Byte) (prefixLen : Nat) (lastByteMask : Byte) : List Byte :=
  (Bytes.bigEndian 2 prefixLen ++ key.take (numPrefixBytes prefixLen)).modify (numPrefixBytes prefixLen + 1)
    (fun byte => byte &&& lastByteMask)

/-- What the digest buffer of `validate_trie_node_proof` holds behind the bit vector: the hashes, and up to
the length that the bit vector asks for the `fresh` bytes that `new` has found there. -/
def hashBytes (fresh : Nat → Byte) (proofNode : ProofNode) : List Byte :=
  let idx := numPrefixBytes proofNode.prefixLength.toNat + 2 + 2 + 32 * proofNode.hashes.length
  proofNode.hashes.flatten ++
    (List.range (32 * (popcount proofNode.bv - proofNode.hashes.length))).map (fun i => fresh (idx + i))

/-- The digest buffer of `validate_trie_node_proof`. -/
def nodeMessage (fresh : Nat → Byte) (proofNode : ProofNode) (key : List Byte) : List Byte :=
  let prefixLen := proofNode.prefixLength.toNat
  writeMaskedHeader key prefixLen (if prefixLen % 8 = 0 then 255 else 240) ++
    Bytes.bigEndian 2 proofNode.bv.toNat ++ hashBytes fresh proofNode

/-- The digest buffer of `validate_trie_leaf_proof`. -/
def leafMessage (key : List Byte) (maxKeyLenBits : Nat) (valueBytes : List Byte) : List Byte :=
  writeMaskedHeader key maxKeyLenBits 255 ++ valueBytes

variable (sha : Sha256) (maxKeyLenBits : Nat)

/-- `memcmp` with the expected hash, if that is in its vector. -/
def compareHash (message : List Byte) : Option Hash → Except Fault Bool
  | none => .error .outOfBounds
  | some expectedNodeHash => .ok (sha.digest message = expectedNodeHash)

/-- `validate_trie_leaf_proof`; the length of the buffer is an `int`. -/
def validateTrieLeafProof (proofNode : ProofNode) (valueBytes : List Byte) (expectedNodeHash : Option Hash)
    (key : List Byte) : Except Fault Bool :=
  if proofNode.prefixLength.toNat ≠ maxKeyLenBits ∨ proofNode.bv ≠ 0 then .ok false
  else
    let size := valueBytes.length + (numPrefixBytes maxKeyLenBits + 2)
    let totalLen := (BitVec.ofNat 32 size).toInt
    if totalLen < 0 then .error .badAlloc
    else if totalLen < size then .error .outOfBounds
    else compareHash sha (leafMessage key maxKeyLenBits valueBytes) expectedNodeHash

/-- `validate_trie_node_proof`. The header reads as many bytes of the key, and the buffer takes as many
hashes, as the proof node says. -/
def validateTrieNodeProof (fresh : Nat → Byte) (proofNode : ProofNode) (expectedNodeHash : Option Hash)
    (key : List Byte) : Except Fault Bool :=
  if proofNode.prefixLength.toNat = maxKeyLenBits then .ok false
  else if key.length < numPrefixBytes proofNode.prefixLength.toNat then .error .outOfBounds
  else if popcount proofNode.bv < proofNode.hashes.length then .error .outOfBounds
  else compareHash sha (nodeMessage fresh proofNode key) expectedNodeHash

/-- The loop of `validate_trie_proof` from node `i` on. With no nodes, `proof.nodes.size() - 1` wraps. -/
def validateNodes (fresh : Nat → Nat → Byte) (proof : Proof) : Nat → Option Hash → List ProofNode → Except Fault Bool
  | _, _, [] => .error .outOfBounds
  | i, parentHash, [back] =>
    if proof.membershipFlag ≠ 0 then
      validateTrieLeafProof sha maxKeyLenBits back proof.valueBytes parentHash proof.pfx
    else validateTrieNodeProof sha maxKeyLenBits (fresh i) back parentHash proof.pfx
  | i, parentHash, proofNode :: next :: rest => do
    if ← validateTrieNodeProof sha maxKeyLenBits (fresh i) proofNode parentHash proof.pfx then
      let idx ← getExpectedHashIdx proofNode proof.pfx
      validateNodes fresh proof (i + 1) proofNode.hashes[idx]? (next :: rest)
    else .ok false

/-- `validate_trie_proof`. -/
def validateTrieProof (fresh : Nat → Nat → Byte) (proof : Proof) (topHash : Hash) : Except Fault Bool :=
  if sha.digest (rootMessage proof) ≠ topHash then .ok false
  else if proof.pfx.length ≠ numPrefixBytes maxKeyLenBits then .ok false
  else validateNodes sha maxKeyLenBits fresh proof 0 (some proof.rootNodeHash) proof.nodes

end Validate

section Generate

variable {V : Type} [HashedValue V]

namespace TrieNode

variable (stale : TrieNode V → Hash)

/-- `copy_hash_to_buf`: the buffer of a hash that is not valid keeps an older one. -/
def copyHashToBuf (t : TrieNode V) : Hash := t.hash.getD (stale t)

/-- `create_proof_node`. -/
def createProofNode : TrieNode V → ProofNode
  | .leaf key .. => ⟨BitVec.ofNat 16 (4 * key.length), 0, []⟩
  | .node _ prefixLen children .. => ⟨BitVec.ofNat 16 (4 * prefixLen), bitVector 16 children,
      listed 16 (fun b => (children b).map (copyHashToBuf stale))⟩

mutual

/-- `create_proof`: the proof nodes that it adds, and the value of the leaf that it reaches. -/
def createProof (data : Key) : TrieNode V → List ProofNode × Option V
  | .leaf key value metadata hash => ([createProofNode stale (.leaf key value metadata hash)], some value)
  | .node pfx prefixLen children metadata hash =>
    let (nodes, value) := createProofSlot data (children (getBranchBits prefixLen data))
    (createProofNode stale (.node pfx prefixLen children metadata hash) :: nodes, value)

def createProofSlot (data : Key) : Option (TrieNode V) → List ProofNode × Option V
  | none => ([], none)
  | some child => createProof data child

end

end TrieNode

/-- `generate_proof`. -/
def MerkleTrie.generateProof (stale : TrieNode V → Hash) (t : MerkleTrie V) (data : Key) : Except String Proof :=
  if t.root.metadata.size < 0 then .error "invalid size!"
  else
    let (nodes, value) := t.root.createProof stale data
    .ok {
      nodes
      pfx := pack data
      trieSize := BitVec.ofInt 32 t.root.metadata.size
      rootNodeHash := t.root.copyHashToBuf stale
      valueBytes := (value.map HashedValue.copyData).getD []
      membershipFlag := if value.isSome then 1 else 0 }

end Generate

end Speedex
