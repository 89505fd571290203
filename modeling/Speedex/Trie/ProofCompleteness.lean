import Speedex.Trie.ProofSoundness

set_option autoImplicit false

/- Which of the proofs that a frozen trie makes are accepted: those along whose path every node hashes all
of its children. -/
namespace Speedex

open Branches Bytes TrieNode

section Complete

variable {V : Type} [HashedValue V]

/-- A proof is accepted, and it says truly whether the key is there, and with which value. -/
def CompleteResult (live : Key → Option V) (data : Key) (proof : Proof) (result : Except Fault Bool) : Prop :=
  result = .ok true ∧ (proof.membershipFlag = 1 ↔ live data ≠ none) ∧
    ∀ value, live data = some value → proof.valueBytes = HashedValue.copyData value

variable [Inhabited V] (sha : Sha256) (stale : TrieNode V → Hash) (data : Key)

mutual

/-- On the path of a key every node starts with the digits of the key, and has two children or more, none
of them without live leaves, whose hash buffers are right; a leaf at its end has the key and fits an `int`. -/
def Provable : TrieNode V → Prop
  | .leaf key value _ _ =>
    key = data ∧ (HashedValue.copyData value).length + (numPrefixBytes (4 * key.length) + 2) < 2 ^ 31
  | .node pfx prefixLen children _ _ => data.take prefixLen = pfx.take prefixLen ∧ 2 ≤ occupied children ∧
      (∀ b c, children b = some c → c.Live ∧ c.copyHashToBuf stale = c.nodeHash sha) ∧
      ProvableSlot (children (getBranchBits prefixLen data))

def ProvableSlot : Option (TrieNode V) → Prop
  | none => True
  | some child => Provable child

end

/-- No deleted leaf counts for the size, there is a live one, and the hash buffer of the root is right. -/
def ProvableRoot (root : TrieNode V) : Prop :=
  root.metadata.numDeletedSubnodes % 2 ^ 32 = 0 ∧ root.metadata.size % 2 ^ 32 ≠ 0 ∧
    root.copyHashToBuf stale = root.nodeHash sha

variable {sha : Sha256} {stale : TrieNode V → Hash} {data : Key} {keyLen : Nat} {live : Key → Option V}
  {fresh : Nat → Nat → Byte} {proof : Proof} {t : TrieNode V}

omit [HashedValue V] [Inhabited V] in
@[simp] theorem createProof_leaf {key : Key} {value : V} {m : Metadata} {h : Option Hash} :
    createProof stale data (.leaf key value m h) =
      ([⟨BitVec.ofNat 16 (4 * key.length), 0, []⟩], some value) := by
  rw [createProof, createProofNode]

omit [HashedValue V] [Inhabited V] in
@[simp] theorem createProof_node {pfx : Key} {len : Nat} {cs : Fin 16 → Option (TrieNode V)} {m : Metadata}
    {h : Option Hash} : createProof stale data (.node pfx len cs m h) =
      (createProofNode stale (.node pfx len cs m h) :: (createProofSlot stale data (cs (Digits.digit data len))).1,
        (createProofSlot stale data (cs (Digits.digit data len))).2) := by
  rw [createProof, getBranchBits]

omit [HashedValue V] [Inhabited V] in
/-- Every path starts with a node. -/
theorem createProof_cons (t : TrieNode V) :
    (createProof stale data t).1 = createProofNode stale t :: (createProof stale data t).1.tail := by
  cases t with
  | leaf => rw [createProof_leaf, createProofNode]; rfl
  | node => rw [createProof_node]; rfl

/-- The value that the path of a provable key ends with. -/
theorem createProof_value (shaped : Shaped keyLen t) (alive : t.Live) (provable : Provable sha stale data t) :
    (createProof stale data t).2 = t.liveFind data := by
  induction shaped with
  | @leaf key value m h full own =>
    rw [Provable] at provable
    have unmarked : m.numDeletedSubnodes ≠ 1 := by
      have less : m.numDeletedSubnodes < m.size := alive
      rw [own.size] at less
      omega
    rw [createProof_leaf, liveFind_leaf, if_pos ⟨provable.1.symm, unmarked⟩]
  | @node pfx len cs m h inner full zeros shaped placed sum ih =>
    rw [Provable, getBranchBits] at provable
    obtain ⟨-, -, children, slot⟩ := provable
    rw [createProof_node]
    cases at_digit : cs (Digits.digit data len) with
    | none =>
      rw [liveFind, find_node, at_digit, findSlot_none, createProofSlot]
      rfl
    | some c =>
      rw [at_digit, ProvableSlot] at slot
      rw [liveFind_node at_digit, createProofSlot, ih _ c at_digit (children _ c at_digit).1 slot]

/-- The hashes of a node that has as many as bits. -/
theorem hashBytes_eq {bytes : Nat → Byte} {proofNode : ProofNode}
    (counted : popcount proofNode.bv = proofNode.hashes.length) : hashBytes bytes proofNode = proofNode.hashes.flatten := by
  rw [hashBytes, counted, Nat.sub_self, Nat.mul_zero, List.range_zero, List.map_nil, List.append_nil]

omit [HashedValue V] [Inhabited V] in
theorem createProofNode_counted (t : TrieNode V) :
    popcount (createProofNode stale t).bv = (createProofNode stale t).hashes.length := by
  cases t with
  | leaf =>
    have none : popcount (0 : BitVec 16) = 0 := by decide
    rw [createProofNode]
    exact none
  | node pfx len cs m h =>
    rw [createProofNode, popcount_bitVector, length_listed]
    exact (occupied_congr (fun b => Option.map_eq_none_iff)).symm

section Path

variable (full : ∀ key, live key ≠ none → key.length = keyLen) (long : (unpack proof.pfx).length = keyLen)
  (even : keyLen % 2 = 0) (small : 4 * keyLen < 2 ^ 16) (free : CollisionFree sha keyLen live fresh proof)

/-- The hashes of the contents below a node are those of its children. -/
theorem childHashes_of_agree {pfx : Key} {len : Nat} {cs : Fin 16 → Option (TrieNode V)} {m : Metadata} {h : Option Hash}
    (shaped : Shaped keyLen (.node pfx len cs m h))
    (agree : ∀ key, key.take len = pfx.take len → live key = (node pfx len cs m h).liveFind key) :
    childHashes sha keyLen live (pfx.take len) = fun b => slotHash sha (cs b) := by
  have span : (pfx.take len).length = len := by
    have inside := shaped.prefixLen_le
    rw [node_prefixLen] at inside
    have length : pfx.length = keyLen := shaped.pfx_length
    rw [List.length_take, length, Nat.min_eq_left inside]
  rw [childHashes_congr (fun key below => agree key (by rwa [span] at below))]
  refine (slotHash_eq sha shaped (fun b c occupied alive => nodeHash_eq sha ?_ alive)).symm
  cases shaped with
  | node _ _ _ shaped _ _ => exact shaped b c occupied

include full small in
/-- When a proof node is that of a place on the path. -/
theorem follows_createProofNode_iff {pfx : Key} {len : Nat} {cs : Fin 16 → Option (TrieNode V)} {m : Metadata}
    {h : Option Hash} {i : Nat} (shaped : Shaped keyLen (.node pfx len cs m h))
    (agree : ∀ key, key.take len = pfx.take len → live key = (node pfx len cs m h).liveFind key)
    (typed : ∀ hash ∈ (createProofNode stale (.node pfx len cs m h)).hashes, hash.length = 32) :
    (∃ goal, Follows sha keyLen live fresh proof i (.below (pfx.take len))
        (createProofNode stale (.node pfx len cs m h)) goal) ↔
      (unpack proof.pfx).take len = pfx.take len ∧ 2 ≤ occupied cs ∧
        ∀ b c, cs b = some c → c.Live ∧ c.copyHashToBuf stale = c.nodeHash sha := by
  have table := @childHashes_of_agree _ _ _ sha _ _ _ _ _ _ _ shaped agree
  have hashes := @hashBytes_eq (fresh i) _ (@createProofNode_counted _ stale (node pfx len cs m h))
  have inner : len < keyLen := by
    cases shaped with
    | node inner _ _ _ _ _ => exact inner
  have span : (pfx.take len).length = len := by
    have length : pfx.length = keyLen := shaped.pfx_length
    rw [List.length_take, length, Nat.min_eq_left inner.le]
  have prefixLength : (createProofNode stale (node pfx len cs m h)).prefixLength.toNat = 4 * len := by
    rw [createProofNode, BitVec.toNat_ofNat, Nat.mod_eq_of_lt (by omega)]
  rw [createProofNode] at hashes prefixLength typed ⊢
  constructor
  · rintro ⟨goal, front, same, below, matched⟩
    cases same
    have length : goal.length = len := by
      have bits := prefixLength.symm.trans matched.prefixLength
      omega
    have here : goal = pfx.take len := by
      have starts := below.starts
      rwa [span, List.take_of_length_le length.le] at starts
    subst here
    have bits := matched.bv
    have all := hashes.symm.trans matched.hashes
    rw [table] at bits all
    obtain ⟨d, d', apart, left, right⟩ := below.fork.parts (by rw [span]; exact inner)
    have child : ∀ d, Occupied live (pfx.take len ++ [d]) → cs d ≠ none := by
      intro d some none
      have at_d := congrFun table d
      rw [childHashes_eq_some_iff.mpr ⟨some, rfl⟩, none, slotHash] at at_d
      cases at_d
    have starts := matched.below
    rw [span] at starts
    refine ⟨starts, two_le_occupied apart (child d left) (child d' right), ?_⟩
    have sized : ∀ hash ∈ listed 16 (fun b => slotHash sha (cs b)), hash.length = 32 := by
      intro hash among
      obtain ⟨b, -, at_b⟩ := List.mem_filterMap.mp among
      rw [← congrFun table b] at at_b
      obtain ⟨some, rfl⟩ := childHashes_eq_some_iff.mp at_b
      have next : (pfx.take len ++ [b]).length = (pfx.take len).length + 1 := by simp
      rw [← next]
      exact contentsHash_length full some (by rw [next, span]; exact inner)
    -- all children are live, so the buffers are those that the node was hashed from
    have buffers : (fun b => (cs b).map (copyHashToBuf stale)) = fun b => slotHash sha (cs b) := by
      have bits' : bitVector 16 (fun b => (cs b).map (copyHashToBuf stale)) =
          bitVector 16 (fun b => slotHash sha (cs b)) :=
        (bitVector_congr (fun b => Option.isSome_map)).trans bits
      refine table_eq_of_listed bits' ?_
      have together := @prefix_of_flatten _ _ (by decide : 0 < 32) _ _ [] typed sized (by rw [List.append_nil]; exact all)
      exact together.eq_of_length (by
        rw [length_listed, length_listed, ← popcount_bitVector, ← popcount_bitVector, bits'])
    intro b c occupied
    have at_b := congrFun buffers b
    rw [occupied, slotHash] at at_b
    split at at_b
    · rename_i alive
      exact ⟨alive, Option.some.inj at_b⟩
    · cases at_b
  · rintro ⟨starts, two, children⟩
    have slots : ∀ b c, cs b = some c → slotHash sha (cs b) = some (c.copyHashToBuf stale) := by
      intro b c occupied
      rw [occupied, slotHash, if_pos (children b c occupied).1, (children b c occupied).2]
    have some : ∀ b c, cs b = some c → Occupied live (pfx.take len ++ [b]) := by
      intro b c occupied
      exact (childHashes_eq_some_iff.mp ((congrFun table b).trans (slots b c occupied))).1
    have buffers : (fun b => (cs b).map (copyHashToBuf stale)) = fun b => slotHash sha (cs b) := by
      funext b
      cases occupied : cs b with
      | none => rw [slotHash]; rfl
      | some c => rw [← occupied, slots b c occupied, occupied]; rfl
    obtain ⟨b, b', c, c', apart, left, right⟩ := exists_two two
    have fork : Fork keyLen live (pfx.take len) := by
      obtain ⟨key, present, below⟩ := some b c left
      exact ⟨⟨key, present, take_of_take_append below⟩, by rw [span]; exact inner.le,
        fun _ => ⟨b, b', apart, some b c left, some b' c' right⟩⟩
    refine ⟨pfx.take len, pfx.take len, rfl, .refl fork, by rw [span]; exact inner, by rw [span]; exact starts,
      by rw [span]; exact prefixLength, ?_, ?_⟩
    · rw [table, ← buffers]
      exact bitVector_congr (fun b => Option.isSome_map.symm)
    · rw [hashes, table, ← buffers]

omit [Inhabited V] [HashedValue V] in
include long even in
theorem createProofNode_inside {pfx : Key} {len : Nat} {cs : Fin 16 → Option (TrieNode V)} {m : Metadata}
    {h : Option Hash} {front : Key} (inner : len < keyLen) (small : 4 * keyLen < 2 ^ 16) :
    ¬ NodeOverrun keyLen proof (.below front) (createProofNode stale (.node pfx len cs m h)) := by
  have counted := @createProofNode_counted _ stale (node pfx len cs m h)
  have prefixLength : (createProofNode stale (node pfx len cs m h)).prefixLength.toNat = 4 * len := by
    rw [createProofNode, BitVec.toNat_ofNat, Nat.mod_eq_of_lt (by omega)]
  rw [length_unpack] at long
  rintro ⟨-, reads | writes | beyond⟩
  · rw [prefixLength, numPrefixBytes_digits] at reads
    omega
  · omega
  · cases beyond

/-- A leaf proof of the right form is accepted if it fits an `int` and has the expected hash. -/
theorem validateTrieLeafProof_eq_ok_true {hash : Hash} {valueBytes key : List Byte} {bits : BitVec 16}
    (whole : bits.toNat = 4 * keyLen) :
    validateTrieLeafProof sha (4 * keyLen) ⟨bits, 0, []⟩ valueBytes (some hash) key = .ok true ↔
      valueBytes.length + (numPrefixBytes (4 * keyLen) + 2) < 2 ^ 31 ∧
        sha.digest (leafMessage key (4 * keyLen) valueBytes) = hash := by
  have int := BitVec.toInt_eq_toNat_cond (BitVec.ofNat 32 (valueBytes.length + (numPrefixBytes (4 * keyLen) + 2)))
  rw [BitVec.toNat_ofNat] at int
  rw [validateTrieLeafProof, if_neg (by rintro (apart | apart); exacts [apart whole, apart rfl])]
  dsimp only
  generalize valueBytes.length + (numPrefixBytes (4 * keyLen) + 2) = total at int ⊢
  by_cases fits : total < 2 ^ 31
  · rw [if_pos (by omega), Nat.mod_eq_of_lt (by omega)] at int
    rw [int, if_neg (by omega), if_neg (by omega), compareHash]
    simp only [fits, true_and, Except.ok.injEq, decide_eq_true_eq]
  · refine iff_of_false ?_ (fun both => fits both.1)
    by_cases negative : (BitVec.ofNat 32 total).toInt < 0
    · rw [if_pos negative]
      simp
    · have wraps : (BitVec.ofNat 32 total).toInt < total := by
        rw [int] at negative ⊢
        split at negative
        · rename_i half
          rw [if_pos half]
          omega
        · omega
      rw [if_neg negative, if_pos wraps]
      simp

omit [HashedValue V] [Inhabited V] in
theorem createProofSlot_some (c : TrieNode V) : createProofSlot stale data (some c) = createProof stale data c := by
  rw [createProofSlot]

omit [HashedValue V] [Inhabited V] in
theorem createProofSlot_none : createProofSlot stale data (none : Option (TrieNode V)) = ([], none) := by
  rw [createProofSlot]

/-- What the validator expects at a node whose contents are those of the trie below it. -/
theorem means_of_agree (shaped : Shaped keyLen t) (alive : t.Live)
    (agree : ∀ key, key.take t.prefixLen = t.pfx.take t.prefixLen → live key = t.liveFind key) :
    Means sha keyLen live fresh proof (some (t.nodeHash sha)) (.below (t.pfx.take t.prefixLen)) := by
  have span : (t.pfx.take t.prefixLen).length = t.prefixLen := by
    rw [List.length_take, shaped.pfx_length, Nat.min_eq_left shaped.prefixLen_le]
  obtain ⟨key, present⟩ := (live_iff shaped).mp alive
  have below := (liveFind_under shaped present).2
  refine ⟨?_, ⟨key, by rwa [agree key below], by rwa [span]⟩, by rw [span]; exact shaped.prefixLen_le⟩
  rw [nodeHash_eq sha shaped alive, span,
    ← contentsHash_congr (fun key below => agree key (by rwa [span] at below))]

include full long even small free in
/-- The path of a key is accepted from a node on if the key is provable there. -/
theorem path_accepted_iff (typed : proof.WellTyped) (shaped : Shaped keyLen t) (alive : t.Live) {i : Nat}
    (agree : ∀ key, key.take t.prefixLen = t.pfx.take t.prefixLen → live key = t.liveFind key)
    (tail : ∀ j proofNode, (createProof stale (unpack proof.pfx) t).1[j]? = some proofNode →
      proof.nodes[i + j]? = some proofNode)
    (flag : proof.membershipFlag = if (createProof stale (unpack proof.pfx) t).2.isSome then 1 else 0)
    (bytes : proof.valueBytes = ((createProof stale (unpack proof.pfx) t).2.map HashedValue.copyData).getD []) :
    validateNodes sha (4 * keyLen) fresh proof i (some (t.nodeHash sha)) (createProof stale (unpack proof.pfx) t).1 =
      .ok true ↔ Provable sha stale (unpack proof.pfx) t := by
  induction shaped generalizing i with
  | @leaf key value m h whole own =>
    have shaped : Shaped keyLen (.leaf key value m h) := .leaf whole own
    obtain ⟨digest, present, inside⟩ := @means_of_agree _ _ _ sha _ _ fresh proof _ shaped alive agree
    rw [leaf_pfx, leaf_prefixLen, List.take_length] at digest present inside
    have fork : Fork keyLen live key := ⟨present, inside, fun short => absurd whole short.ne⟩
    have message := @leafMessage_eq_iff _ _ sha _ _ _ _ proof.valueBytes full long small fork
    rw [createProof_leaf] at flag bytes ⊢
    have member : proof.membershipFlag ≠ 0 := by
      rw [flag]
      simp
    have valueBytes : proof.valueBytes = HashedValue.copyData value := bytes
    rw [validateNodes, if_pos member, validateTrieLeafProof_eq_ok_true
      (by rw [BitVec.toNat_ofNat, whole, Nat.mod_eq_of_lt small]), Option.some.inj digest,
      (ForkBelow.refl fork).contentsHash_eq full, Provable, whole, and_comm, valueBytes]
    refine and_congr_left' ?_
    rw [pack_key, valueBytes] at message
    constructor
    · intro same
      exact (message.mp (free.fork key _ fork (Or.inl (by rw [valueBytes])) same)).1
    · intro here
      have unmarked : m.numDeletedSubnodes ≠ 1 := by
        have less : m.numDeletedSubnodes < m.size := alive
        rw [own.size] at less
        omega
      have stored : live key = some value := by
        rw [agree key rfl, liveFind_leaf, if_pos ⟨rfl, unmarked⟩]
      rw [message.mpr ⟨here, value, here ▸ stored, rfl⟩]
  | @node pfx len cs m h inner full' zeros children placed sum ih =>
    have shaped : Shaped keyLen (.node pfx len cs m h) := .node inner full' zeros children placed sum
    have means := @means_of_agree _ _ _ sha _ _ fresh proof _ shaped alive agree
    have here := tail 0 _ (by rw [createProof_node]; rfl)
    rw [Nat.add_zero] at here
    have outcome := node_outcome full long even small free means here
    have follows := @follows_createProofNode_iff _ _ _ sha _ _ _ fresh proof full small _ _ _ _ _ i shaped agree
      (typed.hashes _ (List.mem_of_getElem? here))
    have inside := @createProofNode_inside _ stale _ _ long even pfx len cs m h (pfx.take len) inner small
    rw [node_pfx, node_prefixLen] at outcome
    rw [Provable, getBranchBits]
    generalize same : validateTrieNodeProof sha (4 * keyLen) (fresh i) (createProofNode stale (node pfx len cs m h))
      (some ((node pfx len cs m h).nodeHash sha)) proof.pfx = result at outcome
    cases at_digit : cs (Digits.digit (unpack proof.pfx) len) with
    | none =>
      rw [createProof_node, at_digit, createProofSlot_none] at flag ⊢
      rw [validateNodes, if_neg (by rw [flag]; simp), ProvableSlot, same, and_true]
      cases outcome with
      | overrun excess => exact absurd excess inside
      | refused _ none =>
        refine iff_of_false (by simp) (fun both => ?_)
        obtain ⟨goal, right⟩ := follows.mpr both
        exact none goal right
      | accepted _ goal right => exact iff_of_true rfl (follows.mp ⟨goal, right⟩)
    | some c =>
      rw [createProof_node, at_digit, createProofSlot_some] at tail flag bytes
      rw [createProof_node, at_digit, createProofSlot_some, createProof_cons c, validateNodes, ← createProof_cons c, same,
        ProvableSlot]
      cases outcome with
      | overrun excess => exact absurd excess inside
      | refused _ none =>
        refine iff_of_false (by intro ends; cases ends) (fun all => ?_)
        obtain ⟨goal, right⟩ := follows.mpr ⟨all.1, all.2.1, all.2.2.1⟩
        exact none goal right
      | accepted _ goal right =>
        obtain ⟨starts, two, buffers⟩ := follows.mp ⟨goal, right⟩
        have idx := @getExpectedHashIdx_eq (createProofNode stale (node pfx len cs m h)) (unpack proof.pfx) len
          (by rw [long]; exact inner)
          (by rw [createProofNode, BitVec.toNat_ofNat, Nat.mod_eq_of_lt (by omega)])
        rw [pack_key] at idx
        -- the branch bits of the key lead to the hash of its child
        have hash : (createProofNode stale (node pfx len cs m h)).hashes[rank
            (createProofNode stale (node pfx len cs m h)).bv (Digits.digit (unpack proof.pfx) len)]? =
            some (c.nodeHash sha) := by
          have table : (fun b => (cs b).map (copyHashToBuf stale)) (Digits.digit (unpack proof.pfx) len) =
              some (c.copyHashToBuf stale) := by
            simp only [at_digit, Option.map_some]
          rw [← (buffers _ c at_digit).2, createProofNode, bitVector_congr (fun b => Option.isSome_map.symm)]
          exact listed_rank table
        simp only [bind, Except.bind, idx, hash, if_true]
        have deep := placed _ c at_digit
        have agree' : ∀ key, key.take c.prefixLen = c.pfx.take c.prefixLen → live key = c.liveFind key := by
          intro key below
          have span : (pfx.take len).length = len := by rw [List.length_take, full', Nat.min_eq_left inner.le]
          have next : key.take (pfx.take len ++ [Digits.digit (unpack proof.pfx) len]).length =
              pfx.take len ++ [Digits.digit (unpack proof.pfx) len] :=
            (Digits.take_of_take below deep.1).trans deep.2
          have above := take_of_take_append next
          rw [span] at above
          have digit : Digits.digit key len = Digits.digit (unpack proof.pfx) len := by
            have long := congrArg List.length next
            rw [List.length_take, List.length_append, span, List.length_singleton] at long
            rw [List.length_append, span, List.length_singleton, Digits.take_succ_digit (by omega)] at next
            simpa using (List.append_inj' next rfl).2
          rw [agree key above, liveFind_node (by rw [digit]; exact at_digit)]
        rw [ih _ c at_digit (buffers _ c at_digit).1 agree'
          (fun j other at_j => by rw [Nat.add_assoc, Nat.add_comm 1]; exact tail (j + 1) other at_j) flag bytes]
        exact ⟨fun provable => ⟨starts, two, buffers, provable⟩, fun all => all.2.2.2⟩

omit [Inhabited V] in
include full long even small free in
/-- With nothing to expect no proof is accepted. -/
theorem stray_refused {nodes : List ProofNode} {i : Nat} {parentHash : Option Hash}
    (means : Means sha keyLen live fresh proof parentHash .stray)
    (tail : ∀ j proofNode, nodes[j]? = some proofNode → proof.nodes[i + j]? = some proofNode) :
    validateNodes sha (4 * keyLen) fresh proof i parentHash nodes ≠ .ok true := by
  have refused : ∀ proofNode, proof.nodes[i]? = some proofNode →
      validateTrieNodeProof sha (4 * keyLen) (fresh i) proofNode parentHash proof.pfx ≠ .ok true := by
    intro proofNode here
    have outcome := node_outcome full long even small free means here
    intro accepted
    rw [accepted] at outcome
    cases outcome with
    | accepted _ goal follows =>
      obtain ⟨front, ⟨⟩, -⟩ := follows
  rcases nodes with _ | ⟨back, _ | ⟨next, rest⟩⟩
  · simp [validateNodes]
  · rw [validateNodes]
    split
    · obtain ⟨hash, rfl, apart⟩ := means
      have no : compareHash sha (leafMessage proof.pfx (4 * keyLen) proof.valueBytes) (some hash) ≠ .ok true := by
        rw [compareHash, decide_eq_false (apart _ (Or.inl rfl))]
        simp
      rw [validateTrieLeafProof]
      dsimp only
      split_ifs
      exacts [by simp, by simp, by simp, no]
    · exact refused back (tail 0 back rfl)
  · rw [validateNodes]
    have no := refused back (tail 0 back rfl)
    cases result : validateTrieNodeProof sha (4 * keyLen) (fresh i) back parentHash proof.pfx with
    | error fault =>
      intro ends
      cases ends
    | ok accepted =>
      cases accepted with
      | true => exact absurd result no
      | false =>
        intro ends
        cases ends

end Path

section Root

variable {t' : MerkleTrie V} {hash : Hash} {ranges : List (List Digit)}

theorem live_of_provableRoot {root : TrieNode V} (shaped : Shaped keyLen root)
    (provable : ProvableRoot sha stale root) : root.Live := by
  obtain ⟨deleted, some, -⟩ := provable
  have total := live_length shaped
  rw [Live]
  omega

/-- The size and the root hash that a generated proof carries. -/
theorem rootMatches_iff {root : TrieNode V} (shaped : Shaped keyLen root)
    (size : proof.trieSize = BitVec.ofInt 32 root.metadata.size)
    (rootHash : proof.rootNodeHash = root.copyHashToBuf stale) :
    RootMatches sha keyLen root.liveFind proof ∧ firstExpected root.liveFind = .below [] ↔
      ProvableRoot sha stale root := by
  have count := ncard_live shaped
  have total := live_length shaped
  have marks : 0 ≤ Mark.deleted.count root.metadata := count_nonneg shaped
  rw [Mark.count] at marks
  have bits : proof.trieSize.toNat = root.metadata.size.toNat % 2 ^ 32 := by
    rw [size, BitVec.toNat_ofInt]
    omega
  have expected : firstExpected root.liveFind = .below [] ↔ Set.ncard {key | root.liveFind key ≠ none} % 2 ^ 32 ≠ 0 := by
    rw [firstExpected]
    split
    · rename_i none
      exact iff_of_false (by simp) (not_not.mpr none)
    · rename_i some
      exact iff_of_true rfl some
  rw [expected, RootMatches, bits, rootHash, count]
  constructor
  · rintro ⟨⟨sizes, buffer⟩, some⟩
    have alive : root.Live := by
      rw [Live]
      omega
    rw [if_neg some, ← nodeHash_root shaped alive] at buffer
    exact ⟨by omega, by omega, buffer⟩
  · intro provable
    have alive := live_of_provableRoot shaped provable
    obtain ⟨deleted, some, buffer⟩ := provable
    have filled : (root.metadata.size.toNat - root.metadata.numDeletedSubnodes.toNat) % 2 ^ 32 ≠ 0 := by omega
    refine ⟨⟨by omega, ?_⟩, filled⟩
    rw [if_neg filled, ← nodeHash_root shaped alive, buffer]

/-- The proof that a frozen trie makes for a key is right exactly where the trie allows it: no leaf counts
that is marked deleted, and each node on the path is hashed with all of its children. -/
theorem generateProof_complete_iff {t : MerkleTrie V} (hashed : t.Hashed sha keyLen)
    (frozen : t.freezeAndHash sha ranges = .ok (t', hash)) (generated : t'.generateProof stale data = .ok proof)
    (full : data.length = keyLen) (even : keyLen % 2 = 0) (small : 4 * keyLen < 2 ^ 16) (typed : proof.WellTyped)
    (free : CollisionFree sha keyLen t.liveFind fresh proof) :
    CompleteResult t.liveFind data proof (validateTrieProof sha (4 * keyLen) fresh proof hash) ↔
      ProvableRoot sha stale t'.root ∧ Provable sha stale data t'.root := by
  obtain ⟨t'', frozen', hashed', find⟩ := MerkleTrie.freezeAndHash_spec hashed ranges
  rw [frozen] at frozen'
  cases frozen'
  have contents : t.liveFind = t'.root.liveFind := (liveFind_congr find).symm
  rw [contents] at free ⊢
  have shaped := hashed'.shaped
  have keys : ∀ key, t'.root.liveFind key ≠ none → key.length = keyLen :=
    fun key present => (liveFind_under shaped present).1
  rw [MerkleTrie.generateProof] at generated
  split at generated
  · cases generated
  have made := Except.ok.inj generated
  have pfx : proof.pfx = pack data := by rw [← made]
  have nodes : proof.nodes = (t'.root.createProof stale data).1 := by rw [← made]
  have flag : proof.membershipFlag = if (t'.root.createProof stale data).2.isSome then 1 else 0 := by rw [← made]
  have bytes : proof.valueBytes = ((t'.root.createProof stale data).2.map HashedValue.copyData).getD [] := by rw [← made]
  have key : unpack proof.pfx = data := by
    rw [pfx]
    refine pack_inj ?_ (pack_unpack _)
    rw [length_unpack, length_pack]
    omega
  have long : (unpack proof.pfx).length = keyLen := by rw [key, full]
  have length : proof.pfx.length = numPrefixBytes (4 * keyLen) := by
    rw [pfx, length_pack, numPrefixBytes_digits, full]
  have root := @rootMatches_iff _ _ _ sha stale _ proof _ shaped (by rw [← made]) (by rw [← made])
  have path := fun alive => @path_accepted_iff _ _ _ _ stale _ _ _ _ _ keys long even small free typed shaped alive 0
    (fun _ _ => rfl) (fun j other at_j => by rw [Nat.zero_add, nodes, ← key]; exact at_j) (by rw [key]; exact flag)
    (by rw [key]; exact bytes)
  rw [key, ← nodes] at path
  have rootHash : proof.rootNodeHash = t'.root.copyHashToBuf stale := by rw [← made]
  rw [validateTrieProof]
  constructor
  · rintro ⟨accepted, -, -⟩
    have top : RootMatches sha keyLen t'.root.liveFind proof := by
      by_contra other
      rw [if_pos (fun same => other ((root_matches_iff free).mp same))] at accepted
      cases accepted
    rw [if_neg (not_not.mpr ((root_matches_iff free).mpr top)), if_neg (not_not.mpr length)] at accepted
    have means := means_first free top
    have expected : firstExpected t'.root.liveFind = .below [] := by
      rw [firstExpected] at means ⊢
      split at means
      · exact absurd accepted (stray_refused keys long even small free means
          (fun j other at_j => by rw [Nat.zero_add]; exact at_j))
      · rename_i some
        exact if_neg some
    have provable := root.mp ⟨top, expected⟩
    have buffer := provable.2.2
    rw [rootHash, buffer] at accepted
    exact ⟨provable, (path (live_of_provableRoot shaped provable)).mp accepted⟩
  · rintro ⟨provable, way⟩
    have alive := live_of_provableRoot shaped provable
    have top := (root.mpr provable).1
    have buffer := provable.2.2
    have value := createProof_value shaped alive way
    rw [if_neg (not_not.mpr ((root_matches_iff free).mpr top)), if_neg (not_not.mpr length), rootHash, buffer]
    refine ⟨(path alive).mpr way, ?_, fun here found => ?_⟩
    · rw [flag, value]
      cases t'.root.liveFind data with
      | none => exact iff_of_false (fun same => absurd same (by decide : (0 : BitVec 32) ≠ 1)) (not_not.mpr rfl)
      | some here => exact iff_of_true rfl (by simp)
    · rw [bytes, value, found]
      rfl

end Root

end Complete

section Offers

theorem generateProof_complete_sample : ∃ (t t' : MerkleTrie Offer) (hash : Hash) (proof : Proof),
    (MerkleTrie.new 4).insert .overwrite [0, 0, 0, 0] tenUnits = .ok t ∧ t.freezeAndHash sha256 [] = .ok (t', hash) ∧
      t'.generateProof (fun _ => zeroHash) [0, 0, 0, 0] = .ok proof ∧
      CompleteResult t.liveFind [0, 0, 0, 0] proof (validateTrieProof sha256 (4 * 4) (fun _ _ => 0) proof hash) := by
  have generated : ∃ (t t' : MerkleTrie Offer) (hash : Hash),
      (MerkleTrie.new 4).insert .overwrite [0, 0, 0, 0] tenUnits = .ok t ∧ t.freezeAndHash sha256 [] = .ok (t', hash) ∧
        t'.generateProof (fun _ => zeroHash) [0, 0, 0, 0] = .ok (loneProof [⟨16, 0, []⟩]) ∧
        (∀ key, t.liveFind key = if key = [0, 0, 0, 0] then some tenUnits else none) ∧
        ProvableRoot sha256 (fun _ => zeroHash) t'.root ∧ Provable sha256 (fun _ => zeroHash) [0, 0, 0, 0] t'.root := by
    refine ⟨_, _, _, rfl, rfl, by decide +kernel, fun key => ?_, ⟨rfl, by decide, rfl⟩, ?_⟩
    · exact (liveFind_leaf key).trans (if_congr (and_iff_left (by decide)) rfl rfl)
    · exact ⟨rfl, by decide⟩
  obtain ⟨t, t', hash, inserted, frozen, generated, lone, root, path⟩ := generated
  refine ⟨t, t', hash, _, inserted, frozen, generated, ?_⟩
  refine (@generateProof_complete_iff _ _ _ _ _ _ 4 _ _ _ _ [] _ ?_ frozen generated rfl rfl (by decide) ?_ ?_).mpr
    ⟨root, path⟩
  · exact (MerkleTrie.hashed_new (by decide)).insert (by decide) rfl inserted
  · exact ⟨by decide +kernel, by decide⟩
  · exact lone_collisionFree (by decide) lone

/-- The proof that a trie with one offer makes for another key is rejected. -/
theorem proof_of_absent_key_rejected : ∃ (t t' : MerkleTrie Offer) (hash : Hash) (proof : Proof),
    (MerkleTrie.new 4).insert .overwrite [0, 0, 0, 0] tenUnits = .ok t ∧ t.freezeAndHash sha256 [] = .ok (t', hash) ∧
      t'.generateProof (fun _ => zeroHash) [0, 0, 0, 1] = .ok proof ∧ t.liveFind [0, 0, 0, 1] = none ∧
      validateTrieProof sha256 16 (fun _ _ => 0) proof hash = .ok false ∧ proof.membershipFlag = 1 := by
  refine ⟨_, _, _, _, rfl, rfl, rfl, ?_, by decide +kernel, rfl⟩
  exact (liveFind_leaf _).trans (if_neg (by decide))

end Offers

end Speedex
