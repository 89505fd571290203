import Speedex.Ledger.AccountCommitment
import Speedex.Ledger.AccountIDPrefix
import Speedex.Ledger.ModificationLog
import Speedex.Trie.Ranges
import Speedex.Trie.SubnodeUpdate

set_option autoImplicit false

/- `ParallelApplyLambda`: the commitments of the accounts in the modification log are written to the state trie, one
subtree of the log at a time. -/
namespace Speedex

open TrieNode

/-- The log adds up no amount, and neither does the trie of the commitments. -/
instance : TrieValue AccountModificationTxList := ⟨fun _ => 0⟩

instance : TrieValue AccountCommitment := ⟨fun _ => 0⟩

/-- The XDR form of a commitment. -/
def AccountCommitment.xdr (commitment : AccountCommitment) : List Bytes.Byte :=
  Bytes.bigEndian 8 commitment.owner.toNat ++ Bytes.bigEndian 4 commitment.assets.length ++
    commitment.assets.flatMap (fun entry => Bytes.bigEndian 4 entry.asset.toNat ++ Bytes.bigEndian 8 entry.amountAvailable.toNat) ++
    Bytes.bigEndian 8 commitment.lastCommittedId.toNat ++ commitment.pk

instance : HashedValue AccountCommitment := ⟨AccountCommitment.xdr⟩

instance : Inhabited AccountCommitment := ⟨⟨0, [], 0, List.replicate 32 0⟩⟩

/-- `TRIE_KEYLEN`, in nibbles. -/
def accountKeyLen : Nat := 16

theorem accountKeyLen_pos : 0 < accountKeyLen := by decide

/-- `read_unsigned_big_endian` of a key. -/
def accountOfKey (key : Key) : AccountID := BitVec.ofNat 64 (Digits.value key)

theorem accountOfKey_toKey (owner : AccountID) : accountOfKey (AccountIDPrefix.toKey owner) = owner := by
  apply BitVec.eq_of_toNat_eq
  have small := owner.isLt
  rw [accountOfKey, AccountIDPrefix.toKey, value_bigEndian, BitVec.toNat_ofNat]
  omega

theorem toKey_accountOfKey {key : Key} (full : key.length = accountKeyLen) : AccountIDPrefix.toKey (accountOfKey key) = key := by
  have bound : Digits.value key < 16 ^ 16 := by
    have small := Digits.value_lt key
    rw [full] at small
    exact small
  apply Digits.value_injective
  · rw [AccountIDPrefix.length_toKey, full]
    rfl
  · rw [AccountIDPrefix.toKey, value_bigEndian, accountOfKey, BitVec.toNat_ofNat]
    omega

theorem toKey_injective : Function.Injective AccountIDPrefix.toKey :=
  Function.LeftInverse.injective accountOfKey_toKey

namespace TrieNode

variable {V : Type}

mutual

/-- `AccountTrieNode::apply`. -/
def applyValues {σ : Type} (fn : V → σ → Except String σ) : TrieNode V → σ → Except String σ
  | .leaf _ value _ _, s => fn value s
  | .node _ _ children _ _, s => (List.finRange 16).foldlM (fun s b => applyValuesSlot fn (children b) s) s

def applyValuesSlot {σ : Type} (fn : V → σ → Except String σ) : Option (TrieNode V) → σ → Except String σ
  | none, s => .ok s
  | some c, s => applyValues fn c s

end

theorem applyValues_eq {σ : Type} (fn : V → σ → Except String σ) (t : TrieNode V) (s : σ) :
    t.applyValues fn s = t.entries.foldlM (fun s row => fn row.2.value s) s := by
  induction t using TrieNode.induct generalizing s with
  | leaf key value m h =>
    rw [applyValues, entries_leaf, List.foldlM_cons]
    cases fn value s <;> rfl
  | node pfx len cs m h ih =>
    rw [applyValues, entries_node]
    induction List.finRange 16 generalizing s with
    | nil => rfl
    | cons b branches rest =>
      rw [List.foldlM_cons, List.flatMap_cons, List.foldlM_append]
      have slot : applyValuesSlot fn (cs b) s = (entriesSlot (cs b)).foldlM (fun s row => fn row.2.value s) s := by
        cases occupied : cs b with
        | none => rfl
        | some c =>
          rw [applyValuesSlot, entriesSlot_some]
          exact ih b c occupied s
      rw [slot]
      exact congrArg _ (funext rest)

end TrieNode

namespace MerkleTrie

/-- `apply_lambda`: the value of the owner's leaf is changed by `modify_lambda`, which may throw. -/
def modifyOwner (modifyLambda : AccountID → Except String AccountCommitment) (logValue : AccountModificationTxList)
    (subnode : TrieNode AccountCommitment) : Except String (TrieNode AccountCommitment) := do
  let (subnode, done) := subnode.modifyValueNolocks (fun value => (modifyLambda logValue.owner).toOption.getD value)
    (AccountIDPrefix.toKey logValue.owner)
  done
  let _ ← modifyLambda logValue.owner
  .ok subnode

/-- `ParallelApplyLambda` on one subtree of the log. -/
def parallelApplyLambda (modifyLambda : AccountID → Except String AccountCommitment) (commitmentTrie : MerkleTrie AccountCommitment)
    (workRoot : TrieNode AccountModificationTxList) : Except String (MerkleTrie AccountCommitment) := do
  let commitmentTrieSubnode ← commitmentTrie.getSubnodeRefNolocks workRoot.pfx workRoot.prefixLen
  let root ← callAt (workRoot.applyValues (modifyOwner modifyLambda)) commitmentTrieSubnode commitmentTrie.root
  MerkleTrie.invalidateHashToNodeNolocks ⟨root, commitmentTrie.hash⟩ commitmentTrieSubnode

section Update

variable {sha : Sha256} {trie trie' : MerkleTrie AccountCommitment} {log part : TrieNode AccountModificationTxList}
  {modifyLambda : AccountID → Except String AccountCommitment} {commitment : AccountID → AccountCommitment}

/-- The entries of a log lie at the keys of their owners. -/
def Keyed (log : TrieNode AccountModificationTxList) : Prop :=
  ∀ key l, log.find key = some l → key = AccountIDPrefix.toKey l.value.owner

/-- The values after the update, by key. -/
def valueAt (commitment : AccountID → AccountCommitment) (key : Key) : AccountCommitment := commitment (accountOfKey key)

theorem overwritten_modifyOwner {sub : TrieNode AccountCommitment} {logValue : AccountModificationTxList}
    (shaped : Shaped accountKeyLen sub) (present : sub.find (AccountIDPrefix.toKey logValue.owner) ≠ none)
    (modifies : modifyLambda logValue.owner = .ok (commitment logValue.owner)) :
    ∃ sub', modifyOwner modifyLambda logValue sub = .ok sub' ∧ Overwritten sha accountKeyLen (valueAt commitment)
      (fun query => query = AccountIDPrefix.toKey logValue.owner) sub sub' := by
  obtain ⟨done, outcome⟩ := @overwritten_modify _ _ _ sha accountKeyLen _ (valueAt commitment)
    (fun value => (modifyLambda logValue.owner).toOption.getD value) _ shaped present
    (fun value => by rw [modifies, valueAt, accountOfKey_toKey]; rfl) (fun _ => rfl)
  refine ⟨_, ?_, outcome⟩
  show ((sub.modifyValueNolocks (fun value => (modifyLambda logValue.owner).toOption.getD value)
    (AccountIDPrefix.toKey logValue.owner)).2 >>= fun _ => modifyLambda logValue.owner >>= fun _ => Except.ok _) = _
  rw [done, modifies]
  rfl

/-- The accounts of one part are updated one by one. -/
theorem overwritten_applyValues {sub : TrieNode AccountCommitment} (shaped : Shaped accountKeyLen sub)
    (shapedPart : Shaped accountKeyLen part) (keyed : Keyed part) (present : ∀ query, part.find query ≠ none → sub.find query ≠ none)
    (modifies : ∀ owner, part.find (AccountIDPrefix.toKey owner) ≠ none → modifyLambda owner = .ok (commitment owner)) :
    ∃ sub', part.applyValues (modifyOwner modifyLambda) sub = .ok sub' ∧ Overwritten sha accountKeyLen (valueAt commitment)
      (fun query => part.find query ≠ none) sub sub' := by
  rw [applyValues_eq]
  obtain ⟨sub', loop, outcome⟩ := Fallible.foldlM_total (f := fun s row => modifyOwner modifyLambda row.2.value s) (l := part.entries)
    (fun (done : List (Key × Leaf AccountModificationTxList)) sub' => Overwritten sha accountKeyLen (valueAt commitment)
      (fun query => ∃ row ∈ done, row.1 = query) sub sub')
    (s := sub) ((Overwritten.refl shaped).congr (by simp)) (by
      intro done row sub' start outcome
      have listed : (row.1, row.2) ∈ part.entries := start.subset (List.mem_append_right _ List.mem_cons_self)
      have found := (mem_entries_iff shapedPart).mp listed
      have here : part.find row.1 ≠ none := by
        rw [found]
        exact Option.some_ne_none _
      have key := keyed row.1 row.2 found
      obtain ⟨next, step, outcomeNext⟩ := @overwritten_modifyOwner sha modifyLambda commitment sub' row.2.value outcome.shaped
        (by rw [← key, outcome.present]; exact present _ here) (modifies _ (by rw [← key]; exact here))
      refine ⟨next, step, (outcome.trans outcomeNext).congr (fun query => ?_)⟩
      rw [← key]
      constructor
      · rintro (⟨row', before, same⟩ | rfl)
        · exact ⟨row', List.mem_append_left _ before, same⟩
        · exact ⟨row, List.mem_append_right _ List.mem_cons_self, rfl⟩
      · rintro ⟨row', listed', same⟩
        rcases List.mem_append.mp listed' with before | now
        · exact Or.inl ⟨row', before, same⟩
        · rw [List.mem_singleton.mp now] at same
          exact Or.inr same.symm)
  refine ⟨sub', loop, outcome.congr (fun query => ?_)⟩
  constructor
  · rintro ⟨row, listed, rfl⟩
    rw [(mem_entries_iff shapedPart).mp (show (row.1, row.2) ∈ part.entries from listed)]
    exact Option.some_ne_none _
  · intro found
    obtain ⟨l, found⟩ := Option.ne_none_iff_exists'.mp found
    exact ⟨(query, l), (mem_entries_iff shapedPart).mpr found, rfl⟩

/-- The reference for a part of the log leads to a node that holds every key with the prefix of the part. -/
theorem getSubnodeRef_part (shaped : Shaped accountKeyLen trie.root) (valid : Vacant accountKeyLen part ∨ Canonical accountKeyLen part)
    (present : ∀ query, part.find query ≠ none → trie.find query ≠ none) :
    ∃ path sub, trie.getSubnodeRefNolocks part.pfx part.prefixLen = .ok path ∧ Reaches trie.root path sub ∧
      ∀ query, query.take part.prefixLen = part.pfx.take part.prefixLen → sub.find query = trie.find query := by
  rcases valid with ⟨h, rfl⟩ | canonical
  · -- the empty prefix is matched at the root
    refine ⟨[], trie.root, ?_, .here _, fun _ _ => rfl⟩
    have matched : ∀ t : TrieNode AccountCommitment, t.getSubnodeRefNolocks (List.replicate accountKeyLen 0) 0 = .ok (some []) := by
      intro t
      have zero : getPrefixMatchLen t (List.replicate accountKeyLen 0) 0 = 0 := by
        rw [getPrefixMatchLen, Nat.min_zero, Nat.min_zero]
      cases t with
      | leaf => rw [TrieNode.getSubnodeRefNolocks, zero]; exact if_pos rfl
      | node => rw [TrieNode.getSubnodeRefNolocks, zero]; exact if_pos rfl
    rw [MerkleTrie.getSubnodeRefNolocks, node_pfx, node_prefixLen, matched]
    rfl
  · obtain ⟨key, found⟩ := exists_find canonical
    obtain ⟨l, here⟩ := Option.ne_none_iff_exists'.mp found
    have under := (find_under canonical.shaped here).2
    obtain ⟨path, sub, done, reaches, whole⟩ := getSubnodeRef_spec shaped (present key found) under.symm canonical.shaped.prefixLen_le
    refine ⟨path, sub, ?_, reaches, whole⟩
    rw [MerkleTrie.getSubnodeRefNolocks, done]
    rfl

/-- One subtree of the log. -/
theorem parallelApplyLambda_spec (shaped : Shaped accountKeyLen trie.root)
    (valid : Vacant accountKeyLen part ∨ Canonical accountKeyLen part) (keyed : Keyed part)
    (present : ∀ query, part.find query ≠ none → trie.find query ≠ none)
    (modifies : ∀ owner, part.find (AccountIDPrefix.toKey owner) ≠ none → modifyLambda owner = .ok (commitment owner)) :
    ∃ trie', parallelApplyLambda modifyLambda trie part = .ok trie' ∧ trie'.hash = none ∧
      Overwritten sha accountKeyLen (valueAt commitment) (fun query => part.find query ≠ none) trie.root trie'.root := by
  have shapedPart : Shaped accountKeyLen part := valid.elim (shaped_of_vacant accountKeyLen_pos) Canonical.shaped
  obtain ⟨path, sub, done, reaches, whole⟩ := getSubnodeRef_part shaped valid present
  have inside : ∀ query, part.find query ≠ none → sub.find query ≠ none := by
    intro query here
    obtain ⟨l, found⟩ := Option.ne_none_iff_exists'.mp here
    rw [whole query (find_under shapedPart found).2]
    exact present query here
  obtain ⟨sub', loop, outcome⟩ := @overwritten_applyValues sha part modifyLambda commitment sub (reaches.shaped shaped) shapedPart keyed
    inside modifies
  obtain ⟨called, root, calls, there, invalidated, outcomeRoot⟩ := overwritten_callAt shaped reaches loop outcome inside
  refine ⟨⟨root, none⟩, ?_, rfl, outcomeRoot⟩
  rw [parallelApplyLambda, done]
  show (callAt _ path trie.root >>= _) = _
  rw [calls]
  show MerkleTrie.invalidateHashToNodeNolocks ⟨called, trie.hash⟩ path = _
  rw [MerkleTrie.invalidateHashToNodeNolocks]
  simp only [there, invalidated]
  rfl

/-- All parts of the log, one after the other. -/
theorem parallelApplyLambda_parts (shaped : Shaped accountKeyLen trie.root) (keyed : Keyed log)
    (contains : ∀ query, log.find query ≠ none → trie.find query ≠ none)
    (modifies : ∀ owner, log.find (AccountIDPrefix.toKey owner) ≠ none → modifyLambda owner = .ok (commitment owner))
    {parts : List (TrieNode AccountModificationTxList)} (cover : PartsCover accountKeyLen log parts) :
    ∃ trie', parts.foldlM (parallelApplyLambda modifyLambda) trie = .ok trie' ∧ (trie'.hash = none ∨ trie' = trie) ∧
      Overwritten sha accountKeyLen (valueAt commitment) (fun query => log.find query ≠ none) trie.root trie'.root := by
  obtain ⟨trie', loop, fresh, outcome⟩ := Fallible.foldlM_total (f := parallelApplyLambda modifyLambda) (l := parts)
    (fun (done : List (TrieNode AccountModificationTxList)) trie' => (trie'.hash = none ∨ trie' = trie) ∧
      Overwritten sha accountKeyLen (valueAt commitment) (fun query => ∃ part ∈ done, part.find query ≠ none) trie.root trie'.root)
    (s := trie) ⟨Or.inr rfl, (Overwritten.refl shaped).congr (by simp)⟩ (by
      rintro done part trie' start ⟨-, outcome⟩
      have listed : part ∈ parts := start.subset (List.mem_append_right _ List.mem_cons_self)
      have logged : ∀ query, part.find query ≠ none → log.find query ≠ none := by
        intro query here
        obtain ⟨l, found⟩ := Option.ne_none_iff_exists'.mp here
        rw [cover.within part listed query l found]
        exact Option.some_ne_none l
      obtain ⟨next, step, cold, outcomeNext⟩ := @parallelApplyLambda_spec sha trie' part modifyLambda commitment outcome.shaped
        (cover.valid part listed) (fun key l found => keyed key l (cover.within part listed key l found))
        (fun query here => (outcome.present query).mpr (contains query (logged query here)))
        (fun owner here => modifies owner (logged _ here))
      refine ⟨next, step, Or.inl cold, (outcome.trans outcomeNext).congr (fun query => ?_)⟩
      simp only [List.mem_append, List.mem_singleton, or_and_right, exists_or, exists_eq_left])
  refine ⟨trie', loop, fresh, outcome.congr (fun query => ?_)⟩
  constructor
  · rintro ⟨part, listed, here⟩
    obtain ⟨l, found⟩ := Option.ne_none_iff_exists'.mp here
    rw [cover.within part listed query l found]
    exact Option.some_ne_none l
  · intro here
    obtain ⟨l, found⟩ := Option.ne_none_iff_exists'.mp here
    obtain ⟨part, listed, there⟩ := cover.covered query l found
    exact ⟨part, listed, by rw [there]; exact Option.some_ne_none l⟩

/-- What an update of the state trie from a divided log is to do: find the subtrees, set the commitments of the logged
accounts and of no others, and leave the hash of a trie of all commitments if the others were up to date. -/
structure UpdateComplete (sha : Sha256) (modifyLambda : AccountID → Except String AccountCommitment)
    (commitment : AccountID → AccountCommitment) (trie : MerkleTrie AccountCommitment) (log : TrieNode AccountModificationTxList)
    (parts : List (TrieNode AccountModificationTxList)) : Prop where
  subnodes : ∀ part ∈ parts, ∃ path sub, trie.getSubnodeRefNolocks part.pfx part.prefixLen = .ok path ∧
    subnodeAt path trie.root = some sub ∧
    ∀ query, query.take part.prefixLen = part.pfx.take part.prefixLen → sub.find query = trie.find query
  updated : ∃ trie', parts.foldlM (parallelApplyLambda modifyLambda) trie = .ok trie' ∧ trie'.Valid accountKeyLen ∧
    (∀ owner, log.find (AccountIDPrefix.toKey owner) ≠ none → trie'.find (AccountIDPrefix.toKey owner) =
      (trie.find (AccountIDPrefix.toKey owner)).map (Leaf.modify (fun _ => commitment owner))) ∧
    (∀ owner, log.find (AccountIDPrefix.toKey owner) = none →
      trie'.find (AccountIDPrefix.toKey owner) = trie.find (AccountIDPrefix.toKey owner)) ∧
    ((∀ owner l, log.find (AccountIDPrefix.toKey owner) = none → trie.find (AccountIDPrefix.toKey owner) = some l →
        l.value = commitment owner) →
      ∀ accounts : List AccountID, (∀ owner, owner ∈ accounts ↔ trie.find (AccountIDPrefix.toKey owner) ≠ none) →
        ∀ ranges ranges', ∃ fresh fresh' trie'' hash,
          accounts.foldlM (fun t owner => t.insert .overwrite (AccountIDPrefix.toKey owner) (commitment owner))
            (MerkleTrie.new accountKeyLen) = .ok fresh ∧
          fresh.freezeAndHash sha ranges = .ok (fresh', hash) ∧ trie'.freezeAndHash sha ranges' = .ok (trie'', hash))

/-- The update is complete, however the log is divided. -/
theorem parallelApply_complete (valid : trie.Valid accountKeyLen) (hashed : trie.Hashed sha accountKeyLen)
    (plain : ∀ key l, trie.find key = some l → l.metadata = Metadata.ofValue l.value)
    (form : Vacant accountKeyLen log ∨ Canonical accountKeyLen log) (keyed : Keyed log)
    (contains : ∀ owner, log.find (AccountIDPrefix.toKey owner) ≠ none → trie.find (AccountIDPrefix.toKey owner) ≠ none)
    (modifies : ∀ owner, log.find (AccountIDPrefix.toKey owner) ≠ none → modifyLambda owner = .ok (commitment owner))
    {parts : List (TrieNode AccountModificationTxList)} (divided : Parts log parts) :
    UpdateComplete sha modifyLambda commitment trie log parts := by
  have shaped := valid.shaped accountKeyLen_pos
  have shapedLog : Shaped accountKeyLen log := form.elim (shaped_of_vacant accountKeyLen_pos) Canonical.shaped
  have cover := divided.cover form
  -- every key is the key of an account
  have logged : ∀ query, log.find query ≠ none → trie.find query ≠ none := by
    intro query here
    obtain ⟨l, found⟩ := Option.ne_none_iff_exists'.mp here
    have key := toKey_accountOfKey (find_length shapedLog found)
    rw [← key] at here ⊢
    exact contains _ here
  obtain ⟨trie', loop, fresh, outcome⟩ := @parallelApplyLambda_parts sha trie log modifyLambda commitment shaped keyed logged modifies
    parts cover
  have written : ∀ owner, log.find (AccountIDPrefix.toKey owner) ≠ none → trie'.find (AccountIDPrefix.toKey owner) =
      (trie.find (AccountIDPrefix.toKey owner)).map (Leaf.modify (fun _ => commitment owner)) := by
    intro owner here
    have value := outcome.written _ here
    rw [valueAt, accountOfKey_toKey] at value
    exact value
  have kept : ∀ owner, log.find (AccountIDPrefix.toKey owner) = none →
      trie'.find (AccountIDPrefix.toKey owner) = trie.find (AccountIDPrefix.toKey owner) :=
    fun owner here => outcome.kept _ (not_not.mpr here)
  refine ⟨fun part listed => ?_, trie', loop, ?_, written, kept, fun current accounts members ranges ranges' => ?_⟩
  · obtain ⟨path, sub, done, reaches, whole⟩ := getSubnodeRef_part shaped (cover.valid part listed) (fun query here => by
      obtain ⟨l, found⟩ := Option.ne_none_iff_exists'.mp here
      exact logged query (by rw [cover.within part listed query l found]; exact Option.some_ne_none l))
    exact ⟨path, sub, done, reaches.subnodeAt, whole⟩
  · exact valid.imp outcome.vacant (fun canonical => ⟨outcome.shaped, outcome.compact canonical.compact⟩)
  · have hashed' : trie'.Hashed sha accountKeyLen := by
      rcases fresh with cold | same
      · refine ⟨outcome.shaped, outcome.sound hashed.sound, fun hash valid => ?_⟩
        rw [cold] at valid
        cases valid
      · rw [same]
        exact hashed
    -- afterwards every account has its commitment
    have live : ∀ owner, trie.find (AccountIDPrefix.toKey owner) ≠ none →
        trie'.liveFind (AccountIDPrefix.toKey owner) = some (commitment owner) := by
      intro owner present
      obtain ⟨l, found⟩ := Option.ne_none_iff_exists'.mp present
      have after : trie'.find (AccountIDPrefix.toKey owner) = some ⟨commitment owner, l.metadata⟩ := by
        cases here : log.find (AccountIDPrefix.toKey owner) with
        | none =>
          rw [kept owner here, found, ← current owner l here found]
        | some entry =>
          rw [written owner (by rw [here]; exact Option.some_ne_none _), found]
          rfl
      rw [MerkleTrie.liveFind, TrieNode.liveFind, show trie'.root.find _ = _ from after, plain _ l found]
      rfl
    have none : ∀ key, trie'.find key = none → trie'.liveFind key = none := by
      intro key absent
      rw [MerkleTrie.liveFind, TrieNode.liveFind, show trie'.root.find key = none from absent]
      rfl
    have listed : ∀ key value, (key, value) ∈ accounts.map (fun owner => (AccountIDPrefix.toKey owner, commitment owner)) ↔
        trie'.liveFind key = some value := by
      intro key value
      rw [List.mem_map]
      constructor
      · rintro ⟨owner, here, same⟩
        cases same
        exact live owner ((members owner).mp here)
      · intro there
        have present : trie'.find key ≠ .none := by
          intro absent
          rw [none key absent] at there
          cases there
        obtain ⟨l, found⟩ := Option.ne_none_iff_exists'.mp present
        have full := find_length outcome.shaped found
        have before := (outcome.present key).mp present
        rw [← toKey_accountOfKey full] at there before
        rw [live _ before] at there
        refine ⟨accountOfKey key, (members _).mpr before, ?_⟩
        rw [toKey_accountOfKey full, Option.some.inj there]
    obtain ⟨fresh, built, hashedFresh, same⟩ := @insert_all _ _ sha accountKeyLen _ accountKeyLen_pos .overwrite
      (accounts.map (fun owner => (AccountIDPrefix.toKey owner, commitment owner))) trie'.liveFind (by
        rintro pair here
        obtain ⟨owner, -, rfl⟩ := List.mem_map.mp here
        exact AccountIDPrefix.length_toKey owner) listed
    obtain ⟨fresh', done, -⟩ := freezeAndHash_spec hashedFresh ranges
    obtain ⟨trie'', done', -⟩ := freezeAndHash_spec hashed' ranges'
    rw [List.foldlM_map] at built
    rw [same] at done
    exact ⟨fresh, fresh', trie'', _, built, done, done'⟩

end Update

/-- One of two accounts is logged. -/
theorem parallelApply_complete_sample : ∃ (trie : MerkleTrie AccountCommitment) (log : MerkleTrie AccountModificationTxList),
    trie.find (AccountIDPrefix.toKey 7) ≠ none ∧ trie.find (AccountIDPrefix.toKey 12) ≠ none ∧
      log.find (AccountIDPrefix.toKey 7) ≠ none ∧
      UpdateComplete sha256 (fun owner => .ok ⟨owner, [⟨0, 5⟩], 0, []⟩) (fun owner => ⟨owner, [⟨0, 5⟩], 0, []⟩) trie log.root [log.root] := by
  have full : ∀ owner, (AccountIDPrefix.toKey owner).length = accountKeyLen := AccountIDPrefix.length_toKey
  obtain ⟨first, done, valid, finds⟩ := insert_spec .overwrite (⟨7, [], 0, []⟩ : AccountCommitment) (valid_new accountKeyLen)
    accountKeyLen_pos (full 7)
  obtain ⟨trie, done', valid', finds'⟩ := insert_spec .overwrite (⟨12, [], 0, []⟩ : AccountCommitment) valid accountKeyLen_pos (full 12)
  obtain ⟨log, logged, validLog, findsLog⟩ := insert_spec .overwrite (AccountModificationTxList.new 7) (valid_new accountKeyLen)
    accountKeyLen_pos (full 7)
  have hashed : trie.Hashed sha256 accountKeyLen :=
    ((hashed_new accountKeyLen_pos).insert accountKeyLen_pos (full 7) done).insert accountKeyLen_pos (full 12) done'
  have other : AccountIDPrefix.toKey 7 ≠ AccountIDPrefix.toKey 12 := fun same => absurd (toKey_injective same) (by decide)
  have seven : trie.find (AccountIDPrefix.toKey 7) ≠ none := by
    rw [finds', if_neg other, finds, if_pos rfl]
    exact Option.some_ne_none _
  have one : ∀ key l, log.find key = some l → key = AccountIDPrefix.toKey 7 ∧ l.value = .new 7 := by
    intro key l found
    rw [findsLog, find_new] at found
    split at found
    · rename_i here
      cases found
      exact ⟨here, rfl⟩
    · cases found
  refine ⟨trie, log, seven, ?_, ?_, parallelApply_complete valid' hashed ?_ validLog ?_ ?_ (fun _ _ => rfl) .whole⟩
  · rw [finds', if_pos rfl]
    exact Option.some_ne_none _
  · rw [findsLog, if_pos rfl]
    exact Option.some_ne_none _
  · intro key l found
    rw [finds', finds, find_new] at found
    split at found
    · cases found
      rfl
    · split at found
      · cases found
        rfl
      · cases found
  · intro key l found
    obtain ⟨here, value⟩ := one key l found
    rw [here, value]
    rfl
  · intro owner present
    obtain ⟨l, found⟩ := Option.ne_none_iff_exists'.mp present
    rw [(one _ l found).1]
    exact seven

end MerkleTrie

end Speedex
