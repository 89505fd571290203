import Speedex.Trie.HashSoundness

set_option autoImplicit false

/- The root hash: what `freeze_and_hash` returns while the valid hashes of a trie are right, and what
keeps them right. -/
namespace Speedex

open TrieNode

section Root

variable {V : Type} [HashedValue V]

def zeroHash : Hash := List.replicate 32 0

/-- The message of `get_root_hash`. -/
def rootDigest (numChildren : Nat) (rootHash : Hash) : List Bytes.Byte :=
  Bytes.bigEndian 4 numChildren ++ (if numChildren = 0 then zeroHash else rootHash)

/-- `get_root_hash`; the number of children is a `uint32_t`. -/
def getRootHash (sha : Sha256) (root : TrieNode V) : Except String Hash :=
  if root.metadata.size < 0 then .error "invalid size!"
  else if root.metadata.numDeletedSubnodes < 0 then .error "invalid number of deleted subnodes"
  else
    let numChildren := (root.metadata.size.toNat - root.metadata.numDeletedSubnodes.toNat) % 2 ^ 32
    .ok (sha.digest (rootDigest numChildren (root.hash.getD zeroHash)))

/-- The hash of a trie with these live contents. -/
noncomputable def contentsRoot (sha : Sha256) (keyLen : Nat) (live : Key → Option V) : Hash :=
  sha.digest (rootDigest (Set.ncard {key | live key ≠ none} % 2 ^ 32) (contentsHash sha live keyLen []))

namespace MerkleTrie

def liveFind (t : MerkleTrie V) (key : Key) : Option V := t.root.liveFind key

def clearMarkedDeletions (t : MerkleTrie V) : MerkleTrie V := ⟨t.root.clearMarkedDeletions, t.hash⟩

def markSubtreeLtKeyForDeletion (useLocks : Bool) (t : MerkleTrie V) (maxKey : Key) : MerkleTrie V :=
  ⟨(t.root.markSubtreeLtKeyForDeletion useLocks maxKey).1, t.hash⟩

def markEntireTreeForDeletion (t : MerkleTrie V) : MerkleTrie V := ⟨t.root.markSubtreeForDeletion.1, t.hash⟩

variable [Inhabited V]

/-- `freeze_and_hash`. Before the root is hashed, threads hash the nodes of some ranges, each known by
its path from the root. -/
def freezeAndHash (sha : Sha256) (ranges : List (List Digit)) (t : MerkleTrie V) :
    Except String (MerkleTrie V × Hash) :=
  match t.hash with
  | some hash => .ok (t, hash)
  | none => do
    let root ← ranges.foldlM (fun root path => root.computeHashAt sha path) t.root
    let root ← root.computeHash sha
    let hash ← getRootHash sha root
    .ok (⟨root, some hash⟩, hash)

/-- The valid hashes of a trie are right. -/
structure Hashed (sha : Sha256) (keyLen : Nat) (t : MerkleTrie V) : Prop where
  shaped : Shaped keyLen t.root
  sound : HashSound sha t.root
  handle : ∀ hash, t.hash = some hash → hash = contentsRoot sha keyLen t.liveFind

end MerkleTrie

variable {sha : Sha256} {keyLen : Nat}

/-- As many live keys as the metadata says. -/
theorem ncard_live {t : TrieNode V} (shaped : Shaped keyLen t) :
    Set.ncard {key | t.liveFind key ≠ none} = t.metadata.size.toNat - t.metadata.numDeletedSubnodes.toNat := by
  have keys : {key | t.liveFind key ≠ none} = ((t.liveRows.map Prod.fst).toFinset : Set Key) := by
    ext key
    rw [Set.mem_ofPred_eq, List.coe_toFinset, Set.mem_ofPred_eq, List.mem_map]
    constructor
    · intro present
      obtain ⟨l, found, unmarked, -⟩ := liveFind_ne_none present
      exact ⟨(key, l), (mem_liveRows shaped).mpr ⟨found, unmarked⟩, rfl⟩
    · rintro ⟨⟨key, l⟩, listed, rfl⟩
      obtain ⟨found, unmarked⟩ := (mem_liveRows shaped).mp listed
      rw [TrieNode.liveFind, found, Option.filter_some_pos (by rw [unmarked]; rfl)]
      exact Option.some_ne_none _
  have nodup : (t.liveRows.map Prod.fst).Nodup :=
    List.Nodup.sublist (List.filter_sublist.map Prod.fst) (entries_keys_nodup shaped)
  have count := live_length shaped
  have marks : 0 ≤ Mark.deleted.count t.metadata := count_nonneg shaped
  rw [Mark.count] at marks
  have size := size_eq_length shaped
  rw [keys, Set.ncard_coe_finset, List.toFinset_card_of_nodup nodup, List.length_map]
  omega

variable [Inhabited V]

/-- The hash of a root with live contents, wherever its prefix ends. -/
theorem nodeHash_root {root : TrieNode V} (shaped : Shaped keyLen root) (live : root.Live) :
    root.nodeHash sha = contentsHash sha root.liveFind keyLen [] := by
  have inside := shaped.prefixLen_le
  have long := shaped.pfx_length
  have span : (root.pfx.take root.prefixLen).length = root.prefixLen := by
    rw [List.length_take, long, Nat.min_eq_left inside]
  obtain ⟨key, present⟩ := (live_iff shaped).mp live
  rw [nodeHash_eq sha shaped live]
  conv => rhs; rw [← Nat.sub_add_cancel inside]
  refine (contentsHash_extend ?_ rfl ⟨key, present, ?_⟩ (fun key present _ => ?_)).symm
  · rw [span, List.length_nil, Nat.zero_add]
  · rw [span, (liveFind_under shaped present).2]
  · rw [span, (liveFind_under shaped present).2]

/-- Hashing a root gives the hash of its live contents. -/
theorem getRootHash_spec {root : TrieNode V} (shaped : Shaped keyLen root) (sound : HashSound sha root)
    (valid : root.hash ≠ none) : getRootHash sha root = .ok (contentsRoot sha keyLen root.liveFind) := by
  have count := ncard_live shaped
  have size := size_eq_length shaped
  have marks : 0 ≤ Mark.deleted.count root.metadata := count_nonneg shaped
  rw [Mark.count] at marks
  obtain ⟨digest, valid⟩ := Option.ne_none_iff_exists'.mp valid
  rw [getRootHash, if_neg (by omega), if_neg (by omega), contentsRoot, count, valid, Option.getD_some]
  refine congrArg (fun message => Except.ok (sha.digest message)) ?_
  rw [rootDigest, rootDigest]
  refine congrArg (Bytes.bigEndian 4 _ ++ ·) ?_
  refine ite_congr rfl (fun _ => rfl) (fun some => ?_)
  have live : root.Live := by
    rw [Live]
    omega
  rw [sound.hash_eq live valid, nodeHash_root shaped live]

namespace MerkleTrie

variable {t : MerkleTrie V}

/-- Hashing keeps the contents. -/
theorem hashed_of_rehashed {root root' : TrieNode V} (rehashed : Rehashed sha keyLen root root') :
    (⟨root', some (contentsRoot sha keyLen root.liveFind)⟩ : MerkleTrie V).Hashed sha keyLen := by
  refine ⟨rehashed.shaped, rehashed.sound, ?_⟩
  rintro hash ⟨⟩
  exact congrArg (contentsRoot sha keyLen) rehashed.liveFind.symm

/-- Whichever ranges are hashed first, `freeze_and_hash` returns the hash of the live contents. -/
theorem freezeAndHash_spec (hashed : t.Hashed sha keyLen) (ranges : List (List Digit)) :
    ∃ t', t.freezeAndHash sha ranges = .ok (t', contentsRoot sha keyLen t.liveFind) ∧ t'.Hashed sha keyLen ∧
      t'.find = t.find := by
  rw [freezeAndHash]
  cases valid : t.hash with
  | some hash => exact ⟨t, by rw [hashed.handle hash valid], hashed, rfl⟩
  | none =>
    have ready : ∃ root, ranges.foldlM (fun root path => root.computeHashAt sha path) t.root = .ok root ∧
        Rehashed sha keyLen t.root root := by
      refine Fallible.foldlM_total (fun _ root => Rehashed sha keyLen t.root root) (.refl hashed.shaped hashed.sound) ?_
      intro _ path root _ rehashed
      obtain ⟨root', done, further⟩ := computeHashAt_spec path rehashed.shaped rehashed.sound
      exact ⟨root', done, rehashed.trans further⟩
    obtain ⟨root, loop, rehashed⟩ := ready
    obtain ⟨root', done, further, own⟩ := computeHash_spec rehashed.shaped rehashed.sound
    have all := rehashed.trans further
    have top := getRootHash_spec all.shaped all.sound own
    rw [all.liveFind] at top
    refine ⟨⟨root', some (contentsRoot sha keyLen t.liveFind)⟩, ?_, hashed_of_rehashed all, all.find⟩
    simp only [loop, done, bind, Except.bind, top]
    rfl

section Steps

variable {key : Key}

theorem hashed_new (long : 0 < keyLen) : (new keyLen : MerkleTrie V).Hashed sha keyLen :=
  ⟨shaped_of_vacant long (vacant_makeEmptyNode keyLen), .node (by simp) (by simp), by simp [new]⟩

/-- A trie whose root hash is invalid. -/
theorem hashed_of_invalid {root : TrieNode V} (shaped : Shaped keyLen root) (sound : HashSound sha root) :
    (⟨root, none⟩ : MerkleTrie V).Hashed sha keyLen := ⟨shaped, sound, nofun⟩

/-- A trie whose live contents stay as they were. -/
theorem Hashed.of_liveFind {t' : MerkleTrie V} (hashed : t.Hashed sha keyLen) (shaped : Shaped keyLen t'.root)
    (sound : HashSound sha t'.root) (kept : t'.hash = none ∨ t'.hash = t.hash ∧ t'.liveFind = t.liveFind) :
    t'.Hashed sha keyLen := by
  refine ⟨shaped, sound, fun hash valid => ?_⟩
  rcases kept with invalid | ⟨same, live⟩
  · rw [invalid] at valid
    cases valid
  · rw [live]
    exact hashed.handle hash (same ▸ valid)

theorem Hashed.insert {insertFn : InsertFn} {value : V} {t' : MerkleTrie V} (hashed : t.Hashed sha keyLen)
    (long : 0 < keyLen) (full : key.length = keyLen) (done : t.insert insertFn key value = .ok t') :
    t'.Hashed sha keyLen := by
  obtain ⟨⟨root, delta⟩, step, done⟩ := Fallible.bind_eq_ok.mp done
  cases done
  exact hashed_of_invalid (shaped_insert hashed.shaped long full step)
    (insert_hereditary hereditary_hashSound hashed.sound step)

theorem Hashed.mergeInWith {mergeFn : MergeFn V} {other t' : MerkleTrie V} (hashed : t.Hashed sha keyLen)
    (hashed' : other.Hashed sha keyLen) (long : 0 < keyLen) (done : t.mergeInWith mergeFn other = .ok t') :
    t'.Hashed sha keyLen := by
  obtain ⟨c, done', united⟩ := mergeIn_cases mergeFn hashed.shaped hashed'.shaped long
  rw [done] at done'
  cases done'
  rcases united with ⟨-, rfl⟩ | ⟨-, -, rfl⟩ | ⟨filled, filled', merged⟩
  · exact hashed_of_invalid hashed'.shaped hashed'.sound
  · exact hashed_of_invalid hashed.shaped hashed.sound
  · refine hashed_of_invalid merged.shaped ?_
    rw [MerkleTrie.mergeInWith, if_neg filled] at done
    obtain ⟨size, -, done⟩ := Fallible.bind_eq_ok.mp done
    split at done
    · cases done
      exact hashed.sound
    · obtain ⟨⟨root, delta⟩, step, done⟩ := Fallible.bind_eq_ok.mp done
      cases done
      exact mergeIn_hereditary hereditary_hashSound hashed.sound hashed'.sound step

/-- The root stays, replaced by its only child if it has one. -/
theorem hashed_collapse {root : TrieNode V} {h : Option Hash} (shaped : Shaped keyLen root) (sound : HashSound sha root)
    (kept : h = none ∨ h = t.hash ∧ root.liveFind = t.liveFind) (hashed : t.Hashed sha keyLen) :
    (⟨root.collapse, h⟩ : MerkleTrie V).Hashed sha keyLen := by
  have same := collapse_spec shaped
  refine hashed.of_liveFind same.shaped (hereditary_hashSound.collapse sound) (kept.imp_right (And.imp_right ?_))
  exact fun live => (liveFind_congr same.find).trans live

theorem Hashed.performDeletion (hashed : t.Hashed sha keyLen) (long : 0 < keyLen) (full : key.length = keyLen) :
    (t.performDeletion keyLen key).1.Hashed sha keyLen := by
  have result := TrieNode.performDeletion_spec hashed.shaped full
  have sound := (hashSound_performDeletion full hashed.shaped hashed.sound).1
  rw [MerkleTrie.performDeletion]
  generalize t.root.performDeletion key = removed at result sound ⊢
  obtain ⟨root, deleteChild, deletedObj, delta⟩ := removed
  cases deleteChild with
  | true =>
    obtain ⟨l, rfl, -⟩ := result
    have bare : (makeEmptyNode keyLen : TrieNode V).collapse = makeEmptyNode keyLen := collapse_bare
    simp only [if_true, bare, ite_self]
    exact hashed_new long
  | false =>
    have kept : (if deletedObj.isSome then none else t.hash) = none ∨
        (if deletedObj.isSome then none else t.hash) = t.hash ∧ root.liveFind = t.liveFind := by
      cases deletedObj with
      | some value => exact Or.inl rfl
      | none =>
        refine Or.inr ⟨rfl, liveFind_congr (funext (fun query => ?_))⟩
        have absent : t.root.find key = none := Option.map_eq_none_iff.mp result.object.symm
        rw [result.find]
        by_cases here : query = key
        · rw [if_pos here, here, absent]
        · rw [if_neg here]
    have collapsed := hashed_collapse result.shaped sound kept hashed
    simp only [Bool.false_eq_true, if_false]
    by_cases bare : root.collapse.metadata.size = 0
    · rw [if_pos bare]
      have fresh : (new keyLen : MerkleTrie V).Hashed sha keyLen := hashed_new long
      refine collapsed.of_liveFind fresh.shaped fresh.sound (Or.inr ⟨rfl, liveFind_congr (funext (fun query => ?_))⟩)
      exact (find_of_vacant (vacant_makeEmptyNode keyLen) query).trans
        ((TrieNode.size_eq_zero_iff collapsed.shaped).mp bare query).symm
    · rw [if_neg bare]
      exact collapsed

theorem Hashed.withMark {expect desired : Int} {eager : Bool} (hashed : t.Hashed sha keyLen)
    (mark : desired = 0 ∨ desired = 1) (full : key.length = keyLen) :
    (t.withMark (swapMark expect desired eager t.root key)).1.Hashed sha keyLen := by
  have swapped := swapMark_spec expect eager mark hashed.shaped full
  refine hashed.of_liveFind swapped.shaped (swapMark_hereditary hereditary_hashSound hashed.sound) ?_
  rw [MerkleTrie.withMark]
  have object := swapped.object
  cases marked : (swapMark expect desired eager t.root key).2.2 with
  | some value => exact Or.inl rfl
  | none =>
    refine Or.inr ⟨rfl, liveFind_congr (funext (fun query => ?_))⟩
    rw [marked] at object
    refine (swapped.find query).trans ?_
    by_cases here : query = key
    · rw [if_pos here, here]
      cases found : t.root.find key with
      | none => rfl
      | some l =>
        have idle : l.metadata.numDeletedSubnodes ≠ expect := by
          intro hit
          have kept : (some l).filter (fun l => decide (l.metadata.numDeletedSubnodes = expect)) = some l :=
            Option.filter_some_pos (decide_eq_true hit)
          rw [found, kept] at object
          cases object
        rw [Option.map_some, swapLeaf, if_neg idle]
    · rw [if_neg here]

theorem Hashed.performMarkedDeletions {t' : MerkleTrie V} {deleted : List (Key × V)} (hashed : t.Hashed sha keyLen)
    (long : 0 < keyLen) (done : t.performMarkedDeletions keyLen = .ok (t', deleted)) : t'.Hashed sha keyLen := by
  rw [MerkleTrie.performMarkedDeletions] at done
  split at done
  · cases done
    exact hashed
  · obtain ⟨⟨root, erase, delta, dropped⟩, step, done⟩ := Fallible.bind_eq_ok.mp done
    obtain ⟨root', erase', delta', step', pruned⟩ := prune_ok .deleted hashed.shaped
    have sound := prune_hereditary hereditary_hashSound hashed.sound step
    rw [TrieNode.performMarkedDeletions, step'] at step
    cases step
    cases done
    cases erase with
    | true =>
      rw [if_pos rfl, makeEmptyNode, collapse_bare]
      exact hashed_new long
    | false => exact hashed_collapse (pruned.shaped rfl) sound (Or.inl rfl) hashed

theorem Hashed.endowSplit {threshold : BitVec 64} {taken remaining : MerkleTrie V} (hashed : t.Hashed sha keyLen)
    (long : 0 < keyLen) (done : t.endowSplit keyLen threshold = .ok (taken, remaining)) :
    taken.Hashed sha keyLen ∧ remaining.Hashed sha keyLen := by
  rw [MerkleTrie.endowSplit] at done
  split at done
  · cases done
    exact ⟨hashed_new long, hashed⟩
  split at done
  · cases done
  split at done
  · cases done
    exact ⟨hashed_of_invalid hashed.shaped hashed.sound, hashed_new long⟩
  · obtain ⟨⟨ptr, root⟩, step, done⟩ := Fallible.bind_eq_ok.mp done
    have result := TrieNode.endowSplit_spec hashed.shaped step
    obtain ⟨stays, moves⟩ := endowSplit_hereditary hereditary_hashSound hashed.sound step
    have rest := hashed_collapse (h := none) result.shaped stays (Or.inl rfl) hashed
    cases ptr with
    | none =>
      cases done
      exact ⟨hashed_new long, rest⟩
    | some c =>
      cases done
      exact ⟨hashed_of_invalid (result.taken c rfl).1 (moves c rfl), rest⟩

omit [Inhabited V] in
/-- Marking leaves that are marked already. -/
theorem find_of_rangeMarked {selected : Key → Prop} [DecidablePred selected] {root : TrieNode V}
    {result : TrieNode V × Metadata} (marked : RangeMarked keyLen selected root result)
    (all : ∀ query l, root.find query = some l → selected query → l.marked .deleted = true) :
    result.1.find = root.find := by
  funext query
  rw [marked.find]
  split
  · rename_i chosen
    cases found : root.find query with
    | none => rfl
    | some l =>
      have one : l.metadata.numDeletedSubnodes = 1 := of_decide_eq_true (all query l found chosen)
      rw [Option.map_some, swapLeaf, if_neg (by omega)]
  · rfl

theorem Hashed.markSubtreeLtKey {useLocks : Bool} (hashed : t.Hashed sha keyLen) (full : key.length = keyLen)
    (fresh : t.hash = none ∨ ∀ query l, t.find query = some l → query < key → l.marked .deleted = true) :
    (t.markSubtreeLtKeyForDeletion useLocks key).Hashed sha keyLen := by
  have marked := markSubtreeLtKey_spec useLocks full hashed.shaped
  refine hashed.of_liveFind marked.shaped (hashSound_markSubtreeLtKey useLocks full hashed.shaped hashed.sound) ?_
  exact fresh.imp id (fun all => ⟨rfl, liveFind_congr (find_of_rangeMarked marked all)⟩)

theorem Hashed.markEntireTree (hashed : t.Hashed sha keyLen)
    (fresh : t.hash = none ∨ ∀ query l, t.find query = some l → l.marked .deleted = true) :
    t.markEntireTreeForDeletion.Hashed sha keyLen := by
  have marked := markSubtree_spec hashed.shaped
  refine hashed.of_liveFind marked.shaped (markSubtree_hereditary hereditary_hashSound hashed.sound) ?_
  exact fresh.imp id (fun all =>
    ⟨rfl, liveFind_congr (find_of_rangeMarked marked (fun query l found _ => all query l found))⟩)

theorem Hashed.clearMarkedDeletions (hashed : t.Hashed sha keyLen) (cold : t.root.ColdAboveMarks keyLen)
    (fresh : t.hash = none ∨ ∀ query l, t.find query = some l → l.marked .deleted = false) :
    t.clearMarkedDeletions.Hashed sha keyLen := by
  refine hashed.of_liveFind (clearMarkedDeletions_spec hashed.shaped).shaped
    (hashSound_clearMarkedDeletions hashed.shaped hashed.sound cold) (fresh.imp id (fun none => ⟨rfl, ?_⟩))
  refine liveFind_congr (congrArg TrieNode.find ?_)
  rw [MerkleTrie.clearMarkedDeletions, clearMarkedDeletions_eq hashed.shaped]
  exact mapMetadata_unmarked hashed.shaped ((count_eq_zero_iff hashed.shaped).mpr none)

theorem Hashed.doRollback {t' : MerkleTrie V} (hashed : t.Hashed sha keyLen) (done : t.doRollback = .ok t')
    (fresh : t.hash = none ∨ ∀ query l, t.find query = some l → l.marked .rollback = true → l.marked .deleted = true) :
    t'.Hashed sha keyLen := by
  obtain ⟨⟨root, erase, delta, dropped⟩, step, done⟩ := Fallible.bind_eq_ok.mp done
  obtain ⟨root', erase', delta', step', pruned⟩ := prune_ok .rollback hashed.shaped
  have sound := prune_hereditary hereditary_hashSound hashed.sound step
  rw [TrieNode.doRollback, step'] at step
  cases step
  cases done
  -- a leaf that is dropped did not count
  have dead : (∀ query l, t.find query = some l → l.marked .rollback = true → l.marked .deleted = true) →
      ∀ query, (((t.root.find query).filter (fun l => !l.marked .rollback)).filter
        (fun l => !l.marked .deleted)).map Leaf.value = t.root.liveFind query := by
    intro all query
    rw [TrieNode.liveFind]
    cases found : t.root.find query with
    | none => rfl
    | some l =>
      cases tentative : l.marked .rollback with
      | false => rw [Option.filter_some_pos (by rw [tentative]; rfl)]
      | true =>
        rw [Option.filter_some_neg (by rw [tentative]; rfl),
          Option.filter_some_neg (by rw [all query l found tentative]; rfl)]
        rfl
  cases erase with
  | false =>
    refine hashed_collapse (pruned.shaped rfl) sound (fresh.imp id (fun all => ⟨rfl, funext (fun query => ?_)⟩)) hashed
    rw [TrieNode.liveFind, pruned.find rfl, dead all query]
    rfl
  | true =>
    obtain ⟨-, rfl, tentative⟩ := pruned.erased rfl
    obtain ⟨root, h⟩ := t
    have shaped := hashed.shaped
    cases root with
    | leaf key value m h' =>
      -- a root that is a leaf stays
      refine hashed.of_liveFind ?_ sound (fresh.imp id (fun _ => ⟨rfl, liveFind_congr (funext (fun query => ?_))⟩))
      · cases shaped with
        | leaf full own => exact .leaf full own
      · exact (find_leaf _ _ _ _ query).trans (find_leaf _ _ _ _ query).symm
    | node pfx len cs m h' =>
      rw [childless] at sound ⊢
      rw [collapse_bare]
      refine hashed.of_liveFind ?_ sound (fresh.imp id (fun all => ⟨rfl, funext (fun query => ?_)⟩))
      · cases shaped with
        | node inner full zeros _ _ _ =>
          exact .node inner full zeros (by simp) (by simp) (Branches.total_empty _).symm
      · have none : ((node pfx len cs m h').find query).filter (fun l => !l.marked .rollback) = none := by
          cases found : (node pfx len cs m h').find query with
          | none => rfl
          | some l => exact Option.filter_some_neg (by rw [tentative query l found]; rfl)
        refine Eq.trans ?_ (dead all query)
        rw [none, liveFind, TrieNode.liveFind, find_bare]

end Steps

/-- A trie that holds exactly the given pairs, as an insert function writes them. -/
structure Lists (insertFn : InsertFn) (pairs : List (Key × V)) (t : MerkleTrie V) : Prop where
  present : ∀ pair ∈ pairs, t.find pair.1 = some ⟨pair.2, insertFn.newMetadata pair.2⟩
  absent : ∀ key, (∀ value, (key, value) ∉ pairs) → t.find key = none

omit [Inhabited V] in
theorem Lists.insert {insertFn : InsertFn} {done : List (Key × V)} {key : Key} {value : V} {t t' : MerkleTrie V}
    (lists : Lists insertFn done t) (once : ∀ value', (key, value') ∈ done → value' = value)
    (finds : ∀ query, t'.find query = if query = key then some ⟨value, insertFn.newMetadata value⟩ else t.find query) :
    Lists insertFn (done ++ [(key, value)]) t' := by
  refine ⟨fun pair listed => ?_, fun query none => ?_⟩
  · rw [finds]
    rcases List.mem_append.mp listed with before | new
    · by_cases same : pair.1 = key
      · rw [if_pos same, once pair.2 (same ▸ before)]
      · rw [if_neg same]
        exact lists.present pair before
    · rw [List.mem_singleton.mp new, if_pos rfl]
  · have apart : query ≠ key := fun same => none value (by rw [same]; exact List.mem_append_right _ List.mem_cons_self)
    rw [finds, if_neg apart]
    exact lists.absent query (fun value' before => none value' (List.mem_append_left _ before))

/-- A fresh trie takes any keys and values, if no key comes with two values. -/
theorem insert_lists (long : 0 < keyLen) (insertFn : InsertFn) {pairs : List (Key × V)}
    (full : ∀ pair ∈ pairs, pair.1.length = keyLen)
    (once : ∀ key value value', (key, value) ∈ pairs → (key, value') ∈ pairs → value' = value) :
    ∃ fresh, pairs.foldlM (fun t pair => t.insert insertFn pair.1 pair.2) (new keyLen : MerkleTrie V) = .ok fresh ∧
      fresh.Valid keyLen ∧ fresh.Hashed sha keyLen ∧ Lists insertFn pairs fresh := by
  have step : ∀ (done : List (Key × V)) (pair : Key × V) (t : MerkleTrie V), done ++ [pair] <+: pairs →
      t.Valid keyLen ∧ t.Hashed sha keyLen ∧ Lists insertFn done t →
      ∃ t', t.insert insertFn pair.1 pair.2 = .ok t' ∧
        t'.Valid keyLen ∧ t'.Hashed sha keyLen ∧ Lists insertFn (done ++ [pair]) t' := by
    rintro done ⟨key, value⟩ t start ⟨valid, hashed, lists⟩
    have here : (key, value) ∈ pairs := start.subset (List.mem_append_right _ List.mem_cons_self)
    obtain ⟨t', inserted, valid', finds⟩ := insert_spec insertFn value valid long (full _ here)
    refine ⟨t', inserted, valid', hashed.insert long (full _ here) inserted, lists.insert (fun value' before => ?_) finds⟩
    exact once key value value' here (start.subset (List.mem_append_left _ before))
  exact Fallible.foldlM_total (fun (done : List (Key × V)) (t : MerkleTrie V) =>
    t.Valid keyLen ∧ t.Hashed sha keyLen ∧ Lists insertFn done t)
    ⟨valid_new keyLen, hashed_new long, nofun, fun key _ => find_new keyLen key⟩ step

theorem insert_all (long : 0 < keyLen) (insertFn : InsertFn) {pairs : List (Key × V)} {live : Key → Option V}
    (full : ∀ pair ∈ pairs, pair.1.length = keyLen) (listed : ∀ key value, (key, value) ∈ pairs ↔ live key = some value) :
    ∃ fresh, pairs.foldlM (fun t pair => t.insert insertFn pair.1 pair.2) (new keyLen : MerkleTrie V) = .ok fresh ∧
      fresh.Hashed sha keyLen ∧ fresh.liveFind = live := by
  have once : ∀ key value value', (key, value) ∈ pairs → (key, value') ∈ pairs → value' = value :=
    fun key value value' here there =>
      Option.some.inj (((listed key value').mp there).symm.trans ((listed key value).mp here))
  obtain ⟨fresh, loop, -, hashed, lists⟩ := @insert_lists _ _ sha keyLen _ long insertFn pairs full once
  refine ⟨fresh, loop, hashed, funext (fun key => ?_)⟩
  rw [liveFind, TrieNode.liveFind]
  cases at_key : live key with
  | none =>
    have absent := lists.absent key (fun value there => by rw [listed, at_key] at there; cases there)
    rw [show fresh.root.find key = none from absent]
    rfl
  | some value =>
    have present := lists.present (key, value) ((listed key value).mpr at_key)
    rw [show fresh.root.find key = _ from present]
    cases insertFn <;> rfl

end MerkleTrie

end Root

end Speedex
