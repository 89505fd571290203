import Speedex.Trie.Clean
import Speedex.Trie.Insert
import Speedex.Trie.Marks
import Speedex.Trie.SplitExact
import Speedex.Trie.Walks

set_option autoImplicit false

/- `MerkleTrie`: the root node and the root hash, with the operations the rest of the program
calls. Each does the root's part of the work and leaves the rest to the nodes. -/
namespace Speedex

open TrieNode

namespace TrieNode

variable {V : Type}

mutual

/-- `get_value` follows the branch bits of the key and takes the value of the leaf it comes to,
whatever the key of that leaf is. -/
def getValue : TrieNode V → Key → Option V
  | .leaf _ value _ _, _ => some value
  | .node _ prefixLen children _ _, queryKey => getValueSlot (children (getBranchBits prefixLen queryKey)) queryKey

def getValueSlot : Option (TrieNode V) → Key → Option V
  | none, _ => none
  | some c, queryKey => getValue c queryKey

end

theorem getValue_of_find {t : TrieNode V} {query : Key} {l : Leaf V} (found : t.find query = some l) :
    t.getValue query = some l.value := by
  induction t using TrieNode.induct with
  | leaf key value metadata hash =>
    rw [find_leaf] at found
    split at found
    · cases found
      rw [getValue]
    · cases found
  | node pfx prefixLen children metadata hash ih =>
    rw [find_node] at found
    rw [getValue, getBranchBits]
    cases branch : children (Digits.digit query prefixLen) with
    | none =>
      rw [branch, findSlot_none] at found
      cases found
    | some c =>
      rw [branch, findSlot_some] at found
      rw [getValueSlot]
      exact ih _ c branch found

end TrieNode

/-- `MerkleTrie`; `hash` is `none` while `hash_valid` is false. -/
structure MerkleTrie (V : Type) where
  root : TrieNode V
  hash : Option Hash

namespace MerkleTrie

variable {V : Type}

/-- The default constructor. -/
def new (keyLen : Nat) : MerkleTrie V := ⟨makeEmptyNode keyLen, none⟩

def clear (keyLen : Nat) (_ : MerkleTrie V) : MerkleTrie V := ⟨makeEmptyNode keyLen, none⟩

def find (t : MerkleTrie V) (key : Key) : Option (Leaf V) := t.root.find key
def getValue (t : MerkleTrie V) (queryKey : Key) : Option V := t.root.getValue queryKey
def entries (t : MerkleTrie V) : List (Key × Leaf V) := t.root.entries
def getRootMetadata (t : MerkleTrie V) : Metadata := t.root.metadata
def endowLtKey (t : MerkleTrie V) (maxKey : Key) : BitVec 64 := t.root.endowLtKey maxKey
def getLowestKey (t : MerkleTrie V) : Option Key := t.root.getLowestKey
def accumulateValues (t : MerkleTrie V) : Except String (List V) := t.root.accumulateValues []
def apply {σ : Type} (t : MerkleTrie V) (func : V → σ → Except String σ) (s : σ) : Except String σ :=
  t.root.apply func s

def size (t : MerkleTrie V) : Except String Nat :=
  if t.root.metadata.size < 0 then .error "invalid trie size" else .ok t.root.metadata.size.toNat

def insert [TrieValue V] (insertFn : InsertFn) (t : MerkleTrie V) (data : Key) (leafValue : V) :
    Except String (MerkleTrie V) := do
  let (root, _) ← TrieNode.insert insertFn t.root data leafValue
  .ok ⟨root, none⟩

/-- `merge_in<MergeFn>`. -/
def mergeInWith [TrieValue V] (mergeFn : MergeFn V) (t other : MerkleTrie V) : Except String (MerkleTrie V) :=
  if t.root.metadata.size = 0 then .ok ⟨other.root, none⟩
  else do
    if (← other.size) = 0 then .ok ⟨t.root, none⟩
    else
      let (root, _) ← TrieNode.mergeIn mergeFn t.root other.root
      .ok ⟨root, none⟩

/-- `merge_in` with its default merge function. -/
def mergeIn [TrieValue V] (t other : MerkleTrie V) : Except String (MerkleTrie V) :=
  mergeInWith (OverwriteMergeFn V) t other

/-- The part that `mark_for_deletion` and `unmark_for_deletion` share. -/
def withMark (t : MerkleTrie V) (result : TrieNode V × Metadata × Option V) : MerkleTrie V × Option V :=
  (⟨result.1, if result.2.2.isSome then none else t.hash⟩, result.2.2)

def markForDeletion (t : MerkleTrie V) (key : Key) : MerkleTrie V × Option V :=
  t.withMark (t.root.markForDeletion key)

def unmarkForDeletion (t : MerkleTrie V) (key : Key) : MerkleTrie V × Option V :=
  t.withMark (t.root.unmarkForDeletion key)

/-- The second result is what the side effect handler receives, in order. -/
def performMarkedDeletions (keyLen : Nat) (t : MerkleTrie V) :
    Except String (MerkleTrie V × List (Key × V)) :=
  if t.root.metadata.numDeletedSubnodes = 0 then .ok (t, [])
  else do
    let (root, deleteAll, _, deleted) ← t.root.performMarkedDeletions
    .ok (⟨(if deleteAll then makeEmptyNode keyLen else root).collapse, none⟩, deleted)

def cleanSinglechildNodes (t : MerkleTrie V) (explorePath : Key) : MerkleTrie V :=
  ⟨(t.root.cleanSinglechildNodes explorePath).contract, none⟩

/-- `do_rollback`. Unlike `perform_marked_deletions` it neither looks at what the root reports about
itself nor invalidates the root hash. -/
def doRollback (t : MerkleTrie V) : Except String (MerkleTrie V) := do
  let (root, _, _, _) ← t.root.doRollback
  .ok ⟨root.collapse, t.hash⟩

def clearRollback (t : MerkleTrie V) : MerkleTrie V := ⟨t.root.clearRollback, t.hash⟩

def performDeletion (keyLen : Nat) (t : MerkleTrie V) (key : Key) : MerkleTrie V × Option V :=
  let (root, deleteChild, anythingDeleted, _) := t.root.performDeletion key
  let root := (if deleteChild then makeEmptyNode keyLen else root).collapse
  let root := if root.metadata.size = 0 then makeEmptyNode keyLen else root
  (⟨root, if anythingDeleted.isSome then none else t.hash⟩, anythingDeleted)

/-- The trie split off and the trie that stays. -/
def endowSplit (keyLen : Nat) (t : MerkleTrie V) (endowThreshold : BitVec 64) :
    Except String (MerkleTrie V × MerkleTrie V) :=
  if endowThreshold = 0 then .ok (new keyLen, t)
  else if t.root.metadata.endow.slt endowThreshold then .error "not enough endow"
  else if endowThreshold = t.root.metadata.endow then .ok (⟨t.root, none⟩, ⟨makeEmptyNode keyLen, none⟩)
  else do
    let (ptr, root) ← t.root.endowSplit endowThreshold
    .ok (match ptr with
      | some split => ⟨split, none⟩
      | none => new keyLen, ⟨root.collapse, none⟩)

/-- A trie in the form its operations maintain. -/
def Valid [TrieValue V] (keyLen : Nat) (t : MerkleTrie V) : Prop :=
  Vacant keyLen t.root ∨ Canonical keyLen t.root

/-- A trie whose root lost every child: without keys, but not `Vacant` unless its prefix is empty. -/
def Hollow [TrieValue V] (keyLen : Nat) (t : MerkleTrie V) : Prop :=
  Shaped keyLen t.root ∧ ∃ p l h, t.root = .node p l Branches.empty 0 h

/-- A trie into which `k` can be inserted: superfluous nodes lie off the way to `k` only. -/
def Insertable [TrieValue V] (keyLen : Nat) (k : Key) (t : MerkleTrie V) : Prop :=
  Vacant keyLen t.root ∨ (Shaped keyLen t.root ∧ t.root.CompactOn k)

@[simp] theorem find_new (keyLen : Nat) (key : Key) : (new keyLen : MerkleTrie V).find key = none :=
  find_of_vacant (vacant_makeEmptyNode keyLen) key

theorem collapse_of_compact {c : TrieNode V} (compact : c.Compact) : c.collapse = c := by
  rcases collapse_cases c with ⟨same, -⟩ | ⟨b, d, -, only⟩
  · exact same
  · cases c with
    | leaf key value m h => rfl
    | node p l cs m h =>
      have two := (compact_node.mp compact).1
      rw [node_children] at only
      rw [only, Branches.occupied, total_single] at two
      omega

theorem collapse_bare {p : Key} {l : Nat} {m : Metadata} {h : Option Hash} :
    (TrieNode.node p l (Branches.empty : Fin 16 → Option (TrieNode V)) m h).collapse =
      .node p l Branches.empty m h := by
  rw [collapse, (Branches.lowest_eq_none_iff _).mpr rfl]

theorem find_bare {p : Key} {l : Nat} {m : Metadata} {h : Option Hash} (query : Key) :
    (TrieNode.node p l (Branches.empty : Fin 16 → Option (TrieNode V)) m h).find query = none := by
  rw [find_node, Branches.empty_apply, findSlot_none]

theorem settled_entries_ne_nil {c : TrieNode V} (settled : c.Settled) : c.entries ≠ [] := by
  cases c with
  | leaf => simp
  | node p l cs m h =>
    have inner : (TrieNode.node p l cs m h).CompactAt (fun _ _ => False) :=
      (compactAt_node _ _ _ _ _).mpr ⟨settled.1, nofun, fun b c occupied =>
        CompactAt.mono (settled.2 b c occupied) (fun _ _ absurd => absurd.elim)⟩
    exact inner.entries_ne_nil

theorem entries_of_vacant {keyLen : Nat} {c : TrieNode V} (vacant : Vacant keyLen c) : c.entries = [] := by
  obtain ⟨h, rfl⟩ := vacant
  rw [entries_node, List.flatMap_eq_nil_iff.mpr (fun b _ => entriesSlot_empty b)]

theorem cleanSinglechildNodes_vacant {keyLen : Nat} {t : MerkleTrie V} (vacant : Vacant keyLen t.root)
    (k : Key) : Vacant keyLen (t.cleanSinglechildNodes k).root := by
  obtain ⟨h, shape⟩ := vacant
  refine ⟨h, ?_⟩
  have none : (fun b => if b = getBranchBits 0 k then cleanContractedSlot k (Branches.empty b)
      else contractSlot (Branches.empty b : Option (TrieNode V))) = Branches.empty := by
    funext b
    split <;> rfl
  rw [cleanSinglechildNodes, shape, TrieNode.cleanSinglechildNodes]
  simp only [none]
  rw [contract_several (by rw [Branches.occupied, Branches.total_empty]; omega)]

section Specs

variable [TrieValue V] {keyLen : Nat} {t other : MerkleTrie V} {key : Key} {value : V}

theorem valid_new (keyLen : Nat) : (new keyLen : MerkleTrie V).Valid keyLen :=
  Or.inl (vacant_makeEmptyNode keyLen)

theorem Valid.shaped (valid : t.Valid keyLen) (long : 0 < keyLen) : Shaped keyLen t.root :=
  valid.elim (shaped_of_vacant long) Canonical.shaped

theorem Valid.hollow_or (valid : t.Valid keyLen) (long : 0 < keyLen) :
    t.Hollow keyLen ∨ Canonical keyLen t.root := by
  refine valid.imp_left (fun vacant => ?_)
  obtain ⟨h, shape⟩ := id vacant
  exact ⟨shaped_of_vacant long vacant, _, _, _, shape⟩

theorem mem_entries (valid : t.Valid keyLen) (long : 0 < keyLen) {l : Leaf V} :
    (key, l) ∈ t.entries ↔ t.find key = some l := mem_entries_iff (valid.shaped long)

theorem find_key_length (valid : t.Valid keyLen) (long : 0 < keyLen) {l : Leaf V}
    (found : t.find key = some l) : key.length = keyLen := find_length (valid.shaped long) found

/-- `get_lowest_key` is a key of the trie, and no key of it is smaller. -/
theorem getLowestKey_valid (valid : t.Valid keyLen) (long : 0 < keyLen) :
    match t.getLowestKey with
    | none => ∀ query, t.find query = none
    | some k => t.find k ≠ none ∧ ∀ query, t.find query ≠ none → k ≤ query := by
  have lowest : t.getLowestKey = t.entries.head?.map Prod.fst := by
    rcases valid with vacant | canonical
    · rw [entries, entries_of_vacant vacant]
      obtain ⟨h, shape⟩ := vacant
      rw [getLowestKey, shape, TrieNode.getLowestKey]
      rfl
    · exact getLowestKey_spec canonical.compact
  have listed : ∀ {query : Key} {l : Leaf V}, t.find query = some l ↔ (query, l) ∈ t.entries :=
    (mem_entries_iff (valid.shaped long)).symm
  have sorted := entries_sorted (valid.shaped long)
  rw [lowest]
  cases rows : t.entries with
  | nil =>
    refine fun query => Option.eq_none_iff_forall_ne_some.mpr (fun l found => ?_)
    rw [listed, rows] at found
    cases found
  | cons row rest =>
    have first : t.find row.1 = some row.2 := listed.mpr (by rw [rows]; exact List.mem_cons_self)
    refine ⟨by rw [first]; exact Option.some_ne_none _, fun query found => ?_⟩
    obtain ⟨l, found⟩ := Option.ne_none_iff_exists'.mp found
    rw [listed, rows] at found
    rcases List.mem_cons.mp found with rfl | later
    · exact le_refl _
    · rw [entries] at rows
      rw [rows, List.pairwise_cons] at sorted
      exact (sorted.1 _ later).le

theorem size_eq_zero_iff (valid : t.Valid keyLen) (long : 0 < keyLen) :
    t.root.metadata.size = 0 ↔ ∀ query, t.find query = none :=
  TrieNode.size_eq_zero_iff (valid.shaped long)

theorem Valid.insertable (valid : t.Valid keyLen) (k : Key) : t.Insertable keyLen k :=
  valid.imp_right (fun canonical => ⟨canonical.shaped, canonical.compact.on k⟩)

theorem Insertable.shaped {k : Key} (insertable : t.Insertable keyLen k) (long : 0 < keyLen) :
    Shaped keyLen t.root :=
  insertable.elim (shaped_of_vacant long) And.left

theorem insert_of_vacant (insertFn : InsertFn) (vacant : Vacant keyLen t.root) :
    t.insert insertFn key value = .ok ⟨makeValueLeaf insertFn key value, none⟩ := by
  rw [insert, insert_vacant vacant]
  rfl

theorem find_valueLeaf (insertFn : InsertFn) (vacant : Vacant keyLen t.root) (query : Key) :
    (makeValueLeaf insertFn key value).find query =
      if query = key then some ⟨value, insertFn.newMetadata value⟩ else t.find query := by
  rw [find, find_of_vacant vacant, makeValueLeaf, find_leaf]

theorem insert_spec (insertFn : InsertFn) (value : V) (valid : t.Valid keyLen) (long : 0 < keyLen)
    (full : key.length = keyLen) : ∃ t', t.insert insertFn key value = .ok t' ∧ t'.Valid keyLen ∧
      ∀ query, t'.find query =
        if query = key then some ⟨value, insertFn.newMetadata value⟩ else t.find query := by
  rcases valid with vacant | canonical
  · exact ⟨_, insert_of_vacant insertFn vacant,
      Or.inr ⟨shaped_makeValueLeaf insertFn value full, compactAt_leaf _ _ _ _⟩, find_valueLeaf insertFn vacant⟩
  · obtain ⟨c, done, canonical', finds⟩ := insert_ok insertFn value canonical long full
    exact ⟨⟨c, none⟩, by rw [insert, done]; rfl, Or.inr canonical', finds⟩

theorem insert_insertable (insertFn : InsertFn) (value : V) (insertable : t.Insertable keyLen key)
    (long : 0 < keyLen) (full : key.length = keyLen) :
    ∃ t', t.insert insertFn key value = .ok t' ∧ Shaped keyLen t'.root ∧
      ∀ query, t'.find query =
        if query = key then some ⟨value, insertFn.newMetadata value⟩ else t.find query := by
  rcases insertable with vacant | ⟨shaped, compact⟩
  · exact ⟨_, insert_of_vacant insertFn vacant, shaped_makeValueLeaf insertFn value full,
      find_valueLeaf insertFn vacant⟩
  · obtain ⟨c, done, merged, finds⟩ := insert_visited shaped compact long full
    exact ⟨⟨c, none⟩, by rw [insert, done]; rfl, merged.shaped, finds⟩

theorem size_of_shaped (shaped : Shaped keyLen t.root) : t.size = .ok t.root.metadata.size.toNat := by
  have count := size_eq_length shaped
  rw [size, if_neg (by omega)]

theorem size_ok (valid : t.Valid keyLen) (long : 0 < keyLen) : t.size = .ok t.root.metadata.size.toNat :=
  size_of_shaped (valid.shaped long)

/-- The root's part of a merge: with an empty trie on one side the other one stays. -/
theorem mergeIn_cases (mergeFn : MergeFn V) (left : Shaped keyLen t.root) (right : Shaped keyLen other.root) (long : 0 < keyLen) :
    ∃ c, t.mergeInWith mergeFn other = .ok ⟨c, none⟩ ∧
      ((t.root.metadata.size = 0 ∧ c = other.root) ∨
        (t.root.metadata.size ≠ 0 ∧ other.root.metadata.size = 0 ∧ c = t.root) ∨
        (t.root.metadata.size ≠ 0 ∧ other.root.metadata.size ≠ 0 ∧ MergedInto mergeFn keyLen t.root other.root c)) := by
  rw [mergeInWith]
  by_cases vacated : t.root.metadata.size = 0
  · exact ⟨other.root, by rw [if_pos vacated], Or.inl ⟨vacated, rfl⟩⟩
  · rw [if_neg vacated, size_of_shaped right]
    by_cases bare : other.root.metadata.size = 0
    · refine ⟨t.root, ?_, Or.inr (Or.inl ⟨vacated, bare, rfl⟩)⟩
      rw [bare]
      rfl
    · have count := size_eq_length right
      have filled : ¬ Bare t.root := by
        rintro ⟨none, top⟩
        refine vacated ((TrieNode.size_eq_zero_iff left).mpr (fun query => ?_))
        cases h : t.root with
        | leaf key value m hash =>
          rw [h] at left top
          have full := left.pfx_length
          rw [leaf_pfx] at full
          rw [leaf_prefixLen] at top
          omega
        | node p l cs m hash =>
          rw [h, node_children, Branches.occupied_eq_zero_iff] at none
          rw [none, find_bare]
      obtain ⟨c, done, merged⟩ := mergeIn_ok left filled right
      have some : ¬ other.root.metadata.size.toNat = 0 := by omega
      refine ⟨c, ?_, Or.inr (Or.inr ⟨vacated, bare, merged⟩)⟩
      simp only [bind, Except.bind, done, if_neg some]

theorem find_of_mergeIn {mergeFn : MergeFn V} {c : TrieNode V} (left : Shaped keyLen t.root) (right : Shaped keyLen other.root)
    (united : (t.root.metadata.size = 0 ∧ c = other.root) ∨
      (t.root.metadata.size ≠ 0 ∧ other.root.metadata.size = 0 ∧ c = t.root) ∨
      (t.root.metadata.size ≠ 0 ∧ other.root.metadata.size ≠ 0 ∧ MergedInto mergeFn keyLen t.root other.root c))
    (query : Key) : c.find query = Option.merge mergeFn.leaf (t.find query) (other.find query) := by
  rcases united with ⟨vacated, rfl⟩ | ⟨-, bare, rfl⟩ | ⟨-, -, merged⟩
  · rw [find, find, (TrieNode.size_eq_zero_iff left).mp vacated query, Option.merge_none_left]
  · rw [find, find, (TrieNode.size_eq_zero_iff right).mp bare query, Option.merge_none_right]
  · exact merged.find query

theorem Hollow.size (hollow : t.Hollow keyLen) : t.root.metadata.size = 0 := by
  obtain ⟨-, p, l, h, shape⟩ := hollow
  rw [shape]
  rfl

theorem shaped_of_valid_or_hollow (left : t.Valid keyLen ∨ t.Hollow keyLen) (long : 0 < keyLen) :
    Shaped keyLen t.root := left.elim (Valid.shaped · long) And.left

theorem canonical_of_size (valid : t.Valid keyLen ∨ t.Hollow keyLen) (filled : t.root.metadata.size ≠ 0) :
    Canonical keyLen t.root := by
  rcases valid with (⟨h, shape⟩ | canonical) | hollow
  · rw [shape] at filled
    exact absurd rfl filled
  · exact canonical
  · exact absurd hollow.size filled

/-- Merging unites the contents, key by key. -/
theorem mergeInWith_spec (mergeFn : MergeFn V) (left : t.Valid keyLen ∨ t.Hollow keyLen)
    (right : other.Valid keyLen) (long : 0 < keyLen) :
    ∃ t', t.mergeInWith mergeFn other = .ok t' ∧ t'.Valid keyLen ∧
      ∀ query, t'.find query = Option.merge mergeFn.leaf (t.find query) (other.find query) := by
  have shaped := shaped_of_valid_or_hollow left long
  obtain ⟨c, done, united⟩ := mergeIn_cases mergeFn shaped (right.shaped long) long
  refine ⟨⟨c, none⟩, done, ?_, find_of_mergeIn shaped (right.shaped long) united⟩
  rcases united with ⟨-, rfl⟩ | ⟨filled, -, rfl⟩ | ⟨filled, filled', merged⟩
  · exact right
  · exact Or.inr (canonical_of_size left filled)
  · exact Or.inr (merged.canonical (canonical_of_size left filled).compact
      (canonical_of_size (Or.inl right) filled').compact)

/-- By default the trie merged in takes precedence. -/
theorem mergeIn_spec (left : t.Valid keyLen ∨ t.Hollow keyLen) (right : other.Valid keyLen) (long : 0 < keyLen) :
    ∃ t', t.mergeIn other = .ok t' ∧ t'.Valid keyLen ∧
      ∀ query, t'.find query = (other.find query).or (t.find query) := by
  obtain ⟨t', done, valid, finds⟩ := mergeInWith_spec (OverwriteMergeFn V) left right long
  exact ⟨t', done, valid, fun query => (finds query).trans (merge_overwrite _ _)⟩

theorem mergeIn_insertable {k : Key} (left : t.Valid keyLen ∨ t.Hollow keyLen)
    (right : other.Insertable keyLen k) (long : 0 < keyLen) :
    ∃ t', t.mergeIn other = .ok t' ∧ t'.Insertable keyLen k ∧
      ∀ query, t'.find query = (other.find query).or (t.find query) := by
  have shaped := shaped_of_valid_or_hollow left long
  obtain ⟨c, done, united⟩ := mergeIn_cases (OverwriteMergeFn V) shaped (right.shaped long) long
  refine ⟨⟨c, none⟩, done, ?_, fun query =>
    (find_of_mergeIn shaped (right.shaped long) united query).trans (merge_overwrite _ _)⟩
  rcases united with ⟨-, rfl⟩ | ⟨filled, -, rfl⟩ | ⟨filled, filled', merged⟩
  · exact right
  · exact Or.inr ⟨shaped, (canonical_of_size left filled).compact.on k⟩
  · have compact : other.root.CompactOn k := by
      refine (right.resolve_left ?_).2
      rintro ⟨h, shape⟩
      apply filled'
      rw [shape]
      rfl
    exact Or.inr ⟨merged.shaped, merged.compactOn k ((canonical_of_size left filled).compact.on k) compact⟩

/-- A childless inner root takes no key. -/
theorem insert_childless {insertFn : InsertFn} {p : Key} {l : Nat} {m : Metadata} {h : Option Hash}
    (shape : t.root = .node p l Branches.empty m h) (inner : l ≠ 0) :
    t.insert insertFn key value = .error "invalid initialization somewhere" := by
  have none : Branches.occupied (Branches.empty : Fin 16 → Option (TrieNode V)) = 0 := Branches.total_empty _
  rw [insert, shape, TrieNode.insert, if_neg (by omega), if_pos ⟨none, inner⟩]
  rfl

theorem swapMark_valid {expect desired : Int} {eager : Bool} (mark : desired = 0 ∨ desired = 1)
    (valid : t.Valid keyLen) (long : 0 < keyLen) (full : key.length = keyLen) :
    (t.withMark (swapMark expect desired eager t.root key)).1.Valid keyLen ∧
      (∀ query, (t.withMark (swapMark expect desired eager t.root key)).1.find query =
        if query = key then (t.find key).map (swapLeaf expect desired) else t.find query) ∧
      (t.withMark (swapMark expect desired eager t.root key)).2 = ((t.find key).filter
        (fun l => l.metadata.numDeletedSubnodes = expect)).map Leaf.value := by
  have swapped := swapMark_spec expect eager mark (valid.shaped long) full
  refine ⟨?_, swapped.find, swapped.object⟩
  rcases valid with vacant | canonical
  · refine Or.inl ?_
    obtain ⟨h, shape⟩ := vacant
    refine ⟨h, ?_⟩
    rw [withMark, shape, swapMark]
    simp only [Branches.empty_apply, ite_self]
  · exact Or.inr ⟨swapped.shaped, swapped.compact _ canonical.compact⟩

theorem markForDeletion_spec (valid : t.Valid keyLen) (long : 0 < keyLen) (full : key.length = keyLen) :
    (t.markForDeletion key).1.Valid keyLen ∧
      (∀ query, (t.markForDeletion key).1.find query =
        if query = key then (t.find key).map (swapLeaf 0 1) else t.find query) ∧
      (t.markForDeletion key).2 = ((t.find key).filter
        (fun l => l.metadata.numDeletedSubnodes = 0)).map Leaf.value :=
  swapMark_valid (Or.inr rfl) valid long full

theorem unmarkForDeletion_spec (valid : t.Valid keyLen) (long : 0 < keyLen) (full : key.length = keyLen) :
    (t.unmarkForDeletion key).1.Valid keyLen ∧
      (∀ query, (t.unmarkForDeletion key).1.find query =
        if query = key then (t.find key).map (swapLeaf 1 0) else t.find query) ∧
      (t.unmarkForDeletion key).2 = ((t.find key).filter
        (fun l => l.metadata.numDeletedSubnodes = 1)).map Leaf.value :=
  swapMark_valid (Or.inl rfl) valid long full

/-- A root that stays after a pruning or a deletion, once collapsed. -/
theorem canonical_collapse {c : TrieNode V} (shaped : Shaped keyLen c) (settled : c.Settled) :
    Canonical keyLen c.collapse := ⟨(collapse_spec shaped).shaped, compact_collapse settled⟩

theorem performMarkedDeletions_unmarked (shaped : Shaped keyLen t.root)
    (none : ∀ key l, t.find key = some l → l.marked .deleted = false) :
    t.performMarkedDeletions keyLen = .ok (t, []) := by
  have zero : Mark.deleted.count t.root.metadata = 0 := (count_eq_zero_iff shaped).mpr none
  rw [performMarkedDeletions]
  exact if_pos zero

/-- The deletions drop exactly the marked leaves. -/
theorem performMarkedDeletions_spec (valid : t.Valid keyLen) :
    ∃ t', t.performMarkedDeletions keyLen = .ok (t', markedRows .deleted t.root) ∧ t'.Valid keyLen ∧
      ∀ query, t'.find query = (t.find query).filter (fun l => !l.marked .deleted) := by
  have unmarked : (∀ key l, t.find key = some l → l.marked .deleted = false) → ∀ query,
      t.find query = (t.find query).filter (fun l => !l.marked .deleted) := by
    intro none query
    cases found : t.find query with
    | none => rfl
    | some l => rw [Option.filter_some_pos (by rw [none query l found]; rfl)]
  rcases valid with vacant | canonical
  · refine ⟨t, ?_, Or.inl vacant, unmarked (fun key l found => ?_)⟩
    · obtain ⟨h, shape⟩ := vacant
      rw [performMarkedDeletions, shape, node_metadata, if_pos Metadata.zero_numDeletedSubnodes, markedRows,
        entries_node, List.flatMap_eq_nil_iff.mpr (fun b _ => entriesSlot_empty b)]
      rfl
    · exact absurd ((find_of_vacant vacant key).symm.trans found) (by simp)
  · have count : Mark.deleted.count t.root.metadata = 0 ↔ _ := count_eq_zero_iff canonical.shaped
    rw [performMarkedDeletions]
    by_cases zero : t.root.metadata.numDeletedSubnodes = 0
    · rw [if_pos zero, markedRows_eq_nil canonical.shaped (count.mp zero)]
      exact ⟨t, rfl, Or.inr canonical, unmarked (count.mp zero)⟩
    · rw [if_neg zero]
      obtain ⟨root, erase, delta, done, pruned⟩ := prune_ok .deleted canonical.shaped
      refine ⟨⟨(if erase then makeEmptyNode keyLen else root).collapse, none⟩, ?_, ?_, ?_⟩
      · rw [TrieNode.performMarkedDeletions, done]
        rfl
      · cases erase with
        | true => exact Or.inl ⟨none, collapse_bare⟩
        | false => exact Or.inr (canonical_collapse (pruned.shaped rfl) (pruned.settled rfl canonical.compact))
      · intro query
        cases erase with
        | true =>
          have all := (pruned.erased rfl).2.2
          rw [find, if_pos rfl, makeEmptyNode, collapse_bare, find_bare]
          cases found : t.find query with
          | none => rfl
          | some l => rw [Option.filter_some_neg (by rw [all query l found]; rfl)]
        | false =>
          rw [find, if_neg Bool.false_ne_true, (collapse_spec (pruned.shaped rfl)).find]
          exact pruned.find rfl query

/-- Without tentative leaves `do_rollback` does nothing. -/
theorem doRollback_unmarked (valid : t.Valid keyLen) (long : 0 < keyLen)
    (none : ∀ key l, t.find key = some l → l.marked .rollback = false) : t.doRollback = .ok t := by
  have shaped := valid.shaped long
  have zero : Mark.rollback.count t.root.metadata = 0 := (count_eq_zero_iff shaped).mpr none
  have same : t.root.collapse = t.root := by
    rcases valid with ⟨h, shape⟩ | canonical
    · rw [shape]
      exact collapse_bare
    · exact collapse_of_compact canonical.compact
  have walk : ∀ u : TrieNode V, Mark.rollback.count u.metadata = 0 → u.doRollback = .ok (u, false, 0, []) := by
    intro u unmarked
    cases u with
    | leaf => rw [TrieNode.doRollback, prune]; exact if_pos unmarked
    | node => rw [TrieNode.doRollback, prune]; exact if_pos unmarked
  rw [doRollback, walk _ zero]
  simp only [bind, Except.bind, same]

/-- A trie with a leaf that is not tentative loses exactly the tentative ones. -/
theorem doRollback_kept (canonical : Canonical keyLen t.root) {l : Leaf V} (found : t.find key = some l)
    (kept : l.marked .rollback = false) : ∃ t', t.doRollback = .ok t' ∧ t'.Valid keyLen ∧
      ∀ query, t'.find query = (t.find query).filter (fun l => !l.marked .rollback) := by
  obtain ⟨root, erase, delta, done, pruned⟩ := prune_ok .rollback canonical.shaped
  have stays : erase = false := by
    refine Bool.eq_false_iff.mpr (fun erased => ?_)
    exact absurd ((pruned.erased erased).2.2 key l found) (by rw [kept]; exact Bool.false_ne_true)
  refine ⟨⟨root.collapse, t.hash⟩, by rw [doRollback, TrieNode.doRollback, done]; rfl,
    Or.inr (canonical_collapse (pruned.shaped stays) (pruned.settled stays canonical.compact)), fun query => ?_⟩
  rw [find, (collapse_spec (pruned.shaped stays)).find]
  exact pruned.find stays query

/-- A trie of tentative leaves only keeps its root: a single leaf stays as it is, and an inner node
stays at its prefix without children. -/
theorem doRollback_all (canonical : Canonical keyLen t.root)
    (all : ∀ key l, t.find key = some l → l.marked .rollback = true) :
    t.doRollback = .ok ⟨t.root.childless, t.hash⟩ := by
  obtain ⟨root, erase, delta, done, pruned⟩ := prune_ok .rollback canonical.shaped
  have erased : erase = true := by
    cases erase with
    | true => rfl
    | false =>
      have shaped := pruned.shaped rfl
      obtain ⟨row, listed⟩ := List.exists_mem_of_ne_nil _ (settled_entries_ne_nil (pruned.settled rfl canonical.compact))
      have found := (mem_entries_iff shaped).mp (show (row.1, row.2) ∈ root.entries from listed)
      rw [pruned.find rfl] at found
      obtain ⟨before, unmarked⟩ := Option.filter_eq_some_iff.mp found
      rw [all _ _ before] at unmarked
      cases unmarked
  obtain ⟨-, same, -⟩ := pruned.erased erased
  have collapsed : t.root.childless.collapse = t.root.childless := by
    cases t.root with
    | leaf => rfl
    | node => exact collapse_bare
  rw [doRollback, TrieNode.doRollback, done]
  simp only [bind, Except.bind, same, collapsed]

theorem clearRollback_valid (valid : t.Valid keyLen) (long : 0 < keyLen) :
    t.clearRollback.Valid keyLen ∧ ∀ query, t.clearRollback.find query = (t.find query).map clearLeaf := by
  have cleared := clearRollback_spec (valid.shaped long)
  refine ⟨?_, cleared.find⟩
  rcases valid with ⟨h, shape⟩ | canonical
  · refine Or.inl ⟨h, ?_⟩
    rw [clearRollback, shape, TrieNode.clearRollback, if_pos Metadata.zero_numRollbackSubnodes]
  · exact Or.inr ⟨cleared.shaped, cleared.compact _ canonical.compact⟩

theorem performDeletion_spec (valid : t.Valid keyLen) (long : 0 < keyLen) (full : key.length = keyLen) :
    (t.performDeletion keyLen key).1.Valid keyLen ∧
      (∀ query, (t.performDeletion keyLen key).1.find query = if query = key then none else t.find query) ∧
      (t.performDeletion keyLen key).2 = (t.find key).map Leaf.value := by
  have result := TrieNode.performDeletion_spec (valid.shaped long) full
  rw [performDeletion]
  revert result
  rcases t.root.performDeletion key with ⟨root, deleteChild, deletedObj, delta⟩
  intro result
  cases deleteChild with
  | true =>
    obtain ⟨l, rfl, -, finds⟩ := result
    have bare : (makeEmptyNode keyLen : TrieNode V).collapse = makeEmptyNode keyLen := collapse_bare
    simp only [if_true, bare, ite_self]
    refine ⟨Or.inl ⟨none, rfl⟩, fun query => ?_, ?_⟩
    · rw [find, find, find_of_vacant (vacant_makeEmptyNode keyLen), finds]
      by_cases here : query = key <;> simp [here]
    · rw [find, finds, if_pos rfl]
      rfl
  | false =>
    obtain ⟨shaped, finds, -, object, -, settled⟩ := result
    have same := collapse_spec shaped
    simp only [Bool.false_eq_true, if_false]
    by_cases bare : root.collapse.metadata.size = 0
    · have absent := (TrieNode.size_eq_zero_iff same.shaped).mp bare
      rw [if_pos bare]
      refine ⟨Or.inl ⟨none, rfl⟩, fun query => ?_, object⟩
      rw [find, find_of_vacant (vacant_makeEmptyNode keyLen), find, ← finds, ← absent query, same.find]
    · rw [if_neg bare]
      have canonical : Canonical keyLen t.root := by
        refine valid.resolve_left (fun vacant => bare ?_)
        refine (TrieNode.size_eq_zero_iff same.shaped).mpr (fun query => ?_)
        rw [same.find, finds, find_of_vacant vacant, ite_self]
      refine ⟨Or.inr (canonical_collapse shaped (settled canonical.compact)), fun query => ?_, object⟩
      rw [find, same.find, finds]
      rfl

/-- The split takes leaves from the low end of the key order. -/
structure SplitInto (keyLen : Nat) (t split remaining : MerkleTrie V) : Prop where
  rows : split.entries ++ remaining.entries = t.entries
  valid : remaining.Valid keyLen
  cleaned : ∀ k : Key, k.length = keyLen → (∀ row ∈ split.entries, row.1 ≤ k) →
    (∀ row ∈ remaining.entries, k ≤ row.1) →
    (split.cleanSinglechildNodes k).Valid keyLen ∧ (split.cleanSinglechildNodes k).find = split.find
  insertable : ∀ k : Key, k.length = keyLen → (split.cleanSinglechildNodes k).Insertable keyLen k ∧
    (split.cleanSinglechildNodes k).find = split.find
  shaped : Shaped keyLen split.root

theorem cleanSinglechildNodes_insertable (shaped : Shaped keyLen t.root) {k : Key} (full : k.length = keyLen)
    (filled : t.root.Filled) : (t.cleanSinglechildNodes k).Insertable keyLen k ∧
      (t.cleanSinglechildNodes k).find = t.find := by
  have cleaned := TrieNode.cleanSinglechildNodes_spec (k := k) shaped
  have contracted := contract_spec cleaned.shaped
  exact ⟨Or.inr ⟨contracted.shaped, compactOn_clean shaped full filled⟩, contracted.find.trans cleaned.find⟩

theorem cleanSinglechildNodes_valid (shaped : Shaped keyLen t.root) {k : Key} (full : k.length = keyLen)
    (compact : t.root.CompactOff k) : (t.cleanSinglechildNodes k).Valid keyLen ∧
      (t.cleanSinglechildNodes k).find = t.find := by
  have cleaned := TrieNode.cleanSinglechildNodes_spec (k := k) shaped
  have contracted := contract_spec cleaned.shaped
  exact ⟨Or.inr ⟨contracted.shaped, compact_clean shaped full compact⟩, contracted.find.trans cleaned.find⟩

/-- A trie that needs no cleaning keeps its contents. -/
theorem Valid.cleaned (valid : t.Valid keyLen) {k : Key} (full : k.length = keyLen) :
    (t.cleanSinglechildNodes k).Valid keyLen ∧ (t.cleanSinglechildNodes k).find = t.find := by
  rcases valid with vacant | canonical
  · have bare := cleanSinglechildNodes_vacant vacant k
    refine ⟨Or.inl bare, funext (fun query => ?_)⟩
    rw [find, find, find_of_vacant bare, find_of_vacant vacant]
  · exact cleanSinglechildNodes_valid canonical.shaped full (canonical.compact.off k)

theorem SplitInto.of_valid {split remaining : MerkleTrie V} (rows : split.entries ++ remaining.entries = t.entries)
    (valid : remaining.Valid keyLen) (taken : split.Valid keyLen) (long : 0 < keyLen) :
    SplitInto keyLen t split remaining := by
  refine ⟨rows, valid, fun k full _ _ => taken.cleaned full, fun k full => ?_, taken.shaped long⟩
  exact (taken.cleaned full).imp_left (fun clean => clean.insertable k)

theorem endowSplit_spec (valid : t.Valid keyLen) (long : 0 < keyLen) {threshold : BitVec 64}
    {split remaining : MerkleTrie V} (run : t.endowSplit keyLen threshold = .ok (split, remaining)) :
    SplitInto keyLen t split remaining := by
  have bare : (makeEmptyNode keyLen : TrieNode V).entries = [] := entries_of_vacant (vacant_makeEmptyNode keyLen)
  rw [endowSplit] at run
  by_cases zero : threshold = 0
  · rw [if_pos zero] at run
    cases run
    exact .of_valid (by rw [entries, new, bare, List.nil_append]) valid (valid_new keyLen) long
  · rw [if_neg zero] at run
    by_cases excess : t.root.metadata.endow.slt threshold
    · rw [if_pos excess] at run
      cases run
    · rw [if_neg excess] at run
      by_cases whole : threshold = t.root.metadata.endow
      · rw [if_pos whole] at run
        cases run
        exact .of_valid (by rw [entries, entries, bare, List.append_nil]; rfl) (valid_new keyLen) valid long
      · rw [if_neg whole] at run
        obtain ⟨⟨ptr, root⟩, done, run⟩ := Fallible.bind_eq_ok.mp run
        have result := TrieNode.endowSplit_spec (valid.shaped long) done
        have same := collapse_spec result.shaped
        have kept : root.collapse.entries = root.entries :=
          entries_ext same.shaped result.shaped (fun key => congrFun same.find key)
        rcases valid with vacant | canonical
        · obtain ⟨h, shape⟩ := vacant
          have childless : Branches.occupied (Branches.empty : Fin 16 → Option (TrieNode V)) = 0 :=
            Branches.total_empty _
          rw [shape, TrieNode.endowSplit, if_pos childless] at done
          cases done
          cases run
          refine .of_valid ?_ (Or.inl ⟨h, collapse_bare⟩) (valid_new keyLen) long
          rw [entries, entries, new, bare, kept, entries, shape]
          rfl
        have settled := (result.settled canonical.compact).1
        have stays : MerkleTrie.Valid keyLen ⟨root.collapse, none⟩ :=
          Or.inr (canonical_collapse result.shaped settled)
        cases ptr with
        | none =>
          cases run
          refine .of_valid ?_ stays (valid_new keyLen) long
          rw [entries, entries, new, bare, kept]
          exact result.rows
        | some c =>
          obtain ⟨shaped, -, filled⟩ := result.taken c rfl
          cases run
          refine ⟨?_, stays, fun k full low high => ?_, fun k full => ?_, shaped⟩
          · rw [entries, entries, kept]
            exact result.rows
          · refine cleanSinglechildNodes_valid shaped full ?_
            refine result.ragged k full low (fun row listed => high row ?_) canonical.compact c rfl
            rw [entries, kept]
            exact listed
          · exact cleanSinglechildNodes_insertable shaped full (filled canonical.compact)

theorem find_of_shaped (shaped : Shaped keyLen t.root) {l : Leaf V} :
    t.find key = some l ↔ (key, l) ∈ t.entries := (mem_entries_iff shaped).symm

/-- A leaf is on one side of the split. -/
theorem SplitInto.find_iff {split remaining : MerkleTrie V} (result : SplitInto keyLen t split remaining)
    (valid : t.Valid keyLen) (long : 0 < keyLen) {l : Leaf V} :
    t.find key = some l ↔ split.find key = some l ∨ remaining.find key = some l := by
  rw [find_of_shaped (valid.shaped long), ← result.rows, List.mem_append, ← find_of_shaped result.shaped,
    ← find_of_shaped (result.valid.shaped long)]

theorem SplitInto.disjoint {split remaining : MerkleTrie V} (result : SplitInto keyLen t split remaining)
    (valid : t.Valid keyLen) (long : 0 < keyLen) {l : Leaf V} (taken : split.find key = some l) :
    remaining.find key = none := by
  refine Option.eq_none_iff_forall_ne_some.mpr (fun l' stays => ?_)
  have nodup : (t.entries.map Prod.fst).Nodup := entries_keys_nodup (valid.shaped long)
  rw [← result.rows, List.map_append, List.nodup_append] at nodup
  rw [find_of_shaped result.shaped] at taken
  rw [find_of_shaped (result.valid.shaped long)] at stays
  exact nodup.2.2 key (List.mem_map.mpr ⟨_, taken, rfl⟩) key (List.mem_map.mpr ⟨_, stays, rfl⟩) rfl

theorem SplitInto.find {split remaining : MerkleTrie V} (result : SplitInto keyLen t split remaining)
    (valid : t.Valid keyLen) (long : 0 < keyLen) (query : Key) :
    t.find query = (split.find query).or (remaining.find query) := by
  cases taken : split.find query with
  | some l => exact (result.find_iff valid long).mpr (Or.inl taken)
  | none =>
    refine Option.ext (fun l => ?_)
    rw [result.find_iff valid long, taken, Option.none_or]
    simp

/-- The leaves that the split takes come first in key order. -/
theorem SplitInto.lt {split remaining : MerkleTrie V} (result : SplitInto keyLen t split remaining)
    (valid : t.Valid keyLen) (long : 0 < keyLen) {x y : Key} (taken : split.find x ≠ none)
    (stays : remaining.find y ≠ none) : x < y := by
  obtain ⟨l, taken⟩ := Option.ne_none_iff_exists'.mp taken
  obtain ⟨l', stays⟩ := Option.ne_none_iff_exists'.mp stays
  have sorted : t.entries.Pairwise (fun a b => a.1 < b.1) := entries_sorted (valid.shaped long)
  rw [← result.rows, List.pairwise_append] at sorted
  exact sorted.2.2 _ ((find_of_shaped result.shaped).mp taken) _
    ((find_of_shaped (result.valid.shaped long)).mp stays)

/-- A funded trie splits at every threshold up to its endowment. -/
theorem endowSplit_total (valid : t.Valid keyLen) (long : 0 < keyLen) (funded : Funded t.entries)
    {threshold : BitVec 64} (nonneg : 0 ≤ threshold.toInt) (within : threshold.toInt ≤ endowSum t.entries) :
    ∃ split remaining, t.endowSplit keyLen threshold = .ok (split, remaining) ∧
      SplitInto keyLen t split remaining ∧ LongestPrefix threshold.toInt split.entries remaining.entries := by
  have bare : (makeEmptyNode keyLen : TrieNode V).entries = [] := entries_of_vacant (vacant_makeEmptyNode keyLen)
  have exact := endow_toInt (valid.shaped long) funded
  have positive : ∀ row ∈ t.root.entries, 0 < row.2.metadata.endow.toInt := funded.positive
  suffices done : ∃ split remaining, t.endowSplit keyLen threshold = .ok (split, remaining) ∧
      LongestPrefix threshold.toInt split.entries remaining.entries by
    obtain ⟨split, remaining, run, longest⟩ := done
    exact ⟨split, remaining, run, endowSplit_spec valid long run, longest⟩
  rw [endowSplit]
  by_cases zero : threshold = 0
  · refine ⟨_, _, by rw [if_pos zero], ?_⟩
    rw [zero, entries, entries, new, bare]
    exact longestPrefix_sum [] _ (by simpa using positive)
  · have within' : ¬ t.root.metadata.endow.slt threshold = true := by
      rw [BitVec.slt_iff_toInt_lt, exact]
      exact not_lt.mpr within
    rw [if_neg zero, if_neg within']
    by_cases whole : threshold = t.root.metadata.endow
    · refine ⟨_, _, by rw [if_pos whole], ?_⟩
      rw [whole, exact, entries, entries, bare]
      exact longestPrefix_sum _ [] (by simpa using positive)
    · have below : threshold.toInt < endowSum t.root.entries := by
        refine lt_of_le_of_ne within (fun same => whole ?_)
        exact BitVec.eq_of_toInt_eq (same.trans exact.symm)
      obtain ⟨ptr, root, run, result, longest⟩ := endowSplit_ok (valid.shaped long) funded nonneg below
      have same := collapse_spec result.shaped
      have kept : root.collapse.entries = root.entries :=
        entries_ext same.shaped result.shaped (fun key => congrFun same.find key)
      rw [if_neg whole, run]
      refine ⟨_, _, rfl, ?_⟩
      cases ptr with
      | none =>
        rw [entries, entries, new, bare, kept]
        exact longest
      | some c =>
        rw [entries, entries, kept]
        exact longest

end Specs

end MerkleTrie

end Speedex
