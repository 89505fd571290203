import Speedex.Library.Fallible
import Speedex.Trie.MergeCorrect

set_option autoImplicit false

/- `_insert` with `OverwriteInsertFn` or `RollbackInsertFn`. Where no node on the key's path is
superfluous it is the merge of a single leaf. -/
namespace Speedex

/-- The insert functions differ in the metadata of the leaf they write. -/
inductive InsertFn where
  | overwrite
  | rollback
deriving DecidableEq, Repr

/-- `new_metadata`, which `metadata_insert` also stores over an existing leaf. -/
def InsertFn.newMetadata {V : Type} [TrieValue V] (insertFn : InsertFn) (value : V) : Metadata :=
  match insertFn with
  | .overwrite => Metadata.ofValue value
  | .rollback => { Metadata.ofValue value with numRollbackSubnodes := 1 }

namespace TrieNode

variable {V : Type} [TrieValue V]

/-- `make_value_leaf`. -/
def makeValueLeaf (insertFn : InsertFn) (key : Key) (leafValue : V) : TrieNode V :=
  .leaf key leafValue (insertFn.newMetadata leafValue) none

/-- The branch of `_insert` for a key that leaves this node's prefix after `matchLen` digits. -/
def insertFork (insertFn : InsertFn) (this : TrieNode V) (data : Key) (leafValue : V)
    (matchLen : Nat) : Except String (TrieNode V × Metadata) :=
  let newChild := makeValueLeaf insertFn data leafValue
  if getBranchBits matchLen data = getBranchBits matchLen this.pfx then
    .error "we split at the wrong index!"
  else .ok (fork this newChild matchLen, newChild.metadata)

mutual

/-- `_insert`. -/
def insert (insertFn : InsertFn) : TrieNode V → Key → V → Except String (TrieNode V × Metadata)
  | .leaf key value metadata hash, data, leafValue =>
    let matchLen := getPrefixMatchLen (.leaf key value metadata hash) data data.length
    if matchLen = key.length then
      let newMetadata := insertFn.newMetadata leafValue
      .ok (.leaf key leafValue newMetadata none, newMetadata - metadata)
    else insertFork insertFn (.leaf key value metadata hash) data leafValue matchLen
  | .node pfx prefixLen children metadata hash, data, leafValue =>
    if Branches.occupied children = 1 then .error "children size should never be 1 (insert)"
    else if Branches.occupied children = 0 ∧ prefixLen ≠ 0 then .error "invalid initialization somewhere"
    else
      let matchLen := getPrefixMatchLen (.node pfx prefixLen children metadata hash) data data.length
      if Branches.occupied children = 0 then
        -- initial node only: the root turns into a leaf
        .ok (makeValueLeaf insertFn data leafValue, insertFn.newMetadata leafValue)
      else if matchLen = prefixLen then do
        let branchBits := getBranchBits prefixLen data
        let (child, delta) ← insertSlot insertFn (children branchBits) data leafValue
        .ok (.node pfx prefixLen (Function.update children branchBits (some child)) (metadata + delta) none,
          delta)
      else insertFork insertFn (.node pfx prefixLen children metadata hash) data leafValue matchLen

def insertSlot (insertFn : InsertFn) : Option (TrieNode V) → Key → V →
    Except String (TrieNode V × Metadata)
  | none, data, leafValue =>
    .ok (makeValueLeaf insertFn data leafValue, insertFn.newMetadata leafValue)
  | some child, data, leafValue => insert insertFn child data leafValue

end

theorem leafMetadata_newMetadata (insertFn : InsertFn) (value : V) :
    LeafMetadata value (insertFn.newMetadata value) := by
  cases insertFn with
  | overwrite => exact ⟨rfl, rfl, Or.inl rfl, Or.inl rfl⟩
  | rollback => exact ⟨rfl, rfl, Or.inl rfl, Or.inr rfl⟩

theorem shaped_makeValueLeaf {keyLen : Nat} (insertFn : InsertFn) {key : Key} (value : V)
    (full : key.length = keyLen) : Shaped keyLen (makeValueLeaf insertFn key value) :=
  .leaf full (leafMetadata_newMetadata insertFn value)

section Insert

variable {keyLen : Nat} {insertFn : InsertFn} {t : TrieNode V} {data : Key} {value : V}

theorem insertFork_eq {n : Nat} (shaped : Shaped keyLen t) (full : data.length = keyLen)
    (matched : n = t.getPrefixMatchLen data data.length) (short : n ≠ t.prefixLen) :
    insertFork insertFn t data value n = .ok (fork t (makeValueLeaf insertFn data value) n,
      (makeValueLeaf insertFn data value).metadata) := by
  have inside := shaped.prefixLen_le
  have low : n ≤ t.prefixLen ∧ n ≤ data.length := by
    rw [getPrefixMatchLen] at matched
    omega
  have leaf := shaped_makeValueLeaf (V := V) insertFn value full
  have parts := matchLen_parts shaped leaf matched (by omega)
    (by rw [makeValueLeaf, leaf_prefixLen]; omega)
  rw [insertFork, if_neg (fun same => parts.2 same.symm)]

/-- Without superfluous nodes on the way, inserting is merging a single leaf. -/
theorem insert_eq_mergeIn (shaped : Shaped keyLen t) (compact : t.CompactOn data) (full : data.length = keyLen) :
    insert insertFn t data value = mergeIn (OverwriteMergeFn V) t (makeValueLeaf insertFn data value) := by
  induction shaped with
  | @leaf key value' m h fullKey own =>
    have stored : Shaped keyLen (.leaf key value' m h) := .leaf fullKey own
    obtain ⟨n, matched⟩ : ∃ n, n = getPrefixMatchLen (.leaf key value' m h) data data.length := ⟨_, rfl⟩
    have matched' : n = getPrefixMatchLen (.leaf key value' m h)
        (makeValueLeaf insertFn data value).pfx (makeValueLeaf insertFn data value).prefixLen := matched
    rw [insert, mergeIn, makeValueLeaf, mergeOnto]
    rw [makeValueLeaf] at matched'
    simp only [mergeCases, ← matched, ← matched']
    by_cases all : n = key.length
    · rw [if_pos all, if_pos all]
      rfl
    · rw [if_neg all, if_neg all]
      exact insertFork_eq stored full matched all
  | @node pfx len cs m h inner fullPfx zeros shaped placed sum ih =>
    have stored : Shaped keyLen (.node pfx len cs m h) := .node inner fullPfx zeros shaped placed sum
    obtain ⟨children, on⟩ := (compactOn_node _ _ _ _ _ _).mp compact
    obtain ⟨n, matched⟩ : ∃ n, n = getPrefixMatchLen (.node pfx len cs m h) data data.length := ⟨_, rfl⟩
    have matched' : n = getPrefixMatchLen (.node pfx len cs m h)
        (makeValueLeaf insertFn data value).pfx (makeValueLeaf insertFn data value).prefixLen := matched
    have agree := take_matchLen matched'
    rw [makeValueLeaf, leaf_pfx, node_pfx] at agree
    rw [insert, mergeIn, makeValueLeaf, mergeOnto]
    rw [makeValueLeaf] at matched'
    simp only [mergeCases, ← matched, ← matched']
    rw [if_neg (by omega : ¬ Branches.occupied cs = 1),
      if_neg (by omega : ¬ (Branches.occupied cs = 0 ∧ len ≠ 0)),
      if_neg (by omega : ¬ Branches.occupied cs = 0),
      if_neg (by omega : ¬ (Branches.occupied cs = 0 ∧ len = 0))]
    by_cases here : n = len
    · rw [if_pos here, if_pos here, mergeBelow, leaf_pfx]
      rw [here] at agree
      cases occupied : cs (getBranchBits len data) with
      | none =>
        rw [insertSlot, mergeInSlot, makeValueLeaf]
        rfl
      | some c =>
        rw [insertSlot, mergeInSlot, ih _ c occupied (on agree.symm c occupied)]
        rfl
    · rw [if_neg here, if_neg here]
      exact insertFork_eq stored full matched here

theorem not_bare_of_compactOn (shaped : Shaped keyLen t) (compact : t.CompactOn data) (long : 0 < keyLen) :
    ¬ Bare t := by
  rintro ⟨none, top⟩
  cases shaped with
  | leaf full _ =>
    rw [leaf_prefixLen] at top
    omega
  | node =>
    have two := ((compactOn_node _ _ _ _ _ _).mp compact).1
    rw [node_children] at none
    omega

/-- `_insert` succeeds where no node that it visits is superfluous. -/
theorem insert_visited (shaped : Shaped keyLen t) (compact : t.CompactOn data) (long : 0 < keyLen)
    (full : data.length = keyLen) :
    ∃ c, insert insertFn t data value = .ok (c, c.metadata - t.metadata) ∧
      MergedInto (OverwriteMergeFn V) keyLen t (makeValueLeaf insertFn data value) c ∧
      ∀ query, c.find query =
        if query = data then some ⟨value, insertFn.newMetadata value⟩ else t.find query := by
  obtain ⟨c, done, merged⟩ := mergeIn_ok shaped (not_bare_of_compactOn shaped compact long)
    (shaped_makeValueLeaf insertFn value full)
  refine ⟨c, (insert_eq_mergeIn shaped compact full).trans done, merged, ?_⟩
  intro query
  rw [merged.find, merge_overwrite, makeValueLeaf, find_leaf]
  by_cases here : query = data <;> simp [here]

theorem not_bare_of_canonical (canonical : Canonical keyLen t) (long : 0 < keyLen) : ¬ Bare t :=
  not_bare_of_compactOn canonical.shaped (canonical.compact.on []) long

theorem MergedInto.canonical {mergeFn : MergeFn V} {a b c : TrieNode V} (merged : MergedInto mergeFn keyLen a b c)
    (left : a.Compact) (right : b.Compact) : Canonical keyLen c :=
  ⟨merged.shaped, merged.compact _ left right⟩

/-- `_insert` writes exactly one key and reports the change of the metadata. -/
theorem insert_ok (insertFn : InsertFn) (value : V) (canonical : Canonical keyLen t) (long : 0 < keyLen) (full : data.length = keyLen) :
    ∃ c, insert insertFn t data value = .ok (c, c.metadata - t.metadata) ∧ Canonical keyLen c ∧
      ∀ query, c.find query =
        if query = data then some ⟨value, insertFn.newMetadata value⟩ else t.find query := by
  obtain ⟨c, done, merged, finds⟩ := insert_visited canonical.shaped (canonical.compact.on data) long full
  exact ⟨c, done, merged.canonical canonical.compact (compactAt_leaf _ _ _ _), finds⟩

/-- `_insert` throws at the superfluous nodes that it visits. -/
theorem compactOn_of_insert (shaped : Shaped keyLen t) (filled : ¬ Bare t) (full : data.length = keyLen)
    {r : TrieNode V × Metadata} (done : insert insertFn t data value = .ok r) : t.CompactOn data := by
  induction shaped generalizing r with
  | leaf => exact compactOn_leaf _ _ _ _ _
  | @node pfx len cs m h inner fullPfx zeros shaped placed sum ih =>
    rw [insert] at done
    by_cases single : Branches.occupied cs = 1
    · rw [if_pos single] at done
      cases done
    rw [if_neg single] at done
    have some : ¬ Branches.occupied cs = 0 := by
      intro none
      by_cases top : len = 0
      · exact filled ⟨none, top⟩
      · rw [if_pos ⟨none, top⟩] at done
        cases done
    rw [if_neg (fun both => some both.1)] at done
    dsimp only at done
    rw [if_neg some] at done
    refine (compactOn_node _ _ _ _ _ _).mpr ⟨by omega, fun here c occupied => ?_⟩
    have matched : getPrefixMatchLen (.node pfx len cs m h) data data.length = len := by
      have common := (Digits.le_commonLen_iff (by omega) (by omega)).mpr here.symm
      rw [getPrefixMatchLen, node_pfx, node_prefixLen]
      omega
    rw [if_pos matched, occupied, insertSlot] at done
    obtain ⟨⟨child, delta⟩, step, -⟩ := Fallible.bind_eq_ok.mp done
    refine ih _ c occupied (fun bare => ?_) step
    have deep := (placed _ c occupied).1
    rw [bare.2, List.length_append, List.length_singleton] at deep
    omega

/-- What `_insert` makes of a shaped trie when it does not throw. -/
theorem shaped_insert (shaped : Shaped keyLen t) (long : 0 < keyLen) (full : data.length = keyLen)
    {r : TrieNode V × Metadata} (done : insert insertFn t data value = .ok r) : Shaped keyLen r.1 := by
  by_cases filled : Bare t
  · obtain ⟨none, top⟩ := filled
    cases shaped with
    | leaf fullKey _ =>
      rw [leaf_prefixLen] at top
      omega
    | node =>
      rw [node_children] at none
      rw [node_prefixLen] at top
      rw [insert, if_neg (by omega), if_neg (fun both => both.2 top)] at done
      dsimp only at done
      rw [if_pos none] at done
      cases done
      exact shaped_makeValueLeaf insertFn value full
  · obtain ⟨c, done', merged, -⟩ := insert_visited shaped (compactOn_of_insert shaped filled full done) long full
    rw [done] at done'
    cases done'
    exact merged.shaped

/-- The first key of a trie turns its empty root into a leaf. -/
theorem insert_vacant (vacant : Vacant keyLen t) :
    insert insertFn t data value = .ok (makeValueLeaf insertFn data value, insertFn.newMetadata value) := by
  obtain ⟨h, rfl⟩ := vacant
  have none : Branches.occupied (Branches.empty : Fin 16 → Option (TrieNode V)) = 0 :=
    Branches.total_empty _
  rw [insert, none]
  rfl

end Insert

end TrieNode

end Speedex
