import Speedex.Trie.OfferTrie
import Speedex.Trie.RootHash

set_option autoImplicit false

/- The three walks below a key: `endow_lt_key` and `apply_lt_key` take every leaf below it, marked or not,
and `mark_subtree_lt_key_for_deletion` marks those that carry no mark. -/
namespace Speedex

namespace TrieNode

variable {V : Type}

mutual

/-- `apply_lt_key`: run `func` on the values below `thresholdKey`. A node that holds a lock cannot run `apply`
on itself and does so on its children. -/
def applyLtKey {σ : Type} (useLocks : Bool) (func : V → σ → Except String σ) (thresholdKey : Key) :
    TrieNode V → σ → Except String σ
  | .leaf key value _ _, s => if key < thresholdKey then func value s else .ok s
  | .node pfx prefixLen children metadata hash, s =>
    let thresholdKeyTruncated := Digits.truncate thresholdKey prefixLen
    if pfx < thresholdKeyTruncated then
      if useLocks then (List.finRange 16).foldlM (fun s b => applySlot func (children b) s) s
      else apply func (.node pfx prefixLen children metadata hash) s
    else if thresholdKeyTruncated < pfx then .ok s
    else
      let minBranchBits := getBranchBits prefixLen thresholdKey
      (List.finRange 16).foldlM (fun s b =>
        if b = minBranchBits then applyLtKeySlot useLocks func thresholdKey (children b) s
        else if b < minBranchBits then applySlot func (children b) s
        else .ok s) s

def applyLtKeySlot {σ : Type} (useLocks : Bool) (func : V → σ → Except String σ) (thresholdKey : Key) :
    Option (TrieNode V) → σ → Except String σ
  | none, s => .ok s
  | some c, s => applyLtKey useLocks func thresholdKey c s

end

/-- The leaves below a key that carry no deletion mark. -/
def liveBelow (maxKey : Key) (t : TrieNode V) : List (Key × Leaf V) :=
  (t.entriesBelow maxKey).filter (fun row => !row.2.marked .deleted)

/-- A row after the walk that marks the leaves below a key. -/
def markRow (maxKey : Key) (row : Key × Leaf V) : Key × Leaf V :=
  if row.1 < maxKey then (row.1, swapLeaf 0 1 row.2) else row

@[simp] theorem markRow_fst (maxKey : Key) (row : Key × Leaf V) : (markRow maxKey row).1 = row.1 := by
  unfold markRow
  split <;> rfl

theorem mem_map_markRow {maxKey query : Key} {l : Leaf V} {rows : List (Key × Leaf V)} :
    (query, l) ∈ rows.map (markRow maxKey) ↔
      ∃ l', (query, l') ∈ rows ∧ l = if query < maxKey then swapLeaf 0 1 l' else l' := by
  rw [List.mem_map]
  constructor
  · rintro ⟨⟨query', l'⟩, listed, same⟩
    have key := congrArg Prod.fst same
    rw [markRow_fst] at key
    obtain rfl : query' = query := key
    refine ⟨l', listed, ?_⟩
    rw [markRow] at same
    split_ifs at same ⊢ with below
    · exact (congrArg Prod.snd same).symm
    · exact (congrArg Prod.snd same).symm
  · rintro ⟨l', listed, rfl⟩
    refine ⟨(query, l'), listed, ?_⟩
    unfold markRow
    split_ifs <;> rfl

section Walks

variable [TrieValue V] {keyLen : Nat}

theorem applyLtKey_spec {σ : Type} (useLocks : Bool) (func : V → σ → Except String σ) {t : TrieNode V}
    (shaped : Shaped keyLen t) {maxKey : Key} (full : maxKey.length = keyLen) (s : σ) :
    t.applyLtKey useLocks func maxKey s =
      ((t.entriesBelow maxKey).map (fun row => row.2.value)).foldlM (fun s value => func value s) s := by
  have all : ∀ {c : TrieNode V}, Shaped keyLen c → (∀ row ∈ c.entries, row.1 < maxKey) → ∀ s,
      c.apply func s = ((c.entriesBelow maxKey).map (fun row => row.2.value)).foldlM (fun s value => func value s) s := by
    intro c shapedC below s
    rw [entriesBelow, List.filter_eq_self.mpr (fun row listed => decide_eq_true (below row listed))]
    exact apply_spec func shapedC s
  have nothing : ∀ {c : TrieNode V}, (∀ row ∈ c.entries, maxKey < row.1) → c.entriesBelow maxKey = [] := by
    intro c above
    rw [entriesBelow, List.filter_eq_nil_iff]
    intro row listed
    simpa using (above row listed).le
  induction shaped generalizing s with
  | @leaf key value m h fullKey own =>
    rw [applyLtKey, entriesBelow, entries_leaf]
    by_cases below : key < maxKey
    · simp only [List.filter_cons, decide_eq_true below, if_true, List.filter_nil, List.map_cons, List.foldlM_cons]
      rw [if_pos below]
      cases func value s <;> rfl
    · simp only [List.filter_cons, decide_eq_false below, List.filter_nil]
      rw [if_neg below]
      rfl
  | @node pfx len cs m h inner fullPfx zeros shaped placed sum ih =>
    have stored : Shaped keyLen (.node pfx len cs m h) := .node inner fullPfx zeros shaped placed sum
    have compares : ∀ row ∈ (node pfx len cs m h).entries, Compares pfx len maxKey row.1 :=
      fun row listed => compares_maxKey stored full ((mem_entries_iff stored).mp listed)
    rw [applyLtKey]
    by_cases low : pfx < Digits.truncate maxKey len
    · rw [if_pos low, ← apply, ite_self]
      exact all stored (fun row listed => (compares row listed).low low) s
    · rw [if_neg low]
      by_cases high : Digits.truncate maxKey len < pfx
      · rw [if_pos high, nothing (fun row listed => (compares row listed).high high)]
        rfl
      · rw [if_neg high]
        have equal := le_antisymm (not_lt.mp low) (not_lt.mp high)
        rw [entriesBelow, entries_node, List.filter_flatMap, List.map_flatMap, foldlM_flatMap]
        dsimp only
        congr 1
        funext s b
        cases occupied : cs b with
        | none => simp only [applyLtKeySlot, applySlot, ite_self, entriesSlot_none]; rfl
        | some c =>
          have below := shaped b c occupied
          have inBranch : ∀ row ∈ c.entries, Compares pfx len maxKey row.1 ∧ Digits.digit row.1 len = b :=
            fun row listed => ⟨compares row (mem_entries_node.mpr ⟨b, c, occupied, listed⟩),
              (find_child_digit below inner fullPfx (placed b c occupied) ((mem_entries_iff below).mp listed)).2⟩
          rw [entriesSlot_some, ← entriesBelow]
          rcases lt_trichotomy b (getBranchBits len maxKey) with less | same | more
          · rw [if_neg less.ne, if_pos less, applySlot]
            refine all below (fun row listed => ?_) s
            obtain ⟨compare, digit⟩ := inBranch row listed
            exact compare.below equal (by rwa [digit])
          · rw [if_pos same, applyLtKeySlot]
            exact ih b c occupied s
          · have bare : c.entriesBelow maxKey = [] := by
              refine nothing (fun row listed => ?_)
              obtain ⟨compare, digit⟩ := inBranch row listed
              exact compare.above equal (by rwa [digit])
            rw [if_neg more.ne', if_neg (lt_asymm more), bare]
            rfl

/-- The leaves of a trie whose leaves below a key were marked. -/
theorem RangeMarked.entries {maxKey : Key} {t : TrieNode V} {result : TrieNode V × Metadata} (shaped : Shaped keyLen t)
    (marked : RangeMarked keyLen (fun query => query < maxKey) t result) :
    result.1.entries = t.entries.map (markRow maxKey) := by
  apply rows_ext (entries_sorted marked.shaped)
  · rw [List.pairwise_map]
    simpa only [markRow_fst] using entries_sorted shaped
  · rintro ⟨query, l⟩
    rw [mem_entries_iff marked.shaped, marked.find, mem_map_markRow]
    simp only [mem_entries_iff shaped]
    split_ifs
    · rw [Option.map_eq_some_iff]
      simp only [eq_comm]
    · simp

/-- Each mark that is set is counted. -/
theorem sum_markRow (maxKey : Key) (rows : List (Key × Leaf V))
    (own : ∀ row ∈ rows, LeafMetadata row.2.value row.2.metadata) :
    ((rows.map (markRow maxKey)).map (fun row => row.2.metadata)).sum =
      (rows.map (fun row => row.2.metadata)).sum + { (0 : Metadata) with numDeletedSubnodes :=
        (((rows.filter (fun row => row.1 < maxKey)).filter (fun row => !row.2.marked .deleted)).length : Int) } := by
  induction rows with
  | nil => rfl
  | cons row rows ih =>
    have rest := ih (fun row' listed => own row' (List.mem_cons_of_mem _ listed))
    simp only [List.map_cons, List.sum_cons, rest]
    by_cases below : row.1 < maxKey
    · rw [List.filter_cons_of_pos (by simpa using below), markRow, if_pos below, swapLeaf]
      rcases (own row List.mem_cons_self).deleted with live | marked
      · rw [if_pos live, List.filter_cons_of_pos (by simp [Leaf.marked, Mark.count, live]), List.length_cons]
        ext1 <;> simp [live, add_assoc, add_comm, add_left_comm]
      · rw [if_neg (by rw [marked]; decide), List.filter_cons_of_neg (by simp [Leaf.marked, Mark.count, marked]), add_assoc]
    · rw [List.filter_cons_of_neg (by simpa using below), markRow, if_neg below, add_assoc]

theorem RangeMarked.delta {maxKey : Key} {t : TrieNode V} {result : TrieNode V × Metadata} (shaped : Shaped keyLen t)
    (marked : RangeMarked keyLen (fun query => query < maxKey) t result) :
    result.2 = { (0 : Metadata) with numDeletedSubnodes := ((t.liveBelow maxKey).length : Int) } := by
  have own : ∀ row ∈ t.entries, LeafMetadata row.2.value row.2.metadata :=
    fun row listed => find_leafMetadata shaped ((mem_entries_iff shaped).mp listed)
  have whole := metadata_eq_sum marked.shaped
  rw [marked.entries shaped, sum_markRow maxKey _ own, ← metadata_eq_sum shaped, marked.metadata] at whole
  exact add_left_cancel whole

end Walks

end TrieNode

open TrieNode

namespace MerkleTrie

variable {V : Type}

def applyLtKey {σ : Type} (useLocks : Bool) (t : MerkleTrie V) (func : V → σ → Except String σ) (thresholdKey : Key)
    (s : σ) : Except String σ := t.root.applyLtKey useLocks func thresholdKey s

/-- `endow_lt_key` and `apply_lt_key` act on all leaves below the key, and `mark_subtree_lt_key_for_deletion` on
those of them that were not marked before; without such marks the three act on the same leaves. -/
theorem walks_below_key [TrieValue V] {keyLen : Nat} {t : MerkleTrie V} {key : Key} (useLocks : Bool)
    (valid : t.Valid keyLen) (long : 0 < keyLen) (full : key.length = keyLen) :
    t.endowLtKey key = ((t.root.entriesBelow key).map (fun row => TrieValue.endow row.2.value)).sum ∧
    (∀ {σ : Type} (func : V → σ → Except String σ) (s : σ), t.applyLtKey useLocks func key s =
      ((t.root.entriesBelow key).map (fun row => row.2.value)).foldlM (fun s value => func value s) s) ∧
    (t.markSubtreeLtKeyForDeletion useLocks key).getRootMetadata =
      t.getRootMetadata + { (0 : Metadata) with numDeletedSubnodes := ((t.root.liveBelow key).length : Int) } ∧
    (∀ query, (t.markSubtreeLtKeyForDeletion useLocks key).find query =
      if query < key then (t.find query).map (swapLeaf 0 1) else t.find query) ∧
    ((∀ row ∈ t.root.entriesBelow key, row.2.marked .deleted = false) →
      t.root.liveBelow key = t.root.entriesBelow key) := by
  have shaped := valid.shaped long
  have marked := markSubtreeLtKey_spec useLocks full shaped
  refine ⟨?_, ?_, ?_, ?_, ?_⟩
  · rw [endowLtKey, TrieNode.endowLtKey_spec shaped full]
    congr 1
    apply List.map_congr_left
    intro row listed
    have own := find_leafMetadata shaped ((mem_entries_iff shaped).mp (List.mem_filter.mp listed).1)
    exact own.endow
  · intro σ func s
    exact TrieNode.applyLtKey_spec useLocks func shaped full s
  · show (t.root.markSubtreeLtKeyForDeletion useLocks key).1.metadata = _
    rw [marked.metadata, marked.delta shaped]
    rfl
  · exact marked.find
  · intro unmarked
    unfold liveBelow
    rw [List.filter_eq_self]
    intro row listed
    rw [unmarked row listed]
    rfl

end MerkleTrie

section Sample

theorem walks_below_key_sample : ∃ t : MerkleTrie Offer,
    (MerkleTrie.new 4).insert .overwrite [0, 0, 0, 0] tenUnits = .ok t ∧
      t.endowLtKey [0, 0, 1, 0] = ((t.root.entriesBelow [0, 0, 1, 0]).map (fun row => TrieValue.endow row.2.value)).sum := by
  obtain ⟨t, run, valid, -⟩ := MerkleTrie.insert_spec .overwrite tenUnits
    (MerkleTrie.valid_new 4) (by decide) (show ([0, 0, 0, 0] : Key).length = 4 from rfl)
  exact ⟨t, run, (MerkleTrie.walks_below_key false valid (by decide) rfl).1⟩

/-- An offer that is marked for deletion is no longer live, but its endowment is still counted and its value
still handed out. -/
theorem endowLtKey_counts_marked : ∃ t t' : MerkleTrie Offer,
    (MerkleTrie.new 4).insert .overwrite [0, 0, 0, 0] tenUnits = .ok t ∧
      t.markForDeletion [0, 0, 0, 0] = (t', some tenUnits) ∧ t'.root.liveBelow [0, 0, 1, 0] = [] ∧
      t'.endowLtKey [0, 0, 1, 0] = 10 ∧
      t'.applyLtKey false (fun value seen => .ok (seen ++ [value])) [0, 0, 1, 0] [] = .ok [tenUnits] :=
  ⟨_, _, rfl, rfl, rfl, rfl, rfl⟩

end Sample

end Speedex
