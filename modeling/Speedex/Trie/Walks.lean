import Speedex.Trie.Split

set_option autoImplicit false

/- The walks that read a trie: `endow_lt_key`, `get_lowest_key`, `apply` and `accumulate_values`.
Each is a function of the leaves in key order. -/
namespace Speedex

namespace TrieNode

variable {V : Type}

mutual

/-- `endow_lt_key`: the endowment of the leaves below `maxKey`. -/
def endowLtKey (maxKey : Key) : TrieNode V → BitVec 64
  | .leaf key _ metadata _ => if key < maxKey then metadata.endow else 0
  | .node pfx prefixLen children metadata _ =>
    let maxKeyTruncated := Digits.truncate maxKey prefixLen
    if pfx < maxKeyTruncated then metadata.endow
    else if maxKeyTruncated < pfx then 0
    else
      let maxBranchBits := getBranchBits prefixLen maxKey
      ∑ b, if b = maxBranchBits then endowLtKeySlot maxKey (children b)
        else if b < maxBranchBits then Branches.weight (fun c => c.metadata.endow) (children b)
        else 0

def endowLtKeySlot (maxKey : Key) : Option (TrieNode V) → BitVec 64
  | none => 0
  | some c => endowLtKey maxKey c

end

mutual

/-- `get_lowest_key`. -/
def getLowestKey : TrieNode V → Option Key
  | .leaf key .. => some key
  | .node _ _ children _ _ =>
    (Branches.lowest 16 (fun b => getLowestKeySlot (children b))).join

def getLowestKeySlot : Option (TrieNode V) → Option (Option Key)
  | none => none
  | some c => some (getLowestKey c)

end

mutual

/-- `apply`: run `func` on every value, in key order. -/
def apply {σ : Type} (func : V → σ → Except String σ) : TrieNode V → σ → Except String σ
  | .leaf _ value metadata _, s =>
    if metadata.size ≠ 1 then .error "invalid size in apply" else func value s
  | .node _ _ children _ _, s => (List.finRange 16).foldlM (fun s b => applySlot func (children b) s) s

def applySlot {σ : Type} (func : V → σ → Except String σ) : Option (TrieNode V) → σ → Except String σ
  | none, s => .ok s
  | some c, s => apply func c s

end

mutual

/-- `accumulate_values`, with its sanity check of the sizes. -/
def accumulateValues : TrieNode V → List V → Except String (List V)
  | .leaf _ value _ _, output => .ok (output ++ [value])
  | .node _ _ children metadata _, output =>
    if metadata.size < 0 ∨ metadata.size > 1000000000 then .error "invalid size!!!"
    else (List.finRange 16).foldlM (fun output b => accumulateValuesSlot (children b) output) output

def accumulateValuesSlot : Option (TrieNode V) → List V → Except String (List V)
  | none, output => .ok output
  | some c, output => accumulateValues c output

end

/-- The leaves of a trie in key order, as the walks hand them out. -/
def values (t : TrieNode V) : List V := t.entries.map (fun row => row.2.value)

/-- The leaves below a key. -/
def entriesBelow (maxKey : Key) (t : TrieNode V) : List (Key × Leaf V) :=
  t.entries.filter (fun row => row.1 < maxKey)

section Walks

variable [TrieValue V] {keyLen : Nat}

theorem endow_sum_entries {t : TrieNode V} (shaped : Shaped keyLen t) :
    t.metadata.endow = (t.entries.map (fun row => row.2.metadata.endow)).sum := by
  rw [metadata_eq_sum shaped]
  induction t.entries with
  | nil => rfl
  | cons row rows ih => rw [List.map_cons, List.sum_cons, Metadata.add_endow, ih, List.map_cons, List.sum_cons]

/-- A truncation is compared like the digits that it keeps. -/
theorem take_lt_of_truncate_lt {a b : Key} {n : Nat} (lengths : a.length = b.length) (inside : n ≤ a.length)
    (less : Digits.truncate a n < Digits.truncate b n) : a.take n < b.take n := by
  rcases lt_trichotomy (a.take n) (b.take n) with below | same | above
  · exact below
  · exact absurd less (by rw [Digits.truncate_congr same lengths]; exact lt_irrefl _)
  · have more : Digits.truncate b n < Digits.truncate a n := by
      refine Digits.lt_of_take_lt (n := n) ?_ ?_
      · rw [Digits.length_truncate a inside, Digits.length_truncate b (by omega), lengths]
      · rwa [Digits.take_truncate a inside, Digits.take_truncate b (by omega)]
    exact absurd less (lt_asymm more)

/-- How a key below a node compares with `maxKey`: the prefix decides, or the digit after it. -/
structure Compares (pfx : Key) (len : Nat) (maxKey query : Key) : Prop where
  low : pfx < Digits.truncate maxKey len → query < maxKey
  high : Digits.truncate maxKey len < pfx → maxKey < query
  below : Digits.truncate maxKey len = pfx → Digits.digit query len < getBranchBits len maxKey → query < maxKey
  above : Digits.truncate maxKey len = pfx → getBranchBits len maxKey < Digits.digit query len → maxKey < query

theorem compares_maxKey {pfx : Key} {len : Nat} {cs : Fin 16 → Option (TrieNode V)} {m : Metadata}
    {h : Option Hash} (stored : Shaped keyLen (.node pfx len cs m h)) {maxKey query : Key} {l : Leaf V}
    (full : maxKey.length = keyLen) (found : (node pfx len cs m h).find query = some l) :
    Compares pfx len maxKey query := by
  have inner : len < keyLen := by cases stored; assumption
  have fullPfx : pfx.length = keyLen := by cases stored; assumption
  have zeros : Digits.truncate pfx len = pfx := stored.truncate_pfx
  obtain ⟨long, same⟩ := find_under stored found
  rw [node_pfx, node_prefixLen] at same
  have here : Digits.truncate maxKey len = pfx → query.take len = maxKey.take len := by
    intro equal
    rw [same, ← equal, Digits.take_truncate maxKey (by omega)]
  refine ⟨fun low => ?_, fun high => ?_, fun equal less => ?_, fun equal more => ?_⟩
  · rw [← zeros] at low
    have smaller := take_lt_of_truncate_lt (by omega) (by omega) low
    exact Digits.lt_of_take_lt (n := len) (by omega) (by rwa [same])
  · rw [← zeros] at high
    have smaller := take_lt_of_truncate_lt (by omega) (by omega) high
    exact Digits.lt_of_take_lt (n := len) (by omega) (by rwa [same])
  · exact Digits.lt_of_digit_lt (n := len) (by omega) (by omega) (here equal) less
  · exact Digits.lt_of_digit_lt (n := len) (by omega) (by omega) (here equal).symm more

theorem endowLtKey_spec {t : TrieNode V} (shaped : Shaped keyLen t) {maxKey : Key}
    (full : maxKey.length = keyLen) :
    t.endowLtKey maxKey = ((t.entriesBelow maxKey).map (fun row => row.2.metadata.endow)).sum := by
  have all : ∀ {c : TrieNode V}, Shaped keyLen c → (∀ row ∈ c.entries, row.1 < maxKey) →
      c.metadata.endow = ((c.entriesBelow maxKey).map (fun row => row.2.metadata.endow)).sum := by
    intro c shapedC below
    rw [entriesBelow, List.filter_eq_self.mpr (fun row listed => decide_eq_true (below row listed))]
    exact endow_sum_entries shapedC
  have nothing : ∀ {c : TrieNode V}, (∀ row ∈ c.entries, maxKey < row.1) →
      ((c.entriesBelow maxKey).map (fun row => row.2.metadata.endow)).sum = 0 := by
    intro c above
    rw [entriesBelow, List.filter_eq_nil_iff.mpr
      (fun row listed => by simpa using (above row listed).le)]
    rfl
  induction shaped with
  | @leaf key value m h fullKey own =>
    rw [endowLtKey, entriesBelow, entries_leaf]
    by_cases below : key < maxKey <;> simp [below]
  | @node pfx len cs m h inner fullPfx zeros shaped placed sum ih =>
    have stored : Shaped keyLen (.node pfx len cs m h) := .node inner fullPfx zeros shaped placed sum
    have compares : ∀ row ∈ (node pfx len cs m h).entries, Compares pfx len maxKey row.1 :=
      fun row listed => compares_maxKey stored full ((mem_entries_iff stored).mp listed)
    rw [endowLtKey]
    by_cases low : pfx < Digits.truncate maxKey len
    · rw [if_pos low]
      exact all stored (fun row listed => (compares row listed).low low)
    · rw [if_neg low]
      by_cases high : Digits.truncate maxKey len < pfx
      · rw [if_pos high]
        exact (nothing (fun row listed => (compares row listed).high high)).symm
      · rw [if_neg high]
        have equal := le_antisymm (not_lt.mp low) (not_lt.mp high)
        rw [entriesBelow, entries_node, List.filter_flatMap, List.map_flatMap, List.flatMap,
          List.sum_flatten, List.map_map, Fin.sum_univ_def]
        refine congrArg List.sum (List.map_congr_left (fun b _ => ?_))
        cases occupied : cs b with
        | none => simp only [Function.comp_apply, occupied, endowLtKeySlot, entriesSlot_none,
            Branches.weight_none, List.filter_nil, List.map_nil, List.sum_nil, ite_self]
        | some c =>
          have below := shaped b c occupied
          have inBranch : ∀ row ∈ c.entries, Compares pfx len maxKey row.1 ∧ Digits.digit row.1 len = b :=
            fun row listed => ⟨compares row (mem_entries_node.mpr ⟨b, c, occupied, listed⟩),
              (find_child_digit below inner fullPfx (placed b c occupied) ((mem_entries_iff below).mp listed)).2⟩
          simp only [Function.comp_apply, occupied, entriesSlot_some, endowLtKeySlot, Branches.weight_some]
          rcases lt_trichotomy b (getBranchBits len maxKey) with less | same | more
          · rw [if_neg less.ne, if_pos less]
            refine all below (fun row listed => ?_)
            obtain ⟨compare, digit⟩ := inBranch row listed
            exact compare.below equal (by rwa [digit])
          · rw [if_pos same]
            exact ih b c occupied
          · rw [if_neg more.ne', if_neg (lt_asymm more)]
            refine (nothing (fun row listed => ?_)).symm
            obtain ⟨compare, digit⟩ := inBranch row listed
            exact compare.above equal (by rwa [digit])

/-- A walk over the branches is a walk over the leaves. -/
theorem foldlM_flatMap {α β σ : Type} (f : σ → β → Except String σ) (g : α → List β) (l : List α) (s : σ) :
    (l.flatMap g).foldlM f s = l.foldlM (fun s a => (g a).foldlM f s) s := by
  induction l generalizing s with
  | nil => rfl
  | cons a l ih =>
    rw [List.flatMap_cons, List.foldlM_append, List.foldlM_cons]
    exact congrArg _ (funext ih)

theorem apply_spec {σ : Type} (func : V → σ → Except String σ) {t : TrieNode V} (shaped : Shaped keyLen t)
    (s : σ) : t.apply func s = t.values.foldlM (fun s value => func value s) s := by
  rw [values, List.foldlM_map]
  induction shaped generalizing s with
  | @leaf key value m h full own =>
    rw [apply, if_neg (not_not.mpr own.size), entries_leaf, List.foldlM_cons]
    cases func value s <;> rfl
  | @node pfx len cs m h inner full zeros shaped placed sum ih =>
    rw [apply, entries_node, foldlM_flatMap]
    congr 1
    funext s b
    cases occupied : cs b with
    | none => rfl
    | some c => rw [applySlot, ih b c occupied, entriesSlot_some]

theorem size_eq_length {t : TrieNode V} (shaped : Shaped keyLen t) : t.metadata.size = t.entries.length := by
  have ones : ∀ rows : List (Key × Leaf V), (∀ row ∈ rows, row.2.metadata.size = 1) →
      (rows.map (fun row : Key × Leaf V => row.2.metadata)).sum.size = rows.length := by
    intro rows
    induction rows with
    | nil => simp
    | cons row rows ih =>
      intro own
      have rest := ih (fun row' listed => own row' (List.mem_cons_of_mem _ listed))
      rw [List.map_cons, List.sum_cons, Metadata.add_size, rest, own row List.mem_cons_self, List.length_cons]
      omega
  rw [metadata_eq_sum shaped]
  exact ones _ (fun row listed => (find_leafMetadata shaped ((mem_entries_iff shaped).mp listed)).size)

/-- The size vanishes exactly without keys. -/
theorem size_eq_zero_iff {t : TrieNode V} (shaped : Shaped keyLen t) :
    t.metadata.size = 0 ↔ ∀ query, t.find query = none := by
  rw [size_eq_length shaped, Int.natCast_eq_zero, List.length_eq_zero_iff]
  constructor
  · intro bare query
    refine Option.eq_none_iff_forall_ne_some.mpr (fun l found => ?_)
    have listed := (mem_entries_iff shaped).mpr found
    rw [bare] at listed
    cases listed
  · intro absent
    refine List.eq_nil_iff_forall_not_mem.mpr (fun row listed => ?_)
    have found := (mem_entries_iff shaped).mp (show (row.1, row.2) ∈ t.entries from listed)
    rw [absent] at found
    cases found

theorem accumulateValues_ok {t : TrieNode V} (shaped : Shaped keyLen t)
    (small : t.metadata.size ≤ 1000000000) (output : List V) :
    t.accumulateValues output = .ok (output ++ t.values) := by
  induction shaped generalizing output with
  | leaf full own => rw [accumulateValues, values, entries_leaf, List.map_singleton]
  | @node pfx len cs m h inner full zeros shaped placed sum ih =>
    have stored : Shaped keyLen (.node pfx len cs m h) := .node inner full zeros shaped placed sum
    have count := size_eq_length stored
    rw [node_metadata] at count small
    rw [accumulateValues, if_neg (by omega), values, entries_node, List.map_flatMap]
    have child : ∀ b c, cs b = some c → c.metadata.size ≤ 1000000000 := by
      intro b c occupied
      have part := size_eq_length (shaped b c occupied)
      have sub : c.entries.length ≤ (node pfx len cs m h).entries.length := by
        rw [entries_node, List.length_flatMap]
        refine le_trans ?_ (List.single_le_sum (by simp) (entriesSlot (cs b)).length ?_)
        · rw [occupied, entriesSlot_some]
        · exact List.mem_map.mpr ⟨b, List.mem_finRange b, rfl⟩
      omega
    have loop : ∀ (l : List Digit) (output : List V),
        l.foldlM (fun output b => accumulateValuesSlot (cs b) output) output =
          .ok (output ++ l.flatMap (fun b => (entriesSlot (cs b)).map (fun row => row.2.value))) := by
      intro l
      induction l with
      | nil =>
        intro output
        rw [List.foldlM_nil, List.flatMap_nil, List.append_nil]
        rfl
      | cons b l rest =>
        intro output
        rw [List.foldlM_cons, List.flatMap_cons]
        cases occupied : cs b with
        | none =>
          rw [accumulateValuesSlot, entriesSlot_none, List.map_nil, List.nil_append]
          exact rest output
        | some c =>
          rw [accumulateValuesSlot, ih b c occupied (child b c occupied), ← List.append_assoc]
          exact rest _
    exact loop _ output

/-- Whatever `accumulate_values` returns, it is the values in key order. -/
theorem accumulateValues_size {t : TrieNode V} (shaped : Shaped keyLen t) {output result : List V}
    (run : t.accumulateValues output = .ok result) :
    t.metadata.size ≤ 1000000000 ∧ result = output ++ t.values := by
  have small : t.metadata.size ≤ 1000000000 := by
    cases shaped with
    | leaf full own =>
      rw [leaf_metadata, own.size]
      omega
    | node =>
      rw [accumulateValues] at run
      split at run
      · cases run
      · rw [node_metadata]
        omega
  rw [accumulateValues_ok shaped small] at run
  exact ⟨small, (Except.ok.inj run).symm⟩

end Walks

/-- The first leaf below a table of branches. -/
theorem lowest_entries {n : Nat} {table : Fin n → Option (TrieNode V)}
    (lowest : ∀ b c, table b = some c → c.getLowestKey = c.entries.head?.map Prod.fst)
    (filled : ∀ b c, table b = some c → c.entries ≠ []) :
    (Branches.lowest n (fun b => getLowestKeySlot (table b))).join =
      ((List.finRange n).flatMap (fun b => entriesSlot (table b))).head?.map Prod.fst := by
  induction n with
  | zero => rfl
  | succ n ih =>
    rw [List.finRange_succ, List.flatMap_cons, List.flatMap_map, Branches.lowest]
    cases first : table 0 with
    | none =>
      rw [entriesSlot_none, List.nil_append]
      exact ih (fun b => lowest b.succ) (fun b => filled b.succ)
    | some c =>
      rw [entriesSlot_some, List.head?_append_of_ne_nil _ (filled 0 c first)]
      exact lowest 0 c first

/-- `get_lowest_key` is the first key in key order. -/
theorem getLowestKey_spec {required : Key → Nat → Prop} {t : TrieNode V} (compact : t.CompactAt required) :
    t.getLowestKey = t.entries.head?.map Prod.fst := by
  induction t using TrieNode.induct with
  | leaf => rw [getLowestKey, entries_leaf]; rfl
  | node p l cs m h ih =>
    obtain ⟨-, -, all⟩ := (compactAt_node _ _ _ _ _).mp compact
    rw [getLowestKey, entries_node]
    exact lowest_entries (fun b c occupied => ih b c occupied (all b c occupied))
      (fun b c occupied => (all b c occupied).entries_ne_nil)

end TrieNode

end Speedex
