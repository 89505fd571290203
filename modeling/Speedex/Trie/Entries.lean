import Speedex.Trie.MergeCorrect

set_option autoImplicit false

/- The leaves of a trie in the order of the in-order walks (`apply`, `accumulate_values`), which
is the order of the keys. -/
namespace Speedex

namespace TrieNode

variable {V : Type}

mutual

/-- Leaves by ascending branch bits. -/
def entries : TrieNode V → List (Key × Leaf V)
  | .leaf key value metadata _ => [(key, ⟨value, metadata⟩)]
  | .node _ _ children _ _ => (List.finRange 16).flatMap (fun b => entriesSlot (children b))

def entriesSlot : Option (TrieNode V) → List (Key × Leaf V)
  | none => []
  | some c => entries c

end

@[simp] theorem entries_leaf (key : Key) (value : V) (m : Metadata) (h : Option Hash) :
    (leaf key value m h).entries = [(key, ⟨value, m⟩)] := by
  rw [entries]

theorem entries_node (p : Key) (l : Nat) (cs : Fin 16 → Option (TrieNode V)) (m : Metadata)
    (h : Option Hash) :
    (node p l cs m h).entries = (List.finRange 16).flatMap (fun b => entriesSlot (cs b)) := by
  rw [entries]

@[simp] theorem entriesSlot_none : entriesSlot (none : Option (TrieNode V)) = [] := by rw [entriesSlot]
@[simp] theorem entriesSlot_some (c : TrieNode V) : entriesSlot (some c) = c.entries := by
  rw [entriesSlot]

theorem mem_entriesSlot {slot : Option (TrieNode V)} {row : Key × Leaf V} :
    row ∈ entriesSlot slot ↔ ∃ c, slot = some c ∧ row ∈ c.entries := by
  cases slot <;> simp

theorem mem_entries_node {p : Key} {l : Nat} {cs : Fin 16 → Option (TrieNode V)} {m : Metadata}
    {h : Option Hash} {row : Key × Leaf V} :
    row ∈ (node p l cs m h).entries ↔ ∃ b c, cs b = some c ∧ row ∈ c.entries := by
  rw [entries_node, List.mem_flatMap]
  simp only [List.mem_finRange, true_and, mem_entriesSlot]

theorem findSlot_eq_some {slot : Option (TrieNode V)} {query : Key} {l : Leaf V} :
    findSlot slot query = some l ↔ ∃ c, slot = some c ∧ c.find query = some l := by
  cases slot <;> simp

/-- Rows in key order are determined by their members. -/
theorem rows_ext {rows rows' : List (Key × Leaf V)} (sorted : rows.Pairwise (fun a b => a.1 < b.1))
    (sorted' : rows'.Pairwise (fun a b => a.1 < b.1)) (members : ∀ row, row ∈ rows ↔ row ∈ rows') : rows = rows' := by
  have nodup : ∀ {rows : List (Key × Leaf V)}, rows.Pairwise (fun a b => a.1 < b.1) → rows.Nodup :=
    fun sorted => sorted.imp (fun less same => less.ne (congrArg Prod.fst same))
  refine List.Perm.eq_of_pairwise ?_ sorted sorted' ?_
  · intro a b _ _ less less'
    exact absurd less' (lt_asymm less)
  · exact (List.perm_ext_iff_of_nodup (nodup sorted) (nodup sorted')).mpr members

section Shaped

variable [TrieValue V] {keyLen : Nat} {t : TrieNode V}

/-- The listed leaves are exactly the keys a lookup finds. -/
theorem mem_entries_iff (shaped : Shaped keyLen t) {key : Key} {l : Leaf V} :
    (key, l) ∈ t.entries ↔ t.find key = some l := by
  induction shaped with
  | @leaf key' value m h full own => simp [eq_comm]
  | @node pfx len cs m h inner full zeros shaped placed sum ih =>
    rw [mem_entries_node, find_node, findSlot_eq_some]
    constructor
    · rintro ⟨b, c, occupied, listed⟩
      have found := (ih b c occupied).mp listed
      have digit := (find_child_digit (shaped b c occupied) inner full (placed b c occupied) found).2
      exact ⟨c, digit ▸ occupied, found⟩
    · rintro ⟨c, occupied, found⟩
      exact ⟨_, c, occupied, (ih _ c occupied).mpr found⟩

theorem mem_entries_length (shaped : Shaped keyLen t) {row : Key × Leaf V} (listed : row ∈ t.entries) :
    row.1.length = keyLen := find_length shaped ((mem_entries_iff shaped).mp listed)

/-- Leaves on a lower branch have lower keys. -/
theorem entries_sorted (shaped : Shaped keyLen t) :
    t.entries.Pairwise (fun a b => a.1 < b.1) := by
  induction shaped with
  | leaf => simp
  | @node pfx len cs m h inner full zeros shaped placed sum ih =>
    rw [entries_node, List.pairwise_flatMap]
    refine ⟨?_, ?_⟩
    · intro b _
      cases occupied : cs b with
      | none => simp
      | some c => simpa using ih b c occupied
    · refine (List.pairwise_lt_finRange 16).imp ?_
      intro a b less x left y right
      obtain ⟨c, atA, left⟩ := mem_entriesSlot.mp left
      obtain ⟨d, atB, right⟩ := mem_entriesSlot.mp right
      have foundX := (mem_entries_iff (shaped a c atA)).mp left
      have foundY := (mem_entries_iff (shaped b d atB)).mp right
      have digitX := find_child_digit (shaped a c atA) inner full (placed a c atA) foundX
      have digitY := find_child_digit (shaped b d atB) inner full (placed b d atB) foundY
      have longX := find_length (shaped a c atA) foundX
      have longY := find_length (shaped b d atB) foundY
      refine Digits.lt_of_digit_lt (n := len) (by omega) (by omega) (digitX.1.trans digitY.1.symm) ?_
      rw [digitX.2, digitY.2]
      exact less

theorem entries_keys_nodup (shaped : Shaped keyLen t) : (t.entries.map Prod.fst).Nodup := by
  rw [List.Nodup, List.pairwise_map]
  exact (entries_sorted shaped).imp (fun less => ne_of_lt less)

/-- Metadata is the sum over the leaves. -/
theorem metadata_eq_sum (shaped : Shaped keyLen t) :
    t.metadata = (t.entries.map (fun row => row.2.metadata)).sum := by
  induction shaped with
  | leaf => simp
  | @node pfx len cs m h inner full zeros shaped placed sum ih =>
    rw [node_metadata, sum, entries_node, Branches.total, Fin.sum_univ_def, List.map_flatMap, List.flatMap,
      List.sum_flatten, List.map_map]
    refine congrArg List.sum (List.map_congr_left (fun b _ => ?_))
    cases occupied : cs b with
    | none => simp [occupied]
    | some c => simpa [occupied] using ih b c occupied

/-- Two shaped tries with the same contents list the same leaves. -/
theorem entries_ext {u : TrieNode V} (left : Shaped keyLen t) (right : Shaped keyLen u)
    (same : ∀ key, t.find key = u.find key) : t.entries = u.entries := by
  refine rows_ext (entries_sorted left) (entries_sorted right) ?_
  rintro ⟨key, l⟩
  rw [mem_entries_iff left, mem_entries_iff right, same]

theorem metadata_ext {u : TrieNode V} (left : Shaped keyLen t) (right : Shaped keyLen u)
    (same : ∀ key, t.find key = u.find key) : t.metadata = u.metadata := by
  rw [metadata_eq_sum left, metadata_eq_sum right, entries_ext left right same]

end Shaped

end TrieNode

end Speedex
