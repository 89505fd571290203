import Speedex.Trie.Handle

set_option autoImplicit false

/- Splitting a funded trie at a key: the endowment below the key, as `endow_lt_key` computes it, takes
exactly the leaves below the key. -/
namespace Speedex

open Machine TrieNode

variable {V : Type}

theorem TrieNode.endowSum_sublist {rows rows' : List (Key × Leaf V)} (sub : rows.Sublist rows')
    (positive : ∀ row ∈ rows', 0 < row.2.metadata.endow.toInt) : endowSum rows ≤ endowSum rows' := by
  induction sub with
  | slnil => exact le_refl _
  | @cons rows rows' row sub ih =>
    have rest := ih (fun row' listed => positive row' (List.mem_cons_of_mem _ listed))
    have more := positive row List.mem_cons_self
    rw [endowSum_cons]
    omega
  | @cons_cons rows rows' row sub ih =>
    have rest := ih (fun row' listed => positive row' (List.mem_cons_of_mem _ listed))
    rw [endowSum_cons, endowSum_cons]
    omega

theorem TrieNode.Funded.sublist {rows rows' : List (Key × Leaf V)} (funded : Funded rows') (sub : rows.Sublist rows') :
    Funded rows :=
  ⟨fun row listed => funded.positive row (sub.subset listed),
    (endowSum_sublist sub funded.positive).trans funded.bounded⟩

namespace MerkleTrie

variable [TrieValue V] {keyLen : Nat} {t t' : MerkleTrie V} {key : Key}

/-- The endowment below a key, without overflow. -/
theorem endowLtKey_toInt (valid : t.Valid keyLen) (long : 0 < keyLen) (funded : Funded t.entries)
    (full : key.length = keyLen) : (t.endowLtKey key).toInt = endowSum (t.root.entriesBelow key) := by
  have sub : (t.root.entriesBelow key).Sublist t.entries := List.filter_sublist
  have below := funded.sublist sub
  have nonneg := endowSum_nonneg below.positive
  rw [endowLtKey, TrieNode.endowLtKey_spec (valid.shaped long) full, toInt_sum, List.map_map]
  refine bmod_of_range ?_ ?_
  · exact nonneg.trans' (by omega)
  · exact below.bounded

/-- A deletion removes a row. -/
theorem entries_of_deleted (valid : t.Valid keyLen) (valid' : t'.Valid keyLen) (long : 0 < keyLen)
    (finds : ∀ query, t'.find query = if query = key then none else t.find query) :
    t'.entries = t.entries.filter (fun row => row.1 ≠ key) := by
  have members : ∀ row, row ∈ t'.entries ↔ row ∈ t.entries.filter (fun row => row.1 ≠ key) := by
    rintro ⟨query, l⟩
    rw [List.mem_filter, mem_entries valid' long, mem_entries valid long, finds]
    by_cases here : query = key <;> simp [here]
  have sorted : t.entries.Pairwise (fun a b => a.1 < b.1) := entries_sorted (valid.shaped long)
  have sorted' : t'.entries.Pairwise (fun a b => a.1 < b.1) := entries_sorted (valid'.shaped long)
  exact rows_ext sorted' (sorted.filter _) members

/-- Sorted rows fall apart at a key. -/
theorem entries_at_key (valid : t.Valid keyLen) (long : 0 < keyLen) (key : Key) :
    t.entries = t.root.entriesBelow key ++ t.entries.filter (fun row => key ≤ row.1) := by
  have sorted : t.entries.Pairwise (fun a b => a.1 < b.1) := entries_sorted (valid.shaped long)
  rw [entriesBelow, ← entries]
  generalize t.entries = rows at sorted
  induction rows with
  | nil => rfl
  | cons row rows ih =>
    obtain ⟨first, sorted⟩ := List.pairwise_cons.mp sorted
    have rest := ih sorted
    rcases lt_or_ge row.1 key with below | above
    · rw [List.filter_cons_of_pos (by simpa using below), List.filter_cons_of_neg (by simpa using below),
        List.cons_append, ← rest]
    · have bare : rows.filter (fun row => row.1 < key) = [] := by
        refine List.filter_eq_nil_iff.mpr (fun row' listed => ?_)
        simpa using above.trans (first row' listed).le
      have full : rows.filter (fun row => key ≤ row.1) = rows := by
        refine List.filter_eq_self.mpr (fun row' listed => ?_)
        simpa using above.trans (first row' listed).le
      rw [List.filter_cons_of_neg (by simpa using above), List.filter_cons_of_pos (by simpa using above), bare,
        full, List.nil_append]

/-- The threshold that the leaves below a key add up to takes exactly these leaves. -/
theorem endowSplit_at (valid : t.Valid keyLen) (long : 0 < keyLen) (funded : Funded t.entries) {threshold : BitVec 64}
    (sum : threshold.toInt = endowSum (t.root.entriesBelow key)) :
    ∃ split remaining, t.endowSplit keyLen threshold = .ok (split, remaining) ∧
      SplitInto keyLen t split remaining ∧ split.entries = t.root.entriesBelow key ∧
      remaining.entries = t.entries.filter (fun row => key ≤ row.1) := by
  have sub : (t.root.entriesBelow key).Sublist t.entries := List.filter_sublist
  have nonneg := endowSum_nonneg (funded.sublist sub).positive
  obtain ⟨split, remaining, run, into, longest⟩ := endowSplit_total valid long funded
    (by rw [sum]; exact nonneg) (by rw [sum]; exact endowSum_sublist sub funded.positive)
  have apart := entries_at_key valid long key
  rw [sum] at longest
  have positive : ∀ row ∈ split.entries ++ remaining.entries, 0 < row.2.metadata.endow.toInt := by
    rw [into.rows]
    exact funded.positive
  have positive' : ∀ row ∈ t.root.entriesBelow key ++ t.entries.filter (fun row => key ≤ row.1),
      0 < row.2.metadata.endow.toInt := by
    rw [← apart]
    exact funded.positive
  obtain ⟨front, back⟩ := longest.eq positive (longestPrefix_sum _ _ positive') (into.rows.trans apart)
  exact ⟨split, remaining, run, into, front, back⟩

/-- Taking the leaf at a key out and splitting at the endowment below it. -/
theorem performDeletion_endowSplit (valid : t.Valid keyLen) (long : 0 < keyLen) (funded : Funded t.entries)
    (full : key.length = keyLen) : ∃ split remaining,
      (t.performDeletion keyLen key).1.endowSplit keyLen (t.endowLtKey key) = .ok (split, remaining) ∧
      SplitInto keyLen (t.performDeletion keyLen key).1 split remaining ∧
      split.entries = t.root.entriesBelow key ∧
      remaining.entries = t.entries.filter (fun row => key < row.1) := by
  obtain ⟨valid', finds, -⟩ := performDeletion_spec valid long full
  have rows := entries_of_deleted valid valid' long finds
  have below : (t.performDeletion keyLen key).1.root.entriesBelow key = t.root.entriesBelow key := by
    rw [entriesBelow, entriesBelow, ← entries, ← entries, rows, List.filter_filter]
    refine List.filter_congr (fun row _ => ?_)
    by_cases less : row.1 < key
    · simp [less, less.ne]
    · simp [less]
  have above : (t.performDeletion keyLen key).1.entries.filter (fun row => key ≤ row.1) =
      t.entries.filter (fun row => key < row.1) := by
    rw [rows, List.filter_filter]
    refine List.filter_congr (fun row _ => ?_)
    by_cases less : key < row.1
    · simp [less, less.ne', less.le]
    · simp [le_iff_lt_or_eq, less, eq_comm]
  rw [← below, ← above]
  refine endowSplit_at valid' long ?_ ?_
  · rw [rows]
    exact funded.sublist List.filter_sublist
  · rw [below]
    exact endowLtKey_toInt valid long funded full

end MerkleTrie

end Speedex
