import Speedex.Trie.Operations
import Speedex.Trie.SplitAt

set_option autoImplicit false

/- The trie of an order book. Its nodes say how many offers lie below them and what these endow, and a
split moves as many offers from the low end as the threshold pays for. -/
namespace Speedex

open Machine

namespace TrieNode

variable {V : Type}

/-- No `size` or `endow` of a node has lost anything to the width of its integer. -/
structure ExactMetadata (t : TrieNode V) : Prop where
  size : ∀ u, Subnode t u → u.metadata.size = u.entries.length
  endow : ∀ u, Subnode t u → u.metadata.endow.toInt = endowSum u.entries

theorem entries_sublist {t c : TrieNode V} {b : Digit} (occupied : t.children b = some c) :
    c.entries.Sublist t.entries := by
  cases t with
  | leaf => cases occupied
  | node p l cs m h =>
    rw [node_children] at occupied
    have branch : (entriesSlot (cs b)).Sublist ((List.finRange 16).flatMap (fun b => entriesSlot (cs b))) := by
      rw [List.flatMap]
      apply List.sublist_flatten_of_mem
      exact List.mem_map.mpr ⟨b, List.mem_finRange b, rfl⟩
    rw [occupied, entriesSlot_some] at branch
    rw [entries_node]
    exact branch

theorem Subnode.sublist {t u : TrieNode V} (deep : Subnode t u) : u.entries.Sublist t.entries := by
  induction deep with
  | self t => exact List.Sublist.refl _
  | deeper occupied deep ih => exact ih.trans (entries_sublist occupied)

theorem Subnode.shaped [TrieValue V] {keyLen : Nat} {t u : TrieNode V} (deep : Subnode t u)
    (shaped : Shaped keyLen t) : Shaped keyLen u := by
  induction deep with
  | self t => exact shaped
  | deeper occupied deep ih =>
    cases shaped with
    | leaf => cases occupied
    | node inner full zeros shaped placed sum => exact ih (shaped _ _ occupied)

/-- The sums of a funded trie are exact at every node. -/
theorem exactMetadata_of_funded [TrieValue V] {keyLen : Nat} {t : TrieNode V} (shaped : Shaped keyLen t)
    (funded : Funded t.entries) : t.ExactMetadata := by
  constructor
  · intro u deep
    exact size_eq_length (deep.shaped shaped)
  · intro u deep
    exact endow_toInt (deep.shaped shaped) (funded.sublist deep.sublist)

end TrieNode

open TrieNode

namespace MerkleTrie

variable {V : Type} [TrieValue V] {keyLen : Nat} {t : MerkleTrie V}

/-- A canonical trie, its metadata included. -/
structure Accounted (keyLen : Nat) (t : MerkleTrie V) : Prop where
  valid : t.Valid keyLen
  exact : t.root.ExactMetadata

/-- Every value has a positive endowment. -/
def Positive (t : MerkleTrie V) : Prop := ∀ row ∈ t.entries, 0 < (TrieValue.endow row.2.value).toInt

/-- The root's own sum bounds the sum of the endowments. -/
theorem Accounted.funded (accounted : t.Accounted keyLen) (long : 0 < keyLen) (positive : t.Positive) :
    Funded t.entries := by
  constructor
  · intro row listed
    have own := find_leafMetadata (accounted.valid.shaped long) ((mem_entries_iff (accounted.valid.shaped long)).mp listed)
    rw [own.endow]
    exact positive row listed
  · show endowSum t.root.entries ≤ int64Max
    rw [← accounted.exact.endow t.root (.self _), int64Max]
    have top := t.root.metadata.endow.toInt_lt
    omega

/-- `endow_split` moves the longest prefix of the offers that its threshold covers, and nothing else. At the
endowment that `endow_lt_key` reports for a key these are the offers below the key. -/
theorem endowSplit_maximal (long : 0 < keyLen) (accounted : t.Accounted keyLen) (positive : t.Positive) :
    (∀ endowThreshold : BitVec 64, 0 ≤ endowThreshold.toInt → endowThreshold.toInt ≤ endowSum t.entries →
      ∃ split remaining, t.endowSplit keyLen endowThreshold = .ok (split, remaining) ∧
        split.entries ++ remaining.entries = t.entries ∧
        LongestPrefix endowThreshold.toInt split.entries remaining.entries ∧
        split.root.ExactMetadata ∧ remaining.Accounted keyLen) ∧
    ∀ key : Key, key.length = keyLen →
      ∃ split remaining, t.endowSplit keyLen (t.endowLtKey key) = .ok (split, remaining) ∧
        split.entries = t.entries.filter (fun row => row.1 < key) ∧
        remaining.entries = t.entries.filter (fun row => key ≤ row.1) ∧
        split.root.ExactMetadata ∧ remaining.Accounted keyLen := by
  have funded := accounted.funded long positive
  -- both tries hold some of the funded leaves
  have parts : ∀ {split remaining : MerkleTrie V}, SplitInto keyLen t split remaining →
      split.root.ExactMetadata ∧ remaining.Accounted keyLen := by
    intro split remaining into
    have left : split.entries.Sublist t.entries := by
      rw [← into.rows]
      exact List.sublist_append_left _ _
    have right : remaining.entries.Sublist t.entries := by
      rw [← into.rows]
      exact List.sublist_append_right _ _
    exact ⟨exactMetadata_of_funded into.shaped (funded.sublist left), into.valid,
      exactMetadata_of_funded (into.valid.shaped long) (funded.sublist right)⟩
  constructor
  · intro endowThreshold nonneg within
    obtain ⟨split, remaining, run, into, longest⟩ := endowSplit_total accounted.valid long funded nonneg within
    exact ⟨split, remaining, run, into.rows, longest, parts into⟩
  · intro key full
    have sum := endowLtKey_toInt accounted.valid long funded full
    obtain ⟨split, remaining, run, into, front, back⟩ := endowSplit_at accounted.valid long funded sum
    exact ⟨split, remaining, run, front, back, parts into⟩

end MerkleTrie

section Sample

/-- Two offers of ten units each, as `insert` stores them. -/
theorem endowSplit_maximal_sample : ∃ t t' : MerkleTrie Offer,
    (MerkleTrie.new 4).insert .overwrite [0, 0, 0, 0] tenUnits = .ok t ∧
      t.insert .overwrite [0, 0, 1, 4] tenUnits = .ok t' ∧
      ∃ split remaining, t'.endowSplit 4 (t'.endowLtKey [0, 0, 1, 0]) = .ok (split, remaining) ∧
        split.entries = t'.entries.filter (fun row => row.1 < [0, 0, 1, 0]) ∧
        remaining.entries = t'.entries.filter (fun row => [0, 0, 1, 0] ≤ row.1) ∧
        split.root.ExactMetadata ∧ remaining.Accounted 4 := by
  obtain ⟨t, first, valid, -⟩ := MerkleTrie.insert_spec .overwrite tenUnits
    (MerkleTrie.valid_new 4) (by decide) (show ([0, 0, 0, 0] : Key).length = 4 from rfl)
  obtain ⟨t', second, valid', -⟩ := MerkleTrie.insert_spec .overwrite tenUnits valid (by decide)
    (show ([0, 0, 1, 4] : Key).length = 4 from rfl)
  have rows : t'.entries = [([0, 0, 0, 0], ⟨tenUnits, .ofValue tenUnits⟩), ([0, 0, 1, 4], ⟨tenUnits, .ofValue tenUnits⟩)] := by
    cases first
    cases second
    rfl
  have funded : Funded t'.root.entries := by
    show Funded t'.entries
    rw [rows]
    exact ⟨by decide, by decide⟩
  have accounted : t'.Accounted 4 := ⟨valid', exactMetadata_of_funded (valid'.shaped (by decide)) funded⟩
  have positive : t'.Positive := by
    rw [MerkleTrie.Positive, rows]
    decide
  exact ⟨t, t', first, second, (MerkleTrie.endowSplit_maximal (by decide) accounted positive).2 [0, 0, 1, 0] rfl⟩

end Sample

end Speedex
