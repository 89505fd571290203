import Speedex.Trie.Operations

set_option autoImplicit false

/- The contents of a canonical trie determine all its nodes. -/
namespace Speedex

namespace TrieNode

variable {V : Type}

mutual

/-- The same nodes without cached hashes. -/
def withoutHashes : TrieNode V → TrieNode V
  | .leaf key value metadata _ => .leaf key value metadata none
  | .node pfx prefixLen children metadata _ =>
    .node pfx prefixLen (fun b => withoutHashesSlot (children b)) metadata none

def withoutHashesSlot : Option (TrieNode V) → Option (TrieNode V)
  | none => none
  | some c => some (withoutHashes c)

end

section Unique

variable [TrieValue V] {keyLen : Nat} {t u : TrieNode V}

theorem Canonical.exists_find (canonical : Canonical keyLen t) : ∃ query l, t.find query = some l := by
  obtain ⟨row, listed⟩ := List.exists_mem_of_ne_nil _ (CompactAt.entries_ne_nil canonical.compact)
  exact ⟨row.1, row.2, (mem_entries_iff canonical.shaped).mp listed⟩

/-- What a child finds. -/
theorem find_child {pfx : Key} {len : Nat} {cs : Fin 16 → Option (TrieNode V)} {m : Metadata} {h : Option Hash}
    (stored : Shaped keyLen (.node pfx len cs m h)) {b : Digit} {c : TrieNode V} (occupied : cs b = some c) (query : Key) :
    c.find query = if Digits.digit query len = b then (node pfx len cs m h).find query else none := by
  cases stored with
  | node inner full zeros shaped placed sum =>
    split
    · rename_i here
      rw [find_node, here, occupied, findSlot_some]
    · rename_i apart
      refine Option.eq_none_iff_forall_ne_some.mpr (fun l found => apart ?_)
      exact (find_child_digit (shaped b c occupied) inner full (placed b c occupied) found).2

/-- Under each of its branches a canonical node holds a key. -/
theorem Canonical.exists_find_branch {pfx : Key} {len : Nat} {cs : Fin 16 → Option (TrieNode V)} {m : Metadata}
    {h : Option Hash} (canonical : Canonical keyLen (.node pfx len cs m h)) {b : Digit} {c : TrieNode V}
    (occupied : cs b = some c) :
    ∃ query l, (node pfx len cs m h).find query = some l ∧ Digits.digit query len = b := by
  obtain ⟨query, l, found⟩ := (canonical.child (b := b) (c := c) occupied).exists_find
  rw [find_child canonical.shaped occupied] at found
  split at found
  · rename_i digit
    exact ⟨query, l, found, digit⟩
  · cases found

theorem Canonical.branch_vacant {pfx : Key} {len : Nat} {cs : Fin 16 → Option (TrieNode V)} {m : Metadata}
    {h : Option Hash} (canonical : Canonical keyLen (.node pfx len cs m h)) (b : Digit) :
    cs b = none ↔ ∀ query, Digits.digit query len = b → (node pfx len cs m h).find query = none := by
  constructor
  · intro bare query digit
    rw [find_node, digit, bare, findSlot_none]
  · intro absent
    refine Option.eq_none_iff_forall_ne_some.mpr (fun c occupied => ?_)
    obtain ⟨query, l, found, digit⟩ := canonical.exists_find_branch occupied
    rw [absent query digit] at found
    cases found

/-- A node branches where its keys part, so no trie with these keys can have a longer prefix. -/
theorem Canonical.prefixLen_le (left : Canonical keyLen t) (right : Canonical keyLen u)
    (same : ∀ query, t.find query = u.find query) : t.prefixLen ≤ u.prefixLen := by
  cases u with
  | leaf key value m h =>
    have full := right.shaped.pfx_length
    rw [leaf_pfx] at full
    rw [leaf_prefixLen, full]
    exact left.shaped.prefixLen_le
  | node pfx len cs m h =>
    rw [node_prefixLen]
    by_contra shorter
    have two := (compact_node.mp right.compact).1
    obtain ⟨b, b', c, c', apart, at_b, at_b'⟩ := Branches.exists_two two
    obtain ⟨x, l, foundX, digitX⟩ := right.exists_find_branch at_b
    obtain ⟨y, l', foundY, digitY⟩ := right.exists_find_branch at_b'
    have frontX := (find_under left.shaped ((same x).trans foundX)).2
    have frontY := (find_under left.shaped ((same y).trans foundY)).2
    have agree := Digits.digit_eq_of_take (frontX.trans frontY.symm) (by omega : len < t.prefixLen)
    exact apart (digitX.symm.trans (agree.trans digitY))

/-- Canonical tries with the same leaves have the same nodes. -/
theorem Canonical.unique (left : Canonical keyLen t) (right : Canonical keyLen u)
    (same : ∀ query, t.find query = u.find query) : t.withoutHashes = u.withoutHashes := by
  obtain ⟨shaped, compact⟩ := left
  induction shaped generalizing u with
  | @leaf key value m h full own =>
    have left : Canonical keyLen (leaf key value m h) := ⟨.leaf full own, compact⟩
    have deep := left.prefixLen_le right same
    cases u with
    | leaf key' value' m' h' =>
      have found : (leaf key' value' m' h').find key = some ⟨value, m⟩ := by
        rw [← same, find_leaf, if_pos rfl]
      rw [find_leaf] at found
      split at found
      · rename_i here
        cases found
        rw [here, withoutHashes, withoutHashes]
      · cases found
    | node pfx len cs m' h' =>
      rw [leaf_prefixLen, node_prefixLen, full] at deep
      cases right.shaped with
      | node inner => omega
  | @node pfx len cs m h inner full zeros shaped placed sum ih =>
    have left : Canonical keyLen (node pfx len cs m h) := ⟨.node inner full zeros shaped placed sum, compact⟩
    have deep := left.prefixLen_le right same
    have back := right.prefixLen_le left (fun query => (same query).symm)
    have total := metadata_ext left.shaped right.shaped same
    cases u with
    | leaf key' value' m' h' =>
      have long := right.shaped.pfx_length
      rw [leaf_pfx] at long
      rw [leaf_prefixLen, node_prefixLen] at back
      omega
    | node pfx' len' cs' m' h' =>
      rw [node_prefixLen, node_prefixLen] at deep back
      obtain rfl : len = len' := by omega
      rw [node_metadata, node_metadata] at total
      obtain ⟨query, l, found⟩ := left.exists_find
      have front := (find_under left.shaped found).2
      have front' := (find_under right.shaped ((same query).symm.trans found)).2
      rw [node_prefixLen, node_pfx] at front front'
      -- both prefixes are cut off the same key
      have prefixes : pfx = pfx' := by
        have cut := left.shaped.truncate_pfx
        have cut' := right.shaped.truncate_pfx
        have full' := right.shaped.pfx_length
        rw [node_pfx, node_prefixLen] at cut cut'
        rw [node_pfx] at full'
        rw [← cut, ← cut']
        exact Digits.truncate_congr (front.symm.trans front') (full.trans full'.symm)
      have slots : (fun b => withoutHashesSlot (cs b)) = fun b => withoutHashesSlot (cs' b) := by
        funext b
        have vacant : cs b = none ↔ cs' b = none := by
          rw [left.branch_vacant, right.branch_vacant]
          simp only [same]
        cases here : cs b with
        | none => rw [vacant.mp here]
        | some c =>
          have filled : cs' b ≠ none := by
            rw [ne_eq, ← vacant, here]
            exact Option.some_ne_none c
          obtain ⟨c', there⟩ := Option.ne_none_iff_exists'.mp filled
          rw [there, withoutHashesSlot, withoutHashesSlot]
          refine congrArg some (ih b c here (right.child there) (fun query => ?_) (left.child here).compact)
          rw [find_child left.shaped here, find_child right.shaped there, same]
      rw [withoutHashes, withoutHashes, prefixes, total, slots]

end Unique

end TrieNode

end Speedex
