import Speedex.Trie.Walks

set_option autoImplicit false

/- The subtrees at which a traversal down to a given depth stops. They list the leaves of the trie in
order, and each holds the leaves that share its first digits. -/
namespace Speedex

namespace TrieNode

variable {V : Type}

mutual

/-- The subtrees whose prefix has at least `queryLen` digits, by ascending branch bits. -/
def frontier (queryLen : Nat) : TrieNode V → List (TrieNode V)
  | .leaf key value metadata hash => if queryLen ≤ key.length then [.leaf key value metadata hash] else []
  | .node pfx prefixLen children metadata hash =>
    if queryLen ≤ prefixLen then [.node pfx prefixLen children metadata hash]
    else (List.finRange 16).flatMap (fun b => frontierSlot queryLen (children b))

def frontierSlot (queryLen : Nat) : Option (TrieNode V) → List (TrieNode V)
  | none => []
  | some c => frontier queryLen c

end

variable {queryLen : Nat}

theorem frontier_of_le {t : TrieNode V} (deep : queryLen ≤ t.prefixLen) : frontier queryLen t = [t] := by
  cases t with
  | leaf =>
    rw [frontier]
    exact if_pos deep
  | node =>
    rw [frontier]
    exact if_pos deep

theorem frontier_node {p : Key} {l : Nat} {cs : Fin 16 → Option (TrieNode V)} {m : Metadata} {h : Option Hash}
    (high : ¬ queryLen ≤ l) : frontier queryLen (node p l cs m h) =
      (List.finRange 16).flatMap (fun b => frontierSlot queryLen (cs b)) := by
  rw [frontier, if_neg high]

theorem mem_frontierSlot {slot : Option (TrieNode V)} {c : TrieNode V} :
    c ∈ frontierSlot queryLen slot ↔ ∃ child, slot = some child ∧ c ∈ frontier queryLen child := by
  cases slot <;> simp [frontierSlot]

/-- A node of the frontier is the node itself, or lies on the frontier of a child. -/
theorem mem_frontier_node {p : Key} {l : Nat} {cs : Fin 16 → Option (TrieNode V)} {m : Metadata}
    {h : Option Hash} {c : TrieNode V} (reached : c ∈ frontier queryLen (node p l cs m h)) :
    (queryLen ≤ l ∧ c = node p l cs m h) ∨ ∃ b child, cs b = some child ∧ c ∈ frontier queryLen child := by
  by_cases high : queryLen ≤ l
  · rw [frontier_of_le high, List.mem_singleton] at reached
    exact Or.inl ⟨high, reached⟩
  · rw [frontier_node high, List.mem_flatMap] at reached
    obtain ⟨b, -, reached⟩ := reached
    obtain ⟨child, occupied, reached⟩ := mem_frontierSlot.mp reached
    exact Or.inr ⟨b, child, occupied, reached⟩

theorem prefixLen_frontier {t c : TrieNode V} (reached : c ∈ frontier queryLen t) : queryLen ≤ c.prefixLen := by
  induction t using TrieNode.induct with
  | leaf key value m h =>
    rw [frontier] at reached
    split at reached
    · rw [List.mem_singleton.mp reached]
      assumption
    · cases reached
  | node p l cs m h ih =>
    rcases mem_frontier_node reached with ⟨high, rfl⟩ | ⟨b, child, occupied, reached⟩
    · exact high
    · exact ih b child occupied reached

theorem compact_frontier {t c : TrieNode V} (compact : t.Compact) (reached : c ∈ frontier queryLen t) :
    c.Compact := by
  induction t using TrieNode.induct with
  | leaf key value m h =>
    rw [frontier] at reached
    split at reached
    · rw [List.mem_singleton.mp reached]
      exact compact
    · cases reached
  | node p l cs m h ih =>
    rcases mem_frontier_node reached with ⟨-, rfl⟩ | ⟨b, child, occupied, reached⟩
    · exact compact
    · exact ih b child occupied ((compact_node.mp compact).2 b child occupied) reached

section Shaped

variable [TrieValue V] {keyLen : Nat} {t : TrieNode V}

/-- The leaves of the frontier are the leaves of the trie. -/
theorem entries_frontier (shaped : Shaped keyLen t) (inside : queryLen ≤ keyLen) :
    (frontier queryLen t).flatMap entries = t.entries := by
  induction shaped with
  | leaf full own => rw [frontier_of_le (by rw [leaf_prefixLen, full]; exact inside), List.flatMap_singleton]
  | @node pfx len cs m h inner full zeros shaped placed sum ih =>
    by_cases high : queryLen ≤ len
    · rw [frontier_of_le high, List.flatMap_singleton]
    · rw [frontier_node high, entries_node, List.flatMap_assoc]
      refine List.flatMap_congr (fun b _ => ?_)
      cases occupied : cs b with
      | none => simp [frontierSlot]
      | some c => simpa [frontierSlot] using ih b c occupied

theorem shaped_frontier (shaped : Shaped keyLen t) {c : TrieNode V} (reached : c ∈ frontier queryLen t) :
    Shaped keyLen c := by
  induction shaped with
  | @leaf key value m h full own =>
    rw [frontier] at reached
    split at reached
    · rw [List.mem_singleton.mp reached]
      exact .leaf full own
    · cases reached
  | @node pfx len cs m h inner full zeros shaped placed sum ih =>
    rcases mem_frontier_node reached with ⟨-, rfl⟩ | ⟨b, child, occupied, reached⟩
    · exact .node inner full zeros shaped placed sum
    · exact ih b child occupied reached

/-- Whatever lies above a trie lies above its frontier. -/
theorem under_frontier (shaped : Shaped keyLen t) {p : Key} (under : Under p t) {c : TrieNode V}
    (reached : c ∈ frontier queryLen t) : Under p c := by
  induction shaped with
  | @leaf key value m h full own =>
    rw [frontier] at reached
    split at reached
    · rwa [List.mem_singleton.mp reached]
    · cases reached
  | @node pfx len cs m h inner full zeros shaped placed sum ih =>
    rcases mem_frontier_node reached with ⟨-, rfl⟩ | ⟨b, child, occupied, reached⟩
    · exact under
    · refine ih b child occupied ((placed b child occupied).shorten ?_) reached
      have starts : p <+: pfx.take len := by
        rw [← under.2]
        exact List.take_prefix_take_left under.1
      exact starts.trans (List.prefix_append _ _)

/-- The first digits ascend along the frontier. -/
theorem frontier_sorted (shaped : Shaped keyLen t) (inside : queryLen ≤ keyLen) :
    (frontier queryLen t).Pairwise (fun a b => a.pfx.take queryLen < b.pfx.take queryLen) := by
  induction shaped with
  | @leaf key value m h full own =>
    rw [frontier_of_le (by rw [leaf_prefixLen, full]; exact inside)]
    exact List.pairwise_singleton _ _
  | @node pfx len cs m h inner full zeros shaped placed sum ih =>
    by_cases high : queryLen ≤ len
    · rw [frontier_of_le high]
      exact List.pairwise_singleton _ _
    · rw [frontier_node high, List.pairwise_flatMap]
      refine ⟨?_, ?_⟩
      · intro b _
        cases occupied : cs b with
        | none => exact List.Pairwise.nil
        | some c => exact ih b c occupied
      · refine (List.pairwise_lt_finRange 16).imp ?_
        intro a b less x left y right
        obtain ⟨c, atA, left⟩ := mem_frontierSlot.mp left
        obtain ⟨d, atB, right⟩ := mem_frontierSlot.mp right
        have underX := under_frontier (shaped a c atA) (placed a c atA) left
        have underY := under_frontier (shaped b d atB) (placed b d atB) right
        have longX := (shaped_frontier (shaped a c atA) left).pfx_length
        have longY := (shaped_frontier (shaped b d atB) right).pfx_length
        have short : (pfx.take len).length = len := by rw [List.length_take]; omega
        have sameX := underX.2
        have sameY := underY.2
        rw [List.length_append, List.length_singleton, short] at sameX sameY
        rw [Digits.take_succ_digit (by omega)] at sameX sameY
        obtain ⟨frontX, digitX⟩ := List.append_inj' sameX rfl
        obtain ⟨frontY, digitY⟩ := List.append_inj' sameY rfl
        have bounds : len < queryLen := Nat.not_le.mp high
        have cut : ∀ {z : Key}, z.length = keyLen → (z.take queryLen).take len = z.take len ∧
            Digits.digit (z.take queryLen) len = Digits.digit z len := by
          intro z long
          refine ⟨by rw [List.take_take, Nat.min_eq_left bounds.le], ?_⟩
          exact Digits.digit_eq_of_take (by rw [List.take_take, Nat.min_self]) bounds
        refine Digits.lt_of_digit_lt (n := len) ?_ ?_ ?_ ?_
        · rw [List.length_take]
          omega
        · rw [List.length_take]
          omega
        · rw [(cut longX).1, (cut longY).1, frontX, frontY]
        · rw [(cut longX).2, (cut longY).2, List.singleton_inj.mp digitX, List.singleton_inj.mp digitY]
          exact less

/-- The keys of a subtree on the frontier share its first digits. -/
theorem take_of_mem_frontier (shaped : Shaped keyLen t) {c : TrieNode V} (reached : c ∈ frontier queryLen t)
    {row : Key × Leaf V} (listed : row ∈ c.entries) : row.1.take queryLen = c.pfx.take queryLen :=
  Digits.take_of_take (find_under (shaped_frontier shaped reached)
    ((mem_entries_iff (shaped_frontier shaped reached)).mp listed)).2 (prefixLen_frontier reached)

end Shaped

end TrieNode

end Speedex
