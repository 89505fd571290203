import Speedex.Trie.Node

set_option autoImplicit false

/- The representation invariant of a trie: prefixes are zero beyond their length, every child
lies under the branch it is stored at, and metadata is the sum over the leaves.
`Compact` adds that no inner node is superfluous. -/
namespace Speedex

namespace TrieNode

variable {V : Type}

/-- The subtree's own prefix extends `p`. -/
def Under (p : Key) (t : TrieNode V) : Prop := p.length ≤ t.prefixLen ∧ t.pfx.take p.length = p

theorem under_nil (t : TrieNode V) : Under [] t := ⟨Nat.zero_le _, rfl⟩

/-- `p` and `q` agree, and `q` may go on. -/
theorem Under.shorten {p q : Key} {t : TrieNode V} (deep : Under q t) (start : p <+: q) :
    Under p t := by
  obtain ⟨rest, rfl⟩ := start
  refine ⟨?_, ?_⟩
  · have lengths := deep.1
    rw [List.length_append] at lengths
    omega
  · have same := congrArg (List.take p.length) deep.2
    rw [List.take_take, List.length_append, Nat.min_eq_left (Nat.le_add_right _ _)] at same
    simpa using same

/-- The metadata a leaf may carry: it counts itself and holds at most one mark of each kind. -/
structure LeafMetadata [TrieValue V] (value : V) (m : Metadata) : Prop where
  size : m.size = 1
  endow : m.endow = TrieValue.endow value
  deleted : m.numDeletedSubnodes = 0 ∨ m.numDeletedSubnodes = 1
  rollback : m.numRollbackSubnodes = 0 ∨ m.numRollbackSubnodes = 1

/-- The representation invariant, for keys of `keyLen` digits. -/
inductive Shaped [TrieValue V] (keyLen : Nat) : TrieNode V → Prop
  | leaf {key : Key} {value : V} {m : Metadata} {h : Option Hash}
      (full : key.length = keyLen) (own : LeafMetadata value m) : Shaped keyLen (.leaf key value m h)
  | node {pfx : Key} {len : Nat} {cs : Fin 16 → Option (TrieNode V)} {m : Metadata} {h : Option Hash}
      (inner : len < keyLen) (full : pfx.length = keyLen) (zeros : Digits.truncate pfx len = pfx)
      (shaped : ∀ b c, cs b = some c → Shaped keyLen c)
      (placed : ∀ b c, cs b = some c → Under (pfx.take len ++ [b]) c)
      (sum : m = Branches.total metadata cs) : Shaped keyLen (.node pfx len cs m h)

mutual

/-- Every inner node has a child, and at least two if `required` holds of its prefix and length. -/
def CompactAt (required : Key → Nat → Prop) : TrieNode V → Prop
  | .leaf .. => True
  | .node pfx prefixLen children _ _ =>
    1 ≤ Branches.occupied children ∧ (required pfx prefixLen → 2 ≤ Branches.occupied children) ∧
      ∀ b, CompactAtSlot required (children b)

def CompactAtSlot (required : Key → Nat → Prop) : Option (TrieNode V) → Prop
  | none => True
  | some c => CompactAt required c

end

mutual

/-- No node that the walk to `k` visits is superfluous; the walk ends where it leaves the path of `k`. -/
def CompactOn (k : Key) : TrieNode V → Prop
  | .leaf .. => True
  | .node pfx prefixLen children _ _ =>
    2 ≤ Branches.occupied children ∧
      (k.take prefixLen = pfx.take prefixLen → CompactOnSlot k (children (getBranchBits prefixLen k)))

def CompactOnSlot (k : Key) : Option (TrieNode V) → Prop
  | none => True
  | some c => CompactOn k c

end

/-- No inner node is superfluous. -/
def Compact (t : TrieNode V) : Prop := t.CompactAt (fun _ _ => True)

/-- No node off the path of a key is superfluous. -/
def CompactOff (k : Key) (t : TrieNode V) : Prop :=
  t.CompactAt (fun pfx prefixLen => ¬ k.take prefixLen = pfx.take prefixLen)

section Compact

variable {required : Key → Nat → Prop}

@[simp] theorem compactAt_leaf (key : Key) (value : V) (m : Metadata) (h : Option Hash) :
    (leaf key value m h).CompactAt required := by
  rw [CompactAt]
  trivial

theorem compactAt_node (p : Key) (l : Nat) (cs : Fin 16 → Option (TrieNode V)) (m : Metadata)
    (h : Option Hash) : (node p l cs m h).CompactAt required ↔
      1 ≤ Branches.occupied cs ∧ (required p l → 2 ≤ Branches.occupied cs) ∧ ∀ b c, cs b = some c → c.CompactAt required := by
  rw [CompactAt]
  refine and_congr_right (fun _ => and_congr_right (fun _ => forall_congr' (fun b => ?_)))
  cases cs b with
  | none => simp [CompactAtSlot]
  | some c => simp [CompactAtSlot]

@[simp] theorem compactOn_leaf (k key : Key) (value : V) (m : Metadata) (h : Option Hash) :
    (leaf key value m h).CompactOn k := by
  rw [CompactOn]
  trivial

theorem compactOn_node (k p : Key) (l : Nat) (cs : Fin 16 → Option (TrieNode V)) (m : Metadata)
    (h : Option Hash) : (node p l cs m h).CompactOn k ↔ 2 ≤ Branches.occupied cs ∧
      (k.take l = p.take l → ∀ c, cs (getBranchBits l k) = some c → c.CompactOn k) := by
  rw [CompactOn]
  refine and_congr_right (fun _ => imp_congr_right (fun _ => ?_))
  cases cs (getBranchBits l k) with
  | none => simp [CompactOnSlot]
  | some c => simp [CompactOnSlot]

theorem CompactAt.mono {weaker : Key → Nat → Prop} {t : TrieNode V} (compact : t.CompactAt required)
    (fewer : ∀ p l, weaker p l → required p l) : t.CompactAt weaker := by
  induction t using TrieNode.induct with
  | leaf => exact compactAt_leaf _ _ _ _
  | node p l cs m h ih =>
    obtain ⟨one, two, all⟩ := (compactAt_node _ _ _ _ _).mp compact
    exact (compactAt_node _ _ _ _ _).mpr
      ⟨one, fun needed => two (fewer p l needed), fun b c occupied => ih b c occupied (all b c occupied)⟩

theorem Compact.off {t : TrieNode V} (compact : t.Compact) (k : Key) : t.CompactOff k :=
  CompactAt.mono compact (fun _ _ _ => trivial)

/-- A compact node has several children, all of them compact. -/
theorem compact_node {p : Key} {l : Nat} {cs : Fin 16 → Option (TrieNode V)} {m : Metadata}
    {h : Option Hash} : (node p l cs m h).Compact ↔
      2 ≤ Branches.occupied cs ∧ ∀ b c, cs b = some c → c.Compact := by
  refine (compactAt_node _ _ _ _ _).trans ⟨fun ⟨_, two, all⟩ => ⟨two trivial, all⟩, fun ⟨two, all⟩ => ?_⟩
  exact ⟨two.trans' (by omega), fun _ => two, all⟩

theorem Compact.on {t : TrieNode V} (compact : t.Compact) (k : Key) : t.CompactOn k := by
  induction t using TrieNode.induct with
  | leaf => exact compactOn_leaf _ _ _ _ _
  | node p l cs m h ih =>
    obtain ⟨two, all⟩ := compact_node.mp compact
    exact (compactOn_node _ _ _ _ _ _).mpr ⟨two, fun _ c occupied => ih _ c occupied (all _ c occupied)⟩

end Compact

/-- A trie as the operations maintain it below the root. -/
structure Canonical [TrieValue V] (keyLen : Nat) (t : TrieNode V) : Prop where
  shaped : Shaped keyLen t
  compact : t.Compact

/-- The root of a trie without keys. -/
def Vacant (keyLen : Nat) (t : TrieNode V) : Prop :=
  ∃ h, t = .node (List.replicate keyLen 0) 0 Branches.empty 0 h

theorem vacant_makeEmptyNode (keyLen : Nat) : Vacant keyLen (makeEmptyNode keyLen : TrieNode V) :=
  ⟨none, rfl⟩

theorem shaped_of_vacant [TrieValue V] {keyLen : Nat} {t : TrieNode V} (long : 0 < keyLen)
    (vacant : Vacant keyLen t) : Shaped keyLen t := by
  obtain ⟨h, rfl⟩ := vacant
  refine Shaped.node long List.length_replicate ?_ ?_ ?_ ?_
  · simp [Digits.truncate]
  · intro b c occupied
    cases occupied
  · intro b c occupied
    cases occupied
  · exact (Branches.total_empty _).symm

theorem find_of_vacant {keyLen : Nat} {t : TrieNode V} (vacant : Vacant keyLen t) (query : Key) :
    t.find query = none := by
  obtain ⟨h, rfl⟩ := vacant
  simp

section Find

variable [TrieValue V] {keyLen : Nat}

theorem Shaped.pfx_length {t : TrieNode V} (shaped : Shaped keyLen t) : t.pfx.length = keyLen := by
  cases shaped with
  | leaf full _ => exact full
  | node _ full _ _ _ _ => exact full

theorem Shaped.prefixLen_le {t : TrieNode V} (shaped : Shaped keyLen t) : t.prefixLen ≤ keyLen := by
  cases shaped with
  | leaf full _ => exact full.le
  | node inner _ _ _ _ _ => exact inner.le

/-- The prefix of a shaped subtree is its own truncation. -/
theorem Shaped.truncate_pfx {t : TrieNode V} (shaped : Shaped keyLen t) :
    Digits.truncate t.pfx t.prefixLen = t.pfx := by
  cases shaped with
  | leaf full _ => simp [Digits.truncate]
  | node _ _ zeros _ _ _ => exact zeros

theorem under_self {t : TrieNode V} (shaped : Shaped keyLen t) :
    Under (t.pfx.take t.prefixLen) t := by
  have inside := shaped.prefixLen_le
  have full := shaped.pfx_length
  refine ⟨by simp, ?_⟩
  rw [List.length_take, Nat.min_eq_left (by omega)]

/-- A key is found only below its own prefix. -/
theorem find_under {t : TrieNode V} (shaped : Shaped keyLen t) {query : Key} {l : Leaf V}
    (found : t.find query = some l) :
    query.length = keyLen ∧ query.take t.prefixLen = t.pfx.take t.prefixLen := by
  induction shaped generalizing query with
  | leaf full _ =>
    simp only [find_leaf, Option.ite_none_right_eq_some] at found
    rw [found.1]
    exact ⟨full, rfl⟩
  | @node pfx len cs m h inner full _ _ placed _ ih =>
    rw [find_node] at found
    cases occupied : cs (Digits.digit query len) with
    | none => simp [occupied] at found
    | some c =>
      rw [occupied, findSlot_some] at found
      obtain ⟨whole, same⟩ := ih _ c occupied found
      obtain ⟨deep, start⟩ := placed _ c occupied
      have span : (pfx.take len ++ [Digits.digit query len]).length = len + 1 := by
        simp [full, Nat.min_eq_left inner.le]
      rw [span] at deep start
      refine ⟨whole, ?_⟩
      have agree := Digits.take_of_take same deep
      rw [start] at agree
      have front := congrArg (List.take len) agree
      rw [List.take_take, Nat.min_eq_left (Nat.le_succ len), List.take_append_of_le_length
        (by simp [full, Nat.min_eq_left inner.le]), List.take_take, Nat.min_self] at front
      exact front

theorem find_length {t : TrieNode V} (shaped : Shaped keyLen t) {query : Key} {l : Leaf V}
    (found : t.find query = some l) : query.length = keyLen := (find_under shaped found).1

theorem find_take_of_under {t : TrieNode V} (shaped : Shaped keyLen t) {p query : Key} {l : Leaf V}
    (below : Under p t) (found : t.find query = some l) : query.take p.length = p :=
  (Digits.take_of_take (find_under shaped found).2 below.1).trans below.2

/-- A child stored at `b` only holds keys whose next digit is `b`. -/
theorem find_child_digit {pfx : Key} {len : Nat} {c : TrieNode V} {b : Digit} (shaped : Shaped keyLen c)
    (inner : len < keyLen) (full : pfx.length = keyLen) (placed : Under (pfx.take len ++ [b]) c)
    {query : Key} {l : Leaf V} (found : c.find query = some l) :
    query.take len = pfx.take len ∧ Digits.digit query len = b := by
  have span : (pfx.take len).length = len := by simp [full, Nat.min_eq_left inner.le]
  have whole := find_take_of_under shaped placed found
  have long := find_length shaped found
  rw [List.length_append, span, List.length_singleton,
    Digits.take_succ_digit (by omega : len < query.length)] at whole
  have parts := List.append_inj' whole rfl
  exact ⟨parts.1, by simpa using parts.2⟩

theorem find_leafMetadata {t : TrieNode V} (shaped : Shaped keyLen t) {query : Key} {l : Leaf V}
    (found : t.find query = some l) : LeafMetadata l.value l.metadata := by
  induction shaped generalizing query with
  | leaf _ own =>
    simp only [find_leaf, Option.ite_none_right_eq_some, Option.some.injEq] at found
    rw [← found.2]
    exact own
  | @node pfx len cs m h _ _ _ _ _ _ ih =>
    rw [find_node] at found
    cases occupied : cs (Digits.digit query len) with
    | none => simp [occupied] at found
    | some c =>
      rw [occupied, findSlot_some] at found
      exact ih _ c occupied found

end Find

end TrieNode

end Speedex
