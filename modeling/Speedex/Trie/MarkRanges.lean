import Speedex.Trie.Invalidation
import Speedex.Trie.Walks

set_option autoImplicit false

/- Marks on many leaves at once: `mark_subtree_for_deletion`, `mark_subtree_lt_key_for_deletion` and
`clear_marked_deletions`. -/
namespace Speedex

open Branches

namespace TrieNode

variable {V : Type}

/-- The loop over the children of a node, which adds up what they report. The node invalidates its
hash if `invalidates` and a mark changed. -/
def markChildren (pfx : Key) (prefixLen : Nat) (metadata : Metadata) (hash : Option Hash) (invalidates : Bool)
    (visit : Digit → Option (TrieNode V) × Metadata) : TrieNode V × Metadata :=
  let metaDelta := ∑ b, (visit b).2
  (.node pfx prefixLen (fun b => (visit b).1) (metadata + metaDelta)
    (if invalidates ∧ metaDelta.numDeletedSubnodes ≠ 0 then none else hash), metaDelta)

mutual

/-- `mark_subtree_for_deletion`: the node afterwards and the change of its metadata. -/
def markSubtreeForDeletion : TrieNode V → TrieNode V × Metadata
  | .leaf key value metadata hash =>
    if metadata.numDeletedSubnodes = 0 then
      (.leaf key value { metadata with numDeletedSubnodes := 1 } none,
        { (0 : Metadata) with numDeletedSubnodes := 1 })
    else (.leaf key value metadata hash, 0)
  | .node pfx prefixLen children metadata hash =>
    markChildren pfx prefixLen metadata hash true (fun b => markSubtreeSlot (children b))

def markSubtreeSlot : Option (TrieNode V) → Option (TrieNode V) × Metadata
  | none => (none, 0)
  | some child =>
    let (child', delta) := markSubtreeForDeletion child
    (some child', delta)

end

mutual

/-- `mark_subtree_lt_key_for_deletion`. A node that lies below `maxKey` as a whole marks its children
itself if it holds a lock, and then keeps its hash. -/
def markSubtreeLtKeyForDeletion (useLocks : Bool) (maxKey : Key) : TrieNode V → TrieNode V × Metadata
  | .leaf key value metadata hash =>
    if key < maxKey then markSubtreeForDeletion (.leaf key value metadata hash)
    else (.leaf key value metadata hash, 0)
  | .node pfx prefixLen children metadata hash =>
    let maxKeyTruncated := Digits.truncate maxKey prefixLen
    if pfx < maxKeyTruncated then
      markChildren pfx prefixLen metadata hash (!useLocks) (fun b => markSubtreeSlot (children b))
    else if maxKeyTruncated < pfx then (.node pfx prefixLen children metadata hash, 0)
    else
      let maxBranchBits := getBranchBits prefixLen maxKey
      markChildren pfx prefixLen metadata hash true (fun b =>
        if b = maxBranchBits then markSubtreeLtKeySlot useLocks maxKey (children b)
        else if b < maxBranchBits then markSubtreeSlot (children b)
        else (children b, 0))

def markSubtreeLtKeySlot (useLocks : Bool) (maxKey : Key) : Option (TrieNode V) → Option (TrieNode V) × Metadata
  | none => (none, 0)
  | some child =>
    let (child', delta) := markSubtreeLtKeyForDeletion useLocks maxKey child
    (some child', delta)

end

mutual

/-- `clear_marked_deletions`: remove the deletion marks, leaving the hashes alone. -/
def clearMarkedDeletions : TrieNode V → TrieNode V
  | .leaf key value metadata hash =>
    if metadata.numDeletedSubnodes = 0 then .leaf key value metadata hash
    else .leaf key value { metadata with numDeletedSubnodes := 0 } hash
  | .node pfx prefixLen children metadata hash =>
    if metadata.numDeletedSubnodes = 0 then .node pfx prefixLen children metadata hash
    else .node pfx prefixLen (fun b => clearMarkedSlot (children b))
      { metadata with numDeletedSubnodes := 0 } hash

def clearMarkedSlot : Option (TrieNode V) → Option (TrieNode V)
  | none => none
  | some child => some (clearMarkedDeletions child)

end

/-- The deletion count of metadata. -/
def deletions : Metadata →+ Int where
  toFun m := m.numDeletedSubnodes
  map_zero' := rfl
  map_add' _ _ := rfl

/-- A walk counts the marks it sets, and changes nothing if it sets none. -/
def Counts (t : TrieNode V) (result : TrieNode V × Metadata) : Prop :=
  0 ≤ result.2.numDeletedSubnodes ∧ (result.2.numDeletedSubnodes = 0 → result = (t, 0))

def SlotCounts (slot : Option (TrieNode V)) (result : Option (TrieNode V) × Metadata) : Prop :=
  0 ≤ result.2.numDeletedSubnodes ∧ (result.2.numDeletedSubnodes = 0 → result = (slot, 0))

theorem counts_unchanged (t : TrieNode V) : Counts t (t, 0) := ⟨le_refl _, fun _ => rfl⟩

theorem counts_markChildren {pfx : Key} {len : Nat} {cs : Fin 16 → Option (TrieNode V)} {m : Metadata}
    {h : Option Hash} {invalidates : Bool} {visit : Digit → Option (TrieNode V) × Metadata}
    (slots : ∀ b, SlotCounts (cs b) (visit b)) :
    Counts (.node pfx len cs m h) (markChildren pfx len m h invalidates visit) := by
  have total : (∑ b, (visit b).2).numDeletedSubnodes = ∑ b, (visit b).2.numDeletedSubnodes :=
    map_sum deletions (fun b => (visit b).2) Finset.univ
  rw [markChildren, Counts]
  refine ⟨?_, fun none => ?_⟩
  · rw [total]
    exact Finset.sum_nonneg (fun b _ => (slots b).1)
  · have each : ∀ b, visit b = (cs b, 0) := by
      intro b
      rw [total, Finset.sum_eq_zero_iff_of_nonneg (fun b _ => (slots b).1)] at none
      exact (slots b).2 (none b (Finset.mem_univ b))
    have same : visit = fun b => (cs b, 0) := funext each
    rw [same]
    simp

theorem counts_markSubtree (t : TrieNode V) : Counts t t.markSubtreeForDeletion := by
  induction t using TrieNode.induct with
  | leaf key value m h =>
    rw [markSubtreeForDeletion]
    split
    · exact ⟨Int.one_nonneg, fun none => absurd none one_ne_zero⟩
    · exact counts_unchanged _
  | node pfx len cs m h ih =>
    rw [markSubtreeForDeletion]
    refine counts_markChildren (fun b => ?_)
    cases occupied : cs b with
    | none =>
      rw [markSubtreeSlot]
      exact ⟨le_refl _, fun _ => rfl⟩
    | some c =>
      obtain ⟨nonneg, idle⟩ := ih b c occupied
      rw [markSubtreeSlot]
      exact ⟨nonneg, fun none => by rw [idle none]⟩

theorem slotCounts_markSubtree (slot : Option (TrieNode V)) : SlotCounts slot (markSubtreeSlot slot) := by
  cases slot with
  | none =>
    rw [markSubtreeSlot]
    exact ⟨le_refl _, fun _ => rfl⟩
  | some c =>
    obtain ⟨nonneg, idle⟩ := counts_markSubtree c
    rw [markSubtreeSlot]
    exact ⟨nonneg, fun none => by rw [idle none]⟩

theorem counts_markSubtreeLtKey (useLocks : Bool) (maxKey : Key) (t : TrieNode V) :
    Counts t (t.markSubtreeLtKeyForDeletion useLocks maxKey) := by
  induction t using TrieNode.induct with
  | leaf key value m h =>
    rw [markSubtreeLtKeyForDeletion]
    split
    · exact counts_markSubtree _
    · exact counts_unchanged _
  | node pfx len cs m h ih =>
    rw [markSubtreeLtKeyForDeletion]
    dsimp only
    split
    · exact counts_markChildren (fun b => slotCounts_markSubtree (cs b))
    split
    · exact counts_unchanged _
    · refine counts_markChildren (fun b => ?_)
      split
      · cases occupied : cs b with
        | none =>
          rw [markSubtreeLtKeySlot]
          exact ⟨le_refl _, fun _ => rfl⟩
        | some c =>
          obtain ⟨nonneg, idle⟩ := ih b c occupied
          rw [markSubtreeLtKeySlot]
          exact ⟨nonneg, fun none => by rw [idle none]⟩
      split
      · exact slotCounts_markSubtree (cs b)
      · exact ⟨le_refl _, fun _ => rfl⟩

section Ranges

variable [TrieValue V] {keyLen : Nat} {selected : Key → Prop} [DecidablePred selected]

/-- The marks of the selected keys are set. -/
structure RangeMarked (keyLen : Nat) (selected : Key → Prop) [DecidablePred selected] (t : TrieNode V)
    (result : TrieNode V × Metadata) : Prop where
  shaped : Shaped keyLen result.1
  find : ∀ query, result.1.find query =
    if selected query then (t.find query).map (swapLeaf 0 1) else t.find query
  metadata : result.1.metadata = t.metadata + result.2
  under : ∀ p, Under p t → Under p result.1

theorem RangeMarked.congr {selected' : Key → Prop} [DecidablePred selected'] {t : TrieNode V}
    {result : TrieNode V × Metadata} (marked : RangeMarked keyLen selected t result)
    (same : ∀ query l, t.find query = some l → (selected query ↔ selected' query)) :
    RangeMarked keyLen selected' t result := by
  refine ⟨marked.shaped, fun query => ?_, marked.metadata, marked.under⟩
  rw [marked.find]
  cases found : t.find query with
  | none => rw [Option.map_none, ite_self, ite_self]
  | some l => exact if_congr (same query l found) rfl rfl

theorem rangeMarked_nothing {t : TrieNode V} (shaped : Shaped keyLen t)
    (none : ∀ query l, t.find query = some l → ¬ selected query) : RangeMarked keyLen selected t (t, 0) := by
  refine ⟨shaped, fun query => ?_, (add_zero _).symm, fun _ below => below⟩
  cases found : t.find query with
  | none => rw [Option.map_none, ite_self]
  | some l => rw [if_neg (none query l found)]

theorem rangeMarked_markChildren {pfx : Key} {len : Nat} {cs : Fin 16 → Option (TrieNode V)} {m : Metadata}
    {h : Option Hash} {invalidates : Bool} {visit : Digit → Option (TrieNode V) × Metadata}
    (stored : Shaped keyLen (.node pfx len cs m h)) (bare : ∀ b, cs b = none → visit b = (none, 0))
    (child : ∀ b c, cs b = some c → ∃ c', (visit b).1 = some c' ∧ RangeMarked keyLen selected c (c', (visit b).2)) :
    RangeMarked keyLen selected (.node pfx len cs m h) (markChildren pfx len m h invalidates visit) := by
  cases stored with
  | node inner full zeros shaped placed sum =>
    have back : ∀ b c', (visit b).1 = some c' →
        ∃ c, cs b = some c ∧ RangeMarked keyLen selected c (c', (visit b).2) := by
      intro b c' there
      cases occupied : cs b with
      | none => rw [bare b occupied] at there; cases there
      | some c =>
        obtain ⟨c'', here, marked⟩ := child b c occupied
        rw [here] at there
        cases there
        exact ⟨c, rfl, marked⟩
    refine ⟨.node inner full zeros ?_ ?_ ?_, fun query => ?_, rfl, fun p below => below⟩
    · intro b c' there
      obtain ⟨c, -, marked⟩ := back b c' there
      exact marked.shaped
    · intro b c' there
      obtain ⟨c, occupied, marked⟩ := back b c' there
      exact marked.under _ (placed b c occupied)
    · rw [sum, Branches.total, Branches.total, ← Finset.sum_add_distrib]
      refine Finset.sum_congr rfl (fun b _ => ?_)
      cases occupied : cs b with
      | none => rw [bare b occupied, Branches.weight_none, add_zero]
      | some c =>
        obtain ⟨c', here, marked⟩ := child b c occupied
        rw [here, Branches.weight_some, Branches.weight_some, marked.metadata]
    · rw [markChildren, find_node, find_node]
      cases occupied : cs (Digits.digit query len) with
      | none => rw [bare _ occupied, findSlot_none, Option.map_none, ite_self]
      | some c =>
        obtain ⟨c', here, marked⟩ := child _ c occupied
        rw [here, findSlot_some, findSlot_some, marked.find]

theorem markSubtree_spec {t : TrieNode V} (shaped : Shaped keyLen t) :
    RangeMarked keyLen (fun _ => True) t t.markSubtreeForDeletion := by
  induction shaped with
  | @leaf key value m h full own =>
    rw [markSubtreeForDeletion]
    by_cases unmarked : m.numDeletedSubnodes = 0
    · rw [if_pos unmarked]
      refine ⟨.leaf full ⟨own.size, own.endow, Or.inr rfl, own.rollback⟩, fun query => ?_, ?_, fun _ below => below⟩
      · by_cases here : query = key <;> simp [here, swapLeaf, unmarked]
      · ext1 <;> simp [unmarked]
    · rw [if_neg unmarked]
      refine ⟨.leaf full own, fun query => ?_, (add_zero _).symm, fun _ below => below⟩
      by_cases here : query = key <;> simp [here, swapLeaf, unmarked]
  | @node pfx len cs m h inner full zeros shaped placed sum ih =>
    rw [markSubtreeForDeletion]
    refine rangeMarked_markChildren (.node inner full zeros shaped placed sum) (fun b bare => ?_) (fun b c occupied => ?_)
    · rw [bare, markSubtreeSlot]
    · rw [occupied, markSubtreeSlot]
      exact ⟨_, rfl, ih b c occupied⟩

theorem markSubtreeLtKey_spec (useLocks : Bool) {maxKey : Key} (fullKey : maxKey.length = keyLen) {t : TrieNode V}
    (shaped : Shaped keyLen t) :
    RangeMarked keyLen (fun query => query < maxKey) t (t.markSubtreeLtKeyForDeletion useLocks maxKey) := by
  induction shaped with
  | @leaf key value m h full own =>
    have stored : Shaped keyLen (.leaf key value m h) := .leaf full own
    have only : ∀ query l, (leaf key value m h).find query = some l → query = key := by
      intro query l found
      rw [find_leaf, Option.ite_none_right_eq_some] at found
      exact found.1
    rw [markSubtreeLtKeyForDeletion]
    by_cases below : key < maxKey
    · rw [if_pos below]
      refine (markSubtree_spec stored).congr (fun query l found => iff_of_true trivial ?_)
      rwa [only query l found]
    · rw [if_neg below]
      refine rangeMarked_nothing stored (fun query l found => ?_)
      rwa [only query l found]
  | @node pfx len cs m h inner full zeros shaped placed sum ih =>
    have stored : Shaped keyLen (.node pfx len cs m h) := .node inner full zeros shaped placed sum
    have compares := fun query l found => @compares_maxKey _ _ _ _ _ _ _ _ stored _ query l fullKey found
    have inBranch : ∀ b c, cs b = some c → ∀ query l, c.find query = some l →
        Compares pfx len maxKey query ∧ Digits.digit query len = b := by
      intro b c occupied query l found
      have digit := (find_child_digit (shaped b c occupied) inner full (placed b c occupied) found).2
      refine ⟨compares query l ?_, digit⟩
      rw [find_node, digit, occupied, findSlot_some, found]
    have whole : ∀ b c, cs b = some c → (∀ query l, c.find query = some l → query < maxKey) →
        ∃ c', (markSubtreeSlot (some c)).1 = some c' ∧
          RangeMarked keyLen (fun query => query < maxKey) c (c', (markSubtreeSlot (some c)).2) := by
      intro b c occupied all
      rw [markSubtreeSlot]
      exact ⟨_, rfl, (markSubtree_spec (shaped b c occupied)).congr
        (fun query l found => iff_of_true trivial (all query l found))⟩
    rw [markSubtreeLtKeyForDeletion]
    dsimp only
    by_cases low : pfx < Digits.truncate maxKey len
    · rw [if_pos low]
      refine rangeMarked_markChildren stored (fun b bare => by rw [bare, markSubtreeSlot]) (fun b c occupied => ?_)
      rw [occupied]
      exact whole b c occupied (fun query l found => (inBranch b c occupied query l found).1.low low)
    · rw [if_neg low]
      by_cases high : Digits.truncate maxKey len < pfx
      · rw [if_pos high]
        exact rangeMarked_nothing stored (fun query l found => lt_asymm ((compares query l found).high high))
      · rw [if_neg high]
        have equal := le_antisymm (not_lt.mp low) (not_lt.mp high)
        refine rangeMarked_markChildren stored (fun b bare => ?_) (fun b c occupied => ?_)
        · rw [bare, markSubtreeLtKeySlot, markSubtreeSlot, ite_self, ite_self]
        · rw [occupied]
          rcases lt_trichotomy b (getBranchBits len maxKey) with less | same | more
          · rw [if_neg less.ne, if_pos less]
            refine whole b c occupied (fun query l found => ?_)
            obtain ⟨compare, digit⟩ := inBranch b c occupied query l found
            exact compare.below equal (by rwa [digit])
          · rw [if_pos same, markSubtreeLtKeySlot]
            exact ⟨_, rfl, ih b c occupied⟩
          · rw [if_neg more.ne', if_neg (lt_asymm more)]
            refine ⟨c, rfl, rangeMarked_nothing (shaped b c occupied) (fun query l found => ?_)⟩
            obtain ⟨compare, digit⟩ := inBranch b c occupied query l found
            exact lt_asymm (compare.above equal (by rwa [digit]))

end Ranges

section Clear

variable [TrieValue V] {keyLen : Nat} {t : TrieNode V}

theorem clearMarkedDeletions_eq (shaped : Shaped keyLen t) :
    t.clearMarkedDeletions = t.mapMetadata Mark.deleted.reset := by
  induction shaped with
  | @leaf key value m h full own =>
    rw [clearMarkedDeletions]
    by_cases none : m.numDeletedSubnodes = 0
    · rw [if_pos none, mapMetadata_unmarked (.leaf full own) (show Mark.deleted.count m = 0 from none)]
    · rw [if_neg none, mapMetadata]
      rfl
  | @node pfx len cs m h inner full zeros shaped placed sum ih =>
    rw [clearMarkedDeletions]
    by_cases none : m.numDeletedSubnodes = 0
    · rw [if_pos none]
      exact (mapMetadata_unmarked (.node inner full zeros shaped placed sum) (show Mark.deleted.count m = 0 from none)).symm
    · rw [if_neg none, mapMetadata]
      congr 1
      · funext b
        cases occupied : cs b with
        | none => rw [clearMarkedSlot, mapMetadataSlot]
        | some c => rw [clearMarkedSlot, mapMetadataSlot, ih b c occupied]

theorem clearMarkedDeletions_spec (shaped : Shaped keyLen t) :
    MetadataMapped keyLen Mark.deleted.reset t t.clearMarkedDeletions := by
  rw [clearMarkedDeletions_eq shaped]
  exact mapMetadata_spec (leafMetadata_reset .deleted) shaped

end Clear

end TrieNode

end Speedex
