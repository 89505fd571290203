import Speedex.Trie.Clean
import Speedex.Trie.Prune

set_option autoImplicit false

/- Marks on leaves: `mark_for_deletion`, `unmark_for_deletion` and `clear_rollback`. -/
namespace Speedex

/-- Metadata without the count of a mark. -/
def Mark.reset : Mark → Metadata →+ Metadata
  | .deleted => ⟨⟨fun m => { m with numDeletedSubnodes := 0 }, rfl⟩, fun _ _ => rfl⟩
  | .rollback => ⟨⟨fun m => { m with numRollbackSubnodes := 0 }, rfl⟩, fun _ _ => rfl⟩

namespace TrieNode

variable {V : Type}

mutual

/-- The compare-exchange of a leaf's deletion mark from `expect` to `desired`: the node afterwards,
the change of the metadata and the value whose mark changed. `eager` is whether an inner node
invalidates its hash before it recurses. -/
def swapMark (expect desired : Int) (eager : Bool) : TrieNode V → Key → TrieNode V × Metadata × Option V
  | .leaf key' value metadata hash, key =>
    if getPrefixMatchLen (.leaf key' value metadata hash) key key.length < key'.length then
      (.leaf key' value metadata hash, 0, none)
    else if metadata.numDeletedSubnodes = expect then
      (.leaf key' value { metadata with numDeletedSubnodes := desired } none,
        { (0 : Metadata) with numDeletedSubnodes := desired - expect }, some value)
    else (.leaf key' value metadata hash, 0, none)
  | .node pfx prefixLen children metadata hash, key =>
    if getPrefixMatchLen (.node pfx prefixLen children metadata hash) key key.length < prefixLen then
      (.node pfx prefixLen children metadata hash, 0, none)
    else
      let branchBits := getBranchBits prefixLen key
      match children branchBits with
      | none => (.node pfx prefixLen children metadata hash, 0, none)
      | some _ =>
        let (slot, change, marked) := swapMarkSlot expect desired eager (children branchBits) key
        (.node pfx prefixLen (Function.update children branchBits slot) (metadata + change)
          (if eager || marked.isSome then none else hash), change, marked)

def swapMarkSlot (expect desired : Int) (eager : Bool) :
    Option (TrieNode V) → Key → Option (TrieNode V) × Metadata × Option V
  | none, _ => (none, 0, none)
  | some child, key =>
    let (child', change, marked) := swapMark expect desired eager child key
    (some child', change, marked)

end

/-- `mark_for_deletion`. -/
def markForDeletion (t : TrieNode V) (key : Key) := swapMark 0 1 true t key

/-- `unmark_for_deletion`. -/
def unmarkForDeletion (t : TrieNode V) (key : Key) := swapMark 1 0 false t key

mutual

/-- `clear_rollback`: drop the rollback marks, leaving the hashes alone. -/
def clearRollback : TrieNode V → TrieNode V
  | .leaf key value metadata hash =>
    if metadata.numRollbackSubnodes = 0 then .leaf key value metadata hash
    else .leaf key value { metadata with numRollbackSubnodes := 0 } hash
  | .node pfx prefixLen children metadata hash =>
    if metadata.numRollbackSubnodes = 0 then .node pfx prefixLen children metadata hash
    else .node pfx prefixLen (fun b => clearRollbackSlot (children b))
      { metadata with numRollbackSubnodes := 0 } hash

def clearRollbackSlot : Option (TrieNode V) → Option (TrieNode V)
  | none => none
  | some child => some (clearRollback child)

end

mutual

/-- Change the metadata of every node of a subtree in the same way. -/
def mapMetadata (change : Metadata → Metadata) : TrieNode V → TrieNode V
  | .leaf key value metadata hash => .leaf key value (change metadata) hash
  | .node pfx prefixLen children metadata hash =>
    .node pfx prefixLen (fun b => mapMetadataSlot change (children b)) (change metadata) hash

def mapMetadataSlot (change : Metadata → Metadata) : Option (TrieNode V) → Option (TrieNode V)
  | none => none
  | some child => some (mapMetadata change child)

end

/-- A leaf after the compare-exchange. -/
def swapLeaf (expect desired : Int) (l : Leaf V) : Leaf V :=
  if l.metadata.numDeletedSubnodes = expect then
    ⟨l.value, { l.metadata with numDeletedSubnodes := desired }⟩
  else l

/-- A leaf that is no longer tentative. -/
def clearLeaf (l : Leaf V) : Leaf V := ⟨l.value, { l.metadata with numRollbackSubnodes := 0 }⟩

section Marks

variable [TrieValue V] {keyLen : Nat}

/-- What a compare-exchange of a mark does to a node. -/
structure Swapped (keyLen : Nat) (expect desired : Int) (t : TrieNode V) (key : Key)
    (result : TrieNode V × Metadata × Option V) : Prop where
  shaped : Shaped keyLen result.1
  find : ∀ query, result.1.find query =
    if query = key then (t.find key).map (swapLeaf expect desired) else t.find query
  metadata : result.1.metadata = t.metadata + result.2.1
  object : result.2.2 = ((t.find key).filter
    (fun l => l.metadata.numDeletedSubnodes = expect)).map Leaf.value
  under : ∀ p, Under p t → Under p result.1
  compact : ∀ required, t.CompactAt required → result.1.CompactAt required

theorem swapped_absent {expect desired : Int} {t : TrieNode V} {key : Key} (shaped : Shaped keyLen t)
    (absent : t.find key = none) : Swapped keyLen expect desired t key (t, 0, none) := by
  refine ⟨shaped, fun query => ?_, (add_zero _).symm, by rw [absent]; rfl, fun _ below => below,
    fun _ compact => compact⟩
  by_cases here : query = key
  · rw [if_pos here, here, absent]
    rfl
  · rw [if_neg here]

theorem swapMark_spec (expect : Int) {desired : Int} (eager : Bool) (mark : desired = 0 ∨ desired = 1)
    {t : TrieNode V} {key : Key} (shaped : Shaped keyLen t) (full : key.length = keyLen) :
    Swapped keyLen expect desired t key (swapMark expect desired eager t key) := by
  induction shaped with
  | @leaf key' value m h fullKey own =>
    have stored : Shaped keyLen (.leaf key' value m h) := .leaf fullKey own
    rw [swapMark]
    by_cases short : getPrefixMatchLen (.leaf key' value m h) key key.length < key'.length
    · rw [if_pos short]
      exact swapped_absent stored (find_eq_none_of_matchLen stored full short)
    · rw [if_neg short]
      obtain rfl : key' = key := by
        have common := Digits.commonLen_le_left key' key
        rw [getPrefixMatchLen, leaf_pfx, leaf_prefixLen] at short
        have same := Digits.take_commonLen key' key
        rwa [(by omega : Digits.commonLen key' key = key'.length), List.take_length,
          (by omega : key'.length = key.length), List.take_length] at same
      by_cases hit : m.numDeletedSubnodes = expect
      · rw [if_pos hit]
        refine ⟨.leaf fullKey ⟨own.size, own.endow, mark, own.rollback⟩, fun query => ?_, ?_, ?_,
          fun _ below => below, fun _ _ => compactAt_leaf _ _ _ _⟩
        · by_cases here : query = key' <;> simp [here, swapLeaf, hit]
        · ext1 <;> simp [hit]
        · simp [Option.filter, hit]
      · rw [if_neg hit]
        refine ⟨stored, fun query => ?_, (add_zero _).symm, ?_, fun _ below => below,
          fun _ compact => compact⟩
        · by_cases here : query = key' <;> simp [here, swapLeaf, hit]
        · simp [Option.filter, hit]
  | @node pfx len cs m h inner fullPfx zeros shaped placed sum ih =>
    have stored : Shaped keyLen (.node pfx len cs m h) := .node inner fullPfx zeros shaped placed sum
    rw [swapMark]
    by_cases short : getPrefixMatchLen (.node pfx len cs m h) key key.length < len
    · rw [if_pos short]
      exact swapped_absent stored (find_eq_none_of_matchLen stored full short)
    · rw [if_neg short]
      cases occupied : cs (getBranchBits len key) with
      | none =>
        have absent : (node pfx len cs m h).find key = none := by
          have occupied' : cs (Digits.digit key len) = none := occupied
          rw [find_node, occupied', findSlot_none]
        simp only [occupied]
        exact swapped_absent stored absent
      | some c =>
        obtain ⟨shapedC, findC, metadataC, objectC, underC, compactC⟩ := ih _ c occupied
        have occupied' : cs (Digits.digit key len) = some c := occupied
        simp only [occupied, swapMarkSlot]
        refine ⟨?_, fun query => ?_, rfl, ?_, fun p below => below, fun required compact => ?_⟩
        · refine stored.update ?_ ?_
          · rintro c' ⟨⟩
            exact ⟨shapedC, underC _ (placed _ c occupied)⟩
          · rw [occupied, Branches.weight_some, Branches.weight_some, metadataC]
            abel
        · rw [find_update, findSlot_some, findC, find_node, find_node, occupied', findSlot_some]
          by_cases digit : Digits.digit query len = getBranchBits len key
          · rw [if_pos digit, digit, occupied, findSlot_some]
          · rw [if_neg digit, if_neg (fun here => digit (by rw [here]; rfl))]
        · rw [find_node, occupied', findSlot_some, objectC]
        · exact compactAt_update compact
            (compactC required (((compactAt_node _ _ _ _ _).mp compact).2.2 _ c occupied))

/-- A change of all metadata that leaves keys and values alone. -/
structure MetadataMapped (keyLen : Nat) (change : Metadata → Metadata) (t t' : TrieNode V) : Prop where
  shaped : Shaped keyLen t'
  find : ∀ query, t'.find query = (t.find query).map (fun l => ⟨l.value, change l.metadata⟩)
  metadata : t'.metadata = change t.metadata
  under : ∀ p, Under p t → Under p t'
  compact : ∀ required, t.CompactAt required → t'.CompactAt required

theorem mapMetadata_spec {change : Metadata →+ Metadata}
    (fits : ∀ {value : V} {m : Metadata}, LeafMetadata value m → LeafMetadata value (change m)) {t : TrieNode V}
    (shaped : Shaped keyLen t) : MetadataMapped keyLen change t (t.mapMetadata change) := by
  induction shaped with
  | @leaf key value m h full own =>
    rw [mapMetadata]
    refine ⟨.leaf full (fits own), fun query => ?_, rfl, fun _ below => below, fun _ _ => compactAt_leaf _ _ _ _⟩
    by_cases here : query = key <;> simp [here]
  | @node pfx len cs m h inner full zeros shaped placed sum ih =>
    rw [mapMetadata]
    have child : ∀ b c', mapMetadataSlot change (cs b) = some c' →
        ∃ c, cs b = some c ∧ c' = mapMetadata change c := by
      intro b c' there
      cases occupied : cs b with
      | none =>
        rw [occupied, mapMetadataSlot] at there
        cases there
      | some c =>
        rw [occupied, mapMetadataSlot] at there
        exact ⟨c, rfl, (Option.some.inj there).symm⟩
    refine ⟨.node inner full zeros ?_ ?_ ?_, fun query => ?_, rfl, fun _ below => below,
      fun required compact => ?_⟩
    · intro b c' there
      obtain ⟨c, occupied, rfl⟩ := child b c' there
      exact (ih b c occupied).shaped
    · intro b c' there
      obtain ⟨c, occupied, rfl⟩ := child b c' there
      exact (ih b c occupied).under _ (placed b c occupied)
    · rw [sum, Branches.total, Branches.total, map_sum]
      refine Finset.sum_congr rfl (fun b _ => ?_)
      cases occupied : cs b with
      | none => rw [mapMetadataSlot, Branches.weight_none, map_zero]
      | some c =>
        rw [mapMetadataSlot, Branches.weight_some, Branches.weight_some, (ih b c occupied).metadata]
    · rw [find_node, find_node]
      cases occupied : cs (Digits.digit query len) with
      | none => rw [mapMetadataSlot]; rfl
      | some c => rw [mapMetadataSlot, findSlot_some, findSlot_some, (ih _ c occupied).find]
    · obtain ⟨one, two, all⟩ := (compactAt_node _ _ _ _ _).mp compact
      have same : Branches.occupied (fun b => mapMetadataSlot change (cs b)) = Branches.occupied cs := by
        refine Branches.occupied_congr (fun b => ?_)
        cases cs b <;> simp [mapMetadataSlot]
      refine (compactAt_node _ _ _ _ _).mpr ⟨by omega, fun needed => by have := two needed; omega, ?_⟩
      intro b c' there
      obtain ⟨c, occupied, rfl⟩ := child b c' there
      exact (ih b c occupied).compact required (all b c occupied)

/-- Where no leaf changes nothing does. -/
theorem mapMetadata_eq_self {change : Metadata →+ Metadata} {t : TrieNode V} (shaped : Shaped keyLen t)
    (same : ∀ key l, t.find key = some l → change l.metadata = l.metadata) : t.mapMetadata change = t := by
  induction shaped with
  | @leaf key value m h full own =>
    rw [mapMetadata, same key ⟨value, m⟩ (by rw [find_leaf, if_pos rfl])]
  | @node pfx len cs m h inner full zeros shaped placed sum ih =>
    have child : ∀ b c, cs b = some c → mapMetadata change c = c := by
      intro b c occupied
      refine ih b c occupied (fun key l found => same key l ?_)
      rw [find_node, (find_child_digit (shaped b c occupied) inner full (placed b c occupied) found).2, occupied,
        findSlot_some, found]
    have slots : (fun b => mapMetadataSlot change (cs b)) = cs := by
      funext b
      cases occupied : cs b with
      | none => rw [mapMetadataSlot]
      | some c => rw [mapMetadataSlot, child b c occupied]
    have total : change m = m := by
      rw [sum, Branches.total, map_sum]
      refine Finset.sum_congr rfl (fun b _ => ?_)
      cases occupied : cs b with
      | none => rw [Branches.weight_none, map_zero]
      | some c =>
        have mapped := congrArg metadata (child b c occupied)
        rw [Branches.weight_some]
        cases c <;> exact mapped
    rw [mapMetadata, slots, total]

theorem leafMetadata_reset (mark : Mark) {value : V} {m : Metadata} (own : LeafMetadata value m) :
    LeafMetadata value (mark.reset m) := by
  cases mark with
  | deleted => exact ⟨own.size, own.endow, Or.inl rfl, own.rollback⟩
  | rollback => exact ⟨own.size, own.endow, own.deleted, Or.inl rfl⟩

theorem reset_of_count {mark : Mark} {m : Metadata} (none : mark.count m = 0) : mark.reset m = m := by
  cases mark with
  | deleted => exact Metadata.ext none.symm rfl rfl rfl
  | rollback => exact Metadata.ext rfl rfl none.symm rfl

/-- A subtree without marks is left alone when marks are cleared. -/
theorem mapMetadata_unmarked {mark : Mark} {t : TrieNode V} (shaped : Shaped keyLen t)
    (none : mark.count t.metadata = 0) : t.mapMetadata mark.reset = t := by
  refine mapMetadata_eq_self shaped (fun key l found => reset_of_count ?_)
  have unmarked := (count_eq_zero_iff shaped).mp none key l found
  rw [Leaf.marked, decide_eq_false_iff_not] at unmarked
  exact (count_leafMetadata (find_leafMetadata shaped found)).resolve_right unmarked

theorem clearRollback_eq {t : TrieNode V} (shaped : Shaped keyLen t) :
    t.clearRollback = t.mapMetadata Mark.rollback.reset := by
  induction shaped with
  | @leaf key value m h full own =>
    rw [clearRollback]
    by_cases none : m.numRollbackSubnodes = 0
    · rw [if_pos none, mapMetadata_unmarked (.leaf full own) (show Mark.rollback.count m = 0 from none)]
    · rw [if_neg none, mapMetadata]
      rfl
  | @node pfx len cs m h inner full zeros shaped placed sum ih =>
    rw [clearRollback]
    by_cases none : m.numRollbackSubnodes = 0
    · rw [if_pos none]
      exact (mapMetadata_unmarked (.node inner full zeros shaped placed sum) (show Mark.rollback.count m = 0 from none)).symm
    · rw [if_neg none, mapMetadata]
      congr 1
      · funext b
        cases occupied : cs b with
        | none => rw [clearRollbackSlot, mapMetadataSlot]
        | some c => rw [clearRollbackSlot, mapMetadataSlot, ih b c occupied]

/-- `clear_rollback` keeps every key and value and drops the marks. -/
theorem clearRollback_spec {t : TrieNode V} (shaped : Shaped keyLen t) :
    MetadataMapped keyLen Mark.rollback.reset t t.clearRollback := by
  rw [clearRollback_eq shaped]
  exact mapMetadata_spec (leafMetadata_reset .rollback) shaped

end Marks

end TrieNode

end Speedex
