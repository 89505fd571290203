import Speedex.Trie.MergeCorrect

set_option autoImplicit false

/- `perform_deletion`: remove one key and contract the nodes it leaves with a single child. -/
namespace Speedex

namespace TrieNode

variable {V : Type}

mutual

/-- `perform_deletion`: the node afterwards, whether the parent should drop it, the deleted value
and the change of the metadata. -/
def performDeletion : TrieNode V → Key → TrieNode V × Bool × Option V × Metadata
  | .leaf key' value metadata hash, key =>
    if getPrefixMatchLen (.leaf key' value metadata hash) key key.length < key'.length then
      (.leaf key' value metadata hash, false, none, 0)
    else (.leaf key' value metadata hash, true, some value, -metadata)
  | .node pfx prefixLen children metadata hash, key =>
    if getPrefixMatchLen (.node pfx prefixLen children metadata hash) key key.length < prefixLen then
      (.node pfx prefixLen children metadata hash, false, none, 0)
    else
      let branchBits := getBranchBits prefixLen key
      let (slot, deletedObj, delta) := performDeletionSlot (children branchBits) key
      (.node pfx prefixLen (Function.update children branchBits slot) (metadata + delta)
        (if deletedObj.isSome then none else hash), false, deletedObj, delta)

def performDeletionSlot : Option (TrieNode V) → Key → Option (TrieNode V) × Option V × Metadata
  | none, _ => (none, none, 0)
  | some child, key =>
    let (child', deleteChild, deletedObj, delta) := performDeletion child key
    (if deleteChild then none else some child'.collapse, deletedObj, delta)

end

/-- A node that is compact once its own single child, if any, has replaced it. -/
def Settled : TrieNode V → Prop
  | .leaf .. => True
  | .node _ _ children _ _ => 1 ≤ Branches.occupied children ∧ ∀ b c, children b = some c → c.Compact

theorem Compact.settled {t : TrieNode V} (compact : t.Compact) : t.Settled := by
  cases t with
  | leaf => trivial
  | node p l cs m h =>
    obtain ⟨two, all⟩ := compact_node.mp compact
    exact ⟨two.trans' (by omega), all⟩

/-- Either a node is left alone or it is replaced by its only child. -/
theorem collapse_cases (t : TrieNode V) : t.collapse = t ∧ Branches.occupied t.children ≠ 1 ∨
    ∃ b c, t.collapse = c ∧ t.children = Function.update Branches.empty b (some c) := by
  cases t with
  | leaf key value m h =>
    refine Or.inl ⟨rfl, ?_⟩
    rw [leaf_children, Branches.occupied, Branches.total_empty]
    exact Nat.zero_ne_one
  | node p l cs m h =>
    rw [collapse, node_children]
    cases first : Branches.lowest 16 cs with
    | none =>
      rw [Branches.lowest_eq_none_iff] at first
      refine Or.inl ⟨rfl, ?_⟩
      rw [first, Branches.occupied, Branches.total_empty]
      exact Nat.zero_ne_one
    | some c =>
      obtain ⟨b, at_b⟩ := Branches.lowest_mem first
      by_cases single : Branches.occupied cs = 1
      · exact Or.inr ⟨b, c, if_pos single, Branches.eq_update_of_occupied_one single at_b⟩
      · exact Or.inl ⟨if_neg single, single⟩

theorem compact_collapse {t : TrieNode V} (settled : t.Settled) : t.collapse.Compact := by
  rcases collapse_cases t with ⟨same, several⟩ | ⟨b, c, same, only⟩
  · rw [same]
    cases t with
    | leaf => exact compactAt_leaf _ _ _ _
    | node p l cs m h =>
      rw [node_children] at several
      have one := settled.1
      exact compact_node.mpr ⟨by omega, settled.2⟩
  · rw [same]
    cases t with
    | leaf =>
      have bare := congrFun only b
      rw [leaf_children, Function.update_self] at bare
      cases bare
    | node p l cs m h =>
      rw [node_children] at only
      exact settled.2 b c (by rw [only, Function.update_self])

theorem total_single {M : Type} [AddCommMonoid M] (w : TrieNode V → M) (b : Digit) (c : TrieNode V) :
    Branches.total w (Function.update Branches.empty b (some c)) = w c := by
  have bare := Branches.total_eq_add_others w (Branches.empty : Fin 16 → Option (TrieNode V)) b
  rw [Branches.total_empty, Branches.empty_apply, Branches.weight_none, zero_add] at bare
  rw [Branches.total_eq_add_others _ _ b, Branches.others_update, ← bare, Function.update_self,
    Branches.weight_some, add_zero]

section Collapse

variable [TrieValue V] {keyLen : Nat} {t : TrieNode V}

/-- Another representation of the same keys, at the same place of the trie. -/
structure SameContents (keyLen : Nat) (t t' : TrieNode V) : Prop where
  shaped : Shaped keyLen t'
  find : t'.find = t.find
  metadata : t'.metadata = t.metadata
  under : ∀ p, Under p t → Under p t'

theorem SameContents.refl (shaped : Shaped keyLen t) : SameContents keyLen t t :=
  ⟨shaped, rfl, rfl, fun _ below => below⟩

theorem SameContents.trans {t' t'' : TrieNode V} (first : SameContents keyLen t t')
    (second : SameContents keyLen t' t'') : SameContents keyLen t t'' :=
  ⟨second.shaped, second.find.trans first.find, second.metadata.trans first.metadata,
    fun p below => second.under p (first.under p below)⟩

/-- The only child stands for its parent. -/
theorem sameContents_single (shaped : Shaped keyLen t) {b : Digit} {c : TrieNode V}
    (only : t.children = Function.update Branches.empty b (some c)) : SameContents keyLen t c := by
  cases shaped with
  | leaf =>
    have bare := congrFun only b
    rw [leaf_children, Function.update_self] at bare
    cases bare
  | @node pfx len cs m h inner full zeros shaped placed sum =>
    rw [node_children] at only
    have here : cs b = some c := by rw [only, Function.update_self]
    have lies := placed b c here
    refine ⟨shaped b c here, ?_, ?_, ?_⟩
    · funext query
      rw [find_node, only]
      by_cases digit : Digits.digit query len = b
      · rw [digit, Function.update_self, findSlot_some]
      · rw [Function.update_of_ne digit, Branches.empty_apply, findSlot_none]
        exact find_eq_none_of_digit (shaped b c here) inner full lies digit
    · rw [node_metadata, sum, only, total_single]
    · intro p below
      refine lies.shorten (List.IsPrefix.trans ?_ (List.prefix_append _ _))
      obtain ⟨short, start⟩ := below
      rw [node_pfx] at start
      rw [← start]
      exact List.take_prefix_take_left (by simpa using short)

/-- Contracting a single child changes neither contents nor metadata. -/
theorem collapse_spec (shaped : Shaped keyLen t) : SameContents keyLen t t.collapse := by
  rcases collapse_cases t with ⟨same, -⟩ | ⟨b, c, same, only⟩
  · rw [same]
    exact .refl shaped
  · rw [same]
    exact sameContents_single shaped only

end Collapse

section Deletion

variable [TrieValue V] {keyLen : Nat}

/-- What the deletion of `key` below a node leaves behind, when the node itself stays. -/
structure Deleted (keyLen : Nat) (t : TrieNode V) (key : Key) (t' : TrieNode V) (deletedObj : Option V)
    (delta : Metadata) : Prop where
  shaped : Shaped keyLen t'
  find : ∀ query, t'.find query = if query = key then none else t.find query
  metadata : t'.metadata = t.metadata + delta
  object : deletedObj = (t.find key).map Leaf.value
  under : ∀ p, Under p t → Under p t'
  settled : t.Compact → t'.Settled

/-- `perform_deletion` either asks the parent to drop the key's leaf or deletes inside the node. -/
def DeletionResult (keyLen : Nat) (t : TrieNode V) (key : Key) :
    TrieNode V × Bool × Option V × Metadata → Prop
  | (_, true, deletedObj, delta) => ∃ l, deletedObj = some l.value ∧ delta = -t.metadata ∧
      ∀ query, t.find query = if query = key then some l else none
  | (t', false, deletedObj, delta) => Deleted keyLen t key t' deletedObj delta

theorem deleted_absent {t : TrieNode V} {key : Key} (shaped : Shaped keyLen t)
    (absent : t.find key = none) : Deleted keyLen t key t none 0 := by
  refine ⟨shaped, ?_, (add_zero _).symm, by rw [absent]; rfl, fun _ below => below, Compact.settled⟩
  intro query
  by_cases here : query = key
  · rw [if_pos here, here, absent]
  · rw [if_neg here]

/-- A key that leaves the prefix early is not stored below it. -/
theorem find_eq_none_of_matchLen {t : TrieNode V} {key : Key} (shaped : Shaped keyLen t)
    (full : key.length = keyLen) (short : t.getPrefixMatchLen key key.length < t.prefixLen) :
    t.find key = none := by
  cases found : t.find key with
  | none => rfl
  | some l =>
    have inside := shaped.prefixLen_le
    have whole := shaped.pfx_length
    have same := (find_under shaped found).2
    have common := (Digits.le_commonLen_iff (by omega) (by omega)).mpr same.symm
    rw [getPrefixMatchLen] at short
    omega

theorem performDeletion_spec {t : TrieNode V} {key : Key} (shaped : Shaped keyLen t)
    (full : key.length = keyLen) : DeletionResult keyLen t key (performDeletion t key) := by
  induction shaped with
  | @leaf key' value m h fullKey own =>
    have stored : Shaped keyLen (.leaf key' value m h) := .leaf fullKey own
    rw [performDeletion]
    by_cases short : getPrefixMatchLen (.leaf key' value m h) key key.length < key'.length
    · rw [if_pos short]
      exact deleted_absent stored (find_eq_none_of_matchLen stored full short)
    · rw [if_neg short]
      have common := Digits.commonLen_le_left key' key
      rw [getPrefixMatchLen, leaf_pfx, leaf_prefixLen] at short
      have same := Digits.take_commonLen key' key
      rw [(by omega : Digits.commonLen key' key = key'.length), List.take_length,
        (by omega : key'.length = key.length), List.take_length] at same
      subst same
      exact ⟨⟨value, m⟩, rfl, rfl, fun query => find_leaf _ _ _ _ _⟩
  | @node pfx len cs m h inner fullPfx zeros shaped placed sum ih =>
    have stored : Shaped keyLen (.node pfx len cs m h) := .node inner fullPfx zeros shaped placed sum
    rw [performDeletion]
    by_cases short : getPrefixMatchLen (.node pfx len cs m h) key key.length < len
    · rw [if_pos short]
      exact deleted_absent stored (find_eq_none_of_matchLen stored full short)
    · rw [if_neg short]
      cases occupied : cs (getBranchBits len key) with
      | none =>
        have same : Function.update cs (getBranchBits len key) none = cs := by
          rw [← occupied, Function.update_eq_self]
        have absent : (node pfx len cs m h).find key = none := by
          have occupied' : cs (Digits.digit key len) = none := occupied
          rw [find_node, occupied', findSlot_none]
        simp only [occupied, performDeletionSlot, same, add_zero]
        exact deleted_absent stored absent
      | some c =>
        have step := ih _ c occupied
        have lies := placed _ c occupied
        have keep := shaped _ c occupied
        simp only [occupied, performDeletionSlot]
        generalize performDeletion c key = result at step ⊢
        obtain ⟨c', deleteChild, deletedObj, delta⟩ := result
        cases deleteChild with
        | true =>
          obtain ⟨l, obj, change, only⟩ := step
          refine ⟨?_, ?_, rfl, ?_, fun p below => below, ?_⟩
          · refine stored.update (fun c' absent => by cases absent) ?_
            simp only [occupied, change, ↓reduceIte, Branches.weight_some, Branches.weight_none]
            abel
          · intro query
            rw [if_pos rfl, find_update, find_node, findSlot_none]
            by_cases digit : Digits.digit query len = getBranchBits len key
            · rw [if_pos digit, digit, occupied, findSlot_some, only]
              by_cases here : query = key <;> simp [here]
            · rw [if_neg digit, if_neg (fun here => digit (by rw [here]; rfl))]
          · have occupied' : cs (Digits.digit key len) = some c := occupied
            rw [find_node, occupied', findSlot_some, only, if_pos rfl, obj]
            rfl
          · intro compact
            obtain ⟨many, all⟩ := compact_node.mp compact
            have counted := Branches.occupied_update cs (getBranchBits len key) none
            rw [occupied, Branches.weight_some, Branches.weight_none] at counted
            refine ⟨by rw [if_pos rfl]; omega, ?_⟩
            intro d c' there
            rw [if_pos rfl] at there
            rcases Branches.update_eq_some_iff.mp there with ⟨-, absent⟩ | ⟨-, kept⟩
            · cases absent
            · exact all d c' kept
        | false =>
          obtain ⟨shaped', find', metadata', object, under', settled'⟩ := step
          obtain ⟨shapedC, findC, metadataC, underC⟩ := collapse_spec shaped'
          refine ⟨?_, ?_, rfl, ?_, fun p below => below, ?_⟩
          · refine stored.update ?_ ?_
            · rintro c'' ⟨⟩
              exact ⟨shapedC, underC _ (under' _ lies)⟩
            · rw [occupied, if_neg Bool.false_ne_true, Branches.weight_some, Branches.weight_some,
                metadataC, metadata']
              abel
          · intro query
            rw [if_neg Bool.false_ne_true, find_update, find_node, findSlot_some, findC, find']
            by_cases digit : Digits.digit query len = getBranchBits len key
            · rw [if_pos digit, digit, occupied, findSlot_some]
            · rw [if_neg digit, if_neg (fun here => digit (by rw [here]; rfl))]
          · have occupied' : cs (Digits.digit key len) = some c := occupied
            rw [find_node, occupied', findSlot_some, object]
          · intro compact
            obtain ⟨-, all⟩ := compact_node.mp compact
            have settledC := compact_collapse (settled' (all _ c occupied))
            have updated : (TrieNode.node pfx len (Function.update cs (getBranchBits len key) _) m h).Compact :=
              compactAt_update compact settledC
            rw [if_neg Bool.false_ne_true]
            exact Compact.settled updated

end Deletion

end TrieNode

end Speedex
