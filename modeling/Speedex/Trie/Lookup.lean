import Speedex.Trie.OfferTrie

set_option autoImplicit false

/- Point lookups: `contains_key` compares the prefix at every node, `modify_value_nolocks` at the inner nodes only,
and `get_value` not at all. So the latter two can come to the leaf of another key. -/
namespace Speedex

/-- A leaf after a change of its value. -/
def Leaf.modify {V : Type} (fn : V → V) (l : Leaf V) : Leaf V := ⟨fn l.value, l.metadata⟩

namespace TrieNode

variable {V : Type}

mutual

/-- `contains_key`. -/
def containsKey : TrieNode V → Key → Bool
  | .leaf key' value metadata hash, key =>
    decide (¬ getPrefixMatchLen (.leaf key' value metadata hash) key key.length < key'.length)
  | .node pfx prefixLen children metadata hash, key =>
    if getPrefixMatchLen (.node pfx prefixLen children metadata hash) key key.length < prefixLen then false
    else containsKeySlot (children (getBranchBits prefixLen key)) key

def containsKeySlot : Option (TrieNode V) → Key → Bool
  | none, _ => false
  | some c, key => containsKey c key

end

mutual

/-- `modify_value_nolocks`: the node afterwards, also when the walk throws, and whether it throws. -/
def modifyValueNolocks (fn : V → V) : TrieNode V → Key → TrieNode V × Except String Unit
  | .leaf key value metadata _, _ => (.leaf key (fn value) metadata none, .ok ())
  | .node pfx prefixLen children metadata hash, queryPrefix =>
    if getPrefixMatchLen (.node pfx prefixLen children metadata hash) queryPrefix queryPrefix.length ≠ prefixLen then
      (.node pfx prefixLen children metadata none, .error "invalid recurison: value nonexistend")
    else
      let bb := getBranchBits prefixLen queryPrefix
      let (slot, done) := modifyValueSlot fn (children bb) queryPrefix
      (.node pfx prefixLen (Function.update children bb slot) metadata none, done)

def modifyValueSlot (fn : V → V) : Option (TrieNode V) → Key → Option (TrieNode V) × Except String Unit
  | none, _ => (none, .error "branch bits not found: can't modify nonexistent value")
  | some c, queryPrefix =>
    let (c', done) := modifyValueNolocks fn c queryPrefix
    (some c', done)

end

/-- The key agrees with `leaf` wherever another key of the trie first differs from `leaf`. -/
def LeadsTo (t : TrieNode V) (key leaf : Key) : Prop :=
  t.find leaf ≠ none ∧ ∀ other, t.find other ≠ none →
    Digits.digit key (Digits.commonLen leaf other) = Digits.digit leaf (Digits.commonLen leaf other)

/-- The lookups of a key agree with membership, and a modification reaches this key alone. -/
structure LookupsAgree (t : TrieNode V) (key : Key) : Prop where
  member : (t.getValue key).isSome = t.containsKey key
  stored : ∀ value, t.getValue key = some value → (t.find key).map Leaf.value = some value
  modified : ∀ (fn : V → V) query, (t.modifyValueNolocks fn key).1.find query =
    if query = key then (t.find key).map (Leaf.modify fn) else t.find query
  completes : ∀ fn : V → V, t.containsKey key = true → (t.modifyValueNolocks fn key).2 = .ok ()

/-- Every key agrees with itself beyond its end. -/
theorem leadsTo_leaf {keyLen : Nat} {key leaf : Key} {value : V} {m : Metadata} {h : Option Hash} (full : leaf.length = keyLen)
    (fullKey : key.length = keyLen) : (TrieNode.leaf leaf value m h).LeadsTo key leaf := by
  constructor
  · simp
  · intro other found
    obtain rfl : other = leaf := by
      by_contra apart
      rw [find_leaf, if_neg apart] at found
      exact found rfl
    have beyond : ∀ a : Key, a.length = keyLen → Digits.digit a keyLen = 0 := by
      intro a long
      rw [Digits.digit, List.getD_eq_getElem?_getD, List.getElem?_eq_none long.le]
      rfl
    rw [Digits.commonLen_self, full, beyond key fullKey, beyond other full]

section Lookup

variable [TrieValue V] {keyLen : Nat}

theorem containsKey_iff {t : TrieNode V} (shaped : Shaped keyLen t) {key : Key} (full : key.length = keyLen) :
    t.containsKey key = true ↔ t.find key ≠ none := by
  induction shaped with
  | @leaf key' value m h fullKey own =>
    rw [containsKey, decide_eq_true_iff, find_leaf]
    by_cases here : key = key'
    · subst here
      simp [getPrefixMatchLen]
    · have parts := (Digits.digit_commonLen_ne (fullKey.trans full.symm) (Ne.symm here)).1
      simp only [getPrefixMatchLen, leaf_pfx, leaf_prefixLen, if_neg here]
      simp only [ne_eq, not_true_eq_false, iff_false, not_not]
      omega
  | @node pfx len cs m h inner fullPfx zeros shaped placed sum ih =>
    have stored : Shaped keyLen (.node pfx len cs m h) := .node inner fullPfx zeros shaped placed sum
    rw [containsKey]
    by_cases short : getPrefixMatchLen (.node pfx len cs m h) key key.length < len
    · rw [if_pos short, find_eq_none_of_matchLen stored full short]
      simp
    · rw [if_neg short, find_node, ← getBranchBits]
      cases occupied : cs (getBranchBits len key) with
      | none => simp [containsKeySlot]
      | some c => rw [containsKeySlot, ih _ c occupied, findSlot_some]

section Branch

variable {pfx : Key} {len : Nat} {cs : Fin 16 → Option (TrieNode V)} {m : Metadata} {h : Option Hash} {key leaf : Key}

/-- A key below a branch. -/
theorem find_branch (stored : Shaped keyLen (.node pfx len cs m h)) {b : Digit} {c : TrieNode V} (occupied : cs b = some c)
    (present : c.find leaf ≠ none) :
    (node pfx len cs m h).find leaf ≠ none ∧ leaf.length = keyLen ∧ leaf.take len = pfx.take len ∧
      Digits.digit leaf len = b := by
  obtain ⟨l, found⟩ := Option.ne_none_iff_exists'.mp present
  cases stored with
  | node inner full zeros shaped placed sum =>
    have digit := find_child_digit (shaped b c occupied) inner full (placed b c occupied) found
    refine ⟨?_, find_length (shaped b c occupied) found, digit.1, digit.2⟩
    rw [find_node, digit.2, occupied, findSlot_some]
    exact present

/-- Keys below different branches part there. -/
theorem commonLen_branches (stored : Shaped keyLen (.node pfx len cs m h)) {b d : Digit} {c c' : TrieNode V}
    (occupied : cs b = some c) (occupied' : cs d = some c') (apart : b ≠ d) {other : Key}
    (present : c.find leaf ≠ none) (present' : c'.find other ≠ none) : Digits.commonLen leaf other = len := by
  have inner : len < keyLen := by cases stored; assumption
  obtain ⟨-, long, start, digit⟩ := find_branch stored occupied present
  obtain ⟨-, long', start', digit'⟩ := find_branch stored occupied' present'
  apply Digits.commonLen_eq
  · omega
  · omega
  · exact start.trans start'.symm
  · rw [digit, digit']
    exact apart

/-- The descent by the digits of a key goes on in the branch of its next digit. -/
theorem leadsTo_branch (stored : Shaped keyLen (.node pfx len cs m h)) {c : TrieNode V}
    (occupied : cs (getBranchBits len key) = some c) (leads : c.LeadsTo key leaf) :
    (node pfx len cs m h).LeadsTo key leaf := by
  obtain ⟨present, agrees⟩ := leads
  have here := find_branch stored occupied present
  refine ⟨here.1, fun other found => ?_⟩
  rw [find_node] at found
  cases occupied' : cs (Digits.digit other len) with
  | none => simp [occupied'] at found
  | some c' =>
    rw [occupied', findSlot_some] at found
    by_cases same : Digits.digit other len = getBranchBits len key
    · rw [same, occupied] at occupied'
      cases occupied'
      exact agrees other found
    · rw [commonLen_branches stored occupied occupied' (Ne.symm same) present found, here.2.2.2]
      rfl

end Branch

/-- A shaped node that is not empty holds a key. -/
theorem exists_find {t : TrieNode V} (canonical : Canonical keyLen t) : ∃ key, t.find key ≠ none := by
  obtain ⟨row, listed⟩ := List.exists_mem_of_ne_nil _ canonical.compact.filled.entries_ne_nil
  have found := (mem_entries_iff canonical.shaped).mp (show (row.1, row.2) ∈ t.entries from listed)
  exact ⟨row.1, by rw [found]; exact Option.some_ne_none _⟩

/-- `get_value` takes the value of the leaf that the digits of the key lead to. -/
theorem getValue_eq_some {t : TrieNode V} (shaped : Shaped keyLen t) {key : Key} (full : key.length = keyLen) {value : V}
    (got : t.getValue key = some value) : ∃ leaf, t.LeadsTo key leaf ∧ (t.find leaf).map Leaf.value = some value := by
  induction shaped with
  | @leaf key' value' m h fullKey own =>
    rw [getValue] at got
    refine ⟨key', leadsTo_leaf fullKey full, ?_⟩
    rw [find_leaf, if_pos rfl]
    exact got
  | @node pfx len cs m h inner fullPfx zeros shaped placed sum ih =>
    have stored : Shaped keyLen (.node pfx len cs m h) := .node inner fullPfx zeros shaped placed sum
    rw [getValue] at got
    cases occupied : cs (getBranchBits len key) with
    | none =>
      rw [occupied, getValueSlot] at got
      cases got
    | some c =>
      rw [occupied, getValueSlot] at got
      obtain ⟨leaf, leads, value⟩ := ih _ c occupied got
      refine ⟨leaf, leadsTo_branch stored occupied leads, ?_⟩
      rw [find_node, (find_branch stored occupied leads.1).2.2.2, occupied, findSlot_some, value]

theorem getValue_of_leadsTo {t : TrieNode V} (canonical : Canonical keyLen t) {key leaf : Key} (leads : t.LeadsTo key leaf) :
    t.getValue key = (t.find leaf).map Leaf.value := by
  induction t using TrieNode.induct with
  | leaf key' value m h =>
    obtain ⟨present, -⟩ := leads
    by_cases here : leaf = key'
    · rw [getValue, find_leaf, if_pos here]
      rfl
    · rw [find_leaf, if_neg here] at present
      exact absurd rfl present
  | node pfx len cs m h ih =>
    have stored := canonical.shaped
    obtain ⟨present, agrees⟩ := leads
    cases occupied : cs (Digits.digit leaf len) with
    | none => simp [occupied] at present
    | some c =>
      rw [find_node, occupied, findSlot_some] at present
      -- a key in another branch forces the digit at which the node branches
      have digit : getBranchBits len key = Digits.digit leaf len := by
        obtain ⟨d, d', c₁, c₂, apart, first, second⟩ := Branches.exists_two (compact_node.mp canonical.compact).1
        have forced : ∀ d c', cs d = some c' → d ≠ Digits.digit leaf len → getBranchBits len key = Digits.digit leaf len := by
          intro d c' occupied' apart
          obtain ⟨other, found⟩ := exists_find (canonical.child occupied')
          have same := agrees other (find_branch stored occupied' found).1
          rwa [commonLen_branches stored occupied occupied' (Ne.symm apart) present found] at same
        by_cases here : d = Digits.digit leaf len
        · exact forced d' c₂ second (fun same => apart (here.trans same.symm))
        · exact forced d c₁ first here
      have inner : c.LeadsTo key leaf :=
        ⟨present, fun other found => agrees other (find_branch stored occupied found).1⟩
      rw [getValue, digit, occupied, getValueSlot, find_node, occupied, findSlot_some]
      exact ih _ c occupied (canonical.child occupied) inner

/-- `modify_value_nolocks` changes one leaf, or none and then the key is absent. -/
theorem modifyValueNolocks_cases (fn : V → V) {t : TrieNode V} (shaped : Shaped keyLen t) {key : Key}
    (full : key.length = keyLen) :
    (t.find key = none ∧ (t.modifyValueNolocks fn key).1.find = t.find) ∨
      ∃ leaf, t.LeadsTo key leaf ∧ (t.modifyValueNolocks fn key).2 = .ok () ∧
        ∀ query, (t.modifyValueNolocks fn key).1.find query =
          if query = leaf then (t.find leaf).map (Leaf.modify fn) else t.find query := by
  induction shaped with
  | @leaf key' value m h fullKey own =>
    refine Or.inr ⟨key', leadsTo_leaf fullKey full, ?_, fun query => ?_⟩
    · rw [modifyValueNolocks]
    · rw [modifyValueNolocks, find_leaf, find_leaf, find_leaf, if_pos rfl]
      split <;> rfl
  | @node pfx len cs m h inner fullPfx zeros shaped placed sum ih =>
    have stored : Shaped keyLen (.node pfx len cs m h) := .node inner fullPfx zeros shaped placed sum
    rw [modifyValueNolocks]
    by_cases short : getPrefixMatchLen (.node pfx len cs m h) key key.length ≠ len
    · rw [if_pos short]
      have less : getPrefixMatchLen (.node pfx len cs m h) key key.length < len := by
        have most : getPrefixMatchLen (.node pfx len cs m h) key key.length ≤ len :=
          (Nat.min_le_right _ _).trans (Nat.min_le_left _ _)
        omega
      refine Or.inl ⟨find_eq_none_of_matchLen stored full less, ?_⟩
      funext query
      rw [find_node, find_node]
    · rw [if_neg short]
      dsimp only
      cases occupied : cs (getBranchBits len key) with
      | none =>
        refine Or.inl ⟨?_, ?_⟩
        · rw [find_node, ← getBranchBits, occupied, findSlot_none]
        · rw [modifyValueSlot, ← occupied, Function.update_eq_self]
          funext query
          rw [find_node, find_node]
      | some c =>
        have finds : ∀ query, (node pfx len (Function.update cs (getBranchBits len key)
            (some (c.modifyValueNolocks fn key).1)) m none).find query =
            if Digits.digit query len = getBranchBits len key then (c.modifyValueNolocks fn key).1.find query
            else (node pfx len cs m h).find query := by
          intro query
          rw [find_update, findSlot_some, find_node]
        have below : ∀ query, Digits.digit query len = getBranchBits len key →
            c.find query = (node pfx len cs m h).find query := by
          intro query digit
          rw [find_node, digit, occupied, findSlot_some]
        rw [modifyValueSlot]
        rcases ih _ c occupied with ⟨absent, same⟩ | ⟨leaf, leads, done, changed⟩
        · refine Or.inl ⟨?_, ?_⟩
          · rw [← below key rfl, absent]
          · funext query
            rw [finds, same]
            split
            next digit => exact below query digit
            next => rfl
        · have here := find_branch stored occupied leads.1
          refine Or.inr ⟨leaf, leadsTo_branch stored occupied leads, done, fun query => ?_⟩
          rw [finds, changed, ← below leaf here.2.2.2]
          by_cases digit : Digits.digit query len = getBranchBits len key
          · rw [if_pos digit, below query digit]
          · rw [if_neg digit, if_neg]
            rintro rfl
            exact digit here.2.2.2

/-- A key that is in the trie leads to no other leaf. -/
theorem LeadsTo.eq_of_find {t : TrieNode V} (shaped : Shaped keyLen t) {key leaf : Key} (leads : t.LeadsTo key leaf)
    (present : t.find key ≠ none) : leaf = key := by
  obtain ⟨l, found⟩ := Option.ne_none_iff_exists'.mp present
  obtain ⟨l', found'⟩ := Option.ne_none_iff_exists'.mp leads.1
  by_contra apart
  have lengths := (find_length shaped found').trans (find_length shaped found).symm
  exact (Digits.digit_commonLen_ne lengths apart).2 (leads.2 key present).symm

theorem lookupsAgree_of_leadsTo {t : TrieNode V} (shaped : Shaped keyLen t) {key : Key} (full : key.length = keyLen)
    (own : ∀ leaf, t.LeadsTo key leaf → leaf = key) : t.LookupsAgree key := by
  have got : ∀ value, t.getValue key = some value → (t.find key).map Leaf.value = some value := by
    intro value got
    obtain ⟨leaf, leads, stored⟩ := getValue_eq_some shaped full got
    rwa [own leaf leads] at stored
  refine ⟨?_, got, fun fn query => ?_, fun fn present => ?_⟩
  · rw [Bool.eq_iff_iff, containsKey_iff shaped full, Option.isSome_iff_exists]
    constructor
    · rintro ⟨value, here⟩ absent
      have stored := got value here
      rw [absent] at stored
      cases stored
    · intro present
      obtain ⟨l, found⟩ := Option.ne_none_iff_exists'.mp present
      exact ⟨l.value, getValue_of_find found⟩
  · rcases modifyValueNolocks_cases fn shaped full with ⟨absent, same⟩ | ⟨leaf, leads, -, changed⟩
    · rw [same, absent]
      split
      next here => rw [here, absent]; rfl
      next => rfl
    · rw [changed, own leaf leads]
  · rcases modifyValueNolocks_cases fn shaped full with ⟨absent, -⟩ | ⟨leaf, -, done, -⟩
    · exact absurd absent ((containsKey_iff shaped full).mp present)
    · exact done

end Lookup

end TrieNode

open TrieNode

namespace MerkleTrie

variable {V : Type} [TrieValue V] {keyLen : Nat} {t : MerkleTrie V} {key : Key}

/-- The lookups of a key agree exactly if every other key of the trie lies off the way of its branch bits. -/
theorem lookupsAgree_iff (valid : t.Valid keyLen) (long : 0 < keyLen) (full : key.length = keyLen) :
    t.root.LookupsAgree key ↔ ∀ leaf, t.find leaf ≠ none → leaf ≠ key → ∃ other, t.find other ≠ none ∧
      Digits.digit key (Digits.commonLen leaf other) ≠ Digits.digit leaf (Digits.commonLen leaf other) := by
  have shaped := valid.shaped long
  constructor
  · intro agree leaf present apart
    by_contra on
    have leads : t.root.LeadsTo key leaf := by
      refine ⟨present, fun other found => ?_⟩
      by_contra differ
      exact on ⟨other, found, differ⟩
    have canonical : Canonical keyLen t.root := by
      refine valid.resolve_left (fun vacant => present ?_)
      exact find_of_vacant vacant leaf
    obtain ⟨l, found⟩ := Option.ne_none_iff_exists'.mp present
    have got : t.root.getValue key = some l.value := by
      rw [getValue_of_leadsTo canonical leads, ← find, found]
      rfl
    have stored := agree.stored _ got
    refine apart (leads.eq_of_find shaped (fun absent => ?_))
    rw [absent] at stored
    cases stored
  · intro off
    refine lookupsAgree_of_leadsTo shaped full (fun leaf leads => ?_)
    by_contra apart
    obtain ⟨other, found, differ⟩ := off leaf leads.1 apart
    exact differ (leads.2 other found)

end MerkleTrie

section Sample

/-- An offer alone in its trie answers for every key. -/
theorem getValue_of_other_key : ∃ t : MerkleTrie Offer,
    (MerkleTrie.new 4).insert .overwrite [0, 0, 0, 0] tenUnits = .ok t ∧
      t.root.containsKey [0, 0, 0, 1] = false ∧ t.getValue [0, 0, 0, 1] = some tenUnits ∧
      ¬ t.root.LookupsAgree [0, 0, 0, 1] := by
  refine ⟨_, rfl, rfl, rfl, fun agree => ?_⟩
  have member := agree.member
  revert member
  decide

theorem lookupsAgree_sample : ∃ t : MerkleTrie Offer,
    (MerkleTrie.new 4).insert .overwrite [0, 0, 0, 0] tenUnits = .ok t ∧
      (t.root.LookupsAgree [0, 0, 0, 1] ↔ ∀ leaf, t.find leaf ≠ none → leaf ≠ [0, 0, 0, 1] →
        ∃ other, t.find other ≠ none ∧ Digits.digit [0, 0, 0, 1] (Digits.commonLen leaf other) ≠
          Digits.digit leaf (Digits.commonLen leaf other)) := by
  obtain ⟨t, run, valid, -⟩ := MerkleTrie.insert_spec .overwrite tenUnits
    (MerkleTrie.valid_new 4) (by decide) (show ([0, 0, 0, 0] : Key).length = 4 from rfl)
  exact ⟨t, run, MerkleTrie.lookupsAgree_iff valid (by decide) rfl⟩

end Sample

end Speedex
