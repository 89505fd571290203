import Speedex.Trie.Lookup
import Speedex.Trie.RootHash

set_option autoImplicit false

/- Values that are changed below a node inside a trie: `get_subnode_ref_nolocks` takes a reference to the node,
`modify_value_nolocks` starts from there, and `invalidate_hash_to_node_nolocks` invalidates the hashes above. -/
namespace Speedex

open TrieNode

namespace TrieNode

variable {V : Type}

mutual

/-- `get_subnode_ref_nolocks`: the branches on the way to the node, or `none` for a null pointer. -/
def getSubnodeRefNolocks (queryPrefix : Key) (queryLen : Nat) : TrieNode V → Except String (Option (List Digit))
  | .leaf key value metadata hash =>
    let prefixMatchLen := getPrefixMatchLen (.leaf key value metadata hash) queryPrefix queryLen
    if prefixMatchLen = queryLen then .ok (some [])
    else if key.length < prefixMatchLen then .error "cannot happen!"
    else if prefixMatchLen < key.length then .ok none
    else .error "can't recurse down nonexistent subtree!"
  | .node pfx prefixLen children metadata hash =>
    let prefixMatchLen := getPrefixMatchLen (.node pfx prefixLen children metadata hash) queryPrefix queryLen
    if prefixMatchLen = queryLen then .ok (some [])
    else if prefixLen < prefixMatchLen then .error "cannot happen!"
    else if prefixMatchLen < prefixLen then .ok none
    else
      let bb := getBranchBits prefixLen queryPrefix
      getSubnodeSlot queryPrefix queryLen bb (children bb)

def getSubnodeSlot (queryPrefix : Key) (queryLen : Nat) (bb : Digit) : Option (TrieNode V) → Except String (Option (List Digit))
  | none => .error "can't recurse down nonexistent subtree!"
  | some c => do
    match ← getSubnodeRefNolocks queryPrefix queryLen c with
    | none => .ok (some [])
    | some path => .ok (some (bb :: path))

end

/-- The node that a reference leads to. -/
def subnodeAt : List Digit → TrieNode V → Option (TrieNode V)
  | [], t => some t
  | b :: path, t => (t.children b).bind (subnodeAt path)

/-- The same as a derivation, to do inductions on. -/
inductive Reaches : TrieNode V → List Digit → TrieNode V → Prop
  | here (t : TrieNode V) : Reaches t [] t
  | down {t c sub : TrieNode V} {b : Digit} {path : List Digit} (occupied : t.children b = some c)
      (deep : Reaches c path sub) : Reaches t (b :: path) sub

/-- What a call on a referenced node does to the trie. The nodes above it stay as they are. -/
def callAt (call : TrieNode V → Except String (TrieNode V)) : List Digit → TrieNode V → Except String (TrieNode V)
  | [], t => call t
  | _ :: _, .leaf .. => .error "dangling reference"
  | b :: path, .node pfx prefixLen children metadata hash =>
    match children b with
    | none => .error "dangling reference"
    | some c => do
      let c' ← callAt call path c
      .ok (.node pfx prefixLen (Function.update children b (some c')) metadata hash)

/-- The way that is left to a target, while a walk is on it. -/
def stepTo : Option (List Digit) → Digit → Option (List Digit)
  | some (d :: path), bb => if d = bb then some path else none
  | _, _ => none

mutual

/-- `invalidate_hash_to_node_nolocks`. The walk follows the prefix of its target and knows the target by its address. -/
def invalidateHashToNodeNolocks (targetPrefix : Key) : TrieNode V → Option (List Digit) → Except String (TrieNode V)
  | .leaf key value metadata _, target =>
    if target = some [] then .ok (.leaf key value metadata none) else .error "can't propagate metadata to nonexistent node"
  | .node pfx prefixLen children metadata _, target =>
    if target = some [] then .ok (.node pfx prefixLen children metadata none)
    else do
      let branchBits := getBranchBits prefixLen targetPrefix
      let slot ← invalidateSlot targetPrefix (children branchBits) (stepTo target branchBits)
      .ok (.node pfx prefixLen (Function.update children branchBits slot) metadata none)

def invalidateSlot (targetPrefix : Key) : Option (TrieNode V) → Option (List Digit) → Except String (Option (TrieNode V))
  | none, _ => .error "can't propagate metadata to nonexistent node"
  | some c, target => do
    let c' ← invalidateHashToNodeNolocks targetPrefix c target
    .ok (some c')

end

theorem Reaches.subnodeAt {t sub : TrieNode V} {path : List Digit} (reaches : Reaches t path sub) : subnodeAt path t = some sub := by
  induction reaches with
  | here => rfl
  | down occupied _ ih =>
    rw [TrieNode.subnodeAt, occupied]
    exact ih

section Subnode

variable [TrieValue V] {keyLen : Nat} {t sub : TrieNode V} {path : List Digit}

theorem Reaches.shaped (reaches : Reaches t path sub) (shaped : Shaped keyLen t) : Shaped keyLen sub := by
  induction reaches with
  | here => exact shaped
  | @down t c sub b path occupied deep ih =>
    cases shaped with
    | leaf => cases occupied
    | node _ _ _ below _ _ => exact ih (below b c occupied)

/-- A referenced node lies under every prefix that the nodes above it lie under. -/
theorem Reaches.under (reaches : Reaches t path sub) (shaped : Shaped keyLen t) {p : Key} (below : Under p t) : Under p sub := by
  induction reaches generalizing p with
  | here => exact below
  | @down t c sub b path occupied deep ih =>
    cases shaped with
    | leaf => cases occupied
    | @node pfx len cs m h inner full zeros shaped placed sum =>
      have lies := placed b c occupied
      refine ih (shaped b c occupied) (lies.shorten (List.IsPrefix.trans ?_ (List.prefix_append _ _)))
      obtain ⟨short, start⟩ := below
      rw [node_pfx] at start
      rw [← start]
      exact List.take_prefix_take_left (by simpa using short)

/-- The branch below a node that leads to a referenced node is given by its prefix. -/
theorem Reaches.branch {pfx : Key} {len : Nat} {cs : Fin 16 → Option (TrieNode V)} {m : Metadata} {h : Option Hash}
    {b : Digit} {c : TrieNode V} (stored : Shaped keyLen (.node pfx len cs m h)) (occupied : cs b = some c)
    (reaches : Reaches c path sub) : len < sub.prefixLen ∧ Digits.digit sub.pfx len = b := by
  cases stored with
  | node inner full zeros shaped placed sum =>
    obtain ⟨deep, start⟩ := reaches.under (shaped b c occupied) (placed b c occupied)
    have span : (pfx.take len).length = len := by simp [full, Nat.min_eq_left inner.le]
    have long := (reaches.shaped (shaped b c occupied)).pfx_length
    rw [List.length_append, span, List.length_singleton] at deep start
    rw [Digits.take_succ_digit (by omega)] at start
    have digit := (List.append_inj' start rfl).2
    exact ⟨deep, by simpa using digit⟩

/-- The keys below a referenced node are keys of the trie. -/
theorem Reaches.find (reaches : Reaches t path sub) (shaped : Shaped keyLen t) {query : Key} (present : sub.find query ≠ none) :
    t.find query = sub.find query := by
  induction reaches with
  | here => rfl
  | @down t c sub b path occupied deep ih =>
    cases shaped with
    | leaf => cases occupied
    | @node pfx len cs m h inner full zeros shaped placed sum =>
      have stored : Shaped keyLen (.node pfx len cs m h) := .node inner full zeros shaped placed sum
      have below := ih (shaped b c occupied) present
      rw [← below] at present
      have digit := (find_branch stored occupied present).2.2.2
      rw [← below, find_node, digit, show cs b = some c from occupied, findSlot_some]

/-- Below a node the query matches all the digits that the node and the query have in common. -/
theorem matchLen_of_find (shaped : Shaped keyLen t) {key queryPrefix : Key} {queryLen : Nat} (present : t.find key ≠ none)
    (start : queryPrefix.take queryLen = key.take queryLen) (inside : queryLen ≤ keyLen) :
    getPrefixMatchLen t queryPrefix queryLen = min t.prefixLen queryLen := by
  obtain ⟨l, found⟩ := Option.ne_none_iff_exists'.mp present
  obtain ⟨full, same⟩ := find_under shaped found
  have long := shaped.pfx_length
  have most := shaped.prefixLen_le
  have span : queryLen ≤ queryPrefix.length := by
    have lengths := congrArg List.length start
    rw [List.length_take, List.length_take] at lengths
    omega
  have agree : t.pfx.take (min t.prefixLen queryLen) = queryPrefix.take (min t.prefixLen queryLen) :=
    (Digits.take_of_take same (Nat.min_le_left _ _)).symm.trans (Digits.take_of_take start (Nat.min_le_right _ _)).symm
  have common := (Digits.le_commonLen_iff (by omega) (by omega)).mpr agree
  rw [getPrefixMatchLen]
  omega

/-- For the prefix of a stored key the reference leads to a node that holds every key with that prefix. -/
theorem getSubnodeRef_spec (shaped : Shaped keyLen t) {key queryPrefix : Key} {queryLen : Nat} (present : t.find key ≠ none)
    (start : queryPrefix.take queryLen = key.take queryLen) (inside : queryLen ≤ keyLen) :
    ∃ path sub, t.getSubnodeRefNolocks queryPrefix queryLen = .ok (some path) ∧ Reaches t path sub ∧
      ∀ query, query.take queryLen = queryPrefix.take queryLen → sub.find query = t.find query := by
  induction shaped with
  | @leaf key' value m h full own =>
    have matched := matchLen_of_find (.leaf full own) present start inside
    refine ⟨[], _, ?_, .here _, fun _ _ => rfl⟩
    rw [leaf_prefixLen, full, Nat.min_eq_right inside] at matched
    rw [getSubnodeRefNolocks, matched]
    exact if_pos rfl
  | @node pfx len cs m h inner full zeros shaped placed sum ih =>
    have stored : Shaped keyLen (.node pfx len cs m h) := .node inner full zeros shaped placed sum
    have matched := matchLen_of_find stored present start inside
    rw [node_prefixLen] at matched
    rw [getSubnodeRefNolocks, matched]
    by_cases reached : queryLen ≤ len
    · exact ⟨[], _, if_pos (Nat.min_eq_right reached), .here _, fun _ _ => rfl⟩
    · have longer : len < queryLen := Nat.lt_of_not_le reached
      have digit : Digits.digit queryPrefix len = Digits.digit key len := Digits.digit_eq_of_take start longer
      dsimp only
      rw [Nat.min_eq_left longer.le, if_neg (by omega), if_neg (lt_irrefl _), if_neg (lt_irrefl _), getBranchBits, digit]
      rw [find_node] at present
      cases occupied : cs (Digits.digit key len) with
      | none => simp [occupied] at present
      | some c =>
        rw [occupied, findSlot_some] at present
        obtain ⟨path, sub, done, reaches, whole⟩ := ih _ c occupied present
        refine ⟨Digits.digit key len :: path, sub, ?_, .down occupied reaches, fun query same => ?_⟩
        · rw [getSubnodeSlot, done]
          rfl
        · rw [whole query same, find_node, (Digits.digit_eq_of_take same longer).trans digit, occupied, findSlot_some]

end Subnode

section Overwrite

variable [HashedValue V] [Inhabited V] {sha : Sha256} {keyLen : Nat} {t t' sub sub' : TrieNode V} {path : List Digit}
  {value : Key → V} {keys keys' : Key → Prop}

/-- The trie with new values for some keys, and no hash that the old values are in. -/
structure Overwritten (sha : Sha256) (keyLen : Nat) (value : Key → V) (keys : Key → Prop) (t t' : TrieNode V) : Prop where
  shaped : Shaped keyLen t'
  pfx : t'.pfx = t.pfx
  prefixLen : t'.prefixLen = t.prefixLen
  metadata : t'.metadata = t.metadata
  compact : t.Compact → t'.Compact
  vacant : Vacant keyLen t → Vacant keyLen t'
  written : ∀ query, keys query → t'.find query = (t.find query).map (Leaf.modify (fun _ => value query))
  kept : ∀ query, ¬ keys query → t'.find query = t.find query
  sound : HashSound sha t → HashSound sha t'

theorem Overwritten.refl (shaped : Shaped keyLen t) : Overwritten sha keyLen value (fun _ => False) t t :=
  ⟨shaped, rfl, rfl, rfl, id, id, nofun, fun _ _ => rfl, id⟩

theorem Overwritten.present (outcome : Overwritten sha keyLen value keys t t') (query : Key) :
    t'.find query ≠ none ↔ t.find query ≠ none := by
  by_cases here : keys query
  · rw [outcome.written query here, ne_eq, Option.map_eq_none_iff]
  · rw [outcome.kept query here]

theorem Overwritten.trans {t'' : TrieNode V} (first : Overwritten sha keyLen value keys t t')
    (second : Overwritten sha keyLen value keys' t' t'') :
    Overwritten sha keyLen value (fun query => keys query ∨ keys' query) t t'' := by
  refine ⟨second.shaped, second.pfx.trans first.pfx, second.prefixLen.trans first.prefixLen,
    second.metadata.trans first.metadata, fun compact => second.compact (first.compact compact),
    fun vacant => second.vacant (first.vacant vacant), fun query touched => ?_, fun query untouched => ?_, fun sound => second.sound (first.sound sound)⟩
  · by_cases now : keys' query
    · rw [second.written query now]
      by_cases before : keys query
      · rw [first.written query before, Option.map_map]
        rfl
      · rw [first.kept query before]
    · rw [second.kept query now, first.written query (touched.resolve_right now)]
  · rw [not_or] at untouched
    rw [second.kept query untouched.2, first.kept query untouched.1]

theorem Overwritten.congr (outcome : Overwritten sha keyLen value keys t t') (same : ∀ query, keys query ↔ keys' query) :
    Overwritten sha keyLen value keys' t t' :=
  ⟨outcome.shaped, outcome.pfx, outcome.prefixLen, outcome.metadata, outcome.compact, outcome.vacant, fun query here => outcome.written query ((same query).mpr here),
    fun query off => outcome.kept query (fun here => off ((same query).mp here)), outcome.sound⟩

theorem Overwritten.invalidate (outcome : Overwritten sha keyLen value keys t t') :
    Overwritten sha keyLen value keys t t'.invalidateHash := by
  refine ⟨?_, by rw [invalidateHash_pfx, outcome.pfx], by rw [invalidateHash_prefixLen, outcome.prefixLen],
    by rw [invalidateHash_metadata, outcome.metadata], fun compact => ?_, fun vacant => ?_, fun query here => by
    rw [invalidateHash_find, outcome.written query here], fun query off => by rw [invalidateHash_find, outcome.kept query off],
    fun sound => hereditary_hashSound.invalidateHash (outcome.sound sound)⟩
  · have shaped := outcome.shaped
    cases shaped with
    | leaf full own => exact .leaf full own
    | node inner full zeros shaped placed sum => exact .node inner full zeros shaped placed sum
  · have compact' := outcome.compact compact
    cases t' with
    | leaf => exact compactAt_leaf _ _ _ _
    | node => exact compact_node.mpr (compact_node.mp compact')
  · obtain ⟨h, rfl⟩ := outcome.vacant vacant
    exact ⟨none, rfl⟩

/-- New values below one branch. -/
theorem Overwritten.node {pfx : Key} {len : Nat} {cs : Fin 16 → Option (TrieNode V)} {m : Metadata} {h : Option Hash}
    (stored : Shaped keyLen (.node pfx len cs m h)) {b : Digit} {c c' : TrieNode V} (occupied : cs b = some c)
    (outcome : Overwritten sha keyLen value keys c c') (inside : ∀ query, keys query → Digits.digit query len = b) :
    Overwritten sha keyLen value keys (.node pfx len cs m h) (.node pfx len (Function.update cs b (some c')) m none) := by
  have total : Branches.total TrieNode.metadata (Function.update cs b (some c')) = Branches.total TrieNode.metadata cs := by
    apply Branches.total_congr
    intro d
    by_cases here : d = b
    · rw [here, Function.update_self, occupied, Branches.weight_some, Branches.weight_some, outcome.metadata]
    · rw [Function.update_of_ne here]
  have count : Branches.occupied (Function.update cs b (some c')) = Branches.occupied cs := by
    apply Branches.occupied_congr
    intro d
    by_cases here : d = b
    · rw [here, Function.update_self, occupied]
      simp
    · rw [Function.update_of_ne here]
  refine ⟨?_, rfl, rfl, rfl, fun compact => ?_, fun vacant => ?_, fun query here => ?_, fun query off => ?_, fun sound => ?_⟩
  · cases stored with
    | node inner full zeros shaped placed sum =>
      refine .node inner full zeros (forall_update shaped ?_) ?_ (sum.trans total.symm)
      · rintro _ ⟨⟩
        exact outcome.shaped
      · intro d c'' there
        rcases Branches.update_eq_some_iff.mp there with ⟨rfl, new⟩ | ⟨-, old⟩
        · cases new
          rw [Under, outcome.pfx, outcome.prefixLen]
          exact placed d c occupied
        · exact placed d c'' old
  · obtain ⟨two, below⟩ := compact_node.mp compact
    refine compact_node.mpr ⟨by rw [count]; exact two, forall_update below ?_⟩
    rintro _ ⟨⟩
    exact outcome.compact (below b c occupied)
  · obtain ⟨h', shape⟩ := vacant
    cases shape
    cases occupied
  · have digit := inside query here
    rw [find_update, if_pos digit, findSlot_some, find_node, digit, occupied, findSlot_some, outcome.written query here]
  · rw [find_update, find_node]
    split
    · rename_i digit
      rw [digit, occupied, findSlot_some, findSlot_some, outcome.kept query off]
    · rfl
  · refine hereditary_hashSound.update (sound.child ·) ?_
    rintro _ ⟨⟩
    exact outcome.sound (sound.child b c occupied)

/-- `modify_value_nolocks` gives a stored key another value that adds up to the same amounts. -/
theorem overwritten_modify {fn : V → V} {key : Key} (shaped : Shaped keyLen t) (present : t.find key ≠ none)
    (constant : ∀ v, fn v = value key) (flat : ∀ v, TrieValue.endow (fn v) = TrieValue.endow v) :
    (t.modifyValueNolocks fn key).2 = .ok () ∧
      Overwritten sha keyLen value (fun query => query = key) t (t.modifyValueNolocks fn key).1 := by
  induction shaped with
  | @leaf key' v m h full own =>
    rw [find_leaf] at present
    obtain rfl : key = key' := by
      by_contra apart
      exact present (if_neg apart)
    rw [modifyValueNolocks]
    refine ⟨rfl, .leaf full ⟨own.size, own.endow.trans (flat v).symm, own.deleted, own.rollback⟩, rfl, rfl, rfl,
      fun _ => compactAt_leaf _ _ _ _, fun vacant => ?_, ?_, fun query off => ?_, fun _ => hereditary_hashSound.leaf _ _ _⟩
    · obtain ⟨h', shape⟩ := vacant
      cases shape
    · rintro query rfl
      rw [find_leaf, find_leaf, if_pos rfl, if_pos rfl, constant]
      rfl
    · rw [find_leaf, find_leaf, if_neg off, if_neg off]
  | @node pfx len cs m h inner full zeros shaped placed sum ih =>
    have stored : Shaped keyLen (.node pfx len cs m h) := .node inner full zeros shaped placed sum
    obtain ⟨l, found⟩ := Option.ne_none_iff_exists'.mp present
    have long := find_length stored found
    have matched : getPrefixMatchLen (.node pfx len cs m h) key key.length = min len key.length :=
      matchLen_of_find stored present rfl long.le
    rw [long, Nat.min_eq_left inner.le] at matched
    rw [find_node, ← getBranchBits] at present
    cases occupied : cs (getBranchBits len key) with
    | none => simp [occupied] at present
    | some c =>
      rw [occupied, findSlot_some] at present
      obtain ⟨done, outcome⟩ := ih _ c occupied present
      rw [modifyValueNolocks, long, matched, if_neg (not_not.mpr rfl)]
      dsimp only
      rw [occupied, modifyValueSlot]
      refine ⟨done, outcome.node stored occupied ?_⟩
      rintro query rfl
      rfl

/-- New values below a referenced node: once the hashes down to it are invalid, no hash of the trie has old values in it. -/
theorem overwritten_callAt {call : TrieNode V → Except String (TrieNode V)} (shaped : Shaped keyLen t) (reaches : Reaches t path sub)
    (done : call sub = .ok sub') (outcome : Overwritten sha keyLen value keys sub sub')
    (inside : ∀ query, keys query → sub.find query ≠ none) :
    ∃ called t', callAt call path t = .ok called ∧ subnodeAt path called = some sub' ∧
      called.invalidateHashToNodeNolocks sub'.pfx (some path) = .ok t' ∧ Overwritten sha keyLen value keys t t' := by
  induction reaches with
  | here t =>
    refine ⟨sub', sub'.invalidateHash, done, rfl, ?_, outcome.invalidate⟩
    cases sub' with
    | leaf => rw [invalidateHashToNodeNolocks, if_pos rfl]; rfl
    | node => rw [invalidateHashToNodeNolocks, if_pos rfl]; rfl
  | @down t c sub b path occupied deep ih =>
    cases shaped with
    | leaf => cases occupied
    | @node pfx len cs m h inner full zeros shaped placed sum =>
      have stored : Shaped keyLen (.node pfx len cs m h) := .node inner full zeros shaped placed sum
      have at_b : cs b = some c := occupied
      obtain ⟨called, c', calls, there, invalidated, outcomeC⟩ := ih (shaped b c at_b) done outcome inside
      have branch : getBranchBits len sub'.pfx = b := by
        rw [outcome.pfx]
        exact (deep.branch stored at_b).2
      refine ⟨.node pfx len (Function.update cs b (some called)) m h, .node pfx len (Function.update cs b (some c')) m none, ?_, ?_,
        ?_, outcomeC.node stored at_b ?_⟩
      · rw [callAt, at_b]
        dsimp only
        rw [calls]
        rfl
      · rw [TrieNode.subnodeAt, node_children, Function.update_self]
        exact there
      · rw [invalidateHashToNodeNolocks, if_neg (by simp), branch]
        dsimp only
        rw [Function.update_self, stepTo, if_pos rfl, invalidateSlot, invalidated]
        show Except.ok (TrieNode.node pfx len (Function.update (Function.update cs b _) b _) m none) = _
        rw [Function.update_idem]
      · intro query here
        have present := inside query here
        have below := deep.find (shaped b c at_b) present
        exact (find_branch stored at_b (by rw [below]; exact present)).2.2.2

end Overwrite

end TrieNode

namespace MerkleTrie

variable {V : Type}

/-- The handle takes its root for a null pointer. -/
def getSubnodeRefNolocks (t : MerkleTrie V) (queryPrefix : Key) (queryLen : Nat) : Except String (List Digit) := do
  match ← t.root.getSubnodeRefNolocks queryPrefix queryLen with
  | none => .ok []
  | some path => .ok path

/-- `invalidate_hash_to_node_nolocks` of the handle. -/
def invalidateHashToNodeNolocks (t : MerkleTrie V) (target : List Digit) : Except String (MerkleTrie V) :=
  match subnodeAt target t.root with
  | none => .error "dangling reference"
  | some subnode => do
    let root ← t.root.invalidateHashToNodeNolocks subnode.pfx (some target)
    .ok ⟨root, none⟩

end MerkleTrie

end Speedex
