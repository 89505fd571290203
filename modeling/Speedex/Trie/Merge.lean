import Speedex.Trie.Shaped

set_option autoImplicit false

/- `_merge_in`: a merge function combines the leaves that both tries hold.
The function returns the merged node and the change of its metadata. -/
namespace Speedex

/-- The `MergeFn` template argument. `metadataMerge` gives the metadata the main leaf keeps and the
change it reports; what is kept must fit the merged value. -/
structure MergeFn (V : Type) [TrieValue V] where
  valueMerge : V → V → V
  metadataMerge : Metadata → Metadata → Metadata × Metadata
  delta_eq : ∀ main other, (metadataMerge main other).2 = (metadataMerge main other).1 - main
  leafMetadata : ∀ {value other : V} {m m' : Metadata}, TrieNode.LeafMetadata value m →
    TrieNode.LeafMetadata other m' → TrieNode.LeafMetadata (valueMerge value other) (metadataMerge m m').1

/-- `OverwriteMergeFn`: the trie that is merged in wins where both hold a key. -/
def OverwriteMergeFn (V : Type) [TrieValue V] : MergeFn V where
  valueMerge _ other := other
  metadataMerge main other := (other, other - main)
  delta_eq _ _ := rfl
  leafMetadata _ own := own

/-- What a merge leaves of two leaves with the same key. -/
def MergeFn.leaf {V : Type} [TrieValue V] (mergeFn : MergeFn V) (main other : Leaf V) : Leaf V :=
  ⟨mergeFn.valueMerge main.value other.value, (mergeFn.metadataMerge main.metadata other.metadata).1⟩

@[simp] theorem merge_overwrite {V : Type} [TrieValue V] (main other : Option (Leaf V)) :
    Option.merge (OverwriteMergeFn V).leaf main other = other.or main := by
  cases main <;> cases other <;> rfl

namespace TrieNode

variable {V : Type}

/-- `invalidate_hash`, also the state of a node `move_contents_to_new_node` has just built. -/
def invalidateHash : TrieNode V → TrieNode V
  | .leaf key value metadata _ => .leaf key value metadata none
  | .node pfx prefixLen children metadata _ => .node pfx prefixLen children metadata none

@[simp] theorem invalidateHash_pfx (t : TrieNode V) : t.invalidateHash.pfx = t.pfx := by cases t <;> rfl
@[simp] theorem invalidateHash_prefixLen (t : TrieNode V) : t.invalidateHash.prefixLen = t.prefixLen := by
  cases t <;> rfl
@[simp] theorem invalidateHash_metadata (t : TrieNode V) : t.invalidateHash.metadata = t.metadata := by
  cases t <;> rfl
@[simp] theorem invalidateHash_find (t : TrieNode V) : t.invalidateHash.find = t.find := by
  funext query
  cases t <;> simp [invalidateHash]

/-- Both original nodes become children of their longest common prefix. -/
def fork (this other : TrieNode V) (matchLen : Nat) : TrieNode V :=
  .node (Digits.truncate this.pfx matchLen) matchLen
    (Function.update
      (Function.update Branches.empty (getBranchBits matchLen this.pfx) (some this.invalidateHash))
      (getBranchBits matchLen other.pfx) (some other))
    (this.metadata + other.metadata) none

/-- One iteration of case 1: the children both nodes store at one branch. -/
def mergeBranch (child other : Option (TrieNode V))
    (descend : TrieNode V → Except String (TrieNode V × Metadata)) :
    Except String (Option (TrieNode V) × Metadata) :=
  match other with
  | none => .ok (child, 0)
  | some c => do
    let (merged, delta) ← descend c
    .ok (some merged, delta)

/-- Merge case 1: both nodes have the same prefix; duplicate children are merged. -/
def mergeSamePrefix (pfx : Key) (prefixLen : Nat) (children : Fin 16 → Option (TrieNode V))
    (metadata : Metadata) (otherChildren : Fin 16 → Option (TrieNode V))
    (descend : Digit → TrieNode V → Except String (TrieNode V × Metadata)) :
    Except String (TrieNode V × Metadata) := do
  let merged ← Branches.sequence 16 (fun b => mergeBranch (children b) (otherChildren b) (descend b))
  let delta := ∑ b, (merged b).2
  .ok (.node pfx prefixLen (fun b => (merged b).1) (metadata + delta) none, delta)

/-- Merge case 2: the other prefix extends this one, so the other node goes below a child. -/
def mergeBelow (pfx : Key) (prefixLen : Nat) (children : Fin 16 → Option (TrieNode V))
    (metadata : Metadata) (other : TrieNode V)
    (descend : Digit → TrieNode V → Except String (TrieNode V × Metadata)) :
    Except String (TrieNode V × Metadata) := do
  let branchBits := getBranchBits prefixLen other.pfx
  let (child, delta) ← descend branchBits other
  .ok (.node pfx prefixLen (Function.update children branchBits (some child)) (metadata + delta) none,
    delta)

/-- Merge case 3, the converse of case 2: this node becomes a child of the other one. The roles
are swapped before the recursion, and the metadata is adjusted for the swap. -/
def mergeAbove (this : TrieNode V) (otherPfx : Key) (otherLen : Nat)
    (otherChildren : Fin 16 → Option (TrieNode V)) (otherMetadata : Metadata)
    (ascend : Digit → Except String (TrieNode V × Metadata)) :
    Except String (TrieNode V × Metadata) :=
  let branchBits := getBranchBits otherLen this.pfx
  match otherChildren branchBits with
  | none =>
    .ok (.node otherPfx otherLen
      (Function.update otherChildren branchBits (some this.invalidateHash))
      (otherMetadata + this.metadata) none, otherMetadata)
  | some matchingSubtree => do
    let reduction := matchingSubtree.metadata - this.metadata
    let (child, delta) ← ascend branchBits
    let metadata := otherMetadata + (delta - reduction)
    .ok (.node otherPfx otherLen (Function.update otherChildren branchBits (some child)) metadata none,
      metadata - this.metadata)

variable [TrieValue V] (mergeFn : MergeFn V)

/-- One call of `_merge_in`: `descend` merges a node into a child of `this`, `ascend` merges a
child of `other` into `this`. -/
def mergeCases (this other : TrieNode V)
    (descend : Digit → TrieNode V → Except String (TrieNode V × Metadata))
    (ascend : Digit → Except String (TrieNode V × Metadata)) : Except String (TrieNode V × Metadata) :=
  let matchLen := this.getPrefixMatchLen other.pfx other.prefixLen
  match this, other with
  | .leaf key value metadata hash, .leaf key' value' metadata' hash' =>
    -- merge case 0: the whole key matches
    if matchLen = key.length then
      let (merged, delta) := mergeFn.metadataMerge metadata metadata'
      .ok (.leaf key (mergeFn.valueMerge value value') merged none, delta)
    else .ok (fork (.leaf key value metadata hash) (.leaf key' value' metadata' hash') matchLen, metadata')
  | .leaf key value metadata hash, .node pfx' len' children' metadata' hash' =>
    if matchLen = len' then
      mergeAbove (.leaf key value metadata hash) pfx' len' children' metadata' ascend
    else .ok (fork (.leaf key value metadata hash) (.node pfx' len' children' metadata' hash') matchLen,
      metadata')
  | .node pfx len children metadata hash, .leaf key' value' metadata' hash' =>
    if Branches.occupied children = 0 ∧ len = 0 then
      .error "cannot _merge into empty trie!  Must call merge or somehow guard against this."
    else if matchLen = len then
      mergeBelow pfx len children metadata (.leaf key' value' metadata' hash') descend
    else .ok (fork (.node pfx len children metadata hash) (.leaf key' value' metadata' hash') matchLen,
      metadata')
  | .node pfx len children metadata hash, .node pfx' len' children' metadata' hash' =>
    if Branches.occupied children = 0 ∧ len = 0 then
      .error "cannot _merge into empty trie!  Must call merge or somehow guard against this."
    else if matchLen = len ∧ len = len' then
      mergeSamePrefix pfx len children metadata children' descend
    else if matchLen = len then
      mergeBelow pfx len children metadata (.node pfx' len' children' metadata' hash') descend
    else if matchLen = len' then
      mergeAbove (.node pfx len children metadata hash) pfx' len' children' metadata' ascend
    else .ok (fork (.node pfx len children metadata hash)
      (.node pfx' len' children' metadata' hash') matchLen, metadata')

mutual

/-- Merge `other` into `this`, given how to merge into the children of `this`. -/
def mergeOnto (this : TrieNode V)
    (descend : Digit → TrieNode V → Except String (TrieNode V × Metadata)) :
    TrieNode V → Except String (TrieNode V × Metadata)
  | .leaf key value metadata hash =>
    mergeCases mergeFn this (.leaf key value metadata hash) descend (fun _ => .error "no child")
  | .node pfx prefixLen children metadata hash =>
    mergeCases mergeFn this (.node pfx prefixLen children metadata hash) descend
      (fun b => mergeOntoSlot this descend (children b))

def mergeOntoSlot (this : TrieNode V)
    (descend : Digit → TrieNode V → Except String (TrieNode V × Metadata)) :
    Option (TrieNode V) → Except String (TrieNode V × Metadata)
  | none => .error "no child"
  | some other => mergeOnto this descend other

end

mutual

/-- `_merge_in`. -/
def mergeIn : TrieNode V → TrieNode V → Except String (TrieNode V × Metadata)
  | .leaf key value metadata hash, other =>
    mergeOnto mergeFn (.leaf key value metadata hash) (fun _ c => .ok (c, c.metadata)) other
  | .node pfx prefixLen children metadata hash, other =>
    mergeOnto mergeFn (.node pfx prefixLen children metadata hash)
      (fun b c => mergeInSlot (children b) c) other

/-- A missing child is replaced by the node merged in. -/
def mergeInSlot : Option (TrieNode V) → TrieNode V → Except String (TrieNode V × Metadata)
  | none, other => .ok (other, other.metadata)
  | some child, other => mergeIn child other

end

end TrieNode

end Speedex
