import Mathlib.Data.BitVec
import Mathlib.Logic.Function.Basic
import Mathlib.Tactic.Ring
import Speedex.Library.Branches
import Speedex.Library.Digits

set_option autoImplicit false

/- The nodes of `merkle_trie.h`: branch bits are four wide, a key is the sequence
of its nibbles, and a leaf is the node whose prefix length is the key length. -/
namespace Speedex

abbrev Digit := Fin 16
abbrev Key := List Digit
abbrev Hash := List (BitVec 8)

instance lawfulKey : LawfulBEq Key := inferInstance

/-- `CombinedMetadata<DeletableMixin, SizeMixin, RollbackMixin, WorkUnitMetadata>`. -/
@[ext] structure Metadata where
  numDeletedSubnodes : Int
  size : Int
  numRollbackSubnodes : Int
  endow : BitVec 64
deriving DecidableEq, Repr

namespace Metadata

instance : Zero Metadata := ⟨⟨0, 0, 0, 0⟩⟩
instance : Add Metadata := ⟨fun a b => ⟨a.numDeletedSubnodes + b.numDeletedSubnodes, a.size + b.size,
  a.numRollbackSubnodes + b.numRollbackSubnodes, a.endow + b.endow⟩⟩
instance : Neg Metadata := ⟨fun a => ⟨-a.numDeletedSubnodes, -a.size, -a.numRollbackSubnodes, -a.endow⟩⟩
instance : Sub Metadata := ⟨fun a b => ⟨a.numDeletedSubnodes - b.numDeletedSubnodes, a.size - b.size,
  a.numRollbackSubnodes - b.numRollbackSubnodes, a.endow - b.endow⟩⟩

@[simp] theorem zero_numDeletedSubnodes : (0 : Metadata).numDeletedSubnodes = 0 := rfl
@[simp] theorem zero_size : (0 : Metadata).size = 0 := rfl
@[simp] theorem zero_numRollbackSubnodes : (0 : Metadata).numRollbackSubnodes = 0 := rfl
@[simp] theorem zero_endow : (0 : Metadata).endow = 0 := rfl

@[simp] theorem add_numDeletedSubnodes (a b : Metadata) :
    (a + b).numDeletedSubnodes = a.numDeletedSubnodes + b.numDeletedSubnodes := rfl
@[simp] theorem add_size (a b : Metadata) : (a + b).size = a.size + b.size := rfl
@[simp] theorem add_numRollbackSubnodes (a b : Metadata) :
    (a + b).numRollbackSubnodes = a.numRollbackSubnodes + b.numRollbackSubnodes := rfl
@[simp] theorem add_endow (a b : Metadata) : (a + b).endow = a.endow + b.endow := rfl

@[simp] theorem neg_numDeletedSubnodes (a : Metadata) :
    (-a).numDeletedSubnodes = -a.numDeletedSubnodes := rfl
@[simp] theorem neg_size (a : Metadata) : (-a).size = -a.size := rfl
@[simp] theorem neg_numRollbackSubnodes (a : Metadata) :
    (-a).numRollbackSubnodes = -a.numRollbackSubnodes := rfl
@[simp] theorem neg_endow (a : Metadata) : (-a).endow = -a.endow := rfl

@[simp] theorem sub_numDeletedSubnodes (a b : Metadata) :
    (a - b).numDeletedSubnodes = a.numDeletedSubnodes - b.numDeletedSubnodes := rfl
@[simp] theorem sub_size (a b : Metadata) : (a - b).size = a.size - b.size := rfl
@[simp] theorem sub_numRollbackSubnodes (a b : Metadata) :
    (a - b).numRollbackSubnodes = a.numRollbackSubnodes - b.numRollbackSubnodes := rfl
@[simp] theorem sub_endow (a b : Metadata) : (a - b).endow = a.endow - b.endow := rfl

/-- Metadata only ever accumulates, so it is a commutative group field by field. -/
instance : AddCommGroup Metadata where
  add_assoc a b c := by ext1 <;> simp [add_assoc]
  zero_add a := by ext1 <;> simp
  add_zero a := by ext1 <;> simp
  add_comm a b := by ext1 <;> simp [add_comm]
  neg_add_cancel a := by ext1 <;> simp
  sub_eq_add_neg a b := by ext1 <;> simp [sub_eq_add_neg]
  nsmul := nsmulRec
  zsmul := zsmulRec

end Metadata

/-- The values a trie stores, with the amount the metadata adds up. -/
class TrieValue (V : Type) where
  endow : V → BitVec 64

/-- `MetadataType(value)`: a fresh leaf counts itself and carries no marks. -/
def Metadata.ofValue {V : Type} [TrieValue V] (value : V) : Metadata where
  numDeletedSubnodes := 0
  size := 1
  numRollbackSubnodes := 0
  endow := TrieValue.endow value

/-- A node; `hash` is `none` while `hash_valid` is false. -/
inductive TrieNode (V : Type) where
  | leaf (key : Key) (value : V) (metadata : Metadata) (hash : Option Hash)
  | node (pfx : Key) (prefixLen : Nat) (children : Fin 16 → Option (TrieNode V))
      (metadata : Metadata) (hash : Option Hash)

/-- What a leaf records about its key. -/
structure Leaf (V : Type) where
  value : V
  metadata : Metadata
deriving DecidableEq

namespace TrieNode

variable {V : Type}

/-- Induction with one hypothesis for every occupied branch. -/
theorem induct {P : TrieNode V → Prop}
    (leaf : ∀ key value metadata hash, P (.leaf key value metadata hash))
    (node : ∀ pfx prefixLen children metadata hash,
      (∀ b c, children b = some c → P c) → P (.node pfx prefixLen children metadata hash))
    (t : TrieNode V) : P t := by
  refine @TrieNode.rec V P (fun slot => ∀ c, slot = some c → P c) ?_ ?_ ?_ ?_ t
  · exact leaf
  · intro pfx prefixLen children metadata hash ih
    exact node pfx prefixLen children metadata hash (fun b c occupied => ih b c occupied)
  · intro c absent
    cases absent
  · intro c ih c' same
    cases same
    exact ih

def pfx : TrieNode V → Key
  | .leaf key .. => key
  | .node pfx .. => pfx

def prefixLen : TrieNode V → Nat
  | .leaf key .. => key.length
  | .node _ prefixLen .. => prefixLen

def metadata : TrieNode V → Metadata
  | .leaf _ _ metadata _ => metadata
  | .node _ _ _ metadata _ => metadata

def children : TrieNode V → Fin 16 → Option (TrieNode V)
  | .leaf .. => Branches.empty
  | .node _ _ children _ _ => children

@[simp] theorem leaf_pfx (key : Key) (value : V) (m : Metadata) (h : Option Hash) :
    (leaf key value m h).pfx = key := rfl
@[simp] theorem leaf_prefixLen (key : Key) (value : V) (m : Metadata) (h : Option Hash) :
    (leaf key value m h).prefixLen = key.length := rfl
@[simp] theorem leaf_metadata (key : Key) (value : V) (m : Metadata) (h : Option Hash) :
    (leaf key value m h).metadata = m := rfl
@[simp] theorem leaf_children (key : Key) (value : V) (m : Metadata) (h : Option Hash) :
    (leaf key value m h).children = Branches.empty := rfl
@[simp] theorem node_pfx (p : Key) (l : Nat) (cs : Fin 16 → Option (TrieNode V)) (m : Metadata)
    (h : Option Hash) : (node p l cs m h).pfx = p := rfl
@[simp] theorem node_prefixLen (p : Key) (l : Nat) (cs : Fin 16 → Option (TrieNode V)) (m : Metadata)
    (h : Option Hash) : (node p l cs m h).prefixLen = l := rfl
@[simp] theorem node_metadata (p : Key) (l : Nat) (cs : Fin 16 → Option (TrieNode V)) (m : Metadata)
    (h : Option Hash) : (node p l cs m h).metadata = m := rfl
@[simp] theorem node_children (p : Key) (l : Nat) (cs : Fin 16 → Option (TrieNode V)) (m : Metadata)
    (h : Option Hash) : (node p l cs m h).children = cs := rfl

/-- `make_empty_node`: the root of a trie without keys. -/
def makeEmptyNode (keyLen : Nat) : TrieNode V :=
  .node (List.replicate keyLen 0) 0 Branches.empty 0 none

/-- `get_prefix_match_len`. -/
def getPrefixMatchLen (t : TrieNode V) (other : Key) (otherLen : Nat) : Nat :=
  min (Digits.commonLen t.pfx other) (min t.prefixLen otherLen)

/-- `get_branch_bits`. -/
def getBranchBits (prefixLen : Nat) (data : Key) : Digit := Digits.digit data prefixLen

mutual

/-- What the trie records for a key: descend by the key's digits and compare at the leaf. -/
def find : TrieNode V → Key → Option (Leaf V)
  | .leaf key value metadata _, query => if query = key then some ⟨value, metadata⟩ else none
  | .node _ prefixLen children _ _, query => findSlot (children (getBranchBits prefixLen query)) query

def findSlot : Option (TrieNode V) → Key → Option (Leaf V)
  | none, _ => none
  | some c, query => find c query

end

@[simp] theorem find_leaf (key : Key) (value : V) (m : Metadata) (h : Option Hash) (query : Key) :
    (leaf key value m h).find query = if query = key then some ⟨value, m⟩ else none := by
  rw [find]

@[simp] theorem find_node (p : Key) (l : Nat) (cs : Fin 16 → Option (TrieNode V)) (m : Metadata)
    (h : Option Hash) (query : Key) :
    (node p l cs m h).find query = findSlot (cs (Digits.digit query l)) query := by
  rw [find, getBranchBits]

@[simp] theorem findSlot_none (query : Key) : findSlot (none : Option (TrieNode V)) query = none := by
  rw [findSlot]
@[simp] theorem findSlot_some (c : TrieNode V) (query : Key) :
    findSlot (some c) query = c.find query := by
  rw [findSlot]

/-- `single_child` followed by `get_single_child`: a node with one child is replaced by it. -/
def collapse : TrieNode V → TrieNode V
  | .node pfx prefixLen children metadata hash =>
    match Branches.lowest 16 children with
    | some c => if Branches.occupied children = 1 then c
      else .node pfx prefixLen children metadata hash
    | none => .node pfx prefixLen children metadata hash
  | .leaf key value metadata hash => .leaf key value metadata hash

end TrieNode

end Speedex
