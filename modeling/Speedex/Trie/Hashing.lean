import Speedex.Library.Branches
import Speedex.Library.Bytes
import Speedex.Library.Sha2
import Speedex.Trie.Prune

set_option autoImplicit false

/- The hashes of nodes. A subtree counts for its leaves that are not marked deleted: children without
such leaves are left out, and a node left with one child takes over the child's hash. So the hash is a
function of the live contents. -/
namespace Speedex

open Bytes

/-- `SHA256`: 32 bytes for every message. -/
structure Sha256 where
  digest : List Byte → Hash
  length : ∀ message, (digest message).length = 32

/-- The hash function itself. -/
def sha256 : Sha256 := ⟨Sha2.sha256, Sha2.length_sha256⟩

/-- The values of hashed tries; `copyData` appends a value to a message. -/
class HashedValue (V : Type) extends TrieValue V where
  copyData : V → List Byte

/-- `__num_prefix_bytes`. -/
def numPrefixBytes (bits : Nat) : Nat := bits / 8 + (if bits % 8 = 0 then 0 else 1)

theorem numPrefixBytes_digits (n : Nat) : numPrefixBytes (4 * n) = (n + 1) / 2 := by
  unfold numPrefixBytes
  split <;> omega

/-- `write_node_header`: the prefix length in bits, and the bytes that hold the prefix. -/
def writeNodeHeader (pfx : Key) (prefixLen : Nat) : List Byte :=
  Bytes.bigEndian 2 (4 * prefixLen) ++ (pack pfx).take (numPrefixBytes (4 * prefixLen))

/-- The header of a node below these digits. -/
def headerOf (front : Key) : List Byte := Bytes.bigEndian 2 (4 * front.length) ++ pack front

/-- The message of `compute_hash_branch_node`: the header, the bit vector and the hashes. -/
def branchDigest (header : List Byte) (hashes : Fin 16 → Option Hash) : List Byte :=
  header ++ Bytes.bigEndian 2 (Branches.bitVector 16 hashes).toNat ++ (Branches.listed 16 hashes).flatten

/-- `compute_hash_branch_node`: a single valid child's hash is subsumed. -/
def branchHash (sha : Sha256) (header : List Byte) (hashes : Fin 16 → Option Hash) : Hash :=
  match Branches.lowest 16 hashes with
  | some h => if Branches.occupied hashes = 1 then h else sha.digest (branchDigest header hashes)
  | none => sha.digest (branchDigest header hashes)

/-- The message of `compute_hash_value_node`. -/
def leafDigest {V : Type} [HashedValue V] (header : List Byte) (value : V) : List Byte :=
  header ++ HashedValue.copyData value

namespace TrieNode

variable {V : Type} [HashedValue V]

/-- The children that count for a hash hold a leaf that is not marked deleted. -/
def Live (t : TrieNode V) : Prop := t.metadata.numDeletedSubnodes < t.metadata.size

instance (t : TrieNode V) : Decidable t.Live := inferInstanceAs (Decidable (_ < _))

section NodeHash

variable [Inhabited V] (sha : Sha256)

mutual

/-- The hash a node has when no cached hash is used. -/
def nodeHash : TrieNode V → Hash
  | .leaf key value _ _ => sha.digest (leafDigest (writeNodeHeader key key.length) value)
  | .node pfx prefixLen children _ _ =>
    -- a root without children hashes the default value of its unused value slot
    if Branches.occupied children = 0 then
      sha.digest (leafDigest (writeNodeHeader pfx prefixLen) (default : V))
    else branchHash sha (writeNodeHeader pfx prefixLen) (fun b => slotHash (children b))

def slotHash : Option (TrieNode V) → Option Hash
  | none => none
  | some c => if c.Live then some (nodeHash c) else none

end

end NodeHash

/-- The value of a key that is not marked deleted. -/
def liveFind (t : TrieNode V) (query : Key) : Option V :=
  ((t.find query).filter (fun l => !l.marked .deleted)).map Leaf.value

end TrieNode

section Contents

variable {V : Type} [HashedValue V] (sha : Sha256)

/-- A key below these digits. -/
def Occupied (live : Key → Option V) (front : Key) : Prop :=
  ∃ key, live key ≠ none ∧ key.take front.length = front

open Classical in
/-- The hash of the contents below some digits, `depth` digits above the leaves. -/
noncomputable def contentsHash (live : Key → Option V) : Nat → Key → Hash
  | 0, front => ((live front).map (fun value => sha.digest (leafDigest (headerOf front) value))).getD []
  | depth + 1, front => branchHash sha (headerOf front) (fun d =>
      if Occupied live (front ++ [d]) then some (contentsHash live depth (front ++ [d])) else none)

open Classical in
/-- The hashes of the contents below each digit. -/
noncomputable def childHashes (keyLen : Nat) (live : Key → Option V) (front : Key) : Fin 16 → Option Hash := fun d =>
  if Occupied live (front ++ [d]) then some (contentsHash sha live (keyLen - (front.length + 1)) (front ++ [d])) else none

variable {sha : Sha256} {live live' : Key → Option V}

theorem childHashes_eq_some_iff {keyLen : Nat} {front : Key} {d : Digit} {hash : Hash} :
    childHashes sha keyLen live front d = some hash ↔
      Occupied live (front ++ [d]) ∧ hash = contentsHash sha live (keyLen - (front.length + 1)) (front ++ [d]) := by
  unfold childHashes
  split
  · rename_i some
    exact ⟨fun same => ⟨some, (Option.some.inj same).symm⟩, fun both => by rw [both.2]⟩
  · rename_i none
    exact ⟨nofun, fun both => absurd both.1 none⟩

theorem take_of_take_append {key front : Key} {d : Digit} (below : key.take (front ++ [d]).length = front ++ [d]) :
    key.take front.length = front := by
  have cut := congrArg (List.take front.length) below
  rw [List.take_take, List.length_append, Nat.min_eq_left (Nat.le_add_right _ _), List.take_left] at cut
  exact cut

omit [HashedValue V] in
theorem occupied_live_congr {front : Key} (same : ∀ key, key.take front.length = front → live key = live' key) :
    Occupied live front ↔ Occupied live' front := by
  constructor
  · rintro ⟨key, present, below⟩
    exact ⟨key, by rwa [← same key below], below⟩
  · rintro ⟨key, present, below⟩
    exact ⟨key, by rwa [same key below], below⟩

open Classical in
/-- Only the keys below its digits count for a hash. -/
theorem contentsHash_congr {depth : Nat} {front : Key}
    (same : ∀ key, key.take front.length = front → live key = live' key) :
    contentsHash sha live depth front = contentsHash sha live' depth front := by
  induction depth generalizing front with
  | zero => rw [contentsHash, contentsHash, same front (List.take_length)]
  | succ depth ih =>
    rw [contentsHash, contentsHash]
    have deeper : ∀ d : Digit, ∀ key : Key, key.take (front ++ [d]).length = front ++ [d] → live key = live' key :=
      fun d key below => same key (take_of_take_append below)
    congr 1
    funext d
    rw [ih (deeper d)]
    exact if_congr (occupied_live_congr (deeper d)) rfl rfl

open Classical in
theorem childHashes_congr {keyLen : Nat} {front : Key}
    (same : ∀ key, key.take front.length = front → live key = live' key) :
    childHashes sha keyLen live front = childHashes sha keyLen live' front := by
  funext d
  have deeper : ∀ key : Key, key.take (front ++ [d]).length = front ++ [d] → live key = live' key :=
    fun key below => same key (take_of_take_append below)
  unfold childHashes
  rw [contentsHash_congr deeper]
  exact if_congr (occupied_live_congr deeper) rfl rfl

theorem branchHash_single {header : List Byte} {hashes : Fin 16 → Option Hash} {d : Digit} {h : Hash}
    (at_d : hashes d = some h) (alone : ∀ b, b ≠ d → hashes b = none) : branchHash sha header hashes = h := by
  have table : hashes = Function.update Branches.empty d (some h) := by
    funext b
    by_cases here : b = d
    · rw [here, Function.update_self, at_d]
    · rw [Function.update_of_ne here, alone b here, Branches.empty_apply]
  have one : Branches.occupied hashes = 1 := by
    rw [table, Branches.occupied, Branches.total_eq_add_others _ _ d, Branches.others_update, Function.update_self]
    have bare := Branches.total_eq_add_others (fun _ => 1) (Branches.empty : Fin 16 → Option Hash) d
    rw [Branches.total_empty, Branches.empty_apply, Branches.weight_none, zero_add] at bare
    rw [← bare, Branches.weight_some, add_zero]
  rw [branchHash, Branches.lowest_single at_d alone]
  exact if_pos one

/-- Where all keys go on with one digit, so does the hash. -/
theorem contentsHash_descend {depth : Nat} {front : Key} {d : Digit}
    (some : Occupied live (front ++ [d]))
    (all : ∀ key, live key ≠ none → key.take front.length = front → key.take (front ++ [d]).length = front ++ [d]) :
    contentsHash sha live (depth + 1) front = contentsHash sha live depth (front ++ [d]) := by
  rw [contentsHash]
  refine branchHash_single (d := d) (if_pos some) (fun b apart => if_neg ?_)
  rintro ⟨key, present, below⟩
  have other := all key present (take_of_take_append below)
  rw [List.length_append, List.length_singleton] at below other
  rw [below] at other
  exact apart (by simpa using other)

/-- The hash at a front is the hash at the longest front that its keys share. -/
theorem contentsHash_extend {depth gap : Nat} {front goal : Key} (lengths : goal.length = front.length + gap)
    (starts : goal.take front.length = front) (some : Occupied live goal)
    (all : ∀ key, live key ≠ none → key.take front.length = front → key.take goal.length = goal) :
    contentsHash sha live (depth + gap) front = contentsHash sha live depth goal := by
  induction gap generalizing front with
  | zero =>
    rw [← starts, List.take_of_length_le (by omega)]
    rfl
  | succ gap ih =>
    have next : goal.take (front.length + 1) = front ++ [Digits.digit goal front.length] := by
      rw [Digits.take_succ_digit (by omega), starts]
    have onward : ∀ key : Key, key.take goal.length = goal →
        key.take (front ++ [Digits.digit goal front.length]).length = front ++ [Digits.digit goal front.length] := by
      intro key below
      rw [List.length_append, List.length_singleton, ← next]
      exact Digits.take_of_take (below.trans (List.take_length).symm) (by omega)
    obtain ⟨key, present, below⟩ := id some
    rw [← Nat.add_assoc, contentsHash_descend ⟨key, present, onward key below⟩
      (fun key present here => onward key (all key present here))]
    refine ih (by rw [List.length_append, List.length_singleton]; omega) ?_ ?_
    · rw [List.length_append, List.length_singleton, next]
    · exact fun key present here => all key present (take_of_take_append here)

end Contents

namespace TrieNode

variable {V : Type}

@[simp] theorem liveFind_leaf {key : Key} {value : V} {m : Metadata} {h : Option Hash} (query : Key) :
    (leaf key value m h).liveFind query =
      if query = key ∧ m.numDeletedSubnodes ≠ 1 then some value else none := by
  rw [liveFind, find_leaf]
  by_cases here : query = key
  · by_cases marked : m.numDeletedSubnodes = 1 <;>
      simp [here, marked, Leaf.marked, Mark.count, Option.filter]
  · simp [here]

theorem liveFind_ne_none {t : TrieNode V} {query : Key} (live : t.liveFind query ≠ none) :
    ∃ l, t.find query = some l ∧ l.marked .deleted = false ∧ t.liveFind query = some l.value := by
  cases found : t.find query with
  | none => rw [liveFind, found] at live; exact absurd rfl live
  | some l =>
    cases marked : l.marked .deleted with
    | true =>
      rw [liveFind, found, Option.filter_some_neg (by rw [marked]; rfl)] at live
      exact absurd rfl live
    | false => exact ⟨l, rfl, marked, by rw [liveFind, found, Option.filter_some_pos (by rw [marked]; rfl)]; rfl⟩

theorem liveFind_congr {t t' : TrieNode V} (same : t'.find = t.find) : t'.liveFind = t.liveFind := by
  funext query
  rw [liveFind, liveFind, same]

/-- The leaves that are not marked deleted, in key order. -/
def liveRows (t : TrieNode V) : List (Key × Leaf V) := t.entries.filter (fun row => !row.2.marked .deleted)

section Shaped

variable [HashedValue V] {keyLen : Nat}

/-- How many of the rows carry no deletion mark. -/
theorem live_count {rows : List (Key × Leaf V)} (own : ∀ row ∈ rows, LeafMetadata row.2.value row.2.metadata) :
    (rows.map (fun row : Key × Leaf V => row.2.metadata)).sum.size -
        (rows.map (fun row : Key × Leaf V => row.2.metadata)).sum.numDeletedSubnodes =
      (rows.filter (fun row => !row.2.marked .deleted)).length := by
  induction rows with
  | nil => rfl
  | cons row rows ih =>
    have rest := ih (fun row listed => own row (List.mem_cons_of_mem _ listed))
    have here := own row List.mem_cons_self
    have one := here.size
    rw [List.map_cons, List.sum_cons, Metadata.add_size, Metadata.add_numDeletedSubnodes, one, List.filter_cons]
    rcases here.deleted with unmarked | marked
    · have keep : row.2.marked .deleted = false := by simp [Leaf.marked, Mark.count, unmarked]
      rw [keep, unmarked, Bool.not_false, if_pos rfl, List.length_cons]
      omega
    · have drop : row.2.marked .deleted = true := by simp [Leaf.marked, Mark.count, marked]
      rw [drop, marked, Bool.not_true, if_neg Bool.false_ne_true]
      omega

theorem live_length {t : TrieNode V} (shaped : Shaped keyLen t) :
    t.metadata.size - t.metadata.numDeletedSubnodes = t.liveRows.length := by
  rw [metadata_eq_sum shaped]
  exact live_count (fun row listed => find_leafMetadata shaped ((mem_entries_iff shaped).mp listed))

theorem mem_liveRows {t : TrieNode V} (shaped : Shaped keyLen t) {key : Key} {l : Leaf V} :
    (key, l) ∈ t.liveRows ↔ t.find key = some l ∧ l.marked .deleted = false := by
  rw [liveRows, List.mem_filter, mem_entries_iff shaped, Bool.not_eq_true']

/-- A subtree is live if it holds a live key. -/
theorem live_iff {t : TrieNode V} (shaped : Shaped keyLen t) : t.Live ↔ ∃ key, t.liveFind key ≠ none := by
  have count := live_length shaped
  have filled : t.Live ↔ t.liveRows ≠ [] := by
    rw [Live, ← List.length_pos_iff]
    omega
  rw [filled]
  constructor
  · intro rows
    obtain ⟨⟨key, l⟩, listed⟩ := List.exists_mem_of_ne_nil _ rows
    obtain ⟨found, unmarked⟩ := (mem_liveRows shaped).mp listed
    refine ⟨key, ?_⟩
    rw [liveFind, found, Option.filter_some_pos (by rw [unmarked]; rfl)]
    exact Option.some_ne_none _
  · rintro ⟨key, present⟩
    obtain ⟨l, found, unmarked, -⟩ := liveFind_ne_none present
    exact List.ne_nil_of_mem ((mem_liveRows shaped).mpr ⟨found, unmarked⟩)

theorem writeNodeHeader_eq {pfx : Key} {len : Nat} (inside : len ≤ pfx.length)
    (zeros : Digits.truncate pfx len = pfx) : writeNodeHeader pfx len = headerOf (pfx.take len) := by
  have cut : (pfx.take len).length = len := by rw [List.length_take, Nat.min_eq_left inside]
  rw [writeNodeHeader, headerOf, cut, numPrefixBytes_digits, take_pack inside]
  intro _
  rw [← zeros, Digits.truncate, Digits.digit, List.getD_eq_getElem?_getD,
    List.getElem?_append_right (by rw [cut])]
  rw [List.getElem?_replicate]
  split <;> rfl

omit [HashedValue V] in
theorem liveFind_node {pfx : Key} {len : Nat} {cs : Fin 16 → Option (TrieNode V)} {m : Metadata}
    {h : Option Hash} {query : Key} {c : TrieNode V} (at_digit : cs (Digits.digit query len) = some c) :
    (node pfx len cs m h).liveFind query = c.liveFind query := by
  rw [liveFind, liveFind, find_node, at_digit, findSlot_some]

theorem liveFind_under {t : TrieNode V} (shaped : Shaped keyLen t) {query : Key} (present : t.liveFind query ≠ none) :
    query.length = keyLen ∧ query.take t.prefixLen = t.pfx.take t.prefixLen := by
  obtain ⟨l, found, -⟩ := liveFind_ne_none present
  exact find_under shaped found

variable [Inhabited V] (sha : Sha256)

/-- The hashes that a node takes from its children are those of the live contents below them. -/
theorem slotHash_eq {pfx : Key} {len : Nat} {cs : Fin 16 → Option (TrieNode V)} {m : Metadata} {h : Option Hash}
    (stored : Shaped keyLen (.node pfx len cs m h))
    (below : ∀ b c, cs b = some c → c.Live →
      c.nodeHash sha = contentsHash sha c.liveFind (keyLen - c.prefixLen) (c.pfx.take c.prefixLen)) :
    (fun d => slotHash sha (cs d)) = childHashes sha keyLen (node pfx len cs m h).liveFind (pfx.take len) := by
  cases stored with
  | node inner full zeros shaped placed sum =>
    have span : (pfx.take len).length = len := by rw [List.length_take, full, Nat.min_eq_left inner.le]
    funext d
    -- the keys of the child at `d` are the live keys that go on with `d`
    have digits : ∀ key : Key, key.take (pfx.take len ++ [d]).length = pfx.take len ++ [d] →
        Digits.digit key len = d := by
      intro key below
      have long := congrArg List.length below
      rw [List.length_take, List.length_append, span, List.length_singleton] at long
      rw [List.length_append, span, List.length_singleton, Digits.take_succ_digit (by omega)] at below
      simpa using (List.append_inj' below rfl).2
    unfold childHashes
    cases occupied : cs d with
    | none =>
      rw [slotHash, if_neg]
      rintro ⟨key, present, below⟩
      obtain ⟨l, found, -⟩ := liveFind_ne_none present
      rw [find_node, digits key below, occupied, findSlot_none] at found
      cases found
    | some c =>
      have child := shaped d c occupied
      have deep := placed d c occupied
      rw [slotHash]
      have iff : c.Live ↔ Occupied (node pfx len cs m h).liveFind (pfx.take len ++ [d]) := by
        rw [live_iff child]
        constructor
        · rintro ⟨key, present⟩
          obtain ⟨l, found, -⟩ := liveFind_ne_none present
          have digit := (find_child_digit child inner full deep found).2
          refine ⟨key, ?_, find_take_of_under child deep found⟩
          rwa [liveFind_node (c := c) (by rw [digit]; exact occupied)]
        · rintro ⟨key, present, below⟩
          refine ⟨key, ?_⟩
          rwa [liveFind_node (c := c) (by rw [digits key below]; exact occupied)] at present
      by_cases childLive : c.Live
      swap
      · rw [if_neg childLive, if_neg (fun there => childLive (iff.mpr there))]
      rw [if_pos childLive, if_pos (iff.mp childLive)]
      refine congrArg some ?_
      have inside := child.prefixLen_le
      have long := child.pfx_length
      have low := deep.1
      rw [List.length_append, span, List.length_singleton] at low
      have gap : keyLen - (len + 1) = (keyLen - c.prefixLen) + (c.prefixLen - (len + 1)) := by omega
      have same : ∀ key : Key, key.take (pfx.take len ++ [d]).length = pfx.take len ++ [d] →
          (node pfx len cs m h).liveFind key = c.liveFind key := by
        intro key below
        exact liveFind_node (by rw [digits key below]; exact occupied)
      rw [below d c occupied childLive, contentsHash_congr same, span, gap]
      refine (contentsHash_extend ?_ ?_ ?_ ?_).symm
      · rw [List.length_take, List.length_append, span, List.length_singleton, long, Nat.min_eq_left inside]
        omega
      · rw [List.length_append, span, List.length_singleton]
        have front := deep.2
        rw [List.length_append, span, List.length_singleton] at front
        rw [List.take_take, Nat.min_eq_left (by omega), front]
      · obtain ⟨key, present⟩ := (live_iff child).mp childLive
        refine ⟨key, present, ?_⟩
        rw [List.length_take, long, Nat.min_eq_left inside]
        exact (liveFind_under child present).2
      · intro key present _
        rw [List.length_take, long, Nat.min_eq_left inside]
        exact (liveFind_under child present).2

/-- The hash of a live subtree is the hash of its live contents. -/
theorem nodeHash_eq {t : TrieNode V} (shaped : Shaped keyLen t) (live : t.Live) :
    t.nodeHash sha = contentsHash sha t.liveFind (keyLen - t.prefixLen) (t.pfx.take t.prefixLen) := by
  induction shaped with
  | @leaf key value m h full own =>
    have stored : Shaped keyLen (.leaf key value m h) := .leaf full own
    have unmarked : m.numDeletedSubnodes ≠ 1 := by
      have less : m.numDeletedSubnodes < m.size := live
      rw [own.size] at less
      omega
    rw [leaf_pfx, leaf_prefixLen, full, Nat.sub_self, contentsHash, nodeHash, List.take_of_length_le full.le,
      liveFind_leaf, if_pos ⟨rfl, unmarked⟩, writeNodeHeader_eq (le_refl _) (by simp [Digits.truncate]), List.take_length]
    rfl
  | @node pfx len cs m h inner full zeros shaped placed sum ih =>
    have stored : Shaped keyLen (.node pfx len cs m h) := .node inner full zeros shaped placed sum
    have filled : ¬ Branches.occupied cs = 0 := by
      intro bare
      obtain ⟨key, present⟩ := (live_iff stored).mp live
      obtain ⟨l, found, -⟩ := liveFind_ne_none present
      rw [find_node, (Branches.occupied_eq_zero_iff cs).mp bare, Branches.empty_apply, findSlot_none] at found
      cases found
    have depth : keyLen - len = (keyLen - (len + 1)) + 1 := by omega
    have span : (pfx.take len).length = len := by rw [List.length_take, full, Nat.min_eq_left inner.le]
    rw [node_pfx, node_prefixLen, depth, contentsHash, nodeHash, if_neg filled, writeNodeHeader_eq (by omega) zeros,
      slotHash_eq sha stored ih]
    unfold childHashes
    rw [span]

end Shaped

end TrieNode

end Speedex
