import Speedex.Library.Simulation
import Speedex.Market.Offer
import Speedex.Trie.Handle

set_option autoImplicit false

/- Sequences of operations on tries, beside the same operations on finite maps. Every trie stays
canonical, and its contents are those of the map. -/
namespace Speedex

open TrieNode Simulation

namespace TrieNode

variable {V : Type}

/-- A node of the trie below `t`. -/
inductive Subnode : TrieNode V → TrieNode V → Prop
  | self (t : TrieNode V) : Subnode t t
  | deeper {t c n : TrieNode V} {b : Digit} (occupied : t.children b = some c) (deep : Subnode c n) : Subnode t n

/-- An inner node has at least two children, the prefix is zero beyond its length, each child lies
under the branch bits it is stored at, and the metadata is the sum over the leaves. -/
structure CanonicalNode [TrieValue V] (keyLen : Nat) (n : TrieNode V) : Prop where
  full : n.pfx.length = keyLen
  inner : n.prefixLen < keyLen → 2 ≤ Branches.occupied n.children
  zeros : Digits.truncate n.pfx n.prefixLen = n.pfx
  placed : ∀ b c, n.children b = some c → Under (n.pfx.take n.prefixLen ++ [b]) c
  sum : n.metadata = (n.entries.map (fun row => row.2.metadata)).sum
  leaves : ∀ row ∈ n.entries, LeafMetadata row.2.value row.2.metadata

variable [TrieValue V] {keyLen : Nat} {t n : TrieNode V}

theorem Canonical.child {b : Digit} {c : TrieNode V} (canonical : Canonical keyLen t)
    (occupied : t.children b = some c) : Canonical keyLen c := by
  obtain ⟨shaped, compact⟩ := canonical
  cases shaped with
  | leaf => cases occupied
  | node _ _ _ shaped _ _ => exact ⟨shaped b c occupied, (compact_node.mp compact).2 b c occupied⟩

theorem Canonical.canonicalNode (canonical : Canonical keyLen t) : CanonicalNode keyLen t := by
  have shaped := canonical.shaped
  refine ⟨shaped.pfx_length, fun short => ?_, shaped.truncate_pfx, ?_, metadata_eq_sum shaped, ?_⟩
  · cases shaped with
    | leaf full _ =>
      rw [leaf_prefixLen, full] at short
      omega
    | node => exact (compact_node.mp canonical.compact).1
  · cases shaped with
    | leaf => nofun
    | node _ _ _ _ placed _ => exact placed
  · exact fun row listed => find_leafMetadata shaped ((mem_entries_iff shaped).mp listed)

/-- The representation invariant speaks about every node of a trie. -/
theorem Canonical.subnodes (canonical : Canonical keyLen t) (deep : Subnode t n) : CanonicalNode keyLen n := by
  induction deep with
  | self t => exact canonical.canonicalNode
  | deeper occupied _ ih => exact ih (canonical.child occupied)

end TrieNode

/-- The contents of a trie: what it records for each of its keys. -/
abbrev Contents (V : Type) := Key → Option (Leaf V)

namespace Contents

variable {V : Type}

/-- The rows of a finite map, in key order. -/
structure Lists (rows : List (Key × Leaf V)) (m : Contents V) : Prop where
  sorted : rows.Pairwise (fun a b => a.1 < b.1)
  members : ∀ key l, (key, l) ∈ rows ↔ m key = some l

/-- Dividing a map at a threshold: one part takes the low end of the key order. Where the amounts are
positive and their sum is an `int64_t`, it takes as many leaves as the threshold covers. -/
structure Splits (threshold : BitVec 64) (m low high : Contents V) : Prop where
  union : ∀ query, m query = (low query).or (high query)
  lt : ∀ x y, low x ≠ none → high y ≠ none → x < y
  longest : ∀ rows, Lists rows m → Funded rows → 0 ≤ threshold.toInt → ∃ front back, rows = front ++ back ∧
    Lists front low ∧ Lists back high ∧ LongestPrefix threshold.toInt front back

/-- Set or remove the deletion mark of a leaf. -/
def setDeleted (deleted : Int) (l : Leaf V) : Leaf V :=
  ⟨l.value, { l.metadata with numDeletedSubnodes := deleted }⟩

theorem Lists.unique {rows rows' : List (Key × Leaf V)} {m : Contents V} (lists : Lists rows m)
    (lists' : Lists rows' m) : rows = rows' :=
  rows_ext lists.sorted lists'.sorted
    (fun row => (lists.members row.1 row.2).trans (lists'.members row.1 row.2).symm)

end Contents

/-- An operation on tries that are known by their handles. The trie that `merge_in` moves from is
cleared, and the one that `endow_split` returns is cleaned along a key. -/
inductive TrieOperation (ι V : Type) [TrieValue V] where
  | insert (handle : ι) (insertFn : InsertFn) (key : Key) (value : V)
  | mergeIn (handle other : ι) (mergeFn : MergeFn V)
  | performDeletion (handle : ι) (key : Key)
  | markForDeletion (handle : ι) (key : Key)
  | unmarkForDeletion (handle : ι) (key : Key)
  | performMarkedDeletions (handle : ι)
  | endowSplit (handle split : ι) (threshold : BitVec 64) (key : Key)

section Systems

variable {ι V : Type} [DecidableEq ι] [TrieValue V]

/-- The operations on tries. The key a split off trie is cleaned along lies between its keys and the
keys that remain. -/
inductive TrieStep (keyLen : Nat) : TrieOperation ι V → (ι → MerkleTrie V) → (ι → MerkleTrie V) → Prop
  | insert {w : ι → MerkleTrie V} {handle : ι} {insertFn : InsertFn} {key : Key} {value : V} {t : MerkleTrie V}
      (full : key.length = keyLen) (done : (w handle).insert insertFn key value = .ok t) :
      TrieStep keyLen (.insert handle insertFn key value) w (Function.update w handle t)
  | mergeIn {w : ι → MerkleTrie V} {handle other : ι} {mergeFn : MergeFn V} {t : MerkleTrie V}
      (apart : handle ≠ other) (done : (w handle).mergeInWith mergeFn (w other) = .ok t) :
      TrieStep keyLen (.mergeIn handle other mergeFn) w
        (Function.update (Function.update w handle t) other ((w other).clear keyLen))
  | performDeletion {w : ι → MerkleTrie V} {handle : ι} {key : Key} (full : key.length = keyLen) :
      TrieStep keyLen (.performDeletion handle key) w
        (Function.update w handle ((w handle).performDeletion keyLen key).1)
  | markForDeletion {w : ι → MerkleTrie V} {handle : ι} {key : Key} (full : key.length = keyLen) :
      TrieStep keyLen (.markForDeletion handle key) w (Function.update w handle ((w handle).markForDeletion key).1)
  | unmarkForDeletion {w : ι → MerkleTrie V} {handle : ι} {key : Key} (full : key.length = keyLen) :
      TrieStep keyLen (.unmarkForDeletion handle key) w
        (Function.update w handle ((w handle).unmarkForDeletion key).1)
  | performMarkedDeletions {w : ι → MerkleTrie V} {handle : ι} {t : MerkleTrie V} {deleted : List (Key × V)}
      (done : (w handle).performMarkedDeletions keyLen = .ok (t, deleted)) :
      TrieStep keyLen (.performMarkedDeletions handle) w (Function.update w handle t)
  | endowSplit {w : ι → MerkleTrie V} {handle split : ι} {threshold : BitVec 64} {key : Key}
      {taken remaining : MerkleTrie V} (apart : handle ≠ split) (full : key.length = keyLen)
      (done : (w handle).endowSplit keyLen threshold = .ok (taken, remaining))
      (low : ∀ query, taken.find query ≠ none → query ≤ key)
      (high : ∀ query, remaining.find query ≠ none → key ≤ query) :
      TrieStep keyLen (.endowSplit handle split threshold key) w
        (Function.update (Function.update w handle remaining) split (taken.cleanSinglechildNodes key))

/-- The same operations on maps. -/
inductive MapStep (keyLen : Nat) : TrieOperation ι V → (ι → Contents V) → (ι → Contents V) → Prop
  | insert {m : ι → Contents V} {handle : ι} {insertFn : InsertFn} {key : Key} {value : V}
      (full : key.length = keyLen) : MapStep keyLen (.insert handle insertFn key value) m
        (Function.update m handle (Function.update (m handle) key (some ⟨value, insertFn.newMetadata value⟩)))
  | mergeIn {m : ι → Contents V} {handle other : ι} {mergeFn : MergeFn V} (apart : handle ≠ other) :
      MapStep keyLen (.mergeIn handle other mergeFn) m (Function.update (Function.update m handle
        (fun query => Option.merge mergeFn.leaf (m handle query) (m other query))) other (fun _ => none))
  | performDeletion {m : ι → Contents V} {handle : ι} {key : Key} (full : key.length = keyLen) :
      MapStep keyLen (.performDeletion handle key) m
        (Function.update m handle (Function.update (m handle) key none))
  | markForDeletion {m : ι → Contents V} {handle : ι} {key : Key} (full : key.length = keyLen) :
      MapStep keyLen (.markForDeletion handle key) m (Function.update m handle
        (Function.update (m handle) key ((m handle key).map (Contents.setDeleted 1))))
  | unmarkForDeletion {m : ι → Contents V} {handle : ι} {key : Key} (full : key.length = keyLen) :
      MapStep keyLen (.unmarkForDeletion handle key) m (Function.update m handle
        (Function.update (m handle) key ((m handle key).map (Contents.setDeleted 0))))
  | performMarkedDeletions {m : ι → Contents V} {handle : ι} :
      MapStep keyLen (.performMarkedDeletions handle) m (Function.update m handle
        (fun query => (m handle query).filter (fun l => !l.marked .deleted)))
  | endowSplit {m : ι → Contents V} {handle split : ι} {threshold : BitVec 64} {key : Key}
      {low high : Contents V} (apart : handle ≠ split) (full : key.length = keyLen)
      (splits : Contents.Splits threshold (m handle) low high) (under : ∀ query, low query ≠ none → query ≤ key)
      (excess : ∀ query, high query ≠ none → key ≤ query) :
      MapStep keyLen (.endowSplit handle split threshold key) m
        (Function.update (Function.update m handle high) split low)

/-- Every trie is in its canonical form and holds what the map of its handle holds. -/
def Agrees (keyLen : Nat) (w : ι → MerkleTrie V) (m : ι → Contents V) : Prop :=
  ∀ handle, (w handle).Valid keyLen ∧ (w handle).find = m handle

variable {keyLen : Nat} {w w' : ι → MerkleTrie V} {m : ι → Contents V}

theorem Agrees.update (agrees : Agrees keyLen w m) {handle : ι} {t : MerkleTrie V} {c : Contents V}
    (valid : t.Valid keyLen) (finds : t.find = c) :
    Agrees keyLen (Function.update w handle t) (Function.update m handle c) := by
  intro h
  by_cases here : h = handle
  · rw [here, Function.update_self, Function.update_self]
    exact ⟨valid, finds⟩
  · rw [Function.update_of_ne here, Function.update_of_ne here]
    exact agrees h

omit [DecidableEq ι] in
theorem agrees_new : Agrees keyLen (fun _ : ι => (MerkleTrie.new keyLen : MerkleTrie V)) (fun _ _ => none) :=
  fun _ => ⟨MerkleTrie.valid_new keyLen, funext (MerkleTrie.find_new keyLen)⟩

theorem setDeleted_of_swapLeaf {l : Leaf V} (own : LeafMetadata l.value l.metadata) :
    swapLeaf 0 1 l = Contents.setDeleted 1 l ∧ swapLeaf 1 0 l = Contents.setDeleted 0 l := by
  obtain ⟨value, ⟨deleted, size, rollback, endow⟩⟩ := l
  rcases own.deleted with unmarked | marked
  · cases unmarked
    exact ⟨rfl, rfl⟩
  · cases marked
    exact ⟨rfl, rfl⟩

/-- A change of one leaf's mark. -/
theorem mark_find {t t' : MerkleTrie V} {key : Key} {swap set : Leaf V → Leaf V} (valid : t.Valid keyLen)
    (long : 0 < keyLen) (same : ∀ l : Leaf V, LeafMetadata l.value l.metadata → swap l = set l)
    (finds : ∀ query, t'.find query = if query = key then (t.find key).map swap else t.find query) :
    t'.find = Function.update t.find key ((t.find key).map set) := by
  funext query
  rw [finds, Function.update_apply]
  refine ite_congr rfl (fun _ => ?_) (fun _ => rfl)
  cases found : t.find key with
  | none => rfl
  | some l => exact congrArg some (same l (find_leafMetadata (valid.shaped long) found))

theorem Contents.lists_entries {t : MerkleTrie V} (shaped : Shaped keyLen t.root) :
    Contents.Lists t.entries t.find :=
  ⟨entries_sorted shaped, fun _ _ => mem_entries_iff shaped⟩

/-- What `endow_split` does to the contents. -/
theorem splits_of_endowSplit {t taken remaining : MerkleTrie V} {threshold : BitVec 64} (valid : t.Valid keyLen)
    (long : 0 < keyLen) (done : t.endowSplit keyLen threshold = .ok (taken, remaining)) :
    Contents.Splits threshold t.find taken.find remaining.find := by
  have result := MerkleTrie.endowSplit_spec valid long done
  refine ⟨result.find valid long, fun x y => result.lt valid long, fun rows lists funded nonneg => ?_⟩
  obtain rfl := lists.unique (Contents.lists_entries (valid.shaped long))
  have exact := endow_toInt (valid.shaped long) funded
  have within : threshold.toInt ≤ endowSum t.entries := by
    rw [MerkleTrie.endowSplit] at done
    by_cases zero : threshold = 0
    · rw [zero]
      exact endowSum_nonneg funded.positive
    · rw [if_neg zero] at done
      by_cases excess : t.root.metadata.endow.slt threshold = true
      · rw [if_pos excess] at done
        cases done
      · rw [BitVec.slt_iff_toInt_lt, not_lt, exact] at excess
        exact excess
  obtain ⟨taken', remaining', done', -, longest⟩ := MerkleTrie.endowSplit_total valid long funded nonneg within
  rw [done] at done'
  cases done'
  exact ⟨_, _, result.rows.symm, Contents.lists_entries result.shaped,
    Contents.lists_entries (result.valid.shaped long), longest⟩

/-- One operation on the tries is the operation on the maps. -/
theorem TrieStep.simulated (long : 0 < keyLen) {op : TrieOperation ι V} (step : TrieStep keyLen op w w')
    (agrees : Agrees keyLen w m) : ∃ m', MapStep keyLen op m m' ∧ Agrees keyLen w' m' := by
  cases step with
  | @insert _ handle insertFn key value t full done =>
    obtain ⟨valid, finds⟩ := agrees handle
    obtain ⟨t', done', valid', finds'⟩ := MerkleTrie.insert_spec insertFn value valid long full
    rw [done] at done'
    cases done'
    refine ⟨_, .insert full, agrees.update valid' (funext (fun query => ?_))⟩
    rw [finds', Function.update_apply, finds]
  | @mergeIn _ handle other mergeFn t apart done =>
    obtain ⟨valid, finds⟩ := agrees handle
    obtain ⟨valid', finds'⟩ := agrees other
    obtain ⟨t', done', united, found⟩ := MerkleTrie.mergeInWith_spec mergeFn (Or.inl valid) valid' long
    rw [done] at done'
    cases done'
    refine ⟨_, .mergeIn apart, (agrees.update united (funext (fun query => ?_))).update
      (MerkleTrie.valid_new keyLen) (funext (MerkleTrie.find_new keyLen))⟩
    rw [found, finds, finds']
  | @performDeletion _ handle key full =>
    obtain ⟨valid, finds⟩ := agrees handle
    obtain ⟨valid', finds', -⟩ := MerkleTrie.performDeletion_spec valid long full
    refine ⟨_, .performDeletion full, agrees.update valid' (funext (fun query => ?_))⟩
    rw [finds', Function.update_apply, finds]
  | @markForDeletion _ handle key full =>
    obtain ⟨valid, finds⟩ := agrees handle
    obtain ⟨valid', finds', -⟩ := MerkleTrie.markForDeletion_spec valid long full
    refine ⟨_, .markForDeletion full, agrees.update valid' ?_⟩
    rw [← finds]
    exact mark_find valid long (fun l own => (setDeleted_of_swapLeaf own).1) finds'
  | @unmarkForDeletion _ handle key full =>
    obtain ⟨valid, finds⟩ := agrees handle
    obtain ⟨valid', finds', -⟩ := MerkleTrie.unmarkForDeletion_spec valid long full
    refine ⟨_, .unmarkForDeletion full, agrees.update valid' ?_⟩
    rw [← finds]
    exact mark_find valid long (fun l own => (setDeleted_of_swapLeaf own).2) finds'
  | @performMarkedDeletions _ handle t deleted done =>
    obtain ⟨valid, finds⟩ := agrees handle
    obtain ⟨t', done', valid', finds'⟩ := MerkleTrie.performMarkedDeletions_spec valid
    rw [done] at done'
    cases done'
    refine ⟨_, .performMarkedDeletions, agrees.update valid' (funext (fun query => ?_))⟩
    rw [finds', finds]
  | @endowSplit _ handle split threshold key taken remaining apart full done low high =>
    obtain ⟨valid, finds⟩ := agrees handle
    have result := MerkleTrie.endowSplit_spec valid long done
    have kept := result.valid
    obtain ⟨clean, same⟩ := result.cleaned key full
      (fun row listed => low row.1 (by
        rw [(Contents.lists_entries result.shaped).members row.1 row.2 |>.mp listed]
        exact Option.some_ne_none _))
      (fun row listed => high row.1 (by
        rw [(Contents.lists_entries (kept.shaped long)).members row.1 row.2 |>.mp listed]
        exact Option.some_ne_none _))
    have splits := splits_of_endowSplit valid long done
    rw [finds] at splits
    exact ⟨_, .endowSplit apart full splits low high, (agrees.update kept rfl).update clean same⟩

/-- The empty trie, or a trie all of whose nodes are canonical. -/
def MerkleTrie.AllCanonical (keyLen : Nat) (t : MerkleTrie V) : Prop :=
  Vacant keyLen t.root ∨ ∀ n, Subnode t.root n → CanonicalNode keyLen n

/-- The operations whose calls are within their contracts: keys have their full length, and a threshold
lies between zero and the endowment of a trie of positive amounts. -/
inductive Enabled (keyLen : Nat) (m : ι → Contents V) : TrieOperation ι V → Prop
  | insert {handle : ι} {insertFn : InsertFn} {key : Key} {value : V} (full : key.length = keyLen) :
      Enabled keyLen m (.insert handle insertFn key value)
  | mergeIn {handle other : ι} {mergeFn : MergeFn V} (apart : handle ≠ other) :
      Enabled keyLen m (.mergeIn handle other mergeFn)
  | performDeletion {handle : ι} {key : Key} (full : key.length = keyLen) :
      Enabled keyLen m (.performDeletion handle key)
  | markForDeletion {handle : ι} {key : Key} (full : key.length = keyLen) :
      Enabled keyLen m (.markForDeletion handle key)
  | unmarkForDeletion {handle : ι} {key : Key} (full : key.length = keyLen) :
      Enabled keyLen m (.unmarkForDeletion handle key)
  | performMarkedDeletions {handle : ι} : Enabled keyLen m (.performMarkedDeletions handle)
  | endowSplit {handle split : ι} {threshold : BitVec 64} {key : Key} {front back : List (Key × Leaf V)}
      (apart : handle ≠ split) (full : key.length = keyLen) (lists : Contents.Lists (front ++ back) (m handle))
      (funded : Funded (front ++ back)) (nonneg : 0 ≤ threshold.toInt)
      (within : threshold.toInt ≤ endowSum (front ++ back))
      (longest : LongestPrefix threshold.toInt front back) (under : ∀ row ∈ front, row.1 ≤ key)
      (excess : ∀ row ∈ back, key ≤ row.1) : Enabled keyLen m (.endowSplit handle split threshold key)

/-- No operation within its contract throws. -/
theorem Agrees.progress (long : 0 < keyLen) (agrees : Agrees keyLen w m) {op : TrieOperation ι V}
    (enabled : Enabled keyLen m op) : ∃ w', TrieStep keyLen op w w' := by
  cases enabled with
  | @insert handle insertFn key value full =>
    obtain ⟨t, done, -⟩ := MerkleTrie.insert_spec insertFn value (agrees handle).1 long full
    exact ⟨_, .insert full done⟩
  | @mergeIn handle other mergeFn apart =>
    obtain ⟨t, done, -⟩ := MerkleTrie.mergeInWith_spec mergeFn (Or.inl (agrees handle).1) (agrees other).1 long
    exact ⟨_, .mergeIn apart done⟩
  | performDeletion full => exact ⟨_, .performDeletion full⟩
  | markForDeletion full => exact ⟨_, .markForDeletion full⟩
  | unmarkForDeletion full => exact ⟨_, .unmarkForDeletion full⟩
  | @performMarkedDeletions handle =>
    obtain ⟨t, done, -⟩ := MerkleTrie.performMarkedDeletions_spec (agrees handle).1
    exact ⟨_, .performMarkedDeletions done⟩
  | @endowSplit handle split threshold key front back apart full lists funded nonneg within longest under excess =>
    obtain ⟨valid, finds⟩ := agrees handle
    rw [← finds] at lists
    have same := lists.unique (Contents.lists_entries (valid.shaped long))
    rw [same] at funded within
    obtain ⟨taken, remaining, done, result, longest'⟩ :=
      MerkleTrie.endowSplit_total valid long funded nonneg within
    obtain ⟨rfl, rfl⟩ := longest.eq (by rw [same]; exact funded.positive) longest' (same.trans result.rows.symm)
    refine ⟨_, .endowSplit apart full done (fun query found => ?_) (fun query found => ?_)⟩
    · obtain ⟨l, found⟩ := Option.ne_none_iff_exists'.mp found
      exact under _ ((Contents.lists_entries result.shaped).members query l |>.mpr found)
    · obtain ⟨l, found⟩ := Option.ne_none_iff_exists'.mp found
      exact excess _ ((Contents.lists_entries (result.valid.shaped long)).members query l |>.mpr found)

/-- Whatever is done to a set of tries that start out empty, every node of every trie is canonical, its
contents are those of a map to which the same is done, and the next operation does not throw. -/
theorem tries_refine_maps (long : 0 < keyLen) {ops : List (TrieOperation ι V)}
    (run : Runs (TrieStep keyLen) ops (fun _ => MerkleTrie.new keyLen) w) :
    ∃ m, Runs (MapStep keyLen) ops (fun _ _ => none) m ∧
      (∀ handle, (w handle).AllCanonical keyLen ∧ (w handle).find = m handle) ∧
      ∀ op, Enabled keyLen m op → ∃ w', TrieStep keyLen op w w' := by
  obtain ⟨m, run', agrees⟩ := run.simulated (fun _ _ _ _ step matched => step.simulated long matched) agrees_new
  refine ⟨m, run', fun handle => ?_, fun op enabled => agrees.progress long enabled⟩
  obtain ⟨valid, finds⟩ := agrees handle
  exact ⟨valid.imp_right (fun canonical n deep => canonical.subnodes deep), finds⟩

end Systems

section Sample

/-- An offer of ten units. -/
def tenUnits : Offer := { (default : Offer) with amount := 10 }

/-- Two tries with one offer each, one of which is merged into the other. -/
theorem tries_refine_maps_sample : ∃ w : Bool → MerkleTrie Offer, ∃ m,
    Runs (MapStep 4) [.insert false .overwrite [0, 0, 0, 0] tenUnits, .insert true .overwrite [0, 0, 1, 4] tenUnits,
      .mergeIn false true (OverwriteMergeFn Offer)] (fun _ _ => none) m ∧
      (∀ handle, (w handle).AllCanonical 4 ∧ (w handle).find = m handle) ∧
      ∀ op, Enabled 4 m op → ∃ w', TrieStep 4 op w w' :=
  ⟨_, tries_refine_maps (by decide) (.cons (.insert rfl rfl) (.cons (.insert rfl rfl)
    (.cons (.mergeIn (by decide) rfl) (.nil _))))⟩

/-- Splitting a trie of two offers between them leaves a root with a single child in the part split
off, until it is cleaned. -/
theorem endowSplit_leaves_single_child : ∃ t t' taken remaining : MerkleTrie Offer,
    (MerkleTrie.new 4).insert .overwrite [0, 0, 0, 0] tenUnits = .ok t ∧
      t.insert .overwrite [0, 0, 1, 4] tenUnits = .ok t' ∧ t'.endowSplit 4 10 = .ok (taken, remaining) ∧
      ¬ taken.AllCanonical 4 := by
  refine ⟨_, _, _, _, rfl, rfl, rfl, ?_⟩
  rintro (⟨h, vacant⟩ | canonical)
  · have child : true = false := congrArg (fun t => (TrieNode.children t 0).isSome) vacant
    cases child
  · exact absurd ((canonical _ (.self _)).inner (by decide)) (by decide)

end Sample

end Speedex
