import Speedex.Library.Simulation
import Speedex.Trie.RootHash

set_option autoImplicit false

/- The hashes of tries over their whole lives. Four operations leave a root hash valid that may be out
of date; where they do no harm, every hash is that of the live contents. -/
namespace Speedex

open TrieNode Simulation

section Runs

variable {ι V : Type} [DecidableEq ι] [HashedValue V] [Inhabited V]

/-- The operations on tries that are known by their handles. The trie that `merge_in` moves from is
cleared; the one that `endow_split` returns is used as it is. -/
inductive HashedOperation (ι V : Type) [TrieValue V] where
  | insert (handle : ι) (insertFn : InsertFn) (key : Key) (value : V)
  | mergeIn (handle other : ι) (mergeFn : MergeFn V)
  | performDeletion (handle : ι) (key : Key)
  | markForDeletion (handle : ι) (key : Key)
  | unmarkForDeletion (handle : ι) (key : Key)
  | markSubtreeLtKeyForDeletion (handle : ι) (maxKey : Key)
  | markEntireTreeForDeletion (handle : ι)
  | clearMarkedDeletions (handle : ι)
  | performMarkedDeletions (handle : ι)
  | endowSplit (handle split : ι) (threshold : BitVec 64)
  | doRollback (handle : ι)
  | freezeAndHash (handle : ι) (ranges : List (List Digit))

/-- What the operations do, for tries with or without locks on their nodes. -/
inductive HashedStep (sha : Sha256) (keyLen : Nat) (useLocks : Bool) :
    HashedOperation ι V → (ι → MerkleTrie V) → (ι → MerkleTrie V) → Prop
  | insert {w : ι → MerkleTrie V} {handle : ι} {insertFn : InsertFn} {key : Key} {value : V} {t : MerkleTrie V}
      (full : key.length = keyLen) (done : (w handle).insert insertFn key value = .ok t) :
      HashedStep sha keyLen useLocks (.insert handle insertFn key value) w (Function.update w handle t)
  | mergeIn {w : ι → MerkleTrie V} {handle other : ι} {mergeFn : MergeFn V} {t : MerkleTrie V}
      (apart : handle ≠ other) (done : (w handle).mergeInWith mergeFn (w other) = .ok t) :
      HashedStep sha keyLen useLocks (.mergeIn handle other mergeFn) w
        (Function.update (Function.update w handle t) other ((w other).clear keyLen))
  | performDeletion {w : ι → MerkleTrie V} {handle : ι} {key : Key} (full : key.length = keyLen) :
      HashedStep sha keyLen useLocks (.performDeletion handle key) w
        (Function.update w handle ((w handle).performDeletion keyLen key).1)
  | markForDeletion {w : ι → MerkleTrie V} {handle : ι} {key : Key} (full : key.length = keyLen) :
      HashedStep sha keyLen useLocks (.markForDeletion handle key) w
        (Function.update w handle ((w handle).markForDeletion key).1)
  | unmarkForDeletion {w : ι → MerkleTrie V} {handle : ι} {key : Key} (full : key.length = keyLen) :
      HashedStep sha keyLen useLocks (.unmarkForDeletion handle key) w
        (Function.update w handle ((w handle).unmarkForDeletion key).1)
  | markSubtreeLtKeyForDeletion {w : ι → MerkleTrie V} {handle : ι} {maxKey : Key} (full : maxKey.length = keyLen) :
      HashedStep sha keyLen useLocks (.markSubtreeLtKeyForDeletion handle maxKey) w
        (Function.update w handle ((w handle).markSubtreeLtKeyForDeletion useLocks maxKey))
  | markEntireTreeForDeletion {w : ι → MerkleTrie V} {handle : ι} :
      HashedStep sha keyLen useLocks (.markEntireTreeForDeletion handle) w
        (Function.update w handle (w handle).markEntireTreeForDeletion)
  | clearMarkedDeletions {w : ι → MerkleTrie V} {handle : ι} :
      HashedStep sha keyLen useLocks (.clearMarkedDeletions handle) w
        (Function.update w handle (w handle).clearMarkedDeletions)
  | performMarkedDeletions {w : ι → MerkleTrie V} {handle : ι} {t : MerkleTrie V} {deleted : List (Key × V)}
      (done : (w handle).performMarkedDeletions keyLen = .ok (t, deleted)) :
      HashedStep sha keyLen useLocks (.performMarkedDeletions handle) w (Function.update w handle t)
  | endowSplit {w : ι → MerkleTrie V} {handle split : ι} {threshold : BitVec 64} {taken remaining : MerkleTrie V}
      (apart : handle ≠ split) (done : (w handle).endowSplit keyLen threshold = .ok (taken, remaining)) :
      HashedStep sha keyLen useLocks (.endowSplit handle split threshold) w
        (Function.update (Function.update w handle remaining) split taken)
  | doRollback {w : ι → MerkleTrie V} {handle : ι} {t : MerkleTrie V} (done : (w handle).doRollback = .ok t) :
      HashedStep sha keyLen useLocks (.doRollback handle) w (Function.update w handle t)
  | freezeAndHash {w : ι → MerkleTrie V} {handle : ι} {ranges : List (List Digit)} {t : MerkleTrie V} {hash : Hash}
      (done : (w handle).freezeAndHash sha ranges = .ok (t, hash)) :
      HashedStep sha keyLen useLocks (.freezeAndHash handle ranges) w (Function.update w handle t)

/-- Four operations leave the hash of the trie valid. They find it invalid, or they change nothing that
counts: they mark leaves that are marked, unmark none, or roll back leaves that are marked. Removing
marks leaves the hashes of nodes valid, too, so these may not be valid above a marked leaf. -/
def Fresh (keyLen : Nat) (w : ι → MerkleTrie V) : HashedOperation ι V → Prop
  | .markSubtreeLtKeyForDeletion handle maxKey => (w handle).hash = none ∨
      ∀ key l, (w handle).find key = some l → key < maxKey → l.marked .deleted = true
  | .markEntireTreeForDeletion handle => (w handle).hash = none ∨
      ∀ key l, (w handle).find key = some l → l.marked .deleted = true
  | .clearMarkedDeletions handle => (w handle).root.ColdAboveMarks keyLen ∧ ((w handle).hash = none ∨
      ∀ key l, (w handle).find key = some l → l.marked .deleted = false)
  | .doRollback handle => (w handle).hash = none ∨
      ∀ key l, (w handle).find key = some l → l.marked .rollback = true → l.marked .deleted = true
  | _ => True

variable {sha : Sha256} {keyLen : Nat} {useLocks : Bool} {w w' : ι → MerkleTrie V}

theorem hashed_update {handle : ι} {t : MerkleTrie V} (all : ∀ handle, (w handle).Hashed sha keyLen)
    (hashed : t.Hashed sha keyLen) : ∀ h, (Function.update w handle t h).Hashed sha keyLen := by
  intro h
  by_cases here : h = handle
  · rw [here, Function.update_self]
    exact hashed
  · rw [Function.update_of_ne here]
    exact all h

/-- One operation keeps the valid hashes of all tries right. -/
theorem HashedStep.hashed (long : 0 < keyLen) {op : HashedOperation ι V} (step : HashedStep sha keyLen useLocks op w w')
    (fresh : Fresh keyLen w op) (all : ∀ handle, (w handle).Hashed sha keyLen) :
    ∀ handle, (w' handle).Hashed sha keyLen := by
  cases step with
  | insert full done => exact hashed_update all ((all _).insert long full done)
  | mergeIn apart done =>
    exact hashed_update (hashed_update all ((all _).mergeInWith (all _) long done)) (MerkleTrie.hashed_new long)
  | performDeletion full => exact hashed_update all ((all _).performDeletion long full)
  | markForDeletion full => exact hashed_update all ((all _).withMark (Or.inr rfl) full)
  | unmarkForDeletion full => exact hashed_update all ((all _).withMark (Or.inl rfl) full)
  | markSubtreeLtKeyForDeletion full => exact hashed_update all ((all _).markSubtreeLtKey full fresh)
  | markEntireTreeForDeletion => exact hashed_update all ((all _).markEntireTree fresh)
  | clearMarkedDeletions => exact hashed_update all ((all _).clearMarkedDeletions fresh.1 fresh.2)
  | performMarkedDeletions done => exact hashed_update all ((all _).performMarkedDeletions long done)
  | endowSplit apart done =>
    obtain ⟨taken, remaining⟩ := (all _).endowSplit long done
    exact hashed_update (hashed_update all remaining) taken
  | doRollback done => exact hashed_update all ((all _).doRollback done fresh)
  | @freezeAndHash _ handle ranges t hash done =>
    obtain ⟨t', done', hashed, -⟩ := MerkleTrie.freezeAndHash_spec (all handle) ranges
    rw [done] at done'
    cases done'
    exact hashed_update all hashed

/-- The hash of a trie is the hash of a fresh trie with its live keys and values. -/
def HashOfLive (sha : Sha256) (keyLen : Nat) (t : MerkleTrie V) : Prop :=
  ∃ hash, (∀ ranges, ∃ t', t.freezeAndHash sha ranges = .ok (t', hash)) ∧
    (∃ pairs : List (Key × V), ∀ key value, (key, value) ∈ pairs ↔ t.liveFind key = some value) ∧
    ∀ (pairs : List (Key × V)) (insertFn : InsertFn) (ranges : List (List Digit)),
      (∀ key value, (key, value) ∈ pairs ↔ t.liveFind key = some value) → ∃ fresh fresh',
        pairs.foldlM (fun t pair => t.insert insertFn pair.1 pair.2) (MerkleTrie.new keyLen) = .ok fresh ∧
        fresh.freezeAndHash sha ranges = .ok (fresh', hash)

theorem MerkleTrie.Hashed.hashOfLive {t : MerkleTrie V} (hashed : t.Hashed sha keyLen) (long : 0 < keyLen) :
    HashOfLive sha keyLen t := by
  refine ⟨contentsRoot sha keyLen t.liveFind, fun ranges => ?_, ?_, fun pairs insertFn ranges listed => ?_⟩
  · obtain ⟨t', done, -⟩ := MerkleTrie.freezeAndHash_spec hashed ranges
    exact ⟨t', done⟩
  · refine ⟨t.root.liveRows.map (fun row => (row.1, row.2.value)), fun key value => ?_⟩
    rw [List.mem_map]
    constructor
    · rintro ⟨⟨key, l⟩, listed, same⟩
      cases same
      obtain ⟨found, unmarked⟩ := (mem_liveRows hashed.shaped).mp listed
      rw [MerkleTrie.liveFind, TrieNode.liveFind, found, Option.filter_some_pos (by rw [unmarked]; rfl)]
      rfl
    · intro live
      obtain ⟨l, found, unmarked, same⟩ := @liveFind_ne_none _ t.root key
        (by rw [show t.root.liveFind key = _ from live]; exact Option.some_ne_none _)
      rw [show t.root.liveFind key = _ from live] at same
      exact ⟨(key, l), (mem_liveRows hashed.shaped).mpr ⟨found, unmarked⟩, by rw [Option.some.inj same]⟩
  · have full : ∀ pair ∈ pairs, pair.1.length = keyLen := by
      intro pair here
      have live := (listed pair.1 pair.2).mp here
      exact (@liveFind_under _ _ _ _ hashed.shaped pair.1
        (by rw [show t.root.liveFind pair.1 = _ from live]; exact Option.some_ne_none _)).1
    obtain ⟨fresh, built, hashed', same⟩ := @MerkleTrie.insert_all _ _ sha _ _ long insertFn _ _ full listed
    obtain ⟨fresh', done, -⟩ := MerkleTrie.freezeAndHash_spec hashed' ranges
    rw [same] at done
    exact ⟨fresh, fresh', built, done⟩

/-- Where no operation takes a valid hash for one that is up to date, every hash of every run is the hash
of the live contents. -/
theorem hash_never_stale (long : 0 < keyLen) {ops : List (HashedOperation ι V)}
    (run : Runs (fun op w w' => HashedStep sha keyLen useLocks op w w' ∧ Fresh keyLen w op) ops
      (fun _ => MerkleTrie.new keyLen) w) (handle : ι) : HashOfLive sha keyLen (w handle) := by
  have hashed : ∀ handle, (w handle).Hashed sha keyLen :=
    run.invariant (fun _ _ _ step all => step.1.hashed long step.2 all) (fun _ => MerkleTrie.hashed_new long)
  exact (hashed handle).hashOfLive long

end Runs

section Offers

def OfferType.code : OfferType → BitVec 32
  | .sell => 0
  | .other code => code

/-- The XDR form of an offer. -/
def Offer.xdr (offer : Offer) : List Bytes.Byte :=
  Bytes.bigEndian 4 offer.category.sellAsset.toNat ++ Bytes.bigEndian 4 offer.category.buyAsset.toNat ++
    Bytes.bigEndian 4 offer.category.type.code.toNat ++ Bytes.bigEndian 8 offer.offerId.toNat ++
    Bytes.bigEndian 8 offer.owner.toNat ++ Bytes.bigEndian 8 offer.amount.toNat ++ Bytes.bigEndian 8 offer.minPrice.toNat

instance : HashedValue Offer := ⟨Offer.xdr⟩

/-- Two offers are hashed, one of them is marked, and then both are. -/
theorem hash_never_stale_sample : ∃ w : Unit → MerkleTrie Offer,
    Runs (fun op w w' => HashedStep sha256 4 true op w w' ∧ Fresh 4 w op)
      [.insert () .overwrite [0, 0, 0, 0] tenUnits, .insert () .overwrite [0, 0, 1, 4] tenUnits,
        .freezeAndHash () [[0]], .markForDeletion () [0, 0, 0, 0], .markEntireTreeForDeletion ()]
      (fun _ => MerkleTrie.new 4) w ∧ HashOfLive sha256 4 (w ()) := by
  have run : ∃ w : Unit → MerkleTrie Offer, Runs (fun op w w' => HashedStep sha256 4 true op w w' ∧ Fresh 4 w op)
      [.insert () .overwrite [0, 0, 0, 0] tenUnits, .insert () .overwrite [0, 0, 1, 4] tenUnits,
        .freezeAndHash () [[0]], .markForDeletion () [0, 0, 0, 0], .markEntireTreeForDeletion ()]
      (fun _ => MerkleTrie.new 4) w :=
    ⟨_, .cons ⟨.insert rfl rfl, trivial⟩ (.cons ⟨.insert rfl rfl, trivial⟩ (.cons ⟨.freezeAndHash rfl, trivial⟩
      (.cons ⟨.markForDeletion rfl, trivial⟩ (.cons ⟨.markEntireTreeForDeletion, Or.inl rfl⟩ (.nil _)))))⟩
  obtain ⟨w, run⟩ := run
  exact ⟨w, run, hash_never_stale (by decide) run ()⟩

/-- Marking a whole trie after it was hashed: the old hash is returned for a trie without live offers. -/
theorem mark_after_freeze_stale : ∃ (t t' t'' fresh : MerkleTrie Offer) (hash hash' : Hash),
    (MerkleTrie.new 4).insert .overwrite [0, 0, 0, 0] tenUnits = .ok t ∧
      t.freezeAndHash sha256 [] = .ok (t', hash) ∧
      t'.markEntireTreeForDeletion.freezeAndHash sha256 [] = .ok (t'', hash) ∧
      (∀ key, t'.markEntireTreeForDeletion.liveFind key = none) ∧
      (MerkleTrie.new 4).freezeAndHash sha256 [] = .ok (fresh, hash') ∧ hash ≠ hash' := by
  refine ⟨_, _, _, _, _, _, rfl, rfl, rfl, fun key => ?_, rfl, by decide +kernel⟩
  exact (liveFind_leaf key).trans (if_neg (fun both => both.2 rfl))

end Offers

end Speedex
