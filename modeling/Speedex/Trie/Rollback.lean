import Speedex.Trie.HashRuns

set_option autoImplicit false

/- `do_rollback` on tries that permanent and tentative inserts have built: when it leaves the trie of the permanent
leaves, for everything that can be done with it. -/
namespace Speedex

open TrieNode

namespace TrieNode

variable {V : Type} [HashedValue V] [Inhabited V] {sha : Sha256} {required : Key → Nat → Prop} {t t' : TrieNode V}

/-- Hashing a node changes no shape. -/
theorem compactAt_computeHash (compact : t.CompactAt required) (done : computeHash sha t = .ok t') : t'.CompactAt required := by
  induction t using TrieNode.induct generalizing t' with
  | leaf key value m h =>
    cases h with
    | none =>
      rw [computeHash] at done
      cases done
      exact compactAt_leaf _ _ _ _
    | some digest =>
      rw [computeHash] at done
      cases done
      exact compact
  | node pfx len cs m h ih =>
    cases h with
    | some digest =>
      rw [computeHash] at done
      cases done
      exact compact
    | none =>
      obtain ⟨filled, two, below⟩ := (compactAt_node _ _ _ _ _).mp compact
      rw [computeHash, if_neg (by omega)] at done
      obtain ⟨hashed, whole, done⟩ := Fallible.bind_eq_ok.mp done
      cases done
      have visit := Branches.sequence_eq_ok whole
      -- a slot keeps its node, hashed or not
      have slot : ∀ b, (cs b = none ↔ hashed b = none) ∧
          ∀ c', hashed b = some c' → ∃ c, cs b = some c ∧ (c' = c ∨ computeHash sha c = .ok c') := by
        intro b
        have here := visit b
        cases at_b : cs b with
        | none =>
          rw [at_b, computeHashSlot] at here
          rw [← Except.ok.inj here]
          exact ⟨Iff.rfl, fun c' absurd => by cases absurd⟩
        | some c =>
          rw [at_b, computeHashSlot] at here
          split at here
          · cases here
          split at here
          · obtain ⟨c', step, here⟩ := Fallible.bind_eq_ok.mp here
            rw [← Except.ok.inj here]
            refine ⟨by simp, ?_⟩
            rintro _ ⟨⟩
            exact ⟨c, rfl, Or.inr step⟩
          · rw [← Except.ok.inj here]
            refine ⟨by simp, ?_⟩
            rintro _ ⟨⟩
            exact ⟨c, rfl, Or.inl rfl⟩
      have same : Branches.occupied cs = Branches.occupied hashed := Branches.occupied_congr (fun b => (slot b).1)
      rw [compactAt_node, ← same]
      refine ⟨filled, two, fun b c' occupied => ?_⟩
      obtain ⟨c, at_b, same | step⟩ := (slot b).2 c' occupied
      · rw [same]
        exact below b c at_b
      · exact ih b c at_b (below b c at_b) step

theorem compactAt_computeHashAt {path : List Digit} (compact : t.CompactAt required)
    (done : computeHashAt sha path t = .ok t') : t'.CompactAt required := by
  induction path generalizing t t' with
  | nil =>
    rw [computeHashAt] at done
    exact compactAt_computeHash compact done
  | cons d path ih =>
    cases t with
    | leaf key value m h =>
      rw [computeHashAt] at done
      cases done
      exact compact
    | node pfx len cs m h =>
      obtain ⟨filled, two, below⟩ := (compactAt_node _ _ _ _ _).mp compact
      rw [computeHashAt] at done
      cases at_d : cs d with
      | none =>
        rw [at_d] at done
        cases done
        exact compact
      | some c =>
        rw [at_d] at done
        obtain ⟨c', step, done⟩ := Fallible.bind_eq_ok.mp done
        cases done
        have same : Branches.occupied cs = Branches.occupied (Function.update cs d (some c')) := by
          apply Branches.occupied_congr
          intro b
          by_cases here : b = d
          · rw [here, Function.update_self, at_d]
            simp
          · rw [Function.update_of_ne here]
        rw [compactAt_node, ← same]
        refine ⟨filled, two, forall_update below ?_⟩
        rintro _ ⟨⟩
        exact ih (below d c at_d) step

theorem vacant_computeHash {keyLen : Nat} (vacant : Vacant keyLen t) (done : computeHash sha t = .ok t') : Vacant keyLen t' := by
  obtain ⟨h, rfl⟩ := vacant
  cases h with
  | some digest =>
    rw [computeHash] at done
    cases done
    exact ⟨_, rfl⟩
  | none =>
    have bare : Branches.occupied (Branches.empty : Fin 16 → Option (TrieNode V)) = 0 := Branches.total_empty _
    rw [computeHash, if_pos bare] at done
    cases done
    exact ⟨_, rfl⟩

theorem vacant_computeHashAt {keyLen : Nat} {path : List Digit} (vacant : Vacant keyLen t)
    (done : computeHashAt sha path t = .ok t') : Vacant keyLen t' := by
  cases path with
  | nil => exact vacant_computeHash vacant done
  | cons d path =>
    obtain ⟨h, rfl⟩ := id vacant
    rw [computeHashAt] at done
    cases done
    exact vacant

end TrieNode

namespace MerkleTrie

section Freeze

variable {V : Type} [HashedValue V] [Inhabited V] {sha : Sha256} {keyLen : Nat} {t t' : MerkleTrie V}

theorem Valid.freezeAndHash (valid : t.Valid keyLen) (hashed : t.Hashed sha keyLen) {ranges : List (List Digit)} {hash : Hash}
    (done : t.freezeAndHash sha ranges = .ok (t', hash)) : t'.Valid keyLen := by
  obtain ⟨_, done', hashed', _⟩ := freezeAndHash_spec hashed ranges
  rw [done] at done'
  cases done'
  have shape : ∀ root root' : TrieNode V, (Vacant keyLen root ∨ root.Compact) → ∀ path, computeHashAt sha path root = .ok root' →
      Vacant keyLen root' ∨ root'.Compact := fun root root' form path step =>
    form.imp (vacant_computeHashAt · step) (compactAt_computeHashAt · step)
  have form : Vacant keyLen t'.root ∨ t'.root.Compact := by
    have start : Vacant keyLen t.root ∨ t.root.Compact := valid.imp_right Canonical.compact
    rw [MerkleTrie.freezeAndHash] at done
    split at done
    · cases done
      exact start
    · obtain ⟨root, loop, done⟩ := Fallible.bind_eq_ok.mp done
      obtain ⟨root', last, done⟩ := Fallible.bind_eq_ok.mp done
      obtain ⟨_, _, done⟩ := Fallible.bind_eq_ok.mp done
      cases done
      have before : Vacant keyLen root ∨ root.Compact :=
        Fallible.foldlM_invariant (fun _ root => Vacant keyLen root ∨ root.Compact) start loop
          (fun _ path root root' _ form step => shape root root' form path step)
      exact before.imp (vacant_computeHash · last) (compactAt_computeHash · last)
  exact form.imp_right (fun compact => ⟨hashed'.shaped, compact⟩)

end Freeze

section Built

variable {V : Type} [HashedValue V] [Inhabited V]

/-- The tries that inserts, merges and hashing build; an insert with `RollbackInsertFn` is tentative. -/
inductive Built (sha : Sha256) (keyLen : Nat) : MerkleTrie V → Prop
  | new : Built sha keyLen (new keyLen)
  | insert {t t' : MerkleTrie V} {insertFn : InsertFn} {key : Key} {value : V} (built : Built sha keyLen t)
      (full : key.length = keyLen) (done : t.insert insertFn key value = .ok t') : Built sha keyLen t'
  | mergeIn {t other t' : MerkleTrie V} (built : Built sha keyLen t) (built' : Built sha keyLen other)
      (done : t.mergeIn other = .ok t') : Built sha keyLen t'
  | freezeAndHash {t t' : MerkleTrie V} {ranges : List (List Digit)} {hash : Hash} (built : Built sha keyLen t)
      (done : t.freezeAndHash sha ranges = .ok (t', hash)) : Built sha keyLen t'

/-- The contents and the cached hashes of a trie that was built. -/
structure Intact (sha : Sha256) (keyLen : Nat) (t : MerkleTrie V) : Prop where
  valid : t.Valid keyLen
  hashed : t.Hashed sha keyLen
  plain : ∀ key l, t.find key = some l → l.metadata = Metadata.ofValue l.value ∨ l.marked .rollback = true

variable {sha : Sha256} {keyLen : Nat} {t t' : MerkleTrie V}

omit [Inhabited V] in
theorem marked_rollback (value : V) : (⟨value, InsertFn.rollback.newMetadata value⟩ : Leaf V).marked .rollback = true := by
  rw [Leaf.marked]
  exact decide_eq_true rfl

theorem Built.intact (long : 0 < keyLen) (built : Built sha keyLen t) : t.Intact sha keyLen := by
  induction built with
  | new => exact ⟨valid_new keyLen, hashed_new long, fun key l found => by rw [find_new] at found; cases found⟩
  | @insert t t' insertFn key value _ full done ih =>
    obtain ⟨_, done', valid, finds⟩ := insert_spec insertFn value ih.valid long full
    rw [done] at done'
    cases done'
    refine ⟨valid, ih.hashed.insert long full done, fun query l found => ?_⟩
    rw [finds] at found
    split at found
    · cases found
      cases insertFn with
      | overwrite => exact Or.inl rfl
      | rollback => exact Or.inr (marked_rollback value)
    · exact ih.plain query l found
  | mergeIn _ _ done ih ih' =>
    obtain ⟨_, done', valid, finds⟩ := mergeIn_spec (Or.inl ih.valid) ih'.valid long
    rw [done] at done'
    cases done'
    refine ⟨valid, ih.hashed.mergeInWith ih'.hashed long done, fun query l found => ?_⟩
    rw [finds] at found
    rcases Option.or_eq_some_iff.mp found with there | ⟨-, here⟩
    · exact ih'.plain query l there
    · exact ih.plain query l here
  | freezeAndHash _ done ih =>
    obtain ⟨_, done', hashed, finds⟩ := freezeAndHash_spec ih.hashed _
    have same := done
    rw [done'] at done
    cases done
    exact ⟨ih.valid.freezeAndHash ih.hashed same, hashed, fun query l found => ih.plain query l (finds ▸ found)⟩

/-- What may be done with a trie after a rollback. -/
inductive LaterOperation (sha : Sha256) (keyLen : Nat) (V : Type) [HashedValue V] [Inhabited V] where
  | insert (insertFn : InsertFn) (key : Key) (value : V) (full : key.length = keyLen)
  | mergeIn (other : MerkleTrie V) (built : Built sha keyLen other)
  | freezeAndHash (ranges : List (List Digit))

/-- The operations one after the other, with the hashes that they return. -/
def later : List (LaterOperation sha keyLen V) → MerkleTrie V → Except String (MerkleTrie V × List Hash)
  | [], t => .ok (t, [])
  | .insert insertFn key value _ :: ops, t => do
    let t ← t.insert insertFn key value
    later ops t
  | .mergeIn other _ :: ops, t => do
    let t ← t.mergeIn other
    later ops t
  | .freezeAndHash ranges :: ops, t => do
    let (t, hash) ← t.freezeAndHash sha ranges
    let (t, hashes) ← later ops t
    .ok (t, hash :: hashes)

/-- Tries that hold the same leaves behave alike. -/
theorem later_congr (long : 0 < keyLen) {u : MerkleTrie V} (valid : t.Valid keyLen) (valid' : u.Valid keyLen)
    (hashed : t.Hashed sha keyLen) (hashed' : u.Hashed sha keyLen) (same : ∀ query, t.find query = u.find query)
    (ops : List (LaterOperation sha keyLen V)) :
    ∃ t' u' hashes, later ops t = .ok (t', hashes) ∧ later ops u = .ok (u', hashes) ∧ t'.Valid keyLen ∧ u'.Valid keyLen ∧
      ∀ query, t'.find query = u'.find query := by
  induction ops generalizing t u with
  | nil => exact ⟨t, u, [], rfl, rfl, valid, valid', same⟩
  | cons op ops ih =>
    cases op with
    | insert insertFn key value full =>
      obtain ⟨t', done, validT, findsT⟩ := insert_spec insertFn value valid long full
      obtain ⟨u', done', validU, findsU⟩ := insert_spec insertFn value valid' long full
      obtain ⟨t'', u'', hashes, rest, rest', all⟩ := ih validT validU (hashed.insert long full done) (hashed'.insert long full done')
        (fun query => by rw [findsT, findsU, same])
      exact ⟨t'', u'', hashes, Fallible.bind_eq_ok.mpr ⟨t', done, rest⟩, Fallible.bind_eq_ok.mpr ⟨u', done', rest'⟩, all⟩
    | mergeIn other built =>
      have intact := built.intact long
      obtain ⟨t', done, validT, findsT⟩ := mergeIn_spec (Or.inl valid) intact.valid long
      obtain ⟨u', done', validU, findsU⟩ := mergeIn_spec (Or.inl valid') intact.valid long
      obtain ⟨t'', u'', hashes, rest, rest', all⟩ := ih validT validU (hashed.mergeInWith intact.hashed long done)
        (hashed'.mergeInWith intact.hashed long done') (fun query => by rw [findsT, findsU, same])
      exact ⟨t'', u'', hashes, Fallible.bind_eq_ok.mpr ⟨t', done, rest⟩, Fallible.bind_eq_ok.mpr ⟨u', done', rest'⟩, all⟩
    | freezeAndHash ranges =>
      have live : u.liveFind = t.liveFind := liveFind_congr (funext (fun query => (same query).symm))
      obtain ⟨t', done, hashedT, findsT⟩ := freezeAndHash_spec hashed ranges
      obtain ⟨u', done', hashedU, findsU⟩ := freezeAndHash_spec hashed' ranges
      rw [live] at done'
      obtain ⟨t'', u'', hashes, rest, rest', all⟩ := ih (valid.freezeAndHash hashed done) (valid'.freezeAndHash hashed' done')
        hashedT hashedU (fun query => by rw [findsT, findsU, same])
      refine ⟨t'', u'', contentsRoot sha keyLen t.liveFind :: hashes, Fallible.bind_eq_ok.mpr ⟨_, done, ?_⟩,
        Fallible.bind_eq_ok.mpr ⟨_, done', ?_⟩, all⟩
      · exact Fallible.bind_eq_ok.mpr ⟨_, rest, rfl⟩
      · exact Fallible.bind_eq_ok.mpr ⟨_, rest', rfl⟩

/-- The leaves that are not tentative. -/
def permanentPairs (t : MerkleTrie V) : List (Key × V) :=
  (t.entries.filter (fun row => !row.2.marked .rollback)).map (fun row => (row.1, row.2.value))

/-- What `do_rollback` is to do: it leaves the permanent leaves, in canonical form, the cached hash is not one of other
leaves, and from then on the trie behaves as one into which only these leaves were inserted. -/
def RollsBack (sha : Sha256) (keyLen : Nat) (t : MerkleTrie V) : Prop :=
  ∃ t', t.doRollback = .ok t' ∧ t'.Valid keyLen ∧
    (∀ query, t'.find query = (t.find query).filter (fun l => !l.marked .rollback)) ∧
    (t'.hash = none ∨ t'.find = t.find) ∧
    ∃ fresh, t.permanentPairs.foldlM (fun t pair => t.insert .overwrite pair.1 pair.2) (MerkleTrie.new keyLen) = .ok fresh ∧
      ∀ ops : List (LaterOperation sha keyLen V), ∃ u u' hashes, later ops t' = .ok (u, hashes) ∧
        later ops fresh = .ok (u', hashes) ∧ u.Valid keyLen ∧ u'.Valid keyLen ∧ ∀ query, u.find query = u'.find query

theorem mem_permanentPairs (intact : t.Intact sha keyLen) (long : 0 < keyLen) {key : Key} {value : V} :
    (key, value) ∈ t.permanentPairs ↔ (t.find key).filter (fun l => !l.marked .rollback) = some ⟨value, Metadata.ofValue value⟩ := by
  rw [permanentPairs, List.mem_map]
  constructor
  · rintro ⟨⟨key', l⟩, listed, same⟩
    obtain ⟨here, kept⟩ := List.mem_filter.mp listed
    cases same
    have found := (mem_entries intact.valid long).mp here
    obtain ⟨value, m⟩ := l
    have plain : m = Metadata.ofValue value :=
      (intact.plain key' _ found).resolve_right (fun tentative => by rw [tentative] at kept; cases kept)
    show (t.find key').filter _ = some ⟨value, Metadata.ofValue value⟩
    rw [found, plain]
    exact Option.filter_some_pos (plain ▸ kept)
  · intro found
    obtain ⟨found, kept⟩ := Option.filter_eq_some_iff.mp found
    exact ⟨(key, _), List.mem_filter.mpr ⟨(mem_entries intact.valid long).mpr found, kept⟩, rfl⟩

/-- A rollback that leaves the permanent leaves is as if there had been no others. -/
theorem rollsBack_of_find (long : 0 < keyLen) (intact : t.Intact sha keyLen) (done : t.doRollback = .ok t')
    (valid : t'.Valid keyLen) (hashed : t'.Hashed sha keyLen)
    (finds : ∀ query, t'.find query = (t.find query).filter (fun l => !l.marked .rollback))
    (fresh : t'.hash = none ∨ t'.find = t.find) : t.RollsBack sha keyLen := by
  have full : ∀ pair ∈ t.permanentPairs, pair.1.length = keyLen := by
    intro pair listed
    exact find_key_length valid long ((finds pair.1).trans ((mem_permanentPairs intact long).mp listed))
  have once : ∀ key value value', (key, value) ∈ t.permanentPairs → (key, value') ∈ t.permanentPairs → value' = value := by
    intro key value value' here there
    have same := ((mem_permanentPairs intact long).mp there).symm.trans ((mem_permanentPairs intact long).mp here)
    exact congrArg Leaf.value (Option.some.inj same)
  obtain ⟨u, built, validU, hashedU, lists⟩ := @insert_lists _ _ sha keyLen _ long .overwrite t.permanentPairs full once
  refine ⟨t', done, valid, finds, fresh, u, built, later_congr long valid validU hashed hashedU (fun query => ?_)⟩
  cases found : t'.find query with
  | none =>
    refine (lists.absent query (fun value listed => ?_)).symm
    have there := (mem_permanentPairs intact long).mp listed
    rw [← finds, found] at there
    cases there
  | some l =>
    obtain ⟨before, kept⟩ := Option.filter_eq_some_iff.mp ((finds query).symm.trans found)
    obtain ⟨value, m⟩ := l
    have plain : m = Metadata.ofValue value :=
      (intact.plain query _ before).resolve_right (fun tentative => by rw [tentative] at kept; cases kept)
    have listed : (query, value) ∈ t.permanentPairs :=
      (mem_permanentPairs intact long).mpr (by rw [← finds, found, plain])
    rw [lists.present _ listed, plain]
    rfl

omit [HashedValue V] [Inhabited V] in
theorem doRollback_hash (done : t.doRollback = .ok t') : t'.hash = t.hash := by
  obtain ⟨_, _, done⟩ := Fallible.bind_eq_ok.mp done
  cases done
  rfl

/-- `do_rollback` does what it should unless it finds a valid root hash above a tentative leaf, which it does not
invalidate, or drops all leaves of a trie whose root has a prefix, which stays. -/
theorem rollsBack_iff (long : 0 < keyLen) (built : Built sha keyLen t) : t.RollsBack sha keyLen ↔
    (t.hash = none ∨ ∀ key l, t.find key = some l → l.marked .rollback = false) ∧
      ((∃ key l, t.find key = some l ∧ l.marked .rollback = false) ∨ t.root.prefixLen = 0) := by
  have intact := built.intact long
  have valid := intact.valid
  by_cases none : ∀ key l, t.find key = some l → l.marked .rollback = false
  · -- without tentative leaves nothing happens
    have finds : ∀ query, t.find query = (t.find query).filter (fun l => !l.marked .rollback) := by
      intro query
      cases found : t.find query with
      | none => rfl
      | some l => rw [Option.filter_some_pos (by rw [none query l found]; rfl)]
    refine iff_of_true (rollsBack_of_find long intact (doRollback_unmarked valid long none) valid intact.hashed finds (Or.inr rfl))
      ⟨Or.inr none, ?_⟩
    rcases valid with ⟨h, shape⟩ | canonical
    · exact Or.inr (by rw [shape]; rfl)
    · obtain ⟨row, listed⟩ := List.exists_mem_of_ne_nil _ (CompactAt.entries_ne_nil canonical.compact)
      have found := (mem_entries_iff canonical.shaped).mp (show (row.1, row.2) ∈ t.root.entries from listed)
      exact Or.inl ⟨row.1, row.2, found, none _ _ found⟩
  · push Not at none
    obtain ⟨gone, tentative, found, marked⟩ := none
    have marked : tentative.marked .rollback = true := by
      rw [← Bool.not_eq_false]
      exact marked
    have canonical : Canonical keyLen t.root := by
      refine valid.resolve_left (fun vacant => ?_)
      rw [MerkleTrie.find, find_of_vacant vacant] at found
      cases found
    have drops : (t.find gone).filter (fun l => !l.marked .rollback) = .none := by
      rw [found, Option.filter_some_neg (by rw [marked]; decide)]
    constructor
    · rintro ⟨t', done, valid', finds, fresh, -⟩
      refine ⟨Or.inl ?_, ?_⟩
      · rcases fresh with invalid | same
        · rw [← doRollback_hash done]
          exact invalid
        · have absurd := finds gone
          rw [same, drops, found] at absurd
          cases absurd
      · by_contra neither
        push Not at neither
        obtain ⟨all, deep⟩ := neither
        have all : ∀ key l, t.find key = some l → l.marked .rollback = true := by
          intro key l found
          rw [← Bool.not_eq_false]
          exact all key l found
        rw [doRollback_all canonical all] at done
        cases done
        cases shape : t.root with
        | leaf key value m h =>
          -- a root that is a leaf is still there
          have stays := finds gone
          rw [drops] at stays
          rw [MerkleTrie.find, shape, find_leaf] at found
          rw [MerkleTrie.find, shape, childless, find_leaf] at stays
          split at found
          · rename_i here
            rw [if_pos here] at stays
            cases stays
          · cases found
        | node pfx len cs m h =>
          -- a root without children is in no form that a trie can have
          rw [Valid, shape, childless] at valid'
          rcases valid' with ⟨h', vacant⟩ | canonical'
          · rw [shape] at deep
            cases vacant
            exact deep rfl
          · have two := (compact_node.mp canonical'.compact).1
            rw [Branches.occupied, Branches.total_empty] at two
            omega
    · rintro ⟨fresh, rest⟩
      have invalid : t.hash = .none := fresh.resolve_right (fun all => by
        rw [all gone tentative found] at marked
        cases marked)
      have leaves : ∀ {t' : MerkleTrie V}, t.doRollback = .ok t' → t'.Valid keyLen →
          (∀ query, t'.find query = (t.find query).filter (fun l => !l.marked .rollback)) → t.RollsBack sha keyLen :=
        fun done valid' finds => rollsBack_of_find long intact done valid' (intact.hashed.doRollback done (Or.inl invalid)) finds
          (Or.inl ((doRollback_hash done).trans invalid))
      by_cases kept : ∃ key l, t.find key = some l ∧ l.marked .rollback = false
      · obtain ⟨key, l, here, kept⟩ := kept
        obtain ⟨t', done, valid', finds⟩ := doRollback_kept canonical here kept
        exact leaves done valid' finds
      · have all : ∀ key l, t.find key = some l → l.marked .rollback = true := by
          intro key l found
          rw [← Bool.not_eq_false]
          exact fun unmarked => kept ⟨key, l, found, unmarked⟩
        have top := rest.resolve_left kept
        have done := doRollback_all canonical all
        have shaped := canonical.shaped
        cases shape : t.root with
        | leaf key value m h =>
          rw [shape] at top shaped
          have full := shaped.pfx_length
          rw [leaf_pfx] at full
          rw [leaf_prefixLen] at top
          omega
        | node pfx len cs m h =>
          rw [shape] at top shaped
          rw [node_prefixLen] at top
          subst top
          have zeros : pfx = List.replicate keyLen 0 := by
            have cut := shaped.truncate_pfx
            have full := shaped.pfx_length
            rw [node_pfx] at full
            rw [node_pfx, node_prefixLen, Digits.truncate, full] at cut
            exact cut.symm
          rw [shape, childless, zeros] at done
          refine leaves done (Or.inl ⟨none, rfl⟩) (fun query => ?_)
          rw [MerkleTrie.find, find_bare]
          cases found : t.find query with
          | none => rfl
          | some l => exact (Option.filter_some_neg (by rw [all query l found]; decide)).symm

end Built

section Offers

/-- Two offers, of which one is tentative. -/
theorem rollsBack_sample : ∃ t : MerkleTrie Offer, Built sha256 4 t ∧ (t.RollsBack sha256 4 ↔
    (t.hash = none ∨ ∀ key l, t.find key = some l → l.marked .rollback = false) ∧
      ((∃ key l, t.find key = some l ∧ l.marked .rollback = false) ∨ t.root.prefixLen = 0)) := by
  obtain ⟨t, first⟩ : ∃ t : MerkleTrie Offer, (MerkleTrie.new 4).insert .overwrite [0, 0, 0, 0] tenUnits = .ok t := ⟨_, rfl⟩
  have built : Built sha256 4 t := .insert .new rfl first
  obtain ⟨t', second, -⟩ := @insert_spec _ _ 4 t [0, 0, 1, 4] .rollback tenUnits (built.intact (by decide)).valid (by decide) rfl
  have built' : Built sha256 4 t' := .insert built rfl second
  exact ⟨t', built', rollsBack_iff (by decide) built'⟩

/-- A tentative offer that is alone in its trie stays there. -/
theorem doRollback_keeps_tentative : ∃ t t' : MerkleTrie Offer, ∃ l,
    (MerkleTrie.new 4).insert .rollback [0, 0, 0, 0] tenUnits = .ok t ∧ t.doRollback = .ok t' ∧
      t'.find [0, 0, 0, 0] = some l ∧ l.marked .rollback = true :=
  ⟨_, _, _, rfl, rfl, rfl, by decide⟩

end Offers

end MerkleTrie

end Speedex
