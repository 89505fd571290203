import Speedex.Unit.Commit

set_option autoImplicit false

/- `do_rollback` at the root, and what `rollback_validation` makes of it. -/
namespace Speedex

open TrieNode MerkleWorkUnit

/-- `do_rollback` keeps a root that it should erase. It does no harm unless the root is a single
new offer, or is left at a prefix where a cancelled offer has to come back. -/
def RootSafe (find : Key → Option (Leaf Offer)) (deletedKeys : List (Key × Offer)) : Prop :=
  (∃ key l, find key = some l ∧ l.marked .rollback = false) ∨ (∀ key, find key = none) ∨
    ∃ x y, find x ≠ none ∧ find y ≠ none ∧ x ≠ y ∧ (deletedKeys = [] ∨ Digits.digit x 0 ≠ Digits.digit y 0)

section DoRollback

variable {book : OfferTrie} {deletedKeys : List (Key × Offer)}

theorem filter_tentative {find : Key → Option (Leaf Offer)}
    (all : ∀ key l, find key = some l → l.marked .rollback = true) (key : Key) :
    (find key).filter (fun l => !l.marked .rollback) = none := by
  cases found : find key with
  | none => rfl
  | some l => exact Option.filter_some_neg (by simp [all key l found])

section Root

variable {p : Key} {l : Nat} {cs : Fin 16 → Option (TrieNode Offer)} {m : Metadata} {h : Option Hash}

/-- The root that `do_rollback` leaves of an inner node without any offer to keep. -/
theorem shaped_childless (shaped : Shaped workUnitKeyLen (.node p l cs m h)) :
    Shaped workUnitKeyLen (childless (.node p l cs m h)) := by
  cases shaped with
  | node inner full zeros shaped placed sum =>
    exact .node inner full zeros nofun nofun (Branches.total_empty _).symm

theorem vacant_childless (shaped : Shaped workUnitKeyLen (.node p l cs m h)) (top : l = 0) :
    Vacant workUnitKeyLen (childless (.node p l cs m h)) := by
  have zeros := shaped.truncate_pfx
  have full := shaped.pfx_length
  rw [node_pfx] at full zeros
  rw [node_prefixLen, top, Digits.truncate, full] at zeros
  exact ⟨none, by rw [childless, top, ← zeros]; rfl⟩

/-- A compact inner node holds two keys, which part at its prefix length. -/
theorem two_keys (canonical : Canonical workUnitKeyLen (.node p l cs m h)) :
    ∃ x y, find (.node p l cs m h) x ≠ none ∧ find (.node p l cs m h) y ≠ none ∧ x ≠ y ∧
      (l = 0 → Digits.digit x 0 ≠ Digits.digit y 0) := by
  obtain ⟨two, all⟩ := compact_node.mp canonical.compact
  obtain ⟨b, b', c, c', apart, at_b, at_b'⟩ := Branches.exists_two two
  have below : ∀ d e, cs d = some e → ∃ x, find (.node p l cs m h) x ≠ none ∧ Digits.digit x l = d := by
    intro d e at_d
    obtain ⟨⟨x, leaf⟩, listed⟩ := List.exists_mem_of_ne_nil _ (CompactAt.entries_ne_nil (all d e at_d))
    cases canonical.shaped with
    | node inner full zeros shaped placed sum =>
      have found := (mem_entries_iff (shaped d e at_d)).mp listed
      have digit := (find_child_digit (shaped d e at_d) inner full (placed d e at_d) found).2
      refine ⟨x, ?_, digit⟩
      rw [find_node, digit, at_d, findSlot_some, found]
      exact Option.some_ne_none leaf
  obtain ⟨x, foundX, digitX⟩ := below b c at_b
  obtain ⟨y, foundY, digitY⟩ := below b' c' at_b'
  refine ⟨x, y, foundX, foundY, fun same => apart ?_, fun top same => apart ?_⟩
  · rw [← digitX, ← digitY, same]
  · rw [← digitX, ← digitY, top, same]

/-- All keys below a root with a prefix start with the same digit. -/
theorem digit_of_starts (shaped : Shaped workUnitKeyLen (.node p l cs m h)) (inner : l ≠ 0) {x : Key}
    (found : find (.node p l cs m h) x ≠ none) : Digits.digit x 0 = Digits.digit p 0 := by
  obtain ⟨leaf, there⟩ := Option.ne_none_iff_exists'.mp found
  exact Digits.digit_eq_of_take (find_under shaped there).2 (Nat.pos_of_ne_zero inner)

end Root

theorem doRollback_safe (valid : book.Valid workUnitKeyLen) (safe : RootSafe book.find deletedKeys) :
    ∃ book', book.doRollback = .ok book' ∧
      (book'.Valid workUnitKeyLen ∨ book'.Hollow workUnitKeyLen ∧ deletedKeys = []) ∧
      ∀ key, book'.find key = (book.find key).filter (fun l => !l.marked .rollback) := by
  by_cases kept : ∃ key l, book.find key = some l ∧ l.marked .rollback = false
  · obtain ⟨key, l, found, unmarked⟩ := kept
    have canonical := valid.resolve_left (fun vacant =>
      Option.some_ne_none l (found.symm.trans (find_of_vacant vacant key)))
    obtain ⟨book', run, valid', finds⟩ := MerkleTrie.doRollback_kept canonical found unmarked
    exact ⟨book', run, Or.inl valid', finds⟩
  · have all : ∀ key l, book.find key = some l → l.marked .rollback = true := by
      intro key l found
      by_contra unmarked
      exact kept ⟨key, l, found, Bool.eq_false_iff.mpr unmarked⟩
    have dropped := filter_tentative all
    rcases valid with vacant | canonical
    · have none := find_of_vacant vacant
      refine ⟨book, MerkleTrie.doRollback_unmarked (Or.inl vacant) workUnitKeyLen_pos ?_, Or.inl (Or.inl vacant), ?_⟩
      · intro key l found
        exact absurd (found.symm.trans (none key)) (Option.some_ne_none l)
      · intro key
        rw [dropped key]
        exact none key
    · refine ⟨_, MerkleTrie.doRollback_all canonical all, ?_⟩
      have filled : ∃ key l, book.find key = some l := by
        obtain ⟨⟨key, l⟩, listed⟩ := List.exists_mem_of_ne_nil _ (CompactAt.entries_ne_nil canonical.compact)
        exact ⟨key, l, (mem_entries_iff canonical.shaped).mp listed⟩
      obtain ⟨key₀, l₀, found₀⟩ := filled
      rcases safe with keeps | bare | ⟨x, y, foundX, foundY, apart, harmless⟩
      · exact absurd keeps kept
      · exact absurd (found₀.symm.trans (bare key₀)) (Option.some_ne_none l₀)
      cases book with
      | mk root hash =>
        cases root with
        | leaf key value m h =>
          rw [MerkleTrie.find, find_leaf] at foundX foundY
          exact absurd ((of_not_not (fun other => foundX (if_neg other))).trans
            (of_not_not (fun other => foundY (if_neg other))).symm) apart
        | node p l cs m h =>
          have shaped := canonical.shaped
          refine ⟨?_, fun key => ?_⟩
          · by_cases top : l = 0
            · exact Or.inl (Or.inl (vacant_childless shaped top))
            · refine Or.inr ⟨⟨shaped_childless shaped, p, l, none, rfl⟩, harmless.resolve_right (fun other => other ?_)⟩
              exact (digit_of_starts shaped top foundX).trans (digit_of_starts shaped top foundY).symm
          · rw [dropped key]
            exact MerkleTrie.find_bare key

/-- Otherwise a new offer stays, or a root that the cancelled offers cannot be inserted below. -/
theorem doRollback_unsafe (valid : book.Valid workUnitKeyLen) (harmful : ¬ RootSafe book.find deletedKeys) :
    ∃ book', book.doRollback = .ok book' ∧
      ((book'.Valid workUnitKeyLen ∧ book'.find = book.find ∧
          ∃ key l, book.find key = some l ∧ l.marked .rollback = true) ∨
        deletedKeys ≠ [] ∧ ∃ p l, book'.root = .node p l Branches.empty 0 none ∧ l ≠ 0) := by
  have all : ∀ key l, book.find key = some l → l.marked .rollback = true := by
    intro key l found
    by_contra unmarked
    exact harmful (Or.inl ⟨key, l, found, Bool.eq_false_iff.mpr unmarked⟩)
  have canonical : Canonical workUnitKeyLen book.root := by
    refine valid.resolve_left (fun vacant => harmful (Or.inr (Or.inl (fun key => ?_))))
    exact find_of_vacant vacant key
  refine ⟨_, MerkleTrie.doRollback_all canonical all, ?_⟩
  cases book with
  | mk root hash =>
    cases root with
    | leaf key value m h =>
      refine Or.inl ⟨Or.inr ⟨?_, compactAt_leaf _ _ _ _⟩, ?_, key, ⟨value, m⟩, ?_⟩
      · cases canonical.shaped with
        | leaf full own => exact .leaf full own
      · funext query
        rw [MerkleTrie.find, MerkleTrie.find, childless, find_leaf, find_leaf]
      · have here : (MerkleTrie.mk (.leaf key value m h) hash).find key = some ⟨value, m⟩ := by
          rw [MerkleTrie.find, find_leaf, if_pos rfl]
        exact ⟨here, all _ _ here⟩
    | node p l cs m h =>
      refine Or.inr ?_
      obtain ⟨x, y, foundX, foundY, apart, inner⟩ := two_keys canonical
      have same : ¬ (deletedKeys = [] ∨ Digits.digit x 0 ≠ Digits.digit y 0) := fun harmless =>
        harmful (Or.inr (Or.inr ⟨x, y, foundX, foundY, apart, harmless⟩))
      rw [not_or, not_not] at same
      exact ⟨same.1, p, l, rfl, fun top => inner top same.2⟩

end DoRollback

section RollbackValidation

variable {unit : MerkleWorkUnit} {thunk : WorkUnitLMDBCommitmentThunk} {gone : Key → Option Offer}

/-- What `rollback_validation` finds after a validation attempt. -/
structure Attempted (unit : MerkleWorkUnit) (thunk : WorkUnitLMDBCommitmentThunk)
    (gone : Key → Option Offer) : Prop where
  valid : unit.committedOffers.Valid workUnitKeyLen
  undeleted : unit.committedOffers.Undeleted
  top : unit.lmdbInstance.getTopThunk = .ok thunk
  recorded : Recorded thunk gone
  insertable : (thunk.clearedOffers.cleanSinglechildNodes thunk.partialExecKey.val).Insertable
    workUnitKeyLen thunk.partialExecKey.val
  cleaned : (thunk.clearedOffers.cleanSinglechildNodes thunk.partialExecKey.val).find = thunk.clearedOffers.find

/-- The record of the block without its new offers, as `rollback_validation` undoes it. -/
def withoutNewOffers (thunk : WorkUnitLMDBCommitmentThunk) : WorkUnitLMDBCommitmentThunk :=
  { thunk with uncommittedOffersVec := [] }

theorem undone_withoutNewOffers (find : Key → Option (Leaf Offer)) (key : Key) :
    undone (withoutNewOffers thunk) gone find key =
      if thunk.existsPartialExec ∧ key = thunk.partialExecKey.val then
        some (plain thunk.preexecutePartialExecOffer)
      else (thunk.clearedOffers.find key).or (((gone key).map plain).or (find key)) := by
  rw [undone]
  simp only [withoutNewOffers, List.map_nil, List.not_mem_nil, if_false]

/-- The steps of `rollback_validation` after `do_rollback`. -/
theorem rollbackValidation_eq {book : OfferTrie} (attempted : Attempted unit thunk gone)
    (run : unit.committedOffers.doRollback = .ok book) :
    unit.rollbackValidation = (MerkleWorkUnit.undoThunk book (withoutNewOffers thunk)).map
      (fun committedOffers => { unit with
        committedOffers := committedOffers
        uncommittedOffers := OfferTrie.empty
        lmdbInstance := { unit.lmdbInstance with thunks := unit.lmdbInstance.thunks.dropLast } }) := by
  rw [MerkleWorkUnit.rollbackValidation, run]
  simp only [bind, Except.bind, attempted.top, WorkUnitLMDB.popTopThunk_of_top attempted.top]
  rw [withoutNewOffers]
  cases MerkleWorkUnit.undoThunk book { thunk with uncommittedOffersVec := [] } <;> rfl

theorem Attempted.withoutNewOffers (attempted : Attempted unit thunk gone) :
    Recorded (withoutNewOffers thunk) gone :=
  ⟨attempted.recorded.listed, attempted.recorded.full, attempted.recorded.undeleted⟩

theorem rollbackValidation_safe (attempted : Attempted unit thunk gone)
    (safe : RootSafe unit.committedOffers.find thunk.deletedKeys) :
    ∃ unit', unit.rollbackValidation = .ok unit' ∧ Shaped workUnitKeyLen unit'.committedOffers.root ∧
      ∀ key, unit'.committedOffers.find key = undone (withoutNewOffers thunk) gone
        (fun key => (unit.committedOffers.find key).filter (fun l => !l.marked .rollback)) key := by
  obtain ⟨book, run, start, finds⟩ := doRollback_safe attempted.valid safe
  have undeleted : OfferTrie.Undeleted book := by
    intro key l found
    rw [finds] at found
    exact attempted.undeleted key l (Option.filter_eq_some_iff.mp found).1
  obtain ⟨book', undo, shaped, finds'⟩ := undoThunk_ragged attempted.withoutNewOffers undeleted start
    attempted.insertable attempted.cleaned rfl
  refine ⟨_, by rw [rollbackValidation_eq attempted run, undo]; rfl, shaped, fun key => ?_⟩
  rw [finds' key, undone_withoutNewOffers, undone_withoutNewOffers, finds key]

/-- If the root is not safe, a new offer stays or the rollback throws. -/
theorem rollbackValidation_unsafe {unit' : MerkleWorkUnit} (attempted : Attempted unit thunk gone)
    (harmful : ¬ RootSafe unit.committedOffers.find thunk.deletedKeys)
    (run : unit.rollbackValidation = .ok unit') :
    (∃ key l, unit.committedOffers.find key = some l ∧ l.marked .rollback = true) ∧
      ∀ key, unit'.committedOffers.find key = undone (withoutNewOffers thunk) gone unit.committedOffers.find key := by
  obtain ⟨book, roll, ⟨valid, same, stays⟩ | ⟨cancelled, p, l, shape, inner⟩⟩ :=
    doRollback_unsafe attempted.valid harmful
  · have undeleted : OfferTrie.Undeleted book := by
      intro key l found
      rw [same] at found
      exact attempted.undeleted key l found
    obtain ⟨book', undo, shaped, finds⟩ := undoThunk_ragged attempted.withoutNewOffers undeleted (Or.inl valid)
      attempted.insertable attempted.cleaned rfl
    rw [rollbackValidation_eq attempted roll, undo] at run
    cases run
    refine ⟨stays, fun key => ?_⟩
    rw [finds, same]
  · obtain ⟨⟨key, offer⟩, rows, shapeRows⟩ := List.exists_cons_of_ne_nil cancelled
    have stuck : MerkleWorkUnit.undoThunk book (withoutNewOffers thunk) = .error "invalid initialization somewhere" := by
      rw [MerkleWorkUnit.undoThunk]
      simp only [withoutNewOffers, shapeRows, List.foldlM_cons, MerkleTrie.insert_childless shape inner]
      rfl
    rw [rollbackValidation_eq attempted roll, stuck] at run
    cases run

/-- `rollback_validation` gives back `book`. -/
def Restores (unit : MerkleWorkUnit) (book : OfferTrie) : Prop :=
  ∃ unit', unit.rollbackValidation = .ok unit' ∧ SameBook unit'.committedOffers book

/-- With an unsafe root some new offer stays, so what is left is to compare key by key. -/
theorem restores_iff {book : OfferTrie} (attempted : Attempted unit thunk gone)
    (valid : book.Valid workUnitKeyLen)
    (new : ∀ key l, unit.committedOffers.find key = some l → l.marked .rollback = true → book.find key = none) :
    Restores unit book ↔ RootSafe unit.committedOffers.find thunk.deletedKeys ∧
      ∀ key, undone (withoutNewOffers thunk) gone
        (fun key => (unit.committedOffers.find key).filter (fun l => !l.marked .rollback)) key = book.find key := by
  by_cases safe : RootSafe unit.committedOffers.find thunk.deletedKeys
  · obtain ⟨unit', run, shaped, finds⟩ := rollbackValidation_safe attempted safe
    rw [and_iff_right safe]
    constructor
    · rintro ⟨unit'', run', same, -⟩ key
      rw [run] at run'
      cases run'
      rw [← finds, same]
    · intro agree
      have same : unit'.committedOffers.find = book.find := funext (fun key => (finds key).trans (agree key))
      exact ⟨unit', run, same, metadata_ext shaped (valid.shaped workUnitKeyLen_pos) (congrFun same)⟩
  · refine ⟨?_, fun ⟨absurd, _⟩ => (safe absurd).elim⟩
    rintro ⟨unit', run, same, -⟩
    obtain ⟨⟨key, l, found, marked⟩, finds⟩ := rollbackValidation_unsafe attempted safe run
    have stays := finds key
    rw [same, new key l found marked, undone_withoutNewOffers, found] at stays
    split_ifs at stays
    rw [eq_comm, Option.or_eq_none_iff, Option.or_eq_none_iff] at stays
    cases stays.2.2

end RollbackValidation

end Speedex
