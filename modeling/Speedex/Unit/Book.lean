import Speedex.Library.Journal
import Speedex.Unit.Commitment
import Speedex.Market.Offer
import Speedex.Trie.Node

set_option autoImplicit false

/- What a block means for a book of offers: it brings new offers in, takes cancelled ones out, clears
some in full and at most one in part. The book is a map from keys to offers. -/
namespace Speedex

abbrev Book := Key → Option Offer

/-- The offer executed in part and the amount sold. -/
structure PartialExecution where
  key : Key
  offer : Offer
  sellAmount : BitVec 64

/-- What is left of the offer. -/
def PartialExecution.remainder (partly : PartialExecution) : Option Offer :=
  if partly.offer.amount - partly.sellAmount = 0 then none
  else some { partly.offer with amount := partly.offer.amount - partly.sellAmount }

structure BlockEffect where
  created : Book
  cancelled : Book
  cleared : Book
  partly : Option PartialExecution

namespace BlockEffect

/-- The offer at `key` is executed in part. -/
def ExecutesPartly (e : BlockEffect) (key : Key) : Prop := e.partly.map PartialExecution.key = some key

instance (e : BlockEffect) (key : Key) : Decidable (e.ExecutesPartly key) :=
  inferInstanceAs (Decidable (e.partly.map PartialExecution.key = some key))

def Touches (e : BlockEffect) (key : Key) : Prop :=
  e.ExecutesPartly key ∨ e.created key ≠ none ∨ e.cancelled key ≠ none ∨ e.cleared key ≠ none

/-- The book before the clearing. -/
def proposed (e : BlockEffect) (book : Book) : Book := fun key =>
  (e.created key).or (if e.cancelled key = none then book key else none)

/-- The book after the block. -/
def apply (e : BlockEffect) (book : Book) : Book := fun key =>
  if e.cleared key ≠ none then none
  else match e.partly with
    | none => e.proposed book key
    | some partly => if key = partly.key then partly.remainder else e.proposed book key

/-- The order in which the code undoes a block: the cancelled offers come back, then the cleared ones,
then the new ones go, and last the partly executed one is written. -/
def undo (e : BlockEffect) (book : Book) : Book := fun key =>
  match e.partly.filter (fun partly => partly.key = key) with
  | some partly => some partly.offer
  | none => if e.created key ≠ none then none else (e.cleared key).or ((e.cancelled key).or (book key))

/-- The effect describes a block on `book`. -/
structure Fits (e : BlockEffect) (book : Book) : Prop where
  fresh : ∀ key, e.created key ≠ none → book key = none
  cancelled : ∀ key offer, e.cancelled key = some offer → book key = some offer
  cleared : ∀ key offer, e.cleared key = some offer → e.proposed book key = some offer
  partly : ∀ partly, e.partly = some partly → e.proposed book partly.key = some partly.offer ∧
    e.cleared partly.key = none ∧ ¬ partly.offer.amount.ult partly.sellAmount = true
  whole : e.partly = none → ∀ key, e.apply book key = none

/-- The effect as an entry of a journal. -/
def entry (e : BlockEffect) : Journal.Entry Key (Option Offer) := ⟨e.Touches, e.apply, e.undo⟩

variable {e : BlockEffect} {book : Book} {key : Key}

theorem filter_partly {e : BlockEffect} {key : Key} (absent : ¬ e.ExecutesPartly key) :
    e.partly.filter (fun partly => partly.key = key) = none := by
  cases part : e.partly with
  | none => rfl
  | some partly =>
    refine Option.filter_some_neg (decide_eq_false (fun same => absent ?_))
    rw [ExecutesPartly, part, Option.map_some, same]

theorem undo_partly {partly : PartialExecution} (part : e.partly = some partly) (m : Book) :
    e.undo m partly.key = some partly.offer := by
  have here : e.partly.filter (fun p => p.key = partly.key) = some partly := by
    rw [part]
    exact Option.filter_some_pos (decide_eq_true rfl)
  rw [undo, here]

theorem undo_fully (absent : ¬ e.ExecutesPartly key) (m : Book) : e.undo m key =
    if e.created key ≠ none then none else (e.cleared key).or ((e.cancelled key).or (m key)) := by
  rw [undo, filter_partly absent]

theorem proposed_old (old : e.created key = none) (kept : e.cancelled key = none) : e.proposed book key = book key := by
  rw [proposed, old, Option.none_or, if_pos kept]

theorem apply_untouched (untouched : ¬ e.Touches key) : e.apply book key = book key := by
  rw [Touches, not_or, not_or, not_or, not_not, not_not, not_not] at untouched
  obtain ⟨fully, old, kept, stays⟩ := untouched
  rw [apply, if_neg (not_not.mpr stays)]
  cases part : e.partly with
  | none => exact proposed_old old kept
  | some partly =>
    simp only
    rw [if_neg (fun same => fully (by rw [ExecutesPartly, part, Option.map_some, same])), proposed_old old kept]

theorem entry_local (e : BlockEffect) : e.entry.Local where
  apply_untouched _ _ untouched := apply_untouched untouched
  undo_untouched m key untouched := by
    simp only [entry, Touches, not_or, not_not] at untouched
    obtain ⟨fully, old, kept, stays⟩ := untouched
    show e.undo m key = m key
    rw [undo_fully fully, if_neg (not_not.mpr old), stays, kept]
    rfl
  undo_touched m m' key touched := by
    show e.undo m key = e.undo m' key
    by_cases fully : e.ExecutesPartly key
    · obtain ⟨partly, part, rfl⟩ := Option.map_eq_some_iff.mp fully
      rw [undo_partly part, undo_partly part]
    · rw [undo_fully fully, undo_fully fully]
      split_ifs with new
      · rfl
      · rcases touched with absurd | created | cancelled | cleared
        · exact (fully absurd).elim
        · exact absurd created new
        · obtain ⟨offer, there⟩ := Option.ne_none_iff_exists'.mp cancelled
          rw [there, Option.some_or, Option.some_or]
        · obtain ⟨offer, there⟩ := Option.ne_none_iff_exists'.mp cleared
          rw [there, Option.some_or, Option.some_or]

/-- Undoing a block writes back what was there before it, unless the block executes in part an offer
that it created. -/
theorem undo_touched (fits : e.Fits book) (touched : e.Touches key) (m : Book) :
    e.undo m key = if e.ExecutesPartly key ∧ e.created key ≠ none then e.created key else book key := by
  by_cases fully : e.ExecutesPartly key
  · obtain ⟨partly, part, rfl⟩ := Option.map_eq_some_iff.mp fully
    obtain ⟨there, -, -⟩ := fits.partly partly part
    rw [undo_partly part]
    by_cases new : e.created partly.key = none
    · rw [if_neg (fun both => both.2 new)]
      rw [proposed, new, Option.none_or] at there
      split_ifs at there
      exact there.symm
    · obtain ⟨offer, created⟩ := Option.ne_none_iff_exists'.mp new
      rw [proposed, created, Option.some_or] at there
      rw [if_pos ⟨fully, new⟩, created, there]
  · rw [if_neg (fun both => fully both.1), undo_fully fully]
    by_cases new : e.created key = none
    · rw [if_neg (not_not.mpr new)]
      rcases touched with absurd | created | cancelled | cleared
      · exact (fully absurd).elim
      · exact (created new).elim
      · obtain ⟨offer, gone⟩ := Option.ne_none_iff_exists'.mp cancelled
        have stays : e.cleared key = none := by
          refine Option.eq_none_iff_forall_ne_some.mpr (fun offer' cleared => ?_)
          have there := fits.cleared key offer' cleared
          rw [proposed, new, Option.none_or, if_neg cancelled] at there
          cases there
        rw [stays, gone, fits.cancelled key offer gone]
        rfl
      · obtain ⟨offer, taken⟩ := Option.ne_none_iff_exists'.mp cleared
        have there := fits.cleared key offer taken
        rw [proposed, new, Option.none_or] at there
        split_ifs at there
        rw [taken, there]
        rfl
    · rw [if_pos new, fits.fresh key new]

/-- A sequence of blocks, each of which fits the book it meets. -/
def FitAll : List BlockEffect → Book → Prop
  | [], _ => True
  | e :: es, book => e.Fits book ∧ FitAll es (e.apply book)

def applyAll (es : List BlockEffect) (book : Book) : Book := es.foldl (fun book e => e.apply book) book

def undoAll (es : List BlockEffect) (book : Book) : Book := es.foldl (fun book e => e.undo book) book

/-- At every key the last block that touches it found there what the target book holds; if it executed
in part an offer that it created itself, the target book holds that very offer. -/
def LastTouchesAgree (book : Book) (es : List BlockEffect) : Prop :=
  ∀ older e newer key, es = older ++ e :: newer → e.Touches key → (∀ e' ∈ newer, ¬ e'.Touches key) →
    (if e.ExecutesPartly key ∧ e.created key ≠ none then e.created key else applyAll older book key) = book key

theorem applyAll_eq (es : List BlockEffect) (book : Book) : applyAll es book = Journal.applyAll (es.map entry) book := by
  rw [applyAll, Journal.applyAll, List.foldl_map]
  rfl

theorem undoAll_eq (es : List BlockEffect) (book : Book) : undoAll es book = Journal.undoAll (es.map entry) book := by
  rw [undoAll, Journal.undoAll, List.foldl_map]
  rfl

theorem fits_of_fitAll {older newer : List BlockEffect} (fits : FitAll (older ++ e :: newer) book) :
    e.Fits (applyAll older book) := by
  induction older generalizing book with
  | nil => exact fits.1
  | cons e' older ih => exact ih fits.2

/-- Undoing blocks from the oldest to the newest gives back the book before them exactly if the last
touches agree with it. -/
theorem undoAll_applyAll_iff {es : List BlockEffect} (fits : FitAll es book) :
    undoAll es (applyAll es book) = book ↔ LastTouchesAgree book es := by
  have all : ∀ e ∈ es.map entry, e.Local := by
    intro e listed
    obtain ⟨e', -, rfl⟩ := List.mem_map.mp listed
    exact entry_local e'
  rw [applyAll_eq, undoAll_eq, Journal.undoAll_applyAll_iff all]
  constructor
  · rintro agree older e newer key rfl touched last
    have untouched : ∀ e' ∈ newer.map entry, ¬ e'.touches key := by
      intro e' listed
      obtain ⟨e'', there, rfl⟩ := List.mem_map.mp listed
      exact last e'' there
    rw [← agree (older.map entry) e.entry (newer.map entry) key (by simp) touched untouched]
    exact (undo_touched (fits_of_fitAll fits) touched _).symm
  · intro agree older e newer key split touched last
    obtain ⟨older', rest, rfl, rfl, split'⟩ := List.map_eq_append_iff.mp split
    obtain ⟨e', newer', rfl, rfl, rfl⟩ := List.map_eq_cons_iff.mp split'
    have here := agree older' e' newer' key rfl touched (fun e'' listed => last e''.entry (List.mem_map.mpr ⟨e'', listed, rfl⟩))
    rw [← here, ← applyAll_eq]
    exact undo_touched (fits_of_fitAll fits) touched _

end BlockEffect

end Speedex
