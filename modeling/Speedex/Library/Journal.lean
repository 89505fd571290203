import Mathlib.Data.List.Basic
import Mathlib.Tactic.Common

set_option autoImplicit false

/- Journals over maps. An entry changes a map at the keys it touches and records what undoing it
writes there. Undoing a journal from its oldest entry leaves, at every key, what the last entry that
touches the key wrote. -/
namespace Journal

variable {K V : Type}

structure Entry (K V : Type) where
  touches : K → Prop
  apply : (K → V) → K → V
  undo : (K → V) → K → V

/-- Outside the keys it touches an entry does nothing, and its undo writes recorded values only. -/
structure Entry.Local (e : Entry K V) : Prop where
  apply_untouched : ∀ m k, ¬ e.touches k → e.apply m k = m k
  undo_untouched : ∀ m k, ¬ e.touches k → e.undo m k = m k
  undo_touched : ∀ m m' k, e.touches k → e.undo m k = e.undo m' k

def applyAll (entries : List (Entry K V)) (m : K → V) : K → V := entries.foldl (fun m e => e.apply m) m

/-- Undo from the oldest entry to the newest. -/
def undoAll (entries : List (Entry K V)) (m : K → V) : K → V := entries.foldl (fun m e => e.undo m) m

@[simp] theorem applyAll_nil (m : K → V) : applyAll [] m = m := rfl
@[simp] theorem applyAll_cons (e : Entry K V) (entries : List (Entry K V)) (m : K → V) :
    applyAll (e :: entries) m = applyAll entries (e.apply m) := rfl
@[simp] theorem undoAll_nil (m : K → V) : undoAll [] m = m := rfl
@[simp] theorem undoAll_cons (e : Entry K V) (entries : List (Entry K V)) (m : K → V) :
    undoAll (e :: entries) m = undoAll entries (e.undo m) := rfl

variable {entries : List (Entry K V)} {k : K}

theorem applyAll_untouched (all : ∀ e ∈ entries, e.Local) (untouched : ∀ e ∈ entries, ¬ e.touches k)
    (m : K → V) : applyAll entries m k = m k := by
  induction entries generalizing m with
  | nil => rfl
  | cons e entries ih =>
    obtain ⟨here, rest⟩ := List.forall_mem_cons.mp untouched
    obtain ⟨isLocal, all⟩ := List.forall_mem_cons.mp all
    rw [applyAll_cons, ih all rest, isLocal.apply_untouched m k here]

theorem undoAll_untouched (all : ∀ e ∈ entries, e.Local) (untouched : ∀ e ∈ entries, ¬ e.touches k)
    (m : K → V) : undoAll entries m k = m k := by
  induction entries generalizing m with
  | nil => rfl
  | cons e entries ih =>
    obtain ⟨here, rest⟩ := List.forall_mem_cons.mp untouched
    obtain ⟨isLocal, all⟩ := List.forall_mem_cons.mp all
    rw [undoAll_cons, ih all rest, isLocal.undo_untouched m k here]

/-- The last entry that touches a key decides what is left there. -/
theorem undoAll_last {older newer : List (Entry K V)} {e : Entry K V} (all : ∀ e' ∈ older ++ e :: newer, e'.Local)
    (touched : e.touches k) (last : ∀ e' ∈ newer, ¬ e'.touches k) (m m' : K → V) :
    undoAll (older ++ e :: newer) m k = e.undo m' k := by
  rw [undoAll, List.foldl_append, List.foldl_cons, ← undoAll, ← undoAll,
    undoAll_untouched (fun e' listed => all e' (by simp [listed])) last]
  exact (all e (by simp)).undo_touched _ _ k touched

/-- Either no entry touches the key, or there is a last one that does. -/
theorem untouched_or_last (entries : List (Entry K V)) (k : K) :
    (∀ e ∈ entries, ¬ e.touches k) ∨ ∃ older e newer, entries = older ++ e :: newer ∧ e.touches k ∧
      ∀ e' ∈ newer, ¬ e'.touches k := by
  induction entries with
  | nil => exact Or.inl nofun
  | cons e entries ih =>
    rcases ih with none | ⟨older, last, newer, rfl, touched, final⟩
    · by_cases here : e.touches k
      · exact Or.inr ⟨[], e, entries, rfl, here, none⟩
      · exact Or.inl (List.forall_mem_cons.mpr ⟨here, none⟩)
    · exact Or.inr ⟨e :: older, last, newer, rfl, touched, final⟩

/-- Undoing a journal from its oldest entry restores the map exactly if, at every key touched, the last
entry that touches it writes back what was there before the journal. -/
theorem undoAll_applyAll_iff (all : ∀ e ∈ entries, e.Local) (m : K → V) :
    undoAll entries (applyAll entries m) = m ↔ ∀ older e newer k, entries = older ++ e :: newer → e.touches k →
      (∀ e' ∈ newer, ¬ e'.touches k) → e.undo (applyAll older m) k = m k := by
  constructor
  · rintro restored older e newer k rfl touched last
    rw [← congrFun restored k]
    exact (undoAll_last all touched last _ _).symm
  · intro agree
    funext k
    rcases untouched_or_last entries k with none | ⟨older, e, newer, rfl, touched, last⟩
    · rw [undoAll_untouched all none, applyAll_untouched all none]
    · rw [undoAll_last all touched last _ (applyAll older m)]
      exact agree older e newer k rfl touched last

end Journal
