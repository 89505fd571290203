import Mathlib.Data.List.Perm.Basic
import Mathlib.Tactic.Common

set_option autoImplicit false

/- Removal from an unordered vector: the last element takes the place of the one that goes. -/
namespace Vec

variable {α : Type} {l : List α} {i : Nat}

def swapRemove (l : List α) (i : Nat) : List α :=
  match l.getLast? with
  | none => []
  | some last => (l.set i last).dropLast

theorem swapRemove_concat (l : List α) (last : α) (i : Nat) :
    swapRemove (l ++ [last]) i = if i < l.length then l.set i last else l := by
  unfold swapRemove
  rw [List.getLast?_concat]
  show ((l ++ [last]).set i last).dropLast = _
  by_cases inside : i < l.length
  · rw [if_pos inside, List.set_append_left _ _ inside, List.dropLast_concat]
  · rw [if_neg inside, List.set_append_right _ _ (Nat.le_of_not_lt inside)]
    cases i - l.length with
    | zero => exact List.dropLast_concat
    | succ k => exact List.dropLast_concat

@[simp] theorem length_swapRemove (l : List α) (i : Nat) : (swapRemove l i).length = l.length - 1 := by
  unfold swapRemove
  cases l.eq_nil_or_concat with
  | inl empty => rw [empty]; rfl
  | inr concat =>
    obtain ⟨front, last, rfl⟩ := concat
    rw [List.concat_eq_append, List.getLast?_concat]
    simp

theorem getElem?_swapRemove (l : List α) (i j : Nat) :
    (swapRemove l i)[j]? = if j + 1 < l.length then (if i = j then l.getLast? else l[j]?) else none := by
  cases l.eq_nil_or_concat with
  | inl empty => rw [empty]; rfl
  | inr concat =>
    obtain ⟨front, last, rfl⟩ := concat
    rw [List.concat_eq_append, swapRemove_concat, List.getLast?_concat, List.length_append, List.length_singleton]
    by_cases within : j < front.length
    · rw [if_pos (Nat.add_lt_add_right within 1), List.getElem?_append_left within]
      by_cases here : i = j
      · rw [if_pos here, here, if_pos within, List.getElem?_set_self within]
      · rw [if_neg here]
        split
        · exact List.getElem?_set_ne here
        · rfl
    · rw [if_neg (by omega : ¬ j + 1 < front.length + 1)]
      apply List.getElem?_eq_none
      split
      · rw [List.length_set]
        omega
      · omega

/-- Exactly the element at the index goes. -/
theorem swapRemove_perm (inside : i < l.length) : l.Perm (l[i] :: swapRemove l i) := by
  cases l.eq_nil_or_concat with
  | inl empty => subst empty; exact absurd inside (Nat.not_lt_zero i)
  | inr concat =>
    obtain ⟨front, last, rfl⟩ := concat
    simp only [List.concat_eq_append] at inside ⊢
    rw [swapRemove_concat]
    by_cases before : i < front.length
    · rw [if_pos before, List.getElem_append_left before]
      calc List.Perm (front ++ [last]) (last :: front) := List.perm_append_comm
        List.Perm _ (last :: front[i] :: front.eraseIdx i) := (List.getElem_cons_eraseIdx_perm before).symm.cons last
        List.Perm _ (front[i] :: last :: front.eraseIdx i) := List.Perm.swap _ _ _
        List.Perm _ (front[i] :: front.set i last) := (List.set_perm_cons_eraseIdx before last).symm.cons _
    · have final : i = front.length := by
        rw [List.length_append, List.length_singleton] at inside
        omega
      subst final
      rw [if_neg before, List.getElem_concat_length rfl]
      exact List.perm_append_comm

end Vec
