import Mathlib.Data.List.Nodup
import Mathlib.Logic.Function.Basic

set_option autoImplicit false

/- Index maps: the place of every key of a list of distinct keys, counted from an offset. -/
namespace IndexMap

variable {K : Type} {map map' : K → Option Nat} {offset : Nat} {keys keys' : List K} {k : K}

/-- `map` has the places of just these keys, and none of them occurs twice. -/
structure Indexes (map : K → Option Nat) (offset : Nat) (keys : List K) : Prop where
  distinct : keys.Nodup
  lookup : ∀ k i, map k = some i ↔ ∃ j, i = offset + j ∧ keys[j]? = some k

theorem indexes_nil (offset : Nat) : Indexes (fun _ : K => none) offset [] :=
  ⟨List.nodup_nil, fun k i => by simp⟩

theorem Indexes.isSome_iff (indexes : Indexes map offset keys) : (map k).isSome = true ↔ k ∈ keys := by
  rw [Option.isSome_iff_exists, List.mem_iff_getElem?]
  constructor
  · rintro ⟨i, found⟩
    obtain ⟨j, -, listed⟩ := (indexes.lookup k i).mp found
    exact ⟨j, listed⟩
  · rintro ⟨j, listed⟩
    exact ⟨offset + j, (indexes.lookup k _).mpr ⟨j, rfl, listed⟩⟩

theorem Indexes.eq_none_iff (indexes : Indexes map offset keys) : map k = none ↔ k ∉ keys := by
  rw [← indexes.isSome_iff, Bool.not_eq_true, Option.isSome_eq_false_iff, Option.isNone_iff_eq_none]

/-- Two index maps, the second counted from where the first ends. -/
theorem Indexes.append (indexes : Indexes map offset keys) (indexes' : Indexes map' (offset + keys.length) keys')
    (apart : List.Disjoint keys keys') :
    Indexes (fun k => (map k).or (map' k)) offset (keys ++ keys') := by
  refine ⟨List.nodup_append'.mpr ⟨indexes.distinct, indexes'.distinct, apart⟩, fun k i => ?_⟩
  rw [Option.or_eq_some_iff, indexes.lookup, indexes.eq_none_iff, indexes'.lookup]
  constructor
  · rintro (⟨j, rfl, listed⟩ | ⟨-, j, rfl, listed⟩)
    · obtain ⟨early, -⟩ := List.getElem?_eq_some_iff.mp listed
      exact ⟨j, rfl, by rw [List.getElem?_append_left early, listed]⟩
    · refine ⟨keys.length + j, (Nat.add_assoc _ _ _), ?_⟩
      rw [List.getElem?_append_right (Nat.le_add_right _ _), Nat.add_sub_cancel_left, listed]
  · rintro ⟨j, rfl, listed⟩
    by_cases early : j < keys.length
    · rw [List.getElem?_append_left early] at listed
      exact Or.inl ⟨j, rfl, listed⟩
    · rw [List.getElem?_append_right (Nat.not_lt.mp early)] at listed
      refine Or.inr ⟨fun old => apart old (List.mem_of_getElem? listed), j - keys.length, by omega, listed⟩

variable [DecidableEq K]

/-- A new key takes the next place. -/
theorem Indexes.concat (indexes : Indexes map offset keys) (fresh : k ∉ keys) :
    Indexes (Function.update map k (some (offset + keys.length))) offset (keys ++ [k]) := by
  refine ⟨List.nodup_append.mpr ⟨indexes.distinct, List.nodup_singleton k, ?_⟩, fun q i => ?_⟩
  · rintro a old b new rfl
    exact fresh (List.mem_singleton.mp new ▸ old)
  · rw [Function.update_apply]
    by_cases here : q = k
    · subst here
      rw [if_pos rfl, Option.some.injEq]
      constructor
      · rintro rfl
        exact ⟨keys.length, rfl, by simp⟩
      · rintro ⟨j, rfl, listed⟩
        by_cases early : j < keys.length
        · rw [List.getElem?_append_left early] at listed
          exact absurd (List.mem_of_getElem? listed) fresh
        · obtain ⟨inside, -⟩ := List.getElem?_eq_some_iff.mp listed
          rw [List.length_append, List.length_singleton] at inside
          omega
    · rw [if_neg here, indexes.lookup]
      refine exists_congr (fun j => and_congr_right (fun _ => ?_))
      by_cases early : j < keys.length
      · rw [List.getElem?_append_left early]
      · rw [List.getElem?_eq_none (Nat.not_lt.mp early), List.getElem?_append_right (Nat.not_lt.mp early)]
        cases j - keys.length with
        | zero => simp [Ne.symm here]
        | succ n => simp

/-- Forget some keys. -/
def eraseAll (map : K → Option Nat) (gone : List K) : K → Option Nat :=
  gone.foldl (fun map k => Function.update map k none) map

theorem eraseAll_apply (map : K → Option Nat) (gone : List K) (k : K) :
    eraseAll map gone k = if k ∈ gone then none else map k := by
  induction gone generalizing map with
  | nil => rfl
  | cons g gone ih =>
    show eraseAll (Function.update map g none) gone k = _
    rw [ih, Function.update_apply]
    by_cases later : k ∈ gone
    · rw [if_pos later, if_pos (List.mem_cons_of_mem _ later)]
    · rw [if_neg later]
      by_cases here : k = g
      · rw [if_pos here, if_pos (here ▸ List.mem_cons_self)]
      · rw [if_neg here, if_neg (by simp [here, later])]

/-- The keys behind a place can be forgotten. -/
theorem Indexes.take (indexes : Indexes map offset keys) (n : Nat) :
    Indexes (eraseAll map (keys.drop n)) offset (keys.take n) := by
  have parts := List.nodup_append'.mp ((List.take_append_drop n keys).symm ▸ indexes.distinct)
  refine ⟨parts.1, fun k i => ?_⟩
  rw [eraseAll_apply]
  by_cases gone : k ∈ keys.drop n
  · rw [if_pos gone]
    refine iff_of_false (by simp) ?_
    rintro ⟨j, -, listed⟩
    exact parts.2.2 (List.mem_of_getElem? listed) gone
  · rw [if_neg gone, indexes.lookup]
    refine exists_congr (fun j => and_congr_right (fun _ => ?_))
    by_cases early : j < n
    · rw [List.getElem?_take_of_lt early]
    · rw [List.getElem?_take_eq_none (Nat.not_lt.mp early)]
      refine iff_of_false (fun listed => gone ?_) (by simp)
      rw [List.mem_iff_getElem?]
      exact ⟨j - n, by rw [List.getElem?_drop, Nat.add_sub_cancel' (Nat.not_lt.mp early), listed]⟩

end IndexMap
