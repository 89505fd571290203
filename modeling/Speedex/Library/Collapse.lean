import Mathlib.Data.List.Sort

set_option autoImplicit false

/- Sorting and a deduplication that looks at disjoint pairs of neighbours: it removes the second of an
equal pair, and never compares the second element of a pair with the first of the next one. -/
namespace Collapse

variable {α β : Type} [LinearOrder β] (f : α → β)

/-- Drop the second element of every pair with equal keys. -/
def collapsePairs : List α → List α
  | a :: b :: rest => if f b = f a then a :: collapsePairs rest else a :: b :: collapsePairs rest
  | l => l

/-- No two equal neighbours belong to different pairs. -/
def OddApart : List α → Prop
  | _ :: b :: c :: rest => f b ≠ f c ∧ OddApart (c :: rest)
  | _ => True

instance decidableOddApart : (l : List α) → Decidable (OddApart f l)
  | [] => .isTrue trivial
  | [_] => .isTrue trivial
  | [_, _] => .isTrue trivial
  | _ :: b :: c :: rest =>
    have := decidableOddApart (c :: rest)
    inferInstanceAs (Decidable (f b ≠ f c ∧ OddApart f (c :: rest)))

variable {f}

theorem collapsePairs_head (a : α) (rest : List α) : ∃ tail, collapsePairs f (a :: rest) = a :: tail := by
  cases rest with
  | nil => exact ⟨[], rfl⟩
  | cons b rest =>
    rw [collapsePairs]
    split_ifs
    · exact ⟨_, rfl⟩
    · exact ⟨_, rfl⟩

theorem mem_of_mem_collapsePairs {l : List α} {x : α} (listed : x ∈ collapsePairs f l) : x ∈ l := by
  induction l using collapsePairs.induct f with
  | case1 a b rest same ih =>
    rw [collapsePairs, if_pos same] at listed
    rcases List.mem_cons.mp listed with rfl | later
    · exact List.mem_cons_self
    · exact List.mem_cons_of_mem _ (List.mem_cons_of_mem _ (ih later))
  | case2 a b rest other ih =>
    rw [collapsePairs, if_neg other] at listed
    rcases List.mem_cons.mp listed with rfl | listed
    · exact List.mem_cons_self
    · rcases List.mem_cons.mp listed with rfl | later
      · exact List.mem_cons_of_mem _ List.mem_cons_self
      · exact List.mem_cons_of_mem _ (List.mem_cons_of_mem _ (ih later))
  | case3 l short =>
    rwa [collapsePairs] at listed
    exact short

/-- Every key stays. -/
theorem exists_mem_collapsePairs {l : List α} {x : α} (listed : x ∈ l) : ∃ y ∈ collapsePairs f l, f y = f x := by
  induction l using collapsePairs.induct f with
  | case1 a b rest same ih =>
    rw [collapsePairs, if_pos same]
    rcases List.mem_cons.mp listed with rfl | listed
    · exact ⟨x, List.mem_cons_self, rfl⟩
    · rcases List.mem_cons.mp listed with rfl | later
      · exact ⟨a, List.mem_cons_self, same.symm⟩
      · obtain ⟨y, there, key⟩ := ih later
        exact ⟨y, List.mem_cons_of_mem _ there, key⟩
  | case2 a b rest other ih =>
    rw [collapsePairs, if_neg other]
    rcases List.mem_cons.mp listed with rfl | listed
    · exact ⟨x, List.mem_cons_self, rfl⟩
    · rcases List.mem_cons.mp listed with rfl | later
      · exact ⟨x, List.mem_cons_of_mem _ List.mem_cons_self, rfl⟩
      · obtain ⟨y, there, key⟩ := ih later
        exact ⟨y, List.mem_cons_of_mem _ (List.mem_cons_of_mem _ there), key⟩
  | case3 l short =>
    rw [collapsePairs]
    · exact ⟨x, listed, rfl⟩
    · exact short

/-- On a sorted list the pairs collapse to distinct keys exactly if equal neighbours never straddle two
pairs. -/
theorem collapsePairs_strict_iff {l : List α} (sorted : l.Pairwise (fun a b => f a ≤ f b)) :
    (collapsePairs f l).Pairwise (fun a b => f a < f b) ↔ OddApart f l := by
  induction l using collapsePairs.induct f with
  | case1 a b rest same ih =>
    obtain ⟨first, sorted⟩ := List.pairwise_cons.mp sorted
    obtain ⟨second, sorted⟩ := List.pairwise_cons.mp sorted
    rw [collapsePairs, if_pos same, List.pairwise_cons, ih sorted]
    cases rest with
    | nil => exact iff_of_true ⟨nofun, trivial⟩ trivial
    | cons c rest =>
      obtain ⟨tail, head⟩ := collapsePairs_head (f := f) c rest
      rw [OddApart]
      refine and_congr_left (fun apart => ⟨fun below equal => ?_, fun other x listed => ?_⟩)
      · have strict := below c (by rw [head]; exact List.mem_cons_self)
        rw [← same, equal] at strict
        exact lt_irrefl _ strict
      · have low := second c List.mem_cons_self
        have here := mem_of_mem_collapsePairs listed
        have high : f c ≤ f x := by
          rcases List.mem_cons.mp here with rfl | later
          · exact le_refl _
          · exact (List.pairwise_cons.mp sorted).1 x later
        rw [← same]
        exact lt_of_lt_of_le (lt_of_le_of_ne low other) high
  | case2 a b rest other ih =>
    obtain ⟨first, sorted⟩ := List.pairwise_cons.mp sorted
    obtain ⟨second, sorted⟩ := List.pairwise_cons.mp sorted
    have step : f a < f b := lt_of_le_of_ne (first b List.mem_cons_self) (Ne.symm other)
    rw [collapsePairs, if_neg other, List.pairwise_cons, List.pairwise_cons, ih sorted]
    cases rest with
    | nil => exact iff_of_true ⟨by simpa [collapsePairs] using step, nofun, trivial⟩ trivial
    | cons c rest =>
      obtain ⟨tail, head⟩ := collapsePairs_head (f := f) c rest
      rw [OddApart]
      constructor
      · rintro ⟨-, below, apart⟩
        refine ⟨fun equal => ?_, apart⟩
        have strict := below c (by rw [head]; exact List.mem_cons_self)
        rw [equal] at strict
        exact lt_irrefl _ strict
      · rintro ⟨apart, later⟩
        have above : ∀ x ∈ collapsePairs f (c :: rest), f b < f x := by
          intro x listed
          have low := second c List.mem_cons_self
          have high : f c ≤ f x := by
            rcases List.mem_cons.mp (mem_of_mem_collapsePairs listed) with rfl | there
            · exact le_refl _
            · exact (List.pairwise_cons.mp sorted).1 x there
          exact lt_of_lt_of_le (lt_of_le_of_ne low apart) high
        refine ⟨fun x listed => ?_, above, later⟩
        rcases List.mem_cons.mp listed with rfl | there
        · exact step
        · exact step.trans (above x there)
  | case3 l short =>
    have trivialApart : OddApart f l := by
      match l, short with
      | [], _ => trivial
      | [_], _ => trivial
      | a :: b :: rest, short => exact (short a b rest rfl).elim
    have single : (collapsePairs f l).Pairwise (fun a b => f a < f b) := by
      match l, short with
      | [], _ => exact List.Pairwise.nil
      | [_], _ => exact List.pairwise_singleton _ _
      | a :: b :: rest, short => exact (short a b rest rfl).elim
    exact iff_of_true single trivialApart

/-- A list with distinct sorted keys does not collapse. -/
theorem collapsePairs_eq_self {l : List α} (strict : l.Pairwise (fun a b => f a < f b)) : collapsePairs f l = l := by
  induction l using collapsePairs.induct f with
  | case1 a b rest same ih =>
    have step := (List.pairwise_cons.mp strict).1 b List.mem_cons_self
    rw [same] at step
    exact (lt_irrefl _ step).elim
  | case2 a b rest other ih =>
    have later := (List.pairwise_cons.mp (List.pairwise_cons.mp strict).2).2
    rw [collapsePairs, if_neg other, ih later]
  | case3 l short =>
    rw [collapsePairs]
    exact short

/-- Lists sorted by distinct keys are determined by their members. -/
theorem strict_ext {l l' : List α} (strict : l.Pairwise (fun a b => f a < f b))
    (strict' : l'.Pairwise (fun a b => f a < f b)) (members : ∀ x, x ∈ l ↔ x ∈ l') : l = l' := by
  have nodup : ∀ {l : List α}, l.Pairwise (fun a b => f a < f b) → l.Nodup :=
    fun strict => strict.imp (fun less same => less.ne (congrArg f same))
  refine List.Perm.eq_of_pairwise ?_ strict strict' ?_
  · intro a b _ _ less less'
    exact (lt_asymm less less').elim
  · exact (List.perm_ext_iff_of_nodup (nodup strict) (nodup strict')).mpr members

end Collapse
