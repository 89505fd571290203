import Mathlib.Data.List.Basic
import Mathlib.Tactic.Common

set_option autoImplicit false

/- Bump allocation by several users: each has a cursor into a region of its own, hands out what lies after the
cursor, and moves on to a region that nobody has used. No two spans that are handed out meet. -/
namespace Bump

structure Cursor where
  region : Nat
  used : Nat

structure Span where
  region : Nat
  start : Nat
  length : Nat

def Span.Disjoint (s t : Span) : Prop :=
  s.region ≠ t.region ∨ s.start + s.length ≤ t.start ∨ t.start + t.length ≤ s.start

/-- `fresh` is the first region that was never requested. -/
structure Arena where
  fresh : Nat
  cursors : List Cursor
  handed : List Span

namespace Arena

def new : Arena := { fresh := 0, cursors := [], handed := [] }

/-- A region that is requested and not used. -/
def waste (a : Arena) : Arena := { a with fresh := a.fresh + 1 }

/-- A new user. -/
def enter (a : Arena) : Arena :=
  { a with fresh := a.fresh + 1, cursors := a.cursors ++ [{ region := a.fresh, used := 0 }] }

/-- A user moves on to a fresh region. -/
def renew (a : Arena) (i : Nat) : Arena :=
  { a with fresh := a.fresh + 1, cursors := a.cursors.set i { region := a.fresh, used := 0 } }

/-- A user, at cursor `c`, is given a span. -/
def take (a : Arena) (i : Nat) (c : Cursor) (length : Nat) : Arena :=
  { a with
    cursors := a.cursors.set i { c with used := c.used + length }
    handed := a.handed ++ [{ region := c.region, start := c.used, length := length }] }

/-- All regions have the size `size`. -/
structure Sound (size : Nat) (a : Arena) : Prop where
  cursor : ∀ (i : Nat) (c : Cursor), a.cursors[i]? = some c → c.region < a.fresh ∧ c.used ≤ size
  apart : ∀ (i j : Nat) (c c' : Cursor), a.cursors[i]? = some c → a.cursors[j]? = some c' → c.region = c'.region → i = j
  span : ∀ s ∈ a.handed, s.region < a.fresh ∧ s.start + s.length ≤ size
  behind : ∀ s ∈ a.handed, ∀ (i : Nat) (c : Cursor), a.cursors[i]? = some c → c.region = s.region → s.start + s.length ≤ c.used
  disjoint : a.handed.Pairwise Span.Disjoint

variable {size : Nat} {a : Arena} {i : Nat} {c : Cursor}

theorem Sound.new : Sound size new where
  cursor := by
    intro i c found
    cases found
  apart := by
    intro i j c c' found
    cases found
  span := fun _ absurd => (List.not_mem_nil absurd).elim
  behind := fun _ absurd => (List.not_mem_nil absurd).elim
  disjoint := List.Pairwise.nil

theorem Sound.waste (sound : a.Sound size) : a.waste.Sound size where
  cursor i c found := ⟨Nat.lt_succ_of_lt (sound.cursor i c found).1, (sound.cursor i c found).2⟩
  apart := sound.apart
  span s member := ⟨Nat.lt_succ_of_lt (sound.span s member).1, (sound.span s member).2⟩
  behind := sound.behind
  disjoint := sound.disjoint

/-- Cursors may be replaced by cursors at the start of the fresh region. -/
theorem Sound.fresh (sound : a.Sound size) {cursors : List Cursor} {k : Nat}
    (others : ∀ (j : Nat) (c : Cursor), cursors[j]? = some c →
      a.cursors[j]? = some c ∨ (j = k ∧ c = { region := a.fresh, used := 0 })) :
    Sound size { a with fresh := a.fresh + 1, cursors := cursors } where
  cursor := by
    intro j c found
    cases others j c found with
    | inl old => exact ⟨Nat.lt_succ_of_lt (sound.cursor j c old).1, (sound.cursor j c old).2⟩
    | inr new =>
      obtain ⟨_, rfl⟩ := new
      exact ⟨Nat.lt_succ_self _, Nat.zero_le _⟩
  apart := by
    intro j j' c c' found found' same
    cases others j c found with
    | inl old =>
      have before := (sound.cursor j c old).1
      cases others j' c' found' with
      | inl old' => exact sound.apart j j' c c' old old' same
      | inr new' =>
        obtain ⟨_, rfl⟩ := new'
        exact absurd same (Nat.ne_of_lt before)
    | inr new =>
      obtain ⟨rfl, rfl⟩ := new
      cases others j' c' found' with
      | inl old' => exact absurd same (Nat.ne_of_gt (sound.cursor j' c' old').1)
      | inr new' => exact new'.1.symm
  span s member := ⟨Nat.lt_succ_of_lt (sound.span s member).1, (sound.span s member).2⟩
  behind := by
    intro s member j c found same
    cases others j c found with
    | inl old => exact sound.behind s member j c old same
    | inr new =>
      obtain ⟨_, rfl⟩ := new
      exact absurd same (Nat.ne_of_gt (sound.span s member).1)
  disjoint := sound.disjoint

theorem Sound.enter (sound : a.Sound size) : a.enter.Sound size := by
  apply sound.fresh (k := a.cursors.length)
  intro j c found
  rw [List.getElem?_append] at found
  split at found
  · exact .inl found
  · rename_i past
    right
    obtain ⟨inside, value⟩ := List.getElem?_eq_some_iff.mp found
    rw [List.length_singleton] at inside
    refine ⟨by omega, ?_⟩
    rw [← value, List.getElem_singleton]

theorem Sound.renew (sound : a.Sound size) (i : Nat) : (a.renew i).Sound size := by
  apply sound.fresh (k := i)
  intro j c found
  by_cases here : i = j
  · subst here
    right
    have member : i < a.cursors.length := by
      have inside := (List.getElem?_eq_some_iff.mp found).1
      rwa [List.length_set] at inside
    rw [List.getElem?_set_self member, Option.some.injEq] at found
    exact ⟨rfl, found.symm⟩
  · rw [List.getElem?_set_ne here] at found
    exact .inl found

/-- What is handed out lies after everything that was handed out of the region before. -/
theorem Sound.take (sound : a.Sound size) (found : a.cursors[i]? = some c) {length : Nat} (fits : c.used + length ≤ size) :
    (a.take i c length).Sound size := by
  have inside := (List.getElem?_eq_some_iff.mp found).1
  have moved : ∀ (j : Nat) (c' : Cursor), (a.take i c length).cursors[j]? = some c' →
      (i = j ∧ c' = { c with used := c.used + length }) ∨ (i ≠ j ∧ a.cursors[j]? = some c') := by
    intro j c' found'
    have found' : (a.cursors.set i { c with used := c.used + length })[j]? = some c' := found'
    by_cases here : i = j
    · subst here
      rw [List.getElem?_set_self inside, Option.some.injEq] at found'
      exact .inl ⟨rfl, found'.symm⟩
    · rw [List.getElem?_set_ne here] at found'
      exact .inr ⟨here, found'⟩
  refine ⟨?_, ?_, ?_, ?_, ?_⟩
  · intro j c' found'
    cases moved j c' found' with
    | inl here =>
      obtain ⟨_, rfl⟩ := here
      exact ⟨(sound.cursor i c found).1, fits⟩
    | inr other => exact sound.cursor j c' other.2
  · intro j j' c' c'' found' found'' same
    have region : ∀ (k : Nat) (c₁ : Cursor), (a.take i c length).cursors[k]? = some c₁ →
        ∃ c₂ : Cursor, a.cursors[k]? = some c₂ ∧ c₂.region = c₁.region := by
      intro k c₁ found₁
      cases moved k c₁ found₁ with
      | inl here =>
        obtain ⟨rfl, rfl⟩ := here
        exact ⟨c, found, rfl⟩
      | inr other => exact ⟨c₁, other.2, rfl⟩
    obtain ⟨c₁, old, same₁⟩ := region j c' found'
    obtain ⟨c₂, old', same₂⟩ := region j' c'' found''
    exact sound.apart j j' c₁ c₂ old old' (by rw [same₁, same₂, same])
  · show ∀ s ∈ a.handed ++ [_], _
    rw [List.forall_mem_append]
    refine ⟨sound.span, ?_⟩
    intro s member
    rw [List.mem_singleton.mp member]
    exact ⟨(sound.cursor i c found).1, fits⟩
  · show ∀ s ∈ a.handed ++ [_], _
    rw [List.forall_mem_append]
    constructor
    · intro s member j c' found' same
      cases moved j c' found' with
      | inl here =>
        obtain ⟨_, rfl⟩ := here
        exact Nat.le_trans (sound.behind s member i c found same) (Nat.le_add_right _ _)
      | inr other => exact sound.behind s member j c' other.2 same
    · intro s member j c' found' same
      rw [List.mem_singleton.mp member] at same ⊢
      cases moved j c' found' with
      | inl here =>
        obtain ⟨_, rfl⟩ := here
        exact Nat.le_refl _
      | inr other => exact absurd (sound.apart i j c c' found other.2 same.symm) other.1
  · show (a.handed ++ [_]).Pairwise _
    rw [List.pairwise_append]
    refine ⟨sound.disjoint, List.pairwise_singleton _ _, ?_⟩
    intro s member t last
    rw [List.mem_singleton.mp last]
    by_cases same : s.region = c.region
    · exact .inr (.inl (sound.behind s member i c found same.symm))
    · exact .inl same

end Arena
end Bump
