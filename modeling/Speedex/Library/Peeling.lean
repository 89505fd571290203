import Mathlib.Algebra.BigOperators.Group.Finset.Basic
import Mathlib.Data.Finset.Powerset
import Mathlib.Tactic.Common

set_option autoImplicit false

/- Tables of sums, from which keys are peeled: every key adds a value to the cells that it lies in, and
a cell with a single key left gives that key away. -/
namespace Peeling

variable {Key Cell G : Type} (lies : Key → Cell → Prop) [∀ k c, Decidable (lies k c)]

/-- The keys of a set that lie in a cell. -/
def keysAt (s : Finset Key) (c : Cell) : Finset Key := s.filter (lies · c)

theorem mem_keysAt {s : Finset Key} {c : Cell} {k : Key} : k ∈ keysAt lies s c ↔ k ∈ s ∧ lies k c :=
  Finset.mem_filter

/-- No cell has a single key of the set. -/
def Stopping (s : Finset Key) : Prop := ∀ c k, keysAt lies s c ≠ {k}

/-- What peeling leaves behind: the keys of the stopping sets. -/
def InCore (s : Finset Key) (k : Key) : Prop := ∃ t ⊆ s, Stopping lies t ∧ k ∈ t

variable {lies}

theorem keysAt_mono {s t : Finset Key} (sub : t ⊆ s) (c : Cell) : keysAt lies t c ⊆ keysAt lies s c :=
  Finset.filter_subset_filter _ sub

theorem keysAt_insert [DecidableEq Key] (s : Finset Key) (c : Cell) (k : Key) :
    keysAt lies (insert k s) c = if lies k c then insert k (keysAt lies s c) else keysAt lies s c :=
  Finset.filter_insert _ _ _

theorem keysAt_erase [DecidableEq Key] (s : Finset Key) (c : Cell) (k : Key) :
    keysAt lies (s.erase k) c = (keysAt lies s c).erase k :=
  Finset.filter_erase _ _ _

/-- A key that is alone in a cell is in no stopping set. -/
theorem not_inCore {s : Finset Key} {c : Cell} {k : Key} (alone : keysAt lies s c = {k}) : ¬ InCore lies s k := by
  rintro ⟨t, sub, stopping, member⟩
  have inside : lies k c := ((mem_keysAt lies).mp (alone ▸ Finset.mem_singleton_self k)).2
  apply stopping c k
  apply Finset.Subset.antisymm
  · exact alone ▸ keysAt_mono sub c
  · exact Finset.singleton_subset_iff.mpr ((mem_keysAt lies).mpr ⟨member, inside⟩)

/-- Peeling a key that is alone in a cell leaves the core as it is. -/
theorem inCore_erase [DecidableEq Key] {s : Finset Key} {c : Cell} {k : Key} (alone : keysAt lies s c = {k}) (key : Key) :
    InCore lies (s.erase k) key ↔ InCore lies s key := by
  constructor
  · rintro ⟨t, sub, stopping, member⟩
    exact ⟨t, sub.trans (Finset.erase_subset k s), stopping, member⟩
  · rintro ⟨t, sub, stopping, member⟩
    have outside : k ∉ t := fun inside => not_inCore alone ⟨t, sub, stopping, inside⟩
    exact ⟨t, Finset.subset_erase.mpr ⟨sub, outside⟩, stopping, member⟩

/-- When nothing can be peeled any more, the core is what is left. -/
theorem inCore_of_stopping {s : Finset Key} (stopping : Stopping lies s) (k : Key) : InCore lies s k ↔ k ∈ s :=
  ⟨fun core => by obtain ⟨t, sub, _, member⟩ := core; exact sub member,
    fun member => ⟨s, Finset.Subset.refl s, stopping, member⟩⟩

variable [AddCommGroup G] {value : Key → G}

variable (lies value) in
/-- Every cell is the sum over the keys that lie in it. -/
def Holds (table : Cell → G) (s : Finset Key) : Prop := ∀ c, table c = ∑ k ∈ keysAt lies s c, value k

theorem Holds.empty : Holds lies value (0 : Cell → G) ∅ := by
  intro c
  have none : keysAt lies (∅ : Finset Key) c = ∅ := Finset.filter_empty _
  rw [none, Finset.sum_empty, Pi.zero_apply]

variable [DecidableEq Key]

theorem Holds.insert {table : Cell → G} {s : Finset Key} (holds : Holds lies value table s) {k : Key}
    (fresh : k ∉ s) {table' : Cell → G}
    (added : ∀ c, table' c = if lies k c then table c + value k else table c) :
    Holds lies value table' (insert k s) := by
  intro c
  rw [added c, holds c, keysAt_insert]
  by_cases inside : lies k c
  · have outside : k ∉ keysAt lies s c := fun member => fresh ((mem_keysAt lies).mp member).1
    rw [if_pos inside, if_pos inside, Finset.sum_insert outside, add_comm]
  · rw [if_neg inside, if_neg inside]

/-- Taking a key's value out of its cells takes the key out of the set. -/
theorem Holds.erase {table : Cell → G} {s : Finset Key} (holds : Holds lies value table s) {k : Key}
    (member : k ∈ s) {table' : Cell → G}
    (removed : ∀ c, table' c = if lies k c then table c - value k else table c) :
    Holds lies value table' (s.erase k) := by
  intro c
  rw [removed c, holds c, keysAt_erase]
  by_cases inside : lies k c
  · have present : k ∈ keysAt lies s c := (mem_keysAt lies).mpr ⟨member, inside⟩
    rw [if_pos inside, Finset.sum_erase_eq_sub present]
  · have absent : k ∉ keysAt lies s c := fun present => inside ((mem_keysAt lies).mp present).2
    rw [if_neg inside, Finset.erase_eq_of_notMem absent]

/-- The keys of both tables cancel in the difference. -/
theorem Holds.sub {table table' : Cell → G} {s t : Finset Key} (holds : Holds lies value table s)
    (holds' : Holds lies value table' t) :
    Holds lies (fun k => if k ∈ s then value k else - value k) (fun c => table c - table' c)
      ((s \ t) ∪ (t \ s)) := by
  intro c
  have parts : keysAt lies ((s \ t) ∪ (t \ s)) c =
      (keysAt lies s c \ keysAt lies t c) ∪ (keysAt lies t c \ keysAt lies s c) := by
    ext k
    simp only [mem_keysAt, Finset.mem_union, Finset.mem_sdiff]
    tauto
  have apart : Disjoint (keysAt lies s c \ keysAt lies t c) (keysAt lies t c \ keysAt lies s c) := by
    rw [Finset.disjoint_left]
    intro k first second
    exact (Finset.mem_sdiff.mp second).2 (Finset.mem_sdiff.mp first).1
  have first : ∑ k ∈ keysAt lies s c \ keysAt lies t c, (if k ∈ s then value k else - value k) =
      ∑ k ∈ keysAt lies s c \ keysAt lies t c, value k := by
    refine Finset.sum_congr rfl (fun k member => ?_)
    rw [if_pos ((mem_keysAt lies).mp (Finset.mem_sdiff.mp member).1).1]
  have second : ∑ k ∈ keysAt lies t c \ keysAt lies s c, (if k ∈ s then value k else - value k) =
      - ∑ k ∈ keysAt lies t c \ keysAt lies s c, value k := by
    rw [← Finset.sum_neg_distrib]
    refine Finset.sum_congr rfl (fun k member => ?_)
    obtain ⟨there, absent⟩ := Finset.mem_sdiff.mp member
    have outside : k ∉ s := fun inside => absent ((mem_keysAt lies).mpr ⟨inside, ((mem_keysAt lies).mp there).2⟩)
    rw [if_neg outside]
  show table c - table' c = _
  rw [holds c, holds' c, parts, Finset.sum_union apart, first, second,
    ← Finset.sum_sdiff_sub_sum_sdiff, sub_eq_add_neg]

end Peeling
