import Speedex.Trie.Merge

set_option autoImplicit false

/- Merging two shaped tries never fails below a root and unites their contents. -/
namespace Speedex

namespace TrieNode

variable {V : Type} {keyLen : Nat} {required : Key → Nat → Prop}

theorem compactAt_invalidateHash {t : TrieNode V} (compact : t.CompactAt required) :
    t.invalidateHash.CompactAt required := by
  cases t with
  | leaf => exact compactAt_leaf _ _ _ _
  | node => exact (compactAt_node _ _ _ _ _).mpr ((compactAt_node _ _ _ _ _).mp compact)

theorem under_invalidateHash {p : Key} {t : TrieNode V} : Under p t.invalidateHash ↔ Under p t := by
  simp [Under]

variable {a b : TrieNode V} {n : Nat}

/-- Agreement of the two prefixes up to the match length. -/
theorem take_matchLen (matched : n = a.getPrefixMatchLen b.pfx b.prefixLen) :
    a.pfx.take n = b.pfx.take n := by
  refine Digits.take_of_take (Digits.take_commonLen a.pfx b.pfx) ?_
  rw [matched, getPrefixMatchLen]
  exact Nat.min_le_left _ _

/-- The two children of a fork. -/
theorem fork_child {d : Digit} {c : TrieNode V} (occupied : (fork a b n).children d = some c) :
    d = getBranchBits n b.pfx ∧ c = b ∨ d = getBranchBits n a.pfx ∧ c = a.invalidateHash := by
  rw [fork, node_children, Branches.update_eq_some_iff, Branches.update_eq_some_iff] at occupied
  rcases occupied with ⟨atB, same⟩ | ⟨-, ⟨atA, same⟩ | ⟨-, bare⟩⟩
  · exact Or.inl ⟨atB, (Option.some.inj same).symm⟩
  · exact Or.inr ⟨atA, (Option.some.inj same).symm⟩
  · cases bare

theorem total_fork (apart : getBranchBits n a.pfx ≠ getBranchBits n b.pfx) {M : Type}
    [AddCommMonoid M] (w : TrieNode V → M) :
    Branches.total w (fork a b n).children = w b + w a.invalidateHash := by
  rw [fork, node_children, Branches.total_eq_add_others _ _ (getBranchBits n b.pfx),
    Branches.others_update, Function.update_self, Branches.weight_some]
  have rest := Branches.total_eq_add_others w
    (Function.update Branches.empty (getBranchBits n a.pfx) (some a.invalidateHash))
    (getBranchBits n b.pfx)
  rw [Function.update_of_ne apart.symm, Branches.empty_apply, Branches.weight_none, zero_add] at rest
  rw [← rest, Branches.total_eq_add_others _ _ (getBranchBits n a.pfx), Branches.others_update,
    Function.update_self, Branches.weight_some]
  have bare := Branches.total_eq_add_others w (Branches.empty : Fin 16 → Option (TrieNode V))
    (getBranchBits n a.pfx)
  rw [Branches.total_empty, Branches.empty_apply, Branches.weight_none, zero_add] at bare
  rw [← bare, add_zero]

theorem find_update {pfx : Key} {len : Nat} {cs : Fin 16 → Option (TrieNode V)} {m : Metadata}
    {h : Option Hash} {d : Digit} {slot : Option (TrieNode V)} (query : Key) :
    (node pfx len (Function.update cs d slot) m h).find query =
      if Digits.digit query len = d then findSlot slot query
      else findSlot (cs (Digits.digit query len)) query := by
  rw [find_node]
  by_cases here : Digits.digit query len = d
  · rw [if_pos here, here, Function.update_self]
  · rw [if_neg here, Function.update_of_ne here]

theorem compactOn_invalidateHash {k : Key} {t : TrieNode V} (compact : t.CompactOn k) :
    t.invalidateHash.CompactOn k := by
  cases t with
  | leaf => exact compactOn_leaf _ _ _ _ _
  | node => exact (compactOn_node _ _ _ _ _ _).mpr ((compactOn_node _ _ _ _ _ _).mp compact)

theorem compactOn_update {k pfx : Key} {len : Nat} {cs : Fin 16 → Option (TrieNode V)} {m m' : Metadata}
    {h h' : Option Hash} {d : Digit} {c : TrieNode V} (node : (node pfx len cs m h).CompactOn k)
    (new : k.take len = pfx.take len → d = getBranchBits len k → c.CompactOn k) :
    (TrieNode.node pfx len (Function.update cs d (some c)) m' h').CompactOn k := by
  obtain ⟨two, on⟩ := (compactOn_node _ _ _ _ _ _).mp node
  refine (compactOn_node _ _ _ _ _ _).mpr ⟨two.trans (Branches.occupied_update_le cs d c), fun here e there => ?_⟩
  rcases Branches.update_eq_some_iff.mp there with ⟨same, at_d⟩ | ⟨-, at_d⟩
  · cases at_d
    exact new here same.symm
  · exact on here e at_d

theorem compactAt_update {pfx : Key} {len : Nat} {cs : Fin 16 → Option (TrieNode V)} {m m' : Metadata}
    {h h' : Option Hash} {d : Digit} {c : TrieNode V} (node : (node pfx len cs m h).CompactAt required)
    (child : c.CompactAt required) : (TrieNode.node pfx len (Function.update cs d (some c)) m' h').CompactAt required := by
  obtain ⟨one, two, all⟩ := (compactAt_node _ _ _ _ _).mp node
  refine (compactAt_node _ _ _ _ _).mpr ⟨one.trans (Branches.occupied_update_le cs d c),
    fun needed => (two needed).trans (Branches.occupied_update_le cs d c), ?_⟩
  intro e c' occupied
  rcases Branches.update_eq_some_iff.mp occupied with ⟨-, here⟩ | ⟨-, there⟩
  · exact (Option.some.inj here) ▸ child
  · exact all e c' there

variable [TrieValue V]

theorem find_eq_none_of_digit {pfx : Key} {len : Nat} {c : TrieNode V} {b : Digit}
    (shaped : Shaped keyLen c) (inner : len < keyLen) (full : pfx.length = keyLen)
    (placed : Under (pfx.take len ++ [b]) c) {query : Key} (other : Digits.digit query len ≠ b) :
    c.find query = none := by
  cases found : c.find query with
  | none => rfl
  | some l => exact absurd (find_child_digit shaped inner full placed found).2 other

/-- What a merge of `b` into `a` leaves behind. -/
structure MergedInto (mergeFn : MergeFn V) (keyLen : Nat) (a b c : TrieNode V) : Prop where
  shaped : Shaped keyLen c
  find : ∀ query, c.find query = Option.merge mergeFn.leaf (a.find query) (b.find query)
  under : ∀ p, Under p a → Under p b → Under p c
  compact : ∀ required, a.CompactAt required → b.CompactAt required → c.CompactAt required
  compactOn : ∀ k, a.CompactOn k → b.CompactOn k → c.CompactOn k

variable {mergeFn : MergeFn V}

theorem Shaped.invalidateHash {t : TrieNode V} (shaped : Shaped keyLen t) :
    Shaped keyLen t.invalidateHash := by
  cases shaped with
  | leaf full own => exact .leaf full own
  | node inner full zeros shaped placed sum => exact .node inner full zeros shaped placed sum

/-- A subtree whose prefix goes beyond `n` lies under its own branch at `n`. -/
theorem under_branch {t : TrieNode V} (shaped : Shaped keyLen t) {pfx : Key} {n : Nat}
    (deep : n < t.prefixLen) (full : pfx.length = keyLen) (same : pfx.take n = t.pfx.take n) :
    Under (pfx.take n ++ [getBranchBits n t.pfx]) t := by
  have inside := shaped.prefixLen_le
  have whole := shaped.pfx_length
  have span : (pfx.take n ++ [getBranchBits n t.pfx]).length = n + 1 := by
    simp [full]
    omega
  rw [Under, span]
  refine ⟨deep, ?_⟩
  rw [Digits.take_succ_digit (by omega : n < t.pfx.length), same]
  rfl

/-- Below both prefix lengths the match length is the common prefix, where the keys part. -/
theorem matchLen_parts (left : Shaped keyLen a) (right : Shaped keyLen b)
    (matched : n = a.getPrefixMatchLen b.pfx b.prefixLen) (short : n < a.prefixLen)
    (short' : n < b.prefixLen) :
    n = Digits.commonLen a.pfx b.pfx ∧ getBranchBits n a.pfx ≠ getBranchBits n b.pfx := by
  have inside := left.prefixLen_le
  have whole := left.pfx_length
  have common : n = Digits.commonLen a.pfx b.pfx := by
    rw [getPrefixMatchLen] at matched
    omega
  refine ⟨common, ?_⟩
  have apart : a.pfx ≠ b.pfx := by
    intro same
    rw [← same, Digits.commonLen_self] at common
    omega
  rw [common]
  exact (Digits.digit_commonLen_ne (whole.trans right.pfx_length.symm) apart).2

theorem under_le_matchLen (left : Shaped keyLen a) (right : Shaped keyLen b)
    (matched : n = a.getPrefixMatchLen b.pfx b.prefixLen) {p : Key} (belowA : Under p a)
    (belowB : Under p b) : p.length ≤ n := by
  have insideA := left.prefixLen_le
  have insideB := right.prefixLen_le
  have wholeA := left.pfx_length
  have wholeB := right.pfx_length
  have lenA := belowA.1
  have lenB := belowB.1
  have common := (Digits.le_commonLen_iff (by omega) (by omega)).mpr (belowA.2.trans belowB.2.symm)
  rw [matched, getPrefixMatchLen]
  omega

theorem fork_spec (left : Shaped keyLen a) (right : Shaped keyLen b)
    (matched : n = a.getPrefixMatchLen b.pfx b.prefixLen) (short : n < a.prefixLen)
    (short' : n < b.prefixLen) : MergedInto mergeFn keyLen a b (fork a b n) := by
  obtain ⟨-, apart⟩ := matchLen_parts left right matched short short'
  have insideA := left.prefixLen_le
  have wholeA := left.pfx_length
  have inner : n < keyLen := by omega
  have agree := take_matchLen matched
  have cut : (Digits.truncate a.pfx n).take n = a.pfx.take n :=
    Digits.take_truncate _ (by omega)
  have placedA := under_branch left.invalidateHash (by simpa using short) wholeA (by simp)
  have placedB := under_branch right short' wholeA agree
  refine ⟨?_, ?_, ?_, ?_, ?_⟩
  · refine .node inner ?_ ?_ ?_ ?_ ?_
    · rw [Digits.length_truncate _ (by omega), wholeA]
    · exact Digits.truncate_idem _ (by omega)
    · intro d c occupied
      rcases fork_child occupied with ⟨-, rfl⟩ | ⟨-, rfl⟩
      · exact right
      · exact left.invalidateHash
    · intro d c occupied
      rw [cut]
      rcases fork_child occupied with ⟨rfl, rfl⟩ | ⟨rfl, rfl⟩
      · exact placedB
      · simpa using placedA
    · have summed := total_fork apart metadata
      rw [invalidateHash_metadata, add_comm] at summed
      exact summed.symm
  · intro query
    rw [fork, find_node]
    by_cases atB : Digits.digit query n = getBranchBits n b.pfx
    · rw [atB, Function.update_self, findSlot_some, ← invalidateHash_find a,
        find_eq_none_of_digit left.invalidateHash inner wholeA placedA (by
          rw [atB, invalidateHash_pfx]
          exact apart.symm), Option.merge_none_left]
    · rw [Function.update_of_ne atB, find_eq_none_of_digit right inner wholeA placedB atB,
        Option.merge_none_right]
      by_cases atA : Digits.digit query n = getBranchBits n a.pfx
      · rw [atA, Function.update_self, findSlot_some, invalidateHash_find]
      · rw [Function.update_of_ne atA, Branches.empty_apply, findSlot_none, ← invalidateHash_find a,
          find_eq_none_of_digit left.invalidateHash inner wholeA placedA
            (by rw [invalidateHash_pfx]; exact atA)]
  · intro p belowA belowB
    have low := under_le_matchLen left right matched belowA belowB
    refine ⟨low, ?_⟩
    rw [fork, node_pfx, Digits.take_truncate_of_le _ (by omega) low]
    exact belowA.2
  · intro required compactA compactB
    have two : Branches.occupied (fork a b n).children = 2 := total_fork apart _
    refine (compactAt_node _ _ _ _ _).mpr ⟨two.ge.trans' (by omega), fun _ => two.ge, ?_⟩
    intro d c occupied
    rcases fork_child occupied with ⟨-, rfl⟩ | ⟨-, rfl⟩
    · exact compactB
    · exact compactAt_invalidateHash compactA
  · intro k compactA compactB
    have two : Branches.occupied (fork a b n).children = 2 := total_fork apart _
    refine (compactOn_node _ _ _ _ _ _).mpr ⟨two.ge, fun _ c occupied => ?_⟩
    rcases fork_child occupied with ⟨-, rfl⟩ | ⟨-, rfl⟩
    · exact compactB
    · exact compactOn_invalidateHash compactA

/-- One branch of a node is replaced by a subtree that lies under it. -/
theorem Shaped.update {pfx : Key} {len : Nat} {cs : Fin 16 → Option (TrieNode V)} {m m' : Metadata}
    {h h' : Option Hash} (node : Shaped keyLen (.node pfx len cs m h)) {d : Digit}
    {slot : Option (TrieNode V)}
    (fits : ∀ c, slot = some c → Shaped keyLen c ∧ Under (pfx.take len ++ [d]) c)
    (sum : m' = m - Branches.weight metadata (cs d) + Branches.weight metadata slot) :
    Shaped keyLen (.node pfx len (Function.update cs d slot) m' h') := by
  cases node with
  | node inner full zeros shaped placed total =>
    refine .node inner full zeros ?_ ?_ ?_
    · intro e c occupied
      rcases Branches.update_eq_some_iff.mp occupied with ⟨-, here⟩ | ⟨-, there⟩
      · exact (fits c here).1
      · exact shaped e c there
    · intro e c occupied
      rcases Branches.update_eq_some_iff.mp occupied with ⟨rfl, here⟩ | ⟨-, there⟩
      · exact (fits c here).2
      · exact placed e c there
    · rw [Branches.total_update, ← total, sum]

/-- The result of merging into a slot, and the change of metadata reported for it. -/
def SlotMerged (mergeFn : MergeFn V) (keyLen : Nat) (slot : Option (TrieNode V)) (other : TrieNode V)
    (result : Except String (TrieNode V × Metadata)) : Prop :=
  ∃ c, result = .ok (c, c.metadata - Branches.weight metadata slot) ∧
    match slot with
    | none => c = other
    | some child => MergedInto mergeFn keyLen child other c

theorem SlotMerged.spec {slot : Option (TrieNode V)} {other : TrieNode V}
    {result : Except String (TrieNode V × Metadata)} (merged : SlotMerged mergeFn keyLen slot other result)
    (right : Shaped keyLen other) : ∃ c, result = .ok (c, c.metadata - Branches.weight metadata slot) ∧
      Shaped keyLen c ∧ (∀ query, c.find query = Option.merge mergeFn.leaf (findSlot slot query) (other.find query)) ∧
      (∀ p, (∀ child, slot = some child → Under p child) → Under p other → Under p c) ∧
      (∀ required, (∀ child, slot = some child → child.CompactAt required) →
        other.CompactAt required → c.CompactAt required) ∧
      (∀ k, (∀ child, slot = some child → child.CompactOn k) → other.CompactOn k → c.CompactOn k) := by
  obtain ⟨c, done, how⟩ := merged
  refine ⟨c, done, ?_⟩
  cases slot with
  | none =>
    subst how
    exact ⟨right, fun query => by simp, fun p _ below => below, fun _ _ compact => compact,
      fun _ _ compact => compact⟩
  | some child =>
    exact ⟨how.shaped, fun query => by simpa using how.find query,
      fun p below => how.under p (below child rfl),
      fun required compact => how.compact required (compact child rfl),
      fun k compact => how.compactOn k (compact child rfl)⟩

section Cases

variable {pfx : Key} {len : Nat} {cs : Fin 16 → Option (TrieNode V)} {m : Metadata} {h : Option Hash}
  {descend : Digit → TrieNode V → Except String (TrieNode V × Metadata)}

theorem mergeBelow_spec (left : Shaped keyLen (.node pfx len cs m h)) (right : Shaped keyLen b)
    (same : pfx.take len = b.pfx.take len) (deep : len < b.prefixLen)
    (children : ∀ d, SlotMerged mergeFn keyLen (cs d) b (descend d b)) :
    ∃ c, mergeBelow pfx len cs m b descend = .ok (c, c.metadata - m) ∧
      MergedInto mergeFn keyLen (.node pfx len cs m h) b c := by
  cases left with
  | node inner full zeros shaped placed sum =>
    obtain ⟨child, done, childShaped, found, below, compact, compactOn⟩ :=
      (children (getBranchBits len b.pfx)).spec right
    have placedB := under_branch right deep full same
    simp only [mergeBelow, done, bind, Except.bind]
    refine ⟨_, congrArg Except.ok (Prod.ext rfl ?_), ?_, ?_, ?_, ?_, ?_⟩
    · simp
    · refine (Shaped.node inner full zeros shaped placed sum (h := h)).update ?_
        (by rw [Branches.weight_some]; abel)
      rintro c ⟨⟩
      exact ⟨childShaped, below _ (fun child occupied => placed _ child occupied) placedB⟩
    · intro query
      rw [find_update, find_node]
      by_cases here : Digits.digit query len = getBranchBits len b.pfx
      · rw [if_pos here, here, findSlot_some, found]
      · rw [if_neg here, find_eq_none_of_digit right inner full placedB here, Option.merge_none_right]
    · intro p belowA _
      exact belowA
    · intro required compactA compactB
      refine compactAt_update compactA (compact required ?_ compactB)
      exact fun child occupied => ((compactAt_node _ _ _ _ _).mp compactA).2.2 _ child occupied
    · intro k compactA compactB
      refine compactOn_update compactA (fun on same => compactOn k ?_ compactB)
      intro child occupied
      exact ((compactOn_node _ _ _ _ _ _).mp compactA).2 on child (same ▸ occupied)

theorem mergeAbove_spec {ascend : Digit → Except String (TrieNode V × Metadata)}
    (left : Shaped keyLen a) (right : Shaped keyLen (.node pfx len cs m h))
    (same : a.pfx.take len = pfx.take len) (deep : len < a.prefixLen)
    (children : ∀ d sub, cs d = some sub → ∃ c, ascend d = .ok (c, c.metadata - a.metadata) ∧
      MergedInto mergeFn keyLen a sub c) :
    ∃ c, mergeAbove a pfx len cs m ascend = .ok (c, c.metadata - a.metadata) ∧
      MergedInto mergeFn keyLen a (.node pfx len cs m h) c := by
  cases right with
  | node inner full zeros shaped placed sum =>
    have placedA := under_branch left.invalidateHash (by simpa using deep) full (by simpa using same.symm)
    rw [invalidateHash_pfx] at placedA
    have whole : Shaped keyLen (.node pfx len cs m h) := .node inner full zeros shaped placed sum
    have elsewhere : ∀ query, Digits.digit query len ≠ getBranchBits len a.pfx → a.find query = none := by
      intro query other
      rw [← invalidateHash_find]
      exact find_eq_none_of_digit left.invalidateHash inner full placedA other
    cases occupied : cs (getBranchBits len a.pfx) with
    | none =>
      simp only [mergeAbove, occupied]
      refine ⟨_, congrArg Except.ok (Prod.ext rfl ?_), ?_, ?_, ?_, ?_, ?_⟩
      · simp
      · refine whole.update ?_ (by simp [occupied])
        rintro c ⟨⟩
        exact ⟨left.invalidateHash, placedA⟩
      · intro query
        rw [find_update, find_node]
        by_cases here : Digits.digit query len = getBranchBits len a.pfx
        · simp [here, occupied]
        · rw [if_neg here, elsewhere query here, Option.merge_none_left]
      · exact fun p _ belowB => belowB
      · exact fun required compactA compactB => compactAt_update compactB (compactAt_invalidateHash compactA)
      · exact fun k compactA compactB =>
          compactOn_update compactB (fun _ _ => compactOn_invalidateHash compactA)
    | some sub =>
      obtain ⟨child, done, merged⟩ := children _ sub occupied
      simp only [mergeAbove, occupied, done, bind, Except.bind]
      refine ⟨_, congrArg Except.ok (Prod.ext rfl ?_), ?_, ?_, ?_, ?_, ?_⟩
      · simp
      · refine whole.update ?_ (by simp only [occupied, Branches.weight_some]; abel)
        rintro c ⟨⟩
        refine ⟨merged.shaped, merged.under _ ?_ (placed _ sub occupied)⟩
        exact under_invalidateHash.mp placedA
      · intro query
        rw [find_update, find_node]
        by_cases here : Digits.digit query len = getBranchBits len a.pfx
        · rw [if_pos here, here, findSlot_some, occupied, findSlot_some, merged.find]
        · rw [if_neg here, elsewhere query here, Option.merge_none_left]
      · exact fun p _ belowB => belowB
      · intro required compactA compactB
        refine compactAt_update compactB (merged.compact required compactA ?_)
        exact ((compactAt_node _ _ _ _ _).mp compactB).2.2 _ sub occupied
      · intro k compactA compactB
        refine compactOn_update compactB (fun on same => merged.compactOn k compactA ?_)
        exact ((compactOn_node _ _ _ _ _ _).mp compactB).2 on sub (same ▸ occupied)

theorem mergeSamePrefix_spec {pfx' : Key} {cs' : Fin 16 → Option (TrieNode V)} {m' : Metadata}
    {h' : Option Hash} (left : Shaped keyLen (.node pfx len cs m h))
    (right : Shaped keyLen (.node pfx' len cs' m' h')) (same : pfx.take len = pfx'.take len)
    (children : ∀ d o, cs' d = some o → SlotMerged mergeFn keyLen (cs d) o (descend d o)) :
    ∃ c, mergeSamePrefix pfx len cs m cs' descend = .ok (c, c.metadata - m) ∧
      MergedInto mergeFn keyLen (.node pfx len cs m h) (.node pfx' len cs' m' h') c := by
  cases left with
  | node inner full zeros shaped placed sum =>
  cases right with
  | node inner' full' zeros' shaped' placed' sum' =>
    -- one branch: its new slot, with the facts the branch contributes
    have branch : ∀ d, ∃ slot : Option (TrieNode V),
        mergeBranch (cs d) (cs' d) (descend d) =
          .ok (slot, Branches.weight metadata slot - Branches.weight metadata (cs d)) ∧
        (∀ c, slot = some c → Shaped keyLen c ∧ Under (pfx.take len ++ [d]) c) ∧
        (∀ query, findSlot slot query = Option.merge mergeFn.leaf (findSlot (cs d) query) (findSlot (cs' d) query)) ∧
        (∀ required, (∀ c, cs d = some c → c.CompactAt required) →
          (∀ c, cs' d = some c → c.CompactAt required) → ∀ c, slot = some c → c.CompactAt required) ∧
        (slot = none → cs d = none) ∧
        (∀ k, (∀ c, cs d = some c → c.CompactOn k) →
          (∀ c, cs' d = some c → c.CompactOn k) → ∀ c, slot = some c → c.CompactOn k) := by
      intro d
      cases at_d : cs' d with
      | none =>
        refine ⟨cs d, by simp [mergeBranch], fun c occupied => ⟨shaped d c occupied, placed d c occupied⟩,
          fun query => by simp, fun _ all _ => all, id, fun _ all _ => all⟩
      | some o =>
        obtain ⟨child, done, childShaped, found, below, compact, compactOn⟩ :=
          (children d o at_d).spec (shaped' d o at_d)
        refine ⟨some child, by simp [mergeBranch, done, bind, Except.bind], ?_,
          fun query => by simp [found], ?_, by simp, ?_⟩
        · rintro c ⟨⟩
          exact ⟨childShaped, below _ (placed d) (same ▸ placed' d o at_d)⟩
        · rintro required all all' c ⟨⟩
          exact compact required all (all' o rfl)
        · rintro k all all' c ⟨⟩
          exact compactOn k all (all' o rfl)
    choose slots done fits found compact kept compactOn using branch
    have whole := Branches.sequence_ok done
    simp only [mergeSamePrefix, whole, bind, Except.bind]
    have delta : ∑ d, (Branches.weight metadata (slots d) - Branches.weight metadata (cs d)) =
        Branches.total metadata slots - m := by
      rw [Finset.sum_sub_distrib, sum]
      rfl
    rw [delta]
    refine ⟨_, congrArg Except.ok (Prod.ext rfl ?_), ?_, ?_, ?_, ?_, ?_⟩
    · simp
    · refine .node inner full zeros (fun d c occupied => (fits d c occupied).1)
        (fun d c occupied => (fits d c occupied).2) ?_
      abel
    · intro query
      simp only [find_node, found]
    · exact fun p belowA _ => belowA
    · intro required compactA compactB
      obtain ⟨one, two, all⟩ := (compactAt_node _ _ _ _ _).mp compactA
      obtain ⟨-, -, all'⟩ := (compactAt_node _ _ _ _ _).mp compactB
      exact (compactAt_node _ _ _ _ _).mpr
        ⟨one.trans (Branches.occupied_le kept),
          fun needed => (two needed).trans (Branches.occupied_le kept),
          fun d => compact d required (all d) (all' d)⟩
    · intro k compactA compactB
      obtain ⟨two, on⟩ := (compactOn_node _ _ _ _ _ _).mp compactA
      have on' := ((compactOn_node _ _ _ _ _ _).mp compactB).2
      exact (compactOn_node _ _ _ _ _ _).mpr ⟨two.trans (Branches.occupied_le kept),
        fun here => compactOn _ k (on here) (on' (here.trans same))⟩

end Cases

/-- A node `_merge_in` refuses: the root of an empty trie. -/
def Bare (t : TrieNode V) : Prop := Branches.occupied t.children = 0 ∧ t.prefixLen = 0

/-- A leaf that is merged with another leaf of its key. -/
theorem mergedInto_leaf {key : Key} {value value' : V} {m m' : Metadata} {h h' : Option Hash}
    (left : Shaped keyLen (.leaf key value m h)) (right : Shaped keyLen (.leaf key value' m' h')) :
    MergedInto mergeFn keyLen (.leaf key value m h) (.leaf key value' m' h')
      (.leaf key (mergeFn.valueMerge value value') (mergeFn.metadataMerge m m').1 none) := by
  cases left with
  | leaf full own =>
  cases right with
  | leaf _ own' =>
    refine ⟨.leaf full (mergeFn.leafMetadata own own'), ?_, fun p below _ => below, fun _ _ _ => compactAt_leaf _ _ _ _,
      fun _ _ _ => compactOn_leaf _ _ _ _ _⟩
    intro query
    by_cases same : query = key <;> simp [same, MergeFn.leaf]

/-- One call of `_merge_in` succeeds if the calls it makes do. -/
theorem mergeCases_spec {descend : Digit → TrieNode V → Except String (TrieNode V × Metadata)}
    {ascend : Digit → Except String (TrieNode V × Metadata)} (left : Shaped keyLen a)
    (right : Shaped keyLen b) (filled : ¬ Bare a)
    (below : ∀ d o, Shaped keyLen o → SlotMerged mergeFn keyLen (a.children d) o (descend d o))
    (above : ∀ d sub, b.children d = some sub → ∃ c, ascend d = .ok (c, c.metadata - a.metadata) ∧
      MergedInto mergeFn keyLen a sub c) :
    ∃ c, mergeCases mergeFn a b descend ascend = .ok (c, c.metadata - a.metadata) ∧ MergedInto mergeFn keyLen a b c := by
  obtain ⟨n, matched⟩ : ∃ n, n = a.getPrefixMatchLen b.pfx b.prefixLen := ⟨_, rfl⟩
  have agree := take_matchLen matched
  have low : n ≤ a.prefixLen ∧ n ≤ b.prefixLen := by
    rw [getPrefixMatchLen] at matched
    omega
  have wholeA := left.pfx_length
  have wholeB := right.pfx_length
  have forked (shortA : n ≠ a.prefixLen) (shortB : n ≠ b.prefixLen) :
      ∃ c, (Except.ok (fork a b n, b.metadata) : Except String _) = .ok (c, c.metadata - a.metadata) ∧
        MergedInto mergeFn keyLen a b c := by
    refine ⟨fork a b n, by simp [fork], fork_spec left right matched ?_ ?_⟩ <;> omega
  cases a with
  | leaf key value m h =>
    cases b with
    | leaf key' value' m' h' =>
      simp only [leaf_pfx, leaf_prefixLen] at wholeA wholeB agree low forked
      simp only [mergeCases, ← matched]
      by_cases all : n = key.length
      · rw [if_pos all]
        rw [all, List.take_length, wholeA, ← wholeB, List.take_length] at agree
        subst agree
        exact ⟨_, congrArg Except.ok (Prod.ext rfl (mergeFn.delta_eq m m')), mergedInto_leaf left right⟩
      · rw [if_neg all]
        exact forked all (by omega)
    | node pfx' len' cs' m' h' =>
      have inner : len' < keyLen := by cases right; assumption
      simp only [leaf_pfx, leaf_prefixLen, node_pfx, node_prefixLen] at wholeA agree low forked
      simp only [mergeCases, ← matched]
      by_cases all : n = len'
      · rw [if_pos all]
        rw [all] at agree
        exact mergeAbove_spec left right agree (by rw [leaf_prefixLen]; omega) above
      · rw [if_neg all]
        exact forked (by omega) all
  | node pfx len cs m h =>
    have inner : len < keyLen := by cases left; assumption
    have some : ¬ (Branches.occupied cs = 0 ∧ len = 0) := filled
    cases b with
    | leaf key' value' m' h' =>
      simp only [node_pfx, node_prefixLen, leaf_pfx, leaf_prefixLen] at wholeB agree low forked
      simp only [mergeCases, if_neg some, ← matched]
      by_cases all : n = len
      · rw [if_pos all]
        rw [all] at agree
        exact mergeBelow_spec left right agree (by rw [leaf_prefixLen]; omega) (fun d => below d _ right)
      · rw [if_neg all]
        exact forked all (by omega)
    | node pfx' len' cs' m' h' =>
      simp only [node_pfx, node_prefixLen] at agree low forked
      simp only [mergeCases, if_neg some, ← matched]
      by_cases all : n = len
      · rw [all] at agree
        by_cases equal : len = len'
        · rw [if_pos ⟨all, equal⟩]
          subst equal
          refine mergeSamePrefix_spec left right agree (fun d o occupied => below d o ?_)
          cases right with
          | node _ _ _ shaped _ _ => exact shaped d o occupied
        · rw [if_neg (fun both => equal both.2), if_pos all]
          refine mergeBelow_spec left right agree ?_ (fun d => below d _ right)
          rw [node_prefixLen]
          omega
      · rw [if_neg (fun both => all both.1), if_neg all]
        by_cases all' : n = len'
        · rw [if_pos all']
          rw [all'] at agree
          refine mergeAbove_spec left right agree ?_ above
          rw [node_prefixLen]
          omega
        · rw [if_neg all']
          exact forked all all'

section Recursion

variable {descend : Digit → TrieNode V → Except String (TrieNode V × Metadata)}

theorem mergeOnto_ok (left : Shaped keyLen a) (filled : ¬ Bare a)
    (below : ∀ d o, Shaped keyLen o → SlotMerged mergeFn keyLen (a.children d) o (descend d o))
    (right : Shaped keyLen b) :
    ∃ c, mergeOnto mergeFn a descend b = .ok (c, c.metadata - a.metadata) ∧ MergedInto mergeFn keyLen a b c := by
  induction right with
  | leaf full own =>
    rw [mergeOnto]
    refine mergeCases_spec left (.leaf full own) filled below ?_
    intro d sub occupied
    cases occupied
  | node inner full zeros shaped placed sum ih =>
    rw [mergeOnto]
    refine mergeCases_spec left (.node inner full zeros shaped placed sum) filled below ?_
    intro d sub occupied
    rw [node_children] at occupied
    rw [occupied, mergeOntoSlot]
    exact ih d sub occupied

/-- `_merge_in` into anything but an empty root succeeds, reports the change of the metadata and
unites the two tries, the trie merged in taking precedence. -/
theorem mergeIn_ok (left : Shaped keyLen a) (filled : ¬ Bare a) (right : Shaped keyLen b) :
    ∃ c, mergeIn mergeFn a b = .ok (c, c.metadata - a.metadata) ∧ MergedInto mergeFn keyLen a b c := by
  induction left generalizing b with
  | leaf full own =>
    rw [mergeIn]
    refine mergeOnto_ok (.leaf full own) filled ?_ right
    intro d o _
    exact ⟨o, by simp, rfl⟩
  | @node pfx len cs m h inner full zeros shaped placed sum ih =>
    rw [mergeIn]
    refine mergeOnto_ok (.node inner full zeros shaped placed sum) filled ?_ right
    intro d o shapedO
    rw [node_children]
    cases occupied : cs d with
    | none =>
      rw [mergeInSlot]
      exact ⟨o, by simp, rfl⟩
    | some c =>
      rw [mergeInSlot]
      have deep := (placed d c occupied).1
      have notBare : ¬ Bare c := by
        rintro ⟨-, top⟩
        rw [top, List.length_append, List.length_singleton] at deep
        omega
      exact ih d c occupied notBare shapedO

end Recursion

end TrieNode

end Speedex
