import Speedex.Trie.Split

set_option autoImplicit false

/- `clean_singlechild_nodes`: contract the single child nodes that a split leaves on the path of
the key it was made at. -/
namespace Speedex

namespace TrieNode

variable {V : Type}

mutual

/-- Replace a node by its child while it has only one (`while (root->single_child())`). -/
def contract : TrieNode V → TrieNode V
  | .leaf key value metadata hash => .leaf key value metadata hash
  | .node pfx prefixLen children metadata hash =>
    match Branches.lowest 16 (fun b => contractSlot (children b)) with
    | some c => if Branches.occupied children = 1 then c
      else .node pfx prefixLen children metadata hash
    | none => .node pfx prefixLen children metadata hash

def contractSlot : Option (TrieNode V) → Option (TrieNode V)
  | none => none
  | some c => some (contract c)

end

mutual

/-- The child on the explored path: contracted, then cleaned in turn. -/
def cleanContracted (explorePath : Key) : TrieNode V → TrieNode V
  | .leaf key value metadata hash => .leaf key value metadata hash
  | .node pfx prefixLen children metadata hash =>
    let cleaned := TrieNode.node pfx prefixLen
      (fun b => if b = getBranchBits prefixLen explorePath then cleanContractedSlot explorePath (children b)
        else contractSlot (children b)) metadata hash
    match Branches.lowest 16 (fun b => cleanContractedSlot explorePath (children b)) with
    | some c => if Branches.occupied children = 1 then c else cleaned
    | none => cleaned

def cleanContractedSlot (explorePath : Key) : Option (TrieNode V) → Option (TrieNode V)
  | none => none
  | some c => some (cleanContracted explorePath c)

end

/-- `clean_singlechild_nodes`: contract every child, then continue below the explored path. -/
def cleanSinglechildNodes (explorePath : Key) : TrieNode V → TrieNode V
  | .leaf key value metadata hash => .leaf key value metadata hash
  | .node pfx prefixLen children metadata hash =>
    .node pfx prefixLen
      (fun b => if b = getBranchBits prefixLen explorePath then cleanContractedSlot explorePath (children b)
        else contractSlot (children b)) metadata hash

theorem contractSlot_eq_none {slot : Option (TrieNode V)} : contractSlot slot = none ↔ slot = none := by
  cases slot <;> simp [contractSlot]

theorem cleanContractedSlot_eq_none {path : Key} {slot : Option (TrieNode V)} :
    cleanContractedSlot path slot = none ↔ slot = none := by
  cases slot <;> simp [cleanContractedSlot]

/-- A table with one child, whatever is done to the child, has its lowest branch there. -/
theorem lowest_update {f : Option (TrieNode V) → Option (TrieNode V)} (bare : f none = none) {b : Digit}
    {c c' : TrieNode V} (result : f (some c) = some c') :
    Branches.lowest 16 (fun d => f (Function.update Branches.empty b (some c) d)) = some c' := by
  refine Branches.lowest_single (b := b) (by rw [Function.update_self, result]) (fun d apart => ?_)
  rw [Function.update_of_ne apart, Branches.empty_apply, bare]

theorem contract_single {p : Key} {l : Nat} {b : Digit} {c : TrieNode V} {m : Metadata}
    {h : Option Hash} :
    contract (.node p l (Function.update Branches.empty b (some c)) m h) = contract c := by
  have one : Branches.occupied (Function.update Branches.empty b (some c)) = 1 := total_single _ b c
  rw [contract, lowest_update (by rw [contractSlot]) (by rw [contractSlot])]
  exact if_pos one

theorem contract_several {p : Key} {l : Nat} {cs : Fin 16 → Option (TrieNode V)} {m : Metadata}
    {h : Option Hash} (several : Branches.occupied cs ≠ 1) : contract (.node p l cs m h) = .node p l cs m h := by
  rw [contract]
  cases Branches.lowest 16 (fun b => contractSlot (cs b)) with
  | none => rfl
  | some c => exact if_neg several

theorem cleanContracted_single {path p : Key} {l : Nat} {b : Digit} {c : TrieNode V} {m : Metadata}
    {h : Option Hash} :
    cleanContracted path (.node p l (Function.update Branches.empty b (some c)) m h) =
      cleanContracted path c := by
  have one : Branches.occupied (Function.update Branches.empty b (some c)) = 1 := total_single _ b c
  rw [cleanContracted, lowest_update (by rw [cleanContractedSlot]) (by rw [cleanContractedSlot])]
  exact if_pos one

theorem cleanContracted_several {path p : Key} {l : Nat} {cs : Fin 16 → Option (TrieNode V)} {m : Metadata}
    {h : Option Hash} (several : Branches.occupied cs ≠ 1) :
    cleanContracted path (.node p l cs m h) = cleanSinglechildNodes path (.node p l cs m h) := by
  rw [cleanContracted, cleanSinglechildNodes]
  cases Branches.lowest 16 (fun b => cleanContractedSlot path (cs b)) with
  | none => rfl
  | some c => exact if_neg several

/-- Contracting a compact node does nothing. -/
theorem contract_of_compact {t : TrieNode V} (compact : t.Compact) : contract t = t := by
  cases t with
  | leaf => rw [contract]
  | node p l cs m h =>
    have two := (compact_node.mp compact).1
    exact contract_several (by omega)

theorem compactAt_contract {required : Key → Nat → Prop} {t : TrieNode V} (compact : t.CompactAt required) :
    t.contract.CompactAt required := by
  induction t using TrieNode.induct with
  | leaf => rwa [contract]
  | node p l cs m h ih =>
    by_cases single : Branches.occupied cs = 1
    · obtain ⟨b, c, rfl⟩ := Branches.exists_single single
      rw [contract_single]
      have here := Function.update_self b (some c) Branches.empty
      exact ih b c here (((compactAt_node _ _ _ _ _).mp compact).2.2 b c here)
    · rwa [contract_several single]

/-- A root that is no superfluous node. -/
def Branching : TrieNode V → Prop
  | .leaf .. => True
  | .node _ _ children _ _ => 2 ≤ Branches.occupied children

theorem branching_contract {required : Key → Nat → Prop} {t : TrieNode V} (compact : t.CompactAt required) : t.contract.Branching := by
  induction t using TrieNode.induct with
  | leaf => rw [contract]; trivial
  | node p l cs m h ih =>
    obtain ⟨one, -, all⟩ := (compactAt_node _ _ _ _ _).mp compact
    by_cases single : Branches.occupied cs = 1
    · obtain ⟨b, c, rfl⟩ := Branches.exists_single single
      rw [contract_single]
      exact ih b c (Function.update_self _ _ _) (all b c (Function.update_self _ _ _))
    · rw [contract_several single]
      exact (by omega : 2 ≤ Branches.occupied cs)

theorem contract_of_branching {t : TrieNode V} (branching : t.Branching) : t.contract = t := by
  cases t with
  | leaf => rw [contract]
  | node p l cs m h =>
    have two : 2 ≤ Branches.occupied cs := branching
    exact contract_several (by omega)

theorem CompactOn.branching {k : Key} {t : TrieNode V} (compact : t.CompactOn k) : t.Branching := by
  cases t with
  | leaf => trivial
  | node p l cs m h => exact ((compactOn_node _ _ _ _ _ _).mp compact).1

/-- The children after one step of `clean_singlechild_nodes`. -/
theorem cleaned_child {k : Key} {len : Nat} {cs : Fin 16 → Option (TrieNode V)} {b : Digit} {c : TrieNode V}
    (occupied : cs b = some c) :
    (if b = getBranchBits len k then cleanContractedSlot k (cs b) else contractSlot (cs b)) =
      some (if b = getBranchBits len k then cleanContracted k c else contract c) := by
  rw [occupied, cleanContractedSlot, contractSlot]
  split_ifs <;> rfl

/-- Cleaning below a single child. -/
theorem cleaned_single {k : Key} {len : Nat} {b : Digit} {c : TrieNode V} :
    (fun d => if d = getBranchBits len k
      then cleanContractedSlot k (Function.update Branches.empty b (some c) d)
      else contractSlot (Function.update Branches.empty b (some c) d)) =
    Function.update Branches.empty b
      (some (if b = getBranchBits len k then cleanContracted k c else contract c)) := by
  funext d
  by_cases here : d = b
  · subst here
    rw [cleaned_child (Function.update_self _ _ _), Function.update_self]
  · rw [Function.update_of_ne here, Function.update_of_ne here, Branches.empty_apply, cleanContractedSlot,
      contractSlot, ite_self]

theorem occupied_cleaned {k : Key} (cs : Fin 16 → Option (TrieNode V)) (b' : Digit) :
    Branches.occupied (fun b => if b = b' then cleanContractedSlot k (cs b) else contractSlot (cs b)) =
      Branches.occupied cs := by
  refine Branches.occupied_congr (fun b => ?_)
  split_ifs
  · exact cleanContractedSlot_eq_none
  · exact contractSlot_eq_none

section Clean

variable [TrieValue V] {keyLen : Nat} {k : Key}

theorem contract_spec {t : TrieNode V} (shaped : Shaped keyLen t) : SameContents keyLen t t.contract := by
  induction shaped with
  | leaf full own =>
    rw [contract]
    exact .refl (.leaf full own)
  | @node pfx len cs m h inner full zeros shaped placed sum ih =>
    have stored : Shaped keyLen (.node pfx len cs m h) := .node inner full zeros shaped placed sum
    by_cases single : Branches.occupied cs = 1
    · obtain ⟨b, c, rfl⟩ := Branches.exists_single single
      rw [contract_single]
      exact (sameContents_single stored rfl).trans (ih b c (Function.update_self _ _ _))
    · rw [contract_several single]
      exact .refl stored

/-- Replacing the children by other representations of their keys. -/
theorem sameContents_children {pfx : Key} {len : Nat} {cs cs' : Fin 16 → Option (TrieNode V)}
    {m : Metadata} {h h' : Option Hash} (stored : Shaped keyLen (.node pfx len cs m h))
    (empty : ∀ b, cs b = none → cs' b = none)
    (occupied : ∀ b c, cs b = some c → ∃ c', cs' b = some c' ∧ SameContents keyLen c c') :
    SameContents keyLen (.node pfx len cs m h) (.node pfx len cs' m h') := by
  cases stored with
  | node inner full zeros shaped placed sum =>
    have child : ∀ b c', cs' b = some c' → ∃ c, cs b = some c ∧ SameContents keyLen c c' := by
      intro b c' there
      cases slot : cs b with
      | none =>
        rw [empty b slot] at there
        cases there
      | some c =>
        obtain ⟨c'', there', same⟩ := occupied b c slot
        rw [there'] at there
        cases there
        exact ⟨c, rfl, same⟩
    have weight : ∀ b, Branches.weight metadata (cs' b) = Branches.weight metadata (cs b) := by
      intro b
      cases slot : cs b with
      | none => rw [empty b slot]
      | some c =>
        obtain ⟨c', there, same⟩ := occupied b c slot
        rw [there, Branches.weight_some, Branches.weight_some, same.metadata]
    refine ⟨.node inner full zeros ?_ ?_ ?_, ?_, rfl, fun p below => below⟩
    · intro b c' there
      obtain ⟨c, -, same⟩ := child b c' there
      exact same.shaped
    · intro b c' there
      obtain ⟨c, here, same⟩ := child b c' there
      exact same.under _ (placed b c here)
    · rw [sum]
      exact Branches.total_congr (fun b => (weight b).symm)
    · funext query
      rw [find_node, find_node]
      cases slot : cs (Digits.digit query len) with
      | none => rw [empty _ slot]
      | some c =>
        obtain ⟨c', there, same⟩ := occupied _ c slot
        rw [there, findSlot_some, findSlot_some, same.find]

theorem cleanSinglechildNodes_node {pfx : Key} {len : Nat} {cs : Fin 16 → Option (TrieNode V)}
    {m : Metadata} {h : Option Hash} (stored : Shaped keyLen (.node pfx len cs m h))
    (ih : ∀ b c, cs b = some c → SameContents keyLen c (cleanContracted k c)) :
    SameContents keyLen (.node pfx len cs m h) (cleanSinglechildNodes k (.node pfx len cs m h)) := by
  have shaped : ∀ b c, cs b = some c → Shaped keyLen c := by
    cases stored with
    | node _ _ _ shaped _ _ => exact shaped
  rw [cleanSinglechildNodes]
  refine sameContents_children stored (fun b bare => ?_) (fun b c occupied => ?_)
  · rw [bare, cleanContractedSlot, contractSlot]
    exact ite_self _
  · refine ⟨_, cleaned_child occupied, ?_⟩
    split_ifs with here
    · exact ih b c occupied
    · exact contract_spec (shaped b c occupied)

theorem cleanContracted_spec {t : TrieNode V} (shaped : Shaped keyLen t) :
    SameContents keyLen t (cleanContracted k t) := by
  induction shaped with
  | leaf full own =>
    rw [cleanContracted]
    exact .refl (.leaf full own)
  | @node pfx len cs m h inner full zeros shaped placed sum ih =>
    have stored : Shaped keyLen (.node pfx len cs m h) := .node inner full zeros shaped placed sum
    by_cases single : Branches.occupied cs = 1
    · obtain ⟨b, c, rfl⟩ := Branches.exists_single single
      rw [cleanContracted_single]
      exact (sameContents_single stored rfl).trans (ih b c (Function.update_self _ _ _))
    · rw [cleanContracted_several single]
      exact cleanSinglechildNodes_node stored ih

/-- Cleaning changes neither contents nor metadata. -/
theorem cleanSinglechildNodes_spec {t : TrieNode V} (shaped : Shaped keyLen t) :
    SameContents keyLen t (cleanSinglechildNodes k t) := by
  cases shaped with
  | leaf full own =>
    rw [cleanSinglechildNodes]
    exact .refl (.leaf full own)
  | node inner full zeros shaped placed sum =>
    exact cleanSinglechildNodes_node (.node inner full zeros shaped placed sum)
      (fun b c occupied => cleanContracted_spec (shaped b c occupied))

/-- What cleaning along `k` adds to the nodes that cannot be superfluous: those on the path of `k`. -/
def CleanedAt (k : Key) (required : Key → Nat → Prop) (pfx : Key) (prefixLen : Nat) : Prop :=
  k.take prefixLen = pfx.take prefixLen ∨ required pfx prefixLen

variable {required : Key → Nat → Prop}

/-- A subtree that the path of `k` does not enter has no node on that path. -/
theorem compactAt_off {t : TrieNode V} (shaped : Shaped keyLen t) {p : Key} (below : Under p t)
    (off : k.take p.length ≠ p) (compact : t.CompactAt required) : t.CompactAt (CleanedAt k required) := by
  induction shaped generalizing p with
  | leaf => exact compactAt_leaf _ _ _ _
  | @node pfx len cs m h inner full zeros shaped placed sum ih =>
    obtain ⟨one, two, all⟩ := (compactAt_node _ _ _ _ _).mp compact
    have apart : ¬ k.take len = pfx.take len := by
      intro same
      exact off ((Digits.take_of_take same below.1).trans below.2)
    refine (compactAt_node _ _ _ _ _).mpr ⟨one, fun needed => two (needed.resolve_left apart),
      fun b c occupied => ih b c occupied (placed b c occupied) ?_ (all b c occupied)⟩
    intro same
    have front := congrArg (List.take len) same
    have span : (pfx.take len).length = len := by simp [full, Nat.min_eq_left inner.le]
    rw [List.take_take, List.length_append, span, Nat.min_eq_left (Nat.le_add_right _ _),
      List.take_append_of_le_length span.ge, List.take_take, Nat.min_self] at front
    exact apart front

/-- The path of `k` does not enter the other branches. -/
theorem off_child (pfx : Key) {len : Nat} {b : Digit} (inside : len < k.length) (full : len ≤ pfx.length)
    (other : b ≠ getBranchBits len k) : k.take (pfx.take len ++ [b]).length ≠ pfx.take len ++ [b] := by
  intro same
  have span : (pfx.take len).length = len := by simp [Nat.min_eq_left full]
  rw [List.length_append, span, List.length_singleton, Digits.take_succ_digit inside] at same
  have digit := (List.append_inj' same rfl).2
  exact other (by simpa [getBranchBits] using digit.symm)

/-- The children of a node after cleaning. -/
theorem compactAt_cleaned_child {pfx : Key} {len : Nat} {cs : Fin 16 → Option (TrieNode V)} {m : Metadata}
    {h : Option Hash} (stored : Shaped keyLen (.node pfx len cs m h)) (full : k.length = keyLen)
    (all : ∀ b c, cs b = some c → c.CompactAt required)
    (ih : ∀ b c, cs b = some c → (cleanContracted k c).CompactAt (CleanedAt k required)) :
    ∀ b c', (if b = getBranchBits len k then cleanContractedSlot k (cs b) else contractSlot (cs b)) = some c' →
      c'.CompactAt (CleanedAt k required) := by
  cases stored with
  | node inner fullPfx zeros shaped placed sum =>
    intro b c' there
    cases occupied : cs b with
    | none =>
      simp only [occupied, cleanContractedSlot, contractSlot, ite_self] at there
      cases there
    | some c =>
      rw [cleaned_child occupied] at there
      obtain rfl := Option.some.inj there
      split_ifs with here
      · exact ih b c occupied
      · have off := off_child pfx (by omega : len < k.length) (by omega) here
        have contracted := contract_spec (shaped b c occupied)
        exact compactAt_off contracted.shaped (contracted.under _ (placed b c occupied)) off
          (compactAt_contract (all b c occupied))

theorem compactAt_cleanContracted {t : TrieNode V} (shaped : Shaped keyLen t) (full : k.length = keyLen)
    (compact : t.CompactAt required) : (cleanContracted k t).CompactAt (CleanedAt k required) := by
  induction shaped with
  | leaf =>
    rw [cleanContracted]
    exact compactAt_leaf _ _ _ _
  | @node pfx len cs m h inner fullPfx zeros shaped placed sum ih =>
    have stored : Shaped keyLen (.node pfx len cs m h) := .node inner fullPfx zeros shaped placed sum
    obtain ⟨one, -, all⟩ := (compactAt_node _ _ _ _ _).mp compact
    by_cases single : Branches.occupied cs = 1
    · obtain ⟨b, c, rfl⟩ := Branches.exists_single single
      rw [cleanContracted_single]
      exact ih b c (Function.update_self _ _ _) (all b c (Function.update_self _ _ _))
    · rw [cleanContracted_several single, cleanSinglechildNodes]
      have same := occupied_cleaned (k := k) cs (getBranchBits len k)
      exact (compactAt_node _ _ _ _ _).mpr ⟨by omega, fun _ => by omega,
        compactAt_cleaned_child stored full all (fun b c occupied => ih b c occupied (all b c occupied))⟩

/-- Cleaning along `k` and contracting the root leaves no superfluous node on the path of `k`. -/
theorem compactAt_clean {t : TrieNode V} (shaped : Shaped keyLen t) (full : k.length = keyLen)
    (compact : t.CompactAt required) :
    (cleanSinglechildNodes k t).contract.CompactAt (CleanedAt k required) := by
  cases shaped with
  | leaf =>
    rw [cleanSinglechildNodes, contract]
    exact compactAt_leaf _ _ _ _
  | @node pfx len cs m h inner fullPfx zeros shaped placed sum =>
    have stored : Shaped keyLen (.node pfx len cs m h) := .node inner fullPfx zeros shaped placed sum
    obtain ⟨one, -, all⟩ := (compactAt_node _ _ _ _ _).mp compact
    have children := compactAt_cleaned_child stored full all
      (fun b c occupied => compactAt_cleanContracted (shaped b c occupied) full (all b c occupied))
    rw [cleanSinglechildNodes]
    by_cases single : Branches.occupied (fun b => if b = getBranchBits len k then
        cleanContractedSlot k (cs b) else contractSlot (cs b)) = 1
    · obtain ⟨b, c, only⟩ := Branches.exists_single single
      have child := children b c (by rw [congrFun only b, Function.update_self])
      rw [only, contract_single]
      exact compactAt_contract child
    · rw [contract_several single]
      have same := occupied_cleaned (k := k) cs (getBranchBits len k)
      exact (compactAt_node _ _ _ _ _).mpr ⟨by omega, fun _ => by omega, children⟩

/-- The walk to `k` leaves the path at the root of a subtree off the path. -/
theorem compactOn_off {t : TrieNode V} (shaped : Shaped keyLen t) {p : Key} (below : Under p t)
    (off : k.take p.length ≠ p) (branching : t.Branching) : t.CompactOn k := by
  cases shaped with
  | leaf => exact compactOn_leaf _ _ _ _ _
  | node =>
    refine (compactOn_node _ _ _ _ _ _).mpr ⟨branching, fun same => ?_⟩
    exact absurd ((Digits.take_of_take same below.1).trans below.2) off

theorem compactOn_cleanContracted {t : TrieNode V} (shaped : Shaped keyLen t)
    (compact : t.CompactAt required) : (cleanContracted k t).CompactOn k := by
  induction shaped with
  | leaf =>
    rw [cleanContracted]
    exact compactOn_leaf _ _ _ _ _
  | @node pfx len cs m h inner fullPfx zeros shaped placed sum ih =>
    obtain ⟨one, -, all⟩ := (compactAt_node _ _ _ _ _).mp compact
    by_cases single : Branches.occupied cs = 1
    · obtain ⟨b, c, rfl⟩ := Branches.exists_single single
      rw [cleanContracted_single]
      exact ih b c (Function.update_self _ _ _) (all b c (Function.update_self _ _ _))
    · rw [cleanContracted_several single, cleanSinglechildNodes]
      have same := occupied_cleaned (k := k) cs (getBranchBits len k)
      refine (compactOn_node _ _ _ _ _ _).mpr ⟨by omega, fun _ c' there => ?_⟩
      cases occupied : cs (getBranchBits len k) with
      | none => simp only [occupied, cleanContractedSlot, contractSlot, ite_self, reduceCtorEq] at there
      | some c =>
        rw [cleaned_child occupied, if_pos rfl] at there
        obtain rfl := Option.some.inj there
        exact ih _ c occupied (all _ c occupied)

/-- Whatever the trie was split at, no node that the walk to `k` visits is superfluous after cleaning
along `k`. -/
theorem compactOn_clean {t : TrieNode V} (shaped : Shaped keyLen t) (full : k.length = keyLen)
    (compact : t.CompactAt required) : (cleanSinglechildNodes k t).contract.CompactOn k := by
  cases shaped with
  | leaf =>
    rw [cleanSinglechildNodes, contract]
    exact compactOn_leaf _ _ _ _ _
  | @node pfx len cs m h inner fullPfx zeros shaped placed sum =>
    obtain ⟨one, -, all⟩ := (compactAt_node _ _ _ _ _).mp compact
    by_cases single : Branches.occupied cs = 1
    · obtain ⟨b, c, rfl⟩ := Branches.exists_single single
      have here := Function.update_self b (some c) Branches.empty
      have below := shaped b c here
      rw [cleanSinglechildNodes, cleaned_single, contract_single]
      by_cases onPath : b = getBranchBits len k
      · -- the only child is on the path and was cleaned with it
        have cleaned := compactOn_cleanContracted (k := k) below (all b c here)
        rw [if_pos onPath, contract_of_branching cleaned.branching]
        exact cleaned
      · have contracted := contract_spec below
        have branching := branching_contract (all b c here)
        rw [if_neg onPath, contract_of_branching branching]
        exact compactOn_off contracted.shaped (contracted.under _ (placed b c here))
          (off_child pfx (by omega) (by omega) onPath) branching
    · have whole := compactOn_cleanContracted (k := k) (.node inner fullPfx zeros shaped placed sum) compact
      rw [cleanContracted_several single] at whole
      rw [cleanSinglechildNodes] at whole ⊢
      have two := ((compactOn_node _ _ _ _ _ _).mp whole).1
      rwa [contract_several (by omega)]

/-- A trie that is only ragged on the path of `k` is compact once cleaned along it. -/
theorem compact_clean {t : TrieNode V} (shaped : Shaped keyLen t) (full : k.length = keyLen)
    (compact : t.CompactOff k) : (cleanSinglechildNodes k t).contract.Compact :=
  (compactAt_clean shaped full compact).mono (fun _ _ _ => em _)

end Clean

end TrieNode

end Speedex
