import Speedex.Library.Fallible
import Speedex.Library.Machine
import Speedex.Trie.Delete
import Speedex.Trie.Entries

set_option autoImplicit false

/- `endow_split`: move the leaves whose cumulative endowment stays within a threshold to a new
trie. Whatever the amounts are, the leaves moved are a prefix of the key order. -/
namespace Speedex

namespace TrieNode

variable {V : Type}

/-- The variables of the loop in `endow_split`; `taken` is `new_node_children`. -/
structure SplitState (V : Type) where
  accEndow : BitVec 64
  taken : Fin 16 → Option (TrieNode V)
  rest : Fin 16 → Option (TrieNode V)
  metadata : Metadata
  stopped : Bool

/-- One iteration: the child stored at branch `b`, and how to split it. -/
def splitStep (endowThreshold : BitVec 64) (child : Option (TrieNode V))
    (splitChild : BitVec 64 → Except String (Option (TrieNode V) × TrieNode V)) (b : Digit)
    (s : SplitState V) : Except String (SplitState V) :=
  if s.stopped then .ok s
  else do
    let s' ← match child with
      | none => .ok s
      | some c =>
        let fullyConsumedSubtree := s.accEndow + c.metadata.endow
        if fullyConsumedSubtree.sle endowThreshold then
          .ok { s with
            accEndow := fullyConsumedSubtree
            taken := Function.update s.taken b (some c)
            rest := Function.update s.rest b none
            metadata := s.metadata - c.metadata }
        else do
          let (splitObj, remaining) ← splitChild (endowThreshold - s.accEndow)
          .ok { s with
            accEndow := fullyConsumedSubtree
            taken := Function.update s.taken b splitObj
            rest := Function.update s.rest b (some remaining.collapse)
            metadata := s.metadata - Branches.weight TrieNode.metadata splitObj }
    .ok { s' with stopped := endowThreshold.sle s'.accEndow }

mutual

/-- `endow_split`: the split off node, if any leaf moves, and the node that stays. -/
def endowSplit : TrieNode V → BitVec 64 → Except String (Option (TrieNode V) × TrieNode V)
  | .leaf key value metadata hash, _ => .ok (none, .leaf key value metadata hash)
  | .node pfx prefixLen children metadata hash, endowThreshold =>
    if Branches.occupied children = 0 then .ok (none, .node pfx prefixLen children metadata hash)
    else if metadata.endow.sle endowThreshold then
      .error "shouldn't have reached this far down - entire node is consumed"
    else if endowThreshold.slt 0 then .error "endow threshold can't be negative"
    else do
      let s ← (List.finRange 16).foldlM
        (fun s b => splitStep endowThreshold (children b) (endowSplitSlot (children b)) b s)
        { accEndow := 0, taken := Branches.empty, rest := children, metadata := metadata,
          stopped := false }
      let remaining := TrieNode.node pfx prefixLen s.rest s.metadata none
      if Branches.occupied s.taken = 0 then .ok (none, remaining)
      else .ok (some (.node pfx prefixLen s.taken (Branches.total TrieNode.metadata s.taken) none),
        remaining)

def endowSplitSlot : Option (TrieNode V) → BitVec 64 →
    Except String (Option (TrieNode V) × TrieNode V)
  | none, _ => .error "no child"
  | some child, endowThreshold => endowSplit child endowThreshold

end

/-- The keys of a node that branches on the path between two keys share its prefix. -/
theorem take_eq_of_between {n : Nat} {x y k p : Key} (left : x.take n = p) (right : y.take n = p)
    (above : x ≤ k) (below : k ≤ y) (lengthX : x.length = k.length) (lengthY : y.length = k.length) :
    k.take n = p := by
  rcases lt_trichotomy (k.take n) p with less | same | more
  · rw [← left] at less
    exact absurd (Digits.lt_of_take_lt lengthX.symm less) (not_lt_of_ge above)
  · exact same
  · rw [← right] at more
    exact absurd (Digits.lt_of_take_lt lengthY more) (not_lt_of_ge below)

theorem entriesSlot_empty (b : Digit) :
    entriesSlot ((Branches.empty : Fin 16 → Option (TrieNode V)) b) = [] := by
  rw [Branches.empty_apply, entriesSlot_none]

/-- A trie without childless inner nodes holds a leaf. -/
theorem CompactAt.entries_ne_nil {required : Key → Nat → Prop} {t : TrieNode V}
    (compact : t.CompactAt required) : t.entries ≠ [] := by
  induction t using TrieNode.induct with
  | leaf => simp
  | node p l cs m h ih =>
    obtain ⟨one, -, all⟩ := (compactAt_node _ _ _ _ _).mp compact
    intro bare
    have none : cs = Branches.empty := by
      funext b
      cases occupied : cs b with
      | none => rfl
      | some c =>
        obtain ⟨row, listed⟩ := List.exists_mem_of_ne_nil _ (ih b c occupied (all b c occupied))
        have absurd := mem_entries_node (p := p) (l := l) (m := m) (h := h) |>.mpr ⟨b, c, occupied, listed⟩
        rw [bare] at absurd
        cases absurd
    rw [none, Branches.occupied, Branches.total_empty] at one
    omega

/-- No inner node is childless. -/
def Filled (t : TrieNode V) : Prop := t.CompactAt (fun _ _ => False)

theorem Compact.filled {t : TrieNode V} (compact : t.Compact) : t.Filled :=
  CompactAt.mono compact (fun _ _ => False.elim)

theorem Filled.entries_ne_nil {t : TrieNode V} (filled : t.Filled) : t.entries ≠ [] :=
  CompactAt.entries_ne_nil filled

/-- Changing one branch does not change the rows listed for other branches. -/
theorem flatMap_update (table : Fin 16 → Option (TrieNode V)) (b : Digit) (slot : Option (TrieNode V))
    {done : List Digit} (fresh : b ∉ done) :
    done.flatMap (fun d => entriesSlot (Function.update table b slot d)) =
      done.flatMap (fun d => entriesSlot (table d)) := by
  refine List.flatMap_congr (fun d passed => ?_)
  have apart : d ≠ b := fun same => fresh (same ▸ passed)
  rw [Function.update_of_ne apart]

/-- What one iteration can do. -/
theorem splitStep_cases {endowThreshold : BitVec 64} {b : Digit} {child : Option (TrieNode V)}
    {splitChild : BitVec 64 → Except String (Option (TrieNode V) × TrieNode V)} {s s' : SplitState V}
    (run : splitStep endowThreshold child splitChild b s = .ok s') :
    s.stopped = true ∧ s' = s ∨
    s.stopped = false ∧ child = none ∧ s' = { s with stopped := endowThreshold.sle s.accEndow } ∨
    (∃ c, s.stopped = false ∧ child = some c ∧ (s.accEndow + c.metadata.endow).sle endowThreshold = true ∧
      s' = { accEndow := s.accEndow + c.metadata.endow
             taken := Function.update s.taken b (some c)
             rest := Function.update s.rest b none
             metadata := s.metadata - c.metadata
             stopped := endowThreshold.sle (s.accEndow + c.metadata.endow) }) ∨
    ∃ c splitObj remaining, s.stopped = false ∧ child = some c ∧
      ¬ (s.accEndow + c.metadata.endow).sle endowThreshold = true ∧
      splitChild (endowThreshold - s.accEndow) = .ok (splitObj, remaining) ∧
      s' = { accEndow := s.accEndow + c.metadata.endow
             taken := Function.update s.taken b splitObj
             rest := Function.update s.rest b (some remaining.collapse)
             metadata := s.metadata - Branches.weight TrieNode.metadata splitObj
             stopped := true } := by
  rw [splitStep] at run
  by_cases halted : s.stopped = true
  · rw [if_pos halted] at run
    exact Or.inl ⟨halted, (Except.ok.inj run).symm⟩
  · rw [if_neg halted] at run
    have running := Bool.eq_false_iff.mpr halted
    cases child with
    | none => exact Or.inr (Or.inl ⟨running, rfl, (Except.ok.inj run).symm⟩)
    | some c =>
      simp only at run
      by_cases fits : (s.accEndow + c.metadata.endow).sle endowThreshold = true
      · rw [if_pos fits] at run
        exact Or.inr (Or.inr (Or.inl ⟨c, running, rfl, fits, (Except.ok.inj run).symm⟩))
      · rw [if_neg fits] at run
        obtain ⟨⟨splitObj, remaining⟩, split, run⟩ := Fallible.bind_eq_ok.mp run
        simp only [bind, Except.bind, Machine.sle_of_not_sle fits] at run
        exact Or.inr (Or.inr (Or.inr ⟨c, splitObj, remaining, running, rfl, fits, split,
          (Except.ok.inj run).symm⟩))

section Split

variable [TrieValue V] {keyLen : Nat}

theorem collapse_entries {t : TrieNode V} (shaped : Shaped keyLen t) : t.collapse.entries = t.entries := by
  obtain ⟨shaped', found, -, -⟩ := collapse_spec shaped
  exact entries_ext shaped' shaped (fun key => congrFun found key)

theorem endow_sum (ms : List Metadata) : ms.sum.endow = (ms.map Metadata.endow).sum := by
  induction ms with
  | nil => rfl
  | cons m ms ih => simp [ih]

/-- The outcome of a split, for any threshold and any amounts. -/
structure SplitResult (keyLen : Nat) (t : TrieNode V) (splitObj : Option (TrieNode V))
    (remaining : TrieNode V) : Prop where
  rows : entriesSlot splitObj ++ remaining.entries = t.entries
  taken : ∀ c, splitObj = some c → Shaped keyLen c ∧ (∀ p, Under p t → Under p c) ∧
    (t.Compact → c.Filled)
  shaped : Shaped keyLen remaining
  under : ∀ p, Under p t → Under p remaining
  settled : t.Compact → remaining.Settled ∧ remaining.entries ≠ []
  ragged : ∀ k : Key, k.length = keyLen → (∀ row ∈ entriesSlot splitObj, row.1 ≤ k) →
    (∀ row ∈ remaining.entries, k ≤ row.1) → t.Compact → ∀ c, splitObj = some c → CompactOff k c

theorem SplitResult.metadata {t remaining : TrieNode V} {splitObj : Option (TrieNode V)}
    (shaped : Shaped keyLen t) (result : SplitResult keyLen t splitObj remaining) :
    remaining.metadata = t.metadata - Branches.weight TrieNode.metadata splitObj := by
  have whole := metadata_eq_sum shaped
  rw [← result.rows, List.map_append, List.sum_append, ← metadata_eq_sum result.shaped] at whole
  cases splitObj with
  | none => simpa using whole.symm
  | some c =>
    rw [entriesSlot_some, ← metadata_eq_sum (result.taken c rfl).1] at whole
    rw [whole, Branches.weight_some]
    abel

/-- The loop of `endow_split` after the branches in `done`. -/
structure Splitting (keyLen : Nat) (endowThreshold : BitVec 64) (pfx : Key) (len : Nat)
    (cs : Fin 16 → Option (TrieNode V)) (done : List Digit) (s : SplitState V) : Prop where
  future : ∀ b, b ∉ done → s.taken b = none ∧ s.rest b = cs b
  exhausted : s.stopped = false → ∀ b ∈ done, s.rest b = none
  branch : ∀ b, entriesSlot (s.taken b) ++ entriesSlot (s.rest b) = entriesSlot (cs b)
  rows : done.flatMap (fun b => entriesSlot (s.taken b)) ++ done.flatMap (fun b => entriesSlot (s.rest b)) =
    done.flatMap (fun b => entriesSlot (cs b))
  metadata : s.metadata = Branches.total TrieNode.metadata s.rest
  taken : ∀ b c, s.taken b = some c → Shaped keyLen c ∧ Under (pfx.take len ++ [b]) c ∧
    ((∀ c', cs b = some c' → c'.Compact) → c.Filled)
  rest : ∀ b c, s.rest b = some c → Shaped keyLen c ∧ Under (pfx.take len ++ [b]) c
  compact : ∀ b c, s.rest b = some c → (∀ c', cs b = some c' → c'.Compact) → c.Compact
  consumed : (∀ b ∈ done, s.rest b = none) →
    s.accEndow = (done.map (fun b => Branches.weight (fun c => c.metadata.endow) (cs b))).sum ∧
      ((∀ b ∈ done, cs b = none) ∨ s.accEndow.sle endowThreshold = true)
  ragged : ∀ b c, s.taken b = some c → ∀ k : Key, k.length = keyLen → (∀ row ∈ c.entries, row.1 ≤ k) →
    (∀ row ∈ entriesSlot (s.rest b), k ≤ row.1) → (∀ c', cs b = some c' → c'.Compact) → CompactOff k c

section Loop

variable {pfx : Key} {len : Nat} {cs : Fin 16 → Option (TrieNode V)} {m : Metadata} {h : Option Hash}
  {endowThreshold : BitVec 64}

theorem splitting_start (stored : Shaped keyLen (.node pfx len cs m h)) :
    Splitting keyLen endowThreshold pfx len cs []
      { accEndow := 0, taken := Branches.empty, rest := cs, metadata := m, stopped := false } := by
  cases stored with
  | node inner full zeros shaped placed sum =>
    refine ⟨fun b _ => ⟨rfl, rfl⟩, fun _ => by simp, fun b => by simp, rfl, sum, nofun,
      fun b c occupied => ⟨shaped b c occupied, placed b c occupied⟩,
      fun b c occupied all => all c occupied,
      fun _ => ⟨rfl, Or.inl nofun⟩, nofun⟩

/-- One branch is processed: `slot` of its child is taken and `left` stays. -/
theorem splitting_move {done : List Digit} {b : Digit} {s : SplitState V} {c : TrieNode V}
    {slot left : Option (TrieNode V)} {acc : BitVec 64} {stop : Bool}
    (before : Splitting keyLen endowThreshold pfx len cs done s) (fresh : b ∉ done) (running : s.stopped = false)
    (occupied : cs b = some c) (rows : entriesSlot slot ++ entriesSlot left = c.entries)
    (weights : c.metadata = Branches.weight TrieNode.metadata slot + Branches.weight TrieNode.metadata left)
    (takenFits : ∀ c', slot = some c' → Shaped keyLen c' ∧ Under (pfx.take len ++ [b]) c' ∧
      (c.Compact → c'.Filled))
    (leftFits : ∀ c', left = some c' → Shaped keyLen c' ∧ Under (pfx.take len ++ [b]) c')
    (compact : c.Compact → ∀ c', left = some c' → c'.Compact)
    (consumed : left = none → acc = s.accEndow + c.metadata.endow ∧ acc.sle endowThreshold = true)
    (ragged : ∀ k : Key, k.length = keyLen → (∀ row ∈ entriesSlot slot, row.1 ≤ k) →
      (∀ row ∈ entriesSlot left, k ≤ row.1) → c.Compact → ∀ c', slot = some c' → CompactOff k c')
    (halts : left ≠ none → stop = true) :
    Splitting keyLen endowThreshold pfx len cs (done ++ [b])
      { accEndow := acc
        taken := Function.update s.taken b slot
        rest := Function.update s.rest b left
        metadata := s.metadata - Branches.weight TrieNode.metadata slot
        stopped := stop } := by
  obtain ⟨idle, here⟩ := before.future b fresh
  refine ⟨?_, ?_, ?_, ?_, ?_, ?_, ?_, ?_, ?_, ?_⟩
  · intro d later
    simp only [List.mem_append, List.mem_singleton, not_or] at later
    simp only [Function.update_of_ne later.2]
    exact before.future d later.1
  · intro going d passed
    simp only at going
    rcases List.mem_append.mp passed with old | new
    · have apart : d ≠ b := fun same => fresh (same ▸ old)
      simp only [Function.update_of_ne apart]
      exact before.exhausted running d old
    · rw [List.mem_singleton.mp new]
      simp only [Function.update_self]
      by_contra kept
      rw [halts kept] at going
      cases going
  · intro d
    by_cases same : d = b
    · subst same
      simp only [Function.update_self, occupied, entriesSlot_some]
      exact rows
    · simp only [Function.update_of_ne same]
      exact before.branch d
  · have bare : done.flatMap (fun d => entriesSlot (s.rest d)) = [] := by
      refine List.flatMap_eq_nil_iff.mpr (fun d passed => ?_)
      rw [before.exhausted running d passed, entriesSlot_none]
    have old := before.rows
    rw [bare, List.append_nil] at old
    simp only [List.flatMap_append, List.flatMap_singleton, Function.update_self,
      flatMap_update _ _ _ fresh, bare, List.nil_append, old, occupied, entriesSlot_some]
    rw [List.append_assoc, rows]
  · simp only [Branches.total_update, here, occupied, ← before.metadata, Branches.weight_some, weights]
    abel
  · intro d c' there
    rcases Branches.update_eq_some_iff.mp there with ⟨rfl, new⟩ | ⟨-, old⟩
    · obtain ⟨shaped, under, some⟩ := takenFits c' new
      exact ⟨shaped, under, fun all => some (all c occupied)⟩
    · exact before.taken d c' old
  · intro d c' there
    rcases Branches.update_eq_some_iff.mp there with ⟨rfl, new⟩ | ⟨-, old⟩
    · exact leftFits c' new
    · exact before.rest d c' old
  · intro d c' there all
    rcases Branches.update_eq_some_iff.mp there with ⟨rfl, new⟩ | ⟨-, old⟩
    · exact compact (all c occupied) c' new
    · exact before.compact d c' old all
  · intro gone
    have gone' : ∀ d ∈ done, s.rest d = none := before.exhausted running
    have none := gone b (by simp)
    simp only [Function.update_self] at none
    obtain ⟨sum, small⟩ := consumed none
    obtain ⟨old, -⟩ := before.consumed gone'
    refine ⟨?_, Or.inr small⟩
    simp only [sum, old, List.map_append, List.sum_append, List.map_singleton, List.sum_singleton,
      occupied, Branches.weight_some]
  · intro d c' there
    rcases Branches.update_eq_some_iff.mp there with ⟨rfl, new⟩ | ⟨apart, old⟩
    · intro k full above below all
      simp only [Function.update_self] at below
      exact ragged k full (by simpa [new] using above) below (all c occupied) c' new
    · simp only [Function.update_of_ne apart]
      exact before.ragged d c' old

/-- A branch without a child, or any branch once the loop has stopped, is passed over. -/
theorem splitting_skip {done : List Digit} {b : Digit} {s : SplitState V} (stop : Bool)
    (before : Splitting keyLen endowThreshold pfx len cs done s) (fresh : b ∉ done)
    (idle : s.stopped = true ∧ stop = true ∨ cs b = none) :
    Splitting keyLen endowThreshold pfx len cs (done ++ [b]) { s with stopped := stop || s.stopped } := by
  obtain ⟨untaken, here⟩ := before.future b fresh
  refine ⟨?_, ?_, before.branch, ?_, before.metadata, before.taken, before.rest, before.compact, ?_,
    before.ragged⟩
  · intro d later
    simp only [List.mem_append, List.mem_singleton, not_or] at later
    exact before.future d later.1
  · intro going d passed
    simp only [Bool.or_eq_false_iff] at going
    rcases List.mem_append.mp passed with old | new
    · exact before.exhausted going.2 d old
    · rcases idle with ⟨halted, -⟩ | bare
      · rw [halted] at going
        cases going.2
      · rw [List.mem_singleton.mp new]
        exact here.trans bare
  · have rows := before.rows
    simp only [List.flatMap_append, List.flatMap_singleton, untaken, here, entriesSlot_none,
      List.append_nil]
    rw [← List.append_assoc, rows]
  · intro gone
    have none : cs b = none := here.symm.trans (gone b (by simp))
    obtain ⟨sum, small⟩ := before.consumed (fun d passed => gone d (List.mem_append_left _ passed))
    refine ⟨by simp [sum, none], small.imp (fun all d passed => ?_) id⟩
    rcases List.mem_append.mp passed with old | new
    · exact all d old
    · rw [List.mem_singleton.mp new, none]

theorem splitting_step {done : List Digit} {b : Digit}
    {splitChild : BitVec 64 → Except String (Option (TrieNode V) × TrieNode V)} {s s' : SplitState V}
    (stored : Shaped keyLen (.node pfx len cs m h)) (before : Splitting keyLen endowThreshold pfx len cs done s)
    (fresh : b ∉ done)
    (children : ∀ c threshold splitObj remaining, cs b = some c →
      splitChild threshold = .ok (splitObj, remaining) → SplitResult keyLen c splitObj remaining)
    (run : splitStep endowThreshold (cs b) splitChild b s = .ok s') :
    Splitting keyLen endowThreshold pfx len cs (done ++ [b]) s' := by
  have fits : ∀ c, cs b = some c → Shaped keyLen c ∧ Under (pfx.take len ++ [b]) c := by
    cases stored with
    | node inner full zeros shaped placed sum => exact fun c occupied => ⟨shaped b c occupied, placed b c occupied⟩
  rcases splitStep_cases run with ⟨halted, rfl⟩ | ⟨running, bare, rfl⟩ | ⟨c, running, occupied, fits', rfl⟩ |
    ⟨c, splitObj, remaining, running, occupied, -, split, rfl⟩
  · have skipped := splitting_skip true before fresh (Or.inl ⟨halted, rfl⟩)
    rw [Bool.true_or, ← halted] at skipped
    exact skipped
  · have skipped := splitting_skip (endowThreshold.sle s.accEndow) before fresh (Or.inr bare)
    rw [running, Bool.or_false] at skipped
    exact skipped
  · refine splitting_move before fresh running occupied (by simp) (by simp) ?_ nofun (fun _ => nofun)
      (fun _ => ⟨rfl, fits'⟩) ?_ (fun kept => absurd rfl kept)
    · rintro c' ⟨⟩
      obtain ⟨shaped, under⟩ := fits c occupied
      exact ⟨shaped, under, Compact.filled⟩
    · rintro k full above below compact c' ⟨⟩
      exact CompactAt.mono compact (fun _ _ _ => trivial)
  · have result := children c _ splitObj remaining occupied split
    obtain ⟨shaped, under⟩ := fits c occupied
    have sum := result.metadata shaped
    obtain ⟨shapedC, -, metadataC, underC⟩ := collapse_spec result.shaped
    refine splitting_move before fresh running occupied ?_ ?_ ?_ ?_ ?_ nofun ?_ (fun _ => rfl)
    · rw [entriesSlot_some, collapse_entries result.shaped]
      exact result.rows
    · rw [Branches.weight_some, metadataC, sum]
      abel
    · intro c' taken
      obtain ⟨shaped', under', some⟩ := result.taken c' taken
      exact ⟨shaped', under' _ under, some⟩
    · rintro c' ⟨⟩
      exact ⟨shapedC, underC _ (result.under _ under)⟩
    · rintro compact c' ⟨⟩
      exact compact_collapse (result.settled compact).1
    · intro k full above below compact c' taken
      rw [entriesSlot_some, collapse_entries result.shaped] at below
      exact result.ragged k full above below compact c' taken

/-- No child of a node that is not consumed entirely vanishes altogether. -/
theorem splitting_remains {s : SplitState V} (stored : Shaped keyLen (.node pfx len cs m h))
    (partly : ¬ m.endow.sle endowThreshold = true) (occupied : Branches.occupied cs ≠ 0)
    (final : Splitting keyLen endowThreshold pfx len cs (List.finRange 16) s) :
    Branches.occupied s.rest ≠ 0 := by
  intro bare
  rw [Branches.occupied_eq_zero_iff] at bare
  obtain ⟨sum, small⟩ := final.consumed (fun b _ => by rw [bare, Branches.empty_apply])
  have whole : s.accEndow = m.endow := by
    cases stored with
    | node _ _ _ _ _ total =>
      rw [sum, total, Branches.total, Fin.sum_univ_def, endow_sum, List.map_map]
      refine congrArg List.sum (List.map_congr_left (fun b _ => ?_))
      simp only [Function.comp_apply]
      cases cs b <;> rfl
  rcases small with none | small
  · refine occupied ((Branches.occupied_eq_zero_iff _).mpr (funext (fun b => none b (List.mem_finRange b))))
  · rw [whole] at small
    exact partly small

/-- After the loop: the node split off and the node that stays. -/
theorem splitResult_node {s : SplitState V} (stored : Shaped keyLen (.node pfx len cs m h))
    (partly : ¬ m.endow.sle endowThreshold = true) (occupied : Branches.occupied cs ≠ 0)
    (final : Splitting keyLen endowThreshold pfx len cs (List.finRange 16) s) :
    SplitResult keyLen (.node pfx len cs m h)
      (if Branches.occupied s.taken = 0 then none
        else some (.node pfx len s.taken (Branches.total TrieNode.metadata s.taken) none))
      (.node pfx len s.rest s.metadata none) := by
  have kept := splitting_remains stored partly occupied final
  cases stored with
  | node inner full zeros shaped placed sum =>
  have takenRows : entriesSlot (if Branches.occupied s.taken = 0 then none
      else some (.node pfx len s.taken (Branches.total TrieNode.metadata s.taken) none)) =
      (List.finRange 16).flatMap (fun b => entriesSlot (s.taken b)) := by
    split_ifs with bare
    · rw [(Branches.occupied_eq_zero_iff _).mp bare, entriesSlot_none]
      refine (List.flatMap_eq_nil_iff.mpr (fun b _ => ?_)).symm
      exact entriesSlot_empty b
    · rw [entriesSlot_some, entries_node]
  have children : (TrieNode.node pfx len cs m h).Compact → ∀ b c, cs b = some c → c.Compact :=
    fun compact => (compact_node.mp compact).2
  have settled : (TrieNode.node pfx len cs m h).Compact →
      (TrieNode.node pfx len s.rest s.metadata none).Settled := fun compact =>
    ⟨Nat.one_le_iff_ne_zero.mpr kept, fun b c there => final.compact b c there (children compact b)⟩
  have remains : (TrieNode.node pfx len cs m h).Compact →
      (TrieNode.node pfx len s.rest s.metadata none).entries ≠ [] := by
    intro compact bare
    refine kept ((Branches.occupied_eq_zero_iff _).mpr (funext (fun b => ?_)))
    cases there : s.rest b with
    | none => rfl
    | some c =>
      obtain ⟨row, listed⟩ := List.exists_mem_of_ne_nil _
        (CompactAt.entries_ne_nil ((settled compact).2 b c there))
      have absurd := mem_entries_node (p := pfx) (l := len) (m := s.metadata) (h := none)
        |>.mpr ⟨b, c, there, listed⟩
      rw [bare] at absurd
      cases absurd
  have takes : (TrieNode.node pfx len cs m h).Compact → ∀ b c, s.taken b = some c → c.Filled :=
    fun compact b c there => (final.taken b c there).2.2 (children compact b)
  refine ⟨?_, ?_, ?_, fun p below => below, fun compact => ⟨settled compact, remains compact⟩, ?_⟩
  · rw [takenRows, entries_node, entries_node]
    exact final.rows
  · intro c taken
    split_ifs at taken with bare
    cases taken
    refine ⟨.node inner full zeros (fun b c occupied => (final.taken b c occupied).1)
      (fun b c occupied => (final.taken b c occupied).2.1) rfl, fun p below => below, fun compact => ?_⟩
    exact (compactAt_node _ _ _ _ _).mpr ⟨Nat.one_le_iff_ne_zero.mpr bare, nofun, takes compact⟩
  · exact .node inner full zeros (fun b c occupied => (final.rest b c occupied).1)
      (fun b c occupied => (final.rest b c occupied).2) final.metadata
  · intro k full' above below compact c taken
    split_ifs at taken with bare
    cases taken
    rw [takenRows] at above
    refine (compactAt_node _ _ _ _ _).mpr ⟨by omega, fun off => ?_, fun b c there => ?_⟩
    · -- the path of `k` runs between a leaf taken and a leaf left
      have taken : Shaped keyLen (.node pfx len s.taken (Branches.total TrieNode.metadata s.taken) none) :=
        .node inner full zeros (fun b c occupied => (final.taken b c occupied).1)
          (fun b c occupied => (final.taken b c occupied).2.1) rfl
      have left : Shaped keyLen (.node pfx len s.rest s.metadata none) :=
        .node inner full zeros (fun b c occupied => (final.rest b c occupied).1)
          (fun b c occupied => (final.rest b c occupied).2) final.metadata
      have some : (TrieNode.node pfx len s.taken (Branches.total TrieNode.metadata s.taken) none).entries ≠
          [] := by
        obtain ⟨b, there⟩ : ∃ b, s.taken b ≠ none := by
          by_contra none
          push Not at none
          exact bare ((Branches.occupied_eq_zero_iff _).mpr (funext none))
        obtain ⟨c, there⟩ := Option.ne_none_iff_exists'.mp there
        obtain ⟨row, listed⟩ := List.exists_mem_of_ne_nil _ (takes compact b c there).entries_ne_nil
        exact List.ne_nil_of_mem (mem_entries_node.mpr ⟨b, c, there, listed⟩)
      obtain ⟨x, listedX⟩ := List.exists_mem_of_ne_nil _ some
      obtain ⟨y, listedY⟩ := List.exists_mem_of_ne_nil _ (remains compact)
      have foundX := find_under taken ((mem_entries_iff taken).mp listedX)
      have foundY := find_under left ((mem_entries_iff left).mp listedY)
      refine absurd (take_eq_of_between foundX.2 foundY.2 (above x ?_) (below y listedY) ?_ ?_) off
      · rw [entries_node] at listedX
        exact listedX
      · rw [foundX.1, full']
      · rw [foundY.1, full']
    · refine final.ragged b c there k full' (fun row listed => above row ?_) (fun row listed => below row ?_)
        (children compact b)
      · exact List.mem_flatMap.mpr ⟨b, List.mem_finRange b, by rw [there]; simpa using listed⟩
      · rw [entries_node]
        exact List.mem_flatMap.mpr ⟨b, List.mem_finRange b, listed⟩

/-- Whatever the amounts, a split that does not throw moves a prefix of the leaves. -/
theorem endowSplit_spec {t : TrieNode V} (shaped : Shaped keyLen t) {endowThreshold : BitVec 64}
    {splitObj : Option (TrieNode V)} {remaining : TrieNode V}
    (run : endowSplit t endowThreshold = .ok (splitObj, remaining)) :
    SplitResult keyLen t splitObj remaining := by
  induction shaped generalizing endowThreshold splitObj remaining with
  | @leaf key value m h full own =>
    rw [endowSplit] at run
    cases run
    exact ⟨by simp, nofun, .leaf full own, fun _ below => below, fun _ => ⟨trivial, by simp⟩,
      fun _ _ _ _ _ => nofun⟩
  | @node pfx len cs m h inner full zeros shaped placed sum ih =>
    have stored : Shaped keyLen (.node pfx len cs m h) := .node inner full zeros shaped placed sum
    rw [endowSplit] at run
    split_ifs at run with bare consumed negative
    · cases run
      refine ⟨by simp, nofun, stored, fun _ below => below, ?_, fun _ _ _ _ _ => nofun⟩
      exact fun compact => ⟨compact.settled, CompactAt.entries_ne_nil compact⟩
    · obtain ⟨s, loop, run⟩ := Fallible.bind_eq_ok.mp run
      have final := Fallible.foldlM_invariant (Splitting keyLen endowThreshold pfx len cs)
        (splitting_start stored) loop (by
          rintro done b s s' ⟨later, whole⟩ before step
          have nodup := List.nodup_finRange 16
          rw [← whole] at nodup
          have fresh : b ∉ done := by
            intro listed
            have apart := (List.nodup_append.mp (List.nodup_append.mp nodup).1).2.2
            exact apart b listed b (by simp) rfl
          refine splitting_step stored before fresh ?_ step
          intro c threshold splitObj remaining occupied split
          rw [occupied, endowSplitSlot] at split
          exact ih b c occupied split)
      have result := splitResult_node stored consumed bare final
      split_ifs at run result with none
      · cases run
        exact result
      · cases run
        exact result

end Loop

end Split

end TrieNode

end Speedex
