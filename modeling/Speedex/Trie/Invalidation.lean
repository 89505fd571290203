import Speedex.Library.Fallible
import Speedex.Trie.Insert
import Speedex.Trie.Marks
import Speedex.Trie.Prune
import Speedex.Trie.Split

set_option autoImplicit false

/- The hashes that operations leave valid. Every walk either keeps a subtree as it is or invalidates
the nodes it rebuilds, so a property that rebuilt nodes have for free is kept by the operations. -/
namespace Speedex

open Branches

namespace TrieNode

variable {V : Type}

def hash : TrieNode V → Option Hash
  | .leaf _ _ _ hash => hash
  | .node _ _ _ _ hash => hash

@[simp] theorem leaf_hash (key : Key) (value : V) (m : Metadata) (h : Option Hash) :
    (leaf key value m h).hash = h := rfl
@[simp] theorem node_hash (p : Key) (l : Nat) (cs : Fin 16 → Option (TrieNode V)) (m : Metadata)
    (h : Option Hash) : (node p l cs m h).hash = h := rfl

/-- A property of subtrees that a node without a valid hash takes from its children. -/
structure Hereditary (P : TrieNode V → Prop) : Prop where
  leaf : ∀ key value m, P (.leaf key value m none)
  node : ∀ pfx len cs m, (∀ b c, cs b = some c → P c) → P (.node pfx len cs m none)
  child : ∀ t b c, t.children b = some c → P t → P c

variable {P : TrieNode V → Prop} {t a b : TrieNode V}

theorem Hereditary.children (hereditary : Hereditary P) {pfx : Key} {len : Nat} {cs : Fin 16 → Option (TrieNode V)}
    {m : Metadata} {h : Option Hash} (holds : P (.node pfx len cs m h)) (b : Digit) (c : TrieNode V)
    (occupied : cs b = some c) : P c :=
  hereditary.child (.node pfx len cs m h) b c occupied holds

theorem Hereditary.invalidateHash (hereditary : Hereditary P) (holds : P t) : P t.invalidateHash := by
  cases t with
  | leaf key value m h => exact hereditary.leaf _ _ _
  | node pfx len cs m h => exact hereditary.node _ _ _ _ (hereditary.children holds)

theorem Hereditary.collapse (hereditary : Hereditary P) (holds : P t) : P t.collapse := by
  rcases collapse_cases t with ⟨same, -⟩ | ⟨b, c, same, only⟩
  · rw [same]
    exact holds
  · rw [same]
    exact hereditary.child _ b c (by rw [only, Function.update_self]) holds

theorem forall_update {cs : Fin 16 → Option (TrieNode V)} {d : Digit} {slot : Option (TrieNode V)}
    (old : ∀ b c, cs b = some c → P c) (new : ∀ c, slot = some c → P c) :
    ∀ b c, Function.update cs d slot b = some c → P c := by
  intro b c occupied
  rcases update_eq_some_iff.mp occupied with ⟨-, here⟩ | ⟨-, there⟩
  · exact new c here
  · exact old b c there

/-- A node that is rebuilt around one new child. -/
theorem Hereditary.update (hereditary : Hereditary P) {pfx : Key} {len : Nat} {cs : Fin 16 → Option (TrieNode V)}
    {m : Metadata} {d : Digit} {slot : Option (TrieNode V)} (old : ∀ b c, cs b = some c → P c)
    (new : ∀ c, slot = some c → P c) : P (.node pfx len (Function.update cs d slot) m none) :=
  hereditary.node _ _ _ _ (forall_update old new)

theorem Hereditary.fork (hereditary : Hereditary P) (left : P a) (right : P b) (n : Nat) : P (fork a b n) := by
  refine hereditary.node _ _ _ _ (fun d c occupied => ?_)
  rcases fork_child (a := a) (b := b) (n := n) occupied with ⟨-, rfl⟩ | ⟨-, rfl⟩
  · exact right
  · exact hereditary.invalidateHash left

section Merge

variable [TrieValue V] {mergeFn : MergeFn V}

theorem mergeCases_hereditary (hereditary : Hereditary P)
    {descend : Digit → TrieNode V → Except String (TrieNode V × Metadata)}
    {ascend : Digit → Except String (TrieNode V × Metadata)}
    (below : ∀ d o r, P o → descend d o = .ok r → P r.1) (above : ∀ d r, ascend d = .ok r → P r.1)
    (left : P a) (right : P b) {r : TrieNode V × Metadata}
    (done : mergeCases mergeFn a b descend ascend = .ok r) : P r.1 := by
  obtain ⟨n, matched⟩ : ∃ n, n = a.getPrefixMatchLen b.pfx b.prefixLen := ⟨_, rfl⟩
  -- the branches that go on below one of the two nodes
  have goesBelow : ∀ {pfx : Key} {len : Nat} {cs : Fin 16 → Option (TrieNode V)} {m : Metadata},
      (∀ b c, cs b = some c → P c) → mergeBelow pfx len cs m b descend = .ok r → P r.1 := by
    intro pfx len cs m old done
    obtain ⟨⟨child, delta⟩, step, done⟩ := Fallible.bind_eq_ok.mp done
    cases done
    refine hereditary.update old ?_
    rintro c ⟨⟩
    exact below _ _ _ right step
  have goesAbove : ∀ {pfx : Key} {len : Nat} {cs : Fin 16 → Option (TrieNode V)} {m : Metadata},
      (∀ b c, cs b = some c → P c) → mergeAbove a pfx len cs m ascend = .ok r → P r.1 := by
    intro pfx len cs m old done
    rw [mergeAbove] at done
    split at done
    · cases done
      refine hereditary.update old ?_
      rintro c ⟨⟩
      exact hereditary.invalidateHash left
    · obtain ⟨⟨child, delta⟩, step, done⟩ := Fallible.bind_eq_ok.mp done
      cases done
      refine hereditary.update old ?_
      rintro c ⟨⟩
      exact above _ _ step
  have forks : ∀ {a' b' : TrieNode V} {m : Metadata}, P a' → P b' →
      (Except.ok (TrieNode.fork a' b' n, m) : Except String _) = .ok r → P r.1 := by
    rintro a' b' m left right ⟨⟩
    exact hereditary.fork left right n
  cases a with
  | leaf key value m h =>
    cases b with
    | leaf key' value' m' h' =>
      simp only [mergeCases, ← matched] at done
      split at done
      · cases done
        exact hereditary.leaf _ _ _
      · exact forks left right done
    | node pfx' len' cs' m' h' =>
      simp only [mergeCases, ← matched] at done
      split at done
      · exact goesAbove (hereditary.children right) done
      · exact forks left right done
  | node pfx len cs m h =>
    cases b with
    | leaf key' value' m' h' =>
      simp only [mergeCases, ← matched] at done
      split at done
      · cases done
      split at done
      · exact goesBelow (hereditary.children left) done
      · exact forks left right done
    | node pfx' len' cs' m' h' =>
      simp only [mergeCases, ← matched] at done
      split at done
      · cases done
      split at done
      · obtain ⟨merged, whole, done⟩ := Fallible.bind_eq_ok.mp done
        cases done
        refine hereditary.node _ _ _ _ (fun d c occupied => ?_)
        have branch := sequence_eq_ok whole d
        cases at_d : cs' d with
        | none =>
          rw [at_d, mergeBranch] at branch
          rw [← Except.ok.inj branch] at occupied
          exact hereditary.children left d c occupied
        | some o =>
          rw [at_d, mergeBranch] at branch
          obtain ⟨⟨child, delta⟩, step, branch⟩ := Fallible.bind_eq_ok.mp branch
          rw [← Except.ok.inj branch] at occupied
          cases occupied
          exact below d o _ (hereditary.children right d o at_d) step
      split at done
      · exact goesBelow (hereditary.children left) done
      split at done
      · exact goesAbove (hereditary.children right) done
      · exact forks left right done

theorem mergeOnto_hereditary (hereditary : Hereditary P)
    {descend : Digit → TrieNode V → Except String (TrieNode V × Metadata)}
    (below : ∀ d o r, P o → descend d o = .ok r → P r.1) (left : P a) (right : P b)
    {r : TrieNode V × Metadata} (done : mergeOnto mergeFn a descend b = .ok r) : P r.1 := by
  induction b using TrieNode.induct generalizing r with
  | leaf key value m h =>
    rw [mergeOnto] at done
    refine mergeCases_hereditary hereditary below (fun d r step => ?_) left right done
    cases step
  | node pfx len cs m h ih =>
    rw [mergeOnto] at done
    refine mergeCases_hereditary hereditary below (fun d r step => ?_) left right done
    cases occupied : cs d with
    | none => rw [occupied, mergeOntoSlot] at step; cases step
    | some c =>
      rw [occupied, mergeOntoSlot] at step
      exact ih d c occupied (hereditary.children right d c occupied) step

theorem mergeIn_hereditary (hereditary : Hereditary P) (left : P a) (right : P b)
    {r : TrieNode V × Metadata} (done : mergeIn mergeFn a b = .ok r) : P r.1 := by
  induction a using TrieNode.induct generalizing b r with
  | leaf key value m h =>
    rw [mergeIn] at done
    refine mergeOnto_hereditary hereditary (fun d o r holds step => ?_) left right done
    cases step
    exact holds
  | node pfx len cs m h ih =>
    rw [mergeIn] at done
    refine mergeOnto_hereditary hereditary (fun d o r holds step => ?_) left right done
    cases occupied : cs d with
    | none =>
      rw [occupied, mergeInSlot] at step
      cases step
      exact holds
    | some c =>
      rw [occupied, mergeInSlot] at step
      exact ih d c occupied (hereditary.children left d c occupied) holds step

theorem insert_hereditary (hereditary : Hereditary P) {insertFn : InsertFn} {data : Key} {value : V}
    (holds : P t) {r : TrieNode V × Metadata} (done : insert insertFn t data value = .ok r) : P r.1 := by
  have forks : ∀ {t' : TrieNode V} {n : Nat} {r : TrieNode V × Metadata}, P t' →
      insertFork insertFn t' data value n = .ok r → P r.1 := by
    intro t' n r holds done
    rw [insertFork] at done
    split at done
    · cases done
    · cases done
      exact hereditary.fork holds (hereditary.leaf _ _ _) n
  induction t using TrieNode.induct generalizing r with
  | leaf key value' m h =>
    rw [insert] at done
    split at done
    · cases done
      exact hereditary.leaf _ _ _
    · exact forks holds done
  | node pfx len cs m h ih =>
    rw [insert] at done
    split at done
    · cases done
    split at done
    · cases done
    dsimp only at done
    split at done
    · cases done
      exact hereditary.leaf _ _ _
    split at done
    · obtain ⟨⟨child, delta⟩, step, done⟩ := Fallible.bind_eq_ok.mp done
      cases done
      refine hereditary.update (hereditary.children holds) ?_
      rintro c ⟨⟩
      cases occupied : cs (getBranchBits len data) with
      | none =>
        rw [occupied, insertSlot] at step
        cases step
        exact hereditary.leaf _ _ _
      | some c =>
        rw [occupied, insertSlot] at step
        exact ih _ c occupied (hereditary.children holds _ c occupied) step
    · exact forks holds done

end Merge

/-- The walk of `perform_marked_deletions` and `do_rollback`. -/
theorem prune_hereditary (hereditary : Hereditary P) {mark : Mark} (holds : P t) {t' : TrieNode V} {erase : Bool}
    {delta : Metadata} {dropped : List (Key × V)} (done : prune mark t = .ok (t', erase, delta, dropped)) : P t' := by
  induction t using TrieNode.induct generalizing t' erase delta dropped with
  | leaf key value m h =>
    rw [prune] at done
    split at done
    · cases done
      exact holds
    split at done
    · cases done
      exact hereditary.leaf _ _ _
    split at done
    · cases done
    · cases done
      exact hereditary.leaf _ _ _
  | node pfx len cs m h ih =>
    rw [prune] at done
    split at done
    · cases done
      exact holds
    · obtain ⟨visited, whole, done⟩ := Fallible.bind_eq_ok.mp done
      have rebuilt := congrArg Prod.fst (Except.ok.inj done)
      dsimp only at rebuilt
      rw [← rebuilt]
      refine hereditary.node _ _ _ _ (fun b c occupied => ?_)
      have visit := sequence_eq_ok whole b
      cases at_b : cs b with
      | none =>
        rw [at_b, pruneSlot] at visit
        rw [← Except.ok.inj visit] at occupied
        cases occupied
      | some child =>
        rw [at_b, pruneSlot] at visit
        obtain ⟨⟨child', erase, delta, dropped⟩, step, visit⟩ := Fallible.bind_eq_ok.mp visit
        rw [← Except.ok.inj visit] at occupied
        cases erase with
        | true => cases occupied
        | false =>
          cases occupied
          exact hereditary.collapse (ih b child at_b (hereditary.children holds b child at_b) step)

/-- A compare-exchange that changes no mark leaves a node as it is, up to what `eager` invalidates. -/
theorem swapMark_idle {expect desired : Int} {key : Key} (idle : (swapMark expect desired false t key).2.2 = none) :
    swapMark expect desired false t key = (t, 0, none) := by
  induction t using TrieNode.induct with
  | leaf key' value m h =>
    rw [swapMark] at idle ⊢
    split
    · rfl
    · rename_i reached
      rw [if_neg reached] at idle
      split
      · rename_i hit
        rw [if_pos hit] at idle
        cases idle
      · rfl
  | node pfx len cs m h ih =>
    rw [swapMark] at idle ⊢
    split
    · rfl
    · rename_i reached
      rw [if_neg reached] at idle
      cases occupied : cs (getBranchBits len key) with
      | none => simp only [occupied]
      | some c =>
        simp only [occupied, swapMarkSlot] at idle ⊢
        have same := ih _ c occupied idle
        rw [same, ← occupied, Function.update_eq_self, add_zero]
        rfl

theorem swapMark_hereditary (hereditary : Hereditary P) {expect desired : Int} {eager : Bool} {key : Key}
    (holds : P t) : P (swapMark expect desired eager t key).1 := by
  induction t using TrieNode.induct with
  | leaf key' value m h =>
    rw [swapMark]
    split
    · exact holds
    split
    · exact hereditary.leaf _ _ _
    · exact holds
  | node pfx len cs m h ih =>
    by_cases idle : eager = false ∧ (swapMark expect desired false (.node pfx len cs m h) key).2.2 = none
    · obtain ⟨rfl, idle⟩ := idle
      rw [swapMark_idle idle]
      exact holds
    · rw [swapMark] at idle ⊢
      split
      · exact holds
      · rename_i reached
        rw [if_neg reached] at idle
        cases occupied : cs (getBranchBits len key) with
        | none =>
          simp only [occupied]
          exact holds
        | some c =>
          simp only [occupied, swapMarkSlot] at idle ⊢
          have invalid : (if (eager || (swapMark expect desired eager c key).2.2.isSome) = true then none else h) = none := by
            refine if_pos ?_
            cases eager with
            | true => rfl
            | false =>
              rw [Bool.false_or, Option.isSome_iff_ne_none]
              exact fun none => idle ⟨rfl, none⟩
          rw [invalid]
          refine hereditary.update (hereditary.children holds) ?_
          rintro c' ⟨⟩
          exact ih _ c occupied (hereditary.children holds _ c occupied)

/-- Both parts of a split. -/
theorem endowSplit_hereditary (hereditary : Hereditary P) (holds : P t) {threshold : BitVec 64}
    {taken : Option (TrieNode V)} {remaining : TrieNode V} (done : t.endowSplit threshold = .ok (taken, remaining)) :
    P remaining ∧ ∀ c, taken = some c → P c := by
  induction t using TrieNode.induct generalizing threshold taken remaining with
  | leaf key value m h =>
    rw [endowSplit] at done
    cases done
    exact ⟨holds, (by simp)⟩
  | node pfx len cs m h ih =>
    rw [endowSplit] at done
    split at done
    · cases done
      exact ⟨holds, (by simp)⟩
    split at done
    · cases done
    split at done
    · cases done
    obtain ⟨s, loop, done⟩ := Fallible.bind_eq_ok.mp done
    -- the children collected so far, and those that stay
    have parts : (∀ b c, s.taken b = some c → P c) ∧ (∀ b c, s.rest b = some c → P c) := by
      refine Fallible.foldlM_invariant (fun _ s => (∀ b c, s.taken b = some c → P c) ∧
        (∀ b c, s.rest b = some c → P c)) ⟨(by simp), hereditary.children holds⟩ loop ?_
      intro _ d s s' _ inv step
      rcases splitStep_cases step with ⟨-, rfl⟩ | ⟨-, -, rfl⟩ | ⟨c, -, occupied, -, rfl⟩ |
        ⟨c, splitObj, remaining, -, occupied, -, split, rfl⟩
      · exact inv
      · exact inv
      · have child := hereditary.children holds d c occupied
        exact ⟨forall_update inv.1 (fun c' same => Option.some.inj same ▸ child), forall_update inv.2 (by simp)⟩
      · have child := hereditary.children holds d c occupied
        rw [occupied, endowSplitSlot] at split
        obtain ⟨stays, moves⟩ := ih d c occupied child split
        exact ⟨forall_update inv.1 moves,
          forall_update inv.2 (fun c' same => Option.some.inj same ▸ hereditary.collapse stays)⟩
    split at done
    · cases done
      exact ⟨hereditary.node _ _ _ _ parts.2, (by simp)⟩
    · cases done
      refine ⟨hereditary.node _ _ _ _ parts.2, ?_⟩
      rintro c ⟨⟩
      exact hereditary.node _ _ _ _ parts.1

end TrieNode

end Speedex
