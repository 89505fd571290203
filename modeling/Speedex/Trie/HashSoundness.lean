import Speedex.Trie.Freeze
import Speedex.Trie.MarkRanges
import Speedex.Trie.Operations

set_option autoImplicit false

/- Valid hashes stay right under every operation on nodes. Nodes whose live contents change are
invalidated; what remains are walks that change nothing, and marks set or removed behind a node's back. -/
namespace Speedex

open Branches

namespace TrieNode

variable {V : Type}

theorem markChildren_hereditary {P : TrieNode V → Prop} (hereditary : Hereditary P) {pfx : Key} {len : Nat}
    {cs : Fin 16 → Option (TrieNode V)} {m : Metadata} {h : Option Hash}
    {visit : Digit → Option (TrieNode V) × Metadata} (holds : P (.node pfx len cs m h))
    (counts : Counts (.node pfx len cs m h) (markChildren pfx len m h true visit))
    (children : ∀ b c, (visit b).1 = some c → P c) : P (markChildren pfx len m h true visit).1 := by
  by_cases idle : (∑ b, (visit b).2).numDeletedSubnodes = 0
  · rw [counts.2 idle]
    exact holds
  · rw [markChildren]
    dsimp only
    rw [if_pos ⟨rfl, idle⟩]
    exact hereditary.node _ _ _ _ children

theorem markSubtree_hereditary {P : TrieNode V → Prop} (hereditary : Hereditary P) {t : TrieNode V} (holds : P t) :
    P t.markSubtreeForDeletion.1 := by
  induction t using TrieNode.induct with
  | leaf key value m h =>
    rw [markSubtreeForDeletion]
    split
    · exact hereditary.leaf _ _ _
    · exact holds
  | node pfx len cs m h ih =>
    have counts := counts_markSubtree (.node pfx len cs m h)
    rw [markSubtreeForDeletion] at counts ⊢
    refine markChildren_hereditary hereditary holds counts (fun b c there => ?_)
    cases occupied : cs b with
    | none => rw [occupied, markSubtreeSlot] at there; cases there
    | some d =>
      rw [occupied, markSubtreeSlot] at there
      cases there
      exact ih b d occupied (hereditary.children holds b d occupied)

theorem markSubtreeSlot_hereditary {P : TrieNode V → Prop} (hereditary : Hereditary P) {slot : Option (TrieNode V)}
    (holds : ∀ c, slot = some c → P c) : ∀ c, (markSubtreeSlot slot).1 = some c → P c := by
  intro c there
  cases slot with
  | none => rw [markSubtreeSlot] at there; cases there
  | some d =>
    rw [markSubtreeSlot] at there
    cases there
    exact markSubtree_hereditary hereditary (holds d rfl)

section Sound

variable [HashedValue V] [Inhabited V] {sha : Sha256} {keyLen : Nat} {t : TrieNode V}

omit [Inhabited V] in
/-- No leaf without a mark, no live subtree. -/
theorem not_live_of_marked (shaped : Shaped keyLen t)
    (all : ∀ key l, t.find key = some l → l.marked .deleted = true) : ¬ t.Live := by
  rw [live_iff shaped]
  rintro ⟨key, present⟩
  obtain ⟨l, found, unmarked, -⟩ := liveFind_ne_none present
  rw [all key l found] at unmarked
  cases unmarked

omit [Inhabited V] in
theorem swapLeaf_marked {l : Leaf V} (own : LeafMetadata l.value l.metadata) :
    (swapLeaf 0 1 l).marked .deleted = true := by
  rw [(setDeleted_of_swapLeaf own).1]
  rfl

theorem hashSound_markSubtreeLtKey (useLocks : Bool) {maxKey : Key} (full : maxKey.length = keyLen)
    (shaped : Shaped keyLen t) (sound : HashSound sha t) :
    HashSound sha (t.markSubtreeLtKeyForDeletion useLocks maxKey).1 := by
  have hereditary := @hereditary_hashSound V _ _ sha
  induction shaped with
  | @leaf key value m h fullKey own =>
    rw [markSubtreeLtKeyForDeletion]
    split
    · exact markSubtree_hereditary hereditary sound
    · exact sound
  | @node pfx len cs m h inner fullPfx zeros shaped placed sum ih =>
    have stored : Shaped keyLen (.node pfx len cs m h) := .node inner fullPfx zeros shaped placed sum
    have marked := markSubtreeLtKey_spec useLocks full stored
    have counts := counts_markSubtreeLtKey useLocks maxKey (.node pfx len cs m h)
    have whole : ∀ b c, (markSubtreeSlot (cs b)).1 = some c → HashSound sha c :=
      fun b => markSubtreeSlot_hereditary hereditary (fun c occupied => sound.child b c occupied)
    rw [markSubtreeLtKeyForDeletion] at marked counts ⊢
    dsimp only at marked counts ⊢
    by_cases low : pfx < Digits.truncate maxKey len
    · rw [if_pos low] at marked counts ⊢
      cases useLocks with
      | false => exact markChildren_hereditary hereditary sound counts whole
      | true =>
        -- the hash stays, but no leaf below this node counts any more
        refine .node (fun digest valid live => absurd live (not_live_of_marked marked.shaped ?_)) whole
        intro key l found
        replace found := (marked.find key).symm.trans found
        have below : key < maxKey := by
          have present : (node pfx len cs m h).find key ≠ none := by
            intro absent
            rw [absent, Option.map_none, ite_self] at found
            cases found
          obtain ⟨l', found'⟩ := Option.ne_none_iff_exists'.mp present
          exact (compares_maxKey stored full found').low low
        rw [if_pos below, Option.map_eq_some_iff] at found
        obtain ⟨l', found', rfl⟩ := found
        exact swapLeaf_marked (find_leafMetadata stored found')
    · rw [if_neg low] at counts ⊢
      by_cases high : Digits.truncate maxKey len < pfx
      · rw [if_pos high]
        exact sound
      · rw [if_neg high] at counts ⊢
        refine markChildren_hereditary hereditary sound counts (fun b c there => ?_)
        split at there
        · cases occupied : cs b with
          | none => rw [occupied, markSubtreeLtKeySlot] at there; cases there
          | some d =>
            rw [occupied, markSubtreeLtKeySlot] at there
            cases there
            exact ih b d occupied (sound.child b d occupied)
        split at there
        · exact whole b c there
        · exact sound.child b c there

/-- No valid hash at an inner node with marked leaves below it. -/
def ColdAboveMarks (keyLen : Nat) (t : TrieNode V) : Prop :=
  ∀ n, Subnode t n → n.prefixLen < keyLen → n.metadata.numDeletedSubnodes ≠ 0 → n.hash = none

theorem hashSound_clearMarkedDeletions (shaped : Shaped keyLen t) (sound : HashSound sha t)
    (cold : t.ColdAboveMarks keyLen) : HashSound sha t.clearMarkedDeletions := by
  induction shaped with
  | @leaf key value m h full own =>
    rw [clearMarkedDeletions]
    split
    · exact sound
    · refine .leaf (fun digest valid => ?_)
      cases sound with
      | leaf own => exact (own digest valid).trans (by rw [nodeHash, nodeHash])
  | @node pfx len cs m h inner full zeros shaped placed sum ih =>
    rw [clearMarkedDeletions]
    split
    · exact sound
    · rename_i marks
      have invalid : h = none := cold _ (.self _) inner marks
      rw [invalid]
      refine .node (by simp) (fun b c there => ?_)
      cases occupied : cs b with
      | none => rw [occupied, clearMarkedSlot] at there; cases there
      | some d =>
        rw [occupied, clearMarkedSlot] at there
        cases there
        exact ih b d occupied (sound.child b d occupied) (fun n deep => cold n (.deeper occupied deep))

theorem collapse_valid (shaped : Shaped keyLen t) (sound : HashSound sha t) (live : t.collapse.Live)
    (valid : t.hash ≠ none) : t.collapse.hash ≠ none := by
  rcases collapse_cases t with ⟨same, -⟩ | ⟨b, c, same, only⟩
  · rw [same]
    exact valid
  · have above : t.Live := by
      rw [Live, ← (collapse_spec shaped).metadata]
      exact live
    rw [same] at live ⊢
    exact sound.child_valid above valid (b := b) (by rw [only, Function.update_self]) live

theorem hashSound_performDeletion {key : Key} (full : key.length = keyLen) (shaped : Shaped keyLen t)
    (sound : HashSound sha t) : HashSound sha (t.performDeletion key).1 ∧
      ((t.performDeletion key).2.2.1 = none → (t.performDeletion key).1.hash = t.hash) := by
  have hereditary := @hereditary_hashSound V _ _ sha
  induction shaped with
  | @leaf key' value m h fullKey own =>
    rw [performDeletion]
    split <;> exact ⟨sound, fun _ => rfl⟩
  | @node pfx len cs m h inner fullPfx zeros shaped placed sum ih =>
    have stored : Shaped keyLen (.node pfx len cs m h) := .node inner fullPfx zeros shaped placed sum
    have result := performDeletion_spec stored full
    rw [performDeletion] at result ⊢
    split
    · exact ⟨sound, fun _ => rfl⟩
    · rename_i reached
      rw [if_neg reached] at result
      cases occupied : cs (getBranchBits len key) with
      | none =>
        have same : Function.update cs (getBranchBits len key) none = cs := by
          rw [← occupied, Function.update_eq_self]
        simp only [occupied, performDeletionSlot, same, add_zero]
        exact ⟨sound, fun _ => rfl⟩
      | some c =>
        obtain ⟨soundC, keptC⟩ := ih _ c occupied (sound.child _ c occupied)
        have resultC := performDeletion_spec (shaped _ c occupied) full
        simp only [occupied, performDeletionSlot] at result ⊢
        generalize performDeletion c key = removed at resultC soundC keptC result ⊢
        obtain ⟨c', deleteChild, deletedObj, delta⟩ := removed
        have slotSound : ∀ d, (if deleteChild = true then none else some c'.collapse) = some d → HashSound sha d := by
          intro d there
          cases deleteChild with
          | true => cases there
          | false =>
            cases there
            exact hereditary.collapse soundC
        cases deletedObj with
        | some object => exact ⟨hereditary.update (sound.child ·) slotSound, (by simp)⟩
        | none =>
          refine ⟨?_, fun _ => rfl⟩
          cases deleteChild with
          | true =>
            obtain ⟨l, absurd, -⟩ := resultC
            cases absurd
          | false =>
            -- nothing was deleted: the live contents are the same, above and below
            have sameFind : ∀ {u u' : TrieNode V} {delta : Metadata}, Deleted keyLen u key u' none delta →
                u'.liveFind = u.liveFind := by
              intro u u' delta deleted
              have absent : u.find key = none := Option.map_eq_none_iff.mp deleted.object.symm
              funext query
              rw [liveFind, liveFind, deleted.find]
              by_cases here : query = key
              · rw [if_pos here, here, absent]
              · rw [if_neg here]
            refine .node (fun digest valid live => ⟨?_, fun b d there childLive => ?_⟩)
              (forall_update (sound.child ·) slotSound)
            · have before : (node pfx len cs m h).Live := by
                rw [live_iff stored, ← sameFind result, ← live_iff result.shaped]
                exact live
              exact (sound.hash_eq before valid).trans
                (nodeHash_congr stored result.shaped before (sameFind result) rfl rfl).symm
            · have before : (node pfx len cs m h).Live := by
                rw [live_iff stored, ← sameFind result, ← live_iff result.shaped]
                exact live
              have own : (node pfx len cs m h).hash ≠ none := by
                rw [node_hash, show h = some digest from valid]
                exact Option.some_ne_none _
              rcases update_eq_some_iff.mp there with ⟨rfl, new⟩ | ⟨-, at_b⟩
              · cases new
                have childBefore : c.Live := by
                  rw [live_iff (shaped _ c occupied), ← sameFind resultC, ← live_iff resultC.shaped, Live,
                    ← (collapse_spec resultC.shaped).metadata]
                  exact childLive
                refine collapse_valid resultC.shaped soundC childLive ?_
                rw [keptC rfl]
                exact sound.child_valid before own occupied childBefore
              · exact sound.child_valid before own at_b childLive

end Sound

end TrieNode

end Speedex
