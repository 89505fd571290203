import Speedex.Trie.CanonicalForm
import Speedex.Trie.Rollback

set_option autoImplicit false

/- A split and what `undo_thunk` does to take it back: the split off trie is cleaned along the key of the
partially executed offer and merged, and the offer is inserted as it was before. -/
namespace Speedex

open TrieNode

namespace TrieNode

section Sound

variable {V : Type} [HashedValue V] [Inhabited V] {sha : Sha256} {keyLen : Nat} {k : Key} {t : TrieNode V}

/-- Another representation of the same keys, with valid hashes that are right. -/
structure SameHashes (sha : Sha256) (keyLen : Nat) (t t' : TrieNode V) : Prop where
  contents : SameContents keyLen t t'
  sound : HashSound sha t'
  kept : t.Live → t.hash ≠ none → t'.hash ≠ none

theorem SameHashes.refl (shaped : Shaped keyLen t) (sound : HashSound sha t) : SameHashes sha keyLen t t :=
  ⟨.refl shaped, sound, fun _ valid => valid⟩

omit [Inhabited V] in
theorem SameContents.live {t' : TrieNode V} (same : SameContents keyLen t t') : t'.Live ↔ t.Live := by
  rw [Live, Live, same.metadata]

theorem SameHashes.trans {t' t'' : TrieNode V} (first : SameHashes sha keyLen t t')
    (second : SameHashes sha keyLen t' t'') : SameHashes sha keyLen t t'' :=
  ⟨first.contents.trans second.contents, second.sound,
    fun live valid => second.kept (first.contents.live.mpr live) (first.kept live valid)⟩

/-- The hash of a live node was computed from the valid hash of its only child. -/
theorem sameHashes_single (shaped : Shaped keyLen t) (sound : HashSound sha t) {b : Digit} {c : TrieNode V}
    (only : t.children = Function.update Branches.empty b (some c)) : SameHashes sha keyLen t c := by
  have occupied : t.children b = some c := by rw [only, Function.update_self]
  have same := sameContents_single shaped only
  exact ⟨same, sound.child b c occupied, fun live valid => sound.child_valid live valid occupied (same.live.mpr live)⟩

/-- A node keeps its hash when other representations of its children take their places. -/
theorem sameHashes_children {pfx : Key} {len : Nat} {cs cs' : Fin 16 → Option (TrieNode V)} {m : Metadata} {h : Option Hash}
    (stored : Shaped keyLen (.node pfx len cs m h)) (sound : HashSound sha (.node pfx len cs m h))
    (vacant : ∀ b, cs b = none → cs' b = none)
    (occupied : ∀ b c, cs b = some c → ∃ c', cs' b = some c' ∧ SameHashes sha keyLen c c') :
    SameHashes sha keyLen (.node pfx len cs m h) (.node pfx len cs' m h) := by
  have same : SameContents keyLen (.node pfx len cs m h) (.node pfx len cs' m h) := by
    refine sameContents_children stored vacant (fun b c here => ?_)
    obtain ⟨c', there, hashes⟩ := occupied b c here
    exact ⟨c', there, hashes.contents⟩
  have child : ∀ b c', cs' b = some c' → ∃ c, cs b = some c ∧ SameHashes sha keyLen c c' := by
    intro b c' there
    cases here : cs b with
    | none =>
      rw [vacant b here] at there
      cases there
    | some c =>
      obtain ⟨c'', there', hashes⟩ := occupied b c here
      rw [there'] at there
      cases there
      exact ⟨c, rfl, hashes⟩
  refine ⟨same, .node (fun digest valid live => ⟨?_, fun b c' there childLive => ?_⟩) (fun b c' there => ?_),
    fun _ valid => valid⟩
  · have before := same.live.mp live
    rw [nodeHash_congr stored same.shaped before (liveFind_congr same.find) rfl rfl]
    exact sound.hash_eq before valid
  · obtain ⟨c, here, hashes⟩ := child b c' there
    have before := hashes.contents.live.mp childLive
    have own : (node pfx len cs m h).hash ≠ none := by
      rw [node_hash, valid]
      exact Option.some_ne_none _
    exact hashes.kept before (sound.child_valid (same.live.mp live) own here before)
  · obtain ⟨c, -, hashes⟩ := child b c' there
    exact hashes.sound

theorem sameHashes_contract (shaped : Shaped keyLen t) (sound : HashSound sha t) : SameHashes sha keyLen t t.contract := by
  induction shaped with
  | leaf full own =>
    rw [contract]
    exact .refl (.leaf full own) sound
  | @node pfx len cs m h inner full zeros shaped placed sum ih =>
    have stored : Shaped keyLen (.node pfx len cs m h) := .node inner full zeros shaped placed sum
    by_cases single : Branches.occupied cs = 1
    · obtain ⟨b, c, rfl⟩ := Branches.exists_single single
      have here := Function.update_self b (some c) Branches.empty
      rw [contract_single]
      exact (sameHashes_single stored sound rfl).trans (ih b c here (sound.child b c here))
    · rw [contract_several single]
      exact .refl stored sound

theorem sameHashes_clean_node {pfx : Key} {len : Nat} {cs : Fin 16 → Option (TrieNode V)} {m : Metadata} {h : Option Hash}
    (stored : Shaped keyLen (.node pfx len cs m h)) (sound : HashSound sha (.node pfx len cs m h))
    (ih : ∀ b c, cs b = some c → SameHashes sha keyLen c (cleanContracted k c)) :
    SameHashes sha keyLen (.node pfx len cs m h) (cleanSinglechildNodes k (.node pfx len cs m h)) := by
  have shaped : ∀ b c, cs b = some c → Shaped keyLen c := by
    cases stored with
    | node _ _ _ shaped _ _ => exact shaped
  rw [cleanSinglechildNodes]
  refine sameHashes_children stored sound (fun b bare => ?_) (fun b c occupied => ⟨_, cleaned_child occupied, ?_⟩)
  · rw [bare, cleanContractedSlot, contractSlot]
    exact ite_self _
  · split
    · exact ih b c occupied
    · exact sameHashes_contract (shaped b c occupied) (sound.child b c occupied)

theorem sameHashes_cleanContracted (shaped : Shaped keyLen t) (sound : HashSound sha t) :
    SameHashes sha keyLen t (cleanContracted k t) := by
  induction shaped with
  | leaf full own =>
    rw [cleanContracted]
    exact .refl (.leaf full own) sound
  | @node pfx len cs m h inner full zeros shaped placed sum ih =>
    have stored : Shaped keyLen (.node pfx len cs m h) := .node inner full zeros shaped placed sum
    by_cases single : Branches.occupied cs = 1
    · obtain ⟨b, c, rfl⟩ := Branches.exists_single single
      have here := Function.update_self b (some c) Branches.empty
      rw [cleanContracted_single]
      exact (sameHashes_single stored sound rfl).trans (ih b c here (sound.child b c here))
    · rw [cleanContracted_several single]
      exact sameHashes_clean_node stored sound (fun b c occupied => ih b c occupied (sound.child b c occupied))

theorem sameHashes_cleanSinglechildNodes (shaped : Shaped keyLen t) (sound : HashSound sha t) :
    SameHashes sha keyLen t (cleanSinglechildNodes k t) := by
  cases shaped with
  | leaf full own =>
    rw [cleanSinglechildNodes]
    exact .refl (.leaf full own) sound
  | node inner full zeros shaped placed sum =>
    exact sameHashes_clean_node (.node inner full zeros shaped placed sum) sound
      (fun b c occupied => sameHashes_cleanContracted (shaped b c occupied) (sound.child b c occupied))

end Sound

end TrieNode

namespace MerkleTrie

section Split

variable {V : Type} {keyLen : Nat} {t cleared rest stays : MerkleTrie V} {k : Key} {offer : V} {threshold : BitVec 64}

/-- A split of `t`, and the removal of the offer at the lowest key that remains. -/
def PartlyExecuted (keyLen : Nat) (t : MerkleTrie V) (threshold : BitVec 64) (cleared rest : MerkleTrie V) (k : Key) (offer : V) : Prop :=
  ∃ remaining, t.endowSplit keyLen threshold = .ok (cleared, remaining) ∧ remaining.getLowestKey = some k ∧
    remaining.performDeletion keyLen k = (rest, some offer)

/-- The trie that stays; what is left of the partially executed offer may be back in it. -/
def Stays [TrieValue V] (rest : MerkleTrie V) (k : Key) (stays : MerkleTrie V) : Prop :=
  stays = rest ∨ ∃ left, rest.insert .overwrite k left = .ok stays

variable [TrieValue V]

theorem PartlyExecuted.spec (executed : PartlyExecuted keyLen t threshold cleared rest k offer) (valid : t.Valid keyLen)
    (long : 0 < keyLen) : k.length = keyLen ∧ rest.Valid keyLen ∧ (cleared.cleanSinglechildNodes k).Valid keyLen ∧
      (cleared.cleanSinglechildNodes k).find = cleared.find ∧ (∃ m, t.find k = some ⟨offer, m⟩) ∧
      ∀ query, query ≠ k → t.find query = (cleared.find query).or (rest.find query) := by
  obtain ⟨remaining, split, lowest, removed⟩ := executed
  have into := endowSplit_spec valid long split
  have least := getLowestKey_valid into.valid long
  rw [lowest] at least
  obtain ⟨present, least⟩ := least
  obtain ⟨l, found⟩ := Option.ne_none_iff_exists'.mp present
  have full := find_key_length into.valid long found
  have deletion := @performDeletion_spec _ _ _ _ k into.valid long full
  rw [removed] at deletion
  obtain ⟨validRest, finds, object⟩ := deletion
  have low : ∀ row ∈ cleared.entries, row.1 ≤ k := by
    intro row listed
    have taken := (find_of_shaped into.shaped).mpr (show (row.1, row.2) ∈ cleared.entries from listed)
    exact (into.lt valid long (by rw [taken]; exact Option.some_ne_none _) present).le
  have high : ∀ row ∈ remaining.entries, k ≤ row.1 := by
    intro row listed
    have kept := (mem_entries into.valid long).mp (show (row.1, row.2) ∈ remaining.entries from listed)
    exact least row.1 (by rw [kept]; exact Option.some_ne_none _)
  obtain ⟨cleaned, same⟩ := into.cleaned k full low high
  refine ⟨full, validRest, cleaned, same, ⟨l.metadata, ?_⟩, fun query apart => ?_⟩
  · rw [found, Option.map_some, Option.some.injEq] at object
    rw [object]
    exact (into.find_iff valid long).mpr (Or.inr found)
  · rw [into.find valid long, finds, if_neg apart]

theorem Stays.spec (remains : Stays rest k stays) (valid : rest.Valid keyLen) (long : 0 < keyLen) (full : k.length = keyLen) :
    stays.Valid keyLen ∧ ∀ query, query ≠ k → stays.find query = rest.find query := by
  rcases remains with rfl | ⟨left, inserted⟩
  · exact ⟨valid, fun _ _ => rfl⟩
  · obtain ⟨_, inserted', valid', finds⟩ := insert_spec .overwrite left valid long full
    rw [inserted] at inserted'
    cases inserted'
    exact ⟨valid', fun query apart => by rw [finds, if_neg apart]⟩

end Split

section Undo

variable {V : Type} [HashedValue V] [Inhabited V] {sha : Sha256} {keyLen : Nat} {t cleared rest stays : MerkleTrie V}
  {k : Key} {offer : V} {threshold : BitVec 64}

theorem Hashed.cleanSinglechildNodes (hashed : t.Hashed sha keyLen) : (t.cleanSinglechildNodes k).Hashed sha keyLen := by
  have cleaned := @sameHashes_cleanSinglechildNodes _ _ _ sha keyLen k _ hashed.shaped hashed.sound
  have contracted := sameHashes_contract cleaned.contents.shaped cleaned.sound
  exact hashed_of_invalid contracted.contents.shaped contracted.sound

theorem PartlyExecuted.hashed (executed : PartlyExecuted keyLen t threshold cleared rest k offer) (hashed : t.Hashed sha keyLen)
    (long : 0 < keyLen) (full : k.length = keyLen) : cleared.Hashed sha keyLen ∧ rest.Hashed sha keyLen := by
  obtain ⟨remaining, split, -, removed⟩ := executed
  obtain ⟨taken, remains⟩ := hashed.endowSplit long split
  have deleted := remains.performDeletion long full
  rw [removed] at deleted
  exact ⟨taken, deleted⟩

theorem Stays.hashed (remains : Stays rest k stays) (hashed : rest.Hashed sha keyLen) (long : 0 < keyLen)
    (full : k.length = keyLen) : stays.Hashed sha keyLen := by
  rcases remains with rfl | ⟨left, inserted⟩
  · exact hashed
  · exact hashed.insert long full inserted

/-- Undoing a split leads back to the trie that was split. -/
structure SplitUndone (sha : Sha256) (keyLen : Nat) (t cleared stays : MerkleTrie V) (k : Key) (offer : V) : Prop where
  cleaned : (cleared.cleanSinglechildNodes k).Valid keyLen
  leaves : (cleared.cleanSinglechildNodes k).find = cleared.find
  restored : ∃ merged final, stays.mergeIn (cleared.cleanSinglechildNodes k) = .ok merged ∧
    merged.insert .overwrite k offer = .ok final ∧ final.Valid keyLen ∧ (∀ query, final.find query = t.find query) ∧
    final.root.withoutHashes = t.root.withoutHashes ∧ ∀ ranges, ∃ final' t' hash,
      final.freezeAndHash sha ranges = .ok (final', hash) ∧ t.freezeAndHash sha ranges = .ok (t', hash)

/-- The inserted offer has no marks. -/
theorem SplitUndone.metadata (undone : SplitUndone sha keyLen t cleared stays k offer)
    (executed : PartlyExecuted keyLen t threshold cleared rest k offer) (remains : Stays rest k stays) (valid : t.Valid keyLen)
    (long : 0 < keyLen) : t.find k = some ⟨offer, Metadata.ofValue offer⟩ := by
  obtain ⟨full, validRest, cleaned, -⟩ := executed.spec valid long
  obtain ⟨merged, final, merge, insert, -, finds, -⟩ := undone.restored
  obtain ⟨_, merge', validMerged, -⟩ := mergeIn_spec (Or.inl (remains.spec validRest long full).1) cleaned long
  rw [merge] at merge'
  cases merge'
  obtain ⟨_, insert', -, found⟩ := insert_spec .overwrite offer validMerged long full
  rw [insert] at insert'
  cases insert'
  rw [← finds, found, if_pos rfl]
  rfl

/-- A split is undone exactly if the partially executed offer had no marks. -/
theorem splitUndone_iff (long : 0 < keyLen) (valid : t.Valid keyLen) (hashed : t.Hashed sha keyLen)
    (executed : PartlyExecuted keyLen t threshold cleared rest k offer) (remains : Stays rest k stays) :
    SplitUndone sha keyLen t cleared stays k offer ↔ ∀ l, t.find k = some l → l.metadata = Metadata.ofValue l.value := by
  obtain ⟨full, validRest, cleaned, same, ⟨m, found⟩, parts⟩ := executed.spec valid long
  obtain ⟨validStays, apart⟩ := remains.spec validRest long full
  constructor
  · intro undone l found
    rw [undone.metadata executed remains valid long] at found
    cases found
    rfl
  · intro plain
    obtain ⟨hashedCleared, hashedRest⟩ := executed.hashed hashed long full
    obtain ⟨merged, merge, validMerged, findsMerged⟩ := mergeIn_spec (Or.inl validStays) cleaned long
    obtain ⟨final, insert, validFinal, findsFinal⟩ := insert_spec .overwrite offer validMerged long full
    have hashedMerged := (remains.hashed hashedRest long full).mergeInWith hashedCleared.cleanSinglechildNodes long merge
    have hashedFinal := hashedMerged.insert long full insert
    have finds : ∀ query, final.find query = t.find query := by
      intro query
      rw [findsFinal]
      split
      · rename_i here
        rw [here, found, show m = Metadata.ofValue offer from plain _ found]
        rfl
      · rename_i other
        rw [findsMerged, same, apart query other, parts query other]
    have live : final.liveFind = t.liveFind := liveFind_congr (funext finds)
    -- a trie with this offer in it is not empty
    have canonical : ∀ {u : MerkleTrie V}, u.Valid keyLen → u.find k = t.find k → Canonical keyLen u.root := by
      intro u valid' at_k
      refine valid'.resolve_left (fun vacant => ?_)
      rw [found, MerkleTrie.find, find_of_vacant vacant] at at_k
      cases at_k
    refine ⟨cleaned, same, merged, final, merge, insert, validFinal, finds, ?_, fun ranges => ?_⟩
    · exact (canonical validFinal (finds k)).unique (canonical valid rfl) finds
    · obtain ⟨final', done, -⟩ := freezeAndHash_spec hashedFinal ranges
      obtain ⟨t', done', -⟩ := freezeAndHash_spec hashed ranges
      rw [live] at done
      exact ⟨final', t', _, done, done'⟩

end Undo

section Offers

/-- Of two offers the first is executed in full and the second in part. -/
theorem splitUndone_sample : ∃ t cleared rest : MerkleTrie Offer, PartlyExecuted 4 t 10 cleared rest [0, 0, 1, 4] tenUnits ∧
    (SplitUndone sha256 4 t cleared rest [0, 0, 1, 4] tenUnits ↔
      ∀ l, t.find [0, 0, 1, 4] = some l → l.metadata = Metadata.ofValue l.value) := by
  obtain ⟨t, first⟩ : ∃ t : MerkleTrie Offer, (MerkleTrie.new 4).insert .overwrite [0, 0, 0, 0] tenUnits = .ok t := ⟨_, rfl⟩
  obtain ⟨t', second⟩ : ∃ t', t.insert .overwrite [0, 0, 1, 4] tenUnits = .ok t' := by
    cases first
    exact ⟨_, rfl⟩
  have built : Built sha256 4 t' := .insert (.insert .new rfl first) rfl second
  have intact := built.intact (by decide)
  have executed : ∃ cleared rest, PartlyExecuted 4 t' 10 cleared rest [0, 0, 1, 4] tenUnits := by
    cases first
    cases second
    exact ⟨_, _, _, rfl, rfl, rfl⟩
  obtain ⟨cleared, rest, executed⟩ := executed
  exact ⟨t', cleared, rest, executed, splitUndone_iff (by decide) intact.valid intact.hashed executed (Or.inl rfl)⟩

/-- A tentative offer that is executed in part comes back as a permanent one. -/
theorem undo_forgets_tentative : ∃ t cleared rest : MerkleTrie Offer,
    (MerkleTrie.new 4).insert .rollback [0, 0, 0, 0] tenUnits = .ok t ∧ t.Valid 4 ∧
      PartlyExecuted 4 t 0 cleared rest [0, 0, 0, 0] tenUnits ∧ ¬ SplitUndone sha256 4 t cleared rest [0, 0, 0, 0] tenUnits := by
  obtain ⟨t, inserted, valid, finds⟩ := @insert_spec _ _ 4 (MerkleTrie.new 4) [0, 0, 0, 0] .rollback tenUnits (valid_new 4)
    (by decide) rfl
  have executed : ∃ cleared rest, PartlyExecuted 4 t 0 cleared rest [0, 0, 0, 0] tenUnits := by
    cases inserted
    exact ⟨_, _, _, rfl, rfl, rfl⟩
  obtain ⟨cleared, rest, executed⟩ := executed
  refine ⟨t, cleared, rest, inserted, valid, executed, fun undone => ?_⟩
  have plain := undone.metadata executed (Or.inl rfl) valid (by decide)
  rw [finds, if_pos rfl] at plain
  exact absurd (congrArg Leaf.metadata (Option.some.inj plain)) (by decide)

end Offers

end MerkleTrie

end Speedex
