import Mathlib.Data.Set.Card
import Speedex.Trie.Hashing
import Speedex.Trie.Invalidation

set_option autoImplicit false

/- `freeze_and_hash`: the hashes of the nodes are computed bottom up, stopping at nodes whose hash is
still valid. -/
namespace Speedex

open Branches Bytes

namespace TrieNode

variable {V : Type}

section Compute

variable [HashedValue V] [Inhabited V] (sha : Sha256)

/-- The hash that a child adds to the message of its parent. -/
def liveHash : Option (TrieNode V) → Option Hash
  | none => none
  | some c => if c.Live then c.hash else none

mutual

/-- `compute_hash`. -/
def computeHash : TrieNode V → Except String (TrieNode V)
  | .leaf key value metadata (some hash) => .ok (.leaf key value metadata (some hash))
  | .leaf key value metadata none =>
    .ok (.leaf key value metadata (some (sha.digest (leafDigest (writeNodeHeader key key.length) value))))
  | .node pfx prefixLen children metadata (some hash) => .ok (.node pfx prefixLen children metadata (some hash))
  | .node pfx prefixLen children metadata none =>
    if occupied children = 0 then
      .ok (.node pfx prefixLen children metadata
        (some (sha.digest (leafDigest (writeNodeHeader pfx prefixLen) (default : V)))))
    else do
      let hashed ← sequence 16 (fun b => computeHashSlot (children b))
      .ok (.node pfx prefixLen hashed metadata
        (some (branchHash sha (writeNodeHeader pfx prefixLen) (fun b => liveHash (hashed b)))))

def computeHashSlot : Option (TrieNode V) → Except String (Option (TrieNode V))
  | none => .ok none
  | some child =>
    if child.metadata.size < child.metadata.numDeletedSubnodes then
      .error "invalid num deleted subnodes > size"
    else if child.Live then do
      let child' ← computeHash child
      .ok (some child')
    else .ok (some child)

end

/-- `compute_hash` of the node that a path of branch bits leads to. -/
def computeHashAt : List Digit → TrieNode V → Except String (TrieNode V)
  | [], t => computeHash sha t
  | _ :: _, .leaf key value metadata hash => .ok (.leaf key value metadata hash)
  | branchBits :: path, .node pfx prefixLen children metadata hash =>
    match children branchBits with
    | none => .ok (.node pfx prefixLen children metadata hash)
    | some child => do
      let child' ← computeHashAt path child
      .ok (.node pfx prefixLen (Function.update children branchBits (some child')) metadata hash)

/-- The hashes that are valid: a live node has the hash of its live contents, and so have the live
children that its hash was computed from. -/
inductive HashSound : TrieNode V → Prop
  | leaf {key : Key} {value : V} {m : Metadata} {h : Option Hash}
      (own : ∀ digest, h = some digest → digest = (TrieNode.leaf key value m h).nodeHash sha) :
      HashSound (.leaf key value m h)
  | node {pfx : Key} {len : Nat} {cs : Fin 16 → Option (TrieNode V)} {m : Metadata} {h : Option Hash}
      (own : ∀ digest, h = some digest → (TrieNode.node pfx len cs m h).Live →
        digest = (TrieNode.node pfx len cs m h).nodeHash sha ∧ ∀ b c, cs b = some c → c.Live → c.hash ≠ none)
      (below : ∀ b c, cs b = some c → HashSound c) : HashSound (.node pfx len cs m h)

end Compute

section Sound

variable [HashedValue V] [Inhabited V] {sha : Sha256} {keyLen : Nat} {t t' : TrieNode V}

theorem hereditary_hashSound : Hereditary (HashSound (V := V) sha) where
  leaf _ _ _ := .leaf nofun
  node _ _ _ _ below := .node nofun below
  child t b c occupied sound := by
    cases sound with
    | leaf => cases occupied
    | node _ below => exact below b c occupied

theorem HashSound.child (sound : HashSound sha t) (b : Digit) (c : TrieNode V) (occupied : t.children b = some c) :
    HashSound sha c := hereditary_hashSound.child t b c occupied sound

theorem HashSound.hash_eq (sound : HashSound sha t) (live : t.Live) {digest : Hash} (valid : t.hash = some digest) :
    digest = t.nodeHash sha := by
  cases sound with
  | leaf own => exact own digest valid
  | node own _ => exact (own digest valid live).1

theorem HashSound.child_valid (sound : HashSound sha t) (live : t.Live) (valid : t.hash ≠ none) {b : Digit}
    {c : TrieNode V} (occupied : t.children b = some c) (childLive : c.Live) : c.hash ≠ none := by
  obtain ⟨digest, valid⟩ := Option.ne_none_iff_exists'.mp valid
  cases sound with
  | leaf => cases occupied
  | node own _ => exact (own digest valid live).2 b c occupied childLive

/-- Two nodes at one place with the same live contents have one hash. -/
theorem nodeHash_congr (left : Shaped keyLen t) (right : Shaped keyLen t') (live : t.Live)
    (find : t'.liveFind = t.liveFind) (prefixLen : t'.prefixLen = t.prefixLen) (pfx : t'.pfx = t.pfx) :
    t'.nodeHash sha = t.nodeHash sha := by
  have live' : t'.Live := by
    rw [live_iff right, find, ← live_iff left]
    exact live
  rw [nodeHash_eq sha left live, nodeHash_eq sha right live', find, prefixLen, pfx]

/-- A node some of whose hashes have been computed. -/
structure Rehashed (sha : Sha256) (keyLen : Nat) (t t' : TrieNode V) : Prop where
  shaped : Shaped keyLen t'
  find : t'.find = t.find
  metadata : t'.metadata = t.metadata
  pfx : t'.pfx = t.pfx
  prefixLen : t'.prefixLen = t.prefixLen
  sound : HashSound sha t'
  kept : ∀ digest, t.hash = some digest → t'.hash = some digest

theorem Rehashed.refl (shaped : Shaped keyLen t) (sound : HashSound sha t) : Rehashed sha keyLen t t :=
  ⟨shaped, rfl, rfl, rfl, rfl, sound, fun _ valid => valid⟩

theorem Rehashed.trans {t'' : TrieNode V} (first : Rehashed sha keyLen t t') (second : Rehashed sha keyLen t' t'') :
    Rehashed sha keyLen t t'' :=
  ⟨second.shaped, second.find.trans first.find, second.metadata.trans first.metadata, second.pfx.trans first.pfx,
    second.prefixLen.trans first.prefixLen, second.sound,
    fun digest valid => second.kept digest (first.kept digest valid)⟩

theorem Rehashed.live_iff (rehashed : Rehashed sha keyLen t t') : t'.Live ↔ t.Live := by
  rw [Live, Live, rehashed.metadata]

theorem Rehashed.liveFind (rehashed : Rehashed sha keyLen t t') : t'.liveFind = t.liveFind :=
  liveFind_congr rehashed.find

theorem Rehashed.under {p : Key} (rehashed : Rehashed sha keyLen t t') (below : Under p t) : Under p t' := by
  rw [Under, rehashed.pfx, rehashed.prefixLen]
  exact below

/-- Hashes below a node do not change what it holds. -/
theorem rehashed_node {pfx : Key} {len : Nat} {cs cs' : Fin 16 → Option (TrieNode V)} {m : Metadata}
    {h h' : Option Hash} (shaped : Shaped keyLen (.node pfx len cs m h))
    (slots : ∀ b, Option.Rel (Rehashed sha keyLen) (cs b) (cs' b)) (kept : ∀ digest, h = some digest → h' = some digest)
    (own : Shaped keyLen (.node pfx len cs' m h') → ∀ digest, h' = some digest → (TrieNode.node pfx len cs' m h').Live →
      digest = (TrieNode.node pfx len cs' m h').nodeHash sha ∧ ∀ b c, cs' b = some c → c.Live → c.hash ≠ none) :
    Rehashed sha keyLen (.node pfx len cs m h) (.node pfx len cs' m h') := by
  have child : ∀ b c', cs' b = some c' → ∃ c, cs b = some c ∧ Rehashed sha keyLen c c' := by
    intro b c' there
    have slot := slots b
    rw [there] at slot
    cases at_b : cs b with
    | none => rw [at_b] at slot; cases slot
    | some c =>
      rw [at_b] at slot
      cases slot with
      | some rehashed => exact ⟨c, rfl, rehashed⟩
  have shaped' : Shaped keyLen (.node pfx len cs' m h') := by
    cases shaped with
    | node inner full zeros shaped placed sum =>
      refine .node inner full zeros ?_ ?_ ?_
      · intro b c' there
        obtain ⟨c, -, rehashed⟩ := child b c' there
        exact rehashed.shaped
      · intro b c' there
        obtain ⟨c, here, rehashed⟩ := child b c' there
        exact rehashed.under (placed b c here)
      · rw [sum]
        refine Branches.total_congr (fun b => ?_)
        have slot := slots b
        generalize cs b = here, cs' b = there at slot
        cases slot with
        | none => rfl
        | some rehashed => rw [Branches.weight_some, Branches.weight_some, rehashed.metadata]
  refine ⟨shaped', ?_, rfl, rfl, rfl, .node (own shaped') ?_, kept⟩
  · funext query
    rw [find_node, find_node]
    have slot := slots (Digits.digit query len)
    generalize cs (Digits.digit query len) = here, cs' (Digits.digit query len) = there at slot
    cases slot with
    | none => rfl
    | some rehashed => rw [findSlot_some, findSlot_some, rehashed.find]
  · intro b c' there
    obtain ⟨c, -, rehashed⟩ := child b c' there
    exact rehashed.sound

/-- Whatever hashes were valid before, afterwards the node and its live descendants have theirs. -/
theorem computeHash_spec (shaped : Shaped keyLen t) (sound : HashSound sha t) :
    ∃ t', computeHash sha t = .ok t' ∧ Rehashed sha keyLen t t' ∧ t'.hash ≠ none := by
  induction shaped with
  | @leaf key value m h full own =>
    have stored : Shaped keyLen (.leaf key value m h) := .leaf full own
    cases h with
    | some digest => exact ⟨_, by rw [computeHash], .refl stored sound, Option.some_ne_none _⟩
    | none =>
      refine ⟨.leaf key value m (some (sha.digest (leafDigest (writeNodeHeader key key.length) value))),
        by rw [computeHash], ⟨.leaf full own, ?_, rfl, rfl, rfl, .leaf ?_, (by simp)⟩, Option.some_ne_none _⟩
      · funext query
        rw [find_leaf, find_leaf]
      · rintro digest ⟨⟩
        rw [nodeHash]
  | @node pfx len cs m h inner full zeros shaped placed sum ih =>
    have stored : Shaped keyLen (.node pfx len cs m h) := .node inner full zeros shaped placed sum
    cases h with
    | some digest => exact ⟨_, by rw [computeHash], .refl stored sound, Option.some_ne_none _⟩
    | none =>
      by_cases bare : occupied cs = 0
      · refine ⟨_, by rw [computeHash, if_pos bare], rehashed_node stored (fun b => ?_) (by simp) ?_,
          Option.some_ne_none _⟩
        · rw [(occupied_eq_zero_iff cs).mp bare]
          exact .none
        · rintro - digest ⟨⟩ -
          refine ⟨by rw [nodeHash, if_pos bare], fun b c there => ?_⟩
          rw [(occupied_eq_zero_iff cs).mp bare] at there
          cases there
      · have branch : ∀ b, ∃ slot, computeHashSlot sha (cs b) = .ok slot ∧
            Option.Rel (Rehashed sha keyLen) (cs b) slot ∧ ∀ c, slot = some c → c.Live → c.hash ≠ none := by
          intro b
          cases at_b : cs b with
          | none => exact ⟨none, by rw [computeHashSlot], .none, (by simp)⟩
          | some c =>
            have childShaped := shaped b c at_b
            have childSound := sound.child b c at_b
            have count := live_length childShaped
            rw [computeHashSlot, if_neg (by omega)]
            by_cases live : c.Live
            · obtain ⟨c', done, rehashed, valid⟩ := ih b c at_b childSound
              refine ⟨some c', by rw [if_pos live, done]; rfl, .some rehashed, ?_⟩
              rintro c'' ⟨⟩ -
              exact valid
            · refine ⟨some c, by rw [if_neg live], .some (.refl childShaped childSound), ?_⟩
              rintro c'' ⟨⟩ live'
              exact absurd live' live
        choose slots done rehashed valid using branch
        have whole := sequence_ok done
        refine ⟨_, by rw [computeHash, if_neg bare, whole]; rfl, rehashed_node stored rehashed (by simp) ?_,
          Option.some_ne_none _⟩
        rintro - digest ⟨⟩ -
        refine ⟨?_, fun b c there live => valid b c there live⟩
        have filled : ¬ occupied slots = 0 := by
          rwa [← occupied_congr (fun b => ?_)]
          have slot := rehashed b
          generalize cs b = here, slots b = there at slot
          cases slot <;> simp
        rw [nodeHash, if_neg filled]
        congr 1
        funext b
        cases there : slots b with
        | none => rw [slotHash, liveHash]
        | some c =>
          rw [slotHash, liveHash]
          refine ite_congr rfl (fun live => ?_) (fun _ => rfl)
          have childSound : HashSound sha c := by
            have slot := rehashed b
            rw [there] at slot
            cases at_b : cs b with
            | none => rw [at_b] at slot; cases slot
            | some c₀ =>
              rw [at_b] at slot
              cases slot with
              | some rehashed => exact rehashed.sound
          obtain ⟨digest, holds⟩ := Option.ne_none_iff_exists'.mp (valid b c there live)
          rw [holds, childSound.hash_eq live holds]

theorem computeHashAt_spec (path : List Digit) (shaped : Shaped keyLen t) (sound : HashSound sha t) :
    ∃ t', computeHashAt sha path t = .ok t' ∧ Rehashed sha keyLen t t' := by
  induction path generalizing t with
  | nil =>
    obtain ⟨t', done, rehashed, -⟩ := computeHash_spec shaped sound
    exact ⟨t', by rw [computeHashAt, done], rehashed⟩
  | cons branchBits path ih =>
    cases t with
    | leaf key value m h => exact ⟨_, by rw [computeHashAt], .refl shaped sound⟩
    | node pfx len cs m h =>
      rw [computeHashAt]
      cases occupied : cs branchBits with
      | none => exact ⟨_, rfl, .refl shaped sound⟩
      | some c =>
        have childShaped : Shaped keyLen c := by
          cases shaped with
          | node _ _ _ shaped _ _ => exact shaped _ c occupied
        obtain ⟨c', done, rehashed⟩ := ih childShaped (sound.child _ c occupied)
        refine ⟨_, by simp only [done]; rfl, rehashed_node shaped (fun b => ?_) (fun _ valid => valid) ?_⟩
        · by_cases here : b = branchBits
          · rw [here, Function.update_self, occupied]
            exact .some rehashed
          · rw [Function.update_of_ne here]
            cases at_b : cs b with
            | none => exact .none
            | some d =>
              refine .some (.refl ?_ (sound.child b d at_b))
              cases shaped with
              | node _ _ _ shaped _ _ => exact shaped b d at_b
        · intro shaped' digest valid live
          have same : (node pfx len (Function.update cs branchBits (some c')) m h).liveFind =
              (node pfx len cs m h).liveFind := by
            funext query
            rw [TrieNode.liveFind, TrieNode.liveFind, find_update, find_node]
            by_cases digit : Digits.digit query len = branchBits
            · rw [if_pos digit, digit, occupied, findSlot_some, findSlot_some, rehashed.find]
            · rw [if_neg digit]
          refine ⟨(sound.hash_eq live valid).trans (nodeHash_congr shaped shaped' live same rfl rfl).symm, ?_⟩
          intro b d there childLive
          have own : (node pfx len cs m h).hash ≠ none := by
            rw [node_hash, valid]
            exact Option.some_ne_none _
          rcases update_eq_some_iff.mp there with ⟨rfl, new⟩ | ⟨-, at_b⟩
          · cases new
            obtain ⟨digest, holds⟩ := Option.ne_none_iff_exists'.mp
              (sound.child_valid live own occupied (rehashed.live_iff.mp childLive))
            rw [rehashed.kept digest holds]
            simp
          · exact sound.child_valid live own at_b childLive

end Sound

end TrieNode

end Speedex
