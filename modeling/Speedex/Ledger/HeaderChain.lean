import Speedex.Ledger.HeaderMap

set_option autoImplicit false

/- Runs of a node over the blocks 1, 2, 3, ...: what the header map has when the hash of a block is
computed. -/
namespace Speedex

open BlockHeaderHashMap

inductive NodeRole where
  | producer
  | validator
deriving DecidableEq

/-- A node with the hashes of the blocks it has finished. `restored` says that the process was
started from the disk with blocks on it. -/
structure HeaderNode where
  role : NodeRole
  chain : List BlockHash
  map : BlockHeaderHashMap
  restored : Bool

/-- The parts of a run. `hash` is the hash that the new block turns out to have. -/
inductive HeaderEvent where
  | produce (hash : BlockHash)
  | validate (hash : BlockHash)
  | failedValidation
  | persist (currentBlockNumber : Nat)
  | restart (role : NodeRole) (startRound endRound : Nat)

namespace HeaderNode

def start (role : NodeRole) (envOpen : Bool) : HeaderNode := ⟨role, [], .new (.new envOpen), false⟩

/-- The block before the next one; before block 1 that is the genesis block. -/
def prevHash (s : HeaderNode) : BlockHash := s.chain.getLast?.getD .zero

/-- One event, with the trie that `freeze_and_hash` is called on. -/
def step (s : HeaderNode) : HeaderEvent → Except String (HeaderNode × Option (MerkleTrie BlockHash))
  | .produce hash => do
    let map ← s.map.insertForProduction s.chain.length s.prevHash
    .ok ({ s with chain := s.chain ++ [hash], map := map }, some map.blockMap)
  | .validate hash => do
    let (inserted, map) ← s.map.tentativeInsertForValidation s.chain.length s.prevHash
    if inserted then do
      let finalized ← map.finalizeValidation (s.chain.length + 1)
      .ok ({ s with chain := s.chain ++ [hash], map := finalized }, some map.blockMap)
    else .error "couldn't insert block hash"
  | .failedValidation => do
    let (inserted, map) ← s.map.tentativeInsertForValidation s.chain.length s.prevHash
    if inserted then .ok ({ s with map := map.rollbackValidation }, some map.blockMap)
    else .error "couldn't insert block hash"
  | .persist currentBlockNumber => do
    let map ← s.map.persistLmdb currentBlockNumber
    .ok ({ s with map := map }, none)
  | .restart role startRound endRound => do
    let lmdbInstance ← s.map.lmdbInstance.openDb
    let map ← (BlockHeaderHashMap.new lmdbInstance).loadPersistedData s.chain startRound endRound
    .ok (⟨role, s.chain.take endRound, map, decide (endRound ≠ 0)⟩, none)

/-- A run, with the tries that were hashed and the earlier blocks at that time. -/
def run (s : HeaderNode) : List HeaderEvent →
    Except String (HeaderNode × List (List BlockHash × MerkleTrie BlockHash))
  | [] => .ok (s, [])
  | event :: events => do
    let (next, hashed) ← s.step event
    let (last, later) ← next.run events
    .ok (last, (hashed.map (fun blockMap => (s.chain, blockMap))).toList ++ later)

/-- The events that a node brings about: block numbers are 64 bit, a round is persisted once it is
over, and a restart replays the rounds from the persisted one on. -/
def Legitimate (s : HeaderNode) : HeaderEvent → Prop
  | .produce _ => s.role = .producer ∧ s.chain.length + 1 < 2 ^ 64
  | .validate _ => s.role = .validator ∧ s.chain.length + 1 < 2 ^ 64
  | .failedValidation => s.role = .validator ∧ s.chain.length + 1 < 2 ^ 64
  | .persist currentBlockNumber =>
    s.map.lmdbInstance.persistedRoundNumber ≤ currentBlockNumber ∧ currentBlockNumber ≤ s.chain.length
  | .restart _ startRound endRound => ∃ persisted, s.map.lmdbInstance.persistedBlock = some persisted ∧
    startRound ≤ persisted ∧ persisted ≤ endRound ∧ endRound ≤ s.chain.length

/-- The condition on one event. No block is produced by a process that started with blocks on disk, and
a restart has headers to replay only if nothing has been persisted. -/
def Meets (s : HeaderNode) : HeaderEvent → Prop
  | .produce _ => s.restored = false
  | .restart _ _ endRound => s.map.lmdbInstance.persistedBlock = some endRound ∨
    s.map.lmdbInstance.persistedBlock = some 0
  | _ => True

/-- All events of a run have a property in the state that they meet. -/
def All (P : HeaderNode → HeaderEvent → Prop) (s : HeaderNode) : List HeaderEvent → Prop
  | [] => True
  | event :: events => P s event ∧ ∀ next hashed, s.step event = .ok (next, hashed) → next.All P events

/-- The keys are the numbers of the blocks, each with the hash of its block. -/
def Holds (blockMap : MerkleTrie BlockHash) (blocks : List BlockHash) : Prop :=
  ∀ query value, (blockMap.find query).map Leaf.value = some value ↔
    ∃ n, blocks[n]? = some value ∧ query = blockKey (n + 1)

/-- The invariant of the runs: in production the map is one block behind the chain, in validation and
after loading it may have the last block or not. -/
structure Sound (s : HeaderNode) : Prop where
  bounded : s.chain.length < 2 ^ 64
  disk : OnDisk s.map.lmdbInstance s.chain
  stores : ∃ k, s.chain.length ≤ k + 1 ∧ k ≤ s.chain.length ∧ Stores s.map.blockMap s.chain k
  producing : s.role = .producer → s.restored = false →
    s.map.lastCommittedBlockNumber = s.chain.length - 1
  following : s.role = .validator ∨ s.restored = true → s.map.lastCommittedBlockNumber = s.chain.length

section Steps

variable {s : HeaderNode}

theorem Holds.of_stores {blockMap : MerkleTrie BlockHash} {chain : List BlockHash}
    (stores : Stores blockMap chain chain.length) : Holds blockMap chain := by
  intro query value
  rw [stores.holds]
  constructor
  · rintro ⟨n, -, found, key⟩
    exact ⟨n, found, key⟩
  · rintro ⟨n, found, key⟩
    exact ⟨n, (List.getElem?_eq_some_iff.mp found).1, found, key⟩

theorem prevHash_found {n : Nat} (length : s.chain.length = n + 1) : s.chain[n]? = some s.prevHash := by
  have inside : n < s.chain.length := by omega
  have place : s.chain.length - 1 = n := by omega
  rw [prevHash, List.getLast?_eq_getElem?, place, List.getElem?_eq_getElem inside]
  rfl

theorem prevHash_genesis (length : s.chain.length = 0) : s.prevHash = .zero := by
  rw [prevHash, List.length_eq_zero_iff.mp length]
  rfl

theorem Sound.insertForProduction (sound : Sound s) (role : s.role = .producer) (fresh : s.restored = false) :
    ∃ map, s.map.insertForProduction s.chain.length s.prevHash = .ok map ∧
      Stores map.blockMap s.chain s.chain.length ∧ map.lastCommittedBlockNumber = s.chain.length ∧
      map.lmdbInstance = s.map.lmdbInstance := by
  obtain ⟨k, atLeast, atMost, stores⟩ := sound.stores
  have last := sound.producing role fresh
  cases length : s.chain.length with
  | zero =>
    rw [length] at atMost last
    have none : k = 0 := by omega
    subst none
    refine ⟨s.map, ?_, stores, last, rfl⟩
    rw [BlockHeaderHashMap.insertForProduction, if_pos rfl, prevHash_genesis length, checkGenesis_ok stores last]
    rfl
  | succ n =>
    rw [length, Nat.add_sub_cancel] at last
    exact insertForProduction_next stores sound.bounded last (by omega) (by omega) (prevHash_found length)

theorem Sound.tentativeInsertForValidation (sound : Sound s) (role : s.role = .validator) :
    ∃ map, s.map.tentativeInsertForValidation s.chain.length s.prevHash = .ok (true, map) ∧
      Stores map.blockMap s.chain s.chain.length ∧ map.lastCommittedBlockNumber = s.chain.length ∧
      map.lmdbInstance = s.map.lmdbInstance := by
  obtain ⟨k, atLeast, atMost, stores⟩ := sound.stores
  have last := sound.following (Or.inl role)
  cases length : s.chain.length with
  | zero =>
    rw [length] at atMost last
    have none : k = 0 := by omega
    subst none
    refine ⟨s.map, ?_, stores, last, rfl⟩
    rw [BlockHeaderHashMap.tentativeInsertForValidation, if_pos rfl, prevHash_genesis length,
      checkGenesis_ok stores last]
    rfl
  | succ n =>
    rw [length] at last
    exact tentativeInsertForValidation_next stores sound.bounded last (by omega) (by omega) (prevHash_found length)

/-- The hash of a new block joins the chain. -/
theorem getElem?_concat {chain : List BlockHash} {hash : BlockHash} {n : Nat} (inside : n < chain.length) :
    (chain ++ [hash])[n]? = chain[n]? := List.getElem?_append_left inside

theorem OnDisk.concat {lmdb : BlockHeaderHashMapLMDB} {chain : List BlockHash} (disk : OnDisk lmdb chain)
    (hash : BlockHash) : OnDisk lmdb (chain ++ [hash]) := by
  have inside := disk.inside
  refine disk.congr ?_ (fun n below => getElem?_concat (by omega))
  rw [List.length_append]
  omega

theorem step_produce (sound : Sound s) {hash : BlockHash} (legitimate : s.Legitimate (.produce hash))
    (meets : s.Meets (.produce hash)) : ∃ map, s.step (.produce hash) =
      .ok ({ s with chain := s.chain ++ [hash], map := map }, some map.blockMap) ∧
        Sound { s with chain := s.chain ++ [hash], map := map } ∧ Holds map.blockMap s.chain := by
  obtain ⟨role, room⟩ := legitimate
  obtain ⟨map, done, stores, last, disk⟩ := sound.insertForProduction role meets
  have length : (s.chain ++ [hash]).length = s.chain.length + 1 := List.length_append
  refine ⟨map, by rw [step, done]; rfl, ?_, .of_stores stores⟩
  constructor
  · exact length ▸ room
  · exact disk ▸ OnDisk.concat sound.disk hash
  · exact ⟨s.chain.length, Nat.le_of_eq length, length ▸ Nat.le_succ _,
      stores.congr (fun n below => getElem?_concat below)⟩
  · intro _ _
    show map.lastCommittedBlockNumber = (s.chain ++ [hash]).length - 1
    omega
  · rintro (other | other)
    · exact absurd (role.symm.trans other) (by decide)
    · exact absurd (meets.symm.trans other) (by decide)

theorem step_validate (sound : Sound s) {hash : BlockHash} (legitimate : s.Legitimate (.validate hash)) :
    ∃ map blockMap, s.step (.validate hash) = .ok ({ s with chain := s.chain ++ [hash], map := map }, some blockMap) ∧
      Sound { s with chain := s.chain ++ [hash], map := map } ∧ Holds blockMap s.chain := by
  obtain ⟨role, room⟩ := legitimate
  obtain ⟨map, done, stores, last, disk⟩ := sound.tentativeInsertForValidation role
  have length : (s.chain ++ [hash]).length = s.chain.length + 1 := List.length_append
  have finalized : map.finalizeValidation (s.chain.length + 1) =
      .ok { map with lastCommittedBlockNumber := s.chain.length + 1 } := by
    rw [finalizeValidation, if_neg (by omega)]
  refine ⟨⟨map.blockMap, map.lmdbInstance, s.chain.length + 1⟩, map.blockMap, ?_, ?_, .of_stores stores⟩
  · rw [step, done]
    show (map.finalizeValidation (s.chain.length + 1) >>= _) = _
    rw [finalized]
    rfl
  · constructor
    · exact length ▸ room
    · exact disk ▸ OnDisk.concat sound.disk hash
    · exact ⟨s.chain.length, Nat.le_of_eq length, Nat.le_of_lt (Nat.lt_of_lt_of_eq (Nat.lt_succ_self _) length.symm),
        stores.congr (fun n below => getElem?_concat below)⟩
    · intro other _
      exact absurd (role.symm.trans other) (by decide)
    · intro _
      exact length.symm

/-- `rollback_validation` deletes a key that is not there; the hash of the previous block stays, and the
next validation inserts it again. -/
theorem step_failedValidation (sound : Sound s) (legitimate : s.Legitimate .failedValidation) :
    ∃ map blockMap, s.step .failedValidation = .ok ({ s with map := map }, some blockMap) ∧
      Sound { s with map := map } ∧ Holds blockMap s.chain := by
  obtain ⟨role, room⟩ := legitimate
  obtain ⟨map, done, stores, last, disk⟩ := sound.tentativeInsertForValidation role
  refine ⟨map.rollbackValidation, map.blockMap, by rw [step, done]; rfl, ?_, .of_stores stores⟩
  constructor
  · exact sound.bounded
  · exact disk ▸ sound.disk
  · refine ⟨s.chain.length, Nat.le_succ _, Nat.le_refl _, ?_⟩
    show Stores (map.blockMap.performDeletion headerKeyLen
      (blockKey ((map.lastCommittedBlockNumber + 1) % 2 ^ 64))).1 s.chain s.chain.length
    rw [last, Nat.mod_eq_of_lt room]
    exact stores.delete room
  · intro other _
    exact absurd (role.symm.trans other) (by decide)
  · intro _
    exact last

theorem step_persist (sound : Sound s) {round : Nat} (legitimate : s.Legitimate (.persist round)) :
    ∃ lmdb, s.step (.persist round) = .ok ({ s with map := { s.map with lmdbInstance := lmdb } }, none) ∧
      Sound { s with map := { s.map with lmdbInstance := lmdb } } := by
  obtain ⟨later, inside⟩ := legitimate
  obtain ⟨k, atLeast, atMost, stores⟩ := sound.stores
  obtain ⟨lmdb, done, disk, -⟩ := persistLmdb_ok stores sound.bounded sound.disk (by omega) inside later
  refine ⟨lmdb, by rw [step, done]; rfl, ?_⟩
  exact ⟨sound.bounded, disk, ⟨k, atLeast, atMost, stores⟩, sound.producing, sound.following⟩

/-- The map after loading is one block behind the disk, or replayed from nothing. -/
theorem loadPersistedData_ok {lmdb : BlockHeaderHashMapLMDB} {chain : List BlockHash} {startRound endRound : Nat}
    (bounded : chain.length < 2 ^ 64) (disk : OnDisk lmdb chain) (opened : lmdb.envOpen = true)
    (early : startRound ≤ lmdb.persistedRoundNumber) (inside : endRound ≤ chain.length)
    (which : lmdb.persistedRoundNumber = endRound ∨ lmdb.persistedRoundNumber = 0) :
    ∃ map k, (BlockHeaderHashMap.new lmdb).loadPersistedData chain startRound endRound = .ok map ∧
      Stores map.blockMap chain k ∧ endRound ≤ k + 1 ∧ k ≤ endRound ∧ map.lastCommittedBlockNumber = endRound ∧
      OnDisk map.lmdbInstance chain ∧ map.lmdbInstance.persistedRoundNumber ≤ endRound := by
  rcases which with rfl | none
  · obtain ⟨map, done, stores, last, rfl⟩ := loadPersistedData_current startRound bounded disk
    exact ⟨map, _, done, stores, by omega, Nat.sub_le _ _, last, disk, Nat.le_refl _⟩
  · obtain rfl := Nat.le_zero.mp (none ▸ early)
    obtain ⟨map, done, replayed⟩ := loadPersistedData_genesis bounded disk opened none inside
    exact ⟨map, endRound, done, replayed.stores, Nat.le_succ _, Nat.le_refl _, replayed.last, replayed.disk,
      Nat.le_of_eq replayed.persisted⟩

theorem step_restart (sound : Sound s) {role : NodeRole} {startRound endRound : Nat}
    (legitimate : s.Legitimate (.restart role startRound endRound)) (meets : s.Meets (.restart role startRound endRound)) :
    ∃ map, s.step (.restart role startRound endRound) =
        .ok (⟨role, s.chain.take endRound, map, decide (endRound ≠ 0)⟩, none) ∧
      Sound ⟨role, s.chain.take endRound, map, decide (endRound ≠ 0)⟩ := by
  obtain ⟨persisted, found, early, late, inside⟩ := legitimate
  obtain ⟨lmdb, opened, envOpen, rfl, disk⟩ := sound.disk.openDb found
  have which : lmdb.persistedRoundNumber = endRound ∨ lmdb.persistedRoundNumber = 0 := by
    rcases meets with same | none
    · exact Or.inl (Option.some.inj (found.symm.trans same))
    · exact Or.inr (Option.some.inj (found.symm.trans none))
  obtain ⟨map, k, done, stores, atLeast, atMost, last, disk', within⟩ :=
    loadPersistedData_ok sound.bounded disk envOpen early inside which
  have length : (s.chain.take endRound).length = endRound := List.length_take_of_le inside
  have front : ∀ n < endRound, (s.chain.take endRound)[n]? = s.chain[n]? := fun n below => by
    rw [List.getElem?_take, if_pos below]
  refine ⟨map, ?_, ?_⟩
  · rw [step, opened]
    show ((BlockHeaderHashMap.new lmdb).loadPersistedData s.chain startRound endRound >>= _) = _
    rw [done]
    rfl
  · constructor
    · exact length.symm ▸ Nat.lt_of_le_of_lt inside sound.bounded
    · exact disk'.congr (length.symm ▸ within) (fun n below => front n (by omega))
    · exact ⟨k, length.symm ▸ atLeast, length.symm ▸ atMost, stores.congr (fun n below => front n (by omega))⟩
    · intro _ fresh
      have none : endRound = 0 := by
        by_contra some
        exact absurd fresh (by simp [some])
      show map.lastCommittedBlockNumber = (s.chain.take endRound).length - 1
      omega
    · intro _
      show map.lastCommittedBlockNumber = (s.chain.take endRound).length
      omega

theorem sound_start (role : NodeRole) (envOpen : Bool) : Sound (start role envOpen) := by
  refine ⟨Nat.two_pow_pos 64, onDisk_new envOpen, ⟨0, Nat.zero_le _, Nat.zero_le _, stores_new⟩, fun _ _ => rfl, fun _ => rfl⟩

/-- Every event that meets the condition is done, keeps the invariant, and hashes a map of exactly the
earlier blocks. -/
theorem sound_step (sound : Sound s) {event : HeaderEvent} (legitimate : s.Legitimate event) (meets : s.Meets event) :
    ∃ next hashed, s.step event = .ok (next, hashed) ∧ Sound next ∧
      ∀ blockMap, hashed = some blockMap → Holds blockMap s.chain := by
  cases event with
  | produce hash =>
    obtain ⟨map, done, next, holds⟩ := step_produce sound legitimate meets
    exact ⟨_, _, done, next, fun blockMap same => Option.some.inj same ▸ holds⟩
  | validate hash =>
    obtain ⟨map, blockMap, done, next, holds⟩ := step_validate sound legitimate
    exact ⟨_, _, done, next, fun blockMap same => Option.some.inj same ▸ holds⟩
  | failedValidation =>
    obtain ⟨map, blockMap, done, next, holds⟩ := step_failedValidation sound legitimate
    exact ⟨_, _, done, next, fun blockMap same => Option.some.inj same ▸ holds⟩
  | persist round =>
    obtain ⟨lmdb, done, next⟩ := step_persist sound legitimate
    refine ⟨_, _, done, next, fun blockMap absurd => ?_⟩
    cases absurd
  | restart role startRound endRound =>
    obtain ⟨map, done, next⟩ := step_restart sound legitimate meets
    refine ⟨_, _, done, next, fun blockMap absurd => ?_⟩
    cases absurd

theorem run_of_sound (sound : Sound s) {events : List HeaderEvent}
    (met : s.All (fun s event => s.Legitimate event ∧ s.Meets event) events) :
    ∃ last hashed, s.run events = .ok (last, hashed) ∧ ∀ pair ∈ hashed, Holds pair.2 pair.1 := by
  induction events generalizing s with
  | nil =>
    refine ⟨s, [], rfl, fun pair absurd => ?_⟩
    cases absurd
  | cons event events ih =>
    obtain ⟨⟨legitimate, meets⟩, rest⟩ := met
    obtain ⟨next, hashed, done, sound', holds⟩ := sound_step sound legitimate meets
    obtain ⟨last, later, run, holds'⟩ := ih sound' (rest next hashed done)
    refine ⟨last, (hashed.map (fun blockMap => (s.chain, blockMap))).toList ++ later, ?_, ?_⟩
    · rw [HeaderNode.run, done]
      show (next.run events >>= _) = _
      rw [run]
      rfl
    · intro pair listed
      rcases List.mem_append.mp listed with here | after
      · obtain ⟨blockMap, some, rfl⟩ := Option.map_eq_some_iff.mp (Option.mem_toList.mp here)
        exact holds blockMap some
      · exact holds' pair after

end Steps

/-- In a run whose events all meet the condition, none of them throws or is refused, and whenever a map
is hashed, its keys are the numbers of the earlier blocks, with their hashes. -/
theorem holds_of_run (role : NodeRole) (envOpen : Bool) (events : List HeaderEvent)
    (met : (start role envOpen).All (fun s event => s.Legitimate event ∧ s.Meets event) events) :
    ∃ last hashed, (start role envOpen).run events = .ok (last, hashed) ∧ ∀ pair ∈ hashed, Holds pair.2 pair.1 :=
  run_of_sound (sound_start role envOpen) met

section Sample

def soleHash : BlockHash := ⟨List.replicate 32 1, by decide⟩

/-- A validator that restarts from the round that is on disk. -/
def restartedValidation : List HeaderEvent :=
  [.persist 0, .validate soleHash, .failedValidation, .persist 1, .restart .validator 0 1, .validate soleHash]

theorem holds_of_run_restarted : ∃ last hashed,
    (start .validator true).run restartedValidation = .ok (last, hashed) ∧ ∀ pair ∈ hashed, Holds pair.2 pair.1 := by
  apply holds_of_run
  refine ⟨⟨⟨by decide, by decide⟩, trivial⟩, fun next hashed done => ?_⟩
  cases done
  refine ⟨⟨⟨by decide, by decide⟩, trivial⟩, fun next hashed done => ?_⟩
  cases done
  refine ⟨⟨⟨by decide, by decide⟩, trivial⟩, fun next hashed done => ?_⟩
  cases done
  refine ⟨⟨⟨by decide, by decide⟩, trivial⟩, fun next hashed done => ?_⟩
  cases done
  refine ⟨⟨⟨1, rfl, by decide, by decide, by decide⟩, Or.inl rfl⟩, fun next hashed done => ?_⟩
  cases done
  refine ⟨⟨⟨by decide, by decide⟩, trivial⟩, fun next hashed done => ?_⟩
  cases done
  trivial

/-- A producer that restarts with block 1 on disk. -/
def restartedProduction : List HeaderEvent :=
  [.persist 0, .produce soleHash, .persist 1, .restart .producer 0 1, .produce soleHash]

/-- A validator that restarts with block 1 on disk and the header of block 2 to replay. -/
def replayedValidation : List HeaderEvent :=
  [.persist 0, .validate soleHash, .persist 1, .validate soleHash, .restart .validator 0 2, .validate soleHash]

/-- The restarted producer throws at its first block. The restarted validator goes on with a map that
lacks block 1. -/
theorem restart_misses :
    ((start .producer true).All Legitimate restartedProduction ∧
      (start .producer true).run restartedProduction = .error "inserting wrong block number") ∧
    (start .validator true).All Legitimate replayedValidation ∧
      ∃ last hashed, (start .validator true).run replayedValidation = .ok (last, hashed) ∧
        ∃ pair ∈ hashed, ¬ Holds pair.2 pair.1 := by
  refine ⟨⟨?_, rfl⟩, ?_, ?_⟩
  · refine ⟨⟨by decide, by decide⟩, fun next hashed done => ?_⟩
    cases done
    refine ⟨⟨by decide, by decide⟩, fun next hashed done => ?_⟩
    cases done
    refine ⟨⟨by decide, by decide⟩, fun next hashed done => ?_⟩
    cases done
    refine ⟨⟨1, rfl, by decide, by decide, by decide⟩, fun next hashed done => ?_⟩
    cases done
    refine ⟨⟨by decide, by decide⟩, fun next hashed done => ?_⟩
    cases done
  · refine ⟨⟨by decide, by decide⟩, fun next hashed done => ?_⟩
    cases done
    refine ⟨⟨by decide, by decide⟩, fun next hashed done => ?_⟩
    cases done
    refine ⟨⟨by decide, by decide⟩, fun next hashed done => ?_⟩
    cases done
    refine ⟨⟨by decide, by decide⟩, fun next hashed done => ?_⟩
    cases done
    refine ⟨⟨1, rfl, by decide, by decide, by decide⟩, fun next hashed done => ?_⟩
    cases done
    refine ⟨⟨by decide, by decide⟩, fun next hashed done => ?_⟩
    cases done
    trivial
  · refine ⟨_, _, rfl, _, List.mem_cons_of_mem _ (List.mem_cons_of_mem _ List.mem_cons_self), fun holds => ?_⟩
    have first := (holds (blockKey 1) soleHash).mpr ⟨0, rfl, rfl⟩
    cases first

end Sample

end HeaderNode

end Speedex
