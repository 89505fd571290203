import Speedex.Market.PriceKeys
import Speedex.Trie.Handle
import Speedex.Trie.RootHash

set_option autoImplicit false

/- `BlockHeaderHashMap`: the hashes of the earlier blocks, in a trie and on disk. -/
namespace Speedex

/-- `HashWrapper`, 32 bytes. -/
@[ext] structure BlockHash where
  data : Hash
  full : data.length = 32
deriving DecidableEq

/-- The trie of the hashes adds up no amount. -/
instance : TrieValue BlockHash := ⟨fun _ => 0⟩

def BlockHash.zero : BlockHash := ⟨zeroHash, by decide⟩

/-- `KEY_LEN`, in nibbles. -/
def headerKeyLen : Nat := 16

theorem headerKeyLen_pos : 0 < headerKeyLen := by decide

/-- `write_unsigned_big_endian` of a block number. -/
def blockKey (blockNumber : Nat) : Key := bigEndian (BitVec.ofNat 64 blockNumber) headerKeyLen

/-- `BlockHeaderHashMapLMDB`. On disk are the rows of the data and, in the metadata, the row
"persisted block". -/
structure BlockHeaderHashMapLMDB where
  envOpen : Bool
  persistedRoundNumber : Nat
  rows : List (Key × Hash)
  persistedBlock : Option Nat

namespace BlockHeaderHashMapLMDB

/-- `create_db` in an open environment, or an instance whose environment is never opened. -/
def new (envOpen : Bool) : BlockHeaderHashMapLMDB := ⟨envOpen, 0, [], none⟩

/-- `put` overwrites the row of the key. -/
def put (rows : List (Key × Hash)) (key : Key) (value : Hash) : List (Key × Hash) :=
  rows.filter (fun row => row.1 ≠ key) ++ [(key, value)]

/-- `open_env` and `open_db` of a new process. -/
def openDb (disk : BlockHeaderHashMapLMDB) : Except String BlockHeaderHashMapLMDB :=
  match disk.persistedBlock with
  | none => .error "missing metadata contents"
  | some round => .ok { disk with envOpen := true, persistedRoundNumber := round }

def commitWtxn (lmdb : BlockHeaderHashMapLMDB) (rows : List (Key × Hash)) (persistedRound : Nat) :
    Except String BlockHeaderHashMapLMDB :=
  if persistedRound < lmdb.persistedRoundNumber then
    .error "can't overwrite later round with earlier round"
  else if lmdb.envOpen then .ok ⟨true, persistedRound, rows, some persistedRound⟩
  else .ok { lmdb with persistedRoundNumber := persistedRound }

end BlockHeaderHashMapLMDB

structure BlockHeaderHashMap where
  blockMap : MerkleTrie BlockHash
  lmdbInstance : BlockHeaderHashMapLMDB
  lastCommittedBlockNumber : Nat

namespace BlockHeaderHashMap

def new (lmdbInstance : BlockHeaderHashMapLMDB) : BlockHeaderHashMap := ⟨.new headerKeyLen, lmdbInstance, 0⟩

/-- The test on block 0 that the two insertions share. -/
def checkGenesis (map : BlockHeaderHashMap) (blockHash : BlockHash) : Except String Unit :=
  if map.lastCommittedBlockNumber ≠ 0 then
    .error "can't insert prev block 0 if we already have elements in block hash map"
  else do
    if (← map.blockMap.size) ≠ 0 then
      .error "can't insert prev block 0 if we already have elements in block hash map"
    else if blockHash ≠ .zero then .error "can't have genesis block with nonzero hash"
    else .ok ()

def insertForProduction (map : BlockHeaderHashMap) (blockNumber : Nat) (blockHash : BlockHash) :
    Except String BlockHeaderHashMap :=
  if blockNumber = 0 then do
    map.checkGenesis blockHash
    .ok map
  else if blockNumber ≠ (map.lastCommittedBlockNumber + 1) % 2 ^ 64 then .error "inserting wrong block number"
  else do
    let blockMap ← map.blockMap.insert .overwrite (blockKey blockNumber) blockHash
    .ok { map with blockMap := blockMap, lastCommittedBlockNumber := blockNumber }

/-- One round of the loop of `persist_lmdb`. -/
def persistRow (blockMap : MerkleTrie BlockHash) (rows : List (Key × Hash)) (i : Nat) :
    Except String (List (Key × Hash)) :=
  if i = 0 then .ok rows
  else match blockMap.getValue (blockKey i) with
    | none => .error "did not find hash in hash_map!"
    | some hash => .ok (BlockHeaderHashMapLMDB.put rows (blockKey i) hash.data)

def persistLmdb (map : BlockHeaderHashMap) (currentBlockNumber : Nat) : Except String BlockHeaderHashMap :=
  if map.lmdbInstance.envOpen then do
    let rounds := List.range' map.lmdbInstance.persistedRoundNumber
      (currentBlockNumber - map.lmdbInstance.persistedRoundNumber)
    let rows ← rounds.foldlM (persistRow map.blockMap) map.lmdbInstance.rows
    let lmdbInstance ← map.lmdbInstance.commitWtxn rows currentBlockNumber
    .ok { map with lmdbInstance := lmdbInstance }
  else .ok map

/-- The caller passes the number and the hash of the previous block. -/
def tentativeInsertForValidation (map : BlockHeaderHashMap) (blockNumber : Nat) (blockHash : BlockHash) :
    Except String (Bool × BlockHeaderHashMap) :=
  if blockNumber = 0 then do
    map.checkGenesis blockHash
    .ok (true, map)
  else if blockNumber ≠ map.lastCommittedBlockNumber then .ok (false, map)
  else do
    let blockMap ← map.blockMap.insert .overwrite (blockKey blockNumber) blockHash
    .ok (true, { map with blockMap := blockMap })

def rollbackValidation (map : BlockHeaderHashMap) : BlockHeaderHashMap :=
  { map with blockMap :=
      (map.blockMap.performDeletion headerKeyLen (blockKey ((map.lastCommittedBlockNumber + 1) % 2 ^ 64))).1 }

def finalizeValidation (map : BlockHeaderHashMap) (finalizedBlockNumber : Nat) : Except String BlockHeaderHashMap :=
  if finalizedBlockNumber < map.lastCommittedBlockNumber then .error "can't finalize prior block"
  else .ok { map with lastCommittedBlockNumber := finalizedBlockNumber }

/-- One row of the loop of `load_lmdb_contents_to_memory`. -/
def loadRow (persistedRoundNumber : Nat) (blockMap : MerkleTrie BlockHash) (row : Key × Hash) :
    Except String (MerkleTrie BlockHash) :=
  let roundNumber := Digits.value row.1
  if roundNumber > persistedRoundNumber then .error "lmdb contains round idx beyond committed max"
  else if full : row.2.length = 32 then blockMap.insert .overwrite (blockKey roundNumber) ⟨row.2, full⟩
  else .error "invalid value size"

def loadLmdbContentsToMemory (map : BlockHeaderHashMap) : Except String BlockHeaderHashMap := do
  let blockMap ← map.lmdbInstance.rows.foldlM (loadRow map.lmdbInstance.persistedRoundNumber) map.blockMap
  .ok { map with blockMap := blockMap, lastCommittedBlockNumber := map.lmdbInstance.persistedRoundNumber }

/-- `LoadLMDBHeaderMap::insert_for_loading`. -/
def insertForLoading (map : BlockHeaderHashMap) (currentBlockNumber blockNumber : Nat) (blockHash : BlockHash) :
    Except String BlockHeaderHashMap :=
  if map.lmdbInstance.persistedRoundNumber < currentBlockNumber then map.insertForProduction blockNumber blockHash
  else .ok map

/-- `load_header`, of which replaying takes the hash; the files are those of the blocks 1, 2, ... -/
def loadHeader (headers : List BlockHash) (roundNumber : Nat) : Except String BlockHash :=
  match headers[roundNumber - 1]? with
  | some hash => .ok hash
  | none => .error "can't find header file"

/-- What `edce_replay_trusted_round` does to the map. -/
def replayTrustedRound (headers : List BlockHash) (map : BlockHeaderHashMap) (roundNumber : Nat) :
    Except String BlockHeaderHashMap :=
  if roundNumber = 0 then .ok map
  else do
    let hash ← loadHeader headers roundNumber
    let map ← map.insertForLoading roundNumber roundNumber hash
    if map.lmdbInstance.persistedRoundNumber < roundNumber then map.persistLmdb roundNumber else .ok map

/-- What `edce_load_persisted_data` does to the map. The other databases have a part in the choice of the rounds. -/
def loadPersistedData (headers : List BlockHash) (map : BlockHeaderHashMap) (startRound endRound : Nat) :
    Except String BlockHeaderHashMap := do
  let map ← map.loadLmdbContentsToMemory
  (List.range' startRound (endRound + 1 - startRound)).foldlM (replayTrustedRound headers) map

/-- The keys of the trie are the numbers of the first `k` blocks of the chain, with their hashes. -/
structure Stores (blockMap : MerkleTrie BlockHash) (chain : List BlockHash) (k : Nat) : Prop where
  valid : blockMap.Valid headerKeyLen
  holds : ∀ query value, (blockMap.find query).map Leaf.value = some value ↔
    ∃ n < k, chain[n]? = some value ∧ query = blockKey (n + 1)

/-- The disk has the blocks before the persisted one. -/
structure OnDisk (lmdb : BlockHeaderHashMapLMDB) (chain : List BlockHash) : Prop where
  inside : lmdb.persistedRoundNumber ≤ chain.length
  opened : ∀ round, lmdb.persistedBlock = some round → round = lmdb.persistedRoundNumber
  rows : ∀ row, row ∈ lmdb.rows ↔
    ∃ n value, n + 1 < lmdb.persistedRoundNumber ∧ chain[n]? = some value ∧ row = (blockKey (n + 1), value.data)

section Keys

theorem length_blockKey (n : Nat) : (blockKey n).length = headerKeyLen := length_bigEndian _ _

theorem value_blockKey {n : Nat} (small : n < 2 ^ 64) : Digits.value (blockKey n) = n := by
  have wide : 16 ^ headerKeyLen = 2 ^ 64 := by decide
  rw [blockKey, value_bigEndian, BitVec.toNat_ofNat, wide, Nat.mod_mod, Nat.mod_eq_of_lt small]

theorem blockKey_inj {n n' : Nat} (small : n < 2 ^ 64) (small' : n' < 2 ^ 64) (same : blockKey n = blockKey n') :
    n = n' := by
  rw [← value_blockKey small, same, value_blockKey small']

/-- Two blocks of a chain with one key are one block. -/
theorem blockKey_chain {chain : List BlockHash} {n n' : Nat} {value value' : BlockHash} (bounded : chain.length < 2 ^ 64)
    (found : chain[n]? = some value) (found' : chain[n']? = some value') (same : blockKey (n + 1) = blockKey (n' + 1)) :
    n = n' := by
  have inside := (List.getElem?_eq_some_iff.mp found).1
  have inside' := (List.getElem?_eq_some_iff.mp found').1
  have next := blockKey_inj (by omega) (by omega) same
  omega

end Keys

section Tries

variable {blockMap : MerkleTrie BlockHash} {chain : List BlockHash} {i k : Nat} {hash : BlockHash}

theorem stores_new : Stores (.new headerKeyLen) chain 0 := by
  refine ⟨MerkleTrie.valid_new headerKeyLen, fun query value => ?_⟩
  rw [MerkleTrie.find_new]
  simp

/-- Inserting block `i + 1`, for the first time or again. -/
theorem Stores.insert (stores : Stores blockMap chain k) (bounded : chain.length < 2 ^ 64) (atLeast : i ≤ k)
    (atMost : k ≤ i + 1) (found : chain[i]? = some hash) :
    ∃ blockMap', blockMap.insert .overwrite (blockKey (i + 1)) hash = .ok blockMap' ∧ Stores blockMap' chain (i + 1) := by
  obtain ⟨blockMap', done, valid, finds⟩ :=
    MerkleTrie.insert_spec .overwrite hash stores.valid headerKeyLen_pos (length_blockKey (i + 1))
  refine ⟨blockMap', done, valid, fun query value => ?_⟩
  rw [finds]
  by_cases here : query = blockKey (i + 1)
  · rw [if_pos here]
    constructor
    · intro same
      cases same
      exact ⟨i, Nat.lt_succ_self i, found, here⟩
    · rintro ⟨n, -, found', key⟩
      have place := blockKey_chain bounded found found' (here.symm.trans key)
      rw [← place, found] at found'
      cases found'
      rfl
  · rw [if_neg here, stores.holds]
    constructor
    · rintro ⟨n, below, found', key⟩
      exact ⟨n, by omega, found', key⟩
    · rintro ⟨n, below, found', key⟩
      have other : n ≠ i := by
        rintro rfl
        exact here key
      exact ⟨n, by omega, found', key⟩

/-- Deleting a key beyond the stored blocks changes nothing. -/
theorem Stores.delete (stores : Stores blockMap chain k) (bounded : chain.length + 1 < 2 ^ 64) :
    Stores (blockMap.performDeletion headerKeyLen (blockKey (chain.length + 1))).1 chain k := by
  obtain ⟨valid, finds, -⟩ :=
    MerkleTrie.performDeletion_spec stores.valid headerKeyLen_pos (length_blockKey (chain.length + 1))
  refine ⟨valid, fun query value => ?_⟩
  rw [finds]
  by_cases here : query = blockKey (chain.length + 1)
  · rw [if_pos here]
    constructor
    · intro absurd
      cases absurd
    · rintro ⟨n, below, found, key⟩
      have inside := (List.getElem?_eq_some_iff.mp found).1
      have next := blockKey_inj (by omega) bounded (key.symm.trans here)
      omega
  · rw [if_neg here, stores.holds]

/-- Only the first `k` blocks matter. -/
theorem Stores.congr {chain' : List BlockHash} (stores : Stores blockMap chain k)
    (same : ∀ n < k, chain'[n]? = chain[n]?) : Stores blockMap chain' k := by
  refine ⟨stores.valid, fun query value => ?_⟩
  rw [stores.holds]
  constructor
  · rintro ⟨n, below, found, key⟩
    exact ⟨n, below, by rw [same n below, found], key⟩
  · rintro ⟨n, below, found, key⟩
    exact ⟨n, below, by rw [← same n below, found], key⟩

theorem Stores.size (stores : Stores blockMap chain 0) : blockMap.size = .ok 0 := by
  have empty : blockMap.root.metadata.size = 0 := by
    refine (MerkleTrie.size_eq_zero_iff stores.valid headerKeyLen_pos).mpr (fun query => ?_)
    cases found : blockMap.find query with
    | none => rfl
    | some l =>
      obtain ⟨n, below, -⟩ := (stores.holds query l.value).mp (by rw [found]; rfl)
      omega
  rw [MerkleTrie.size_ok stores.valid headerKeyLen_pos, empty]
  rfl

theorem Stores.getValue (stores : Stores blockMap chain k) (below : i < k) (found : chain[i]? = some hash) :
    blockMap.getValue (blockKey (i + 1)) = some hash := by
  have here := (stores.holds (blockKey (i + 1)) hash).mpr ⟨i, below, found, rfl⟩
  obtain ⟨l, leaf, rfl⟩ := Option.map_eq_some_iff.mp here
  exact TrieNode.getValue_of_find leaf

end Tries

section Insertions

variable {map : BlockHeaderHashMap} {chain : List BlockHash} {i k : Nat} {hash : BlockHash}

theorem checkGenesis_ok (stores : Stores map.blockMap chain 0) (last : map.lastCommittedBlockNumber = 0) :
    map.checkGenesis .zero = .ok () := by
  rw [checkGenesis, if_neg (by simp [last]), stores.size]
  rfl

theorem insertForProduction_next (stores : Stores map.blockMap chain k) (bounded : chain.length < 2 ^ 64)
    (last : map.lastCommittedBlockNumber = i) (atLeast : i ≤ k) (atMost : k ≤ i + 1) (found : chain[i]? = some hash) :
    ∃ map', map.insertForProduction (i + 1) hash = .ok map' ∧ Stores map'.blockMap chain (i + 1) ∧
      map'.lastCommittedBlockNumber = i + 1 ∧ map'.lmdbInstance = map.lmdbInstance := by
  have inside := (List.getElem?_eq_some_iff.mp found).1
  have next : (map.lastCommittedBlockNumber + 1) % 2 ^ 64 = i + 1 := by
    rw [last]
    exact Nat.mod_eq_of_lt (by omega)
  obtain ⟨blockMap', done, stores'⟩ := stores.insert bounded atLeast atMost found
  refine ⟨⟨blockMap', map.lmdbInstance, i + 1⟩, ?_, stores', rfl, rfl⟩
  rw [insertForProduction, if_neg (Nat.succ_ne_zero i), next, if_neg (not_not.mpr rfl), done]
  rfl

theorem tentativeInsertForValidation_next (stores : Stores map.blockMap chain k) (bounded : chain.length < 2 ^ 64)
    (last : map.lastCommittedBlockNumber = i + 1) (atLeast : i ≤ k) (atMost : k ≤ i + 1)
    (found : chain[i]? = some hash) :
    ∃ map', map.tentativeInsertForValidation (i + 1) hash = .ok (true, map') ∧ Stores map'.blockMap chain (i + 1) ∧
      map'.lastCommittedBlockNumber = i + 1 ∧ map'.lmdbInstance = map.lmdbInstance := by
  obtain ⟨blockMap', done, stores'⟩ := stores.insert bounded atLeast atMost found
  refine ⟨⟨blockMap', map.lmdbInstance, map.lastCommittedBlockNumber⟩, ?_, stores', last, rfl⟩
  rw [tentativeInsertForValidation, if_neg (Nat.succ_ne_zero i), last, if_neg (not_not.mpr rfl), done]
  rfl

end Insertions

section Disk

variable {map : BlockHeaderHashMap} {lmdb : BlockHeaderHashMapLMDB} {chain : List BlockHash} {k round : Nat}

theorem onDisk_new (envOpen : Bool) : OnDisk (.new envOpen) chain := by
  refine ⟨Nat.zero_le _, fun round absurd => ?_, fun row => ?_⟩
  · cases absurd
  · constructor
    · intro absurd
      cases absurd
    · rintro ⟨n, value, below, -⟩
      exact absurd below (Nat.not_lt_zero _)

theorem OnDisk.congr {chain' : List BlockHash} (disk : OnDisk lmdb chain)
    (inside : lmdb.persistedRoundNumber ≤ chain'.length)
    (same : ∀ n < lmdb.persistedRoundNumber, chain'[n]? = chain[n]?) : OnDisk lmdb chain' := by
  refine ⟨inside, disk.opened, fun row => ?_⟩
  rw [disk.rows]
  constructor
  · rintro ⟨n, value, below, found, rfl⟩
    exact ⟨n, value, below, by rw [same n (by omega), found], rfl⟩
  · rintro ⟨n, value, below, found, rfl⟩
    exact ⟨n, value, below, by rw [← same n (by omega), found], rfl⟩

theorem OnDisk.openDb (disk : OnDisk lmdb chain) (found : lmdb.persistedBlock = some round) :
    ∃ opened, lmdb.openDb = .ok opened ∧ opened.envOpen = true ∧ opened.persistedRoundNumber = round ∧
      OnDisk opened chain := by
  have reached := disk.opened round found
  refine ⟨⟨true, round, lmdb.rows, lmdb.persistedBlock⟩, ?_, rfl, rfl, reached ▸ disk.inside, ?_, reached ▸ disk.rows⟩
  · unfold BlockHeaderHashMapLMDB.openDb
    split
    · rename_i none
      rw [none] at found
      cases found
    · rename_i some
      rw [some] at found
      cases found
      rfl
  · intro round' same
    exact Option.some.inj (same.symm.trans found)

theorem mem_put {rows : List (Key × Hash)} {key : Key} {value : Hash} {row : Key × Hash} :
    row ∈ BlockHeaderHashMapLMDB.put rows key value ↔ (row ∈ rows ∧ row.1 ≠ key) ∨ row = (key, value) := by
  rw [BlockHeaderHashMapLMDB.put, List.mem_append, List.mem_filter, List.mem_singleton, decide_eq_true_iff]

/-- The loop of `persist_lmdb` writes the rows of the rounds it passes. -/
theorem persistRows_ok (stores : Stores map.blockMap chain k) (bounded : chain.length < 2 ^ 64)
    (disk : OnDisk lmdb chain) (count : Nat) (held : lmdb.persistedRoundNumber + count ≤ k + 1)
    (inside : lmdb.persistedRoundNumber + count ≤ chain.length) :
    ∃ rows, (List.range' lmdb.persistedRoundNumber count).foldlM (persistRow map.blockMap) lmdb.rows = .ok rows ∧
      ∀ row, row ∈ rows ↔ ∃ n value, n + 1 < lmdb.persistedRoundNumber + count ∧ chain[n]? = some value ∧
        row = (blockKey (n + 1), value.data) := by
  induction count with
  | zero => exact ⟨lmdb.rows, rfl, disk.rows⟩
  | succ count ih =>
    obtain ⟨rows, done, listed⟩ := ih (by omega) (by omega)
    have loop : ∀ rows', persistRow map.blockMap rows (lmdb.persistedRoundNumber + count) = .ok rows' →
        (List.range' lmdb.persistedRoundNumber (count + 1)).foldlM (persistRow map.blockMap) lmdb.rows = .ok rows' := by
      intro rows' once
      rw [List.range'_1_concat, List.foldlM_append, done]
      show (List.foldlM (persistRow map.blockMap) rows [lmdb.persistedRoundNumber + count]) = .ok rows'
      rw [List.foldlM_cons, once]
      rfl
    cases place : lmdb.persistedRoundNumber + count with
    | zero =>
      refine ⟨rows, loop rows (by rw [place]; rfl), fun row => ?_⟩
      rw [listed]
      constructor
      · rintro ⟨n, value, below, -⟩
        omega
      · rintro ⟨n, value, below, -⟩
        omega
    | succ n =>
      have found : chain[n]? = some chain[n] := List.getElem?_eq_getElem (by omega)
      have value := stores.getValue (by omega) found
      refine ⟨_, loop _ (by rw [place, persistRow, if_neg (Nat.succ_ne_zero n), value]), fun row => ?_⟩
      rw [mem_put, listed]
      constructor
      · rintro (⟨⟨n', value', below, found', rfl⟩, -⟩ | rfl)
        · exact ⟨n', value', by omega, found', rfl⟩
        · exact ⟨n, _, by omega, found, rfl⟩
      · rintro ⟨n', value', below, found', rfl⟩
        by_cases here : n' = n
        · subst here
          rw [found] at found'
          cases found'
          exact Or.inr rfl
        · refine Or.inl ⟨⟨n', value', by omega, found', rfl⟩, fun same => here ?_⟩
          exact blockKey_chain bounded found' found same

theorem persistLmdb_ok (stores : Stores map.blockMap chain k) (bounded : chain.length < 2 ^ 64)
    (disk : OnDisk map.lmdbInstance chain) (held : round ≤ k + 1) (inside : round ≤ chain.length)
    (later : map.lmdbInstance.persistedRoundNumber ≤ round) :
    ∃ lmdb', map.persistLmdb round = .ok { map with lmdbInstance := lmdb' } ∧ OnDisk lmdb' chain ∧
      lmdb'.envOpen = map.lmdbInstance.envOpen ∧
      (map.lmdbInstance.envOpen = true → lmdb'.persistedRoundNumber = round) := by
  rw [persistLmdb]
  by_cases opened : map.lmdbInstance.envOpen = true
  · have total : map.lmdbInstance.persistedRoundNumber + (round - map.lmdbInstance.persistedRoundNumber) = round := by
      omega
    obtain ⟨rows, done, listed⟩ := persistRows_ok stores bounded disk
      (round - map.lmdbInstance.persistedRoundNumber) (by omega) (by omega)
    rw [total] at listed
    refine ⟨⟨true, round, rows, some round⟩, ?_, ⟨inside, ?_, listed⟩, opened.symm, fun _ => rfl⟩
    · rw [if_pos opened]
      show ((List.range' _ _).foldlM (persistRow map.blockMap) map.lmdbInstance.rows >>= _) = _
      rw [done]
      show (map.lmdbInstance.commitWtxn rows round >>= _) = _
      rw [BlockHeaderHashMapLMDB.commitWtxn, if_neg (by omega), if_pos opened]
      rfl
    · intro round' same
      cases same
      rfl
  · exact ⟨map.lmdbInstance, if_neg opened, disk, rfl, fun claimed => absurd claimed opened⟩

/-- The trie has exactly the rows of a list. -/
def Lists (blockMap : MerkleTrie BlockHash) (rows : List (Key × Hash)) : Prop :=
  blockMap.Valid headerKeyLen ∧
    ∀ query value, (blockMap.find query).map Leaf.value = some value ↔ (query, value.data) ∈ rows

theorem loadRow_ok (bounded : chain.length < 2 ^ 64) (disk : OnDisk lmdb chain) {passed : List (Key × Hash)}
    {row : Key × Hash} {blockMap : MerkleTrie BlockHash} (front : passed ++ [row] <+: lmdb.rows)
    (lists : Lists blockMap passed) :
    ∃ blockMap', loadRow lmdb.persistedRoundNumber blockMap row = .ok blockMap' ∧ Lists blockMap' (passed ++ [row]) := by
  obtain ⟨valid, finds⟩ := lists
  obtain ⟨n, hash, below, found, rfl⟩ :=
    (disk.rows row).mp (front.subset (List.mem_append_right _ (List.mem_singleton_self row)))
  have number : Digits.value (blockKey (n + 1)) = n + 1 := value_blockKey (by have := disk.inside; omega)
  obtain ⟨blockMap', inserted, valid', finds'⟩ :=
    MerkleTrie.insert_spec .overwrite hash valid headerKeyLen_pos (length_blockKey (n + 1))
  refine ⟨blockMap', ?_, valid', fun query value => ?_⟩
  · unfold loadRow
    simp only [number]
    rw [if_neg (by omega), dif_pos hash.full]
    exact inserted
  · rw [finds', List.mem_append, List.mem_singleton]
    by_cases here : query = blockKey (n + 1)
    · rw [if_pos here]
      constructor
      · intro same
        cases same
        exact Or.inr (by rw [here])
      · rintro (old | last)
        · obtain ⟨n', value', -, found', same⟩ := (disk.rows _).mp (front.subset (List.mem_append_left _ old))
          obtain ⟨key, data⟩ := Prod.mk.inj same
          have place := blockKey_chain bounded found found' (here.symm.trans key)
          rw [← place, found] at found'
          cases found'
          exact congrArg some (BlockHash.ext data.symm)
        · exact congrArg some (BlockHash.ext (Prod.mk.inj last).2.symm)
    · rw [if_neg here, finds]
      constructor
      · exact Or.inl
      · rintro (old | last)
        · exact old
        · exact absurd (Prod.mk.inj last).1 here

/-- Loading reads every row of the disk, in whatever order they are met. -/
theorem loadRows_ok (bounded : chain.length < 2 ^ 64) (disk : OnDisk lmdb chain) :
    ∃ blockMap, lmdb.rows.foldlM (loadRow lmdb.persistedRoundNumber) (.new headerKeyLen) = .ok blockMap ∧
      Stores blockMap chain (lmdb.persistedRoundNumber - 1) := by
  have start : Lists (.new headerKeyLen) [] := by
    refine ⟨MerkleTrie.valid_new headerKeyLen, fun query value => ?_⟩
    rw [MerkleTrie.find_new]
    simp
  obtain ⟨blockMap, done, valid, finds⟩ := Fallible.foldlM_total (fun passed blockMap => Lists blockMap passed) start
    (fun passed row blockMap front lists => loadRow_ok bounded disk front lists)
  refine ⟨blockMap, done, valid, fun query value => ?_⟩
  rw [finds, disk.rows]
  constructor
  · rintro ⟨n, value', below, found, same⟩
    obtain ⟨key, data⟩ := Prod.mk.inj same
    rw [← BlockHash.ext data] at found
    exact ⟨n, by omega, found, key⟩
  · rintro ⟨n, below, found, rfl⟩
    exact ⟨n, value, by omega, found, rfl⟩

theorem loadLmdbContentsToMemory_ok (bounded : chain.length < 2 ^ 64) (disk : OnDisk lmdb chain) :
    ∃ blockMap, (new lmdb).loadLmdbContentsToMemory = .ok ⟨blockMap, lmdb, lmdb.persistedRoundNumber⟩ ∧
      Stores blockMap chain (lmdb.persistedRoundNumber - 1) := by
  obtain ⟨blockMap, loaded, stores⟩ := loadRows_ok bounded disk
  refine ⟨blockMap, ?_, stores⟩
  show (lmdb.rows.foldlM (loadRow lmdb.persistedRoundNumber) (.new headerKeyLen) >>= _) = _
  rw [loaded]
  rfl

theorem loadHeader_ok {headers : List BlockHash} (inside : round < headers.length) :
    loadHeader headers (round + 1) = .ok headers[round] := by
  rw [loadHeader, Nat.add_sub_cancel, List.getElem?_eq_getElem inside]

/-- Rounds that are on disk are skipped. -/
theorem replayTrustedRound_persisted (inside : round ≤ chain.length)
    (old : round ≤ map.lmdbInstance.persistedRoundNumber) : map.replayTrustedRound chain round = .ok map := by
  cases round with
  | zero => rfl
  | succ n =>
    rw [replayTrustedRound, if_neg (Nat.succ_ne_zero n), loadHeader_ok (by omega)]
    show (map.insertForLoading (n + 1) (n + 1) _ >>= _) = _
    rw [insertForLoading, if_neg (by omega)]
    show (if _ then _ else _) = _
    rw [if_neg (by omega)]

/-- The map after the rounds up to `round` have been replayed on an empty disk. -/
structure Replayed (map : BlockHeaderHashMap) (chain : List BlockHash) (round : Nat) : Prop where
  stores : Stores map.blockMap chain round
  last : map.lastCommittedBlockNumber = round
  opened : map.lmdbInstance.envOpen = true
  persisted : map.lmdbInstance.persistedRoundNumber = round
  disk : OnDisk map.lmdbInstance chain

theorem replayTrustedRound_next (replayed : Replayed map chain round) (bounded : chain.length < 2 ^ 64)
    (inside : round < chain.length) :
    ∃ map', map.replayTrustedRound chain (round + 1) = .ok map' ∧ Replayed map' chain (round + 1) := by
  obtain ⟨map₁, inserted, stores, last, same⟩ := insertForProduction_next replayed.stores bounded replayed.last
    (Nat.le_refl _) (Nat.le_succ _) (List.getElem?_eq_getElem inside)
  have persisted : map₁.lmdbInstance.persistedRoundNumber = round := by rw [same, replayed.persisted]
  have held : round + 1 ≤ round + 1 + 1 := Nat.le_succ _
  have later : map₁.lmdbInstance.persistedRoundNumber ≤ round + 1 := by omega
  obtain ⟨lmdb', done, disk, opened, reached⟩ := persistLmdb_ok stores bounded (same ▸ replayed.disk) held inside later
  rw [same, replayed.opened] at opened reached
  refine ⟨{ map₁ with lmdbInstance := lmdb' }, ?_, stores, last, opened, reached rfl, disk⟩
  rw [replayTrustedRound, if_neg (Nat.succ_ne_zero round), loadHeader_ok inside]
  show (map.insertForLoading (round + 1) (round + 1) _ >>= _) = _
  rw [insertForLoading, if_pos (by rw [replayed.persisted]; omega), inserted]
  show (if _ then _ else _) = _
  rw [if_pos (by omega), done]

/-- A restart with nothing to replay. -/
theorem loadPersistedData_current (startRound : Nat) (bounded : chain.length < 2 ^ 64) (disk : OnDisk lmdb chain) :
    ∃ map, (new lmdb).loadPersistedData chain startRound lmdb.persistedRoundNumber = .ok map ∧
      Stores map.blockMap chain (lmdb.persistedRoundNumber - 1) ∧
      map.lastCommittedBlockNumber = lmdb.persistedRoundNumber ∧ map.lmdbInstance = lmdb := by
  obtain ⟨blockMap, load, stores⟩ := loadLmdbContentsToMemory_ok bounded disk
  refine ⟨⟨blockMap, lmdb, lmdb.persistedRoundNumber⟩, ?_, stores, rfl, rfl⟩
  have skipped : ∀ rounds : List Nat, (∀ round ∈ rounds, round ≤ lmdb.persistedRoundNumber) →
      rounds.foldlM (replayTrustedRound chain) ⟨blockMap, lmdb, lmdb.persistedRoundNumber⟩ =
        .ok ⟨blockMap, lmdb, lmdb.persistedRoundNumber⟩ := by
    intro rounds old
    induction rounds with
    | nil => rfl
    | cons round rounds ih =>
      have below := old round List.mem_cons_self
      rw [List.foldlM_cons, replayTrustedRound_persisted (Nat.le_trans below disk.inside) below]
      exact ih (fun later listed => old later (List.mem_cons_of_mem _ listed))
  rw [loadPersistedData, load]
  refine skipped _ (fun round listed => ?_)
  have range := List.mem_range'_1.mp listed
  omega

/-- A restart before any round has been persisted replays the whole chain. -/
theorem loadPersistedData_genesis (bounded : chain.length < 2 ^ 64) (disk : OnDisk lmdb chain)
    (opened : lmdb.envOpen = true) (none : lmdb.persistedRoundNumber = 0) (inside : round ≤ chain.length) :
    ∃ map, (new lmdb).loadPersistedData chain 0 round = .ok map ∧ Replayed map chain round := by
  obtain ⟨blockMap, load, stores⟩ := loadLmdbContentsToMemory_ok bounded disk
  rw [loadPersistedData, load]
  show ∃ map, (List.range' 0 (round + 1 - 0)).foldlM (replayTrustedRound chain)
    ⟨blockMap, lmdb, lmdb.persistedRoundNumber⟩ = .ok map ∧ Replayed map chain round
  induction round with
  | zero =>
    rw [none] at stores
    exact ⟨_, rfl, stores, none, opened, none, disk⟩
  | succ round ih =>
    obtain ⟨map, done, replayed⟩ := ih (by omega)
    obtain ⟨map', once, replayed'⟩ := replayTrustedRound_next replayed bounded inside
    refine ⟨map', ?_, replayed'⟩
    rw [Nat.sub_zero, List.range'_1_concat, List.foldlM_append, Nat.zero_add]
    rw [Nat.sub_zero] at done
    rw [done]
    show [round + 1].foldlM (replayTrustedRound chain) map = .ok map'
    rw [List.foldlM_cons, once]
    rfl

end Disk

end BlockHeaderHashMap

end Speedex
