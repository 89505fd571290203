import Speedex.Block.Mempool
import Speedex.Ledger.Account
import Mathlib.Algebra.BigOperators.Group.Finset.Basic
import Mathlib.Algebra.BigOperators.Ring.Finset
import Mathlib.Algebra.Order.BigOperators.Group.Finset
import Mathlib.Data.Fintype.Basic

set_option autoImplicit false

/- `block_producer.cc`: workers fill a block from the mempool. They share the mempool, whose chunks are each
in one worker's ranges, and two counters; every step below is one atomic operation on a counter. -/
namespace Speedex

def deleteTxFromMempool : TransactionProcessingStatus → Bool
  | .success | .seqNumTooHigh | .seqNumTempInUse | .newAccountTempReserved => false
  | _ => true

variable {Tx ι : Type}

structure BlockSpace (Tx : Type) where
  mempool : Mempool Tx
  remainingBlockSpace : Int
  totalBlockSize : Nat

/-- Where a worker is in the loop over the chunks of a range. -/
inductive WorkerPhase where
  | atHead
  /-- `fetch_sub` of the chunk's size found too little; the compensating `fetch_add` is next. -/
  | givingBack (idx size : Nat) (remainingSpace : Int)
  /-- The first `chunkSz` transactions of the chunk are processed. -/
  | processing (idx size chunkSz : Nat)
  /-- The unused space is given back, and the accepted transactions are to be counted. -/
  | counting (eltsAddedToBlock : Nat) (postCheck : Int)
deriving DecidableEq, Repr

/-- A body of `parallel_reduce`: the chunks left in its range, and the ranges it is given after it. -/
structure BlockWorker where
  phase : WorkerPhase
  range : List Nat
  later : List (List Nat)
deriving DecidableEq, Repr

namespace BlockWorker

/-- The bitmap and `elts_added_to_block` after the loop over the transactions; `statuses` are their outcomes. -/
def flagTxs (size : Nat) (statuses : List TransactionProcessingStatus) : List Bool × Nat :=
  (statuses.map (fun status => status = .success || deleteTxFromMempool status) ++
      List.replicate (size - statuses.length) false,
    statuses.count .success)

/-- The next atomic operation of a worker. It has none after its last range, or when `mempool[i]` throws. -/
def step (worker : BlockWorker) (space : BlockSpace Tx) (statuses : List TransactionProcessingStatus) :
    Option (BlockWorker × BlockSpace Tx) :=
  match worker.phase with
  | .atHead =>
    match worker.range with
    | [] =>
      match worker.later with
      | [] => none
      | range :: later => some ({ worker with range := range, later := later }, space)
    | idx :: range =>
      match space.mempool.mempool[idx]? with
      | none => none
      | some chunk =>
        let remainingSpace := space.remainingBlockSpace
        let phase :=
          if remainingSpace < chunk.size then .givingBack idx chunk.size remainingSpace
          else .processing idx chunk.size chunk.size
        some ({ worker with phase := phase, range := range },
          { space with remainingBlockSpace := space.remainingBlockSpace - chunk.size })
  | .givingBack idx size remainingSpace =>
    let space := { space with remainingBlockSpace := space.remainingBlockSpace + (size - remainingSpace) }
    if remainingSpace ≤ 0 then some ({ worker with phase := .atHead, range := [] }, space)
    else some ({ worker with phase := .processing idx size remainingSpace.toNat }, space)
  | .processing idx size chunkSz =>
    if statuses.length = chunkSz then
      let (bitmap, eltsAddedToBlock) := flagTxs size statuses
      match space.mempool.setConfirmedTxs idx bitmap with
      | .error _ => none
      | .ok mempool =>
        some ({ worker with phase := .counting eltsAddedToBlock space.remainingBlockSpace },
          { space with
            mempool := mempool
            remainingBlockSpace := space.remainingBlockSpace + (chunkSz - eltsAddedToBlock) })
    else none
  | .counting eltsAddedToBlock postCheck =>
    some ({ worker with phase := .atHead, range := if postCheck ≤ 0 then [] else worker.range },
      { space with totalBlockSize := space.totalBlockSize + eltsAddedToBlock })

/-- The worker's loop is over. -/
def Done (worker : BlockWorker) : Prop := worker.phase = .atHead ∧ worker.range = [] ∧ worker.later = []

/-- The space that a worker holds in the block. -/
def held (worker : BlockWorker) : Int :=
  match worker.phase with
  | .atHead => 0
  | .givingBack _ _ remainingSpace => remainingSpace
  | .processing _ _ chunkSz => chunkSz
  | .counting eltsAddedToBlock _ => eltsAddedToBlock

/-- The space that a worker took over its share and is about to give back. -/
def owed (worker : BlockWorker) : Int :=
  match worker.phase with
  | .givingBack _ size remainingSpace => size - remainingSpace
  | _ => 0

/-- What the worker saw when it asked for too much space. -/
def Consistent (worker : BlockWorker) : Prop :=
  match worker.phase with
  | .givingBack _ size remainingSpace => 0 ≤ remainingSpace ∧ remainingSpace < size
  | _ => True

/-- The step is not a `fetch_sub` that finds the counter below zero. -/
def Unborrowed (worker : BlockWorker) (space : BlockSpace Tx) : Prop :=
  worker.phase = .atHead → worker.range ≠ [] → 0 ≤ space.remainingBlockSpace

variable {worker worker' : BlockWorker} {space space' : BlockSpace Tx} {statuses : List TransactionProcessingStatus}

theorem held_nonneg (consistent : worker.Consistent) : 0 ≤ worker.held := by
  unfold Consistent at consistent
  unfold held
  cases phase : worker.phase with
  | atHead => exact Int.le_refl 0
  | givingBack idx size remainingSpace =>
    rw [phase] at consistent
    exact consistent.1
  | processing idx size chunkSz => exact Int.natCast_nonneg chunkSz
  | counting eltsAddedToBlock postCheck => exact Int.natCast_nonneg eltsAddedToBlock

theorem owed_nonneg (consistent : worker.Consistent) : 0 ≤ worker.owed := by
  unfold Consistent at consistent
  unfold owed
  cases phase : worker.phase with
  | givingBack idx size remainingSpace =>
    rw [phase] at consistent
    dsimp only at consistent ⊢
    omega
  | atHead | processing | counting => exact Int.le_refl 0

/-- What one atomic operation does to the space: none appears, and the space that is left for the others, of whom
`others` is owed, stays nonnegative. -/
theorem step_spec (run : worker.step space statuses = some (worker', space')) (consistent : worker.Consistent)
    (unborrowed : worker.Unborrowed space) :
    worker'.Consistent ∧
      space'.totalBlockSize + worker'.held + (space'.remainingBlockSpace + worker'.owed) =
        space.totalBlockSize + worker.held + (space.remainingBlockSpace + worker.owed) ∧
      ∀ others : Int, 0 ≤ others → 0 ≤ space.remainingBlockSpace + worker.owed + others →
        0 ≤ space'.remainingBlockSpace + worker'.owed + others := by
  obtain ⟨phase, range, later⟩ := worker
  obtain ⟨mempool, remaining, total⟩ := space
  cases phase with
  | atHead =>
    cases range with
    | nil =>
      cases later with
      | nil => cases run
      | cons range later =>
        cases run
        exact ⟨trivial, rfl, fun _ _ kept => kept⟩
    | cons idx range =>
      have space_left : 0 ≤ remaining := unborrowed rfl (List.cons_ne_nil _ _)
      unfold step at run
      dsimp only at run
      cases found : mempool.mempool[idx]? with
      | none =>
        rw [found] at run
        cases run
      | some chunk =>
        rw [found] at run
        cases run
        dsimp only
        by_cases short : remaining < chunk.size
        · rw [if_pos short]
          refine ⟨⟨space_left, short⟩, ?_, ?_⟩
          · show (total : Int) + remaining + (remaining - (chunk.size : Int) + (chunk.size - remaining)) =
              (total : Int) + 0 + (remaining + 0)
            omega
          · intro others positive _
            show 0 ≤ remaining - (chunk.size : Int) + (chunk.size - remaining) + others
            omega
        · rw [if_neg short]
          refine ⟨trivial, ?_, ?_⟩
          · show (total : Int) + (chunk.size : Int) + (remaining - (chunk.size : Int) + 0) =
              (total : Int) + 0 + (remaining + 0)
            omega
          · intro others positive _
            show 0 ≤ remaining - (chunk.size : Int) + 0 + others
            omega
  | givingBack idx size remainingSpace =>
    obtain ⟨nonneg, _⟩ : 0 ≤ remainingSpace ∧ remainingSpace < size := consistent
    unfold step at run
    dsimp only at run
    by_cases full : remainingSpace ≤ 0
    · rw [if_pos full] at run
      cases run
      refine ⟨trivial, ?_, ?_⟩
      · show (total : Int) + 0 + (remaining + (size - remainingSpace) + 0) =
          (total : Int) + remainingSpace + (remaining + (size - remainingSpace))
        omega
      · intro others _ kept
        show 0 ≤ remaining + (size - remainingSpace) + 0 + others
        rwa [add_zero]
    · rw [if_neg full] at run
      cases run
      refine ⟨trivial, ?_, ?_⟩
      · show (total : Int) + (remainingSpace.toNat : Int) + (remaining + (size - remainingSpace) + 0) =
          (total : Int) + remainingSpace + (remaining + (size - remainingSpace))
        omega
      · intro others _ kept
        show 0 ≤ remaining + (size - remainingSpace) + 0 + others
        rwa [add_zero]
  | processing idx size chunkSz =>
    unfold step at run
    dsimp only at run
    by_cases whole : statuses.length = chunkSz
    · rw [if_pos whole] at run
      cases flagged : mempool.setConfirmedTxs idx (flagTxs size statuses).1 with
      | error fault =>
        rw [flagged] at run
        cases run
      | ok mempool' =>
        rw [flagged] at run
        cases run
        have few : statuses.count .success ≤ chunkSz := whole ▸ List.count_le_length
        refine ⟨trivial, ?_, ?_⟩
        · show (total : Int) + (statuses.count .success : Int) + (remaining + (chunkSz - statuses.count .success) + 0) =
            (total : Int) + (chunkSz : Int) + (remaining + 0)
          omega
        · intro others _ kept
          have kept : 0 ≤ remaining + 0 + others := kept
          show 0 ≤ remaining + ((chunkSz : Int) - statuses.count .success) + 0 + others
          omega
    · rw [if_neg whole] at run
      cases run
  | counting eltsAddedToBlock postCheck =>
    cases run
    refine ⟨trivial, ?_, fun _ _ kept => kept⟩
    show ((total + eltsAddedToBlock : Nat) : Int) + 0 + (remaining + 0) =
      (total : Int) + eltsAddedToBlock + (remaining + 0)
    omega

end BlockWorker

/-- The block that is being produced: the shared part and the workers. -/
structure BlockProduction (Tx ι : Type) where
  space : BlockSpace Tx
  worker : ι → BlockWorker

namespace BlockProduction

/-- `build_block` before the workers start; `ranges` says who gets which chunks. -/
def start (mempool : Mempool Tx) (maxBlockSize : Int) (ranges : ι → List (List Nat)) : BlockProduction Tx ι where
  space := { mempool := mempool, remainingBlockSpace := maxBlockSize, totalBlockSize := 0 }
  worker i := { phase := .atHead, range := [], later := ranges i }

variable [DecidableEq ι]

def step (block : BlockProduction Tx ι) (i : ι) (statuses : List TransactionProcessingStatus) :
    Option (BlockProduction Tx ι) :=
  ((block.worker i).step block.space statuses).map
    (fun next => { space := next.2, worker := Function.update block.worker i next.1 })

/-- An interleaving: which worker moves, and the outcomes of its transactions where it processes some. -/
def run (block : BlockProduction Tx ι) (moves : List (ι × List TransactionProcessingStatus)) :
    Option (BlockProduction Tx ι) :=
  moves.foldlM (fun block move => block.step move.1 move.2) block

/-- The states of the runs in which no worker finds the counter below zero. -/
inductive Reached (mempool : Mempool Tx) (maxBlockSize : Int) (ranges : ι → List (List Nat)) :
    BlockProduction Tx ι → Prop
  | start : Reached mempool maxBlockSize ranges (start mempool maxBlockSize ranges)
  | step {block block' : BlockProduction Tx ι} {i : ι} {statuses : List TransactionProcessingStatus}
      (reached : Reached mempool maxBlockSize ranges block) (unborrowed : (block.worker i).Unborrowed block.space)
      (run : block.step i statuses = some block') : Reached mempool maxBlockSize ranges block'

variable [Fintype ι]

/-- The space of the block is divided among the accepted transactions, what the workers hold, and what is left;
and what is left is not negative once the workers have given back what they owe. -/
structure Bounded (maxBlockSize : Int) (block : BlockProduction Tx ι) : Prop where
  consistent : ∀ i, (block.worker i).Consistent
  divided : block.space.totalBlockSize + ∑ i, (block.worker i).held +
    (block.space.remainingBlockSpace + ∑ i, (block.worker i).owed) = maxBlockSize
  left : 0 ≤ block.space.remainingBlockSpace + ∑ i, (block.worker i).owed

variable {mempool : Mempool Tx} {maxBlockSize : Int} {ranges : ι → List (List Nat)}
  {block block' : BlockProduction Tx ι}

omit [DecidableEq ι] in
theorem Bounded.start (nonneg : 0 ≤ maxBlockSize) : Bounded maxBlockSize (start mempool maxBlockSize ranges) := by
  have held : ∑ i, ((BlockProduction.start mempool maxBlockSize ranges).worker i).held = 0 :=
    Finset.sum_eq_zero (fun _ _ => rfl)
  have owed : ∑ i, ((BlockProduction.start mempool maxBlockSize ranges).worker i).owed = 0 :=
    Finset.sum_eq_zero (fun _ _ => rfl)
  refine ⟨fun _ => trivial, ?_, ?_⟩
  · rw [held, owed]
    show ((0 : Nat) : Int) + 0 + (maxBlockSize + 0) = maxBlockSize
    omega
  · rw [owed]
    show 0 ≤ maxBlockSize + 0
    omega

/-- A sum over the workers, one of whom has moved. -/
theorem sum_update (measure : BlockWorker → Int) (workers : ι → BlockWorker) (i : ι) (worker : BlockWorker) :
    ∑ j, measure (Function.update workers i worker j) =
      measure worker + ∑ j ∈ Finset.univ.erase i, measure (workers j) := by
  rw [← Finset.add_sum_erase Finset.univ _ (Finset.mem_univ i), Function.update_self]
  congr 1
  apply Finset.sum_congr rfl
  intro j other
  rw [Function.update_of_ne (Finset.ne_of_mem_erase other)]

theorem Bounded.step (bounded : block.Bounded maxBlockSize) {i : ι} {statuses : List TransactionProcessingStatus}
    (unborrowed : (block.worker i).Unborrowed block.space) (run : block.step i statuses = some block') :
    block'.Bounded maxBlockSize := by
  obtain ⟨next, moved, rfl⟩ := Option.map_eq_some_iff.mp run
  obtain ⟨worker', space'⟩ := next
  obtain ⟨consistent, divided, left⟩ := BlockWorker.step_spec moved (bounded.consistent i) unborrowed
  have held := Finset.add_sum_erase Finset.univ (fun j => (block.worker j).held) (Finset.mem_univ i)
  have owed := Finset.add_sum_erase Finset.univ (fun j => (block.worker j).owed) (Finset.mem_univ i)
  have others : 0 ≤ ∑ j ∈ Finset.univ.erase i, (block.worker j).owed :=
    Finset.sum_nonneg (fun j _ => BlockWorker.owed_nonneg (bounded.consistent j))
  have whole := bounded.divided
  have enough := bounded.left
  refine ⟨?_, ?_, ?_⟩
  · intro j
    show (Function.update block.worker i worker' j).Consistent
    by_cases here : j = i
    · rw [here, Function.update_self]
      exact consistent
    · rw [Function.update_of_ne here]
      exact bounded.consistent j
  · show space'.totalBlockSize + ∑ j, (Function.update block.worker i worker' j).held +
      (space'.remainingBlockSpace + ∑ j, (Function.update block.worker i worker' j).owed) = maxBlockSize
    rw [sum_update, sum_update]
    omega
  · show 0 ≤ space'.remainingBlockSpace + ∑ j, (Function.update block.worker i worker' j).owed
    rw [sum_update, ← add_assoc]
    apply left _ others
    omega

theorem Reached.bounded (nonneg : 0 ≤ maxBlockSize) (reached : Reached mempool maxBlockSize ranges block) :
    block.Bounded maxBlockSize := by
  induction reached with
  | start => exact Bounded.start nonneg
  | step _ unborrowed run ih => exact ih.step unborrowed run

end BlockProduction

/-- If no worker finds the counter below zero, no more than `max_block_size` transactions are accepted. -/
theorem blockSize_le_max [DecidableEq ι] [Fintype ι] {mempool : Mempool Tx} {maxBlockSize : Int}
    {ranges : ι → List (List Nat)} {block : BlockProduction Tx ι} (nonneg : 0 ≤ maxBlockSize)
    (reached : BlockProduction.Reached mempool maxBlockSize ranges block) :
    (block.space.totalBlockSize : Int) ≤ maxBlockSize := by
  have bounded := reached.bounded nonneg
  have held : 0 ≤ ∑ i, (block.worker i).held :=
    Finset.sum_nonneg (fun i _ => BlockWorker.held_nonneg (bounded.consistent i))
  have divided := bounded.divided
  have left := bounded.left
  omega

/-- Three chunks of two transactions. -/
def threeChunks : Mempool Nat where
  mempool := [.new [1, 2], .new [3, 4], .new [5, 6]]
  bufferedMempool := []
  mempoolSize := 6
  targetChunkSize := 2

/-- Worker 0 has the first and the last chunk, worker 1 the middle one. -/
def twoRanges (i : Fin 2) : List (List Nat) := if i.val = 0 then [[0, 2]] else [[1]]

theorem blockSize_le_max_sample :
    ∃ block, (BlockProduction.start threeChunks 1 twoRanges).run [(0, []), (0, []), (0, []), (0, [.success]), (0, [])] =
      some block ∧ (block.space.totalBlockSize : Int) ≤ 1 := by
  have started : BlockProduction.Reached threeChunks 1 twoRanges (.start threeChunks 1 twoRanges) := .start
  have ranged := started.step (fun _ _ => by decide) (show BlockProduction.step _ 0 [] = some _ from rfl)
  have reserved := ranged.step (fun _ _ => by decide) (show BlockProduction.step _ 0 [] = some _ from rfl)
  have gaveBack := reserved.step (fun absurd => by cases absurd) (show BlockProduction.step _ 0 [] = some _ from rfl)
  have processed := gaveBack.step (fun absurd => by cases absurd)
    (show BlockProduction.step _ 0 [.success] = some _ from rfl)
  have counted := processed.step (fun absurd => by cases absurd) (show BlockProduction.step _ 0 [] = some _ from rfl)
  exact ⟨_, rfl, blockSize_le_max (by decide) counted⟩

/-- A block of one transaction at most. Worker 0 reserves the last free place, worker 1 finds the counter at -1 and gives
back one place more than it took. Worker 0 then sees free space again and accepts a second transaction. -/
theorem blockSize_exceeds_max :
    ((BlockProduction.start threeChunks 1 twoRanges).run [(0, []), (1, []), (0, []), (1, []), (1, []), (0, []),
        (0, [.success]), (0, []), (0, []), (0, []), (0, [.success]), (0, [])]).map
      (fun block => (block.space.totalBlockSize, block.worker 0, block.worker 1)) =
    some (2, ⟨.atHead, [], []⟩, ⟨.atHead, [], []⟩) := by
  decide

end Speedex
