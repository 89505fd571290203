import Speedex.Library.Fallible
import Speedex.Library.Parallel
import Speedex.Library.SwapRemove
import Mathlib.Data.BitVec
import Mathlib.Data.Multiset.Filter

set_option autoImplicit false

/- `mempool.h` and `mempool.cc`: chunks of waiting transactions, each with a bitmap of the ones to remove.
Every operation of `Mempool` runs under its locks. -/
namespace Speedex

open Vec (swapRemove)

variable {Tx : Type}

inductive MempoolFault where
  /-- An index outside a vector. -/
  | outOfRange
  /-- `size mismatch: bitmap vs txs`. -/
  | sizeMismatch
  /-- The fuel of a loop is spent. -/
  | unfinished
deriving DecidableEq, Repr

structure MempoolChunk (Tx : Type) where
  txs : List Tx
  confirmedTxsToRemove : List Bool
deriving DecidableEq, Repr

namespace MempoolChunk

/-- The constructor: a new chunk has no bitmap. -/
def new (txs : List Tx) : MempoolChunk Tx := { txs := txs, confirmedTxsToRemove := [] }

def size (chunk : MempoolChunk Tx) : Nat := chunk.txs.length

/-- The loop of `remove_confirmed_txs` from index `i` on. -/
def removeLoop : Nat → Nat → MempoolChunk Tx → BitVec 64 → Except MempoolFault (MempoolChunk Tx × BitVec 64)
  | 0, _, _, _ => .error .unfinished
  | fuel + 1, i, chunk, numRemoved =>
    match chunk.confirmedTxsToRemove[i]? with
    | none => .ok (chunk, numRemoved)
    | some true =>
      if i < chunk.txs.length then
        removeLoop fuel i
          { txs := swapRemove chunk.txs i, confirmedTxsToRemove := swapRemove chunk.confirmedTxsToRemove i }
          (numRemoved + 1)
      else .error .outOfRange
    | some false => removeLoop fuel (i + 1) chunk numRemoved

def removeConfirmedTxs (chunk : MempoolChunk Tx) : Except MempoolFault (MempoolChunk Tx × BitVec 64) :=
  removeLoop (chunk.confirmedTxsToRemove.length + 1) 0 chunk 0

def clearConfirmedTxsBitmap (chunk : MempoolChunk Tx) : MempoolChunk Tx :=
  { chunk with confirmedTxsToRemove := [] }

def setConfirmedTxs (chunk : MempoolChunk Tx) (bitmap : List Bool) : Except MempoolFault (MempoolChunk Tx) :=
  if bitmap.length = chunk.txs.length then .ok { chunk with confirmedTxsToRemove := bitmap }
  else .error .sizeMismatch

def join (chunk other : MempoolChunk Tx) : MempoolChunk Tx where
  txs := chunk.txs ++ other.txs
  confirmedTxsToRemove := chunk.confirmedTxsToRemove ++ other.confirmedTxsToRemove

end MempoolChunk

structure Mempool (Tx : Type) where
  mempool : List (MempoolChunk Tx)
  bufferedMempool : List (MempoolChunk Tx)
  mempoolSize : BitVec 64
  targetChunkSize : Nat
deriving DecidableEq, Repr

namespace Mempool

def new (targetChunkSize : Nat) : Mempool Tx where
  mempool := []
  bufferedMempool := []
  mempoolSize := 0
  targetChunkSize := targetChunkSize

def addToMempoolBuffer (pool : Mempool Tx) (chunk : List Tx) : Mempool Tx :=
  { pool with bufferedMempool := pool.bufferedMempool ++ [MempoolChunk.new chunk] }

def pushMempoolBufferToMempool (pool : Mempool Tx) : Mempool Tx :=
  { pool with
    mempool := pool.mempool ++ pool.bufferedMempool
    bufferedMempool := []
    mempoolSize := pool.bufferedMempool.foldl (fun size chunk => size + BitVec.ofNat 64 chunk.size) pool.mempoolSize }

/-- `size() - 1` in `size_t`. -/
def lastIndex (size : Nat) : Nat := if size = 0 then 2 ^ 64 - 1 else size - 1

/-- The loop of `join_small_chunks` from index `i` on. -/
def joinLoop (target : Nat) : Nat → Nat → List (MempoolChunk Tx) → Except MempoolFault (List (MempoolChunk Tx))
  | 0, _, _ => .error .unfinished
  | fuel + 1, i, mempool =>
    if i < lastIndex mempool.length then
      match mempool[i]?, mempool[i + 1]? with
      | some chunk, some next =>
        if chunk.size + next.size < target then
          joinLoop target fuel i (swapRemove (mempool.set i (chunk.join next)) (i + 1))
        else joinLoop target fuel (i + 1) mempool
      | _, _ => .error .outOfRange
    else .ok mempool

def joinSmallChunks (pool : Mempool Tx) : Except MempoolFault (Mempool Tx) := do
  let mempool ← joinLoop pool.targetChunkSize (pool.mempool.length + 1) 0 pool.mempool
  return { pool with mempool := mempool }

/-- One body of the parallel loop: the chunks it leaves, and `deleted`. -/
def removeRange (range : List (MempoolChunk Tx)) : Except MempoolFault (List (MempoolChunk Tx) × BitVec 64) := do
  let removed ← range.mapM MempoolChunk.removeConfirmedTxs
  return (removed.map (·.1), (removed.map (·.2)).sum)

def removeConfirmedTxs (pool : Mempool Tx) (division : Parallel.Division (MempoolChunk Tx)) :
    Except MempoolFault (Mempool Tx) := do
  let ranges ← (division.run pool.mempool).mapM removeRange
  return { pool with
    mempool := (ranges.map (·.1)).flatten
    mempoolSize := ranges.foldl (fun size range => size - range.2) pool.mempoolSize }

def clearConfirmedTxsBitmaps (pool : Mempool Tx) (division : Parallel.Division (MempoolChunk Tx)) : Mempool Tx :=
  { pool with
    mempool := ((division.run pool.mempool).map
      (fun range => range.map MempoolChunk.clearConfirmedTxsBitmap)).flatten }

/-- `mempool[idx].set_confirmed_txs(bitmap)`. -/
def setConfirmedTxs (pool : Mempool Tx) (idx : Nat) (bitmap : List Bool) : Except MempoolFault (Mempool Tx) :=
  match pool.mempool[idx]? with
  | none => .error .outOfRange
  | some chunk => do
    let chunk ← chunk.setConfirmedTxs bitmap
    return { pool with mempool := pool.mempool.set idx chunk }

end Mempool

inductive MempoolOp (Tx : Type) where
  | addToMempoolBuffer (chunk : List Tx)
  | pushMempoolBufferToMempool
  | setConfirmedTxs (idx : Nat) (bitmap : List Bool)
  | removeConfirmedTxs (division : Parallel.Division (MempoolChunk Tx))
  | clearConfirmedTxsBitmaps (division : Parallel.Division (MempoolChunk Tx))
  | joinSmallChunks

def Mempool.apply (pool : Mempool Tx) : MempoolOp Tx → Except MempoolFault (Mempool Tx)
  | .addToMempoolBuffer chunk => .ok (pool.addToMempoolBuffer chunk)
  | .pushMempoolBufferToMempool => .ok pool.pushMempoolBufferToMempool
  | .setConfirmedTxs idx bitmap => pool.setConfirmedTxs idx bitmap
  | .removeConfirmedTxs division => pool.removeConfirmedTxs division
  | .clearConfirmedTxsBitmaps division => .ok (pool.clearConfirmedTxsBitmaps division)
  | .joinSmallChunks => pool.joinSmallChunks

end Speedex
