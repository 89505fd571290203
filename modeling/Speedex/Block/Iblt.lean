import Mathlib.Data.Fintype.Pi
import Mathlib.Logic.Equiv.Fin.Basic
import Mathlib.Data.List.FinRange
import Speedex.Library.Fallible
import Speedex.Library.Parallel
import Speedex.Library.Peeling

set_option autoImplicit false

/- Invertible Bloom lookup tables, with which two parties find the difference of their key sets. -/
namespace Speedex

/-- The bytes of an array. -/
abbrev RawBytes (n : Nat) := Fin n → UInt8

def RawBytes.xor {n : Nat} (a b : RawBytes n) : RawBytes n := fun j => a j ^^^ b j

/-- `CHECKSUM_BYTES` fills whole words; the padding behind a key is never read. -/
@[ext] structure IBLTCell (keyBytes checksumWords : Nat) where
  key : RawBytes keyBytes
  checksum : RawBytes (8 * checksumWords)
  count : BitVec 32
deriving DecidableEq

structure IBLTWireFormat where
  rawData : List UInt8
  cellCounts : List (BitVec 32)

/-- `SHA256` under its two suffixes: the checksum of a key and its cell in every region. -/
structure IBLTHashes (keyBytes checksumWords numHashFns cellsPerRegion : Nat) where
  computeChecksum : RawBytes keyBytes → RawBytes (8 * checksumWords)
  makeIndices : RawBytes keyBytes → Fin numHashFns → Fin cellsPerRegion

section

variable {keyBytes checksumWords numHashFns cellsPerRegion : Nat}

namespace IBLTCell

variable (cell : IBLTCell keyBytes checksumWords)

def computeDifference (wire : List UInt8) (startIdx : Nat) (wireCount : BitVec 32) :
    IBLTCell keyBytes checksumWords where
  key := RawBytes.xor (fun j => wire.getD (startIdx + j) 0) cell.key
  checksum := RawBytes.xor (fun j => wire.getD (startIdx + keyBytes + j) 0) cell.checksum
  count := cell.count - wireCount

def doXor (key : RawBytes keyBytes) (checksum : RawBytes (8 * checksumWords)) :
    IBLTCell keyBytes checksumWords :=
  { cell with key := cell.key.xor key, checksum := cell.checksum.xor checksum }

def insertKey (key : RawBytes keyBytes) (checksum : RawBytes (8 * checksumWords)) :
    IBLTCell keyBytes checksumWords :=
  { cell.doXor key checksum with count := cell.count + 1 }

def removePureCell (other : IBLTCell keyBytes checksumWords) : IBLTCell keyBytes checksumWords :=
  { cell.doXor other.key other.checksum with count := cell.count - other.count }

def clear : IBLTCell keyBytes checksumWords where
  key := fun _ => 0
  checksum := fun _ => 0
  count := 0

/-- `+1` on the positive side, `-1` on the negative side, `0` for a cell that is not pure. -/
def isPure (computeChecksum : RawBytes keyBytes → RawBytes (8 * checksumWords)) : Int :=
  if ¬ (cell.count = 1 ∨ cell.count = -1) then 0
  else if computeChecksum cell.key = cell.checksum then cell.count.toInt
  else 0

def isEmpty : Bool := cell.count = 0 ∧ ∀ j, cell.checksum j = 0

def appendSerialization (output : IBLTWireFormat) : IBLTWireFormat where
  cellCounts := output.cellCounts ++ [cell.count]
  rawData := output.rawData ++ (List.ofFn cell.key ++ List.ofFn cell.checksum)

end IBLTCell

/-- `region * CELLS_PER_REGION + i`. -/
def cellIdx (region : Fin numHashFns) (i : Fin cellsPerRegion) : Fin (numHashFns * cellsPerRegion) :=
  finProdFinEquiv (region, i)

/-- The cells, region by region. -/
abbrev IBLT (keyBytes checksumWords numHashFns cellsPerRegion : Nat) :=
  Fin (numHashFns * cellsPerRegion) → IBLTCell keyBytes checksumWords

/-- The keys that a table gives away, and the loop's flag. -/
structure DecodeState (keyBytes checksumWords numHashFns cellsPerRegion : Nat) where
  cells : IBLT keyBytes checksumWords numHashFns cellsPerRegion
  outputPositiveKeys : List (RawBytes keyBytes)
  outputNegativeKeys : List (RawBytes keyBytes)
  changed : Bool

/-- The order in which a pass of the loop visits the cells of a region. -/
abbrev VisitOrders (numHashFns cellsPerRegion : Nat) :=
  Nat → Fin numHashFns → Equiv.Perm (Fin cellsPerRegion)

structure DecodeResult (keyBytes : Nat) where
  verdict : Bool
  positiveKeys : List (RawBytes keyBytes)
  negativeKeys : List (RawBytes keyBytes)
deriving DecidableEq

namespace IBLT

variable (hashes : IBLTHashes keyBytes checksumWords numHashFns cellsPerRegion)

def empty : IBLT keyBytes checksumWords numHashFns cellsPerRegion := fun _ => IBLTCell.clear

def insertKey (cells : IBLT keyBytes checksumWords numHashFns cellsPerRegion) (keyBuf : RawBytes keyBytes) :
    IBLT keyBytes checksumWords numHashFns cellsPerRegion :=
  let checksum := hashes.computeChecksum keyBuf
  let idxs := fun i => cellIdx i (hashes.makeIndices keyBuf i)
  (List.finRange numHashFns).foldl
    (fun cells i => Function.update cells (idxs i) ((cells (idxs i)).insertKey keyBuf checksum)) cells

def serialize (cells : IBLT keyBytes checksumWords numHashFns cellsPerRegion) : IBLTWireFormat :=
  (List.ofFn cells).foldl (fun output cell => cell.appendSerialization output) ⟨[], []⟩

def computeDifference (cells : IBLT keyBytes checksumWords numHashFns cellsPerRegion)
    (otherIblt : IBLTWireFormat) : Option (IBLT keyBytes checksumWords numHashFns cellsPerRegion) :=
  if otherIblt.cellCounts.length ≠ numHashFns * cellsPerRegion then none
  else if otherIblt.rawData.length ≠ numHashFns * cellsPerRegion * (keyBytes + 8 * checksumWords) then none
  else some (fun i => (cells i).computeDifference otherIblt.rawData (i * (keyBytes + 8 * checksumWords))
    (otherIblt.cellCounts.getD i 0))

/-- One cell's turn in the loop over its region. -/
def visit (region : Fin numHashFns) (st : DecodeState keyBytes checksumWords numHashFns cellsPerRegion)
    (i : Fin cellsPerRegion) : Except String (DecodeState keyBytes checksumWords numHashFns cellsPerRegion) :=
  let idx := cellIdx region i
  let purity := (st.cells idx).isPure hashes.computeChecksum
  if purity ≠ 0 then
    let indices := fun r => cellIdx r (hashes.makeIndices (st.cells idx).key r)
    let cells := (List.finRange numHashFns).foldl
      (fun cells regionIter =>
        if regionIter ≠ region then
          Function.update cells (indices regionIter) ((cells (indices regionIter)).removePureCell (cells idx))
        else cells) st.cells
    if purity = 1 then
      .ok { cells := Function.update cells idx IBLTCell.clear, changed := true,
            outputPositiveKeys := st.outputPositiveKeys ++ [(cells idx).key],
            outputNegativeKeys := st.outputNegativeKeys }
    else if purity = -1 then
      .ok { cells := Function.update cells idx IBLTCell.clear, changed := true,
            outputPositiveKeys := st.outputPositiveKeys,
            outputNegativeKeys := st.outputNegativeKeys ++ [(cells idx).key] }
    else .error "purity invalid response"
  else .ok st

def decodePass (order : Fin numHashFns → Equiv.Perm (Fin cellsPerRegion))
    (st : DecodeState keyBytes checksumWords numHashFns cellsPerRegion) :
    Except String (DecodeState keyBytes checksumWords numHashFns cellsPerRegion) :=
  (List.finRange numHashFns).foldlM
    (fun st region => (List.ofFn (order region)).foldlM (visit hashes region) st) { st with changed := false }

/-- `none` when the loop is still running after `fuel` passes. -/
def decodeLoop (orders : VisitOrders numHashFns cellsPerRegion) :
    Nat → Nat → DecodeState keyBytes checksumWords numHashFns cellsPerRegion →
    Option (Except String (DecodeState keyBytes checksumWords numHashFns cellsPerRegion))
  | 0, _, _ => none
  | fuel + 1, pass, st =>
    match decodePass hashes (orders pass) st with
    | .error e => some (.error e)
    | .ok st => if st.changed then decodeLoop orders fuel (pass + 1) st else some (.ok st)

/-- The body of the last loop on one range of cells. Its `return` ends the range at the first cell. -/
def nonemptyIn (cells : IBLT keyBytes checksumWords numHashFns cellsPerRegion) :
    List (Fin (numHashFns * cellsPerRegion)) → Bool
  | [] => false
  | i :: _ => !(cells i).isEmpty

def decode (orders : VisitOrders numHashFns cellsPerRegion)
    (division : Parallel.Division (Fin (numHashFns * cellsPerRegion))) (fuel : Nat)
    (cells : IBLT keyBytes checksumWords numHashFns cellsPerRegion) :
    Option (Except String (DecodeResult keyBytes)) :=
  (decodeLoop hashes orders fuel 0 ⟨cells, [], [], false⟩).map (fun run => run.map (fun st =>
    { verdict := !((division.run (List.finRange _)).any (nonemptyIn st.cells)),
      positiveKeys := st.outputPositiveKeys, negativeKeys := st.outputNegativeKeys }))

end IBLT

end

end Speedex
