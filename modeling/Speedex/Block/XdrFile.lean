import Speedex.Library.Bytes
import Speedex.Library.Fallible

set_option autoImplicit false

/- `utils.h`: the modification log of a block goes to a file through an aligned buffer, block by block, and a
replay reads the file back whole. -/
namespace Speedex

open Bytes

inductive XdrFault where
  | nullBuffer
  | assertion
  | outOfBounds
  | overlap
  | overflow
  | badMessageSize
  | stalled
  | runtimeError (what : String)
deriving DecidableEq, Repr

section Marshalling

variable {T : Type}

/-- What xdrpp does with a single value: `xdr_put`, and `xdr_get` on the rest of a message. -/
structure XdrMarshal (T : Type) where
  put : T → List Byte
  get : List Byte → Except XdrFault (T × List Byte)

/-- A value takes whole words, and comes back as it was put. -/
structure XdrMarshal.Correct (marshal : XdrMarshal T) : Prop where
  words : ∀ value, (marshal.put value).length % 4 = 0
  get_put : ∀ value rest, marshal.get (marshal.put value ++ rest) = .ok (value, rest)

/-- `xdr::xvector`. -/
structure XdrVector (T : Type) (maxSize : BitVec 32) where
  elements : List T
  bounded : elements.length ≤ maxSize.toNat

/-- The XDR encoding: the length, and then the elements. -/
def XdrVector.encode {maxSize : BitVec 32} (marshal : XdrMarshal T) (value : XdrVector T maxSize) : List Byte :=
  bigEndian 4 value.elements.length ++ value.elements.flatMap marshal.put

/-- `size32`. -/
def size32 (s : Nat) : Except XdrFault (BitVec 32) := if s < 2 ^ 32 then .ok (BitVec.ofNat 32 s) else .error .assertion

end Marshalling

section Files

/-- An open file. -/
structure File where
  contents : List Byte
  position : Nat

/-- The bytes that a `write` takes; a hole before them reads as zeros. -/
def File.write (file : File) (bytes : List Byte) : File where
  contents := file.contents.take file.position ++ List.replicate (file.position - file.contents.length) 0 ++ bytes ++
    file.contents.drop (file.position + bytes.length)
  position := file.position + bytes.length

def File.ftruncate (file : File) (length : Nat) : File :=
  { file with contents := file.contents.take length ++ List.replicate (length - file.contents.length) 0 }

/-- How many bytes `write` takes, from the position and the number that it is given: at least one, and on
Linux at most 2147479552. -/
structure IdealWrite (transfer : Nat → Nat → Nat) : Prop where
  progress : ∀ position count, 0 < count → 0 < transfer position count
  within : ∀ position count, transfer position count ≤ count
  limit : ∀ position count, transfer position count ≤ 0x7ffff000

variable (transfer : Nat → Nat → Nat)

/-- The loop of `flush_buffer`; the first argument bounds its rounds. -/
def flushLoop (buffer : List Byte) (bytesToWrite : Nat) : Nat → File → Nat → Except XdrFault File
  | rounds, file, idx =>
    if idx < bytesToWrite then
      match rounds with
      | 0 => .error .stalled
      | rounds + 1 =>
        let count := transfer file.position (bytesToWrite - idx)
        -- `write` answers with a `ssize_t`, which goes into an `int`
        let written := (BitVec.ofNat 32 count).toInt
        if written < 0 then .error (.runtimeError "error returned from write TODO check and compensate?")
        else flushLoop buffer bytesToWrite rounds (file.write ((buffer.drop idx).take count)) (idx + written.toNat)
    else .ok file

def flushBuffer (file : File) (buffer : List Byte) (bytesToWrite : Nat) : Except XdrFault File :=
  if buffer.length < bytesToWrite then .error .outOfBounds
  else flushLoop transfer buffer bytesToWrite bytesToWrite file 0

end Files

section Writer

variable {T : Type} (marshal : XdrMarshal T) (transfer : Nat → Nat → Nat)

/-- A store into a buffer, which goes wrong past its end. -/
def storeBytes (memory : List Byte) (offset : Nat) (bytes : List Byte) : Except XdrFault (List Byte) :=
  if offset + bytes.length ≤ memory.length then
    .ok (memory.take offset ++ bytes ++ memory.drop (offset + bytes.length))
  else .error .outOfBounds

/-- `memcpy` to the front of a buffer; the two areas must not overlap. -/
def copyToFront (memory : List Byte) (source count : Nat) : Except XdrFault (List Byte) :=
  if source < count then .error .overlap
  else if memory.length < source + count then .error .outOfBounds
  else storeBytes memory 0 ((memory.drop source).take count)

/-- `std::align`: the bytes before the first address that 512 divides. -/
def alignBuffer (address bufSize : Nat) : Option Nat :=
  let pad := (512 - address % 512) % 512
  if 1 + pad ≤ bufSize then some pad else none

/-- `aligned_buf_size` in whole words. -/
def alignedBufSize (bufSize pad : Nat) : Nat := bufSize - pad - (bufSize - pad) % 4

/-- What is left of the buffer for the marshaller once a block is kept back. -/
def usableSize (address bufSize : Nat) : Option Nat := do
  let pad ← alignBuffer address bufSize
  if alignedBufSize bufSize pad < 512 then none else some (alignedBufSize bufSize pad - 512)

/-- The locals of `save_xdr_to_file_fast`; `memory` starts at `aligned_buf`, `p` is the marshaller's pointer, and
`flushes` keeps the sizes of the writes so far. -/
structure WriterState where
  memory : List Byte
  p : Nat
  bufIdx : Nat
  file : File
  totalWrittenBytes : Nat
  flushes : List Nat

namespace WriterState

/-- The difference of two `size_t`. -/
def sizeSub (a b : Nat) : Nat := (a + 2 ^ 64 - b) % 2 ^ 64

/-- The full blocks are written, and what is left of the last one goes to the front. -/
def makeRoom (alignedBufSize nextSz : Nat) (state : WriterState) : Except XdrFault WriterState :=
  if sizeSub alignedBufSize state.bufIdx < nextSz then do
    let writeAmount := state.bufIdx - state.bufIdx % 512
    let file ← flushBuffer transfer state.file state.memory writeAmount
    let memory ← copyToFront state.memory writeAmount (state.bufIdx % 512)
    let bufIdx := state.bufIdx % 512
    if bufIdx % 4 ≠ 0 then .error (.runtimeError "buf_idx should always be 0 mod 4")
    else .ok {
      memory := memory
      p := bufIdx
      bufIdx := bufIdx
      file := file
      totalWrittenBytes := state.totalWrittenBytes + writeAmount
      flushes := state.flushes ++ [writeAmount] }
  else .ok state

/-- `p(value[list_idx])`: the marshaller checks against its own end. -/
def put (alignedBufSize : Nat) (bytes : List Byte) (state : WriterState) : Except XdrFault WriterState :=
  if sizeSub alignedBufSize state.p < bytes.length then .error .overflow
  else do
    let memory ← storeBytes state.memory state.p bytes
    .ok { state with
      memory := memory
      p := state.p + bytes.length
      bufIdx := (state.bufIdx + bytes.length) % 2 ^ 32 }

def writeElement (alignedBufSize : Nat) (state : WriterState) (value : T) : Except XdrFault WriterState := do
  let nextSz := (marshal.put value).length
  let state ← state.makeRoom transfer alignedBufSize nextSz
  state.put alignedBufSize (marshal.put value)

/-- The last write is up to a block too long, and the file is cut back. -/
def finish (state : WriterState) : Except XdrFault (File × List Nat) := do
  let writeAmount := (state.bufIdx - state.bufIdx % 512 + 512) % 2 ^ 32
  let file ← flushBuffer transfer state.file state.memory writeAmount
  .ok (file.ftruncate (state.totalWrittenBytes + state.bufIdx), state.flushes ++ [writeAmount])

end WriterState

/-- `save_xdr_to_file_fast`: the file, and the sizes of the writes. -/
def saveXdrToFileFast {maxSize : BitVec 32} (value : XdrVector T maxSize) (address : Nat) (buffer : List Byte)
    (file : File) : Except XdrFault (File × List Nat) :=
  match alignBuffer address buffer.length with
  | none => .error .nullBuffer
  | some pad =>
    -- the constructor of the marshaller wants its end past its start
    if alignedBufSize buffer.length pad < 512 then .error .assertion
    else do
      let usable := alignedBufSize buffer.length pad - 512
      let listSize ← size32 value.elements.length
      let memory ← storeBytes (buffer.drop pad) 0 (bigEndian 4 listSize.toNat)
      let state ← value.elements.foldlM (WriterState.writeElement marshal transfer usable)
        ⟨memory, 4, 4, file, 0, []⟩
      state.finish transfer

end Writer

section Reader

variable {T : Type} (marshal : XdrMarshal T)

/-- The loop of `load_xdr_from_file`: `fread` fills its buffer until the file ends. -/
def readLoop (contents file : List Byte) : List Byte :=
  if file.length = 0 then contents
  else readLoop (contents ++ file.take 65536) (file.drop 65536)
termination_by file.length
decreasing_by
  rw [List.length_drop]
  omega

/-- `get32`. -/
def get32 (bytes : List Byte) : Except XdrFault (Nat × List Byte) :=
  if bytes.length < 4 then .error .overflow
  else .ok ((bytes.take 4).foldl (fun value byte => value * 256 + byte.toNat) 0, bytes.drop 4)

def getElements : Nat → List Byte → Except XdrFault (List T × List Byte)
  | 0, bytes => .ok ([], bytes)
  | n + 1, bytes => do
    let (value, bytes) ← marshal.get bytes
    let (values, bytes) ← getElements n bytes
    .ok (value :: values, bytes)

/-- `xdr_from_opaque`, for a list. -/
def xdrFromOpaque (maxSize : BitVec 32) (bytes : List Byte) : Except XdrFault (List T) :=
  if bytes.length % 4 ≠ 0 then .error .badMessageSize
  else do
    let (n, bytes) ← get32 bytes
    if maxSize.toNat < n then .error .overflow
    else do
      let (values, bytes) ← getElements marshal n bytes
      if bytes = [] then .ok values else .error .badMessageSize

def loadXdrFromFile (maxSize : BitVec 32) (contents : List Byte) : Except XdrFault (List T) :=
  xdrFromOpaque marshal maxSize (readLoop [] contents)

end Reader

end Speedex
