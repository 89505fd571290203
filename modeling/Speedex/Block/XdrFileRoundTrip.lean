import Speedex.Block.XdrFile
import Speedex.Library.Machine

set_option autoImplicit false

/- What `save_xdr_to_file_fast` leaves in the file is the XDR encoding, which `load_xdr_from_file` reads back. -/
namespace Speedex

open Bytes Machine

section Files

variable {transfer : Nat → Nat → Nat}

theorem File.write_spec (file : File) (bytes : List Byte) (reached : file.position ≤ file.contents.length) :
    (file.write bytes).contents.take (file.write bytes).position = file.contents.take file.position ++ bytes ∧
      (file.write bytes).position ≤ (file.write bytes).contents.length := by
  have hole : file.position - file.contents.length = 0 := by omega
  have front : (file.contents.take file.position ++ bytes).length = file.position + bytes.length := by
    rw [List.length_append, List.length_take, Nat.min_eq_left reached]
  have contents : (file.write bytes).contents =
      file.contents.take file.position ++ bytes ++ file.contents.drop (file.position + bytes.length) := by
    rw [File.write, hole, List.replicate_zero, List.append_nil]
  rw [contents]
  constructor
  · show List.take (file.position + bytes.length) _ = _
    rw [← front, List.take_left]
  · show file.position + bytes.length ≤ _
    rw [List.length_append, front]
    omega

/-- However the writes are cut short, the loop writes all bytes in their order. -/
theorem flushLoop_spec (ideal : IdealWrite transfer) {buffer : List Byte} {n : Nat} (inside : n ≤ buffer.length) :
    ∀ rounds file idx, idx ≤ n → n - idx ≤ rounds → file.position ≤ file.contents.length →
      ∃ file', flushLoop transfer buffer n rounds file idx = .ok file' ∧
        file'.position = file.position + (n - idx) ∧ file'.position ≤ file'.contents.length ∧
        file'.contents.take file'.position = file.contents.take file.position ++ (buffer.take n).drop idx := by
  intro rounds
  induction rounds with
  | zero =>
    intro file idx before enough reached
    have done : idx = n := by omega
    refine ⟨file, ?_, by omega, reached, ?_⟩
    · rw [flushLoop, if_neg (by omega)]
    · rw [done, List.drop_take, Nat.sub_self, List.take_zero, List.append_nil]
  | succ rounds ih =>
    intro file idx before enough reached
    by_cases less : idx < n
    · have progress := ideal.progress file.position (n - idx) (by omega)
      have within := ideal.within file.position (n - idx)
      have limit := ideal.limit file.position (n - idx)
      have value : (BitVec.ofNat 32 (transfer file.position (n - idx))).toInt = transfer file.position (n - idx) := by
        have small : (BitVec.ofNat 32 (transfer file.position (n - idx))).toNat = transfer file.position (n - idx) := by
          rw [BitVec.toNat_ofNat]
          omega
        rw [toInt_of_lt (by omega), small]
      have length : ((buffer.drop idx).take (transfer file.position (n - idx))).length =
          transfer file.position (n - idx) := by
        rw [List.length_take, List.length_drop]
        omega
      obtain ⟨front, reached'⟩ :=
        File.write_spec file ((buffer.drop idx).take (transfer file.position (n - idx))) reached
      obtain ⟨file', run, position, reached'', contents⟩ :=
        ih (file.write ((buffer.drop idx).take (transfer file.position (n - idx))))
          (idx + transfer file.position (n - idx)) (by omega) (by omega) reached'
      refine ⟨file', ?_, ?_, reached'', ?_⟩
      · rw [flushLoop, if_pos less]
        show (if (BitVec.ofNat 32 (transfer file.position (n - idx))).toInt < 0 then _ else _) = _
        rw [value, if_neg (by omega), Int.toNat_natCast, run]
      · rw [position]
        show file.position + List.length _ + _ = _
        rw [length]
        omega
      · have joined : ((buffer.take n).drop idx).take (transfer file.position (n - idx)) =
            (buffer.drop idx).take (transfer file.position (n - idx)) := by
          rw [List.drop_take, List.take_take, Nat.min_eq_left within]
        rw [contents, front, List.append_assoc, ← joined, ← List.drop_drop, List.take_append_drop]
    · have done : idx = n := by omega
      refine ⟨file, ?_, by omega, reached, ?_⟩
      · rw [flushLoop, if_neg (by omega)]
      · rw [done, List.drop_take, Nat.sub_self, List.take_zero, List.append_nil]

theorem flushBuffer_spec (ideal : IdealWrite transfer) {buffer : List Byte} {n : Nat} (inside : n ≤ buffer.length)
    {file : File} (reached : file.position ≤ file.contents.length) :
    ∃ file', flushBuffer transfer file buffer n = .ok file' ∧ file'.position = file.position + n ∧
      file'.position ≤ file'.contents.length ∧
      file'.contents.take file'.position = file.contents.take file.position ++ buffer.take n := by
  rw [flushBuffer, if_neg (by omega)]
  exact flushLoop_spec ideal inside n file 0 (Nat.zero_le n) (Nat.sub_le n 0) reached

end Files

section Writer

theorem storeBytes_spec {memory bytes : List Byte} {offset : Nat} (inside : offset + bytes.length ≤ memory.length) :
    ∃ memory', storeBytes memory offset bytes = .ok memory' ∧ memory'.length = memory.length ∧
      memory'.take (offset + bytes.length) = memory.take offset ++ bytes := by
  have front : (memory.take offset ++ bytes).length = offset + bytes.length := by
    rw [List.length_append, List.length_take]
    omega
  refine ⟨_, by rw [storeBytes, if_pos inside], ?_, ?_⟩
  · rw [List.length_append, front, List.length_drop]
    omega
  · rw [← front, List.take_left]

theorem copyToFront_spec {memory : List Byte} {source count : Nat} (apart : count ≤ source)
    (inside : source + count ≤ memory.length) :
    ∃ memory', copyToFront memory source count = .ok memory' ∧ memory'.length = memory.length ∧
      memory'.take count = (memory.drop source).take count := by
  have length : ((memory.drop source).take count).length = count := by
    rw [List.length_take, List.length_drop]
    omega
  obtain ⟨memory', stored, size, front⟩ :=
    storeBytes_spec (show 0 + ((memory.drop source).take count).length ≤ memory.length by omega)
  refine ⟨memory', ?_, size, ?_⟩
  · rw [copyToFront, if_neg (by omega), if_neg (by omega), stored]
  · rw [Nat.zero_add, length] at front
    exact front

theorem sizeSub_eq {a b : Nat} (less : b ≤ a) (small : a < 2 ^ 64) : WriterState.sizeSub a b = a - b := by
  rw [WriterState.sizeSub]
  omega

/-- The file and the front of the buffer hold the bytes that have been put so far. -/
structure Written (size usable : Nat) (stream : List Byte) (state : WriterState) : Prop where
  bytes : state.file.contents.take state.totalWrittenBytes ++ state.memory.take state.bufIdx = stream
  position : state.file.position = state.totalWrittenBytes
  reached : state.totalWrittenBytes ≤ state.file.contents.length
  pointer : state.p = state.bufIdx
  words : state.bufIdx % 4 = 0
  -- a list without elements needs no room beside that for its length
  bound : state.bufIdx ≤ usable ∨ state.bufIdx = 4
  size : state.memory.length = size
  blocks : ∀ amount ∈ state.flushes, amount % 512 = 0

variable {T : Type} {marshal : XdrMarshal T} {transfer : Nat → Nat → Nat} {size usable nextSz : Nat}
  {stream : List Byte} {state : WriterState}

/-- Making room keeps the stream, and leaves less than a block in the buffer. -/
theorem makeRoom_spec (ideal : IdealWrite transfer) (room : usable + 512 ≤ size) (small : size < 2 ^ 32)
    (written : Written size usable stream state) (fits : nextSz + 512 ≤ usable) :
    ∃ state', state.makeRoom transfer usable nextSz = .ok state' ∧ Written size usable stream state' ∧
      state'.bufIdx + nextSz ≤ usable := by
  have inside : state.bufIdx ≤ usable := by
    have bound := written.bound
    omega
  rw [WriterState.makeRoom, sizeSub_eq inside (by omega)]
  by_cases full : usable - state.bufIdx < nextSz
  · have own := written.size
    have words := written.words
    obtain ⟨file, flushed, position, reached, contents⟩ := flushBuffer_spec ideal
      (show state.bufIdx - state.bufIdx % 512 ≤ state.memory.length by omega)
      (written.position ▸ written.reached : state.file.position ≤ state.file.contents.length)
    obtain ⟨memory, copied, length, front⟩ := copyToFront_spec
      (show state.bufIdx % 512 ≤ state.bufIdx - state.bufIdx % 512 by omega)
      (show state.bufIdx - state.bufIdx % 512 + state.bufIdx % 512 ≤ state.memory.length by omega)
    rw [if_pos full]
    show ∃ state', (flushBuffer transfer state.file state.memory (state.bufIdx - state.bufIdx % 512) >>= _) = _ ∧ _
    rw [flushed]
    show ∃ state', (copyToFront state.memory _ _ >>= _) = _ ∧ _
    rw [copied]
    show ∃ state', (if state.bufIdx % 512 % 4 ≠ 0 then _ else _) = _ ∧ _
    rw [if_neg (by omega)]
    rw [written.position] at position contents
    refine ⟨_, rfl, ⟨?_, position, position ▸ reached, rfl, ?_, ?_, length.trans own, ?_⟩, ?_⟩
    · show file.contents.take _ ++ memory.take (state.bufIdx % 512) = stream
      rw [← position, contents, front, List.append_assoc, ← List.take_add,
        Nat.sub_add_cancel (Nat.mod_le _ _), written.bytes]
    · show state.bufIdx % 512 % 4 = 0
      omega
    · show state.bufIdx % 512 ≤ usable ∨ _
      omega
    · intro amount member
      rcases List.mem_append.mp member with earlier | last
      · exact written.blocks amount earlier
      · rw [List.mem_singleton.mp last]
        omega
    · show state.bufIdx % 512 + nextSz ≤ usable
      omega
  · rw [if_neg full]
    exact ⟨state, rfl, written, by omega⟩

theorem put_spec {bytes : List Byte} (room : usable + 512 ≤ size) (small : size < 2 ^ 32)
    (written : Written size usable stream state) (whole : bytes.length % 4 = 0)
    (fits : state.bufIdx + bytes.length ≤ usable) :
    ∃ state', state.put usable bytes = .ok state' ∧ Written size usable (stream ++ bytes) state' := by
  have own := written.size
  have words := written.words
  obtain ⟨memory, stored, length, front⟩ := storeBytes_spec
    (show state.bufIdx + bytes.length ≤ state.memory.length by omega)
  have next : (state.bufIdx + bytes.length) % 2 ^ 32 = state.bufIdx + bytes.length := Nat.mod_eq_of_lt (by omega)
  rw [WriterState.put, written.pointer, sizeSub_eq (by omega) (by omega), if_neg (by omega), stored]
  refine ⟨_, rfl, ⟨?_, written.position, written.reached, next.symm, ?_, ?_, length.trans own, written.blocks⟩⟩
  · show state.file.contents.take state.totalWrittenBytes ++ memory.take ((state.bufIdx + bytes.length) % 2 ^ 32) = _
    rw [next, front, ← List.append_assoc, written.bytes]
  · show (state.bufIdx + bytes.length) % 2 ^ 32 % 4 = 0
    rw [next]
    omega
  · show (state.bufIdx + bytes.length) % 2 ^ 32 ≤ usable ∨ _
    rw [next]
    exact .inl fits

theorem writeElement_spec (correct : marshal.Correct) (ideal : IdealWrite transfer) (room : usable + 512 ≤ size)
    (small : size < 2 ^ 32) (written : Written size usable stream state) {value : T}
    (fits : (marshal.put value).length + 512 ≤ usable) :
    ∃ state', state.writeElement marshal transfer usable value = .ok state' ∧
      Written size usable (stream ++ marshal.put value) state' := by
  obtain ⟨state', made, written', space⟩ := makeRoom_spec ideal room small written fits
  obtain ⟨state'', done, written''⟩ := put_spec room small written' (correct.words value) space
  exact ⟨state'', Fallible.bind_eq_ok.mpr ⟨state', made, done⟩, written''⟩

/-- The last write takes whole blocks, which the buffer holds, and the file ends up with the stream. -/
theorem finish_spec (ideal : IdealWrite transfer) (room : usable + 512 ≤ size) (small : size < 2 ^ 32)
    (written : Written size usable stream state) :
    ∃ file flushes, state.finish transfer = .ok (file, flushes) ∧ file.contents = stream ∧
      ∀ amount ∈ flushes, amount % 512 = 0 := by
  have own := written.size
  have bound := written.bound
  have amount : (state.bufIdx - state.bufIdx % 512 + 512) % 2 ^ 32 = state.bufIdx - state.bufIdx % 512 + 512 :=
    Nat.mod_eq_of_lt (by omega)
  obtain ⟨file, flushed, position, reached, contents⟩ := flushBuffer_spec ideal
    (show state.bufIdx - state.bufIdx % 512 + 512 ≤ state.memory.length by omega)
    (written.position ▸ written.reached : state.file.position ≤ state.file.contents.length)
  rw [written.position] at position contents
  rw [WriterState.finish, amount]
  show ∃ file flushes, (flushBuffer transfer state.file state.memory _ >>= _) = _ ∧ _
  rw [flushed]
  refine ⟨_, _, rfl, ?_, ?_⟩
  · have enough : state.totalWrittenBytes + state.bufIdx ≤ file.position := by omega
    have tail : state.totalWrittenBytes + state.bufIdx - file.contents.length = 0 := by omega
    have length : (state.file.contents.take state.totalWrittenBytes).length = state.totalWrittenBytes := by
      rw [List.length_take, Nat.min_eq_left written.reached]
    show file.contents.take (state.totalWrittenBytes + state.bufIdx) ++ _ = stream
    rw [tail, List.replicate_zero, List.append_nil, ← Nat.min_eq_left enough, ← List.take_take, contents,
      List.take_append, length, List.take_of_length_le (by omega), Nat.add_sub_cancel_left, List.take_take,
      Nat.min_eq_left (by omega), written.bytes]
  · intro amount' member
    rcases List.mem_append.mp member with earlier | last
    · exact written.blocks amount' earlier
    · rw [List.mem_singleton.mp last]
      omega

end Writer

section Reader

variable {T : Type} {marshal : XdrMarshal T}

theorem readLoop_eq (contents file : List Byte) : readLoop contents file = contents ++ file := by
  fun_induction readLoop contents file with
  | case1 contents file ended => rw [List.length_eq_zero_iff.mp ended, List.append_nil]
  | case2 contents file more ih => rw [ih, List.append_assoc, List.take_append_drop]

theorem foldl_bigEndian (n value x : Nat) :
    (bigEndian n x).foldl (fun value byte => value * 256 + byte.toNat) value = value * 256 ^ n + x % 256 ^ n := by
  induction n generalizing x with
  | zero => rw [bigEndian, List.foldl_nil, Nat.pow_zero, Nat.mul_one, Nat.mod_one, Nat.add_zero]
  | succ n ih =>
    have split : x % 256 ^ (n + 1) = x % 256 + 256 * (x / 256 % 256 ^ n) := by rw [Nat.pow_succ', Nat.mod_mul]
    have scale : value * 256 ^ (n + 1) = value * 256 ^ n * 256 := by rw [Nat.pow_succ, Nat.mul_assoc]
    rw [bigEndian, List.foldl_append, ih, List.foldl_cons, List.foldl_nil, BitVec.toNat_ofNat, split, scale]
    omega

theorem get32_bigEndian {n : Nat} (small : n < 2 ^ 32) (rest : List Byte) :
    get32 (bigEndian 4 n ++ rest) = .ok (n, rest) := by
  have length : (bigEndian 4 n).length = 4 := length_bigEndian 4 n
  rw [get32, if_neg (by rw [List.length_append, length]; omega)]
  have front : (bigEndian 4 n ++ rest).take 4 = bigEndian 4 n := List.take_left' length
  have back : (bigEndian 4 n ++ rest).drop 4 = rest := List.drop_left' length
  rw [front, back, foldl_bigEndian, Nat.zero_mul, Nat.zero_add, Nat.mod_eq_of_lt (by omega)]

theorem getElements_put (correct : marshal.Correct) (values : List T) (rest : List Byte) :
    getElements marshal values.length (values.flatMap marshal.put ++ rest) = .ok (values, rest) := by
  induction values with
  | nil => rfl
  | cons value values ih =>
    rw [List.flatMap_cons, List.append_assoc, List.length_cons, getElements, correct.get_put]
    show (getElements marshal values.length (values.flatMap marshal.put ++ rest) >>= _) = _
    rw [ih]
    rfl

/-- What is read back from an encoding is what was encoded. -/
theorem loadXdrFromFile_encode (correct : marshal.Correct) {maxSize : BitVec 32} (value : XdrVector T maxSize) :
    loadXdrFromFile marshal maxSize (value.encode marshal) = .ok value.elements := by
  have bounded := value.bounded
  have limit := maxSize.isLt
  have whole : (value.encode marshal).length % 4 = 0 := by
    rw [XdrVector.encode, List.length_append, length_bigEndian]
    generalize value.elements = values
    induction values with
    | nil => rw [List.flatMap_nil, List.length_nil]
    | cons element values ih =>
      have words := correct.words element
      rw [List.flatMap_cons, List.length_append]
      omega
  rw [loadXdrFromFile, readLoop_eq, List.nil_append, xdrFromOpaque, if_neg (by omega), XdrVector.encode,
    get32_bigEndian (by omega)]
  show (if maxSize.toNat < value.elements.length then _ else _) = _
  have read := getElements_put correct value.elements []
  rw [List.append_nil] at read
  rw [if_neg (by omega), read]
  rfl

end Reader

section Whole

variable {T : Type} {marshal : XdrMarshal T} {transfer : Nat → Nat → Nat} {maxSize : BitVec 32}

/-- The file holds the encoding and reads back as the list; the writes take whole blocks, and no store leaves the
buffer. -/
theorem saveXdrToFileFast_spec (correct : marshal.Correct) (ideal : IdealWrite transfer) (value : XdrVector T maxSize)
    {address usable : Nat} {buffer : List Byte} {file : File} (bufSize : buffer.length < 2 ^ 32)
    (usableIs : usableSize address buffer.length = some usable)
    (fits : ∀ element ∈ value.elements, (marshal.put element).length + 512 ≤ usable) (fresh : file.position = 0) :
    ∃ file' flushes, saveXdrToFileFast marshal transfer value address buffer file = .ok (file', flushes) ∧
      file'.contents = value.encode marshal ∧ loadXdrFromFile marshal maxSize file'.contents = .ok value.elements ∧
      ∀ amount ∈ flushes, amount % 512 = 0 := by
  have bounded := value.bounded
  have limit := maxSize.isLt
  cases aligned : alignBuffer address buffer.length with
  | none =>
    rw [usableSize, aligned] at usableIs
    cases usableIs
  | some pad =>
    rw [usableSize, aligned] at usableIs
    have sized : (if alignedBufSize buffer.length pad < 512 then none
      else some (alignedBufSize buffer.length pad - 512)) = some usable := usableIs
    by_cases tiny : alignedBufSize buffer.length pad < 512
    · rw [if_pos tiny] at sized
      cases sized
    · rw [if_neg tiny] at sized
      have left := Option.some.inj sized
      have whole : alignedBufSize buffer.length pad ≤ buffer.length - pad := by
        rw [alignedBufSize]
        omega
      have memory : (buffer.drop pad).length = buffer.length - pad := List.length_drop
      have word := length_bigEndian 4 value.elements.length
      obtain ⟨start, stored, length, front⟩ := storeBytes_spec
        (show 0 + (bigEndian 4 value.elements.length).length ≤ (buffer.drop pad).length by omega)
      have list : size32 value.elements.length = .ok (BitVec.ofNat 32 value.elements.length) := by
        rw [size32, if_pos (by omega)]
      have listSize : (BitVec.ofNat 32 value.elements.length).toNat = value.elements.length := by
        rw [BitVec.toNat_ofNat]
        omega
      have started : Written (buffer.length - pad) usable (bigEndian 4 value.elements.length)
          ⟨start, 4, 4, file, 0, []⟩ := by
        refine ⟨?_, fresh, Nat.zero_le _, rfl, (show 4 % 4 = 0 by decide), .inr rfl, length.trans memory, ?_⟩
        · rw [word] at front
          exact front
        · intro amount none
          cases none
      obtain ⟨state, run, written⟩ := Fallible.foldlM_total
        (fun done state => Written (buffer.length - pad) usable
          (bigEndian 4 value.elements.length ++ done.flatMap marshal.put) state)
        (f := WriterState.writeElement marshal transfer usable) (l := value.elements)
        (by rwa [List.flatMap_nil, List.append_nil]) (by
          intro done element state within written
          have member : element ∈ value.elements := within.subset (by simp)
          obtain ⟨state', wrote, written'⟩ := writeElement_spec correct ideal (by omega) (by omega) written
            (fits element member)
          refine ⟨state', wrote, ?_⟩
          rw [List.flatMap_append, ← List.append_assoc]
          simpa using written')
      obtain ⟨file', flushes, finished, contents, blocks⟩ := finish_spec ideal (by omega) (by omega) written
      refine ⟨file', flushes, ?_, contents, ?_, blocks⟩
      · rw [saveXdrToFileFast, aligned]
        show (if alignedBufSize buffer.length pad < 512 then _ else (size32 value.elements.length >>= _)) = _
        rw [if_neg tiny, list]
        show (storeBytes _ 0 (bigEndian 4 (BitVec.ofNat 32 value.elements.length).toNat) >>= _) = _
        rw [listSize, stored]
        show (value.elements.foldlM (WriterState.writeElement marshal transfer _) ⟨start, 4, 4, file, 0, []⟩ >>= _) = _
        rw [left]
        exact Fallible.bind_eq_ok.mpr ⟨state, run, finished⟩
      · rw [contents]
        exact loadXdrFromFile_encode correct value

/-- Unsigned integers, as xdrpp puts them. -/
def uint32Marshal : XdrMarshal (BitVec 32) where
  put value := bigEndian 4 value.toNat
  get bytes := do
    let (n, rest) ← get32 bytes
    .ok (BitVec.ofNat 32 n, rest)

theorem uint32Marshal_correct : uint32Marshal.Correct where
  words value := by rw [uint32Marshal, length_bigEndian]
  get_put value rest := by
    show (get32 (bigEndian 4 value.toNat ++ rest) >>= _) = _
    rw [get32_bigEndian value.isLt]
    show Except.ok (BitVec.ofNat 32 value.toNat, rest) = _
    rw [BitVec.ofNat_toNat, BitVec.setWidth_eq]

/-- A kernel that never writes less than it may. -/
def linuxWrite (_ count : Nat) : Nat := min count 0x7ffff000

theorem linuxWrite_ideal : IdealWrite linuxWrite where
  progress _ count some := by
    rw [linuxWrite]
    omega
  within _ _ := Nat.min_le_left _ _
  limit _ _ := Nat.min_le_right _ _

def threeNumbers : XdrVector (BitVec 32) 0xfffffffc := ⟨[1, 2, 3], by decide⟩

theorem saveXdrToFileFast_threeNumbers : ∃ file' flushes,
    saveXdrToFileFast uint32Marshal linuxWrite threeNumbers 100 (List.replicate 2000 0) ⟨[7], 0⟩ =
        .ok (file', flushes) ∧
      file'.contents = threeNumbers.encode uint32Marshal ∧
      loadXdrFromFile uint32Marshal 0xfffffffc file'.contents = .ok threeNumbers.elements ∧
      ∀ amount ∈ flushes, amount % 512 = 0 := by
  refine saveXdrToFileFast_spec uint32Marshal_correct linuxWrite_ideal threeNumbers ?_
    (show usableSize 100 (List.replicate 2000 (0 : Byte)).length = some 1076 by rw [List.length_replicate]; decide) ?_ rfl
  · rw [List.length_replicate]
    decide
  · intro element _
    rw [uint32Marshal, length_bigEndian]
    decide

end Whole

end Speedex
