import Speedex.Library.Bump
import Mathlib.Data.BitVec
import Mathlib.Logic.Function.Basic

set_option autoImplicit false

/- `AccountTrieNodeAllocator`: slots for the nodes and the values of the account tries, out of buffers that the
contexts request one at a time. An offset is a buffer's number in the high eight bits and an index in the others. -/
namespace Speedex

/-- `BUF_SIZE`. -/
def bufSize : Nat := 500000

/-- `OFFSET_BITS`. -/
def offsetBits : Nat := 24

/-- `OFFSET_MASK`. -/
def offsetMask : BitVec 32 := (1 <<< offsetBits) - 1

/-- The buffers of one kind, and whether they are there. `requests` and `handed` record what has happened since the last
reset: how often `fetch_add` was called, and the ranges that were handed out. Nothing reads them. -/
structure BufferPool where
  nextAvailable : BitVec 16
  buffers : BitVec 8 → Bool
  requests : Nat
  handed : List (BitVec 32 × Nat)

namespace BufferPool

def new : BufferPool := { nextAvailable := 0, buffers := fun _ => false, requests := 0, handed := [] }

/-- The counters are reset; the buffers stay. -/
def reset (pool : BufferPool) : BufferPool := { pool with nextAvailable := 0, requests := 0, handed := [] }

/-- The next buffer, as `assign_new_buffer`, `assign_new_value_buffer` and `get_new_allocator` request it. -/
def request (pool : BufferPool) (usedUp : String) : BufferPool × Except String (BitVec 32) :=
  let idx := pool.nextAvailable
  let pool := { pool with nextAvailable := pool.nextAvailable + 1, requests := pool.requests + 1 }
  if 256 ≤ idx.toNat then (pool, .error usedUp)
  else ({ pool with buffers := Function.update pool.buffers (idx.setWidth 8) true }, .ok (idx.setWidth 32 <<< offsetBits))

/-- `allocate` and `allocate_value`: `count` slots after the cursor, or from the start of a new buffer. The new cursor
comes second. -/
def advance (pool : BufferPool) (cursor : BitVec 32) (count : BitVec 8) (usedUp : String) :
    BufferPool × BitVec 32 × Except String (BitVec 32) :=
  let take (pool : BufferPool) (out : BitVec 32) : BufferPool × BitVec 32 × Except String (BitVec 32) :=
    ({ pool with handed := pool.handed ++ [(out, count.toNat)] }, out + count.setWidth 32, .ok out)
  if bufSize < ((cursor + count.setWidth 32) &&& offsetMask).toNat then
    match pool.request usedUp with
    | (pool, .error message) => (pool, cursor, .error message)
    | (pool, .ok start) => take pool start
  else take pool cursor

/-- `get_object` and `get_value`: the buffer and the index of a slot, if the buffer is there and the index inside. -/
def slotAt (pool : BufferPool) (ptr : BitVec 32) : Option (BitVec 8 × Nat) :=
  let idx := (ptr >>> offsetBits).setWidth 8
  let offset := (ptr &&& offsetMask).toNat
  if pool.buffers idx = true ∧ offset < bufSize then some (idx, offset) else none

end BufferPool

structure AllocationContext where
  curBufferOffsetAndIndex : BitVec 32
  valueBufferOffsetAndIndex : BitVec 32

structure AccountTrieNodeAllocator where
  nodes : BufferPool
  values : BufferPool
  contexts : List AllocationContext

namespace AccountTrieNodeAllocator

def new : AccountTrieNodeAllocator := { nodes := .new, values := .new, contexts := [] }

def getNewAllocator (allocator : AccountTrieNodeAllocator) : AccountTrieNodeAllocator × Except String AllocationContext :=
  match allocator.nodes.request "used up all allocation buffers!!!" with
  | (nodes, .error message) => ({ allocator with nodes := nodes }, .error message)
  | (nodes, .ok cur) =>
    match allocator.values.request "used up all value buffers" with
    | (values, .error message) => ({ allocator with nodes := nodes, values := values }, .error message)
    | (values, .ok value) =>
      let context : AllocationContext := { curBufferOffsetAndIndex := cur, valueBufferOffsetAndIndex := value }
      ({ nodes := nodes, values := values, contexts := allocator.contexts ++ [context] }, .ok context)

/-- `allocate` of context `i`. -/
def allocate (allocator : AccountTrieNodeAllocator) (i : Nat) (context : AllocationContext) (numNodes : BitVec 8) :
    AccountTrieNodeAllocator × Except String (BitVec 32) :=
  let (nodes, cur, out) :=
    allocator.nodes.advance context.curBufferOffsetAndIndex numNodes "used up all allocation buffers!!!"
  ({ allocator with
      nodes := nodes
      contexts := allocator.contexts.set i { context with curBufferOffsetAndIndex := cur } }, out)

/-- `allocate_value` of context `i`. -/
def allocateValue (allocator : AccountTrieNodeAllocator) (i : Nat) (context : AllocationContext) :
    AccountTrieNodeAllocator × Except String (BitVec 32) :=
  let (values, value, out) := allocator.values.advance context.valueBufferOffsetAndIndex 1 "used up all value buffers"
  ({ allocator with
      values := values
      contexts := allocator.contexts.set i { context with valueBufferOffsetAndIndex := value } }, out)

/-- `reset`. The contexts that are used from then on are opened after it. -/
def reset (allocator : AccountTrieNodeAllocator) : AccountTrieNodeAllocator :=
  { allocator with nodes := allocator.nodes.reset, values := allocator.values.reset, contexts := [] }

/-- What happens between two resets: contexts are opened and allocate, in any order. A call that throws leaves its
traces. -/
inductive Reached (start : AccountTrieNodeAllocator) : AccountTrieNodeAllocator → Prop
  | reset : Reached start start.reset
  | getNewAllocator {allocator : AccountTrieNodeAllocator} (reached : Reached start allocator) :
      Reached start allocator.getNewAllocator.1
  | allocate {allocator : AccountTrieNodeAllocator} {i : Nat} {context : AllocationContext} (numNodes : BitVec 8)
      (reached : Reached start allocator) (found : allocator.contexts[i]? = some context) :
      Reached start (allocator.allocate i context numNodes).1
  | allocateValue {allocator : AccountTrieNodeAllocator} {i : Nat} {context : AllocationContext}
      (reached : Reached start allocator) (found : allocator.contexts[i]? = some context) :
      Reached start (allocator.allocateValue i context).1

end AccountTrieNodeAllocator

/-- The offset of an index in a buffer. -/
def slotOffset (region index : Nat) : BitVec 32 := BitVec.ofNat 32 (region * 2 ^ offsetBits + index)

theorem toNat_slotOffset {region index : Nat} (few : region < 256) (small : index < 2 ^ offsetBits) :
    (slotOffset region index).toNat = region * 2 ^ offsetBits + index := by
  unfold slotOffset offsetBits at *
  rw [BitVec.toNat_ofNat, Nat.mod_eq_of_lt]
  omega

theorem slotOffset_add (region index count : Nat) :
    slotOffset region index + BitVec.ofNat 32 count = slotOffset region (index + count) := by
  unfold slotOffset
  rw [← BitVec.ofNat_add, Nat.add_assoc]

theorem slotOffset_and_mask {region index : Nat} (few : region < 256) (small : index < 2 ^ offsetBits) :
    (slotOffset region index &&& offsetMask).toNat = index := by
  rw [BitVec.toNat_and, toNat_slotOffset few small]
  show (region * 2 ^ offsetBits + index) &&& (2 ^ 24 - 1) = index
  rw [Nat.and_two_pow_sub_one_eq_mod]
  unfold offsetBits at *
  omega

theorem slotOffset_shift {region index : Nat} (few : region < 256) (small : index < 2 ^ offsetBits) :
    ((slotOffset region index >>> offsetBits).setWidth 8) = BitVec.ofNat 8 region := by
  apply BitVec.eq_of_toNat_eq
  rw [BitVec.toNat_setWidth, BitVec.toNat_ushiftRight, toNat_slotOffset few small, Nat.shiftRight_eq_div_pow,
    BitVec.toNat_ofNat]
  unfold offsetBits at *
  omega

namespace BufferPool

/-- A pool and the cursors into it, as an arena whose regions are the buffers. -/
structure Refines (pool : BufferPool) (cursors : List (BitVec 32)) (arena : Bump.Arena) : Prop where
  sound : arena.Sound bufSize
  counter : pool.nextAvailable = BitVec.ofNat 16 arena.fresh
  requests : pool.requests = arena.fresh
  cursors : cursors = arena.cursors.map (fun c => slotOffset c.region c.used)
  handed : pool.handed = arena.handed.map (fun s => (slotOffset s.region s.start, s.length))
  cursorRegion : ∀ c ∈ arena.cursors, c.region < 256
  spanRegion : ∀ s ∈ arena.handed, s.region < 256
  buffers : ∀ region < 256, region < arena.fresh → pool.buffers (BitVec.ofNat 8 region) = true

variable {pool : BufferPool} {cursors : List (BitVec 32)} {arena : Bump.Arena}

theorem Refines.reset (pool : BufferPool) : Refines pool.reset [] .new where
  sound := .new
  counter := rfl
  requests := rfl
  cursors := rfl
  handed := rfl
  cursorRegion := fun _ absurd => (List.not_mem_nil absurd).elim
  spanRegion := fun _ absurd => (List.not_mem_nil absurd).elim
  buffers := fun region _ absurd => (Nat.not_lt_zero region absurd).elim

/-- As long as the counter has not wrapped, a request fails when the buffers are used up, and otherwise gives a buffer
that was never given before. -/
theorem Refines.request (refines : Refines pool cursors arena) (fresh : pool.requests < 2 ^ 16) (usedUp : String) :
    (pool.request usedUp).1.requests = pool.requests + 1 ∧ Refines (pool.request usedUp).1 cursors arena.waste ∧
      ((pool.request usedUp).2 = .error usedUp ∨
        (arena.fresh < 256 ∧ (pool.request usedUp).2 = .ok (slotOffset arena.fresh 0))) := by
  have index : pool.nextAvailable.toNat = arena.fresh := by
    rw [refines.counter, BitVec.toNat_ofNat]
    exact Nat.mod_eq_of_lt (refines.requests ▸ fresh)
  have counter : pool.nextAvailable + 1 = BitVec.ofNat 16 (arena.fresh + 1) := by
    rw [refines.counter, BitVec.ofNat_add]
    rfl
  unfold BufferPool.request
  dsimp only
  rw [index]
  by_cases full : 256 ≤ arena.fresh
  · rw [if_pos full]
    refine ⟨rfl, ⟨refines.sound.waste, counter, congrArg (· + 1) refines.requests, refines.cursors, refines.handed,
      refines.cursorRegion, refines.spanRegion, ?_⟩, .inl rfl⟩
    intro region few _
    exact refines.buffers region few (few.trans_le full)
  · rw [if_neg full]
    refine ⟨rfl, ⟨refines.sound.waste, counter, congrArg (· + 1) refines.requests, refines.cursors, refines.handed,
      refines.cursorRegion, refines.spanRegion, ?_⟩, .inr ⟨Nat.lt_of_not_le full, ?_⟩⟩
    · intro region few before
      show Function.update pool.buffers (pool.nextAvailable.setWidth 8) true (BitVec.ofNat 8 region) = true
      by_cases here : BitVec.ofNat 8 region = pool.nextAvailable.setWidth 8
      · rw [here, Function.update_self]
      · rw [Function.update_of_ne here]
        apply refines.buffers region few
        have last : region ≠ arena.fresh := by
          intro same
          apply here
          apply BitVec.eq_of_toNat_eq
          rw [BitVec.toNat_setWidth, index, BitVec.toNat_ofNat, same]
        have before : region < arena.fresh + 1 := before
        omega
    · apply congrArg Except.ok
      apply BitVec.eq_of_toNat_eq
      rw [toNat_slotOffset (by omega) (by decide), BitVec.toNat_shiftLeft, BitVec.toNat_setWidth, index, Nat.shiftLeft_eq]
      unfold offsetBits
      omega

/-- A buffer that was just requested becomes the one of a new context or of a context that has used up its own. -/
theorem Refines.place {pool' : BufferPool} (refines : Refines pool cursors arena) (wasted : Refines pool' cursors arena.waste)
    (few : arena.fresh < 256) :
    Refines pool' (cursors ++ [slotOffset arena.fresh 0]) arena.enter ∧
      ∀ i, Refines pool' (cursors.set i (slotOffset arena.fresh 0)) (arena.renew i) := by
  constructor
  · refine ⟨refines.sound.enter, wasted.counter, wasted.requests, ?_, wasted.handed, ?_, wasted.spanRegion, wasted.buffers⟩
    · show _ = (arena.cursors ++ [_]).map _
      rw [List.map_append, ← refines.cursors]
      rfl
    · show ∀ c ∈ arena.cursors ++ [_], c.region < 256
      rw [List.forall_mem_append]
      refine ⟨refines.cursorRegion, ?_⟩
      intro c member
      rw [List.mem_singleton.mp member]
      exact few
  · intro i
    refine ⟨refines.sound.renew i, wasted.counter, wasted.requests, ?_, wasted.handed, ?_, wasted.spanRegion, wasted.buffers⟩
    · show _ = (arena.cursors.set i _).map _
      rw [List.map_set, ← refines.cursors]
    · intro c member
      cases List.mem_or_eq_of_mem_set member with
      | inl old => exact refines.cursorRegion c old
      | inr new => exact new ▸ few

theorem Refines.take (refines : Refines pool cursors arena) {i : Nat} {c : Bump.Cursor} (found : arena.cursors[i]? = some c)
    {count : BitVec 8} (fits : c.used + count.toNat ≤ bufSize) :
    Refines { pool with handed := pool.handed ++ [(slotOffset c.region c.used, count.toNat)] }
      (cursors.set i (slotOffset c.region c.used + count.setWidth 32)) (arena.take i c count.toNat) := by
  have region := refines.cursorRegion c (List.mem_of_getElem? found)
  have counted : count.setWidth 32 = BitVec.ofNat 32 count.toNat := (BitVec.ofNat_toNat 32 count).symm
  refine ⟨refines.sound.take found fits, refines.counter, refines.requests, ?_, ?_, ?_, ?_, refines.buffers⟩
  · show _ = (arena.cursors.set i _).map _
    rw [List.map_set, ← refines.cursors, counted, slotOffset_add]
  · show _ = (arena.handed ++ [_]).map _
    rw [List.map_append, ← refines.handed]
    rfl
  · intro c' member
    cases List.mem_or_eq_of_mem_set member with
    | inl old => exact refines.cursorRegion c' old
    | inr new => exact new ▸ region
  · show ∀ s ∈ arena.handed ++ [_], s.region < 256
    rw [List.forall_mem_append]
    refine ⟨refines.spanRegion, ?_⟩
    intro s member
    rw [List.mem_singleton.mp member]
    exact region

/-- With room behind the cursor no buffer is requested. -/
theorem advance_room {cursor : BitVec 32} {count : BitVec 8}
    (room : ¬ bufSize < ((cursor + count.setWidth 32) &&& offsetMask).toNat) (usedUp : String) :
    pool.advance cursor count usedUp =
      ({ pool with handed := pool.handed ++ [(cursor, count.toNat)] }, cursor + count.setWidth 32, .ok cursor) := by
  unfold advance
  exact if_neg room

/-- Without room the slots are the first ones of a requested buffer. -/
theorem advance_full {cursor : BitVec 32} {count : BitVec 8}
    (full : bufSize < ((cursor + count.setWidth 32) &&& offsetMask).toNat) (usedUp : String) :
    pool.advance cursor count usedUp =
      match (pool.request usedUp).2 with
      | .error message => ((pool.request usedUp).1, cursor, .error message)
      | .ok start =>
        ({ (pool.request usedUp).1 with handed := (pool.request usedUp).1.handed ++ [(start, count.toNat)] },
          start + count.setWidth 32, .ok start) := by
  unfold advance
  refine (if_pos full).trans ?_
  obtain ⟨pool', answer⟩ := pool.request usedUp
  cases answer with
  | error message => rfl
  | ok start => rfl

theorem requests_request (pool : BufferPool) (usedUp : String) : (pool.request usedUp).1.requests = pool.requests + 1 := by
  unfold request
  dsimp only
  split <;> rfl

theorem requests_advance (pool : BufferPool) (cursor : BitVec 32) (count : BitVec 8) (usedUp : String) :
    pool.requests ≤ (pool.advance cursor count usedUp).1.requests := by
  by_cases full : bufSize < ((cursor + count.setWidth 32) &&& offsetMask).toNat
  · rw [advance_full full]
    have requested := requests_request pool usedUp
    cases (pool.request usedUp).2 with
    | error message =>
      dsimp only
      omega
    | ok start =>
      dsimp only
      omega
  · rw [advance_room full]

/-- An allocation takes the slots after the cursor, in the buffer of the context or in a fresh one. -/
theorem Refines.advance (refines : Refines pool cursors arena) {i : Nat} {cursor : BitVec 32} (found : cursors[i]? = some cursor)
    (count : BitVec 8) (usedUp : String) (fresh : (pool.advance cursor count usedUp).1.requests ≤ 2 ^ 16) :
    ∃ arena', Refines (pool.advance cursor count usedUp).1 (cursors.set i (pool.advance cursor count usedUp).2.1) arena' := by
  have same := found
  rw [refines.cursors, List.getElem?_map, Option.map_eq_some_iff] at same
  obtain ⟨c, at_cursor, rfl⟩ := same
  have region := refines.cursorRegion c (List.mem_of_getElem? at_cursor)
  have used := (refines.sound.cursor i c at_cursor).2
  have counted : count.setWidth 32 = BitVec.ofNat 32 count.toNat := (BitVec.ofNat_toNat 32 count).symm
  have room : ((slotOffset c.region c.used + count.setWidth 32) &&& offsetMask).toNat = c.used + count.toNat := by
    rw [counted, slotOffset_add]
    apply slotOffset_and_mask region
    exact Nat.lt_of_lt_of_le (Nat.add_lt_add_of_le_of_lt used count.isLt) (by decide)
  by_cases full : bufSize < c.used + count.toNat
  · have equal := @advance_full pool (slotOffset c.region c.used) count (by rwa [room]) usedUp
    have requested := requests_request pool usedUp
    have fresh' : pool.requests < 2 ^ 16 := by
      rw [equal] at fresh
      cases answer : (pool.request usedUp).2 with
      | error message =>
        rw [answer] at fresh
        dsimp only at fresh
        omega
      | ok start =>
        rw [answer] at fresh
        dsimp only at fresh
        omega
    obtain ⟨_, wasted, outcome⟩ := refines.request fresh' usedUp
    cases outcome with
    | inl throws =>
      rw [throws] at equal
      rw [equal]
      refine ⟨arena.waste, ?_⟩
      show Refines _ (cursors.set i (slotOffset c.region c.used)) _
      have kept : cursors.set i (slotOffset c.region c.used) = cursors := by
        obtain ⟨inside, value⟩ := List.getElem?_eq_some_iff.mp found
        rw [← value, List.set_getElem_self]
      rwa [kept]
    | inr given =>
      obtain ⟨few, start⟩ := given
      rw [start] at equal
      rw [equal]
      have renewed := (refines.place wasted few).2 i
      have at_start : (arena.renew i).cursors[i]? = some { region := arena.fresh, used := 0 } := by
        apply List.getElem?_set_self
        exact (List.getElem?_eq_some_iff.mp at_cursor).1
      have fits : 0 + count.toNat ≤ bufSize := by
        rw [Nat.zero_add]
        exact Nat.le_trans (Nat.le_of_lt count.isLt) (by decide)
      have taken := renewed.take at_start fits
      rw [List.set_set] at taken
      exact ⟨_, taken⟩
  · rw [@advance_room pool (slotOffset c.region c.used) count (by rwa [room]) usedUp]
    exact ⟨_, refines.take at_cursor (Nat.le_of_not_lt full)⟩

/-- The `k`-th slot of a range that was handed out. -/
theorem Refines.slotAt (refines : Refines pool cursors arena) {s : Bump.Span} (member : s ∈ arena.handed) {k : Nat}
    (inside : k < s.length) :
    pool.slotAt (slotOffset s.region s.start + BitVec.ofNat 32 k) = some (BitVec.ofNat 8 s.region, s.start + k) := by
  have few := refines.spanRegion s member
  obtain ⟨requested, fits⟩ := refines.sound.span s member
  have index : s.start + k < bufSize := by omega
  have small : s.start + k < 2 ^ offsetBits := Nat.lt_trans index (by decide)
  unfold BufferPool.slotAt
  rw [slotOffset_add, slotOffset_shift few small, slotOffset_and_mask few small]
  exact if_pos ⟨refines.buffers s.region few requested, index⟩

/-- What the ranges that were handed out are to satisfy: their slots lie in buffers that are there, one after the
other, and no slot is in two ranges. -/
structure Unaliased (pool : BufferPool) : Prop where
  inside : ∀ range ∈ pool.handed, ∀ k < range.2, ∃ idx offset,
    pool.slotAt range.1 = some (idx, offset) ∧ pool.slotAt (range.1 + BitVec.ofNat 32 k) = some (idx, offset + k)
  disjoint : pool.handed.Pairwise (fun range range' => ∀ k < range.2, ∀ k' < range'.2,
    pool.slotAt (range.1 + BitVec.ofNat 32 k) ≠ pool.slotAt (range'.1 + BitVec.ofNat 32 k'))

theorem Refines.unaliased (refines : Refines pool cursors arena) : pool.Unaliased where
  inside := by
    rw [refines.handed]
    intro range listed k inside
    obtain ⟨s, member, rfl⟩ := List.mem_map.mp listed
    have first := refines.slotAt member (Nat.zero_lt_of_lt inside)
    rw [BitVec.add_zero] at first
    exact ⟨_, _, first, refines.slotAt member inside⟩
  disjoint := by
    rw [refines.handed, List.pairwise_map]
    apply refines.sound.disjoint.imp_of_mem
    intro s t member member' disjoint k inside k' inside'
    rw [refines.slotAt member inside, refines.slotAt member' inside']
    intro same
    obtain ⟨buffer, index⟩ := Prod.mk.inj (Option.some.inj same)
    have few := refines.spanRegion s member
    have few' := refines.spanRegion t member'
    have region : s.region = t.region := by bv_omega
    cases disjoint with
    | inl other => exact other region
    | inr apart => omega

end BufferPool

namespace BufferPool

/-- Until the counter wraps, the pool is an arena. -/
def Tracked (pool : BufferPool) (cursors : List (BitVec 32)) : Prop :=
  pool.requests ≤ 2 ^ 16 → ∃ arena, pool.Refines cursors arena

variable {pool : BufferPool} {cursors : List (BitVec 32)}

theorem Tracked.request (tracked : pool.Tracked cursors) (usedUp : String) : (pool.request usedUp).1.Tracked cursors := by
  intro fresh
  rw [requests_request] at fresh
  obtain ⟨arena, refines⟩ := tracked (by omega)
  exact ⟨_, (refines.request (by omega) usedUp).2.1⟩

theorem Tracked.enter (tracked : pool.Tracked cursors) {usedUp : String} {start : BitVec 32}
    (given : (pool.request usedUp).2 = .ok start) : (pool.request usedUp).1.Tracked (cursors ++ [start]) := by
  intro fresh
  rw [requests_request] at fresh
  obtain ⟨arena, refines⟩ := tracked (by omega)
  obtain ⟨_, wasted, outcome⟩ := refines.request (by omega) usedUp
  rw [given] at outcome
  obtain ⟨few, same⟩ := outcome.resolve_left (fun absurd => by cases absurd)
  rw [Except.ok.inj same]
  exact ⟨_, (refines.place wasted few).1⟩

theorem Tracked.advance (tracked : pool.Tracked cursors) {i : Nat} {cursor : BitVec 32} (found : cursors[i]? = some cursor)
    (count : BitVec 8) (usedUp : String) :
    (pool.advance cursor count usedUp).1.Tracked (cursors.set i (pool.advance cursor count usedUp).2.1) := by
  intro fresh
  obtain ⟨arena, refines⟩ := tracked (Nat.le_trans (requests_advance pool cursor count usedUp) fresh)
  exact refines.advance found count usedUp fresh

end BufferPool

namespace AccountTrieNodeAllocator

/-- The nodes and the values, each with the cursors that the contexts have into them. -/
structure Sound (allocator : AccountTrieNodeAllocator) : Prop where
  nodes : allocator.nodes.Tracked (allocator.contexts.map AllocationContext.curBufferOffsetAndIndex)
  values : allocator.values.Tracked (allocator.contexts.map AllocationContext.valueBufferOffsetAndIndex)

variable {allocator start : AccountTrieNodeAllocator}

/-- A context is opened with a buffer of each kind, or the call throws and the buffers it requested are wasted. -/
theorem Sound.getNewAllocator (sound : allocator.Sound) : allocator.getNewAllocator.1.Sound := by
  have nodes := sound.nodes.request "used up all allocation buffers!!!"
  have values := sound.values.request "used up all value buffers"
  unfold AccountTrieNodeAllocator.getNewAllocator
  cases answer : allocator.nodes.request "used up all allocation buffers!!!" with
  | mk pool result =>
    rw [answer] at nodes
    cases result with
    | error message => exact ⟨nodes, sound.values⟩
    | ok cur =>
      cases answer' : allocator.values.request "used up all value buffers" with
      | mk pool' result' =>
        rw [answer'] at values
        cases result' with
        | error message => exact ⟨nodes, values⟩
        | ok value =>
          have entered := sound.nodes.enter (congrArg Prod.snd answer)
          have entered' := sound.values.enter (congrArg Prod.snd answer')
          rw [answer] at entered
          rw [answer'] at entered'
          constructor
          · show pool.Tracked ((allocator.contexts ++ [_]).map _)
            rw [List.map_append]
            exact entered
          · show pool'.Tracked ((allocator.contexts ++ [_]).map _)
            rw [List.map_append]
            exact entered'

/-- A change of one context that keeps what `field` reads. -/
theorem map_set_of_eq {contexts : List AllocationContext} {i : Nat} {context context' : AllocationContext}
    {field : AllocationContext → BitVec 32} (found : contexts[i]? = some context) (same : field context' = field context) :
    (contexts.set i context').map field = contexts.map field := by
  obtain ⟨inside, value⟩ := List.getElem?_eq_some_iff.mp found
  have inside' : i < (contexts.map field).length := by rwa [List.length_map]
  have kept : (contexts.map field)[i] = field context := by rw [List.getElem_map, value]
  rw [List.map_set, same, ← kept, List.set_getElem_self]

theorem contexts_allocate (allocator : AccountTrieNodeAllocator) (i : Nat) (context : AllocationContext) (numNodes : BitVec 8) :
    (allocator.allocate i context numNodes).1.contexts = allocator.contexts.set i
      { context with
        curBufferOffsetAndIndex := (allocator.nodes.advance context.curBufferOffsetAndIndex numNodes
          "used up all allocation buffers!!!").2.1 } := rfl

theorem contexts_allocateValue (allocator : AccountTrieNodeAllocator) (i : Nat) (context : AllocationContext) :
    (allocator.allocateValue i context).1.contexts = allocator.contexts.set i
      { context with
        valueBufferOffsetAndIndex := (allocator.values.advance context.valueBufferOffsetAndIndex 1
          "used up all value buffers").2.1 } := rfl

theorem Sound.allocate (sound : allocator.Sound) {i : Nat} {context : AllocationContext}
    (found : allocator.contexts[i]? = some context) (numNodes : BitVec 8) : (allocator.allocate i context numNodes).1.Sound := by
  constructor
  · have cursor : (allocator.contexts.map AllocationContext.curBufferOffsetAndIndex)[i]? =
        some context.curBufferOffsetAndIndex := by
      rw [List.getElem?_map, found]
      rfl
    have advanced := sound.nodes.advance cursor numNodes "used up all allocation buffers!!!"
    rw [contexts_allocate, List.map_set]
    exact advanced
  · rw [contexts_allocate, map_set_of_eq found]
    · exact sound.values
    · rfl

theorem Sound.allocateValue (sound : allocator.Sound) {i : Nat} {context : AllocationContext}
    (found : allocator.contexts[i]? = some context) : (allocator.allocateValue i context).1.Sound := by
  constructor
  · rw [contexts_allocateValue, map_set_of_eq found]
    · exact sound.nodes
    · rfl
  · have cursor : (allocator.contexts.map AllocationContext.valueBufferOffsetAndIndex)[i]? =
        some context.valueBufferOffsetAndIndex := by
      rw [List.getElem?_map, found]
      rfl
    have advanced := sound.values.advance cursor 1 "used up all value buffers"
    rw [contexts_allocateValue, List.map_set]
    exact advanced

theorem Reached.sound (reached : Reached start allocator) : allocator.Sound := by
  induction reached with
  | reset => exact ⟨fun _ => ⟨_, BufferPool.Refines.reset _⟩, fun _ => ⟨_, BufferPool.Refines.reset _⟩⟩
  | getNewAllocator _ ih => exact ih.getNewAllocator
  | allocate numNodes _ found ih => exact ih.allocate found numNodes
  | allocateValue _ found ih => exact ih.allocateValue found

end AccountTrieNodeAllocator

namespace AccountTrieNodeAllocator

/-- A run on the way to a wrapped counter: context 0 has filled its first buffer up to `used`, from slot 0 on, and `next`
buffers were requested. -/
structure Underway (allocator : AccountTrieNodeAllocator) (used next : Nat) : Prop where
  reached : Reached new allocator
  counter : allocator.nodes.nextAvailable = BitVec.ofNat 16 next
  context : ∃ value, allocator.contexts[0]? = some ⟨BitVec.ofNat 32 used, value⟩
  handed : (used = 0 ∧ allocator.nodes.handed = []) ∨ ∃ rest, allocator.nodes.handed = (0, 255) :: rest

theorem underway_allocate {used next : Nat} (small : used + 255 ≤ bufSize) {allocator : AccountTrieNodeAllocator}
    (underway : Underway allocator used next) : ∃ allocator', Underway allocator' (used + 255) next := by
  obtain ⟨value, found⟩ := underway.context
  have offset : BitVec.ofNat 32 used = slotOffset 0 used := by
    unfold slotOffset
    rw [Nat.zero_mul, Nat.zero_add]
  have room : ¬ bufSize < ((BitVec.ofNat 32 used + (255 : BitVec 8).setWidth 32) &&& offsetMask).toNat := by
    have sum : BitVec.ofNat 32 used + (255 : BitVec 8).setWidth 32 = slotOffset 0 (used + 255) := by
      rw [offset, ← slotOffset_add]
      rfl
    rw [sum, slotOffset_and_mask (by decide) (Nat.lt_of_le_of_lt small (by decide))]
    exact Nat.not_lt.mpr small
  have equal := @BufferPool.advance_room allocator.nodes _ _ room "used up all allocation buffers!!!"
  refine ⟨(allocator.allocate 0 ⟨BitVec.ofNat 32 used, value⟩ 255).1, .allocate 255 underway.reached found, ?_, ⟨value, ?_⟩, .inr ?_⟩
  · show (allocator.nodes.advance _ 255 _).1.nextAvailable = _
    rw [equal]
    exact underway.counter
  · rw [contexts_allocate, equal, List.getElem?_set_self (List.getElem?_eq_some_iff.mp found).1, BitVec.ofNat_add]
    rfl
  · show ∃ rest, (allocator.nodes.advance _ 255 _).1.handed = _
    rw [equal]
    show ∃ rest, allocator.nodes.handed ++ _ = _
    cases underway.handed with
    | inl first =>
      obtain ⟨rfl, none⟩ := first
      rw [none]
      exact ⟨[], rfl⟩
    | inr later =>
      obtain ⟨rest, handed⟩ := later
      rw [handed]
      exact ⟨_, rfl⟩

theorem underway_getNewAllocator {used next : Nat} {allocator : AccountTrieNodeAllocator}
    (underway : Underway allocator used next) : Underway allocator.getNewAllocator.1 used (next + 1) := by
  obtain ⟨value, found⟩ := underway.context
  have counter : (allocator.nodes.request "used up all allocation buffers!!!").1.nextAvailable = BitVec.ofNat 16 (next + 1) := by
    unfold BufferPool.request
    rw [BitVec.ofNat_add, ← underway.counter]
    dsimp only
    split <;> rfl
  have same : (allocator.nodes.request "used up all allocation buffers!!!").1.handed = allocator.nodes.handed := by
    unfold BufferPool.request
    dsimp only
    split <;> rfl
  have nodes : allocator.getNewAllocator.1.nodes = (allocator.nodes.request "used up all allocation buffers!!!").1 := by
    unfold getNewAllocator
    split
    · rename_i answer
      rw [answer]
    · rename_i answer
      split <;> rw [answer]
  have contexts : allocator.getNewAllocator.1.contexts = allocator.contexts ∨
      ∃ context, allocator.getNewAllocator.1.contexts = allocator.contexts ++ [context] := by
    unfold getNewAllocator
    split
    · exact .inl rfl
    · split
      · exact .inl rfl
      · exact .inr ⟨_, rfl⟩
  refine ⟨.getNewAllocator underway.reached, by rw [nodes, counter], ⟨value, ?_⟩, ?_⟩
  · cases contexts with
    | inl old => rw [old, found]
    | inr new =>
      obtain ⟨context, new⟩ := new
      rw [new, List.getElem?_append_left (List.getElem?_eq_some_iff.mp found).1, found]
  · rw [nodes, same]
    exact underway.handed

end AccountTrieNodeAllocator

end Speedex
