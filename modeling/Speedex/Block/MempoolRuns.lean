import Speedex.Block.Mempool
import Mathlib.Algebra.BigOperators.Group.List.Basic
import Mathlib.Data.List.GetD

set_option autoImplicit false

/- What the mempool keeps over its operations: every transaction together with its flag. -/
namespace Speedex

open Vec (swapRemove swapRemove_perm getElem?_swapRemove length_swapRemove)

variable {Tx : Type}

/-- Transactions with their flags. Past the end of the bitmap no flag is set. -/
def markedTxs (txs : List Tx) (flags : List Bool) : List (Tx × Bool) :=
  txs.mapIdx (fun j tx => (tx, flags.getD j false))

theorem getElem?_markedTxs (txs : List Tx) (flags : List Bool) (j : Nat) :
    (markedTxs txs flags)[j]? = txs[j]?.map (fun tx => (tx, flags.getD j false)) := List.getElem?_mapIdx

@[simp] theorem length_markedTxs (txs : List Tx) (flags : List Bool) : (markedTxs txs flags).length = txs.length :=
  List.length_mapIdx

theorem markedTxs_fst (txs : List Tx) (flags : List Bool) : (markedTxs txs flags).map Prod.fst = txs := by
  apply List.ext_getElem?
  intro j
  rw [List.getElem?_map, getElem?_markedTxs, Option.map_map]
  exact Option.map_id'

theorem getD_of_clear {flags : List Bool} (clear : true ∉ flags) (j : Nat) : flags.getD j false = false := by
  rw [List.getD_eq_getElem?_getD]
  cases entry : flags[j]? with
  | none => rfl
  | some flag =>
    have member := List.mem_of_getElem? entry
    cases flag with
    | false => rfl
    | true => exact absurd member clear

/-- Without a set flag the bitmap says nothing. -/
theorem markedTxs_of_clear {flags : List Bool} (clear : true ∉ flags) (txs : List Tx) :
    markedTxs txs flags = txs.map (fun tx => (tx, false)) := by
  apply List.ext_getElem?
  intro j
  rw [getElem?_markedTxs, getD_of_clear clear, List.getElem?_map]

theorem markedTxs_of_complete {txs : List Tx} {flags : List Bool} (complete : flags.length = txs.length) :
    markedTxs txs flags = txs.zip flags := by
  have lengths : (markedTxs txs flags).length = (txs.zip flags).length := by
    rw [length_markedTxs, List.length_zip, complete, Nat.min_self]
  apply List.ext_getElem lengths
  intro j within within'
  have inside : j < flags.length := by rwa [complete, ← length_markedTxs txs flags]
  apply Option.some.inj
  rw [← List.getElem?_eq_getElem within, getElem?_markedTxs, List.getElem_zip, List.getD_eq_getElem _ _ inside,
    List.getElem?_eq_getElem (complete ▸ inside)]
  rfl

/-- Joined flags stay with their transactions if the first bitmap is complete or the second sets none. -/
theorem markedTxs_append {txs others : List Tx} {flags flags' : List Bool} (short : flags.length ≤ txs.length)
    (aligned : flags.length = txs.length ∨ true ∉ flags') :
    markedTxs (txs ++ others) (flags ++ flags') = markedTxs txs flags ++ markedTxs others flags' := by
  apply List.ext_getElem?
  intro j
  rw [getElem?_markedTxs]
  by_cases first : j < txs.length
  · rw [List.getElem?_append_left first, List.getElem?_append_left (by rwa [length_markedTxs]), getElem?_markedTxs]
    by_cases flagged : j < flags.length
    · rw [List.getD_append _ _ _ _ flagged]
    · have clear : true ∉ flags' := aligned.resolve_left (by omega)
      rw [List.getD_append_right _ _ _ _ (Nat.le_of_not_lt flagged), getD_of_clear clear,
        List.getD_eq_default _ _ (Nat.le_of_not_lt flagged)]
  · rw [List.getElem?_append_right (Nat.le_of_not_lt first),
      List.getElem?_append_right (by rw [length_markedTxs]; omega), length_markedTxs, getElem?_markedTxs,
      List.getD_append_right _ _ _ _ (by omega)]
    cases aligned with
    | inl complete => rw [complete]
    | inr clear => rw [getD_of_clear clear, getD_of_clear clear]

/-- A removal moves a flag together with its transaction unless it takes a set flag from the end of a bitmap
that is too short. -/
theorem markedTxs_swapRemove {txs : List Tx} {flags : List Bool} {i : Nat} (short : flags.length ≤ txs.length)
    (aligned : flags.length = txs.length ∨ i + 1 = flags.length ∨ flags.getLast? = some false) :
    markedTxs (swapRemove txs i) (swapRemove flags i) = swapRemove (markedTxs txs flags) i := by
  rw [List.getLast?_eq_getElem?] at aligned
  have moved : ∀ j, j + 1 < txs.length →
      (if j + 1 < flags.length then (if i = j then flags[flags.length - 1]? else flags[j]?) else none).getD false =
        (if i = j then flags[txs.length - 1]? else flags[j]?).getD false := by
    intro j within
    by_cases here : i = j
    · rw [if_pos here, if_pos here]
      cases aligned with
      | inl complete => rw [if_pos (complete ▸ within), complete]
      | inr aligned =>
        cases aligned with
        | inl final => rw [if_neg (by omega), List.getElem?_eq_none (by omega : flags.length ≤ txs.length - 1)]
        | inr clear =>
          rw [clear]
          by_cases complete : flags.length = txs.length
          · rw [← complete, clear, if_pos (by omega)]
          · rw [List.getElem?_eq_none (by omega : flags.length ≤ txs.length - 1)]
            split <;> rfl
    · rw [if_neg here, if_neg here]
      by_cases before : j + 1 < flags.length
      · rw [if_pos before]
      · rw [if_neg before]
        by_cases past : flags.length ≤ j
        · rw [List.getElem?_eq_none past]
        · have back : flags.length - 1 = j := by omega
          have clear : flags[flags.length - 1]? = some false := by
            apply (aligned.resolve_left (by omega)).resolve_left
            omega
          rw [back] at clear
          rw [clear]
          rfl
  apply List.ext_getElem?
  intro j
  rw [getElem?_markedTxs, getElem?_swapRemove, getElem?_swapRemove, length_markedTxs, List.getD_eq_getElem?_getD,
    getElem?_swapRemove, List.getLast?_eq_getElem?, List.getLast?_eq_getElem?, List.getLast?_eq_getElem?,
    length_markedTxs, getElem?_markedTxs, getElem?_markedTxs]
  by_cases within : j + 1 < txs.length
  · rw [if_pos within, if_pos within, moved j within]
    by_cases here : i = j
    · rw [if_pos here, if_pos here, if_pos here, List.getD_eq_getElem?_getD]
    · rw [if_neg here, if_neg here, if_neg here, List.getD_eq_getElem?_getD]
  · rw [if_neg within, if_neg within]
    rfl

/-- At its end the bitmap has as many clear entries as other flags are set. -/
def ClearTail (flags : List Bool) : Prop :=
  ∃ front tail, flags = front ++ List.replicate tail false ∧ front.count true ≤ tail + 1

theorem count_swapRemove {flags : List Bool} {i : Nat} (set : flags[i]? = some true) :
    flags.count true = (swapRemove flags i).count true + 1 := by
  obtain ⟨inside, value⟩ := List.getElem?_eq_some_iff.mp set
  rw [(swapRemove_perm inside).count_eq, value, List.count_cons_self]

theorem ClearTail.aligned {flags : List Bool} (clear : ClearTail flags) {i : Nat} (set : flags[i]? = some true) :
    i + 1 = flags.length ∨ flags.getLast? = some false := by
  obtain ⟨front, tail, rfl, few⟩ := clear
  obtain ⟨inside, _⟩ := List.getElem?_eq_some_iff.mp set
  cases tail with
  | succ tail =>
    right
    rw [List.replicate_succ', ← List.append_assoc, List.getLast?_concat]
  | zero =>
    rw [List.replicate_zero, List.append_nil] at *
    by_cases final : i + 1 = front.length
    · exact .inl final
    · right
      -- The only set flag is the one at `i`, which is not the last.
      have none_left : true ∉ swapRemove front i := by
        apply List.count_eq_zero.mp
        have counted := count_swapRemove set
        omega
      have back : (swapRemove front i)[i]? = front.getLast? := by
        rw [getElem?_swapRemove, if_pos (by omega), if_pos rfl]
      cases last : front.getLast? with
      | none =>
        rw [List.getLast?_eq_none_iff] at last
        rw [last] at inside
        exact absurd inside (Nat.not_lt_zero i)
      | some flag =>
        cases flag with
        | false => rfl
        | true => exact absurd (List.mem_of_getElem? (back.trans last)) none_left

theorem ClearTail.swapRemove {flags : List Bool} (clear : ClearTail flags) {i : Nat} (set : flags[i]? = some true) :
    ClearTail (swapRemove flags i) := by
  have counted := count_swapRemove set
  obtain ⟨front, tail, rfl, few⟩ := clear
  rw [List.count_append, List.count_replicate] at counted
  cases tail with
  | zero =>
    refine ⟨Vec.swapRemove (front ++ List.replicate 0 false) i, 0, (List.append_nil _).symm, ?_⟩
    rw [if_neg (by decide)] at counted
    omega
  | succ tail =>
    have within : i < front.length := by
      by_contra past
      rw [List.getElem?_append_right (Nat.le_of_not_lt past)] at set
      exact absurd (List.eq_of_mem_replicate (List.mem_of_getElem? set)) (by decide)
    have shape : Vec.swapRemove (front ++ List.replicate (tail + 1) false) i =
        front.set i false ++ List.replicate tail false := by
      rw [List.replicate_succ', ← List.append_assoc, Vec.swapRemove_concat,
        if_pos (by rw [List.length_append]; omega), List.set_append_left _ _ within]
    refine ⟨front.set i false, tail, shape, ?_⟩
    rw [shape, List.count_append, List.count_replicate, if_neg (by decide), if_neg (by decide)] at counted
    omega

namespace MempoolChunk

def marked (chunk : MempoolChunk Tx) : List (Tx × Bool) := markedTxs chunk.txs chunk.confirmedTxsToRemove

/-- The bitmap has a flag for every transaction. -/
def Complete (chunk : MempoolChunk Tx) : Prop := chunk.confirmedTxsToRemove.length = chunk.txs.length

/-- The bitmap does not reach past the transactions. -/
def Short (chunk : MempoolChunk Tx) : Prop := chunk.confirmedTxsToRemove.length ≤ chunk.txs.length

def Removable (chunk : MempoolChunk Tx) : Prop := chunk.Complete ∨ ClearTail chunk.confirmedTxsToRemove

def swapRemove (chunk : MempoolChunk Tx) (i : Nat) : MempoolChunk Tx where
  txs := Vec.swapRemove chunk.txs i
  confirmedTxsToRemove := Vec.swapRemove chunk.confirmedTxsToRemove i

/-- One round of the removal: the transaction and its flag go, everything else keeps its flag. -/
theorem swapRemove_spec {chunk : MempoolChunk Tx} {i : Nat} (short : chunk.Short) (removable : chunk.Removable)
    (set : chunk.confirmedTxsToRemove[i]? = some true) :
    (chunk.swapRemove i).Short ∧ (chunk.swapRemove i).Removable ∧
      ∃ tx, chunk.marked.Perm ((tx, true) :: (chunk.swapRemove i).marked) := by
  obtain ⟨inside, value⟩ := List.getElem?_eq_some_iff.mp set
  have within : i < chunk.marked.length := by
    rw [marked, length_markedTxs]
    exact inside.trans_le short
  have aligned : chunk.confirmedTxsToRemove.length = chunk.txs.length ∨
      i + 1 = chunk.confirmedTxsToRemove.length ∨ chunk.confirmedTxsToRemove.getLast? = some false :=
    removable.imp_right (fun clear => clear.aligned set)
  have entry : ∃ tx, chunk.marked[i] = (tx, true) := by
    have found := getElem?_markedTxs chunk.txs chunk.confirmedTxsToRemove i
    rw [List.getD_eq_getElem?_getD, set] at found
    obtain ⟨tx, _, same⟩ := Option.map_eq_some_iff.mp (found.symm.trans (List.getElem?_eq_getElem within))
    exact ⟨tx, same.symm⟩
  refine ⟨?_, ?_, ?_⟩
  · show (Vec.swapRemove _ i).length ≤ (Vec.swapRemove _ i).length
    rw [length_swapRemove, length_swapRemove]
    exact Nat.sub_le_sub_right short 1
  · cases removable with
    | inl complete =>
      left
      show (Vec.swapRemove _ i).length = (Vec.swapRemove _ i).length
      rw [length_swapRemove, length_swapRemove, complete]
    | inr clear => exact .inr (clear.swapRemove set)
  · obtain ⟨tx, same⟩ := entry
    have moved : (chunk.swapRemove i).marked = Vec.swapRemove chunk.marked i := markedTxs_swapRemove short aligned
    refine ⟨tx, ?_⟩
    rw [moved, ← same]
    exact swapRemove_perm within

/-- The removal leaves exactly the transactions whose flag is not set, and counts the others. -/
theorem removeLoop_spec {fuel i : Nat} {chunk : MempoolChunk Tx} (numRemoved : BitVec 64) (short : chunk.Short)
    (removable : chunk.Removable) (passed : ∀ j < i, chunk.confirmedTxsToRemove[j]? ≠ some true)
    (enough : chunk.confirmedTxsToRemove.length - i < fuel) :
    ∃ chunk' k, removeLoop fuel i chunk numRemoved = .ok (chunk', numRemoved + BitVec.ofNat 64 k) ∧
      chunk.size = chunk'.size + k ∧ true ∉ chunk'.confirmedTxsToRemove ∧ chunk'.Short ∧
      chunk'.marked.Perm (chunk.marked.filter (fun entry => !entry.2)) := by
  induction fuel generalizing i chunk numRemoved with
  | zero => exact absurd enough (Nat.not_lt_zero _)
  | succ fuel ih =>
    unfold removeLoop
    cases entry : chunk.confirmedTxsToRemove[i]? with
    | none =>
      have clear : true ∉ chunk.confirmedTxsToRemove := by
        intro member
        obtain ⟨j, found⟩ := List.getElem?_of_mem member
        have inside := (List.getElem?_eq_some_iff.mp found).1
        exact passed j (inside.trans_le (List.getElem?_eq_none_iff.mp entry)) found
      refine ⟨chunk, 0, ?_, rfl, clear, short, ?_⟩
      · show Except.ok (chunk, numRemoved) = _
        rw [BitVec.add_zero]
      · have all : ∀ tx ∈ chunk.txs, ((fun entry : Tx × Bool => !entry.2) ∘ fun tx => (tx, false)) tx = true := fun _ _ => rfl
        rw [marked, markedTxs_of_clear clear, List.filter_map, List.filter_eq_self.mpr all]
    | some flag =>
      have inside := (List.getElem?_eq_some_iff.mp entry).1
      cases flag with
      | false =>
        have passed' : ∀ j < i + 1, chunk.confirmedTxsToRemove[j]? ≠ some true := by
          intro j before
          by_cases here : j = i
          · rw [here, entry]
            decide
          · exact passed j (by omega)
        exact ih numRemoved short removable passed' (by omega)
      | true =>
        obtain ⟨short', removable', tx, moved⟩ := swapRemove_spec short removable entry
        have passed' : ∀ j < i, (chunk.swapRemove i).confirmedTxsToRemove[j]? ≠ some true := by
          intro j before
          show (Vec.swapRemove _ i)[j]? ≠ _
          rw [getElem?_swapRemove, if_neg (Nat.ne_of_gt before)]
          split
          · exact passed j before
          · decide
        have enough' : (chunk.swapRemove i).confirmedTxsToRemove.length - i < fuel := by
          show (Vec.swapRemove _ i).length - i < fuel
          rw [length_swapRemove]
          omega
        have within : i < chunk.txs.length := inside.trans_le short
        have size : chunk.size = (chunk.swapRemove i).size + 1 := by
          show chunk.txs.length = (Vec.swapRemove chunk.txs i).length + 1
          rw [length_swapRemove]
          omega
        obtain ⟨chunk', k, run, count, clear, short'', left⟩ :=
          ih (numRemoved + 1) short' removable' passed' enough'
        refine ⟨chunk', k + 1, ?_, by omega, clear, short'', ?_⟩
        · show (if i < chunk.txs.length then _ else _) = _
          rw [if_pos within]
          refine run.trans ?_
          rw [BitVec.add_assoc, Nat.add_comm k 1, BitVec.ofNat_add]
          rfl
        · have kept := moved.filter (fun entry => !entry.2)
          rw [List.filter_cons_of_neg (by simp)] at kept
          exact left.trans kept.symm

theorem removeConfirmedTxs_spec {chunk : MempoolChunk Tx} (short : chunk.Short) (removable : chunk.Removable) :
    ∃ chunk' k, chunk.removeConfirmedTxs = .ok (chunk', BitVec.ofNat 64 k) ∧ chunk.size = chunk'.size + k ∧
      chunk'.Short ∧ chunk'.marked.Perm (chunk.marked.filter (fun entry => !entry.2)) := by
  obtain ⟨chunk', k, run, count, _, short', left⟩ := removeLoop_spec 0 short removable
    (fun j before => absurd before (Nat.not_lt_zero j)) (Nat.lt_succ_self _)
  rw [zero_add] at run
  exact ⟨chunk', k, run, count, short', left⟩

theorem join_spec {chunk other : MempoolChunk Tx} (short : chunk.Short) (short' : other.Short)
    (aligned : chunk.Complete ∨ true ∉ other.confirmedTxsToRemove) :
    (chunk.join other).Short ∧ (chunk.join other).marked = chunk.marked ++ other.marked := by
  constructor
  · show (_ ++ _ : List Bool).length ≤ (_ ++ _ : List Tx).length
    rw [List.length_append, List.length_append]
    exact Nat.add_le_add short short'
  · exact markedTxs_append short aligned

end MempoolChunk

/-- The transactions of all chunks, each with its flag. -/
def contents (chunks : List (MempoolChunk Tx)) : List (Tx × Bool) := chunks.flatMap MempoolChunk.marked

def totalSize (chunks : List (MempoolChunk Tx)) : Nat := (chunks.map MempoolChunk.size).sum

@[simp] theorem contents_cons (chunk : MempoolChunk Tx) (chunks : List (MempoolChunk Tx)) :
    contents (chunk :: chunks) = chunk.marked ++ contents chunks := List.flatMap_cons

@[simp] theorem contents_append (chunks chunks' : List (MempoolChunk Tx)) :
    contents (chunks ++ chunks') = contents chunks ++ contents chunks' := List.flatMap_append

theorem length_contents (chunks : List (MempoolChunk Tx)) : (contents chunks).length = totalSize chunks := by
  unfold contents totalSize
  rw [List.length_flatMap]
  congr 1
  apply List.map_congr_left
  intro chunk _
  exact length_markedTxs _ _

/-- What the removal makes of some chunks: the flagged transactions are gone, and `deleted` counts them. -/
structure Removed (chunks chunks' : List (MempoolChunk Tx)) (deleted : BitVec 64) : Prop where
  short : ∀ chunk ∈ chunks', chunk.Short
  left : (contents chunks').Perm ((contents chunks).filter (fun entry => !entry.2))
  count : ∃ k, deleted = BitVec.ofNat 64 k ∧ totalSize chunks = totalSize chunks' + k

namespace Removed

variable {chunks chunks' others others' : List (MempoolChunk Tx)} {deleted deleted' : BitVec 64}

theorem nil : Removed ([] : List (MempoolChunk Tx)) [] 0 where
  short := fun _ absurd => (List.not_mem_nil absurd).elim
  left := List.Perm.refl _
  count := ⟨0, rfl, rfl⟩

theorem append (first : Removed chunks chunks' deleted) (second : Removed others others' deleted') :
    Removed (chunks ++ others) (chunks' ++ others') (deleted + deleted') where
  short := by
    intro chunk member
    exact (List.mem_append.mp member).elim (first.short chunk) (second.short chunk)
  left := by
    rw [contents_append, contents_append, List.filter_append]
    exact first.left.append second.left
  count := by
    obtain ⟨k, rfl, total⟩ := first.count
    obtain ⟨k', rfl, total'⟩ := second.count
    refine ⟨k + k', (BitVec.ofNat_add k k').symm, ?_⟩
    unfold totalSize at *
    rw [List.map_append, List.map_append, List.sum_append, List.sum_append]
    omega

theorem single {chunk chunk' : MempoolChunk Tx} {k : Nat} (size : chunk.size = chunk'.size + k) (short : chunk'.Short)
    (left : chunk'.marked.Perm (chunk.marked.filter (fun entry => !entry.2))) :
    Removed [chunk] [chunk'] (BitVec.ofNat 64 k) where
  short := by
    intro other member
    rwa [List.mem_singleton.mp member]
  left := by
    simpa [contents] using left
  count := ⟨k, rfl, by simpa [totalSize] using size⟩

end Removed

/-- A body of the parallel removal never faults. -/
theorem Mempool.removeRange_spec {range : List (MempoolChunk Tx)}
    (sound : ∀ chunk ∈ range, chunk.Short ∧ chunk.Removable) :
    ∃ left deleted, Mempool.removeRange range = .ok (left, deleted) ∧ Removed range left deleted := by
  suffices removed : ∃ removed, range.mapM MempoolChunk.removeConfirmedTxs = .ok removed ∧
      Removed range (removed.map (·.1)) (removed.map (·.2)).sum by
    obtain ⟨removed, run, done⟩ := removed
    refine ⟨_, _, ?_, done⟩
    unfold removeRange
    rw [run]
    rfl
  induction range with
  | nil => exact ⟨[], rfl, Removed.nil⟩
  | cons chunk range ih =>
    obtain ⟨short, removable⟩ := sound chunk List.mem_cons_self
    obtain ⟨chunk', k, once, size, short', left⟩ := MempoolChunk.removeConfirmedTxs_spec short removable
    obtain ⟨removed, run, done⟩ := ih (fun chunk member => sound chunk (List.mem_cons_of_mem _ member))
    refine ⟨(chunk', BitVec.ofNat 64 k) :: removed, ?_, (Removed.single size short' left).append done⟩
    rw [List.mapM_cons, once, run]
    rfl

namespace Mempool

theorem removeConfirmedTxs_spec {pool : Mempool Tx} (division : Parallel.Division (MempoolChunk Tx))
    (sound : ∀ chunk ∈ pool.mempool, chunk.Short ∧ chunk.Removable) :
    ∃ left deleted, pool.removeConfirmedTxs division =
        .ok { pool with mempool := left, mempoolSize := pool.mempoolSize - deleted } ∧
      Removed pool.mempool left deleted := by
  suffices removed : ∀ ranges : List (List (MempoolChunk Tx)),
      (∀ chunk ∈ ranges.flatten, chunk.Short ∧ chunk.Removable) →
      ∃ removed, ranges.mapM removeRange = .ok removed ∧
        Removed ranges.flatten (removed.map (·.1)).flatten (removed.map (·.2)).sum by
    obtain ⟨removed, run, done⟩ := removed (division.run pool.mempool) (by rwa [division.covers])
    rw [division.covers] at done
    refine ⟨_, _, ?_, done⟩
    have subtracted : ∀ (size : BitVec 64), removed.foldl (fun size range => size - range.2) size =
        size - (removed.map (·.2)).sum := by
      clear run done
      induction removed with
      | nil => intro size; exact (sub_zero size).symm
      | cons range removed ih =>
        intro size
        rw [List.foldl_cons, ih, List.map_cons, List.sum_cons, sub_sub]
    unfold removeConfirmedTxs
    rw [run, ← subtracted]
    rfl
  intro ranges sound
  induction ranges with
  | nil => exact ⟨[], rfl, Removed.nil⟩
  | cons range ranges ih =>
    rw [List.flatten_cons, List.forall_mem_append] at sound
    obtain ⟨left, deleted, once, first⟩ := removeRange_spec sound.1
    obtain ⟨removed, run, done⟩ := ih sound.2
    refine ⟨(left, deleted) :: removed, ?_, first.append done⟩
    rw [List.mapM_cons, once, run]
    rfl

/-- Every join that the loop makes keeps the flags: the first bitmap is complete or the second sets none. -/
def JoinsAligned (target : Nat) : Nat → Nat → List (MempoolChunk Tx) → Prop
  | 0, _, _ => True
  | fuel + 1, i, mempool =>
    match mempool[i]?, mempool[i + 1]? with
    | some chunk, some next =>
      if chunk.size + next.size < target then
        (chunk.Complete ∨ true ∉ next.confirmedTxsToRemove) ∧
          JoinsAligned target fuel i (swapRemove (mempool.set i (chunk.join next)) (i + 1))
      else JoinsAligned target fuel (i + 1) mempool
    | _, _ => True

/-- One join: the two chunks become one and every other chunk stays. -/
theorem join_perm {mempool : List (MempoolChunk Tx)} {i : Nat} {chunk next : MempoolChunk Tx} (joined : MempoolChunk Tx)
    (found : mempool[i]? = some chunk) (found' : mempool[i + 1]? = some next) :
    ∃ others, mempool.Perm (chunk :: next :: others) ∧
      (swapRemove (mempool.set i joined) (i + 1)).Perm (joined :: others) := by
  obtain ⟨inside, value⟩ := List.getElem?_eq_some_iff.mp found
  obtain ⟨inside', value'⟩ := List.getElem?_eq_some_iff.mp found'
  have last : i + 1 < (mempool.set i joined).length := by rwa [List.length_set]
  have taken := swapRemove_perm last
  rw [List.getElem_set_ne (by omega), value'] at taken
  have whole : mempool.Perm (chunk :: mempool.eraseIdx i) := value ▸ (List.getElem_cons_eraseIdx_perm inside).symm
  have replaced : (mempool.set i joined).Perm (joined :: mempool.eraseIdx i) := List.set_perm_cons_eraseIdx inside joined
  have member : next ∈ mempool.eraseIdx i := by
    apply List.mem_of_getElem? (i := i)
    rwa [List.getElem?_eraseIdx_of_ge (Nat.le_refl i)]
  obtain ⟨before, after, split⟩ := List.append_of_mem member
  have rest : (mempool.eraseIdx i).Perm (next :: (before ++ after)) := split ▸ List.perm_middle
  refine ⟨before ++ after, whole.trans (rest.cons chunk), ?_⟩
  have both : (next :: swapRemove (mempool.set i joined) (i + 1)).Perm (next :: joined :: (before ++ after)) :=
    taken.symm.trans (replaced.trans ((rest.cons joined).trans (List.Perm.swap _ _ _)))
  exact both.cons_inv

theorem joinLoop_spec {target fuel i : Nat} {mempool : List (MempoolChunk Tx)} (nonempty : mempool ≠ [])
    (short : ∀ chunk ∈ mempool, chunk.Short) (aligned : JoinsAligned target fuel i mempool)
    (enough : mempool.length - i < fuel) :
    ∃ joined, joinLoop target fuel i mempool = .ok joined ∧ (∀ chunk ∈ joined, chunk.Short) ∧
      (contents joined).Perm (contents mempool) := by
  induction fuel generalizing i mempool with
  | zero => exact absurd enough (Nat.not_lt_zero _)
  | succ fuel ih =>
    have size : lastIndex mempool.length = mempool.length - 1 :=
      if_neg (fun empty => nonempty (List.length_eq_zero_iff.mp empty))
    unfold joinLoop
    rw [size]
    by_cases inside : i < mempool.length - 1
    · have found : mempool[i]? = some mempool[i] := List.getElem?_eq_getElem (by omega)
      have found' : mempool[i + 1]? = some mempool[i + 1] := List.getElem?_eq_getElem (by omega)
      unfold JoinsAligned at aligned
      rw [found, found'] at aligned
      rw [if_pos inside, found, found']
      dsimp only at aligned ⊢
      by_cases small : mempool[i].size + mempool[i + 1].size < target
      · rw [if_pos small] at aligned ⊢
        obtain ⟨here, later⟩ := aligned
        obtain ⟨others, whole, replaced⟩ := join_perm (mempool[i].join mempool[i + 1]) found found'
        have short₀ := short _ (List.getElem_mem (by omega : i < mempool.length))
        have short₁ := short _ (List.getElem_mem (by omega : i + 1 < mempool.length))
        obtain ⟨shortJoined, marked⟩ := MempoolChunk.join_spec short₀ short₁ here
        have short' : ∀ chunk ∈ swapRemove (mempool.set i (mempool[i].join mempool[i + 1])) (i + 1), chunk.Short := by
          intro chunk member
          cases List.mem_cons.mp (replaced.mem_iff.mp member) with
          | inl same => rwa [same]
          | inr member =>
            exact short chunk (whole.mem_iff.mpr (List.mem_cons_of_mem _ (List.mem_cons_of_mem _ member)))
        have nonempty' : swapRemove (mempool.set i (mempool[i].join mempool[i + 1])) (i + 1) ≠ [] := by
          intro empty
          rw [empty] at replaced
          exact List.cons_ne_nil _ _ replaced.symm.eq_nil
        have enough' : (swapRemove (mempool.set i (mempool[i].join mempool[i + 1])) (i + 1)).length - i < fuel := by
          rw [length_swapRemove, List.length_set]
          omega
        obtain ⟨joined, run, shortAll, same⟩ := ih nonempty' short' later enough'
        refine ⟨joined, run, shortAll, same.trans ?_⟩
        calc List.Perm (contents _) (contents (_ :: others)) := replaced.flatMap_right _
          List.Perm _ (contents (mempool[i] :: mempool[i + 1] :: others)) := by
            rw [contents_cons, contents_cons, contents_cons, marked, List.append_assoc]
          List.Perm _ (contents mempool) := (whole.flatMap_right _).symm
      · rw [if_neg small] at aligned ⊢
        exact ih nonempty short aligned (by omega)
    · rw [if_neg inside]
      exact ⟨mempool, rfl, short, List.Perm.refl _⟩

end Mempool

/-- The calls that the node makes: a bitmap is for an existing chunk and has the chunk's size. -/
def MempoolOp.Called (pool : Mempool Tx) : MempoolOp Tx → Prop
  | .setConfirmedTxs idx bitmap => ∃ chunk, pool.mempool[idx]? = some chunk ∧ bitmap.length = chunk.size
  | _ => True

/-- The calls that keep the flags with their transactions. -/
def MempoolOp.Aligned (pool : Mempool Tx) : MempoolOp Tx → Prop
  | .removeConfirmedTxs _ => ∀ chunk ∈ pool.mempool, chunk.Removable
  | .joinSmallChunks =>
    pool.mempool ≠ [] ∧ Mempool.JoinsAligned pool.targetChunkSize (pool.mempool.length + 1) 0 pool.mempool
  | _ => True

/-- What the node may hold: no bitmap reaches past its chunk, buffered chunks have none, and the counter is right. -/
structure Mempool.Intact (pool : Mempool Tx) : Prop where
  short : ∀ chunk ∈ pool.mempool, chunk.Short
  buffered : ∀ chunk ∈ pool.bufferedMempool, chunk.confirmedTxsToRemove = []
  size : pool.mempoolSize = BitVec.ofNat 64 (totalSize pool.mempool)

/-- What a call does to the transactions and their flags. -/
def MempoolOp.Effect (pool pool' : Mempool Tx) : MempoolOp Tx → Prop
  | .addToMempoolBuffer txs =>
    pool'.mempool = pool.mempool ∧ contents pool'.bufferedMempool = contents pool.bufferedMempool ++ txs.map (fun tx => (tx, false))
  | .pushMempoolBufferToMempool =>
    (contents pool'.mempool).Perm (contents pool.mempool ++ contents pool.bufferedMempool) ∧ pool'.bufferedMempool = []
  | .setConfirmedTxs idx bitmap =>
    pool'.bufferedMempool = pool.bufferedMempool ∧ ∃ chunk others, pool.mempool[idx]? = some chunk ∧
      (contents pool.mempool).Perm (chunk.marked ++ others) ∧
      (contents pool'.mempool).Perm (chunk.txs.zip bitmap ++ others)
  | .removeConfirmedTxs _ =>
    pool'.bufferedMempool = pool.bufferedMempool ∧
      (contents pool'.mempool).Perm ((contents pool.mempool).filter (fun entry => !entry.2))
  | .clearConfirmedTxsBitmaps _ =>
    pool'.bufferedMempool = pool.bufferedMempool ∧
      (contents pool'.mempool).Perm ((contents pool.mempool).map (fun entry => (entry.1, false)))
  | .joinSmallChunks =>
    pool'.bufferedMempool = pool.bufferedMempool ∧ (contents pool'.mempool).Perm (contents pool.mempool)

theorem totalSize_append (chunks chunks' : List (MempoolChunk Tx)) :
    totalSize (chunks ++ chunks') = totalSize chunks + totalSize chunks' := by
  unfold totalSize
  rw [List.map_append, List.sum_append]

namespace Mempool

variable {pool : Mempool Tx}

theorem addToMempoolBuffer_spec (intact : pool.Intact) (txs : List Tx) :
    (pool.addToMempoolBuffer txs).Intact ∧
      (MempoolOp.addToMempoolBuffer txs).Effect pool (pool.addToMempoolBuffer txs) := by
  refine ⟨⟨intact.short, ?_, intact.size⟩, rfl, ?_⟩
  · show ∀ chunk ∈ pool.bufferedMempool ++ [MempoolChunk.new txs], _
    rw [List.forall_mem_append]
    refine ⟨intact.buffered, ?_⟩
    intro chunk member
    rw [List.mem_singleton.mp member]
    rfl
  · show contents (pool.bufferedMempool ++ [MempoolChunk.new txs]) = _
    rw [contents_append, contents_cons]
    unfold MempoolChunk.marked MempoolChunk.new
    rw [markedTxs_of_clear List.not_mem_nil]
    exact congrArg _ (List.append_nil _)

theorem pushMempoolBufferToMempool_spec (intact : pool.Intact) :
    pool.pushMempoolBufferToMempool.Intact ∧
      MempoolOp.Effect pool pool.pushMempoolBufferToMempool .pushMempoolBufferToMempool := by
  have added : ∀ (chunks : List (MempoolChunk Tx)) (size : BitVec 64),
      chunks.foldl (fun size chunk => size + BitVec.ofNat 64 chunk.size) size = size + BitVec.ofNat 64 (totalSize chunks) := by
    intro chunks
    induction chunks with
    | nil => intro size; exact (add_zero size).symm
    | cons chunk chunks ih =>
      intro size
      rw [List.foldl_cons, ih, add_assoc, ← BitVec.ofNat_add]
      rfl
  refine ⟨⟨?_, fun _ absurd => (List.not_mem_nil absurd).elim, ?_⟩, ?_, rfl⟩
  · show ∀ chunk ∈ pool.mempool ++ pool.bufferedMempool, chunk.Short
    rw [List.forall_mem_append]
    refine ⟨intact.short, ?_⟩
    intro chunk member
    unfold MempoolChunk.Short
    rw [intact.buffered chunk member]
    exact Nat.zero_le _
  · show pool.bufferedMempool.foldl _ pool.mempoolSize = BitVec.ofNat 64 (totalSize (pool.mempool ++ pool.bufferedMempool))
    rw [added, intact.size, totalSize_append, BitVec.ofNat_add]
  · show (contents (pool.mempool ++ pool.bufferedMempool)).Perm _
    rw [contents_append]

theorem setConfirmedTxs_spec (intact : pool.Intact) {idx : Nat} {bitmap : List Bool} {chunk : MempoolChunk Tx}
    (found : pool.mempool[idx]? = some chunk) (size : bitmap.length = chunk.size) :
    ∃ pool', pool.setConfirmedTxs idx bitmap = .ok pool' ∧ pool'.Intact ∧
      (MempoolOp.setConfirmedTxs idx bitmap).Effect pool pool' := by
  obtain ⟨inside, value⟩ := List.getElem?_eq_some_iff.mp found
  let flagged : MempoolChunk Tx := { chunk with confirmedTxsToRemove := bitmap }
  have whole : pool.mempool.Perm (chunk :: pool.mempool.eraseIdx idx) :=
    value ▸ (List.getElem_cons_eraseIdx_perm inside).symm
  have replaced : (pool.mempool.set idx flagged).Perm (flagged :: pool.mempool.eraseIdx idx) :=
    List.set_perm_cons_eraseIdx inside flagged
  refine ⟨{ pool with mempool := pool.mempool.set idx flagged }, ?_, ⟨?_, intact.buffered, ?_⟩, rfl, chunk,
    contents (pool.mempool.eraseIdx idx), found, ?_, ?_⟩
  · unfold setConfirmedTxs
    rw [found]
    unfold MempoolChunk.setConfirmedTxs
    dsimp only
    rw [if_pos (show bitmap.length = chunk.txs.length from size)]
    rfl
  · intro other member
    cases List.mem_cons.mp (replaced.mem_iff.mp member) with
    | inl same =>
      rw [same]
      exact Nat.le_of_eq size
    | inr member => exact intact.short other (whole.mem_iff.mpr (List.mem_cons_of_mem _ member))
  · show pool.mempoolSize = BitVec.ofNat 64 (totalSize (pool.mempool.set idx flagged))
    have total : totalSize (pool.mempool.set idx flagged) = totalSize pool.mempool := by
      unfold totalSize
      rw [(replaced.map MempoolChunk.size).sum_eq, (whole.map MempoolChunk.size).sum_eq]
      rfl
    rw [total, intact.size]
  · exact whole.flatMap_right _
  · have complete : flagged.marked = chunk.txs.zip bitmap := markedTxs_of_complete size
    rw [← complete]
    exact replaced.flatMap_right _

theorem clearConfirmedTxsBitmaps_spec (intact : pool.Intact) (division : Parallel.Division (MempoolChunk Tx)) :
    (pool.clearConfirmedTxsBitmaps division).Intact ∧
      (MempoolOp.clearConfirmedTxsBitmaps division).Effect pool (pool.clearConfirmedTxsBitmaps division) := by
  have cleared : (pool.clearConfirmedTxsBitmaps division).mempool =
      pool.mempool.map MempoolChunk.clearConfirmedTxsBitmap := by
    show ((division.run pool.mempool).map (List.map _)).flatten = _
    rw [← List.map_flatten, division.covers]
  refine ⟨⟨?_, intact.buffered, ?_⟩, rfl, ?_⟩
  · rw [cleared, List.forall_mem_map]
    intro chunk _
    exact Nat.zero_le _
  · rw [cleared]
    unfold totalSize
    rw [List.map_map]
    exact intact.size
  · rw [cleared]
    apply List.Perm.of_eq
    unfold contents
    rw [List.flatMap_map, List.map_flatMap]
    apply List.flatMap_congr
    intro chunk _
    show markedTxs chunk.txs [] = (markedTxs chunk.txs chunk.confirmedTxsToRemove).map ((fun tx => (tx, false)) ∘ Prod.fst)
    rw [markedTxs_of_clear List.not_mem_nil, ← List.map_map, markedTxs_fst]

/-- One call keeps what the node holds and does exactly what it is for. -/
theorem apply_spec (intact : pool.Intact) {op : MempoolOp Tx} (called : op.Called pool) (aligned : op.Aligned pool) :
    ∃ pool', pool.apply op = .ok pool' ∧ pool'.Intact ∧ op.Effect pool pool' := by
  cases op with
  | addToMempoolBuffer txs => exact ⟨_, rfl, addToMempoolBuffer_spec intact txs⟩
  | pushMempoolBufferToMempool => exact ⟨_, rfl, pushMempoolBufferToMempool_spec intact⟩
  | setConfirmedTxs idx bitmap =>
    obtain ⟨chunk, found, size⟩ := called
    exact setConfirmedTxs_spec intact found size
  | removeConfirmedTxs division =>
    obtain ⟨left, deleted, run, removed⟩ :=
      removeConfirmedTxs_spec division (fun chunk member => ⟨intact.short chunk member, aligned chunk member⟩)
    obtain ⟨k, rfl, total⟩ := removed.count
    refine ⟨_, run, ⟨removed.short, intact.buffered, ?_⟩, rfl, removed.left⟩
    show pool.mempoolSize - BitVec.ofNat 64 k = BitVec.ofNat 64 (totalSize left)
    rw [intact.size, total, BitVec.ofNat_add]
    exact add_sub_cancel_right _ _
  | clearConfirmedTxsBitmaps division => exact ⟨_, rfl, clearConfirmedTxsBitmaps_spec intact division⟩
  | joinSmallChunks =>
    obtain ⟨joined, run, short, same⟩ := joinLoop_spec aligned.1 intact.short aligned.2 (Nat.lt_succ_self _)
    refine ⟨{ pool with mempool := joined }, ?_, ⟨short, intact.buffered, ?_⟩, rfl, same⟩
    · show pool.joinSmallChunks = _
      unfold joinSmallChunks
      rw [run]
      rfl
    · show pool.mempoolSize = BitVec.ofNat 64 (totalSize joined)
      rw [← length_contents, same.length_eq, length_contents, intact.size]

/-- The mempools that runs of such calls reach. -/
inductive Reached (target : Nat) : Mempool Tx → Prop
  | new : Reached target (new target)
  | call {pool pool' : Mempool Tx} {op : MempoolOp Tx} (reached : Reached target pool) (called : op.Called pool)
      (aligned : op.Aligned pool) (run : pool.apply op = .ok pool') : Reached target pool'

theorem Reached.intact {target : Nat} (reached : Reached target pool) : pool.Intact := by
  induction reached with
  | new =>
    exact ⟨fun _ absurd => (List.not_mem_nil absurd).elim, fun _ absurd => (List.not_mem_nil absurd).elim, rfl⟩
  | call _ called aligned run ih =>
    obtain ⟨pool', run', intact, _⟩ := apply_spec ih called aligned
    cases run.symm.trans run'
    exact intact

end Mempool

/-- In every reached mempool the counter is right, and the next call returns and keeps every other transaction
with its flag. -/
theorem mempool_keeps_transactions {target : Nat} {pool : Mempool Tx} (reached : Mempool.Reached target pool) :
    pool.mempoolSize = BitVec.ofNat 64 (totalSize pool.mempool) ∧
      ∀ op : MempoolOp Tx, op.Called pool → op.Aligned pool →
        ∃ pool', pool.apply op = .ok pool' ∧ op.Effect pool pool' ∧
          pool'.mempoolSize = BitVec.ofNat 64 (totalSize pool'.mempool) := by
  refine ⟨reached.intact.size, ?_⟩
  intro op called aligned
  obtain ⟨pool', run, intact, effect⟩ := Mempool.apply_spec reached.intact called aligned
  exact ⟨pool', run, effect, intact.size⟩

/-- A pool after a block: two of three transactions are flagged. -/
def flaggedPool : Mempool Nat where
  mempool := [{ txs := [1, 2, 3], confirmedTxsToRemove := [true, false, true] }]
  bufferedMempool := []
  mempoolSize := 3
  targetChunkSize := 10

theorem flaggedPool_reached : Mempool.Reached 10 flaggedPool :=
  Mempool.Reached.new
    |>.call (show (MempoolOp.addToMempoolBuffer [1, 2, 3]).Called _ from trivial) trivial rfl
    |>.call (show MempoolOp.pushMempoolBufferToMempool.Called _ from trivial) trivial rfl
    |>.call (show (MempoolOp.setConfirmedTxs 0 [true, false, true]).Called _ from ⟨_, rfl, rfl⟩) trivial rfl

theorem mempool_keeps_transactions_sample :
    ∃ pool', flaggedPool.apply (.removeConfirmedTxs Parallel.Division.single) = .ok pool' ∧
      (contents pool'.mempool).Perm [(2, false)] ∧ pool'.mempoolSize = BitVec.ofNat 64 (totalSize pool'.mempool) := by
  have aligned : (MempoolOp.removeConfirmedTxs Parallel.Division.single).Aligned flaggedPool := by
    intro chunk member
    left
    rw [List.mem_singleton.mp member]
    rfl
  have called : (MempoolOp.removeConfirmedTxs Parallel.Division.single).Called flaggedPool := trivial
  obtain ⟨pool', run, effect, size⟩ := (mempool_keeps_transactions flaggedPool_reached).2 _ called aligned
  exact ⟨pool', run, effect.2, size⟩

/-- With no chunk at all, `mempool.size() - 1` wraps and the first joint is read outside the vector. With a bitmap on
the second chunk only, the joined bitmap flags a transaction of the first: 1 goes in place of 3. -/
theorem join_misplaces_flags :
    (Mempool.new 10 : Mempool Nat).apply .joinSmallChunks = .error .outOfRange ∧
      (([.addToMempoolBuffer [1, 2], .addToMempoolBuffer [3], .pushMempoolBufferToMempool, .setConfirmedTxs 1 [true],
          .joinSmallChunks, .removeConfirmedTxs Parallel.Division.single] : List (MempoolOp Nat)).foldlM
        Mempool.apply (Mempool.new 10)).map (fun pool => contents pool.mempool) = .ok [(3, false), (2, false)] := by
  decide

end Speedex
