import Mathlib.Data.List.GetD
import Mathlib.Algebra.BigOperators.Group.List.Basic
import Speedex.Block.Iblt

set_option autoImplicit false

/- What `decode` finds in the difference of two tables. Every cell is the sum of the keys in it that are
not decoded yet, with the sign of their side. -/
namespace Speedex

variable {keyBytes checksumWords numHashFns cellsPerRegion : Nat}

namespace RawBytes

variable {n : Nat} (a b c : RawBytes n)

theorem xor_comm : a.xor b = b.xor a := funext (fun _ => UInt8.xor_comm _ _)

theorem xor_assoc : (a.xor b).xor c = a.xor (b.xor c) := funext (fun _ => UInt8.xor_assoc _ _ _)

theorem zero_xor : RawBytes.xor (fun _ => 0) a = a := funext (fun _ => UInt8.zero_xor)

theorem xor_self : a.xor a = fun _ => 0 := funext (fun _ => UInt8.xor_self)

end RawBytes

/-- Cells add up: keys and checksums by xor, counts as machine words. -/
instance : Add (IBLTCell keyBytes checksumWords) where
  add a b := ⟨a.key.xor b.key, a.checksum.xor b.checksum, a.count + b.count⟩

instance : Neg (IBLTCell keyBytes checksumWords) where
  neg a := ⟨a.key, a.checksum, -a.count⟩

instance : Zero (IBLTCell keyBytes checksumWords) := ⟨IBLTCell.clear⟩

instance : Sub (IBLTCell keyBytes checksumWords) := ⟨IBLTCell.removePureCell⟩

instance : AddCommGroup (IBLTCell keyBytes checksumWords) where
  nsmul := nsmulRec
  zsmul := zsmulRec
  add_assoc a b c := by
    apply IBLTCell.ext
    · exact RawBytes.xor_assoc _ _ _
    · exact RawBytes.xor_assoc _ _ _
    · exact BitVec.add_assoc _ _ _
  zero_add a := by
    apply IBLTCell.ext
    · exact RawBytes.zero_xor _
    · exact RawBytes.zero_xor _
    · exact BitVec.zero_add _
  add_zero a := by
    apply IBLTCell.ext
    · exact (RawBytes.xor_comm _ _).trans (RawBytes.zero_xor _)
    · exact (RawBytes.xor_comm _ _).trans (RawBytes.zero_xor _)
    · exact BitVec.add_zero _
  neg_add_cancel a := by
    apply IBLTCell.ext
    · exact RawBytes.xor_self _
    · exact RawBytes.xor_self _
    · exact BitVec.add_left_neg _
  add_comm a b := by
    apply IBLTCell.ext
    · exact RawBytes.xor_comm _ _
    · exact RawBytes.xor_comm _ _
    · exact BitVec.add_comm _ _
  sub_eq_add_neg a b := by
    apply IBLTCell.ext
    · rfl
    · rfl
    · exact BitVec.sub_eq_add_neg _ _

namespace IBLTCell

theorem insertKey_eq (cell : IBLTCell keyBytes checksumWords) (key : RawBytes keyBytes)
    (checksum : RawBytes (8 * checksumWords)) : cell.insertKey key checksum = cell + ⟨key, checksum, 1⟩ := rfl

theorem removePureCell_eq (cell other : IBLTCell keyBytes checksumWords) :
    cell.removePureCell other = cell - other := rfl

theorem isPure_eq {computeChecksum : RawBytes keyBytes → RawBytes (8 * checksumWords)}
    {cell : IBLTCell keyBytes checksumWords} (unit : cell.count = 1 ∨ cell.count = -1)
    (same : computeChecksum cell.key = cell.checksum) : cell.isPure computeChecksum = cell.count.toInt := by
  rw [isPure, if_neg (not_not_intro unit), if_pos same]

theorem clear_eq : (clear : IBLTCell keyBytes checksumWords) = 0 := rfl

end IBLTCell

theorem cellIdx_inj {region region' : Fin numHashFns} {i i' : Fin cellsPerRegion} :
    cellIdx region i = cellIdx region' i' ↔ region = region' ∧ i = i' := by
  rw [cellIdx, cellIdx, finProdFinEquiv.injective.eq_iff, Prod.mk.injEq]

/-- Every cell belongs to a region. -/
theorem exists_cellIdx (c : Fin (numHashFns * cellsPerRegion)) :
    ∃ (region : Fin numHashFns) (i : Fin cellsPerRegion), cellIdx region i = c := by
  obtain ⟨⟨region, i⟩, reached⟩ := finProdFinEquiv.surjective c
  exact ⟨region, i, reached⟩

/-- A loop that updates different cells one after another. -/
theorem foldl_update {n m : Nat} {C : Type} {target : Fin n → Fin m} (distinct : Function.Injective target)
    (f : C → C) {l : List (Fin n)} (nodup : l.Nodup) (cells : Fin m → C) (c : Fin m) :
    l.foldl (fun cells r => Function.update cells (target r) (f (cells (target r)))) cells c =
      if ∃ r ∈ l, target r = c then f (cells c) else cells c := by
  induction l generalizing cells with
  | nil =>
    have outside : ¬ ∃ r ∈ ([] : List (Fin n)), target r = c := by simp
    rw [if_neg outside, List.foldl_nil]
  | cons r l ih =>
    obtain ⟨fresh, nodup⟩ := List.nodup_cons.mp nodup
    rw [List.foldl_cons, ih nodup]
    by_cases here : target r = c
    · have later : ¬ ∃ r' ∈ l, target r' = c := by
        rintro ⟨r', member, there⟩
        exact fresh (distinct (there.trans here.symm) ▸ member)
      rw [if_neg later, if_pos ⟨r, List.mem_cons_self, here⟩, here, Function.update_self]
    · have same : (∃ r' ∈ r :: l, target r' = c) ↔ ∃ r' ∈ l, target r' = c := by
        simp only [List.mem_cons, exists_eq_or_imp, here, false_or]
      rw [Function.update_of_ne (Ne.symm here)]
      simp only [same]

section

variable (hashes : IBLTHashes keyBytes checksumWords numHashFns cellsPerRegion)

/-- A key lies in one cell of every region. -/
def LiesIn (key : RawBytes keyBytes) (c : Fin (numHashFns * cellsPerRegion)) : Prop :=
  ∃ region, cellIdx region (hashes.makeIndices key region) = c

instance (key : RawBytes keyBytes) (c : Fin (numHashFns * cellsPerRegion)) : Decidable (LiesIn hashes key c) :=
  inferInstanceAs (Decidable (∃ _, _))

/-- What an inserted key adds to its cells. -/
def entry (key : RawBytes keyBytes) : IBLTCell keyBytes checksumWords := ⟨key, hashes.computeChecksum key, 1⟩

variable {hashes}

theorem liesIn_cellIdx {key : RawBytes keyBytes} {region : Fin numHashFns} {i : Fin cellsPerRegion} :
    LiesIn hashes key (cellIdx region i) ↔ hashes.makeIndices key region = i := by
  constructor
  · rintro ⟨region', same⟩
    obtain ⟨rfl, there⟩ := cellIdx_inj.mp same
    exact there
  · intro there
    exact ⟨region, congrArg (cellIdx region) there⟩

variable (hashes) in
theorem cellIdx_indices_injective (key : RawBytes keyBytes) :
    Function.Injective (fun region => cellIdx region (hashes.makeIndices key region)) :=
  fun _ _ same => (cellIdx_inj.mp same).1

theorem insertKey_spec (cells : IBLT keyBytes checksumWords numHashFns cellsPerRegion)
    (key : RawBytes keyBytes) (c : Fin (numHashFns * cellsPerRegion)) :
    cells.insertKey hashes key c =
      if LiesIn hashes key c then cells c + entry hashes key else cells c := by
  have updates := foldl_update (cellIdx_indices_injective hashes key)
    (fun cell => cell.insertKey key (hashes.computeChecksum key)) (List.nodup_finRange numHashFns) cells c
  have region : (∃ r ∈ List.finRange numHashFns, cellIdx r (hashes.makeIndices key r) = c) ↔
      LiesIn hashes key c := by
    simp only [List.mem_finRange, true_and, LiesIn]
  simp only [region] at updates
  exact updates

variable (hashes)

/-- The table of a list of keys. -/
def tableOf (keys : List (RawBytes keyBytes)) : IBLT keyBytes checksumWords numHashFns cellsPerRegion :=
  keys.foldl (IBLT.insertKey hashes) IBLT.empty

variable {hashes}

theorem holds_insertKeys {keys : List (RawBytes keyBytes)} (nodup : keys.Nodup)
    {cells : IBLT keyBytes checksumWords numHashFns cellsPerRegion} {s : Finset (RawBytes keyBytes)}
    (holds : Peeling.Holds (LiesIn hashes) (entry hashes) cells s) (fresh : ∀ key ∈ keys, key ∉ s) :
    Peeling.Holds (LiesIn hashes) (entry hashes) (keys.foldl (IBLT.insertKey hashes) cells)
      (s ∪ keys.toFinset) := by
  induction keys generalizing cells s with
  | nil => simpa using holds
  | cons key keys ih =>
    obtain ⟨absent, nodup⟩ := List.nodup_cons.mp nodup
    have inserted := holds.insert (fresh key List.mem_cons_self) (insertKey_spec cells key)
    have whole : s ∪ (key :: keys).toFinset = insert key s ∪ keys.toFinset := by
      rw [List.toFinset_cons, Finset.union_insert, Finset.insert_union]
    rw [whole]
    apply ih nodup inserted
    intro key' member inside
    obtain rfl | inside := Finset.mem_insert.mp inside
    · exact absent member
    · exact fresh key' (List.mem_cons_of_mem _ member) inside

theorem holds_tableOf {keys : List (RawBytes keyBytes)} (nodup : keys.Nodup) :
    Peeling.Holds (LiesIn hashes) (entry hashes) (tableOf hashes keys) keys.toFinset := by
  have bare : Peeling.Holds (LiesIn hashes) (entry hashes)
      (0 : IBLT keyBytes checksumWords numHashFns cellsPerRegion) ∅ := Peeling.Holds.empty
  have holds := holds_insertKeys nodup bare (fun _ _ => Finset.notMem_empty _)
  rwa [Finset.empty_union] at holds

end

/-- Records of one width, laid out one after another. -/
theorem getD_flatMap {α : Type} {f : α → List UInt8} {width : Nat} (even : ∀ a, (f a).length = width) :
    ∀ {l : List α} {i : Nat} (inside : i < l.length) {j : Nat}, j < width →
      (l.flatMap f).getD (i * width + j) 0 = (f l[i]).getD j 0
  | a :: l, 0, _, j, short => by
    rw [List.flatMap_cons, Nat.zero_mul, Nat.zero_add,
      List.getD_append _ _ _ _ (by rw [even]; exact short), List.getElem_cons_zero]
  | a :: l, i + 1, inside, j, short => by
    have behind : (f a).length ≤ (i + 1) * width + j := by
      rw [even, Nat.add_mul]
      omega
    have index : (i + 1) * width + j - (f a).length = i * width + j := by
      rw [even, Nat.add_mul]
      omega
    rw [List.flatMap_cons, List.getD_append_right _ _ _ _ behind, index,
      getD_flatMap even (Nat.lt_of_succ_lt_succ inside) short, List.getElem_cons_succ]

namespace IBLTCell

/-- The bytes of one cell on the wire. -/
def wireBytes (cell : IBLTCell keyBytes checksumWords) : List UInt8 :=
  List.ofFn cell.key ++ List.ofFn cell.checksum

theorem length_wireBytes (cell : IBLTCell keyBytes checksumWords) :
    cell.wireBytes.length = keyBytes + 8 * checksumWords := by
  rw [wireBytes, List.length_append, List.length_ofFn, List.length_ofFn]

theorem getD_wireBytes_key (cell : IBLTCell keyBytes checksumWords) (j : Fin keyBytes) :
    cell.wireBytes.getD j 0 = cell.key j := by
  have inside : (j : Nat) < (List.ofFn cell.key).length := by rw [List.length_ofFn]; exact j.isLt
  rw [wireBytes, List.getD_append _ _ _ _ inside, List.getD_eq_getElem _ _ inside, List.getElem_ofFn]

theorem getD_wireBytes_checksum (cell : IBLTCell keyBytes checksumWords) (j : Fin (8 * checksumWords)) :
    cell.wireBytes.getD (keyBytes + j) 0 = cell.checksum j := by
  have behind : (List.ofFn cell.key).length ≤ keyBytes + j := by rw [List.length_ofFn]; omega
  have index : keyBytes + j - (List.ofFn cell.key).length = j := by rw [List.length_ofFn]; omega
  have inside : (j : Nat) < (List.ofFn cell.checksum).length := by rw [List.length_ofFn]; exact j.isLt
  rw [wireBytes, List.getD_append_right _ _ _ _ behind, index, List.getD_eq_getElem _ _ inside,
    List.getElem_ofFn]

end IBLTCell

theorem foldl_appendSerialization (l : List (IBLTCell keyBytes checksumWords)) (output : IBLTWireFormat) :
    l.foldl (fun output cell => cell.appendSerialization output) output =
      ⟨output.rawData ++ l.flatMap IBLTCell.wireBytes, output.cellCounts ++ l.map IBLTCell.count⟩ := by
  induction l generalizing output with
  | nil => rw [List.foldl_nil, List.flatMap_nil, List.map_nil, List.append_nil, List.append_nil]
  | cons cell l ih =>
    rw [List.foldl_cons, ih, List.flatMap_cons, List.map_cons]
    simp only [IBLTCell.appendSerialization, IBLTCell.wireBytes, List.append_assoc, List.singleton_append]

/-- The difference with a serialized table is the difference of the tables. -/
theorem computeDifference_serialize (cells cells' : IBLT keyBytes checksumWords numHashFns cellsPerRegion) :
    cells.computeDifference cells'.serialize = some (fun c => cells c - cells' c) := by
  have written : cells'.serialize =
      ⟨(List.ofFn cells').flatMap IBLTCell.wireBytes, (List.ofFn cells').map IBLTCell.count⟩ := by
    rw [IBLT.serialize, foldl_appendSerialization, List.nil_append, List.nil_append]
  have counts : ((List.ofFn cells').map IBLTCell.count).length = numHashFns * cellsPerRegion := by
    rw [List.length_map, List.length_ofFn]
  have bytes : ((List.ofFn cells').flatMap IBLTCell.wireBytes).length =
      numHashFns * cellsPerRegion * (keyBytes + 8 * checksumWords) := by
    rw [List.length_flatMap, List.map_congr_left (fun cell _ => IBLTCell.length_wireBytes cell),
      List.map_const', List.sum_replicate_nat, List.length_ofFn]
  rw [IBLT.computeDifference, written, if_neg (not_not_intro counts), if_neg (not_not_intro bytes)]
  congr 1
  funext c
  have inside : (c : Nat) < (List.ofFn cells').length := by rw [List.length_ofFn]; exact c.isLt
  apply IBLTCell.ext
  · funext j
    show ((List.ofFn cells').flatMap IBLTCell.wireBytes).getD (c * (keyBytes + 8 * checksumWords) + j) 0 ^^^
      (cells c).key j = (cells c).key j ^^^ (cells' c).key j
    rw [UInt8.xor_comm, getD_flatMap IBLTCell.length_wireBytes inside (by omega), List.getElem_ofFn,
      IBLTCell.getD_wireBytes_key]
  · funext j
    show ((List.ofFn cells').flatMap IBLTCell.wireBytes).getD
      (c * (keyBytes + 8 * checksumWords) + keyBytes + j) 0 ^^^
      (cells c).checksum j = (cells c).checksum j ^^^ (cells' c).checksum j
    rw [UInt8.xor_comm, Nat.add_assoc, getD_flatMap IBLTCell.length_wireBytes inside (by omega),
      List.getElem_ofFn, IBLTCell.getD_wireBytes_checksum]
  · show (cells c).count - _ = (cells c).count - (cells' c).count
    rw [List.getD_eq_getElem _ _ (by rw [List.length_map]; exact inside), List.getElem_map,
      List.getElem_ofFn]

section

variable (hashes : IBLTHashes keyBytes checksumWords numHashFns cellsPerRegion)

/-- The checksum as it is meant: of several of these keys, the xor of the checksums is neither the checksum
of the xor of the keys nor zero. -/
structure NoChecksumCollision (keys : Finset (RawBytes keyBytes)) : Prop where
  several : ∀ s ⊆ keys,
    hashes.computeChecksum (∑ k ∈ s, entry hashes k).key = (∑ k ∈ s, entry hashes k).checksum → s.card ≤ 1
  zero : ∀ s ⊆ keys, (∀ j, (∑ k ∈ s, entry hashes k).checksum j = 0) → s = ∅

/-- The keys that one side alone has. -/
def keyDifference (as bs : List (RawBytes keyBytes)) : Finset (RawBytes keyBytes) :=
  (as.toFinset \ bs.toFinset) ∪ (bs.toFinset \ as.toFinset)

/-- What a key of the difference adds to its cells. -/
def signedEntry (as : List (RawBytes keyBytes)) (key : RawBytes keyBytes) : IBLTCell keyBytes checksumWords :=
  if key ∈ as.toFinset then entry hashes key else - entry hashes key

variable {hashes} {as bs : List (RawBytes keyBytes)}

theorem mem_keyDifference {k : RawBytes keyBytes} :
    k ∈ keyDifference as bs ↔ (k ∈ as ∧ k ∉ bs) ∨ (k ∉ as ∧ k ∈ bs) := by
  simp only [keyDifference, Finset.mem_union, Finset.mem_sdiff, List.mem_toFinset]
  tauto

variable (hashes as) in
/-- The side of a key shows in the count of a cell only. -/
theorem sum_signedEntry (s : Finset (RawBytes keyBytes)) :
    (∑ k ∈ s, signedEntry hashes as k).key = (∑ k ∈ s, entry hashes k).key ∧
    (∑ k ∈ s, signedEntry hashes as k).checksum = (∑ k ∈ s, entry hashes k).checksum := by
  induction s using Finset.induction_on with
  | empty => exact ⟨rfl, rfl⟩
  | insert k s fresh ih =>
    have words : (signedEntry hashes as k).key = k ∧
        (signedEntry hashes as k).checksum = hashes.computeChecksum k := by
      unfold signedEntry
      split_ifs <;> exact ⟨rfl, rfl⟩
    rw [Finset.sum_insert fresh, Finset.sum_insert fresh]
    constructor
    · exact congrArg₂ RawBytes.xor words.1 ih.1
    · exact congrArg₂ RawBytes.xor words.2 ih.2

theorem isPure_signedEntry (k : RawBytes keyBytes) :
    (signedEntry hashes as k).isPure hashes.computeChecksum = if k ∈ as then 1 else -1 := by
  simp only [signedEntry, List.mem_toFinset]
  by_cases side : k ∈ as
  · have pure : (entry hashes k).isPure hashes.computeChecksum = (entry hashes k).count.toInt :=
      IBLTCell.isPure_eq (Or.inl rfl) rfl
    rw [if_pos side, if_pos side, pure]
    rfl
  · have pure : (- entry hashes k).isPure hashes.computeChecksum = (- entry hashes k).count.toInt :=
      IBLTCell.isPure_eq (Or.inr rfl) rfl
    rw [if_neg side, if_neg side, pure]
    rfl

/-- A cell is pure if and only if a single key lies in it. -/
theorem isPure_spec (free : NoChecksumCollision hashes (keyDifference as bs)) {s : Finset (RawBytes keyBytes)}
    (sub : s ⊆ keyDifference as bs) :
    ((∑ k ∈ s, signedEntry hashes as k).isPure hashes.computeChecksum = 0 ∧ ∀ k, s ≠ {k}) ∨ ∃ k, s = {k} := by
  by_cases single : ∃ k, s = {k}
  · exact Or.inr single
  · push Not at single
    refine Or.inl ⟨?_, single⟩
    unfold IBLTCell.isPure
    by_cases unit : (∑ k ∈ s, signedEntry hashes as k).count = 1 ∨ (∑ k ∈ s, signedEntry hashes as k).count = -1
    · rw [if_neg (not_not_intro unit), (sum_signedEntry hashes as s).1, (sum_signedEntry hashes as s).2, if_neg]
      intro same
      have few := free.several s sub same
      obtain none | one := Nat.le_one_iff_eq_zero_or_eq_one.mp few
      · rw [Finset.card_eq_zero.mp none, Finset.sum_empty] at unit
        obtain absurd | absurd := unit
        · exact (by decide : (0 : BitVec 32) ≠ 1) absurd
        · exact (by decide : (0 : BitVec 32) ≠ -1) absurd
      · obtain ⟨k, alone⟩ := Finset.card_eq_one.mp one
        exact single k alone
    · rw [if_pos unit]

/-- A cell looks empty if and only if no key lies in it. -/
theorem isEmpty_iff (free : NoChecksumCollision hashes (keyDifference as bs)) {s : Finset (RawBytes keyBytes)}
    (sub : s ⊆ keyDifference as bs) : (∑ k ∈ s, signedEntry hashes as k).isEmpty = true ↔ s = ∅ := by
  rw [IBLTCell.isEmpty, decide_eq_true_iff]
  constructor
  · rintro ⟨_, zero⟩
    rw [(sum_signedEntry hashes as s).2] at zero
    exact free.zero s sub zero
  · rintro rfl
    exact ⟨rfl, fun _ => rfl⟩

end

/-- The loop over the other regions reads the pure cell in place: it does not touch it. -/
theorem foldl_removePureCell {target : Fin numHashFns → Fin (numHashFns * cellsPerRegion)}
    {region : Fin numHashFns} {idx : Fin (numHashFns * cellsPerRegion)}
    (apart : ∀ r, r ≠ region → target r ≠ idx) (l : List (Fin numHashFns))
    {cells : IBLT keyBytes checksumWords numHashFns cellsPerRegion} {pure : IBLTCell keyBytes checksumWords}
    (there : cells idx = pure) :
    l.foldl (fun cells r =>
        if r ≠ region then
          Function.update cells (target r) ((cells (target r)).removePureCell (cells idx))
        else cells) cells =
      (l.filter (fun r => r ≠ region)).foldl
        (fun cells r => Function.update cells (target r) ((cells (target r)).removePureCell pure)) cells := by
  induction l generalizing cells with
  | nil => rfl
  | cons r l ih =>
    by_cases other : r ≠ region
    · have kept : (Function.update cells (target r) ((cells (target r)).removePureCell pure)) idx = pure := by
        rw [Function.update_of_ne (Ne.symm (apart r other)), there]
      rw [List.foldl_cons, if_pos other, List.filter_cons_of_pos (by simpa using other), List.foldl_cons, there,
        ih kept]
    · rw [List.foldl_cons, if_neg other, List.filter_cons_of_neg (by simpa using other), ih there]

section

variable {hashes : IBLTHashes keyBytes checksumWords numHashFns cellsPerRegion} {as bs : List (RawBytes keyBytes)}

/-- The cells after a pure cell has been taken out of the other regions. -/
theorem removed_spec {cells : IBLT keyBytes checksumWords numHashFns cellsPerRegion}
    {region : Fin numHashFns} {i : Fin cellsPerRegion} {k : RawBytes keyBytes}
    (key : (cells (cellIdx region i)).key = k) (lies : LiesIn hashes k (cellIdx region i))
    {removed : IBLT keyBytes checksumWords numHashFns cellsPerRegion}
    (result : (List.finRange numHashFns).foldl
      (fun cells r =>
        if r ≠ region then
          Function.update cells (cellIdx r (hashes.makeIndices k r))
            ((cells (cellIdx r (hashes.makeIndices k r))).removePureCell (cells (cellIdx region i)))
        else cells) cells = removed) :
    removed (cellIdx region i) = cells (cellIdx region i) ∧
    ∀ c, c ≠ cellIdx region i →
      removed c = if LiesIn hashes k c then cells c - cells (cellIdx region i) else cells c := by
  have apart : ∀ r, r ≠ region → cellIdx r (hashes.makeIndices k r) ≠ cellIdx region i :=
    fun r other same => other (cellIdx_inj.mp same).1
  rw [foldl_removePureCell apart _ rfl] at result
  have updates : ∀ c, removed c =
      if ∃ r ∈ (List.finRange numHashFns).filter (fun r => r ≠ region), cellIdx r (hashes.makeIndices k r) = c
      then (cells c).removePureCell (cells (cellIdx region i)) else cells c := by
    intro c
    rw [← result]
    exact foldl_update (cellIdx_indices_injective hashes k) (fun cell => cell.removePureCell (cells (cellIdx region i)))
      ((List.nodup_finRange numHashFns).filter _) cells c
  constructor
  · rw [updates, if_neg]
    rintro ⟨r, member, here⟩
    exact apart r (by simpa using (List.mem_filter.mp member).2) here
  · intro c elsewhere
    have same : (∃ r ∈ (List.finRange numHashFns).filter (fun r => r ≠ region),
        cellIdx r (hashes.makeIndices k r) = c) ↔ LiesIn hashes k c := by
      constructor
      · rintro ⟨r, _, there⟩
        exact ⟨r, there⟩
      · rintro ⟨r, there⟩
        refine ⟨r, List.mem_filter.mpr ⟨List.mem_finRange r, ?_⟩, there⟩
        rw [decide_eq_true_iff]
        rintro rfl
        have index : hashes.makeIndices k r = i := liesIn_cellIdx.mp lies
        exact elsewhere (there ▸ index ▸ rfl)
    rw [updates c]
    simp only [same]
    rfl

variable (hashes as bs) in
/-- The state of a decoding with the keys `s` still in the table. -/
structure Peeled (st : DecodeState keyBytes checksumWords numHashFns cellsPerRegion)
    (s : Finset (RawBytes keyBytes)) : Prop where
  sub : s ⊆ keyDifference as bs
  holds : Peeling.Holds (LiesIn hashes) (signedEntry hashes as) st.cells s
  core : ∀ k, Peeling.InCore (LiesIn hashes) s k ↔ Peeling.InCore (LiesIn hashes) (keyDifference as bs) k
  positive : ∀ k, k ∈ st.outputPositiveKeys ↔ (k ∈ as ∧ k ∉ bs) ∧ k ∉ s
  negative : ∀ k, k ∈ st.outputNegativeKeys ↔ (k ∉ as ∧ k ∈ bs) ∧ k ∉ s
  nodup : (st.outputPositiveKeys ++ st.outputNegativeKeys).Nodup

/-- One visit finds no pure cell, or decodes one key. -/
theorem visit_spec (free : NoChecksumCollision hashes (keyDifference as bs))
    {st : DecodeState keyBytes checksumWords numHashFns cellsPerRegion} {s : Finset (RawBytes keyBytes)}
    (peeled : Peeled hashes as bs st s) (region : Fin numHashFns) (i : Fin cellsPerRegion) :
    (IBLT.visit hashes region st i = .ok st ∧ ∀ k, Peeling.keysAt (LiesIn hashes) s (cellIdx region i) ≠ {k}) ∨
    ∃ st' k, IBLT.visit hashes region st i = .ok st' ∧ st'.changed = true ∧ k ∈ s ∧
      Peeled hashes as bs st' (s.erase k) := by
  have content := peeled.holds (cellIdx region i)
  have inside : Peeling.keysAt (LiesIn hashes) s (cellIdx region i) ⊆ keyDifference as bs :=
    (Finset.filter_subset _ _).trans peeled.sub
  obtain ⟨impure, several⟩ | ⟨k, alone⟩ := isPure_spec free inside
  · left
    rw [← content] at impure
    refine ⟨?_, several⟩
    rw [IBLT.visit, if_neg (not_not_intro impure)]
  · right
    obtain ⟨member, lies⟩ := (Peeling.mem_keysAt _).mp (alone ▸ Finset.mem_singleton_self k)
    rw [alone, Finset.sum_singleton] at content
    have purity : (st.cells (cellIdx region i)).isPure hashes.computeChecksum = if k ∈ as then 1 else -1 := by
      rw [content, isPure_signedEntry]
    have key : (st.cells (cellIdx region i)).key = k := by
      have single := sum_signedEntry hashes as {k}
      rw [Finset.sum_singleton, Finset.sum_singleton] at single
      rw [content]
      exact single.1
    generalize result : (List.finRange numHashFns).foldl
      (fun cells r =>
        if r ≠ region then
          Function.update cells (cellIdx r (hashes.makeIndices k r))
            ((cells (cellIdx r (hashes.makeIndices k r))).removePureCell (cells (cellIdx region i)))
        else cells) st.cells = removed
    obtain ⟨here, elsewhere⟩ := removed_spec key lies result
    have holds : Peeling.Holds (LiesIn hashes) (signedEntry hashes as)
        (Function.update removed (cellIdx region i) IBLTCell.clear) (s.erase k) := by
      apply peeled.holds.erase member
      intro c
      by_cases same : c = cellIdx region i
      · rw [same, Function.update_self, if_pos lies, content, sub_self]
        rfl
      · rw [Function.update_of_ne same, elsewhere c same, content]
    have sub : s.erase k ⊆ keyDifference as bs := (Finset.erase_subset k s).trans peeled.sub
    have core := fun key => (Peeling.inCore_erase alone key).trans (peeled.core key)
    have given : (removed (cellIdx region i)).key = k := by rw [here, key]
    by_cases side : k ∈ as
    · have absent : k ∉ bs := by
        obtain own | other := mem_keyDifference.mp (peeled.sub member)
        · exact own.2
        · exact absurd side other.1
      rw [if_pos side] at purity
      refine ⟨⟨Function.update removed (cellIdx region i) IBLTCell.clear, st.outputPositiveKeys ++ [k],
        st.outputNegativeKeys, true⟩, k, ?_, rfl, member, sub, holds, core, ?_, ?_, ?_⟩
      · rw [IBLT.visit, if_pos (by rw [purity]; decide), if_pos purity]
        simp only [key, result, given]
      · intro key'
        rw [List.mem_append, List.mem_singleton, peeled.positive, Finset.mem_erase]
        by_cases same : key' = k
        · subst same
          tauto
        · tauto
      · intro key'
        rw [peeled.negative, Finset.mem_erase]
        by_cases same : key' = k
        · subst same
          tauto
        · tauto
      · have fresh : k ∉ st.outputPositiveKeys ++ st.outputNegativeKeys := by
          rw [List.mem_append, peeled.positive, peeled.negative]
          tauto
        rw [List.append_assoc]
        exact (List.nodup_middle).mpr (List.nodup_cons.mpr ⟨fresh, peeled.nodup⟩)
    · have present : k ∈ bs := by
        obtain own | other := mem_keyDifference.mp (peeled.sub member)
        · exact absurd own.1 side
        · exact other.2
      rw [if_neg side] at purity
      refine ⟨⟨Function.update removed (cellIdx region i) IBLTCell.clear, st.outputPositiveKeys,
        st.outputNegativeKeys ++ [k], true⟩, k, ?_, rfl, member, sub, holds, core, ?_, ?_, ?_⟩
      · rw [IBLT.visit, if_pos (by rw [purity]; decide), if_neg (by rw [purity]; decide), if_pos purity]
        simp only [key, result, given]
      · intro key'
        rw [peeled.positive, Finset.mem_erase]
        by_cases same : key' = k
        · subst same
          tauto
        · tauto
      · intro key'
        rw [List.mem_append, List.mem_singleton, peeled.negative, Finset.mem_erase]
        by_cases same : key' = k
        · subst same
          tauto
        · tauto
      · have fresh : k ∉ st.outputPositiveKeys ++ st.outputNegativeKeys := by
          rw [List.mem_append, peeled.positive, peeled.negative]
          tauto
        rw [← List.append_assoc]
        exact List.nodup_append_comm.mp (List.nodup_cons.mpr ⟨fresh, peeled.nodup⟩)

variable (hashes as bs) in
/-- How far a pass has come from where it started: it has decoded a key, or found no pure cell so far. -/
inductive PassStage (start : DecodeState keyBytes checksumWords numHashFns cellsPerRegion)
    (s₀ : Finset (RawBytes keyBytes)) (visited : Fin (numHashFns * cellsPerRegion) → Prop) :
    DecodeState keyBytes checksumWords numHashFns cellsPerRegion → Prop where
  | changed {st : DecodeState keyBytes checksumWords numHashFns cellsPerRegion}
      {s : Finset (RawBytes keyBytes)} (flag : st.changed = true) (fewer : s.card < s₀.card)
      (peeled : Peeled hashes as bs st s) : PassStage start s₀ visited st
  | unchanged (flag : start.changed = false) (peeled : Peeled hashes as bs start s₀)
      (impure : ∀ c, visited c → ∀ k, Peeling.keysAt (LiesIn hashes) s₀ c ≠ {k}) : PassStage start s₀ visited start

theorem passStage_visit (free : NoChecksumCollision hashes (keyDifference as bs))
    {start st : DecodeState keyBytes checksumWords numHashFns cellsPerRegion} {s₀ : Finset (RawBytes keyBytes)}
    {visited : Fin (numHashFns * cellsPerRegion) → Prop}
    (stage : PassStage hashes as bs start s₀ visited st)
    (region : Fin numHashFns) (i : Fin cellsPerRegion) :
    ∃ st', IBLT.visit hashes region st i = .ok st' ∧
      PassStage hashes as bs start s₀
        (fun c => visited c ∨ c = cellIdx region i) st' := by
  cases stage with
  | changed flag fewer peeled =>
    obtain ⟨run, _⟩ | ⟨st', k, run, flag', member, peeled'⟩ := visit_spec free peeled region i
    · exact ⟨st, run, .changed flag fewer peeled⟩
    · exact ⟨st', run, .changed flag' (lt_trans (Finset.card_erase_lt_of_mem member) fewer) peeled'⟩
  | unchanged flag peeled impure =>
    obtain ⟨run, here⟩ | ⟨st', k, run, flag', member, peeled'⟩ := visit_spec free peeled region i
    · refine ⟨start, run, .unchanged flag peeled ?_⟩
      rintro c (before | rfl)
      · exact impure c before
      · exact here
    · exact ⟨st', run, .changed flag' (Finset.card_erase_lt_of_mem member) peeled'⟩

theorem PassStage.mono {start st : DecodeState keyBytes checksumWords numHashFns cellsPerRegion}
    {s₀ : Finset (RawBytes keyBytes)} {visited visited' : Fin (numHashFns * cellsPerRegion) → Prop}
    (stage : PassStage hashes as bs start s₀ visited st)
    (sub : ∀ c, visited' c → visited c) :
    PassStage hashes as bs start s₀ visited' st := by
  cases stage with
  | changed flag fewer peeled => exact .changed flag fewer peeled
  | unchanged flag peeled impure => exact .unchanged flag peeled (fun c there => impure c (sub c there))

/-- The loop over one region visits all its cells, in any order. -/
theorem passStage_region (free : NoChecksumCollision hashes (keyDifference as bs))
    {start st : DecodeState keyBytes checksumWords numHashFns cellsPerRegion} {s₀ : Finset (RawBytes keyBytes)}
    {visited : Fin (numHashFns * cellsPerRegion) → Prop}
    (stage : PassStage hashes as bs start s₀ visited st)
    (region : Fin numHashFns) (order : Equiv.Perm (Fin cellsPerRegion)) :
    ∃ st', (List.ofFn order).foldlM (IBLT.visit hashes region) st = .ok st' ∧
      PassStage hashes as bs start s₀
        (fun c => visited c ∨ ∃ i, c = cellIdx region i) st' := by
  obtain ⟨st', run, stage'⟩ := Fallible.foldlM_total
    (fun done st' => PassStage hashes as bs start s₀
      (fun c => visited c ∨ ∃ i ∈ done, c = cellIdx region i) st')
    (l := List.ofFn order) (s := st)
    (stage.mono (fun c there => there.resolve_right (by rintro ⟨i, absurd, _⟩; exact List.not_mem_nil absurd)))
    (fun done i st' _ stage' => by
      obtain ⟨st'', run, stage''⟩ := passStage_visit free stage' region i
      refine ⟨st'', run, stage''.mono ?_⟩
      rintro c (before | ⟨i', member, here⟩)
      · exact Or.inl (Or.inl before)
      · obtain earlier | last := List.mem_append.mp member
        · exact Or.inl (Or.inr ⟨i', earlier, here⟩)
        · exact Or.inr (List.mem_singleton.mp last ▸ here))
  refine ⟨st', run, stage'.mono ?_⟩
  rintro c (before | ⟨i, here⟩)
  · exact Or.inl before
  · refine Or.inr ⟨i, ?_, here⟩
    obtain ⟨j, reached⟩ := order.surjective i
    exact reached ▸ List.mem_ofFn.mpr ⟨j, rfl⟩

theorem Peeled.flag {st : DecodeState keyBytes checksumWords numHashFns cellsPerRegion}
    {s : Finset (RawBytes keyBytes)} (peeled : Peeled hashes as bs st s) (changed : Bool) :
    Peeled hashes as bs { st with changed := changed } s :=
  ⟨peeled.sub, peeled.holds, peeled.core, peeled.positive, peeled.negative, peeled.nodup⟩

/-- A pass that changes nothing has found that no cell is pure. -/
theorem decodePass_spec (free : NoChecksumCollision hashes (keyDifference as bs))
    {st : DecodeState keyBytes checksumWords numHashFns cellsPerRegion} {s : Finset (RawBytes keyBytes)}
    (peeled : Peeled hashes as bs st s) (order : Fin numHashFns → Equiv.Perm (Fin cellsPerRegion)) :
    ∃ st', IBLT.decodePass hashes order st = .ok st' ∧
      ((st'.changed = true ∧ ∃ s', s'.card < s.card ∧ Peeled hashes as bs st' s') ∨
       (st'.changed = false ∧ Peeled hashes as bs st' s ∧ Peeling.Stopping (LiesIn hashes) s)) := by
  obtain ⟨st', run, stage⟩ := Fallible.foldlM_total
    (fun done st' => PassStage hashes as bs { st with changed := false } s
      (fun c => ∃ region ∈ done, ∃ i, c = cellIdx region i) st')
    (f := fun st region => (List.ofFn (order region)).foldlM (IBLT.visit hashes region) st)
    (l := List.finRange numHashFns) (s := { st with changed := false })
    (.unchanged rfl (peeled.flag false) (by rintro c ⟨region, absurd, _⟩; exact (List.not_mem_nil absurd).elim))
    (fun done region st' _ stage => by
      obtain ⟨st'', run, stage'⟩ := passStage_region free stage region (order region)
      refine ⟨st'', run, stage'.mono ?_⟩
      rintro c ⟨region', member, here⟩
      obtain earlier | last := List.mem_append.mp member
      · exact Or.inl ⟨region', earlier, here⟩
      · exact Or.inr (List.mem_singleton.mp last ▸ here))
  refine ⟨st', run, ?_⟩
  cases stage with
  | changed flag fewer peeled' => exact Or.inl ⟨flag, _, fewer, peeled'⟩
  | unchanged flag peeled' impure =>
    refine Or.inr ⟨flag, peeled', fun c k => ?_⟩
    obtain ⟨region, i, rfl⟩ := exists_cellIdx c
    exact impure _ ⟨region, List.mem_finRange region, i, rfl⟩ k

/-- Every pass but the last decodes a key, so that the loop ends. -/
theorem decodeLoop_spec (free : NoChecksumCollision hashes (keyDifference as bs))
    (orders : VisitOrders numHashFns cellsPerRegion) {fuel : Nat} (pass : Nat)
    {st : DecodeState keyBytes checksumWords numHashFns cellsPerRegion} {s : Finset (RawBytes keyBytes)}
    (peeled : Peeled hashes as bs st s) (enough : s.card < fuel) :
    ∃ st' s', IBLT.decodeLoop hashes orders fuel pass st = some (.ok st') ∧
      Peeled hashes as bs st' s' ∧ Peeling.Stopping (LiesIn hashes) s' := by
  induction fuel generalizing pass st s with
  | zero => exact absurd enough (Nat.not_lt_zero _)
  | succ fuel ih =>
    obtain ⟨st', run, ⟨flag, s', fewer, peeled'⟩ | ⟨flag, peeled', stopping⟩⟩ :=
      decodePass_spec free peeled (orders pass)
    · obtain ⟨st'', s'', rest, final⟩ := ih (pass + 1) peeled' (by omega)
      refine ⟨st'', s'', ?_, final⟩
      simp only [IBLT.decodeLoop, run, flag, if_true, rest]
    · refine ⟨st', s, ?_, peeled', stopping⟩
      simp only [IBLT.decodeLoop, run, flag, Bool.false_eq_true, if_false]

/-- The difference of two tables, before anything is decoded. -/
theorem peeled_start (nodup : as.Nodup) (nodup' : bs.Nodup) :
    Peeled hashes as bs ⟨fun c => tableOf hashes as c - tableOf hashes bs c, [], [], false⟩
      (keyDifference as bs) := by
  refine ⟨Finset.Subset.refl _, (holds_tableOf nodup).sub (holds_tableOf nodup'), fun _ => Iff.rfl, ?_, ?_,
    List.nodup_nil⟩
  · intro k
    rw [mem_keyDifference]
    simp only [List.not_mem_nil, false_iff]
    tauto
  · intro k
    rw [mem_keyDifference]
    simp only [List.not_mem_nil, false_iff]
    tauto

/-- The last loop meets a cell that is not empty if and only if a remaining key lies in the first cell of
one of its ranges. -/
theorem any_nonemptyIn_iff (free : NoChecksumCollision hashes (keyDifference as bs))
    {st : DecodeState keyBytes checksumWords numHashFns cellsPerRegion} {s : Finset (RawBytes keyBytes)}
    (peeled : Peeled hashes as bs st s) (ranges : List (List (Fin (numHashFns * cellsPerRegion)))) :
    ranges.any (IBLT.nonemptyIn st.cells) = true ↔
      ∃ range ∈ ranges, ∃ first, range.head? = some first ∧ ∃ k ∈ s, LiesIn hashes k first := by
  have cell : ∀ c, (!(st.cells c).isEmpty) = true ↔ ∃ k ∈ s, LiesIn hashes k c := by
    intro c
    have inside : Peeling.keysAt (LiesIn hashes) s c ⊆ keyDifference as bs :=
      (Finset.filter_subset _ _).trans peeled.sub
    rw [Bool.not_eq_true', ← Bool.not_eq_true, peeled.holds c, isEmpty_iff free inside, ← ne_eq,
      ← Finset.nonempty_iff_ne_empty]
    simp only [Finset.Nonempty, Peeling.mem_keysAt]
  rw [List.any_eq_true]
  constructor
  · rintro ⟨range, member, found⟩
    cases range with
    | nil => exact absurd found Bool.false_ne_true
    | cons first rest => exact ⟨_, member, first, rfl, (cell first).mp found⟩
  · rintro ⟨range, member, first, head, found⟩
    refine ⟨range, member, ?_⟩
    cases range with
    | nil => cases head
    | cons first' rest =>
      cases head
      exact (cell _).mpr found

end

/-- What `decode` gives away is right, whatever its verdict. -/
structure DecodeResult.Sound (as bs : List (RawBytes keyBytes)) (result : DecodeResult keyBytes) : Prop where
  positive : ∀ k ∈ result.positiveKeys, k ∈ as ∧ k ∉ bs
  negative : ∀ k ∈ result.negativeKeys, k ∈ bs ∧ k ∉ as
  once : (result.positiveKeys ++ result.negativeKeys).Nodup

/-- The keys given away are the whole difference. -/
def DecodeResult.Complete (as bs : List (RawBytes keyBytes)) (result : DecodeResult keyBytes) : Prop :=
  (∀ k, k ∈ result.positiveKeys ↔ k ∈ as ∧ k ∉ bs) ∧ (∀ k, k ∈ result.negativeKeys ↔ k ∈ bs ∧ k ∉ as)

/-- `decode` ends, and gives away no wrong key. Its verdict is right if and only if peeling leaves nothing,
or a key that it leaves lies in the first cell of a range of the last loop. -/
theorem decode_verdict_iff {hashes : IBLTHashes keyBytes checksumWords numHashFns cellsPerRegion}
    {as bs : List (RawBytes keyBytes)} (nodup : as.Nodup) (nodup' : bs.Nodup)
    (free : NoChecksumCollision hashes (keyDifference as bs)) (orders : VisitOrders numHashFns cellsPerRegion)
    (division : Parallel.Division (Fin (numHashFns * cellsPerRegion))) {fuel : Nat}
    (enough : as.length + bs.length < fuel) :
    ∃ difference result,
      (tableOf hashes as).computeDifference (tableOf hashes bs).serialize = some difference ∧
      difference.decode hashes orders division fuel = some (.ok result) ∧
      result.Sound as bs ∧
      ((result.verdict = true → result.Complete as bs) ↔
        (∀ k, ¬ Peeling.InCore (LiesIn hashes) (keyDifference as bs) k) ∨
        ∃ range ∈ division.run (List.finRange (numHashFns * cellsPerRegion)), ∃ first,
          range.head? = some first ∧
          ∃ k, Peeling.InCore (LiesIn hashes) (keyDifference as bs) k ∧ LiesIn hashes k first) := by
  have few : (keyDifference as bs).card < fuel := by
    have union := Finset.card_union_le (as.toFinset \ bs.toFinset) (bs.toFinset \ as.toFinset)
    have left := (Finset.card_le_card (Finset.sdiff_subset (s := as.toFinset) (t := bs.toFinset))).trans
      as.toFinset_card_le
    have right := (Finset.card_le_card (Finset.sdiff_subset (s := bs.toFinset) (t := as.toFinset))).trans
      bs.toFinset_card_le
    unfold keyDifference
    omega
  obtain ⟨st, s, run, peeled, stopping⟩ := decodeLoop_spec free orders 0 (peeled_start nodup nodup') few
  have left : ∀ k, k ∈ s ↔ Peeling.InCore (LiesIn hashes) (keyDifference as bs) k :=
    fun k => (Peeling.inCore_of_stopping stopping k).symm.trans (peeled.core k)
  refine ⟨_, _, computeDifference_serialize _ _, by rw [IBLT.decode, run]; rfl, ⟨?_, ?_, peeled.nodup⟩, ?_⟩
  · exact fun k member => ((peeled.positive k).mp member).1
  · exact fun k member => ((peeled.negative k).mp member).1.symm
  · have complete : DecodeResult.Complete as bs ⟨!((division.run (List.finRange _)).any (IBLT.nonemptyIn st.cells)),
        st.outputPositiveKeys, st.outputNegativeKeys⟩ ↔ ∀ k, k ∉ s := by
      constructor
      · rintro ⟨positive, negative⟩ k member
        obtain own | other := mem_keyDifference.mp (peeled.sub member)
        · exact ((peeled.positive k).mp ((positive k).mpr own)).2 member
        · exact ((peeled.negative k).mp ((negative k).mpr other.symm)).2 member
      · intro none
        refine ⟨fun k => ?_, fun k => ?_⟩
        · exact (peeled.positive k).trans (and_iff_left (none k))
        · exact (peeled.negative k).trans ((and_iff_left (none k)).trans and_comm)
    rw [complete]
    simp only [← left]
    rw [Bool.not_eq_true', ← Bool.not_eq_true, any_nonemptyIn_iff free peeled]
    by_cases seen : ∃ range ∈ division.run (List.finRange (numHashFns * cellsPerRegion)), ∃ first,
        range.head? = some first ∧ ∃ k ∈ s, LiesIn hashes k first
    · exact iff_of_true (fun unseen => absurd seen unseen) (Or.inr seen)
    · exact ⟨fun none => Or.inl (none seen), fun cond _ => cond.resolve_right seen⟩

/-- Three regions of two cells, where every key lies in the second ones. -/
def crowdedHashes : IBLTHashes 1 1 3 2 where
  computeChecksum key j := if j = 0 then key 0 * key 0 else 0
  makeIndices _ _ := 1

/-- `parallel_for` with a single range. -/
def wholeRange : Parallel.Division (Fin 6) where
  run items := [items]
  covers items := List.append_nil items

theorem crowdedHashes_collisionFree :
    NoChecksumCollision crowdedHashes (keyDifference [fun _ => 1, fun _ => 2] []) := by
  -- a filter, so that only the subsets are run through
  have none : (keyDifference [fun _ => 1, fun _ => 2] [] : Finset (RawBytes 1)).powerset.filter (fun s =>
      ¬ ((crowdedHashes.computeChecksum (∑ k ∈ s, entry crowdedHashes k).key =
          (∑ k ∈ s, entry crowdedHashes k).checksum → s.card ≤ 1) ∧
        ((∀ j, (∑ k ∈ s, entry crowdedHashes k).checksum j = 0) → s = ∅))) = ∅ := by decide
  have subsets := fun (s : Finset (RawBytes 1)) sub =>
    not_not.mp (Finset.filter_eq_empty_iff.mp none (Finset.mem_powerset.mpr sub : s ∈ _))
  exact ⟨fun s sub => (subsets s sub).1, fun s sub => (subsets s sub).2⟩

theorem decode_verdict_crowded :
    ∃ difference result,
      (tableOf crowdedHashes [fun _ => 1, fun _ => 2]).computeDifference
        (tableOf crowdedHashes []).serialize = some difference ∧
      difference.decode crowdedHashes (fun _ _ => Equiv.refl _) wholeRange 3 = some (.ok result) ∧
      result.Sound [fun _ => 1, fun _ => 2] [] ∧
      ((result.verdict = true → result.Complete [fun _ => 1, fun _ => 2] []) ↔
        (∀ k, ¬ Peeling.InCore (LiesIn crowdedHashes) (keyDifference [fun _ => 1, fun _ => 2] []) k) ∨
        ∃ range ∈ wholeRange.run (List.finRange (3 * 2)), ∃ first, range.head? = some first ∧
          ∃ k, Peeling.InCore (LiesIn crowdedHashes) (keyDifference [fun _ => 1, fun _ => 2] []) k ∧
            LiesIn crowdedHashes k first) :=
  decode_verdict_iff (by decide) (by decide) crowdedHashes_collisionFree _ _ (by decide)

/-- Two keys that share all their cells are not decoded, and `decode` reports success. -/
theorem decode_misses_core :
    NoChecksumCollision crowdedHashes (keyDifference [fun _ => 1, fun _ => 2] []) ∧
    ∃ difference,
      (tableOf crowdedHashes [fun _ => 1, fun _ => 2]).computeDifference
        (tableOf crowdedHashes []).serialize = some difference ∧
      difference.decode crowdedHashes (fun _ _ => Equiv.refl _) wholeRange 3 = some (.ok ⟨true, [], []⟩) ∧
      ¬ (⟨true, [], []⟩ : DecodeResult 1).Complete [fun _ => 1, fun _ => 2] [] := by
  refine ⟨crowdedHashes_collisionFree, _, rfl, rfl, ?_⟩
  rintro ⟨positive, _⟩
  exact List.not_mem_nil ((positive (fun _ => 1)).mpr ⟨List.mem_cons_self, List.not_mem_nil⟩)

end Speedex
