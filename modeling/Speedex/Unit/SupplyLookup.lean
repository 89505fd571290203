import Speedex.Unit.MetadataIndex

set_option autoImplicit false

/- What the supply index says about the offers of a book. The lookup is exact except at the greatest
limit price of the book, where it leaves out the offers of that price. -/
namespace Speedex

open Cumulative Machine PriceUtils

section Offers

/-- What the offers sell. -/
def sold (offers : List Offer) : Nat := (offers.map (fun offer => offer.amount.toNat)).sum

/-- What the offers sell, times their limit prices. -/
def worth (offers : List Offer) : Nat :=
  (offers.map (fun offer => offer.amount.toNat * offer.minPrice.toNat)).sum

/-- The offers with limit prices up to `p`. -/
def upTo (p : Price) (offers : List Offer) : List Offer := offers.filter (fun offer => offer.minPrice ≤ p)

@[simp] theorem sold_nil : sold [] = 0 := rfl
@[simp] theorem worth_nil : worth [] = 0 := rfl
@[simp] theorem sold_append (offers offers' : List Offer) : sold (offers ++ offers') = sold offers + sold offers' := by
  simp [sold]
@[simp] theorem worth_append (offers offers' : List Offer) :
    worth (offers ++ offers') = worth offers + worth offers' := by
  simp [worth]

theorem sold_le {offers offers' : List Offer} (fewer : offers.Sublist offers') : sold offers ≤ sold offers' :=
  (fewer.map _).sum_le_sum (fun _ _ => Nat.zero_le _)

theorem worth_le {offers offers' : List Offer} (fewer : offers.Sublist offers') : worth offers ≤ worth offers' :=
  (fewer.map _).sum_le_sum (fun _ _ => Nat.zero_le _)

theorem sold_filter_add (chosen : Offer → Bool) (offers : List Offer) :
    sold offers = sold (offers.filter chosen) + sold (offers.filter (fun offer => !chosen offer)) := by
  have parts := (List.filter_append_perm chosen offers).map (fun offer => offer.amount.toNat)
  rw [sold, ← parts.sum_eq, List.map_append, List.sum_append, sold, sold]

theorem worth_filter_add (chosen : Offer → Bool) (offers : List Offer) :
    worth offers = worth (offers.filter chosen) + worth (offers.filter (fun offer => !chosen offer)) := by
  have parts := (List.filter_append_perm chosen offers).map (fun offer => offer.amount.toNat * offer.minPrice.toNat)
  rw [worth, ← parts.sum_eq, List.map_append, List.sum_append, worth, worth]

theorem le_sold {offers : List Offer} {offer : Offer} (listed : offer ∈ offers) : offer.amount.toNat ≤ sold offers :=
  List.single_le_sum (fun _ _ => Nat.zero_le _) _ (List.mem_map_of_mem listed)

/-- A bound on the limit prices bounds what the offers are worth. -/
theorem worth_le_of_price {offers : List Offer} {bound : Nat} (priced : ∀ offer ∈ offers, offer.minPrice.toNat ≤ bound) :
    worth offers ≤ sold offers * bound := by
  induction offers with
  | nil => simp
  | cons offer offers ih =>
    have rest := ih (fun offer' listed => priced offer' (List.mem_cons_of_mem _ listed))
    have one : offer.amount.toNat * offer.minPrice.toNat ≤ offer.amount.toNat * bound :=
      Nat.mul_le_mul_left _ (priced offer List.mem_cons_self)
    simp only [sold, worth, List.map_cons, List.sum_cons, Nat.add_mul] at rest ⊢
    omega

theorem le_worth_of_price {offers : List Offer} {bound : Nat} (priced : ∀ offer ∈ offers, bound ≤ offer.minPrice.toNat) :
    sold offers * bound ≤ worth offers := by
  induction offers with
  | nil => simp
  | cons offer offers ih =>
    have rest := ih (fun offer' listed => priced offer' (List.mem_cons_of_mem _ listed))
    have one : offer.amount.toNat * bound ≤ offer.amount.toNat * offer.minPrice.toNat :=
      Nat.mul_le_mul_left _ (priced offer List.mem_cons_self)
    simp only [sold, worth, List.map_cons, List.sum_cons, Nat.add_mul] at rest ⊢
    omega

/-- Limit prices are below `2 ^ 48`. -/
theorem worth_lt {offers : List Offer} (priced : ∀ offer ∈ offers, offer.minPrice.toNat < 2 ^ 48) :
    worth offers ≤ sold offers * 2 ^ 48 :=
  worth_le_of_price (fun offer listed => (priced offer listed).le)

/-- Offers of one price. -/
theorem worth_of_price {offers : List Offer} {price : Price} (same : ∀ offer ∈ offers, offer.minPrice = price) :
    worth offers = sold offers * price.toNat :=
  Nat.le_antisymm (worth_le_of_price (fun offer listed => by rw [same offer listed]))
    (le_worth_of_price (fun offer listed => by rw [same offer listed]))

theorem upTo_sublist {p q : Price} (le : p ≤ q) (offers : List Offer) : (upTo p offers).Sublist (upTo q offers) := by
  refine List.monotone_filter_right offers (fun offer below => ?_)
  rw [decide_eq_true_eq] at below ⊢
  exact BitVec.le_trans below le

end Offers

/-- The accumulator holds the exact sums over the offers. -/
structure Accumulates (offers : List Offer) (acc : EndowAccumulator) : Prop where
  endow : acc.endow.toInt = sold offers
  endowTimesPrice : acc.endowTimesPrice.toInt = worth offers

/-- Offers as transactions bring them in: at their own keys, with valid prices and positive amounts. -/
structure Stocked (book : OfferTrie) : Prop where
  valid : book.Valid workUnitKeyLen
  offers : ∀ key l, book.find key = some l →
    key = l.value.key ∧ isValidPrice l.value.minPrice = true ∧ 0 < l.value.amount.toInt

/-- The offers of a book in key order. -/
def OfferTrie.listOffers (book : OfferTrie) : List Offer := book.root.values

/-- The subtrees of the single prices. -/
def OfferTrie.levels (book : OfferTrie) : List (TrieNode Offer) := book.root.frontier priceDigits

/-- A subtree that holds offers of one price, with their amounts added up. -/
structure Level (c : TrieNode Offer) : Prop where
  filled : c.values ≠ []
  priced : ∀ offer ∈ c.values, offer.minPrice = readPriceBigEndian c.pfx
  small : (readPriceBigEndian c.pfx).toNat < 2 ^ 48
  positive : ∀ offer ∈ c.values, 0 < offer.amount.toNat
  endow : c.metadata.endow = (c.values.map Offer.amount).sum

section Book

variable {book : OfferTrie}

theorem Stocked.shaped (stocked : Stocked book) : TrieNode.Shaped workUnitKeyLen book.root :=
  stocked.valid.shaped workUnitKeyLen_pos

theorem Stocked.listed (stocked : Stocked book) {row : Key × Leaf Offer} (listed : row ∈ book.root.entries) :
    row.1 = row.2.value.key ∧ isValidPrice row.2.value.minPrice = true ∧ 0 < row.2.value.amount.toInt :=
  stocked.offers row.1 row.2 ((TrieNode.mem_entries_iff stocked.shaped).mp listed)

theorem toNat_pos_of_toInt {amount : BitVec 64} (positive : 0 < amount.toInt) : 0 < amount.toNat := by
  rcases Nat.eq_zero_or_pos amount.toNat with zero | more
  · have none : amount = 0 := BitVec.eq_of_toNat_eq zero
    rw [none] at positive
    simp at positive
  · exact more

theorem Stocked.offer (stocked : Stocked book) {offer : Offer} (listed : offer ∈ book.listOffers) :
    isValidPrice offer.minPrice = true ∧ 0 < offer.amount.toNat := by
  obtain ⟨row, present, rfl⟩ := List.mem_map.mp listed
  obtain ⟨-, price, positive⟩ := stocked.listed present
  exact ⟨price, toNat_pos_of_toInt positive⟩

theorem OfferTrie.values_levels (stocked : Stocked book) :
    book.levels.flatMap TrieNode.values = book.listOffers := by
  rw [OfferTrie.listOffers, TrieNode.values, ← TrieNode.entries_frontier stocked.shaped (by decide : priceDigits ≤ _),
    List.map_flatMap]
  rfl

theorem OfferTrie.compact_of_level (stocked : Stocked book) {c : TrieNode Offer} (reached : c ∈ book.levels) :
    c.Compact := by
  rcases stocked.valid with ⟨h, vacant⟩ | canonical
  · rw [OfferTrie.levels, vacant, TrieNode.frontier_node (by decide)] at reached
    obtain ⟨b, -, reached⟩ := List.mem_flatMap.mp reached
    obtain ⟨child, occupied, -⟩ := TrieNode.mem_frontierSlot.mp reached
    cases occupied
  · exact TrieNode.compact_frontier canonical.compact reached

theorem OfferTrie.level (stocked : Stocked book) {c : TrieNode Offer} (reached : c ∈ book.levels) : Level c := by
  have shaped := TrieNode.shaped_frontier stocked.shaped reached
  have inside : ∀ row ∈ c.entries, row ∈ book.root.entries := by
    intro row listed
    rw [← TrieNode.entries_frontier stocked.shaped (by decide : priceDigits ≤ _)]
    exact List.mem_flatMap.mpr ⟨c, reached, listed⟩
  refine ⟨?_, ?_, ?_, ?_, ?_⟩
  · rw [TrieNode.values, ne_eq, List.map_eq_nil_iff]
    exact TrieNode.CompactAt.entries_ne_nil (compact_of_level stocked reached)
  · intro offer listed
    obtain ⟨row, present, rfl⟩ := List.mem_map.mp listed
    obtain ⟨key, price, -⟩ := stocked.listed (inside row present)
    have front := TrieNode.take_of_mem_frontier stocked.shaped reached present
    rw [← readPrice_congr front, key, Offer.key, readPrice_generateKey _ _ (isValidPrice_iff.mp price).2]
  · rw [toNat_readPrice]
    calc Digits.value (c.pfx.take priceDigits) < 16 ^ (c.pfx.take priceDigits).length := Digits.value_lt _
      _ ≤ 16 ^ priceDigits := Nat.pow_le_pow_right (by decide) (List.length_take_le _ _)
      _ = 2 ^ 48 := by decide
  · intro offer listed
    obtain ⟨row, present, rfl⟩ := List.mem_map.mp listed
    exact toNat_pos_of_toInt (stocked.listed (inside row present)).2.2
  · rw [TrieNode.endow_sum_entries shaped, TrieNode.values, List.map_map]
    refine congrArg List.sum (List.map_congr_left (fun row listed => ?_))
    exact (TrieNode.find_leafMetadata shaped ((TrieNode.mem_entries_iff shaped).mp listed)).endow

/-- The groups of the index. -/
def OfferTrie.groups (book : OfferTrie) : List (Price × EndowAccumulator) := book.levels.map TrieNode.priceGroup

theorem generateMetadataIndex_eq (book : OfferTrie) : generateMetadataIndex book = indexOf book.groups := by
  have start : readPriceBigEndian (List.replicate workUnitKeyLen 0) = 0 := by decide
  rw [generateMetadataIndex, TrieNode.metadataTraversal_eq, start]
  rfl

theorem groups_ascending (stocked : Stocked book) : Ascending book.groups := by
  rw [OfferTrie.groups, Ascending, List.pairwise_map]
  refine (TrieNode.frontier_sorted stocked.shaped (by decide : priceDigits ≤ _)).imp_of_mem ?_
  intro a b left right less
  have longA := (TrieNode.shaped_frontier stocked.shaped left).pfx_length
  have longB := (TrieNode.shaped_frontier stocked.shaped right).pfx_length
  exact readPrice_lt (longA.trans longB.symm) less

end Book

section Totals

/-- One group is exact if its offers fit an `int64_t` together. -/
theorem priceGroup_exact {c : TrieNode Offer} (level : Level c) (fits : sold c.values < 2 ^ 63) :
    (TrieNode.priceGroup c).2.endow.toNat = sold c.values ∧
      (TrieNode.priceGroup c).2.endowTimesPrice.toNat = worth c.values := by
  have amounts : ((c.values.map Offer.amount).map BitVec.toNat).sum = sold c.values := by
    rw [List.map_map]
    rfl
  have endow : c.metadata.endow.toNat = sold c.values := by
    rw [level.endow, toNat_sum (by omega), amounts]
  have product : sold c.values * (readPriceBigEndian c.pfx).toNat < 2 ^ 63 * 2 ^ 48 :=
    Nat.mul_lt_mul'' fits level.small
  refine ⟨endow, ?_⟩
  rw [TrieNode.priceGroup, EndowAccumulator.ofMetadata, BitVec.toNat_mul, toNat_signExtend_of_lt (by omega), endow,
    BitVec.toNat_setWidth_of_le (by decide), Nat.mod_eq_of_lt (by omega), worth_of_price level.priced]

/-- Groups are exact together if all their offers fit an `int64_t`. -/
theorem total_exact {cs : List (TrieNode Offer)} (levels : ∀ c ∈ cs, Level c)
    (fits : sold (cs.flatMap TrieNode.values) < 2 ^ 63) :
    (total (cs.map TrieNode.priceGroup)).endow.toNat = sold (cs.flatMap TrieNode.values) ∧
      (total (cs.map TrieNode.priceGroup)).endowTimesPrice.toNat = worth (cs.flatMap TrieNode.values) := by
  induction cs with
  | nil => exact ⟨rfl, rfl⟩
  | cons c cs ih =>
    have level := levels c List.mem_cons_self
    have rest : ∀ c' ∈ cs, Level c' := fun c' listed => levels c' (List.mem_cons_of_mem _ listed)
    have small : ∀ offer ∈ (c :: cs).flatMap TrieNode.values, offer.minPrice.toNat < 2 ^ 48 := by
      intro offer listed
      obtain ⟨c', present, listed⟩ := List.mem_flatMap.mp listed
      rw [(levels c' present).priced offer listed]
      exact (levels c' present).small
    have bound := worth_lt small
    rw [List.flatMap_cons, sold_append] at fits bound
    rw [worth_append] at bound
    obtain ⟨endow, price⟩ := priceGroup_exact level (by omega)
    obtain ⟨endow', price'⟩ := ih rest (by omega)
    rw [List.map_cons, total_cons, List.flatMap_cons, sold_append, worth_append, EndowAccumulator.add_endow,
      EndowAccumulator.add_endowTimesPrice, BitVec.toNat_add, BitVec.toNat_add, endow, endow', price, price']
    exact ⟨Nat.mod_eq_of_lt (by omega), Nat.mod_eq_of_lt (by omega)⟩

theorem accumulates_of_fits {cs : List (TrieNode Offer)} (levels : ∀ c ∈ cs, Level c)
    (fits : sold (cs.flatMap TrieNode.values) < 2 ^ 63) :
    Accumulates (cs.flatMap TrieNode.values) (total (cs.map TrieNode.priceGroup)) := by
  obtain ⟨endow, price⟩ := total_exact levels fits
  have small : ∀ offer ∈ cs.flatMap TrieNode.values, offer.minPrice.toNat < 2 ^ 48 := by
    intro offer listed
    obtain ⟨c, present, listed⟩ := List.mem_flatMap.mp listed
    rw [(levels c present).priced offer listed]
    exact (levels c present).small
  have bound := worth_lt small
  constructor
  · rw [toInt_of_lt (by omega), endow]
  · rw [toInt_of_lt (by omega), price]

/-- Offers chosen by price are the offers of the chosen levels. -/
theorem filter_levels {cs : List (TrieNode Offer)} (levels : ∀ c ∈ cs, Level c) (chosen : Price → Bool) :
    (cs.flatMap TrieNode.values).filter (fun offer => chosen offer.minPrice) =
      (cs.filter (fun c => chosen (readPriceBigEndian c.pfx))).flatMap TrieNode.values := by
  induction cs with
  | nil => rfl
  | cons c cs ih =>
    have level := levels c List.mem_cons_self
    rw [List.flatMap_cons, List.filter_append, ih (fun c' listed => levels c' (List.mem_cons_of_mem _ listed))]
    by_cases here : chosen (readPriceBigEndian c.pfx) = true
    · have all : c.values.filter (fun offer => chosen offer.minPrice) = c.values :=
        List.filter_eq_self.mpr (fun offer listed => by rw [level.priced offer listed, here])
      rw [all, List.filter_cons, if_pos here, List.flatMap_cons]
    · have none : c.values.filter (fun offer => chosen offer.minPrice) = [] :=
        List.filter_eq_nil_iff.mpr (fun offer listed => by rwa [level.priced offer listed])
      rw [none, List.filter_cons, if_neg here, List.nil_append]

end Totals

/-- `p` is the greatest limit price in the book. -/
def GreatestPrice (offers : List Offer) (p : Price) : Prop :=
  (∃ offer ∈ offers, offer.minPrice = p) ∧ ∀ offer ∈ offers, offer.minPrice ≤ p

/-- The offers that the lookup adds up: those up to `p`, less the last ones. -/
def seen (offers : List Offer) (p : Price) : List Offer :=
  offers.filter (fun offer => offer.minPrice < p ∨ offer.minPrice = p ∧ ∃ other ∈ offers, p < other.minPrice)

theorem seen_of_greatest {offers : List Offer} {p : Price} (greatest : GreatestPrice offers p) :
    seen offers p = offers.filter (fun offer => offer.minPrice < p) := by
  refine List.filter_congr (fun offer _ => decide_eq_decide.mpr (or_iff_left ?_))
  rintro ⟨-, other, listed, more⟩
  exact absurd more (BitVec.not_lt.mpr (greatest.2 other listed))

theorem seen_of_not_greatest {offers : List Offer} {p : Price} (other : ¬ GreatestPrice offers p) :
    seen offers p = upTo p offers := by
  refine List.filter_congr (fun offer listed => decide_eq_decide.mpr ⟨?_, fun below => ?_⟩)
  · rintro (less | ⟨same, -⟩)
    · exact Std.le_of_lt less
    · rw [same]
      exact BitVec.le_refl _
  · by_cases same : offer.minPrice = p
    · refine Or.inr ⟨same, ?_⟩
      by_contra none
      refine other ⟨⟨offer, listed, same⟩, fun offer' listed' => BitVec.not_lt.mp (fun more => ?_)⟩
      exact none ⟨offer', listed', more⟩
    · exact Or.inl (BitVec.lt_of_le_ne below same)

theorem seen_sublist (offers : List Offer) (p : Price) : (seen offers p).Sublist (upTo p offers) := by
  refine List.monotone_filter_right offers (fun offer chosen => ?_)
  rw [decide_eq_true_eq] at chosen ⊢
  rcases chosen with less | ⟨same, -⟩
  · exact Std.le_of_lt less
  · rw [same]
    exact BitVec.le_refl _

/-- The offers that the lookup sees at `upper`, less those up to `lower`. -/
def between (offers : List Offer) (lower upper : Price) : List Offer :=
  (seen offers upper).filter (fun offer => lower < offer.minPrice)

/-- Up to any price but the greatest, the lookup sees all that a lower lookup must see. -/
theorem filter_seen {offers : List Offer} {lower upper : Price} (le : lower ≤ upper)
    (other : ¬ GreatestPrice offers lower) :
    (seen offers upper).filter (fun offer => !decide (lower < offer.minPrice)) = upTo lower offers := by
  rw [seen, upTo, List.filter_filter]
  refine List.filter_congr (fun offer listed => ?_)
  rw [Bool.eq_iff_iff, Bool.and_eq_true, Bool.not_eq_true', decide_eq_false_iff_not, decide_eq_true_eq,
    decide_eq_true_eq, BitVec.not_lt]
  refine ⟨And.left, fun below => ⟨below, ?_⟩⟩
  by_cases same : offer.minPrice = upper
  · refine Or.inr ⟨same, ?_⟩
    have here : lower = upper := BitVec.le_antisymm le (same ▸ below)
    by_contra none
    refine other ⟨⟨offer, listed, same.trans here.symm⟩, fun offer' listed' => BitVec.not_lt.mp (fun more => ?_)⟩
    exact none ⟨offer', listed', here ▸ more⟩
  · exact Or.inl (BitVec.lt_of_le_ne (BitVec.le_trans below le) same)

theorem sold_seen_eq {offers : List Offer} {lower upper : Price} (le : lower ≤ upper)
    (other : ¬ GreatestPrice offers lower) :
    sold (seen offers upper) = sold (between offers lower upper) + sold (upTo lower offers) := by
  rw [← filter_seen le other, between]
  exact sold_filter_add _ _

theorem worth_seen_eq {offers : List Offer} {lower upper : Price} (le : lower ≤ upper)
    (other : ¬ GreatestPrice offers lower) :
    worth (seen offers upper) = worth (between offers lower upper) + worth (upTo lower offers) := by
  rw [← filter_seen le other, between]
  exact worth_filter_add _ _

theorem mem_between {offers : List Offer} {lower upper : Price} {offer : Offer}
    (listed : offer ∈ between offers lower upper) : lower < offer.minPrice ∧ offer.minPrice ≤ upper := by
  rw [between, List.mem_filter, decide_eq_true_eq] at listed
  have below := (seen_sublist offers upper).subset listed.1
  rw [upTo, List.mem_filter, decide_eq_true_eq] at below
  exact ⟨listed.2, below.2⟩

section Lookup

variable {book : OfferTrie}

/-- The levels of a book end with the greatest price. -/
theorem levels_of_greatest (stocked : Stocked book) {p : Price} (greatest : GreatestPrice book.listOffers p) :
    ∃ front c, book.levels = front ++ [c] ∧ readPriceBigEndian c.pfx = p ∧
      ∀ c' ∈ front, readPriceBigEndian c'.pfx < p := by
  obtain ⟨⟨offer, listed, price⟩, bound⟩ := greatest
  rw [← OfferTrie.values_levels stocked] at listed bound
  obtain ⟨level, reached, listed⟩ := List.mem_flatMap.mp listed
  rcases List.eq_nil_or_concat' book.levels with none | ⟨front, c, shape⟩
  · rw [none] at reached
    cases reached
  have last : c ∈ book.levels := by rw [shape]; simp
  have ascending := groups_ascending stocked
  rw [OfferTrie.groups, shape, List.map_append, Ascending, List.pairwise_append] at ascending
  have below : ∀ c' ∈ front, readPriceBigEndian c'.pfx < readPriceBigEndian c.pfx :=
    fun c' listed => ascending.2.2 _ (List.mem_map_of_mem listed) _ (List.mem_map_of_mem (List.mem_singleton_self c))
  have reached' : level ∈ front ∨ level = c := by
    rw [shape] at reached
    simpa using reached
  have low : readPriceBigEndian level.pfx ≤ readPriceBigEndian c.pfx := by
    rcases reached' with inside | rfl
    · exact Std.le_of_lt (below level inside)
    · exact BitVec.le_refl _
  rw [← (OfferTrie.level stocked reached).priced offer listed, price] at low
  obtain ⟨offer', listed'⟩ := List.exists_mem_of_ne_nil _ (OfferTrie.level stocked last).filled
  have high := bound offer' (List.mem_flatMap.mpr ⟨c, last, listed'⟩)
  rw [(OfferTrie.level stocked last).priced offer' listed'] at high
  have same : readPriceBigEndian c.pfx = p := BitVec.le_antisymm high low
  exact ⟨front, c, shape, same, fun c' inside => same ▸ below c' inside⟩

/-- The lookup adds up the levels of the offers that it sees. -/
theorem getMetadata_levels (stocked : Stocked book) (p : Price) : ∃ cs : List (TrieNode Offer), (∀ c ∈ cs, Level c) ∧
    cs.flatMap TrieNode.values = seen book.listOffers p ∧
    getMetadata (generateMetadataIndex book) p = total (cs.map TrieNode.priceGroup) := by
  have levels : ∀ c ∈ book.levels, Level c := fun c reached => OfferTrie.level stocked reached
  have ascending := groups_ascending stocked
  by_cases greatest : GreatestPrice book.listOffers p
  · obtain ⟨front, c, shape, price, below⟩ := levels_of_greatest stocked greatest
    refine ⟨front, fun c' listed => levels c' (by rw [shape]; exact List.mem_append_left _ listed), ?_, ?_⟩
    · have chosen := filter_levels levels (fun price => decide (price < p))
      have all : front.filter (fun c => decide (readPriceBigEndian c.pfx < p)) = front :=
        List.filter_eq_self.mpr (fun c' listed => decide_eq_true (below c' listed))
      have none : [c].filter (fun c => decide (readPriceBigEndian c.pfx < p)) = [] :=
        List.filter_cons_of_neg (by simp [price])
      rw [OfferTrie.values_levels stocked, shape, List.filter_append, all, none, List.append_nil] at chosen
      rw [seen_of_greatest greatest, chosen]
    · rw [generateMetadataIndex_eq]
      rw [OfferTrie.groups, shape, List.map_append] at ascending ⊢
      have last : [c].map TrieNode.priceGroup = [(p, (TrieNode.priceGroup c).2)] := by rw [← price]; rfl
      rw [last] at ascending ⊢
      exact getMetadata_last ascending
  · refine ⟨book.levels.filter (fun c => readPriceBigEndian c.pfx ≤ p),
      fun c listed => levels c (List.mem_of_mem_filter listed), ?_, ?_⟩
    · rw [seen_of_not_greatest greatest, upTo, ← OfferTrie.values_levels stocked]
      exact (filter_levels levels (fun price => decide (price ≤ p))).symm
    · rw [generateMetadataIndex_eq, getMetadata_of_ne ascending, OfferTrie.groups, List.filter_map]
      · rfl
      · rintro row last same
        apply greatest
        obtain ⟨front, shape⟩ := List.getLast?_eq_some_iff.mp last
        have group : row ∈ book.groups := by rw [shape]; simp
        obtain ⟨c, reached, rfl⟩ := List.mem_map.mp group
        constructor
        · obtain ⟨offer, listed⟩ := List.exists_mem_of_ne_nil _ (levels c reached).filled
          refine ⟨offer, ?_, ((levels c reached).priced offer listed).trans same⟩
          rw [← OfferTrie.values_levels stocked]
          exact List.mem_flatMap.mpr ⟨c, reached, listed⟩
        · intro offer listed
          rw [← OfferTrie.values_levels stocked] at listed
          obtain ⟨c', reached', listed⟩ := List.mem_flatMap.mp listed
          have group : TrieNode.priceGroup c' ∈ book.groups := List.mem_map_of_mem reached'
          rw [(levels c' reached').priced offer listed, ← same]
          rw [shape, List.mem_append, List.mem_singleton] at group
          rw [shape, Ascending, List.pairwise_append] at ascending
          rcases group with inside | last
          · exact Std.le_of_lt (ascending.2.2 _ inside _ (by simp))
          · rw [← last]
            exact BitVec.le_refl _

/-- If the book fits an `int64_t`, the lookup is exact about the offers that it sees. -/
theorem getMetadata_seen (stocked : Stocked book) (fits : sold book.listOffers < 2 ^ 63) (p : Price) :
    Accumulates (seen book.listOffers p) (getMetadata (generateMetadataIndex book) p) := by
  obtain ⟨cs, levels, values, same⟩ := getMetadata_levels stocked p
  rw [same, ← values]
  refine accumulates_of_fits levels ?_
  rw [values]
  exact (sold_le List.filter_sublist).trans_lt fits

/-- Every entry of the index is the total of the first groups. -/
theorem mem_index {entry : IndexedMetadata} (listed : entry ∈ generateMetadataIndex book) :
    entry = (0, 0) ∨ ∃ front c back, book.levels = front ++ c :: back ∧
      entry = (readPriceBigEndian c.pfx, total ((front ++ [c]).map TrieNode.priceGroup)) := by
  rw [generateMetadataIndex_eq, indexOf, List.mem_cons] at listed
  refine listed.imp_right (fun listed => ?_)
  obtain ⟨_, _, _, shape, rfl⟩ := mem_runningTotals listed
  obtain ⟨front, rest, levels, rfl, tail⟩ := List.map_eq_append_iff.mp shape
  obtain ⟨c, back, rfl, rfl, -⟩ := List.map_eq_cons_iff.mp tail
  refine ⟨front, c, back, levels, ?_⟩
  rw [zero_add, List.map_append]
  rfl

/-- The offers of the levels up to one of them are the offers up to its price. -/
theorem upTo_levels (stocked : Stocked book) {front back : List (TrieNode Offer)} {c : TrieNode Offer}
    (shape : book.levels = front ++ c :: back) :
    (front ++ [c]).flatMap TrieNode.values = upTo (readPriceBigEndian c.pfx) book.listOffers := by
  have levels : ∀ c ∈ book.levels, Level c := fun c reached => OfferTrie.level stocked reached
  have ascending := groups_ascending stocked
  rw [OfferTrie.groups, shape, List.map_append, List.map_cons, Ascending, List.pairwise_append,
    List.pairwise_cons] at ascending
  obtain ⟨-, ⟨above, -⟩, below⟩ := ascending
  have chosen := filter_levels levels (fun price => decide (price ≤ readPriceBigEndian c.pfx))
  have low : front.filter (fun c' => decide (readPriceBigEndian c'.pfx ≤ readPriceBigEndian c.pfx)) = front :=
    List.filter_eq_self.mpr (fun c' listed => decide_eq_true (Std.le_of_lt
      (below _ (List.mem_map_of_mem listed) _ List.mem_cons_self)))
  have high : back.filter (fun c' => decide (readPriceBigEndian c'.pfx ≤ readPriceBigEndian c.pfx)) = [] :=
    List.filter_eq_nil_iff.mpr (fun c' listed included => absurd (above _ (List.mem_map_of_mem listed))
      (BitVec.not_lt.mpr (of_decide_eq_true included)))
  rw [OfferTrie.values_levels stocked, shape, List.filter_append, List.filter_cons,
    if_pos (decide_eq_true (BitVec.le_refl _)), low, high] at chosen
  exact chosen.symm

end Lookup

/-- An index that lists the limit prices of the offers in order, each with the exact sums over the
offers up to it. -/
structure ExactIndex (offers : List Offer) (index : List IndexedMetadata) : Prop where
  increasing : (index.map Prod.fst).Pairwise (· < ·)
  prices : ∀ price, price ∈ index.map Prod.fst ↔ price = 0 ∨ ∃ offer ∈ offers, offer.minPrice = price
  sums : ∀ entry ∈ index, Accumulates (upTo entry.1 offers) entry.2

/-- The index of the book is exact, and so is the lookup at `p`; the coroutine agrees with it; and a
lower price finds no more. -/
structure ExactLookup (book : OfferTrie) (p : Price) : Prop where
  index : ExactIndex book.listOffers (generateMetadataIndex book)
  lookup : Accumulates (upTo p book.listOffers) (getMetadata (generateMetadataIndex book) p)
  coroutine : ∃ n, (GetMetadataTask.resume (generateMetadataIndex book) p)^[n] .created =
    .returned (getMetadata (generateMetadataIndex book) p)
  monotone : ∀ q, q ≤ p →
    (getMetadata (generateMetadataIndex book) q).endow.toInt ≤ (getMetadata (generateMetadataIndex book) p).endow.toInt ∧
    (getMetadata (generateMetadataIndex book) q).endowTimesPrice.toInt ≤
      (getMetadata (generateMetadataIndex book) p).endowTimesPrice.toInt

section Exact

variable {book : OfferTrie}

theorem index_increasing (stocked : Stocked book) :
    ((generateMetadataIndex book).map Prod.fst).Pairwise (· < ·) := by
  rw [generateMetadataIndex_eq, indexOf, List.map_cons, keys_runningTotals, List.pairwise_cons]
  refine ⟨fun price listed => ?_, List.pairwise_map.mpr (groups_ascending stocked)⟩
  obtain ⟨row, group, rfl⟩ := List.mem_map.mp listed
  obtain ⟨c, reached, rfl⟩ := List.mem_map.mp group
  have level := OfferTrie.level stocked reached
  obtain ⟨offer, present⟩ := List.exists_mem_of_ne_nil _ level.filled
  have whole : offer ∈ book.listOffers := by
    rw [← OfferTrie.values_levels stocked]
    exact List.mem_flatMap.mpr ⟨c, reached, present⟩
  have price := (isValidPrice_iff.mp (stocked.offer whole).1).1
  rw [level.priced offer present] at price
  exact BitVec.lt_def.mpr price

theorem index_prices (stocked : Stocked book) (price : Price) :
    price ∈ (generateMetadataIndex book).map Prod.fst ↔ price = 0 ∨ ∃ offer ∈ book.listOffers, offer.minPrice = price := by
  rw [generateMetadataIndex_eq, indexOf, List.map_cons, keys_runningTotals, List.mem_cons]
  refine or_congr_right ⟨fun listed => ?_, ?_⟩
  · obtain ⟨row, group, rfl⟩ := List.mem_map.mp listed
    obtain ⟨c, reached, rfl⟩ := List.mem_map.mp group
    obtain ⟨offer, present⟩ := List.exists_mem_of_ne_nil _ (OfferTrie.level stocked reached).filled
    refine ⟨offer, ?_, (OfferTrie.level stocked reached).priced offer present⟩
    rw [← OfferTrie.values_levels stocked]
    exact List.mem_flatMap.mpr ⟨c, reached, present⟩
  · rintro ⟨offer, listed, rfl⟩
    rw [← OfferTrie.values_levels stocked] at listed
    obtain ⟨c, reached, present⟩ := List.mem_flatMap.mp listed
    rw [(OfferTrie.level stocked reached).priced offer present]
    exact List.mem_map_of_mem (List.mem_map_of_mem reached)

theorem index_sums (stocked : Stocked book) (fits : sold book.listOffers < 2 ^ 63) :
    ∀ entry ∈ generateMetadataIndex book, Accumulates (upTo entry.1 book.listOffers) entry.2 := by
  intro entry listed
  rcases mem_index listed with rfl | ⟨front, c, back, shape, rfl⟩
  · have none : upTo 0 book.listOffers = [] := by
      refine List.filter_eq_nil_iff.mpr (fun offer present low => ?_)
      have price := (isValidPrice_iff.mp (stocked.offer present).1).1
      have zero : offer.minPrice.toNat ≤ 0 := BitVec.le_def.mp (of_decide_eq_true low)
      omega
    rw [none]
    exact ⟨rfl, rfl⟩
  · rw [← upTo_levels stocked shape]
    refine accumulates_of_fits (fun c' present => OfferTrie.level stocked ?_) ?_
    · rw [shape]
      rw [List.mem_append, List.mem_singleton] at present
      rcases present with inside | rfl
      · exact List.mem_append_left _ inside
      · simp
    · rw [upTo_levels stocked shape]
      exact (sold_le List.filter_sublist).trans_lt fits

/-- Leaving out the offers of the greatest price loses their amounts. -/
theorem sold_seen_lt (stocked : Stocked book) {p : Price} (greatest : GreatestPrice book.listOffers p) :
    sold (seen book.listOffers p) < sold (upTo p book.listOffers) := by
  obtain ⟨offer, listed, price⟩ := greatest.1
  have positive := (stocked.offer listed).2
  have all : upTo p book.listOffers = book.listOffers :=
    List.filter_eq_self.mpr (fun offer' listed' => decide_eq_true (greatest.2 offer' listed'))
  have left : offer ∈ book.listOffers.filter (fun offer => !decide (offer.minPrice < p)) := by
    rw [List.mem_filter, price]
    exact ⟨listed, by simp [BitVec.lt_irrefl]⟩
  rw [seen_of_greatest greatest, all, sold_filter_add (fun offer => decide (offer.minPrice < p)) book.listOffers]
  have some := le_sold left
  omega

/-- The lookup is exact if and only if the amounts of the book fit an `int64_t` and the price is not the
greatest limit price of the book. -/
theorem exactLookup_iff (stocked : Stocked book) (p : Price) : ExactLookup book p ↔
    sold book.listOffers ≤ 2 ^ 63 - 1 ∧ ¬ GreatestPrice book.listOffers p := by
  constructor
  · intro exact
    have fits : sold book.listOffers < 2 ^ 63 := by
      rcases List.eq_nil_or_concat' book.levels with none | ⟨front, c, shape⟩
      · rw [← OfferTrie.values_levels stocked, none]
        decide
      · have whole := upTo_levels stocked shape
        rw [← shape, OfferTrie.values_levels stocked] at whole
        have reached : c ∈ book.levels := by
          rw [shape]
          simp
        obtain ⟨offer, present⟩ := List.exists_mem_of_ne_nil _ (OfferTrie.level stocked reached).filled
        have listed : offer ∈ book.listOffers := by
          rw [← OfferTrie.values_levels stocked]
          exact List.mem_flatMap.mpr ⟨c, reached, present⟩
        have key := (exact.index.prices (readPriceBigEndian c.pfx)).mpr
          (Or.inr ⟨offer, listed, (OfferTrie.level stocked reached).priced offer present⟩)
        obtain ⟨entry, indexed, same⟩ := List.mem_map.mp key
        have sum := (exact.index.sums entry indexed).endow
        rw [same, ← whole] at sum
        have bound := BitVec.toInt_lt (x := entry.2.endow)
        omega
    refine ⟨by omega, fun greatest => ?_⟩
    have looked := exact.lookup.endow
    rw [(getMetadata_seen stocked fits p).endow] at looked
    have fewer := sold_seen_lt stocked greatest
    omega
  · rintro ⟨fits, other⟩
    have fits : sold book.listOffers < 2 ^ 63 := by omega
    refine ⟨⟨index_increasing stocked, index_prices stocked, index_sums stocked fits⟩, ?_,
      GetMetadataTask.created_returns _ _, fun q le => ?_⟩
    · rw [← seen_of_not_greatest other]
      exact getMetadata_seen stocked fits p
    · have low := getMetadata_seen stocked fits q
      have high := getMetadata_seen stocked fits p
      rw [seen_of_not_greatest other] at high
      have fewer := (seen_sublist book.listOffers q).trans (upTo_sublist le book.listOffers)
      rw [low.endow, low.endowTimesPrice, high.endow, high.endowTimesPrice]
      exact ⟨Int.ofNat_le.mpr (sold_le fewer), Int.ofNat_le.mpr (worth_le fewer)⟩

end Exact

section Sole

open TrieNode

/-- A book with just one offer. -/
def soleBook (offer : Offer) : OfferTrie := ⟨makeValueLeaf .overwrite offer.key offer, none⟩

theorem soleBook_stocked {offer : Offer} (price : isValidPrice offer.minPrice = true)
    (positive : 0 < offer.amount.toInt) : Stocked (soleBook offer) := by
  constructor
  · exact Or.inr ⟨shaped_makeValueLeaf .overwrite offer offer.length_key, compactAt_leaf _ _ _ _⟩
  · intro key l found
    rw [soleBook, MerkleTrie.find, makeValueLeaf, find_leaf, Option.ite_none_right_eq_some] at found
    obtain ⟨rfl, same⟩ := found
    cases same
    exact ⟨rfl, price, positive⟩

theorem listOffers_soleBook (offer : Offer) : (soleBook offer).listOffers = [offer] := rfl

/-- Five units at the price one. -/
def soleOffer : Offer where
  category := ⟨0, 1, .sell⟩
  offerId := 256
  owner := 7
  amount := 5
  minPrice := 2 ^ 24

theorem index_soleBook : generateMetadataIndex (soleBook soleOffer) = [(0, 0), (2 ^ 24, ⟨5, 5 * 2 ^ 24⟩)] := by decide

theorem exactLookup_sample : Stocked (soleBook soleOffer) ∧ (ExactLookup (soleBook soleOffer) 1 ↔
    sold (soleBook soleOffer).listOffers ≤ 2 ^ 63 - 1 ∧ ¬ GreatestPrice (soleBook soleOffer).listOffers 1) :=
  have stocked := @soleBook_stocked soleOffer (by decide) (by decide)
  ⟨stocked, exactLookup_iff stocked 1⟩

/-- At its own price the only offer of a book is not found. -/
theorem getMetadata_misses : Stocked (soleBook soleOffer) ∧
    (soleBook soleOffer).listOffers = [soleOffer] ∧
    getMetadata (generateMetadataIndex (soleBook soleOffer)) soleOffer.minPrice = 0 ∧
    ¬ ExactLookup (soleBook soleOffer) soleOffer.minPrice := by
  have missed : getMetadata (generateMetadataIndex (soleBook soleOffer)) soleOffer.minPrice = 0 := by
    rw [index_soleBook, getMetadata, search]
    decide
  refine ⟨soleBook_stocked (by decide) (by decide), listOffers_soleBook _, missed, fun exact => ?_⟩
  have looked := exact.lookup.endow
  rw [missed, listOffers_soleBook] at looked
  revert looked
  decide

end Sole

end Speedex
