import Speedex.Market.Price
import Speedex.Trie.Node

set_option autoImplicit false

/- Offers, their categories and the keys under which a work unit stores them. -/
namespace Speedex

abbrev AccountID := BitVec 64
abbrev AssetID := BitVec 32

/-- `OfferType`. An XDR enumeration carries any 32 bit code, and only `SELL` has a meaning. -/
inductive OfferType where
  | sell
  | other (code : BitVec 32)
deriving DecidableEq, Repr

structure OfferCategory where
  sellAsset : AssetID
  buyAsset : AssetID
  type : OfferType
deriving DecidableEq, Repr

structure Offer where
  category : OfferCategory
  offerId : BitVec 64
  owner : AccountID
  amount : BitVec 64
  minPrice : Price
deriving DecidableEq, Repr

instance : Inhabited Offer := ⟨⟨⟨0, 0, .sell⟩, 0, 0, 0, 0⟩⟩

/-- `WorkUnitMetadata(offer)`: the `uint64_t` amount read as an `int64_t`. -/
instance : TrieValue Offer := ⟨Offer.amount⟩

/-- The digits of the low `n` nibbles of a word, most significant first, as the big endian writers
store them. -/
def bigEndian {w : Nat} (value : BitVec w) : Nat → Key
  | 0 => []
  | n + 1 => Fin.ofNat 16 (value >>> (4 * n)).toNat :: bigEndian value n

/-- `WORKUNIT_KEY_LEN` in nibbles: six bytes of price, eight of owner, eight of offer id. -/
def workUnitKeyLen : Nat := 44

theorem workUnitKeyLen_pos : 0 < workUnitKeyLen := by decide

/-- `generate_key`. -/
def generateKey (minPrice : Price) (owner : AccountID) (offerId : BitVec 64) : Key :=
  bigEndian minPrice 12 ++ bigEndian owner 16 ++ bigEndian offerId 16

def Offer.key (offer : Offer) : Key := generateKey offer.minPrice offer.owner offer.offerId

@[simp] theorem length_bigEndian {w : Nat} (value : BitVec w) (n : Nat) : (bigEndian value n).length = n := by
  induction n with
  | zero => rfl
  | succ n ih => rw [bigEndian, List.length_cons, ih]

@[simp] theorem length_generateKey (minPrice : Price) (owner : AccountID) (offerId : BitVec 64) :
    (generateKey minPrice owner offerId).length = workUnitKeyLen := by
  simp [generateKey, workUnitKeyLen]

@[simp] theorem Offer.length_key (offer : Offer) : offer.key.length = workUnitKeyLen :=
  length_generateKey _ _ _

end Speedex
