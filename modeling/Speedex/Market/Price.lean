import Mathlib.Data.BitVec

set_option autoImplicit false

/- `price_utils.h` and `fixed_point_value.h`: prices are 24.24 bit fixed point numbers in a
`uint64_t`, and a `FractionalAsset` is an `unsigned __int128` with ten fractional bits. -/
namespace Speedex

abbrev Price := BitVec 64

namespace PriceUtils

def priceRadix : Nat := 24

/-- `PRICE_MAX`, that is `0xffffff.ffffff`. -/
def priceMax : Price := 2 ^ 48 - 1

def isValidPrice (price : Price) : Bool := price.ule priceMax && price != 0

/-- `a_over_b_lt_c`, compared without the division. -/
def aOverBLtC (a b c : Price) : Bool :=
  (a.setWidth 128 <<< priceRadix).ult (b.setWidth 128 * c.setWidth 128)

/-- `wide_multiply_val_by_a_over_b`. -/
def wideMultiplyValByAOverB (value : BitVec 128) (a b : Price) : BitVec 128 :=
  let denom := b.setWidth 128
  let numer := a.setWidth 128
  let modulo := value / denom * numer
  let remainder := value % denom * numer / denom
  modulo + remainder

end PriceUtils

/-- `FixedPrecision<10, unsigned __int128>`. -/
@[ext] structure FractionalAsset where
  value : BitVec 128
deriving DecidableEq, Repr

namespace FractionalAsset

def radix : Nat := 10

def getLowbitsMask (queryRadix : Nat) : BitVec 128 := (1 <<< queryRadix) - 1

def fromRaw (value : BitVec 128) : FractionalAsset := ⟨value⟩
def fromIntegral (value : BitVec 128) : FractionalAsset := ⟨value <<< radix⟩

/-- An `int64_t` converts to `unsigned __int128` by sign extension. -/
def fromInt64 (value : BitVec 64) : FractionalAsset := fromIntegral (value.signExtend 128)

/-- A `uint64_t` converts by zero extension. -/
def fromUint64 (value : BitVec 64) : FractionalAsset := fromIntegral (value.setWidth 128)

instance : Zero FractionalAsset := ⟨⟨0⟩⟩
instance : Add FractionalAsset := ⟨fun a b => ⟨a.value + b.value⟩⟩
instance : Sub FractionalAsset := ⟨fun a b => ⟨a.value - b.value⟩⟩

@[simp] theorem zero_value : (0 : FractionalAsset).value = 0 := rfl
@[simp] theorem add_value (a b : FractionalAsset) : (a + b).value = a.value + b.value := rfl
@[simp] theorem sub_value (a b : FractionalAsset) : (a - b).value = a.value - b.value := rfl

instance : AddCommMonoid FractionalAsset where
  add_assoc a b c := by ext1; simp [add_assoc]
  zero_add a := by ext1; simp
  add_zero a := by ext1; simp
  add_comm a b := by ext1; simp [add_comm]
  nsmul := nsmulRec

def floor (a : FractionalAsset) : BitVec 128 := a.value >>> radix

def ceil (a : FractionalAsset) : BitVec 128 :=
  a.floor + if a.value &&& getLowbitsMask radix ≠ 0 then 1 else 0

/-- What both `tax` and `tax_and_round` leave, before the latter rounds. -/
def afterTax (a : FractionalAsset) (taxRate : BitVec 8) : BitVec 128 :=
  let tax := a.value >>> taxRate.toNat
  a.value - if a.value &&& getLowbitsMask taxRate.toNat ≠ 0 then tax + 1 else tax

def taxAndRound (a : FractionalAsset) (taxRate : BitVec 8) : BitVec 128 := a.afterTax taxRate >>> radix

def tax (a : FractionalAsset) (taxRate : BitVec 8) : FractionalAsset := fromRaw (a.afterTax taxRate)

end FractionalAsset

end Speedex
