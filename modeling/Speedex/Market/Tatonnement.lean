import Speedex.Library.Branches
import Speedex.Library.Machine
import Speedex.Market.Price

set_option autoImplicit false

/- `tatonnement_oracle.cc`: the search for clearing prices. Worker threads move their prices step by step,
and the first one that clears publishes them. -/
namespace Speedex

open Machine

/-- What ends a worker thread. -/
inductive TatonnementFault where
  | undefined (reason : Undefined)
  | clzOfZero
  | negativeShift
  | uninitialised
  | runtimeError (what : String)
deriving DecidableEq, Repr

namespace PriceUtils

def priceBitLen : Nat := 2 * priceRadix

def imposeBounds (val : BitVec 128) : Price :=
  if priceMax.setWidth 128 < val then priceMax else if val = 0 then 1 else val.setWidth 64

def uint64Max : BitVec 128 := 2 ^ 64 - 1

/-- The two halves of a wide factor. -/
def lowHalf (x : BitVec 128) : BitVec 128 := x &&& uint64Max

def highHalf (x : BitVec 128) : BitVec 128 := (x >>> 64) &&& uint64Max

/-- What is left of a product, capped at `PRICE_MAX`. -/
def capPrice (out : BitVec 128) : Price := if priceMax.setWidth 128 < out then priceMax else out.setWidth 64

/-- `used_highbits`. -/
def usedHighbits (lowbitsToDrop : Nat) : Nat :=
  if 128 - lowbitsToDrop ≤ priceBitLen then priceBitLen - (128 - lowbitsToDrop) else 0

/-- `safe_multiply_and_drop_lowbits`. -/
def safeMultiplyAndDropLowbits (first second : BitVec 128) (lowbitsToDrop : Nat) : Except TatonnementFault Price :=
  if lowbitsToDrop < 64 ∨ lowbitsToDrop > 196 then .error (.runtimeError "unimplemented")
  else do
    let lowLow := lowHalf first * lowHalf second
    let lowHigh := lowHalf first * highHalf second
    let highLow := highHalf first * lowHalf second
    let highHigh := highHalf first * highHalf second
    let out := if lowbitsToDrop < 128 then lowLow >>> lowbitsToDrop else 0
    let left ← (checkedShiftRight lowHigh (lowbitsToDrop - 64)).mapError .undefined
    let right ← (checkedShiftRight highLow (lowbitsToDrop - 64)).mapError .undefined
    let out := out + (left + right)
    if lowbitsToDrop ≤ 128 then
      let maxHighbits : BitVec 64 := (1 <<< usedHighbits lowbitsToDrop) - 1
      let highHigh := if maxHighbits.setWidth 128 < highHigh then maxHighbits.setWidth 128 else highHigh
      .ok (capPrice (out + highHigh <<< (128 - lowbitsToDrop)))
    else .ok (capPrice (out + highHigh >>> (lowbitsToDrop - 128)))

end PriceUtils

open PriceUtils

/-- The parameters of a search; `diff_reduction` is not read. -/
structure TatonnementControlParameters where
  stepRadix : BitVec 8
  minStep : BitVec 64
  stepAdjustRadix : BitVec 8
  useInCaseOfTimeout : Bool
  useVolumeRelativizer : Bool
deriving DecidableEq, Repr

/-- The workers that `start_tatonnement_threads` starts. -/
def workerParameters : List TatonnementControlParameters :=
  [⟨95, 1 <<< 7, 5, true, false⟩, ⟨84, 1 <<< 7, 5, false, false⟩, ⟨73, 1 <<< 7, 5, false, false⟩,
    ⟨95, 1 <<< 7, 5, false, true⟩, ⟨84, 1 <<< 7, 5, false, true⟩, ⟨73, 1 <<< 7, 5, false, true⟩]

/-- `(uint16_t) (1.4 * ((double) (((uint16_t)1) << step_adjust_radix)))`. -/
def stepUp (stepAdjustRadix : BitVec 8) : BitVec 16 := BitVec.ofNat 16 (14 * 2 ^ stepAdjustRadix.toNat / 10)

/-- `(uint16_t) (0.8 * ((double) (((uint16_t)1) << step_adjust_radix)))`. -/
def stepDown (stepAdjustRadix : BitVec 8) : BitVec 16 := BitVec.ofNat 16 (8 * 2 ^ stepAdjustRadix.toNat / 10)

def incrementStep (step : BitVec 64) (stepUp : BitVec 16) (stepAdjustRadix : BitVec 8) :
    Except TatonnementFault (BitVec 64) := do
  let increment ← (checkedShiftRight (step * stepUp.setWidth 64) stepAdjustRadix.toNat).mapError .undefined
  -- on overflow the step stays as it is
  .ok (if increment < step then step else increment)

def decrementStep (step : BitVec 64) (stepDown : BitVec 16) (stepAdjustRadix : BitVec 8) :
    Except TatonnementFault (BitVec 64) :=
  (checkedShiftRight (step * stepDown.setWidth 64) stepAdjustRadix.toNat).mapError .undefined

/-- `get_trial_price`. -/
def getTrialPrice (demand supply : BitVec 128) (oldPrice : Price) (step : BitVec 64) (volumeRelativizer : BitVec 16)
    (controlParams : TatonnementControlParameters) : Except TatonnementFault Price := do
  let appliedRelativizer := if controlParams.useVolumeRelativizer then volumeRelativizer else 1
  let lowbitsToDrop := controlParams.stepRadix.toNat + priceRadix
  let pTimesStep := step.setWidth 128 * oldPrice.setWidth 128
  if supply < demand then
    let diff := demand - supply
    let pTimesDiff := oldPrice.setWidth 128 * appliedRelativizer.setWidth 128 * diff
    let delta ← safeMultiplyAndDropLowbits pTimesStep pTimesDiff lowbitsToDrop
    .ok (imposeBounds ((oldPrice + delta).setWidth 128))
  else
    let diff := supply - demand
    let pTimesDiff := oldPrice.setWidth 128 * appliedRelativizer.setWidth 128 * diff
    let delta ← safeMultiplyAndDropLowbits pTimesStep pTimesDiff lowbitsToDrop
    .ok (if oldPrice ≤ delta then 1 else oldPrice - delta)

section

variable {numAssets : Nat}

def setTrialPrices (oldPrices : Fin numAssets → Price) (step : BitVec 64)
    (controlParams : TatonnementControlParameters) (volumeRelativizers : Fin numAssets → BitVec 16)
    (demands supplies : Fin numAssets → BitVec 128) : Except TatonnementFault (Fin numAssets → Price) :=
  Branches.sequence numAssets (fun i =>
    getTrialPrice (demands i) (supplies i) (oldPrices i) step (volumeRelativizers i) controlParams)

/-- A shift by the width or more counts as zero here. -/
def checkClearing (demands supplies : Fin numAssets → BitVec 128) (taxRate : BitVec 8) : Bool :=
  ∀ i, ¬ supplies i < demands i - demands i >>> taxRate.toNat

/-- `__builtin_clzll`. -/
def clzll (x : BitVec 64) : Except TatonnementFault Int :=
  if x = 0 then .error .clzOfZero else .ok x.clz.toNat

/-- `p_min` and `p_max`; the first price is there if there is an asset. -/
def extremePrices (pricesWorkspace : Fin numAssets → Price) : Price × Price :=
  let first := (List.ofFn pricesWorkspace).head?.getD 0
  (List.ofFn pricesWorkspace).foldl
    (fun m price => (if price < m.1 then price else m.1, if m.2 < price then price else m.2)) (first, first)

/-- The prices and the shift. -/
def normalizePrices (pricesWorkspace : Fin numAssets → Price) :
    Except TatonnementFault ((Fin numAssets → Price) × Int) := do
  let pMin := (extremePrices pricesWorkspace).1
  let pMax := (extremePrices pricesWorkspace).2
  let leading ← clzll pMax
  let spaceToTop := leading - (64 - priceBitLen)
  -- `space_to_bot`, which nothing reads
  let _ ← clzll pMin
  if spaceToTop > 10 then
    let adjust := (spaceToTop / 2).toNat
    .ok (fun i => pricesWorkspace i <<< adjust, spaceToTop / 2)
  else if spaceToTop < 3 then .ok (fun i => pricesWorkspace i >>> 2, -2)
  else .ok (pricesWorkspace, 0)

/-- The locals of `grid_search_tatonnement_query`; the trial prices are uninitialised at first. -/
structure GridState (numAssets : Nat) where
  pricesWorkspace : Fin numAssets → Price
  trialPrices : Option (Fin numAssets → Price)
  step : BitVec 64
  suppliesSearch : Fin numAssets → BitVec 128
  demandsSearch : Fin numAssets → BitVec 128
  roundNumber : Nat
  clearing : Bool
  forceStepRounds : Nat

/-- What a round hears from outside: the LP solver, the flag that the workers share, the demand oracle
and the comparison of the objectives. -/
structure RoundAnswer (numAssets : Nat) where
  solverRes : Bool
  notFirstClear : Bool
  suppliesWorkspace : Fin numAssets → BitVec 128
  demandsWorkspace : Fin numAssets → BitVec 128
  isBetterThan : Bool
  otherFinisher : Bool

inductive RoundResult (numAssets : Nat) where
  | running (state : GridState numAssets)
  | returned (success : Bool) (pricesWorkspace : Fin numAssets → Price)

namespace GridState

def start (controlParams : TatonnementControlParameters) (prices : Fin numAssets → Price)
    (supplies demands : Fin numAssets → BitVec 128) : GridState numAssets where
  pricesWorkspace := prices
  trialPrices := none
  step := controlParams.minStep
  suppliesSearch := supplies
  demandsSearch := demands
  roundNumber := 0
  clearing := false
  forceStepRounds := 0

def lpCheckFreq : Nat := 1000

/-- `clearing` after the LP check, which looks at the trial prices. -/
def checkFeasibility (state : GridState numAssets) (solverRes : Bool) : Except TatonnementFault Bool :=
  if state.roundNumber % lpCheckFreq = lpCheckFreq - 1 then
    match state.trialPrices with
    | none => .error .uninitialised
    | some _ => .ok (state.clearing || solverRes)
  else .ok state.clearing

/-- The trial prices are accepted, or the step shrinks. -/
def acceptOrReject (controlParams : TatonnementControlParameters) (state : GridState numAssets)
    (trialPrices : Fin numAssets → Price) (answer : RoundAnswer numAssets) :
    Except TatonnementFault (GridState numAssets) :=
  if answer.isBetterThan ∨ state.step < controlParams.minStep ∨ state.clearing ∨ 0 < state.forceStepRounds then do
    let step ← incrementStep state.step (stepUp controlParams.stepAdjustRadix) controlParams.stepAdjustRadix
    .ok { state with
      pricesWorkspace := trialPrices
      suppliesSearch := answer.suppliesWorkspace
      demandsSearch := answer.demandsWorkspace
      forceStepRounds := state.forceStepRounds - 1
      step := step }
  else if 0 < state.forceStepRounds then .error (.runtimeError "wtf")
  else do
    let step ← decrementStep state.step (stepDown controlParams.stepAdjustRadix) controlParams.stepAdjustRadix
    .ok { state with step := step }

/-- A round up to the normalisation of the prices. -/
def search (controlParams : TatonnementControlParameters) (taxRate : BitVec 8)
    (volumeRelativizers : Fin numAssets → BitVec 16) (state : GridState numAssets) (answer : RoundAnswer numAssets) :
    Except TatonnementFault (RoundResult numAssets) := do
  let clearing ← state.checkFeasibility answer.solverRes
  if clearing then
    if answer.notFirstClear then .ok (.returned false state.pricesWorkspace)
    else
      match state.trialPrices with
      | none => .error .uninitialised
      | some trialPrices => .ok (.returned true trialPrices)
  else
    let trialPrices ← setTrialPrices state.pricesWorkspace state.step controlParams volumeRelativizers
      state.demandsSearch state.suppliesSearch
    let state := { state with
      trialPrices := some trialPrices
      roundNumber := state.roundNumber + 1
      forceStepRounds := if trialPrices = state.pricesWorkspace then 10 else state.forceStepRounds
      clearing := checkClearing answer.demandsWorkspace answer.suppliesWorkspace taxRate }
    if state.roundNumber % 10000 = 9999 ∧ answer.otherFinisher then .ok (.returned false state.pricesWorkspace)
    else do
      let state ← state.acceptOrReject controlParams trialPrices answer
      .ok (.running state)

/-- The normalisation, which adjusts the step to the prices. -/
def normalize (controlParams : TatonnementControlParameters) (state : GridState numAssets) :
    Except TatonnementFault (GridState numAssets) := do
  let (pricesWorkspace, adjust) ← normalizePrices state.pricesWorkspace
  if adjust = 0 then .ok { state with pricesWorkspace := pricesWorkspace }
  else if 0 < adjust then do
    let step ← (checkedShiftRight state.step adjust.toNat).mapError .undefined
    .ok { state with
      pricesWorkspace := pricesWorkspace
      step := if step < controlParams.minStep then controlParams.minStep else step }
  else .error .negativeShift -- `step <<= adjust`

/-- One round of the loop. -/
def round (controlParams : TatonnementControlParameters) (taxRate : BitVec 8)
    (volumeRelativizers : Fin numAssets → BitVec 16) (state : GridState numAssets) (answer : RoundAnswer numAssets) :
    Except TatonnementFault (RoundResult numAssets) := do
  match ← state.search controlParams taxRate volumeRelativizers answer with
  | .returned success pricesWorkspace => .ok (.returned success pricesWorkspace)
  | .running state =>
    if state.roundNumber % 1000 = 0 then do
      let state ← state.normalize controlParams
      .ok (.running state)
    else .ok (.running state)

end GridState

/-- The shared prices, and the searches of the workers that have one. -/
structure OracleState (numAssets : Nat) where
  internalSharedPriceWorkspace : Fin numAssets → Price
  searches : List (Option (GridState numAssets))

inductive OracleAction (numAssets : Nat) where
  /-- `compute_prices_grid_search` -/
  | query (prices : Fin numAssets → Price)
  | start (worker : Nat) (supplies demands : Fin numAssets → BitVec 128)
  | round (worker : Nat) (answer : RoundAnswer numAssets) (timeoutHappened : Bool)

namespace OracleState

def new (prices : Fin numAssets → Price) : OracleState numAssets where
  internalSharedPriceWorkspace := prices
  searches := workerParameters.map (fun _ => none)

/-- `run_tatonnement_thread`: a waiting worker starts a search, a searching one goes on, and a search that
ends may publish its prices. -/
def step (taxRate : BitVec 8) (volumeRelativizers : Fin numAssets → BitVec 16) (state : OracleState numAssets) :
    OracleAction numAssets → Except TatonnementFault (OracleState numAssets)
  | .query prices => .ok { state with internalSharedPriceWorkspace := prices }
  | .start worker supplies demands =>
    match workerParameters[worker]?, state.searches[worker]? with
    | some controlParams, some none => .ok { state with
        searches := state.searches.set worker
          (some (.start controlParams state.internalSharedPriceWorkspace supplies demands)) }
    | _, _ => .ok state
  | .round worker answer timeoutHappened =>
    match workerParameters[worker]?, state.searches[worker]? with
    | some controlParams, some (some search) =>
      match search.round controlParams taxRate volumeRelativizers answer with
      | .error fault => .error fault
      | .ok (.running search) => .ok { state with searches := state.searches.set worker (some search) }
      | .ok (.returned success pricesWorkspace) => .ok {
          internalSharedPriceWorkspace :=
            if success ∨ (timeoutHappened ∧ controlParams.useInCaseOfTimeout) then pricesWorkspace
            else state.internalSharedPriceWorkspace
          searches := state.searches.set worker none }
    | _, _ => .ok state

end OracleState

end

end Speedex
