import Lighthouse.Foundations.Checked
import Mathlib.Data.List.Basic

/-! Altair epoch rewards and penalties: the participation cache, the per-flag and inactivity
deltas, and their application to the balances, as `process_rewards_and_penalties` computes
them; beside it the specification's `process_rewards_and_penalties`, which applies the four
`(rewards, penalties)` lists one after another.

The implementation adds the four lists into one `Delta` per validator and applies one increase
and one saturating decrease. The specification saturates after each list, so a validator whose
balance is below a penalty from an early list and who earns a reward in a later one ends with a
different balance. Only what the `Ok` result holds is modelled: a run that fails is `.error`,
without the balances it had written. -/
namespace Lighthouse.EpochProcessing
open Checked

/-- `TIMELY_TARGET_FLAG_INDEX`. -/
def timelyTargetFlagIndex : Nat := 1

/-- `TIMELY_HEAD_FLAG_INDEX`. -/
def timelyHeadFlagIndex : Nat := 2

/-- `NUM_FLAG_INDICES`. -/
def numFlagIndices : Nat := 3

/-- `PARTICIPATION_FLAG_WEIGHTS`: source, target, head. -/
def participationFlagWeights : List Nat := [14, 26, 14]

/-- `WEIGHT_DENOMINATOR`. -/
def weightDenominator : Nat := 64

/-- `GENESIS_EPOCH`. -/
def genesisEpoch : Nat := 0

/-- The errors of epoch processing these functions return (`EpochProcessingError`, with the
`BeaconStateError`, `ArithError` and participation-cache errors it wraps). -/
inductive Error where
  | arithError
  | deltaOutOfBounds (index : Nat)
  | invalidFlagIndex (flagIndex : Nat)
  | unknownValidator (index : Nat)
  | balancesOutOfBounds (index : Nat)
  | inactivityScoresOutOfBounds (index : Nat)
  | participationOutOfBounds (index : Nat)
  | invalidValidatorIndex (index : Nat)
  | validatorIsInactive (index : Nat)
  | epochOutOfBounds
deriving DecidableEq, Repr

/-- A `safe_arith` operation propagated with `?`. -/
def arith (x : Option Nat) : Except Error Nat :=
  match x with
  | some a => .ok a
  | none => .error .arithError

/-- An indexed read that fails with the given error. -/
def getOr {α : Type} (xs : List α) (index : Nat) (e : Error) : Except Error α :=
  match xs[index]? with
  | some a => .ok a
  | none => .error e

/-- `ChainSpec`, the fields read here. -/
structure ChainSpec where
  effectiveBalanceIncrement : Nat
  baseRewardFactor : Nat
  inactivityScoreBias : Nat
  inactivityPenaltyQuotientAltair : Nat
  inactivityPenaltyQuotientBellatrix : Nat
  minEpochsToInactivityPenalty : Nat

/-- `Validator`, the fields read here. -/
structure Validator where
  effectiveBalance : Nat
  slashed : Bool
  activationEpoch : Nat
  exitEpoch : Nat
  withdrawableEpoch : Nat

/-- `Validator::is_active_at`. -/
def Validator.isActiveAt (v : Validator) (epoch : Nat) : Bool :=
  decide (v.activationEpoch ≤ epoch) && decide (epoch < v.exitEpoch)

/-- The forks whose states these functions take. -/
inductive Fork where
  | altair
  | merge
deriving DecidableEq, Repr

/-- An Altair or Merge `BeaconState`, the fields read here; participation flags are the `u8`
bits of `ParticipationFlags`. -/
structure BeaconState where
  fork : Fork
  currentEpoch : Nat
  finalizedCheckpointEpoch : Nat
  validators : List Validator
  balances : List Nat
  inactivityScores : List Nat
  previousEpochParticipation : List Nat
  currentEpochParticipation : List Nat

namespace BeaconState

/-- `previous_epoch`: the current epoch less one, the genesis epoch at genesis. -/
def previousEpoch (state : BeaconState) : Nat :=
  if state.currentEpoch > genesisEpoch then state.currentEpoch - 1 else state.currentEpoch

/-- `is_eligible_validator`; epoch addition saturates. -/
def isEligibleValidator (previousEpoch : Nat) (val : Validator) : Bool :=
  val.isActiveAt previousEpoch ||
    (val.slashed && decide (saturatingAddU64 previousEpoch 1 < val.withdrawableEpoch))

/-- `is_in_inactivity_leak`; epoch subtraction saturates. -/
def isInInactivityLeak (state : BeaconState) (previousEpoch : Nat) (spec : ChainSpec) : Bool :=
  decide (previousEpoch - state.finalizedCheckpointEpoch > spec.minEpochsToInactivityPenalty)

end BeaconState

/-- `inactivity_penalty_quotient_for_state`. -/
def ChainSpec.inactivityPenaltyQuotientForState (spec : ChainSpec) (state : BeaconState) : Nat :=
  match state.fork with
  | .altair => spec.inactivityPenaltyQuotientAltair
  | .merge => spec.inactivityPenaltyQuotientBellatrix

/-- `ParticipationFlags::has_flag`: bit `flagIndex` of the flags, an overflow past the last
flag. -/
def hasFlag (bits flagIndex : Nat) : Except Error Bool :=
  if flagIndex ≥ numFlagIndices then .error .arithError else .ok (bits.testBit flagIndex)

/-- `Balance`: a total that reads as at least its minimum. -/
structure Balance where
  raw : Nat
  minimum : Nat

/-- `Balance::get`. -/
def Balance.get (b : Balance) : Nat := max b.raw b.minimum

/-- `Balance::safe_add_assign`. -/
def Balance.add (b : Balance) (other : Nat) : Except Error Balance := do
  pure { b with raw := ← arith (addU64 b.raw other) }

/-- `SingleEpochParticipationCache`. -/
structure SingleEpochParticipationCache where
  unslashedParticipatingIndices : List (Option Nat)
  totalFlagBalances : List Balance
  totalActiveBalance : Balance

namespace SingleEpochParticipationCache

/-- `SingleEpochParticipationCache::new`. -/
def new (numValidators effectiveBalanceIncrement : Nat) : SingleEpochParticipationCache :=
  let zeroBalance : Balance := ⟨0, effectiveBalanceIncrement⟩
  { unslashedParticipatingIndices := List.replicate numValidators none
    totalFlagBalances := List.replicate numFlagIndices zeroBalance
    totalActiveBalance := zeroBalance }

/-- `total_flag_balance`. -/
def totalFlagBalance (c : SingleEpochParticipationCache) (flagIndex : Nat) : Except Error Nat :=
  (getOr c.totalFlagBalances flagIndex (.invalidFlagIndex flagIndex)).map Balance.get

/-- `has_flag`: whether the validator is unslashed, active and has the flag. -/
def hasFlag (c : SingleEpochParticipationCache) (valIndex flagIndex : Nat) : Except Error Bool :=
  match c.unslashedParticipatingIndices[valIndex]? with
  | none => .error (.invalidValidatorIndex valIndex)
  | some none => .ok false
  | some (some participationFlags) =>
    match EpochProcessing.hasFlag participationFlags flagIndex with
    | .ok b => .ok b
    | .error _ => .error (.invalidFlagIndex flagIndex)

/-- The flag balances with the validator's balance added to those of the flags it has. -/
def addFlagBalances (epochParticipation valBalance : Nat) :
    List (Balance × Nat) → Except Error (List Balance)
  | [] => .ok []
  | (balance, flag) :: rest => do
    let balance ← if ← EpochProcessing.hasFlag epochParticipation flag then balance.add valBalance
      else pure balance
    pure (balance :: (← addFlagBalances epochParticipation valBalance rest))

/-- `process_active_validator`, for the validator at `valIndex` and the participation of the
epoch `epoch`. -/
def processActiveValidator (c : SingleEpochParticipationCache) (valIndex : Nat)
    (state : BeaconState) (epoch : Nat) (participation : List Nat) :
    Except Error SingleEpochParticipationCache := do
  let validator ← getOr state.validators valIndex (.unknownValidator valIndex)
  let valBalance := validator.effectiveBalance
  if !validator.isActiveAt epoch then throw (.validatorIsInactive valIndex)
  let epochParticipation ← getOr participation valIndex (.participationOutOfBounds valIndex)
  let c := { c with totalActiveBalance := ← c.totalActiveBalance.add valBalance }
  if validator.slashed then return c
  if c.unslashedParticipatingIndices.length ≤ valIndex then throw (.unknownValidator valIndex)
  let c := { c with
    unslashedParticipatingIndices :=
      c.unslashedParticipatingIndices.set valIndex (some epochParticipation) }
  pure { c with
    totalFlagBalances :=
      ← addFlagBalances epochParticipation valBalance c.totalFlagBalances.zipIdx }

end SingleEpochParticipationCache

/-- `UnslashedParticipatingIndices`: one epoch's cache read for one flag. -/
structure UnslashedParticipatingIndices where
  participation : SingleEpochParticipationCache
  flagIndex : Nat

namespace UnslashedParticipatingIndices

/-- `contains`: the validator is active, unslashed and has the flag. -/
def contains (u : UnslashedParticipatingIndices) (valIndex : Nat) : Except Error Bool :=
  u.participation.hasFlag valIndex u.flagIndex

/-- `total_balance`: the flag's total, at least one increment. -/
def totalBalance (u : UnslashedParticipatingIndices) : Except Error Nat :=
  u.participation.totalFlagBalance u.flagIndex

end UnslashedParticipatingIndices

/-- `ParticipationCache`. -/
structure ParticipationCache where
  currentEpoch : Nat
  currentEpochParticipation : SingleEpochParticipationCache
  previousEpoch : Nat
  previousEpochParticipation : SingleEpochParticipationCache
  eligibleIndices : List Nat

namespace ParticipationCache

/-- One turn of the loop of `ParticipationCache::new`, over validator `valIndex`. -/
def newStep (state : BeaconState)
    (acc : SingleEpochParticipationCache × SingleEpochParticipationCache × List Nat)
    (entry : Validator × Nat) :
    Except Error (SingleEpochParticipationCache × SingleEpochParticipationCache × List Nat) := do
  let (current, previous, eligibleIndices) := acc
  let (val, valIndex) := entry
  let current ← if val.isActiveAt state.currentEpoch then
      current.processActiveValidator valIndex state state.currentEpoch
        state.currentEpochParticipation
    else pure current
  let previous ← if val.isActiveAt state.previousEpoch then
      previous.processActiveValidator valIndex state state.previousEpoch
        state.previousEpochParticipation
    else pure previous
  let eligibleIndices := if BeaconState.isEligibleValidator state.previousEpoch val then
      eligibleIndices ++ [valIndex]
    else eligibleIndices
  pure (current, previous, eligibleIndices)

/-- `ParticipationCache::new`. -/
def new (state : BeaconState) (spec : ChainSpec) : Except Error ParticipationCache := do
  let n := state.validators.length
  let empty := SingleEpochParticipationCache.new n spec.effectiveBalanceIncrement
  let (current, previous, eligibleIndices) ←
    state.validators.zipIdx.foldlM (newStep state) (empty, empty, [])
  pure
    { currentEpoch := state.currentEpoch
      currentEpochParticipation := current
      previousEpoch := state.previousEpoch
      previousEpochParticipation := previous
      eligibleIndices }

/-- `get_unslashed_participating_indices`: the cache of the epoch asked for, with the flag. -/
def getUnslashedParticipatingIndices (c : ParticipationCache) (flagIndex epoch : Nat) :
    Except Error UnslashedParticipatingIndices :=
  if epoch = c.currentEpoch then .ok ⟨c.currentEpochParticipation, flagIndex⟩
  else if epoch = c.previousEpoch then .ok ⟨c.previousEpochParticipation, flagIndex⟩
  else .error .epochOutOfBounds

/-- `current_epoch_total_active_balance`. -/
def currentEpochTotalActiveBalance (c : ParticipationCache) : Nat :=
  c.currentEpochParticipation.totalActiveBalance.get

/-- `previous_epoch_total_active_balance`. -/
def previousEpochTotalActiveBalance (c : ParticipationCache) : Nat :=
  c.previousEpochParticipation.totalActiveBalance.get

end ParticipationCache

/-- `Delta`. -/
structure Delta where
  rewards : Nat
  penalties : Nat

namespace Delta

/-- `Delta::reward`. -/
def reward (d : Delta) (r : Nat) : Except Error Delta := do
  pure { d with rewards := ← arith (addU64 d.rewards r) }

/-- `Delta::penalize`. -/
def penalize (d : Delta) (p : Nat) : Except Error Delta := do
  pure { d with penalties := ← arith (addU64 d.penalties p) }

/-- `Delta::combine`. -/
def combine (d other : Delta) : Except Error Delta := do
  (← d.reward other.rewards).penalize other.penalties

end Delta

/-- `combine` the delta into the one at `index`. -/
def combineAt (deltas : List Delta) (index : Nat) (delta : Delta) : Except Error (List Delta) := do
  let d ← getOr deltas index (.deltaOutOfBounds index)
  pure (deltas.set index (← d.combine delta))

/-- `get_base_reward_per_increment`, with the floor square root. -/
def getBaseRewardPerIncrement (totalActiveBalance : Nat) (spec : ChainSpec) : Except Error Nat := do
  let numerator ← arith (mulU64 spec.effectiveBalanceIncrement spec.baseRewardFactor)
  arith (divU64 numerator (Nat.sqrt totalActiveBalance))

/-- `get_base_reward`. -/
def getBaseReward (state : BeaconState) (index baseRewardPerIncrement : Nat) (spec : ChainSpec) :
    Except Error Nat := do
  let validator ← getOr state.validators index (.unknownValidator index)
  let increments ← arith (divU64 validator.effectiveBalance spec.effectiveBalanceIncrement)
  arith (mulU64 increments baseRewardPerIncrement)

/-- `get_flag_weight`. -/
def getFlagWeight (flagIndex : Nat) : Except Error Nat :=
  getOr participationFlagWeights flagIndex (.invalidFlagIndex flagIndex)

/-- The delta of one eligible validator for one flag, the body of the loop of
`get_flag_index_deltas`. -/
def flagIndexDelta (state : BeaconState) (flagIndex weight : Nat)
    (unslashedParticipatingIndices : UnslashedParticipatingIndices)
    (unslashedParticipatingIncrements activeIncrements baseReward : Nat) (spec : ChainSpec)
    (index : Nat) : Except Error Delta := do
  let delta : Delta := ⟨0, 0⟩
  if ← unslashedParticipatingIndices.contains index then
    if !state.isInInactivityLeak state.previousEpoch spec then
      let rewardNumerator ← arith (mulU64 (← arith (mulU64 baseReward weight))
        unslashedParticipatingIncrements)
      delta.reward (← arith (divU64 rewardNumerator
        (← arith (mulU64 activeIncrements weightDenominator))))
    else pure delta
  else if flagIndex ≠ timelyHeadFlagIndex then
    delta.penalize (← arith (divU64 (← arith (mulU64 baseReward weight)) weightDenominator))
  else pure delta

/-- `get_flag_index_deltas`: each eligible validator's delta for the flag, combined into
`deltas`. -/
def getFlagIndexDeltas (deltas : List Delta) (state : BeaconState) (flagIndex : Nat)
    (totalActiveBalance : Nat) (participationCache : ParticipationCache) (spec : ChainSpec) :
    Except Error (List Delta) := do
  let previousEpoch := state.previousEpoch
  let unslashedParticipatingIndices ←
    participationCache.getUnslashedParticipatingIndices flagIndex previousEpoch
  let weight ← getFlagWeight flagIndex
  let unslashedParticipatingBalance ← unslashedParticipatingIndices.totalBalance
  let unslashedParticipatingIncrements ←
    arith (divU64 unslashedParticipatingBalance spec.effectiveBalanceIncrement)
  let activeIncrements ← arith (divU64 totalActiveBalance spec.effectiveBalanceIncrement)
  let baseRewardPerIncrement ← getBaseRewardPerIncrement totalActiveBalance spec
  participationCache.eligibleIndices.foldlM (fun deltas index => do
    let baseReward ← getBaseReward state index baseRewardPerIncrement spec
    let delta ← flagIndexDelta state flagIndex weight unslashedParticipatingIndices
      unslashedParticipatingIncrements activeIncrements baseReward spec index
    combineAt deltas index delta) deltas

/-- The inactivity delta of one eligible validator, the body of the loop of
`get_inactivity_penalty_deltas`. -/
def inactivityPenaltyDelta (state : BeaconState)
    (matchingTargetIndices : UnslashedParticipatingIndices) (spec : ChainSpec) (index : Nat) :
    Except Error Delta := do
  let delta : Delta := ⟨0, 0⟩
  if !(← matchingTargetIndices.contains index) then
    let validator ← getOr state.validators index (.unknownValidator index)
    let inactivityScore ← getOr state.inactivityScores index (.inactivityScoresOutOfBounds index)
    let penaltyNumerator ← arith (mulU64 validator.effectiveBalance inactivityScore)
    let penaltyDenominator ← arith (mulU64 spec.inactivityScoreBias
      (spec.inactivityPenaltyQuotientForState state))
    delta.penalize (← arith (divU64 penaltyNumerator penaltyDenominator))
  else pure delta

/-- `get_inactivity_penalty_deltas`. -/
def getInactivityPenaltyDeltas (deltas : List Delta) (state : BeaconState)
    (participationCache : ParticipationCache) (spec : ChainSpec) : Except Error (List Delta) := do
  let matchingTargetIndices ← participationCache.getUnslashedParticipatingIndices
    timelyTargetFlagIndex state.previousEpoch
  participationCache.eligibleIndices.foldlM (fun deltas index => do
    combineAt deltas index (← inactivityPenaltyDelta state matchingTargetIndices spec index))
    deltas

/-- `increase_balance`: an overflow is an error. -/
def increaseBalance (balances : List Nat) (index delta : Nat) : Except Error (List Nat) := do
  let balance ← getOr balances index (.balancesOutOfBounds index)
  pure (balances.set index (← arith (addU64 balance delta)))

/-- `decrease_balance`: saturates at zero. -/
def decreaseBalance (balances : List Nat) (index delta : Nat) : Except Error (List Nat) := do
  let balance ← getOr balances index (.balancesOutOfBounds index)
  pure (balances.set index (balance - delta))

/-- `process_rewards_and_penalties`: the four lists added into one delta per validator, then
one increase and one saturating decrease each. -/
def processRewardsAndPenalties (state : BeaconState) (participationCache : ParticipationCache)
    (spec : ChainSpec) : Except Error BeaconState := do
  if state.currentEpoch = genesisEpoch then return state
  let deltas := List.replicate state.validators.length (⟨0, 0⟩ : Delta)
  let totalActiveBalance := participationCache.currentEpochTotalActiveBalance
  let deltas ← (List.range participationFlagWeights.length).foldlM (fun deltas flagIndex =>
    getFlagIndexDeltas deltas state flagIndex totalActiveBalance participationCache spec) deltas
  let deltas ← getInactivityPenaltyDeltas deltas state participationCache spec
  let balances ← deltas.zipIdx.foldlM (fun balances entry => do
    let (delta, i) := entry
    decreaseBalance (← increaseBalance balances i delta.rewards) i delta.penalties) state.balances
  pure { state with balances }

section Specification

/-! The specification's functions, over the state's fields directly. -/

/-- `get_unslashed_participating_indices` for the previous epoch, as a test on an index. -/
def specUnslashedParticipating (state : BeaconState) (flagIndex index : Nat) : Bool :=
  match state.validators[index]?, state.previousEpochParticipation[index]? with
  | some v, some flags =>
    v.isActiveAt state.previousEpoch && !v.slashed && flags.testBit flagIndex
  | _, _ => false

/-- `get_total_balance`: at least one increment. -/
def specTotalBalance (state : BeaconState) (spec : ChainSpec) (p : Nat → Validator → Bool) :
    Nat :=
  max spec.effectiveBalanceIncrement
    ((state.validators.zipIdx.filter fun e => p e.2 e.1).map (·.1.effectiveBalance)).sum

/-- `get_total_active_balance`. -/
def specTotalActiveBalance (state : BeaconState) (spec : ChainSpec) : Nat :=
  specTotalBalance state spec fun _ v => v.isActiveAt state.currentEpoch

/-- `get_base_reward`. -/
def specBaseReward (state : BeaconState) (spec : ChainSpec) (index : Nat) : Nat :=
  let v := (state.validators[index]?.map (·.effectiveBalance)).getD 0
  v / spec.effectiveBalanceIncrement * (spec.effectiveBalanceIncrement * spec.baseRewardFactor /
    Nat.sqrt (specTotalActiveBalance state spec))

/-- The eligible validators, `get_eligible_validator_indices`. -/
def specEligible (state : BeaconState) (index : Nat) : Bool :=
  (state.validators[index]?.map (BeaconState.isEligibleValidator state.previousEpoch)).getD false

/-- `get_flag_index_deltas`: the reward and the penalty of each validator. -/
def specFlagIndexDeltas (state : BeaconState) (spec : ChainSpec) (flagIndex : Nat) :
    List (Nat × Nat) :=
  let weight := participationFlagWeights.getD flagIndex 0
  let participatingIncrements :=
    specTotalBalance state spec (fun i _ => specUnslashedParticipating state flagIndex i) /
      spec.effectiveBalanceIncrement
  let activeIncrements := specTotalActiveBalance state spec / spec.effectiveBalanceIncrement
  (List.range state.validators.length).map fun index =>
    if !specEligible state index then (0, 0)
    else if specUnslashedParticipating state flagIndex index then
      if !state.isInInactivityLeak state.previousEpoch spec then
        (specBaseReward state spec index * weight * participatingIncrements /
          (activeIncrements * weightDenominator), 0)
      else (0, 0)
    else if flagIndex ≠ timelyHeadFlagIndex then
      (0, specBaseReward state spec index * weight / weightDenominator)
    else (0, 0)

/-- `get_inactivity_penalty_deltas`. -/
def specInactivityPenaltyDeltas (state : BeaconState) (spec : ChainSpec) : List (Nat × Nat) :=
  (List.range state.validators.length).map fun index =>
    if specEligible state index && !specUnslashedParticipating state timelyTargetFlagIndex index then
      let effectiveBalance := (state.validators[index]?.map (·.effectiveBalance)).getD 0
      let score := state.inactivityScores.getD index 0
      (0, effectiveBalance * score /
        (spec.inactivityScoreBias * spec.inactivityPenaltyQuotientForState state))
    else (0, 0)

/-- One `(rewards, penalties)` list applied: `increase_balance` then the saturating
`decrease_balance`, index by index. -/
def specApplyDeltas (balances : List Nat) (deltas : List (Nat × Nat)) : List Nat :=
  balances.zipIdx.map fun e =>
    let d := deltas.getD e.2 (0, 0)
    e.1 + d.1 - d.2

/-- The specification's `process_rewards_and_penalties`. -/
def specProcessRewardsAndPenalties (state : BeaconState) (spec : ChainSpec) : BeaconState :=
  if state.currentEpoch = genesisEpoch then state
  else
    let deltas := (List.range participationFlagWeights.length).map (specFlagIndexDeltas state spec) ++
      [specInactivityPenaltyDeltas state spec]
    { state with balances := deltas.foldl specApplyDeltas state.balances }

end Specification

/-- `FAR_FUTURE_EPOCH`. -/
def farFutureEpoch : Nat := 2 ^ 64 - 1

/-- The mainnet values of the fields read here. -/
def mainnetSpec : ChainSpec :=
  { effectiveBalanceIncrement := 1000000000
    baseRewardFactor := 64
    inactivityScoreBias := 4
    inactivityPenaltyQuotientAltair := 3 * 2 ^ 24
    inactivityPenaltyQuotientBellatrix := 2 ^ 24
    minEpochsToInactivityPenalty := 4 }

end Lighthouse.EpochProcessing
