import Lighthouse.Foundations.CacheRefinement
import Lighthouse.Foundations.Checked
import Lighthouse.Foundations.Histogram

/-! The exit queue. A `BeaconState` keeps an `ExitCache`, a histogram from exit epochs to the
number of validators exiting at each, built lazily from the registry. The implementation's
`initiate_validator_exit` reads the last epoch of the queue and its churn from the cache. The
specification's `initiate_validator_exit` scans the registry instead.

A cache is consistent with the registry when it is uninitialized, or when it counts the
validators of every exit epoch other than `FAR_FUTURE_EPOCH` and its largest epoch is the
largest such exit epoch. From a consistent cache the implementation computes the
specification's exit epoch and keeps the cache consistent, unless the epoch it records is
`FAR_FUTURE_EPOCH` itself. With a positive `MIN_VALIDATOR_WITHDRAWABILITY_DELAY` that case
overflows the withdrawable epoch and fails; with a zero delay it returns `Ok`. -/
namespace Lighthouse.Registry
open Checked

/-- `FAR_FUTURE_EPOCH`, the `far_future_epoch` of every `ChainSpec`. -/
def farFutureEpoch : Nat := 2 ^ 64 - 1

/-- `ChainSpec`, the fields read by the registry code, with the `EthSpec` constants it uses. -/
structure ChainSpec where
  maxSeedLookahead : Nat
  minPerEpochChurnLimit : Nat
  churnLimitQuotient : Nat
  minValidatorWithdrawabilityDelay : Nat
  shardCommitteePeriod : Nat
  ejectionBalance : Nat
  maxEffectiveBalance : Nat
  effectiveBalanceIncrement : Nat
  minSlashingPenaltyQuotient : Nat
  minSlashingPenaltyQuotientAltair : Nat
  minSlashingPenaltyQuotientBellatrix : Nat
  whistleblowerRewardQuotient : Nat
  proposerRewardQuotient : Nat
  /-- `T::EpochsPerSlashingsVector`. -/
  epochsPerSlashingsVector : Nat
  /-- `T::MaxDeposits`. -/
  maxDeposits : Nat

/-- `Validator`, without its withdrawal credentials. -/
structure Validator where
  pubkey : Nat
  effectiveBalance : Nat
  slashed : Bool
  activationEligibilityEpoch : Nat
  activationEpoch : Nat
  exitEpoch : Nat
  withdrawableEpoch : Nat
deriving DecidableEq, Repr

/-- `Validator::is_active_at`. -/
def Validator.isActiveAt (v : Validator) (epoch : Nat) : Bool :=
  decide (v.activationEpoch ≤ epoch) && decide (epoch < v.exitEpoch)

/-- `BeaconStateError`, the variants the registry code returns; `arithError` is its
`ArithError`. -/
inductive Error where
  | exitCacheUninitialized
  | unknownValidator (index : Nat)
  | arithError
  | balancesOutOfBounds (index : Nat)
  | slashingsOutOfBounds (index : Nat)
  | epochOutOfBounds
  | invalidDepositState (depositCount depositIndex : Nat)
deriving DecidableEq, Repr

/-- A `safe_arith` operation propagated with `?`. -/
def arith (x : Option Nat) : Except Error Nat :=
  match x with
  | some a => .ok a
  | none => .error .arithError

/-- `ExitCache`: whether it is built, and the number of validators at each exit epoch. -/
structure ExitCache where
  initialized : Bool
  exitEpochCounts : Histogram.Map Nat
deriving DecidableEq

/-- `ExitCache::default`: not built. -/
instance : Inhabited ExitCache := ⟨⟨false, ∅⟩⟩

namespace ExitCache

/-- `check_initialized`. -/
def checkInitialized (c : ExitCache) : Except Error Unit :=
  if c.initialized then .ok () else .error .exitCacheUninitialized

/-- `record_validator_exit`: one more validator at `exitEpoch`, a `u64` count. -/
def recordValidatorExit (c : ExitCache) (exitEpoch : Nat) : Except Error ExitCache := do
  c.checkInitialized
  let count := Histogram.count c.exitEpochCounts exitEpoch
  pure { c with exitEpochCounts := c.exitEpochCounts.insert exitEpoch (← arith (addU64 count 1)) }

/-- `max_epoch`: the largest exit epoch counted. -/
def maxEpoch (c : ExitCache) : Except Error (Option Nat) := do
  c.checkInitialized
  pure c.exitEpochCounts.keys.max?

/-- `get_churn_at`: the count at `exitEpoch`, zero when absent. -/
def getChurnAt (c : ExitCache) (exitEpoch : Nat) : Except Error Nat := do
  c.checkInitialized
  pure (Histogram.count c.exitEpochCounts exitEpoch)

/-- `ExitCache::new`: an initialized cache recording every exit epoch other than
`FAR_FUTURE_EPOCH`. -/
def new (validators : List Validator) : Except Error ExitCache :=
  (validators.filter (·.exitEpoch != farFutureEpoch)).foldlM
    (fun c v => c.recordValidatorExit v.exitEpoch) ⟨true, ∅⟩

end ExitCache

/-- The forks of `BeaconState`. -/
inductive Fork where
  | base
  | altair
  | merge
deriving DecidableEq, Repr

/-- A `BeaconState`, the fields the registry code reads and writes. `proposerIndex` is
`get_beacon_proposer_index` at the state's slot. -/
structure BeaconState where
  fork : Fork
  currentEpoch : Nat
  finalizedCheckpointEpoch : Nat
  validators : List Validator
  balances : List Nat
  slashings : List Nat
  eth1DepositIndex : Nat
  eth1DepositCount : Nat
  proposerIndex : Nat
  exitCache : ExitCache
deriving DecidableEq

namespace BeaconState

/-- `get_validator`. -/
def getValidator (state : BeaconState) (index : Nat) : Except Error Validator :=
  match state.validators[index]? with
  | some v => .ok v
  | none => .error (.unknownValidator index)

/-- An assignment through `get_validator_mut`. -/
def updateValidator (state : BeaconState) (index : Nat) (f : Validator → Validator) :
    Except Error BeaconState := do
  let v ← state.getValidator index
  pure { state with validators := state.validators.set index (f v) }

/-- `build_exit_cache`: build the cache when it is not initialized. -/
def buildExitCache (state : BeaconState) : Except Error BeaconState :=
  if state.exitCache.initialized then .ok state
  else do pure { state with exitCache := ← ExitCache.new state.validators }

/-- `compute_activation_exit_epoch`. -/
def computeActivationExitEpoch (spec : ChainSpec) (epoch : Nat) : Except Error Nat := do
  arith (addU64 (← arith (addU64 epoch 1)) spec.maxSeedLookahead)

/-- `get_churn_limit`; the current committee cache's `active_validator_count` is the number
of validators active at the current epoch. -/
def getChurnLimit (state : BeaconState) (spec : ChainSpec) : Except Error Nat := do
  let activeValidatorCount := (state.validators.filter (·.isActiveAt state.currentEpoch)).length
  pure (max spec.minPerEpochChurnLimit (← arith (divU64 activeValidatorCount spec.churnLimitQuotient)))

end BeaconState

open BeaconState

/-- `initiate_validator_exit`. -/
def initiateValidatorExit (spec : ChainSpec) (state : BeaconState) (index : Nat) :
    Except Error BeaconState := do
  -- Return if the validator already initiated exit.
  if (← state.getValidator index).exitEpoch != farFutureEpoch then return state
  let state ← state.buildExitCache
  let delayedEpoch ← computeActivationExitEpoch spec state.currentEpoch
  let exitQueueEpoch :=
    (← state.exitCache.maxEpoch).elim delayedEpoch fun epoch => max epoch delayedEpoch
  let exitQueueChurn ← state.exitCache.getChurnAt exitQueueEpoch
  let churnLimit ← state.getChurnLimit spec
  let exitQueueEpoch ← (if exitQueueChurn ≥ churnLimit then arith (addU64 exitQueueEpoch 1)
    else pure exitQueueEpoch)
  let state := { state with exitCache := ← state.exitCache.recordValidatorExit exitQueueEpoch }
  let state ← state.updateValidator index fun v => { v with exitEpoch := exitQueueEpoch }
  let withdrawableEpoch ← arith (addU64 exitQueueEpoch spec.minValidatorWithdrawabilityDelay)
  state.updateValidator index fun v => { v with withdrawableEpoch }

/-- The exit epochs of the registry, in validator order. -/
def exitEpochs (validators : List Validator) : List Nat := validators.map (·.exitEpoch)

/-- The specification's `initiate_validator_exit`, with `uint64` overflow an error. -/
def specInitiateValidatorExit (spec : ChainSpec) (state : BeaconState) (index : Nat) :
    Except Error BeaconState := do
  let validator ← state.getValidator index
  if validator.exitEpoch != farFutureEpoch then return state
  let delayedEpoch ← computeActivationExitEpoch spec state.currentEpoch
  let exitQueueEpoch :=
    ((exitEpochs state.validators).filter (· != farFutureEpoch)).foldl max delayedEpoch
  let exitQueueChurn := (exitEpochs state.validators).count exitQueueEpoch
  let churnLimit ← state.getChurnLimit spec
  let exitQueueEpoch ← (if exitQueueChurn ≥ churnLimit then arith (addU64 exitQueueEpoch 1)
    else pure exitQueueEpoch)
  let withdrawableEpoch ← arith (addU64 exitQueueEpoch spec.minValidatorWithdrawabilityDelay)
  state.updateValidator index fun v => { v with exitEpoch := exitQueueEpoch, withdrawableEpoch }

/-- The exit cache agrees with the registry: it is not built, or it counts every exit epoch
other than `FAR_FUTURE_EPOCH` and its largest epoch is the largest of those. -/
def ExitCache.Consistent (c : ExitCache) (validators : List Validator) : Prop :=
  c.initialized = true →
    (∀ e, e ≠ farFutureEpoch → c.getChurnAt e = .ok ((exitEpochs validators).count e)) ∧
      c.maxEpoch = .ok ((exitEpochs validators).filter (· != farFutureEpoch)).max?

/-- A state whose exit cache agrees with its registry. -/
def BeaconState.Consistent (state : BeaconState) : Prop :=
  state.exitCache.Consistent state.validators

/-- The mainnet values, with `MIN_VALIDATOR_WITHDRAWABILITY_DELAY` as given. -/
def mainnetSpecWithDelay (delay : Nat) : ChainSpec :=
  { maxSeedLookahead := 4
    minPerEpochChurnLimit := 4
    churnLimitQuotient := 65536
    minValidatorWithdrawabilityDelay := delay
    shardCommitteePeriod := 256
    ejectionBalance := 16000000000
    maxEffectiveBalance := 32000000000
    effectiveBalanceIncrement := 1000000000
    minSlashingPenaltyQuotient := 128
    minSlashingPenaltyQuotientAltair := 64
    minSlashingPenaltyQuotientBellatrix := 32
    whistleblowerRewardQuotient := 512
    proposerRewardQuotient := 8
    epochsPerSlashingsVector := 8192
    maxDeposits := 16 }

section Cache

@[simp] theorem arith_eq_ok {x : Option Nat} {a : Nat} : arith x = .ok a ↔ x = some a := by
  cases x <;> simp [arith]

namespace ExitCache
variable {c c' : ExitCache}

theorem checkInitialized_eq (h : c.initialized = true) : c.checkInitialized = .ok () := by
  simp [checkInitialized, h]

theorem maxEpoch_eq (h : c.initialized = true) : c.maxEpoch = .ok c.exitEpochCounts.keys.max? := by
  simp [maxEpoch, checkInitialized_eq h, bind, Except.bind, pure, Except.pure]

theorem getChurnAt_eq (h : c.initialized = true) (e : Nat) :
    c.getChurnAt e = .ok (Histogram.count c.exitEpochCounts e) := by
  simp [getChurnAt, checkInitialized_eq h, bind, Except.bind, pure, Except.pure]

/-- A recorded exit adds one to the count of its epoch. -/
theorem recordValidatorExit_eq_ok {e : Nat} (h : c.recordValidatorExit e = .ok c') :
    c.initialized = true ∧ c' = ⟨c.initialized, Histogram.record c.exitEpochCounts e⟩ := by
  unfold recordValidatorExit checkInitialized at h
  cases hc : c.initialized
  · simp [hc, bind, Except.bind] at h
  · simp only [hc, if_true, bind, Except.bind, arith, addU64] at h
    split_ifs at h
    cases h
    exact ⟨rfl, rfl⟩

theorem consistent_of_not_initialized (h : c.initialized = false) (vs : List Validator) :
    c.Consistent vs := by
  intro hi
  simp [h] at hi

/-- For a built cache, consistency is a histogram of the exit epochs other than
`FAR_FUTURE_EPOCH` with the same largest epoch. -/
theorem consistent_iff (h : c.initialized = true) (vs : List Validator) :
    c.Consistent vs ↔
      Histogram.Counts c.exitEpochCounts (· ≠ farFutureEpoch) (exitEpochs vs) ∧
        c.exitEpochCounts.keys.max? = ((exitEpochs vs).filter (· != farFutureEpoch)).max? := by
  simp only [Consistent, h, forall_true_left, getChurnAt_eq h, maxEpoch_eq h, Except.ok.injEq,
    Histogram.Counts]

theorem Consistent.congr {vs vs' : List Validator} (hc : c.Consistent vs)
    (h : exitEpochs vs = exitEpochs vs') : c.Consistent vs' := by
  intro hi
  rw [← h]
  exact hc hi

/-- Recording one validator after another tallies their exit epochs. -/
theorem tallies_foldlM_record :
    ∀ (vs : List Validator) {c c' : ExitCache} {l : List Nat}, c.initialized = true →
      Histogram.Tallies c.exitEpochCounts l →
      vs.foldlM (fun c v => c.recordValidatorExit v.exitEpoch) c = .ok c' →
      c'.initialized = true ∧ Histogram.Tallies c'.exitEpochCounts (l ++ exitEpochs vs)
  | [], c, c', l, hi, ht, h => by
    cases h
    simpa [exitEpochs] using ⟨hi, ht⟩
  | v :: vs, c, c', l, hi, ht, h => by
    obtain ⟨c₁, h₁, h⟩ := CacheRefinement.bind_eq_ok.mp h
    obtain ⟨-, rfl⟩ := recordValidatorExit_eq_ok h₁
    have := @tallies_foldlM_record vs ⟨c.initialized, Histogram.record c.exitEpochCounts v.exitEpoch⟩
      c' (l ++ [v.exitEpoch]) hi (ht.record_append v.exitEpoch) h
    simpa [exitEpochs] using this

/-- A cache built from the registry is consistent with it. -/
theorem new_eq_ok {vs : List Validator} (h : ExitCache.new vs = .ok c) :
    c.initialized = true ∧ c.Consistent vs := by
  obtain ⟨hi, ht⟩ := tallies_foldlM_record _ rfl Histogram.Tallies.empty h
  have hfilter : exitEpochs (vs.filter (·.exitEpoch != farFutureEpoch)) =
      (exitEpochs vs).filter (· != farFutureEpoch) := by
    simp [exitEpochs, List.filter_map, Function.comp_def]
  rw [List.nil_append, hfilter] at ht
  refine ⟨hi, (consistent_iff hi vs).mpr ⟨fun e he => ?_, ht.max⟩⟩
  rw [ht.counts e trivial, List.count_filter (by simpa using he)]

end ExitCache

/-- The state with `c` as its exit cache. -/
def setExitCache (c : ExitCache) (state : BeaconState) : BeaconState :=
  { state with exitCache := c }

namespace BeaconState

theorem getValidator_eq_ok {state : BeaconState} {index : Nat} {v : Validator} :
    state.getValidator index = .ok v ↔ state.validators[index]? = some v := by
  unfold getValidator
  split <;> simp_all

theorem updateValidator_eq_ok {state state' : BeaconState} {index : Nat}
    {f : Validator → Validator} :
    state.updateValidator index f = .ok state' ↔ ∃ v, state.validators[index]? = some v ∧
      state' = { state with validators := state.validators.set index (f v) } := by
  simp only [updateValidator, CacheRefinement.bind_eq_ok, getValidator_eq_ok, pure, Except.pure,
    Except.ok.injEq]
  exact exists_congr fun v => and_congr_right fun _ => eq_comm

/-- Building the cache only changes the cache, leaves it built, and consistent if it was. -/
theorem buildExitCache_eq_ok {state state' : BeaconState} (h : state.buildExitCache = .ok state') :
    ∃ c, state' = setExitCache c state ∧ c.initialized = true ∧
      (state.Consistent → c.Consistent state.validators) := by
  unfold buildExitCache at h
  split_ifs at h with hi
  · cases h
    exact ⟨state.exitCache, rfl, hi, id⟩
  · obtain ⟨c, hnew, h⟩ := CacheRefinement.bind_eq_ok.mp h
    cases h
    obtain ⟨hci, hcc⟩ := ExitCache.new_eq_ok hnew
    exact ⟨c, rfl, hci, fun _ => hcc⟩

end BeaconState

/-- The code's end of the queue: the largest counted epoch if it is later than the delayed
epoch. -/
theorem elim_max_eq (M : Option Nat) (d : Nat) :
    M.elim d (fun epoch => max epoch d) = max d (M.getD d) := by
  cases M <;> simp [max_comm]

end Cache

section Refinement
open CacheRefinement ExitCache

/-- Recording the exit epoch `q` of a validator that had none keeps a built cache consistent,
when `q` is not `FAR_FUTURE_EPOCH`. -/
theorem ExitCache.Consistent.record {c : ExitCache} {vs : List Validator}
    (hi : c.initialized = true) (hc : c.Consistent vs) {i : Nat} (hlen : i < vs.length)
    (hfar : vs[i].exitEpoch = farFutureEpoch) {w : Validator} (hq : w.exitEpoch ≠ farFutureEpoch) :
    (⟨true, Histogram.record c.exitEpochCounts w.exitEpoch⟩ : ExitCache).Consistent
      (vs.set i w) := by
  rw [consistent_iff hi] at hc
  rw [consistent_iff rfl]
  have hset : exitEpochs (vs.set i w) = (exitEpochs vs).set i w.exitEpoch := by
    simp [exitEpochs, List.map_set]
  have hlen' : i < (exitEpochs vs).length := by simpa [exitEpochs] using hlen
  have hx : (exitEpochs vs)[i] = farFutureEpoch := by simpa [exitEpochs] using hfar
  refine ⟨?_, ?_⟩
  · rw [hset]
    exact hc.1.record_set hlen' (by simp [hx]) w.exitEpoch
  · calc (Histogram.record c.exitEpochCounts w.exitEpoch).keys.max?
        = (w.exitEpoch :: c.exitEpochCounts.keys).max? := Histogram.max?_keys_record _ _
      _ = (w.exitEpoch :: (exitEpochs vs).filter (· != farFutureEpoch)).max? :=
        Histogram.max?_cons_congr hc.2 _
      _ = ((exitEpochs (vs.set i w)).filter (· != farFutureEpoch)).max? := by
        refine Histogram.max?_congr fun x => ?_
        rw [hset, Histogram.mem_filter_set hlen' (by simp [hx]) (by simpa using hq),
          List.mem_cons]

/-- A validator that has initiated its exit is left alone, on both sides. -/
theorem initiateValidatorExit_of_exiting {spec : ChainSpec} {state : BeaconState} {index : Nat}
    {v : Validator} (hv : state.validators[index]? = some v) (hfar : v.exitEpoch ≠ farFutureEpoch) :
    initiateValidatorExit spec state index = .ok state ∧
      specInitiateValidatorExit spec state index = .ok state := by
  have hget : state.getValidator index = .ok v := getValidator_eq_ok.mpr hv
  have hne : (v.exitEpoch != farFutureEpoch) = true := by simpa using hfar
  simp [initiateValidatorExit, specInitiateValidatorExit, hget, hne, bind, Except.bind, pure,
    Except.pure]

/-- A successful exit of a validator that had none: the cache is built, the exit epoch `q` is
the end of the queue, one later if that epoch is full, and the cache records it. -/
theorem initiateValidatorExit_eq_ok_of_far {spec : ChainSpec} {state state' : BeaconState}
    {index : Nat} {v : Validator} (hv : state.validators[index]? = some v)
    (hfar : v.exitEpoch = farFutureEpoch) (h : initiateValidatorExit spec state index = .ok state') :
    ∃ c d L q w, state.buildExitCache = .ok (setExitCache c state) ∧ c.initialized = true ∧
      computeActivationExitEpoch spec state.currentEpoch = .ok d ∧
      state.getChurnLimit spec = .ok L ∧
      (let q₀ := max d (c.exitEpochCounts.keys.max?.getD d)
       if Histogram.count c.exitEpochCounts q₀ ≥ L then arith (addU64 q₀ 1) else pure q₀) = .ok q ∧
      arith (addU64 q spec.minValidatorWithdrawabilityDelay) = .ok w ∧
      state' = { state with
        exitCache := ⟨true, Histogram.record c.exitEpochCounts q⟩
        validators := state.validators.set index { v with exitEpoch := q, withdrawableEpoch := w } } := by
  have hne : (v.exitEpoch != farFutureEpoch) = false := by simpa using hfar
  unfold initiateValidatorExit at h
  obtain ⟨v', hv', h⟩ := bind_eq_ok.mp h
  rw [getValidator_eq_ok.mpr hv] at hv'
  cases hv'
  simp only [hne, Bool.false_eq_true, if_false] at h
  obtain ⟨s₁, hb, h⟩ := bind_eq_ok.mp h
  obtain ⟨c, rfl, hi, -⟩ := buildExitCache_eq_ok hb
  simp only [setExitCache] at h
  obtain ⟨d, hd, h⟩ := bind_eq_ok.mp h
  obtain ⟨M, hM, h⟩ := bind_eq_ok.mp h
  rw [maxEpoch_eq hi] at hM
  cases hM
  obtain ⟨churn, hch, h⟩ := bind_eq_ok.mp h
  rw [getChurnAt_eq hi] at hch
  cases hch
  obtain ⟨L, hL, h⟩ := bind_eq_ok.mp h
  obtain ⟨q, hq, h⟩ := bind_eq_ok.mp h
  obtain ⟨c', hc', h⟩ := bind_eq_ok.mp h
  obtain ⟨-, rfl⟩ := recordValidatorExit_eq_ok hc'
  obtain ⟨s₂, hs₂, h⟩ := bind_eq_ok.mp h
  obtain ⟨v₁, hv₁, rfl⟩ := updateValidator_eq_ok.mp hs₂
  obtain ⟨w, hw, h⟩ := bind_eq_ok.mp h
  obtain ⟨v₂, hv₂, rfl⟩ := updateValidator_eq_ok.mp h
  -- Both assignments go to the same slot, the second reading what the first wrote.
  have hv₁v : v₁ = v := by simpa [setExitCache, hv] using hv₁.symm
  subst hv₁v
  have hv₂v : v₂ = { v₁ with exitEpoch := q } := by
    simpa [setExitCache, List.getElem?_set_self (List.getElem?_eq_some_iff.mp hv).1] using hv₂.symm
  subst hv₂v
  refine ⟨c, d, L, q, w, hb, hi, hd, hL, ?_, hw, ?_⟩
  · simpa only [elim_max_eq] using hq
  · simp [hi, List.set_set]

/-- From a consistent cache, a successful `initiate_validator_exit` computes the specification's
exit and withdrawable epochs and keeps the cache consistent, when the withdrawability delay is
positive: the epoch it records is then below `FAR_FUTURE_EPOCH`. -/
theorem initiateValidatorExit_refines {spec : ChainSpec}
    (hdelay : 1 ≤ spec.minValidatorWithdrawabilityDelay) (index : Nat) :
    Refines setExitCache BeaconState.Consistent (fun s => initiateValidatorExit spec s index)
      (fun s => specInitiateValidatorExit spec s index) := by
  intro state state' hs h
  cases hv : state.validators[index]? with
  | none => simp [initiateValidatorExit, getValidator, hv, bind, Except.bind] at h
  | some v =>
  by_cases hfar : v.exitEpoch = farFutureEpoch
  case neg =>
    have hrun : initiateValidatorExit spec state index = .ok state' := h
    rw [(initiateValidatorExit_of_exiting hv hfar).1] at hrun
    cases hrun
    exact ⟨hs, fun c => (@initiateValidatorExit_of_exiting spec (setExitCache c state) index v hv
      hfar).2⟩
  case pos =>
  obtain ⟨c, d, L, q, w, hb, hi, hd, hL, hq, hw, rfl⟩ := initiateValidatorExit_eq_ok_of_far hv hfar h
  obtain ⟨c', hc', -, hcons⟩ := buildExitCache_eq_ok hb
  have hcc : c.Consistent state.validators := by
    rw [show c = c' from congrArg BeaconState.exitCache hc']
    exact hcons hs
  obtain ⟨hcounts, hmax⟩ := (consistent_iff hi state.validators).mp hcc
  set q₀ := max d (c.exitEpochCounts.keys.max?.getD d) with hq₀def
  -- The recorded epoch leaves room for the positive delay, so it is below `FAR_FUTURE_EPOCH`,
  -- and so is the end of the queue it was computed from.
  have hqw : q + spec.minValidatorWithdrawabilityDelay < 2 ^ 64 := by
    simp only [arith_eq_ok, addU64_eq_some] at hw
    exact hw.1
  have hq₀q : q₀ ≤ q := by
    simp only at hq
    split_ifs at hq
    · simp only [arith_eq_ok, addU64_eq_some] at hq
      omega
    · exact le_of_eq (Except.ok.inj hq)
  have hqfar : q ≠ farFutureEpoch := by unfold farFutureEpoch; omega
  have hq₀far : q₀ ≠ farFutureEpoch := by unfold farFutureEpoch; omega
  have hlen : index < state.validators.length := (List.getElem?_eq_some_iff.mp hv).1
  have hvi : state.validators[index] = v := (List.getElem?_eq_some_iff.mp hv).2
  have hqfar' : ({ v with exitEpoch := q, withdrawableEpoch := w } : Validator).exitEpoch ≠
      farFutureEpoch := hqfar
  refine ⟨hcc.record hi hlen (by rw [hvi]; exact hfar) hqfar', fun c₀ => ?_⟩
  · -- The specification scans the registry and finds the same end of the queue and churn.
    have hfold : ((exitEpochs state.validators).filter (· != farFutureEpoch)).foldl max d = q₀ := by
      rw [List.foldl_max, ← hmax]
    have hchurn : (exitEpochs state.validators).count q₀ =
        Histogram.count c.exitEpochCounts q₀ := (hcounts q₀ hq₀far).symm
    have hne : (v.exitEpoch != farFutureEpoch) = false := by simpa using hfar
    have hget : (setExitCache c₀ state).getValidator index = .ok v := getValidator_eq_ok.mpr hv
    have hd' : computeActivationExitEpoch spec (setExitCache c₀ state).currentEpoch = .ok d := hd
    have hL' : (setExitCache c₀ state).getChurnLimit spec = .ok L := hL
    have hvs : (setExitCache c₀ state).validators = state.validators := rfl
    simp only [specInitiateValidatorExit, hget, ok_bind, hne, Bool.false_eq_true, if_false, hd',
      hvs, hfold, hchurn, hL']
    simp only at hq
    rw [hq, ok_bind, hw, ok_bind]
    simp [updateValidator, getValidator, hv, setExitCache, pure, Except.pure]

/-- Four validators exit at the epoch before `FAR_FUTURE_EPOCH` and a fifth is active, with a
built cache that counts the four. -/
def fullQueueState : BeaconState :=
  let exiting : Validator := ⟨0, 32000000000, false, 0, 0, farFutureEpoch - 1, farFutureEpoch - 1⟩
  let active : Validator := ⟨1, 32000000000, false, 0, 0, farFutureEpoch, farFutureEpoch⟩
  { fork := .altair, currentEpoch := 10, finalizedCheckpointEpoch := 9
    validators := [exiting, exiting, exiting, exiting, active], balances := [0, 0, 0, 0, 0]
    slashings := [0], eth1DepositIndex := 0, eth1DepositCount := 0, proposerIndex := 0
    exitCache := ⟨true, (∅ : Histogram.Map Nat).insert (farFutureEpoch - 1) 4⟩ }

/-- With a zero withdrawability delay the implementation records `FAR_FUTURE_EPOCH`: the churn
limit is four, so the fifth validator's exit is pushed past the full epoch to
`FAR_FUTURE_EPOCH`. The call returns `Ok`, and the cache's largest epoch is then
`FAR_FUTURE_EPOCH` while the registry's largest exit epoch is the one before. -/
theorem initiateValidatorExit_zero_delay_inconsistent :
    fullQueueState.Consistent ∧ ∃ state',
      initiateValidatorExit (mainnetSpecWithDelay 0) fullQueueState 4 = .ok state' ∧
        ¬ state'.Consistent := by
  refine ⟨fun _ => ⟨fun e he => ?_, by decide⟩, { fullQueueState with
    validators := fullQueueState.validators.set 4
      { pubkey := 1, effectiveBalance := 32000000000, slashed := false,
        activationEligibilityEpoch := 0, activationEpoch := 0, exitEpoch := farFutureEpoch,
        withdrawableEpoch := farFutureEpoch }
    exitCache := ⟨true, Histogram.record fullQueueState.exitCache.exitEpochCounts farFutureEpoch⟩ },
    by rfl, fun h => ?_⟩
  · rw [getChurnAt_eq rfl]
    by_cases he' : e = farFutureEpoch - 1
    · subst he'
      decide
    · have hcount : Histogram.count fullQueueState.exitCache.exitEpochCounts e = 0 := by
        simp only [Histogram.count, fullQueueState, AList.lookup_insert_ne he',
          AList.lookup_empty, Option.getD_none]
      rw [hcount]
      simp [fullQueueState, exitEpochs, Ne.symm he', Ne.symm he]
  · have hmax := (h rfl).2
    revert hmax
    decide

end Refinement

end Lighthouse.Registry
