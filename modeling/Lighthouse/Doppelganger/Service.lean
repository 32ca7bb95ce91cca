import Lighthouse.Foundations.EState
import Lighthouse.Foundations.Checked
import Mathlib.Data.List.AList

/-! The doppelganger service of the validator client. A validator registered after the genesis
epoch must see one epoch pass in which the beacon node reports it not live before it may sign;
a live report at or after its next check epoch is a doppelganger, and while processing the
previous epoch's responses the service then sets every validator it meets to `u64::MAX` remaining
epochs.

The states are an association list with one state per key; its order stands for the unspecified
iteration order of the `HashMap`. Epochs and slots are `u64` values read as `Nat`, with the
saturating operations the source uses. -/
namespace Lighthouse.Doppelganger
open EState Checked

/-- `Slot::epoch`. -/
def slotEpoch (slot slotsPerEpoch : Nat) : Nat := slot / slotsPerEpoch

/-- `Epoch::end_slot`: the last slot of the epoch. -/
def epochEndSlot (epoch slotsPerEpoch : Nat) : Nat :=
  saturatingAddU64 (saturatingMulU64 epoch slotsPerEpoch) (slotsPerEpoch - 1)

/-- `DEFAULT_REMAINING_DETECTION_EPOCHS`. -/
def defaultRemainingDetectionEpochs : Nat := 1

/-- `DoppelgangerState`. -/
structure DoppelgangerState where
  nextCheckEpoch : Nat
  remainingEpochs : Nat
deriving DecidableEq, Repr

namespace DoppelgangerState

/-- `requires_further_checks`: the validator is not yet safe to sign. -/
def requiresFurtherChecks (s : DoppelgangerState) : Bool := decide (0 < s.remainingEpochs)

/-- `complete_detection_in_epoch`. -/
def completeDetectionInEpoch (s : DoppelgangerState) (epoch : Nat) : DoppelgangerState :=
  { remainingEpochs := s.remainingEpochs - 1
    nextCheckEpoch := saturatingAddU64 epoch 1 }

end DoppelgangerState

/-- `DoppelgangerStatus`. -/
inductive DoppelgangerStatus (PK : Type) where
  | signingEnabled (pubkey : PK)
  | signingDisabled (pubkey : PK)
  | unknownToDoppelganger (pubkey : PK)
deriving DecidableEq, Repr

/-- `LivenessResponseData`. -/
structure LivenessResponseData where
  index : Nat
  epoch : Nat
  isLive : Bool
deriving DecidableEq, Repr

/-- `LivenessResponses`. -/
structure LivenessResponses where
  currentEpochResponses : List LivenessResponseData
  previousEpochResponses : List LivenessResponseData

/-- The two readings of the slot clock that `register_new_validator` makes. -/
structure SlotClock where
  nowOrGenesis : Option Nat
  genesisSlot : Nat

/-- The errors, one for each message of the source. -/
inductive Error (PK : Type) where
  /-- "Unable to read slot clock when registering validator". -/
  | unableToReadSlotClock
  /-- "beacon node returned epoch {}, expecting {}". -/
  | epochMismatch (returned expected : Nat)
  /-- "inconsistent indices map for validator index {}". -/
  | inconsistentIndicesMap (index : Nat)
  /-- "inconsistent states for validator pubkey {}". -/
  | inconsistentStates (pubkey : PK)
deriving DecidableEq, Repr

/-- `DoppelgangerService`: the states by public key. -/
structure DoppelgangerService (PK : Type) where
  doppelgangerStates : AList fun _ : PK => DoppelgangerState

instance {PK : Type} : Inhabited (DoppelgangerService PK) := ⟨⟨∅⟩⟩

namespace DoppelgangerService

variable {PK : Type} [DecidableEq PK]

/-- The state of a validator. -/
def stateOf (s : DoppelgangerService PK) (pubkey : PK) : Option DoppelgangerState :=
  s.doppelgangerStates.lookup pubkey

/-- The service with the state of a validator written. -/
def setState (s : DoppelgangerService PK) (pubkey : PK) (state : DoppelgangerState) :
    DoppelgangerService PK :=
  ⟨s.doppelgangerStates.insert pubkey state⟩

@[simp] theorem stateOf_setState (s : DoppelgangerService PK) (pubkey pubkey' : PK)
    (state : DoppelgangerState) :
    (s.setState pubkey state).stateOf pubkey' = if pubkey' = pubkey then some state
      else s.stateOf pubkey' := by
  unfold stateOf setState
  split
  · subst pubkey'
    exact AList.lookup_insert _
  · exact AList.lookup_insert_ne ‹_›

/-- `validator_status`. -/
def validatorStatus (s : DoppelgangerService PK) (validator : PK) : DoppelgangerStatus PK :=
  match s.stateOf validator with
  | some v =>
    if v.requiresFurtherChecks then .signingDisabled validator else .signingEnabled validator
  | none => .unknownToDoppelganger validator

variable (slotsPerEpoch : Nat)

/-- `register_new_validator`: a validator registered at or before the genesis epoch is not
checked. -/
def registerNewValidator (validator : PK) (slotClock : SlotClock) :
    EStateM (Error PK) (DoppelgangerService PK) Unit := do
  let now ← ofOption slotClock.nowOrGenesis .unableToReadSlotClock
  let currentEpoch := slotEpoch now slotsPerEpoch
  let genesisEpoch := slotEpoch slotClock.genesisSlot slotsPerEpoch
  let remainingEpochs :=
    if currentEpoch ≤ genesisEpoch then 0 else defaultRemainingDetectionEpochs
  let state : DoppelgangerState :=
    { nextCheckEpoch := saturatingAddU64 currentEpoch 1
      remainingEpochs }
  modify fun s => s.setState validator state

/-- `compute_detection_indices_map`: the index of every validator that requires further checks
and has one. -/
def computeDetectionIndicesMap (getIndex : PK → Option Nat) (s : DoppelgangerService PK) :
    Nat → Option PK :=
  let detectionPubkeys := s.doppelgangerStates.entries.filterMap fun entry =>
    if entry.2.requiresFurtherChecks then some entry.1 else none
  detectionPubkeys.foldl (fun indicesMap pubkey =>
    match getIndex pubkey with
    | some index => Function.update indicesMap index (some pubkey)
    | none => indicesMap) fun _ => none

/-- The first loop of `process_liveness_responses`: the indices of the live responses, from
either epoch, for an epoch at or after their validator's next check epoch. -/
def detectViolators (s : DoppelgangerService PK) (indicesMap : Nat → Option PK)
    (livenessResponses : LivenessResponses) : List Nat :=
  (livenessResponses.previousEpochResponses ++ livenessResponses.currentEpochResponses).filterMap
    fun response =>
      if !response.isLive then none
      else match indicesMap response.index with
        | none => none
        | some pubkey =>
          match s.stateOf pubkey with
          | none => none
          | some state =>
            if response.isLive && decide (state.nextCheckEpoch ≤ response.epoch) then
              some response.index
            else none

/-- One turn of the second loop of `process_liveness_responses`, for a previous-epoch
response. -/
def updateState (previousEpoch : Nat) (indicesMap : Nat → Option PK)
    (violatorsExist previousEpochIsSatisfied : Bool) (response : LivenessResponseData) :
    EStateM (Error PK) (DoppelgangerService PK) Unit := do
  if response.epoch ≠ previousEpoch then
    throw (.epochMismatch response.epoch previousEpoch)
  let pubkey ← ofOption (indicesMap response.index) (.inconsistentIndicesMap response.index)
  let s ← get
  let doppelgangerState ← ofOption (s.stateOf pubkey) (.inconsistentStates pubkey)
  if violatorsExist then
    -- A doppelganger anywhere: checks on this validator forever.
    set (s.setState pubkey { doppelgangerState with remainingEpochs := maxU64 })
  else
    let isNewlySatisfiedEpoch :=
      previousEpochIsSatisfied && decide (doppelgangerState.nextCheckEpoch ≤ previousEpoch)
    if !response.isLive && isNewlySatisfiedEpoch then
      set (s.setState pubkey (doppelgangerState.completeDetectionInEpoch previousEpoch))

/-- `process_liveness_responses`; the value is whether it calls `shutdown_func`. -/
def processLivenessResponses (requestSlot : Nat) (livenessResponses : LivenessResponses)
    (indicesMap : Nat → Option PK) : EStateM (Error PK) (DoppelgangerService PK) Bool := do
  let requestEpoch := slotEpoch requestSlot slotsPerEpoch
  let previousEpoch := requestEpoch - 1
  let violators := detectViolators (← get) indicesMap livenessResponses
  let violatorsExist := !violators.isEmpty
  -- Epoch `e` is satisfied from the last slot of epoch `e + 1`.
  let previousEpochSatisfactionSlot :=
    epochEndSlot (saturatingAddU64 previousEpoch 1) slotsPerEpoch
  let previousEpochIsSatisfied := decide (previousEpochSatisfactionSlot ≤ requestSlot)
  forM livenessResponses.previousEpochResponses
    (updateState previousEpoch indicesMap violatorsExist previousEpochIsSatisfied)
  pure violatorsExist

/-- The calls a run makes on the service; a request slot is a `u64`. -/
inductive Call (PK : Type) where
  | registerNewValidator (validator : PK) (slotClock : SlotClock)
  | processLivenessResponses (requestSlot : UInt64) (livenessResponses : LivenessResponses)
      (indicesMap : Nat → Option PK)

/-- A call's effect on the service. -/
def Call.run : Call PK → EStateM (Error PK) (DoppelgangerService PK) Unit
  | .registerNewValidator validator slotClock =>
    DoppelgangerService.registerNewValidator slotsPerEpoch validator slotClock
  | .processLivenessResponses requestSlot livenessResponses indicesMap => do
    let _ ← DoppelgangerService.processLivenessResponses slotsPerEpoch requestSlot.toNat
      livenessResponses indicesMap

/-- Whether the call registers the validator. -/
def Call.registers (pubkey : PK) : Call PK → Bool
  | .registerNewValidator validator _ => decide (validator = pubkey)
  | .processLivenessResponses .. => false

section Spec
variable {slotsPerEpoch : Nat} {previousEpoch : Nat} {indicesMap : Nat → Option PK}
  {violatorsExist previousEpochIsSatisfied : Bool} {response : LivenessResponseData}

theorem registerNewValidator_run (validator : PK) (slotClock : SlotClock)
    (s : DoppelgangerService PK) :
    (registerNewValidator slotsPerEpoch validator slotClock).run s =
      match slotClock.nowOrGenesis with
      | none => .error .unableToReadSlotClock s
      | some now =>
        .ok () (s.setState validator
          { nextCheckEpoch := saturatingAddU64 (slotEpoch now slotsPerEpoch) 1
            remainingEpochs :=
              if slotEpoch now slotsPerEpoch ≤ slotEpoch slotClock.genesisSlot slotsPerEpoch then 0
              else defaultRemainingDetectionEpochs }) := by
  cases h : slotClock.nowOrGenesis <;> simp [registerNewValidator, h, ofOption]

/-- One turn of the second loop fails, leaving the service as it is, or finds the response's
validator and its state and writes the state as the source does. -/
theorem updateState_cases (s : DoppelgangerService PK) :
    (∃ e, (updateState previousEpoch indicesMap violatorsExist previousEpochIsSatisfied
      response).run s = .error e s) ∨
    ∃ pubkey state, response.epoch = previousEpoch ∧ indicesMap response.index = some pubkey ∧
      s.stateOf pubkey = some state ∧
      (updateState previousEpoch indicesMap violatorsExist previousEpochIsSatisfied
        response).run s =
        .ok () (if violatorsExist then s.setState pubkey { state with remainingEpochs := maxU64 }
          else if !response.isLive &&
              (previousEpochIsSatisfied && decide (state.nextCheckEpoch ≤ previousEpoch)) then
            s.setState pubkey (state.completeDetectionInEpoch previousEpoch)
          else s) := by
  by_cases he : response.epoch = previousEpoch
  · cases hi : indicesMap response.index with
    | none => exact .inl ⟨.inconsistentIndicesMap response.index, by simp [updateState, he, hi, ofOption]⟩
    | some pubkey =>
      cases hs : s.stateOf pubkey with
      | none => exact .inl ⟨.inconsistentStates pubkey, by simp [updateState, he, hi, hs, ofOption]⟩
      | some state =>
        refine .inr ⟨pubkey, state, he, rfl, hs, ?_⟩
        simp [updateState, he, hi, hs, ofOption]
        split_ifs <;> rfl
  · exact .inl ⟨.epochMismatch response.epoch previousEpoch, by simp [updateState, he]⟩

/-- `process_liveness_responses` is its second loop, run with the violators found in the state it
starts from. -/
theorem processLivenessResponses_run (requestSlot : Nat) (livenessResponses : LivenessResponses)
    (s : DoppelgangerService PK) :
    let previousEpoch := slotEpoch requestSlot slotsPerEpoch - 1
    let violatorsExist := !(detectViolators s indicesMap livenessResponses).isEmpty
    let previousEpochIsSatisfied :=
      decide (epochEndSlot (saturatingAddU64 previousEpoch 1) slotsPerEpoch ≤ requestSlot)
    (processLivenessResponses slotsPerEpoch requestSlot livenessResponses indicesMap).run s =
      match (forM livenessResponses.previousEpochResponses (updateState previousEpoch indicesMap
          violatorsExist previousEpochIsSatisfied)).run s with
      | .ok _ s' => .ok violatorsExist s'
      | .error e s' => .error e s' := by
  intro previousEpoch violatorsExist previousEpochIsSatisfied
  show (forM livenessResponses.previousEpochResponses (updateState previousEpoch indicesMap
      violatorsExist previousEpochIsSatisfied) >>= fun _ => pure violatorsExist).run s = _
  cases h : (forM livenessResponses.previousEpochResponses (updateState previousEpoch indicesMap
      violatorsExist previousEpochIsSatisfied)).run s with
  | ok _ s' => exact run_bind_ok h
  | error e s' => exact run_bind_error h

theorem processLivenessResponses_final (requestSlot : Nat) (livenessResponses : LivenessResponses)
    (s : DoppelgangerService PK) :
    final ((processLivenessResponses slotsPerEpoch requestSlot livenessResponses indicesMap).run s) =
      final ((forM livenessResponses.previousEpochResponses
        (updateState (slotEpoch requestSlot slotsPerEpoch - 1) indicesMap
          (!(detectViolators s indicesMap livenessResponses).isEmpty)
          (decide (epochEndSlot (saturatingAddU64 (slotEpoch requestSlot slotsPerEpoch - 1) 1)
            slotsPerEpoch ≤ requestSlot)))).run s) := by
  rw [processLivenessResponses_run]
  split <;> rename_i hloop <;> rw [hloop] <;> rfl

/-- A call that returned ran its whole loop, and says whether it found violators. -/
theorem processLivenessResponses_ok {requestSlot : Nat} {livenessResponses : LivenessResponses}
    {s s' : DoppelgangerService PK} {shutdown : Bool}
    (h : (processLivenessResponses slotsPerEpoch requestSlot livenessResponses indicesMap).run s =
      .ok shutdown s') :
    shutdown = !(detectViolators s indicesMap livenessResponses).isEmpty ∧
      (forM livenessResponses.previousEpochResponses
        (updateState (slotEpoch requestSlot slotsPerEpoch - 1) indicesMap shutdown
          (decide (epochEndSlot (saturatingAddU64 (slotEpoch requestSlot slotsPerEpoch - 1) 1)
            slotsPerEpoch ≤ requestSlot)))).run s = .ok () s' := by
  rw [processLivenessResponses_run] at h
  split at h
  · cases h
    exact ⟨rfl, ‹_›⟩
  · cases h

end Spec

end DoppelgangerService

end Lighthouse.Doppelganger
