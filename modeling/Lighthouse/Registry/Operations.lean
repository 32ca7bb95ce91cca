import Lighthouse.Foundations.EState
import Lighthouse.Registry.ExitCache

/-! The operations that start exits: `slash_validator`, the proposer slashings, attester
slashings and voluntary exits of a block, its deposits, and `process_registry_updates` at the
epoch boundary. Each block operation is written once over the exit function it calls:
`initiate_validator_exit` in the implementation, the specification's in the reference.
`process_registry_updates` also has the specification's single loop beside the
implementation's two phases (collect the indices to update, then update them).

BLS signature checks are abstracted as the outcome of their verification, carried by each
signed object; a deposit's Merkle proof check is a parameter. -/
namespace Lighthouse.Registry
open Checked CacheRefinement EState BeaconState

/-- An exit function: `initiate_validator_exit`, or the specification's. -/
abbrev ExitFn := BeaconState → Nat → Except Error BeaconState

/-- `PROPOSER_WEIGHT`. -/
def proposerWeight : Nat := 8

/-- `WEIGHT_DENOMINATOR`. -/
def weightDenominator : Nat := 64

/-- `Validator::is_slashable_at`. -/
def Validator.isSlashableAt (v : Validator) (epoch : Nat) : Bool :=
  !v.slashed && decide (v.activationEpoch ≤ epoch) && decide (epoch < v.withdrawableEpoch)

/-- `min_slashing_penalty_quotient_for_state`. -/
def ChainSpec.minSlashingPenaltyQuotientForState (spec : ChainSpec) (state : BeaconState) : Nat :=
  match state.fork with
  | .base => spec.minSlashingPenaltyQuotient
  | .altair => spec.minSlashingPenaltyQuotientAltair
  | .merge => spec.minSlashingPenaltyQuotientBellatrix

namespace BeaconState

/-- `increase_balance`: an overflow is an error. -/
def increaseBalance (state : BeaconState) (index delta : Nat) : Except Error BeaconState := do
  let balance ← okOr state.balances[index]? (.balancesOutOfBounds index)
  pure { state with balances := state.balances.set index (← arith (addU64 balance delta)) }

/-- `decrease_balance`: saturates at zero. -/
def decreaseBalance (state : BeaconState) (index delta : Nat) : Except Error BeaconState := do
  let balance ← okOr state.balances[index]? (.balancesOutOfBounds index)
  pure { state with balances := state.balances.set index (balance - delta) }

/-- `get_slashings_index`: an epoch of the slashings vector at or before the current one, or
the next one when `allowNextEpoch`. -/
def getSlashingsIndex (state : BeaconState) (spec : ChainSpec) (epoch : Nat)
    (allowNextEpoch : Bool) : Except Error Nat := do
  let upperBound ← if allowNextEpoch then arith (addU64 state.currentEpoch 1)
    else pure state.currentEpoch
  if state.currentEpoch < (← arith (addU64 epoch spec.epochsPerSlashingsVector)) ∧
      epoch ≤ upperBound then
    arith (remU64 epoch spec.epochsPerSlashingsVector)
  else throw .epochOutOfBounds

/-- `get_slashings`. -/
def getSlashings (state : BeaconState) (spec : ChainSpec) (epoch : Nat) : Except Error Nat := do
  let i ← state.getSlashingsIndex spec epoch false
  match state.slashings[i]? with
  | some s => pure s
  | none => throw (.slashingsOutOfBounds i)

/-- `set_slashings`. -/
def setSlashings (state : BeaconState) (spec : ChainSpec) (epoch value : Nat) :
    Except Error BeaconState := do
  let i ← state.getSlashingsIndex spec epoch true
  if i < state.slashings.length then pure { state with slashings := state.slashings.set i value }
  else throw (.slashingsOutOfBounds i)

end BeaconState

/-- `slash_validator`, over the exit function it calls. -/
def slashValidatorWith (initiate : ExitFn) (spec : ChainSpec) (state : BeaconState)
    (slashedIndex : Nat) (whistleblowerIndex : Option Nat) : Except Error BeaconState := do
  let epoch := state.currentEpoch
  let state ← initiate state slashedIndex
  let validator ← state.getValidator slashedIndex
  let slashingsEpoch ← arith (addU64 epoch spec.epochsPerSlashingsVector)
  let state ← state.updateValidator slashedIndex fun v =>
    { v with slashed := true, withdrawableEpoch := max v.withdrawableEpoch slashingsEpoch }
  let validatorEffectiveBalance := validator.effectiveBalance
  let slashings ← state.getSlashings spec epoch
  let state ← state.setSlashings spec epoch (← arith (addU64 slashings validatorEffectiveBalance))
  let penalty ← arith (divU64 validatorEffectiveBalance
    (spec.minSlashingPenaltyQuotientForState state))
  let state ← state.decreaseBalance slashedIndex penalty
  -- Apply proposer and whistleblower rewards.
  let proposerIndex := state.proposerIndex
  let whistleblowerIndex := whistleblowerIndex.getD proposerIndex
  let whistleblowerReward ← arith (divU64 validatorEffectiveBalance spec.whistleblowerRewardQuotient)
  let proposerReward ← (match state.fork with
    | .base => arith (divU64 whistleblowerReward spec.proposerRewardQuotient)
    | .altair | .merge => do
      arith (divU64 (← arith (mulU64 whistleblowerReward proposerWeight)) weightDenominator))
  -- Ensure the whistleblower index is in the validator registry.
  (if state.validators.length ≤ whistleblowerIndex then throw (.unknownValidator whistleblowerIndex)
    else pure ())
  let state ← state.increaseBalance proposerIndex proposerReward
  state.increaseBalance whistleblowerIndex (← arith (subU64 whistleblowerReward proposerReward))

/-- `slash_validator`. -/
def slashValidator (spec : ChainSpec) : BeaconState → Nat → Option Nat → Except Error BeaconState :=
  slashValidatorWith (initiateValidatorExit spec) spec

section Operations

/-- `BlockOperationError`: an invalid operation, or an error of the state or the arithmetic. -/
inductive BlockOperationError (R : Type) where
  | invalid (reason : R)
  | beaconStateError (e : Error)
  | arithError
deriving DecidableEq, Repr

/-- `ProposerSlashingInvalid`. -/
inductive ProposerSlashingInvalid where
  | proposerUnknown (index : Nat)
  | proposalSlotMismatch (slot1 slot2 : Nat)
  | proposerIndexMismatch (index1 index2 : Nat)
  | proposalsIdentical
  | proposerNotSlashable (index : Nat)
  | badProposal1Signature
  | badProposal2Signature
deriving DecidableEq, Repr

/-- `IndexedAttestationInvalid`. -/
inductive IndexedAttestationInvalid where
  | indicesEmpty
  | badValidatorIndicesOrdering (i : Nat)
  | badSignature
deriving DecidableEq, Repr

/-- `AttesterSlashingInvalid`. -/
inductive AttesterSlashingInvalid where
  | notSlashable
  | indexedAttestation1Invalid (e : BlockOperationError IndexedAttestationInvalid)
  | indexedAttestation2Invalid (e : BlockOperationError IndexedAttestationInvalid)
  | unknownValidator (index : Nat)
  | noSlashableIndices
deriving DecidableEq, Repr

/-- `ExitInvalid`. -/
inductive ExitInvalid where
  | notActive (index : Nat)
  | validatorUnknown (index : Nat)
  | alreadyExited (index : Nat)
  | futureEpoch (state exit : Nat)
  | tooYoungToExit (currentEpoch earliestExitEpoch : Nat)
  | badSignature
deriving DecidableEq, Repr

/-- `DepositInvalid`. -/
inductive DepositInvalid where
  | badMerkleProof
deriving DecidableEq, Repr

/-- `BlockProcessingError`, the variants these operations return. -/
inductive BlockProcessingError where
  | beaconStateError (e : Error)
  | arithError
  | proposerSlashingInvalid (index : Nat) (reason : ProposerSlashingInvalid)
  | attesterSlashingInvalid (index : Nat) (reason : AttesterSlashingInvalid)
  | exitInvalid (index : Nat) (reason : ExitInvalid)
  | depositInvalid (index : Nat) (reason : DepositInvalid)
  | depositCountInvalid (expected found : Nat)
deriving DecidableEq, Repr

/-- `into_with_index`: an invalid operation named by its position in the block. -/
def BlockOperationError.intoWithIndex {R : Type} (mk : Nat → R → BlockProcessingError)
    (index : Nat) : BlockOperationError R → BlockProcessingError
  | .invalid reason => mk index reason
  | .beaconStateError e => .beaconStateError e
  | .arithError => .arithError

/-- A `safe_arith` operation inside an operation's verification. -/
def opArith {R : Type} (x : Option Nat) : Except (BlockOperationError R) Nat :=
  match x with
  | some a => .ok a
  | none => .error .arithError

/-- `verify!`: fail with the reason unless the condition holds. -/
def verify {R : Type} (condition : Bool) (reason : R) : Except (BlockOperationError R) Unit :=
  if condition then .ok () else .error (.invalid reason)

/-- A state error passed on by `?`. -/
def liftState {α : Type} (x : Except Error α) : Except BlockProcessingError α :=
  x.mapError .beaconStateError

/-- `BeaconBlockHeader`. -/
structure BeaconBlockHeader where
  slot : Nat
  proposerIndex : Nat
  parentRoot : Nat
  stateRoot : Nat
  bodyRoot : Nat
deriving DecidableEq, Repr

/-- `ProposerSlashing`, with the outcome of each header's signature check. -/
structure ProposerSlashing where
  header1 : BeaconBlockHeader
  header2 : BeaconBlockHeader
  signature1Valid : Bool
  signature2Valid : Bool

/-- `verify_proposer_slashing`. -/
def verifyProposerSlashing (proposerSlashing : ProposerSlashing) (state : BeaconState)
    (verifySignatures : Bool) : Except (BlockOperationError ProposerSlashingInvalid) Unit := do
  let header1 := proposerSlashing.header1
  let header2 := proposerSlashing.header2
  verify (header1.slot == header2.slot) (.proposalSlotMismatch header1.slot header2.slot)
  verify (header1.proposerIndex == header2.proposerIndex)
    (.proposerIndexMismatch header1.proposerIndex header2.proposerIndex)
  verify (header1 != header2) .proposalsIdentical
  let proposer ← okOr state.validators[header1.proposerIndex]?
    (.invalid (.proposerUnknown header1.proposerIndex))
  verify (proposer.isSlashableAt state.currentEpoch) (.proposerNotSlashable header1.proposerIndex)
  if verifySignatures then
    verify proposerSlashing.signature1Valid .badProposal1Signature
    verify proposerSlashing.signature2Valid .badProposal2Signature

/-- `process_proposer_slashings`, over the exit function. -/
def processProposerSlashingsWith (initiate : ExitFn) (spec : ChainSpec) (state : BeaconState)
    (proposerSlashings : List ProposerSlashing) (verifySignatures : Bool) :
    Except BlockProcessingError BeaconState :=
  proposerSlashings.zipIdx.foldlM (fun state entry => do
    (verifyProposerSlashing entry.1 state verifySignatures).mapError
      (BlockOperationError.intoWithIndex .proposerSlashingInvalid entry.2)
    liftState (slashValidatorWith initiate spec state entry.1.header1.proposerIndex none)) state

/-- `Checkpoint`. -/
structure Checkpoint where
  epoch : Nat
  root : Nat
deriving DecidableEq, Repr

/-- `AttestationData`. -/
structure AttestationData where
  slot : Nat
  index : Nat
  beaconBlockRoot : Nat
  source : Checkpoint
  target : Checkpoint
deriving DecidableEq, Repr

/-- `IndexedAttestation`, with the outcome of its signature check. -/
structure IndexedAttestation where
  attestingIndices : List Nat
  data : AttestationData
  signatureValid : Bool
deriving DecidableEq, Repr

/-- `IndexedAttestation::is_double_vote`. -/
def IndexedAttestation.isDoubleVote (a b : IndexedAttestation) : Bool :=
  a.data.target.epoch == b.data.target.epoch && a.data != b.data

/-- `IndexedAttestation::is_surround_vote`. -/
def IndexedAttestation.isSurroundVote (a b : IndexedAttestation) : Bool :=
  decide (a.data.source.epoch < b.data.source.epoch) && decide (b.data.target.epoch < a.data.target.epoch)

/-- `AttesterSlashing`. -/
structure AttesterSlashing where
  attestation1 : IndexedAttestation
  attestation2 : IndexedAttestation
deriving DecidableEq, Repr

/-- The `check_sorted` of `is_valid_indexed_attestation`: each index below the next, the first
pair out of order reported by its position. -/
def checkSorted : Nat → List Nat → Except (BlockOperationError IndexedAttestationInvalid) Unit
  | i, x :: y :: rest => do
    verify (decide (x < y)) (.badValidatorIndicesOrdering i)
    checkSorted (i + 1) (y :: rest)
  | _, _ => pure ()

/-- `is_valid_indexed_attestation`. -/
def isValidIndexedAttestation (indexedAttestation : IndexedAttestation) (verifySignatures : Bool) :
    Except (BlockOperationError IndexedAttestationInvalid) Unit := do
  let indices := indexedAttestation.attestingIndices
  verify (!indices.isEmpty) .indicesEmpty
  checkSorted 0 indices
  if verifySignatures then verify indexedAttestation.signatureValid .badSignature

/-- `verify_attester_slashing`. -/
def verifyAttesterSlashing (attesterSlashing : AttesterSlashing) (verifySignatures : Bool) :
    Except (BlockOperationError AttesterSlashingInvalid) Unit := do
  let attestation1 := attesterSlashing.attestation1
  let attestation2 := attesterSlashing.attestation2
  verify (attestation1.isDoubleVote attestation2 || attestation1.isSurroundVote attestation2)
    .notSlashable
  (isValidIndexedAttestation attestation1 verifySignatures).mapError
    (.invalid ∘ .indexedAttestation1Invalid)
  (isValidIndexedAttestation attestation2 verifySignatures).mapError
    (.invalid ∘ .indexedAttestation2Invalid)

/-- `get_slashable_indices`: the indices in both attestations, ascending (the `BTreeSet`
intersection), that are slashable at the current epoch. -/
def getSlashableIndices (state : BeaconState) (attesterSlashing : AttesterSlashing) :
    Except (BlockOperationError AttesterSlashingInvalid) (List Nat) := do
  let indices2 := attesterSlashing.attestation2.attestingIndices
  let common := ((attesterSlashing.attestation1.attestingIndices.dedup.filter (· ∈ indices2)).mergeSort
    (· ≤ ·))
  let slashableIndices ← common.foldlM (fun slashableIndices index => do
    let validator ← okOr state.validators[index]? (.invalid (.unknownValidator index))
    pure (if validator.isSlashableAt state.currentEpoch then slashableIndices ++ [index]
      else slashableIndices)) []
  verify (!slashableIndices.isEmpty) .noSlashableIndices
  pure slashableIndices

/-- `process_attester_slashings`, over the exit function. -/
def processAttesterSlashingsWith (initiate : ExitFn) (spec : ChainSpec) (state : BeaconState)
    (attesterSlashings : List AttesterSlashing) (verifySignatures : Bool) :
    Except BlockProcessingError BeaconState :=
  attesterSlashings.zipIdx.foldlM (fun state entry => do
    (verifyAttesterSlashing entry.1 verifySignatures).mapError
      (BlockOperationError.intoWithIndex .attesterSlashingInvalid entry.2)
    let slashableIndices ← (getSlashableIndices state entry.1).mapError
      (BlockOperationError.intoWithIndex .attesterSlashingInvalid entry.2)
    slashableIndices.foldlM (fun state i =>
      liftState (slashValidatorWith initiate spec state i none)) state) state

/-- `VoluntaryExit` with its signature check. -/
structure SignedVoluntaryExit where
  epoch : Nat
  validatorIndex : Nat
  signatureValid : Bool

/-- `verify_exit`. -/
def verifyExit (state : BeaconState) (signedExit : SignedVoluntaryExit) (verifySignatures : Bool)
    (spec : ChainSpec) : Except (BlockOperationError ExitInvalid) Unit := do
  let validator ← okOr state.validators[signedExit.validatorIndex]?
    (.invalid (.validatorUnknown signedExit.validatorIndex))
  verify (validator.isActiveAt state.currentEpoch) (.notActive signedExit.validatorIndex)
  verify (validator.exitEpoch == farFutureEpoch) (.alreadyExited signedExit.validatorIndex)
  verify (decide (state.currentEpoch ≥ signedExit.epoch))
    (.futureEpoch state.currentEpoch signedExit.epoch)
  let earliestExitEpoch ← opArith (addU64 validator.activationEpoch spec.shardCommitteePeriod)
  verify (decide (state.currentEpoch ≥ earliestExitEpoch))
    (.tooYoungToExit state.currentEpoch earliestExitEpoch)
  if verifySignatures then verify signedExit.signatureValid .badSignature

/-- `process_exits`, over the exit function. -/
def processExitsWith (initiate : ExitFn) (spec : ChainSpec) (state : BeaconState)
    (voluntaryExits : List SignedVoluntaryExit) (verifySignatures : Bool) :
    Except BlockProcessingError BeaconState :=
  voluntaryExits.zipIdx.foldlM (fun state entry => do
    (verifyExit state entry.1 verifySignatures spec).mapError
      (BlockOperationError.intoWithIndex .exitInvalid entry.2)
    liftState (initiate state entry.1.validatorIndex)) state

/-- `DepositData`, with the outcome of its signature check. -/
structure DepositData where
  pubkey : Nat
  amount : Nat
  signatureValid : Bool

/-- `process_deposit` without the Merkle proof check, which `process_deposits` has made. -/
def processDeposit (spec : ChainSpec) (state : BeaconState) (deposit : DepositData) :
    Except BlockProcessingError BeaconState := do
  let state := { state with eth1DepositIndex := ← liftState (arith (addU64 state.eth1DepositIndex 1)) }
  -- The pubkey cache gives the first validator with the deposit's key.
  match state.validators.findIdx? (·.pubkey == deposit.pubkey) with
  | some index => liftState (state.increaseBalance index deposit.amount)
  | none =>
    -- A new validator needs a valid signature; a bad one is skipped.
    if !deposit.signatureValid then return state
    let rem ← liftState (arith (remU64 deposit.amount spec.effectiveBalanceIncrement))
    let validator : Validator :=
      { pubkey := deposit.pubkey
        activationEligibilityEpoch := farFutureEpoch
        activationEpoch := farFutureEpoch
        exitEpoch := farFutureEpoch
        withdrawableEpoch := farFutureEpoch
        effectiveBalance := min (deposit.amount - rem) spec.maxEffectiveBalance
        slashed := false }
    pure { state with
      validators := state.validators ++ [validator]
      balances := state.balances ++ [deposit.amount] }

/-- `process_deposits`: the expected number of deposits, every Merkle proof (`verifyMerkleProof`
of the deposit and its index), then each deposit in turn. -/
def processDeposits (spec : ChainSpec) (verifyMerkleProof : DepositData → Nat → Bool)
    (state : BeaconState) (deposits : List DepositData) : Except BlockProcessingError BeaconState := do
  let outstanding ← liftState (if state.eth1DepositIndex ≤ state.eth1DepositCount then
      pure (state.eth1DepositCount - state.eth1DepositIndex)
    else throw (.invalidDepositState state.eth1DepositCount state.eth1DepositIndex))
  let expectedDepositLen := min spec.maxDeposits outstanding
  (if deposits.length ≠ expectedDepositLen then
    throw (.depositCountInvalid expectedDepositLen deposits.length) else pure ())
  deposits.zipIdx.forM fun entry => do
    let depositIndex ← (opArith (addU64 state.eth1DepositIndex entry.2) :
      Except (BlockOperationError DepositInvalid) Nat).mapError
        (BlockOperationError.intoWithIndex .depositInvalid entry.2)
    if !verifyMerkleProof entry.1 depositIndex then
      throw (.depositInvalid entry.2 .badMerkleProof)
  deposits.foldlM (processDeposit spec) state

end Operations

section RegistryUpdates

/-- `is_ejectable` of `process_registry_updates`. -/
def isEjectable (spec : ChainSpec) (currentEpoch : Nat) (validator : Validator) : Bool :=
  validator.isActiveAt currentEpoch && decide (validator.effectiveBalance ≤ spec.ejectionBalance)

/-- `Validator::is_eligible_for_activation_queue`. -/
def Validator.isEligibleForActivationQueue (v : Validator) (spec : ChainSpec) : Bool :=
  v.activationEligibilityEpoch == farFutureEpoch && v.effectiveBalance == spec.maxEffectiveBalance

/-- `Validator::is_eligible_for_activation`. -/
def Validator.isEligibleForActivation (v : Validator) (state : BeaconState) : Bool :=
  decide (v.activationEligibilityEpoch ≤ state.finalizedCheckpointEpoch) &&
    v.activationEpoch == farFutureEpoch

/-- The body of the first loop of `process_registry_updates`, over the exit function: queue an
eligible validator for activation, then eject it if its balance is too low. -/
def registryUpdate (initiate : ExitFn) (spec : ChainSpec) (currentEpoch : Nat)
    (state : BeaconState) (index : Nat) : Except Error BeaconState := do
  let validator ← state.getValidator index
  let state ← (if validator.isEligibleForActivationQueue spec then do
      let activationEligibilityEpoch ← arith (addU64 currentEpoch 1)
      state.updateValidator index fun v => { v with activationEligibilityEpoch }
    else pure state)
  if isEjectable spec currentEpoch (← state.getValidator index) then initiate state index
  else pure state

/-- The second part of `process_registry_updates`: activate the queue up to the churn limit,
in order of eligibility epoch and then index. -/
def activateQueue (spec : ChainSpec) (currentEpoch : Nat) (state : BeaconState) :
    Except Error BeaconState := do
  let activationQueue :=
    ((state.validators.zipIdx.filter fun e => e.1.isEligibleForActivation state).mergeSort
      fun a b => decide (a.1.activationEligibilityEpoch < b.1.activationEligibilityEpoch) ||
        (a.1.activationEligibilityEpoch == b.1.activationEligibilityEpoch && decide (a.2 ≤ b.2))).map
      (·.2)
  let churnLimit ← state.getChurnLimit spec
  let delayedActivationEpoch ← computeActivationExitEpoch spec currentEpoch
  (activationQueue.take churnLimit).foldlM (fun state index =>
    state.updateValidator index fun v => { v with activationEpoch := delayedActivationEpoch }) state

/-- The `indices_to_update` of `process_registry_updates`: the validators to queue or eject,
in index order. -/
def indicesToUpdate (spec : ChainSpec) (currentEpoch : Nat) (validators : List Validator) :
    List Nat :=
  (validators.zipIdx.filter fun e =>
    e.1.isEligibleForActivationQueue spec || isEjectable spec currentEpoch e.1).map (·.2)

/-- `process_registry_updates`: the indices of the validators to queue or eject are collected
first, then updated in order. -/
def processRegistryUpdates (spec : ChainSpec) (state : BeaconState) : Except Error BeaconState := do
  let currentEpoch := state.currentEpoch
  let state ← (indicesToUpdate spec currentEpoch state.validators).foldlM
    (registryUpdate (initiateValidatorExit spec) spec currentEpoch) state
  activateQueue spec currentEpoch state

/-- The specification's `process_registry_updates`: one loop over every validator. -/
def specProcessRegistryUpdates (spec : ChainSpec) (state : BeaconState) :
    Except Error BeaconState := do
  let currentEpoch := state.currentEpoch
  let state ← (List.range state.validators.length).foldlM
    (registryUpdate (specInitiateValidatorExit spec) spec currentEpoch) state
  activateQueue spec currentEpoch state

end RegistryUpdates

section Calls

/-- The calls that start exits: `initiate_validator_exit`, and the operations that call it. -/
inductive Call where
  | initiateValidatorExit (index : Nat)
  | slashValidator (slashedIndex : Nat) (whistleblowerIndex : Option Nat)
  | processProposerSlashings (proposerSlashings : List ProposerSlashing) (verifySignatures : Bool)
  | processAttesterSlashings (attesterSlashings : List AttesterSlashing) (verifySignatures : Bool)
  | processExits (voluntaryExits : List SignedVoluntaryExit) (verifySignatures : Bool)
  | processDeposit (deposit : DepositData)
  | processDeposits (verifyMerkleProof : DepositData → Nat → Bool) (deposits : List DepositData)
  | processRegistryUpdates

/-- A call, over the exit function and the registry update it runs; an error of the state is
passed on as `BlockProcessingError::BeaconStateError`. -/
def Call.runWith (initiate : ExitFn) (registryUpdates : BeaconState → Except Error BeaconState)
    (spec : ChainSpec) : Call → BeaconState → Except BlockProcessingError BeaconState
  | .initiateValidatorExit index, state => liftState (initiate state index)
  | .slashValidator slashedIndex whistleblowerIndex, state =>
    liftState (slashValidatorWith initiate spec state slashedIndex whistleblowerIndex)
  | .processProposerSlashings proposerSlashings verifySignatures, state =>
    processProposerSlashingsWith initiate spec state proposerSlashings verifySignatures
  | .processAttesterSlashings attesterSlashings verifySignatures, state =>
    processAttesterSlashingsWith initiate spec state attesterSlashings verifySignatures
  | .processExits voluntaryExits verifySignatures, state =>
    processExitsWith initiate spec state voluntaryExits verifySignatures
  | .processDeposit deposit, state => Registry.processDeposit spec state deposit
  | .processDeposits verifyMerkleProof deposits, state =>
    Registry.processDeposits spec verifyMerkleProof state deposits
  | .processRegistryUpdates, state => liftState (registryUpdates state)

/-- A call as the implementation makes it. -/
def Call.run (spec : ChainSpec) : Call → BeaconState → Except BlockProcessingError BeaconState :=
  Call.runWith (Registry.initiateValidatorExit spec) (Registry.processRegistryUpdates spec) spec

/-- A call with the specification's `initiate_validator_exit` and `process_registry_updates`. -/
def Call.specRun (spec : ChainSpec) : Call → BeaconState → Except BlockProcessingError BeaconState :=
  Call.runWith (specInitiateValidatorExit spec) (specProcessRegistryUpdates spec) spec

end Calls

section Refinement

theorem BeaconState.Consistent.of_exitEpochs {s s' : BeaconState} (hs : s.Consistent)
    (hcache : s'.exitCache = s.exitCache)
    (hexits : exitEpochs s'.validators = exitEpochs s.validators) : s'.Consistent := by
  unfold BeaconState.Consistent
  rw [hcache]
  exact hs.congr hexits.symm

theorem exitEpochs_set {vs : List Validator} {i : Nat} {v w : Validator} (hv : vs[i]? = some v)
    (hw : w.exitEpoch = v.exitEpoch) : exitEpochs (vs.set i w) = exitEpochs vs := by
  apply List.ext_getElem?
  intro j
  by_cases hij : i = j
  · subst hij
    have hlen : i < vs.length := (List.getElem?_eq_some_iff.mp hv).1
    have hvi : vs[i] = v := (List.getElem?_eq_some_iff.mp hv).2
    simp [exitEpochs, hw, hvi, hlen]
  · simp [exitEpochs, hij]

theorem updateValidator_refines {index : Nat} {f : Validator → Validator}
    (hf : ∀ v, (f v).exitEpoch = v.exitEpoch) :
    Refines setExitCache BeaconState.Consistent (fun s => s.updateValidator index f)
      (fun s => s.updateValidator index f) := by
  refine Refines.of_from fun s => ?_
  simp only [updateValidator, getValidator, setExitCache]
  refine RefinesFrom.read fun v hv => ?_
  refine RefinesFrom.ok _ ?_
  have hv' : s.validators[index]? = some v := getValidator_eq_ok.mp hv
  exact fun hs => BeaconState.Consistent.of_exitEpochs hs rfl (exitEpochs_set hv' (hf v))

theorem increaseBalance_refines (index delta : Nat) :
    Refines setExitCache BeaconState.Consistent (fun s => s.increaseBalance index delta)
      (fun s => s.increaseBalance index delta) := by
  refine Refines.of_from fun s => ?_
  simp only [increaseBalance, setExitCache]
  refine RefinesFrom.read fun balance _ => ?_
  refine RefinesFrom.read fun _ _ => ?_
  refine RefinesFrom.ok _ ?_
  exact id

theorem decreaseBalance_refines (index delta : Nat) :
    Refines setExitCache BeaconState.Consistent (fun s => s.decreaseBalance index delta)
      (fun s => s.decreaseBalance index delta) := by
  refine Refines.of_from fun s => ?_
  simp only [decreaseBalance, setExitCache]
  refine RefinesFrom.read fun balance _ => ?_
  refine RefinesFrom.ok _ ?_
  exact id

theorem setSlashings_refines (spec : ChainSpec) (epoch value : Nat) :
    Refines setExitCache BeaconState.Consistent (fun s => s.setSlashings spec epoch value)
      (fun s => s.setSlashings spec epoch value) := by
  refine Refines.of_from fun s => ?_
  simp only [setSlashings, getSlashingsIndex, setExitCache]
  refine RefinesFrom.read fun i _ => ?_
  by_cases hi : i < s.slashings.length
  · simp only [hi, if_true]
    refine RefinesFrom.ok _ ?_
    exact id
  · intro _ _ h
    simp [hi] at h

theorem ExitCache.Consistent.of_filter {c : ExitCache} {vs vs' : List Validator}
    (hc : c.Consistent vs)
    (h : (exitEpochs vs').filter (· != farFutureEpoch) = (exitEpochs vs).filter (· != farFutureEpoch)) :
    c.Consistent vs' := by
  intro hi
  obtain ⟨hcount, hmax⟩ := hc hi
  refine ⟨fun e he => ?_, by rw [hmax, h]⟩
  have hp : (e != farFutureEpoch) = true := by simpa using he
  calc c.getChurnAt e = .ok ((exitEpochs vs).count e) := hcount e he
    _ = .ok (((exitEpochs vs).filter (· != farFutureEpoch)).count e) := by
      rw [@List.count_filter _ _ _ (· != farFutureEpoch) e _ hp]
    _ = .ok ((exitEpochs vs').count e) := by
      rw [← h, @List.count_filter _ _ _ (· != farFutureEpoch) e _ hp]

/-- A new validator has not initiated its exit, so appending it keeps the cache consistent. -/
theorem BeaconState.Consistent.push {s : BeaconState} (hs : s.Consistent) {w : Validator}
    (hw : w.exitEpoch = farFutureEpoch) (balances : List Nat) (eth1DepositIndex : Nat) :
    ({ s with validators := s.validators ++ [w], balances, eth1DepositIndex } : BeaconState).Consistent :=
  ExitCache.Consistent.of_filter hs (by simp [exitEpochs, hw])

theorem processDeposit_refines (spec : ChainSpec) (deposit : DepositData) :
    Refines setExitCache BeaconState.Consistent (fun s => processDeposit spec s deposit)
      (fun s => processDeposit spec s deposit) := by
  refine Refines.of_from fun s => ?_
  simp only [processDeposit, setExitCache]
  refine RefinesFrom.read fun x _ => ?_
  cases hf : s.validators.findIdx? (·.pubkey == deposit.pubkey) with
  | some index =>
    exact RefinesFrom.update { s with eth1DepositIndex := x }
      (Refines.mapError _ (increaseBalance_refines index deposit.amount)) id
  | none =>
    cases hsig : deposit.signatureValid
    · simp only [Bool.not_false, if_true]
      refine RefinesFrom.ok { s with eth1DepositIndex := x } ?_
      exact id
    · simp only [Bool.not_true, Bool.false_eq_true, if_false]
      refine RefinesFrom.read fun rem _ => ?_
      refine RefinesFrom.ok _ ?_
      exact fun hs => BeaconState.Consistent.push hs rfl _ _

theorem processDeposits_refines (spec : ChainSpec) (verifyMerkleProof : DepositData → Nat → Bool)
    (deposits : List DepositData) :
    Refines setExitCache BeaconState.Consistent
      (fun s => processDeposits spec verifyMerkleProof s deposits)
      (fun s => processDeposits spec verifyMerkleProof s deposits) := by
  refine Refines.of_from fun s => ?_
  simp only [processDeposits, setExitCache]
  refine RefinesFrom.read fun outstanding _ => ?_
  refine RefinesFrom.read fun _ _ => ?_
  refine RefinesFrom.read fun _ _ => ?_
  refine RefinesFrom.update s (Refines.foldlM fun deposit _ => processDeposit_refines spec deposit) ?_
  exact id

section Exits
variable {initiate initiate' : ExitFn}
  (hexit : ∀ i, Refines setExitCache BeaconState.Consistent (fun s => initiate s i)
    (fun s => initiate' s i))
include hexit

theorem slashValidatorWith_refines (spec : ChainSpec) (slashedIndex : Nat)
    (whistleblowerIndex : Option Nat) :
    Refines setExitCache BeaconState.Consistent
      (fun s => slashValidatorWith initiate spec s slashedIndex whistleblowerIndex)
      (fun s => slashValidatorWith initiate' spec s slashedIndex whistleblowerIndex) := by
  -- The epoch is read before the exit, so it is fixed from the start state on.
  refine Refines.of_from fun s => ?_
  simp only [slashValidatorWith, setExitCache]
  refine RefinesFrom.bind (hexit slashedIndex) ?_
  refine Refines.read (by intro _ _; rfl) fun validator => ?_
  refine Refines.read (by intro _ _; rfl) fun slashingsEpoch => ?_
  refine Refines.bind (updateValidator_refines fun v => rfl) ?_
  refine Refines.read (by intro _ _; rfl) fun slashings => ?_
  refine Refines.read (by intro _ _; rfl) fun _ => ?_
  refine Refines.bind (setSlashings_refines _ _ _) ?_
  refine Refines.read (by intro _ _; rfl) fun penalty => ?_
  refine Refines.bind (decreaseBalance_refines _ _) ?_
  refine Refines.read (by intro _ _; rfl) fun whistleblowerReward => ?_
  refine Refines.read (by intro _ _; rfl) fun proposerReward => ?_
  refine Refines.read (by intro _ _; rfl) fun _ => ?_
  -- The proposer index is read before the first reward, and used again for the second.
  refine Refines.of_from fun t => ?_
  simp only [setExitCache]
  refine RefinesFrom.bind (increaseBalance_refines _ _) ?_
  exact Refines.read (by intro _ _; rfl) fun _ => increaseBalance_refines _ _

theorem processProposerSlashingsWith_refines (spec : ChainSpec)
    (proposerSlashings : List ProposerSlashing) (verifySignatures : Bool) :
    Refines setExitCache BeaconState.Consistent
      (fun s => processProposerSlashingsWith initiate spec s proposerSlashings verifySignatures)
      (fun s => processProposerSlashingsWith initiate' spec s proposerSlashings verifySignatures) := by
  refine Refines.foldlM fun entry _ => ?_
  refine Refines.read (by intro _ _; rfl) fun _ => ?_
  exact Refines.mapError _ (slashValidatorWith_refines hexit spec _ none)

theorem processAttesterSlashingsWith_refines (spec : ChainSpec)
    (attesterSlashings : List AttesterSlashing) (verifySignatures : Bool) :
    Refines setExitCache BeaconState.Consistent
      (fun s => processAttesterSlashingsWith initiate spec s attesterSlashings verifySignatures)
      (fun s => processAttesterSlashingsWith initiate' spec s attesterSlashings verifySignatures) := by
  refine Refines.foldlM fun entry _ => ?_
  refine Refines.read (by intro _ _; rfl) fun _ => ?_
  refine Refines.read (by intro _ _; rfl) fun slashableIndices => ?_
  exact Refines.foldlM fun index _ =>
    Refines.mapError _ (slashValidatorWith_refines hexit spec index none)

theorem processExitsWith_refines (spec : ChainSpec) (voluntaryExits : List SignedVoluntaryExit)
    (verifySignatures : Bool) :
    Refines setExitCache BeaconState.Consistent
      (fun s => processExitsWith initiate spec s voluntaryExits verifySignatures)
      (fun s => processExitsWith initiate' spec s voluntaryExits verifySignatures) := by
  refine Refines.foldlM fun entry _ => ?_
  refine Refines.read (by intro _ _; rfl) fun _ => ?_
  exact Refines.mapError _ (hexit _)

theorem registryUpdate_refines (spec : ChainSpec) (currentEpoch index : Nat) :
    Refines setExitCache BeaconState.Consistent
      (fun s => registryUpdate initiate spec currentEpoch s index)
      (fun s => registryUpdate initiate' spec currentEpoch s index) := by
  refine Refines.read (by intro _ _; rfl) fun validator => ?_
  refine Refines.bind (Refines.ite (by intro _ _; exact Iff.rfl) ?_ Refines.pure) ?_
  · exact Refines.read (by intro _ _; rfl) fun _ => updateValidator_refines fun v => rfl
  refine Refines.read (by intro _ _; rfl) fun validator' => ?_
  exact Refines.ite (by intro _ _; exact Iff.rfl) (hexit index) Refines.pure

end Exits

theorem updateValidator_getElem?_ne {s s' : BeaconState} {i j : Nat} {f : Validator → Validator}
    (h : s.updateValidator i f = .ok s') (hij : i ≠ j) : s'.validators[j]? = s.validators[j]? := by
  obtain ⟨v, -, rfl⟩ := updateValidator_eq_ok.mp h
  exact List.getElem?_set_ne hij

theorem specInitiateValidatorExit_getElem?_ne {spec : ChainSpec} {s s' : BeaconState} {i j : Nat}
    (h : specInitiateValidatorExit spec s i = .ok s') (hij : i ≠ j) :
    s'.validators[j]? = s.validators[j]? := by
  unfold specInitiateValidatorExit at h
  obtain ⟨v, -, h⟩ := bind_eq_ok.mp h
  split_ifs at h
  · cases h
    rfl
  · obtain ⟨d, -, h⟩ := bind_eq_ok.mp h
    obtain ⟨L, -, h⟩ := bind_eq_ok.mp h
    obtain ⟨q, -, h⟩ := bind_eq_ok.mp h
    obtain ⟨w, -, h⟩ := bind_eq_ok.mp h
    exact updateValidator_getElem?_ne h hij

/-- A turn of the registry loop only changes its own validator, when the exit function does. -/
theorem registryUpdate_getElem?_ne {initiate : ExitFn} {i j : Nat}
    (hexit : ∀ s s', initiate s i = .ok s' → s'.validators[j]? = s.validators[j]?)
    {spec : ChainSpec} {currentEpoch : Nat} {s s' : BeaconState}
    (h : registryUpdate initiate spec currentEpoch s i = .ok s') (hij : i ≠ j) :
    s'.validators[j]? = s.validators[j]? := by
  unfold registryUpdate at h
  obtain ⟨v, -, h⟩ := bind_eq_ok.mp h
  obtain ⟨s₁, h₁, h⟩ := bind_eq_ok.mp h
  have hs₁ : s₁.validators[j]? = s.validators[j]? := by
    split_ifs at h₁
    · obtain ⟨a, -, h₁⟩ := bind_eq_ok.mp h₁
      exact updateValidator_getElem?_ne h₁ hij
    · cases h₁
      rfl
  obtain ⟨v', -, h⟩ := bind_eq_ok.mp h
  rw [← hs₁]
  split_ifs at h
  · exact hexit s₁ s' h
  · cases h
    rfl

/-- A validator that is neither queued nor ejected is left alone. -/
theorem registryUpdate_of_not_selected {initiate : ExitFn} {spec : ChainSpec} {currentEpoch : Nat}
    {s : BeaconState} {i : Nat} {v : Validator} (hv : s.validators[i]? = some v)
    (hsel : (v.isEligibleForActivationQueue spec || isEjectable spec currentEpoch v) = false) :
    registryUpdate initiate spec currentEpoch s i = .ok s := by
  have hget : s.getValidator i = .ok v := getValidator_eq_ok.mpr hv
  obtain ⟨hq, hej⟩ := Bool.or_eq_false_iff.mp hsel
  simp only [registryUpdate, hget, ok_bind, hq, Bool.false_eq_true, if_false, pure_bind, hej]
  rfl

/-- The specification's loop over every validator runs as the loop over the indices that the
implementation collects: each turn only changes its own validator, so a validator's turn sees it
as it was, and a turn on one that is neither queued nor ejected does nothing. -/
theorem specRegistryLoop_eq (spec : ChainSpec) (currentEpoch : Nat) (s : BeaconState) :
    (List.range s.validators.length).foldlM
        (registryUpdate (specInitiateValidatorExit spec) spec currentEpoch) s =
      (indicesToUpdate spec currentEpoch s.validators).foldlM
        (registryUpdate (specInitiateValidatorExit spec) spec currentEpoch) s := by
  have hrange : List.range s.validators.length = s.validators.zipIdx.map (·.2) := by
    rw [List.range_eq_range', List.zipIdx_map_snd]
  have hpw : s.validators.zipIdx.Pairwise fun x y => x.2 ≠ y.2 := by
    rw [← List.pairwise_map (f := Prod.snd), ← hrange]
    exact List.nodup_range
  rw [hrange, indicesToUpdate, List.foldlM_map, List.foldlM_map]
  refine foldlM_filter_of_fresh _ (fun t x => t.validators[x.2]? = some x.1) ?_ ?_ hpw
    fun x hx => List.mem_zipIdx_iff_getElem?.mp hx
  · intro t x hx hsel
    exact registryUpdate_of_not_selected hx hsel
  · intro t t' x y hxy hy h
    rw [registryUpdate_getElem?_ne (fun _ _ h' => specInitiateValidatorExit_getElem?_ne h' hxy) h hxy]
    exact hy

theorem activateQueue_refines (spec : ChainSpec) (currentEpoch : Nat) :
    Refines setExitCache BeaconState.Consistent (activateQueue spec currentEpoch)
      (activateQueue spec currentEpoch) := by
  -- The queue is read from the start state, before any activation.
  refine Refines.of_from fun s => ?_
  simp only [activateQueue, setExitCache]
  refine RefinesFrom.read fun churnLimit _ => ?_
  refine RefinesFrom.read fun delayedActivationEpoch _ => ?_
  refine RefinesFrom.update s
    (Refines.foldlM fun index _ => updateValidator_refines (by intro _; rfl)) ?_
  exact id

theorem processRegistryUpdates_refines {spec : ChainSpec}
    (hdelay : 1 ≤ spec.minValidatorWithdrawabilityDelay) :
    Refines setExitCache BeaconState.Consistent (processRegistryUpdates spec)
      (specProcessRegistryUpdates spec) := by
  refine Refines.of_from fun s => ?_
  have hspec : ∀ c, specProcessRegistryUpdates spec (setExitCache c s) =
      (indicesToUpdate spec s.currentEpoch s.validators).foldlM
        (registryUpdate (specInitiateValidatorExit spec) spec s.currentEpoch) (setExitCache c s) >>=
        activateQueue spec s.currentEpoch := fun c => by
    rw [specProcessRegistryUpdates, specRegistryLoop_eq]
    rfl
  simp only [hspec]
  exact RefinesFrom.bind (Refines.foldlM fun index _ =>
    registryUpdate_refines (initiateValidatorExit_refines hdelay) spec _ index)
    (activateQueue_refines spec _)

/-- Every call refines its specification's version, over exit functions and registry updates
that do. -/
theorem Call.runWith_refines {initiate initiate' : ExitFn}
    {registryUpdates registryUpdates' : BeaconState → Except Error BeaconState}
    (hexit : ∀ i, Refines setExitCache BeaconState.Consistent (fun s => initiate s i)
      (fun s => initiate' s i))
    (hreg : Refines setExitCache BeaconState.Consistent registryUpdates registryUpdates')
    (spec : ChainSpec) (call : Call) :
    Refines setExitCache BeaconState.Consistent (call.runWith initiate registryUpdates spec)
      (call.runWith initiate' registryUpdates' spec) := by
  cases call with
  | initiateValidatorExit index => exact Refines.mapError _ (hexit index)
  | slashValidator slashedIndex whistleblowerIndex =>
    exact Refines.mapError _ (slashValidatorWith_refines hexit spec slashedIndex whistleblowerIndex)
  | processProposerSlashings l verifySignatures =>
    exact processProposerSlashingsWith_refines hexit spec l verifySignatures
  | processAttesterSlashings l verifySignatures =>
    exact processAttesterSlashingsWith_refines hexit spec l verifySignatures
  | processExits l verifySignatures => exact processExitsWith_refines hexit spec l verifySignatures
  | processDeposit deposit => exact processDeposit_refines spec deposit
  | processDeposits verifyMerkleProof deposits =>
    exact processDeposits_refines spec verifyMerkleProof deposits
  | processRegistryUpdates => exact Refines.mapError _ hreg

/-- From a consistent exit cache, every call that returns `Ok` leaves the cache consistent, and
the specification's version of the call, started from the same state with any cache in place,
returns the same state with that cache, when the withdrawability delay is positive. -/
theorem Call.run_refines_specRun {spec : ChainSpec}
    (hdelay : 1 ≤ spec.minValidatorWithdrawabilityDelay) (call : Call) {state state' : BeaconState}
    (hs : state.Consistent) (h : call.run spec state = .ok state') :
    state'.Consistent ∧ ∀ c, call.specRun spec (setExitCache c state) = .ok (setExitCache c state') :=
  Call.runWith_refines (initiateValidatorExit_refines hdelay) (processRegistryUpdates_refines hdelay)
    spec call state state' hs h

/-- The same along a whole run of calls. -/
theorem Call.runAll_refines {spec : ChainSpec} (hdelay : 1 ≤ spec.minValidatorWithdrawabilityDelay)
    (calls : List Call) {state state' : BeaconState} (hs : state.Consistent)
    (h : calls.foldlM (fun s call => call.run spec s) state = .ok state') :
    state'.Consistent ∧ ∀ c, calls.foldlM (fun s call => call.specRun spec s) (setExitCache c state) =
      .ok (setExitCache c state') :=
  Refines.foldlM (fun call _ => Call.runWith_refines (initiateValidatorExit_refines hdelay)
    (processRegistryUpdates_refines hdelay) spec call) state state' hs h

/-- One validator, active since genesis and past the shard committee period, with no cache
built. -/
def activeState : BeaconState :=
  { fork := .altair, currentEpoch := 300, finalizedCheckpointEpoch := 299
    validators := [⟨0, 32000000000, false, 0, 0, farFutureEpoch, farFutureEpoch⟩]
    balances := [32000000000], slashings := [0], eth1DepositIndex := 0, eth1DepositCount := 0
    proposerIndex := 0, exitCache := default }

/-- `activeState` after its voluntary exit: the exit epoch is the first after the activation
delay, and the cache is built and records it. -/
def exitedState : BeaconState :=
  { activeState with
    validators := [⟨0, 32000000000, false, 0, 0, 305, 561⟩]
    exitCache := ⟨true, Histogram.record ∅ 305⟩ }

/-- The voluntary exit of `activeState`'s validator at epoch 300, signature checked. -/
def voluntaryExitCall : Call := .processExits [⟨300, 0, true⟩] true

theorem run_refines_specRun_voluntaryExit :
    1 ≤ (mainnetSpecWithDelay 256).minValidatorWithdrawabilityDelay ∧ activeState.Consistent ∧
      voluntaryExitCall.run (mainnetSpecWithDelay 256) activeState = .ok exitedState ∧
      (exitedState.Consistent ∧ ∀ c, voluntaryExitCall.specRun (mainnetSpecWithDelay 256)
        (setExitCache c activeState) = .ok (setExitCache c exitedState)) :=
  have hs : activeState.Consistent := ExitCache.consistent_of_not_initialized rfl _
  have hrun : voluntaryExitCall.run (mainnetSpecWithDelay 256) activeState = .ok exitedState := by
    rfl
  ⟨by decide, hs, hrun, Call.run_refines_specRun (by decide) _ hs hrun⟩

end Refinement

end Lighthouse.Registry
