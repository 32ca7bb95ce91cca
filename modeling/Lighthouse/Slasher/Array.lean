import Mathlib.Data.List.AList
import Lighthouse.Foundations.Checked
import Lighthouse.Foundations.EState
import Lighthouse.Slasher.Config

/-! The min-max target arrays of the slasher (array.rs). For each validator and epoch `e` of
the history, the min array holds the smallest target of the validator's attestations with a
source above `e`, and the max array the largest target of those with a source below `e`, each as
a distance from `e`. An incoming attestation is checked against its source's cell, then swept
into the cells it changes, chunk by chunk: downwards from its source for the min array,
upwards for the max array, each sweep stopping at the first cell it leaves unchanged. When the
current epoch advances, a validator's cells from its last current epoch on are reset to the
neutral distance before anything else is read.

The database's tables other than the arrays and the current epochs are kept abstract: their
operations are parameters, over a state `α`. Loading and storing a chunk, which compress and
serialize it, are a read and a write of the table under its disk key. -/
namespace Lighthouse.Slasher
open Registry Checked EState

/-- `Chunk`: the distances of `chunk_size` epochs for `validator_chunk_size` validators. -/
structure Chunk where
  data : List Nat
deriving DecidableEq, Repr

/-- `AttesterSlashingStatus`. -/
inductive AttesterSlashingStatus
  | notSlashable
  | alreadyDoubleVoted
  | doubleVote (existing : IndexedAttestation)
  | surroundsExisting (existing : IndexedAttestation)
  | surroundedByExisting (existing : IndexedAttestation)
deriving DecidableEq, Repr

/-- `AttesterSlashingStatus::into_slashing`: the surrounding attestation comes first. -/
def AttesterSlashingStatus.intoSlashing (status : AttesterSlashingStatus)
    (newAttestation : IndexedAttestation) : Option AttesterSlashing :=
  match status with
  | .notSlashable => none
  | .alreadyDoubleVoted => none
  | .doubleVote existing | .surroundedByExisting existing => some ⟨existing, newAttestation⟩
  | .surroundsExisting existing => some ⟨newAttestation, existing⟩

/-- `AttesterRecord`: the tree hash roots of an attestation's data and of the whole attestation. -/
structure AttesterRecord where
  attestationDataHash : Nat
  indexedAttestationHash : Nat
deriving DecidableEq, Repr

/-- `IndexedAttesterRecord`; the id is 0 until the attestation has been stored. -/
structure IndexedAttesterRecord where
  indexed : IndexedAttestation
  record : AttesterRecord
  indexedAttestationId : Nat
deriving DecidableEq, Repr

/-- The tables of `SlasherDB` that the arrays do not hold, over a state `α`, and the hash roots
that key them. -/
structure SlasherTables (α : Type) where
  /-- `get_attestation_for_validator`. -/
  getAttestationForValidator : α → Nat → Nat → Except Error IndexedAttestation
  /-- `check_and_update_attester_record`. -/
  checkAndUpdateAttesterRecord :
    α → Nat → IndexedAttestation → AttesterRecord → Nat → Except Error (α × AttesterSlashingStatus)
  /-- `store_indexed_attestation`: the attestation's id. -/
  storeIndexedAttestation : α → Nat → IndexedAttestation → Except Error (α × Nat)
  /-- `process_blocks` on the queued blocks and the proposer table. -/
  processBlocks : α → Except Error α
  /-- `AttestationData::tree_hash_root`. -/
  attestationDataHash : AttestationData → Nat
  /-- `IndexedAttestation::tree_hash_root`. -/
  indexedAttestationHash : IndexedAttestation → Nat

/-- `SlasherDB`: the min and max target arrays by disk key, the current epoch recorded for each
validator, and the other tables. -/
structure SlasherDB (α : Type) where
  minTargets : Nat → Option Chunk
  maxTargets : Nat → Option Chunk
  currentEpochs : Nat → Option Nat
  tables : α

/-- `update_current_epoch_for_validator`. -/
def SlasherDB.updateCurrentEpochForValidator {α : Type} (db : SlasherDB α)
    (validatorIndex currentEpoch : Nat) : SlasherDB α :=
  { db with currentEpochs := fun v => if v = validatorIndex then some currentEpoch else db.currentEpochs v }

namespace Chunk

/-- `Chunk::get_target`. -/
def getTarget (chunk : Chunk) (validatorIndex epoch : Nat) (config : Config) : Except Error Nat :=
  let cellIndex := config.cellIndex (config.validatorOffset validatorIndex) (config.chunkOffset epoch)
  match chunk.data[cellIndex]? with
  | some distance => .ok (epoch + distance)
  | none => .error (.chunkIndexOutOfBounds cellIndex)

/-- `Chunk::set_raw_distance`. -/
def setRawDistance (chunk : Chunk) (validatorIndex epoch targetDistance : Nat) (config : Config) :
    Except Error Chunk :=
  let cellIndex := config.cellIndex (config.validatorOffset validatorIndex) (config.chunkOffset epoch)
  if cellIndex < chunk.data.length then .ok ⟨chunk.data.set cellIndex targetDistance⟩
  else .error (.chunkIndexOutOfBounds cellIndex)

/-- `Chunk::epoch_distance`: the distance must fit in a `u16` and stay below `MAX_DISTANCE`. -/
def epochDistance (epoch baseEpoch : Nat) : Except Error Nat := do
  let distanceU64 ← okOr (subU64 epoch baseEpoch) .distanceCalculationOverflow
  let distance ← okOr (if distanceU64 < 2 ^ 16 then some distanceU64 else none) .distanceTooLarge
  if distance < maxDistance then pure distance else throw .distanceTooLarge

/-- `Chunk::set_target`. -/
def setTarget (chunk : Chunk) (validatorIndex epoch targetEpoch : Nat) (config : Config) :
    Except Error Chunk := do
  let distance ← epochDistance targetEpoch epoch
  chunk.setRawDistance validatorIndex epoch distance config

end Chunk

/-- The two implementations of `TargetArrayChunk`. -/
inductive TargetArrayChunk
  | minTargetChunk
  | maxTargetChunk
deriving DecidableEq, Repr

/-- The chunks of one array row that `update_array` has loaded or changed, by chunk index. -/
abbrev ChunkMap := AList (fun _ : Nat => Chunk)

namespace MinTargetChunk

/-- `MinTargetChunk::check_slashable`: a target above the smallest one recorded for the source
means that the attestation surrounds a recorded one, or that the validator double voted. -/
def checkSlashable {α : Type} (tables : SlasherTables α) (db : α) (chunk : Chunk)
    (validatorIndex : Nat) (attestation : IndexedAttestation) (config : Config) :
    Except Error AttesterSlashingStatus := do
  let minTarget ← chunk.getTarget validatorIndex attestation.data.source.epoch config
  if attestation.data.target.epoch > minTarget then
    let existingAttestation ← tables.getAttestationForValidator db validatorIndex minTarget
    if attestation.data.source.epoch < existingAttestation.data.source.epoch then
      pure (.surroundsExisting existingAttestation)
    else pure .alreadyDoubleVoted
  else pure .notSlashable

/-- The loop of `MinTargetChunk::update`, downwards from `epoch` while in the chunk and not
below `minEpoch`; whether the sweep should go on in the chunk below. -/
def updateLoop (config : Config) (chunkIndex validatorIndex newTargetEpoch minEpoch : Nat) :
    Chunk → Nat → Except Error (Chunk × Bool)
  | chunk, epoch =>
    if config.chunkIndex epoch = chunkIndex ∧ minEpoch ≤ epoch then do
      let target ← chunk.getTarget validatorIndex epoch config
      if newTargetEpoch < target then
        let chunk ← chunk.setTarget validatorIndex epoch newTargetEpoch config
        match epoch with
        -- `epoch -= 1` saturates at genesis: the next turn reads back `newTargetEpoch` and stops.
        | 0 => pure (chunk, false)
        | epoch + 1 => updateLoop config chunkIndex validatorIndex newTargetEpoch minEpoch chunk epoch
      else pure (chunk, false)
    else pure (chunk, decide (minEpoch ≤ epoch))

/-- `MinTargetChunk::update`. -/
def update (chunk : Chunk) (chunkIndex validatorIndex startEpoch newTargetEpoch currentEpoch : Nat)
    (config : Config) : Except Error (Chunk × Bool) :=
  let minEpoch := currentEpoch - (config.historyLength - 1)
  updateLoop config chunkIndex validatorIndex newTargetEpoch minEpoch chunk startEpoch

/-- `MinTargetChunk::first_start_epoch`. -/
def firstStartEpoch (sourceEpoch currentEpoch : Nat) (config : Config) : Option Nat :=
  if sourceEpoch > currentEpoch - config.historyLength then some (sourceEpoch - 1) else none

/-- `MinTargetChunk::next_start_epoch`: the last epoch of the previous chunk. -/
def nextStartEpoch (startEpoch : Nat) (config : Config) : Nat :=
  startEpoch / config.chunkSize * config.chunkSize - 1

end MinTargetChunk

namespace MaxTargetChunk

/-- `MaxTargetChunk::check_slashable`: a target below the largest one recorded for the source
means that a recorded attestation surrounds this one, or that the validator double voted. -/
def checkSlashable {α : Type} (tables : SlasherTables α) (db : α) (chunk : Chunk)
    (validatorIndex : Nat) (attestation : IndexedAttestation) (config : Config) :
    Except Error AttesterSlashingStatus := do
  let maxTarget ← chunk.getTarget validatorIndex attestation.data.source.epoch config
  if attestation.data.target.epoch < maxTarget then
    let existingAttestation ← tables.getAttestationForValidator db validatorIndex maxTarget
    if existingAttestation.data.source.epoch < attestation.data.source.epoch then
      pure (.surroundedByExisting existingAttestation)
    else pure .alreadyDoubleVoted
  else pure .notSlashable

/-- The loop of `MaxTargetChunk::update`, upwards from `epoch` while in the chunk and not above
the current epoch; whether the sweep should go on in the chunk above. -/
def updateLoop (config : Config) (chunkIndex validatorIndex newTargetEpoch currentEpoch : Nat)
    (chunk : Chunk) (epoch : Nat) : Except Error (Chunk × Bool) :=
  if h : config.chunkIndex epoch = chunkIndex ∧ epoch ≤ currentEpoch then do
    let target ← chunk.getTarget validatorIndex epoch config
    if newTargetEpoch > target then
      let chunk ← chunk.setTarget validatorIndex epoch newTargetEpoch config
      updateLoop config chunkIndex validatorIndex newTargetEpoch currentEpoch chunk (epoch + 1)
    else pure (chunk, false)
  else pure (chunk, decide (epoch ≤ currentEpoch))
termination_by currentEpoch + 1 - epoch
decreasing_by omega

/-- `MaxTargetChunk::update`. -/
def update (chunk : Chunk) (chunkIndex validatorIndex startEpoch newTargetEpoch currentEpoch : Nat)
    (config : Config) : Except Error (Chunk × Bool) :=
  updateLoop config chunkIndex validatorIndex newTargetEpoch currentEpoch chunk startEpoch

/-- `MaxTargetChunk::first_start_epoch`. -/
def firstStartEpoch (sourceEpoch currentEpoch : Nat) (_config : Config) : Option Nat :=
  if sourceEpoch < currentEpoch then some (sourceEpoch + 1) else none

/-- `MaxTargetChunk::next_start_epoch`: the first epoch of the next chunk. -/
def nextStartEpoch (startEpoch : Nat) (config : Config) : Nat :=
  (startEpoch / config.chunkSize + 1) * config.chunkSize

end MaxTargetChunk

namespace TargetArrayChunk
variable {α : Type}

/-- `TargetArrayChunk::neutral_element`: the distance of a cell with no attestation. -/
def neutralElement : TargetArrayChunk → Nat
  | minTargetChunk => maxDistance
  | maxTargetChunk => 0

/-- `TargetArrayChunk::empty`. -/
def empty (kind : TargetArrayChunk) (config : Config) : Chunk :=
  ⟨List.replicate (config.chunkSize * config.validatorChunkSize) kind.neutralElement⟩

/-- `TargetArrayChunk::select_db`. -/
def selectDb : TargetArrayChunk → SlasherDB α → Nat → Option Chunk
  | minTargetChunk, db => db.minTargets
  | maxTargetChunk, db => db.maxTargets

/-- `TargetArrayChunk::load`. -/
def load (kind : TargetArrayChunk) (db : SlasherDB α) (validatorChunkIndex chunkIndex : Nat)
    (config : Config) : Option Chunk :=
  kind.selectDb db (config.diskKey validatorChunkIndex chunkIndex)

/-- `TargetArrayChunk::store`. -/
def store (kind : TargetArrayChunk) (db : SlasherDB α) (chunk : Chunk)
    (validatorChunkIndex chunkIndex : Nat) (config : Config) : SlasherDB α :=
  let diskKey := config.diskKey validatorChunkIndex chunkIndex
  let put (table : Nat → Option Chunk) : Nat → Option Chunk :=
    fun key => if key = diskKey then some chunk else table key
  match kind with
  | minTargetChunk => { db with minTargets := put db.minTargets }
  | maxTargetChunk => { db with maxTargets := put db.maxTargets }

/-- `TargetArrayChunk::check_slashable`. -/
def checkSlashable : TargetArrayChunk → SlasherTables α → α → Chunk → Nat → IndexedAttestation →
    Config → Except Error AttesterSlashingStatus
  | minTargetChunk => MinTargetChunk.checkSlashable
  | maxTargetChunk => MaxTargetChunk.checkSlashable

/-- `TargetArrayChunk::update`. -/
def update : TargetArrayChunk → Chunk → Nat → Nat → Nat → Nat → Nat → Config →
    Except Error (Chunk × Bool)
  | minTargetChunk => MinTargetChunk.update
  | maxTargetChunk => MaxTargetChunk.update

/-- `TargetArrayChunk::first_start_epoch`. -/
def firstStartEpoch : TargetArrayChunk → Nat → Nat → Config → Option Nat
  | minTargetChunk => MinTargetChunk.firstStartEpoch
  | maxTargetChunk => MaxTargetChunk.firstStartEpoch

/-- `TargetArrayChunk::next_start_epoch`. -/
def nextStartEpoch : TargetArrayChunk → Nat → Config → Nat
  | minTargetChunk => MinTargetChunk.nextStartEpoch
  | maxTargetChunk => MaxTargetChunk.nextStartEpoch

end TargetArrayChunk

section Update
variable {α : Type} (tables : SlasherTables α) (kind : TargetArrayChunk) (db : SlasherDB α)
  (config : Config)

/-- `get_chunk_for_update`: the chunk already in `updated_chunks`, or else the stored one or an
empty one, which then enters the map. -/
def getChunkForUpdate (updatedChunks : ChunkMap) (validatorChunkIndex chunkIndex : Nat) :
    ChunkMap × Chunk :=
  match updatedChunks.lookup chunkIndex with
  | some chunk => (updatedChunks, chunk)
  | none =>
    let chunk := (kind.load db validatorChunkIndex chunkIndex config).getD (kind.empty config)
    (updatedChunks.insert chunkIndex chunk, chunk)

/-- The `loop` of `apply_attestation_for_validator`: update the chunk of `startEpoch`, and while
its update asks to go on, the one of the next start epoch. Each turn moves the start epoch
strictly towards the end of the range swept, which lies within `current_epoch + 1` epochs: that
many turns, the fuel the caller gives, are never exhausted (`applyLoop_fuel`). -/
def applyLoop (validatorChunkIndex validatorIndex newTargetEpoch currentEpoch : Nat) :
    Nat → ChunkMap → Nat → Except Error ChunkMap
  | 0, updatedChunks, _ => pure updatedChunks
  | fuel + 1, updatedChunks, startEpoch => do
    let chunkIndex := config.chunkIndex startEpoch
    let (updatedChunks, currentChunk) :=
      getChunkForUpdate kind db config updatedChunks validatorChunkIndex chunkIndex
    let (currentChunk, keepGoing) ← kind.update currentChunk chunkIndex validatorIndex startEpoch
      newTargetEpoch currentEpoch config
    let updatedChunks := updatedChunks.insert chunkIndex currentChunk
    if keepGoing then
      applyLoop validatorChunkIndex validatorIndex newTargetEpoch currentEpoch fuel updatedChunks
        (kind.nextStartEpoch startEpoch config)
    else pure updatedChunks

/-- `apply_attestation_for_validator`. -/
def applyAttestationForValidator (updatedChunks : ChunkMap)
    (validatorChunkIndex validatorIndex : Nat) (attestation : IndexedAttestation)
    (currentEpoch : Nat) : Except Error (ChunkMap × AttesterSlashingStatus) := do
  let chunkIndex := config.chunkIndex attestation.data.source.epoch
  let (updatedChunks, currentChunk) :=
    getChunkForUpdate kind db config updatedChunks validatorChunkIndex chunkIndex
  let slashingStatus ←
    kind.checkSlashable tables db.tables currentChunk validatorIndex attestation config
  if slashingStatus ≠ .notSlashable then pure (updatedChunks, slashingStatus)
  else
    match kind.firstStartEpoch attestation.data.source.epoch currentEpoch config with
    | none => pure (updatedChunks, slashingStatus)
    | some startEpoch => do
      let updatedChunks ← applyLoop kind db config validatorChunkIndex validatorIndex
        attestation.data.target.epoch currentEpoch (currentEpoch + 1) updatedChunks startEpoch
      pure (updatedChunks, .notSlashable)

/-- The inner loop of `epoch_update_for_validator`: reset the cells of one chunk to `neutral`
from `epoch` on, up to the current epoch; the epoch it stops at. -/
def resetLoop (chunkIndex validatorIndex currentEpoch neutral : Nat) (chunk : Chunk)
    (epoch : Nat) : Except Error (Chunk × Nat) :=
  if h : config.chunkIndex epoch = chunkIndex ∧ epoch ≤ currentEpoch then do
    let chunk ← chunk.setRawDistance validatorIndex epoch neutral config
    resetLoop chunkIndex validatorIndex currentEpoch neutral chunk (epoch + 1)
  else pure (chunk, epoch)
termination_by currentEpoch + 1 - epoch
decreasing_by omega

/-- The outer loop of `epoch_update_for_validator`, chunk by chunk. Each turn resets at least
the epoch it starts from, so `current_epoch + 1` turns are never exhausted. -/
def epochUpdateLoop (validatorChunkIndex validatorIndex currentEpoch : Nat) :
    Nat → ChunkMap → Nat → Except Error ChunkMap
  | 0, updatedChunks, _ => pure updatedChunks
  | fuel + 1, updatedChunks, epoch =>
    if epoch ≤ currentEpoch then do
      let chunkIndex := config.chunkIndex epoch
      let (updatedChunks, currentChunk) :=
        getChunkForUpdate kind db config updatedChunks validatorChunkIndex chunkIndex
      let (currentChunk, epoch) ← resetLoop config chunkIndex validatorIndex currentEpoch
        kind.neutralElement currentChunk epoch
      epochUpdateLoop validatorChunkIndex validatorIndex currentEpoch fuel
        (updatedChunks.insert chunkIndex currentChunk) epoch
    else pure updatedChunks

/-- `epoch_update_for_validator`: reset a validator's cells from the current epoch recorded for
it up to the new one; nothing for a validator with none recorded. -/
def epochUpdateForValidator (updatedChunks : ChunkMap) (validatorChunkIndex validatorIndex
    currentEpoch : Nat) : Except Error ChunkMap :=
  match db.currentEpochs validatorIndex with
  | none => pure updatedChunks
  | some previousCurrentEpoch =>
    epochUpdateLoop kind db config validatorChunkIndex validatorIndex currentEpoch
      (currentEpoch + 1) updatedChunks previousCurrentEpoch

/-- The slashings found so far, as the `HashSet` of `update_array`. -/
def insertSlashing (slashings : List AttesterSlashing) (status : AttesterSlashingStatus)
    (attestation : IndexedAttestation) : List AttesterSlashing :=
  match status.intoSlashing attestation with
  | some slashing => slashings.insert slashing
  | none => slashings

/-- The turns of `update_array` for one attestation: each attesting validator of the chunk. -/
def updateArrayAttestation (validatorChunkIndex currentEpoch : Nat)
    (acc : ChunkMap × List AttesterSlashing) (attestation : IndexedAttestation) :
    Except Error (ChunkMap × List AttesterSlashing) :=
  (config.attestingValidatorsInChunk attestation validatorChunkIndex).foldlM
    (fun acc validatorIndex => do
      let (updatedChunks, slashingStatus) ← applyAttestationForValidator tables kind db config acc.1
        validatorChunkIndex validatorIndex attestation currentEpoch
      pure (updatedChunks, insertSlashing acc.2 slashingStatus attestation)) acc

/-- `update_array`: the epoch update of every validator of the chunk row, then every
attestation of each chunk column in turn, then every changed chunk stored. -/
def updateArray (validatorChunkIndex : Nat)
    (chunkAttestations : List (Nat × List IndexedAttesterRecord)) (currentEpoch : Nat) :
    Except Error (SlasherDB α × List AttesterSlashing) := do
  let updatedChunks ← (config.validatorIndicesInChunk validatorChunkIndex).foldlM
    (fun updatedChunks validatorIndex =>
      epochUpdateForValidator kind db config updatedChunks validatorChunkIndex validatorIndex
        currentEpoch) ∅
  let (updatedChunks, slashings) ← chunkAttestations.foldlM
    (fun acc entry => entry.2.foldlM
      (fun acc attestation => updateArrayAttestation tables kind db config validatorChunkIndex
        currentEpoch acc attestation.indexed) acc) (updatedChunks, [])
  -- Store chunks on disk.
  pure (updatedChunks.entries.foldl
    (fun db entry => kind.store db entry.2 validatorChunkIndex entry.1 config) db, slashings)

end Update

/-- The `chunk_attestations` map of `update`: the attestations of the batch by the chunk column
of their source, columns in increasing order, each with its attestations in batch order. -/
def groupByChunkIndex (config : Config) (batch : List IndexedAttesterRecord) :
    List (Nat × List IndexedAttesterRecord) :=
  ((List.range (config.historyLength / config.chunkSize)).map fun chunkIndex =>
    (chunkIndex, batch.filter fun attestation =>
      config.chunkIndex attestation.indexed.data.source.epoch == chunkIndex)).filter
    fun entry => !entry.2.isEmpty

/-- `array::update`: the min array, then the max array, then the current epoch of every
validator of the chunk row. -/
def update {α : Type} (tables : SlasherTables α) (db : SlasherDB α) (validatorChunkIndex : Nat)
    (batch : List IndexedAttesterRecord) (currentEpoch : Nat) (config : Config) :
    Except Error (SlasherDB α × List AttesterSlashing) := do
  let chunkAttestations := groupByChunkIndex config batch
  let (db, slashings) ← updateArray tables .minTargetChunk db config validatorChunkIndex
    chunkAttestations currentEpoch
  let (db, maxSlashings) ← updateArray tables .maxTargetChunk db config validatorChunkIndex
    chunkAttestations currentEpoch
  -- Update all current epochs.
  let db := (config.validatorIndicesInChunk validatorChunkIndex).foldl
    (fun db validatorIndex => db.updateCurrentEpochForValidator validatorIndex currentEpoch) db
  pure (db, maxSlashings.foldl (fun slashings slashing => slashings.insert slashing) slashings)

end Lighthouse.Slasher
