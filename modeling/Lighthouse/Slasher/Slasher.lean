import Lighthouse.Slasher.Array

/-! The slasher's processing of queued attestations (slasher.rs, attestation_queue.rs).
`process_queued` runs one database transaction: the queued blocks, then the queued
attestations. These are filtered for relevance to the current epoch, de-duplicated by validator
and attestation data (keeping the record with the most attesters), stored, grouped by chunk row
of their validators, and each group checked for double votes and then for surrounds through the
min-max arrays. A failure leaves the database as it was, but the queue has already been emptied
of what was taken from it, and the slashings found before the failure are kept.

The slasher is a state machine over `Slasher α`, with the programs in `EStateM` (a failing
program keeps its state): a transaction is the database value threaded through the program, and
committing it is writing it back. -/
namespace Lighthouse.Slasher
open Registry EState
-- `slasher::Slasher` lives in the crate of the same name.
set_option linter.dupNamespace false

/-- `Slasher`: the database, the queue of attestations not yet processed, and the attester
slashings found. -/
structure Slasher (α : Type) where
  db : SlasherDB α
  attestationQueue : List IndexedAttesterRecord
  attesterSlashings : List AttesterSlashing

/-- `AttestationBatch`: `attestations` holds every record queued, and `attesters` maps each
(validator, attestation data hash) to the position of the record kept for it, keys in increasing
order. -/
structure AttestationBatch where
  attesters : List ((Nat × Nat) × Nat)
  attestations : List IndexedAttesterRecord
deriving DecidableEq, Repr

/-- The order of `BTreeMap` keys `(u64, Hash256)`. -/
def keyLt (a b : Nat × Nat) : Bool := a.1 < b.1 || (a.1 == b.1 && a.2 < b.2)

/-- `entry(key).and_modify(modify).or_insert(value)` on a `BTreeMap`, as an ordered list. -/
def upsert (m : List ((Nat × Nat) × Nat)) (key : Nat × Nat) (value : Nat) (modify : Nat → Nat) :
    List ((Nat × Nat) × Nat) :=
  match m with
  | [] => [(key, value)]
  | entry :: m =>
    if entry.1 = key then (entry.1, modify entry.2) :: m
    else if keyLt key entry.1 then (key, value) :: entry :: m
    else entry :: upsert m key value modify

/-- `AttestationBatch::queue`. -/
def AttestationBatch.queue (batch : AttestationBatch) (indexedRecord : IndexedAttesterRecord) :
    AttestationBatch :=
  let position := batch.attestations.length
  let attestations := batch.attestations ++ [indexedRecord]
  let attestationDataHash := indexedRecord.record.attestationDataHash
  -- A record for the same data with more attesters replaces the one kept.
  let replace (existing : Nat) : Nat :=
    match attestations[existing]? with
    | some existingEntry =>
      if existingEntry.indexed.attestingIndices.length < indexedRecord.indexed.attestingIndices.length
      then position else existing
    | none => existing
  { attesters := indexedRecord.indexed.attestingIndices.foldl
      (fun attesters validatorIndex =>
        upsert attesters (validatorIndex, attestationDataHash) position replace) batch.attesters
    attestations }

/-- Whether some attester still refers to the record at `position`: its weak reference
upgrades. -/
def AttestationBatch.isReferenced (batch : AttestationBatch) (position : Nat) : Bool :=
  batch.attesters.any fun entry => entry.2 == position

/-- `AttestationBatch::group_by_validator_chunk_index`: subqueue `i` holds, in key order, the
records kept for the validators of chunk row `i`, with a subqueue for every row up to the last
one that has a record. -/
def AttestationBatch.groupByValidatorChunkIndex (batch : AttestationBatch) (config : Config) :
    List (List IndexedAttesterRecord) :=
  batch.attesters.foldl (fun subqueues entry =>
    let subqueueId := config.validatorChunkIndex entry.1.1
    let subqueues := if subqueueId ≥ subqueues.length then
        subqueues ++ List.replicate (subqueueId + 1 - subqueues.length) []
      else subqueues
    match batch.attestations[entry.2]? with
    | some indexedRecord => subqueues.modify subqueueId (· ++ [indexedRecord])
    | none => subqueues) []

/-- `Slasher::validate`: the attestations to process now, those deferred until their target
epoch, and how many were dropped as irrelevant. -/
def validate (config : Config) (batch : List IndexedAttesterRecord) (currentEpoch : Nat) :
    List IndexedAttesterRecord × List IndexedAttesterRecord × Nat :=
  batch.foldl (fun (keep, defer, dropCount) indexedRecord =>
    let targetEpoch := indexedRecord.indexed.data.target.epoch
    let sourceEpoch := indexedRecord.indexed.data.source.epoch
    if sourceEpoch > targetEpoch ∨ sourceEpoch + config.historyLength ≤ currentEpoch then
      (keep, defer, dropCount + 1)
    else if targetEpoch > currentEpoch then (keep, defer ++ [indexedRecord], dropCount)
    else (keep ++ [indexedRecord], defer, dropCount)) ([], [], 0)

/-- The slashings found so far, extended as a `HashSet`. -/
def extendSlashings (slashings found : List AttesterSlashing) : List AttesterSlashing :=
  found.foldl (fun slashings slashing => slashings.insert slashing) slashings

section Processing
variable {α : Type} (tables : SlasherTables α) (config : Config)

/-- The storing loop of `process_attestations`: each record still referred to is stored, and
takes the id it is stored under. -/
def storeAttestations (batch : AttestationBatch) (db : α) : Except Error (α × AttestationBatch) :=
  batch.attestations.zipIdx.foldlM (fun acc entry =>
    if acc.2.isReferenced entry.2 then do
      let (db, indexedAttestationId) ← tables.storeIndexedAttestation acc.1
        entry.1.record.indexedAttestationHash entry.1.indexed
      pure (db, { acc.2 with attestations :=
        acc.2.attestations.set entry.2 { entry.1 with indexedAttestationId } })
    else pure acc) (db, batch)

/-- `Slasher::check_double_votes`. -/
def checkDoubleVotes (db : α) (subqueueId : Nat) (attestation : IndexedAttestation)
    (attesterRecord : AttesterRecord) (indexedAttestationId : Nat) :
    Except Error (α × List AttesterSlashing) :=
  (config.attestingValidatorsInChunk attestation subqueueId).foldlM (fun acc validatorIndex => do
    let (db, slashingStatus) ← tables.checkAndUpdateAttesterRecord acc.1 validatorIndex attestation
      attesterRecord indexedAttestationId
    pure (db, insertSlashing acc.2 slashingStatus attestation)) (db, [])

/-- `Slasher::process_batch`: double votes first, then surrounds through the min-max arrays. -/
def Slasher.processBatch (txn : SlasherDB α) (subqueueId : Nat) (batch : List IndexedAttesterRecord)
    (currentEpoch : Nat) : EStateM Error (Slasher α) (SlasherDB α) := do
  let txn ← batch.foldlM (fun txn attestation => do
    let (tables', slashings) ← ofResult (checkDoubleVotes tables config txn.tables subqueueId
      attestation.indexed attestation.record attestation.indexedAttestationId)
    modify fun s => { s with attesterSlashings := extendSlashings s.attesterSlashings slashings }
    pure { txn with tables := tables' }) txn
  let (txn, slashings) ← ofResult (update tables txn subqueueId batch currentEpoch config)
  modify fun s => { s with attesterSlashings := extendSlashings s.attesterSlashings slashings }
  pure txn

/-- `Slasher::process_attestations`: the queue is emptied of what is processed now; the deferred
attestations go back to it. -/
def Slasher.processAttestations (currentEpoch : Nat) (txn : SlasherDB α) :
    EStateM Error (Slasher α) (SlasherDB α) := do
  let snapshot := (← get).attestationQueue
  -- Filter attestations for relevance.
  let (snapshot, deferred, _) := validate config snapshot currentEpoch
  modify fun s => { s with attestationQueue := deferred }
  -- De-duplicate attestations and sort by validator index.
  let batch := snapshot.foldl AttestationBatch.queue ⟨[], []⟩
  -- Insert relevant attestations into database.
  let (tables', batch) ← ofResult (storeAttestations tables batch txn.tables)
  -- Group attestations into chunked batches and process them.
  (batch.groupByValidatorChunkIndex config).zipIdx.foldlM
    (fun txn entry => Slasher.processBatch tables config txn entry.2 entry.1 currentEpoch)
    { txn with tables := tables' }

/-- `Slasher::process_queued`: one transaction, committed at the end. -/
def Slasher.processQueued (currentEpoch : Nat) : EStateM Error (Slasher α) Unit := do
  let txn := (← get).db
  let tables' ← ofResult (tables.processBlocks txn.tables)
  let txn ← Slasher.processAttestations tables config currentEpoch { txn with tables := tables' }
  modify fun s => { s with db := txn }

/-- `Slasher::accept_attestation`. -/
def Slasher.acceptAttestation (s : Slasher α) (attestation : IndexedAttestation) : Slasher α :=
  let attesterRecord : AttesterRecord :=
    ⟨tables.attestationDataHash attestation.data, tables.indexedAttestationHash attestation⟩
  { s with attestationQueue := s.attestationQueue ++ [⟨attestation, attesterRecord, 0⟩] }

end Processing

/-- A slasher on a fresh database. -/
def Slasher.init {α : Type} (tables : α) : Slasher α :=
  ⟨⟨fun _ => none, fun _ => none, fun _ => none, tables⟩, [], []⟩

end Lighthouse.Slasher
