import Mathlib.Logic.Function.Basic
import Mathlib.Algebra.GroupWithZero.Nat

/-! The slashing protection database of the validator client
(`validator_client/slashing_protection`). The SQLite tables `validators`,
`signed_blocks` and `signed_attestations` become one function per table, keyed by the
public key (the integer `validator_id` is in bijection with it through
`UNIQUE(public_key)`), and each query the code issues becomes a list operation over the
rows of one validator. Epochs and slots are `Nat`; binding one as an SQL parameter fails
above `i64::MAX`, as `impl ToSql for Epoch` does. -/
namespace Lighthouse.SlashingProtection
variable {κ : Type}

/-- A `Hash256` in which `0x0` is the null root (`SigningRoot` in `lib.rs`). -/
structure SigningRoot where
  raw : Nat
deriving DecidableEq, Repr

instance : Inhabited SigningRoot := ⟨⟨0⟩⟩

namespace SigningRoot

def isNull (r : SigningRoot) : Bool := r.raw == 0

/-- `impl PartialEq for SigningRoot`: the null root is equal to nothing, itself included. -/
def eq (a b : SigningRoot) : Bool := !a.isNull && a.raw == b.raw

theorem eq_iff {a b : SigningRoot} : a.eq b = true ↔ a.isNull = false ∧ a = b := by
  cases a; cases b
  simp [eq, isNull]

theorem eq_symm {a b : SigningRoot} (h : a.eq b = true) : b.eq a = true := by
  obtain ⟨hn, rfl⟩ := eq_iff.mp h
  exact eq_iff.mpr ⟨hn, rfl⟩

theorem default_isNull : (default : SigningRoot).isNull = true := rfl

end SigningRoot

/-- A row of `signed_blocks`. -/
structure SignedBlock where
  slot : Nat
  signingRoot : SigningRoot
deriving DecidableEq, Repr

/-- A row of `signed_attestations`. -/
structure SignedAttestation where
  sourceEpoch : Nat
  targetEpoch : Nat
  signingRoot : SigningRoot
deriving DecidableEq, Repr

inductive InvalidBlock where
  | doubleBlockProposal (existing : SignedBlock)
  | slotViolatesLowerBound (blockSlot boundSlot : Nat)
deriving DecidableEq, Repr

inductive InvalidAttestation where
  | doubleVote (existing : SignedAttestation)
  | newSurroundsPrev (prev : SignedAttestation)
  | prevSurroundsNew (prev : SignedAttestation)
  | sourceExceedsTarget
  | sourceLessThanLowerBound (sourceEpoch boundEpoch : Nat)
  | targetLessThanOrEqLowerBound (targetEpoch boundEpoch : Nat)
deriving DecidableEq, Repr

/-- `NotSafe`, without the variants that only I/O and the connection pool produce. An
`SQLError` keeps no message. -/
inductive NotSafe (κ : Type) where
  | unregisteredValidator (pk : κ)
  | disabledValidator (pk : κ)
  | invalidBlock (e : InvalidBlock)
  | invalidAttestation (e : InvalidAttestation)
  | sqlError
  | consistencyError
deriving DecidableEq, Repr

inductive Safe where
  | sameData
  | valid
deriving DecidableEq, Repr

/-- The three tables; `validators pk` is the `enabled` column of the row of `pk`. -/
structure SlashingDatabase (κ : Type) where
  validators : κ → Option Bool
  signedBlocks : κ → List SignedBlock
  signedAttestations : κ → List SignedAttestation

/-- The tables of `SlashingDatabase::create`, before any row is inserted. -/
def SlashingDatabase.empty : SlashingDatabase κ :=
  ⟨fun _ => none, fun _ => [], fun _ => []⟩

/-- `impl ToSql for Epoch` and `for Slot`: `i64::try_from(self.as_u64())`. -/
def toSql (n : Nat) : Except (NotSafe κ) Nat :=
  if n < 2 ^ 63 then .ok n else .error .sqlError

/-- SQL's `x < y` where `y` is the result of an aggregate over possibly no rows: a
comparison with `NULL` is never true. -/
def sqlLt (x : Nat) : Option Nat → Bool
  | some y => decide (x < y)
  | none => false

/-- `SELECT .. ORDER BY target_epoch DESC LIMIT 1` over the rows `atts`. -/
def latestByTarget (atts : List SignedAttestation) : Option SignedAttestation :=
  atts.foldl (fun best a => match best with
    | none => some a
    | some b => if b.targetEpoch < a.targetEpoch then some a else some b) none

section Queries
variable [DecidableEq κ]

namespace SlashingDatabase

/-- Replace the rows of `signed_blocks` that belong to `pk`. -/
def setSignedBlocks (db : SlashingDatabase κ) (pk : κ) (rows : List SignedBlock) :
    SlashingDatabase κ :=
  { db with signedBlocks := Function.update db.signedBlocks pk rows }

/-- Replace the rows of `signed_attestations` that belong to `pk`. -/
def setSignedAttestations (db : SlashingDatabase κ) (pk : κ) (rows : List SignedAttestation) :
    SlashingDatabase κ :=
  { db with signedAttestations := Function.update db.signedAttestations pk rows }

/-- Set the `enabled` column of the row of `pk`. -/
def setValidator (db : SlashingDatabase κ) (pk : κ) (enabled : Bool) : SlashingDatabase κ :=
  { db with validators := Function.update db.validators pk (some enabled) }

@[simp] theorem setSignedBlocks_validators (db : SlashingDatabase κ) (pk : κ) rows :
    (db.setSignedBlocks pk rows).validators = db.validators := rfl
@[simp] theorem setSignedBlocks_signedAttestations (db : SlashingDatabase κ) (pk : κ) rows :
    (db.setSignedBlocks pk rows).signedAttestations = db.signedAttestations := rfl
@[simp] theorem setSignedBlocks_signedBlocks (db : SlashingDatabase κ) (pk pk' : κ) rows :
    (db.setSignedBlocks pk rows).signedBlocks pk' = if pk' = pk then rows else db.signedBlocks pk' := by
  simp [setSignedBlocks, Function.update_apply]
@[simp] theorem setSignedAttestations_validators (db : SlashingDatabase κ) (pk : κ) rows :
    (db.setSignedAttestations pk rows).validators = db.validators := rfl
@[simp] theorem setSignedAttestations_signedBlocks (db : SlashingDatabase κ) (pk : κ) rows :
    (db.setSignedAttestations pk rows).signedBlocks = db.signedBlocks := rfl
@[simp] theorem setSignedAttestations_signedAttestations (db : SlashingDatabase κ) (pk pk' : κ)
    rows : (db.setSignedAttestations pk rows).signedAttestations pk' =
      if pk' = pk then rows else db.signedAttestations pk' := by
  simp [setSignedAttestations, Function.update_apply]
@[simp] theorem setSignedBlocks_setSignedBlocks (db : SlashingDatabase κ) (pk : κ) rows rows' :
    (db.setSignedBlocks pk rows).setSignedBlocks pk rows' = db.setSignedBlocks pk rows' := by
  simp [setSignedBlocks]
@[simp] theorem setSignedAttestations_setSignedAttestations (db : SlashingDatabase κ) (pk : κ)
    rows rows' : (db.setSignedAttestations pk rows).setSignedAttestations pk rows' =
      db.setSignedAttestations pk rows' := by
  simp [setSignedAttestations]
@[simp] theorem setValidator_validators (db : SlashingDatabase κ) (pk pk' : κ) b :
    (db.setValidator pk b).validators pk' = if pk' = pk then some b else db.validators pk' := by
  simp [setValidator, Function.update_apply]
@[simp] theorem setValidator_signedBlocks (db : SlashingDatabase κ) (pk : κ) b :
    (db.setValidator pk b).signedBlocks = db.signedBlocks := rfl
@[simp] theorem setValidator_signedAttestations (db : SlashingDatabase κ) (pk : κ) b :
    (db.setValidator pk b).signedAttestations = db.signedAttestations := rfl

end SlashingDatabase

/-- `get_validator_id_in_txn`: the validator must be registered and enabled. -/
def getValidatorIdInTxn (txn : SlashingDatabase κ) (pk : κ) : Except (NotSafe κ) Unit :=
  match txn.validators pk with
  | none => .error (.unregisteredValidator pk)
  | some false => .error (.disabledValidator pk)
  | some true => .ok ()

/-- `check_block_proposal`. -/
def checkBlockProposal (txn : SlashingDatabase κ) (pk : κ) (slot : Nat)
    (signingRoot : SigningRoot) : Except (NotSafe κ) Safe := do
  getValidatorIdInTxn txn pk
  let _ ← toSql slot
  let blocks := txn.signedBlocks pk
  match blocks.find? (·.slot = slot) with
  | some existing =>
    -- Same slot and same hash: a re-broadcast; same slot and another hash: a double proposal.
    if existing.signingRoot.eq signingRoot then return .sameData
    else throw (.invalidBlock (.doubleBlockProposal existing))
  | none =>
    match (blocks.map (·.slot)).min? with
    | some minSlot =>
      if slot ≤ minSlot then throw (.invalidBlock (.slotViolatesLowerBound slot minSlot))
      else return .valid
    | none => return .valid

/-- `check_attestation`. -/
def checkAttestation (txn : SlashingDatabase κ) (pk : κ) (attSourceEpoch attTargetEpoch : Nat)
    (attSigningRoot : SigningRoot) : Except (NotSafe κ) Safe := do
  if attSourceEpoch > attTargetEpoch then
    throw (.invalidAttestation .sourceExceedsTarget)
  getValidatorIdInTxn txn pk
  let atts := txn.signedAttestations pk
  let _ ← toSql attTargetEpoch
  match atts.find? (·.targetEpoch = attTargetEpoch) with
  | some existing =>
    if existing.signingRoot.eq attSigningRoot then return .sameData
    else throw (.invalidAttestation (.doubleVote existing))
  | none =>
  let _ ← toSql attSourceEpoch
  match latestByTarget (atts.filter fun a =>
      a.sourceEpoch < attSourceEpoch ∧ a.targetEpoch > attTargetEpoch) with
  | some prev => throw (.invalidAttestation (.prevSurroundsNew prev))
  | none =>
  match latestByTarget (atts.filter fun a =>
      a.sourceEpoch > attSourceEpoch ∧ a.targetEpoch < attTargetEpoch) with
  | some prev => throw (.invalidAttestation (.newSurroundsPrev prev))
  | none =>
  -- The lower bounds: source at least the minimum source, target above the minimum target.
  match (atts.map (·.sourceEpoch)).min? with
  | some minSource =>
    if attSourceEpoch < minSource then
      throw (.invalidAttestation (.sourceLessThanLowerBound attSourceEpoch minSource))
    else checkTargetLowerBound atts
  | none => checkTargetLowerBound atts
where
  checkTargetLowerBound (atts : List SignedAttestation) : Except (NotSafe κ) Safe :=
    match (atts.map (·.targetEpoch)).min? with
    | some minTarget =>
      if attTargetEpoch ≤ minTarget then
        throw (.invalidAttestation (.targetLessThanOrEqLowerBound attTargetEpoch minTarget))
      else return .valid
    | none => return .valid

/-- `insert_block_proposal`; `UNIQUE (validator_id, slot)` rejects a second row at a slot. -/
def insertBlockProposal (txn : SlashingDatabase κ) (pk : κ) (slot : Nat)
    (signingRoot : SigningRoot) : Except (NotSafe κ) (SlashingDatabase κ) := do
  getValidatorIdInTxn txn pk
  let _ ← toSql slot
  if (txn.signedBlocks pk).any (·.slot = slot) then throw .sqlError
  return txn.setSignedBlocks pk (txn.signedBlocks pk ++ [⟨slot, signingRoot⟩])

/-- `insert_attestation`; `UNIQUE (validator_id, target_epoch)` rejects a second row at a
target. -/
def insertAttestation (txn : SlashingDatabase κ) (pk : κ) (attSourceEpoch attTargetEpoch : Nat)
    (attSigningRoot : SigningRoot) : Except (NotSafe κ) (SlashingDatabase κ) := do
  getValidatorIdInTxn txn pk
  let _ ← toSql attSourceEpoch
  let _ ← toSql attTargetEpoch
  if (txn.signedAttestations pk).any (·.targetEpoch = attTargetEpoch) then throw .sqlError
  return txn.setSignedAttestations pk
    (txn.signedAttestations pk ++ [⟨attSourceEpoch, attTargetEpoch, attSigningRoot⟩])

/-- `check_and_insert_block_signing_root_txn`. -/
def checkAndInsertBlockSigningRootTxn (pk : κ) (slot : Nat) (signingRoot : SigningRoot)
    (txn : SlashingDatabase κ) : Except (NotSafe κ) (Safe × SlashingDatabase κ) := do
  let safe ← checkBlockProposal txn pk slot signingRoot
  if safe ≠ .sameData then
    let txn ← insertBlockProposal txn pk slot signingRoot
    return (safe, txn)
  return (safe, txn)

/-- `check_and_insert_attestation_signing_root_txn`. -/
def checkAndInsertAttestationSigningRootTxn (pk : κ) (attSourceEpoch attTargetEpoch : Nat)
    (attSigningRoot : SigningRoot) (txn : SlashingDatabase κ) :
    Except (NotSafe κ) (Safe × SlashingDatabase κ) := do
  let safe ← checkAttestation txn pk attSourceEpoch attTargetEpoch attSigningRoot
  if safe ≠ .sameData then
    let txn ← insertAttestation txn pk attSourceEpoch attTargetEpoch attSigningRoot
    return (safe, txn)
  return (safe, txn)

/-- A transaction is committed when its body succeeds and rolled back otherwise. -/
def commitOrRollback {α : Type} (db : SlashingDatabase κ)
    (r : Except (NotSafe κ) (α × SlashingDatabase κ)) :
    SlashingDatabase κ × Except (NotSafe κ) α :=
  match r with
  | .ok (a, txn) => (txn, .ok a)
  | .error e => (db, .error e)

/-- `check_and_insert_block_signing_root`, in its exclusive transaction. -/
def checkAndInsertBlockSigningRoot (db : SlashingDatabase κ) (pk : κ) (slot : Nat)
    (signingRoot : SigningRoot) : SlashingDatabase κ × Except (NotSafe κ) Safe :=
  commitOrRollback db (checkAndInsertBlockSigningRootTxn pk slot signingRoot db)

/-- `check_and_insert_attestation_signing_root`, in its exclusive transaction. -/
def checkAndInsertAttestationSigningRoot (db : SlashingDatabase κ) (pk : κ)
    (attSourceEpoch attTargetEpoch : Nat) (attSigningRoot : SigningRoot) :
    SlashingDatabase κ × Except (NotSafe κ) Safe :=
  commitOrRollback db
    (checkAndInsertAttestationSigningRootTxn pk attSourceEpoch attTargetEpoch attSigningRoot db)

/-- The rows that survive `DELETE .. WHERE slot < ?2 AND slot < (SELECT MAX(slot) ..)`: the
guard on the maximum keeps the table from becoming empty. -/
def prunedBlocks (blocks : List SignedBlock) (newMinSlot : Nat) : List SignedBlock :=
  blocks.filter fun b =>
    !(decide (b.slot < newMinSlot) && sqlLt b.slot (blocks.map (·.slot)).max?)

def prunedAttestations (atts : List SignedAttestation) (newMinTarget : Nat) :
    List SignedAttestation :=
  atts.filter fun a =>
    !(decide (a.targetEpoch < newMinTarget) && sqlLt a.targetEpoch (atts.map (·.targetEpoch)).max?)

/-- `prune_signed_blocks`. -/
def pruneSignedBlocks (pk : κ) (newMinSlot : Nat) (txn : SlashingDatabase κ) :
    Except (NotSafe κ) (SlashingDatabase κ) := do
  getValidatorIdInTxn txn pk
  let _ ← toSql newMinSlot
  return txn.setSignedBlocks pk (prunedBlocks (txn.signedBlocks pk) newMinSlot)

/-- `prune_signed_attestations`. -/
def pruneSignedAttestations (pk : κ) (newMinTarget : Nat) (txn : SlashingDatabase κ) :
    Except (NotSafe κ) (SlashingDatabase κ) := do
  getValidatorIdInTxn txn pk
  let _ ← toSql newMinTarget
  return txn.setSignedAttestations pk (prunedAttestations (txn.signedAttestations pk) newMinTarget)

/-- `prune_all_signed_blocks`: one transaction, aborted by the first failing key. -/
def pruneAllSignedBlocks (db : SlashingDatabase κ) (pks : List κ) (newMinSlot : Nat) :
    SlashingDatabase κ × Except (NotSafe κ) Unit :=
  commitOrRollback db
    ((pks.foldlM (fun txn pk => pruneSignedBlocks pk newMinSlot txn) db).map (fun t => ((), t)))

/-- `prune_all_signed_attestations`. -/
def pruneAllSignedAttestations (db : SlashingDatabase κ) (pks : List κ) (newMinTarget : Nat) :
    SlashingDatabase κ × Except (NotSafe κ) Unit :=
  commitOrRollback db
    ((pks.foldlM (fun txn pk => pruneSignedAttestations pk newMinTarget txn) db).map
      (fun t => ((), t)))

/-- `register_validators_in_txn`: insert each unknown key enabled, and re-enable each
disabled one. -/
def registerValidatorsInTxn (pks : List κ) (txn : SlashingDatabase κ) : SlashingDatabase κ :=
  pks.foldl (fun txn pk => match txn.validators pk with
    | none => txn.setValidator pk true
    | some false => txn.setValidator pk true
    | some true => txn) txn

/-- `register_validators`, in its own transaction, which cannot fail here. -/
def registerValidators (db : SlashingDatabase κ) (pks : List κ) : SlashingDatabase κ :=
  registerValidatorsInTxn pks db

/-- Enabling or disabling a registered key, as `ValidatorStore` does through
`get_validator_id_ignoring_status` and `update_validator_status` in one transaction. -/
def updateValidatorStatus (db : SlashingDatabase κ) (pk : κ) (status : Bool) :
    SlashingDatabase κ × Except (NotSafe κ) Unit :=
  match db.validators pk with
  | none => (db, .error (.unregisteredValidator pk))
  | some _ => (db.setValidator pk status, .ok ())

/-- `clear_signed_blocks`. -/
def clearSignedBlocks (pk : κ) (txn : SlashingDatabase κ) :
    Except (NotSafe κ) (SlashingDatabase κ) := do
  getValidatorIdInTxn txn pk
  return txn.setSignedBlocks pk []

/-- `clear_signed_attestations`. -/
def clearSignedAttestations (pk : κ) (txn : SlashingDatabase κ) :
    Except (NotSafe κ) (SlashingDatabase κ) := do
  getValidatorIdInTxn txn pk
  return txn.setSignedAttestations pk []

end Queries

/-- Minimum and maximum slots and epochs signed by a validator. -/
structure ValidatorSummary where
  minBlockSlot : Option Nat
  maxBlockSlot : Option Nat
  minAttestationSource : Option Nat
  minAttestationTarget : Option Nat
  maxAttestationSource : Option Nat
  maxAttestationTarget : Option Nat
deriving DecidableEq, Repr

/-- `max_or`: the maximum of `opt_x` and `y`, or `y` when `opt_x` is `None`. -/
def maxOr (optX : Option Nat) (y : Nat) : Nat :=
  match optX with
  | some x => max x y
  | none => y

/-- `monotonic`: `new` is `Some` and at least `prev`. -/
def monotonic (new prev : Option Nat) : Bool :=
  match new with
  | none => false
  | some newVal => match prev with
    | none => true
    | some prevVal => decide (newVal ≥ prevVal)

namespace ValidatorSummary

def checkBlockConsistency (self prev : ValidatorSummary) (importedBlocks : Bool) : Bool :=
  if importedBlocks then
    monotonic self.maxBlockSlot prev.maxBlockSlot && self.minBlockSlot == self.maxBlockSlot
  else
    prev.minBlockSlot == self.minBlockSlot && prev.maxBlockSlot == self.maxBlockSlot

def checkAttestationConsistency (self prev : ValidatorSummary) (importedAttestations : Bool) :
    Bool :=
  if importedAttestations then
    monotonic self.maxAttestationSource prev.maxAttestationSource
      && monotonic self.maxAttestationTarget prev.maxAttestationTarget
      && self.minAttestationSource == self.maxAttestationSource
      && self.minAttestationTarget == self.maxAttestationTarget
  else
    self.minAttestationSource == prev.minAttestationSource
      && self.maxAttestationSource == prev.maxAttestationSource
      && self.minAttestationTarget == prev.minAttestationTarget
      && self.maxAttestationTarget == prev.maxAttestationTarget

end ValidatorSummary

/-- An entry of `signed_blocks` in an interchange file; `signing_root` is optional. -/
structure InterchangeBlock where
  slot : Nat
  signingRoot : Option Nat
deriving DecidableEq, Repr

structure InterchangeAttestation where
  sourceEpoch : Nat
  targetEpoch : Nat
  signingRoot : Option Nat
deriving DecidableEq, Repr

structure InterchangeData (κ : Type) where
  pubkey : κ
  signedBlocks : List InterchangeBlock
  signedAttestations : List InterchangeAttestation
deriving DecidableEq, Repr

structure InterchangeMetadata where
  interchangeFormatVersion : Nat
  genesisValidatorsRoot : Nat
deriving DecidableEq, Repr

structure Interchange (κ : Type) where
  metadata : InterchangeMetadata
  data : List (InterchangeData κ)
deriving DecidableEq, Repr

def supportedInterchangeFormatVersion : Nat := 5

inductive InterchangeImportOutcome (κ : Type) where
  | success (pubkey : κ) (summary : ValidatorSummary)
  | failure (pubkey : κ) (error : NotSafe κ)
deriving DecidableEq, Repr

/-- `InterchangeError`, with the variants that the import produces. -/
inductive InterchangeError (κ : Type) where
  | unsupportedVersion (version : Nat)
  | genesisValidatorsMismatch (interchangeFile client : Nat)
  | atomicBatchAborted (outcomes : List (InterchangeImportOutcome κ))
deriving DecidableEq, Repr

section Import
variable [DecidableEq κ]

/-- `validator_summary`. -/
def validatorSummary (txn : SlashingDatabase κ) (pk : κ) :
    Except (NotSafe κ) ValidatorSummary := do
  getValidatorIdInTxn txn pk
  let slots := (txn.signedBlocks pk).map (·.slot)
  let sources := (txn.signedAttestations pk).map (·.sourceEpoch)
  let targets := (txn.signedAttestations pk).map (·.targetEpoch)
  return ⟨slots.min?, slots.max?, sources.min?, targets.min?, sources.max?, targets.max?⟩

/-- The block half of `import_interchange_record`: when the record has blocks, the blocks of
`pk` are replaced by one synthetic block at the new maximum slot, with the null root. The
state is returned on failure too, since the transaction keeps what was already done. -/
def importBlocks (pk : κ) (prev : ValidatorSummary) (blocks : List InterchangeBlock)
    (txn : SlashingDatabase κ) : SlashingDatabase κ × Except (NotSafe κ) Unit :=
  match (blocks.map (·.slot)).max? with
  | none => (txn, .ok ())
  | some maxSlot =>
    match clearSignedBlocks pk txn with
    | .error e => (txn, .error e)
    | .ok txn =>
      match insertBlockProposal txn pk (maxOr prev.maxBlockSlot maxSlot) default with
      | .error e => (txn, .error e)
      | .ok txn => (txn, .ok ())

/-- The attestation half of `import_interchange_record`: one synthetic attestation with the
maximum source and the maximum target, and the null root. -/
def importAttestations (pk : κ) (prev : ValidatorSummary) (atts : List InterchangeAttestation)
    (txn : SlashingDatabase κ) : SlashingDatabase κ × Except (NotSafe κ) Unit :=
  match (atts.map (·.sourceEpoch)).max?, (atts.map (·.targetEpoch)).max? with
  | some maxSource, some maxTarget =>
    match clearSignedAttestations pk txn with
    | .error e => (txn, .error e)
    | .ok txn =>
      match insertAttestation txn pk (maxOr prev.maxAttestationSource maxSource)
          (maxOr prev.maxAttestationTarget maxTarget) default with
      | .error e => (txn, .error e)
      | .ok txn => (txn, .ok ())
  | _, _ => (txn, .ok ())

/-- `import_interchange_record`. -/
def importInterchangeRecord (record : InterchangeData κ) (txn : SlashingDatabase κ) :
    SlashingDatabase κ × Except (NotSafe κ) ValidatorSummary :=
  let pk := record.pubkey
  let txn := registerValidatorsInTxn [pk] txn
  match validatorSummary txn pk with
  | .error e => (txn, .error e)
  | .ok prevSummary =>
    match importBlocks pk prevSummary record.signedBlocks txn with
    | (txn, .error e) => (txn, .error e)
    | (txn, .ok ()) =>
      match importAttestations pk prevSummary record.signedAttestations txn with
      | (txn, .error e) => (txn, .error e)
      | (txn, .ok ()) =>
        match validatorSummary txn pk with
        | .error e => (txn, .error e)
        | .ok summary =>
          -- The summary must be consistent with having added the new data.
          if summary.checkBlockConsistency prevSummary !record.signedBlocks.isEmpty &&
              summary.checkAttestationConsistency prevSummary !record.signedAttestations.isEmpty
          then (txn, .ok summary)
          else (txn, .error .consistencyError)

/-- The loop of `import_interchange_info` over the records, in one transaction: every record
is tried, and the batch commits only if none failed. -/
def importRecords : List (InterchangeData κ) → SlashingDatabase κ →
    SlashingDatabase κ × List (InterchangeImportOutcome κ) × Bool
  | [], txn => (txn, [], true)
  | record :: rest, txn =>
    match importInterchangeRecord record txn with
    | (txn, .ok summary) =>
      match importRecords rest txn with
      | (txn, outcomes, commit) => (txn, .success record.pubkey summary :: outcomes, commit)
    | (txn, .error e) =>
      match importRecords rest txn with
      | (txn, outcomes, _) => (txn, .failure record.pubkey e :: outcomes, false)

/-- `import_interchange_info`. -/
def importInterchangeInfo (db : SlashingDatabase κ) (interchange : Interchange κ)
    (genesisValidatorsRoot : Nat) :
    SlashingDatabase κ × Except (InterchangeError κ) (List (InterchangeImportOutcome κ)) :=
  let version := interchange.metadata.interchangeFormatVersion
  if version ≠ supportedInterchangeFormatVersion then (db, .error (.unsupportedVersion version))
  else if genesisValidatorsRoot ≠ interchange.metadata.genesisValidatorsRoot then
    (db, .error (.genesisValidatorsMismatch interchange.metadata.genesisValidatorsRoot
      genesisValidatorsRoot))
  else
    match importRecords interchange.data db with
    | (txn, outcomes, true) => (txn, .ok outcomes)
    | (_, outcomes, false) => (db, .error (.atomicBatchAborted outcomes))

end Import

end Lighthouse.SlashingProtection
