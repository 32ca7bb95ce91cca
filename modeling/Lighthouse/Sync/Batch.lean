import Lighthouse.Foundations.EState
import Lighthouse.Foundations.Checked
import Mathlib.Data.List.Pairwise

/-! The range-sync batch (beacon_node/network/src/sync/range_sync/batch.rs): a segment of the
chain that is downloaded from a peer, processed, and validated by the batch after it, with the
failed attempts it has had.

Every transition takes the state out with `poison()`, leaving `Poisoned` in its place, and
puts a state back on every path but the `unreachable!` one; a method called in a state it does
not expect restores that state and returns `WrongState` with its Debug text. A method is a
program in `EStateM` whose error is a panic's text; a block is anything with a slot, a peer
anything with a `Display`, and `batch_attempt_hash` a parameter of the configuration.
Slots are `u64` with the saturating arithmetic of `Slot`. -/
namespace Lighthouse.Sync
open EState Checked

variable {β π : Type}

/-- A peer's attempt at a batch: the peer, and the hash of the blocks it sent. -/
structure Attempt (π : Type) where
  peerId : π
  hash : Nat
deriving DecidableEq, Repr

inductive BatchState (β π : Type) where
  /-- The batch has failed either downloading or processing, but can be requested again. -/
  | awaitingDownload
  | downloading (peer : π) (blocks : List β) (requestId : Nat)
  /-- The batch has been completely downloaded and is ready for processing. -/
  | awaitingProcessing (peer : π) (blocks : List β)
  | processing (attempt : Attempt π)
  /-- Processed, and waiting for the next batch to import a block. -/
  | awaitingValidation (attempt : Attempt π)
  /-- Intermediate state for inner state handling. -/
  | poisoned
  /-- The batch has maxed out the allowed attempts: it cannot be recovered. -/
  | failed
deriving DecidableEq, Repr

namespace BatchState

/-- The Debug text of a state, as the wrong-state errors print it. -/
def debug [ToString π] : BatchState β π → String
  | .processing attempt => "Processing(" ++ toString attempt.peerId ++ ")"
  | .awaitingValidation attempt => "AwaitingValidation(" ++ toString attempt.peerId ++ ")"
  | .awaitingDownload => "AwaitingDownload"
  | .failed => "Failed"
  | .awaitingProcessing peer blocks =>
    "AwaitingProcessing(" ++ toString peer ++ ", " ++ toString blocks.length ++ " blocks)"
  | .downloading peer blocks requestId =>
    "Downloading(" ++ toString peer ++ ", " ++ toString blocks.length ++ " blocks, " ++
      toString requestId ++ ")"
  | .poisoned => "Poisoned"

/-! The states each method expects, with what it binds of them. -/

def asAwaitingDownload : BatchState β π → Option Unit
  | .awaitingDownload => some ()
  | _ => none

def asDownloading : BatchState β π → Option (π × List β × Nat)
  | .downloading peer blocks requestId => some (peer, blocks, requestId)
  | _ => none

def asAwaitingProcessing : BatchState β π → Option (π × List β)
  | .awaitingProcessing peer blocks => some (peer, blocks)
  | _ => none

def asProcessing : BatchState β π → Option (Attempt π)
  | .processing attempt => some attempt
  | _ => none

def asAwaitingValidation : BatchState β π → Option (Attempt π)
  | .awaitingValidation attempt => some attempt
  | _ => none

end BatchState

/-- The text of `unreachable!("Poisoned batch")`. -/
def poisonedBatch : String := "internal error: entered unreachable code: Poisoned batch"

/-- Error type of a batch in a wrong state. -/
structure WrongState where
  message : String
deriving DecidableEq, Repr

inductive BatchProcessingResult where
  | success
  | failed (countAttempt : Bool)
deriving DecidableEq, Repr

/-- The trait `BatchConfig`: its two `u8` limits and the hash of an attempt's blocks. -/
structure BatchConfig (β : Type) where
  maxBatchDownloadAttempts : Nat
  maxBatchProcessingAttempts : Nat
  batchAttemptHash : List β → Nat

/-- `RangeSyncBatchConfig`, with `DefaultHasher` left as a parameter. -/
def rangeSyncBatchConfig (batchAttemptHash : List β → Nat) : BatchConfig β :=
  ⟨5, 3, batchAttemptHash⟩

structure BatchInfo (β π : Type) where
  startSlot : Nat
  endSlot : Nat
  failedProcessingAttempts : List (Attempt π)
  /-- Processing attempts that have failed but are not counted; a `u8`. -/
  otherFailedProcessingAttempts : Nat
  failedDownloadAttempts : List π
  state : BatchState β π

structure BlocksByRangeRequest where
  startSlot : Nat
  count : Nat
deriving DecidableEq, Repr

namespace BatchInfo

/-- Batches are downloaded excluding the first block of the epoch, which is assumed to have
been downloaded already. `num_of_epochs * slots_per_epoch` is a plain `u64` product. -/
def new (slotsPerEpoch startEpoch numOfEpochs : Nat) : BatchInfo β π :=
  let startSlot := saturatingAddU64 (saturatingMulU64 startEpoch slotsPerEpoch) 1
  let endSlot := saturatingAddU64 startSlot (wrappingMulU64 numOfEpochs slotsPerEpoch)
  { startSlot, endSlot, failedProcessingAttempts := [], failedDownloadAttempts := [],
    otherFailedProcessingAttempts := 0, state := .awaitingDownload }

def toBlocksByRangeRequest (b : BatchInfo β π) : BlocksByRangeRequest :=
  ⟨b.startSlot, b.endSlot - b.startSlot⟩

/-- Whether an incoming block belongs to this batch. -/
def isExpectingBlock [DecidableEq π] (b : BatchInfo β π) (peerId : π) (requestId : Nat) : Bool :=
  match b.state with
  | .downloading expectedPeer _ expectedId => peerId = expectedPeer && expectedId = requestId
  | _ => false

/-- The peer currently responsible for progressing the state of the batch. -/
def currentPeer (b : BatchInfo β π) : Except String (Option π) :=
  match b.state with
  | .awaitingDownload | .failed => pure none
  | .downloading peer _ _ | .awaitingProcessing peer _ => pure (some peer)
  | .processing attempt | .awaitingValidation attempt => pure (some attempt.peerId)
  | .poisoned => throw poisonedBatch

/-- The range check of download_completed: only the first and the last block are read, against
start_slot and end_slot, giving (expected, received) of the first that fails. -/
def failedRange (slot : β → Nat) (startSlot endSlot : Nat) : List β → Option (Nat × Nat)
  | [] => none
  | first :: rest =>
    let lastSlot := slot ((first :: rest).getLast (List.cons_ne_nil first rest))
    if slot first < startSlot then some (startSlot, slot first)
    else if endSlot < lastSlot then some (endSlot, lastSlot)
    else none

/-- `self.state.poison()`. -/
def poison : EStateM String (BatchInfo β π) (BatchState β π) := do
  let b ← get
  set ({ b with state := .poisoned } : BatchInfo β π)
  pure b.state

def setState (s : BatchState β π) : EStateM String (BatchInfo β π) PUnit :=
  modify fun b => { b with state := s }

/-- `self.state.is_failed()`. -/
def isFailed : EStateM String (BatchInfo β π) Bool := do
  match (← get).state with
  | .failed => pure true
  | .poisoned => throw poisonedBatch
  | _ => pure false

def pushFailedDownload (peer : π) : EStateM String (BatchInfo β π) PUnit :=
  modify fun b => { b with failedDownloadAttempts := b.failedDownloadAttempts ++ [peer] }

def pushFailedProcessing (attempt : Attempt π) : EStateM String (BatchInfo β π) PUnit :=
  modify fun b => { b with failedProcessingAttempts := b.failedProcessingAttempts ++ [attempt] }

def countOtherFailedProcessing : EStateM String (BatchInfo β π) PUnit :=
  modify fun b => { b with
    otherFailedProcessingAttempts := saturatingAddU8 b.otherFailedProcessingAttempts 1 }

/-- After a failed download: Failed once the failed downloads reach the limit, else the blocks
are dropped and the batch waits to be downloaded again. -/
def checkDownloadAttempts (cfg : BatchConfig β) : EStateM String (BatchInfo β π) PUnit :=
  modify fun b => { b with state :=
    if cfg.maxBatchDownloadAttempts ≤ b.failedDownloadAttempts.length then .failed
    else .awaitingDownload }

/-- After a counted processing failure: Failed once the failed attempts reach the limit, else
the batch is downloaded again. -/
def checkProcessingAttempts (cfg : BatchConfig β) : EStateM String (BatchInfo β π) PUnit :=
  modify fun b => { b with state :=
    if cfg.maxBatchProcessingAttempts ≤ b.failedProcessingAttempts.length then .failed
    else .awaitingDownload }

variable [ToString π]

/-- The shape of every method: `match self.state.poison()` with the state it expects, then
`Poisoned => unreachable!`, then any other state put back and reported as `WrongState`. -/
def transition {γ α : Type} (expected : BatchState β π → Option γ)
    (body : γ → EStateM String (BatchInfo β π) α) (wrong : WrongState → α) (message : String) :
    EStateM String (BatchInfo β π) α := do
  let old ← poison
  match expected old with
  | some x => body x
  | none =>
    match old with
    | .poisoned => throw poisonedBatch
    | other =>
      setState other
      pure (wrong ⟨message ++ other.debug⟩)

def addBlock (block : β) : EStateM String (BatchInfo β π) (Except WrongState Unit) :=
  transition BatchState.asDownloading
    (fun (peer, blocks, requestId) => do
      setState (.downloading peer (blocks ++ [block]) requestId)
      pure (.ok ()))
    .error "Add block for batch in wrong state "

/-- Marks the batch as ready to be processed if the blocks are in the range; the number of
received blocks is returned, or the wrong batch end on failure. -/
def downloadCompleted (cfg : BatchConfig β) (slot : β → Nat) :
    EStateM String (BatchInfo β π) (Except (Except WrongState (Nat × Nat × Bool)) Nat) :=
  transition BatchState.asDownloading
    (fun (peer, blocks, _) => do
      let b ← get
      match failedRange slot b.startSlot b.endSlot blocks with
      | some (expected, received) =>
        pushFailedDownload peer
        checkDownloadAttempts cfg
        pure (.error (.ok (expected, received, ← isFailed)))
      | none =>
        setState (.awaitingProcessing peer blocks)
        pure (.ok blocks.length))
    (fun w => .error (.error w)) "Download completed for batch in wrong state "

/-- Mark the batch as failed and return whether it has failed for good; with `markFailed`
false the peer is not registered. -/
def downloadFailed (cfg : BatchConfig β) (markFailed : Bool) :
    EStateM String (BatchInfo β π) (Except WrongState Bool) :=
  transition BatchState.asDownloading
    (fun (peer, _, _) => do
      if markFailed then pushFailedDownload peer
      checkDownloadAttempts cfg
      pure (.ok (← isFailed)))
    .error "Download failed for batch in wrong state "

def startDownloadingFromPeer (peer : π) (requestId : Nat) :
    EStateM String (BatchInfo β π) (Except WrongState Unit) :=
  transition BatchState.asAwaitingDownload
    (fun () => do
      setState (.downloading peer [] requestId)
      pure (.ok ()))
    .error "Starting download for batch in wrong state "

def startProcessing (cfg : BatchConfig β) :
    EStateM String (BatchInfo β π) (Except WrongState (List β)) :=
  transition BatchState.asAwaitingProcessing
    (fun (peer, blocks) => do
      setState (.processing ⟨peer, cfg.batchAttemptHash blocks⟩)
      pure (.ok blocks))
    .error "Starting procesing batch in wrong state "

def processingCompleted (cfg : BatchConfig β) (procesingResult : BatchProcessingResult) :
    EStateM String (BatchInfo β π) (Except WrongState Bool) :=
  transition BatchState.asProcessing
    (fun attempt => do
      match procesingResult with
      | .success => setState (.awaitingValidation attempt)
      | .failed countAttempt =>
        if countAttempt then
          pushFailedProcessing attempt
          checkProcessingAttempts cfg
        else
          countOtherFailedProcessing
          setState .awaitingDownload
      pure (.ok (← isFailed)))
    .error "Procesing completed for batch in wrong state: "

def validationFailed (cfg : BatchConfig β) :
    EStateM String (BatchInfo β π) (Except WrongState Bool) :=
  transition BatchState.asAwaitingValidation
    (fun attempt => do
      pushFailedProcessing attempt
      checkProcessingAttempts cfg
      pure (.ok (← isFailed)))
    .error "Validation failed for batch in wrong state: "

end BatchInfo

/-- The methods of BatchInfo that change a batch. -/
inductive Call (β π : Type) where
  | addBlock (block : β)
  | downloadCompleted
  | downloadFailed (markFailed : Bool)
  | startDownloadingFromPeer (peer : π) (requestId : Nat)
  | startProcessing
  | processingCompleted (result : BatchProcessingResult)
  | validationFailed

/-- What a call returned, one constructor for each return type of those methods. -/
inductive Response (β : Type) where
  | unit (r : Except WrongState Unit)
  | downloadCompleted (r : Except (Except WrongState (Nat × Nat × Bool)) Nat)
  | isFailed (r : Except WrongState Bool)
  | blocks (r : Except WrongState (List β))

/-- The `WrongState` a call returned, if it returned one. -/
def Response.wrongState : Response β → Option WrongState
  | .unit (.error w) | .downloadCompleted (.error (.error w)) | .isFailed (.error w)
  | .blocks (.error w) => some w
  | _ => none

def Call.run [ToString π] (cfg : BatchConfig β) (slot : β → Nat) :
    Call β π → EStateM String (BatchInfo β π) (Response β)
  | .addBlock block => Response.unit <$> BatchInfo.addBlock block
  | .downloadCompleted => Response.downloadCompleted <$> BatchInfo.downloadCompleted cfg slot
  | .downloadFailed markFailed => Response.isFailed <$> BatchInfo.downloadFailed cfg markFailed
  | .startDownloadingFromPeer peer requestId =>
    Response.unit <$> BatchInfo.startDownloadingFromPeer peer requestId
  | .startProcessing => Response.blocks <$> BatchInfo.startProcessing cfg
  | .processingCompleted result => Response.isFailed <$> BatchInfo.processingCompleted cfg result
  | .validationFailed => Response.isFailed <$> BatchInfo.validationFailed cfg


/-! What each call does. The simp set runs the state primitives; `transition` is run once, on
the state it expects and on any other, and every method's spec follows from those two. -/

namespace BatchState

@[simp] theorem asAwaitingDownload_eq_some {s : BatchState β π} {u : Unit} :
    s.asAwaitingDownload = some u ↔ s = .awaitingDownload := by
  cases s <;> simp [asAwaitingDownload]

@[simp] theorem asDownloading_eq_some {s : BatchState β π} {peer : π} {blocks : List β}
    {requestId : Nat} :
    s.asDownloading = some (peer, blocks, requestId) ↔ s = .downloading peer blocks requestId := by
  cases s <;> simp [asDownloading]

@[simp] theorem asAwaitingProcessing_eq_some {s : BatchState β π} {peer : π} {blocks : List β} :
    s.asAwaitingProcessing = some (peer, blocks) ↔ s = .awaitingProcessing peer blocks := by
  cases s <;> simp [asAwaitingProcessing]

@[simp] theorem asProcessing_eq_some {s : BatchState β π} {attempt : Attempt π} :
    s.asProcessing = some attempt ↔ s = .processing attempt := by
  cases s <;> simp [asProcessing]

@[simp] theorem asAwaitingValidation_eq_some {s : BatchState β π} {attempt : Attempt π} :
    s.asAwaitingValidation = some attempt ↔ s = .awaitingValidation attempt := by
  cases s <;> simp [asAwaitingValidation]

end BatchState

namespace BatchInfo

section Run
variable {α : Type}

@[simp] theorem run_poison_bind (f : BatchState β π → EStateM String (BatchInfo β π) α)
    (s : BatchInfo β π) : (poison >>= f).run s = (f s.state).run { s with state := .poisoned } :=
  rfl

@[simp] theorem run_setState (t : BatchState β π) (s : BatchInfo β π) :
    (setState t).run s = .ok ⟨⟩ { s with state := t } := rfl

@[simp] theorem run_setState_bind (t : BatchState β π) (f : PUnit → EStateM String (BatchInfo β π) α)
    (s : BatchInfo β π) : (setState t >>= f).run s = (f ⟨⟩).run { s with state := t } := rfl

@[simp] theorem run_pushFailedDownload_bind (peer : π)
    (f : PUnit → EStateM String (BatchInfo β π) α) (s : BatchInfo β π) :
    (pushFailedDownload peer >>= f).run s =
      (f ⟨⟩).run { s with failedDownloadAttempts := s.failedDownloadAttempts ++ [peer] } := rfl

@[simp] theorem run_pushFailedProcessing_bind (attempt : Attempt π)
    (f : PUnit → EStateM String (BatchInfo β π) α) (s : BatchInfo β π) :
    (pushFailedProcessing attempt >>= f).run s =
      (f ⟨⟩).run { s with failedProcessingAttempts := s.failedProcessingAttempts ++ [attempt] } :=
  rfl

@[simp] theorem run_countOtherFailedProcessing_bind (f : PUnit → EStateM String (BatchInfo β π) α)
    (s : BatchInfo β π) : (countOtherFailedProcessing >>= f).run s =
      (f ⟨⟩).run { s with
        otherFailedProcessingAttempts := saturatingAddU8 s.otherFailedProcessingAttempts 1 } := rfl

@[simp] theorem run_checkDownloadAttempts_bind (cfg : BatchConfig β)
    (f : PUnit → EStateM String (BatchInfo β π) α) (s : BatchInfo β π) :
    (checkDownloadAttempts cfg >>= f).run s = (f ⟨⟩).run { s with state :=
      if cfg.maxBatchDownloadAttempts ≤ s.failedDownloadAttempts.length then .failed
      else .awaitingDownload } := rfl

@[simp] theorem run_checkProcessingAttempts_bind (cfg : BatchConfig β)
    (f : PUnit → EStateM String (BatchInfo β π) α) (s : BatchInfo β π) :
    (checkProcessingAttempts cfg >>= f).run s = (f ⟨⟩).run { s with state :=
      if cfg.maxBatchProcessingAttempts ≤ s.failedProcessingAttempts.length then .failed
      else .awaitingDownload } := rfl

/-- is_failed() right after a limit check reads the check back. -/
theorem run_isFailed_bind_ite (c : Prop) [Decidable c] (f : Bool → EStateM String (BatchInfo β π) α)
    (s : BatchInfo β π) :
    (isFailed >>= f).run { s with state := if c then .failed else .awaitingDownload } =
      (f (decide c)).run { s with state := if c then .failed else .awaitingDownload } := by
  by_cases hc : c <;> simp [hc, isFailed]

end Run

section Transition
variable [ToString π] {γ α : Type} {expected : BatchState β π → Option γ}
  {body : γ → EStateM String (BatchInfo β π) α} {wrong : WrongState → α} {message : String}
  {s : BatchInfo β π}

theorem run_transition_of_some {x : γ} (h : expected s.state = some x) :
    (transition expected body wrong message).run s = (body x).run { s with state := .poisoned } := by
  simp only [transition, run_poison_bind, h]

/-- In a state it does not expect, a method puts the state back and reports it. -/
theorem run_transition_of_none (h : expected s.state = none) (hp : s.state ≠ .poisoned) :
    (transition expected body wrong message).run s = .ok (wrong ⟨message ++ s.state.debug⟩) s := by
  obtain ⟨startSlot, endSlot, processing, other, downloads, state⟩ := s
  simp only [transition, run_poison_bind] at h ⊢
  rw [h]
  cases state with
  | poisoned => exact absurd rfl hp
  | _ => rfl

/-- A method run from a state that is not Poisoned returns; `P` holds of what it returns if it
holds of the expected case's result and of the wrong-state answer. -/
theorem transition_spec {P : α → BatchInfo β π → Prop} (hp : s.state ≠ .poisoned)
    (hsome : ∀ x, expected s.state = some x →
      ∃ r t, (body x).run { s with state := .poisoned } = .ok r t ∧ P r t)
    (hnone : expected s.state = none → P (wrong ⟨message ++ s.state.debug⟩) s) :
    ∃ r t, (transition expected body wrong message).run s = .ok r t ∧ P r t := by
  cases hx : expected s.state with
  | some x =>
    rw [run_transition_of_some hx]
    exact hsome x hx
  | none => exact ⟨_, s, run_transition_of_none hx hp, hnone hx⟩

end Transition

section Invariant

/-- What holds of every batch a run reaches: the slots of `new` in order, a state other than
Poisoned, Failed exactly when a limit is reached, and blocks awaiting processing that passed the
range check. -/
structure Inv (cfg : BatchConfig β) (slot : β → Nat) (b : BatchInfo β π) : Prop where
  slots_le : b.startSlot ≤ b.endSlot
  not_poisoned : b.state ≠ .poisoned
  failed_iff : b.state = .failed ↔
    cfg.maxBatchDownloadAttempts ≤ b.failedDownloadAttempts.length ∨
      cfg.maxBatchProcessingAttempts ≤ b.failedProcessingAttempts.length
  in_range : ∀ peer blocks, b.state = .awaitingProcessing peer blocks →
    failedRange slot b.startSlot b.endSlot blocks = none

variable {cfg : BatchConfig β} {slot : β → Nat} {b : BatchInfo β π}

theorem Inv.new (hd : 0 < cfg.maxBatchDownloadAttempts) (hp : 0 < cfg.maxBatchProcessingAttempts)
    (slotsPerEpoch startEpoch numOfEpochs : Nat) :
    Inv cfg slot (new slotsPerEpoch startEpoch numOfEpochs : BatchInfo β π) where
  slots_le := le_saturatingAddU64 _ (saturatingAddU64_le _ _)
  not_poisoned := by simp [BatchInfo.new]
  failed_iff := by
    simp only [BatchInfo.new, reduceCtorEq, List.length_nil, false_iff, not_or, Nat.not_le]
    exact ⟨hd, hp⟩
  in_range := by simp [BatchInfo.new]

theorem Inv.lt_limits (hI : Inv cfg slot b) (h : b.state ≠ .failed) :
    b.failedDownloadAttempts.length < cfg.maxBatchDownloadAttempts ∧
      b.failedProcessingAttempts.length < cfg.maxBatchProcessingAttempts := by
  have := mt hI.failed_iff.mpr h
  omega

/-- A new state other than Poisoned and Failed, with the counters as they were. -/
theorem Inv.setState (hI : Inv cfg slot b) (hb : b.state ≠ .failed) {t : BatchState β π}
    (hp : t ≠ .poisoned) (hf : t ≠ .failed)
    (hr : ∀ peer blocks, t = .awaitingProcessing peer blocks →
      failedRange slot b.startSlot b.endSlot blocks = none) :
    Inv cfg slot { b with state := t } where
  slots_le := hI.slots_le
  not_poisoned := hp
  failed_iff := by
    have := hI.lt_limits hb
    simp only [hf, false_iff]
    omega
  in_range := hr

theorem Inv.otherFailed (hI : Inv cfg slot b) (n : Nat) :
    Inv cfg slot { b with otherFailedProcessingAttempts := n } :=
  ⟨hI.slots_le, hI.not_poisoned, hI.failed_iff, hI.in_range⟩

/-- A download failure from a batch that had not failed, with `l` the failed downloads after it:
the check makes the state Failed exactly at the download limit. -/
theorem Inv.downloadFailure (hI : Inv cfg slot b) (hb : b.state ≠ .failed) (l : List π) :
    Inv cfg slot { b with failedDownloadAttempts := l, state :=
      if cfg.maxBatchDownloadAttempts ≤ l.length then .failed else .awaitingDownload } where
  slots_le := hI.slots_le
  not_poisoned := by split <;> simp
  failed_iff := by
    have := (hI.lt_limits hb).2
    split <;> simp <;> omega
  in_range := by split <;> simp

theorem Inv.processingFailure (hI : Inv cfg slot b) (hb : b.state ≠ .failed)
    (l : List (Attempt π)) :
    Inv cfg slot { b with failedProcessingAttempts := l, state :=
      if cfg.maxBatchProcessingAttempts ≤ l.length then .failed else .awaitingDownload } where
  slots_le := hI.slots_le
  not_poisoned := by split <;> simp
  failed_iff := by
    have := (hI.lt_limits hb).1
    split <;> simp <;> omega
  in_range := by split <;> simp

/-- current_peer's `unreachable!` is never hit either. -/
theorem Inv.currentPeer (hI : Inv cfg slot b) : ∃ peer, b.currentPeer = .ok peer := by
  have hp := hI.not_poisoned
  unfold BatchInfo.currentPeer
  cases hs : b.state with
  | poisoned => exact absurd hs hp
  | _ => exact ⟨_, rfl⟩

/-- A call's answer `r` from `s`, leaving `t`: the invariant holds of `t`, and a `WrongState`
answer left the batch as it was. -/
def Keeps (cfg : BatchConfig β) (slot : β → Nat) (s : BatchInfo β π) (r : Response β)
    (t : BatchInfo β π) : Prop :=
  Inv cfg slot t ∧ (r.wrongState.isSome → t = s)

theorem Keeps.wrong {s : BatchInfo β π} (hI : Inv cfg slot s) (r : Response β) :
    Keeps cfg slot s r s :=
  ⟨hI, fun _ => rfl⟩

end Invariant

section Spec
variable [ToString π] {cfg : BatchConfig β} {slot : β → Nat} {s : BatchInfo β π}

theorem addBlock_spec (hI : Inv cfg slot s) (block : β) :
    ∃ r t, (addBlock block).run s = .ok r t ∧ Keeps cfg slot s (.unit r) t := by
  apply transition_spec hI.not_poisoned
  · rintro ⟨peer, blocks, requestId⟩ hx
    rw [BatchState.asDownloading_eq_some] at hx
    refine ⟨.ok (), { s with state := .downloading peer (blocks ++ [block]) requestId }, rfl, ?_,
      by simp [Response.wrongState]⟩
    exact hI.setState (by simp [hx]) (by simp) (by simp) (by simp)
  · exact fun _ => Keeps.wrong hI _

theorem downloadCompleted_spec (hI : Inv cfg slot s) :
    ∃ r t, (downloadCompleted cfg slot).run s = .ok r t ∧
      Keeps cfg slot s (.downloadCompleted r) t := by
  apply transition_spec hI.not_poisoned
  · rintro ⟨peer, blocks, requestId⟩ hx
    rw [BatchState.asDownloading_eq_some] at hx
    have hb : s.state ≠ .failed := by simp [hx]
    cases hr : failedRange slot s.startSlot s.endSlot blocks with
    | none =>
      -- the range check passed: the blocks wait to be processed
      refine ⟨.ok blocks.length, { s with state := .awaitingProcessing peer blocks },
        by simp [hr], ?_, by simp [Response.wrongState]⟩
      refine hI.setState hb (by simp) (by simp) ?_
      rintro peer' blocks' h
      simp only [BatchState.awaitingProcessing.injEq] at h
      rw [← h.2]
      exact hr
    | some range =>
      -- a failed download: the peer is registered and the limit checked
      obtain ⟨expected, received⟩ := range
      refine ⟨.error (.ok (expected, received, decide
          (cfg.maxBatchDownloadAttempts ≤ (s.failedDownloadAttempts ++ [peer]).length))),
        { s with failedDownloadAttempts := s.failedDownloadAttempts ++ [peer], state :=
          if cfg.maxBatchDownloadAttempts ≤ (s.failedDownloadAttempts ++ [peer]).length then .failed
          else .awaitingDownload },
        ?_, hI.downloadFailure hb _, by simp [Response.wrongState]⟩
      simp only [run_get_bind, hr, run_pushFailedDownload_bind, run_checkDownloadAttempts_bind]
      by_cases hc : cfg.maxBatchDownloadAttempts ≤ s.failedDownloadAttempts.length + 1 <;>
        simp [hc, isFailed]
  · exact fun _ => Keeps.wrong hI _

theorem downloadFailed_spec (hI : Inv cfg slot s) (markFailed : Bool) :
    ∃ r t, (downloadFailed cfg markFailed).run s = .ok r t ∧ Keeps cfg slot s (.isFailed r) t := by
  apply transition_spec hI.not_poisoned
  · rintro ⟨peer, blocks, requestId⟩ hx
    rw [BatchState.asDownloading_eq_some] at hx
    have hb : s.state ≠ .failed := by simp [hx]
    -- the failed downloads after the call: the peer is registered only when marked
    let l := if markFailed then s.failedDownloadAttempts ++ [peer] else s.failedDownloadAttempts
    refine ⟨.ok (decide (cfg.maxBatchDownloadAttempts ≤ l.length)),
      { s with failedDownloadAttempts := l, state :=
        if cfg.maxBatchDownloadAttempts ≤ l.length then .failed else .awaitingDownload },
      ?_, hI.downloadFailure hb l, by simp [Response.wrongState]⟩
    cases markFailed with
    | true =>
      simp only [l, if_true, run_pushFailedDownload_bind, run_checkDownloadAttempts_bind]
      by_cases hc : cfg.maxBatchDownloadAttempts ≤ s.failedDownloadAttempts.length + 1 <;>
        simp [hc, isFailed]
    | false =>
      simp only [l, Bool.false_eq_true, if_false, run_checkDownloadAttempts_bind]
      by_cases hc : cfg.maxBatchDownloadAttempts ≤ s.failedDownloadAttempts.length <;>
        simp [hc, isFailed]
  · exact fun _ => Keeps.wrong hI _

theorem startDownloadingFromPeer_spec (hI : Inv cfg slot s) (peer : π) (requestId : Nat) :
    ∃ r t, (startDownloadingFromPeer peer requestId).run s = .ok r t ∧
      Keeps cfg slot s (.unit r) t := by
  apply transition_spec hI.not_poisoned
  · rintro ⟨⟩ hx
    rw [BatchState.asAwaitingDownload_eq_some] at hx
    refine ⟨.ok (), { s with state := .downloading peer [] requestId }, rfl, ?_,
      by simp [Response.wrongState]⟩
    exact hI.setState (by simp [hx]) (by simp) (by simp) (by simp)
  · exact fun _ => Keeps.wrong hI _

theorem startProcessing_spec (hI : Inv cfg slot s) :
    ∃ r t, (startProcessing cfg).run s = .ok r t ∧ Keeps cfg slot s (.blocks r) t := by
  apply transition_spec hI.not_poisoned
  · rintro ⟨peer, blocks⟩ hx
    rw [BatchState.asAwaitingProcessing_eq_some] at hx
    refine ⟨.ok blocks, { s with state := .processing ⟨peer, cfg.batchAttemptHash blocks⟩ }, rfl,
      ?_, by simp [Response.wrongState]⟩
    exact hI.setState (by simp [hx]) (by simp) (by simp) (by simp)
  · exact fun _ => Keeps.wrong hI _

/-- The blocks start_processing returns are those the batch held awaiting processing. -/
theorem startProcessing_eq_ok (hp : s.state ≠ .poisoned) {blocks : List β} {t : BatchInfo β π}
    (h : (startProcessing cfg).run s = .ok (.ok blocks) t) :
    ∃ peer, s.state = .awaitingProcessing peer blocks := by
  cases hx : s.state.asAwaitingProcessing with
  | none =>
    rw [startProcessing, run_transition_of_none hx hp] at h
    cases h
  | some x =>
    obtain ⟨peer, blocks'⟩ := x
    rw [startProcessing, run_transition_of_some hx] at h
    rw [BatchState.asAwaitingProcessing_eq_some] at hx
    cases h
    exact ⟨peer, hx⟩

theorem processingCompleted_spec (hI : Inv cfg slot s) (result : BatchProcessingResult) :
    ∃ r t, (processingCompleted cfg result).run s = .ok r t ∧ Keeps cfg slot s (.isFailed r) t := by
  apply transition_spec hI.not_poisoned
  · intro attempt hx
    rw [BatchState.asProcessing_eq_some] at hx
    have hb : s.state ≠ .failed := by simp [hx]
    cases result with
    | success =>
      refine ⟨.ok false, { s with state := .awaitingValidation attempt }, rfl, ?_,
        by simp [Response.wrongState]⟩
      exact hI.setState hb (by simp) (by simp) (by simp)
    | failed countAttempt =>
      cases countAttempt with
      | true =>
        -- a counted failure: the attempt is registered and the limit checked
        let l := s.failedProcessingAttempts ++ [attempt]
        refine ⟨.ok (decide (cfg.maxBatchProcessingAttempts ≤ l.length)),
          { s with failedProcessingAttempts := l, state :=
            if cfg.maxBatchProcessingAttempts ≤ l.length then .failed else .awaitingDownload },
          ?_, hI.processingFailure hb l, by simp [Response.wrongState]⟩
        simp only [l, if_true, run_pushFailedProcessing_bind, run_checkProcessingAttempts_bind]
        by_cases hc : cfg.maxBatchProcessingAttempts ≤ s.failedProcessingAttempts.length + 1 <;>
          simp [hc, isFailed]
      | false =>
        -- an uncounted failure only bumps the other counter
        refine ⟨.ok false, { s with
            otherFailedProcessingAttempts := saturatingAddU8 s.otherFailedProcessingAttempts 1,
            state := .awaitingDownload }, rfl, ?_, by simp [Response.wrongState]⟩
        exact (hI.otherFailed (saturatingAddU8 s.otherFailedProcessingAttempts 1)).setState hb
          (t := .awaitingDownload) (by simp) (by simp) (by simp)
  · exact fun _ => Keeps.wrong hI _

theorem validationFailed_spec (hI : Inv cfg slot s) :
    ∃ r t, (validationFailed cfg).run s = .ok r t ∧ Keeps cfg slot s (.isFailed r) t := by
  apply transition_spec hI.not_poisoned
  · intro attempt hx
    rw [BatchState.asAwaitingValidation_eq_some] at hx
    have hb : s.state ≠ .failed := by simp [hx]
    let l := s.failedProcessingAttempts ++ [attempt]
    refine ⟨.ok (decide (cfg.maxBatchProcessingAttempts ≤ l.length)),
      { s with failedProcessingAttempts := l, state :=
        if cfg.maxBatchProcessingAttempts ≤ l.length then .failed else .awaitingDownload },
      ?_, hI.processingFailure hb l, by simp [Response.wrongState]⟩
    simp only [l, run_pushFailedProcessing_bind, run_checkProcessingAttempts_bind]
    by_cases hc : cfg.maxBatchProcessingAttempts ≤ s.failedProcessingAttempts.length + 1 <;>
      simp [hc, isFailed]
  · exact fun _ => Keeps.wrong hI _

end Spec

section Range
variable {slot : β → Nat}

/-- Where accepted blocks lie between slots `first` and `last`: the first block at or after
`first`, the last at or before `last`, and all of them in between when they come in slot
order. -/
def InRange (slot : β → Nat) (first last : Nat) (blocks : List β) : Prop :=
  (∀ x ∈ blocks.head?, first ≤ slot x) ∧ (∀ x ∈ blocks.getLast?, slot x ≤ last) ∧
    ((blocks.map slot).Pairwise (· ≤ ·) → ∀ x ∈ blocks, first ≤ slot x ∧ slot x ≤ last)

/-- Blocks that pass download_completed's check lie between start_slot and end_slot, both
included: the check reads only the ends, so the middle is bounded only when sorted. -/
theorem inRange_of_failedRange {startSlot endSlot : Nat} {blocks : List β}
    (h : failedRange slot startSlot endSlot blocks = none) :
    InRange slot startSlot endSlot blocks := by
  cases blocks with
  | nil => simp [InRange]
  | cons first rest =>
    have hbounds : startSlot ≤ slot first ∧
        slot ((first :: rest).getLast (List.cons_ne_nil first rest)) ≤ endSlot := by
      by_cases h₁ : slot first < startSlot
      · simp [failedRange, h₁] at h
      by_cases h₂ : endSlot < slot ((first :: rest).getLast (List.cons_ne_nil first rest))
      · simp [failedRange, h₁, h₂] at h
      omega
    refine ⟨by simpa using hbounds.1, by simpa [List.getLast?_eq_some_getLast] using hbounds.2, ?_⟩
    intro hs x hx
    have hs' : (first :: rest).Pairwise (fun a b => slot a ≤ slot b) := List.pairwise_map.mp hs
    exact ⟨le_trans hbounds.1 (hs'.rel_head_of_rel_head_head hx (le_refl _)),
      le_trans (hs'.rel_getLast_of_rel_getLast_getLast hx (le_refl _)) hbounds.2⟩

end Range

end BatchInfo

section Runs
open BatchInfo
variable [ToString π] {cfg : BatchConfig β} {slot : β → Nat} {s b : BatchInfo β π}

/-- Every call from a batch satisfying the invariant returns, keeps the invariant, and leaves
the batch as it was when it answers WrongState. -/
theorem Call.run_spec (hI : Inv cfg slot s) (c : Call β π) :
    ∃ r t, (c.run cfg slot).run s = .ok r t ∧ Keeps cfg slot s r t := by
  cases c with
  | addBlock block => exact exists_run_map (addBlock_spec hI block)
  | downloadCompleted => exact exists_run_map (downloadCompleted_spec hI)
  | downloadFailed markFailed => exact exists_run_map (downloadFailed_spec hI markFailed)
  | startDownloadingFromPeer peer requestId =>
    exact exists_run_map (startDownloadingFromPeer_spec hI peer requestId)
  | startProcessing => exact exists_run_map (startProcessing_spec hI)
  | processingCompleted result => exact exists_run_map (processingCompleted_spec hI result)
  | validationFailed => exact exists_run_map (validationFailed_spec hI)

/-- No method expects Failed: every call answers WrongState and leaves the batch as it was. -/
theorem Call.run_of_failed (h : s.state = .failed) (c : Call β π) :
    ∃ r, (c.run cfg slot).run s = .ok r s ∧ r.wrongState.isSome := by
  have hp : s.state ≠ .poisoned := by simp [h]
  cases c with
  | addBlock block => exact ⟨_, run_map_of_ok _ (run_transition_of_none (by rw [h]; rfl) hp), rfl⟩
  | downloadCompleted =>
    exact ⟨_, run_map_of_ok _ (run_transition_of_none (by rw [h]; rfl) hp), rfl⟩
  | downloadFailed markFailed =>
    exact ⟨_, run_map_of_ok _ (run_transition_of_none (by rw [h]; rfl) hp), rfl⟩
  | startDownloadingFromPeer peer requestId =>
    exact ⟨_, run_map_of_ok _ (run_transition_of_none (by rw [h]; rfl) hp), rfl⟩
  | startProcessing => exact ⟨_, run_map_of_ok _ (run_transition_of_none (by rw [h]; rfl) hp), rfl⟩
  | processingCompleted result =>
    exact ⟨_, run_map_of_ok _ (run_transition_of_none (by rw [h]; rfl) hp), rfl⟩
  | validationFailed => exact ⟨_, run_map_of_ok _ (run_transition_of_none (by rw [h]; rfl) hp), rfl⟩

theorem Inv.reachable {slotsPerEpoch startEpoch numOfEpochs : Nat}
    (hd : 0 < cfg.maxBatchDownloadAttempts) (hp : 0 < cfg.maxBatchProcessingAttempts)
    (h : Reachable (· = BatchInfo.new slotsPerEpoch startEpoch numOfEpochs) (Call.run cfg slot) b) :
    Inv cfg slot b := by
  apply Reachable.invariant _ _ h
  · rintro s rfl
    exact Inv.new hd hp _ _ _
  · intro c s hs
    obtain ⟨r, t, hrun, hk⟩ := Call.run_spec hs c
    rw [hrun]
    exact hk.1

end Runs

end Lighthouse.Sync
