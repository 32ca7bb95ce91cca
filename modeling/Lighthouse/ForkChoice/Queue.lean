import Lighthouse.Foundations.EState
import Lighthouse.Foundations.ReleaseQueue
import Lighthouse.ProtoArray.Types
import Lighthouse.Registry.Operations

/-! The attestation queue of `ForkChoice` (`fork_choice.rs`): `on_attestation` validates an
attestation and passes its votes to the proto-array at once when its slot is past, and queues
it otherwise; `update_time` moves the store's clock one slot at a time with `on_tick`, then
`process_attestation_queue` passes the votes of the queued attestations that
`dequeue_attestations` releases.

`ForkChoice` is generic over its store (`T: ForkChoiceStore`), and is here generic over its
proto-array as well: it asks the proto-array only whether a block is known, for a block's slot
and target root, and to `process_attestation`, which never fails. `get_head` and `on_block`
reach the queue only through the `update_time` they start with; the rest of their work is a
program on the fork choice that keeps the queue and the store's slot. -/
namespace Lighthouse.ForkChoiceQueue
open EState
open ForkChoice (Checkpoint)
open Registry (IndexedAttestation)

/-- The methods of a `ForkChoiceStore` that `on_tick` uses, on store states `σ` with errors `ε`
(`T::Error`), with the laws of the current slot: it is what `set_current_slot` sets, and no
other method moves it. -/
structure ForkChoiceStore (σ ε : Type) where
  getCurrentSlot : σ → ℕ
  setCurrentSlot : ℕ → σ → σ
  setProposerBoostRoot : ℕ → σ → σ
  justifiedCheckpoint : σ → Checkpoint
  bestJustifiedCheckpoint : σ → Checkpoint
  setJustifiedCheckpoint : Checkpoint → EStateM ε σ Unit
  getCurrentSlot_setCurrentSlot : ∀ slot s, getCurrentSlot (setCurrentSlot slot s) = slot
  getCurrentSlot_setProposerBoostRoot :
    ∀ root s, getCurrentSlot (setProposerBoostRoot root s) = getCurrentSlot s
  getCurrentSlot_setJustifiedCheckpoint :
    ∀ c s, getCurrentSlot (final ((setJustifiedCheckpoint c).run s)) = getCurrentSlot s

/-- The fields of a proto-array `Block` that `validate_on_attestation` reads. -/
structure ProtoBlock where
  slot : ℕ
  targetRoot : ℕ
deriving DecidableEq, Repr

/-- What `ForkChoice` asks of its proto-array here: `contains_block`, `get_block`, and
`process_attestation`, whose `Result` is always `Ok`. -/
structure ProtoArrayOps (π : Type) where
  containsBlock : π → ℕ → Bool
  getBlock : π → ℕ → Option ProtoBlock
  processAttestation : ℕ → ℕ → ℕ → π → π

/-- `QueuedAttestation`. -/
structure QueuedAttestation where
  slot : ℕ
  attestingIndices : List ℕ
  blockRoot : ℕ
  targetEpoch : ℕ
deriving DecidableEq, Repr

/-- `QueuedAttestation::from`. -/
def QueuedAttestation.ofIndexed (a : IndexedAttestation) : QueuedAttestation :=
  ⟨a.data.slot, a.attestingIndices, a.data.beaconBlockRoot, a.data.target.epoch⟩

/-- `ForkChoice`, with the fields the queue's functions use. -/
structure ForkChoice (σ π : Type) where
  fcStore : σ
  protoArray : π
  queuedAttestations : List QueuedAttestation

/-- `InvalidAttestation`. -/
inductive InvalidAttestation where
  | emptyAggregationBitfield
  | unknownHeadBlock (beaconBlockRoot : ℕ)
  | badTargetEpoch (target slot : ℕ)
  | unknownTargetRoot (root : ℕ)
  | futureEpoch (attestationEpoch currentEpoch : ℕ)
  | pastEpoch (attestationEpoch currentEpoch : ℕ)
  | invalidTarget (attestation localRoot : ℕ)
  | attestsToFutureBlock (block attestation : ℕ)
deriving DecidableEq, Repr

/-- The variants of `fork_choice::Error` these functions return. -/
inductive Error (ε : Type) where
  | invalidAttestation (e : InvalidAttestation)
  | inconsistentOnTick (previousSlot time : ℕ)
  | forkChoiceStoreError (e : ε)

/-- A method of `ForkChoice`. -/
abbrev ForkChoiceM (σ π ε : Type) := EStateM (Error ε) (ForkChoice σ π)

/-- `dequeue_attestations`: the queue split before the first attestation whose slot is not
before `current_slot`; the first part is returned and the rest stays. -/
def dequeueAttestations (currentSlot : ℕ) (queuedAttestations : List QueuedAttestation) :
    List QueuedAttestation × List QueuedAttestation :=
  queuedAttestations.splitAt (queuedAttestations.findIdx fun a => a.slot ≥ currentSlot)

section Methods
variable {σ π ε : Type} (store : ForkChoiceStore σ ε) (ops : ProtoArrayOps π)
  (slotsPerEpoch : ℕ)

/-- A method of the store, its error wrapped as `ForkChoiceStoreError`. -/
def onStore (m : EStateM ε σ Unit) : ForkChoiceM σ π ε Unit :=
  focus (·.fcStore) (fun fc s => { fc with fcStore := s }) .forkChoiceStoreError m

/-- `on_tick`: the store moves to `time`, at most one slot ahead; a new slot clears the
proposer boost, and the first slot of an epoch takes the best justified checkpoint when it is
later than the justified one. -/
def onTick (time : ℕ) : ForkChoiceM σ π ε Unit := do
  let fc ← get
  let previousSlot := store.getCurrentSlot fc.fcStore
  if time > previousSlot + 1 then throw (.inconsistentOnTick previousSlot time)
  else
    let fcStore := store.setCurrentSlot time fc.fcStore
    let currentSlot := store.getCurrentSlot fcStore
    let fcStore :=
      if currentSlot > previousSlot then store.setProposerBoostRoot 0 fcStore else fcStore
    set { fc with fcStore }
    -- `compute_slots_since_epoch_start`
    if currentSlot > previousSlot ∧
        currentSlot - currentSlot / slotsPerEpoch * slotsPerEpoch = 0 then
      if (store.bestJustifiedCheckpoint fcStore).epoch > (store.justifiedCheckpoint fcStore).epoch
      then onStore (store.setJustifiedCheckpoint (store.bestJustifiedCheckpoint fcStore))
      else pure ()
    else pure ()

/-- The loop of `update_time`: `on_tick` at the next slot while the store is behind
`current_slot`, for at most `fuel` turns. -/
def tickLoop (currentSlot : ℕ) : ℕ → ForkChoiceM σ π ε Unit
  | 0 => pure ()
  | fuel + 1 => do
    let previousSlot := store.getCurrentSlot (← get).fcStore
    if previousSlot < currentSlot then do
      onTick store slotsPerEpoch (previousSlot + 1)
      tickLoop currentSlot fuel
    else pure ()

/-- The votes of an attestation: `process_attestation` for each attesting index. -/
def applyVotes (a : QueuedAttestation) (protoArray : π) : π :=
  a.attestingIndices.foldl (fun p i => ops.processAttestation i a.blockRoot a.targetEpoch p)
    protoArray

/-- `process_attestation_queue`. -/
def processAttestationQueue : ForkChoiceM σ π ε Unit :=
  modify fun fc =>
    let dequeued := dequeueAttestations (store.getCurrentSlot fc.fcStore) fc.queuedAttestations
    { fc with
      queuedAttestations := dequeued.2
      protoArray := dequeued.1.foldl (fun p a => applyVotes ops a p) fc.protoArray }

/-- `update_time`. Each turn of the loop moves the store one slot on (`on_tick` sets it), so
`current_slot` less the store's slot turns are all it takes. -/
def updateTime (currentSlot : ℕ) : ForkChoiceM σ π ε ℕ := do
  let fuel := currentSlot - store.getCurrentSlot (← get).fcStore
  tickLoop store slotsPerEpoch currentSlot fuel
  processAttestationQueue store ops
  pure (store.getCurrentSlot (← get).fcStore)

/-- `validate_target_epoch_against_current_time`: the current or the previous epoch. -/
def validateTargetEpochAgainstCurrentTime (fc : ForkChoice σ π) (targetEpoch : ℕ) :
    Except InvalidAttestation Unit :=
  let epochNow := store.getCurrentSlot fc.fcStore / slotsPerEpoch
  if targetEpoch > epochNow then .error (.futureEpoch targetEpoch epochNow)
  else if targetEpoch + 1 < epochNow then .error (.pastEpoch targetEpoch epochNow)
  else .ok ()

/-- `validate_on_attestation`; `isFromBlock` is `AttestationFromBlock::True`. -/
def validateOnAttestation (fc : ForkChoice σ π) (a : IndexedAttestation) (isFromBlock : Bool) :
    Except InvalidAttestation Unit := do
  if a.attestingIndices.isEmpty then throw .emptyAggregationBitfield
  let target := a.data.target
  if !isFromBlock then validateTargetEpochAgainstCurrentTime store slotsPerEpoch fc target.epoch
  if target.epoch ≠ a.data.slot / slotsPerEpoch then
    throw (.badTargetEpoch target.epoch a.data.slot)
  if !ops.containsBlock fc.protoArray target.root then throw (.unknownTargetRoot target.root)
  let block ← okOr (ops.getBlock fc.protoArray a.data.beaconBlockRoot)
    (.unknownHeadBlock a.data.beaconBlockRoot)
  let expectedTarget :=
    if target.epoch > block.slot / slotsPerEpoch then a.data.beaconBlockRoot else block.targetRoot
  if expectedTarget ≠ target.root then throw (.invalidTarget target.root expectedTarget)
  if block.slot > a.data.slot then throw (.attestsToFutureBlock block.slot a.data.slot)

/-- What `on_attestation` does after `update_time`: an attestation to the zero root is
ignored; a valid one has its votes passed at once when its slot is past, and is queued
otherwise. -/
def acceptAttestation (a : IndexedAttestation) (isFromBlock : Bool) :
    ForkChoiceM σ π ε Unit := do
  if a.data.beaconBlockRoot = 0 then pure ()
  else
    let fc ← get
    ofResult ((validateOnAttestation store ops slotsPerEpoch fc a isFromBlock).mapError
      .invalidAttestation)
    if a.data.slot < store.getCurrentSlot fc.fcStore then
      set { fc with protoArray := applyVotes ops (QueuedAttestation.ofIndexed a) fc.protoArray }
    else set { fc with queuedAttestations := fc.queuedAttestations ++ [QueuedAttestation.ofIndexed a] }

/-- `on_attestation`. -/
def onAttestation (currentSlot : ℕ) (a : IndexedAttestation) (isFromBlock : Bool) :
    ForkChoiceM σ π ε Unit := do
  let _ ← updateTime store ops slotsPerEpoch currentSlot
  acceptAttestation store ops slotsPerEpoch a isFromBlock

end Methods

/-- A call on the fork choice: `on_attestation`, `update_time`, or `get_head` and `on_block`,
which start with `update_time` and go on with `rest`. -/
inductive Call (σ π ε : Type) where
  | onAttestation (currentSlot : ℕ) (attestation : IndexedAttestation) (isFromBlock : Bool)
  | updateTime (currentSlot : ℕ)
  | other (currentSlot : ℕ) (rest : ForkChoiceM σ π ε Unit)

section Calls
variable {σ π ε : Type} (store : ForkChoiceStore σ ε) (ops : ProtoArrayOps π)
  (slotsPerEpoch : ℕ)

/-- A call, run. -/
def Call.run : Call σ π ε → ForkChoiceM σ π ε Unit
  | .onAttestation currentSlot a isFromBlock =>
    ForkChoiceQueue.onAttestation store ops slotsPerEpoch currentSlot a isFromBlock
  | .updateTime currentSlot => do
    let _ ← ForkChoiceQueue.updateTime store ops slotsPerEpoch currentSlot
    pure ()
  | .other currentSlot rest => do
    let _ ← ForkChoiceQueue.updateTime store ops slotsPerEpoch currentSlot
    rest

end Calls

theorem dequeueAttestations_eq (currentSlot : ℕ) (queuedAttestations : List QueuedAttestation) :
    dequeueAttestations currentSlot queuedAttestations =
      (queuedAttestations.takeWhile (·.slot < currentSlot),
        queuedAttestations.dropWhile (·.slot < currentSlot)) := by
  have hp : (fun a : QueuedAttestation => decide (a.slot ≥ currentSlot)) =
      fun a => !decide (a.slot < currentSlot) := by
    funext a
    simp only [ge_iff_le, ← Nat.not_lt, decide_not]
  rw [dequeueAttestations, List.splitAt_eq, hp, List.takeWhile_eq_take_findIdx_not,
    List.dropWhile_eq_drop_findIdx_not]

section Spec
variable {σ π ε : Type} (store : ForkChoiceStore σ ε) (ops : ProtoArrayOps π)
  (slotsPerEpoch : ℕ)

/-- The store's current slot. -/
def slotOf (fc : ForkChoice σ π) : ℕ := store.getCurrentSlot fc.fcStore

/-- Two fork choices with the same queue and proto-array, as a method of the store leaves
them. -/
structure SameQueue (fc fc' : ForkChoice σ π) : Prop where
  queue : fc'.queuedAttestations = fc.queuedAttestations
  protoArray : fc'.protoArray = fc.protoArray

theorem SameQueue.refl (fc : ForkChoice σ π) : SameQueue fc fc := ⟨rfl, rfl⟩

theorem SameQueue.trans {fc fc' fc'' : ForkChoice σ π} (h : SameQueue fc fc')
    (h' : SameQueue fc' fc'') : SameQueue fc fc'' :=
  ⟨h'.queue.trans h.queue, h'.protoArray.trans h.protoArray⟩

theorem final_onStore (m : EStateM ε σ Unit) (fc : ForkChoice σ π) :
    final ((onStore m).run fc) = { fc with fcStore := final (m.run fc.fcStore) } := by
  simp only [onStore, run_focus]
  cases m.run fc.fcStore <;> rfl

/-- `on_tick` at most one slot ahead sets the slot, and touches neither the queue nor the
proto-array, whether or not the store's update of the justified checkpoint fails. -/
theorem onTick_final {time : ℕ} {fc : ForkChoice σ π} (h : time ≤ slotOf store fc + 1) :
    SameQueue fc (final ((onTick store slotsPerEpoch time).run fc)) ∧
      slotOf store (final ((onTick store slotsPerEpoch time).run fc)) = time := by
  simp only [onTick, run_get_bind]
  rw [if_neg (by unfold slotOf at h; omega)]
  -- The store after `set_current_slot` and the proposer boost, at slot `time` either way.
  generalize hs : (if store.getCurrentSlot (store.setCurrentSlot time fc.fcStore) >
      store.getCurrentSlot fc.fcStore then store.setProposerBoostRoot 0
        (store.setCurrentSlot time fc.fcStore) else store.setCurrentSlot time fc.fcStore) = s'
  have hslot : store.getCurrentSlot s' = time := by
    rw [← hs]
    split_ifs <;>
      simp [store.getCurrentSlot_setProposerBoostRoot, store.getCurrentSlot_setCurrentSlot]
  simp only [run_set_bind]
  split_ifs
  · rw [final_onStore]
    exact ⟨⟨rfl, rfl⟩, by simp only [slotOf, store.getCurrentSlot_setJustifiedCheckpoint, hslot]⟩
  · exact ⟨⟨rfl, rfl⟩, hslot⟩
  · exact ⟨⟨rfl, rfl⟩, hslot⟩

/-- The loop of `update_time` keeps the queue and the proto-array, moves the slot up to at most
`current_slot`, and, when it returns, to `current_slot` if that was ahead and the fuel was
enough. -/
theorem tickLoop_final (currentSlot : ℕ) :
    ∀ (fuel : ℕ) (fc : ForkChoice σ π),
      SameQueue fc (final ((tickLoop store slotsPerEpoch currentSlot fuel).run fc)) ∧
      slotOf store fc ≤ slotOf store (final ((tickLoop store slotsPerEpoch currentSlot fuel).run fc)) ∧
      slotOf store (final ((tickLoop store slotsPerEpoch currentSlot fuel).run fc)) ≤
        max (slotOf store fc) currentSlot ∧
      (failed ((tickLoop store slotsPerEpoch currentSlot fuel).run fc) = false →
        currentSlot - slotOf store fc ≤ fuel →
        slotOf store (final ((tickLoop store slotsPerEpoch currentSlot fuel).run fc)) =
          max (slotOf store fc) currentSlot)
  | 0, fc => by
    refine ⟨SameQueue.refl fc, le_rfl, le_max_left _ _, fun _ hfuel => ?_⟩
    simp only [tickLoop, run_pure, final]
    omega
  | fuel + 1, fc => by
    simp only [tickLoop, run_get_bind]
    split_ifs with hlt
    · -- A turn: `on_tick` at the next slot, then the rest of the loop unless it failed.
      obtain ⟨hsame, hslot⟩ := onTick_final store slotsPerEpoch
        (le_rfl : slotOf store fc + 1 ≤ slotOf store fc + 1)
      cases hrun : (onTick store slotsPerEpoch (store.getCurrentSlot fc.fcStore + 1)).run fc with
      | ok u fc₁ =>
        rw [run_bind_ok hrun]
        simp only [slotOf, hrun, final] at hsame hslot
        obtain ⟨hsame', hlo, hhi, hdone⟩ := tickLoop_final currentSlot fuel fc₁
        refine ⟨hsame.trans hsame', ?_, ?_, fun hok hfuel => ?_⟩
        · unfold slotOf at hlo ⊢
          omega
        · unfold slotOf at hhi ⊢
          omega
        · have := hdone hok (by unfold slotOf at hfuel ⊢; omega)
          unfold slotOf at this ⊢
          omega
      | error e fc₁ =>
        rw [run_bind_error hrun]
        simp only [slotOf, hrun, final] at hsame hslot
        refine ⟨hsame, ?_, ?_, fun hok _ => by simp [failed] at hok⟩
        · simp only [slotOf, final]
          omega
        · simp only [slotOf, final]
          omega
    · refine ⟨SameQueue.refl fc, le_rfl, le_max_left _ _, fun _ _ => ?_⟩
      simp only [run_pure, final, slotOf]
      omega

theorem final_processAttestationQueue (fc : ForkChoice σ π) :
    final ((processAttestationQueue (ε := ε) store ops).run fc) =
      { fc with
        queuedAttestations := fc.queuedAttestations.dropWhile (·.slot < slotOf store fc)
        protoArray := (fc.queuedAttestations.takeWhile (·.slot < slotOf store fc)).foldl
          (fun p a => applyVotes ops a p) fc.protoArray } := by
  simp only [processAttestationQueue, run_modify, final, dequeueAttestations_eq, slotOf]
  rfl

/-- A completed `update_time` moves the store to `current_slot` if it was behind, and then
passes the votes of the queued attestations before the first one not from an earlier slot. -/
theorem updateTime_ok {currentSlot s : ℕ} {fc fc' : ForkChoice σ π}
    (h : (updateTime store ops slotsPerEpoch currentSlot).run fc = .ok s fc') :
    ∃ fc₁, SameQueue fc fc₁ ∧ slotOf store fc₁ = max (slotOf store fc) currentSlot ∧
      fc' = final ((processAttestationQueue (ε := ε) store ops).run fc₁) ∧ s = slotOf store fc' := by
  simp only [updateTime, run_get_bind] at h
  obtain ⟨u, fc₁, hloop, h⟩ := run_bind_eq_ok h
  obtain ⟨hsame, -, -, hdone⟩ := tickLoop_final store slotsPerEpoch currentSlot
    (currentSlot - store.getCurrentSlot fc.fcStore) fc
  rw [hloop] at hsame hdone
  obtain ⟨v, fc₂, hqueue, h⟩ := run_bind_eq_ok h
  simp only [run_get_bind, run_pure, EStateM.Result.ok.injEq] at h
  obtain ⟨rfl, rfl⟩ := h
  refine ⟨fc₁, hsame, hdone rfl (by unfold slotOf; omega), ?_, rfl⟩
  · rw [hqueue]
    rfl

/-- A failed `update_time` stopped in its loop: the queue and the proto-array are as they were,
and the store's slot moved up, at most to `current_slot`. -/
theorem updateTime_error {currentSlot : ℕ} {e : Error ε} {fc fc' : ForkChoice σ π}
    (h : (updateTime store ops slotsPerEpoch currentSlot).run fc = .error e fc') :
    SameQueue fc fc' ∧ slotOf store fc ≤ slotOf store fc' ∧
      slotOf store fc' ≤ max (slotOf store fc) currentSlot := by
  simp only [updateTime, run_get_bind] at h
  obtain ⟨hsame, hlo, hhi, -⟩ := tickLoop_final store slotsPerEpoch currentSlot
    (currentSlot - store.getCurrentSlot fc.fcStore) fc
  cases hloop : (tickLoop store slotsPerEpoch currentSlot
      (currentSlot - store.getCurrentSlot fc.fcStore)).run fc with
  | ok u fc₁ =>
    -- The rest of `update_time` cannot fail.
    rw [run_bind_ok hloop] at h
    cases h
  | error e' fc₁ =>
    rw [run_bind_error hloop] at h
    cases h
    rw [hloop] at hsame hlo hhi
    exact ⟨hsame, hlo, hhi⟩

/-- `acceptAttestation`, evaluated: the zero root is ignored, an invalid attestation leaves the
fork choice as it was, and a valid one is applied or queued by its slot. -/
theorem acceptAttestation_run (a : IndexedAttestation) (isFromBlock : Bool) (fc : ForkChoice σ π) :
    (acceptAttestation (ε := ε) store ops slotsPerEpoch a isFromBlock).run fc =
      if a.data.beaconBlockRoot = 0 then .ok () fc
      else match validateOnAttestation store ops slotsPerEpoch fc a isFromBlock with
        | .error e => .error (.invalidAttestation e) fc
        | .ok () =>
          if a.data.slot < slotOf store fc then
            .ok () { fc with protoArray := applyVotes ops (QueuedAttestation.ofIndexed a) fc.protoArray }
          else
            .ok () { fc with
              queuedAttestations := fc.queuedAttestations ++ [QueuedAttestation.ofIndexed a] } := by
  simp only [acceptAttestation, slotOf]
  by_cases h₀ : a.data.beaconBlockRoot = 0
  · rw [if_pos h₀, if_pos h₀]
    rfl
  · rw [if_neg h₀, if_neg h₀]
    simp only [run_get_bind]
    cases validateOnAttestation store ops slotsPerEpoch fc a isFromBlock with
    | error e => rfl
    | ok u =>
      simp only [Except.mapError, run_ofResult_bind]
      by_cases hs : a.data.slot < store.getCurrentSlot fc.fcStore
      · simp only [hs, ↓reduceIte]
        rfl
      · simp only [hs, ↓reduceIte]
        rfl

end Spec

end Lighthouse.ForkChoiceQueue
