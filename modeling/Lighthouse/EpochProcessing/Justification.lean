import Lighthouse.Foundations.Checked
import Lighthouse.Registry.Operations

/-! Justification and finalization (`weigh_justification_and_finalization.rs`), with the parts of
`per_slot_processing` that move the slot and call it at the end of each epoch. The state holds
the fields these functions read: the slot, the block roots, the four justification bits and the
three checkpoints. The target balances are inputs: the callers compute them from the total
balances (phase 0) or the participation cache (Altair).

Every rule either keeps a checkpoint or replaces it by one at least as recent, so the
checkpoints stay ordered, `finalized ≤ previous justified ≤ current justified`, with the current
justified one before the current epoch at each epoch transition; along any run of slots the
finalized epoch never decreases. -/
namespace Lighthouse.Justification
open Checked
open Registry (Checkpoint)

/-- `GENESIS_SLOT`. -/
def genesisSlot : Nat := 0

/-- `GENESIS_EPOCH`. -/
def genesisEpoch : Nat := 0

/-- `ssz_types::Error`, the variant a bitfield returns. -/
inductive BitfieldError where
  | outOfBounds (i len : Nat)
deriving DecidableEq, Repr

/-- A `Bitfield` of fixed length, its bits in order (the bytes they are packed in are not
visible through `get` and `set`). -/
structure Bitfield where
  bits : List Bool
deriving DecidableEq, Repr

namespace Bitfield

/-- `Bitfield::len`. -/
def len (b : Bitfield) : Nat := b.bits.length

/-- `Bitfield::get`. -/
def get (b : Bitfield) (i : Nat) : Except BitfieldError Bool :=
  if h : i < b.bits.length then .ok b.bits[i] else .error (.outOfBounds i b.len)

/-- `Bitfield::set`. -/
def set (b : Bitfield) (i : Nat) (value : Bool) : Except BitfieldError Bitfield :=
  if i < b.len then .ok ⟨b.bits.set i value⟩ else .error (.outOfBounds i b.len)

/-- `Bitfield::shift_up`: each bit moves `n` places up, from the top down so that none is
overwritten before it is read, and the low `n` bits become zero. -/
def shiftUp (b : Bitfield) (n : Nat) : Except BitfieldError Bitfield :=
  if n ≤ b.len then do
    let b ← (List.range' n (b.len - n)).reverse.foldlM
      (fun b i => do b.set i (← b.get (i - n))) b
    -- The `unwrap` of the source: `i < n ≤ len`, so this never fails.
    (List.range n).foldlM (fun b i => b.set i false) b
  else .error (.outOfBounds n b.len)

end Bitfield

/-- The errors of these functions: `EpochProcessingError`, with the `BeaconStateError`,
`ArithError` and `ssz_types::Error` it wraps. -/
inductive Error where
  | arithError
  | slotOutOfBounds
  | blockRootsOutOfBounds (index : Nat)
  | sszTypesError (error : BitfieldError)
  | invalidJustificationBit (error : BitfieldError)
deriving DecidableEq, Repr

/-- A `safe_arith` operation propagated with `?`. -/
def arith (x : Option Nat) : Except Error Nat :=
  match x with
  | some a => .ok a
  | none => .error .arithError

@[simp] theorem arith_eq_ok {x : Option Nat} {a : Nat} : arith x = .ok a ↔ x = some a := by
  cases x <;> simp [arith]

/-- `BeaconState`, the fields read here; `block_roots` holds the roots of the last
`SLOTS_PER_HISTORICAL_ROOT` slots. -/
structure BeaconState where
  slot : Nat
  blockRoots : List Nat
  justificationBits : Bitfield
  previousJustifiedCheckpoint : Checkpoint
  currentJustifiedCheckpoint : Checkpoint
  finalizedCheckpoint : Checkpoint
deriving DecidableEq, Repr

namespace BeaconState
variable (slotsPerEpoch : Nat)

/-- `current_epoch`. -/
def currentEpoch (state : BeaconState) : Nat := state.slot / slotsPerEpoch

/-- `previous_epoch`: the current epoch less one, the genesis epoch at genesis. -/
def previousEpoch (state : BeaconState) : Nat :=
  if state.currentEpoch slotsPerEpoch > genesisEpoch then state.currentEpoch slotsPerEpoch - 1
  else state.currentEpoch slotsPerEpoch

/-- `get_latest_block_roots_index`: a slot before the state's, at most a history back. -/
def getLatestBlockRootsIndex (state : BeaconState) (slot : Nat) : Except Error Nat :=
  if slot < state.slot then do
    let bound ← arith (addU64 slot state.blockRoots.length)
    if state.slot ≤ bound then arith (remU64 slot state.blockRoots.length)
    else .error .slotOutOfBounds
  else .error .slotOutOfBounds

/-- `get_block_root`. -/
def getBlockRoot (state : BeaconState) (slot : Nat) : Except Error Nat := do
  let i ← state.getLatestBlockRootsIndex slot
  match state.blockRoots[i]? with
  | some root => pure root
  | none => .error (.blockRootsOutOfBounds i)

/-- `get_block_root_at_epoch`: the root at the epoch's first slot, `start_slot` saturating. -/
def getBlockRootAtEpoch (state : BeaconState) (epoch : Nat) : Except Error Nat :=
  state.getBlockRoot (saturatingMulU64 epoch slotsPerEpoch)

/-- `set_block_root`. -/
def setBlockRoot (state : BeaconState) (slot root : Nat) : Except Error BeaconState := do
  let i ← state.getLatestBlockRootsIndex slot
  if i < state.blockRoots.length then pure { state with blockRoots := state.blockRoots.set i root }
  else .error (.blockRootsOutOfBounds i)

end BeaconState

section Weigh
variable (slotsPerEpoch : Nat)

/-- A justification rule of `weigh_justification_and_finalization`: when two thirds of the
total active balance attested to the target of `epoch`, its checkpoint becomes the current
justified one and justification bit `bit` is set. -/
def justifyIf (targetBalance totalActiveBalance epoch bit : Nat) (state : BeaconState) :
    Except Error BeaconState := do
  let lhs ← arith (mulU64 targetBalance 3)
  let rhs ← arith (mulU64 totalActiveBalance 2)
  if lhs ≥ rhs then
    let root ← state.getBlockRootAtEpoch slotsPerEpoch epoch
    let justificationBits ← (state.justificationBits.set bit true).mapError .sszTypesError
    pure { state with currentJustifiedCheckpoint := ⟨epoch, root⟩, justificationBits }
  else pure state

/-- The closure `all_bits_set` of `weigh_justification_and_finalization`, over `range`. -/
def allBitsSet (bits : Bitfield) : List Nat → Except Error Bool
  | [] => pure true
  | i :: range => do
    let bit ← (bits.get i).mapError .invalidJustificationBit
    if !bit then pure false else allBitsSet bits range

/-- A finalization rule of `weigh_justification_and_finalization`: when the bits of `range` are
all set and `checkpoint` is `distance` epochs before the current epoch, it becomes the finalized
checkpoint. The epoch sum is only computed when the bits are set (`&&`). -/
def finalizeIf (bits : Bitfield) (currentEpoch : Nat) (range : List Nat) (checkpoint : Checkpoint)
    (distance : Nat) (state : BeaconState) : Except Error BeaconState := do
  let allSet ← allBitsSet bits range
  if allSet then
    let epoch ← arith (addU64 checkpoint.epoch distance)
    pure (if epoch = currentEpoch then { state with finalizedCheckpoint := checkpoint } else state)
  else pure state

/-- `weigh_justification_and_finalization`. -/
def weighJustificationAndFinalization (state : BeaconState)
    (totalActiveBalance previousTargetBalance currentTargetBalance : Nat) :
    Except Error BeaconState := do
  let previousEpoch := state.previousEpoch slotsPerEpoch
  let currentEpoch := state.currentEpoch slotsPerEpoch
  let oldPreviousJustifiedCheckpoint := state.previousJustifiedCheckpoint
  let oldCurrentJustifiedCheckpoint := state.currentJustifiedCheckpoint
  -- Process justifications
  let justificationBits ← (state.justificationBits.shiftUp 1).mapError .sszTypesError
  let state := { state with
    previousJustifiedCheckpoint := state.currentJustifiedCheckpoint, justificationBits }
  let state ← justifyIf slotsPerEpoch previousTargetBalance totalActiveBalance previousEpoch 1 state
  -- If the current epoch gets justified, fill the last bit.
  let state ← justifyIf slotsPerEpoch currentTargetBalance totalActiveBalance currentEpoch 0 state
  let bits := state.justificationBits
  -- The 2nd/3rd/4th most recent epochs are all justified, the 2nd using the 4th as source.
  let state ← finalizeIf bits currentEpoch (List.range' 1 3) oldPreviousJustifiedCheckpoint 3 state
  -- The 2nd/3rd most recent epochs are both justified, the 2nd using the 3rd as source.
  let state ← finalizeIf bits currentEpoch (List.range' 1 2) oldPreviousJustifiedCheckpoint 2 state
  -- The 1st/2nd/3rd most recent epochs are all justified, the 1st using the 3nd as source.
  let state ← finalizeIf bits currentEpoch (List.range' 0 3) oldCurrentJustifiedCheckpoint 2 state
  -- The 1st/2nd most recent epochs are both justified, the 1st using the 2nd as source.
  finalizeIf bits currentEpoch (List.range' 0 2) oldCurrentJustifiedCheckpoint 1 state

/-- `process_justification_and_finalization`, phase 0 and Altair alike: nothing before the
third epoch. -/
def processJustificationAndFinalization (state : BeaconState)
    (totalActiveBalance previousTargetBalance currentTargetBalance : Nat) :
    Except Error BeaconState := do
  let firstEpoch ← arith (addU64 genesisEpoch 1)
  if state.currentEpoch slotsPerEpoch ≤ firstEpoch then pure state
  else
    weighJustificationAndFinalization slotsPerEpoch state totalActiveBalance previousTargetBalance
      currentTargetBalance

/-- `cache_state`, on the block roots: the root of the latest block header is recorded for the
slot, through the setter that needs the slot one ahead. -/
def cacheState (state : BeaconState) (latestBlockRoot : Nat) : Except Error BeaconState := do
  let previousSlot := state.slot
  let slot ← arith (addU64 state.slot 1)
  let state ← { state with slot }.setBlockRoot previousSlot latestBlockRoot
  let slot ← arith (subU64 state.slot 1)
  pure { state with slot }

/-- The balances `per_epoch_processing` hands to `process_justification_and_finalization`:
total active, previous epoch target, current epoch target. -/
structure TotalBalances where
  totalActiveBalance : Nat
  previousTargetBalance : Nat
  currentTargetBalance : Nat
deriving DecidableEq, Repr

/-- `per_slot_processing`, on the fields here: the block root of the slot is recorded, at the
last slot of an epoch the epoch is processed (of its steps only
`process_justification_and_finalization` writes these fields), and the slot advances. -/
def perSlotProcessing (state : BeaconState) (latestBlockRoot : Nat) (balances : TotalBalances) :
    Except Error BeaconState := do
  let state ← cacheState state latestBlockRoot
  let state ← (if state.slot > genesisSlot then do
      let next ← arith (addU64 state.slot 1)
      let offset ← arith (remU64 next slotsPerEpoch)
      if offset = 0 then
        processJustificationAndFinalization slotsPerEpoch state balances.totalActiveBalance
          balances.previousTargetBalance balances.currentTargetBalance
      else pure state
    else pure state)
  let slot ← arith (addU64 state.slot 1)
  pure { state with slot }

/-- The states reached from `init` by calls of `per_slot_processing` that returned, each with
any latest block root and any balances. -/
inductive SlotReachable (init : BeaconState) : BeaconState → Prop
  | init : SlotReachable init init
  | step {state state' : BeaconState} (latestBlockRoot : Nat) (balances : TotalBalances) :
    SlotReachable init state → perSlotProcessing slotsPerEpoch state latestBlockRoot balances = .ok state' →
      SlotReachable init state'

end Weigh

/-- The checkpoints in order, `finalized ≤ previous justified ≤ current justified`, and the
current justified one at most `bound`. -/
structure CheckpointsOrdered (state : BeaconState) (bound : Nat) : Prop where
  finalized_le : state.finalizedCheckpoint.epoch ≤ state.previousJustifiedCheckpoint.epoch
  previous_le : state.previousJustifiedCheckpoint.epoch ≤ state.currentJustifiedCheckpoint.epoch
  current_le : state.currentJustifiedCheckpoint.epoch ≤ bound

theorem CheckpointsOrdered.mono {state : BeaconState} {bound bound' : Nat}
    (h : CheckpointsOrdered state bound) (hle : bound ≤ bound') : CheckpointsOrdered state bound' :=
  ⟨h.finalized_le, h.previous_le, h.current_le.trans hle⟩

section Rules
variable {slotsPerEpoch : Nat} {state state' : BeaconState}
open CacheRefinement (bind_eq_ok)

/-- A justification rule moves only the current justified checkpoint (and the bits), to
`epoch`; with `epoch` and the old checkpoint in `[lo, hi]`, so is the new one. -/
theorem justifyIf_bounds {targetBalance totalActiveBalance epoch bit : Nat} (lo hi : Nat)
    (hepoch : lo ≤ epoch ∧ epoch ≤ hi)
    (hcur : lo ≤ state.currentJustifiedCheckpoint.epoch ∧ state.currentJustifiedCheckpoint.epoch ≤ hi)
    (h : justifyIf slotsPerEpoch targetBalance totalActiveBalance epoch bit state = .ok state') :
    (lo ≤ state'.currentJustifiedCheckpoint.epoch ∧ state'.currentJustifiedCheckpoint.epoch ≤ hi) ∧
      state'.slot = state.slot ∧
      state'.previousJustifiedCheckpoint = state.previousJustifiedCheckpoint ∧
      state'.finalizedCheckpoint = state.finalizedCheckpoint := by
  unfold justifyIf at h
  obtain ⟨lhs, -, h⟩ := bind_eq_ok.mp h
  obtain ⟨rhs, -, h⟩ := bind_eq_ok.mp h
  split_ifs at h
  · obtain ⟨root, -, h⟩ := bind_eq_ok.mp h
    obtain ⟨bits, -, h⟩ := bind_eq_ok.mp h
    cases h
    exact ⟨hepoch, rfl, rfl, rfl⟩
  · cases h
    exact ⟨hcur, rfl, rfl, rfl⟩

/-- A finalization rule moves only the finalized checkpoint, to `checkpoint`; with
`checkpoint` and the old finalized one in `[lo, hi]`, so is the new one. -/
theorem finalizeIf_bounds {bits : Bitfield} {currentEpoch distance : Nat} {range : List Nat}
    {checkpoint : Checkpoint} (lo hi : Nat) (hcheckpoint : lo ≤ checkpoint.epoch ∧ checkpoint.epoch ≤ hi)
    (hfin : lo ≤ state.finalizedCheckpoint.epoch ∧ state.finalizedCheckpoint.epoch ≤ hi)
    (h : finalizeIf bits currentEpoch range checkpoint distance state = .ok state') :
    (lo ≤ state'.finalizedCheckpoint.epoch ∧ state'.finalizedCheckpoint.epoch ≤ hi) ∧
      state'.slot = state.slot ∧
      state'.previousJustifiedCheckpoint = state.previousJustifiedCheckpoint ∧
      state'.currentJustifiedCheckpoint = state.currentJustifiedCheckpoint := by
  unfold finalizeIf at h
  obtain ⟨allSet, -, h⟩ := bind_eq_ok.mp h
  split_ifs at h
  · obtain ⟨epoch, -, h⟩ := bind_eq_ok.mp h
    cases h
    split_ifs
    · exact ⟨hcheckpoint, rfl, rfl, rfl⟩
    · exact ⟨hfin, rfl, rfl, rfl⟩
  · cases h
    exact ⟨hfin, rfl, rfl, rfl⟩

/-- One call of `weigh_justification_and_finalization` from checkpoints in order, the current
justified one before the current epoch: the new ones are in order, the current justified one at
most the current epoch, and neither the finalized nor the current justified epoch decreased. -/
theorem weigh_ordered {totalActiveBalance previousTargetBalance currentTargetBalance : Nat}
    (hord : CheckpointsOrdered state (state.currentEpoch slotsPerEpoch - 1))
    (h : weighJustificationAndFinalization slotsPerEpoch state totalActiveBalance
      previousTargetBalance currentTargetBalance = .ok state') :
    CheckpointsOrdered state' (state.currentEpoch slotsPerEpoch) ∧
      state.finalizedCheckpoint.epoch ≤ state'.finalizedCheckpoint.epoch ∧
      state.currentJustifiedCheckpoint.epoch ≤ state'.currentJustifiedCheckpoint.epoch ∧
      state'.slot = state.slot := by
  obtain ⟨hfp, hpc, hcE⟩ := hord
  set E := state.currentEpoch slotsPerEpoch
  set fin := state.finalizedCheckpoint.epoch
  set prev := state.previousJustifiedCheckpoint.epoch
  set cur := state.currentJustifiedCheckpoint.epoch
  have hprevE : E - 1 ≤ state.previousEpoch slotsPerEpoch ∧ state.previousEpoch slotsPerEpoch ≤ E := by
    unfold BeaconState.previousEpoch
    split_ifs <;> omega
  unfold weighJustificationAndFinalization at h
  obtain ⟨bits, -, h⟩ := bind_eq_ok.mp h
  -- The justification rules keep the current justified epoch in `[cur, E]`.
  obtain ⟨s₁, h₁, h⟩ := bind_eq_ok.mp h
  obtain ⟨hc₁, hslot₁, hp₁, hf₁⟩ := justifyIf_bounds cur E (by omega)
    (by simp; omega) h₁
  obtain ⟨s₂, h₂, h⟩ := bind_eq_ok.mp h
  obtain ⟨hc₂, hslot₂, hp₂, hf₂⟩ := justifyIf_bounds cur E (by omega) hc₁ h₂
  -- The finalization rules keep the finalized epoch in `[fin, cur]`.
  obtain ⟨s₃, h₃, h⟩ := bind_eq_ok.mp h
  obtain ⟨hf₃, hslot₃, hp₃, hc₃⟩ := finalizeIf_bounds fin cur (by omega)
    (by simp [hf₂, hf₁]; omega) h₃
  obtain ⟨s₄, h₄, h⟩ := bind_eq_ok.mp h
  obtain ⟨hf₄, hslot₄, hp₄, hc₄⟩ := finalizeIf_bounds fin cur (by omega) hf₃ h₄
  obtain ⟨s₅, h₅, h⟩ := bind_eq_ok.mp h
  obtain ⟨hf₅, hslot₅, hp₅, hc₅⟩ := finalizeIf_bounds fin cur (by omega) hf₄ h₅
  obtain ⟨hf₆, hslot₆, hp₆, hc₆⟩ := finalizeIf_bounds fin cur (by omega) hf₅ h
  have hprev' : state'.previousJustifiedCheckpoint.epoch = cur := by
    rw [hp₆, hp₅, hp₄, hp₃, hp₂, hp₁]
  have hcur' : state'.currentJustifiedCheckpoint.epoch = s₂.currentJustifiedCheckpoint.epoch := by
    rw [hc₆, hc₅, hc₄, hc₃]
  refine ⟨⟨by omega, by omega, by omega⟩, hf₆.1, by omega, ?_⟩
  rw [hslot₆, hslot₅, hslot₄, hslot₃, hslot₂, hslot₁]

/-- `process_justification_and_finalization` from checkpoints in order: in order after it, the
current justified one at most the current epoch, the finalized epoch not decreased. -/
theorem processJustificationAndFinalization_ordered
    {totalActiveBalance previousTargetBalance currentTargetBalance : Nat}
    (hord : CheckpointsOrdered state (state.currentEpoch slotsPerEpoch - 1))
    (h : processJustificationAndFinalization slotsPerEpoch state totalActiveBalance
      previousTargetBalance currentTargetBalance = .ok state') :
    CheckpointsOrdered state' (state.currentEpoch slotsPerEpoch) ∧
      state.finalizedCheckpoint.epoch ≤ state'.finalizedCheckpoint.epoch ∧
      state'.slot = state.slot := by
  unfold processJustificationAndFinalization at h
  obtain ⟨firstEpoch, -, h⟩ := bind_eq_ok.mp h
  split_ifs at h
  · cases h
    exact ⟨hord.mono (Nat.sub_le _ 1), le_rfl, rfl⟩
  · obtain ⟨hord', hfin, -, hslot⟩ := weigh_ordered hord h
    exact ⟨hord', hfin, hslot⟩

theorem setBlockRoot_eq_ok {slot root : Nat} (h : state.setBlockRoot slot root = .ok state') :
    ∃ blockRoots, state' = { state with blockRoots } := by
  unfold BeaconState.setBlockRoot at h
  obtain ⟨i, -, h⟩ := bind_eq_ok.mp h
  split_ifs at h
  cases h
  exact ⟨_, rfl⟩

/-- `cache_state` writes the block roots only: the slot it moves comes back. -/
theorem cacheState_eq_ok {latestBlockRoot : Nat} (h : cacheState state latestBlockRoot = .ok state') :
    ∃ blockRoots, state' = { state with blockRoots } := by
  unfold cacheState at h
  obtain ⟨slot, hslot, h⟩ := bind_eq_ok.mp h
  obtain ⟨s₁, h₁, h⟩ := bind_eq_ok.mp h
  obtain ⟨blockRoots, rfl⟩ := setBlockRoot_eq_ok h₁
  obtain ⟨slot', hslot', h⟩ := bind_eq_ok.mp h
  cases h
  have hback : slot' = state.slot := by
    simp only [arith_eq_ok, addU64_eq_some, subU64_eq_some] at hslot hslot'
    omega
  rw [hback]
  exact ⟨blockRoots, rfl⟩

/-- The slot after the last slot of an epoch is in the next epoch. -/
theorem succ_div_of_remU64 {slot slotsPerEpoch : Nat} (h : remU64 (slot + 1) slotsPerEpoch = some 0) :
    (slot + 1) / slotsPerEpoch = slot / slotsPerEpoch + 1 := by
  unfold remU64 at h
  split_ifs at h
  exact Nat.succ_div_of_dvd (Nat.dvd_of_mod_eq_zero (Option.some.inj h))

/-- One slot from checkpoints in order, the current justified one before the current epoch:
the same holds after it, at the next slot, and the finalized epoch has not decreased. The
epoch is only processed at an epoch's last slot, after which the epoch is one more. -/
theorem perSlotProcessing_ordered {latestBlockRoot : Nat} {balances : TotalBalances}
    (hord : CheckpointsOrdered state (state.currentEpoch slotsPerEpoch - 1))
    (h : perSlotProcessing slotsPerEpoch state latestBlockRoot balances = .ok state') :
    CheckpointsOrdered state' (state'.currentEpoch slotsPerEpoch - 1) ∧
      state.finalizedCheckpoint.epoch ≤ state'.finalizedCheckpoint.epoch := by
  unfold perSlotProcessing at h
  obtain ⟨s₁, h₁, h⟩ := bind_eq_ok.mp h
  -- `cache_state` leaves the checkpoints and the slot.
  obtain ⟨blockRoots, hs₁⟩ := cacheState_eq_ok h₁
  have hslot₁ : s₁.slot = state.slot := by rw [hs₁]
  have hfin₁ : s₁.finalizedCheckpoint = state.finalizedCheckpoint := by rw [hs₁]
  have hord₁ : CheckpointsOrdered s₁ (s₁.currentEpoch slotsPerEpoch - 1) := by
    rw [hs₁]
    exact ⟨hord.1, hord.2, hord.3⟩
  rw [← hfin₁]
  obtain ⟨s₂, h₂, h⟩ := bind_eq_ok.mp h
  obtain ⟨slot, hslot, h⟩ := bind_eq_ok.mp h
  cases h
  simp only [arith_eq_ok, addU64_eq_some] at hslot
  -- The new slot, one more, is in an epoch at least as late.
  have hstep : ∀ {bound : Nat}, CheckpointsOrdered s₂ bound → bound ≤ slot / slotsPerEpoch - 1 →
      CheckpointsOrdered { s₂ with slot } (slot / slotsPerEpoch - 1) :=
    fun hs hle => ⟨hs.1, hs.2, hs.3.trans hle⟩
  have hlater : s₂.slot = s₁.slot → s₁.currentEpoch slotsPerEpoch - 1 ≤ slot / slotsPerEpoch - 1 :=
    fun hs => Nat.sub_le_sub_right (Nat.div_le_div_right (by omega)) 1
  split_ifs at h₂ with hgenesis
  · obtain ⟨next, hnext, h₂⟩ := bind_eq_ok.mp h₂
    obtain ⟨offset, hoffset, h₂⟩ := bind_eq_ok.mp h₂
    simp only [arith_eq_ok, addU64_eq_some] at hnext hoffset
    split_ifs at h₂ with hzero
    · -- The last slot of an epoch: the next slot starts the next epoch.
      obtain ⟨hord', hfin, hslot₂⟩ := processJustificationAndFinalization_ordered hord₁ h₂
      have hnextEpoch := succ_div_of_remU64 (hnext.2 ▸ hzero ▸ hoffset)
      refine ⟨hstep hord' ?_, hfin⟩
      simp only [BeaconState.currentEpoch] at hnextEpoch ⊢
      rw [← hslot.2, hslot₂]
      omega
    · cases h₂
      exact ⟨hstep hord₁ (hlater rfl), le_rfl⟩
  · cases h₂
    exact ⟨hstep hord₁ (hlater rfl), le_rfl⟩

/-- From a state with its checkpoints in order, every state a run of slots reaches has them
in order. -/
theorem SlotReachable.ordered {init : BeaconState}
    (hinit : CheckpointsOrdered init (init.currentEpoch slotsPerEpoch - 1))
    (h : SlotReachable slotsPerEpoch init state) :
    CheckpointsOrdered state (state.currentEpoch slotsPerEpoch - 1) := by
  induction h with
  | init => exact hinit
  | step latestBlockRoot balances _ hstep ih => exact (perSlotProcessing_ordered ih hstep).1

end Rules

/-- Justification and finalization keep the checkpoints ordered: from checkpoints in order with
the current justified one before the current epoch, `weigh_justification_and_finalization` gives
checkpoints in order with the current justified one at most the current epoch, and lowers neither
the finalized nor the current justified epoch; and along every run of `per_slot_processing` from
such a state (genesis is one), each slot keeps the order and does not lower the finalized
epoch. -/
theorem checkpoints_ordered_finalized_monotone (slotsPerEpoch : Nat) :
    (∀ (state state' : BeaconState) (totalActiveBalance previousTargetBalance
        currentTargetBalance : Nat),
      CheckpointsOrdered state (state.currentEpoch slotsPerEpoch - 1) →
      weighJustificationAndFinalization slotsPerEpoch state totalActiveBalance
        previousTargetBalance currentTargetBalance = .ok state' →
      CheckpointsOrdered state' (state.currentEpoch slotsPerEpoch) ∧
        state.finalizedCheckpoint.epoch ≤ state'.finalizedCheckpoint.epoch ∧
        state.currentJustifiedCheckpoint.epoch ≤ state'.currentJustifiedCheckpoint.epoch) ∧
    (∀ init : BeaconState, CheckpointsOrdered init (init.currentEpoch slotsPerEpoch - 1) →
      ∀ (state state' : BeaconState) (latestBlockRoot : Nat) (balances : TotalBalances),
        SlotReachable slotsPerEpoch init state →
        perSlotProcessing slotsPerEpoch state latestBlockRoot balances = .ok state' →
        CheckpointsOrdered state' (state'.currentEpoch slotsPerEpoch - 1) ∧
          state.finalizedCheckpoint.epoch ≤ state'.finalizedCheckpoint.epoch) := by
  refine ⟨fun state state' _ _ _ hord h => ?_, fun init hinit state state' _ _ hreach h => ?_⟩
  · obtain ⟨hord', hfin, hcur, -⟩ := weigh_ordered hord h
    exact ⟨hord', hfin, hcur⟩
  · exact perSlotProcessing_ordered (hreach.ordered hinit) h

/-- Two slots per epoch, at the last slot of epoch 3, with two thirds of the balance on both
targets: both epochs are justified, nothing is finalized, and the next slot starts epoch 4. -/
theorem checkpoints_ordered_at_justification :
    CheckpointsOrdered ⟨7, List.replicate 8 1, ⟨List.replicate 4 false⟩, ⟨0, 0⟩, ⟨0, 0⟩, ⟨0, 0⟩⟩ 2 ∧
    weighJustificationAndFinalization 2
        ⟨7, List.replicate 8 1, ⟨List.replicate 4 false⟩, ⟨0, 0⟩, ⟨0, 0⟩, ⟨0, 0⟩⟩ 3 2 2 =
      .ok ⟨7, List.replicate 8 1, ⟨[true, true, false, false]⟩, ⟨0, 0⟩, ⟨3, 1⟩, ⟨0, 0⟩⟩ ∧
    CheckpointsOrdered ⟨7, List.replicate 8 1, ⟨[true, true, false, false]⟩, ⟨0, 0⟩, ⟨3, 1⟩, ⟨0, 0⟩⟩ 3 ∧
    perSlotProcessing 2 ⟨7, List.replicate 8 1, ⟨List.replicate 4 false⟩, ⟨0, 0⟩, ⟨0, 0⟩, ⟨0, 0⟩⟩
        5 ⟨3, 2, 2⟩ =
      .ok ⟨8, [1, 1, 1, 1, 1, 1, 1, 5], ⟨[true, true, false, false]⟩, ⟨0, 0⟩, ⟨3, 1⟩, ⟨0, 0⟩⟩ ∧
    CheckpointsOrdered ⟨8, [1, 1, 1, 1, 1, 1, 1, 5], ⟨[true, true, false, false]⟩, ⟨0, 0⟩, ⟨3, 1⟩,
      ⟨0, 0⟩⟩ 3 := by
  have hord : CheckpointsOrdered
      ⟨7, List.replicate 8 1, ⟨List.replicate 4 false⟩, ⟨0, 0⟩, ⟨0, 0⟩, ⟨0, 0⟩⟩ 2 :=
    ⟨le_rfl, le_rfl, Nat.zero_le _⟩
  have hweigh : weighJustificationAndFinalization 2
      ⟨7, List.replicate 8 1, ⟨List.replicate 4 false⟩, ⟨0, 0⟩, ⟨0, 0⟩, ⟨0, 0⟩⟩ 3 2 2 =
      .ok ⟨7, List.replicate 8 1, ⟨[true, true, false, false]⟩, ⟨0, 0⟩, ⟨3, 1⟩, ⟨0, 0⟩⟩ := by
    decide
  have hslot : perSlotProcessing 2
      ⟨7, List.replicate 8 1, ⟨List.replicate 4 false⟩, ⟨0, 0⟩, ⟨0, 0⟩, ⟨0, 0⟩⟩ 5 ⟨3, 2, 2⟩ =
      .ok ⟨8, [1, 1, 1, 1, 1, 1, 1, 5], ⟨[true, true, false, false]⟩, ⟨0, 0⟩, ⟨3, 1⟩, ⟨0, 0⟩⟩ := by
    decide
  exact ⟨hord, hweigh, ((checkpoints_ordered_finalized_monotone 2).1 _ _ 3 2 2 hord hweigh).1,
    hslot, ((checkpoints_ordered_finalized_monotone 2).2 _ hord _ _ 5 ⟨3, 2, 2⟩ .init hslot).1⟩

end Lighthouse.Justification
