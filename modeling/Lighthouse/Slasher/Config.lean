import Mathlib.Data.Nat.ModEq
import Lighthouse.Registry.Operations

/-! The slasher's configuration and the layout of its min-max target arrays (config.rs). The
arrays hold one cell for each validator and each epoch of the last `history_length`, cut into
chunks of `chunk_size` epochs for `validator_chunk_size` validators; a chunk is stored under its
disk key. The lemmas here say that this layout gives every validator and epoch modulo
`history_length` a cell of its own, and where the chunk of an epoch changes as the epoch moves
by one. -/
namespace Lighthouse.Slasher
open Registry

/-- `MAX_DISTANCE`: `u16::MAX`, the largest distance a cell holds. -/
def maxDistance : Nat := 65535

/-- `MAX_HISTORY_LENGTH`. -/
def maxHistoryLength : Nat := 2 ^ 16

/-- The fields of `Config` that the slasher's processing reads. -/
structure Config where
  chunkSize : Nat
  validatorChunkSize : Nat
  historyLength : Nat
  maxDbSizeMbs : Nat
deriving DecidableEq, Repr

/-- The slasher's `Error`, with the variants the modelled code returns; those of the database
and of the tables kept abstract are `databaseError`. -/
inductive Error
  | databaseError (code : Nat)
  | chunkIndexOutOfBounds (cellIndex : Nat)
  | configInvalidChunkSize (chunkSize historyLength : Nat)
  | configInvalidHistoryLength (historyLength maxHistoryLength : Nat)
  | configInvalidZeroParameter (config : Config)
  | distanceTooLarge
  | distanceCalculationOverflow
  | missingAttesterRecord (validatorIndex targetEpoch : Nat)
deriving DecidableEq, Repr

namespace Config

/-- `Config::validate`. -/
def validate (config : Config) : Except Error Unit :=
  if config.chunkSize = 0 ∨ config.validatorChunkSize = 0 ∨ config.historyLength = 0 ∨
      config.maxDbSizeMbs = 0 then
    .error (.configInvalidZeroParameter config)
  else if config.historyLength % config.chunkSize ≠ 0 then
    .error (.configInvalidChunkSize config.chunkSize config.historyLength)
  else if config.historyLength > maxHistoryLength then
    .error (.configInvalidHistoryLength config.historyLength maxHistoryLength)
  else .ok ()

/-- What `validate` checks. -/
structure Valid (config : Config) : Prop where
  chunkSize_pos : 0 < config.chunkSize
  validatorChunkSize_pos : 0 < config.validatorChunkSize
  historyLength_pos : 0 < config.historyLength
  maxDbSizeMbs_pos : 0 < config.maxDbSizeMbs
  chunkSize_dvd : config.chunkSize ∣ config.historyLength
  historyLength_le : config.historyLength ≤ maxHistoryLength

theorem validate_eq_ok {config : Config} : config.validate = .ok () ↔ config.Valid := by
  constructor
  · intro h
    simp only [validate] at h
    split_ifs at h with h₀ h₁ h₂
    refine ⟨?_, ?_, ?_, ?_, Nat.dvd_of_mod_eq_zero (not_not.mp h₁), not_lt.mp h₂⟩ <;> omega
  · intro h
    have hmod : config.historyLength % config.chunkSize = 0 := Nat.mod_eq_zero_of_dvd h.chunkSize_dvd
    have := h.chunkSize_pos
    have := h.validatorChunkSize_pos
    have := h.historyLength_pos
    have := h.maxDbSizeMbs_pos
    have := h.historyLength_le
    simp only [validate]
    rw [if_neg (by omega), if_neg (by omega), if_neg (by omega)]

/-- `chunk_index`: the column of an epoch's chunk. -/
def chunkIndex (config : Config) (epoch : Nat) : Nat := epoch % config.historyLength / config.chunkSize

/-- `validator_chunk_index`: the row of a validator's chunk. -/
def validatorChunkIndex (config : Config) (validatorIndex : Nat) : Nat :=
  validatorIndex / config.validatorChunkSize

/-- `chunk_offset`. -/
def chunkOffset (config : Config) (epoch : Nat) : Nat := epoch % config.chunkSize

/-- `validator_offset`. -/
def validatorOffset (config : Config) (validatorIndex : Nat) : Nat :=
  validatorIndex % config.validatorChunkSize

/-- `disk_key`. -/
def diskKey (config : Config) (validatorChunkIndex chunkIndex : Nat) : Nat :=
  let width := config.historyLength / config.chunkSize
  validatorChunkIndex * width + chunkIndex

/-- `cell_index`. -/
def cellIndex (config : Config) (validatorOffset chunkOffset : Nat) : Nat :=
  validatorOffset * config.chunkSize + chunkOffset

/-- The cell of a validator and an epoch within their chunk. -/
def cellOf (config : Config) (validatorIndex epoch : Nat) : Nat :=
  config.cellIndex (config.validatorOffset validatorIndex) (config.chunkOffset epoch)

/-- `validator_indices_in_chunk`. -/
def validatorIndicesInChunk (config : Config) (validatorChunkIndex : Nat) : List Nat :=
  List.range' (validatorChunkIndex * config.validatorChunkSize) config.validatorChunkSize

/-- `attesting_validators_in_chunk`. -/
def attestingValidatorsInChunk (config : Config) (attestation : IndexedAttestation)
    (validatorChunkIndex : Nat) : List Nat :=
  attestation.attestingIndices.filter fun v => config.validatorChunkIndex v == validatorChunkIndex

theorem mem_validatorIndicesInChunk {config : Config} (h : 0 < config.validatorChunkSize)
    {vci v : Nat} : v ∈ config.validatorIndicesInChunk vci ↔ config.validatorChunkIndex v = vci := by
  simp only [validatorIndicesInChunk, List.mem_range'_1, validatorChunkIndex]
  rw [Nat.div_eq_iff h]
  omega

theorem mem_attestingValidatorsInChunk {config : Config} {attestation : IndexedAttestation}
    {vci v : Nat} : v ∈ config.attestingValidatorsInChunk attestation vci ↔
      v ∈ attestation.attestingIndices ∧ config.validatorChunkIndex v = vci := by
  simp [attestingValidatorsInChunk]

section Layout
variable {config : Config} (hc : config.Valid)
include hc

/-- The chunk of an epoch is its block of `chunk_size` epochs, modulo the width of the array. -/
theorem chunkIndex_eq (epoch : Nat) :
    config.chunkIndex epoch = epoch / config.chunkSize % (config.historyLength / config.chunkSize) := by
  have hN : config.historyLength = config.chunkSize * (config.historyLength / config.chunkSize) :=
    (Nat.mul_div_cancel' hc.chunkSize_dvd).symm
  rw [chunkIndex, hN, Nat.mod_mul_right_div_self, ← hN]

theorem width_pos : 0 < config.historyLength / config.chunkSize :=
  Nat.div_pos (Nat.le_of_dvd hc.historyLength_pos hc.chunkSize_dvd) hc.chunkSize_pos

theorem chunkIndex_lt (epoch : Nat) :
    config.chunkIndex epoch < config.historyLength / config.chunkSize := by
  rw [chunkIndex_eq hc]
  exact Nat.mod_lt _ (width_pos hc)

theorem cellOf_lt (validatorIndex epoch : Nat) :
    config.cellOf validatorIndex epoch < config.chunkSize * config.validatorChunkSize := by
  have h₁ : config.validatorOffset validatorIndex < config.validatorChunkSize :=
    Nat.mod_lt _ hc.validatorChunkSize_pos
  have h₂ : config.chunkOffset epoch < config.chunkSize := Nat.mod_lt _ hc.chunkSize_pos
  have h₃ : (config.validatorOffset validatorIndex + 1) * config.chunkSize ≤
      config.validatorChunkSize * config.chunkSize := Nat.mul_le_mul_right _ h₁
  simp only [cellOf, cellIndex, Nat.mul_comm config.chunkSize]
  rw [Nat.succ_mul] at h₃
  omega

/-- Disk keys name a chunk's row and column. -/
theorem diskKey_inj {vci vci' ci ci' : Nat} (hci : ci < config.historyLength / config.chunkSize)
    (hci' : ci' < config.historyLength / config.chunkSize) :
    config.diskKey vci ci = config.diskKey vci' ci' ↔ vci = vci' ∧ ci = ci' := by
  constructor
  · intro h
    simp only [diskKey] at h
    have hw := width_pos hc
    have hrow : vci = vci' := by
      have h₁ := congrArg (· / (config.historyLength / config.chunkSize)) h
      simp only [Nat.mul_comm _ (config.historyLength / config.chunkSize)] at h₁
      rwa [Nat.mul_add_div hw, Nat.mul_add_div hw, Nat.div_eq_of_lt hci, Nat.div_eq_of_lt hci',
        Nat.add_zero, Nat.add_zero] at h₁
    subst hrow
    exact ⟨rfl, by omega⟩
  · rintro ⟨rfl, rfl⟩
    rfl

/-- Two epochs in the same chunk column and offset are equal modulo the history length. -/
theorem mod_eq_of_chunk {e e' : Nat} (hci : config.chunkIndex e = config.chunkIndex e')
    (hco : config.chunkOffset e = config.chunkOffset e') :
    e % config.historyLength = e' % config.historyLength := by
  have hC := hc.chunkSize_dvd
  have h₁ := Nat.div_add_mod (e % config.historyLength) config.chunkSize
  have h₂ := Nat.div_add_mod (e' % config.historyLength) config.chunkSize
  simp only [chunkIndex, chunkOffset] at hci hco
  rw [Nat.mod_mod_of_dvd e hC] at h₁
  rw [Nat.mod_mod_of_dvd e' hC] at h₂
  rw [hci, hco] at h₁
  omega

omit hc in
/-- Two validators in the same chunk row and offset are equal. -/
theorem validator_eq_of_chunk {v v' : Nat}
    (hvci : config.validatorChunkIndex v = config.validatorChunkIndex v')
    (hvo : config.validatorOffset v = config.validatorOffset v') : v = v' := by
  have h₁ := Nat.div_add_mod v config.validatorChunkSize
  have h₂ := Nat.div_add_mod v' config.validatorChunkSize
  simp only [validatorChunkIndex, validatorOffset] at hvci hvo
  rw [hvci, hvo] at h₁
  omega

/-- The cells of one chunk name a validator offset and an epoch offset. -/
theorem cellOf_eq_iff {v v' e e' : Nat} :
    config.cellOf v e = config.cellOf v' e' ↔
      config.validatorOffset v = config.validatorOffset v' ∧
        config.chunkOffset e = config.chunkOffset e' := by
  have h₁ : config.chunkOffset e < config.chunkSize := Nat.mod_lt _ hc.chunkSize_pos
  have h₂ : config.chunkOffset e' < config.chunkSize := Nat.mod_lt _ hc.chunkSize_pos
  simp only [cellOf, cellIndex]
  constructor
  · intro h
    have hC := hc.chunkSize_pos
    have hq := congrArg (· / config.chunkSize) h
    simp only [Nat.mul_comm _ config.chunkSize] at hq
    rw [Nat.mul_add_div hC, Nat.mul_add_div hC, Nat.div_eq_of_lt h₁, Nat.div_eq_of_lt h₂] at hq
    simp only [Nat.add_zero] at hq
    rw [hq] at h
    exact ⟨hq, by omega⟩
  · rintro ⟨h, h'⟩
    rw [h, h']

/-- Epochs in the same block of `chunk_size` epochs share their chunk column. -/
theorem chunkIndex_eq_of_div_eq {e e' : Nat} (h : e / config.chunkSize = e' / config.chunkSize) :
    config.chunkIndex e = config.chunkIndex e' := by
  rw [chunkIndex_eq hc, chunkIndex_eq hc, h]

/-- When the next block of epochs has the same chunk column, the array is one chunk wide and
every epoch has that column. -/
theorem chunkIndex_const_of_succ {e e' : Nat} (h : e' / config.chunkSize = e / config.chunkSize + 1)
    (hci : config.chunkIndex e' = config.chunkIndex e) (x y : Nat) :
    config.chunkIndex x = config.chunkIndex y := by
  rw [chunkIndex_eq hc, chunkIndex_eq hc, h] at hci
  have hmod : 1 ≡ 0 [MOD config.historyLength / config.chunkSize] :=
    Nat.ModEq.add_left_cancel' (e / config.chunkSize) hci
  have hw : config.historyLength / config.chunkSize = 1 :=
    Nat.dvd_one.mp (Nat.modEq_zero_iff_dvd.mp hmod)
  rw [chunkIndex_eq hc, chunkIndex_eq hc, hw, Nat.mod_one, Nat.mod_one]

omit hc in
/-- Distinct epochs of one window of `history_length` epochs have distinct cells. -/
theorem eq_of_mod_eq_of_window {cur e e' : Nat} (h : e % config.historyLength = e' % config.historyLength)
    (he : cur < e + config.historyLength) (he' : cur < e' + config.historyLength) (hle : e ≤ cur)
    (hle' : e' ≤ cur) : e = e' := by
  have h₁ := Nat.div_add_mod e config.historyLength
  have h₂ := Nat.div_add_mod e' config.historyLength
  have hq : e / config.historyLength = e' / config.historyLength := by
    by_contra hne
    rcases Nat.lt_or_gt_of_ne hne with hlt | hlt
    · have : config.historyLength * (e / config.historyLength + 1) ≤
          config.historyLength * (e' / config.historyLength) := Nat.mul_le_mul_left _ hlt
      rw [Nat.mul_succ] at this
      omega
    · have : config.historyLength * (e' / config.historyLength + 1) ≤
          config.historyLength * (e / config.historyLength) := Nat.mul_le_mul_left _ hlt
      rw [Nat.mul_succ] at this
      omega
  rw [hq, h] at h₁
  omega

end Layout

end Config

end Lighthouse.Slasher
