import Lighthouse.Foundations.Sweep
import Lighthouse.Slasher.Array

/-! What the arrays say: the target each validator's cell holds for an epoch, read as
`get_target` reads it from the chunk that `get_chunk_for_update` would return. Writing a cell
changes the target of that validator at the epochs equal to the cell's modulo
`history_length`, and of no other validator; within a window of `history_length` epochs, of
that one epoch only. Over that view the loops of array.rs are the sweeps of `Sweep`: the epoch
update resets a range of epochs, and applying an attestation lowers (min) or raises (max) the
targets on one side of its source. -/
namespace Lighthouse.Slasher
open Registry Checked EState Sweep

/-- The window of `history_length` epochs that ends at `currentEpoch`. -/
def Config.window (config : Config) (currentEpoch : Nat) : Set Nat :=
  {epoch | currentEpoch < epoch + config.historyLength ∧ epoch ≤ currentEpoch}

section View
variable {α : Type} (kind : TargetArrayChunk) (db : SlasherDB α) (config : Config)
  (validatorChunkIndex : Nat)

/-- The chunk of a column of the row that `get_chunk_for_update` returns: the one in
`updatedChunks`, or else the stored one, or else an empty one. -/
def chunkAt (updatedChunks : ChunkMap) (chunkIndex : Nat) : Chunk :=
  (updatedChunks.lookup chunkIndex).getD
    ((kind.load db validatorChunkIndex chunkIndex config).getD (kind.empty config))

/-- The target that a validator of the row has for an epoch, read from that chunk. -/
def targetIn (updatedChunks : ChunkMap) (validatorIndex epoch : Nat) : Nat :=
  epoch + (chunkAt kind db config validatorChunkIndex updatedChunks
    (config.chunkIndex epoch)).data.getD (config.cellOf validatorIndex epoch) 0

end View

/-- The target that the database holds for a validator and an epoch. -/
def targetAt {α : Type} (kind : TargetArrayChunk) (db : SlasherDB α) (config : Config)
    (validatorIndex epoch : Nat) : Nat :=
  targetIn kind db config (config.validatorChunkIndex validatorIndex) ∅ validatorIndex epoch

namespace Chunk

theorem getTarget_eq_ok {chunk : Chunk} {config : Config} {v e x : Nat}
    (h : chunk.getTarget v e config = .ok x) : x = e + chunk.data.getD (config.cellOf v e) 0 := by
  simp only [getTarget] at h
  split at h
  · rename_i d hd
    cases h
    simp only [Config.cellOf, List.getD_eq_getElem?_getD, hd, Option.getD_some]
  · cases h

theorem setRawDistance_eq_ok {chunk chunk' : Chunk} {config : Config} {v e d : Nat}
    (h : chunk.setRawDistance v e d config = .ok chunk') :
    config.cellOf v e < chunk.data.length ∧ chunk' = ⟨chunk.data.set (config.cellOf v e) d⟩ := by
  simp only [setRawDistance] at h
  split at h
  · rename_i hlt
    cases h
    exact ⟨hlt, rfl⟩
  · cases h

theorem epochDistance_eq_ok {epoch baseEpoch d : Nat} (h : epochDistance epoch baseEpoch = .ok d) :
    baseEpoch ≤ epoch ∧ d = epoch - baseEpoch ∧ d < maxDistance := by
  obtain ⟨distanceU64, hsub, h⟩ := CacheRefinement.bind_eq_ok.mp h
  obtain ⟨hle, rfl⟩ := subU64_eq_some.mp (okOr_eq_ok.mp hsub)
  obtain ⟨distance, hu16, h⟩ := CacheRefinement.bind_eq_ok.mp h
  have hdistance : distance = epoch - baseEpoch := by
    have := okOr_eq_ok.mp hu16
    split at this
    · exact (Option.some.inj this).symm
    · cases this
  subst hdistance
  split at h
  · rename_i hlt
    cases h
    exact ⟨hle, rfl, hlt⟩
  · cases h

theorem setTarget_eq_ok {chunk chunk' : Chunk} {config : Config} {v e t : Nat}
    (h : chunk.setTarget v e t config = .ok chunk') :
    e ≤ t ∧ config.cellOf v e < chunk.data.length ∧
      chunk' = ⟨chunk.data.set (config.cellOf v e) (t - e)⟩ := by
  obtain ⟨d, hd, hset⟩ := CacheRefinement.bind_eq_ok.mp h
  obtain ⟨hle, rfl, -⟩ := epochDistance_eq_ok hd
  exact ⟨hle, setRawDistance_eq_ok hset⟩

end Chunk

section Cells
variable {α : Type} {kind : TargetArrayChunk} {db : SlasherDB α} {config : Config}
  {validatorChunkIndex : Nat}

theorem chunkAt_insert (updatedChunks : ChunkMap) (chunkIndex : Nat) (chunk : Chunk)
    (chunkIndex' : Nat) :
    chunkAt kind db config validatorChunkIndex (updatedChunks.insert chunkIndex chunk) chunkIndex' =
      if chunkIndex' = chunkIndex then chunk
      else chunkAt kind db config validatorChunkIndex updatedChunks chunkIndex' := by
  by_cases h : chunkIndex' = chunkIndex
  · subst h
    simp [chunkAt, AList.lookup_insert]
  · simp [chunkAt, AList.lookup_insert_ne h, h]

/-- `get_chunk_for_update` returns the chunk the view reads, and changes no chunk of the view. -/
theorem getChunkForUpdate_eq (updatedChunks : ChunkMap) (chunkIndex : Nat) :
    getChunkForUpdate kind db config updatedChunks validatorChunkIndex chunkIndex =
      (updatedChunks.insert chunkIndex
        (chunkAt kind db config validatorChunkIndex updatedChunks chunkIndex),
        chunkAt kind db config validatorChunkIndex updatedChunks chunkIndex) ∨
    getChunkForUpdate kind db config updatedChunks validatorChunkIndex chunkIndex =
      (updatedChunks, chunkAt kind db config validatorChunkIndex updatedChunks chunkIndex) := by
  simp only [getChunkForUpdate]
  cases h : updatedChunks.lookup chunkIndex with
  | none => exact .inl (by simp [chunkAt, h])
  | some chunk => exact .inr (by simp [chunkAt, h])

theorem chunkAt_insert_self (updatedChunks : ChunkMap) (chunkIndex : Nat) :
    chunkAt kind db config validatorChunkIndex (updatedChunks.insert chunkIndex
      (chunkAt kind db config validatorChunkIndex updatedChunks chunkIndex)) =
    chunkAt kind db config validatorChunkIndex updatedChunks := by
  funext chunkIndex'
  rw [chunkAt_insert]
  split_ifs with h
  · rw [h]
  · rfl

theorem chunkAt_getChunkForUpdate (updatedChunks : ChunkMap) (chunkIndex : Nat) :
    chunkAt kind db config validatorChunkIndex
      (getChunkForUpdate kind db config updatedChunks validatorChunkIndex chunkIndex).1 =
    chunkAt kind db config validatorChunkIndex updatedChunks := by
  rcases getChunkForUpdate_eq updatedChunks chunkIndex with h | h <;> rw [h]
  exact chunkAt_insert_self updatedChunks chunkIndex

theorem getChunkForUpdate_snd (updatedChunks : ChunkMap) (chunkIndex : Nat) :
    (getChunkForUpdate kind db config updatedChunks validatorChunkIndex chunkIndex).2 =
      chunkAt kind db config validatorChunkIndex updatedChunks chunkIndex := by
  rcases getChunkForUpdate_eq updatedChunks chunkIndex with h | h <;> rw [h]

theorem targetIn_congr {u u' : ChunkMap}
    (h : chunkAt kind db config validatorChunkIndex u = chunkAt kind db config validatorChunkIndex u') :
    targetIn kind db config validatorChunkIndex u = targetIn kind db config validatorChunkIndex u' := by
  funext v e
  simp only [targetIn, h]

/-- The target `get_target` reads from the chunk of the view is the view's. -/
theorem getTarget_chunkAt {u : ChunkMap} {v e x : Nat}
    (h : (chunkAt kind db config validatorChunkIndex u (config.chunkIndex e)).getTarget v e config =
      .ok x) :
    x = targetIn kind db config validatorChunkIndex u v e :=
  Chunk.getTarget_eq_ok h

variable (hc : config.Valid)
include hc

/-- Writing the cell of `v` and `e` in the chunk of `e`: the targets of `v` at the epochs equal
to `e` modulo the history length become their distance `d` away, and no other target of the row
changes. -/
theorem targetIn_insert_set {u : ChunkMap} {chunk : Chunk} {v e d : Nat}
    (hcell : config.cellOf v e < chunk.data.length) {v' x : Nat}
    (hv : config.validatorChunkIndex v = config.validatorChunkIndex v') :
    targetIn kind db config validatorChunkIndex
        (u.insert (config.chunkIndex e) ⟨chunk.data.set (config.cellOf v e) d⟩) v' x =
      if v' = v ∧ x % config.historyLength = e % config.historyLength then x + d
      else targetIn kind db config validatorChunkIndex (u.insert (config.chunkIndex e) chunk) v' x := by
  simp only [targetIn, chunkAt_insert]
  by_cases hci : config.chunkIndex x = config.chunkIndex e
  · rw [if_pos hci, if_pos hci, List.getD_eq_getElem?_getD, List.getElem?_set]
    by_cases hcell' : config.cellOf v e = config.cellOf v' x
    · obtain ⟨hvo, hco⟩ := (Config.cellOf_eq_iff hc).mp hcell'
      have hvv : v' = v := (Config.validator_eq_of_chunk hv hvo).symm
      have hmod : x % config.historyLength = e % config.historyLength :=
        (Config.mod_eq_of_chunk hc hci hco.symm)
      rw [if_pos hcell', if_pos hcell, if_pos ⟨hvv, hmod⟩, Option.getD_some]
    · rw [if_neg hcell', ← List.getD_eq_getElem?_getD, if_neg]
      rintro ⟨rfl, hmod⟩
      apply hcell'
      have hco : config.chunkOffset e = config.chunkOffset x := by
        simp only [Config.chunkOffset]
        rw [← Nat.mod_mod_of_dvd e hc.chunkSize_dvd, ← Nat.mod_mod_of_dvd x hc.chunkSize_dvd, hmod]
      exact (Config.cellOf_eq_iff hc).mpr ⟨rfl, hco⟩
  · rw [if_neg hci, if_neg hci, if_neg]
    rintro ⟨-, hmod⟩
    exact hci (by simp only [Config.chunkIndex, hmod])

/-- A write to the cell of `v` changes no target of another validator of the row. -/
theorem targetIn_insert_set_ne {u : ChunkMap} {chunk : Chunk} {v e d : Nat}
    (hcell : config.cellOf v e < chunk.data.length) {v' x : Nat}
    (hv : config.validatorChunkIndex v = config.validatorChunkIndex v') (hne : v' ≠ v) :
    targetIn kind db config validatorChunkIndex
        (u.insert (config.chunkIndex e) ⟨chunk.data.set (config.cellOf v e) d⟩) v' x =
      targetIn kind db config validatorChunkIndex (u.insert (config.chunkIndex e) chunk) v' x := by
  rw [targetIn_insert_set hc hcell hv, if_neg fun h => hne h.1]

/-- Within one window, a write to the cell of `v` and `e` changes the target at `e` only. -/
theorem targetIn_insert_set_window {u : ChunkMap} {chunk : Chunk} {v e d cur : Nat}
    (hcell : config.cellOf v e < chunk.data.length) (he : e ∈ config.window cur) :
    Set.EqOn (targetIn kind db config validatorChunkIndex
        (u.insert (config.chunkIndex e) ⟨chunk.data.set (config.cellOf v e) d⟩) v)
      (Function.update (targetIn kind db config validatorChunkIndex
        (u.insert (config.chunkIndex e) chunk) v) e (e + d)) (config.window cur) := by
  intro x hx
  rw [targetIn_insert_set hc hcell rfl]
  by_cases hxe : x = e
  · subst hxe
    simp
  · rw [Function.update_of_ne hxe, if_neg]
    rintro ⟨-, hmod⟩
    exact hxe (Config.eq_of_mod_eq_of_window hmod hx.1 he.1 hx.2 he.2)

end Cells

end Lighthouse.Slasher
