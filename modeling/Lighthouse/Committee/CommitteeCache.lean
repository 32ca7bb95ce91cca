import Lighthouse.Shuffling.ShuffleList
import Lighthouse.Foundations.EvenSplit
import Lighthouse.Foundations.Checked
import Lighthouse.Foundations.CacheRefinement
import Lighthouse.Registry.ExitCache
import Lighthouse.Ssz.Bitfield

/-! `CommitteeCache` of `beacon_state`: the shuffling of an epoch's active validators, the table
of each validator's place in it, and the committees and attestation duties read from both.

`initialized` shuffles the active indices backwards with the epoch's seed and writes, for the
`i`-th validator of the shuffling, `i + 1` at its index. A cache it returns is `Consistent`: its
shuffling is a permutation of the active indices and `shuffled_position` inverts it
(`initialized_consistent`). The committees and duties of a consistent cache are in
`Committee.Committees`. SHA-256 is an arbitrary function from bytes to 32-byte values. -/
namespace Lighthouse.Committee
open Lighthouse.TreeHash Lighthouse.Shuffling Lighthouse.Checked Lighthouse.EvenSplit
open Lighthouse.Ssz (leBytes)
open Lighthouse.Ssz.Bitfield (Fault)
open Lighthouse.Registry (Validator)
open Lighthouse.CacheRefinement (bind_eq_ok)

/-- `safe_arith::ArithError`. -/
inductive ArithError where
  | overflow
  | divisionByZero
deriving DecidableEq, Repr

/-- `BeaconStateError`, the variants the committee cache returns. -/
inductive Error where
  | epochOutOfBounds
  | zeroSlotsPerEpoch
  | insufficientValidators
  | unableToShuffle
  | tooManyValidators
  | shuffleIndexOutOfBounds (index : ℕ)
  | randaoMixesOutOfBounds (index : ℕ)
  | committeeCacheUninitialized (epoch : Option ℕ)
  | noCommittee (slot index : ℕ)
  | arithError (e : ArithError)
deriving DecidableEq, Repr

/-- The `EthSpec` constants the cache reads. -/
structure EthSpec where
  slotsPerEpoch : ℕ
  epochsPerHistoricalVector : ℕ

/-- The `ChainSpec` fields the cache reads. -/
structure ChainSpec where
  minSeedLookahead : ℕ
  shuffleRoundCount : UInt8
  maxCommitteesPerSlot : ℕ
  targetCommitteeSize : ℕ
  domainBeaconAttester : ℕ

/-- The fields of a `BeaconState` the cache reads. -/
structure BeaconState where
  slot : ℕ
  validators : List Validator
  randaoMixes : List Hash256

/-! The state's side. -/

/-- `if cond { return Err(e) }`. -/
def failIf {ε : Type} (cond : Prop) [Decidable cond] (e : ε) : Except ε Unit :=
  if cond then .error e else .ok ()

/-- `.ok_or(e)?` on an `Option`. -/
def okOr {ε α : Type} (o : Option α) (e : ε) : Except ε α :=
  match o with
  | some a => .ok a
  | none => .error e

/-- A `safe_arith` operation with `?`, failing with `err`. -/
def arith (x : Option ℕ) (err : ArithError) : Except (Fault Error) ℕ :=
  match x with
  | some a => .ok a
  | none => .error (.error (.arithError err))

/-- `Slot::epoch`, whose `expect` panics on zero slots per epoch. -/
def slotEpoch (slot slotsPerEpoch : ℕ) : Except (Fault Error) ℕ :=
  match divU64 slot slotsPerEpoch with
  | some e => .ok e
  | none => .error (.panic "slots_per_epoch is not 0: DivisionByZero")

/-- `BeaconState::current_epoch`. -/
def currentEpoch (E : EthSpec) (state : BeaconState) : Except (Fault Error) ℕ :=
  slotEpoch state.slot E.slotsPerEpoch

/-- `BeaconState::min_randao_epoch`. -/
def minRandaoEpoch (E : EthSpec) (state : BeaconState) : Except (Fault Error) ℕ := do
  let currentEpoch ← currentEpoch E state
  pure (saturatingAddU64 currentEpoch 1 - E.epochsPerHistoricalVector)

/-- `BeaconState::get_seed` for the domain constant `domain`: the hash of the domain, the epoch
and the RANDAO mix of `epoch + EPOCHS_PER_HISTORICAL_VECTOR - MIN_SEED_LOOKAHEAD - 1`. -/
def getSeed (sha : List UInt8 → Hash256) (E : EthSpec) (spec : ChainSpec) (state : BeaconState)
    (epoch domain : ℕ) : Except (Fault Error) Hash256 := do
  let i ← arith (addU64 epoch E.epochsPerHistoricalVector) .overflow
  let i ← arith (subU64 i spec.minSeedLookahead) .overflow
  let i ← arith (subU64 i 1) .overflow
  let iMod ← arith (remU64 i state.randaoMixes.length) .divisionByZero
  let mix ← okOr state.randaoMixes[iMod]? (.error (.randaoMixesOutOfBounds iMod))
  pure (sha (leBytes domain 4 ++ leBytes epoch 8 ++ mix.bytes))

/-- `EthSpec::get_committee_count_per_slot`. -/
def getCommitteeCountPerSlot (E : EthSpec) (spec : ChainSpec) (activeValidatorCount : ℕ) :
    Except (Fault Error) ℕ := do
  let perSlot ← arith (divU64 activeValidatorCount E.slotsPerEpoch) .divisionByZero
  let committees ← arith (divU64 perSlot spec.targetCommitteeSize) .divisionByZero
  pure (max 1 (min spec.maxCommitteesPerSlot committees))

/-- `get_active_validator_indices`: the indices, in order, of the validators active at `epoch`. -/
def getActiveValidatorIndices (validators : List Validator) (epoch : ℕ) : List ℕ :=
  (List.range validators.length).filter fun index =>
    validators[index]?.any fun validator => validator.isActiveAt epoch

/-! The cache. -/

/-- `NonZeroUsize::new`. -/
def nonZeroUsizeNew (n : ℕ) : Option ℕ+ := if h : 0 < n then some ⟨n, h⟩ else none

/-- `CommitteeCache`. A position is stored plus one, as a `NonZeroUsize`. -/
structure CommitteeCache where
  initializedEpoch : Option ℕ
  shuffling : List ℕ
  shufflingPositions : List (Option ℕ+)
  committeesPerSlot : ℕ
  slotsPerEpoch : ℕ
deriving DecidableEq

/-- The loop of `initialized` over the enumerated shuffling: the `i`-th validator `v` gets
`i + 1` at its index, or the loop stops where `v` is past the table. -/
def setPosition (positions : List (Option ℕ+)) (entry : ℕ × ℕ) :
    Except (Fault Error) (List (Option ℕ+)) :=
  if entry.1 < positions.length then .ok (positions.set entry.1 (nonZeroUsizeNew (entry.2 + 1)))
  else .error (.error (.shuffleIndexOutOfBounds entry.1))

section Build
variable (sha : List UInt8 → Hash256) (E : EthSpec) (spec : ChainSpec)

/-- `CommitteeCache::initialized`. The `||` of the epoch check reads `current_epoch` a second
time only where the first test fails: each `(← ...)` runs just before its own check. -/
def initialized (state : BeaconState) (epoch : ℕ) : Except (Fault Error) CommitteeCache := do
  let reqdRandaoEpoch := epoch - spec.minSeedLookahead - 1
  failIf (reqdRandaoEpoch < (← minRandaoEpoch E state)) (.error .epochOutOfBounds)
  failIf (epoch > saturatingAddU64 (← currentEpoch E state) 1) (.error .epochOutOfBounds)
  failIf (E.slotsPerEpoch = 0) (.error .zeroSlotsPerEpoch)
  let activeValidatorIndices := getActiveValidatorIndices state.validators epoch
  failIf (activeValidatorIndices.isEmpty = true) (.error .insufficientValidators)
  let committeesPerSlot ← getCommitteeCountPerSlot E spec activeValidatorIndices.length
  let seed ← getSeed sha E spec state epoch spec.domainBeaconAttester
  let shuffling ← okOr (shuffleList sha activeValidatorIndices spec.shuffleRoundCount seed false)
    (.error .unableToShuffle)
  failIf (state.validators.length = usizeMax) (.error .tooManyValidators)
  let shufflingPositions ←
    shuffling.zipIdx.foldlM setPosition (List.replicate state.validators.length none)
  pure ⟨some epoch, shuffling, shufflingPositions, committeesPerSlot, E.slotsPerEpoch⟩

end Build

/-- A committee of a slot, `BeaconCommittee`. -/
structure BeaconCommittee where
  slot : ℕ
  index : ℕ
  committee : List ℕ
deriving DecidableEq, Repr

/-- `AttestationDuty`. -/
structure AttestationDuty where
  slot : ℕ
  index : ℕ
  committeePosition : ℕ
  committeeLen : ℕ
  committeesAtSlot : ℕ
deriving DecidableEq, Repr

/-- `compute_committee_index_in_epoch`. -/
def computeCommitteeIndexInEpoch (slot slotsPerEpoch committeesPerSlot committeeIndex : ℕ) : ℕ :=
  (slot % slotsPerEpoch) * committeesPerSlot + committeeIndex

/-- `compute_committee_range_in_epoch`, a range as its start and end. -/
def computeCommitteeRangeInEpoch (epochCommitteeCount indexInEpoch shufflingLen : ℕ) :
    Option (ℕ × ℕ) :=
  if epochCommitteeCount = 0 ∨ indexInEpoch ≥ epochCommitteeCount then none
  else
    some (shufflingLen * indexInEpoch / epochCommitteeCount,
      shufflingLen * (indexInEpoch + 1) / epochCommitteeCount)

/-- `epoch_committee_count`. -/
def epochCommitteeCount (committeesPerSlot slotsPerEpoch : ℕ) : ℕ :=
  committeesPerSlot * slotsPerEpoch

/-- The slots `Epoch::slot_iter` yields: from the epoch's start slot on, `slots_per_epoch` of
them, ending at the first whose `safe_add` overflows. -/
def slotIter (epoch slotsPerEpoch : ℕ) : List ℕ :=
  ((List.range slotsPerEpoch).takeWhile fun i =>
    (addU64 (saturatingMulU64 epoch slotsPerEpoch) i).isSome).map
      (saturatingMulU64 epoch slotsPerEpoch + ·)

namespace CommitteeCache
variable (c : CommitteeCache)

/-- `is_initialized_at`. -/
def isInitializedAt (epoch : ℕ) : Bool := some epoch == c.initializedEpoch

/-- `epoch_committee_count` of the cache. -/
def epochCommitteeCount : ℕ := Committee.epochCommitteeCount c.committeesPerSlot c.slotsPerEpoch

/-- `compute_committee_range`. -/
def computeCommitteeRange (index : ℕ) : Option (ℕ × ℕ) :=
  computeCommitteeRangeInEpoch c.epochCommitteeCount index c.shuffling.length

/-- `compute_committee`: the slice of the shuffling in the committee's range. -/
def computeCommittee (index : ℕ) : Option (List ℕ) :=
  (c.computeCommitteeRange index).bind fun range => slice c.shuffling range.1 range.2

/-- `get_beacon_committee`. `Slot::epoch` is the division, whose panic on zero slots per epoch
needs an initialized cache with no slots, which `initialized` never returns. -/
def getBeaconCommittee (slot index : ℕ) : Option BeaconCommittee :=
  if c.initializedEpoch.isNone ∨ !c.isInitializedAt (slot / c.slotsPerEpoch) ∨
      index ≥ c.committeesPerSlot then none
  else do
    let committeeIndex :=
      computeCommitteeIndexInEpoch slot c.slotsPerEpoch c.committeesPerSlot index
    let committee ← c.computeCommittee committeeIndex
    pure ⟨slot, index, committee⟩

/-- `get_beacon_committees_at_slot`. -/
def getBeaconCommitteesAtSlot (slot : ℕ) : Except Error (List BeaconCommittee) :=
  if c.initializedEpoch.isNone then .error (.committeeCacheUninitialized none)
  else
    (List.range c.committeesPerSlot).mapM fun index =>
      match c.getBeaconCommittee slot index with
      | some committee => .ok committee
      | none => .error (.noCommittee slot index)

/-- `get_all_beacon_committees`. -/
def getAllBeaconCommittees : Except Error (List BeaconCommittee) := do
  let initializedEpoch ← okOr c.initializedEpoch (.committeeCacheUninitialized none)
  (slotIter initializedEpoch c.slotsPerEpoch).foldlM
    (fun vec slot => do pure (vec ++ (← c.getBeaconCommitteesAtSlot slot))) []

/-- `shuffled_position`. -/
def shuffledPosition (validatorIndex : ℕ) : Option ℕ :=
  c.shufflingPositions[validatorIndex]?.bind fun p => p.map fun p => p.val - 1

/-- `convert_to_slot_and_index`. The division by `committees_per_slot` panics at zero, which a
found committee rules out. -/
def convertToSlotAndIndex (globalCommitteeIndex : ℕ) : Option (ℕ × ℕ) := do
  let epochStartSlot := saturatingMulU64 (← c.initializedEpoch) c.slotsPerEpoch
  let slotOffset := globalCommitteeIndex / c.committeesPerSlot
  let index := globalCommitteeIndex % c.committeesPerSlot
  pure ((← addU64 epochStartSlot slotOffset), index)

/-- `get_attestation_duties`: the first committee of the epoch whose range has the validator's
position. -/
def getAttestationDuties (validatorIndex : ℕ) : Option AttestationDuty := do
  let i ← c.shuffledPosition validatorIndex
  let (nthCommittee, range) ← ((List.range c.epochCommitteeCount).map fun nthCommittee =>
      (nthCommittee, c.computeCommitteeRange nthCommittee)).find? fun entry =>
    match entry.2 with
    | some range => decide (range.1 ≤ i) && decide (range.2 > i)
    | none => false
  let (slot, index) ← c.convertToSlotAndIndex nthCommittee
  let range ← range
  pure ⟨slot, index, i - range.1, range.2 - range.1, c.committeesPerSlot⟩

end CommitteeCache

/-! The active indices and the table of positions. -/

theorem failIf_eq_ok {ε : Type} {cond : Prop} [Decidable cond] {e : ε} {u : Unit}
    (h : failIf cond e = .ok u) : ¬ cond := by
  unfold failIf at h
  split at h
  · cases h
  · assumption

theorem okOr_eq_ok {ε α : Type} {o : Option α} {e : ε} {a : α} (h : okOr o e = .ok a) :
    o = some a := by
  unfold okOr at h
  split at h
  · cases h
    rfl
  · cases h

section Active
variable {validators : List Validator} {epoch : ℕ}

theorem mem_getActiveValidatorIndices {v : ℕ} :
    v ∈ getActiveValidatorIndices validators epoch ↔
      ∃ validator, validators[v]? = some validator ∧ validator.isActiveAt epoch = true := by
  simp only [getActiveValidatorIndices, List.mem_filter, List.mem_range, Option.any_eq_true]
  constructor
  · rintro ⟨-, validator, hv, hact⟩
    exact ⟨validator, hv, hact⟩
  · rintro ⟨validator, hv, hact⟩
    exact ⟨(List.getElem?_eq_some_iff.mp hv).1, validator, hv, hact⟩

theorem nodup_getActiveValidatorIndices : (getActiveValidatorIndices validators epoch).Nodup :=
  List.nodup_range.filter _

theorem lt_of_mem_getActiveValidatorIndices {v : ℕ}
    (h : v ∈ getActiveValidatorIndices validators epoch) : v < validators.length :=
  List.mem_range.mp (List.mem_filter.mp h).1

end Active

theorem nonZeroUsizeNew_succ (k : ℕ) : nonZeroUsizeNew (k + 1) = some (Nat.succPNat k) := by
  rw [nonZeroUsizeNew, dif_pos (Nat.succ_pos k)]
  rfl

/-- The loop over the enumerated shuffling, from index `n`, over validators without repeats and
within the table: it does not fail, and it writes at each of them one more than its place. -/
theorem foldlM_setPosition :
    ∀ (vs : List ℕ) (n : ℕ) (positions : List (Option ℕ+)), vs.Nodup →
      (∀ v ∈ vs, v < positions.length) →
      ∃ positions', (vs.zipIdx n).foldlM setPosition positions = .ok positions' ∧
        positions'.length = positions.length ∧
        ∀ v, positions'[v]? =
          if v ∈ vs then some (nonZeroUsizeNew (n + vs.idxOf v + 1)) else positions[v]?
  | [], _, positions, _, _ => ⟨positions, rfl, rfl, fun _ => by simp⟩
  | v :: vs, n, positions, hnd, hlt => by
    obtain ⟨hnotin, hnd⟩ := List.nodup_cons.mp hnd
    have hv : v < positions.length := hlt v List.mem_cons_self
    have hset : setPosition positions (v, n) =
        .ok (positions.set v (nonZeroUsizeNew (n + 1))) := if_pos hv
    obtain ⟨positions', hrun, hlen, hget⟩ := foldlM_setPosition vs (n + 1)
      (positions.set v (nonZeroUsizeNew (n + 1))) hnd
      (fun w hw => by rw [List.length_set]; exact hlt w (List.mem_cons_of_mem v hw))
    refine ⟨positions', ?_, by rw [hlen, List.length_set], fun w => ?_⟩
    · rw [List.zipIdx_cons, List.foldlM_cons, hset]
      exact hrun
    · rw [hget w]
      by_cases hwv : w = v
      · -- the first validator is written first and never again
        subst hwv
        simp [hnotin, List.getElem?_set_self hv]
      · by_cases hw : w ∈ vs
        · simp only [hw, if_true, List.mem_cons, hwv, or_true, List.idxOf_cons_ne vs
            (Ne.symm hwv), Nat.succ_eq_add_one]
          congr 3
          omega
        · simp [hw, hwv, List.getElem?_set_ne (Ne.symm hwv)]

theorem idxOf_eq_of_getElem? {l : List ℕ} (hnd : l.Nodup) {i v : ℕ} (h : l[i]? = some v) :
    l.idxOf v = i := by
  obtain ⟨hi, hv⟩ := List.getElem?_eq_some_iff.mp h
  have hmem : v ∈ l := hv ▸ List.getElem_mem hi
  have hlt : l.idxOf v < l.length := List.idxOf_lt_length_iff.mpr hmem
  have hget : l[l.idxOf v] = l[i] := by rw [List.getElem_idxOf hlt, hv]
  exact hnd.getElem_inj_iff.mp hget

/-! A cache that `initialized` returns. -/

/-- A cache for `epoch` whose shuffling is a permutation of the active indices `active`, and whose
table inverts the shuffling: the queries of `Committee.Committees` read only this. -/
structure Consistent (c : CommitteeCache) (epoch : ℕ) (active : List ℕ) : Prop where
  initializedEpoch_eq : c.initializedEpoch = some epoch
  slotsPerEpoch_pos : 0 < c.slotsPerEpoch
  committeesPerSlot_pos : 0 < c.committeesPerSlot
  perm : c.shuffling.Perm active
  nodup : c.shuffling.Nodup
  shuffledPosition_eq_some : ∀ v i, c.shuffledPosition v = some i ↔ c.shuffling[i]? = some v

section Initialized
variable (sha : List UInt8 → Hash256) (E : EthSpec) (spec : ChainSpec)
variable {state : BeaconState} {epoch : ℕ} {c : CommitteeCache}

theorem getCommitteeCountPerSlot_pos {count cps : ℕ}
    (h : getCommitteeCountPerSlot E spec count = .ok cps) : 0 < cps := by
  unfold getCommitteeCountPerSlot at h
  obtain ⟨_, -, h⟩ := bind_eq_ok.mp h
  obtain ⟨_, -, h⟩ := bind_eq_ok.mp h
  cases h
  exact lt_of_lt_of_le Nat.one_pos (le_max_left _ _)

/-- What `initialized` computed on its way to a cache. -/
theorem initialized_eq_ok (h : initialized sha E spec state epoch = .ok c) :
    E.slotsPerEpoch ≠ 0 ∧
      getCommitteeCountPerSlot E spec (getActiveValidatorIndices state.validators epoch).length =
        .ok c.committeesPerSlot ∧
      (∃ seed, shuffleList sha (getActiveValidatorIndices state.validators epoch)
        spec.shuffleRoundCount seed false = some c.shuffling) ∧
      c.shuffling.zipIdx.foldlM setPosition (List.replicate state.validators.length none) =
        .ok c.shufflingPositions ∧
      c.initializedEpoch = some epoch ∧ c.slotsPerEpoch = E.slotsPerEpoch := by
  unfold initialized at h
  -- the two epoch checks, each after the epoch it reads
  obtain ⟨_, -, h⟩ := bind_eq_ok.mp h
  obtain ⟨_, -, h⟩ := bind_eq_ok.mp h
  obtain ⟨_, -, h⟩ := bind_eq_ok.mp h
  obtain ⟨_, -, h⟩ := bind_eq_ok.mp h
  obtain ⟨_, hslots, h⟩ := bind_eq_ok.mp h
  obtain ⟨_, -, h⟩ := bind_eq_ok.mp h
  obtain ⟨cps, hcps, h⟩ := bind_eq_ok.mp h
  obtain ⟨seed, -, h⟩ := bind_eq_ok.mp h
  obtain ⟨shuffling, hshuffle, h⟩ := bind_eq_ok.mp h
  obtain ⟨_, -, h⟩ := bind_eq_ok.mp h
  obtain ⟨positions, hpositions, h⟩ := bind_eq_ok.mp h
  cases h
  exact ⟨failIf_eq_ok hslots, hcps, ⟨seed, okOr_eq_ok hshuffle⟩, hpositions, rfl, rfl⟩

/-- The shuffling is a permutation of the active indices. -/
theorem perm_of_shuffleList {active shuffling : List ℕ} {rounds : UInt8} {seed : Hash256}
    (h : shuffleList sha active rounds seed false = some shuffling) : shuffling.Perm active := by
  obtain ⟨hn, hmax, hr⟩ := shuffleList_some_cond sha seed h
  obtain ⟨st, hst, hs⟩ := shuffles_shuffleList sha seed hn hmax hr false
  rw [hst, Option.some.injEq] at h
  exact h ▸ hs.perm

/-- A cache that `initialized` returns is consistent with the epoch's active indices. -/
theorem initialized_consistent (h : initialized sha E spec state epoch = .ok c) :
    Consistent c epoch (getActiveValidatorIndices state.validators epoch) := by
  obtain ⟨hslots, hcps, ⟨seed, hshuffle⟩, hpositions, hepoch, hspe⟩ := initialized_eq_ok sha E spec h
  have hperm := perm_of_shuffleList sha hshuffle
  have hnodup : c.shuffling.Nodup := hperm.nodup_iff.mpr nodup_getActiveValidatorIndices
  have hlt : ∀ v ∈ c.shuffling,
      v < (List.replicate state.validators.length (none : Option ℕ+)).length := by
    intro v hv
    rw [List.length_replicate]
    exact lt_of_mem_getActiveValidatorIndices (hperm.subset hv)
  obtain ⟨positions, hrun, -, hget⟩ := foldlM_setPosition c.shuffling 0 _ hnodup hlt
  rw [hpositions] at hrun
  cases hrun
  -- the table holds one more than each validator's place, and nothing elsewhere
  have hpos : ∀ v, c.shuffledPosition v = if v ∈ c.shuffling then some (c.shuffling.idxOf v)
      else none := by
    intro v
    rw [CommitteeCache.shuffledPosition, hget v]
    by_cases hv : v ∈ c.shuffling
    · simp [hv, nonZeroUsizeNew_succ]
    · simp only [hv, if_false, List.getElem?_replicate]
      split <;> rfl
  refine ⟨hepoch, hspe ▸ Nat.pos_of_ne_zero hslots, getCommitteeCountPerSlot_pos E spec hcps,
    hperm, hnodup, fun v i => ?_⟩
  rw [hpos v]
  constructor
  · intro h
    split at h
    · rename_i hv
      cases h
      exact List.getElem?_idxOf hv
    · cases h
  · intro h
    have hv : v ∈ c.shuffling := List.mem_of_getElem? h
    rw [if_pos hv, idxOf_eq_of_getElem? hnodup h]

end Initialized

end Lighthouse.Committee
