import Lighthouse.EpochProcessing.AltairRewards
import Lighthouse.Foundations.CacheRefinement
import Lighthouse.Foundations.Trace

/-! `ParticipationCache::new` against the specification's functions it stands for. One pass
over the validators fills, for the current and for the previous epoch, the flags of the active
unslashed validators, the total balance of the active validators and of those with each flag;
and the eligible indices. After `k` validators each epoch's cache holds the specification's
sets and sums over the first `k` (`Tracks`), and one turn of the pass takes it to `k + 1`. The
sums are exact because `new` returned: an addition past a `u64` fails it. -/
namespace Lighthouse.EpochProcessing
open Checked
open CacheRefinement (bind_eq_ok)

section Specification

/-- The participation list the specification reads for an epoch: the current epoch's for the
current epoch, the previous epoch's otherwise. -/
def specEpochParticipation (state : BeaconState) (epoch : Nat) : List Nat :=
  if epoch = state.currentEpoch then state.currentEpochParticipation
  else state.previousEpochParticipation

/-- `get_unslashed_participating_indices(state, flag_index, epoch)`, as a test on an index. -/
def specUnslashedParticipatingAt (state : BeaconState) (flagIndex epoch index : Nat) : Bool :=
  match state.validators[index]?, (specEpochParticipation state epoch)[index]? with
  | some v, some flags => v.isActiveAt epoch && !v.slashed && flags.testBit flagIndex
  | _, _ => false

/-- The test of `get_eligible_validator_indices`, with its epoch addition unbounded. -/
def specIsEligible (state : BeaconState) (index : Nat) : Bool :=
  match state.validators[index]? with
  | some v => v.isActiveAt state.previousEpoch ||
      (v.slashed && decide (state.previousEpoch + 1 < v.withdrawableEpoch))
  | none => false

/-- `get_eligible_validator_indices`. -/
def specEligibleIndices (state : BeaconState) : List Nat :=
  (List.range state.validators.length).filter (specIsEligible state)

end Specification

section Prefix
variable (state : BeaconState)

/-- The total effective balance of those of the first `k` validators that satisfy `p`. -/
def prefixBalance (p : Nat → Validator → Bool) (k : Nat) : Nat :=
  (((state.validators.zipIdx.take k).filter fun e => p e.2 e.1).map (·.1.effectiveBalance)).sum

theorem prefixBalance_zero (p : Nat → Validator → Bool) : prefixBalance state p 0 = 0 := by
  simp [prefixBalance]

theorem prefixBalance_succ (p : Nat → Validator → Bool) {k : Nat} {v : Validator}
    (hv : state.validators[k]? = some v) :
    prefixBalance state p (k + 1) =
      prefixBalance state p k + if p k v then v.effectiveBalance else 0 := by
  have hk : state.validators.zipIdx[k]? = some (v, k) := by
    simp [List.getElem?_zipIdx, hv]
  rw [prefixBalance, prefixBalance, List.take_add_one, hk, Option.toList_some, List.filter_append,
    List.map_append, List.sum_append]
  by_cases hp : p k v <;> simp [hp]

/-- Over all the validators, the sum `get_total_balance` takes. -/
theorem max_prefixBalance_length (spec : ChainSpec) (p : Nat → Validator → Bool) :
    max (prefixBalance state p state.validators.length) spec.effectiveBalanceIncrement =
      specTotalBalance state spec p := by
  rw [prefixBalance, List.take_of_length_le (by simp), specTotalBalance, max_comm]

end Prefix

/-- What a validator's cell holds once the pass has been past it: its flags from the epoch's
participation list when it is active at the epoch and unslashed, nothing otherwise. -/
def expectedFlags (state : BeaconState) (epoch : Nat) (participation : List Nat)
    (index : Nat) : Option Nat :=
  match state.validators[index]? with
  | some v => if v.isActiveAt epoch && !v.slashed then participation[index]? else none
  | none => none

/-- Whether a validator is active at the epoch and unslashed, with the flag in its entry of the
participation list. -/
def hasParticipationFlag (epoch : Nat) (participation : List Nat) (flagIndex index : Nat)
    (v : Validator) : Bool :=
  v.isActiveAt epoch && !v.slashed && (participation[index]?.map (·.testBit flagIndex)).getD false

/-- The cells of one epoch's cache after the pass has been over the first `k` validators: the
expected flags of those, nothing for the others. -/
def cellsAfter (state : BeaconState) (epoch : Nat) (participation : List Nat) (k : Nat) :
    List (Option Nat) :=
  (List.range state.validators.length).map fun i =>
    if i < k then expectedFlags state epoch participation i else none

/-- The flag totals of one epoch's cache after the pass has been over the first `k` validators,
each read as at least one increment. -/
def flagTotalsAfter (state : BeaconState) (spec : ChainSpec) (epoch : Nat)
    (participation : List Nat) (k : Nat) : List Balance :=
  (List.range numFlagIndices).map fun f =>
    ⟨prefixBalance state (hasParticipationFlag epoch participation f) k,
      spec.effectiveBalanceIncrement⟩

/-- One epoch's cache after the pass has been over the first `k` validators: what the
specification's sets and sums are over those validators. -/
structure Tracks (state : BeaconState) (spec : ChainSpec) (epoch : Nat) (participation : List Nat)
    (k : Nat) (c : SingleEpochParticipationCache) : Prop where
  flags : c.unslashedParticipatingIndices = cellsAfter state epoch participation k
  active : c.totalActiveBalance =
    ⟨prefixBalance state (fun _ v => v.isActiveAt epoch) k, spec.effectiveBalanceIncrement⟩
  flagBalances : c.totalFlagBalances = flagTotalsAfter state spec epoch participation k

@[simp] theorem getOr_eq_ok {α : Type} {xs : List α} {index : Nat} {e : Error} {a : α} :
    getOr xs index e = .ok a ↔ xs[index]? = some a := by
  unfold getOr
  split <;> simp_all

section Pass
variable {state : BeaconState} {spec : ChainSpec} {epoch : Nat} {participation : List Nat}

theorem Tracks.zero :
    Tracks state spec epoch participation 0
      (SingleEpochParticipationCache.new state.validators.length spec.effectiveBalanceIncrement) := by
  refine ⟨?_, ?_, ?_⟩
  · simp [SingleEpochParticipationCache.new, cellsAfter, List.map_const']
  · simp [SingleEpochParticipationCache.new, prefixBalance_zero]
  · simp [SingleEpochParticipationCache.new, flagTotalsAfter, prefixBalance_zero, numFlagIndices,
      List.range_succ]

/-- The flag totals after a validator with the flags `bits`: its balance added to those of its
flags, when no addition overflows and every flag is one of the three. -/
theorem addFlagBalances_eq_ok {bits valBalance : Nat} :
    ∀ {l : List (Balance × Nat)} {l' : List Balance},
      SingleEpochParticipationCache.addFlagBalances bits valBalance l = .ok l' →
      l' = l.map fun e => if bits.testBit e.2 then ⟨e.1.raw + valBalance, e.1.minimum⟩ else e.1
  | [], l', h => by
    cases h
    rfl
  | (b, flag) :: rest, l', h => by
    -- A flag past the last fails `has_flag`; any other is a bit of `bits`.
    by_cases hf : flag ≥ numFlagIndices
    · simp [SingleEpochParticipationCache.addFlagBalances, hasFlag, hf, bind, Except.bind] at h
    · simp only [SingleEpochParticipationCache.addFlagBalances, hasFlag, if_neg hf,
        CacheRefinement.ok_bind] at h
      rw [List.map_cons]
      by_cases ht : bits.testBit flag
      · simp only [ht, ↓reduceIte] at h ⊢
        obtain ⟨b', hb', h⟩ := bind_eq_ok.mp h
        obtain ⟨rest', hrest, h⟩ := bind_eq_ok.mp h
        cases h
        -- The addition did not overflow, so it is exact.
        obtain ⟨raw, hraw, hb'⟩ := bind_eq_ok.mp hb'
        cases hb'
        unfold arith addU64 at hraw
        split_ifs at hraw
        cases hraw
        rw [addFlagBalances_eq_ok hrest]
      · simp only [ht, Bool.false_eq_true, ↓reduceIte] at h ⊢
        obtain ⟨b', hb', h⟩ := bind_eq_ok.mp h
        obtain ⟨rest', hrest, h⟩ := bind_eq_ok.mp h
        cases hb'
        cases h
        rw [addFlagBalances_eq_ok hrest]

/-- `process_active_validator`, when it returns: the validator and its participation entry
exist, it is active, its balance is added to the active total, and unless it is slashed its
flags fill its cell and its balance is added to the totals of its flags. -/
theorem processActiveValidator_eq_ok {c c' : SingleEpochParticipationCache} {k : Nat}
    (h : c.processActiveValidator k state epoch participation = .ok c') :
    ∃ v flags, state.validators[k]? = some v ∧ participation[k]? = some flags ∧
      v.isActiveAt epoch = true ∧
      c'.totalActiveBalance =
        ⟨c.totalActiveBalance.raw + v.effectiveBalance, c.totalActiveBalance.minimum⟩ ∧
      c'.unslashedParticipatingIndices =
        (if v.slashed then c.unslashedParticipatingIndices
          else c.unslashedParticipatingIndices.set k (some flags)) ∧
      c'.totalFlagBalances =
        (if v.slashed then c.totalFlagBalances
          else c.totalFlagBalances.zipIdx.map fun e =>
            if flags.testBit e.2 then ⟨e.1.raw + v.effectiveBalance, e.1.minimum⟩ else e.1) := by
  unfold SingleEpochParticipationCache.processActiveValidator at h
  obtain ⟨v, hv, h⟩ := bind_eq_ok.mp h
  rw [getOr_eq_ok] at hv
  by_cases hact : v.isActiveAt epoch = true
  · simp only [hact, Bool.not_true, Bool.false_eq_true, ↓reduceIte] at h
    obtain ⟨flags, hflags, h⟩ := bind_eq_ok.mp h
    rw [getOr_eq_ok] at hflags
    obtain ⟨total, htotal, h⟩ := bind_eq_ok.mp h
    -- The addition to the active total did not overflow.
    obtain ⟨raw, hraw, htotal⟩ := bind_eq_ok.mp htotal
    cases htotal
    unfold arith addU64 at hraw
    split_ifs at hraw
    cases hraw
    refine ⟨v, flags, hv, hflags, hact, ?_⟩
    cases hs : v.slashed with
    | true =>
      simp only [hs, ↓reduceIte] at h
      cases h
      exact ⟨rfl, rfl, rfl⟩
    | false =>
      simp only [hs, Bool.false_eq_true, ↓reduceIte] at h
      -- The cell exists: `get_mut` found it.
      split_ifs at h with hlen
      · obtain ⟨u, hu, -⟩ := bind_eq_ok.mp h
        cases hu
      · cases hb : SingleEpochParticipationCache.addFlagBalances flags v.effectiveBalance
            c.totalFlagBalances.zipIdx with
        | error e =>
          rw [hb] at h
          cases h
        | ok balances =>
          rw [hb] at h
          cases h
          exact ⟨rfl, rfl, addFlagBalances_eq_ok hb⟩
  · simp only [hact, Bool.not_false, ↓reduceIte] at h
    obtain ⟨u, hu, -⟩ := bind_eq_ok.mp h
    cases hu

section Step
variable {k : Nat} {v : Validator} (hv : state.validators[k]? = some v)
include hv

/-- A validator with nothing to cache leaves the cells as they were. -/
theorem cellsAfter_succ_of_none (he : expectedFlags state epoch participation k = none) :
    cellsAfter state epoch participation (k + 1) = cellsAfter state epoch participation k := by
  refine List.map_congr_left fun i _ => ?_
  by_cases hik : i < k
  · rw [if_pos hik, if_pos (by omega)]
  · by_cases hk : i = k
    · subst hk
      rw [if_pos (by omega), if_neg hik, he]
    · rw [if_neg (by omega), if_neg hik]

/-- A validator with flags to cache fills its own cell. -/
theorem cellsAfter_succ_of_some {x : Nat} (he : expectedFlags state epoch participation k = some x) :
    (cellsAfter state epoch participation k).set k (some x) =
      cellsAfter state epoch participation (k + 1) := by
  have hk : k < state.validators.length := (List.getElem?_eq_some_iff.mp hv).1
  refine List.ext_getElem? fun i => ?_
  rw [List.getElem?_set]
  by_cases hik : k = i
  · subst hik
    simp [cellsAfter, hk, he]
  · by_cases hi : i < state.validators.length
    · simp only [hik, ↓reduceIte, cellsAfter, List.getElem?_map, List.getElem?_range, hi,
        Option.map_some]
      split_ifs <;> first | rfl | omega
    · simp [hik, cellsAfter, hi]

/-- The flag totals stay where the validator has no flag to count. -/
theorem flagTotalsAfter_succ_of_not (hno : ∀ f, hasParticipationFlag epoch participation f k v = false) :
    flagTotalsAfter state spec epoch participation (k + 1) =
      flagTotalsAfter state spec epoch participation k := by
  refine List.map_congr_left fun f _ => ?_
  rw [prefixBalance_succ state _ hv, hno f]
  rfl

/-- An active unslashed validator adds its balance to the totals of the flags it has. -/
theorem flagTotalsAfter_succ {flags : Nat} (hact : v.isActiveAt epoch = true)
    (hs : v.slashed = false) (hflags : participation[k]? = some flags) :
    (flagTotalsAfter state spec epoch participation k).zipIdx.map (fun e =>
        if flags.testBit e.2 then ⟨e.1.raw + v.effectiveBalance, e.1.minimum⟩ else e.1) =
      flagTotalsAfter state spec epoch participation (k + 1) := by
  have hflag : ∀ f, hasParticipationFlag epoch participation f k v = flags.testBit f := by
    intro f
    simp [hasParticipationFlag, hact, hs, hflags]
  simp only [flagTotalsAfter, numFlagIndices, List.range_succ, List.range_zero, List.nil_append,
    prefixBalance_succ state _ hv, hflag]
  refine List.cons_eq_cons.mpr ⟨?_, List.cons_eq_cons.mpr ⟨?_, List.cons_eq_cons.mpr ⟨?_, rfl⟩⟩⟩ <;>
    (dsimp only; split_ifs <;> simp)

end Step

/-- One turn of the pass keeps `Tracks`, one validator further. -/
theorem Tracks.step {k : Nat} {v : Validator} {c c' : SingleEpochParticipationCache}
    (ht : Tracks state spec epoch participation k c) (hv : state.validators[k]? = some v)
    (h : (if v.isActiveAt epoch then c.processActiveValidator k state epoch participation
      else pure c) = .ok c') :
    Tracks state spec epoch participation (k + 1) c' := by
  by_cases hact : v.isActiveAt epoch = true
  · rw [if_pos hact] at h
    obtain ⟨v', flags, hv', hflags, -, hactive, hcells, htotals⟩ := processActiveValidator_eq_ok h
    rw [hv] at hv'
    cases hv'
    refine ⟨?_, ?_, ?_⟩
    · cases hs : v.slashed with
      | true =>
        rw [hcells, hs, if_pos rfl, ht.flags, cellsAfter_succ_of_none hv]
        simp [expectedFlags, hv, hs]
      | false =>
        rw [hcells, hs, if_neg Bool.false_ne_true, ht.flags, cellsAfter_succ_of_some hv]
        simp [expectedFlags, hv, hs, hact, hflags]
    · rw [hactive, ht.active, prefixBalance_succ state _ hv, if_pos hact]
    · cases hs : v.slashed with
      | true =>
        rw [htotals, hs, if_pos rfl, ht.flagBalances, flagTotalsAfter_succ_of_not hv]
        intro f
        simp [hasParticipationFlag, hs]
      | false =>
        rw [htotals, hs, if_neg Bool.false_ne_true, ht.flagBalances,
          flagTotalsAfter_succ hv hact hs hflags]
  · rw [if_neg hact] at h
    cases h
    refine ⟨?_, ?_, ?_⟩
    · rw [ht.flags, cellsAfter_succ_of_none hv]
      simp [expectedFlags, hv, hact]
    · rw [ht.active, prefixBalance_succ state _ hv, if_neg hact, Nat.add_zero]
    · rw [ht.flagBalances, flagTotalsAfter_succ_of_not hv]
      intro f
      simp [hasParticipationFlag, hact]

end Pass

section New
variable {state : BeaconState} {spec : ChainSpec}

/-- One turn of the loop of `ParticipationCache::new`, when it returns: each epoch's cache
processed the validator when it is active at that epoch, and an eligible validator's index was
pushed. -/
theorem newStep_eq_ok {current previous : SingleEpochParticipationCache} {eligible : List Nat}
    {v : Validator} {k : Nat}
    {acc : SingleEpochParticipationCache × SingleEpochParticipationCache × List Nat}
    (h : ParticipationCache.newStep state (current, previous, eligible) (v, k) = .ok acc) :
    (if v.isActiveAt state.currentEpoch then
        current.processActiveValidator k state state.currentEpoch state.currentEpochParticipation
      else pure current) = .ok acc.1 ∧
      (if v.isActiveAt state.previousEpoch then
        previous.processActiveValidator k state state.previousEpoch
          state.previousEpochParticipation
      else pure previous) = .ok acc.2.1 ∧
      acc.2.2 = if BeaconState.isEligibleValidator state.previousEpoch v then eligible ++ [k]
        else eligible := by
  unfold ParticipationCache.newStep at h
  dsimp only at h
  -- The rest of the turn stands in each branch of the two activity tests.
  by_cases hc : v.isActiveAt state.currentEpoch = true <;>
    by_cases hp : v.isActiveAt state.previousEpoch = true <;>
    simp only [hc, hp, ↓reduceIte, Bool.false_eq_true] at h ⊢ <;>
    obtain ⟨current', hcurrent, h⟩ := bind_eq_ok.mp h <;>
    obtain ⟨previous', hprevious, h⟩ := bind_eq_ok.mp h <;>
    cases h <;>
    exact ⟨hcurrent, hprevious, rfl⟩

/-- The eligible indices among the first `k` validators, pushed in order. -/
theorem filter_range_succ_specEligible {k : Nat} {v : Validator}
    (hv : state.validators[k]? = some v) :
    (List.range (k + 1)).filter (specEligible state) =
      if BeaconState.isEligibleValidator state.previousEpoch v then
        (List.range k).filter (specEligible state) ++ [k]
      else (List.range k).filter (specEligible state) := by
  have hk : specEligible state k = BeaconState.isEligibleValidator state.previousEpoch v := by
    simp [specEligible, hv]
  rw [List.range_succ, List.filter_append, List.filter_singleton, hk]
  by_cases he : BeaconState.isEligibleValidator state.previousEpoch v <;> simp [he]

/-- `ParticipationCache::new`, when it returns: each epoch's cache is, over all the validators,
what the specification's sets and sums are, and the eligible indices are those that pass
`is_eligible_validator`, in order. -/
theorem new_tracks {c : ParticipationCache} (h : ParticipationCache.new state spec = .ok c) :
    c.currentEpoch = state.currentEpoch ∧ c.previousEpoch = state.previousEpoch ∧
      Tracks state spec state.currentEpoch state.currentEpochParticipation
        state.validators.length c.currentEpochParticipation ∧
      Tracks state spec state.previousEpoch state.previousEpochParticipation
        state.validators.length c.previousEpochParticipation ∧
      c.eligibleIndices = (List.range state.validators.length).filter (specEligible state) := by
  simp only [ParticipationCache.new] at h
  obtain ⟨⟨current, previous, eligible⟩, hfold, h⟩ := bind_eq_ok.mp h
  cases h
  -- The loop's invariant after `k` validators: both caches track the first `k`, and the
  -- eligible indices are those among them.
  have hinv := Trace.foldlM_zipIdx_induction
    (fun k (acc : SingleEpochParticipationCache × SingleEpochParticipationCache × List Nat) =>
      Tracks state spec state.currentEpoch state.currentEpochParticipation k acc.1 ∧
      Tracks state spec state.previousEpoch state.previousEpochParticipation k acc.2.1 ∧
      acc.2.2 = (List.range k).filter (specEligible state))
    (ParticipationCache.newStep state) state.validators 0 _ _
    (fun k acc acc' v hv hk hstep => by
      obtain ⟨hcur, hprev, hel⟩ := hk
      obtain ⟨current, previous, eligible⟩ := acc
      obtain ⟨hc, hp, he⟩ := newStep_eq_ok hstep
      simp only [Nat.zero_add] at hc hp he hcur hprev hel ⊢
      refine ⟨hcur.step hv hc, hprev.step hv hp, ?_⟩
      rw [he, filter_range_succ_specEligible hv, hel])
    ⟨Tracks.zero, Tracks.zero, rfl⟩ hfold
  rw [Nat.zero_add] at hinv
  exact ⟨rfl, rfl, hinv⟩

end New

section Read
variable {state : BeaconState} {spec : ChainSpec} {epoch : Nat}

theorem prefixBalance_congr {p q : Nat → Validator → Bool} (k : Nat)
    (h : ∀ i v, state.validators[i]? = some v → p i v = q i v) :
    prefixBalance state p k = prefixBalance state q k := by
  unfold prefixBalance
  congr 2
  exact List.filter_congr fun e he =>
    h e.2 e.1 (List.mem_zipIdx_iff_getElem?.mp (List.mem_of_mem_take he))

theorem hasParticipationFlag_eq_spec (flagIndex : Nat) {i : Nat} {v : Validator}
    (hv : state.validators[i]? = some v) :
    hasParticipationFlag epoch (specEpochParticipation state epoch) flagIndex i v =
      specUnslashedParticipatingAt state flagIndex epoch i := by
  unfold hasParticipationFlag specUnslashedParticipatingAt
  rw [hv]
  cases (specEpochParticipation state epoch)[i]? <;> simp

/-- A cache that has been over all the validators, on the participation list the specification
reads for its epoch, answers `contains` and `total_balance` as the specification does. -/
theorem Tracks.reads {c : SingleEpochParticipationCache}
    (ht : Tracks state spec epoch (specEpochParticipation state epoch) state.validators.length c)
    {flagIndex : Nat} (hf : flagIndex < numFlagIndices) :
    (∀ index, (⟨c, flagIndex⟩ : UnslashedParticipatingIndices).contains index = .ok true ↔
        specUnslashedParticipatingAt state flagIndex epoch index = true) ∧
      (⟨c, flagIndex⟩ : UnslashedParticipatingIndices).totalBalance =
        .ok (specTotalBalance state spec fun index _ =>
          specUnslashedParticipatingAt state flagIndex epoch index) := by
  refine ⟨fun i => ?_, ?_⟩
  · simp only [UnslashedParticipatingIndices.contains, SingleEpochParticipationCache.hasFlag,
      ht.flags]
    rcases hvi : state.validators[i]? with _ | v
    · -- No validator, no cell.
      have hi : ¬ i < state.validators.length := by simpa using hvi
      simp [cellsAfter, hi, specUnslashedParticipatingAt]
    · have hi : i < state.validators.length := (List.getElem?_eq_some_iff.mp hvi).1
      simp only [cellsAfter, List.getElem?_map, List.getElem?_range hi, Option.map_some, if_pos hi,
        expectedFlags, hvi, specUnslashedParticipatingAt]
      cases hp : (specEpochParticipation state epoch)[i]? with
      | none => split_ifs <;> simp
      | some flags =>
        by_cases hau : (v.isActiveAt epoch && !v.slashed) = true
        · simp [hau, hasFlag, Nat.not_le.mpr hf]
        · simp only [hau, Bool.false_eq_true, ↓reduceIte]
          simp_all
  · have hget : getOr c.totalFlagBalances flagIndex (.invalidFlagIndex flagIndex) =
        .ok ⟨prefixBalance state (hasParticipationFlag epoch (specEpochParticipation state epoch)
          flagIndex) state.validators.length, spec.effectiveBalanceIncrement⟩ := by
      rw [getOr_eq_ok, ht.flagBalances, flagTotalsAfter, List.getElem?_map,
        List.getElem?_range hf, Option.map_some]
    rw [UnslashedParticipatingIndices.totalBalance, SingleEpochParticipationCache.totalFlagBalance,
      hget, ← max_prefixBalance_length,
      prefixBalance_congr _ fun i v hv => hasParticipationFlag_eq_spec flagIndex hv]
    rfl

/-- For an epoch below `2^64`, `is_eligible_validator`'s saturating addition is the
specification's. -/
theorem filter_specEligible_eq (hepoch : state.currentEpoch < 2 ^ 64) :
    (List.range state.validators.length).filter (specEligible state) = specEligibleIndices state := by
  refine List.filter_congr fun i _ => ?_
  have hadd : saturatingAddU64 state.previousEpoch 1 = state.previousEpoch + 1 := by
    unfold saturatingAddU64 maxU64 BeaconState.previousEpoch genesisEpoch
    split_ifs <;> omega
  unfold specEligible specIsEligible
  cases state.validators[i]? with
  | none => rfl
  | some v => simp [BeaconState.isEligibleValidator, hadd]

end Read

/-- What the specification says of a participation cache of a state: its eligible indices,
its answers for the previous and the current epoch and each flag, and its total active
balances. -/
structure AgreesWithSpec (state : BeaconState) (spec : ChainSpec) (c : ParticipationCache) :
    Prop where
  eligible : c.eligibleIndices = specEligibleIndices state
  participating : ∀ epoch ∈ [state.previousEpoch, state.currentEpoch],
    ∀ flagIndex < numFlagIndices, ∃ u, c.getUnslashedParticipatingIndices flagIndex epoch = .ok u ∧
      (∀ index, u.contains index = .ok true ↔
        specUnslashedParticipatingAt state flagIndex epoch index = true) ∧
      u.totalBalance = .ok (specTotalBalance state spec fun index _ =>
        specUnslashedParticipatingAt state flagIndex epoch index)
  currentActive : c.currentEpochTotalActiveBalance = specTotalActiveBalance state spec
  previousActive : c.previousEpochTotalActiveBalance =
    specTotalBalance state spec fun _ v => v.isActiveAt state.previousEpoch

/-- `ParticipationCache::new`, when it returns, agrees with the specification's direct
definitions, for every state whose epoch is a `u64`. -/
theorem participationCache_new_agrees_with_spec (state : BeaconState) (spec : ChainSpec)
    (c : ParticipationCache) (hepoch : state.currentEpoch < 2 ^ 64)
    (h : ParticipationCache.new state spec = .ok c) : AgreesWithSpec state spec c := by
  obtain ⟨hce, hpe, hcur, hprev, hel⟩ := new_tracks h
  refine ⟨hel.trans (filter_specEligible_eq hepoch), fun epoch he flagIndex hf => ?_, ?_, ?_⟩
  · -- The current epoch is looked up first, as the specification reads its list first.
    by_cases hc : epoch = state.currentEpoch
    · subst hc
      have ht : Tracks state spec state.currentEpoch
          (specEpochParticipation state state.currentEpoch) state.validators.length
          c.currentEpochParticipation := by
        rwa [specEpochParticipation, if_pos rfl]
      refine ⟨_, ?_, ht.reads hf⟩
      rw [ParticipationCache.getUnslashedParticipatingIndices, hce, if_pos rfl]
    · have hp : epoch = state.previousEpoch := by
        simp only [List.mem_cons, List.not_mem_nil, or_false] at he
        exact he.resolve_right hc
      subst hp
      have ht : Tracks state spec state.previousEpoch
          (specEpochParticipation state state.previousEpoch) state.validators.length
          c.previousEpochParticipation := by
        rwa [specEpochParticipation, if_neg hc]
      refine ⟨_, ?_, ht.reads hf⟩
      rw [ParticipationCache.getUnslashedParticipatingIndices, hce, hpe, if_neg hc, if_pos rfl]
  · rw [ParticipationCache.currentEpochTotalActiveBalance, hcur.active]
    exact max_prefixBalance_length state spec fun _ v => v.isActiveAt state.currentEpoch
  · rw [ParticipationCache.previousEpochTotalActiveBalance, hprev.active]
    exact max_prefixBalance_length state spec fun _ v => v.isActiveAt state.previousEpoch


/-- At epoch `2`, one active validator of effective balance 32 ETH, with the target and head
flags in the previous epoch and none in the current one. -/
def oneValidatorState : BeaconState :=
  { fork := .altair
    currentEpoch := 2
    finalizedCheckpointEpoch := 1
    validators := [⟨32000000000, false, 0, farFutureEpoch, farFutureEpoch⟩]
    balances := [0]
    inactivityScores := [0]
    previousEpochParticipation := [6]
    currentEpochParticipation := [0] }

/-- The participation cache of `oneValidatorState`. -/
def oneValidatorCache : ParticipationCache :=
  { currentEpoch := 2
    currentEpochParticipation :=
      ⟨[some 0], [⟨0, 1000000000⟩, ⟨0, 1000000000⟩, ⟨0, 1000000000⟩], ⟨32000000000, 1000000000⟩⟩
    previousEpoch := 1
    previousEpochParticipation :=
      ⟨[some 6], [⟨0, 1000000000⟩, ⟨32000000000, 1000000000⟩, ⟨32000000000, 1000000000⟩],
        ⟨32000000000, 1000000000⟩⟩
    eligibleIndices := [0] }

theorem participationCache_new_agrees_at_oneValidatorState :
    oneValidatorState.currentEpoch < 2 ^ 64 ∧
      ParticipationCache.new oneValidatorState mainnetSpec = .ok oneValidatorCache ∧
      AgreesWithSpec oneValidatorState mainnetSpec oneValidatorCache := by
  have hepoch : oneValidatorState.currentEpoch < 2 ^ 64 := by decide
  have hnew : ParticipationCache.new oneValidatorState mainnetSpec = .ok oneValidatorCache := rfl
  exact ⟨hepoch, hnew,
    participationCache_new_agrees_with_spec oneValidatorState mainnetSpec oneValidatorCache hepoch
      hnew⟩

end Lighthouse.EpochProcessing
