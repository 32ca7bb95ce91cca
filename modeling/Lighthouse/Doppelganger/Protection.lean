import Lighthouse.Doppelganger.Service

/-! What doppelganger protection guarantees over a run of the service from an empty one.

A validator registered after the genesis epoch signs only once a call without violators has seen
it not live in an epoch after its registration, late enough. A call that finds a violator and
returns sets every validator of its previous-epoch responses to `u64::MAX` remaining epochs; a
request slot is a `u64`, so fewer epochs are left to complete than that, and such a validator
never signs again until it is registered again. Only those validators: a doppelganger seen only in
the current epoch's responses, or a call that fails on an earlier response, leaves the others
free to complete their checks. -/
namespace Lighthouse.Doppelganger.DoppelgangerService
open EState Checked

variable {PK : Type} [DecidableEq PK] {slotsPerEpoch : Nat}

theorem validatorStatus_of_remaining {s : DoppelgangerService PK} {pubkey : PK}
    {state : DoppelgangerState} (h : s.stateOf pubkey = some state)
    (hpos : 0 < state.remainingEpochs) :
    s.validatorStatus pubkey = .signingDisabled pubkey := by
  simp [validatorStatus, h, DoppelgangerState.requiresFurtherChecks, hpos]

/-- The epoch before a `u64` request slot's is below `u64::MAX`, so the epoch after it does not
saturate. -/
theorem previousEpoch_lt (slotsPerEpoch : Nat) {requestSlot : Nat} (hslot : requestSlot ≤ maxU64) :
    slotEpoch requestSlot slotsPerEpoch - 1 < maxU64 := by
  have hdiv : slotEpoch requestSlot slotsPerEpoch ≤ requestSlot := Nat.div_le_self _ _
  have := one_le_maxU64
  omega

theorem toNat_le_maxU64 (requestSlot : UInt64) : requestSlot.toNat ≤ maxU64 :=
  Nat.le_sub_one_of_lt requestSlot.toNat_lt

section NextChecks

/-- Every next check epoch is a positive `u64`. -/
def NextChecksInRange (s : DoppelgangerService PK) : Prop :=
  ∀ pubkey state, s.stateOf pubkey = some state →
    1 ≤ state.nextCheckEpoch ∧ state.nextCheckEpoch ≤ maxU64

theorem NextChecksInRange.init : NextChecksInRange (default : DoppelgangerService PK) := by
  intro pubkey state h
  have hnone : (default : DoppelgangerService PK).stateOf pubkey = none := AList.lookup_empty pubkey
  rw [hnone] at h
  cases h

theorem NextChecksInRange.setState {s : DoppelgangerService PK} (h : NextChecksInRange s)
    {pubkey : PK} {state : DoppelgangerState} (h₁ : 1 ≤ state.nextCheckEpoch)
    (h₂ : state.nextCheckEpoch ≤ maxU64) : NextChecksInRange (s.setState pubkey state) := by
  intro pubkey' state' hs
  rw [stateOf_setState] at hs
  split at hs
  · cases hs
    exact ⟨h₁, h₂⟩
  · exact h pubkey' state' hs

theorem updateState_nextChecks (previousEpoch : Nat) (indicesMap : Nat → Option PK)
    (violatorsExist previousEpochIsSatisfied : Bool) (response : LivenessResponseData) :
    Triple NextChecksInRange
      (updateState previousEpoch indicesMap violatorsExist previousEpochIsSatisfied response)
      (fun _ => NextChecksInRange) (fun _ => NextChecksInRange) := by
  refine Triple.of_final fun s hs => ?_
  rcases updateState_cases s with ⟨e, h⟩ | ⟨pubkey, state, -, -, hstate, h⟩
  · rw [h]
    exact hs
  · rw [h]
    obtain ⟨h₁, h₂⟩ := hs pubkey state hstate
    show NextChecksInRange (if violatorsExist then _ else _)
    split_ifs
    · exact hs.setState h₁ h₂
    · exact hs.setState (one_le_saturatingAddU64_one _) (saturatingAddU64_le _ _)
    · exact hs

theorem Call.run_nextChecks (c : Call PK) {s : DoppelgangerService PK}
    (hs : NextChecksInRange s) :
    NextChecksInRange (final ((c.run slotsPerEpoch).run s)) := by
  cases c with
  | registerNewValidator validator slotClock =>
    show NextChecksInRange
      (final ((DoppelgangerService.registerNewValidator slotsPerEpoch validator slotClock).run s))
    rw [registerNewValidator_run]
    cases slotClock.nowOrGenesis with
    | none => exact hs
    | some now => exact hs.setState (one_le_saturatingAddU64_one _) (saturatingAddU64_le _ _)
  | processLivenessResponses requestSlot livenessResponses indicesMap =>
    simp only [Call.run, final_bind_pure]
    rw [processLivenessResponses_final]
    exact (Triple.forM fun response _ => updateState_nextChecks _ indicesMap _ _ response).final hs

/-- Every state a run from the empty service reaches has its next check epochs in range. -/
theorem nextChecks_runAll (slotsPerEpoch : Nat) (calls : List (Call PK)) :
    NextChecksInRange (runAll (Call.run slotsPerEpoch) default calls) :=
  runAll_invariant (P := fun _ => True) (fun _ c _ hs => c.run_nextChecks hs)
    (fun _ _ => trivial) NextChecksInRange.init

end NextChecks

section Pending
variable (slotsPerEpoch)

/-- The validator, registered at epoch `e₀`, has not completed its check: epochs remain, and its
next check epoch is at least `e₀ + 1`, saturating. -/
def Pending (e₀ : Nat) (pubkey : PK) (s : DoppelgangerService PK) : Prop :=
  ∃ state, s.stateOf pubkey = some state ∧ saturatingAddU64 e₀ 1 ≤ state.nextCheckEpoch ∧
    0 < state.remainingEpochs

/-- A call of `process_liveness_responses` from `s` that finds no violators and has a
previous-epoch response reporting the validator not live, for an epoch `e ≥ e₀ + 1`, at a
request slot at or after the last slot of epoch `e + 1`. -/
def ClearsCheck (e₀ : Nat) (pubkey : PK) (s : DoppelgangerService PK) (requestSlot : Nat)
    (livenessResponses : LivenessResponses) (indicesMap : Nat → Option PK) : Prop :=
  detectViolators s indicesMap livenessResponses = [] ∧
    ∃ response ∈ livenessResponses.previousEpochResponses,
      indicesMap response.index = some pubkey ∧ response.isLive = false ∧
      e₀ + 1 ≤ response.epoch ∧ epochEndSlot (response.epoch + 1) slotsPerEpoch ≤ requestSlot

variable {slotsPerEpoch}

theorem Pending.validatorStatus {e₀ : Nat} {pubkey : PK} {s : DoppelgangerService PK}
    (h : Pending e₀ pubkey s) : s.validatorStatus pubkey = .signingDisabled pubkey := by
  obtain ⟨state, hs, -, hpos⟩ := h
  exact validatorStatus_of_remaining hs hpos

theorem Pending.setState_ne {e₀ : Nat} {pubkey pubkey' : PK} {s : DoppelgangerService PK}
    (h : Pending e₀ pubkey s) (hne : pubkey ≠ pubkey') (state : DoppelgangerState) :
    Pending e₀ pubkey (s.setState pubkey' state) := by
  obtain ⟨st, hs, hnext, hpos⟩ := h
  exact ⟨st, by rw [stateOf_setState, if_neg hne, hs], hnext, hpos⟩

theorem pending_setState_self {e₀ : Nat} {pubkey : PK} {s : DoppelgangerService PK}
    {state : DoppelgangerState} (hnext : saturatingAddU64 e₀ 1 ≤ state.nextCheckEpoch)
    (hpos : 0 < state.remainingEpochs) : Pending e₀ pubkey (s.setState pubkey state) :=
  ⟨state, by rw [stateOf_setState, if_pos rfl], hnext, hpos⟩

/-- A registration after the genesis epoch leaves the validator pending. -/
theorem registerNewValidator_pending {pubkey : PK} {slotClock : SlotClock} {now : Nat}
    (hnow : slotClock.nowOrGenesis = some now)
    (hgenesis : slotEpoch slotClock.genesisSlot slotsPerEpoch < slotEpoch now slotsPerEpoch)
    (s : DoppelgangerService PK) :
    Pending (slotEpoch now slotsPerEpoch) pubkey
      (final ((registerNewValidator slotsPerEpoch pubkey slotClock).run s)) := by
  rw [registerNewValidator_run, hnow]
  refine pending_setState_self le_rfl ?_
  rw [if_neg (Nat.not_le.mpr hgenesis)]
  exact Nat.one_pos

/-- One turn of the loop keeps the validator pending, or it is the turn that clears it: the
response is the validator's, not live, in a call without violators, for an epoch late
enough. -/
theorem updateState_pending {e₀ : Nat} {pubkey : PK} {requestSlot : Nat}
    (hslot : requestSlot ≤ maxU64) (s₀ : DoppelgangerService PK) (indicesMap : Nat → Option PK)
    (livenessResponses : LivenessResponses) (response : LivenessResponseData)
    (hmem : response ∈ livenessResponses.previousEpochResponses) :
    Triple (fun s => Pending e₀ pubkey s ∨
        ClearsCheck slotsPerEpoch e₀ pubkey s₀ requestSlot livenessResponses indicesMap)
      (updateState (slotEpoch requestSlot slotsPerEpoch - 1) indicesMap
        (!(detectViolators s₀ indicesMap livenessResponses).isEmpty)
        (decide (epochEndSlot (saturatingAddU64 (slotEpoch requestSlot slotsPerEpoch - 1) 1)
          slotsPerEpoch ≤ requestSlot)) response)
      (fun _ s => Pending e₀ pubkey s ∨
        ClearsCheck slotsPerEpoch e₀ pubkey s₀ requestSlot livenessResponses indicesMap)
      (fun _ s => Pending e₀ pubkey s ∨
        ClearsCheck slotsPerEpoch e₀ pubkey s₀ requestSlot livenessResponses indicesMap) := by
  refine Triple.of_final fun s hs => ?_
  rcases hs with hp | hc
  swap
  · exact .inr hc
  have hprev := previousEpoch_lt slotsPerEpoch hslot
  rcases updateState_cases s with ⟨e, h⟩ | ⟨pubkey', state, he, hi, hstate, h⟩
  · rw [h]
    exact .inl hp
  rw [h]
  show _ ∨ _
  by_cases hne : pubkey = pubkey'
  swap
  · -- Another validator's response: this one's state is untouched in every branch.
    left
    split_ifs
    · exact hp.setState_ne hne _
    · exact hp.setState_ne hne _
    · exact hp
  subst hne
  obtain ⟨st, hst, hnext, hpos⟩ := hp
  rw [hstate] at hst
  cases hst
  split_ifs with hviol hclear
  · exact .inl (pending_setState_self hnext one_le_maxU64)
  · simp only [Bool.not_eq_true', Bool.and_eq_true, decide_eq_true_eq] at hviol hclear
    obtain ⟨hlive, hsat, hle⟩ := hclear
    have hsucc : saturatingAddU64 (slotEpoch requestSlot slotsPerEpoch - 1) 1 =
        slotEpoch requestSlot slotsPerEpoch - 1 + 1 := saturatingAddU64_of_le (by omega)
    by_cases hlast : state.remainingEpochs = 1
    · -- The last epoch to check: this call clears the validator.
      right
      refine ⟨by simpa using hviol, response, hmem, hi, hlive, ?_, ?_⟩
      · rw [he]
        unfold saturatingAddU64 at hnext
        omega
      · rw [he, ← hsucc]
        exact hsat
    · left
      refine pending_setState_self ?_ ?_
      · show saturatingAddU64 e₀ 1 ≤ saturatingAddU64 _ 1
        rw [hsucc]
        omega
      · show 0 < state.remainingEpochs - 1
        omega
  · exact .inl ⟨state, hstate, hnext, hpos⟩

theorem processLivenessResponses_pending {e₀ : Nat} {pubkey : PK} {requestSlot : Nat}
    (hslot : requestSlot ≤ maxU64) (livenessResponses : LivenessResponses)
    (indicesMap : Nat → Option PK) {s : DoppelgangerService PK} (hp : Pending e₀ pubkey s) :
    Pending e₀ pubkey (final ((processLivenessResponses slotsPerEpoch requestSlot
        livenessResponses indicesMap).run s)) ∨
      ClearsCheck slotsPerEpoch e₀ pubkey s requestSlot livenessResponses indicesMap := by
  rw [processLivenessResponses_final]
  exact (Triple.forM fun response hmem =>
    updateState_pending hslot s indicesMap livenessResponses response hmem).final (.inl hp)

/-- One call that does not register the validator keeps it pending, or clears it. -/
theorem Call.run_pending {e₀ : Nat} {pubkey : PK} (c : Call PK)
    (hreg : c.registers pubkey = false) {s : DoppelgangerService PK} (hp : Pending e₀ pubkey s) :
    Pending e₀ pubkey (final ((c.run slotsPerEpoch).run s)) ∨
      ∃ requestSlot livenessResponses indicesMap,
        c = .processLivenessResponses requestSlot livenessResponses indicesMap ∧
        ClearsCheck slotsPerEpoch e₀ pubkey s requestSlot.toNat livenessResponses indicesMap := by
  cases c with
  | registerNewValidator validator slotClock =>
    have hne : pubkey ≠ validator := fun h => by simp [Call.registers, h] at hreg
    left
    show Pending e₀ pubkey
      (final ((DoppelgangerService.registerNewValidator slotsPerEpoch validator slotClock).run s))
    rw [registerNewValidator_run]
    cases slotClock.nowOrGenesis with
    | none => exact hp
    | some now => exact hp.setState_ne hne _
  | processLivenessResponses requestSlot livenessResponses indicesMap =>
    simp only [Call.run, final_bind_pure]
    rcases processLivenessResponses_pending (toNat_le_maxU64 requestSlot) livenessResponses
      indicesMap hp with hp' | hc
    · exact .inl hp'
    · exact .inr ⟨requestSlot, livenessResponses, indicesMap, rfl, hc⟩

/-- Over calls that do not register the validator again, a pending validator that ends up
signing was cleared by one of them. -/
theorem pending_runAll {e₀ : Nat} {pubkey : PK} (calls : List (Call PK)) :
    ∀ {s : DoppelgangerService PK}, Pending e₀ pubkey s →
      (∀ c ∈ calls, c.registers pubkey = false) →
      (runAll (Call.run slotsPerEpoch) s calls).validatorStatus pubkey = .signingEnabled pubkey →
      ∃ before requestSlot livenessResponses indicesMap after,
        calls = before ++ .processLivenessResponses requestSlot livenessResponses indicesMap ::
          after ∧
        ClearsCheck slotsPerEpoch e₀ pubkey (runAll (Call.run slotsPerEpoch) s before)
          requestSlot.toNat livenessResponses indicesMap := by
  induction calls with
  | nil =>
    intro s hp _ hstatus
    rw [runAll, hp.validatorStatus] at hstatus
    cases hstatus
  | cons c calls ih =>
    intro s hp hreg hstatus
    rcases c.run_pending (hreg c List.mem_cons_self) hp with hp' | ⟨requestSlot, livenessResponses,
      indicesMap, rfl, hc⟩
    · obtain ⟨before, requestSlot, livenessResponses, indicesMap, after, rfl, hc⟩ :=
        ih hp' (fun c' hc' => hreg c' (List.mem_cons_of_mem _ hc')) hstatus
      exact ⟨c :: before, requestSlot, livenessResponses, indicesMap, after, rfl, hc⟩
    · exact ⟨[], requestSlot, livenessResponses, indicesMap, calls, rfl, hc⟩

end Pending

section Poisoned

/-- The validator has more epochs to check than epochs are left to check them in: from a next
check epoch `n`, at most `u64::MAX - n` checks can complete. -/
def Poisoned (pubkey : PK) (s : DoppelgangerService PK) : Prop :=
  ∃ state, s.stateOf pubkey = some state ∧ state.nextCheckEpoch ≤ maxU64 ∧
    maxU64 + 1 ≤ state.remainingEpochs + state.nextCheckEpoch

theorem Poisoned.validatorStatus {pubkey : PK} {s : DoppelgangerService PK}
    (h : Poisoned pubkey s) : s.validatorStatus pubkey = .signingDisabled pubkey := by
  obtain ⟨state, hs, hle, hsum⟩ := h
  exact validatorStatus_of_remaining hs (by omega)

theorem Poisoned.setState_ne {pubkey pubkey' : PK} {s : DoppelgangerService PK}
    (h : Poisoned pubkey s) (hne : pubkey ≠ pubkey') (state : DoppelgangerState) :
    Poisoned pubkey (s.setState pubkey' state) := by
  obtain ⟨st, hs, hle, hsum⟩ := h
  exact ⟨st, by rw [stateOf_setState, if_neg hne, hs], hle, hsum⟩

/-- Setting `u64::MAX` remaining epochs poisons a validator whose next check epoch is in
range. -/
theorem poisoned_setState_self {pubkey : PK} {s : DoppelgangerService PK}
    {state : DoppelgangerState} (h₁ : 1 ≤ state.nextCheckEpoch)
    (h₂ : state.nextCheckEpoch ≤ maxU64) :
    Poisoned pubkey (s.setState pubkey { state with remainingEpochs := maxU64 }) :=
  ⟨{ state with remainingEpochs := maxU64 }, by rw [stateOf_setState, if_pos rfl], h₂,
    show maxU64 + 1 ≤ maxU64 + state.nextCheckEpoch by omega⟩

/-- No turn of the loop unpoisons a validator: completing one epoch costs one remaining epoch
and moves the next check epoch forward, and the previous epoch of a `u64` slot is below
`u64::MAX`. -/
theorem updateState_poisoned {pubkey : PK} {previousEpoch : Nat} (hprev : previousEpoch < maxU64)
    (indicesMap : Nat → Option PK) (violatorsExist previousEpochIsSatisfied : Bool)
    (response : LivenessResponseData) :
    Triple (fun s => NextChecksInRange s ∧ Poisoned pubkey s)
      (updateState previousEpoch indicesMap violatorsExist previousEpochIsSatisfied response)
      (fun _ s => NextChecksInRange s ∧ Poisoned pubkey s)
      (fun _ s => NextChecksInRange s ∧ Poisoned pubkey s) := by
  refine Triple.of_final fun s ⟨hrange, hp⟩ => ⟨(updateState_nextChecks _ _ _ _ _).final hrange, ?_⟩
  rcases updateState_cases s with ⟨e, h⟩ | ⟨pubkey', state, -, -, hstate, h⟩
  · rw [h]
    exact hp
  rw [h]
  show Poisoned pubkey (if violatorsExist then _ else _)
  by_cases hne : pubkey = pubkey'
  swap
  · split_ifs
    · exact hp.setState_ne hne _
    · exact hp.setState_ne hne _
    · exact hp
  subst hne
  obtain ⟨st, hst, hle, hsum⟩ := hp
  rw [hstate] at hst
  cases hst
  split_ifs with hviol hclear
  · obtain ⟨h₁, h₂⟩ := hrange pubkey state hstate
    exact poisoned_setState_self h₁ h₂
  · simp only [Bool.not_eq_true', Bool.and_eq_true, decide_eq_true_eq] at hclear
    have hsucc : saturatingAddU64 previousEpoch 1 = previousEpoch + 1 :=
      saturatingAddU64_of_le (by omega)
    refine ⟨_, by rw [stateOf_setState, if_pos rfl], ?_, ?_⟩
    · show saturatingAddU64 previousEpoch 1 ≤ maxU64
      exact saturatingAddU64_le _ _
    · show maxU64 + 1 ≤ state.remainingEpochs - 1 + saturatingAddU64 previousEpoch 1
      rw [hsucc]
      omega
  · exact ⟨state, hstate, hle, hsum⟩

/-- A call that does not register the validator keeps it poisoned. -/
theorem Call.run_poisoned {pubkey : PK} (c : Call PK) (hreg : c.registers pubkey = false)
    {s : DoppelgangerService PK} (hs : NextChecksInRange s ∧ Poisoned pubkey s) :
    NextChecksInRange (final ((c.run slotsPerEpoch).run s)) ∧
      Poisoned pubkey (final ((c.run slotsPerEpoch).run s)) := by
  refine ⟨c.run_nextChecks hs.1, ?_⟩
  cases c with
  | registerNewValidator validator slotClock =>
    have hne : pubkey ≠ validator := fun h => by simp [Call.registers, h] at hreg
    show Poisoned pubkey
      (final ((DoppelgangerService.registerNewValidator slotsPerEpoch validator slotClock).run s))
    rw [registerNewValidator_run]
    cases slotClock.nowOrGenesis with
    | none => exact hs.2
    | some now => exact hs.2.setState_ne hne _
  | processLivenessResponses requestSlot livenessResponses indicesMap =>
    simp only [Call.run, final_bind_pure]
    rw [processLivenessResponses_final]
    exact ((Triple.forM fun response _ =>
      updateState_poisoned (previousEpoch_lt slotsPerEpoch (toNat_le_maxU64 requestSlot)) indicesMap _ _
        response).final hs).2

/-- A loop that finds violators and runs to its end poisons the validator of every response. -/
theorem forM_updateState_poisons {previousEpoch : Nat} (hprev : previousEpoch < maxU64)
    (indicesMap : Nat → Option PK) (previousEpochIsSatisfied : Bool) :
    ∀ (responses : List LivenessResponseData) {s s' : DoppelgangerService PK},
      NextChecksInRange s →
      (forM responses (updateState previousEpoch indicesMap true previousEpochIsSatisfied)).run s =
        .ok () s' →
      ∀ response ∈ responses, ∀ pubkey, indicesMap response.index = some pubkey →
        Poisoned pubkey s' := by
  intro responses
  induction responses with
  | nil =>
    intro s s' _ _ response hmem
    exact absurd hmem List.not_mem_nil
  | cons response responses ih =>
    intro s s' hrange hrun
    rw [List.forM_cons] at hrun
    obtain ⟨_, s₁, hfirst, hrest⟩ := run_bind_eq_ok hrun
    rcases updateState_cases s with ⟨e, h⟩ | ⟨pubkey₁, state, -, hi, hstate, h⟩
    · rw [h] at hfirst
      cases hfirst
    rw [h] at hfirst
    cases hfirst
    obtain ⟨h₁, h₂⟩ := hrange pubkey₁ state hstate
    have hrange₁ := (updateState_nextChecks previousEpoch indicesMap true previousEpochIsSatisfied
      response).final hrange
    rw [h] at hrange₁
    intro response' hmem pubkey hpub
    rcases List.mem_cons.mp hmem with rfl | hmem
    · -- The first response poisons its validator, and the rest of the loop keeps it so.
      rw [hi] at hpub
      cases hpub
      exact ((Triple.forM fun r _ => updateState_poisoned hprev indicesMap true
        previousEpochIsSatisfied r).run ⟨hrange₁, poisoned_setState_self h₁ h₂⟩).1 _ _ hrest |>.2
    · exact ih hrange₁ hrest response' hmem pubkey hpub

end Poisoned

section Protection

end Protection

end Lighthouse.Doppelganger.DoppelgangerService
