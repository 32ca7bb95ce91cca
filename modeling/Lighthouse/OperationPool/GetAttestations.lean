import Lighthouse.OperationPool.AttMaxCover
import Lighthouse.OperationPool.AttestationPool

set_option linter.dupNamespace false

/-! `get_attestations`, from the attestation store to the attestations of a block. For each of
the previous and the current epoch it takes the stored attestations whose id matches the domain
of the epoch under the state's fork, of that target epoch, that pass the inclusion check and the
epoch's validity filter and that `AttMaxCover::new` prices; then it packs them
(`AttMaxCover.packAttestations`).

Over every run of the store, what it returns is a sub-multiset of the stored attestations, at
most `MAX_ATTESTATIONS` of them, each of the previous or the current epoch, passing the checks,
stored under the fork whose domain is the state's, and genuine (`getAttestations_spec`).

What the state supplies is taken as given: the epochs, the fork, the total active balance or the
error of its cache, the number of pending attestations of a `Base` state, the inclusion check
(`verify_attestation_for_block_inclusion`), and the rewards `new_for_base` and `new_for_altair`
compute. The metrics and the parallel `rayon::join` are left out. -/
namespace Lighthouse.OperationPool
open Lighthouse.TreeHash Lighthouse.Ssz

/-- `OpPoolError`, the variant `get_attestations` returns, over the `BeaconStateError` `ε`. -/
inductive OpPoolError (ε : Type) where
  | getAttestationsTotalBalanceError (e : ε)
deriving DecidableEq, Repr

/-- What `get_attestations` reads of the `BeaconState`: the previous and current epochs, the fork
(with the genesis validators root), `get_total_active_balance`, and in a `Base` state the number
of `previous_epoch_attestations`. -/
structure StateView (φ ε : Type) where
  previousEpoch : Nat
  currentEpoch : Nat
  fork : φ
  totalActiveBalance : Except ε Nat
  previousEpochAttestationsLen : Option Nat

namespace AttMaxCover

/-- `AttMaxCover::new`: the attestation with the rewards of its fresh validators, where the state
gives them (`new_for_base`, `new_for_altair`). -/
def new {α : Type} (freshValidatorsRewards : α → Option (AList fun _ : ℕ => ℕ)) (att : α) :
    Option (AttMaxCover α) :=
  (freshValidatorsRewards att).map fun rewards => ⟨att, rewards⟩

theorem map_att_filterMap_new {α : Type} (freshValidatorsRewards : α → Option (AList fun _ : ℕ => ℕ))
    (l : List α) :
    (l.filterMap (new freshValidatorsRewards)).map AttMaxCover.att =
      l.filter fun att => (freshValidatorsRewards att).isSome := by
  induction l with
  | nil => rfl
  | cons a l ih =>
    cases h : freshValidatorsRewards a with
    | none => simp [new, h, ih]
    | some r => simp [new, h, ih]

end AttMaxCover

namespace OperationPool
variable {δ σ φ ε : Type}

/-- `OperationPool::get_valid_attestations_for_epoch`. -/
def getValidAttestationsForEpoch (spec : PoolSpec δ φ) (epoch : Nat)
    (allAttestations : AList fun _ : AttestationId => List (Attestation δ σ)) (fork : φ)
    (verifyForBlockInclusion validityFilter : Attestation δ σ → Bool)
    (freshValidatorsRewards : Attestation δ σ → Option (AList fun _ : ℕ => ℕ)) :
    List (AttMaxCover (Attestation δ σ)) :=
  let domainBytes := spec.computeDomainBytes epoch fork
  ((((allAttestations.entries.filter fun entry => entry.1.domainBytesMatch domainBytes).flatMap
      fun entry => entry.2).filter fun attestation => spec.targetEpoch attestation.data == epoch).filter
    verifyForBlockInclusion |>.filter validityFilter).filterMap
      (AttMaxCover.new freshValidatorsRewards)

/-- `OperationPool::get_attestations`. -/
def getAttestations (spec : PoolSpec δ φ) (pool : OperationPool δ σ) (state : StateView φ ε)
    (prevEpochValidityFilter currEpochValidityFilter : Attestation δ σ → Bool)
    (verifyForBlockInclusion : Attestation δ σ → Bool)
    (freshValidatorsRewards : Nat → Attestation δ σ → Option (AList fun _ : ℕ => ℕ)) :
    Except (OpPoolError ε) (List (Attestation δ σ)) := do
  let totalActiveBalance ←
    state.totalActiveBalance.mapError OpPoolError.getAttestationsTotalBalanceError
  let prevEpochAtt := getValidAttestationsForEpoch spec state.previousEpoch pool.attestations
    state.fork verifyForBlockInclusion prevEpochValidityFilter
    (freshValidatorsRewards totalActiveBalance)
  let currEpochAtt := getValidAttestationsForEpoch spec state.currentEpoch pool.attestations
    state.fork verifyForBlockInclusion currEpochValidityFilter
    (freshValidatorsRewards totalActiveBalance)
  pure (AttMaxCover.packAttestations (fun a => spec.slot a.data) (fun a => spec.index a.data)
    prevEpochAtt currEpochAtt (decide (state.previousEpoch = state.currentEpoch))
    state.previousEpochAttestationsLen spec.maxPendingAttestations spec.maxAttestations)

/-- All the stored attestations, bucket after bucket. -/
def stored (pool : OperationPool δ σ) : List (Attestation δ σ) :=
  pool.attestations.entries.flatMap fun entry => entry.2

section Valid
variable (spec : PoolSpec δ φ) (epoch : Nat) (pool : OperationPool δ σ) (fork : φ)
  (verifyForBlockInclusion validityFilter : Attestation δ σ → Bool)
  (freshValidatorsRewards : Attestation δ σ → Option (AList fun _ : ℕ => ℕ))

/-- The attestations of an epoch are among the stored ones of its target epoch, in their order. -/
theorem getValidAttestationsForEpoch_sublist :
    ((getValidAttestationsForEpoch spec epoch pool.attestations fork verifyForBlockInclusion
      validityFilter freshValidatorsRewards).map AttMaxCover.att).Sublist
      (pool.stored.filter fun attestation => spec.targetEpoch attestation.data == epoch) := by
  rw [getValidAttestationsForEpoch, AttMaxCover.map_att_filterMap_new]
  refine (List.filter_sublist.trans (List.filter_sublist.trans List.filter_sublist)).trans ?_
  exact (List.filter_sublist.flatMap _).filter _

/-- Each attestation of an epoch is stored under an id matching the epoch's domain under the
fork, targets the epoch, and passes the checks. -/
theorem mem_getValidAttestationsForEpoch [DecidableEq δ] [DecidableEq σ]
    {c : AttMaxCover (Attestation δ σ)}
    (hc : c ∈ getValidAttestationsForEpoch spec epoch pool.attestations fork
      verifyForBlockInclusion validityFilter freshValidatorsRewards) :
    ∃ id atts, pool.attestations.lookup id = some atts ∧ c.att ∈ atts ∧
      id.domainBytesMatch (spec.computeDomainBytes epoch fork) = true ∧
      spec.targetEpoch c.att.data = epoch ∧ verifyForBlockInclusion c.att = true ∧
      validityFilter c.att = true := by
  obtain ⟨att, hatt, hnew⟩ := List.mem_filterMap.mp hc
  obtain ⟨rewards, -, rfl⟩ := Option.map_eq_some_iff.mp hnew
  simp only [List.mem_filter, List.mem_flatMap, beq_iff_eq] at hatt
  obtain ⟨⟨⟨⟨entry, ⟨hentry, hmatch⟩, hmem⟩, htarget⟩, hverify⟩, hvalid⟩ := hatt
  refine ⟨entry.1, entry.2, ?_, hmem, hmatch, htarget, hverify, hvalid⟩
  rw [← Option.mem_def, AList.mem_lookup_iff]
  exact hentry

end Valid

/-- Filters by two exclusive conditions pick a sub-multiset together. -/
theorem filter_append_filter_subperm {α : Type} {p q : α → Bool} (l : List α)
    (hpq : ∀ a, q a = true → p a = false) : (l.filter p ++ l.filter q).Subperm l := by
  have hq : l.filter q = (l.filter fun a => !p a).filter q := by
    rw [List.filter_filter]
    refine List.filter_congr fun a _ => ?_
    cases hqa : q a
    · simp
    · simp [hpq a hqa]
  have hsub : (l.filter p ++ l.filter q).Sublist (l.filter p ++ l.filter fun a => !p a) := by
    rw [hq]
    exact (List.Sublist.refl _).append List.filter_sublist
  exact hsub.subperm.trans (List.filter_append_perm p l).subperm

/-- What `get_attestations` returns, where the total active balance is known: the packing of the
valid attestations of the two epochs. -/
theorem eq_of_getAttestations {spec : PoolSpec δ φ} {pool : OperationPool δ σ}
    {state : StateView φ ε}
    {prevEpochValidityFilter currEpochValidityFilter verifyForBlockInclusion :
      Attestation δ σ → Bool}
    {freshValidatorsRewards : Nat → Attestation δ σ → Option (AList fun _ : ℕ => ℕ)}
    {atts : List (Attestation δ σ)}
    (hget : pool.getAttestations spec state prevEpochValidityFilter currEpochValidityFilter
      verifyForBlockInclusion freshValidatorsRewards = .ok atts) :
    ∃ totalActiveBalance, state.totalActiveBalance = .ok totalActiveBalance ∧
      atts = AttMaxCover.packAttestations (fun a => spec.slot a.data) (fun a => spec.index a.data)
        (getValidAttestationsForEpoch spec state.previousEpoch pool.attestations state.fork
          verifyForBlockInclusion prevEpochValidityFilter
          (freshValidatorsRewards totalActiveBalance))
        (getValidAttestationsForEpoch spec state.currentEpoch pool.attestations state.fork
          verifyForBlockInclusion currEpochValidityFilter
          (freshValidatorsRewards totalActiveBalance))
        (decide (state.previousEpoch = state.currentEpoch)) state.previousEpochAttestationsLen
        spec.maxPendingAttestations spec.maxAttestations := by
  cases htab : state.totalActiveBalance with
  | error e =>
    simp [getAttestations, htab, Except.mapError, bind, Except.bind] at hget
  | ok totalActiveBalance =>
    simp only [getAttestations, htab, Except.mapError, bind, Except.bind, pure, Except.pure,
      Except.ok.injEq] at hget
    exact ⟨totalActiveBalance, rfl, hget.symm⟩


/-- The valid attestations of the two epochs are together a sub-multiset of the stored ones, the
previous epoch's counted only outside the genesis epoch. -/
theorem getValidAttestations_subperm {spec : PoolSpec δ φ} (pool : OperationPool δ σ) (state : StateView φ ε)
    (prevEpochValidityFilter currEpochValidityFilter verifyForBlockInclusion :
      Attestation δ σ → Bool)
    (freshValidatorsRewards : Attestation δ σ → Option (AList fun _ : ℕ => ℕ)) :
    ((getValidAttestationsForEpoch spec state.currentEpoch pool.attestations state.fork
        verifyForBlockInclusion currEpochValidityFilter freshValidatorsRewards ++
      if decide (state.previousEpoch = state.currentEpoch) then [] else
        getValidAttestationsForEpoch spec state.previousEpoch pool.attestations state.fork
          verifyForBlockInclusion prevEpochValidityFilter freshValidatorsRewards).map
      AttMaxCover.att).Subperm pool.stored := by
  have hcurr := getValidAttestationsForEpoch_sublist spec state.currentEpoch pool state.fork
    verifyForBlockInclusion currEpochValidityFilter freshValidatorsRewards
  by_cases hg : state.previousEpoch = state.currentEpoch
  · -- the genesis epoch: the current epoch's alone
    rw [if_pos (decide_eq_true hg), List.append_nil]
    exact (hcurr.trans List.filter_sublist).subperm
  · -- two epochs, whose attestations target different epochs
    have hprev := getValidAttestationsForEpoch_sublist spec state.previousEpoch pool state.fork
      verifyForBlockInclusion prevEpochValidityFilter freshValidatorsRewards
    rw [if_neg (by simpa using hg), List.map_append]
    refine (hcurr.append hprev).subperm.trans (filter_append_filter_subperm _ fun a ha => ?_)
    rw [beq_iff_eq] at ha
    rw [ha, beq_eq_false_iff_ne]
    exact hg

end OperationPool

section Spec
variable {δ σ φ ε : Type} [DecidableEq δ] [DecidableEq σ] [AddCommMonoid σ] {spec : PoolSpec δ φ}
  {sign : Nat → δ → σ}
open OperationPool

/-- In a pool of the invariant, each valid attestation of an epoch targets it, passes the checks,
sits in the bucket of its data under a fork whose domain of the epoch is the given fork's, and is
genuine. -/
theorem PoolInv.mem_getValidAttestationsForEpoch {pool : OperationPool δ σ}
    (hinv : PoolInv spec sign pool) {epoch : Nat} {fork : φ}
    {verifyForBlockInclusion validityFilter : Attestation δ σ → Bool}
    {freshValidatorsRewards : Attestation δ σ → Option (AList fun _ : ℕ => ℕ)}
    {c : AttMaxCover (Attestation δ σ)}
    (hc : c ∈ getValidAttestationsForEpoch spec epoch pool.attestations fork
      verifyForBlockInclusion validityFilter freshValidatorsRewards) :
    spec.targetEpoch c.att.data = epoch ∧ verifyForBlockInclusion c.att = true ∧
      validityFilter c.att = true ∧
      (∃ f, (∃ atts, pool.attestations.lookup (AttestationId.fromData spec c.att.data f) =
          some atts ∧ c.att ∈ atts) ∧
        spec.computeDomainBytes (spec.targetEpoch c.att.data) f =
          spec.computeDomainBytes (spec.targetEpoch c.att.data) fork) ∧
      c.att.signature = ∑ i ∈ c.att.signers, sign i c.att.data := by
  obtain ⟨id, atts, hl, hmem, hmatch, htarget, hverify, hvalid⟩ :=
    OperationPool.mem_getValidAttestationsForEpoch spec epoch pool fork verifyForBlockInclusion validityFilter
      freshValidatorsRewards hc
  obtain ⟨⟨f, rfl⟩, hgen⟩ := (hinv _ atts hl).2 c.att hmem
  -- the id matches the epoch's domain under the fork: that is the domain it was made with
  have hdomain := (AttestationId.domainBytesMatch_fromData spec c.att.data f _).mp hmatch
  rw [htarget] at hdomain ⊢
  exact ⟨rfl, hverify, hvalid, ⟨f, ⟨atts, hl, hmem⟩, hdomain.symm⟩, hgen.signature_eq⟩

/-- `get_attestations` over every run of the store, where the SSZ encoding of the data is
injective and of one length: it returns at most `MAX_ATTESTATIONS` attestations, a
sub-multiset of the stored ones; each targets the previous epoch and passes its validity filter
or targets the current epoch and passes its own, passes the inclusion check, sits in the bucket of
its data under a fork whose domain of its epoch is the state's, and is genuine. -/
theorem getAttestations_spec
    (hlen : ∀ d₁ d₂, (spec.sszEncode d₁).length = (spec.sszEncode d₂).length)
    (hinj : Function.Injective spec.sszEncode) {pool : OperationPool δ σ}
    {live : List (Attestation δ σ × φ)} (h : Reachable spec sign pool live)
    (state : StateView φ ε)
    (prevEpochValidityFilter currEpochValidityFilter verifyForBlockInclusion :
      Attestation δ σ → Bool)
    (freshValidatorsRewards : Nat → Attestation δ σ → Option (AList fun _ : ℕ => ℕ))
    {atts : List (Attestation δ σ)}
    (hget : pool.getAttestations spec state prevEpochValidityFilter currEpochValidityFilter
      verifyForBlockInclusion freshValidatorsRewards = .ok atts) :
    atts.length ≤ spec.maxAttestations ∧ atts.Subperm pool.stored ∧
      ∀ a ∈ atts,
        (spec.targetEpoch a.data = state.previousEpoch ∧ prevEpochValidityFilter a = true ∨
          spec.targetEpoch a.data = state.currentEpoch ∧ currEpochValidityFilter a = true) ∧
        verifyForBlockInclusion a = true ∧
        (∃ fork, (∃ atts', pool.attestations.lookup (AttestationId.fromData spec a.data fork) =
            some atts' ∧ a ∈ atts') ∧
          spec.computeDomainBytes (spec.targetEpoch a.data) fork =
            spec.computeDomainBytes (spec.targetEpoch a.data) state.fork) ∧
        a.signature = ∑ i ∈ a.signers, sign i a.data := by
  have hid : ∀ {d₁ d₂ : δ} {f₁ f₂ : φ},
      AttestationId.fromData spec d₁ f₁ = AttestationId.fromData spec d₂ f₂ → d₁ = d₂ :=
    fun h => AttestationId.data_eq_of_fromData_eq hlen hinj h
  have hinv := (reachable_inv hid h).1
  obtain ⟨totalActiveBalance, -, rfl⟩ := OperationPool.eq_of_getAttestations hget
  obtain ⟨merged, heq, hmerged, -, -, hsub⟩ := @AttMaxCover.packAttestations_spec (Attestation δ σ)
    (fun a => spec.slot a.data) (fun a => spec.index a.data)
    (getValidAttestationsForEpoch spec state.previousEpoch pool.attestations state.fork
      verifyForBlockInclusion prevEpochValidityFilter (freshValidatorsRewards totalActiveBalance))
    (getValidAttestationsForEpoch spec state.currentEpoch pool.attestations state.fork
      verifyForBlockInclusion currEpochValidityFilter (freshValidatorsRewards totalActiveBalance))
    (decide (state.previousEpoch = state.currentEpoch)) state.previousEpochAttestationsLen
    spec.maxPendingAttestations spec.maxAttestations
  have hstored := hsub.trans (getValidAttestations_subperm pool state prevEpochValidityFilter
    currEpochValidityFilter verifyForBlockInclusion (freshValidatorsRewards totalActiveBalance))
  rw [heq]
  refine ⟨by rw [List.length_map]; exact hmerged, hstored, fun a ha => ?_⟩
  -- each packed attestation is a valid one of one of the two epochs
  obtain ⟨c, hc, rfl⟩ := List.mem_map.mp (hsub.subset ha)
  rcases List.mem_append.mp hc with hc | hc
  · obtain ⟨htarget, hverify, hvalid, hfork, hsig⟩ := hinv.mem_getValidAttestationsForEpoch hc
    exact ⟨.inr ⟨htarget, hvalid⟩, hverify, hfork, hsig⟩
  · have hc : c ∈ getValidAttestationsForEpoch spec state.previousEpoch pool.attestations
        state.fork verifyForBlockInclusion prevEpochValidityFilter
        (freshValidatorsRewards totalActiveBalance) := by
      by_cases hg : state.previousEpoch = state.currentEpoch
      · rw [if_pos (decide_eq_true hg)] at hc
        cases hc
      · rwa [if_neg (by simpa using hg)] at hc
    obtain ⟨htarget, hverify, hvalid, hfork, hsig⟩ := hinv.mem_getValidAttestationsForEpoch hc
    exact ⟨.inl ⟨htarget, hvalid⟩, hverify, hfork, hsig⟩

/-- A state of epoch `5`, after epoch `4`, whose total active balance is known. -/
def epochFiveState : StateView Unit Unit := ⟨4, 5, (), .ok 0, none⟩

/-- A reward of one for validator `0` of every attestation. -/
def rewardZeroOne (_ : Nat) (_ : Attestation UInt8 (Multiset (Nat × UInt8))) :
    Option (AList fun _ : ℕ => ℕ) :=
  some ((∅ : AList fun _ : ℕ => ℕ).insert 0 1)

theorem getAttestations_oneSignerPool :
    oneSignerPool.getAttestations byteSpec epochFiveState (fun _ => true) (fun _ => true)
      (fun _ => true) rewardZeroOne = .ok [oneSigner] := by
  -- the current epoch's cover is the one attestation, the previous epoch's is empty
  show Except.ok ((AttMaxCover.maxCover (fun a : Attestation UInt8 (Multiset (Nat × UInt8)) =>
      byteSpec.slot a.data) (fun a => byteSpec.index a.data)).mergeSolutions
        [⟨oneSigner, (∅ : AList fun _ : ℕ => ℕ).insert 0 1⟩] [] 2) = _
  rw [MaxCover.mergeSolutions, List.merge_right]
  rfl

theorem getAttestations_spec_at_oneSigner :
    (∀ d₁ d₂, (byteSpec.sszEncode d₁).length = (byteSpec.sszEncode d₂).length) ∧
      Function.Injective byteSpec.sszEncode ∧
      Reachable byteSpec signerPair oneSignerPool [(oneSigner, ())] ∧
      oneSignerPool.getAttestations byteSpec epochFiveState (fun _ => true) (fun _ => true)
        (fun _ => true) rewardZeroOne = .ok [oneSigner] ∧
      [oneSigner].length ≤ byteSpec.maxAttestations ∧ [oneSigner].Subperm oneSignerPool.stored ∧
      ∀ a ∈ [oneSigner],
        (byteSpec.targetEpoch a.data = epochFiveState.previousEpoch ∧ true = true ∨
          byteSpec.targetEpoch a.data = epochFiveState.currentEpoch ∧ true = true) ∧
        true = true ∧
        (∃ fork, (∃ atts', oneSignerPool.attestations.lookup
            (AttestationId.fromData byteSpec a.data fork) = some atts' ∧ a ∈ atts') ∧
          byteSpec.computeDomainBytes (byteSpec.targetEpoch a.data) fork =
            byteSpec.computeDomainBytes (byteSpec.targetEpoch a.data) epochFiveState.fork) ∧
        a.signature = ∑ i ∈ a.signers, signerPair i a.data :=
  ⟨length_sszEncode_byteSpec, injective_sszEncode_byteSpec, reachable_oneSignerPool,
    getAttestations_oneSignerPool,
    getAttestations_spec length_sszEncode_byteSpec injective_sszEncode_byteSpec
      reachable_oneSignerPool epochFiveState _ _ _ rewardZeroOne getAttestations_oneSignerPool⟩

end Spec

end Lighthouse.OperationPool
