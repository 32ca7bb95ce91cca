import Lighthouse.OperationPool.MaxCoverRuns
import Lighthouse.Foundations.Tally

/-! `AttMaxCover`, the max-cover instance with which the operation pool packs attestations into a
block: an attestation and the proposer reward of each of its validators not yet covered
(`fresh_validators_rewards`). Its update drops the validators covered by the taken attestation,
but only from attestations of the same slot and committee index; its score is the sum of the
rewards left.

The update removes the taken item's validators from the attestations of its committee
(`removes_attMaxCover`), so `maximum_cover` over attestations whose committees share no validator
takes attestations that reward pairwise disjoint validators, together all the validators their
input attestations rewarded. Where every reward is the validator's reward under one function `w`
(`Priced`), the score is the weight of the validators covered, and the greedy bound applies
(`attMaxCover_approx`), through the instance over priced attestations (`pricedMaxCover`).

How the rewards are computed (`AttMaxCover::new`, `new_for_base`, `new_for_altair`) is left out:
the map is the input. The `u64` sum of the score is read without overflow. -/
namespace Lighthouse.OperationPool
open Lighthouse.MaxCoverage Lighthouse.Tally

theorem nodupKeys_filter (p : ℕ → Bool) (m : AList fun _ : ℕ => ℕ) :
    (m.entries.filter fun e => p e.1).NodupKeys :=
  m.nodupKeys.sublist List.filter_sublist

/-- `HashMap::retain`, by key. -/
def retain (p : ℕ → Bool) (m : AList fun _ : ℕ => ℕ) : AList fun _ : ℕ => ℕ :=
  ⟨m.entries.filter fun e => p e.1, nodupKeys_filter p m⟩

theorem keys_retain (p : ℕ → Bool) (m : AList fun _ : ℕ => ℕ) :
    (retain p m).keys = m.keys.filter p := by
  simp only [retain, AList.keys, List.keys, List.filter_map]
  rfl

/-- `AttMaxCover`: an attestation and the reward of each validator it may still cover. -/
structure AttMaxCover (α : Type*) where
  att : α
  freshValidatorsRewards : AList fun _ : ℕ => ℕ

namespace AttMaxCover
variable {α : Type*} (slot index : α → ℕ)

/-- The `MaxCover` implementation of `AttMaxCover`, over the slot and committee index of the
attestation's data. -/
def maxCover : MaxCover (AttMaxCover α) α (AList fun _ : ℕ => ℕ) where
  object a := a.att
  coveringSet a := a.freshValidatorsRewards
  updateCoveringSet a bestAtt coveredValidators :=
    if slot a.att = slot bestAtt ∧ index a.att = index bestAtt then
      ⟨a.att, retain (fun k => !decide (k ∈ coveredValidators)) a.freshValidatorsRewards⟩
    else a
  score a := tally a.freshValidatorsRewards id

/-- The validators an `AttMaxCover` still covers. -/
def validators (a : AttMaxCover α) : Finset ℕ := a.freshValidatorsRewards.keys.toFinset

/-- Attestations of one slot and committee index. -/
def SameCommittee (bestAtt att : α) : Prop := slot att = slot bestAtt ∧ index att = index bestAtt

variable {slot index}

theorem object_update (a : AttMaxCover α) (o : α) (s : AList fun _ : ℕ => ℕ) :
    (maxCover slot index).object ((maxCover slot index).updateCoveringSet a o s) =
      (maxCover slot index).object a := by
  simp only [maxCover]
  split <;> rfl

theorem validators_retain (a b : AttMaxCover α) :
    validators ⟨a.att, retain (fun k => !decide (k ∈ b.freshValidatorsRewards))
      a.freshValidatorsRewards⟩ = validators a \ validators b := by
  ext k
  simp [validators, keys_retain, AList.mem_keys]

/-- The update removes the taken attestation's validators from the attestations of its
committee and leaves the others. -/
theorem removes_attMaxCover :
    (maxCover slot index).Removes (SameCommittee slot index) validators where
  object_update := object_update
  cov_update_of_rel a b h := by
    simp only [maxCover, SameCommittee] at h ⊢
    rw [if_pos h]
    exact validators_retain a b
  cov_update_of_not_rel a b h := by
    simp only [maxCover, SameCommittee] at h ⊢
    rw [if_neg h]

/-- No update raises a score: it only drops validators. -/
theorem score_update_le (a : AttMaxCover α) (o : α) (s : AList fun _ : ℕ => ℕ) :
    (maxCover slot index).score ((maxCover slot index).updateCoveringSet a o s) ≤
      (maxCover slot index).score a := by
  simp only [maxCover]
  split
  · exact List.Sublist.sum_le_sum (List.filter_sublist.map _) fun _ _ => Nat.zero_le _
  · exact le_rfl

/-! Attestations priced by one reward function. -/

/-- Every validator's reward in the map is its reward under `w`. -/
def Priced (w : ℕ → ℕ) (a : AttMaxCover α) : Prop :=
  ∀ e ∈ a.freshValidatorsRewards.entries, e.2 = w e.1

theorem Priced.update {w : ℕ → ℕ} {a : AttMaxCover α} (h : Priced w a) (o : α)
    (s : AList fun _ : ℕ => ℕ) : Priced w ((maxCover slot index).updateCoveringSet a o s) := by
  simp only [maxCover]
  split
  · intro e he
    exact h e (List.mem_of_mem_filter he)
  · exact h

/-- For priced attestations the score is the weight of the validators covered. -/
theorem score_eq_weight {w : ℕ → ℕ} {a : AttMaxCover α} (h : Priced w a) :
    tally a.freshValidatorsRewards id = weight w (validators a) := by
  have hmap : a.freshValidatorsRewards.entries.map (fun e => e.2) =
      a.freshValidatorsRewards.entries.map fun e => w e.1 := List.map_congr_left h
  simp only [tally, id, validators, weight]
  rw [List.sum_toFinset _ a.freshValidatorsRewards.keys_nodup, hmap]
  simp only [AList.keys, List.keys, List.map_map]
  rfl

variable (slot index) in
/-- The max-cover instance of the attestations priced by `w`. -/
def pricedMaxCover (w : ℕ → ℕ) :
    MaxCover { a : AttMaxCover α // Priced w a } α (AList fun _ : ℕ => ℕ) where
  object a := a.1.att
  coveringSet a := a.1.freshValidatorsRewards
  updateCoveringSet a o s := ⟨(maxCover slot index).updateCoveringSet a.1 o s, a.2.update o s⟩
  score a := (maxCover slot index).score a.1

theorem hom_pricedMaxCover (w : ℕ → ℕ) :
    MaxCover.Hom (pricedMaxCover slot index w) (maxCover slot index) Subtype.val :=
  ⟨fun _ => rfl, fun _ => rfl, fun _ => rfl, fun _ _ _ => rfl⟩

/-- The priced attestations of a list, each with its pricing. -/
def priceAll {w : ℕ → ℕ} (items : List (AttMaxCover α)) (h : ∀ a ∈ items, Priced w a) :
    List { a : AttMaxCover α // Priced w a } :=
  items.attach.map fun a => ⟨a.1, h a.1 a.2⟩

theorem map_val_priceAll {w : ℕ → ℕ} (items : List (AttMaxCover α))
    (h : ∀ a ∈ items, Priced w a) : (priceAll items h).map Subtype.val = items := by
  simp [priceAll]

theorem mem_priceAll {w : ℕ → ℕ} {items : List (AttMaxCover α)} {h : ∀ a ∈ items, Priced w a}
    {a : { a : AttMaxCover α // Priced w a }} : a ∈ priceAll items h ↔ a.1 ∈ items := by
  constructor
  · intro ha
    rw [← map_val_priceAll items h]
    exact List.mem_map_of_mem ha
  · intro ha
    exact List.mem_map.mpr ⟨⟨a.1, ha⟩, List.mem_attach _ _, rfl⟩

/-! What `maximum_cover` packs. -/

/-- `maximum_cover` packs attestations in non-increasing order of score. -/
theorem attMaxCover_sorted (items : List (AttMaxCover α)) (limit : ℕ) :
    ((maxCover slot index).maximumCover items limit).Pairwise fun a b =>
      (maxCover slot index).score b ≤ (maxCover slot index).score a :=
  MaxCover.maximumCover_sorted score_update_le items limit

/-- Over attestations whose committees share no validator, `maximum_cover` packs distinct input
attestations, as updated when taken: they reward pairwise disjoint validators, together all the
validators their input attestations rewarded. -/
theorem attMaxCover_disjoint {items : List (AttMaxCover α)}
    (hsep : (maxCover slot index).Separated (SameCommittee slot index) validators items)
    (limit : ℕ) :
    ∃ sel : List (AttMaxCover α), sel.Subperm items ∧
      ((maxCover slot index).maximumCover items limit).map AttMaxCover.att =
        sel.map AttMaxCover.att ∧
      ((maxCover slot index).maximumCover items limit).Pairwise
        (fun a b => Disjoint (validators a) (validators b)) ∧
      unionOf validators ((maxCover slot index).maximumCover items limit) = unionOf validators sel :=
  MaxCover.maximumCover_disjoint removes_attMaxCover hsep limit

theorem attMaxCover_disjoint_at_two_committees :
    (maxCover (α := ℕ × ℕ) Prod.fst Prod.snd).Separated (SameCommittee Prod.fst Prod.snd) validators
        [⟨(0, 0), (∅ : AList fun _ : ℕ => ℕ).insert 1 5⟩, ⟨(0, 1), (∅ : AList fun _ : ℕ => ℕ).insert 2 5⟩] ∧
      ∃ sel : List (AttMaxCover (ℕ × ℕ)), sel.Subperm [⟨(0, 0), (∅ : AList fun _ : ℕ => ℕ).insert 1 5⟩, ⟨(0, 1), (∅ : AList fun _ : ℕ => ℕ).insert 2 5⟩] ∧
        ((maxCover Prod.fst Prod.snd).maximumCover [⟨(0, 0), (∅ : AList fun _ : ℕ => ℕ).insert 1 5⟩, ⟨(0, 1), (∅ : AList fun _ : ℕ => ℕ).insert 2 5⟩] 2).map AttMaxCover.att =
          sel.map AttMaxCover.att ∧
        ((maxCover Prod.fst Prod.snd).maximumCover [⟨(0, 0), (∅ : AList fun _ : ℕ => ℕ).insert 1 5⟩, ⟨(0, 1), (∅ : AList fun _ : ℕ => ℕ).insert 2 5⟩] 2).Pairwise
          (fun a b => Disjoint (validators a) (validators b)) ∧
        unionOf validators ((maxCover Prod.fst Prod.snd).maximumCover [⟨(0, 0), (∅ : AList fun _ : ℕ => ℕ).insert 1 5⟩, ⟨(0, 1), (∅ : AList fun _ : ℕ => ℕ).insert 2 5⟩] 2) =
          unionOf validators sel := by
  have hsep : (maxCover (α := ℕ × ℕ) Prod.fst Prod.snd).Separated (SameCommittee Prod.fst Prod.snd)
      validators [⟨(0, 0), (∅ : AList fun _ : ℕ => ℕ).insert 1 5⟩, ⟨(0, 1), (∅ : AList fun _ : ℕ => ℕ).insert 2 5⟩] := by
    unfold MaxCover.Separated SameCommittee
    decide
  exact ⟨hsep, attMaxCover_disjoint hsep 2⟩

/-- The greedy bound for attestations: where every reward is the validator's reward under one
function `w` and attestations of different committees reward disjoint validators, the
attestations `maximum_cover` packs with limit `k` reward in total at least `1 - (1 - 1/k) ^ k`
of what any `k` input attestations reward together. -/
theorem attMaxCover_approx {w : ℕ → ℕ} {items : List (AttMaxCover α)}
    (hpriced : ∀ a ∈ items, Priced w a)
    (hsep : (maxCover slot index).Separated (SameCommittee slot index) validators items)
    {k : ℕ} {opt : List (AttMaxCover α)} (hopt : ∀ o ∈ opt, o ∈ items) (hlen : opt.length ≤ k) :
    (1 - (1 - 1 / (k : ℚ)) ^ k) * weight w (unionOf validators opt) ≤
      ((((maxCover slot index).maximumCover items k).map (maxCover slot index).score).sum : ℚ) := by
  have hpriced' : ∀ o ∈ opt, Priced w o := fun o ho => hpriced o (hopt o ho)
  have hf : MaxCover.Hom (pricedMaxCover slot index w) (maxCover slot index) Subtype.val :=
    hom_pricedMaxCover w
  -- the bound over the priced attestations
  have hsep' : (pricedMaxCover slot index w).Separated (SameCommittee slot index)
      (fun a => validators a.1) (priceAll items hpriced) :=
    fun a ha b hb hr => hsep a.1 (mem_priceAll.mp ha) b.1 (mem_priceAll.mp hb) hr
  have hopt' : ∀ o ∈ priceAll opt hpriced', o ∈ priceAll items hpriced :=
    fun o ho => mem_priceAll.mpr (hopt o.1 (mem_priceAll.mp ho))
  have hbound := MaxCover.maximumCover_approx (hf.removes removes_attMaxCover)
    (fun a => score_eq_weight a.2) hsep' hopt' (by simpa [priceAll] using hlen)
  -- carried back along the map to the attestations
  have hcover : (maxCover slot index).maximumCover items k =
      ((pricedMaxCover slot index w).maximumCover (priceAll items hpriced) k).map Subtype.val := by
    rw [hf.maximumCover_map, map_val_priceAll]
  have hunion : unionOf (fun a : { a : AttMaxCover α // Priced w a } => validators a.1)
      (priceAll opt hpriced') = unionOf validators opt := by
    rw [← unionOf_map, map_val_priceAll]
  rw [hunion] at hbound
  rw [hcover, List.map_map]
  exact hbound

theorem attMaxCover_approx_at_two_committees :
    (∀ a ∈ ([⟨(0, 0), (∅ : AList fun _ : ℕ => ℕ).insert 1 5⟩, ⟨(0, 1), (∅ : AList fun _ : ℕ => ℕ).insert 2 5⟩] : List (AttMaxCover (ℕ × ℕ))), Priced (fun _ => 5) a) ∧
      (maxCover (α := ℕ × ℕ) Prod.fst Prod.snd).Separated (SameCommittee Prod.fst Prod.snd)
        validators [⟨(0, 0), (∅ : AList fun _ : ℕ => ℕ).insert 1 5⟩, ⟨(0, 1), (∅ : AList fun _ : ℕ => ℕ).insert 2 5⟩] ∧
      (1 - (1 - 1 / ((2 : ℕ) : ℚ)) ^ 2) * weight (fun _ => 5) (unionOf validators [⟨(0, 0), (∅ : AList fun _ : ℕ => ℕ).insert 1 5⟩, ⟨(0, 1), (∅ : AList fun _ : ℕ => ℕ).insert 2 5⟩]) ≤
        ((((maxCover Prod.fst Prod.snd).maximumCover [⟨(0, 0), (∅ : AList fun _ : ℕ => ℕ).insert 1 5⟩, ⟨(0, 1), (∅ : AList fun _ : ℕ => ℕ).insert 2 5⟩] 2).map
          (maxCover Prod.fst Prod.snd).score).sum : ℚ) := by
  have hpriced : ∀ a ∈ ([⟨(0, 0), (∅ : AList fun _ : ℕ => ℕ).insert 1 5⟩, ⟨(0, 1), (∅ : AList fun _ : ℕ => ℕ).insert 2 5⟩] : List (AttMaxCover (ℕ × ℕ))), Priced (fun _ => 5) a := by
    unfold Priced
    decide
  have hsep : (maxCover (α := ℕ × ℕ) Prod.fst Prod.snd).Separated (SameCommittee Prod.fst Prod.snd)
      validators [⟨(0, 0), (∅ : AList fun _ : ℕ => ℕ).insert 1 5⟩, ⟨(0, 1), (∅ : AList fun _ : ℕ => ℕ).insert 2 5⟩] := by
    unfold MaxCover.Separated SameCommittee
    decide
  exact ⟨hpriced, hsep, attMaxCover_approx hpriced hsep (fun _ ho => ho) le_rfl⟩

/-! The packing step of `get_attestations`. -/

/-- The limit of the previous epoch's cover: in a `Base` state, what is left of
`MAX_PENDING_ATTESTATIONS` after the previous epoch's pending attestations (`baseLen`), at most
`MAX_ATTESTATIONS`; otherwise `MAX_ATTESTATIONS`. -/
def prevEpochLimit (baseLen : Option ℕ) (maxPendingAttestations maxAttestations : ℕ) : ℕ :=
  match baseLen with
  | some len => min (maxPendingAttestations - len) maxAttestations
  | none => maxAttestations

variable (slot index) in
/-- The previous epoch's cover of `get_attestations`: none in the genesis epoch. -/
def prevCover (prevEpochAtt : List (AttMaxCover α)) (genesisEpoch : Bool) (prevLimit : ℕ) :
    List (AttMaxCover α) :=
  if genesisEpoch then [] else (maxCover slot index).maximumCover prevEpochAtt prevLimit

variable (slot index) in
/-- The packing step of `get_attestations`: the previous epoch's attestations packed up to its
limit, the current epoch's up to `MAX_ATTESTATIONS`, and the two covers merged by score, the
current epoch's first, cut at `MAX_ATTESTATIONS`. -/
def packAttestations (prevEpochAtt currEpochAtt : List (AttMaxCover α)) (genesisEpoch : Bool)
    (baseLen : Option ℕ) (maxPendingAttestations maxAttestations : ℕ) : List α :=
  (maxCover slot index).mergeSolutions
    ((maxCover slot index).maximumCover currEpochAtt maxAttestations)
    (prevCover slot index prevEpochAtt genesisEpoch
      (prevEpochLimit baseLen maxPendingAttestations maxAttestations))
    maxAttestations

variable (slot index) in
/-- What a cover of `maximum_cover` is: in non-increasing order of score, of nonzero scores,
and of distinct input attestations. -/
structure IsCover (items cover : List (AttMaxCover α)) : Prop where
  sorted : cover.Pairwise fun a b => (maxCover slot index).score b ≤ (maxCover slot index).score a
  score_ne_zero : ∀ a ∈ cover, (maxCover slot index).score a ≠ 0
  objects : ∃ sel : List (AttMaxCover α), sel.Subperm items ∧
    cover.map AttMaxCover.att = sel.map AttMaxCover.att

theorem isCover_maximumCover (items : List (AttMaxCover α)) (limit : ℕ) :
    IsCover slot index items ((maxCover slot index).maximumCover items limit) :=
  ⟨attMaxCover_sorted items limit, fun _ ha => MaxCover.score_ne_zero_of_mem_maximumCover ha,
    MaxCover.maximumCover_objects object_update items limit⟩

/-- The previous epoch's cover is one of its attestations, and in the genesis epoch of none. -/
theorem isCover_prevCover (prevEpochAtt : List (AttMaxCover α)) (genesisEpoch : Bool)
    (prevLimit : ℕ) :
    IsCover slot index (if genesisEpoch then [] else prevEpochAtt)
      (prevCover slot index prevEpochAtt genesisEpoch prevLimit) := by
  cases genesisEpoch
  · exact isCover_maximumCover prevEpochAtt prevLimit
  · exact ⟨List.Pairwise.nil, fun _ ha => (List.not_mem_nil ha).elim, ⟨[], List.nil_subperm, rfl⟩⟩

/-- The packing step packs at most `MAX_ATTESTATIONS` attestations, each of an attestation of
the input (as often as it is there at most, and none of the previous epoch in the genesis
epoch), of nonzero score, in non-increasing order of score. -/
theorem packAttestations_spec (prevEpochAtt currEpochAtt : List (AttMaxCover α))
    (genesisEpoch : Bool) (baseLen : Option ℕ) (maxPendingAttestations maxAttestations : ℕ) :
    ∃ merged : List (AttMaxCover α),
      packAttestations slot index prevEpochAtt currEpochAtt genesisEpoch baseLen
          maxPendingAttestations maxAttestations =
        merged.map AttMaxCover.att ∧
      merged.length ≤ maxAttestations ∧
      merged.Pairwise (fun a b => (maxCover slot index).score b ≤ (maxCover slot index).score a) ∧
      (∀ a ∈ merged, (maxCover slot index).score a ≠ 0) ∧
      (merged.map AttMaxCover.att).Subperm
        ((currEpochAtt ++ if genesisEpoch then [] else prevEpochAtt).map AttMaxCover.att) := by
  have hc : IsCover slot index currEpochAtt _ := isCover_maximumCover currEpochAtt maxAttestations
  have hp : IsCover slot index _ _ := isCover_prevCover prevEpochAtt genesisEpoch
    (prevEpochLimit baseLen maxPendingAttestations maxAttestations)
  obtain ⟨merged, hsub, hlen, hsorted, heq⟩ := MaxCover.mergeSolutions_eq hc.sorted hp.sorted
    maxAttestations
  obtain ⟨selC, hselC, hobjC⟩ := hc.objects
  obtain ⟨selP, hselP, hobjP⟩ := hp.objects
  refine ⟨merged, heq, by omega, hsorted, fun a ha => ?_, ?_⟩
  · rcases List.mem_append.mp (hsub.subset ha) with ha | ha
    · exact hc.score_ne_zero a ha
    · exact hp.score_ne_zero a ha
  · -- the merged objects are among the two covers', which are among the input's
    have hcovers := subperm_map AttMaxCover.att hsub
    rw [List.map_append, hobjC, hobjP, ← List.map_append] at hcovers
    exact hcovers.trans (subperm_map AttMaxCover.att (hselC.append hselP))

end AttMaxCover

end Lighthouse.OperationPool
