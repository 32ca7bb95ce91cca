import Lighthouse.SlashingProtection.Database
import Lighthouse.Foundations.Trace

/-! What each function of the slashing database does when it succeeds: one inversion lemma
per function, so that the safety argument never unfolds a query again. -/
namespace Lighthouse.SlashingProtection
variable {κ : Type}

/-- `a` surrounds `b`. -/
def Surrounds (a b : SignedAttestation) : Prop :=
  a.sourceEpoch < b.sourceEpoch ∧ b.targetEpoch < a.targetEpoch

/-- What `check_attestation` establishes before it answers `Valid` for `a`. -/
structure AdmitsAttestation (atts : List SignedAttestation) (a : SignedAttestation) : Prop where
  source_le_target : a.sourceEpoch ≤ a.targetEpoch
  target_fresh : ∀ d ∈ atts, d.targetEpoch ≠ a.targetEpoch
  not_surrounded : ∀ d ∈ atts, ¬ Surrounds d a
  not_surrounding : ∀ d ∈ atts, ¬ Surrounds a d
  source_lower_bound : atts ≠ [] → ∃ d ∈ atts, d.sourceEpoch ≤ a.sourceEpoch
  target_lower_bound : atts ≠ [] → ∃ d ∈ atts, d.targetEpoch < a.targetEpoch

/-- What `check_block_proposal` establishes before it answers `Valid` for `b`. -/
structure AdmitsBlock (blocks : List SignedBlock) (b : SignedBlock) : Prop where
  slot_fresh : ∀ d ∈ blocks, d.slot ≠ b.slot
  slot_lower_bound : blocks ≠ [] → ∃ d ∈ blocks, d.slot < b.slot

theorem throw_ne_ok {α : Type} {e : NotSafe κ} {a : α} :
    (throw e : Except (NotSafe κ) α) ≠ .ok a := by
  simp [throw, throwThe, MonadExceptOf.throw]

theorem pure_eq_ok {α : Type} {a b : α} : (pure a : Except (NotSafe κ) α) = .ok b ↔ a = b := by
  simp [pure, Except.pure]

@[simp] theorem getValidatorIdInTxn_eq_ok {txn : SlashingDatabase κ} {pk : κ} {u : Unit} :
    getValidatorIdInTxn txn pk = .ok u ↔ txn.validators pk = some true := by
  unfold getValidatorIdInTxn
  split <;> simp_all

@[simp] theorem toSql_eq_ok {n m : Nat} :
    (toSql n : Except (NotSafe κ) Nat) = .ok m ↔ n < 2 ^ 63 ∧ n = m := by
  unfold toSql
  split
  · simp_all
  · simp only [reduceCtorEq, false_iff, not_and]
    omega

private theorem foldl_latest_isSome (atts : List SignedAttestation) (b : SignedAttestation) :
    (atts.foldl (fun best a => match best with
      | none => some a
      | some b => if b.targetEpoch < a.targetEpoch then some a else some b) (some b)).isSome := by
  induction atts generalizing b with
  | nil => rfl
  | cons a atts ih =>
    simp only [List.foldl_cons]
    split <;> exact ih _

/-- The `LIMIT 1` query finds a row exactly when some row matches. -/
theorem latestByTarget_eq_none {atts : List SignedAttestation} :
    latestByTarget atts = none ↔ atts = [] := by
  cases atts with
  | nil => simp [latestByTarget]
  | cons a atts =>
    simp only [latestByTarget, List.foldl_cons, reduceCtorEq, iff_false]
    exact Option.isSome_iff_ne_none.mp (foldl_latest_isSome atts a)

theorem exists_le_of_min? {α : Type} {rows : List α} {f : α → Nat} {m x : Nat}
    (h : (rows.map f).min? = some m) (hx : m ≤ x) : ∃ d ∈ rows, f d ≤ x := by
  obtain ⟨hm, -⟩ := List.min?_eq_some_iff.mp h
  obtain ⟨d, hd, rfl⟩ := List.mem_map.mp hm
  exact ⟨d, hd, hx⟩

theorem le_max? {α : Type} {rows : List α} {f : α → Nat} {m : Nat}
    (h : (rows.map f).max? = some m) {d : α} (hd : d ∈ rows) : f d ≤ m :=
  (List.max?_eq_some_iff.mp h).2 _ (List.mem_map_of_mem hd)

theorem checkTargetLowerBound_eq_ok {t : Nat} {atts : List SignedAttestation} {safe : Safe}
    (h : (checkAttestation.checkTargetLowerBound t atts : Except (NotSafe κ) Safe) = .ok safe) :
    safe = .valid ∧ (atts ≠ [] → ∃ d ∈ atts, d.targetEpoch < t) := by
  unfold checkAttestation.checkTargetLowerBound at h
  split at h
  · rename_i m hm
    split at h
    · exact absurd h throw_ne_ok
    · refine ⟨(pure_eq_ok.mp h).symm, fun _ => ?_⟩
      obtain ⟨d, hd, hle⟩ := exists_le_of_min? hm (show m ≤ t - 1 by omega)
      exact ⟨d, hd, by omega⟩
  · rename_i hm
    refine ⟨(pure_eq_ok.mp h).symm, fun hne => ?_⟩
    simp_all

/-- `check_attestation` answers `SameData` only for an attestation stored at the same target
with an equal signing root, and `Valid` only when every check passed. -/
theorem checkAttestation_eq_ok {txn : SlashingDatabase κ} {pk : κ} {s t : Nat}
    {r : SigningRoot} {safe : Safe} (h : checkAttestation txn pk s t r = .ok safe) :
    txn.validators pk = some true ∧ t < 2 ^ 63 ∧
    ((safe = .sameData ∧ ∃ d ∈ txn.signedAttestations pk, d.targetEpoch = t ∧
        d.signingRoot.eq r = true) ∨
      (safe = .valid ∧ AdmitsAttestation (txn.signedAttestations pk) ⟨s, t, r⟩)) := by
  unfold checkAttestation at h
  simp only [bind, Except.bind] at h
  split at h
  · exact absurd h throw_ne_ok
  rename_i hst
  split at h
  · simp at h
  rename_i u hv
  simp only [getValidatorIdInTxn_eq_ok] at hv
  split at h
  · simp at h
  rename_i t' ht
  obtain ⟨hlt, rfl⟩ := toSql_eq_ok.mp ht
  refine ⟨hv, hlt, ?_⟩
  split at h
  · -- A stored attestation at the same target: only an equal signing root is accepted.
    rename_i d hd
    split at h
    · rename_i heq
      refine .inl ⟨(pure_eq_ok.mp h).symm, d, List.mem_of_find?_eq_some hd, ?_, heq⟩
      simpa using List.find?_some hd
    · exact absurd h throw_ne_ok
  rename_i hfresh
  split at h
  · simp at h
  rename_i s' hs
  obtain ⟨-, rfl⟩ := toSql_eq_ok.mp hs
  split at h
  · exact absurd h throw_ne_ok
  rename_i hsurrounded
  split at h
  · exact absurd h throw_ne_ok
  rename_i hsurrounding
  have hbound : (checkAttestation.checkTargetLowerBound t (txn.signedAttestations pk) :
      Except (NotSafe κ) Safe) = .ok safe ∧
      (txn.signedAttestations pk ≠ [] → ∃ d ∈ txn.signedAttestations pk, d.sourceEpoch ≤ s) := by
    split at h
    · rename_i m hm
      split at h
      · exact absurd h throw_ne_ok
      · exact ⟨h, fun _ => exists_le_of_min? hm (by omega)⟩
    · rename_i hm
      exact ⟨h, fun hne => by simp_all⟩
  obtain ⟨hvalid, htarget⟩ := checkTargetLowerBound_eq_ok hbound.1
  refine .inr ⟨hvalid, ⟨by dsimp only; omega, ?_, ?_, ?_, hbound.2, htarget⟩⟩
  · simpa using hfresh
  · simpa [latestByTarget_eq_none, Surrounds] using hsurrounded
  · simpa [latestByTarget_eq_none, Surrounds] using hsurrounding

/-- `check_block_proposal` answers `SameData` only for a block stored at the same slot with an
equal signing root, and `Valid` only for a fresh slot above the lowest one stored. -/
theorem checkBlockProposal_eq_ok {txn : SlashingDatabase κ} {pk : κ} {slot : Nat}
    {r : SigningRoot} {safe : Safe} (h : checkBlockProposal txn pk slot r = .ok safe) :
    txn.validators pk = some true ∧ slot < 2 ^ 63 ∧
    ((safe = .sameData ∧ ∃ d ∈ txn.signedBlocks pk, d.slot = slot ∧ d.signingRoot.eq r = true) ∨
      (safe = .valid ∧ AdmitsBlock (txn.signedBlocks pk) ⟨slot, r⟩)) := by
  unfold checkBlockProposal at h
  simp only [bind, Except.bind] at h
  split at h
  · simp at h
  rename_i u hv
  simp only [getValidatorIdInTxn_eq_ok] at hv
  split at h
  · simp at h
  rename_i slot' hs
  obtain ⟨hlt, rfl⟩ := toSql_eq_ok.mp hs
  refine ⟨hv, hlt, ?_⟩
  split at h
  · rename_i d hd
    split at h
    · rename_i heq
      refine .inl ⟨(pure_eq_ok.mp h).symm, d, List.mem_of_find?_eq_some hd, ?_, heq⟩
      simpa using List.find?_some hd
    · exact absurd h throw_ne_ok
  rename_i hfresh
  have hfresh' : ∀ d ∈ txn.signedBlocks pk, d.slot ≠ slot := by simpa using hfresh
  split at h
  · rename_i m hm
    split at h
    · exact absurd h throw_ne_ok
    · refine .inr ⟨(pure_eq_ok.mp h).symm, hfresh', fun _ => ?_⟩
      obtain ⟨d, hd, hle⟩ := exists_le_of_min? hm (show m ≤ slot - 1 by omega)
      exact ⟨d, hd, by dsimp only; omega⟩
  · rename_i hm
    exact .inr ⟨(pure_eq_ok.mp h).symm, hfresh', fun hne => by simp_all⟩

section Queries
variable [DecidableEq κ]

theorem insertBlockProposal_eq_ok {txn txn' : SlashingDatabase κ} {pk : κ} {slot : Nat}
    {r : SigningRoot} (h : insertBlockProposal txn pk slot r = .ok txn') :
    txn' = txn.setSignedBlocks pk (txn.signedBlocks pk ++ [⟨slot, r⟩]) := by
  unfold insertBlockProposal at h
  simp only [bind, Except.bind] at h
  split at h
  · simp at h
  split at h
  · simp at h
  split at h
  · exact absurd h throw_ne_ok
  · exact (pure_eq_ok.mp h).symm

theorem insertAttestation_eq_ok {txn txn' : SlashingDatabase κ} {pk : κ} {s t : Nat}
    {r : SigningRoot} (h : insertAttestation txn pk s t r = .ok txn') :
    txn' = txn.setSignedAttestations pk (txn.signedAttestations pk ++ [⟨s, t, r⟩]) := by
  unfold insertAttestation at h
  simp only [bind, Except.bind] at h
  split at h
  · simp at h
  split at h
  · simp at h
  split at h
  · simp at h
  split at h
  · exact absurd h throw_ne_ok
  · exact (pure_eq_ok.mp h).symm

/-- A committed `check_and_insert_attestation_signing_root_txn` either answers `SameData` and
writes nothing, or answers `Valid` for an admitted attestation and appends it. -/
theorem checkAndInsertAttestationSigningRootTxn_eq_ok {txn txn' : SlashingDatabase κ} {pk : κ}
    {s t : Nat} {r : SigningRoot} {safe : Safe}
    (h : checkAndInsertAttestationSigningRootTxn pk s t r txn = .ok (safe, txn')) :
    (txn' = txn ∧ ∃ d ∈ txn.signedAttestations pk, d.targetEpoch = t ∧ d.signingRoot.eq r = true) ∨
      (AdmitsAttestation (txn.signedAttestations pk) ⟨s, t, r⟩ ∧
        txn' = txn.setSignedAttestations pk (txn.signedAttestations pk ++ [⟨s, t, r⟩])) := by
  unfold checkAndInsertAttestationSigningRootTxn at h
  simp only [bind, Except.bind] at h
  split at h
  · simp at h
  rename_i safe₀ hcheck
  obtain ⟨-, -, hsame | hvalid⟩ := checkAttestation_eq_ok hcheck
  · obtain ⟨rfl, hd⟩ := hsame
    simp only [ne_eq, not_true_eq_false, ↓reduceIte] at h
    exact .inl ⟨(Prod.mk.inj (pure_eq_ok.mp h)).2.symm, hd⟩
  · obtain ⟨rfl, hadm⟩ := hvalid
    simp only [ne_eq, reduceCtorEq, not_false_eq_true, ↓reduceIte] at h
    split at h
    · simp at h
    · rename_i txn₁ hins
      exact .inr ⟨hadm, (Prod.mk.inj (pure_eq_ok.mp h)).2.symm.trans (insertAttestation_eq_ok hins)⟩

/-- The block counterpart of `checkAndInsertAttestationSigningRootTxn_eq_ok`. -/
theorem checkAndInsertBlockSigningRootTxn_eq_ok {txn txn' : SlashingDatabase κ} {pk : κ}
    {slot : Nat} {r : SigningRoot} {safe : Safe}
    (h : checkAndInsertBlockSigningRootTxn pk slot r txn = .ok (safe, txn')) :
    (txn' = txn ∧ ∃ d ∈ txn.signedBlocks pk, d.slot = slot ∧ d.signingRoot.eq r = true) ∨
      (AdmitsBlock (txn.signedBlocks pk) ⟨slot, r⟩ ∧
        txn' = txn.setSignedBlocks pk (txn.signedBlocks pk ++ [⟨slot, r⟩])) := by
  unfold checkAndInsertBlockSigningRootTxn at h
  simp only [bind, Except.bind] at h
  split at h
  · simp at h
  rename_i safe₀ hcheck
  obtain ⟨-, -, hsame | hvalid⟩ := checkBlockProposal_eq_ok hcheck
  · obtain ⟨rfl, hd⟩ := hsame
    simp only [ne_eq, not_true_eq_false, ↓reduceIte] at h
    exact .inl ⟨(Prod.mk.inj (pure_eq_ok.mp h)).2.symm, hd⟩
  · obtain ⟨rfl, hadm⟩ := hvalid
    simp only [ne_eq, reduceCtorEq, not_false_eq_true, ↓reduceIte] at h
    split at h
    · simp at h
    · rename_i txn₁ hins
      exact .inr ⟨hadm, (Prod.mk.inj (pure_eq_ok.mp h)).2.symm.trans (insertBlockProposal_eq_ok hins)⟩

omit [DecidableEq κ] in
theorem commitOrRollback_eq {α : Type} {db db' : SlashingDatabase κ}
    {r : Except (NotSafe κ) (α × SlashingDatabase κ)} {res : Except (NotSafe κ) α}
    (h : commitOrRollback db r = (db', res)) :
    (∃ a, r = .ok (a, db') ∧ res = .ok a) ∨ (db' = db ∧ ∃ e, res = .error e) := by
  unfold commitOrRollback at h
  split at h
  · simp only [Prod.mk.injEq] at h
    obtain ⟨rfl, rfl⟩ := h
    exact .inl ⟨_, rfl, rfl⟩
  · simp only [Prod.mk.injEq] at h
    obtain ⟨rfl, rfl⟩ := h
    exact .inr ⟨rfl, _, rfl⟩

theorem pruneSignedBlocks_eq_ok {txn txn' : SlashingDatabase κ} {pk : κ} {newMinSlot : Nat}
    (h : pruneSignedBlocks pk newMinSlot txn = .ok txn') :
    txn' = txn.setSignedBlocks pk (prunedBlocks (txn.signedBlocks pk) newMinSlot) := by
  unfold pruneSignedBlocks at h
  simp only [bind, Except.bind] at h
  split at h
  · simp at h
  split at h
  · simp at h
  · exact (pure_eq_ok.mp h).symm

theorem pruneSignedAttestations_eq_ok {txn txn' : SlashingDatabase κ} {pk : κ} {newMinTarget : Nat}
    (h : pruneSignedAttestations pk newMinTarget txn = .ok txn') :
    txn' = txn.setSignedAttestations pk
      (prunedAttestations (txn.signedAttestations pk) newMinTarget) := by
  unfold pruneSignedAttestations at h
  simp only [bind, Except.bind] at h
  split at h
  · simp at h
  split at h
  · simp at h
  · exact (pure_eq_ok.mp h).symm

@[simp] theorem registerValidatorsInTxn_signedBlocks (pks : List κ) (txn : SlashingDatabase κ) :
    (registerValidatorsInTxn pks txn).signedBlocks = txn.signedBlocks := by
  induction pks generalizing txn with
  | nil => rfl
  | cons pk pks ih =>
    simp only [registerValidatorsInTxn, List.foldl_cons] at ih ⊢
    split <;> simp [ih]

@[simp] theorem registerValidatorsInTxn_signedAttestations (pks : List κ)
    (txn : SlashingDatabase κ) :
    (registerValidatorsInTxn pks txn).signedAttestations = txn.signedAttestations := by
  induction pks generalizing txn with
  | nil => rfl
  | cons pk pks ih =>
    simp only [registerValidatorsInTxn, List.foldl_cons] at ih ⊢
    split <;> simp [ih]

omit [DecidableEq κ] in
theorem validatorSummary_eq_ok {txn : SlashingDatabase κ} {pk : κ} {summary : ValidatorSummary}
    (h : validatorSummary txn pk = .ok summary) :
    summary.maxBlockSlot = ((txn.signedBlocks pk).map (·.slot)).max? ∧
      summary.maxAttestationSource = ((txn.signedAttestations pk).map (·.sourceEpoch)).max? ∧
      summary.maxAttestationTarget = ((txn.signedAttestations pk).map (·.targetEpoch)).max? := by
  unfold validatorSummary at h
  simp only [bind, Except.bind] at h
  split at h
  · simp at h
  · cases pure_eq_ok.mp h
    exact ⟨rfl, rfl, rfl⟩

/-- A successful block import leaves either the blocks untouched (the record has none) or
one synthetic block with the null root at the new maximum slot. -/
theorem importBlocks_eq_ok {txn txn' : SlashingDatabase κ} {pk : κ} {prev : ValidatorSummary}
    {blocks : List InterchangeBlock} (h : importBlocks pk prev blocks txn = (txn', .ok ())) :
    (blocks = [] ∧ txn' = txn) ∨ ∃ m, (blocks.map (·.slot)).max? = some m ∧
      txn' = txn.setSignedBlocks pk [⟨maxOr prev.maxBlockSlot m, default⟩] := by
  unfold importBlocks at h
  split at h
  · rename_i hm
    simp only [Prod.mk.injEq] at h
    exact .inl ⟨by simpa using hm, h.1.symm⟩
  rename_i m hm
  split at h
  · simp at h
  rename_i txn₁ hclear
  split at h
  · simp at h
  rename_i txn₂ hins
  simp only [Prod.mk.injEq] at h
  refine .inr ⟨m, hm, ?_⟩
  unfold clearSignedBlocks at hclear
  simp only [bind, Except.bind] at hclear
  split at hclear
  · simp at hclear
  cases pure_eq_ok.mp hclear
  rw [← h.1, insertBlockProposal_eq_ok hins]
  simp

theorem importAttestations_eq_ok {txn txn' : SlashingDatabase κ} {pk : κ}
    {prev : ValidatorSummary} {atts : List InterchangeAttestation}
    (h : importAttestations pk prev atts txn = (txn', .ok ())) :
    (atts = [] ∧ txn' = txn) ∨ ∃ s t, (atts.map (·.sourceEpoch)).max? = some s ∧
      (atts.map (·.targetEpoch)).max? = some t ∧
      txn' = txn.setSignedAttestations pk
        [⟨maxOr prev.maxAttestationSource s, maxOr prev.maxAttestationTarget t, default⟩] := by
  unfold importAttestations at h
  split at h
  · rename_i s t hs ht
    split at h
    · simp at h
    rename_i txn₁ hclear
    split at h
    · simp at h
    rename_i txn₂ hins
    simp only [Prod.mk.injEq] at h
    refine .inr ⟨s, t, hs, ht, ?_⟩
    unfold clearSignedAttestations at hclear
    simp only [bind, Except.bind] at hclear
    split at hclear
    · simp at hclear
    cases pure_eq_ok.mp hclear
    rw [← h.1, insertAttestation_eq_ok hins]
    simp
  · rename_i hnone
    simp only [Prod.mk.injEq] at h
    refine .inl ⟨?_, h.1.symm⟩
    cases atts with
    | nil => rfl
    | cons a atts => exact (hnone _ _ List.max?_cons' List.max?_cons').elim

/-- A successful `import_interchange_record`: registration, the summary before the import,
then the block and the attestation halves. -/
theorem importInterchangeRecord_eq_ok {txn txn' : SlashingDatabase κ}
    {record : InterchangeData κ} {summary : ValidatorSummary}
    (h : importInterchangeRecord record txn = (txn', .ok summary)) :
    ∃ prev txn₁, validatorSummary (registerValidatorsInTxn [record.pubkey] txn) record.pubkey =
        .ok prev ∧
      importBlocks record.pubkey prev record.signedBlocks
        (registerValidatorsInTxn [record.pubkey] txn) = (txn₁, .ok ()) ∧
      importAttestations record.pubkey prev record.signedAttestations txn₁ = (txn', .ok ()) := by
  unfold importInterchangeRecord at h
  simp only at h
  split at h
  · simp at h
  rename_i prev hprev
  split at h
  · simp at h
  rename_i txn₁ hblocks
  split at h
  · simp at h
  rename_i txn₂ hatts
  split at h
  · simp at h
  split at h
  · simp only [Prod.mk.injEq] at h
    rw [h.1] at hatts
    exact ⟨prev, txn₁, hprev, hblocks, hatts⟩
  · simp at h

/-- A committed batch: every record was imported. -/
theorem importRecords_cons_commit {record : InterchangeData κ} {rest : List (InterchangeData κ)}
    {txn txn' : SlashingDatabase κ} {outcomes : List (InterchangeImportOutcome κ)}
    (h : importRecords (record :: rest) txn = (txn', outcomes, true)) :
    ∃ txn₁ summary outcomes', importInterchangeRecord record txn = (txn₁, .ok summary) ∧
      importRecords rest txn₁ = (txn', outcomes', true) := by
  unfold importRecords at h
  split at h
  · rename_i txn₁ summary hrec
    split at h
    rename_i txn₂ outcomes₂ commit hrest
    simp only [Prod.mk.injEq] at h
    obtain ⟨rfl, -, rfl⟩ := h
    exact ⟨txn₁, summary, outcomes₂, hrec, hrest⟩
  · split at h
    simp at h

theorem importInterchangeInfo_eq_ok {db db' : SlashingDatabase κ} {interchange : Interchange κ}
    {genesisValidatorsRoot : Nat} {outcomes : List (InterchangeImportOutcome κ)}
    (h : importInterchangeInfo db interchange genesisValidatorsRoot = (db', .ok outcomes)) :
    importRecords interchange.data db = (db', outcomes, true) := by
  unfold importInterchangeInfo at h
  simp only at h
  split at h
  · simp at h
  split at h
  · simp at h
  split at h
  · rename_i txn outcomes' hrec
    simp only [Prod.mk.injEq, Except.ok.injEq] at h
    rw [hrec, h.1, h.2]
  · simp at h

/-- A rejected or aborted import is rolled back. -/
theorem importInterchangeInfo_eq_error {db db' : SlashingDatabase κ}
    {interchange : Interchange κ} {genesisValidatorsRoot : Nat} {e : InterchangeError κ}
    (h : importInterchangeInfo db interchange genesisValidatorsRoot = (db', .error e)) :
    db' = db := by
  unfold importInterchangeInfo at h
  simp only at h
  split at h
  · exact (Prod.mk.inj h).1.symm
  split at h
  · exact (Prod.mk.inj h).1.symm
  split at h
  · cases (Prod.mk.inj h).2
  · exact (Prod.mk.inj h).1.symm

end Queries

end Lighthouse.SlashingProtection
