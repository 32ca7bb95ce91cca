import Lighthouse.SlashingProtection.Spec

/-! What one validator's stored rows must keep of the messages it signed or imported, so that
no later approval is slashable with any of them. A signed message is *guarded* by the table
when it is still stored, or when it lies below the table's lower bounds; each write the
database makes (an admitted row, a prune, the synthetic row of an import) keeps every guard. -/
namespace Lighthouse.SlashingProtection
variable {κ : Type}

/-- A double vote: the same target under signing roots that `SigningRoot`'s `PartialEq`
does not identify. -/
def DoubleVote (a b : SignedAttestation) : Prop :=
  a.targetEpoch = b.targetEpoch ∧ a.signingRoot.eq b.signingRoot = false

def Slashable (a b : SignedAttestation) : Prop :=
  DoubleVote a b ∨ Surrounds a b ∨ Surrounds b a

def DoubleProposal (a b : SignedBlock) : Prop :=
  a.slot = b.slot ∧ a.signingRoot.eq b.signingRoot = false

def AttestationGuarded (atts : List SignedAttestation) (h : SignedAttestation) : Prop :=
  h ∈ atts ∨ (atts ≠ [] ∧ ∀ d ∈ atts, h.sourceEpoch ≤ d.sourceEpoch ∧
    (h.targetEpoch < d.targetEpoch ∨ (h.targetEpoch = d.targetEpoch ∧ d.signingRoot.isNull = true)))

def BlockGuarded (blocks : List SignedBlock) (h : SignedBlock) : Prop :=
  (∃ d ∈ blocks, d.slot = h.slot ∧ (d = h ∨ d.signingRoot.isNull = true)) ∨
    (blocks ≠ [] ∧ ∀ d ∈ blocks, h.slot < d.slot)

/-- The rows of one validator's `signed_attestations`, against the attestations `hist` it
has signed or imported. `bound` says which rows carry a signing root that names their data. -/
structure AttestationTable (bound : SignedAttestation → Prop)
    (atts hist : List SignedAttestation) : Prop where
  targets_unique : atts.Pairwise fun a b => a.targetEpoch ≠ b.targetEpoch
  no_surround : ∀ a ∈ atts, ∀ b ∈ atts, ¬ Surrounds a b
  roots_bound : ∀ d ∈ atts, d.signingRoot.isNull = false → bound d
  guarded : ∀ h ∈ hist, AttestationGuarded atts h

structure BlockTable (blocks hist : List SignedBlock) : Prop where
  slots_unique : blocks.Pairwise fun a b => a.slot ≠ b.slot
  guarded : ∀ h ∈ hist, BlockGuarded blocks h

theorem not_slashable_of_le_lt {h a : SignedAttestation} (hs : h.sourceEpoch ≤ a.sourceEpoch)
    (ht : h.targetEpoch < a.targetEpoch) : ¬ Slashable h a := by
  rintro (⟨heq, -⟩ | ⟨-, hlt⟩ | ⟨hlt, -⟩) <;> omega

/-- In a list whose keys are pairwise distinct, a key names at most one element. -/
theorem eq_of_key_eq {α : Type} {f : α → Nat} {l : List α}
    (hu : l.Pairwise fun a b => f a ≠ f b) {x y : α} (hx : x ∈ l) (hy : y ∈ l)
    (hxy : f x = f y) : x = y := by
  induction l with
  | nil => cases hx
  | cons z l ih =>
    obtain ⟨hz, hl⟩ := List.pairwise_cons.mp hu
    rcases List.mem_cons.mp hx with rfl | hx' <;> rcases List.mem_cons.mp hy with rfl | hy'
    · rfl
    · exact absurd hxy (hz y hy')
    · exact absurd hxy.symm (hz x hx')
    · exact ih hl hx' hy'

/-! ## Attestations -/

/-- Below the lower bounds, an attestation is older in source and strictly older in target
than any attestation that `check_attestation` admits. -/
theorem AttestationGuarded.lt_of_admits {atts : List SignedAttestation} {h a : SignedAttestation}
    (hne : atts ≠ [])
    (hle : ∀ d ∈ atts, h.sourceEpoch ≤ d.sourceEpoch ∧ h.targetEpoch ≤ d.targetEpoch)
    (ha : AdmitsAttestation atts a) :
    h.sourceEpoch ≤ a.sourceEpoch ∧ h.targetEpoch < a.targetEpoch := by
  obtain ⟨d, hd, hds⟩ := ha.source_lower_bound hne
  obtain ⟨d', hd', hdt⟩ := ha.target_lower_bound hne
  have h₁ := (hle d hd).1
  have h₂ := (hle d' hd').2
  omega

theorem AttestationGuarded.le {atts : List SignedAttestation} {h : SignedAttestation}
    (hg : atts ≠ [] ∧ ∀ d ∈ atts, h.sourceEpoch ≤ d.sourceEpoch ∧
      (h.targetEpoch < d.targetEpoch ∨
        (h.targetEpoch = d.targetEpoch ∧ d.signingRoot.isNull = true))) :
    ∀ d ∈ atts, h.sourceEpoch ≤ d.sourceEpoch ∧ h.targetEpoch ≤ d.targetEpoch := by
  intro d hd
  obtain ⟨hs, ht | ⟨ht, -⟩⟩ := hg.2 d hd
  · exact ⟨hs, by omega⟩
  · exact ⟨hs, by omega⟩

/-- A guarded attestation is not slashable with one that `check_attestation` admits. -/
theorem AttestationGuarded.not_slashable {atts : List SignedAttestation} {h a : SignedAttestation}
    (hg : AttestationGuarded atts h) (ha : AdmitsAttestation atts a) : ¬ Slashable h a := by
  rcases hg with hmem | hlow
  · rintro (⟨heq, -⟩ | hsur | hsur)
    · exact ha.target_fresh h hmem heq
    · exact ha.not_surrounded h hmem hsur
    · exact ha.not_surrounding h hmem hsur
  · obtain ⟨hs, ht⟩ := AttestationGuarded.lt_of_admits hlow.1 (AttestationGuarded.le hlow) ha
    exact not_slashable_of_le_lt hs ht

theorem AttestationGuarded.append {atts : List SignedAttestation} {h a : SignedAttestation}
    (hg : AttestationGuarded atts h) (ha : AdmitsAttestation atts a) :
    AttestationGuarded (atts ++ [a]) h := by
  rcases hg with hmem | hlow
  · exact .inl (List.mem_append_left _ hmem)
  · obtain ⟨hs, ht⟩ := AttestationGuarded.lt_of_admits hlow.1 (AttestationGuarded.le hlow) ha
    refine .inr ⟨by simp, fun d hd => ?_⟩
    rcases List.mem_append.mp hd with hd | hd
    · exact hlow.2 d hd
    · rw [List.mem_singleton.mp hd]
      exact ⟨hs, .inl ht⟩

/-- Appending an admitted attestation keeps the table, and the new attestation is not
slashable with anything signed before. -/
theorem AttestationTable.insert {bound : SignedAttestation → Prop} {atts hist : List SignedAttestation}
    {a : SignedAttestation} (ht : AttestationTable bound atts hist)
    (ha : AdmitsAttestation atts a) (hb : a.signingRoot.isNull = false → bound a) :
    AttestationTable bound (atts ++ [a]) (hist ++ [a]) ∧ ∀ h ∈ hist, ¬ Slashable h a := by
  refine ⟨⟨?_, ?_, ?_, ?_⟩, fun h hh => (ht.guarded h hh).not_slashable ha⟩
  · refine List.pairwise_append.mpr ⟨ht.targets_unique, by simp, ?_⟩
    intro d hd a' ha'
    rw [List.mem_singleton.mp ha']
    exact ha.target_fresh d hd
  · intro x hx y hy
    rcases List.mem_append.mp hx with hx | hx <;> rcases List.mem_append.mp hy with hy | hy
    · exact ht.no_surround x hx y hy
    · rw [List.mem_singleton.mp hy]; exact ha.not_surrounded x hx
    · rw [List.mem_singleton.mp hx]; exact ha.not_surrounding y hy
    · rw [List.mem_singleton.mp hx, List.mem_singleton.mp hy]
      rintro ⟨hlt, -⟩; omega
  · intro d hd hnull
    rcases List.mem_append.mp hd with hd | hd
    · exact ht.roots_bound d hd hnull
    · rw [List.mem_singleton.mp hd] at hnull ⊢; exact hb hnull
  · intro h hh
    rcases List.mem_append.mp hh with hh | hh
    · exact (ht.guarded h hh).append ha
    · rw [List.mem_singleton.mp hh]
      exact .inl (List.mem_append_right _ (List.mem_singleton_self a))

/-- A `SameData` answer repeats a stored attestation: when signing roots name their data, the
new attestation is that row, and it is not slashable with anything signed before. -/
theorem AttestationTable.sameData {bound : SignedAttestation → Prop}
    {atts hist : List SignedAttestation} {a d : SignedAttestation}
    (ht : AttestationTable bound atts hist)
    (hbind : ∀ x y, bound x → bound y → x.signingRoot.eq y.signingRoot = true →
      x.sourceEpoch = y.sourceEpoch ∧ x.targetEpoch = y.targetEpoch)
    (hd : d ∈ atts) (hdt : d.targetEpoch = a.targetEpoch) (hdr : d.signingRoot.eq a.signingRoot = true)
    (hba : bound a) :
    AttestationTable bound atts (hist ++ [a]) ∧ ∀ h ∈ hist, ¬ Slashable h a := by
  obtain ⟨hnull, hroot⟩ := SigningRoot.eq_iff.mp hdr
  have hda : d = a := by
    obtain ⟨hs, -⟩ := hbind d a (ht.roots_bound d hd hnull) hba hdr
    cases d; cases a
    simp_all
  subst hda
  refine ⟨{ ht with guarded := ?_ }, fun h hh => ?_⟩
  · intro h hh
    rcases List.mem_append.mp hh with hh | hh
    · exact ht.guarded h hh
    · rw [List.mem_singleton.mp hh]; exact .inl hd
  · rcases ht.guarded h hh with hmem | hlow
    · by_cases hhd : h = d
      · subst hhd
        rintro (⟨-, hne⟩ | ⟨hlt, -⟩ | ⟨hlt, -⟩)
        · rw [hdr] at hne; cases hne
        · omega
        · omega
      · rintro (⟨heq, -⟩ | hsur | hsur)
        · exact hhd (eq_of_key_eq ht.targets_unique hmem hd heq)
        · exact ht.no_surround h hmem d hd hsur
        · exact ht.no_surround d hd h hmem hsur
    · obtain ⟨hs, hlt | ⟨-, hnull'⟩⟩ := hlow.2 d hd
      · exact not_slashable_of_le_lt hs hlt
      · rw [hnull] at hnull'; cases hnull'

theorem sqlLt_eq_true {x : Nat} {y : Option Nat} : sqlLt x y = true ↔ ∃ m, y = some m ∧ x < m := by
  cases y <;> simp [sqlLt]

theorem prunedAttestations_ne_nil {atts : List SignedAttestation} (hne : atts ≠ []) (m : Nat) :
    prunedAttestations atts m ≠ [] := by
  obtain ⟨M, hM⟩ := Option.ne_none_iff_exists'.mp (by simpa using hne :
    (atts.map (·.targetEpoch)).max? ≠ none)
  obtain ⟨d, hd, hdM⟩ := List.mem_map.mp (List.max?_mem hM)
  refine List.ne_nil_of_mem (a := d) (List.mem_filter.mpr ⟨hd, ?_⟩)
  simp [hM, hdM, sqlLt]

/-- Pruning keeps the table: a deleted row lies below the surviving rows, and since the table
holds no surrounding pair, below them in source too. -/
theorem AttestationTable.prune {bound : SignedAttestation → Prop}
    {atts hist : List SignedAttestation} (ht : AttestationTable bound atts hist) (m : Nat) :
    AttestationTable bound (prunedAttestations atts m) hist := by
  have hsub : ∀ d ∈ prunedAttestations atts m, d ∈ atts := fun d hd => (List.mem_filter.mp hd).1
  refine ⟨ht.targets_unique.sublist List.filter_sublist,
    fun a ha b hb => ht.no_surround a (hsub a ha) b (hsub b hb),
    fun d hd => ht.roots_bound d (hsub d hd), fun h hh => ?_⟩
  rcases ht.guarded h hh with hmem | hlow
  · by_cases hkept : h ∈ prunedAttestations atts m
    · exact .inl hkept
    · -- `h` was deleted: its target is below `m` and below the maximum target.
      have hdel : h.targetEpoch < m ∧ sqlLt h.targetEpoch (atts.map (·.targetEpoch)).max? = true := by
        simpa [prunedAttestations, hmem] using hkept
      obtain ⟨M, hM, hhM⟩ := sqlLt_eq_true.mp hdel.2
      refine .inr ⟨prunedAttestations_ne_nil (List.ne_nil_of_mem hmem) m, fun d hd => ?_⟩
      have hkeep : ¬ (d.targetEpoch < m ∧ d.targetEpoch < M) := by
        have := (List.mem_filter.mp hd).2
        simp only [hM, sqlLt, Bool.not_eq_true', Bool.and_eq_false_iff, decide_eq_false_iff_not] at this
        omega
      have hlt : h.targetEpoch < d.targetEpoch := by omega
      have hns := ht.no_surround d (hsub d hd) h hmem
      exact ⟨by simp only [Surrounds] at hns; omega, .inl hlt⟩
  · exact .inr ⟨prunedAttestations_ne_nil hlow.1 m, fun d hd => hlow.2 d (hsub d hd)⟩

theorem AttestationGuarded.bounded {atts : List SignedAttestation} {h : SignedAttestation}
    (hg : AttestationGuarded atts h) {S T : Nat}
    (hold : ∀ d ∈ atts, d.sourceEpoch ≤ S ∧ d.targetEpoch ≤ T) :
    h.sourceEpoch ≤ S ∧ h.targetEpoch ≤ T := by
  rcases hg with hmem | hlow
  · exact hold h hmem
  · obtain ⟨d, hd⟩ := List.exists_mem_of_ne_nil _ hlow.1
    have h₁ := AttestationGuarded.le hlow d hd
    have h₂ := hold d hd
    omega

/-- An import replaces the rows by one synthetic row with the null root, at a source and a
target no smaller than any stored or imported: every attestation stays guarded. -/
theorem AttestationTable.replace {bound : SignedAttestation → Prop}
    {atts hist new : List SignedAttestation} (ht : AttestationTable bound atts hist) {S T : Nat}
    (hold : ∀ d ∈ atts, d.sourceEpoch ≤ S ∧ d.targetEpoch ≤ T)
    (hnew : ∀ a ∈ new, a.sourceEpoch ≤ S ∧ a.targetEpoch ≤ T) :
    AttestationTable bound [⟨S, T, default⟩] (hist ++ new) := by
  have hguard : ∀ h : SignedAttestation, h.sourceEpoch ≤ S ∧ h.targetEpoch ≤ T →
      AttestationGuarded [⟨S, T, default⟩] h := by
    intro h ⟨hs, hle⟩
    refine .inr ⟨by simp, fun d hd => ?_⟩
    rw [List.mem_singleton.mp hd]
    dsimp only
    by_cases hlt : h.targetEpoch < T
    · exact ⟨hs, .inl hlt⟩
    · exact ⟨hs, .inr ⟨by omega, SigningRoot.default_isNull⟩⟩
  refine ⟨by simp, ?_, ?_, ?_⟩
  · intro a ha b hb
    rw [List.mem_singleton.mp ha, List.mem_singleton.mp hb]
    rintro ⟨hlt, -⟩; omega
  · intro d hd hnull
    rw [List.mem_singleton.mp hd] at hnull
    exact absurd hnull (by simp [SigningRoot.default_isNull])
  · intro h hh
    rcases List.mem_append.mp hh with hh | hh
    · exact hguard h ((ht.guarded h hh).bounded hold)
    · exact hguard h (hnew h hh)

/-! ## Blocks -/

theorem BlockGuarded.lt_of_admits {blocks : List SignedBlock} {h b : SignedBlock}
    (hne : blocks ≠ []) (hlt : ∀ d ∈ blocks, h.slot < d.slot) (hb : AdmitsBlock blocks b) :
    h.slot < b.slot := by
  obtain ⟨d, hd, hdb⟩ := hb.slot_lower_bound hne
  have := hlt d hd
  omega

/-- Appending an admitted block keeps the table, and the new block is no double proposal
with anything signed before. -/
theorem BlockTable.insert {blocks hist : List SignedBlock} {b : SignedBlock}
    (ht : BlockTable blocks hist) (hb : AdmitsBlock blocks b) :
    BlockTable (blocks ++ [b]) (hist ++ [b]) ∧ ∀ h ∈ hist, ¬ DoubleProposal h b := by
  refine ⟨⟨?_, fun h hh => ?_⟩, fun h hh => ?_⟩
  · refine List.pairwise_append.mpr ⟨ht.slots_unique, by simp, ?_⟩
    intro d hd b' hb'
    rw [List.mem_singleton.mp hb']
    exact hb.slot_fresh d hd
  · rcases List.mem_append.mp hh with hh | hh
    · rcases ht.guarded h hh with ⟨d, hd, hds⟩ | hlow
      · exact .inl ⟨d, List.mem_append_left _ hd, hds⟩
      · have hlt := BlockGuarded.lt_of_admits hlow.1 hlow.2 hb
        refine .inr ⟨by simp, fun d hd => ?_⟩
        rcases List.mem_append.mp hd with hd | hd
        · exact hlow.2 d hd
        · rw [List.mem_singleton.mp hd]; exact hlt
    · rw [List.mem_singleton.mp hh]
      exact .inl ⟨b, List.mem_append_right _ (List.mem_singleton_self b), rfl, .inl rfl⟩
  · rintro ⟨heq, -⟩
    rcases ht.guarded h hh with ⟨d, hd, hds, -⟩ | hlow
    · exact hb.slot_fresh d hd (hds.trans heq)
    · have := BlockGuarded.lt_of_admits hlow.1 hlow.2 hb
      omega

/-- A `SameData` answer for a block repeats the stored row at its slot. -/
theorem BlockTable.sameData {blocks hist : List SignedBlock} {b d : SignedBlock}
    (ht : BlockTable blocks hist) (hd : d ∈ blocks) (hds : d.slot = b.slot)
    (hdr : d.signingRoot.eq b.signingRoot = true) :
    BlockTable blocks (hist ++ [b]) ∧ ∀ h ∈ hist, ¬ DoubleProposal h b := by
  obtain ⟨hnull, hroot⟩ := SigningRoot.eq_iff.mp hdr
  have hdb : d = b := by
    cases d; cases b
    simp_all
  subst hdb
  refine ⟨⟨ht.slots_unique, fun h hh => ?_⟩, fun h hh => ?_⟩
  · rcases List.mem_append.mp hh with hh | hh
    · exact ht.guarded h hh
    · rw [List.mem_singleton.mp hh]
      exact .inl ⟨d, hd, rfl, .inl rfl⟩
  · rintro ⟨heq, hne⟩
    rcases ht.guarded h hh with ⟨d', hd', hds', hd'h | hnull'⟩ | hlow
    · have hd'd : d' = d := eq_of_key_eq ht.slots_unique hd' hd (hds'.trans heq)
      subst hd'd hd'h
      rw [hdr] at hne; cases hne
    · have hd'd : d' = d := eq_of_key_eq ht.slots_unique hd' hd (hds'.trans heq)
      subst hd'd
      rw [hnull] at hnull'; cases hnull'
    · have := hlow.2 d hd
      omega

theorem prunedBlocks_ne_nil {blocks : List SignedBlock} (hne : blocks ≠ []) (m : Nat) :
    prunedBlocks blocks m ≠ [] := by
  obtain ⟨M, hM⟩ := Option.ne_none_iff_exists'.mp (by simpa using hne :
    (blocks.map (·.slot)).max? ≠ none)
  obtain ⟨d, hd, hdM⟩ := List.mem_map.mp (List.max?_mem hM)
  refine List.ne_nil_of_mem (a := d) (List.mem_filter.mpr ⟨hd, ?_⟩)
  simp [hM, hdM, sqlLt]

theorem BlockTable.prune {blocks hist : List SignedBlock} (ht : BlockTable blocks hist) (m : Nat) :
    BlockTable (prunedBlocks blocks m) hist := by
  have hsub : ∀ d ∈ prunedBlocks blocks m, d ∈ blocks := fun d hd => (List.mem_filter.mp hd).1
  refine ⟨ht.slots_unique.sublist List.filter_sublist, fun h hh => ?_⟩
  -- Below every surviving row: the guard of a deleted row, or of a guard below the table.
  have hbelow : ∀ x ∈ blocks, x ∉ prunedBlocks blocks m →
      prunedBlocks blocks m ≠ [] ∧ ∀ d ∈ prunedBlocks blocks m, x.slot < d.slot := by
    intro x hx hkept
    have hdel : x.slot < m ∧ sqlLt x.slot (blocks.map (·.slot)).max? = true := by
      simpa [prunedBlocks, hx] using hkept
    obtain ⟨M, hM, hxM⟩ := sqlLt_eq_true.mp hdel.2
    refine ⟨prunedBlocks_ne_nil (List.ne_nil_of_mem hx) m, fun d hd => ?_⟩
    have := (List.mem_filter.mp hd).2
    simp only [hM, sqlLt, Bool.not_eq_true', Bool.and_eq_false_iff, decide_eq_false_iff_not] at this
    omega
  rcases ht.guarded h hh with ⟨d, hd, hds, hdh⟩ | hlow
  · by_cases hkept : d ∈ prunedBlocks blocks m
    · exact .inl ⟨d, hkept, hds, hdh⟩
    · obtain ⟨hne, hlt⟩ := hbelow d hd hkept
      exact .inr ⟨hne, fun d' hd' => hds ▸ hlt d' hd'⟩
  · exact .inr ⟨prunedBlocks_ne_nil hlow.1 m, fun d hd => hlow.2 d (hsub d hd)⟩

theorem BlockGuarded.bounded {blocks : List SignedBlock} {h : SignedBlock}
    (hg : BlockGuarded blocks h) {M : Nat} (hold : ∀ d ∈ blocks, d.slot ≤ M) : h.slot ≤ M := by
  rcases hg with ⟨d, hd, hds, -⟩ | hlow
  · exact hds ▸ hold d hd
  · obtain ⟨d, hd⟩ := List.exists_mem_of_ne_nil _ hlow.1
    have h₁ := hlow.2 d hd
    have h₂ := hold d hd
    omega

/-- The synthetic block of an import, at a slot no smaller than any stored or imported. -/
theorem BlockTable.replace {blocks hist new : List SignedBlock} (ht : BlockTable blocks hist)
    {M : Nat} (hold : ∀ d ∈ blocks, d.slot ≤ M) (hnew : ∀ b ∈ new, b.slot ≤ M) :
    BlockTable [⟨M, default⟩] (hist ++ new) := by
  have hguard : ∀ h : SignedBlock, h.slot ≤ M → BlockGuarded [⟨M, default⟩] h := by
    intro h hle
    by_cases hlt : h.slot < M
    · exact .inr ⟨by simp, fun d hd => by rw [List.mem_singleton.mp hd]; exact hlt⟩
    · exact .inl ⟨⟨M, default⟩, List.mem_singleton_self _, by dsimp only; omega,
        .inr SigningRoot.default_isNull⟩
  refine ⟨by simp, fun h hh => ?_⟩
  rcases List.mem_append.mp hh with hh | hh
  · exact hguard h ((ht.guarded h hh).bounded hold)
  · exact hguard h (hnew h hh)

end Lighthouse.SlashingProtection
