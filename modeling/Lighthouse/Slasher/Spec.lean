import Lighthouse.Slasher.Array

/-! What the min-max arrays are for. A validator's attestations are pairs (source, target). For
an epoch `e`, `minTarget A e` is the least target of those with a source above `e`, and
`maxTarget A e` the greatest target of those with a source below `e`, bounded by
`e + MAX_DISTANCE` and by `e` respectively, the values of a cell with no attestation. An
attestation `(s, t)` surrounds one of `A` exactly when `minTarget A s < t`, and one of `A`
surrounds it exactly when `t < maxTarget A s`; it is taken into an array unless it conflicts
with that array's attestations in this way. Both are monotone in the epoch, which is what lets
the sweeps of the arrays stop early. -/
namespace Lighthouse.Slasher

/-- The least target of the attestations with a source above `e`, or `e + MAX_DISTANCE`. -/
def minTarget (A : List (Nat × Nat)) (e : Nat) : Nat :=
  A.foldr (fun a m => if e < a.1 then min a.2 m else m) (e + maxDistance)

/-- The greatest target of the attestations with a source below `e`, or `e`. -/
def maxTarget (A : List (Nat × Nat)) (e : Nat) : Nat :=
  A.foldr (fun a m => if a.1 < e then max a.2 m else m) e

section Spec
variable (A : List (Nat × Nat))

@[simp] theorem minTarget_nil (e : Nat) : minTarget [] e = e + maxDistance := rfl

@[simp] theorem maxTarget_nil (e : Nat) : maxTarget [] e = e := rfl

theorem minTarget_cons (a : Nat × Nat) (e : Nat) :
    minTarget (a :: A) e = if e < a.1 then min a.2 (minTarget A e) else minTarget A e := rfl

theorem maxTarget_cons (a : Nat × Nat) (e : Nat) :
    maxTarget (a :: A) e = if a.1 < e then max a.2 (maxTarget A e) else maxTarget A e := rfl

/-- Taking in `(s, t)` lowers the min targets below `s` to at most `t`. -/
theorem minTarget_append (s t e : Nat) :
    minTarget (A ++ [(s, t)]) e = if e < s then min (minTarget A e) t else minTarget A e := by
  induction A with
  | nil =>
    simp only [minTarget, List.nil_append, List.foldr_cons, List.foldr_nil]
    split_ifs <;> omega
  | cons a A ih =>
    rw [List.cons_append, minTarget_cons, ih, minTarget_cons]
    split_ifs <;> omega

/-- Taking in `(s, t)` raises the max targets above `s` to at least `t`. -/
theorem maxTarget_append (s t e : Nat) :
    maxTarget (A ++ [(s, t)]) e = if s < e then max (maxTarget A e) t else maxTarget A e := by
  induction A with
  | nil =>
    simp only [maxTarget, List.nil_append, List.foldr_cons, List.foldr_nil]
    split_ifs <;> omega
  | cons a A ih =>
    rw [List.cons_append, maxTarget_cons, ih, maxTarget_cons]
    split_ifs <;> omega

theorem minTarget_mono : Monotone (minTarget A) := by
  intro e e' hle
  induction A with
  | nil => simp only [minTarget_nil]; omega
  | cons a A ih =>
    rw [minTarget_cons, minTarget_cons]
    split_ifs <;> omega

theorem maxTarget_mono : Monotone (maxTarget A) := by
  intro e e' hle
  induction A with
  | nil => simpa only [maxTarget_nil]
  | cons a A ih =>
    rw [maxTarget_cons, maxTarget_cons]
    split_ifs <;> omega

theorem minTarget_le_bound (e : Nat) : minTarget A e ≤ e + maxDistance := by
  induction A with
  | nil => simp
  | cons a A ih =>
    rw [minTarget_cons]
    split_ifs <;> omega

theorem minTarget_le_of_mem {a : Nat × Nat} (ha : a ∈ A) {e : Nat} (he : e < a.1) :
    minTarget A e ≤ a.2 := by
  induction A with
  | nil => cases ha
  | cons b A ih =>
    rw [minTarget_cons]
    rcases List.mem_cons.mp ha with rfl | ha
    · rw [if_pos he]
      omega
    · have := ih ha
      split_ifs <;> omega

/-- The min target is the bound or the target of an attestation with a source above `e`. -/
theorem minTarget_eq_or (e : Nat) :
    minTarget A e = e + maxDistance ∨ ∃ a ∈ A, e < a.1 ∧ minTarget A e = a.2 := by
  induction A with
  | nil => exact .inl rfl
  | cons b A ih =>
    rw [minTarget_cons]
    split_ifs with hb
    · rcases Nat.le_total b.2 (minTarget A e) with hle | hle
      · exact .inr ⟨b, List.mem_cons_self, hb, Nat.min_eq_left hle⟩
      · rw [Nat.min_eq_right hle]
        rcases ih with h | ⟨a, ha, hea, h⟩
        · exact .inl h
        · exact .inr ⟨a, List.mem_cons_of_mem b ha, hea, h⟩
    · rcases ih with h | ⟨a, ha, hea, h⟩
      · exact .inl h
      · exact .inr ⟨a, List.mem_cons_of_mem b ha, hea, h⟩

theorem le_maxTarget (e : Nat) : e ≤ maxTarget A e := by
  induction A with
  | nil => simp
  | cons a A ih =>
    rw [maxTarget_cons]
    split_ifs <;> omega

theorem le_maxTarget_of_mem {a : Nat × Nat} (ha : a ∈ A) {e : Nat} (he : a.1 < e) :
    a.2 ≤ maxTarget A e := by
  induction A with
  | nil => cases ha
  | cons b A ih =>
    rw [maxTarget_cons]
    rcases List.mem_cons.mp ha with rfl | ha
    · rw [if_pos he]
      omega
    · have := ih ha
      split_ifs <;> omega

/-- The max target is `e` or the target of an attestation with a source below `e`. -/
theorem maxTarget_eq_or (e : Nat) :
    maxTarget A e = e ∨ ∃ a ∈ A, a.1 < e ∧ maxTarget A e = a.2 := by
  induction A with
  | nil => exact .inl rfl
  | cons b A ih =>
    rw [maxTarget_cons]
    split_ifs with hb
    · rcases Nat.le_total (maxTarget A e) b.2 with hle | hle
      · exact .inr ⟨b, List.mem_cons_self, hb, Nat.max_eq_left hle⟩
      · rw [Nat.max_eq_right hle]
        rcases ih with h | ⟨a, ha, hea, h⟩
        · exact .inl h
        · exact .inr ⟨a, List.mem_cons_of_mem b ha, hea, h⟩
    · rcases ih with h | ⟨a, ha, hea, h⟩
      · exact .inl h
      · exact .inr ⟨a, List.mem_cons_of_mem b ha, hea, h⟩

/-- `(s, t)` surrounds an attestation of `A` when its target is above the min target at `s`,
the bound aside. -/
theorem minTarget_lt_iff {s t : Nat} (ht : t ≤ s + maxDistance) :
    minTarget A s < t ↔ ∃ a ∈ A, s < a.1 ∧ a.2 < t := by
  constructor
  · intro hlt
    rcases minTarget_eq_or A s with h | ⟨a, ha, hsa, h⟩
    · omega
    · exact ⟨a, ha, hsa, h ▸ hlt⟩
  · rintro ⟨a, ha, hsa, hat⟩
    exact lt_of_le_of_lt (minTarget_le_of_mem A ha hsa) hat

/-- An attestation of `A` surrounds `(s, t)` when the max target at `s` is above its target. -/
theorem lt_maxTarget_iff {s t : Nat} (hst : s ≤ t) :
    t < maxTarget A s ↔ ∃ a ∈ A, a.1 < s ∧ t < a.2 := by
  constructor
  · intro hlt
    rcases maxTarget_eq_or A s with h | ⟨a, ha, has, h⟩
    · omega
    · exact ⟨a, ha, has, h ▸ hlt⟩
  · rintro ⟨a, ha, has, hta⟩
    exact lt_of_lt_of_le hta (le_maxTarget_of_mem A ha has)

/-- With no source above `e`, the min target is the bound: the neutral distance. -/
theorem minTarget_of_le {e : Nat} (h : ∀ a ∈ A, a.1 ≤ e) : minTarget A e = e + maxDistance := by
  rcases minTarget_eq_or A e with h' | ⟨a, ha, hea, -⟩
  · exact h'
  · exact absurd (h a ha) (by omega)

/-- With no target above `e`, the max target is `e`: the neutral distance. -/
theorem maxTarget_of_le {e : Nat} (h : ∀ a ∈ A, a.2 ≤ e) : maxTarget A e = e := by
  rcases maxTarget_eq_or A e with h' | ⟨a, ha, -, hm⟩
  · exact h'
  · exact le_antisymm (hm ▸ h a ha) (le_maxTarget A e)

end Spec

namespace TargetArrayChunk

/-- What the array of `kind` holds at `e` for a validator whose attestations in it are `A`. -/
def target : TargetArrayChunk → List (Nat × Nat) → Nat → Nat
  | minTargetChunk => minTarget
  | maxTargetChunk => maxTarget

/-- Whether `(s, t)` conflicts with the attestations `A` of the array of `kind`: it surrounds
one of them (min), or one of them surrounds it (max). -/
def conflicts : TargetArrayChunk → List (Nat × Nat) → Nat → Nat → Bool
  | minTargetChunk, A, s, t => A.any fun a => decide (s < a.1) && decide (a.2 < t)
  | maxTargetChunk, A, s, t => A.any fun a => decide (a.1 < s) && decide (t < a.2)

/-- The attestations of the array of `kind` once `(s, t)` has been offered to it: taken in
unless it conflicts with them. -/
def offer (kind : TargetArrayChunk) (A : List (Nat × Nat)) (s t : Nat) : List (Nat × Nat) :=
  if kind.conflicts A s t then A else A ++ [(s, t)]

theorem target_mono (kind : TargetArrayChunk) (A : List (Nat × Nat)) : Monotone (kind.target A) := by
  cases kind with
  | minTargetChunk => exact minTarget_mono A
  | maxTargetChunk => exact maxTarget_mono A

/-- Before any attestation's target, an array holds the neutral distance. -/
theorem target_of_le (kind : TargetArrayChunk) {A : List (Nat × Nat)} {e : Nat}
    (h : ∀ a ∈ A, a.1 ≤ a.2 ∧ a.2 ≤ e) : kind.target A e = e + kind.neutralElement := by
  cases kind with
  | minTargetChunk => exact minTarget_of_le A fun a ha => (h a ha).1.trans (h a ha).2
  | maxTargetChunk => exact maxTarget_of_le A fun a ha => (h a ha).2

theorem target_nil (kind : TargetArrayChunk) (e : Nat) : kind.target [] e = e + kind.neutralElement := by
  cases kind <;> rfl

theorem offer_of_conflicts {kind : TargetArrayChunk} {A : List (Nat × Nat)} {s t : Nat}
    (h : kind.conflicts A s t = true) : kind.offer A s t = A := by
  simp [offer, h]

theorem offer_of_not_conflicts {kind : TargetArrayChunk} {A : List (Nat × Nat)} {s t : Nat}
    (h : kind.conflicts A s t = false) : kind.offer A s t = A ++ [(s, t)] := by
  simp [offer, h]

/-- An attestation in the window conflicts with the min array exactly when its target is above
the min target at its source. -/
theorem conflicts_min_iff {A : List (Nat × Nat)} {s t : Nat} (ht : t ≤ s + maxDistance) :
    minTargetChunk.conflicts A s t = true ↔ minTarget A s < t := by
  rw [minTarget_lt_iff A ht]
  simp [conflicts]

/-- An attestation conflicts with the max array exactly when its target is below the max target
at its source. -/
theorem conflicts_max_iff {A : List (Nat × Nat)} {s t : Nat} (hst : s ≤ t) :
    maxTargetChunk.conflicts A s t = true ↔ t < maxTarget A s := by
  rw [lt_maxTarget_iff A hst]
  simp [conflicts]

end TargetArrayChunk

end Lighthouse.Slasher
