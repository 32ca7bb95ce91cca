import Mathlib

/-! Greedy maximum coverage. Items cover finite sets of weighted elements; each round of the
greedy cover takes an item of greatest marginal weight, the weight of its elements not yet
covered. The selection is that of `Iterator::max_by_key`, which returns the last of the greatest
(`maxByKey`).

Two facts carry the greedy bound. Whatever `k` items cover weighs at most the weight already
covered plus `k` times the greatest marginal weight (`weight_unionOf_le`); and a round that gains
at least a `k`-th of the gap to the optimum shrinks that gap by the factor `1 - 1/k`
(`gap_step`), so after `k` rounds at most `(1 - 1/k) ^ k` of it is left. -/
namespace Lighthouse.MaxCoverage
variable {α ε : Type*}

/-! The selection of `Iterator::max_by_key`. -/

/-- The last of the elements of greatest key: the fold keeps the best so far unless the next
element's key is at least as great. -/
def maxByKey (key : α → ℕ) : List α → Option α
  | [] => none
  | x :: xs => some (xs.foldl (fun best y => if key y < key best then best else y) x)

section MaxByKey
variable {key : α → ℕ}

theorem foldl_maxBy_mem (xs : List α) (b : α) :
    xs.foldl (fun best y => if key y < key best then best else y) b ∈ b :: xs := by
  induction xs generalizing b with
  | nil => exact List.mem_singleton_self b
  | cons y ys ih =>
    rw [List.foldl_cons]
    split
    · have hb := ih b
      simp only [List.mem_cons] at hb ⊢
      tauto
    · have hy := ih y
      simp only [List.mem_cons] at hy ⊢
      tauto

theorem le_foldl_maxBy (xs : List α) (b : α) :
    ∀ y ∈ b :: xs, key y ≤ key (xs.foldl (fun best y => if key y < key best then best else y) b) := by
  induction xs generalizing b with
  | nil => simp
  | cons z zs ih =>
    intro y hy
    rw [List.foldl_cons]
    split
    case isTrue hlt =>
      -- `z` loses to `b`, so both are below the winner of the rest started from `b`
      rcases List.mem_cons.mp hy with rfl | hy
      · exact ih y y List.mem_cons_self
      rcases List.mem_cons.mp hy with rfl | hy
      · exact le_trans hlt.le (ih b b List.mem_cons_self)
      · exact ih b y (List.mem_cons_of_mem b hy)
    case isFalse hge =>
      rcases List.mem_cons.mp hy with rfl | hy
      · exact le_trans (Nat.le_of_not_lt hge) (ih z z List.mem_cons_self)
      · exact ih z y hy

theorem maxByKey_eq_none_iff {l : List α} : maxByKey key l = none ↔ l = [] := by
  cases l <;> simp [maxByKey]

theorem maxByKey_mem {l : List α} {x : α} (h : maxByKey key l = some x) : x ∈ l := by
  cases l with
  | nil => cases h
  | cons b xs =>
    cases h
    exact foldl_maxBy_mem xs b

theorem le_maxByKey {l : List α} {x : α} (h : maxByKey key l = some x) :
    ∀ y ∈ l, key y ≤ key x := by
  cases l with
  | nil => cases h
  | cons b xs =>
    cases h
    exact le_foldl_maxBy xs b

/-- The selection commutes with a map that keeps the keys. -/
theorem maxByKey_map {β : Type*} (key' : β → ℕ) (g : α → β) (hg : ∀ x, key' (g x) = key x)
    (l : List α) : maxByKey key' (l.map g) = (maxByKey key l).map g := by
  cases l with
  | nil => rfl
  | cons b xs =>
    simp only [List.map_cons, maxByKey, Option.map_some, Option.some.injEq]
    induction xs generalizing b with
    | nil => rfl
    | cons y ys ih =>
      simp only [List.map_cons, List.foldl_cons, hg]
      split <;> exact ih _

end MaxByKey

/-- A sub-multiset stays one under any map. -/
theorem subperm_map {β : Type*} (f : α → β) {l₁ l₂ : List α} (h : l₁.Subperm l₂) :
    (l₁.map f).Subperm (l₂.map f) := by
  obtain ⟨l, hp, hs⟩ := h
  exact ⟨l.map f, hp.map f, hs.map f⟩

/-! Weights of finite sets of elements. -/

section Weight
variable (w : ε → ℕ)

/-- The weight of a finite set of elements. -/
def weight (s : Finset ε) : ℕ := ∑ e ∈ s, w e

theorem weight_mono {w} {s t : Finset ε} (h : s ⊆ t) : weight w s ≤ weight w t :=
  Finset.sum_le_sum_of_subset h

/-- A subset of weight zero leaves nothing to gain. -/
theorem weight_eq_zero_of_subset {w} {s t : Finset ε} (h : s ⊆ t) (ht : weight w t = 0) :
    weight w s = 0 :=
  Nat.eq_zero_of_le_zero (ht ▸ weight_mono h)

variable [DecidableEq ε]

/-- The elements covered by the sets of a list of items. -/
def unionOf (f : α → Finset ε) : List α → Finset ε
  | [] => ∅
  | a :: as => f a ∪ unionOf f as

variable {w}

@[simp] theorem unionOf_nil (f : α → Finset ε) : unionOf f [] = ∅ := rfl

@[simp] theorem unionOf_cons (f : α → Finset ε) (a : α) (as : List α) :
    unionOf f (a :: as) = f a ∪ unionOf f as := rfl

theorem unionOf_append (f : α → Finset ε) (as bs : List α) :
    unionOf f (as ++ bs) = unionOf f as ∪ unionOf f bs := by
  induction as with
  | nil => simp
  | cons a as ih => rw [List.cons_append, unionOf_cons, unionOf_cons, ih, Finset.union_assoc]

theorem mem_unionOf {f : α → Finset ε} {as : List α} {e : ε} :
    e ∈ unionOf f as ↔ ∃ a ∈ as, e ∈ f a := by
  induction as with
  | nil => simp
  | cons a as ih => simp [ih]

theorem subset_unionOf {f : α → Finset ε} {as : List α} {a : α} (h : a ∈ as) :
    f a ⊆ unionOf f as := by
  induction as with
  | nil => cases h
  | cons b bs ih =>
    rcases List.mem_cons.mp h with rfl | h
    · exact Finset.subset_union_left
    · exact (ih h).trans Finset.subset_union_right

theorem unionOf_subset {f : α → Finset ε} {as : List α} {s : Finset ε} (h : ∀ a ∈ as, f a ⊆ s) :
    unionOf f as ⊆ s := by
  intro e he
  obtain ⟨a, ha, hea⟩ := mem_unionOf.mp he
  exact h a ha hea

theorem unionOf_map {β : Type*} (f : α → Finset ε) (g : β → α) (bs : List β) :
    unionOf f (bs.map g) = unionOf (fun b => f (g b)) bs := by
  induction bs with
  | nil => rfl
  | cons b bs ih => rw [List.map_cons, unionOf_cons, unionOf_cons, ih]

theorem weight_union_le (s t : Finset ε) : weight w (s ∪ t) ≤ weight w s + weight w t := by
  have h : ∑ e ∈ s ∪ t, w e + ∑ e ∈ s ∩ t, w e = ∑ e ∈ s, w e + ∑ e ∈ t, w e :=
    Finset.sum_union_inter
  unfold weight
  omega

/-- Adding a set to what is covered adds the weight of its elements not yet covered. -/
theorem weight_union_eq (c s : Finset ε) : weight w (c ∪ s) = weight w c + weight w (s \ c) := by
  rw [← Finset.union_sdiff_self_eq_union]
  exact Finset.sum_union Finset.disjoint_sdiff

/-- What is covered, together with whatever a list of items covers, weighs at most what is
covered plus the marginal weights of the items. -/
theorem weight_unionOf_le (f : α → Finset ε) (c : Finset ε) :
    ∀ as : List α,
      weight w (c ∪ unionOf f as) ≤ weight w c + (as.map fun a => weight w (f a \ c)).sum
  | [] => by simp
  | a :: as => by
    have ih := weight_unionOf_le f c as
    have hsplit : c ∪ unionOf f (a :: as) ⊆ (c ∪ unionOf f as) ∪ (f a \ c) := by
      intro e he
      simp only [unionOf_cons, Finset.mem_union, Finset.mem_sdiff] at he ⊢
      tauto
    calc weight w (c ∪ unionOf f (a :: as))
        ≤ weight w ((c ∪ unionOf f as) ∪ (f a \ c)) := weight_mono hsplit
      _ ≤ weight w (c ∪ unionOf f as) + weight w (f a \ c) := weight_union_le _ _
      _ ≤ weight w c + (List.map (fun a => weight w (f a \ c)) (a :: as)).sum := by
          rw [List.map_cons, List.sum_cons]
          omega

/-- The weight of pairwise disjoint sets is the sum of their weights. -/
theorem weight_unionOf_of_pairwise (f : α → Finset ε) :
    ∀ {as : List α}, as.Pairwise (fun a b => Disjoint (f a) (f b)) →
      weight w (unionOf f as) = (as.map fun a => weight w (f a)).sum
  | [], _ => rfl
  | a :: as, h => by
    obtain ⟨hdisj, hrest⟩ := List.pairwise_cons.mp h
    have hd : Disjoint (f a) (unionOf f as) := by
      rw [Finset.disjoint_iff_ne]
      intro x hx y hy
      obtain ⟨b, hb, hyb⟩ := mem_unionOf.mp hy
      exact Finset.disjoint_iff_ne.mp (hdisj b hb) x hx y hyb
    rw [unionOf_cons, List.map_cons, List.sum_cons, ← weight_unionOf_of_pairwise f hrest]
    exact Finset.sum_union hd

end Weight

/-! The gap to the optimum. -/

section Gap
variable {K : Type*} [Field K] [LinearOrder K] [IsStrictOrderedRing K]

/-- A round that gains at least a `k`-th of the gap shrinks the gap by the factor `1 - 1/k`. -/
theorem gap_step {k gap gain : K} (hk : 1 ≤ k) (h : gap ≤ k * gain) :
    gap - gain ≤ (1 - 1 / k) * gap := by
  have hk0 : 0 < k := lt_of_lt_of_le one_pos hk
  have hshare : gap / k ≤ gain := (div_le_iff₀ hk0).mpr (by rwa [mul_comm])
  calc gap - gain ≤ gap - gap / k := by linarith
    _ = (1 - 1 / k) * gap := by ring

theorem one_sub_inv_nonneg {k : K} (hk : 1 ≤ k) : 0 ≤ 1 - 1 / k := by
  have hk0 : 0 < k := lt_of_lt_of_le one_pos hk
  have : 1 / k ≤ 1 := (div_le_one hk0).mpr hk
  linarith

end Gap

end Lighthouse.MaxCoverage
