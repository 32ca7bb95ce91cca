import Mathlib

/-! Splitting `n` things into `c` consecutive parts of near-equal size: part `k` is
`[n * k / c, n * (k + 1) / c)`. The parts cover `[0, n)` in order and do not overlap
(`exists_part`, `part_unique`), two of them differ in size by at most one
(`size_le_size_add_one`), and a list of `n` elements is the concatenation of its parts
(`flatMap_parts`). -/
namespace Lighthouse.EvenSplit
variable {α : Type*}

/-- The first position of part `k` of `n` things split into `c`. -/
def splitPoint (n c k : ℕ) : ℕ := n * k / c

/-- The number of things in part `k`. -/
def partSize (n c k : ℕ) : ℕ := splitPoint n c (k + 1) - splitPoint n c k

/-- Part `k` of a list of `n` elements split into `c`. -/
def part (l : List α) (n c k : ℕ) : List α := (l.drop (splitPoint n c k)).take (partSize n c k)

/-- `get` of a slice with a range `start..stop`: `none` unless `start ≤ stop ≤ len`. -/
def slice (l : List α) (start stop : ℕ) : Option (List α) :=
  if start ≤ stop ∧ stop ≤ l.length then some ((l.drop start).take (stop - start)) else none

section Points
variable {n c : ℕ}

theorem splitPoint_mono {k k' : ℕ} (h : k ≤ k') : splitPoint n c k ≤ splitPoint n c k' :=
  Nat.div_le_div_right (Nat.mul_le_mul_left n h)

@[simp] theorem splitPoint_zero : splitPoint n c 0 = 0 := by simp [splitPoint]

theorem splitPoint_self (hc : 0 < c) : splitPoint n c c = n := Nat.mul_div_cancel n hc

theorem splitPoint_le (hc : 0 < c) {k : ℕ} (hk : k ≤ c) : splitPoint n c k ≤ n :=
  (splitPoint_mono hk).trans_eq (splitPoint_self hc)

/-- Each part has at least `n / c` things. -/
theorem div_le_partSize (k : ℕ) : n / c ≤ partSize n c k := by
  have h : n * k / c + n / c ≤ (n * k + n) / c := Nat.div_add_div_le_add_div
  rw [partSize, splitPoint, splitPoint, Nat.mul_succ]
  omega

/-- Each part has at most `n / c + 1` things: the two floors lose less than one between them. -/
theorem partSize_le_div_add_one (k : ℕ) : partSize n c k ≤ n / c + 1 := by
  rcases Nat.eq_zero_or_pos c with rfl | hc
  · simp [partSize, splitPoint]
  · rw [partSize, splitPoint, splitPoint, Nat.mul_succ, Nat.add_div hc, Nat.add_assoc,
      Nat.add_sub_cancel_left]
    split <;> omega

/-- Two parts differ in size by at most one. -/
theorem size_le_size_add_one (k k' : ℕ) : partSize n c k ≤ partSize n c k' + 1 :=
  calc partSize n c k ≤ n / c + 1 := partSize_le_div_add_one k
    _ ≤ partSize n c k' + 1 := Nat.add_le_add_right (div_le_partSize k') 1

/-- No position is in two parts. -/
theorem part_unique {i k k' : ℕ} (h : splitPoint n c k ≤ i ∧ i < splitPoint n c (k + 1))
    (h' : splitPoint n c k' ≤ i ∧ i < splitPoint n c (k' + 1)) : k = k' := by
  by_contra hne
  rcases Nat.lt_or_gt_of_ne hne with hlt | hlt
  · have := splitPoint_mono (n := n) (c := c) (show k + 1 ≤ k' from hlt)
    omega
  · have := splitPoint_mono (n := n) (c := c) (show k' + 1 ≤ k from hlt)
    omega

/-- Every position below `n` is in a part: the first whose end is past it. -/
theorem exists_part (hc : 0 < c) {i : ℕ} (hi : i < n) :
    ∃ k < c, splitPoint n c k ≤ i ∧ i < splitPoint n c (k + 1) := by
  have hex : ∃ k, i < splitPoint n c (k + 1) :=
    ⟨c - 1, by rw [Nat.sub_add_cancel hc, splitPoint_self hc]; exact hi⟩
  refine ⟨Nat.find hex, ?_, ?_, Nat.find_spec hex⟩
  · have hle : Nat.find hex ≤ c - 1 :=
      Nat.find_min' hex (by rw [Nat.sub_add_cancel hc, splitPoint_self hc]; exact hi)
    omega
  · -- the part before ends at or before `i`, by the choice of the first
    rcases Nat.eq_zero_or_pos (Nat.find hex) with h0 | hpos
    · rw [h0, splitPoint_zero]
      exact Nat.zero_le i
    · have hmin := Nat.find_min hex (Nat.sub_lt hpos Nat.one_pos)
      rw [Nat.sub_add_cancel hpos] at hmin
      omega

end Points

section Parts
variable {n c : ℕ}

theorem length_part {l : List α} (hl : l.length = n) (hc : 0 < c) {k : ℕ} (hk : k < c) :
    (part l n c k).length = partSize n c k := by
  have hmono : splitPoint n c k ≤ splitPoint n c (k + 1) := splitPoint_mono (Nat.le_succ k)
  have hend : splitPoint n c (k + 1) ≤ n := splitPoint_le hc (Nat.succ_le_of_lt hk)
  rw [part, List.length_take, List.length_drop, hl, partSize]
  omega

theorem getElem?_part (l : List α) {k j : ℕ} (hj : j < partSize n c k) :
    (part l n c k)[j]? = l[splitPoint n c k + j]? := by
  rw [part, List.getElem?_take, if_pos hj, List.getElem?_drop]

/-- A part, cut from the list as a slice. -/
theorem slice_splitPoint {l : List α} (hl : l.length = n) (hc : 0 < c) {k : ℕ} (hk : k < c) :
    slice l (splitPoint n c k) (splitPoint n c (k + 1)) = some (part l n c k) := by
  have hmono : splitPoint n c k ≤ splitPoint n c (k + 1) := splitPoint_mono (Nat.le_succ k)
  have hend : splitPoint n c (k + 1) ≤ l.length := hl ▸ splitPoint_le hc (Nat.succ_le_of_lt hk)
  rw [slice, if_pos ⟨hmono, hend⟩]
  rfl

/-- The first `m` parts together are the list up to the start of part `m`. The induction is on
`m`, each part appended at the end. -/
theorem flatMap_range_part (l : List α) :
    ∀ m, (List.range m).flatMap (part l n c) = l.take (splitPoint n c m)
  | 0 => by simp
  | m + 1 => by
    rw [List.range_succ, List.flatMap_append, flatMap_range_part l m, List.flatMap_singleton, part,
      partSize, ← List.take_add, Nat.add_sub_cancel' (splitPoint_mono (Nat.le_succ m))]

/-- The parts of a list, in order, are the list. -/
theorem flatMap_parts {l : List α} (hl : l.length = n) (hc : 0 < c) :
    (List.range c).flatMap (part l n c) = l := by
  rw [flatMap_range_part, splitPoint_self hc, ← hl, List.take_length]

/-- The parts taken in `a` blocks of `b`, block `t` holding parts `t * b` to `t * b + b - 1`. -/
theorem flatMap_range_mul (f : ℕ → List α) (b : ℕ) :
    ∀ a, (List.range (a * b)).flatMap f =
      (List.range a).flatMap fun t => (List.range b).flatMap fun i => f (t * b + i)
  | 0 => by simp
  | a + 1 => by
    rw [Nat.succ_mul, List.range_add, List.flatMap_append, flatMap_range_mul f b a,
      List.range_succ, List.flatMap_append, List.flatMap_singleton, List.flatMap_map]

end Parts

end Lighthouse.EvenSplit
