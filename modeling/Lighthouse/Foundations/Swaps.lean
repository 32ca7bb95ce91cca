import Mathlib

/-! Sweeps of swaps over a list, and compositions of involutions.

A sweep runs through pairs of positions, each with a flag, and swaps the two positions where the
flag is set. Where no position is in two pairs the swaps do not interact: the sweep leaves at
each position the element that was at its partner in the one taken pair that has it, or its own
(`getElem?_foldl_swapWhen`). A mirror sweep pairs the positions of an interval from its two ends
inwards, so that each position is paired with its mirror image (`swapsTarget_mirrorPairs`).

Maps of `[0, n)` into itself that are involutions there compose to a bijection of `[0, n)`, whose
inverse applies them in the other order (`foldr_foldl_of_involutive`,
`bijOn_foldl_of_involutive`). -/
namespace Lighthouse.Swaps
variable {α : Type*}

/-! Sweeps. -/

/-- One step of a sweep: swap the two positions of the pair where its flag is set. -/
def swapWhen (l : List α) (p : ℕ × ℕ × Bool) : List α := if p.2.2 then l.swap p.1 p.2.1 else l

/-- Where a sweep over `ps` takes the element it leaves at `k` from: the other position of the
first taken pair that has `k`, or `k`. -/
def swapsTarget : List (ℕ × ℕ × Bool) → ℕ → ℕ
  | [], k => k
  | p :: ps, k =>
    if p.2.2 ∧ k = p.1 then p.2.1 else if p.2.2 ∧ k = p.2.1 then p.1 else swapsTarget ps k

/-- Two pairs share no position. -/
def Apart (p q : ℕ × ℕ × Bool) : Prop := p.1 ≠ q.1 ∧ p.1 ≠ q.2.1 ∧ p.2.1 ≠ q.1 ∧ p.2.1 ≠ q.2.1

@[simp] theorem length_swapWhen (l : List α) (p : ℕ × ℕ × Bool) :
    (swapWhen l p).length = l.length := by
  unfold swapWhen
  split <;> simp

theorem length_foldl_swapWhen (ps : List (ℕ × ℕ × Bool)) (l : List α) :
    (ps.foldl swapWhen l).length = l.length := by
  induction ps generalizing l with
  | nil => rfl
  | cons p ps ih => rw [List.foldl_cons, ih, length_swapWhen]

theorem getElem?_swap (l : List α) {i j : ℕ} (hi : i < l.length) (hj : j < l.length) (k : ℕ) :
    (l.swap i j)[k]? = l[if k = i then j else if k = j then i else k]? := by
  by_cases hk : k < l.length
  · rw [List.getElem?_eq_getElem (by rwa [List.length_swap]), List.getElem_swap]
    by_cases hki : k = i
    · simp [hki, hj]
    · by_cases hkj : k = j
      · subst hkj
        simp [hki, hi]
      · simp [hki, hkj, List.getElem?_eq_getElem hk]
  · have hki : k ≠ i := by omega
    have hkj : k ≠ j := by omega
    rw [List.getElem?_eq_none (by rw [List.length_swap]; omega), if_neg hki, if_neg hkj,
      List.getElem?_eq_none (by omega)]

/-- One step of a sweep, read at a position. -/
theorem getElem?_swapWhen (l : List α) (p : ℕ × ℕ × Bool) (hi : p.1 < l.length)
    (hj : p.2.1 < l.length) (k : ℕ) : (swapWhen l p)[k]? = l[swapsTarget [p] k]? := by
  obtain ⟨i, j, c⟩ := p
  cases c
  · simp [swapWhen, swapsTarget]
  · simp only [swapWhen, if_true, getElem?_swap l hi hj, swapsTarget, true_and]

/-- A position no pair has stays. -/
theorem swapsTarget_of_forall_ne {ps : List (ℕ × ℕ × Bool)} {k : ℕ}
    (h : ∀ q ∈ ps, k ≠ q.1 ∧ k ≠ q.2.1) : swapsTarget ps k = k := by
  induction ps with
  | nil => rfl
  | cons q qs ih =>
    have hq := h q List.mem_cons_self
    simp only [swapsTarget, hq.1, hq.2, and_false, if_false]
    exact ih fun q' hq' => h q' (List.mem_cons_of_mem q hq')

/-- A sweep takes an element from its own position or from a position of a pair. -/
theorem swapsTarget_eq_or_mem (ps : List (ℕ × ℕ × Bool)) (k : ℕ) :
    swapsTarget ps k = k ∨ ∃ q ∈ ps, swapsTarget ps k = q.1 ∨ swapsTarget ps k = q.2.1 := by
  induction ps with
  | nil => exact .inl rfl
  | cons q qs ih =>
    simp only [swapsTarget]
    split
    · exact .inr ⟨q, List.mem_cons_self, .inr rfl⟩
    · split
      · exact .inr ⟨q, List.mem_cons_self, .inl rfl⟩
      · rcases ih with h | ⟨q', hq', h⟩
        · exact .inl h
        · exact .inr ⟨q', List.mem_cons_of_mem q hq', h⟩

/-- A pair apart from all the later ones acts after them. -/
theorem swapsTarget_cons_of_apart {p : ℕ × ℕ × Bool} {ps : List (ℕ × ℕ × Bool)}
    (hp : ∀ q ∈ ps, Apart p q) (k : ℕ) :
    swapsTarget [p] (swapsTarget ps k) = swapsTarget (p :: ps) k := by
  by_cases hk : k = p.1 ∨ k = p.2.1
  · -- `k` is in `p`, so in no later pair
    have hrest : swapsTarget ps k = k := swapsTarget_of_forall_ne fun q hq => by
      obtain ⟨h1, h2, h3, h4⟩ := hp q hq
      rcases hk with rfl | rfl
      · exact ⟨h1, h2⟩
      · exact ⟨h3, h4⟩
    simp [swapsTarget, hrest]
  · -- `k` is not in `p`, and neither is where the later pairs take it from
    have hne1 : k ≠ p.1 := fun h => hk (.inl h)
    have hne2 : k ≠ p.2.1 := fun h => hk (.inr h)
    have hfar : swapsTarget ps k ≠ p.1 ∧ swapsTarget ps k ≠ p.2.1 := by
      rcases swapsTarget_eq_or_mem ps k with h | ⟨q, hq, h⟩
      · rw [h]
        exact ⟨hne1, hne2⟩
      · obtain ⟨h1, h2, h3, h4⟩ := hp q hq
        rcases h with h | h <;> rw [h] <;> exact ⟨fun e => by simp_all, fun e => by simp_all⟩
    simp only [swapsTarget, hne1, hne2, hfar.1, hfar.2, and_false, if_false]

/-- A sweep over pairs that share no position, all in the list: the element left at each position
is the one at the position the sweep takes it from. -/
theorem getElem?_foldl_swapWhen :
    ∀ {ps : List (ℕ × ℕ × Bool)} {l : List α}, ps.Pairwise Apart →
      (∀ p ∈ ps, p.1 < l.length ∧ p.2.1 < l.length) →
      ∀ k, (ps.foldl swapWhen l)[k]? = l[swapsTarget ps k]?
  | [], _, _, _, _ => rfl
  | p :: ps, l, hap, hlt, k => by
    obtain ⟨hp, hrest⟩ := List.pairwise_cons.mp hap
    have hlt' : ∀ q ∈ ps, q.1 < (swapWhen l p).length ∧ q.2.1 < (swapWhen l p).length := by
      rw [length_swapWhen]
      exact fun q hq => hlt q (List.mem_cons_of_mem p hq)
    have hpl := hlt p List.mem_cons_self
    rw [List.foldl_cons, getElem?_foldl_swapWhen hrest hlt' k,
      getElem?_swapWhen l p hpl.1 hpl.2, swapsTarget_cons_of_apart hp k]

/-- In a sweep over pairs that share no position, the two positions of a pair take from each
other where its flag is set. -/
theorem swapsTarget_of_mem {ps : List (ℕ × ℕ × Bool)} (hap : ps.Pairwise Apart)
    {i j : ℕ} {c : Bool} (hmem : (i, j, c) ∈ ps) :
    swapsTarget ps i = (if c then j else i) ∧ swapsTarget ps j = (if c then i else j) := by
  induction ps with
  | nil => cases hmem
  | cons q qs ih =>
    obtain ⟨hq, hrest⟩ := List.pairwise_cons.mp hap
    rcases List.mem_cons.mp hmem with rfl | hmem
    · -- the pair is the first: neither of its positions is in a later one
      have hi : ∀ q ∈ qs, i ≠ q.1 ∧ i ≠ q.2.1 := fun q h => ⟨(hq q h).1, (hq q h).2.1⟩
      have hj : ∀ q ∈ qs, j ≠ q.1 ∧ j ≠ q.2.1 := fun q h => ⟨(hq q h).2.2.1, (hq q h).2.2.2⟩
      cases c
      · simp [swapsTarget, swapsTarget_of_forall_ne hi, swapsTarget_of_forall_ne hj]
      · by_cases hij : j = i
        · subst hij
          simp [swapsTarget]
        · simp [swapsTarget, hij]
    · -- a later pair: the first has neither of its positions
      obtain ⟨h1, h2, h3, h4⟩ := hq (i, j, c) hmem
      have e1 : ¬ (q.2.2 = true ∧ i = q.1) := fun h => h1 h.2.symm
      have e2 : ¬ (q.2.2 = true ∧ i = q.2.1) := fun h => h3 h.2.symm
      have e3 : ¬ (q.2.2 = true ∧ j = q.1) := fun h => h2 h.2.symm
      have e4 : ¬ (q.2.2 = true ∧ j = q.2.1) := fun h => h4 h.2.symm
      simp only [swapsTarget, e1, e2, e3, e4, if_false]
      exact ih hrest hmem

/-- A sweep only moves elements. -/
theorem perm_swapWhen (l : List α) (p : ℕ × ℕ × Bool) : (swapWhen l p).Perm l := by
  unfold swapWhen
  split
  · exact List.swap_perm l _ _
  · exact List.Perm.refl l

theorem perm_foldl_swapWhen (ps : List (ℕ × ℕ × Bool)) (l : List α) :
    (ps.foldl swapWhen l).Perm l := by
  induction ps generalizing l with
  | nil => exact List.Perm.refl l
  | cons p ps ih =>
    rw [List.foldl_cons]
    exact (ih _).trans (perm_swapWhen l p)

/-- A position the first pairs do not have is taken from where the later ones take it. -/
theorem swapsTarget_append_of_forall_ne {ps qs : List (ℕ × ℕ × Bool)} {k : ℕ}
    (h : ∀ q ∈ ps, k ≠ q.1 ∧ k ≠ q.2.1) : swapsTarget (ps ++ qs) k = swapsTarget qs k := by
  induction ps with
  | nil => rfl
  | cons q ps ih =>
    have hq := h q List.mem_cons_self
    simp only [List.cons_append, swapsTarget, hq.1, hq.2, and_false, if_false]
    exact ih fun q' hq' => h q' (List.mem_cons_of_mem q hq')

/-- A position the later pairs do not have is taken from where the first ones take it. -/
theorem swapsTarget_append_of_forall_ne_right {ps qs : List (ℕ × ℕ × Bool)} {k : ℕ}
    (h : ∀ q ∈ qs, k ≠ q.1 ∧ k ≠ q.2.1) : swapsTarget (ps ++ qs) k = swapsTarget ps k := by
  induction ps with
  | nil => exact swapsTarget_of_forall_ne h
  | cons q ps ih => simp only [List.cons_append, swapsTarget, ih]

/-! Mirror sweeps: the pairs of positions `start + t` and `top - t`, from the ends inwards. -/

/-- The sweep that pairs `start + t` with `top - t` for each `t < count`, with the flag read at
the upper position. -/
def mirrorPairs (b : ℕ → Bool) (start top count : ℕ) : List (ℕ × ℕ × Bool) :=
  (List.range count).map fun t => (start + t, top - t, b (top - t))

section Mirror
variable {b : ℕ → Bool} {start top count : ℕ}

theorem mem_mirrorPairs {q : ℕ × ℕ × Bool} :
    q ∈ mirrorPairs b start top count ↔ ∃ t < count, q = (start + t, top - t, b (top - t)) := by
  simp only [mirrorPairs, List.mem_map, List.mem_range, eq_comm]

theorem mirrorPairs_mem_of_lt {t : ℕ} (ht : t < count) :
    (start + t, top - t, b (top - t)) ∈ mirrorPairs b start top count :=
  mem_mirrorPairs.mpr ⟨t, ht, rfl⟩

theorem mirrorPairs_succ (b : ℕ → Bool) (start top count : ℕ) :
    mirrorPairs b start top (count + 1) =
      mirrorPairs b start top count ++ [(start + count, top - count, b (top - count))] := by
  simp only [mirrorPairs, List.range_succ, List.map_append, List.map_cons, List.map_nil]

/-- A mirror sweep of at most half the positions from `start` to `top` stays between them. -/
theorem mirrorPairs_bounds (hcount : 2 * count ≤ top + 1 - start) {q : ℕ × ℕ × Bool}
    (hq : q ∈ mirrorPairs b start top count) :
    start ≤ q.1 ∧ q.1 ≤ top ∧ start ≤ q.2.1 ∧ q.2.1 ≤ top := by
  obtain ⟨t, ht, rfl⟩ := mem_mirrorPairs.mp hq
  dsimp only
  omega

theorem pairwise_apart_mirrorPairs (hcount : 2 * count ≤ top + 1 - start) :
    (mirrorPairs b start top count).Pairwise Apart := by
  rw [mirrorPairs, List.pairwise_map]
  refine List.pairwise_lt_range.imp_of_mem ?_
  intro t u ht hu htu
  rw [List.mem_range] at ht hu
  -- the lower positions rise and the upper ones fall, and the two halves do not meet
  simp only [Apart]
  omega

/-- In a mirror sweep over the whole of `[start, top]`, a position takes from its mirror image
`start + top - k` where the flag at the upper of the two is set; the middle one stays. -/
theorem swapsTarget_mirrorPairs (hcount : count = (top + 1 - start) / 2) {k : ℕ}
    (hlo : start ≤ k) (hhi : k ≤ top) :
    swapsTarget (mirrorPairs b start top count) k =
      if b (max k (start + top - k)) then start + top - k else k := by
  have hap : (mirrorPairs b start top count).Pairwise Apart :=
    pairwise_apart_mirrorPairs (by omega)
  by_cases hlow : k - start < count
  · -- `k` is the lower position of pair `k - start`
    have hmem : (k, start + top - k, b (start + top - k)) ∈ mirrorPairs b start top count := by
      have h := @mirrorPairs_mem_of_lt b start top count _ hlow
      rwa [show start + (k - start) = k by omega, show top - (k - start) = start + top - k by omega]
        at h
    rw [(swapsTarget_of_mem hap hmem).1, max_eq_right (by omega)]
  · by_cases hhigh : top - k < count
    · -- `k` is the upper position of pair `top - k`
      have hmem : (start + top - k, k, b k) ∈ mirrorPairs b start top count := by
        have h := @mirrorPairs_mem_of_lt b start top count _ hhigh
        rwa [show start + (top - k) = start + top - k by omega, show top - (top - k) = k by omega]
          at h
      rw [(swapsTarget_of_mem hap hmem).2, max_eq_left (by omega)]
    · -- `k` is the middle, its own mirror image, and in no pair
      have hmid : start + top - k = k := by omega
      have hnone : ∀ q ∈ mirrorPairs b start top count, k ≠ q.1 ∧ k ≠ q.2.1 := by
        intro q hq
        obtain ⟨t, ht, rfl⟩ := mem_mirrorPairs.mp hq
        dsimp only
        omega
      rw [swapsTarget_of_forall_ne hnone, hmid, ite_self]

end Mirror

/-! Compositions of involutions. -/

section Involutions
variable {ρ : Type*} (f : ρ → ℕ → ℕ) {n : ℕ}

/-- Maps that keep `[0, n)` compose to one that keeps it, in either order. -/
theorem foldl_lt (hlt : ∀ r k, k < n → f r k < n) :
    ∀ (rs : List ρ) {k : ℕ}, k < n → rs.foldl (fun k r => f r k) k < n
  | [], _, hk => hk
  | r :: rs, _, hk => foldl_lt hlt rs (hlt r _ hk)

theorem foldr_lt (hlt : ∀ r k, k < n → f r k < n) :
    ∀ (rs : List ρ) {k : ℕ}, k < n → rs.foldr f k < n
  | [], _, hk => hk
  | r :: rs, _, hk => hlt r _ (foldr_lt hlt rs hk)

/-- Involutions of `[0, n)` applied in one order are undone by applying them in the other. -/
theorem foldr_foldl_of_involutive (hlt : ∀ r k, k < n → f r k < n)
    (hinv : ∀ r k, k < n → f r (f r k) = k) :
    ∀ (rs : List ρ) {k : ℕ}, k < n → rs.foldr f (rs.foldl (fun k r => f r k) k) = k
  | [], _, _ => rfl
  | r :: rs, k, hk => by
    rw [List.foldl_cons, List.foldr_cons, foldr_foldl_of_involutive hlt hinv rs (hlt r k hk),
      hinv r k hk]

theorem foldl_foldr_of_involutive (hlt : ∀ r k, k < n → f r k < n)
    (hinv : ∀ r k, k < n → f r (f r k) = k) :
    ∀ (rs : List ρ) {k : ℕ}, k < n → rs.foldl (fun k r => f r k) (rs.foldr f k) = k
  | [], _, _ => rfl
  | r :: rs, k, hk => by
    rw [List.foldr_cons, List.foldl_cons, hinv r _ (foldr_lt f hlt rs hk),
      foldl_foldr_of_involutive hlt hinv rs hk]

/-- Involutions of `[0, n)` compose to a bijection of `[0, n)`. -/
theorem bijOn_foldl_of_involutive (hlt : ∀ r k, k < n → f r k < n)
    (hinv : ∀ r k, k < n → f r (f r k) = k) (rs : List ρ) :
    Set.BijOn (fun k => rs.foldl (fun k r => f r k) k) (Set.Iio n) (Set.Iio n) := by
  have hinvOn : Set.InvOn (fun k => rs.foldr f k) (fun k => rs.foldl (fun k r => f r k) k)
      (Set.Iio n) (Set.Iio n) :=
    ⟨fun _ hk => foldr_foldl_of_involutive f hlt hinv rs hk,
      fun _ hk => foldl_foldr_of_involutive f hlt hinv rs hk⟩
  exact hinvOn.bijOn (fun _ hk => foldl_lt f hlt rs hk) (fun _ hk => foldr_lt f hlt rs hk)

end Involutions

end Lighthouse.Swaps
