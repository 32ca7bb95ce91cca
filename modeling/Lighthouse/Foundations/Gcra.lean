import Mathlib.Order.Basic
import Mathlib.Algebra.GroupWithZero.Nat

/-! The generic cell rate algorithm (GCRA) on one key. Its state is a theoretical arrival time
`tat`. An arrival at time `x` that costs `c` conforms when the cost is at most the burst
tolerance `tau` and `tat + c ≤ x + tau`; it then moves `tat` to `max x tat + c`.

Whatever the arrivals, in whatever order of time, and from whatever `tat`, the costs accepted at
times in `[a, b]` sum to at most `tau + (b - a)`: each acceptance in the window raises `tat` by
its cost from at least `a`, and leaves it at most `tau` past its own time. A theoretical arrival
time already past acts as the arrival time itself, which is why a key may be forgotten once its
time has passed. -/
namespace Lighthouse.Gcra

/-- One arrival: the new theoretical arrival time if it conforms. -/
def step (tau tat x c : ℕ) : Option ℕ :=
  if c ≤ tau ∧ tat + c ≤ x + tau then some (max x tat + c) else none

/-- The conforming arrivals of a run from `tat`, as (time, cost). -/
def accepted (tau : ℕ) : ℕ → List (ℕ × ℕ) → List (ℕ × ℕ)
  | _, [] => []
  | tat, (x, c) :: rest =>
    match step tau tat x c with
    | some tat' => (x, c) :: accepted tau tat' rest
    | none => accepted tau tat rest

/-- The total cost of the arrivals at times in `[a, b]`. -/
def windowCost (a b : ℕ) (arrivals : List (ℕ × ℕ)) : ℕ :=
  ((arrivals.filter fun p => a ≤ p.1 ∧ p.1 ≤ b).map Prod.snd).sum

section Step
variable {tau tat x c tat' : ℕ}

@[simp] theorem step_eq_some :
    step tau tat x c = some tat' ↔ c ≤ tau ∧ tat + c ≤ x + tau ∧ max x tat + c = tat' := by
  unfold step
  split_ifs with h
  · simp [h]
  · simp only [false_iff]
    omega

@[simp] theorem step_eq_none : step tau tat x c = none ↔ ¬ (c ≤ tau ∧ tat + c ≤ x + tau) := by
  unfold step
  split_ifs with h <;> simp [h]

/-- A theoretical arrival time at or before the arrival acts as the arrival time itself. -/
theorem step_of_le (h : tat ≤ x) : step tau tat x c = step tau x x c := by
  unfold step
  have hmax : max x tat = max x x := by omega
  rw [hmax]
  congr 1
  apply propext
  omega

theorem le_of_step (h : step tau tat x c = some tat') : tat ≤ tat' := by
  obtain ⟨-, -, rfl⟩ := step_eq_some.mp h
  omega

/-- After a conforming arrival the theoretical arrival time is at most `tau` past it. -/
theorem step_le (h : step tau tat x c = some tat') : tat' ≤ x + tau := by
  obtain ⟨hc, hle, rfl⟩ := step_eq_some.mp h
  omega

end Step

section Window
variable (a b : ℕ)

@[simp] theorem windowCost_nil : windowCost a b [] = 0 := rfl

theorem windowCost_cons (x c : ℕ) (arrivals : List (ℕ × ℕ)) :
    windowCost a b ((x, c) :: arrivals) =
      (if a ≤ x ∧ x ≤ b then c else 0) + windowCost a b arrivals := by
  unfold windowCost
  by_cases h : a ≤ x ∧ x ≤ b
  · simp [h]
  · simp [h]

end Window

theorem mem_accepted {tau : ℕ} {p : ℕ × ℕ} :
    ∀ {tat : ℕ} {arrivals : List (ℕ × ℕ)}, p ∈ accepted tau tat arrivals → p ∈ arrivals ∧ p.2 ≤ tau
  | _, [], h => by cases h
  | tat, (x, c) :: rest, h => by
    unfold accepted at h
    cases hs : step tau tat x c with
    | none =>
      rw [hs] at h
      exact ⟨List.mem_cons_of_mem _ (mem_accepted h).1, (mem_accepted h).2⟩
    | some tat' =>
      rw [hs] at h
      rcases List.mem_cons.mp h with rfl | h
      · exact ⟨List.mem_cons_self, (step_eq_some.mp hs).1⟩
      · exact ⟨List.mem_cons_of_mem _ (mem_accepted h).1, (mem_accepted h).2⟩

/-- The window bound, carried along the run: `W` is the cost accepted in `[a, b]` so far, and
the theoretical arrival time is at least `a + W`. -/
theorem windowCost_accepted_add_le (tau a b : ℕ) :
    ∀ (tat W : ℕ) (arrivals : List (ℕ × ℕ)), a + W ≤ max a tat → W ≤ tau + (b - a) →
      W + windowCost a b (accepted tau tat arrivals) ≤ tau + (b - a)
  | _, W, [], _, hW => by simpa [accepted] using hW
  | tat, W, (x, c) :: rest, hlo, hW => by
    unfold accepted
    cases hs : step tau tat x c with
    | none => exact windowCost_accepted_add_le tau a b tat W rest hlo hW
    | some tat' =>
      have hup := le_of_step hs
      have hle := step_le hs
      obtain ⟨hc, -, htat'⟩ := step_eq_some.mp hs
      simp only [windowCost_cons]
      by_cases hx : a ≤ x ∧ x ≤ b
      · -- An acceptance in the window: the cost is added, and `tat'` is at least `a + W + c`
        -- and at most `b + tau`.
        rw [if_pos hx, ← Nat.add_assoc]
        apply windowCost_accepted_add_le tau a b tat' (W + c) rest
        · omega
        · omega
      · rw [if_neg hx, Nat.zero_add]
        exact windowCost_accepted_add_le tau a b tat' W rest (by omega) hW

/-- The costs accepted at times in `[a, b]` sum to at most `tau + (b - a)`. -/
theorem windowCost_accepted_le (tau tat a b : ℕ) (arrivals : List (ℕ × ℕ)) :
    windowCost a b (accepted tau tat arrivals) ≤ tau + (b - a) := by
  have h := windowCost_accepted_add_le tau a b tat 0 arrivals (by omega) (Nat.zero_le _)
  simpa using h

end Lighthouse.Gcra
