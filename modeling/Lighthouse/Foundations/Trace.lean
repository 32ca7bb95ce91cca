import Mathlib.Data.List.Basic

/-! Runs of a step function that emits events, and the two induction rules used for
invariants over whole runs: one for a property of the state and the events so far,
one for a relation that must hold between every event and every later one. -/
namespace Lighthouse.Trace
variable {σ ι ε : Type*}

/-- Feed the inputs to `step` in order, appending the events of each step to those
already emitted. -/
def run (step : σ → ι → σ × List ε) : σ × List ε → List ι → σ × List ε
  | acc, [] => acc
  | (s, es), i :: is => run step ((step s i).1, es ++ (step s i).2) is

@[simp] theorem run_nil (step : σ → ι → σ × List ε) (acc : σ × List ε) :
    run step acc [] = acc := rfl

theorem run_cons (step : σ → ι → σ × List ε) (s : σ) (es : List ε) (i : ι) (is : List ι) :
    run step (s, es) (i :: is) = run step ((step s i).1, es ++ (step s i).2) is := rfl

theorem run_append (step : σ → ι → σ × List ε) (acc : σ × List ε) (is js : List ι) :
    run step acc (is ++ js) = run step (run step acc is) js := by
  induction is generalizing acc with
  | nil => rfl
  | cons i is ih => exact ih _

/-- A run started with events already emitted emits its own after them. -/
theorem run_eq_append_events (step : σ → ι → σ × List ε) (s : σ) (es : List ε) (is : List ι) :
    run step (s, es) is = ((run step (s, []) is).1, es ++ (run step (s, []) is).2) := by
  induction is generalizing s es with
  | nil => simp
  | cons i is ih =>
    rw [run_cons, run_cons, ih, ih _ ([] ++ _)]
    simp

/-- A run whose every step an abstract machine `astep` simulates: run on the concrete
events, the abstract machine ends in the abstraction of the concrete final state, having
emitted, after what it had, what `out` says of each concrete step. -/
theorem run_simulate {τ ο : Type*} {step : σ → ι → σ × List ε} {astep : τ → ε → τ × List ο}
    (abs : σ → τ) (out : σ → ι → List ο) (is : List ι)
    (h : ∀ s i, i ∈ is → run astep (abs s, []) (step s i).2 = (abs (step s i).1, out s i)) :
    ∀ s os, run astep (abs s, os) (run step (s, []) is).2 =
      (abs (run (fun s i => ((step s i).1, out s i)) (s, []) is).1,
        os ++ (run (fun s i => ((step s i).1, out s i)) (s, []) is).2) := by
  induction is with
  | nil => intro s os; simp
  | cons i is ih =>
    intro s os
    -- The first step's events, then the rest of the run from the state it leaves.
    have hi : run astep (abs s, os) (step s i).2 = (abs (step s i).1, os ++ out s i) := by
      rw [run_eq_append_events, h s i List.mem_cons_self]
    rw [run_cons, run_cons, run_eq_append_events step, List.nil_append, run_append, hi,
      ih (fun s j hj => h s j (List.mem_cons_of_mem i hj))]
    dsimp only
    rw [run_eq_append_events _ _ ([] ++ out s i), List.nil_append, List.append_assoc]

/-- The events of a run, each replaced by a list: the run of the steps that emit the
replacements. -/
theorem run_flatMap {ο : Type*} (step : σ → ι → σ × List ε) (g : ε → List ο) (is : List ι) :
    ∀ s, (run step (s, []) is).2.flatMap g =
      (run (fun s i => ((step s i).1, (step s i).2.flatMap g)) (s, []) is).2 := by
  induction is with
  | nil => intro s; rfl
  | cons i is ih =>
    intro s
    rw [run_cons, run_cons]
    dsimp only
    rw [run_eq_append_events step, run_eq_append_events _ _ ([] ++ List.flatMap _ _),
      List.nil_append, List.nil_append, List.flatMap_append, ih]

/-- An invariant of the state and the events so far that every step on one of the
inputs keeps holds at the end of the run. -/
theorem run_induction {step : σ → ι → σ × List ε} (Inv : σ → List ε → Prop)
    (is : List ι)
    (hstep : ∀ s es i, i ∈ is → Inv s es → Inv (step s i).1 (es ++ (step s i).2)) :
    ∀ s es, Inv s es → Inv (run step (s, es) is).1 (run step (s, es) is).2 := by
  induction is with
  | nil => intro s es h; exact h
  | cons i is ih =>
    intro s es h
    rw [run_cons]
    apply ih (fun s es j hj => hstep s es j (List.mem_cons_of_mem i hj))
    exact hstep s es i List.mem_cons_self h

/-- Every event of a run is `R`-related to each later one, when each step's own events
are, and each of them is related back to every event before the step. The invariant
`Inv` carries what the steps need to know about the state. -/
theorem run_pairwise {step : σ → ι → σ × List ε} (Inv : σ → List ε → Prop)
    (R : ε → ε → Prop) (is : List ι)
    (hkeep : ∀ s es i, i ∈ is → Inv s es → Inv (step s i).1 (es ++ (step s i).2))
    (hnew : ∀ s es i, i ∈ is → Inv s es →
      (step s i).2.Pairwise R ∧ ∀ e ∈ es, ∀ e' ∈ (step s i).2, R e e')
    (s : σ) (es : List ε) (hinv : Inv s es) (hes : es.Pairwise R) :
    (run step (s, es) is).2.Pairwise R := by
  have h := run_induction (fun s es => Inv s es ∧ es.Pairwise R) is
    (fun s es i hi ⟨hs, hp⟩ => by
      obtain ⟨hown, hback⟩ := hnew s es i hi hs
      exact ⟨hkeep s es i hi hs, List.pairwise_append.mpr ⟨hp, hown, hback⟩⟩)
    s es ⟨hinv, hes⟩
  exact h.2

/-- A property that every step of a fold in `Except` keeps holds of its result: the rule
for a loop that aborts at the first failure. -/
theorem foldlM_except_induction {α β ε' : Type} (P : β → Prop) (f : β → α → Except ε' β) :
    ∀ (l : List α) (b b' : β), (∀ b a b', a ∈ l → P b → f b a = .ok b' → P b') →
      P b → l.foldlM f b = .ok b' → P b' := by
  intro l
  induction l with
  | nil =>
    intro b b' _ hb h
    cases h
    exact hb
  | cons a l ih =>
    intro b b' hf hb h
    simp only [List.foldlM_cons, bind, Except.bind] at h
    split at h
    · cases h
    · rename_i b₁ h₁
      exact ih b₁ b' (fun c x c' hx => hf c x c' (List.mem_cons_of_mem a hx))
        (hf b a b₁ List.mem_cons_self hb h₁) h

/-- A property of the state indexed by the number of elements done, that every step of a fold
in `Except` over an enumerated list (`iter().enumerate()` with `?`) takes from one index to the
next, holds of its result at the list's length. -/
theorem foldlM_zipIdx_induction {α β ε' : Type} (motive : ℕ → β → Prop)
    (f : β → α × ℕ → Except ε' β) :
    ∀ (l : List α) (n : ℕ) (b b' : β),
      (∀ k b b' a, l[k]? = some a → motive (n + k) b → f b (a, n + k) = .ok b' →
        motive (n + k + 1) b') →
      motive n b → (l.zipIdx n).foldlM f b = .ok b' → motive (n + l.length) b' := by
  intro l
  induction l with
  | nil =>
    intro n b b' _ hb h
    cases h
    exact hb
  | cons a l ih =>
    intro n b b' hf hb h
    simp only [List.zipIdx_cons, List.foldlM_cons, bind, Except.bind] at h
    split at h
    · cases h
    · rename_i b₁ h₁
      -- The first element is the one at index `n`; the rest of the list starts at `n + 1`.
      have hb₁ : motive (n + 1) b₁ := hf 0 b b₁ a rfl hb h₁
      have h' := ih (n + 1) b₁ b' (fun k c c' x hx hc hfx => by
        have e : n + 1 + k = n + (k + 1) := by omega
        rw [e] at hc hfx ⊢
        exact hf (k + 1) c c' x hx hc hfx) hb₁ h
      have e : n + 1 + l.length = n + (a :: l).length := by
        rw [List.length_cons]
        omega
      rwa [e] at h'

end Lighthouse.Trace
