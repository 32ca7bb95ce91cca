import Mathlib.Order.Basic
import Mathlib.Order.Lattice
import Mathlib.Data.Set.Function

/-! In-place loops over an array indexed by `ℕ`. An early-exit sweep that lowers every value
above `t` to `t`, walking down from the top of a range and stopping at the first value already at
most `t`, computes the pointwise minimum with `t` on the whole range when the array is monotone:
below the stopping point every value is at most the one it stopped at. Raising values up to `t`
while walking up is the mirror image. `clipAbove F t lo hi` and `clipBelow F t lo hi` are those
results on `[lo, hi)`; the lemmas are the steps of such a loop. A last lemma runs a fallible loop
beside a pure one that it simulates. -/
namespace Lighthouse.Sweep
variable {β : Type*} [LinearOrder β]

/-- `F` with every value on `[lo, hi)` lowered to at most `t`. -/
def clipAbove (F : ℕ → β) (t : β) (lo hi : ℕ) : ℕ → β :=
  fun x => if lo ≤ x ∧ x < hi then min (F x) t else F x

/-- `F` with every value on `[lo, hi)` raised to at least `t`. -/
def clipBelow (F : ℕ → β) (t : β) (lo hi : ℕ) : ℕ → β :=
  fun x => if lo ≤ x ∧ x < hi then max (F x) t else F x

variable {F : ℕ → β} {t : β}

theorem clipAbove_of_le {lo hi : ℕ} (h : hi ≤ lo) : clipAbove F t lo hi = F := by
  funext x
  simp only [clipAbove]
  rw [if_neg (by omega)]

theorem clipBelow_of_le {lo hi : ℕ} (h : hi ≤ lo) : clipBelow F t lo hi = F := by
  funext x
  simp only [clipBelow]
  rw [if_neg (by omega)]

/-- One turn of the downward sweep: the value at `e`, above `t`, becomes `t`. -/
theorem update_clipAbove {e hi : ℕ} (he : e < hi) (ht : t ≤ F e) :
    Function.update (clipAbove F t (e + 1) hi) e t = clipAbove F t e hi := by
  funext x
  by_cases hx : x = e
  · subst hx
    simp [clipAbove, he, ht]
  · rw [Function.update_of_ne hx]
    simp only [clipAbove]
    have : (e + 1 ≤ x ∧ x < hi) ↔ (e ≤ x ∧ x < hi) := by omega
    simp only [this]

/-- One turn of the upward sweep: the value at `e`, below `t`, becomes `t`. -/
theorem update_clipBelow {lo e : ℕ} (he : lo ≤ e) (ht : F e ≤ t) :
    Function.update (clipBelow F t lo e) e t = clipBelow F t lo (e + 1) := by
  funext x
  by_cases hx : x = e
  · subst hx
    simp [clipBelow, he, ht]
  · rw [Function.update_of_ne hx]
    simp only [clipBelow]
    have : (lo ≤ x ∧ x < e) ↔ (lo ≤ x ∧ x < e + 1) := by omega
    simp only [this]

/-- The downward sweep may stop at `m`: below it every value is already at most `t`. -/
theorem clipAbove_eq_of_le {lo m hi : ℕ} (hm : lo ≤ m) (hle : ∀ x, lo ≤ x → x < m → F x ≤ t) :
    clipAbove F t m hi = clipAbove F t lo hi := by
  funext x
  simp only [clipAbove]
  by_cases hx : lo ≤ x ∧ x < m
  · rw [if_neg (by omega), min_eq_left (hle x hx.1 hx.2)]
    split_ifs <;> rfl
  · have : (m ≤ x ∧ x < hi) ↔ (lo ≤ x ∧ x < hi) := by omega
    simp only [this]

/-- The upward sweep may stop at `m`: from it on every value is already at least `t`. -/
theorem clipBelow_eq_of_le {lo m hi : ℕ} (hm : m ≤ hi) (hle : ∀ x, m ≤ x → x < hi → t ≤ F x) :
    clipBelow F t lo m = clipBelow F t lo hi := by
  funext x
  simp only [clipBelow]
  by_cases hx : m ≤ x ∧ x < hi
  · rw [if_neg (by omega), max_eq_left (hle x hx.1 hx.2)]
    split_ifs <;> rfl
  · have : (lo ≤ x ∧ x < m) ↔ (lo ≤ x ∧ x < hi) := by omega
    simp only [this]

/-- Functions equal on `s` stay equal there after the same update. -/
theorem eqOn_update {γ : Type*} {f g : ℕ → γ} {s : Set ℕ} (h : Set.EqOn f g s) (e : ℕ) (a : γ) :
    Set.EqOn (Function.update f e a) (Function.update g e a) s := by
  intro x hx
  by_cases hxe : x = e
  · subst hxe
    simp
  · rw [Function.update_of_ne hxe, Function.update_of_ne hxe]
    exact h hx

/-- A fallible loop simulates a pure one: a relation that each turn keeps between the two
states holds between their ends, when the fallible loop returns. -/
theorem foldlM_sim {σ τ α ε : Type*} {f : σ → α → Except ε σ} {g : τ → α → τ}
    (R : σ → τ → Prop) {l : List α}
    (h : ∀ x ∈ l, ∀ s a s', R s a → f s x = .ok s' → R s' (g a x)) {s : σ} {a : τ} {s' : σ}
    (hR : R s a) (hf : l.foldlM f s = .ok s') : R s' (l.foldl g a) := by
  induction l generalizing s a with
  | nil =>
    cases hf
    exact hR
  | cons x l ih =>
    rw [List.foldlM_cons] at hf
    cases hx : f s x with
    | error e =>
      rw [hx] at hf
      cases hf
    | ok s₁ =>
      rw [hx] at hf
      exact ih (fun y hy => h y (List.mem_cons_of_mem x hy))
        (h x List.mem_cons_self s a s₁ hR hx) hf

end Lighthouse.Sweep
