import Mathlib.Data.List.Basic

/-! An implementation that keeps a cache inside its state, against a specification that never
reads it. `set c s` puts the cache `c` in place of the one in `s`, and `Inv` says that the
cache agrees with the rest of the state. `Refines set Inv f g` holds when every successful
run of the implementation `f` from a state satisfying `Inv` keeps `Inv`, and the specification
`g`, started from the same state with any cache in place, succeeds with the same result and that
cache still in place. The rules build it along the shape of the code: reads whose result feeds
the rest, sequencing, conditionals and loops. `RefinesFrom` fixes the start state, so that a value
read from it can still be used after later steps. A last rule runs a loop as the loop over the
members that a filter keeps. -/
namespace Lighthouse.CacheRefinement
variable {σ γ ε α : Type}

theorem bind_eq_ok {β : Type} {x : Except ε α} {f : α → Except ε β} {b : β} :
    x >>= f = .ok b ↔ ∃ a, x = .ok a ∧ f a = .ok b := by
  cases x <;> simp [bind, Except.bind]

@[simp] theorem ok_bind {β : Type} (a : α) (f : α → Except ε β) : (Except.ok a >>= f) = f a :=
  rfl

variable (set : γ → σ → σ) (Inv : σ → Prop)

/-- The implementation `f` keeps `Inv` and computes what the specification `g` computes. -/
def Refines (f g : σ → Except ε σ) : Prop :=
  ∀ s s', Inv s → f s = .ok s' → Inv s' ∧ ∀ c, g (set c s) = .ok (set c s')

/-- A computation that does not read the cache. -/
def Blind (r : σ → Except ε α) : Prop := ∀ c s, r (set c s) = r s

/-- `Refines` from one start state `s`: `x` is the implementation's run from `s`, and `y c` the
specification's from `s` with the cache `c` in place. Values read from the start state are then
fixed terms, which the rules for whole functions cannot bind. -/
def RefinesFrom (s : σ) (x : Except ε σ) (y : γ → Except ε σ) : Prop :=
  Inv s → ∀ s', x = .ok s' → Inv s' ∧ ∀ c, y c = .ok (set c s')

variable {set Inv}

theorem Refines.pure : Refines set Inv (fun s => (Pure.pure s : Except ε σ)) Pure.pure := by
  intro s s' hs h
  cases h
  exact ⟨hs, fun _ => rfl⟩

theorem Refines.bind {f₁ f₂ g₁ g₂ : σ → Except ε σ} (h₁ : Refines set Inv f₁ g₁)
    (h₂ : Refines set Inv f₂ g₂) :
    Refines set Inv (fun s => f₁ s >>= f₂) (fun s => g₁ s >>= g₂) := by
  intro s s'' hs h
  obtain ⟨s', hf₁, hf₂⟩ := bind_eq_ok.mp h
  obtain ⟨hs', hg₁⟩ := h₁ s s' hs hf₁
  obtain ⟨hs'', hg₂⟩ := h₂ s' s'' hs' hf₂
  refine ⟨hs'', fun c => ?_⟩
  show g₁ (set c s) >>= g₂ = _
  rw [hg₁ c]
  exact hg₂ c

theorem Refines.of_from {f g : σ → Except ε σ}
    (h : ∀ s, RefinesFrom set Inv s (f s) fun c => g (set c s)) : Refines set Inv f g :=
  fun s s' hs hf => h s hs s' hf

/-- A refining function run from a state `t` computed from the start state. -/
theorem RefinesFrom.update {s : σ} (t : σ) {f g : σ → Except ε σ} (h : Refines set Inv f g)
    (ht : Inv s → Inv t) : RefinesFrom set Inv s (f t) fun c => g (set c t) :=
  fun hs s' hf => h t s' (ht hs) hf

/-- A result `t` computed from the start state, the same on both sides. -/
theorem RefinesFrom.ok {s : σ} (t : σ) (ht : Inv s → Inv t) :
    RefinesFrom set Inv s (.ok t : Except ε σ) fun c => .ok (set c t) := by
  intro hs s' h
  cases h
  exact ⟨ht hs, fun _ => rfl⟩

theorem RefinesFrom.bind {s : σ} {f₁ g₁ k k' : σ → Except ε σ} (h₁ : Refines set Inv f₁ g₁)
    (h₂ : Refines set Inv k k') :
    RefinesFrom set Inv s (f₁ s >>= k) fun c => g₁ (set c s) >>= k' :=
  fun hs s' h => Refines.bind h₁ h₂ s s' hs h

/-- A value computed from the start state alone, then what both sides do with it. -/
theorem RefinesFrom.read {s : σ} {r : Except ε α} {k : α → Except ε σ} {k' : α → γ → Except ε σ}
    (h : ∀ a, r = .ok a → RefinesFrom set Inv s (k a) (k' a)) :
    RefinesFrom set Inv s (r >>= k) fun c => r >>= fun a => k' a c := by
  intro hs s' hrun
  obtain ⟨a, hra, hk⟩ := bind_eq_ok.mp hrun
  obtain ⟨hs', hg⟩ := h a hra hs s' hk
  refine ⟨hs', fun c => ?_⟩
  show r >>= (fun a => k' a c) = _
  rw [hra, ok_bind]
  exact hg c

/-- A value read without the cache, then what both sides do with it. -/
theorem Refines.read {r : σ → Except ε α} (hr : Blind set r) {f g : α → σ → Except ε σ}
    (h : ∀ a, Refines set Inv (f a) (g a)) :
    Refines set Inv (fun s => r s >>= fun a => f a s) (fun s => r s >>= fun a => g a s) := by
  intro s s' hs hrun
  obtain ⟨a, hra, hfa⟩ := bind_eq_ok.mp hrun
  obtain ⟨hs', hg⟩ := h a s s' hs hfa
  refine ⟨hs', fun c => ?_⟩
  show r (set c s) >>= (fun a => g a (set c s)) = _
  rw [hr c s, hra]
  exact hg c

theorem mapError_eq_ok {ε' : Type} {x : Except ε α} {e : ε → ε'} {a : α} :
    x.mapError e = .ok a ↔ x = .ok a := by
  cases x <;> simp [Except.mapError]

/-- Errors renamed on both sides. -/
theorem Refines.mapError {ε' : Type} (e : ε → ε') {f g : σ → Except ε σ}
    (h : Refines set Inv f g) :
    Refines set Inv (fun s => (f s).mapError e) (fun s => (g s).mapError e) := by
  intro s s' hs hrun
  obtain ⟨hs', hg⟩ := h s s' hs (mapError_eq_ok.mp hrun)
  exact ⟨hs', fun c => mapError_eq_ok.mpr (hg c)⟩

/-- A branch on a condition that does not depend on the cache. -/
theorem Refines.ite {p : σ → Prop} [DecidablePred p] (hp : ∀ c s, p (set c s) ↔ p s)
    {f₁ f₂ g₁ g₂ : σ → Except ε σ} (h₁ : Refines set Inv f₁ g₁) (h₂ : Refines set Inv f₂ g₂) :
    Refines set Inv (fun s => if p s then f₁ s else f₂ s) (fun s => if p s then g₁ s else g₂ s) := by
  intro s s' hs h
  by_cases hps : p s
  · obtain ⟨hs', hg⟩ := h₁ s s' hs (by simpa [hps] using h)
    exact ⟨hs', fun c => by simpa [(hp c s).mpr hps] using hg c⟩
  · obtain ⟨hs', hg⟩ := h₂ s s' hs (by simpa [hps] using h)
    exact ⟨hs', fun c => by simpa [mt (hp c s).mp hps] using hg c⟩

/-- A loop whose every turn refines. -/
theorem Refines.foldlM {l : List α} {f g : σ → α → Except ε σ}
    (h : ∀ x ∈ l, Refines set Inv (fun s => f s x) (fun s => g s x)) :
    Refines set Inv (fun s => l.foldlM f s) (fun s => l.foldlM g s) := by
  induction l with
  | nil => exact Refines.pure
  | cons x l ih =>
    simp only [List.foldlM_cons]
    exact Refines.bind (h x List.mem_cons_self)
      (ih fun y hy => h y (List.mem_cons_of_mem x hy))

/-- A loop over `l` runs as the loop over the members that `p` keeps, when a turn on a member
that `p` drops leaves alone every state in which that member is still `Fresh`, and a turn on one
member keeps fresh every later member it is related to by `R`. -/
theorem foldlM_filter_of_fresh {f : σ → α → Except ε σ} (p : α → Bool) (Fresh : σ → α → Prop)
    {R : α → α → Prop} (hskip : ∀ s x, Fresh s x → p x = false → f s x = .ok s)
    (hfresh : ∀ s s' x y, R x y → Fresh s y → f s x = .ok s' → Fresh s' y) :
    ∀ {l : List α} {s : σ}, l.Pairwise R → (∀ y ∈ l, Fresh s y) →
      l.foldlM f s = (l.filter p).foldlM f s
  | [], _, _, _ => rfl
  | x :: l, s, hl, hs => by
    obtain ⟨hx, hl⟩ := List.pairwise_cons.mp hl
    cases hp : p x with
    | false =>
      rw [List.filter_cons_of_neg (by simp [hp]), List.foldlM_cons,
        hskip s x (hs x List.mem_cons_self) hp, ok_bind]
      exact foldlM_filter_of_fresh p Fresh hskip hfresh hl
        fun y hy => hs y (List.mem_cons_of_mem x hy)
    | true =>
      rw [List.filter_cons_of_pos hp, List.foldlM_cons, List.foldlM_cons]
      cases hf : f s x with
      | error e => rfl
      | ok s' =>
        -- The turn on `x` keeps every later member fresh.
        exact foldlM_filter_of_fresh p Fresh hskip hfresh hl fun y hy =>
          hfresh s s' x y (hx y hy) (hs y (List.mem_cons_of_mem x hy)) hf

end Lighthouse.CacheRefinement
