import Mathlib.Logic.Basic

/-! Pre- and postconditions for programs in `EStateM`: a computation on a state that may fail
and keeps what it wrote before failing, the shape of a method on `&mut self` that returns a
`Result`. `Triple P m Q E` says that from a state satisfying `P` the program either returns `a`
in a state satisfying `Q a` or fails with `e` in a state satisfying `E e`. One rule per
combinator; loops written as recursion are proved by induction from these. -/
namespace Lighthouse.EState
variable {ε σ α β : Type}

def Triple (P : σ → Prop) (m : EStateM ε σ α) (Q : α → σ → Prop) (E : ε → σ → Prop) : Prop :=
  ∀ s, P s → match m.run s with
    | .ok a s' => Q a s'
    | .error e s' => E e s'

/-- The value of an `Option`, or the error when there is none (`ok_or` followed by `?`). -/
def ofOption (o : Option α) (e : ε) : EStateM ε σ α :=
  match o with
  | some a => pure a
  | none => throw e

/-- The state a run ends in, whether it returned or failed. -/
def final : EStateM.Result ε σ α → σ
  | .ok _ s => s
  | .error _ s => s

/-- Whether a run ended with an error. -/
def failed : EStateM.Result ε σ α → Bool
  | .ok _ _ => false
  | .error _ _ => true

theorem failed_eq_error {r : EStateM.Result ε σ α} (h : failed r = true) :
    ∃ e, r = .error e (final r) := by
  cases r with
  | ok a s => cases h
  | error e s => exact ⟨e, rfl⟩

theorem failed_eq_ok {r : EStateM.Result ε σ α} (h : failed r = false) :
    ∃ a, r = .ok a (final r) := by
  cases r with
  | ok a s => exact ⟨a, rfl⟩
  | error e s => cases h

/-- `ok_or(e)` on a value that does not touch the state. -/
def okOr (o : Option α) (e : ε) : Except ε α :=
  match o with
  | some a => .ok a
  | none => .error e

/-- A `Result` computed without touching the state, propagated with `?`. -/
def ofResult (x : Except ε α) : EStateM ε σ α :=
  match x with
  | .ok a => pure a
  | .error e => throw e

/-- Run a program on one part of a larger state, mapping its errors: a method called on a
field (`self.proto_array.f().map_err(g)?`). -/
def focus {τ ε' : Type} (view : τ → σ) (update : τ → σ → τ) (g : ε → ε') (m : EStateM ε σ α) :
    EStateM ε' τ α := fun t =>
  match m.run (view t) with
  | .ok a s => .ok a (update t s)
  | .error e s => .error (g e) (update t s)

@[simp] theorem okOr_eq_ok {o : Option α} {e : ε} {a : α} : okOr o e = .ok a ↔ o = some a := by
  cases o <;> simp [okOr]

/-- The errors a `Result` can carry are among `R`. -/
def ErrorsIn (R : ε → Prop) (x : Except ε α) : Prop := ∀ e, x = .error e → R e

section ErrorsIn
variable {R : ε → Prop}

theorem ErrorsIn.pure {a : α} : ErrorsIn R (pure a : Except ε α) := by
  intro e h
  cases h

theorem ErrorsIn.okOr {o : Option α} {e : ε} (h : R e) : ErrorsIn R (okOr o e) := by
  intro e' he
  cases o with
  | some a => cases he
  | none => cases he; exact h

theorem ErrorsIn.bind {x : Except ε α} {f : α → Except ε β} (hx : ErrorsIn R x)
    (hf : ∀ a, x = .ok a → ErrorsIn R (f a)) : ErrorsIn R (x >>= f) := by
  intro e he
  cases x with
  | error e' =>
    cases he
    exact hx _ rfl
  | ok a => exact hf a rfl e he

theorem ErrorsIn.throw_bind {e : ε} {f : α → Except ε β} (h : R e) :
    ErrorsIn R (throw e >>= f) := by
  intro e' he
  cases he
  exact h

theorem ErrorsIn.ite {c : Prop} [Decidable c] {x y : Except ε α} (h₁ : c → ErrorsIn R x)
    (h₂ : ¬ c → ErrorsIn R y) : ErrorsIn R (if c then x else y) := by
  by_cases hc : c
  · simpa only [if_pos hc] using h₁ hc
  · simpa only [if_neg hc] using h₂ hc

end ErrorsIn

variable {P P' : σ → Prop} {Q Q' : α → σ → Prop} {E E' : ε → σ → Prop}

theorem Triple.run {m : EStateM ε σ α} (h : Triple P m Q E) {s : σ} (hs : P s) :
    (∀ a s', m.run s = .ok a s' → Q a s') ∧ (∀ e s', m.run s = .error e s' → E e s') := by
  have := h s hs
  constructor
  · intro a s' hrun
    rw [hrun] at this
    exact this
  · intro e s' hrun
    rw [hrun] at this
    exact this

/-- A triple whose postconditions agree bounds the final state of every run. -/
theorem Triple.final {m : EStateM ε σ α} {I : σ → Prop} (h : Triple P m (fun _ => I) (fun _ => I))
    {s : σ} (hs : P s) : I (EState.final (m.run s)) := by
  have := h s hs
  revert this
  cases m.run s <;> exact id

/-- A bound on the final state of every run is a triple whose postconditions agree. -/
theorem Triple.of_final {m : EStateM ε σ α} {I : σ → Prop}
    (h : ∀ s, P s → I (EState.final (m.run s))) : Triple P m (fun _ => I) (fun _ => I) := by
  intro s hs
  have := h s hs
  revert this
  cases m.run s <;> exact id

theorem Triple.mono {m : EStateM ε σ α} (h : Triple P m Q E) (hP : ∀ s, P' s → P s)
    (hQ : ∀ a s, Q a s → Q' a s) (hE : ∀ e s, E e s → E' e s) : Triple P' m Q' E' := by
  intro s hs
  have := h s (hP s hs)
  split at this <;> simp_all

theorem Triple.and {m : EStateM ε σ α} {P₂ : σ → Prop} {Q₂ : α → σ → Prop}
    {E₂ : ε → σ → Prop} (h₁ : Triple P m Q E) (h₂ : Triple P₂ m Q₂ E₂) :
    Triple (fun s => P s ∧ P₂ s) m (fun a s => Q a s ∧ Q₂ a s) (fun e s => E e s ∧ E₂ e s) := by
  intro s ⟨hs, hs₂⟩
  have k₁ := h₁ s hs
  have k₂ := h₂ s hs₂
  split at k₁ <;> simp_all

/-- A triple used from one state that satisfies its precondition. -/
theorem Triple.at_state {m : EStateM ε σ α} (h : Triple P m Q E) {s : σ} (hs : P s) :
    Triple (· = s) m Q E := by
  intro t ht
  subst ht
  exact h t hs

/-- Fix the initial state: a triple for each state satisfying `P`, taken alone. -/
theorem Triple.intro {m : EStateM ε σ α} (h : ∀ s₀, P s₀ → Triple (· = s₀) m Q E) :
    Triple P m Q E :=
  fun s hs => h s hs s rfl

theorem Triple.pure {a : α} (h : ∀ s, P s → Q a s) : Triple P (pure a) Q E := h

theorem Triple.throw {e : ε} (h : ∀ s, P s → E e s) :
    Triple P (throw e : EStateM ε σ α) Q E := h

/-- Nothing after a `throw` runs. -/
theorem Triple.throw_bind {e : ε} {f : α → EStateM ε σ β} {Q : β → σ → Prop}
    (h : ∀ s, P s → E e s) : Triple P (MonadExcept.throw e >>= f) Q E := h

theorem Triple.bind {m : EStateM ε σ α} {f : α → EStateM ε σ β} {R : α → σ → Prop}
    {Q : β → σ → Prop} (hm : Triple P m R E) (hf : ∀ a, Triple (R a) (f a) Q E) :
    Triple P (m >>= f) Q E := by
  intro s hs
  have := hm s hs
  show match (match m.run s with
      | .ok a s' => (f a).run s'
      | .error e s' => .error e s') with
    | .ok b s'' => Q b s''
    | .error e s'' => E e s''
  split at this
  · rename_i a s' _
    exact hf a s' this
  · exact this

theorem Triple.get_bind {f : σ → EStateM ε σ β} {Q : β → σ → Prop}
    (h : ∀ s₀, P s₀ → Triple (· = s₀) (f s₀) Q E) : Triple P (get >>= f) Q E :=
  fun s hs => h s hs s rfl

/-- A read of a known state. -/
theorem Triple.get_bind_eq {s : σ} {f : σ → EStateM ε σ β} {Q : β → σ → Prop}
    (h : Triple (· = s) (f s) Q E) : Triple (· = s) (get >>= f) Q E :=
  Triple.get_bind fun _ h₀ => by
    subst h₀
    exact h

theorem Triple.set {s' : σ} {Q : PUnit → σ → Prop} (h : ∀ s, P s → Q ⟨⟩ s') :
    Triple P (set s' : EStateM ε σ PUnit) Q E := h

/-- After `set s'` the state is `s'`. -/
theorem Triple.set_eq {s' : σ} :
    Triple P (MonadStateOf.set s' : EStateM ε σ PUnit) (fun _ t => t = s') E :=
  fun _ _ => rfl

theorem Triple.modify_of {f : σ → σ} {Q : PUnit → σ → Prop} (h : ∀ s, P s → Q ⟨⟩ (f s)) :
    Triple P (modify f : EStateM ε σ PUnit) Q E := h

/-- After `modify f` from a known state `s` the state is `f s`. -/
theorem Triple.modify_eq {s : σ} {f : σ → σ} :
    Triple (· = s) (modify f : EStateM ε σ PUnit) (fun _ t => t = f s) E :=
  fun _ h => h ▸ rfl

theorem Triple.ofOption {o : Option α} {e : ε} (hsome : ∀ a, o = some a → ∀ s, P s → Q a s)
    (hnone : o = none → ∀ s, P s → E e s) : Triple P (ofOption o e) Q E := by
  cases o with
  | some a => exact Triple.pure (hsome a rfl)
  | none => exact Triple.throw (hnone rfl)

theorem Triple.ofResult {x : Except ε α}
    (hok : ∀ a, x = .ok a → ∀ s, P s → Q a s) (herr : ∀ e, x = .error e → ∀ s, P s → E e s) :
    Triple P (ofResult x) Q E := by
  cases x with
  | ok a => exact Triple.pure (hok a rfl)
  | error e => exact Triple.throw (herr e rfl)

/-- Continue with the value of an `Option`, or fail with `e` where there is none. -/
theorem Triple.ofOption_bind {o : Option α} {e : ε} {f : α → EStateM ε σ β} {Q : β → σ → Prop}
    (hsome : ∀ a, o = some a → Triple P (f a) Q E) (hnone : o = none → ∀ s, P s → E e s) :
    Triple P (EState.ofOption o e >>= f) Q E := by
  cases o with
  | some a => exact hsome a rfl
  | none => exact hnone rfl

theorem Triple.ofResult_bind {x : Except ε α} {f : α → EStateM ε σ β} {Q : β → σ → Prop}
    (hok : ∀ a, x = .ok a → Triple P (f a) Q E) (herr : ∀ e, x = .error e → ∀ s, P s → E e s) :
    Triple P (EState.ofResult x >>= f) Q E := by
  cases x with
  | ok a => exact hok a rfl
  | error e => exact herr e rfl

theorem Triple.focus {τ ε' : Type} {view : τ → σ} {update : τ → σ → τ} {g : ε → ε'}
    {m : EStateM ε σ α} {P : τ → Prop} {Q : α → τ → Prop} {E : ε' → τ → Prop}
    {Pm : σ → Prop} {Qm : α → σ → Prop} {Em : ε → σ → Prop}
    (hm : Triple Pm m Qm Em) (hP : ∀ t, P t → Pm (view t))
    (hQ : ∀ t a s, P t → Qm a s → Q a (update t s))
    (hE : ∀ t e s, P t → Em e s → E (g e) (update t s)) :
    Triple P (focus view update g m) Q E := by
  intro t ht
  have := hm (view t) (hP t ht)
  simp only [EStateM.run] at this ⊢
  cases h : m (view t) with
  | ok a s =>
    rw [h] at this
    have hf : EState.focus view update g m t = .ok a (update t s) := by
      unfold EState.focus
      simp only [EStateM.run, h]
    rw [hf]
    exact hQ t a s ht this
  | error e s =>
    rw [h] at this
    have hf : EState.focus view update g m t = .error (g e) (update t s) := by
      unfold EState.focus
      simp only [EStateM.run, h]
    rw [hf]
    exact hE t e s ht this

/-- A loop keeps an invariant that each iteration keeps, also when one fails. -/
theorem Triple.forM {l : List β} {f : β → EStateM ε σ PUnit} {I : σ → Prop}
    (h : ∀ b ∈ l, Triple I (f b) (fun _ => I) (fun _ => I)) :
    Triple I (forM l f) (fun _ => I) (fun _ => I) := by
  induction l with
  | nil =>
    rw [List.forM_nil]
    exact Triple.pure fun _ hs => hs
  | cons b l ih =>
    rw [List.forM_cons]
    exact Triple.bind (h b List.mem_cons_self) fun _ =>
      ih fun b' hb' => h b' (List.mem_cons_of_mem _ hb')

theorem Triple.ite {c : Prop} [Decidable c] {m₁ m₂ : EStateM ε σ α}
    (h₁ : c → Triple P m₁ Q E) (h₂ : ¬ c → Triple P m₂ Q E) :
    Triple P (if c then m₁ else m₂) Q E := by
  by_cases hc : c
  · simpa only [if_pos hc] using h₁ hc
  · simpa only [if_neg hc] using h₂ hc

/-- The states reached from one satisfying `Init` by running the programs `step i` one after
another, each from the state the last one left, whether it returned or failed. -/
inductive Reachable {ι : Type} (Init : σ → Prop) (step : ι → EStateM ε σ α) : σ → Prop
  | init {s : σ} : Init s → Reachable Init step s
  | step {s : σ} (i : ι) : Reachable Init step s → Reachable Init step (EState.final ((step i).run s))

/-- An invariant that holds initially and that every program keeps, also when it fails, holds
in every reachable state. -/
theorem Reachable.invariant {ι : Type} {Init I : σ → Prop} {step : ι → EStateM ε σ α}
    (hinit : ∀ s, Init s → I s) (hstep : ∀ i, Triple I (step i) (fun _ => I) (fun _ => I))
    {s : σ} (h : Reachable Init step s) : I s := by
  induction h with
  | init hs => exact hinit _ hs
  | step i _ ih => exact (hstep i).final ih

/-- The value a run returned, when it did not fail. -/
def okValue : EStateM.Result ε σ α → Option α
  | .ok a _ => some a
  | .error _ _ => none

theorem okValue_eq_some {r : EStateM.Result ε σ α} {a : α} (h : okValue r = some a) :
    r = .ok a (final r) := by
  cases r with
  | ok b s =>
    cases h
    rfl
  | error e s => cases h

/-- Run programs one after another, each from the state the last one left. -/
def runAll {ι : Type} (step : ι → EStateM ε σ α) : σ → List ι → σ
  | s, [] => s
  | s, i :: is => runAll step (EState.final ((step i).run s)) is

/-- A run each step of which satisfies `G`, read on the state the step starts from. -/
inductive RunsUnder {ι : Type} (step : ι → EStateM ε σ α) (G : σ → ι → Prop) :
    σ → List ι → Prop
  | nil (s : σ) : RunsUnder step G s []
  | cons {s : σ} {i : ι} {is : List ι} : G s i →
      RunsUnder step G (EState.final ((step i).run s)) is → RunsUnder step G s (i :: is)

theorem final_bind_pure {m : EStateM ε σ α} {b : β} (s : σ) :
    EState.final ((m >>= fun _ => (pure b : EStateM ε σ β)).run s) = EState.final (m.run s) := by
  show EState.final (match m.run s with
    | .ok _ s' => (pure b : EStateM ε σ β).run s'
    | .error e s' => .error e s') = _
  cases m.run s <;> rfl

/-! Running the state primitives: the simp set that evaluates a program on a given state. -/

@[simp] theorem run_pure (a : α) (s : σ) : (pure a : EStateM ε σ α).run s = .ok a s := rfl

@[simp] theorem run_throw (e : ε) (s : σ) : (throw e : EStateM ε σ α).run s = .error e s := rfl

@[simp] theorem run_get_bind (f : σ → EStateM ε σ α) (s : σ) : (get >>= f).run s = (f s).run s :=
  rfl

@[simp] theorem run_set (t s : σ) : (set t : EStateM ε σ PUnit).run s = .ok ⟨⟩ t := rfl

@[simp] theorem run_set_bind (t : σ) (f : PUnit → EStateM ε σ α) (s : σ) :
    (set t >>= f).run s = (f ⟨⟩).run t := rfl

@[simp] theorem run_modify (g : σ → σ) (s : σ) :
    (modify g : EStateM ε σ PUnit).run s = .ok ⟨⟩ (g s) := rfl

@[simp] theorem run_modify_bind (g : σ → σ) (f : PUnit → EStateM ε σ α) (s : σ) :
    (modify g >>= f).run s = (f ⟨⟩).run (g s) := rfl

@[simp] theorem run_ofResult_bind (x : Except ε α) (f : α → EStateM ε σ β) (s : σ) :
    (ofResult x >>= f).run s = match x with
      | .ok a => (f a).run s
      | .error e => .error e s := by
  cases x <;> rfl

@[simp] theorem run_map {β : Type} (f : α → β) (x : EStateM ε σ α) (s : σ) :
    (f <$> x).run s = match x.run s with
      | .ok a s' => .ok (f a) s'
      | .error e s' => .error e s' := by
  show (x >>= fun a => pure (f a)).run s = _
  show (match x.run s with
    | .ok a s' => (pure (f a) : EStateM ε σ β).run s'
    | .error e s' => .error e s') = _
  cases x.run s <;> rfl

theorem run_map_of_ok {β : Type} (f : α → β) {x : EStateM ε σ α} {s s' : σ} {a : α}
    (h : x.run s = .ok a s') : (f <$> x).run s = .ok (f a) s' := by
  rw [run_map, h]

/-- What a program returns, seen through a map of its value. -/
theorem exists_run_map {β : Type} {f : α → β} {x : EStateM ε σ α} {s : σ} {P : β → σ → Prop}
    (h : ∃ a s', x.run s = .ok a s' ∧ P (f a) s') :
    ∃ b s', (f <$> x).run s = .ok b s' ∧ P b s' := by
  obtain ⟨a, s', hx, hp⟩ := h
  exact ⟨f a, s', run_map_of_ok f hx, hp⟩

@[simp] theorem run_focus {τ ε' : Type} (view : τ → σ) (update : τ → σ → τ) (g : ε → ε')
    (m : EStateM ε σ α) (t : τ) :
    (focus view update g m).run t = match m.run (view t) with
      | .ok a s => .ok a (update t s)
      | .error e s => .error (g e) (update t s) := rfl

theorem run_bind_ok {β : Type} {x : EStateM ε σ α} {f : α → EStateM ε σ β} {s s' : σ} {a : α}
    (h : x.run s = .ok a s') : (x >>= f).run s = (f a).run s' := by
  show (match x.run s with
    | .ok a s' => (f a).run s'
    | .error e s' => .error e s') = _
  rw [h]

theorem run_bind_error {β : Type} {x : EStateM ε σ α} {f : α → EStateM ε σ β} {s s' : σ} {e : ε}
    (h : x.run s = .error e s') : (x >>= f).run s = .error e s' := by
  show (match x.run s with
    | .ok a s' => (f a).run s'
    | .error e s' => .error e s') = _
  rw [h]

/-- A run that returned ran its first part to a value. -/
theorem run_bind_eq_ok {β : Type} {x : EStateM ε σ α} {f : α → EStateM ε σ β} {s s'' : σ} {b : β}
    (h : (x >>= f).run s = .ok b s'') : ∃ a s', x.run s = .ok a s' ∧ (f a).run s' = .ok b s'' := by
  cases hx : x.run s with
  | ok a s' =>
    rw [run_bind_ok hx] at h
    exact ⟨a, s', rfl, h⟩
  | error e s' =>
    rw [run_bind_error hx] at h
    cases h

theorem runAll_append {ι : Type} (step : ι → EStateM ε σ α) (s : σ) (is js : List ι) :
    runAll step s (is ++ js) = runAll step (runAll step s is) js := by
  induction is generalizing s with
  | nil => rfl
  | cons i is ih => exact ih _

/-- An invariant that every step allowed by `P` keeps holds after a run of allowed steps. -/
theorem runAll_invariant {ι : Type} {step : ι → EStateM ε σ α} {P : ι → Prop} {I : σ → Prop}
    (hstep : ∀ s i, P i → I s → I (EState.final ((step i).run s))) {s : σ} {is : List ι}
    (hall : ∀ i ∈ is, P i) (hs : I s) : I (runAll step s is) := by
  induction is generalizing s with
  | nil => exact hs
  | cons i is ih =>
    exact ih (fun j hj => hall j (List.mem_cons_of_mem _ hj))
      (hstep s i (hall i List.mem_cons_self) hs)

section Runs
variable {ι : Type} {step : ι → EStateM ε σ α} {G G' : σ → ι → Prop}

/-- An invariant that every step allowed by `G` keeps holds at the end of a run under `G`. -/
theorem RunsUnder.invariant {I : σ → Prop}
    (hstep : ∀ s i, G s i → I s → I (EState.final ((step i).run s))) {s : σ} {is : List ι}
    (h : RunsUnder step G s is) (hs : I s) : I (runAll step s is) := by
  induction h with
  | nil s => exact hs
  | cons hg _ ih => exact ih (hstep _ _ hg hs)

theorem RunsUnder.mono (hG : ∀ s i, G s i → G' s i) {s : σ} {is : List ι}
    (h : RunsUnder step G s is) : RunsUnder step G' s is := by
  induction h with
  | nil s => exact .nil s
  | cons hg _ ih => exact .cons (hG _ _ hg) ih

theorem RunsUnder.and {s : σ} {is : List ι} (h : RunsUnder step G s is)
    (h' : RunsUnder step G' s is) : RunsUnder step (fun t i => G t i ∧ G' t i) s is := by
  induction h with
  | nil s => exact .nil s
  | cons hg _ ih =>
    cases h' with
    | cons hg' h'' => exact .cons ⟨hg, hg'⟩ (ih h'')

end Runs

end Lighthouse.EState
