import Mathlib.Data.List.Perm.Basic
import Mathlib.Data.List.TakeWhile
import Lighthouse.Foundations.Trace

/-! A queue of elements that wait for a clock to pass their slot, released by prefix. When the
clock moves to `now` and the tick completes, the longest prefix of elements from slots before
`now` leaves, in order, and the rest waits. An element arriving from a slot already past leaves
at once; any other joins the back.

Every element leaves at a clock past its slot, and every element that arrives either leaves
exactly once or is still waiting. The queue need not be sorted by slot: an element leaves at the
first completed tick past its own slot and the slots of all elements still ahead of it, so it can
wait behind one from a later slot. -/
namespace Lighthouse.ReleaseQueue
variable {α : Type*} (slot : α → ℕ)

/-- What the machine sees: the clock moving to `now`, with the tick completed or stopped before
it releases anything; or an element arriving. -/
inductive Event (α : Type*) where
  | tick (now : ℕ) (completed : Bool)
  | arrive (a : α)

/-- The clock and the elements waiting. -/
structure State (α : Type*) where
  clock : ℕ
  queue : List α

/-- One event: the next state, and the elements leaving with the clock they leave at. -/
def step : State α → Event α → State α × List (α × ℕ)
  | ⟨_, q⟩, .tick now true =>
    (⟨now, q.dropWhile (slot · < now)⟩, (q.takeWhile (slot · < now)).map (·, now))
  | ⟨_, q⟩, .tick now false => (⟨now, q⟩, [])
  | ⟨clock, q⟩, .arrive a =>
    if slot a < clock then (⟨clock, q⟩, [(a, clock)]) else (⟨clock, q ++ [a]⟩, [])

@[simp] theorem step_tick_true (s : State α) (now : ℕ) :
    step slot s (.tick now true) =
      (⟨now, s.queue.dropWhile (slot · < now)⟩, (s.queue.takeWhile (slot · < now)).map (·, now)) :=
  rfl

@[simp] theorem step_tick_false (s : State α) (now : ℕ) :
    step slot s (.tick now false) = (⟨now, s.queue⟩, []) := rfl

theorem step_arrive (s : State α) (a : α) :
    step slot s (.arrive a) =
      if slot a < s.clock then (s, [(a, s.clock)]) else (⟨s.clock, s.queue ++ [a]⟩, []) := rfl

/-- The elements an event brings. -/
def Event.arrivals : Event α → List α
  | .tick _ _ => []
  | .arrive a => [a]

/-- Every element leaves at a clock past its slot. -/
theorem step_released_lt (s : State α) (e : Event α) :
    ∀ p ∈ (step slot s e).2, slot p.1 < p.2 := by
  cases e with
  | tick now completed =>
    cases completed with
    | false => simp
    | true =>
      intro p hp
      simp only [step_tick_true, List.mem_map] at hp
      obtain ⟨a, ha, rfl⟩ := hp
      simpa using List.mem_takeWhile_imp ha
  | arrive a =>
    rw [step_arrive]
    split_ifs with h
    · simpa using h
    · simp

/-- What leaves and what waits are what waited and what arrived, in some order. -/
theorem step_perm (s : State α) (e : Event α) :
    ((step slot s e).2.map Prod.fst ++ (step slot s e).1.queue).Perm (s.queue ++ e.arrivals) := by
  cases e with
  | tick now completed =>
    cases completed with
    | false => simp [Event.arrivals]
    | true =>
      simp only [step_tick_true, List.map_map, Event.arrivals, List.append_nil]
      have hid : (Prod.fst ∘ fun a => (a, now)) = (id : α → α) := rfl
      rw [hid, List.map_id, List.takeWhile_append_dropWhile]
  | arrive a =>
    rw [step_arrive]
    split_ifs with h
    · simpa [Event.arrivals] using (List.perm_append_singleton a s.queue).symm
    · simp [Event.arrivals]

/-- Over a run, every element leaves at a clock past its slot. -/
theorem run_released_lt (events : List (Event α)) (s : State α) (out : List (α × ℕ))
    (hout : ∀ p ∈ out, slot p.1 < p.2) :
    ∀ p ∈ (Trace.run (step slot) (s, out) events).2, slot p.1 < p.2 :=
  Trace.run_induction (fun _ out => ∀ p ∈ out, slot p.1 < p.2) events
    (fun s out e _ hout p hp => by
      rcases List.mem_append.mp hp with hp | hp
      · exact hout p hp
      · exact step_released_lt slot s e p hp) s out hout

/-- Over a run, what left and what waits are what waited at the start and what arrived: every
element that arrives leaves exactly once or is still waiting. -/
theorem run_perm (events : List (Event α)) :
    ∀ (s : State α) (out : List (α × ℕ)),
      ((Trace.run (step slot) (s, out) events).2.map Prod.fst ++
          (Trace.run (step slot) (s, out) events).1.queue).Perm
        (out.map Prod.fst ++ s.queue ++ events.flatMap Event.arrivals) := by
  induction events with
  | nil => intro s out; simp
  | cons e events ih =>
    intro s out
    rw [Trace.run_cons]
    refine (ih _ _).trans ?_
    -- The step's own law, with what left before it and what arrives after it around it.
    have h := (step_perm slot s e).append_left (out.map Prod.fst) |>.append_right
      (events.flatMap Event.arrivals)
    simpa [List.append_assoc] using h

section Waiting
variable {pre post : List α} {a : α} {now : ℕ}

/-- A completed tick past the slots of `a` and of everything ahead of it releases it, after
what was ahead. -/
theorem takeWhile_of_forall (h : ∀ b ∈ pre ++ [a], slot b < now) :
    (pre ++ a :: post).takeWhile (slot · < now) =
      pre ++ a :: post.takeWhile (slot · < now) := by
  induction pre with
  | nil => simp [by simpa using h]
  | cons b pre ih =>
    have hb : slot b < now := h b (by simp)
    rw [List.cons_append, List.takeWhile_cons_of_pos (by simpa using hb),
      ih (fun c hc => h c (List.mem_cons_of_mem _ hc)), List.cons_append]

/-- A completed tick that is not past the slot of `a` or of something ahead of it keeps `a`
waiting, behind what is left of the elements that were ahead. -/
theorem dropWhile_of_exists (h : ∃ b ∈ pre ++ [a], now ≤ slot b) :
    (pre ++ a :: post).dropWhile (slot · < now) = pre.dropWhile (slot · < now) ++ a :: post := by
  induction pre with
  | nil =>
    obtain ⟨b, hb, hnow⟩ := h
    have hba : b = a := by simpa using hb
    subst hba
    simp [Nat.not_lt.mpr hnow]
  | cons c pre ih =>
    by_cases hc : slot c < now
    · have h' : ∃ b ∈ pre ++ [a], now ≤ slot b := by
        obtain ⟨b, hb, hnow⟩ := h
        rcases List.mem_cons.mp hb with rfl | hb
        · omega
        · exact ⟨b, hb, hnow⟩
      rw [List.cons_append, List.dropWhile_cons_of_pos (by simpa using hc), ih h',
        List.dropWhile_cons_of_pos (by simpa using hc)]
    · rw [List.cons_append, List.dropWhile_cons_of_neg (by simpa using hc),
        List.dropWhile_cons_of_neg (by simpa using hc), List.cons_append]

/-- A completed tick past the slots of `a` and of everything ahead of it releases them all, in
order, at its clock. -/
theorem step_tick_releases {s : State α} (hq : s.queue = pre ++ a :: post)
    (h : ∀ b ∈ pre ++ [a], slot b < now) :
    (pre ++ [a]).map (·, now) <+: (step slot s (.tick now true)).2 := by
  rw [step_tick_true, hq, takeWhile_of_forall slot h]
  exact ⟨(post.takeWhile (slot · < now)).map (·, now), by simp⟩

/-- A tick that stopped, or that is not past the slot of `a` or of something ahead of it,
leaves `a` in its place, behind what is left of the elements that were ahead. -/
theorem step_tick_waits {s : State α} {completed : Bool} (hq : s.queue = pre ++ a :: post)
    (h : completed = false ∨ ∃ b ∈ pre ++ [a], now ≤ slot b) :
    ∃ pre', pre' <:+ pre ∧ (step slot s (.tick now completed)).1.queue = pre' ++ a :: post := by
  cases completed with
  | false => exact ⟨pre, List.suffix_refl pre, by rw [step_tick_false, hq]⟩
  | true =>
    have h' : ∃ b ∈ pre ++ [a], now ≤ slot b := by simpa using h
    exact ⟨pre.dropWhile (slot · < now), List.dropWhile_suffix _,
      by rw [step_tick_true, hq, dropWhile_of_exists slot h']⟩

end Waiting

@[simp] theorem step_tick_clock (s : State α) (now : ℕ) (completed : Bool) :
    (step slot s (.tick now completed)).1.clock = now := by
  cases completed <;> rfl

theorem step_arrive_of_lt {s : State α} {a : α} (h : slot a < s.clock) :
    step slot s (.arrive a) = (s, [(a, s.clock)]) := by
  rw [step_arrive, if_pos h]

theorem step_arrive_of_le {s : State α} {a : α} (h : s.clock ≤ slot a) :
    step slot s (.arrive a) = (⟨s.clock, s.queue ++ [a]⟩, []) := by
  rw [step_arrive, if_neg (Nat.not_lt.mpr h)]

/-- Whatever an event lets go leaves at the clock it leaves the machine at. -/
theorem step_released_clock (s : State α) (e : Event α) :
    ∀ p ∈ (step slot s e).2, p.2 = (step slot s e).1.clock := by
  cases e with
  | tick now completed =>
    cases completed with
    | false => simp
    | true =>
      intro p hp
      simp only [step_tick_true, List.mem_map] at hp
      obtain ⟨a, -, rfl⟩ := hp
      rfl
  | arrive a =>
    by_cases h : slot a < s.clock
    · rw [step_arrive_of_lt slot h]
      simp
    · rw [step_arrive_of_le slot (Nat.le_of_not_lt h)]
      simp

/-- Arrivals keep the clock, let go what they let go at that clock, and only add to the back
of the queue. -/
theorem run_arrive (as : List α) :
    ∀ s : State α,
      (Trace.run (step slot) (s, []) (as.map Event.arrive)).1.clock = s.clock ∧
        (∃ rest, (Trace.run (step slot) (s, []) (as.map Event.arrive)).1.queue = s.queue ++ rest) ∧
        ∀ p ∈ (Trace.run (step slot) (s, []) (as.map Event.arrive)).2, p.2 = s.clock := by
  induction as with
  | nil => intro s; exact ⟨rfl, ⟨[], by simp⟩, by simp⟩
  | cons a as ih =>
    intro s
    rw [List.map_cons, Trace.run_cons, Trace.run_eq_append_events, List.nil_append]
    obtain ⟨hclock, ⟨rest, hq⟩, hout⟩ := ih (step slot s (.arrive a)).1
    -- The arrival keeps the clock either way; it leaves at once or joins the back.
    have hkeep : (step slot s (.arrive a)).1.clock = s.clock := by
      rw [step_arrive]
      split_ifs <;> rfl
    refine ⟨hclock.trans hkeep, ?_, fun p hp => ?_⟩
    · by_cases h : slot a < s.clock
      · rw [step_arrive_of_lt slot h] at hq ⊢
        exact ⟨rest, hq⟩
      · rw [step_arrive_of_le slot (Nat.le_of_not_lt h)] at hq ⊢
        exact ⟨a :: rest, by simpa using hq⟩
    · rcases List.mem_append.mp hp with hp | hp
      · exact (step_released_clock slot s _ p hp).trans hkeep
      · exact (hout p hp).trans hkeep

end Lighthouse.ReleaseQueue
