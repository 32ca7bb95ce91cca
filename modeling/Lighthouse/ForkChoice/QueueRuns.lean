import Lighthouse.ForkChoice.Queue

/-! Runs of the fork choice's calls against the release queue (`ReleaseQueue`). Each call is a
tick of the store's clock, completed when its `update_time` returns, followed for an accepted
attestation by its arrival; the fork choice's slot and queue follow the release queue's clock
and queue, and the votes each call passes to `process_attestation` are those of the attestations
the release queue lets go. So every vote is passed after its slot, and every accepted
attestation is passed exactly once or still waits; but it waits for the slots of the
attestations ahead of it as well as its own. -/
namespace Lighthouse.ForkChoiceQueue
open EState ReleaseQueue
open Registry (IndexedAttestation)

/-- The `current_slot` a call passes to `update_time`. -/
def Call.currentSlot {σ π ε : Type} : Call σ π ε → ℕ
  | .onAttestation currentSlot _ _ => currentSlot
  | .updateTime currentSlot => currentSlot
  | .other currentSlot _ => currentSlot

section Events
variable {σ π ε : Type} (store : ForkChoiceStore σ ε) (ops : ProtoArrayOps π)
  (slotsPerEpoch : ℕ)

/-- The fork choice as the release queue sees it: the store's slot and the queue. -/
def view (fc : ForkChoice σ π) : State QueuedAttestation := ⟨slotOf store fc, fc.queuedAttestations⟩

/-- Whether `on_attestation`, past its `update_time`, accepts an attestation to a nonzero
root. -/
def accepts (fc : ForkChoice σ π) (a : IndexedAttestation) (isFromBlock : Bool) : Bool :=
  a.data.beaconBlockRoot ≠ 0 && (validateOnAttestation store ops slotsPerEpoch fc a isFromBlock).isOk

/-- The events a call makes of the release queue: a tick to the store's slot after its
`update_time`, completed when that returned; then the arrival of an attestation that
`on_attestation` accepts. -/
def Call.events (fc : ForkChoice σ π) (c : Call σ π ε) : List (Event QueuedAttestation) :=
  let r := (ForkChoiceQueue.updateTime store ops slotsPerEpoch c.currentSlot).run fc
  .tick (slotOf store (final r)) (!failed r) ::
    match c with
    | .onAttestation _ a isFromBlock =>
      if !failed r && accepts store ops slotsPerEpoch (final r) a isFromBlock then
        [.arrive (QueuedAttestation.ofIndexed a)]
      else []
    | _ => []

/-- The rest of `get_head` or `on_block` keeps the store's slot and the queue, whether it
returns or fails. -/
def Call.RestKeeps : Call σ π ε → Prop
  | .other _ rest => ∀ fc, view store (final (rest.run fc)) = view store fc
  | _ => True

/-- The attestations the release queue lets go on a call's events, with the clock then. -/
def Call.passed (fc : ForkChoice σ π) (c : Call σ π ε) : List (QueuedAttestation × ℕ) :=
  (Trace.run (step QueuedAttestation.slot) (view store fc, [])
    (c.events store ops slotsPerEpoch fc)).2

/-- The fork choice after a call, whether it returned or failed. -/
def Call.next (fc : ForkChoice σ π) (c : Call σ π ε) : ForkChoice σ π :=
  final ((c.run store ops slotsPerEpoch).run fc)

/-- The attestation a call accepts: that of an `on_attestation` that returned `Ok`, when its
root is not zero. -/
def Call.accepted (fc : ForkChoice σ π) : Call σ π ε → List QueuedAttestation
  | .onAttestation currentSlot a isFromBlock =>
    if failed ((ForkChoiceQueue.onAttestation store ops slotsPerEpoch currentSlot a
        isFromBlock).run fc) = false ∧ a.data.beaconBlockRoot ≠ 0 then
      [QueuedAttestation.ofIndexed a]
    else []
  | _ => []

/-- The part of a call that reaches the queue: its `update_time`, and the acceptance of the
attestation of `on_attestation`. The rest of `get_head` or `on_block` comes after it. -/
def Call.queuePart : Call σ π ε → ForkChoiceM σ π ε Unit
  | .onAttestation currentSlot a isFromBlock =>
    ForkChoiceQueue.onAttestation store ops slotsPerEpoch currentSlot a isFromBlock
  | .updateTime currentSlot | .other currentSlot _ => do
    let _ ← ForkChoiceQueue.updateTime store ops slotsPerEpoch currentSlot
    pure ()

/-- The store's slot after a call's `update_time`. -/
def Call.storeSlot (fc : ForkChoice σ π) (c : Call σ π ε) : ℕ :=
  slotOf store (final ((ForkChoiceQueue.updateTime store ops slotsPerEpoch c.currentSlot).run fc))

/-- Whether a call's `update_time` returned. -/
def Call.ticked (fc : ForkChoice σ π) (c : Call σ π ε) : Bool :=
  !failed ((ForkChoiceQueue.updateTime store ops slotsPerEpoch c.currentSlot).run fc)

/-- A call as a step of a run, with the release queue's events. -/
def callEvents (fc : ForkChoice σ π) (c : Call σ π ε) :
    ForkChoice σ π × List (Event QueuedAttestation) :=
  (c.next store ops slotsPerEpoch fc, c.events store ops slotsPerEpoch fc)

/-- A call as a step of a run, with the attestations whose votes it passed and the store's
slot then. -/
def callPassed (fc : ForkChoice σ π) (c : Call σ π ε) :
    ForkChoice σ π × List (QueuedAttestation × ℕ) :=
  (c.next store ops slotsPerEpoch fc, c.passed store ops slotsPerEpoch fc)

/-- A call as a step of a run, with the attestation it accepted. -/
def callAccepted (fc : ForkChoice σ π) (c : Call σ π ε) :
    ForkChoice σ π × List QueuedAttestation :=
  (c.next store ops slotsPerEpoch fc, c.accepted store ops slotsPerEpoch fc)

end Events

section Refinement
variable {σ π ε : Type} (store : ForkChoiceStore σ ε) (ops : ProtoArrayOps π)
  (slotsPerEpoch : ℕ)

/-- A completed `update_time` is a completed tick to the store's new slot, and the votes it
passes are those of the attestations the tick lets go, in order. -/
theorem updateTime_ok_step {currentSlot s : ℕ} {fc fc' : ForkChoice σ π}
    (h : (updateTime store ops slotsPerEpoch currentSlot).run fc = .ok s fc') :
    step QueuedAttestation.slot (view store fc) (.tick (slotOf store fc') true) =
        (view store fc', (fc.queuedAttestations.takeWhile (·.slot < slotOf store fc')).map
          (·, slotOf store fc')) ∧
      fc'.protoArray = (fc.queuedAttestations.takeWhile (·.slot < slotOf store fc')).foldl
        (fun p a => applyVotes ops a p) fc.protoArray := by
  obtain ⟨fc₁, hsame, -, rfl, -⟩ := updateTime_ok store ops slotsPerEpoch h
  rw [final_processAttestationQueue, hsame.queue, hsame.protoArray]
  exact ⟨rfl, rfl⟩

/-- A failed `update_time` is a tick that lets nothing go. -/
theorem updateTime_error_step {currentSlot : ℕ} {e : Error ε} {fc fc' : ForkChoice σ π}
    (h : (updateTime store ops slotsPerEpoch currentSlot).run fc = .error e fc') :
    step QueuedAttestation.slot (view store fc) (.tick (slotOf store fc') false) =
      (view store fc', []) := by
  rw [step_tick_false, view, view, (updateTime_error store ops slotsPerEpoch h).1.queue]

/-- What `on_attestation` does past its `update_time` is the arrival of the attestation when
it accepts it, and nothing else. -/
theorem acceptAttestation_step (a : IndexedAttestation) (isFromBlock : Bool)
    (fc : ForkChoice σ π) :
    view store (final ((acceptAttestation (ε := ε) store ops slotsPerEpoch a isFromBlock).run fc)) =
        (if accepts store ops slotsPerEpoch fc a isFromBlock then
          (step QueuedAttestation.slot (view store fc) (.arrive (QueuedAttestation.ofIndexed a))).1
        else view store fc) ∧
      (final ((acceptAttestation (ε := ε) store ops slotsPerEpoch a isFromBlock).run fc)).protoArray =
        (if accepts store ops slotsPerEpoch fc a isFromBlock then
          ((step QueuedAttestation.slot (view store fc)
            (.arrive (QueuedAttestation.ofIndexed a))).2.map Prod.fst).foldl
              (fun p a => applyVotes ops a p) fc.protoArray
        else fc.protoArray) := by
  rw [acceptAttestation_run]
  by_cases h₀ : a.data.beaconBlockRoot = 0
  · simp [h₀, accepts, final]
  · rw [if_neg h₀]
    cases hv : validateOnAttestation store ops slotsPerEpoch fc a isFromBlock with
    | error e => simp [accepts, hv, final, Except.isOk, Except.toBool]
    | ok u =>
      have hacc : accepts store ops slotsPerEpoch fc a isFromBlock = true := by
        simp [accepts, h₀, hv, Except.isOk, Except.toBool]
      rw [if_pos hacc, if_pos hacc, step_arrive]
      -- Passed at once or queued, by the slot, in the source as in the release queue.
      by_cases hs : a.data.slot < slotOf store fc
      · simp only [hs, ↓reduceIte, view, final, QueuedAttestation.ofIndexed]
        exact ⟨rfl, rfl⟩
      · simp only [hs, ↓reduceIte, view, final, QueuedAttestation.ofIndexed]
        exact ⟨rfl, rfl⟩

/-- An `update_time`, whatever it returned, is the tick of the release queue to the store's new
slot, and the votes it passed are those of the attestations the tick lets go. -/
theorem updateTime_tick {currentSlot : ℕ} {fc : ForkChoice σ π}
    {r : EStateM.Result (Error ε) (ForkChoice σ π) ℕ}
    (hr : (updateTime store ops slotsPerEpoch currentSlot).run fc = r) :
    (step QueuedAttestation.slot (view store fc) (.tick (slotOf store (final r)) (!failed r))).1 =
        view store (final r) ∧
      (final r).protoArray = ((step QueuedAttestation.slot (view store fc)
        (.tick (slotOf store (final r)) (!failed r))).2.map Prod.fst).foldl
          (fun p a => applyVotes ops a p) fc.protoArray := by
  cases r with
  | ok s fc' =>
    obtain ⟨hstep, hvotes⟩ := updateTime_ok_step store ops slotsPerEpoch hr
    simp only [final, failed, Bool.not_false]
    rw [hstep]
    refine ⟨rfl, ?_⟩
    -- Each released attestation leaves with the clock; its votes are its own.
    have hid : (Prod.fst ∘ fun a : QueuedAttestation => (a, slotOf store fc')) = id := rfl
    rw [hvotes, List.map_map, hid, List.map_id]
  | error e fc' =>
    simp only [final, failed, Bool.not_true]
    rw [updateTime_error_step store ops slotsPerEpoch hr]
    exact ⟨rfl, (updateTime_error store ops slotsPerEpoch hr).1.protoArray⟩

/-- `on_attestation` past its `update_time` returns `Ok` for an attestation to a nonzero root
exactly when it accepts it. -/
theorem acceptAttestation_ok_iff (a : IndexedAttestation) (isFromBlock : Bool)
    (fc : ForkChoice σ π) :
    (failed ((acceptAttestation (ε := ε) store ops slotsPerEpoch a isFromBlock).run fc) = false ∧
      a.data.beaconBlockRoot ≠ 0) ↔ accepts store ops slotsPerEpoch fc a isFromBlock = true := by
  rw [acceptAttestation_run]
  by_cases h₀ : a.data.beaconBlockRoot = 0
  · simp [h₀, accepts]
  · rw [if_neg h₀]
    cases hv : validateOnAttestation store ops slotsPerEpoch fc a isFromBlock with
    | error e => simp [accepts, hv, failed, Except.isOk, Except.toBool]
    | ok u =>
      by_cases hs : a.data.slot < slotOf store fc <;>
        simp [hs, h₀, hv, accepts, failed, Except.isOk, Except.toBool]

/-- The events of a call: the tick of its `update_time`, then the arrival of the attestation it
accepts. -/
theorem Call.events_eq (fc : ForkChoice σ π) (c : Call σ π ε) :
    c.events store ops slotsPerEpoch fc =
      .tick (c.storeSlot store ops slotsPerEpoch fc) (c.ticked store ops slotsPerEpoch fc) ::
        (c.accepted store ops slotsPerEpoch fc).map Event.arrive := by
  cases c with
  | onAttestation currentSlot a isFromBlock =>
    simp only [Call.accepted, Call.events, Call.storeSlot, Call.ticked, Call.currentSlot,
      ForkChoiceQueue.onAttestation]
    -- Whether `update_time` returned decides whether the acceptance runs at all.
    rcases Bool.eq_false_or_eq_true
        (failed ((ForkChoiceQueue.updateTime store ops slotsPerEpoch currentSlot).run fc)) with
      hf | hf
    · obtain ⟨e, hr⟩ := failed_eq_error hf
      simp only [hf, Bool.not_true, Bool.false_and]
      simp [run_bind_error hr, failed]
    · obtain ⟨s, hr⟩ := failed_eq_ok hf
      simp only [run_bind_ok hr, acceptAttestation_ok_iff]
      by_cases hacc : accepts store ops slotsPerEpoch
          (final ((ForkChoiceQueue.updateTime store ops slotsPerEpoch currentSlot).run fc))
          a isFromBlock = true <;>
        simp [hf, hacc]
  | updateTime currentSlot => rfl
  | other currentSlot rest => rfl

/-- The attestation a call accepts is the one that arrives at the release queue. -/
theorem Call.accepted_eq (fc : ForkChoice σ π) (c : Call σ π ε) :
    c.accepted store ops slotsPerEpoch fc =
      (c.events store ops slotsPerEpoch fc).flatMap Event.arrivals := by
  rw [Call.events_eq, List.flatMap_cons, List.flatMap_map]
  simp [Event.arrivals]

/-- The part of a call that reaches the queue is the run of the release queue on the call's
events: it leaves the slot and the queue as the release queue does, and passes the votes of
the attestations the release queue lets go, in order. -/
theorem Call.queuePart_refines (fc : ForkChoice σ π) (c : Call σ π ε) :
    view store (final ((c.queuePart store ops slotsPerEpoch).run fc)) =
        (Trace.run (step QueuedAttestation.slot) (view store fc, [])
          (c.events store ops slotsPerEpoch fc)).1 ∧
      (final ((c.queuePart store ops slotsPerEpoch).run fc)).protoArray =
        ((c.passed store ops slotsPerEpoch fc).map Prod.fst).foldl
          (fun p a => applyVotes ops a p) fc.protoArray := by
  obtain ⟨htick, hvotes⟩ := updateTime_tick store ops slotsPerEpoch
    (rfl : (ForkChoiceQueue.updateTime store ops slotsPerEpoch c.currentSlot).run fc = _)
  cases c with
  | onAttestation currentSlot a isFromBlock =>
    simp only [Call.queuePart, Call.passed, Call.events, Call.currentSlot, Trace.run_cons,
      ForkChoiceQueue.onAttestation] at htick hvotes ⊢
    rcases Bool.eq_false_or_eq_true
        (failed ((ForkChoiceQueue.updateTime store ops slotsPerEpoch currentSlot).run fc)) with
      hf | hf
    · -- `update_time` failed: the acceptance never runs, and the tick lets nothing go.
      obtain ⟨e, hr⟩ := failed_eq_error hf
      simp only [hf, Bool.not_true, Bool.false_and, Bool.false_eq_true, ↓reduceIte,
        Trace.run_nil] at htick hvotes ⊢
      rw [run_bind_error hr]
      exact ⟨htick.symm, hvotes⟩
    · obtain ⟨s, hr⟩ := failed_eq_ok hf
      simp only [hf, Bool.not_false, Bool.true_and] at htick hvotes ⊢
      rw [run_bind_ok hr]
      obtain ⟨hview, hpa⟩ := acceptAttestation_step store ops slotsPerEpoch a isFromBlock
        (final ((ForkChoiceQueue.updateTime store ops slotsPerEpoch currentSlot).run fc))
      by_cases hacc : accepts store ops slotsPerEpoch
          (final ((ForkChoiceQueue.updateTime store ops slotsPerEpoch currentSlot).run fc))
          a isFromBlock = true
      · -- The tick, then the attestation's arrival from the state the tick leaves.
        simp only [hacc, ↓reduceIte, Trace.run_cons, Trace.run_nil] at hview hpa ⊢
        rw [htick, hview, hpa, List.nil_append, List.map_append, List.foldl_append, ← hvotes]
        exact ⟨rfl, rfl⟩
      · simp only [hacc, Bool.false_eq_true, ↓reduceIte, Trace.run_nil] at hview hpa ⊢
        rw [hview, hpa]
        exact ⟨htick.symm, hvotes⟩
  | updateTime currentSlot | other currentSlot rest =>
    simp only [Call.queuePart, Call.passed, Call.events, Call.currentSlot, final_bind_pure,
      Trace.run_cons, Trace.run_nil] at htick hvotes ⊢
    exact ⟨htick.symm, hvotes⟩

/-- The rest of `get_head` or `on_block`, which follows the part of the call that reaches the
queue, keeps the slot and the queue. -/
theorem Call.view_next {c : Call σ π ε} (hc : c.RestKeeps store) (fc : ForkChoice σ π) :
    view store (c.next store ops slotsPerEpoch fc) =
      view store (final ((c.queuePart store ops slotsPerEpoch).run fc)) := by
  cases c with
  | onAttestation currentSlot a isFromBlock => rfl
  | updateTime currentSlot => rfl
  | other currentSlot rest =>
    simp only [Call.next, Call.run, Call.queuePart]
    cases hr : (ForkChoiceQueue.updateTime store ops slotsPerEpoch currentSlot).run fc with
    | ok s fc₁ =>
      rw [run_bind_ok hr, run_bind_ok hr]
      exact hc fc₁
    | error e fc₁ => rw [run_bind_error hr, run_bind_error hr]

/-- A call is the run of the release queue on its events. -/
theorem Call.next_refines {c : Call σ π ε} (hc : c.RestKeeps store) (fc : ForkChoice σ π) :
    Trace.run (step QueuedAttestation.slot) (view store fc, []) (c.events store ops slotsPerEpoch fc) =
      (view store (c.next store ops slotsPerEpoch fc), c.passed store ops slotsPerEpoch fc) := by
  rw [Call.view_next store ops slotsPerEpoch hc, (Call.queuePart_refines store ops slotsPerEpoch fc c).1]
  rfl

/-- A run of calls is the run of the release queue on their events: the release queue ends in
the fork choice's final slot and queue, having let go the attestations whose votes the calls
passed. -/
theorem calls_refine (calls : List (Call σ π ε)) (hrest : ∀ c ∈ calls, c.RestKeeps store)
    (fc : ForkChoice σ π) :
    Trace.run (step QueuedAttestation.slot) (view store fc, [])
        (Trace.run (callEvents store ops slotsPerEpoch) (fc, []) calls).2 =
      (view store (Trace.run (callPassed store ops slotsPerEpoch) (fc, []) calls).1,
        (Trace.run (callPassed store ops slotsPerEpoch) (fc, []) calls).2) :=
  Trace.run_simulate (view store) (fun fc c => c.passed store ops slotsPerEpoch fc) calls
    (fun fc c hc => Call.next_refines store ops slotsPerEpoch (hrest c hc) fc) fc []

/-- The attestations a run of calls accepts are those that arrive at the release queue. -/
theorem calls_accepted (calls : List (Call σ π ε)) (fc : ForkChoice σ π) :
    (Trace.run (callAccepted store ops slotsPerEpoch) (fc, []) calls).2 =
      (Trace.run (callEvents store ops slotsPerEpoch) (fc, []) calls).2.flatMap Event.arrivals := by
  have hstep : callAccepted store ops slotsPerEpoch = fun fc c =>
      ((callEvents store ops slotsPerEpoch fc c).1,
        (callEvents store ops slotsPerEpoch fc c).2.flatMap Event.arrivals) := by
    funext fc c
    rw [callAccepted, callEvents, Call.accepted_eq]
  rw [hstep, Trace.run_flatMap]

/-- The votes a call passes, past the tick of its `update_time`: those the tick lets go, then
the attestation it accepts when its slot is already past. -/
theorem Call.passed_eq (fc : ForkChoice σ π) (c : Call σ π ε) :
    c.passed store ops slotsPerEpoch fc =
      (step QueuedAttestation.slot (view store fc)
          (.tick (c.storeSlot store ops slotsPerEpoch fc) (c.ticked store ops slotsPerEpoch fc))).2 ++
        (Trace.run (step QueuedAttestation.slot)
          ((step QueuedAttestation.slot (view store fc)
            (.tick (c.storeSlot store ops slotsPerEpoch fc) (c.ticked store ops slotsPerEpoch fc))).1, [])
          ((c.accepted store ops slotsPerEpoch fc).map Event.arrive)).2 := by
  rw [Call.passed, Call.events_eq, Trace.run_cons, Trace.run_eq_append_events, List.nil_append]

/-- The slot and the queue after a call whose rest keeps them: those the tick of its
`update_time` leaves, with the attestation it accepts arriving. -/
theorem Call.view_next_eq {c : Call σ π ε} (hc : c.RestKeeps store) (fc : ForkChoice σ π) :
    view store (c.next store ops slotsPerEpoch fc) =
      (Trace.run (step QueuedAttestation.slot)
        ((step QueuedAttestation.slot (view store fc)
          (.tick (c.storeSlot store ops slotsPerEpoch fc) (c.ticked store ops slotsPerEpoch fc))).1, [])
        ((c.accepted store ops slotsPerEpoch fc).map Event.arrive)).1 := by
  have h := congrArg Prod.fst (Call.next_refines store ops slotsPerEpoch hc fc)
  rw [Call.events_eq, Trace.run_cons, Trace.run_eq_append_events] at h
  exact h.symm

end Refinement

section Runs
variable {σ π ε : Type} (store : ForkChoiceStore σ ε) (ops : ProtoArrayOps π)
  (slotsPerEpoch : ℕ)

/-- What a call does with the attestations at a fork choice. Its votes are passed at the
store's slot after its `update_time`, and are those that the part of the call that reaches
the queue passes to `process_attestation`. A queued attestation is passed when `update_time`
returns at a slot past its own and those of all attestations ahead of it, and otherwise waits
in its place, behind what is left of those. The attestation the call accepts is passed at once
when its slot is past, and joins the back of the queue otherwise. -/
structure CallReleases (c : Call σ π ε) (fc : ForkChoice σ π) : Prop where
  clock : ∀ p ∈ c.passed store ops slotsPerEpoch fc, p.2 = c.storeSlot store ops slotsPerEpoch fc
  votes : (final ((c.queuePart store ops slotsPerEpoch).run fc)).protoArray =
    ((c.passed store ops slotsPerEpoch fc).map Prod.fst).foldl
      (fun p a => applyVotes ops a p) fc.protoArray
  releases : ∀ pre a post, fc.queuedAttestations = pre ++ a :: post →
    c.ticked store ops slotsPerEpoch fc = true →
    (∀ b ∈ pre ++ [a], b.slot < c.storeSlot store ops slotsPerEpoch fc) →
    (pre ++ [a]).map (·, c.storeSlot store ops slotsPerEpoch fc) <+:
      c.passed store ops slotsPerEpoch fc
  waits : ∀ pre a post, fc.queuedAttestations = pre ++ a :: post →
    (c.ticked store ops slotsPerEpoch fc = false ∨
      ∃ b ∈ pre ++ [a], c.storeSlot store ops slotsPerEpoch fc ≤ b.slot) →
    ∃ pre', pre' <:+ pre ∧ ∃ rest,
      (c.next store ops slotsPerEpoch fc).queuedAttestations = pre' ++ a :: post ++ rest
  arrivesPast : ∀ a, c.accepted store ops slotsPerEpoch fc = [a] →
    a.slot < c.storeSlot store ops slotsPerEpoch fc →
    (a, c.storeSlot store ops slotsPerEpoch fc) ∈ c.passed store ops slotsPerEpoch fc
  arrivesQueued : ∀ a, c.accepted store ops slotsPerEpoch fc = [a] →
    c.storeSlot store ops slotsPerEpoch fc ≤ a.slot →
    ∃ q, (c.next store ops slotsPerEpoch fc).queuedAttestations = q ++ [a]

/-- What a run of calls does with the attestations: every vote is passed at a store slot past
the attestation's own; the attestations passed, followed by those still queued, are those
queued at the start and those accepted, each once; and each call does what `CallReleases`
says, from any fork choice. -/
structure RunReleases (calls : List (Call σ π ε)) (fc : ForkChoice σ π) : Prop where
  afterSlot : ∀ p ∈ (Trace.run (callPassed store ops slotsPerEpoch) (fc, []) calls).2,
    p.1.slot < p.2
  once : ((Trace.run (callPassed store ops slotsPerEpoch) (fc, []) calls).2.map Prod.fst ++
      (Trace.run (callPassed store ops slotsPerEpoch) (fc, []) calls).1.queuedAttestations).Perm
    (fc.queuedAttestations ++ (Trace.run (callAccepted store ops slotsPerEpoch) (fc, []) calls).2)
  each : ∀ c ∈ calls, ∀ fc', CallReleases store ops slotsPerEpoch c fc'

/-- Every call does what `CallReleases` says, from any fork choice, when its rest keeps the slot
and the queue. -/
theorem Call.releases {c : Call σ π ε} (hc : c.RestKeeps store) (fc : ForkChoice σ π) :
    CallReleases store ops slotsPerEpoch c fc := by
  -- The release queue after the tick of the call's `update_time`, and what the arrival of the
  -- accepted attestation does from there.
  obtain ⟨hclock, ⟨rest, hqueue⟩, hout⟩ := run_arrive QueuedAttestation.slot
    ((c.accepted store ops slotsPerEpoch fc))
    (step QueuedAttestation.slot (view store fc)
      (.tick (c.storeSlot store ops slotsPerEpoch fc) (c.ticked store ops slotsPerEpoch fc))).1
  have hnext := Call.view_next_eq store ops slotsPerEpoch hc fc
  refine ⟨fun p hp => ?_, (Call.queuePart_refines store ops slotsPerEpoch fc c).2,
    fun pre a post hq ht hlt => ?_, fun pre a post hq hw => ?_, fun a ha hlt => ?_,
    fun a ha hle => ?_⟩
  · rw [Call.passed_eq] at hp
    rcases List.mem_append.mp hp with hp | hp
    · rw [step_released_clock _ _ _ p hp, step_tick_clock]
    · rw [hout p hp, step_tick_clock]
  · rw [Call.passed_eq, ht]
    exact (step_tick_releases QueuedAttestation.slot hq hlt).trans (List.prefix_append _ _)
  · obtain ⟨pre', hsuffix, hwait⟩ := step_tick_waits QueuedAttestation.slot
      (show (view store fc).queue = pre ++ a :: post from hq) hw
    refine ⟨pre', hsuffix, rest, ?_⟩
    have h := congrArg State.queue hnext
    rw [hqueue, hwait] at h
    exact h
  · rw [Call.passed_eq, ha, List.map_singleton, Trace.run_cons, Trace.run_nil,
      step_arrive_of_lt _ (by rwa [step_tick_clock])]
    simp
  · have h := congrArg State.queue hnext
    rw [ha, List.map_singleton, Trace.run_cons, Trace.run_nil,
      step_arrive_of_le _ (by rwa [step_tick_clock])] at h
    exact ⟨_, h⟩

/-- A store that holds only its slot, with both checkpoints at genesis. -/
def slotStore : ForkChoiceStore ℕ Unit where
  getCurrentSlot := id
  setCurrentSlot slot _ := slot
  setProposerBoostRoot _ s := s
  justifiedCheckpoint _ := ⟨0, 0⟩
  bestJustifiedCheckpoint _ := ⟨0, 0⟩
  setJustifiedCheckpoint _ := pure ()
  getCurrentSlot_setCurrentSlot _ _ := rfl
  getCurrentSlot_setProposerBoostRoot _ _ := rfl
  getCurrentSlot_setJustifiedCheckpoint _ _ := rfl

/-- A proto-array that knows block `1`, at slot `0`, and logs the votes `process_attestation`
is given. -/
def voteLog : ProtoArrayOps (List (ℕ × ℕ × ℕ)) where
  containsBlock _ root := root == 1
  getBlock _ root := if root = 1 then some ⟨0, 1⟩ else none
  processAttestation i root epoch p := p ++ [(i, root, epoch)]

/-- The attestation of one validator to block `1` at a slot of epoch `0`. -/
def attestationAt (slot validator : ℕ) : IndexedAttestation :=
  ⟨[validator], ⟨slot, 0, 1, ⟨0, 0⟩, ⟨0, 1⟩⟩, true⟩

/-- Two gossip attestations of epoch `0` accepted at slot `4`, the one for slot `10` first; then
the store moved to slot `6`, and to slot `11`. -/
def queueCalls : List (Call ℕ (List (ℕ × ℕ × ℕ)) Unit) :=
  [.onAttestation 4 (attestationAt 10 0) false, .onAttestation 4 (attestationAt 5 1) false,
    .updateTime 6, .updateTime 11]

end Runs

end Lighthouse.ForkChoiceQueue
