import Lighthouse.Foundations.EState
import Mathlib.Order.Interval.Finset.Nat

/-! The caches that filter repeated gossip: `AutoPruningEpochContainer` and
`AutoPruningSlotContainer` (which validators were seen at an epoch, or at a slot and
subcommittee) and `ObservedAggregates` (which roots were seen at a slot).

Each keeps a lower bound below which requests are refused, and sets it from the current epoch
or slot of every prune. A prune sets the bound, it does not raise it, so an observation of an
older epoch lowers it again, and an epoch that a later prune removed becomes permissible and
empty. The containers forget an observation only so; `ObservedAggregates` also replaces the
lowest set when it is full, which cannot happen while no explicit prune lowers its bound. -/
namespace Lighthouse.Gossip
open EState

/-- `observed_attesters::Error` and `observed_aggregates::Error`. -/
inductive Error where
  | epochTooLow (epoch lowestPermissibleEpoch : Nat)
  | slotTooLow (slot lowestPermissibleSlot : Nat)
  | reachedMaxObservationsPerSlot (maxCapacity : Nat)
  | validatorIndexTooHigh (validatorIndex : Nat)
  | invalidSetIndex (index : Nat)
  | incorrectSlot (expected attestation : Nat)
deriving DecidableEq, Repr

/-- `MAX_CACHED_EPOCHS`, also the `max_capacity` of the slot container. -/
def maxCachedEpochs : Nat := 3

/-- `AutoPruningEpochContainer` and `AutoPruningSlotContainer`: the items by key, each the set of
validator indices seen (`EpochBitfield` and the hash sets behave alike), and the lowest
permissible epoch or slot. -/
structure AutoPruningContainer (K : Type) where
  lowestPermissible : Nat
  items : K → Option (Finset Nat)

instance {K : Type} : Inhabited (AutoPruningContainer K) := ⟨⟨0, fun _ => none⟩⟩

namespace AutoPruningContainer

variable {K : Type} (slotOf : K → Nat)

/-- `sanitize_request`: the index is within the registry, the epoch or slot is permissible. -/
def sanitizeRequest (validatorRegistryLimit : Nat) (tooLow : Nat → Nat → Error)
    (c : AutoPruningContainer K) (slot validatorIndex : Nat) : Except Error Unit :=
  if validatorIndex > validatorRegistryLimit then .error (.validatorIndexTooHigh validatorIndex)
  else if slot < c.lowestPermissible then .error (tooLow slot c.lowestPermissible)
  else .ok ()

/-- `prune`: the bound becomes `current - (max_capacity - 1)`, saturating, and the items below
it go. -/
def prune (current : Nat) (c : AutoPruningContainer K) : AutoPruningContainer K :=
  let lowestPermissible := current - (maxCachedEpochs - 1)
  { lowestPermissible
    items := fun key => if lowestPermissible ≤ slotOf key then c.items key else none }

/-- `observe_validator`: `Ok(true)` when the validator was already seen at the key. -/
def observeValidator [DecidableEq K] (validatorRegistryLimit : Nat) (tooLow : Nat → Nat → Error) (key : K)
    (validatorIndex : Nat) : EStateM Error (AutoPruningContainer K) Bool := do
  ofResult (sanitizeRequest validatorRegistryLimit tooLow (← get) (slotOf key) validatorIndex)
  modify (prune slotOf (slotOf key))
  let c ← get
  match c.items key with
  | some item =>
    set { c with items := Function.update c.items key (some (insert validatorIndex item)) }
    pure (validatorIndex ∈ item)
  | none =>
    set { c with items := Function.update c.items key (some {validatorIndex}) }
    pure false

/-- Whether the item of the key holds the validator (`contains`, `false` without an item). -/
def seen (c : AutoPruningContainer K) (key : K) (validatorIndex : Nat) : Bool :=
  (c.items key).any fun item => decide (validatorIndex ∈ item)

/-- `validator_has_been_observed`. -/
def validatorHasBeenObserved (validatorRegistryLimit : Nat) (tooLow : Nat → Nat → Error)
    (c : AutoPruningContainer K) (key : K) (validatorIndex : Nat) : Except Error Bool := do
  sanitizeRequest validatorRegistryLimit tooLow c (slotOf key) validatorIndex
  pure (c.seen key validatorIndex)

/-- The calls a run makes on a container. -/
inductive Call (K : Type) where
  | observeValidator (key : K) (validatorIndex : Nat)
  | validatorHasBeenObserved (key : K) (validatorIndex : Nat)
  | prune (current : Nat)

/-- A call's effect on the container. -/
def Call.run [DecidableEq K] (validatorRegistryLimit : Nat) (tooLow : Nat → Nat → Error) :
    Call K → EStateM Error (AutoPruningContainer K) Unit
  | .observeValidator key validatorIndex => do
    let _ ← AutoPruningContainer.observeValidator slotOf validatorRegistryLimit tooLow key
      validatorIndex
  | .validatorHasBeenObserved _ _ => pure ()
  | .prune current => modify (AutoPruningContainer.prune slotOf current)

/-- The container with the validator added to the item of the key. -/
def record [DecidableEq K] (c : AutoPruningContainer K) (key : K) (validatorIndex : Nat) :
    AutoPruningContainer K :=
  let item := insert validatorIndex ((c.items key).getD ∅)
  { c with items := Function.update c.items key (some item) }

section Spec
variable {slotOf} {validatorRegistryLimit : Nat} {tooLow : Nat → Nat → Error}

@[simp] theorem prune_lowestPermissible (current : Nat) (c : AutoPruningContainer K) :
    (prune slotOf current c).lowestPermissible = current - (maxCachedEpochs - 1) := rfl

@[simp] theorem record_lowestPermissible [DecidableEq K] (c : AutoPruningContainer K) (key : K)
    (v : Nat) : (c.record key v).lowestPermissible = c.lowestPermissible := rfl

theorem seen_prune {c : AutoPruningContainer K} {key : K} {v : Nat} (h : c.seen key v = true)
    {current : Nat} (hle : current - (maxCachedEpochs - 1) ≤ slotOf key) :
    (prune slotOf current c).seen key v = true := by
  simpa only [seen, AutoPruningContainer.prune, if_pos hle] using h

theorem seen_record [DecidableEq K] (c : AutoPruningContainer K) (key key' : K) (v v' : Nat) :
    (c.record key' v').seen key v = (c.seen key v || decide (key = key' ∧ v = v')) := by
  unfold seen record
  by_cases hk : key = key'
  · subst hk
    cases c.items key <;> simp [Bool.or_comm]
  · simp [hk]

/-- `observe_validator` on a request that fails the checks: the error, nothing changed. -/
theorem observeValidator_run_error [DecidableEq K] {c : AutoPruningContainer K} {key : K}
    {v : Nat} {e : Error} (hs : sanitizeRequest validatorRegistryLimit tooLow c (slotOf key) v =
      .error e) :
    (observeValidator slotOf validatorRegistryLimit tooLow key v).run c = .error e c := by
  simp [observeValidator, ofResult, hs]

/-- `observe_validator` on a permitted request: it prunes to the key's epoch or slot, records
the validator, and answers whether it was seen. -/
theorem observeValidator_run_ok [DecidableEq K] {c : AutoPruningContainer K} {key : K} {v : Nat}
    (hs : sanitizeRequest validatorRegistryLimit tooLow c (slotOf key) v = .ok ()) :
    (observeValidator slotOf validatorRegistryLimit tooLow key v).run c =
      .ok ((prune slotOf (slotOf key) c).seen key v) ((prune slotOf (slotOf key) c).record key v) := by
  cases hi : (prune slotOf (slotOf key) c).items key with
  | some item => simp [observeValidator, ofResult, seen, record, hs, hi]
  | none => simp [observeValidator, ofResult, seen, record, hs, hi]

end Spec

section Remember
variable {slotOf} {validatorRegistryLimit : Nat} {tooLow : Nat → Nat → Error} [DecidableEq K]

theorem seen_of_observeValidator {c c' : AutoPruningContainer K} {key : K} {v : Nat} {b : Bool}
    (h : (observeValidator slotOf validatorRegistryLimit tooLow key v).run c = .ok b c') :
    c'.seen key v = true := by
  cases hs : sanitizeRequest validatorRegistryLimit tooLow c (slotOf key) v with
  | error e =>
    rw [observeValidator_run_error hs] at h
    cases h
  | ok u =>
    rw [observeValidator_run_ok hs] at h
    cases h
    simp [seen_record]

/-- An observation answers `true` once the validator is seen: the prune it makes keeps the
key. -/
theorem observeValidator_of_seen {c c' : AutoPruningContainer K} {key : K} {v : Nat} {b : Bool}
    (hseen : c.seen key v = true)
    (h : (observeValidator slotOf validatorRegistryLimit tooLow key v).run c = .ok b c') :
    b = true := by
  cases hs : sanitizeRequest validatorRegistryLimit tooLow c (slotOf key) v with
  | error e =>
    rw [observeValidator_run_error hs] at h
    cases h
  | ok u =>
    rw [observeValidator_run_ok hs] at h
    cases h
    exact seen_prune hseen (Nat.sub_le _ _)

omit [DecidableEq K] in
theorem validatorHasBeenObserved_of_seen {c : AutoPruningContainer K} {key : K} {v : Nat}
    {b : Bool} (hseen : c.seen key v = true)
    (h : validatorHasBeenObserved slotOf validatorRegistryLimit tooLow c key v = .ok b) :
    b = true := by
  unfold validatorHasBeenObserved at h
  cases hs : sanitizeRequest validatorRegistryLimit tooLow c (slotOf key) v with
  | error e =>
    rw [hs] at h
    cases h
  | ok u =>
    rw [hs] at h
    cases h
    exact hseen

/-- One call keeps a validator seen when the bound it leaves is at or below the key's epoch or
slot: only a prune above the key drops its item. -/
theorem Call.run_keeps_seen (i : Call K) {c : AutoPruningContainer K} {key : K} {v : Nat}
    (h : c.seen key v = true)
    (hle : (final ((i.run slotOf validatorRegistryLimit tooLow).run c)).lowestPermissible ≤
      slotOf key) :
    (final ((i.run slotOf validatorRegistryLimit tooLow).run c)).seen key v = true := by
  cases i with
  | observeValidator key' v' =>
    simp only [Call.run, final_bind_pure] at hle ⊢
    cases hs : sanitizeRequest validatorRegistryLimit tooLow c (slotOf key') v' with
    | error e =>
      rw [observeValidator_run_error hs]
      exact h
    | ok u =>
      rw [observeValidator_run_ok hs] at hle ⊢
      have hle' : slotOf key' - (maxCachedEpochs - 1) ≤ slotOf key := hle
      show ((AutoPruningContainer.prune slotOf (slotOf key') c).record key' v').seen key v = true
      simp [seen_record, seen_prune h hle']
  | validatorHasBeenObserved _ _ => exact h
  | prune current => exact seen_prune h hle

/-- A validator observed at a key stays seen over every run in which the bound stays at or below
the key's epoch or slot. -/
theorem seen_runAll {c c₁ : AutoPruningContainer K} {key : K} {v : Nat} {b₀ : Bool}
    {calls : List (Call K)}
    (hobs : (observeValidator slotOf validatorRegistryLimit tooLow key v).run c = .ok b₀ c₁)
    (hruns : RunsUnder (Call.run slotOf validatorRegistryLimit tooLow)
      (fun t i => (final ((i.run slotOf validatorRegistryLimit tooLow).run t)).lowestPermissible ≤
        slotOf key) c₁ calls) :
    (runAll (Call.run slotOf validatorRegistryLimit tooLow) c₁ calls).seen key v = true :=
  hruns.invariant (fun _ i hle hs => i.run_keeps_seen hs hle) (seen_of_observeValidator hobs)

end Remember

end AutoPruningContainer

end Lighthouse.Gossip

namespace Lighthouse.Gossip
open EState

/-- `ObserveOutcome`. -/
inductive ObserveOutcome where
  | alreadyKnown
  | new
deriving DecidableEq, Repr

/-- `SlotHashSet`: the roots seen at one slot, at most `max_capacity` of them. -/
structure SlotHashSet where
  set : Finset Nat
  slot : Nat
  maxCapacity : Nat

namespace SlotHashSet

/-- `SlotHashSet::observe_item`. -/
def observeItem (s : SlotHashSet) (itemSlot root : Nat) :
    Except Error (ObserveOutcome × SlotHashSet) :=
  if itemSlot ≠ s.slot then .error (.incorrectSlot s.slot itemSlot)
  else if root ∈ s.set then .ok (.alreadyKnown, s)
  else if s.set.card ≥ s.maxCapacity then .error (.reachedMaxObservationsPerSlot s.maxCapacity)
  else .ok (.new, { s with set := insert root s.set })

/-- `SlotHashSet::is_known`. -/
def isKnown (s : SlotHashSet) (itemSlot root : Nat) : Except Error Bool :=
  if itemSlot ≠ s.slot then .error (.incorrectSlot s.slot itemSlot)
  else .ok (root ∈ s.set)

theorem observeItem_ok {s s' : SlotHashSet} {itemSlot root : Nat} {outcome : ObserveOutcome}
    (h : s.observeItem itemSlot root = .ok (outcome, s')) :
    s'.slot = s.slot ∧ s.set ⊆ s'.set ∧ root ∈ s'.set := by
  unfold observeItem at h
  split_ifs at h with hslot hmem hfull
  · cases h
    exact ⟨rfl, Finset.Subset.refl _, hmem⟩
  · cases h
    exact ⟨rfl, Finset.subset_insert _ _, Finset.mem_insert_self _ _⟩

theorem observeItem_of_mem {s : SlotHashSet} {root : Nat} (h : root ∈ s.set) :
    s.observeItem s.slot root = .ok (.alreadyKnown, s) := by
  simp [observeItem, h]

theorem isKnown_of_mem {s : SlotHashSet} {root : Nat} (h : root ∈ s.set) :
    s.isKnown s.slot root = .ok true := by
  simp [isKnown, h]

end SlotHashSet

/-- `ObservedAggregates`: the sets by slot, and the lowest permissible slot. -/
structure ObservedAggregates where
  lowestPermissibleSlot : Nat
  sets : List SlotHashSet

instance : Inhabited ObservedAggregates := ⟨⟨0, []⟩⟩

namespace ObservedAggregates

/-- The position of the set of least slot, the first of several (`min_by_key`). -/
def minSlotIndex (sets : List SlotHashSet) : Nat :=
  ((sets.zipIdx.foldl (fun (best : Option (Nat × Nat)) (x : SlotHashSet × Nat) =>
    match best with
    | none => some (x.2, x.1.slot)
    | some (i, m) => if x.1.slot < m then some (x.2, x.1.slot) else some (i, m)) none).map
    (·.1)).getD 0

variable (maxSlotCapacity maxPerSlotCapacity : Nat)

/-- `max_capacity`: the slots kept, one more on each side of `T::max_slot_capacity`. -/
def maxCapacity : Nat := maxSlotCapacity + 2

/-- `prune`: the sets below `current - (max_capacity - 1)` go and that becomes the bound. -/
def prune (current : Nat) (s : ObservedAggregates) : ObservedAggregates :=
  let lowestPermissibleSlot := current - (maxCapacity maxSlotCapacity - 1)
  { lowestPermissibleSlot
    sets := s.sets.filter fun set => decide (lowestPermissibleSlot ≤ set.slot) }

/-- The second half of `get_set_index`: the set of the slot, a new one while there is room, or
else the set of least slot, emptied for this slot. -/
def findOrCreateSet (slot : Nat) : EStateM Error ObservedAggregates Nat := do
  let s ← get
  match s.sets.findIdx? fun set => set.slot == slot with
  | some index => pure index
  | none =>
    let fresh : SlotHashSet := ⟨∅, slot, maxPerSlotCapacity⟩
    if s.sets.length < maxCapacity maxSlotCapacity ∨ s.sets.isEmpty then
      set { s with sets := s.sets ++ [fresh] }
      pure s.sets.length
    else
      let index := minSlotIndex s.sets
      set { s with sets := s.sets.set index fresh }
      pure index

/-- `get_set_index`: refuse a slot below the bound, prune when the slot is past the window,
then find or create its set. -/
def getSetIndex (slot : Nat) : EStateM Error ObservedAggregates Nat := do
  let s ← get
  let lowestPermissibleSlot := s.lowestPermissibleSlot
  if slot < lowestPermissibleSlot then
    throw (.slotTooLow slot lowestPermissibleSlot)
  if lowestPermissibleSlot + maxCapacity maxSlotCapacity < slot + 1 then
    modify (prune maxSlotCapacity slot)
  findOrCreateSet maxSlotCapacity maxPerSlotCapacity slot

/-- `observe_item`, for an item at `slot` with tree-hash root `root`. -/
def observeItem (slot root : Nat) : EStateM Error ObservedAggregates ObserveOutcome := do
  let index ← getSetIndex maxSlotCapacity maxPerSlotCapacity slot
  let s ← get
  match s.sets[index]? with
  | none => throw (.invalidSetIndex index)
  | some slotSet =>
    match slotSet.observeItem slot root with
    | .error e => throw e
    | .ok (outcome, slotSet') =>
      MonadStateOf.set { s with sets := s.sets.set index slotSet' }
      pure outcome

/-- `is_known`; it takes `&mut self`, since finding the set may prune or add one. -/
def isKnown (slot root : Nat) : EStateM Error ObservedAggregates Bool := do
  let index ← getSetIndex maxSlotCapacity maxPerSlotCapacity slot
  match (← get).sets[index]? with
  | none => throw (.invalidSetIndex index)
  | some slotSet => ofResult (slotSet.isKnown slot root)

/-- The calls a run makes on the cache. -/
inductive Call where
  | observeItem (slot root : Nat)
  | isKnown (slot root : Nat)
  | prune (current : Nat)

/-- A call's effect on the cache. -/
def Call.run : Call → EStateM Error ObservedAggregates Unit
  | .observeItem slot root => do
    let _ ← ObservedAggregates.observeItem maxSlotCapacity maxPerSlotCapacity slot root
  | .isKnown slot root => do
    let _ ← ObservedAggregates.isKnown maxSlotCapacity maxPerSlotCapacity slot root
  | .prune current => modify (ObservedAggregates.prune maxSlotCapacity current)

/-- The calls that do not lower the bound: all but a prune below the bound it finds. -/
def Permitted (s : ObservedAggregates) : Call → Prop
  | .prune current => s.lowestPermissibleSlot ≤ current - (maxCapacity maxSlotCapacity - 1)
  | _ => True

section Window
variable {maxSlotCapacity maxPerSlotCapacity : Nat}

/-- The sets lie within `m` slots from the bound, one set a slot. -/
structure Window (m : Nat) (s : ObservedAggregates) : Prop where
  slots : ∀ t ∈ s.sets, s.lowestPermissibleSlot ≤ t.slot ∧ t.slot < s.lowestPermissibleSlot + m
  nodup : (s.sets.map (·.slot)).Nodup

/-- The root was seen at the slot. -/
def SeenRoot (s : ObservedAggregates) (slot root : Nat) : Prop :=
  ∃ t ∈ s.sets, t.slot = slot ∧ root ∈ t.set

theorem Window.default (m : Nat) : Window m default :=
  ⟨fun _ ht => absurd ht List.not_mem_nil, List.nodup_nil⟩

theorem Window.eq_of_slot {m : Nat} {s : ObservedAggregates} (hw : Window m s) {t u : SlotHashSet}
    (ht : t ∈ s.sets) (hu : u ∈ s.sets) (h : t.slot = u.slot) : t = u :=
  List.inj_on_of_nodup_map hw.nodup ht hu h

/-- A window with every one of its `m` slots taken holds the slot asked for: so while the
window holds, `get_set_index` finds a set or has room, and never replaces one. -/
theorem Window.length_lt {m : Nat} {s : ObservedAggregates} (hw : Window m s) {slot : Nat}
    (hlo : s.lowestPermissibleSlot ≤ slot) (hhi : slot < s.lowestPermissibleSlot + m)
    (hnot : slot ∉ s.sets.map (·.slot)) : s.sets.length < m := by
  have hsub : insert slot (s.sets.map (·.slot)).toFinset ⊆
      Finset.Ico s.lowestPermissibleSlot (s.lowestPermissibleSlot + m) := by
    intro x hx
    rw [Finset.mem_insert, List.mem_toFinset, List.mem_map] at hx
    rw [Finset.mem_Ico]
    rcases hx with rfl | ⟨t, ht, rfl⟩
    · exact ⟨hlo, hhi⟩
    · exact hw.slots t ht
  have hcard := Finset.card_le_card hsub
  rw [Finset.card_insert_of_notMem (by simpa using hnot), List.toFinset_card_of_nodup hw.nodup,
    Nat.card_Ico, List.length_map] at hcard
  omega

/-- A prune that does not lower the bound keeps the window. -/
theorem Window.prune {s : ObservedAggregates} (hw : Window (maxCapacity maxSlotCapacity) s)
    {current : Nat}
    (hup : s.lowestPermissibleSlot ≤ current - (maxCapacity maxSlotCapacity - 1)) :
    Window (maxCapacity maxSlotCapacity) (prune maxSlotCapacity current s) := by
  refine ⟨fun t ht => ?_, ?_⟩
  · simp only [ObservedAggregates.prune, List.mem_filter, decide_eq_true_eq] at ht ⊢
    have := (hw.slots t ht.1).2
    omega
  · exact (hw.nodup.sublist (List.Sublist.map _ List.filter_sublist))

theorem SeenRoot.prune {s : ObservedAggregates} {slot root : Nat} (h : SeenRoot s slot root)
    {current : Nat} (hle : current - (maxCapacity maxSlotCapacity - 1) ≤ slot) :
    SeenRoot (prune maxSlotCapacity current s) slot root := by
  obtain ⟨t, ht, hslot, hroot⟩ := h
  refine ⟨t, ?_, hslot, hroot⟩
  simp only [ObservedAggregates.prune, List.mem_filter, decide_eq_true_eq]
  exact ⟨ht, hslot ▸ hle⟩

end Window

section Spec
variable {maxSlotCapacity : Nat} (maxPerSlotCapacity : Nat)

/-- Finding the set of a slot inside the window: the set found or a new one at the end, the
bound unchanged, no set lost. -/
theorem findOrCreateSet_run {s : ObservedAggregates} (hw : Window (maxCapacity maxSlotCapacity) s)
    {slot : Nat} (hlo : s.lowestPermissibleSlot ≤ slot)
    (hhi : slot < s.lowestPermissibleSlot + maxCapacity maxSlotCapacity) :
    ∃ index s', (findOrCreateSet maxSlotCapacity maxPerSlotCapacity slot).run s = .ok index s' ∧
      s'.lowestPermissibleSlot = s.lowestPermissibleSlot ∧
      Window (maxCapacity maxSlotCapacity) s' ∧
      (∃ t, s'.sets[index]? = some t ∧ t.slot = slot) ∧ ∀ t ∈ s.sets, t ∈ s'.sets := by
  cases hf : s.sets.findIdx? (fun set => set.slot == slot) with
  | some index =>
    obtain ⟨hlt, hp, -⟩ := List.findIdx?_eq_some_iff_getElem.mp hf
    refine ⟨index, s, by simp [findOrCreateSet, hf], rfl, hw,
      ⟨s.sets[index], List.getElem?_eq_getElem hlt, by simpa using hp⟩, fun t ht => ht⟩
  | none =>
    have hnot : slot ∉ s.sets.map (·.slot) := by
      simpa [List.findIdx?_eq_none_iff] using hf
    have hlen := hw.length_lt hlo hhi hnot
    let fresh : SlotHashSet := ⟨∅, slot, maxPerSlotCapacity⟩
    refine ⟨s.sets.length, { s with sets := s.sets ++ [fresh] },
      by simp [findOrCreateSet, hf, hlen, fresh], rfl, ⟨fun t ht => ?_, ?_⟩,
      ⟨fresh, by simp, rfl⟩, fun t ht => List.mem_append_left _ ht⟩
    · rcases List.mem_append.mp ht with ht | ht
      · exact hw.slots t ht
      · rw [List.mem_singleton] at ht
        subst ht
        exact ⟨hlo, hhi⟩
    · rw [List.map_append, List.nodup_append]
      refine ⟨hw.nodup, by simp, fun a ha b hb => ?_⟩
      have hb' : b = slot := by simpa [fresh] using hb
      subst hb'
      exact fun h => hnot (h ▸ ha)

/-- `get_set_index` on a slot inside or above the window. -/
theorem getSetIndex_run {s : ObservedAggregates} (hw : Window (maxCapacity maxSlotCapacity) s)
    {slot : Nat} (hlo : s.lowestPermissibleSlot ≤ slot) :
    ∃ index s', (getSetIndex maxSlotCapacity maxPerSlotCapacity slot).run s = .ok index s' ∧
      s.lowestPermissibleSlot ≤ s'.lowestPermissibleSlot ∧ s'.lowestPermissibleSlot ≤ slot ∧
      Window (maxCapacity maxSlotCapacity) s' ∧
      (∃ t, s'.sets[index]? = some t ∧ t.slot = slot) ∧
      ∀ t ∈ s.sets, s'.lowestPermissibleSlot ≤ t.slot → t ∈ s'.sets := by
  have hnlt : ¬ slot < s.lowestPermissibleSlot := Nat.not_lt.mpr hlo
  by_cases hpast : s.lowestPermissibleSlot + maxCapacity maxSlotCapacity ≤ slot
  · -- Past the window: prune to the slot first, which raises the bound.
    have hup : s.lowestPermissibleSlot ≤ slot - (maxCapacity maxSlotCapacity - 1) := by
      unfold maxCapacity at hpast ⊢
      omega
    obtain ⟨index, s', hrun, hlow, hw', hfound, hkeep⟩ :=
      findOrCreateSet_run maxPerSlotCapacity (hw.prune hup)
        (show slot - (maxCapacity maxSlotCapacity - 1) ≤ slot from Nat.sub_le _ _)
        (show slot < slot - (maxCapacity maxSlotCapacity - 1) + maxCapacity maxSlotCapacity by
          unfold maxCapacity
          omega)
    refine ⟨index, s', by simpa [getSetIndex, hnlt, hpast, Nat.lt_add_one_iff] using hrun, ?_, ?_, hw', hfound,
      fun t ht htle => hkeep t ?_⟩
    · rw [hlow]
      exact hup
    · rw [hlow]
      exact Nat.sub_le _ _
    · simp only [ObservedAggregates.prune, List.mem_filter, decide_eq_true_eq]
      rw [hlow] at htle
      exact ⟨ht, htle⟩
  · obtain ⟨index, s', hrun, hlow, hw', hfound, hkeep⟩ :=
      findOrCreateSet_run maxPerSlotCapacity hw hlo (by omega)
    exact ⟨index, s', by simpa [getSetIndex, hnlt, hpast, Nat.lt_add_one_iff] using hrun, hlow.ge, hlow ▸ hlo, hw',
      hfound, fun t ht _ => hkeep t ht⟩

theorem getSetIndex_run_lt {s : ObservedAggregates} {slot : Nat}
    (hlt : slot < s.lowestPermissibleSlot) :
    (getSetIndex maxSlotCapacity maxPerSlotCapacity slot).run s =
      .error (.slotTooLow slot s.lowestPermissibleSlot) s := by
  simp [getSetIndex, hlt]

end Spec

section Keeps
variable {maxSlotCapacity maxPerSlotCapacity : Nat}

/-- Every set of `s` at or above the bound of `s'` has a set of `s'` at its slot with at least
its roots. -/
def Grows (s s' : ObservedAggregates) : Prop :=
  ∀ t ∈ s.sets, s'.lowestPermissibleSlot ≤ t.slot →
    ∃ t' ∈ s'.sets, t'.slot = t.slot ∧ t.set ⊆ t'.set

theorem Grows.of_subset {s s' : ObservedAggregates}
    (h : ∀ t ∈ s.sets, s'.lowestPermissibleSlot ≤ t.slot → t ∈ s'.sets) : Grows s s' :=
  fun t ht hle => ⟨t, h t ht hle, rfl, Finset.Subset.refl _⟩

theorem Grows.refl (s : ObservedAggregates) : Grows s s :=
  Grows.of_subset fun _ ht _ => ht

theorem Grows.trans {s s' s'' : ObservedAggregates} (h₁ : Grows s s') (h₂ : Grows s' s'')
    (hle : s'.lowestPermissibleSlot ≤ s''.lowestPermissibleSlot) : Grows s s'' := by
  intro t ht htle
  obtain ⟨t', ht', hslot', hsub'⟩ := h₁ t ht (hle.trans htle)
  obtain ⟨t'', ht'', hslot'', hsub''⟩ := h₂ t' ht' (hslot'.symm ▸ htle)
  exact ⟨t'', ht'', hslot''.trans hslot', hsub'.trans hsub''⟩

theorem Grows.seenRoot {s s' : ObservedAggregates} (hg : Grows s s') {slot root : Nat}
    (h : SeenRoot s slot root) (hle : s'.lowestPermissibleSlot ≤ slot) :
    SeenRoot s' slot root := by
  obtain ⟨t, ht, hslot, hroot⟩ := h
  obtain ⟨t', ht', hslot', hsub⟩ := hg t ht (hslot ▸ hle)
  exact ⟨t', ht', hslot'.trans hslot, hsub hroot⟩

/-- What a call leaves when it keeps the window: the window, a bound not lowered, and every set
above the new bound still there with its roots. -/
structure Keeps (m : Nat) (s s' : ObservedAggregates) : Prop where
  window : Window m s'
  le : s.lowestPermissibleSlot ≤ s'.lowestPermissibleSlot
  grows : Grows s s'

theorem Keeps.refl {m : Nat} {s : ObservedAggregates} (hw : Window m s) : Keeps m s s :=
  ⟨hw, le_rfl, Grows.refl s⟩

/-- Writing back, at its position, a set of the same slot with more roots. -/
theorem keeps_set_sets {m : Nat} {s : ObservedAggregates} (hw : Window m s) {index : Nat}
    {t t' : SlotHashSet} (ht : s.sets[index]? = some t) (hslot : t'.slot = t.slot)
    (hsub : t.set ⊆ t'.set) : Keeps m s { s with sets := s.sets.set index t' } := by
  obtain ⟨hlt, rfl⟩ := List.getElem?_eq_some_iff.mp ht
  have hmap : (s.sets.set index t').map (·.slot) = s.sets.map (·.slot) := by
    have hlt' : index < (s.sets.map (·.slot)).length := by simpa using hlt
    rw [List.map_set, hslot]
    calc (s.sets.map (·.slot)).set index s.sets[index].slot
        = (s.sets.map (·.slot)).set index (s.sets.map (·.slot))[index] := by
          rw [List.getElem_map]
      _ = s.sets.map (·.slot) := List.set_getElem_self _
  refine ⟨⟨fun u hu => ?_, hmap ▸ hw.nodup⟩, le_rfl, fun u hu _ => ?_⟩
  · rcases List.mem_or_eq_of_mem_set hu with hu | hu
    · exact hw.slots u hu
    · rw [hu, hslot]
      exact hw.slots _ (List.getElem_mem hlt)
  · obtain ⟨j, hj, rfl⟩ := List.mem_iff_getElem.mp hu
    by_cases hji : index = j
    · subst hji
      exact ⟨t', List.mem_set hlt t', hslot, hsub⟩
    · refine ⟨s.sets[j], List.mem_of_getElem? (i := j) ?_, rfl, Finset.Subset.refl _⟩
      rw [List.getElem?_set_ne hji]
      exact List.getElem?_eq_getElem hj

theorem keeps_getSetIndex {s s' : ObservedAggregates} {m : Nat} (hw' : Window m s') (hle : s.lowestPermissibleSlot ≤ s'.lowestPermissibleSlot)
    (hkeep : ∀ t ∈ s.sets, s'.lowestPermissibleSlot ≤ t.slot → t ∈ s'.sets) : Keeps m s s' :=
  ⟨hw', hle, Grows.of_subset hkeep⟩

theorem Keeps.trans {m : Nat} {s s' s'' : ObservedAggregates} (h₁ : Keeps m s s')
    (h₂ : Keeps m s' s'') : Keeps m s s'' :=
  ⟨h₂.window, h₁.le.trans h₂.le, h₁.grows.trans h₂.grows h₂.le⟩

/-- The set found for a slot holds every root seen at the slot before. -/
theorem Keeps.mem_found {m : Nat} {s s' : ObservedAggregates} (hk : Keeps m s s')
    {slot root index : Nat} (h : SeenRoot s slot root) (hle : s'.lowestPermissibleSlot ≤ slot)
    {t : SlotHashSet} (ht : s'.sets[index]? = some t) (htslot : t.slot = slot) :
    root ∈ t.set := by
  obtain ⟨u, hu, hslot, hroot⟩ := hk.grows.seenRoot h hle
  have : u = t := hk.window.eq_of_slot hu (List.mem_of_getElem? ht) (hslot.trans htslot.symm)
  exact this ▸ hroot

theorem observeItem_run_of_getSetIndex {s s' : ObservedAggregates} {slot root index : Nat}
    {t : SlotHashSet}
    (hg : (getSetIndex maxSlotCapacity maxPerSlotCapacity slot).run s = .ok index s')
    (ht : s'.sets[index]? = some t) :
    (observeItem maxSlotCapacity maxPerSlotCapacity slot root).run s =
      match t.observeItem slot root with
      | .error e => .error e s'
      | .ok (outcome, t') => .ok outcome { s' with sets := s'.sets.set index t' } := by
  unfold observeItem
  rw [run_bind_ok hg, run_get_bind]
  simp only [ht]
  rcases t.observeItem slot root with e | ⟨outcome, t'⟩ <;> rfl

theorem isKnown_run_of_getSetIndex {s s' : ObservedAggregates} {slot root index : Nat}
    {t : SlotHashSet}
    (hg : (getSetIndex maxSlotCapacity maxPerSlotCapacity slot).run s = .ok index s')
    (ht : s'.sets[index]? = some t) :
    (isKnown maxSlotCapacity maxPerSlotCapacity slot root).run s =
      match t.isKnown slot root with
      | .error e => .error e s'
      | .ok b => .ok b s' := by
  unfold isKnown
  rw [run_bind_ok hg, run_get_bind]
  simp only [ht]
  rcases t.isKnown slot root with e | b <;> rfl

theorem observeItem_run_lt {s : ObservedAggregates} {slot : Nat} (root : Nat)
    (hlt : slot < s.lowestPermissibleSlot) :
    (observeItem maxSlotCapacity maxPerSlotCapacity slot root).run s =
      .error (.slotTooLow slot s.lowestPermissibleSlot) s := by
  unfold observeItem
  exact run_bind_error (getSetIndex_run_lt maxPerSlotCapacity hlt)

theorem isKnown_run_lt {s : ObservedAggregates} {slot : Nat} (root : Nat)
    (hlt : slot < s.lowestPermissibleSlot) :
    (isKnown maxSlotCapacity maxPerSlotCapacity slot root).run s =
      .error (.slotTooLow slot s.lowestPermissibleSlot) s := by
  unfold isKnown
  exact run_bind_error (getSetIndex_run_lt maxPerSlotCapacity hlt)

/-- `observe_item` keeps the window, and the root it accepts is seen after it. -/
theorem observeItem_keeps {s : ObservedAggregates} (hw : Window (maxCapacity maxSlotCapacity) s)
    (slot root : Nat) :
    Keeps (maxCapacity maxSlotCapacity) s
        (final ((observeItem maxSlotCapacity maxPerSlotCapacity slot root).run s)) ∧
      ∀ outcome s', (observeItem maxSlotCapacity maxPerSlotCapacity slot root).run s =
        .ok outcome s' → SeenRoot s' slot root := by
  by_cases hlt : slot < s.lowestPermissibleSlot
  · rw [observeItem_run_lt root hlt]
    exact ⟨Keeps.refl hw, fun _ _ h => by cases h⟩
  · obtain ⟨index, s', hg, hlo, -, hw', ⟨t, ht, htslot⟩, hkeep⟩ :=
      getSetIndex_run maxPerSlotCapacity hw (Nat.le_of_not_lt hlt)
    have hk : Keeps _ s s' := keeps_getSetIndex hw' hlo hkeep
    rw [observeItem_run_of_getSetIndex hg ht]
    cases ho : t.observeItem slot root with
    | error e => exact ⟨hk, fun _ _ h => by cases h⟩
    | ok r =>
      obtain ⟨outcome, t'⟩ := r
      obtain ⟨hslot, hsub, hroot⟩ := SlotHashSet.observeItem_ok ho
      have hlt' : index < s'.sets.length := (List.getElem?_eq_some_iff.mp ht).1
      refine ⟨hk.trans (keeps_set_sets hw' ht hslot hsub), fun _ _ h => ?_⟩
      cases h
      exact ⟨t', List.mem_set hlt' t', hslot.trans htslot, hroot⟩

/-- `is_known` keeps the window: it changes the cache only by finding the set. -/
theorem isKnown_keeps {s : ObservedAggregates} (hw : Window (maxCapacity maxSlotCapacity) s)
    (slot root : Nat) :
    Keeps (maxCapacity maxSlotCapacity) s
      (final ((isKnown maxSlotCapacity maxPerSlotCapacity slot root).run s)) := by
  by_cases hlt : slot < s.lowestPermissibleSlot
  · rw [isKnown_run_lt root hlt]
    exact Keeps.refl hw
  · obtain ⟨index, s', hg, hlo, -, hw', ⟨t, ht, -⟩, hkeep⟩ :=
      getSetIndex_run maxPerSlotCapacity hw (Nat.le_of_not_lt hlt)
    rw [isKnown_run_of_getSetIndex hg ht]
    rcases t.isKnown slot root with e | b <;> exact keeps_getSetIndex hw' hlo hkeep

/-- Inside the window, `observe_item` of a root seen at the slot answers `AlreadyKnown` (when the
slot is permissible; below the bound it fails). -/
theorem observeItem_alreadyKnown {s : ObservedAggregates}
    (hw : Window (maxCapacity maxSlotCapacity) s) {slot root : Nat}
    (hseen : s.lowestPermissibleSlot ≤ slot → SeenRoot s slot root) {outcome : ObserveOutcome}
    {s'' : ObservedAggregates}
    (h : (observeItem maxSlotCapacity maxPerSlotCapacity slot root).run s = .ok outcome s'') :
    outcome = .alreadyKnown := by
  by_cases hlt : slot < s.lowestPermissibleSlot
  · rw [observeItem_run_lt root hlt] at h
    cases h
  · obtain ⟨index, s', hg, hlo, hhi, hw', ⟨t, ht, htslot⟩, hkeep⟩ :=
      getSetIndex_run maxPerSlotCapacity hw (Nat.le_of_not_lt hlt)
    have hroot := (keeps_getSetIndex hw' hlo hkeep).mem_found (hseen (Nat.le_of_not_lt hlt))
      hhi ht htslot
    subst htslot
    rw [observeItem_run_of_getSetIndex hg ht, SlotHashSet.observeItem_of_mem hroot] at h
    cases h
    rfl

/-- Inside the window, `is_known` of a root seen at the slot answers `true`. -/
theorem isKnown_true {s : ObservedAggregates} (hw : Window (maxCapacity maxSlotCapacity) s)
    {slot root : Nat} (hseen : s.lowestPermissibleSlot ≤ slot → SeenRoot s slot root) {b : Bool}
    {s'' : ObservedAggregates}
    (h : (isKnown maxSlotCapacity maxPerSlotCapacity slot root).run s = .ok b s'') : b = true := by
  by_cases hlt : slot < s.lowestPermissibleSlot
  · rw [isKnown_run_lt root hlt] at h
    cases h
  · obtain ⟨index, s', hg, hlo, hhi, hw', ⟨t, ht, htslot⟩, hkeep⟩ :=
      getSetIndex_run maxPerSlotCapacity hw (Nat.le_of_not_lt hlt)
    have hroot := (keeps_getSetIndex hw' hlo hkeep).mem_found (hseen (Nat.le_of_not_lt hlt))
      hhi ht htslot
    subst htslot
    rw [isKnown_run_of_getSetIndex hg ht, SlotHashSet.isKnown_of_mem hroot] at h
    cases h
    rfl

/-- A permitted call keeps the window: the only call that can lower the bound is a prune. -/
theorem Call.run_keeps (i : Call) {s : ObservedAggregates}
    (hw : Window (maxCapacity maxSlotCapacity) s) (hp : Permitted maxSlotCapacity s i) :
    Keeps (maxCapacity maxSlotCapacity) s
      (final ((i.run maxSlotCapacity maxPerSlotCapacity).run s)) := by
  cases i with
  | observeItem slot root =>
    simp only [Call.run, final_bind_pure]
    exact (observeItem_keeps hw slot root).1
  | isKnown slot root =>
    simp only [Call.run, final_bind_pure]
    exact isKnown_keeps hw slot root
  | prune current =>
    refine ⟨hw.prune hp, hp, Grows.of_subset fun t ht hle => ?_⟩
    show t ∈ (ObservedAggregates.prune maxSlotCapacity current s).sets
    simp only [ObservedAggregates.prune, List.mem_filter, decide_eq_true_eq]
    exact ⟨ht, hle⟩

/-- The invariant of a run of permitted calls after a root is seen: the window holds, and while
the bound stays at or below the slot the root is seen. -/
theorem runAll_keeps_seen {s : ObservedAggregates} {calls : List Call} {slot root : Nat}
    (hruns : RunsUnder (Call.run maxSlotCapacity maxPerSlotCapacity) (Permitted maxSlotCapacity)
      s calls)
    (hw : Window (maxCapacity maxSlotCapacity) s)
    (hseen : s.lowestPermissibleSlot ≤ slot → SeenRoot s slot root) :
    let s' := runAll (Call.run maxSlotCapacity maxPerSlotCapacity) s calls
    Window (maxCapacity maxSlotCapacity) s' ∧
      (s'.lowestPermissibleSlot ≤ slot → SeenRoot s' slot root) := by
  refine hruns.invariant (I := fun t => Window _ t ∧ (t.lowestPermissibleSlot ≤ slot →
    SeenRoot t slot root)) (fun t i hp ⟨hwt, hst⟩ => ?_) ⟨hw, hseen⟩
  have hk : Keeps _ t (final ((i.run maxSlotCapacity maxPerSlotCapacity).run t)) :=
    i.run_keeps hwt hp
  exact ⟨hk.window, fun hle => hk.grows.seenRoot (hst (hk.le.trans hle)) hle⟩

/-- From a fresh cache, under permitted calls, a root `observe_item` accepted stays seen while the
bound stays at or below its slot. -/
theorem seenRoot_runAll {before calls : List Call} {slot root : Nat} {outcome : ObserveOutcome}
    {s₁ : ObservedAggregates}
    (hbefore : RunsUnder (Call.run maxSlotCapacity maxPerSlotCapacity) (Permitted maxSlotCapacity)
      default before)
    (hobs : (observeItem maxSlotCapacity maxPerSlotCapacity slot root).run
      (runAll (Call.run maxSlotCapacity maxPerSlotCapacity) default before) = .ok outcome s₁)
    (hcalls : RunsUnder (Call.run maxSlotCapacity maxPerSlotCapacity) (Permitted maxSlotCapacity)
      s₁ calls) :
    let s₂ := runAll (Call.run maxSlotCapacity maxPerSlotCapacity) s₁ calls
    Window (maxCapacity maxSlotCapacity) s₂ ∧
      (s₂.lowestPermissibleSlot ≤ slot → SeenRoot s₂ slot root) := by
  have hw₀ : Window (maxCapacity maxSlotCapacity)
      (runAll (Call.run maxSlotCapacity maxPerSlotCapacity) default before) :=
    hbefore.invariant (fun _ i hp hw => (i.run_keeps hw hp).window) (Window.default _)
  have hk : Keeps _ _ (final ((observeItem maxSlotCapacity maxPerSlotCapacity slot root).run
      (runAll (Call.run maxSlotCapacity maxPerSlotCapacity) default before))) :=
    (observeItem_keeps hw₀ slot root).1
  rw [hobs] at hk
  exact runAll_keeps_seen hcalls hk.window fun _ => (observeItem_keeps hw₀ slot root).2 outcome s₁ hobs

end Keeps

end ObservedAggregates

section Remembered
open AutoPruningContainer ObservedAggregates

/-- Neither cache forgets a permissible observation, under the condition each needs. A container
keeps a validator seen at a key while its bound stays at or below the key's epoch or slot, since
an observation of an older epoch lowers it; `ObservedAggregates`, from a fresh cache and under
calls none of which is a prune below its bound, answers `AlreadyKnown` and `true` for every root
it accepted. -/
theorem observation_remembered :
    (∀ (K : Type) [DecidableEq K] (slotOf : K → Nat) (validatorRegistryLimit : Nat)
      (tooLow : Nat → Nat → Error) (c c₁ : AutoPruningContainer K) (key : K) (v : Nat)
      (b₀ : Bool) (calls : List (AutoPruningContainer.Call K)),
      (AutoPruningContainer.observeValidator slotOf validatorRegistryLimit tooLow key v).run c =
        .ok b₀ c₁ →
      RunsUnder (AutoPruningContainer.Call.run slotOf validatorRegistryLimit tooLow)
        (fun t i => (final ((i.run slotOf validatorRegistryLimit tooLow).run t)).lowestPermissible ≤
          slotOf key) c₁ calls →
      let c₂ := runAll (AutoPruningContainer.Call.run slotOf validatorRegistryLimit tooLow) c₁ calls
      (∀ b c₃, (AutoPruningContainer.observeValidator slotOf validatorRegistryLimit tooLow key
        v).run c₂ = .ok b c₃ → b = true) ∧
      ∀ b, validatorHasBeenObserved slotOf validatorRegistryLimit tooLow c₂ key v = .ok b →
        b = true) ∧
    ∀ (maxSlotCapacity maxPerSlotCapacity : Nat) (before calls : List ObservedAggregates.Call)
      (slot root : Nat) (outcome : ObserveOutcome) (s₁ : ObservedAggregates),
      RunsUnder (ObservedAggregates.Call.run maxSlotCapacity maxPerSlotCapacity)
        (Permitted maxSlotCapacity) default before →
      (ObservedAggregates.observeItem maxSlotCapacity maxPerSlotCapacity slot root).run
        (runAll (ObservedAggregates.Call.run maxSlotCapacity maxPerSlotCapacity) default before) =
        .ok outcome s₁ →
      RunsUnder (ObservedAggregates.Call.run maxSlotCapacity maxPerSlotCapacity)
        (Permitted maxSlotCapacity) s₁ calls →
      let s₂ := runAll (ObservedAggregates.Call.run maxSlotCapacity maxPerSlotCapacity) s₁ calls
      (∀ outcome' s₃, (ObservedAggregates.observeItem maxSlotCapacity maxPerSlotCapacity slot
        root).run s₂ = .ok outcome' s₃ → outcome' = .alreadyKnown) ∧
      ∀ b s₃, (ObservedAggregates.isKnown maxSlotCapacity maxPerSlotCapacity slot root).run s₂ =
        .ok b s₃ → b = true := by
  constructor
  · intro K _ slotOf validatorRegistryLimit tooLow c c₁ key v b₀ calls hobs hruns c₂
    have hseen : c₂.seen key v = true := seen_runAll hobs hruns
    exact ⟨fun _ _ h => observeValidator_of_seen hseen h,
      fun _ h => validatorHasBeenObserved_of_seen hseen h⟩
  · intro maxSlotCapacity maxPerSlotCapacity before calls slot root outcome s₁ hbefore hobs hcalls s₂
    obtain ⟨hw, hseen⟩ := seenRoot_runAll hbefore hobs hcalls
    exact ⟨fun _ _ h => observeItem_alreadyKnown hw hseen h, fun _ _ h => isKnown_true hw hseen h⟩

/-- The epoch container observes validator `1` at epoch `0` and prunes to epoch `2`, which keeps
the bound at `0`; a cache of one slot, three kept, takes a root at slot `3` and another at
slot `4`. -/
theorem observation_remembered_runs :
    let c₁ := final ((AutoPruningContainer.observeValidator id 8 .epochTooLow 0 1).run default)
    let s₁ := final ((ObservedAggregates.observeItem 1 2 3 7).run default)
    ((AutoPruningContainer.observeValidator id 8 .epochTooLow 0 1).run default = .ok false c₁ ∧
      RunsUnder (AutoPruningContainer.Call.run id 8 .epochTooLow)
        (fun t i => (final ((i.run id 8 .epochTooLow).run t)).lowestPermissible ≤ id 0) c₁
        [.prune 2] ∧
      let c₂ := runAll (AutoPruningContainer.Call.run id 8 .epochTooLow) c₁ [.prune 2]
      (∀ b c₃, (AutoPruningContainer.observeValidator id 8 .epochTooLow 0 1).run c₂ = .ok b c₃ →
        b = true) ∧
      ∀ b, validatorHasBeenObserved id 8 .epochTooLow c₂ 0 1 = .ok b → b = true) ∧
    (RunsUnder (ObservedAggregates.Call.run 1 2) (Permitted 1) default [] ∧
      (ObservedAggregates.observeItem 1 2 3 7).run
        (runAll (ObservedAggregates.Call.run 1 2) default []) = .ok .new s₁ ∧
      RunsUnder (ObservedAggregates.Call.run 1 2) (Permitted 1) s₁ [.observeItem 4 8] ∧
      let s₂ := runAll (ObservedAggregates.Call.run 1 2) s₁ [.observeItem 4 8]
      (∀ outcome' s₃, (ObservedAggregates.observeItem 1 2 3 7).run s₂ = .ok outcome' s₃ →
        outcome' = .alreadyKnown) ∧
      ∀ b s₃, (ObservedAggregates.isKnown 1 2 3 7).run s₂ = .ok b s₃ → b = true) := by
  intro c₁ s₁
  have hobs : (AutoPruningContainer.observeValidator id 8 .epochTooLow 0 1).run default =
      .ok false c₁ := rfl
  have hruns : RunsUnder (AutoPruningContainer.Call.run id 8 .epochTooLow)
      (fun t i => (final ((i.run id 8 .epochTooLow).run t)).lowestPermissible ≤ id 0) c₁
      [.prune 2] := .cons (by decide) (.nil _)
  have hitem : (ObservedAggregates.observeItem 1 2 3 7).run
      (runAll (ObservedAggregates.Call.run 1 2) default []) = .ok .new s₁ := rfl
  have hcalls : RunsUnder (ObservedAggregates.Call.run 1 2) (Permitted 1) s₁ [.observeItem 4 8] :=
    .cons trivial (.nil _)
  exact ⟨⟨hobs, hruns, observation_remembered.1 Nat id 8 .epochTooLow default c₁ 0 1 false
      [.prune 2] hobs hruns⟩,
    ⟨.nil _, hitem, hcalls, observation_remembered.2 1 2 [] [.observeItem 4 8] 3 7 .new s₁
      (.nil _) hitem hcalls⟩⟩

/-- Both caches can forget an observation. The epoch container observes validator `1` at epoch
`0`, then validator `2` at epoch `10`, which prunes epoch `0`; a prune to epoch `0` sets the bound
back, and the first observation, made again, answers `false`. A cache of one slot, three kept,
takes roots at slots `5`, `3` and `4`; a prune to slot `4` lowers the bound to `2`, a root at
slot `2` then takes the place of the lowest set, slot `3`, and the root seen at slot `3` is new
again, though the bound never passed `3`. -/
theorem observation_forgotten :
    let c₂ := runAll (AutoPruningContainer.Call.run id 8 .epochTooLow)
      (final ((AutoPruningContainer.observeValidator id 8 .epochTooLow 0 1).run default))
      [.observeValidator 10 2, .prune 0]
    let s₁ := runAll (ObservedAggregates.Call.run 1 2) default [.observeItem 5 1]
    let s₂ := runAll (ObservedAggregates.Call.run 1 2)
      (final ((ObservedAggregates.observeItem 1 2 3 2).run s₁))
      [.observeItem 4 3, .prune 4, .observeItem 2 4]
    okValue ((AutoPruningContainer.observeValidator id 8 .epochTooLow 0 1).run default) =
        some false ∧
      okValue ((AutoPruningContainer.observeValidator id 8 .epochTooLow 0 1).run c₂) = some false ∧
      okValue ((ObservedAggregates.observeItem 1 2 3 2).run s₁) = some .new ∧
      okValue ((ObservedAggregates.observeItem 1 2 3 2).run s₂) = some .new := by
  intro c₂ s₁ s₂
  exact ⟨by decide, by decide, by decide, by decide⟩

end Remembered

end Lighthouse.Gossip
