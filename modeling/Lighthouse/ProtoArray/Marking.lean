import Lighthouse.ProtoArray.Status

/-! Marking nodes invalid. Both walks of `propagate_execution_payload_invalidation` write
statuses and nothing else a status check reads: `MarkedIn s S s'` says that `s'` is `s` with
the nodes of `S` marked (an optimistic one becomes invalid, the others stay), its parents,
indices and structure kept. Markings compose, and marking a set that holds every child of its
optimistic members keeps the statuses consistent. -/
namespace Lighthouse.ForkChoice
open EState Forest

/-- The status a node has once an invalidation reaches it: an optimistic payload becomes
invalid, every other status stays (the walks fail on a valid one). -/
def ExecutionStatus.markedInvalid : ExecutionStatus → ExecutionStatus
  | .optimistic h => .invalid h
  | s => s

@[simp] theorem ExecutionStatus.markedInvalid_markedInvalid (st : ExecutionStatus) :
    st.markedInvalid.markedInvalid = st.markedInvalid := by
  cases st <;> rfl

namespace ProtoArray

section Statuses
variable {s : ProtoArray}

theorem isValidOrIrrelevant_markedInvalid (st : ExecutionStatus) :
    st.markedInvalid.isValidOrIrrelevant = st.isValidOrIrrelevant := by
  cases st <;> rfl

theorem isValidAndPostBellatrix_markedInvalid (st : ExecutionStatus) :
    st.markedInvalid.isValidAndPostBellatrix = st.isValidAndPostBellatrix := by
  cases st <;> rfl

theorem isIrrelevant_markedInvalid (st : ExecutionStatus) :
    st.markedInvalid.isIrrelevant = st.isIrrelevant := by
  cases st <;> rfl

theorem isInvalid_markedInvalid (st : ExecutionStatus) :
    st.markedInvalid.isInvalid = (st.isInvalid || st.isOptimistic) := by
  cases st <;> rfl

/-- Below an optimistic parent a consistent child is optimistic or invalid: marking makes it
invalid. -/
theorem LinkStatus.markedInvalid_child {child parent : ExecutionStatus}
    (h : LinkStatus False child parent) (hp : parent.isOptimistic = true) :
    child.markedInvalid.isInvalid = true := by
  obtain ⟨-, hv, hr⟩ := h
  cases child <;> cases parent <;>
    simp_all [ExecutionStatus.markedInvalid, ExecutionStatus.isInvalid, ExecutionStatus.isOptimistic,
      ExecutionStatus.isValidAndPostBellatrix, ExecutionStatus.isValidOrIrrelevant,
      ExecutionStatus.isIrrelevant]

/-- Every descendant of an optimistic node is optimistic or invalid. -/
theorem StatusConsistent.optimistic_descendant (hc : s.StatusConsistent) {d a : Nat}
    (hd : Descends ProtoNode.parent s.nodes d a) (ha : s.HasStatus ExecutionStatus.isOptimistic a) :
    s.HasStatus (fun st => st.markedInvalid.isInvalid) d := by
  refine hasStatus_of_descends (fun c p n m hn hp hm hpm => ?_) hd ?_
  · have hl := hc c p n m hn hp hm
    rw [isInvalid_markedInvalid, Bool.or_eq_true] at hpm
    rcases hpm with hinv | hopt
    · rw [isInvalid_markedInvalid, hl.invalid hinv, Bool.true_or]
    · exact hl.markedInvalid_child hopt
  · obtain ⟨m, hm, hopt⟩ := ha
    exact ⟨m, hm, show m.executionStatus.markedInvalid.isInvalid = true by
      rw [isInvalid_markedInvalid, hopt, Bool.or_true]⟩

theorem isValidOrIrrelevant_of_markedInvalid {st : ExecutionStatus}
    (h : st.markedInvalid.isInvalid = true) : st.isValidOrIrrelevant = false := by
  rw [isInvalid_markedInvalid] at h
  cases st <;> simp_all [ExecutionStatus.isInvalid, ExecutionStatus.isOptimistic,
    ExecutionStatus.isValidOrIrrelevant]

end Statuses

/-- The status at a position of the array. -/
def statusAt (pa : ProtoArray) (i : Nat) : Option ExecutionStatus :=
  pa.nodes[i]?.map (·.executionStatus)

/-- `s'` is `s` with the statuses of the nodes in `S` marked invalid, the parents kept, and the
structure kept. -/
structure MarkedIn (s : ProtoArray) (S : Nat → Prop) (s' : ProtoArray) : Prop where
  marked : ∀ x, S x → statusAt s' x = (statusAt s x).map ExecutionStatus.markedInvalid
  unmarked : ∀ x, ¬ S x → statusAt s' x = statusAt s x
  parents : s'.nodes.map (·.parent) = s.nodes.map (·.parent)
  indices : s'.indices = s.indices
  wf : s'.Wf

section Marking
variable {s s' s₁ s₂ : ProtoArray}

theorem statusAt_set_ne {i x : Nat} {n' : ProtoNode} (hx : x ≠ i) :
    statusAt { s with nodes := s.nodes.set i n' } x = statusAt s x := by
  simp [statusAt, List.getElem?_set_ne (Ne.symm hx)]

theorem statusAt_set_self {i : Nat} {n n' : ProtoNode} (hn : s.nodes[i]? = some n) :
    statusAt { s with nodes := s.nodes.set i n' } i = some n'.executionStatus := by
  simp [statusAt, (List.getElem?_eq_some_iff.mp hn).1]

theorem statusAt_of_getElem? {i : Nat} {n : ProtoNode} (hn : s.nodes[i]? = some n) :
    statusAt s i = some n.executionStatus := by
  simp [statusAt, hn]

theorem MarkedIn.refl (hwf : s.Wf) : MarkedIn s (fun _ => False) s :=
  ⟨fun _ h => h.elim, fun _ _ => rfl, rfl, rfl, hwf⟩

/-- Two markings in a row mark the union: marking twice is marking once. -/
theorem MarkedIn.trans {S S' : Nat → Prop} (h₁ : MarkedIn s S s₁) (h₂ : MarkedIn s₁ S' s₂) :
    MarkedIn s (fun x => S x ∨ S' x) s₂ where
  marked x hx := by
    by_cases hS' : S' x
    · rw [h₂.marked x hS']
      by_cases hS : S x
      · rw [h₁.marked x hS, Option.map_map]
        congr 1
        funext st
        simp
      · rw [h₁.unmarked x hS]
    · rw [h₂.unmarked x hS', h₁.marked x (hx.resolve_right hS')]
  unmarked x hx := by
    rw [h₂.unmarked x (fun h => hx (.inr h)), h₁.unmarked x (fun h => hx (.inl h))]
  parents := h₂.parents.trans h₁.parents
  indices := h₂.indices.trans h₁.indices
  wf := h₂.wf

theorem MarkedIn.congr {S S' : Nat → Prop} (h : MarkedIn s S s₁) (hS : ∀ x, S x ↔ S' x) :
    MarkedIn s S' s₁ :=
  ⟨fun x hx => h.marked x ((hS x).mpr hx), fun x hx => h.unmarked x (fun h' => hx ((hS x).mp h')),
    h.parents, h.indices, h.wf⟩

/-- Writing a node that keeps its parent marks it, when its new status is the marked one. -/
theorem markedIn_set (hwf : s.Wf) {i : Nat} {n n' : ProtoNode} (hn : s.nodes[i]? = some n)
    (hparent : n'.parent = n.parent) (hroot : n'.root = n.root)
    (hbc : ∀ c, n'.bestChild = some c → n.bestChild = some c)
    (hbd : ∀ d, n'.bestDescendant = some d → n.bestDescendant = some d)
    (hst : n'.executionStatus = n.executionStatus.markedInvalid) :
    MarkedIn s (· = i) { s with nodes := s.nodes.set i n' } where
  marked x hx := by
    subst hx
    rw [statusAt_set_self hn, statusAt_of_getElem? hn, hst]
    rfl
  unmarked x hx := statusAt_set_ne hx
  parents := map_set_of_eq _ hn hparent
  indices := rfl
  wf := hwf.set_of_links hn hroot hparent hbc hbd

/-- A write of links only marks nothing. -/
theorem markedIn_set_links (hwf : s.Wf) {i : Nat} {n n' : ProtoNode} (hn : s.nodes[i]? = some n)
    (hparent : n'.parent = n.parent) (hroot : n'.root = n.root)
    (hbc : ∀ c, n'.bestChild = some c → n.bestChild = some c)
    (hbd : ∀ d, n'.bestDescendant = some d → n.bestDescendant = some d)
    (hst : n'.executionStatus = n.executionStatus) :
    MarkedIn s (fun _ => False) { s with nodes := s.nodes.set i n' } where
  marked _ h := h.elim
  unmarked x _ := by
    by_cases hx : x = i
    · subst hx
      rw [statusAt_set_self hn, statusAt_of_getElem? hn, hst]
    · exact statusAt_set_ne hx
  parents := map_set_of_eq _ hn hparent
  indices := rfl
  wf := hwf.set_of_links hn hroot hparent hbc hbd

/-- A node that is already what marking makes it counts as marked. -/
theorem markedIn_self (hwf : s.Wf) {i : Nat} {n : ProtoNode} (hn : s.nodes[i]? = some n)
    (hst : n.executionStatus.markedInvalid = n.executionStatus) : MarkedIn s (· = i) s where
  marked x hx := by
    subst hx
    rw [statusAt_of_getElem? hn, Option.map_some, hst]
  unmarked _ _ := rfl
  parents := rfl
  indices := rfl
  wf := hwf

theorem between_congr (h : s₁.nodes.map (·.parent) = s.nodes.map (·.parent)) {lo hi x : Nat} :
    Between ProtoNode.parent s₁.nodes lo hi x ↔ Between ProtoNode.parent s.nodes lo hi x := by
  unfold Between
  rw [descends_congr (parentAt_eq_of_map_eq h), descends_congr (parentAt_eq_of_map_eq h)]

theorem hasStatus_congr {P : ExecutionStatus → Bool} {x : Nat} (h : s₁.nodes[x]? = s.nodes[x]?) :
    s₁.HasStatus P x ↔ s.HasStatus P x := by
  unfold HasStatus
  rw [h]

theorem hasStatus_iff_statusAt {P : ExecutionStatus → Bool} {x : Nat} :
    s.HasStatus P x ↔ ∃ st, statusAt s x = some st ∧ P st = true := by
  unfold HasStatus statusAt
  cases s.nodes[x]? <;> simp

/-- After marking, the invalid nodes are the invalid ones and the optimistic ones marked. -/
theorem MarkedIn.isInvalid_iff {S : Nat → Prop} (h : MarkedIn s S s') (x : Nat) :
    s'.HasStatus ExecutionStatus.isInvalid x ↔
      s.HasStatus ExecutionStatus.isInvalid x ∨ (S x ∧ s.HasStatus ExecutionStatus.isOptimistic x) := by
  simp only [hasStatus_iff_statusAt]
  by_cases hx : S x
  · rw [h.marked x hx]
    cases statusAt s x <;> simp [hx, isInvalid_markedInvalid]
  · rw [h.unmarked x hx]
    simp [hx]

/-- A status property that marking does not change reads the same before and after. -/
theorem MarkedIn.hasStatus_iff {S : Nat → Prop} (h : MarkedIn s S s')
    {P : ExecutionStatus → Bool} (hP : ∀ st, P st.markedInvalid = P st) (x : Nat) :
    s'.HasStatus P x ↔ s.HasStatus P x := by
  simp only [hasStatus_iff_statusAt]
  by_cases hx : S x
  · rw [h.marked x hx]
    cases statusAt s x <;> simp [hP]
  · rw [h.unmarked x hx]

theorem MarkedIn.descends_iff {S : Nat → Prop} (h : MarkedIn s S s')
    {d a : Nat} : Descends ProtoNode.parent s'.nodes d a ↔ Descends ProtoNode.parent s.nodes d a :=
  descends_congr (parentAt_eq_of_map_eq h.parents)

/-- A node after marking: the same parent, and its status marked exactly when it is in `S`. -/
theorem MarkedIn.node {S : Nat → Prop} (h : MarkedIn s S s') {x : Nat} {n' : ProtoNode}
    (hn' : s'.nodes[x]? = some n') :
    ∃ n, s.nodes[x]? = some n ∧ n'.parent = n.parent ∧
      ((S x ∧ n'.executionStatus = n.executionStatus.markedInvalid) ∨
        (¬ S x ∧ n'.executionStatus = n.executionStatus)) := by
  have hp := congrArg (·[x]?) h.parents
  simp only [List.getElem?_map, hn', Option.map_some] at hp
  obtain ⟨n, hn, hnp⟩ := Option.map_eq_some_iff.mp hp.symm
  refine ⟨n, hn, hnp.symm, ?_⟩
  by_cases hx : S x
  · have hst := h.marked x hx
    rw [statusAt_of_getElem? hn', statusAt_of_getElem? hn, Option.map_some, Option.some.injEq] at hst
    exact .inl ⟨hx, hst⟩
  · have hst := h.unmarked x hx
    rw [statusAt_of_getElem? hn', statusAt_of_getElem? hn, Option.some.injEq] at hst
    exact .inr ⟨hx, hst⟩

/-- Marking a set that holds every child of its optimistic members keeps every link
consistent. -/
theorem StatusConsistent.marked (hc : s.StatusConsistent) {S : Nat → Prop} (hm : MarkedIn s S s')
    (hclosed : ∀ c p, parentAt ProtoNode.parent s.nodes c = some p → S p →
      s.HasStatus ExecutionStatus.isOptimistic p → S c) :
    s'.StatusConsistent := by
  -- The valid and irrelevant checks read what marking does not change.
  have hkept : ∀ (P : ExecutionStatus → Bool), (∀ st, P st.markedInvalid = P st) →
      ∀ (a b : ExecutionStatus) (Q : Prop), (Q ∧ b = a.markedInvalid) ∨ (¬ Q ∧ b = a) →
      P b = P a := by
    rintro P hP a b Q (⟨-, rfl⟩ | ⟨-, rfl⟩)
    · exact hP a
    · rfl
  intro c p n' m' hn' hp hm'
  obtain ⟨n, hn, hnp, hns⟩ := hm.node hn'
  obtain ⟨m, hmm, -, hms⟩ := hm.node hm'
  rw [hnp] at hp
  have hl := hc c p n m hn hp hmm
  have hinvn : n.executionStatus.isInvalid = true → n'.executionStatus.isInvalid = true := by
    intro hinv
    rcases hns with ⟨-, hst⟩ | ⟨-, hst⟩ <;> rw [hst]
    · rw [isInvalid_markedInvalid, hinv, Bool.true_or]
    · exact hinv
  refine ⟨fun hinv => ?_, fun _ hv => ?_, fun hirr => ?_⟩
  · rcases hms with ⟨hSp, hst⟩ | ⟨-, hst⟩
    · rw [hst, isInvalid_markedInvalid, Bool.or_eq_true] at hinv
      rcases hinv with hinv | hopt
      · exact hinvn (hl.invalid hinv)
      · -- A newly invalid parent: its child is in the set, and was optimistic or invalid.
        have hSc := hclosed c p (by simp [parentAt, hn, hp]) hSp ⟨m, hmm, hopt⟩
        rcases hns with ⟨-, hst'⟩ | ⟨hnS, -⟩
        · rw [hst']
          exact hl.markedInvalid_child hopt
        · exact absurd hSc hnS
    · rw [hst] at hinv
      exact hinvn (hl.invalid hinv)
  · rw [hkept _ isValidAndPostBellatrix_markedInvalid _ _ _ hns] at hv
    rw [hkept _ isValidOrIrrelevant_markedInvalid _ _ _ hms]
    exact hl.valid not_false hv
  · rw [hkept _ isIrrelevant_markedInvalid _ _ _ hns] at hirr
    rw [hkept _ isIrrelevant_markedInvalid _ _ _ hms]
    exact hl.irrelevant hirr

end Marking

end ProtoArray

end Lighthouse.ForkChoice
