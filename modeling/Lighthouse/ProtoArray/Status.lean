import Lighthouse.ProtoArray.Invariant

/-! Execution statuses along the block tree. `StatusConsistent` asks of every parent link that
an invalid parent have an invalid child, a valid child a valid or irrelevant parent, and an
irrelevant child an irrelevant parent; over the whole tree this gives the three facts
(a)-(c): below an invalid block all is invalid, above a valid one all is valid or irrelevant,
above an irrelevant one all is irrelevant. The validation walk and `on_block` keep it, the
latter for a block without a payload only when its parent has none either: the array does
not check that itself, it is the consensus rule that payloads, once present, stay. -/
namespace Lighthouse.ForkChoice
open EState Forest

namespace ProtoArray

/-- The execution statuses at the two ends of one parent link agree: an invalid parent has an
invalid child, a valid child a valid or irrelevant parent (unless `waived`), an irrelevant child
an irrelevant parent. -/
structure LinkStatus (waived : Prop) (child parent : ExecutionStatus) : Prop where
  invalid : parent.isInvalid → child.isInvalid
  valid : ¬ waived → child.isValidAndPostBellatrix → parent.isValidOrIrrelevant
  irrelevant : child.isIrrelevant → parent.isIrrelevant

/-- Every parent link of the array agrees, the check of a valid child waived below the nodes
in `waived`. -/
def StatusConsistentBut (pa : ProtoArray) (waived : Nat → Prop) : Prop :=
  ∀ (c p : Nat) (n m : ProtoNode), pa.nodes[c]? = some n → n.parent = some p → pa.nodes[p]? = some m →
    LinkStatus (waived p) n.executionStatus m.executionStatus

/-- Every parent link of the array agrees. -/
abbrev StatusConsistent (pa : ProtoArray) : Prop := pa.StatusConsistentBut fun _ => False

/-- The node at position `i` has a status satisfying `P`. -/
def HasStatus (pa : ProtoArray) (P : ExecutionStatus → Bool) (i : Nat) : Prop :=
  ∃ n, pa.nodes[i]? = some n ∧ P n.executionStatus = true

instance (pa : ProtoArray) (P : ExecutionStatus → Bool) (i : Nat) : Decidable (pa.HasStatus P i) :=
  decidable_of_iff ((pa.nodes[i]?.map fun n => P n.executionStatus) = some true) (by
    unfold HasStatus
    cases pa.nodes[i]? <;> simp)

theorem hasStatus_of_getElem? {s : ProtoArray} {P : ExecutionStatus → Bool} {i : Nat}
    {n : ProtoNode} (hn : s.nodes[i]? = some n) : s.HasStatus P i ↔ P n.executionStatus = true := by
  simp [HasStatus, hn]

section Consistent
variable {pa : ProtoArray}

theorem StatusConsistentBut.mono {waived waived' : Nat → Prop} (h : pa.StatusConsistentBut waived)
    (hw : ∀ p, waived p → waived' p) : pa.StatusConsistentBut waived' := by
  intro c p n m hn hp hm
  obtain ⟨hi, hv, hr⟩ := h c p n m hn hp hm
  exact ⟨hi, fun hw' => hv (fun h => hw' (hw p h)), hr⟩

/-- The statuses along the links depend on the parents and statuses only. -/
theorem StatusConsistentBut.congr {pa' : ProtoArray} {waived : Nat → Prop}
    (h : pa.StatusConsistentBut waived)
    (hview : pa'.nodes.map (fun n => (n.parent, n.executionStatus)) =
      pa.nodes.map (fun n => (n.parent, n.executionStatus))) :
    pa'.StatusConsistentBut waived := by
  have hat : ∀ (i : Nat) (n' : ProtoNode), pa'.nodes[i]? = some n' →
      ∃ n : ProtoNode, pa.nodes[i]? = some n ∧
      n'.parent = n.parent ∧ n'.executionStatus = n.executionStatus := by
    intro i n' hn'
    have := congrArg (·[i]?) hview
    simp only [List.getElem?_map, hn', Option.map_some] at this
    obtain ⟨n, hn, he⟩ := Option.map_eq_some_iff.mp this.symm
    simp only [Prod.mk.injEq] at he
    exact ⟨n, hn, he.1.symm, he.2.symm⟩
  intro c p n' m' hn' hp hm'
  obtain ⟨n, hn, hnp, hns⟩ := hat c n' hn'
  obtain ⟨m, hm, -, hms⟩ := hat p m' hm'
  rw [hns, hms]
  exact h c p n m hn (hnp ▸ hp) hm

/-- A property of statuses that every parent passes to its child, over the whole subtree. -/
theorem hasStatus_of_descends {P : ExecutionStatus → Bool}
    (hstep : ∀ (c p : Nat) (n m : ProtoNode), pa.nodes[c]? = some n → n.parent = some p →
      pa.nodes[p]? = some m →
      P m.executionStatus → P n.executionStatus) {d a : Nat}
    (h : Descends ProtoNode.parent pa.nodes d a) (ha : pa.HasStatus P a) : pa.HasStatus P d := by
  refine h.transport (Q := pa.HasStatus P) (fun c p hcp ⟨m, hm, hPm⟩ => ?_) ha
  obtain ⟨n, hn, hnp⟩ : ∃ n, pa.nodes[c]? = some n ∧ n.parent = some p := by
    unfold parentAt at hcp
    cases hc : pa.nodes[c]? with
    | none => rw [hc] at hcp; cases hcp
    | some n => rw [hc] at hcp; exact ⟨n, rfl, hcp⟩
  exact ⟨n, hn, hstep c p n m hn hnp hm hPm⟩

/-- A property of statuses that every child passes to its parent, over all ancestors. -/
theorem hasStatus_of_descends_up (hwf : pa.Wf) {P : ExecutionStatus → Bool}
    (hstep : ∀ (c p : Nat) (n m : ProtoNode), pa.nodes[c]? = some n → n.parent = some p →
      pa.nodes[p]? = some m → P n.executionStatus → P m.executionStatus) {d a : Nat}
    (h : Descends ProtoNode.parent pa.nodes d a) (hd : pa.HasStatus P d) : pa.HasStatus P a := by
  refine h.transport_up (Q := pa.HasStatus P) (fun c p hcp ⟨n, hn, hPn⟩ => ?_) hd
  have hnp : n.parent = some p := by simpa [parentAt, hn] using hcp
  have hp := hwf.parent_lt_length hn hnp
  exact ⟨pa.nodes[p], List.getElem?_eq_getElem hp, hstep c p n _ hn hnp
    (List.getElem?_eq_getElem hp) hPn⟩

theorem isValidOrIrrelevant_eq (s : ExecutionStatus) :
    s.isValidOrIrrelevant = (s.isValidAndPostBellatrix || s.isIrrelevant) := by
  cases s <;> rfl

/-- (a) Every descendant of an invalid node is invalid. -/
theorem StatusConsistent.invalid_descendant (h : pa.StatusConsistent) {d a : Nat}
    (hd : Descends ProtoNode.parent pa.nodes d a) (ha : pa.HasStatus ExecutionStatus.isInvalid a) :
    pa.HasStatus ExecutionStatus.isInvalid d :=
  hasStatus_of_descends (fun c p n m hn hp hm => (h c p n m hn hp hm).invalid) hd ha

/-- (c) Every ancestor of an irrelevant node is irrelevant. -/
theorem StatusConsistent.irrelevant_ancestor (h : pa.StatusConsistent) (hwf : pa.Wf) {d a : Nat}
    (hd : Descends ProtoNode.parent pa.nodes d a)
    (hirr : pa.HasStatus ExecutionStatus.isIrrelevant d) :
    pa.HasStatus ExecutionStatus.isIrrelevant a :=
  hasStatus_of_descends_up hwf (fun c p n m hn hp hm => (h c p n m hn hp hm).irrelevant) hd hirr

/-- (b) Every ancestor of a valid node is valid or irrelevant. -/
theorem StatusConsistent.valid_ancestor (h : pa.StatusConsistent) (hwf : pa.Wf) {d a : Nat}
    (hd : Descends ProtoNode.parent pa.nodes d a)
    (hv : pa.HasStatus ExecutionStatus.isValidAndPostBellatrix d) :
    pa.HasStatus ExecutionStatus.isValidOrIrrelevant a := by
  -- Valid-or-irrelevant passes upwards: a valid child by the valid check, an irrelevant one by
  -- the irrelevant check.
  refine hasStatus_of_descends_up hwf (fun c p n m hn hp hm hnv => ?_) hd ?_
  · have hlink := h c p n m hn hp hm
    rw [isValidOrIrrelevant_eq, Bool.or_eq_true] at hnv
    rcases hnv with hnv | hnv
    · exact hlink.valid not_false hnv
    · rw [isValidOrIrrelevant_eq, hlink.irrelevant hnv, Bool.or_true]
  · obtain ⟨n, hn, hnv⟩ := hv
    exact ⟨n, hn, by rw [isValidOrIrrelevant_eq, hnv, Bool.true_or]⟩

end Consistent

/-- The facts (a)-(c) over the whole tree: below an invalid node all is invalid, above a valid
one all is valid or irrelevant, above an irrelevant one all is irrelevant. -/
structure StatusAlongTree (pa : ProtoArray) : Prop where
  invalidDescendant : ∀ d a, Descends ProtoNode.parent pa.nodes d a →
    pa.HasStatus ExecutionStatus.isInvalid a → pa.HasStatus ExecutionStatus.isInvalid d
  validAncestor : ∀ d a, Descends ProtoNode.parent pa.nodes d a →
    pa.HasStatus ExecutionStatus.isValidAndPostBellatrix d →
    pa.HasStatus ExecutionStatus.isValidOrIrrelevant a
  irrelevantAncestor : ∀ d a, Descends ProtoNode.parent pa.nodes d a →
    pa.HasStatus ExecutionStatus.isIrrelevant d → pa.HasStatus ExecutionStatus.isIrrelevant a

section AlongTree
variable {pa : ProtoArray}

theorem StatusConsistent.alongTree (h : pa.StatusConsistent) (hwf : pa.Wf) : pa.StatusAlongTree where
  invalidDescendant _ _ hd ha := h.invalid_descendant hd ha
  validAncestor _ _ hd hv := h.valid_ancestor hwf hd hv
  irrelevantAncestor _ _ hd hirr := h.irrelevant_ancestor hwf hd hirr

/-- Each link is a descent of one step, so (a)-(c) give back every link's agreement. -/
theorem StatusAlongTree.consistent (h : pa.StatusAlongTree) : pa.StatusConsistent := by
  intro c p n m hn hp hm
  have hd : Descends ProtoNode.parent pa.nodes c p := .single (by simp [parentAt, hn, hp])
  refine ⟨fun hinv => ?_, fun _ hv => ?_, fun hirr => ?_⟩
  · exact (hasStatus_of_getElem? hn).mp
      (h.invalidDescendant c p hd ((hasStatus_of_getElem? hm).mpr hinv))
  · exact (hasStatus_of_getElem? hm).mp
      (h.validAncestor c p hd ((hasStatus_of_getElem? hn).mpr hv))
  · exact (hasStatus_of_getElem? hm).mp
      (h.irrelevantAncestor c p hd ((hasStatus_of_getElem? hn).mpr hirr))

end AlongTree

section Validation
variable {pa : ProtoArray} {i : Nat} {n : ProtoNode}

/-- Marking an optimistic node valid moves the waived check from its children to its parent:
the links into it now hold, and its own link may wait for the parent. -/
theorem StatusConsistentBut.validate (hwf : pa.Wf) (h : pa.StatusConsistentBut (· = i))
    (hn : pa.nodes[i]? = some n) {hash : Nat} (hopt : n.executionStatus = .optimistic hash) :
    ({ pa with nodes := pa.nodes.set i { n with executionStatus := .valid hash } } : ProtoArray)
      |>.StatusConsistentBut fun p => n.parent = some p := by
  intro c p n' m' hn' hp hm'
  simp only [List.getElem?_set] at hn' hm'
  have hi : i < pa.nodes.length := (List.getElem?_eq_some_iff.mp hn).1
  by_cases hci : c = i
  · -- The node itself: its parent comes before it, and was not invalid below an optimistic node.
    subst hci
    simp only [hi, ↓reduceIte, Option.some.injEq] at hn'
    subst hn'
    have hp' : n.parent = some p := hp
    have hpi : p < c := hwf.topological c p (by simp [parentAt, hn, hp'])
    simp only [Nat.ne_of_gt hpi, ↓reduceIte] at hm'
    have hlink := h c p n m' hn hp' hm'
    refine ⟨fun hinv => ?_, fun hw => absurd hp' hw, fun hirr => ?_⟩
    · have := hlink.invalid hinv
      rw [hopt] at this
      cases this
    · cases hirr
  · simp only [Ne.symm hci, ↓reduceIte] at hn'
    by_cases hpi : p = i
    · -- A child of the node: its parent is now valid, and was optimistic, so not below an
      -- irrelevant child.
      subst hpi
      simp only [hi, ↓reduceIte, Option.some.injEq] at hm'
      subst hm'
      have hlink := h c p n' n hn' hp hn
      refine ⟨fun hinv => ?_, fun _ _ => rfl, fun hirr => ?_⟩
      · cases hinv
      · have := hlink.irrelevant hirr
        rw [hopt] at this
        cases this
    · simp only [Ne.symm hpi, ↓reduceIte] at hm'
      have hlink := h c p n' m' hn' hp hm'
      exact ⟨hlink.invalid, fun _ => hlink.valid hpi, hlink.irrelevant⟩

/-- A node that is valid, irrelevant or invalid settles the waived check of its children: a
valid or irrelevant parent passes it, and an invalid one has no valid child. -/
theorem StatusConsistentBut.settle (h : pa.StatusConsistentBut (· = i))
    (hn : pa.nodes[i]? = some n) (hs : n.executionStatus.isOptimistic = false) :
    pa.StatusConsistent := by
  intro c p n' m hn' hp hm
  have hlink := h c p n' m hn' hp hm
  refine ⟨hlink.invalid, fun _ hv => ?_, hlink.irrelevant⟩
  by_cases hpi : p = i
  · subst hpi
    rw [hn] at hm
    cases hm
    cases hst : n.executionStatus with
    | valid _ | irrelevant _ => rfl
    | optimistic _ => rw [hst] at hs; cases hs
    | invalid _ =>
      -- An invalid parent has an invalid child, which is not valid.
      have := hlink.invalid (by rw [hst]; rfl)
      cases hc : n'.executionStatus <;> simp_all [ExecutionStatus.isInvalid,
        ExecutionStatus.isValidAndPostBellatrix]
  · exact hlink.valid hpi hv

/-- The validation walk, from a node whose children may still wait for it, ends with every
link consistent, whether it returns or fails. -/
theorem propagateValidationLoop_status : ∀ fuel i,
    Triple (fun s => s.Wf ∧ s.StatusConsistentBut (· = i) ∧ i < s.nodes.length ∧ i < fuel)
      (propagateValidationLoop fuel i) (fun _ s => s.StatusConsistent)
      (fun _ s => s.StatusConsistent)
  | 0, _ => Triple.pure fun _ h => absurd h.2.2.2 (Nat.not_lt_zero _)
  | fuel + 1, i => by
    unfold propagateValidationLoop
    refine triple_node_bind (fun s n hpre hn => ?_) (fun s hpre hnone => ?_)
    · obtain ⟨hwf, hc, hi, hfuel⟩ := hpre
      split
      · exact Triple.pure fun _ h => h ▸ hc.settle hn (by simp_all [ExecutionStatus.isOptimistic])
      · exact Triple.pure fun _ h => h ▸ hc.settle hn (by simp_all [ExecutionStatus.isOptimistic])
      · rename_i hash hopt
        let n' := { n with executionStatus := .valid hash }
        have hwf' : ({ s with nodes := s.nodes.set i n' } : ProtoArray).Wf :=
          hwf.set_of_links hn rfl rfl (fun _ => id) (fun _ => id)
        have hc' := hc.validate hwf hn hopt
        refine Triple.bind triple_setNode fun _ => ?_
        split
        · rename_i p hp
          have hpi : p < i := hwf.topological i p (by simp [parentAt, hn, hp])
          refine (propagateValidationLoop_status fuel p).mono (fun s' hs' => ?_)
            (fun _ _ => id) (fun _ _ => id)
          subst hs'
          refine ⟨hwf', hc'.mono fun q hq => ?_, by simp; omega, by omega⟩
          rw [hp, Option.some.injEq] at hq
          exact hq.symm
        · rename_i hp
          exact Triple.pure fun _ h => h ▸ hc'.mono fun q hq => by rw [hp] at hq; cases hq
      · exact Triple.throw fun _ h => h ▸ hc.settle hn (by simp_all [ExecutionStatus.isOptimistic])
    · rw [List.getElem?_eq_getElem hpre.2.2.1] at hnone
      cases hnone

theorem propagateExecutionPayloadValidationByIndex_status {i : Nat} :
    Triple (fun s => s.Wf ∧ s.StatusConsistentBut (· = i) ∧ i < s.nodes.length)
      (propagateExecutionPayloadValidationByIndex i) (fun _ s => s.StatusConsistent)
      (fun _ s => s.StatusConsistent) :=
  Triple.get_bind fun _ ⟨hwf, hc, hi⟩ =>
    (propagateValidationLoop_status _ i).at_state ⟨hwf, hc, hi, hi⟩

theorem propagateExecutionPayloadValidation_status (blockRoot : Nat) :
    Triple (fun s => s.Wf ∧ s.StatusConsistent) (propagateExecutionPayloadValidation blockRoot)
      (fun _ s => s.StatusConsistent) (fun _ s => s.StatusConsistent) :=
  Triple.get_bind fun _ ⟨hwf, hc⟩ => Triple.ofOption_bind
    (fun _ hi => propagateExecutionPayloadValidationByIndex_status.at_state
      ⟨hwf, hc.mono fun _ => False.elim, hwf.lt_length hi⟩)
    (fun _ _ h => h ▸ hc)

end Validation

section OnBlock
variable {pa : ProtoArray}

/-- A block without an execution payload is attached only below a block without one: once the
chain has payloads, every later block has one. -/
def PreMergeParent (pa : ProtoArray) (block : Block) : Prop :=
  block.executionStatus.isIrrelevant → ∀ p m, (pa.nodeOfBlock block).parent = some p →
    pa.nodes[p]? = some m → m.executionStatus.isIrrelevant

/-- Appending a node below a parent that is not invalid, and irrelevant when the node is: only
the new link may wait, and only when the node is valid. -/
theorem StatusConsistent.push (hwf : pa.Wf) (h : pa.StatusConsistent) {node : ProtoNode}
    (hparent : ∀ p, node.parent = some p → p < pa.nodes.length)
    (hinv : ∀ p m, node.parent = some p → pa.nodes[p]? = some m → m.executionStatus.isInvalid = false)
    (hirr : node.executionStatus.isIrrelevant → ∀ p m, node.parent = some p →
      pa.nodes[p]? = some m → m.executionStatus.isIrrelevant) :
    ({ pa with
        indices := pa.indices.insert node.root pa.nodes.length
        nodes := pa.nodes ++ [node] } : ProtoArray).StatusConsistentBut
      fun p => node.parent = some p ∧ node.executionStatus.isValidAndPostBellatrix := by
  intro c p n m hn hp hm
  by_cases hc : c < pa.nodes.length
  · -- An old link: both ends are old nodes.
    rw [List.getElem?_append_left hc] at hn
    have hpc : p < c := hwf.topological c p (by simp [parentAt, hn, hp])
    rw [List.getElem?_append_left (by omega)] at hm
    have hlink := h c p n m hn hp hm
    exact ⟨hlink.invalid, fun _ => hlink.valid not_false, hlink.irrelevant⟩
  · -- The new link, from the appended node to its parent.
    have hlen := (List.getElem?_eq_some_iff.mp hn).1
    simp only [List.length_append, List.length_singleton] at hlen
    rw [List.getElem?_append_right (by omega)] at hn
    simp only [show c - pa.nodes.length = 0 by omega, List.getElem?_cons_zero,
      Option.some.injEq] at hn
    subst hn
    have hpl := hparent p hp
    rw [List.getElem?_append_left hpl] at hm
    refine ⟨fun hm' => ?_, fun hw hv => absurd ⟨hp, hv⟩ hw, fun hn' => hirr hn' p m hp hm⟩
    rw [hinv p m hp hm] at hm'
    cases hm'

theorem onBlock_status (block : Block) :
    Triple (fun s => s.Wf ∧ s.StatusConsistent ∧ PreMergeParent s block) (onBlock block)
      (fun _ s => s.StatusConsistent) (fun _ s => s.StatusConsistent) := by
  refine Triple.get_bind fun s h => ?_
  obtain ⟨hwf, hc, hpre⟩ := h
  split
  · exact Triple.pure fun _ h => h ▸ hc
  rename_i hfresh
  dsimp only
  have hparent : ∀ p, (s.nodeOfBlock block).parent = some p → p < s.nodes.length := by
    intro p hp
    obtain ⟨r, -, hr⟩ := Option.bind_eq_some_iff.mp hp
    exact hwf.lt_length hr
  have hpushed := hwf.push hfresh hparent rfl rfl
  split
  · rename_i p hp
    refine Triple.ofOption_bind (fun parent hpar => ?_)
      (fun h => by rw [List.getElem?_eq_getElem (hparent p hp)] at h; cases h)
    split
    · exact Triple.throw_bind fun _ h => h ▸ hc
    rename_i hninv
    have hc₁ := hc.push hwf hparent
      (fun q m hq hm => by
        rw [hp, Option.some.injEq] at hq
        subst hq
        rw [hpar, Option.some.injEq] at hm
        subst hm
        simpa using hninv)
      (fun hirr q m hq hm => hpre hirr q m hq hm)
    refine Triple.bind Triple.set_eq fun _ => ?_
    dsimp only
    -- Offering the node to its parent rewrites links only; then the parent is validated.
    have hoffer := ((maybeUpdateBestChildAndDescendant_keepsWf p s.nodes.length).and
      (maybeUpdateBestChildAndDescendant_length p s.nodes.length (s.nodes.length + 1))).and
      (maybeUpdateBestChildAndDescendant_map (fun n => (n.parent, n.executionStatus))
        (fun _ _ _ => rfl) p s.nodes.length
        ((s.nodes ++ [s.nodeOfBlock block]).map fun n => (n.parent, n.executionStatus)))
    refine Triple.bind (hoffer.mono (fun s' h => ?_) (fun _ _ => id) (fun _ _ h => h.1.1.elim))
      fun _ => ?_
    · subst h
      exact ⟨⟨⟨hpushed, by simpa [parentAt] using hp⟩, by simp⟩, rfl⟩
    split
    · exact propagateExecutionPayloadValidationByIndex_status.mono
        (fun s' h => ⟨h.1.1, (hc₁.congr h.2).mono fun q hq => by
          rw [hp, Option.some.injEq] at hq
          exact hq.1.symm, by have := hparent p hp; have := h.1.2; omega⟩)
        (fun _ _ => id) (fun _ _ => id)
    · rename_i hnv
      refine Triple.pure fun s' h => (hc₁.congr h.2).mono fun q hq => ?_
      cases hst : block.executionStatus <;> simp_all [nodeOfBlock,
        ExecutionStatus.isValidAndPostBellatrix]
  · rename_i hnone
    refine Triple.bind Triple.set_eq fun _ => ?_
    split
    · rename_i p hp
      exact absurd hp (by simp_all)
    · refine Triple.pure fun _ h => h ▸ ?_
      refine (hc.push hwf hparent ?_ ?_).mono fun q hq => ?_
      all_goals simp_all

end OnBlock

theorem fromNew_status {pa : ProtoArray} (h : FromNew pa) : pa.StatusConsistent := by
  obtain ⟨slot, j, f, status, fc, hnew, rfl⟩ := h
  unfold ProtoArrayForkChoice.new at hnew
  dsimp only at hnew
  split at hnew
  · rename_i hrun
    cases hnew
    -- The anchor has no parent, and the empty array no link.
    exact ((onBlock_status _).run ⟨Wf.of_nil rfl rfl, fun _ _ _ _ hn => by simp at hn,
      fun _ _ _ _ hm => by simp at hm⟩).1 _ _ hrun
  · cases hnew

theorem PreMergeParent.of_payload {pa : ProtoArray} {block : Block}
    (h : block.executionStatus.isIrrelevant = false) : PreMergeParent pa block :=
  fun hirr => absurd (h.symm.trans hirr) Bool.false_ne_true

end ProtoArray

end Lighthouse.ForkChoice
