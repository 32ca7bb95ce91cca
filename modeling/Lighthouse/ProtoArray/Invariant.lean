import Lighthouse.ProtoArray.Prune

/-! The structure over whole runs. A run starts from the array built by
`ProtoArrayForkChoice::new` and applies the mutating methods of `ProtoArray` with any
arguments, one after the other, each from the state the last one left (a failed method keeps
its partial writes, as a method on `&mut self` does). Every reachable array has the structure
`Wf`; so no method and no `find_head` fails with an index error, and a prune keeps the links
of every survivor. -/
namespace Lighthouse.ForkChoice
open EState Forest

namespace ProtoArray

theorem Wf.of_nil {pa : ProtoArray} (hn : pa.nodes = []) (hi : pa.indices = ∅) : pa.Wf where
  indices := by
    rw [hn, hi]
    exact PositionMap.Indexes.empty
  topological := by simp [Topological, parentAt, hn]
  bestChild := by simp [hn]
  bestDescendant := by simp [hn]

/-- `find_head` reads the head at the justified node's best descendant, which is inside the
array. -/
theorem findHead_errorsIn {pa : ProtoArray} (h : pa.Wf) (justifiedRoot : Nat) :
    ErrorsIn (fun e => ¬ e.IsIndexError) (pa.findHead justifiedRoot) := by
  unfold findHead
  refine ErrorsIn.bind (ErrorsIn.okOr id) fun i hi => ?_
  refine ErrorsIn.bind (ErrorsIn.okOr id) fun n hn => ?_
  rw [okOr_eq_ok] at hi hn
  -- The head is read at the best descendant, a descendant inside the array, or at the node.
  have hbest : n.bestDescendant.getD i < pa.nodes.length := by
    cases hd : n.bestDescendant with
    | none => exact h.lt_length hi
    | some d => exact (h.bestDescendant i n d hn hd).lt_length
  dsimp only
  split
  · exact ErrorsIn.throw_bind id
  rw [List.getElem?_eq_getElem hbest]
  refine ErrorsIn.bind (fun _ he => by cases he) fun b _ => ?_
  split
  · exact ErrorsIn.throw_bind id
  · exact ErrorsIn.pure

/-- The methods of `ProtoArray` that change it, with their arguments. -/
inductive Operation where
  | onBlock (block : Block)
  | applyScoreChanges (slotsPerEpoch : Nat) (deltas : List Int)
      (justifiedCheckpoint finalizedCheckpoint : Checkpoint) (newBalances : List Nat)
      (proposerBoostRoot : Nat) (spec : ChainSpec)
  | maybePrune (finalizedRoot : Nat)
  | propagateExecutionPayloadValidation (blockRoot : Nat)
  | propagateExecutionPayloadInvalidation (op : InvalidationOperation)
deriving DecidableEq, Repr

def Operation.run : Operation → M Unit
  | .onBlock block => ProtoArray.onBlock block
  | .applyScoreChanges slotsPerEpoch deltas justifiedCheckpoint finalizedCheckpoint newBalances
      proposerBoostRoot spec =>
    ProtoArray.applyScoreChanges slotsPerEpoch deltas justifiedCheckpoint finalizedCheckpoint newBalances
      proposerBoostRoot spec
  | .maybePrune finalizedRoot => ProtoArray.maybePrune finalizedRoot
  | .propagateExecutionPayloadValidation blockRoot =>
    ProtoArray.propagateExecutionPayloadValidation blockRoot
  | .propagateExecutionPayloadInvalidation op =>
    ProtoArray.propagateExecutionPayloadInvalidation op

/-- The array of a `ProtoArrayForkChoice` that `new` built. -/
def FromNew (pa : ProtoArray) : Prop :=
  ∃ finalizedBlockSlot justifiedCheckpoint finalizedCheckpoint executionStatus fc,
    ProtoArrayForkChoice.new finalizedBlockSlot justifiedCheckpoint finalizedCheckpoint
      executionStatus = .ok fc ∧ fc.protoArray = pa

/-- The arrays reachable from `new` by the methods of `ProtoArray`. -/
abbrev Reachable : ProtoArray → Prop := EState.Reachable FromNew Operation.run

theorem fromNew_wf {pa : ProtoArray} (h : FromNew pa) : pa.Wf := by
  obtain ⟨slot, j, f, status, fc, hnew, rfl⟩ := h
  unfold ProtoArrayForkChoice.new at hnew
  dsimp only at hnew
  split at hnew
  · rename_i hrun
    cases hnew
    exact ((onBlock_keepsWf _).run (Wf.of_nil rfl rfl)).1 _ _ hrun
  · cases hnew

theorem maybePrune_keepsWf (finalizedRoot : Nat) : KeepsWf (maybePrune finalizedRoot) :=
  Triple.intro fun s hs => (maybePrune_spec hs finalizedRoot).mono (fun _ h => h)
    (fun _ s' h => by
      rcases h with rfl | ⟨k, -, -, rfl⟩
      · exact hs
      · exact hs.prunedAt)
    (fun _ _ ⟨hs', he⟩ => by
      subst hs' he
      exact ⟨hs, id⟩)

theorem Operation.run_keepsWf : ∀ op : Operation, KeepsWf op.run
  | .onBlock block => onBlock_keepsWf block
  | .applyScoreChanges slotsPerEpoch deltas justifiedCheckpoint finalizedCheckpoint newBalances
      proposerBoostRoot spec =>
    applyScoreChanges_keepsWf slotsPerEpoch deltas justifiedCheckpoint finalizedCheckpoint
      newBalances proposerBoostRoot spec
  | .maybePrune finalizedRoot => maybePrune_keepsWf finalizedRoot
  | .propagateExecutionPayloadValidation blockRoot =>
    propagateExecutionPayloadValidation_keepsWf blockRoot
  | .propagateExecutionPayloadInvalidation op => propagateExecutionPayloadInvalidation_keepsWf op

theorem Reachable.wf {pa : ProtoArray} (h : Reachable pa) : pa.Wf :=
  EState.Reachable.invariant (fun _ => fromNew_wf)
    (fun op => (Operation.run_keepsWf op).mono (fun _ => id) (fun _ _ => id) (fun _ _ h => h.1)) h

/-- Every array reachable from `new` has the structure: `indices` maps exactly the roots to
their positions, parents precede children, a best child is a child and a best descendant a
descendant. No method fails on it with an index error, nor does `find_head`, and a prune keeps
every survivor's links by root, cutting only parents that were pruned. -/
theorem reachable_structure {pa : ProtoArray} (h : Reachable pa) :
    pa.Wf ∧
      (∀ (op : Operation) e pa', op.run.run pa = .error e pa' → ¬ e.IsIndexError) ∧
      (∀ justifiedRoot, ErrorsIn (fun e => ¬ e.IsIndexError) (pa.findHead justifiedRoot)) ∧
      (∀ finalizedRoot pa', (maybePrune finalizedRoot).run pa = .ok () pa' →
        ∃ k, PrunedLinks pa pa' k) := by
  have hwf := h.wf
  refine ⟨hwf, fun op e pa' hrun => (((Operation.run_keepsWf op).run hwf).2 e pa' hrun).2,
    fun r => findHead_errorsIn hwf r, fun r pa' hrun => ?_⟩
  rcases ((maybePrune_spec hwf r).run rfl).1 _ _ hrun with rfl | ⟨k, hk, -, rfl⟩
  · exact ⟨0, prunedLinks_refl _⟩
  · exact ⟨k, hwf.prunedLinks (Nat.le_of_lt (hwf.lt_length hk))⟩

theorem reachable_structure_anchor :
    let pa : ProtoArray :=
      { pruneThreshold := defaultPruneThreshold
        justifiedCheckpoint := ⟨0, 1⟩
        finalizedCheckpoint := ⟨0, 1⟩
        nodes := [⟨0, 1, none, some ⟨0, 1⟩, some ⟨0, 1⟩, 0, none, none, .irrelevant false⟩]
        indices := (∅ : PositionMap.Map Nat).insert 1 0
        previousProposerBoost := default }
    Reachable pa ∧ pa.Wf ∧
      (∀ (op : Operation) e pa', op.run.run pa = .error e pa' → ¬ e.IsIndexError) ∧
      (∀ justifiedRoot, ErrorsIn (fun e => ¬ e.IsIndexError) (pa.findHead justifiedRoot)) ∧
      (∀ finalizedRoot pa', (maybePrune finalizedRoot).run pa = .ok () pa' →
        ∃ k, PrunedLinks pa pa' k) := by
  intro pa
  have h : Reachable pa := .init ⟨0, ⟨0, 1⟩, ⟨0, 1⟩, .irrelevant false, _, rfl, rfl⟩
  exact ⟨h, reachable_structure h⟩

end ProtoArray

end Lighthouse.ForkChoice
