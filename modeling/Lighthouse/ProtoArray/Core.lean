import Lighthouse.Foundations.EState
import Lighthouse.Foundations.Checked
import Lighthouse.Foundations.Forest
import Lighthouse.ProtoArray.Types

/-! The methods of `ProtoArray` (`proto_array.rs`). A method on `&mut self` is a program in
`M`, which keeps the writes made before an error as the Rust code does; a method on `&self` is
a function of the array. Each `for` and `loop` of the source is a recursive function: a `for`
over a range recurses on the list of its indices, and a `loop` that follows parent links takes
the length of the array as fuel, which a walk down strictly smaller indices never exhausts. -/
namespace Lighthouse.ForkChoice
open EState

namespace ProtoArray

/-- `self.nodes.get_mut(index)` followed by a write of the whole node. -/
def setNode (index : Nat) (node : ProtoNode) : M Unit :=
  modify fun pa => { pa with nodes := pa.nodes.set index node }

/-- `node_is_viable_for_head`, the counterpart of the specification's `filter_block_tree`. -/
def nodeIsViableForHead (pa : ProtoArray) (node : ProtoNode) : Bool :=
  if node.executionStatus.isInvalid then false
  else
    match node.justifiedCheckpoint, node.finalizedCheckpoint with
    | some nodeJustifiedCheckpoint, some nodeFinalizedCheckpoint =>
      (nodeJustifiedCheckpoint == pa.justifiedCheckpoint || pa.justifiedCheckpoint.epoch == 0) &&
        (nodeFinalizedCheckpoint == pa.finalizedCheckpoint || pa.finalizedCheckpoint.epoch == 0)
    | _, _ => false

/-- `node_leads_to_viable_head`: the node or its best descendant is viable. -/
def nodeLeadsToViableHead (pa : ProtoArray) (node : ProtoNode) : Except Error Bool := do
  let bestDescendantIsViableForHead ← match node.bestDescendant with
    | some bestDescendantIndex => do
      let bestDescendant ← okOr pa.nodes[bestDescendantIndex]?
        (.invalidBestDescendant bestDescendantIndex)
      pure (pa.nodeIsViableForHead bestDescendant)
    | none => pure false
  pure (bestDescendantIsViableForHead || pa.nodeIsViableForHead node)

/-- The choice made by `maybe_update_best_child_and_descendant`: the new `best_child` and
`best_descendant` of the parent, computed from the array before the write. -/
def bestChildAndDescendant (pa : ProtoArray) (parentIndex childIndex : Nat) :
    Except Error (Option Nat × Option Nat) := do
  let child ← okOr pa.nodes[childIndex]? (.invalidNodeIndex childIndex)
  let parent ← okOr pa.nodes[parentIndex]? (.invalidNodeIndex parentIndex)
  let childLeadsToViableHead ← pa.nodeLeadsToViableHead child
  let changeToNone : Option Nat × Option Nat := (none, none)
  let changeToChild : Option Nat × Option Nat :=
    (some childIndex, child.bestDescendant.or (some childIndex))
  let noChange : Option Nat × Option Nat := (parent.bestChild, parent.bestDescendant)
  match parent.bestChild with
  | some bestChildIndex =>
    if bestChildIndex == childIndex && !childLeadsToViableHead then
      -- The best child is no longer viable for the head.
      pure changeToNone
    else if bestChildIndex == childIndex then
      -- Set again, so that the best descendant is refreshed.
      pure changeToChild
    else do
      let bestChild ← okOr pa.nodes[bestChildIndex]? (.invalidBestDescendant bestChildIndex)
      let bestChildLeadsToViableHead ← pa.nodeLeadsToViableHead bestChild
      if childLeadsToViableHead && !bestChildLeadsToViableHead then pure changeToChild
      else if !childLeadsToViableHead && bestChildLeadsToViableHead then pure noChange
      else if child.weight == bestChild.weight then
        -- Equal weights are broken by the root.
        if child.root ≥ bestChild.root then pure changeToChild else pure noChange
      else if child.weight ≥ bestChild.weight then pure changeToChild
      else pure noChange
  | none => if childLeadsToViableHead then pure changeToChild else pure noChange

end ProtoArray

/-- `maybe_update_best_child_and_descendant`. -/
def ProtoArray.maybeUpdateBestChildAndDescendant (parentIndex childIndex : Nat) : M Unit := do
  let pa ← get
  let (newBestChild, newBestDescendant) ←
    ofResult (pa.bestChildAndDescendant parentIndex childIndex)
  let parent ← ofOption (← get).nodes[parentIndex]? (.invalidNodeIndex parentIndex)
  ProtoArray.setNode parentIndex
    { parent with bestChild := newBestChild, bestDescendant := newBestDescendant }

namespace ProtoArray

/-- The `loop` of `propagate_execution_payload_validation_by_index`: mark optimistic nodes
valid going up, until a valid or irrelevant one (or the root). -/
def propagateValidationLoop : Nat → Nat → M Unit
  | 0, _ => pure ()
  | fuel + 1, index => do
    let node ← ofOption (← get).nodes[index]? (.invalidNodeIndex index)
    match node.executionStatus with
    | .valid _ => pure ()
    | .irrelevant _ => pure ()
    | .optimistic payloadBlockHash =>
      setNode index { node with executionStatus := .valid payloadBlockHash }
      match node.parent with
      | some parentIndex => propagateValidationLoop fuel parentIndex
      | none => pure ()
    | .invalid ancestorPayloadBlockHash =>
      throw (.invalidAncestorOfValidPayload node.root ancestorPayloadBlockHash)

/-- `propagate_execution_payload_validation_by_index`. -/
def propagateExecutionPayloadValidationByIndex (verifiedNodeIndex : Nat) : M Unit := do
  propagateValidationLoop (← get).nodes.length verifiedNodeIndex

/-- `propagate_execution_payload_validation`. -/
def propagateExecutionPayloadValidation (blockRoot : Nat) : M Unit := do
  let index ← ofOption ((← get).indices.lookup blockRoot) (.nodeUnknown blockRoot)
  propagateExecutionPayloadValidationByIndex index

/-- The node `on_block` makes of a block: its parent found through `indices`, with no
weight and no best child yet. -/
def nodeOfBlock (pa : ProtoArray) (block : Block) : ProtoNode :=
  { slot := block.slot
    root := block.root
    parent := block.parentRoot.bind fun parent => pa.indices.lookup parent
    justifiedCheckpoint := some block.justifiedCheckpoint
    finalizedCheckpoint := some block.finalizedCheckpoint
    weight := 0
    bestChild := none
    bestDescendant := none
    executionStatus := block.executionStatus }

/-- `on_block`. -/
def onBlock (block : Block) : M Unit := do
  let pa ← get
  if block.root ∈ pa.indices then return
  let nodeIndex := pa.nodes.length
  let node := pa.nodeOfBlock block
  if let some parentIndex := node.parent then
    let parent ← ofOption pa.nodes[parentIndex]? (.invalidNodeIndex parentIndex)
    if parent.executionStatus.isInvalid then
      throw (.parentExecutionStatusIsInvalid block.root parent.root)
  set { pa with indices := pa.indices.insert node.root nodeIndex, nodes := pa.nodes ++ [node] }
  if let some parentIndex := node.parent then
    maybeUpdateBestChildAndDescendant parentIndex nodeIndex
    if let .valid _ := block.executionStatus then
      propagateExecutionPayloadValidationByIndex parentIndex

/-- The chain of nodes from `next` up the parent links (`Iter`), at most `fuel` long. -/
def iterNodes (pa : ProtoArray) : Nat → Option Nat → List ProtoNode
  | 0, _ => []
  | _ + 1, none => []
  | fuel + 1, some index =>
    match pa.nodes[index]? with
    | some node => node :: iterNodes pa fuel node.parent
    | none => []

/-- `is_descendant`: walk up from the descendant while the slots are at least the
ancestor's, and compare the root found at the ancestor's slot. -/
def isDescendant (pa : ProtoArray) (ancestorRoot descendantRoot : Nat) : Bool :=
  match (pa.indices.lookup ancestorRoot).bind fun ancestorIndex => pa.nodes[ancestorIndex]? with
  | some ancestor =>
    (((pa.iterNodes pa.nodes.length (pa.indices.lookup descendantRoot)).takeWhile
        fun node => decide (node.slot ≥ ancestor.slot)).find?
        fun node => node.slot == ancestor.slot).map (fun node => node.root == ancestorRoot)
      |>.getD false
  | none => false

/-- `execution_block_hash_to_beacon_block_root`: the last node with that payload. -/
def executionBlockHashToBeaconBlockRoot (pa : ProtoArray) (blockHash : Nat) : Option Nat :=
  (pa.nodes.reverse.find? fun node =>
    node.executionStatus.blockHash.any (· == blockHash)).map (·.root)

/-- Step 1 of `propagate_execution_payload_invalidation`: walk up from the head invalidating
optimistic nodes, and return the set of the indices it invalidated. -/
def invalidateAncestors (op : InvalidationOperation) (headBlockRoot : Nat)
    (latestValidAncestorIsDescendant : Bool) :
    Nat → Nat → List Nat → M (List Nat)
  | 0, _, invalidatedIndices => pure invalidatedIndices
  | fuel + 1, index, invalidatedIndices => do
    let node ← ofOption (← get).nodes[index]? (.invalidNodeIndex index)
    let next (invalidatedIndices : List Nat) : M (List Nat) :=
      match node.parent with
      | some parentIndex =>
        invalidateAncestors op headBlockRoot latestValidAncestorIsDescendant fuel parentIndex
          invalidatedIndices
      | none => pure invalidatedIndices
    match node.executionStatus.blockHash with
    | none => pure invalidatedIndices
    | some hash =>
      if !latestValidAncestorIsDescendant && node.root != headBlockRoot then
        pure invalidatedIndices
      else if op.latestValidAncestor == some hash then
        -- The latest valid ancestor: forget a best child or descendant just invalidated.
        let bestChild :=
          if node.bestChild.any (· ∈ invalidatedIndices) then none else node.bestChild
        let bestDescendant :=
          if node.bestDescendant.any (· ∈ invalidatedIndices) then none else node.bestDescendant
        setNode index { node with bestChild, bestDescendant }
        pure invalidatedIndices
      else if node.root != headBlockRoot || op.invalidateBlockRoot ||
          latestValidAncestorIsDescendant then
        match node.executionStatus with
        | .valid payloadBlockHash =>
          throw (.validExecutionStatusBecameInvalid node.root payloadBlockHash)
        | .optimistic hash =>
          setNode index
            { node with executionStatus := .invalid hash, bestChild := none, bestDescendant := none }
          next (index :: invalidatedIndices)
        | .invalid _ => next invalidatedIndices
        | .irrelevant _ => pure invalidatedIndices
      else next invalidatedIndices

/-- Step 2 of `propagate_execution_payload_invalidation`: go forward from the starting index
and invalidate every node whose parent was invalidated. -/
def invalidateDescendants : List Nat → List Nat → M Unit
  | [], _ => pure ()
  | index :: rest, invalidatedIndices => do
    let node ← ofOption (← get).nodes[index]? (.invalidNodeIndex index)
    match node.parent with
    | some parentIndex =>
      if parentIndex ∈ invalidatedIndices then
        match node.executionStatus with
        | .valid payloadBlockHash =>
          throw (.validExecutionStatusBecameInvalid node.root payloadBlockHash)
        | .optimistic hash | .invalid hash =>
          setNode index { node with executionStatus := .invalid hash }
          invalidateDescendants rest (index :: invalidatedIndices)
        | .irrelevant _ => throw (.irrelevantDescendant node.root)
      else invalidateDescendants rest invalidatedIndices
    | none => invalidateDescendants rest invalidatedIndices

/-- `latest_valid_ancestor_root` of `propagate_execution_payload_invalidation`: the block of
the latest valid hash, when one is known. -/
def latestValidAncestorRoot (pa : ProtoArray) (op : InvalidationOperation) : Option Nat :=
  op.latestValidAncestor.bind pa.executionBlockHashToBeaconBlockRoot

/-- `latest_valid_ancestor_is_descendant`: that block is an ancestor of the head and a
descendant of the finalized block. -/
def latestValidAncestorIsDescendant (pa : ProtoArray) (op : InvalidationOperation) : Bool :=
  match pa.latestValidAncestorRoot op with
  | some ancestorRoot =>
    pa.isDescendant ancestorRoot op.blockRoot &&
      pa.isDescendant pa.finalizedCheckpoint.root ancestorRoot
  | none => false

/-- `propagate_execution_payload_invalidation`. -/
def propagateExecutionPayloadInvalidation (op : InvalidationOperation) : M Unit := do
  let headBlockRoot := op.blockRoot
  let pa ← get
  let index ← ofOption (pa.indices.lookup headBlockRoot) (.nodeUnknown headBlockRoot)
  let latestValidAncestorRoot := pa.latestValidAncestorRoot op
  let latestValidAncestorIsDescendant := pa.latestValidAncestorIsDescendant op
  let invalidatedIndices ← invalidateAncestors op headBlockRoot latestValidAncestorIsDescendant
    pa.nodes.length index []
  let startingBlockRoot :=
    (latestValidAncestorRoot.filter fun _ => latestValidAncestorIsDescendant).getD headBlockRoot
  let latestValidAncestorIndex ←
    ofOption ((← get).indices.lookup startingBlockRoot) (.nodeUnknown startingBlockRoot)
  let firstPotentialDescendant := latestValidAncestorIndex + 1
  let len := (← get).nodes.length
  invalidateDescendants (List.range' firstPotentialDescendant (len - firstPotentialDescendant))
    invalidatedIndices

/-- `find_head`: follow the justified node's best descendant. -/
def findHead (pa : ProtoArray) (justifiedRoot : Nat) : Except Error Nat := do
  let justifiedIndex ← okOr (pa.indices.lookup justifiedRoot) (.justifiedNodeUnknown justifiedRoot)
  let justifiedNode ← okOr pa.nodes[justifiedIndex]? (.invalidJustifiedIndex justifiedIndex)
  if justifiedNode.executionStatus.isInvalid then
    throw (.invalidJustifiedCheckpointExecutionStatus justifiedRoot)
  let bestDescendantIndex := justifiedNode.bestDescendant.getD justifiedIndex
  let bestNode ← okOr pa.nodes[bestDescendantIndex]? (.invalidBestDescendant bestDescendantIndex)
  if !pa.nodeIsViableForHead bestNode then
    throw (.invalidBestNode
      { startRoot := justifiedRoot
        justifiedCheckpoint := pa.justifiedCheckpoint
        finalizedCheckpoint := pa.finalizedCheckpoint
        headRoot := justifiedNode.root
        headJustifiedCheckpoint := justifiedNode.justifiedCheckpoint
        headFinalizedCheckpoint := justifiedNode.finalizedCheckpoint })
  pure bestNode.root

/-- `calculate_proposer_boost`. -/
def calculateProposerBoost (slotsPerEpoch : Nat) (validatorBalances : List Nat)
    (proposerScoreBoost : Nat) : Option Nat := do
  let (totalBalance, numValidators) ← validatorBalances.foldlM
    (fun (acc : Nat × Nat) balance =>
      if balance ≠ 0 then do
        let totalBalance ← Checked.addU64 acc.1 balance
        let numValidators ← Checked.addU64 acc.2 1
        pure (totalBalance, numValidators)
      else pure acc) (0, 0)
  let averageBalance ← Checked.divU64 totalBalance numValidators
  let committeeSize ← Checked.divU64 numValidators slotsPerEpoch
  let committeeWeight ← Checked.mulU64 committeeSize averageBalance
  let boost ← Checked.mulU64 committeeWeight proposerScoreBoost
  Checked.divU64 boost 100

/-- The arithmetic of one node in the first loop of `apply_score_changes`, before its weight is
written: the node's delta (its whole weight withdrawn when its payload is invalid, the previous
proposer boost withdrawn and the new one added), the proposer score, and the new weight. -/
def scoreChange (slotsPerEpoch : Nat) (newBalances : List Nat) (proposerBoostRoot : Nat)
    (spec : ChainSpec) (pa : ProtoArray) (nodeIndex : Nat) (node : ProtoNode)
    (deltas : List Int) (proposerScore : Nat) : Except Error (Nat × Int × Nat) := do
  let executionStatusIsInvalid := node.executionStatus.isInvalid
  let nodeDelta ← if executionStatusIsInvalid then
      okOr (Checked.subI64 0 (Checked.asI64 node.weight)) (.invalidExecutionDeltaOverflow nodeIndex)
    else okOr deltas[nodeIndex]? (.invalidNodeDelta nodeIndex)
  let nodeDelta ← if pa.previousProposerBoost.root != 0 &&
      pa.previousProposerBoost.root == node.root && !executionStatusIsInvalid then
      okOr (Checked.subI64 nodeDelta (Checked.asI64 pa.previousProposerBoost.score))
        (.deltaOverflow nodeIndex)
    else pure nodeDelta
  let (proposerScore, nodeDelta) ← match spec.proposerScoreBoost with
    | some proposerScoreBoost =>
      if proposerBoostRoot != 0 && proposerBoostRoot == node.root &&
          !executionStatusIsInvalid then do
        let proposerScore ←
          okOr (calculateProposerBoost slotsPerEpoch newBalances proposerScoreBoost)
            (.proposerBoostOverflow nodeIndex)
        let nodeDelta ← okOr (Checked.addI64 nodeDelta (Checked.asI64 proposerScore))
          (.deltaOverflow nodeIndex)
        pure (proposerScore, nodeDelta)
      else pure (proposerScore, nodeDelta)
    | none => pure (proposerScore, nodeDelta)
  let weight ← if executionStatusIsInvalid then pure 0
    else if nodeDelta < 0 then
      okOr (Checked.subU64 node.weight nodeDelta.natAbs) (.deltaOverflow nodeIndex)
    else okOr (Checked.addU64 node.weight nodeDelta.toNat) (.deltaOverflow nodeIndex)
  pure (proposerScore, nodeDelta, weight)

/-- The first loop of `apply_score_changes`, over the node indices from the last: apply each
node's delta and pass it to the parent's delta; returns the proposer score. -/
def applyDeltas (slotsPerEpoch : Nat) (newBalances : List Nat) (proposerBoostRoot : Nat)
    (spec : ChainSpec) : List Nat → List Int → Nat → M Nat
  | [], _, proposerScore => pure proposerScore
  | nodeIndex :: rest, deltas, proposerScore => do
    let pa ← get
    let node ← ofOption pa.nodes[nodeIndex]? (.invalidNodeIndex nodeIndex)
    -- The zero hash is an alias of the genesis block: no weight is kept for it.
    if node.root == 0 then
      applyDeltas slotsPerEpoch newBalances proposerBoostRoot spec rest deltas proposerScore
    else
      let (proposerScore, nodeDelta, weight) ← ofResult
        (scoreChange slotsPerEpoch newBalances proposerBoostRoot spec pa nodeIndex node deltas
          proposerScore)
      setNode nodeIndex { node with weight }
      match node.parent with
      | some parentIndex =>
        let parentDelta ← ofOption deltas[parentIndex]? (.invalidParentDelta parentIndex)
        applyDeltas slotsPerEpoch newBalances proposerBoostRoot spec rest
          (deltas.set parentIndex (Checked.wrappingAddI64 parentDelta nodeDelta)) proposerScore
      | none =>
        applyDeltas slotsPerEpoch newBalances proposerBoostRoot spec rest deltas proposerScore

/-- The second loop of `apply_score_changes`: offer each node to its parent as best child. -/
def updateBestChildren : List Nat → M Unit
  | [] => pure ()
  | nodeIndex :: rest => do
    let node ← ofOption (← get).nodes[nodeIndex]? (.invalidNodeIndex nodeIndex)
    if let some parentIndex := node.parent then
      maybeUpdateBestChildAndDescendant parentIndex nodeIndex
    updateBestChildren rest

/-- `apply_score_changes`. -/
def applyScoreChanges (slotsPerEpoch : Nat) (deltas : List Int)
    (justifiedCheckpoint finalizedCheckpoint : Checkpoint) (newBalances : List Nat)
    (proposerBoostRoot : Nat) (spec : ChainSpec) : M Unit := do
  let pa ← get
  if deltas.length ≠ pa.indices.entries.length then
    throw (.invalidDeltaLen deltas.length pa.indices.entries.length)
  if justifiedCheckpoint ≠ pa.justifiedCheckpoint ∨ finalizedCheckpoint ≠ pa.finalizedCheckpoint then
    set { pa with justifiedCheckpoint, finalizedCheckpoint }
  let proposerScore ← applyDeltas slotsPerEpoch newBalances proposerBoostRoot spec
    (List.range pa.nodes.length).reverse deltas 0
  modify fun pa => { pa with previousProposerBoost := ⟨proposerBoostRoot, proposerScore⟩ }
  updateBestChildren (List.range (← get).nodes.length).reverse

/-- The first loop of `maybe_prune`: remove the roots of the nodes before the finalized one. -/
def removeIndices : List Nat → M Unit
  | [] => pure ()
  | nodeIndex :: rest => do
    let node ← ofOption (← get).nodes[nodeIndex]? (.invalidNodeIndex nodeIndex)
    modify fun pa => { pa with indices := pa.indices.erase node.root }
    removeIndices rest

/-- One node of the last loop of `maybe_prune`, rewritten in place: its parent (cut when it
was pruned), then `best_child` and `best_descendant`, each of which must survive. A failure
leaves the fields already rewritten. -/
def reindexNode (finalizedIndex : Nat) (node : ProtoNode) : ProtoNode × Option Error :=
  let node := { node with parent := Forest.shiftParent finalizedIndex node.parent }
  match node.bestChild with
  | some bestChild =>
    if finalizedIndex ≤ bestChild then
      let node := { node with bestChild := some (bestChild - finalizedIndex) }
      reindexBestDescendant node
    else (node, some (.indexOverflow "best_child"))
  | none => reindexBestDescendant node
where
  reindexBestDescendant (node : ProtoNode) : ProtoNode × Option Error :=
    match node.bestDescendant with
    | some bestDescendant =>
      if finalizedIndex ≤ bestDescendant then
        ({ node with bestDescendant := some (bestDescendant - finalizedIndex) }, none)
      else (node, some (.indexOverflow "best_descendant"))
    | none => (node, none)

/-- The last loop of `maybe_prune`, over the surviving nodes in order, stopping at the first
failure. -/
def reindexNodes (finalizedIndex : Nat) : List ProtoNode → List ProtoNode × Option Error
  | [] => ([], none)
  | node :: rest =>
    match reindexNode finalizedIndex node with
    | (node, none) =>
      let (rest, err) := reindexNodes finalizedIndex rest
      (node :: rest, err)
    | (node, some err) => (node :: rest, some err)

/-- `maybe_prune`. The positions in `indices` are checked before any is rewritten: the order in
which a `HashMap` is iterated is unspecified, so the model fails before the first entry. -/
def maybePrune (finalizedRoot : Nat) : M Unit := do
  let finalizedIndex ←
    ofOption ((← get).indices.lookup finalizedRoot) (.finalizedNodeUnknown finalizedRoot)
  if finalizedIndex < (← get).pruneThreshold then return
  removeIndices (List.range finalizedIndex)
  modify fun pa => { pa with nodes := pa.nodes.drop finalizedIndex }
  let pa ← get
  if pa.indices.entries.any (·.2 < finalizedIndex) then throw (.indexOverflow "indices")
  set { pa with indices := PositionMap.mapPositions (· - finalizedIndex) pa.indices }
  let pa ← get
  let (nodes, err) := reindexNodes finalizedIndex pa.nodes
  set { pa with nodes }
  if let some err := err then throw err

end ProtoArray

end Lighthouse.ForkChoice
