import Lighthouse.Foundations.PositionMap

/-! The data of `proto_array`: checkpoints, execution statuses, the nodes of the block tree and
the `ProtoArray` that keeps them in insertion order with a map from block root to position.
Roots and hashes are numbers (`Hash256::zero()` is `0`, and `Hash256`'s byte order is the order
of the numbers); slots, epochs and weights are numbers, their `u64` bounds enforced where the
code checks them. The fields no modelled function reads (`state_root`, `target_root`, the
shuffling ids) are left out. -/
namespace Lighthouse.ForkChoice

/-- `types::Checkpoint`. -/
structure Checkpoint where
  epoch : Nat
  root : Nat
deriving DecidableEq, Repr

/-- `ExecutionStatus`. -/
inductive ExecutionStatus where
  | valid (blockHash : Nat)
  | invalid (blockHash : Nat)
  | optimistic (blockHash : Nat)
  | irrelevant (b : Bool)
deriving DecidableEq, Repr

namespace ExecutionStatus

def isValidOrIrrelevant : ExecutionStatus → Bool
  | valid _ | irrelevant _ => true
  | _ => false

def isValidAndPostBellatrix : ExecutionStatus → Bool
  | valid _ => true
  | _ => false

def isOptimistic : ExecutionStatus → Bool
  | optimistic _ => true
  | _ => false

def isInvalid : ExecutionStatus → Bool
  | invalid _ => true
  | _ => false

def isIrrelevant : ExecutionStatus → Bool
  | irrelevant _ => true
  | _ => false

def blockHash : ExecutionStatus → Option Nat
  | valid h | invalid h | optimistic h => some h
  | irrelevant _ => none

end ExecutionStatus

/-- `ProtoNode`. -/
structure ProtoNode where
  slot : Nat
  root : Nat
  parent : Option Nat
  justifiedCheckpoint : Option Checkpoint
  finalizedCheckpoint : Option Checkpoint
  weight : Nat
  bestChild : Option Nat
  bestDescendant : Option Nat
  executionStatus : ExecutionStatus
deriving DecidableEq, Repr

/-- `ProposerBoost`; its `Default` is the zero root with no score. -/
structure ProposerBoost where
  root : Nat
  score : Nat
deriving DecidableEq, Repr

instance : Inhabited ProposerBoost := ⟨⟨0, 0⟩⟩

/-- `ProtoArray`: the nodes in insertion order and `indices`, the map from block root to
position (a `HashMap`, here a list of entries with distinct keys). -/
structure ProtoArray where
  pruneThreshold : Nat
  justifiedCheckpoint : Checkpoint
  finalizedCheckpoint : Checkpoint
  nodes : List ProtoNode
  indices : PositionMap.Map Nat
  previousProposerBoost : ProposerBoost

/-- `Block`, the block given to `on_block`. -/
structure Block where
  slot : Nat
  root : Nat
  parentRoot : Option Nat
  justifiedCheckpoint : Checkpoint
  finalizedCheckpoint : Checkpoint
  executionStatus : ExecutionStatus
deriving DecidableEq, Repr

/-- `InvalidationOperation`. -/
inductive InvalidationOperation where
  | invalidateOne (blockRoot : Nat)
  | invalidateMany (headBlockRoot : Nat) (alwaysInvalidateHead : Bool)
      (latestValidAncestor : Nat)
deriving DecidableEq, Repr

namespace InvalidationOperation

def blockRoot : InvalidationOperation → Nat
  | invalidateOne blockRoot => blockRoot
  | invalidateMany headBlockRoot _ _ => headBlockRoot

def latestValidAncestor : InvalidationOperation → Option Nat
  | invalidateOne _ => none
  | invalidateMany _ _ latestValidAncestor => some latestValidAncestor

def invalidateBlockRoot : InvalidationOperation → Bool
  | invalidateOne _ => true
  | invalidateMany _ alwaysInvalidateHead _ => alwaysInvalidateHead

end InvalidationOperation

/-- `InvalidBestNodeInfo`. -/
structure InvalidBestNodeInfo where
  startRoot : Nat
  justifiedCheckpoint : Checkpoint
  finalizedCheckpoint : Checkpoint
  headRoot : Nat
  headJustifiedCheckpoint : Option Checkpoint
  headFinalizedCheckpoint : Option Checkpoint
deriving DecidableEq, Repr

/-- `proto_array::Error`, the variants the modelled functions return. -/
inductive Error where
  | finalizedNodeUnknown (root : Nat)
  | justifiedNodeUnknown (root : Nat)
  | nodeUnknown (root : Nat)
  | invalidNodeIndex (index : Nat)
  | invalidJustifiedIndex (index : Nat)
  | invalidBestDescendant (index : Nat)
  | invalidParentDelta (index : Nat)
  | invalidNodeDelta (index : Nat)
  | deltaOverflow (index : Nat)
  | proposerBoostOverflow (index : Nat)
  | indexOverflow (field : String)
  | invalidExecutionDeltaOverflow (index : Nat)
  | invalidDeltaLen (deltas indices : Nat)
  | invalidBestNode (info : InvalidBestNodeInfo)
  | invalidAncestorOfValidPayload (ancestorBlockRoot ancestorPayloadBlockHash : Nat)
  | validExecutionStatusBecameInvalid (blockRoot payloadBlockHash : Nat)
  | invalidJustifiedCheckpointExecutionStatus (justifiedRoot : Nat)
  | irrelevantDescendant (blockRoot : Nat)
  | parentExecutionStatusIsInvalid (blockRoot parentRoot : Nat)
deriving DecidableEq, Repr

/-- `ChainSpec`, the one field fork choice reads. -/
structure ChainSpec where
  proposerScoreBoost : Option Nat
deriving DecidableEq, Repr

/-- The methods of `ProtoArray` that mutate it: a state that may fail keeping its writes. -/
abbrev M := EStateM Error ProtoArray

end Lighthouse.ForkChoice
