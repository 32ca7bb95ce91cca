import Lighthouse.ProtoArray.Core

/-! `ProtoArrayForkChoice` (`proto_array_fork_choice.rs`): the proto-array with the latest
vote of each validator and the balances last used. `compute_deltas` turns the votes that moved
and the balances that changed into one delta per node; `find_head` applies them and reads the
head. Errors of the inner array reach the caller as a message naming the call, which keeps the
inner error (the `{:?}` of the source). -/
namespace Lighthouse.ForkChoice
open EState

/-- `VoteTracker`; the all-zero tracker is its `Default`. -/
structure VoteTracker where
  currentRoot : Nat
  nextRoot : Nat
  nextEpoch : Nat
deriving DecidableEq, Repr

instance : Inhabited VoteTracker := ⟨⟨0, 0, 0⟩⟩

/-- `ElasticList::ensure`: grow with defaults until position `i` exists. -/
def ElasticList.ensure (votes : List VoteTracker) (i : Nat) : List VoteTracker :=
  if votes.length ≤ i then votes ++ List.replicate (i + 1 - votes.length) default else votes

/-- The error of a `ProtoArrayForkChoice` method: a plain message, or the `format!` of a
context and the inner error. -/
inductive ForkChoiceError where
  | message (text : String)
  | wrapped (context : String) (error : Error)
deriving DecidableEq, Repr

structure ProtoArrayForkChoice where
  protoArray : ProtoArray
  votes : List VoteTracker
  balances : List Nat

/-- `DEFAULT_PRUNE_THRESHOLD`. -/
def defaultPruneThreshold : Nat := 256

abbrev FcM := EStateM ForkChoiceError ProtoArrayForkChoice

namespace ProtoArrayForkChoice

/-- A method of the inner array, its error formatted with `context`. -/
def onProtoArray {α : Type} (context : String) (m : M α) : FcM α :=
  focus (·.protoArray) (fun fc pa => { fc with protoArray := pa }) (.wrapped context) m

/-- The genesis block of `new`: the finalized block, with no parent. -/
def anchorBlock (finalizedBlockSlot : Nat) (justifiedCheckpoint finalizedCheckpoint : Checkpoint)
    (executionStatus : ExecutionStatus) : Block :=
  { slot := finalizedBlockSlot
    root := finalizedCheckpoint.root
    parentRoot := none
    justifiedCheckpoint
    finalizedCheckpoint
    executionStatus }

/-- `ProtoArrayForkChoice::new`. -/
def new (finalizedBlockSlot : Nat) (justifiedCheckpoint finalizedCheckpoint : Checkpoint)
    (executionStatus : ExecutionStatus) : Except ForkChoiceError ProtoArrayForkChoice :=
  let protoArray : ProtoArray :=
    { pruneThreshold := defaultPruneThreshold
      justifiedCheckpoint
      finalizedCheckpoint
      nodes := []
      indices := ∅
      previousProposerBoost := default }
  match (ProtoArray.onBlock (anchorBlock finalizedBlockSlot justifiedCheckpoint
      finalizedCheckpoint executionStatus)).run protoArray with
  | .ok _ protoArray => .ok { protoArray, votes := [], balances := [] }
  | .error e _ => .error (.wrapped "Failed to add finalized block to proto_array" e)

def processExecutionPayloadValidation (blockRoot : Nat) : FcM Unit :=
  onProtoArray "Failed to process valid payload"
    (ProtoArray.propagateExecutionPayloadValidation blockRoot)

def processExecutionPayloadInvalidation (op : InvalidationOperation) : FcM Unit :=
  onProtoArray "Failed to process invalid payload"
    (ProtoArray.propagateExecutionPayloadInvalidation op)

/-- `process_attestation`: a later target epoch, or a first vote, replaces the next vote. -/
def processAttestation (validatorIndex blockRoot targetEpoch : Nat) : FcM Unit :=
  modify fun fc =>
    let votes := ElasticList.ensure fc.votes validatorIndex
    let vote := votes[validatorIndex]?.getD default
    if targetEpoch > vote.nextEpoch || vote == default then
      let vote := { vote with nextRoot := blockRoot, nextEpoch := targetEpoch }
      { fc with votes := votes.set validatorIndex vote }
    else { fc with votes }

def processBlock (block : Block) : FcM Unit := do
  if block.parentRoot.isNone then throw (.message "Missing parent root")
  onProtoArray "process_block_error" (ProtoArray.onBlock block)

end ProtoArrayForkChoice

/-- The body of the loop of `compute_deltas` for the vote of `valIndex` when it moved or its
balance changed: take the old balance from the current root and give the new one to the
next root, each only when that root is in the tree. -/
def moveVote (indices : PositionMap.Map Nat) (deltas : List Int) (vote : VoteTracker)
    (oldBalance newBalance : Nat) : Except Error (List Int) := do
  let deltas ← match indices.lookup vote.currentRoot with
    | some currentDeltaIndex => do
      let delta ← okOr deltas[currentDeltaIndex]? (.invalidNodeDelta currentDeltaIndex)
      let delta ← okOr (Checked.subI64 delta (Checked.asI64 oldBalance))
        (.deltaOverflow currentDeltaIndex)
      pure (deltas.set currentDeltaIndex delta)
    | none => pure deltas
  match indices.lookup vote.nextRoot with
  | some nextDeltaIndex => do
    let delta ← okOr deltas[nextDeltaIndex]? (.invalidNodeDelta nextDeltaIndex)
    let delta ← okOr (Checked.addI64 delta (Checked.asI64 newBalance))
      (.deltaOverflow nextDeltaIndex)
    pure (deltas.set nextDeltaIndex delta)
  | none => pure deltas

/-- The loop of `compute_deltas` over the votes from `valIndex` on. It returns the votes as
rewritten (a moved vote's current root becomes its next root) and the deltas; after a failure
the votes are those rewritten so far. -/
def computeDeltasLoop (indices : PositionMap.Map Nat) (oldBalances newBalances : List Nat) :
    Nat → List VoteTracker → List Int → List VoteTracker × Except Error (List Int)
  | _, [], deltas => ([], .ok deltas)
  | valIndex, vote :: rest, deltas =>
    let continueWith (vote : VoteTracker) (deltas : List Int) :=
      let (rest, result) := computeDeltasLoop indices oldBalances newBalances (valIndex + 1) rest deltas
      (vote :: rest, result)
    -- A validator that never voted, or voted only for the zero hash, changes nothing.
    if vote.currentRoot == 0 && vote.nextRoot == 0 then continueWith vote deltas
    else
      let oldBalance := oldBalances[valIndex]?.getD 0
      let newBalance := newBalances[valIndex]?.getD 0
      if vote.currentRoot != vote.nextRoot || oldBalance != newBalance then
        match moveVote indices deltas vote oldBalance newBalance with
        | .ok deltas => continueWith { vote with currentRoot := vote.nextRoot } deltas
        | .error e => (vote :: rest, .error e)
      else continueWith vote deltas

/-- `compute_deltas`. -/
def computeDeltas (indices : PositionMap.Map Nat) (votes : List VoteTracker)
    (oldBalances newBalances : List Nat) : List VoteTracker × Except Error (List Int) :=
  computeDeltasLoop indices oldBalances newBalances 0 votes
    (List.replicate indices.entries.length 0)

namespace ProtoArrayForkChoice

/-- `find_head`: compute the deltas, apply them, record the balances, read the head. -/
def findHead (slotsPerEpoch : Nat) (justifiedCheckpoint finalizedCheckpoint : Checkpoint)
    (justifiedStateBalances : List Nat) (proposerBoostRoot : Nat) (spec : ChainSpec) :
    FcM Nat := do
  let fc ← get
  let (votes, deltas) :=
    computeDeltas fc.protoArray.indices fc.votes fc.balances justifiedStateBalances
  set { fc with votes }
  let deltas ← match deltas with
    | .ok deltas => pure deltas
    | .error e => throw (.wrapped "find_head compute_deltas failed" e)
  onProtoArray "find_head apply_score_changes failed"
    (ProtoArray.applyScoreChanges slotsPerEpoch deltas justifiedCheckpoint finalizedCheckpoint
      justifiedStateBalances proposerBoostRoot spec)
  modify fun fc => { fc with balances := justifiedStateBalances }
  match ProtoArray.findHead (← get).protoArray justifiedCheckpoint.root with
  | .ok head => pure head
  | .error e => throw (.wrapped "find_head failed" e)

def maybePrune (finalizedRoot : Nat) : FcM Unit :=
  onProtoArray "find_head maybe_prune failed" (ProtoArray.maybePrune finalizedRoot)

end ProtoArrayForkChoice

end Lighthouse.ForkChoice
