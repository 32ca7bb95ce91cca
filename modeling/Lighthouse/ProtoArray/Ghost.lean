import Lighthouse.ProtoArray.Invariant

/-! The head of the fork-choice specification over the blocks of a proto-array: LMD-GHOST
over the tree that `filter_block_tree` keeps. A block with children is kept when one of its
children is; a leaf is kept when its checkpoints are the store's (or the store's epoch is
zero) and its payload is not invalid. `get_head` starts at the justified block and moves to the
kept child of greatest `(weight, root)` until there is none.

The array does not keep this tree: `node_leads_to_viable_head` also accepts a node whose own
checkpoints match while none of its descendants does, so `find_head` can end on an inner node
the specification has filtered out. -/
namespace Lighthouse.ForkChoice
open Forest

namespace ProtoArray

/-- The positions whose parent is `i`. -/
def children (pa : ProtoArray) (i : Nat) : List Nat :=
  (List.range pa.nodes.length).filter fun c => parentAt ProtoNode.parent pa.nodes c == some i

/-- The leaf condition of `filter_block_tree` for the store's checkpoints `J` and `F`. -/
def leafViable (J F : Checkpoint) (node : ProtoNode) : Bool :=
  !node.executionStatus.isInvalid &&
    (node.justifiedCheckpoint == some J || J.epoch == 0) &&
    (node.finalizedCheckpoint == some F || F.epoch == 0)

/-- `filter_block_tree`: whether the block at `i` is kept, looking `fuel` levels down. -/
def filterBlockTree (pa : ProtoArray) (J F : Checkpoint) : Nat → Nat → Bool
  | 0, _ => false
  | fuel + 1, i =>
    let cs := pa.children i
    if cs.isEmpty then (pa.nodes[i]?.map (leafViable J F)).getD false
    else cs.any (filterBlockTree pa J F fuel)

/-- The key `get_head` orders the children by. -/
def headKey (pa : ProtoArray) (i : Nat) : Nat × Nat :=
  ((pa.nodes[i]?.map (·.weight)).getD 0, (pa.nodes[i]?.map (·.root)).getD 0)

/-- The child of greatest `(weight, root)` among `cs`. -/
def maxByKey (pa : ProtoArray) (cs : List Nat) : Option Nat :=
  cs.foldl (fun best c => match best with
    | none => some c
    | some b =>
      let kb := pa.headKey b
      let kc := pa.headKey c
      if kb.1 < kc.1 ∨ (kb.1 = kc.1 ∧ kb.2 < kc.2) then some c else some b) none

/-- The loop of `get_head`, from position `head`, for at most `fuel` steps. -/
def getHeadFrom (pa : ProtoArray) (J F : Checkpoint) : Nat → Nat → Nat
  | 0, head => head
  | fuel + 1, head =>
    match pa.maxByKey ((pa.children head).filter (pa.filterBlockTree J F pa.nodes.length)) with
    | some c => getHeadFrom pa J F fuel c
    | none => head

/-- `get_head` from the justified root: the root it ends on. -/
def specHead (pa : ProtoArray) (J F : Checkpoint) (justifiedRoot : Nat) : Option Nat :=
  (pa.indices.lookup justifiedRoot).bind fun j =>
    pa.nodes[pa.getHeadFrom J F pa.nodes.length j]?.map (·.root)

/-- From `new` at the checkpoint `(1, 1)`, a block `2` with those checkpoints and below it a block
`3` with the later checkpoints `(2, 2)`; after `apply_score_changes` at `(1, 1)`, `find_head`
from root `1` returns `2`, while the specification filters out `2` (its only child is not
viable) and stays at `1`. -/
theorem findHead_ne_specHead :
    let cp : Checkpoint := ⟨1, 1⟩
    let anchor : ProtoArray :=
      { pruneThreshold := defaultPruneThreshold
        justifiedCheckpoint := cp
        finalizedCheckpoint := cp
        nodes := [⟨0, 1, none, some cp, some cp, 0, none, none, .irrelevant false⟩]
        indices := (∅ : PositionMap.Map Nat).insert 1 0
        previousProposerBoost := default }
    let pa := EState.final ((onBlock ⟨2, 3, some 2, ⟨2, 2⟩, ⟨2, 2⟩, .irrelevant false⟩).run
      (EState.final ((onBlock ⟨1, 2, some 1, cp, cp, .irrelevant false⟩).run anchor)))
    let r := (applyScoreChanges 32 [0, 0, 0] cp cp [] 0 ⟨none⟩).run pa
    FromNew anchor ∧ EState.failed r = false ∧
      (EState.final r).findHead 1 = .ok 2 ∧ (EState.final r).specHead cp cp 1 = some 1 := by
  intro cp anchor pa r
  exact ⟨⟨0, cp, cp, .irrelevant false, _, rfl, rfl⟩, by decide, by decide, by decide⟩

end ProtoArray

end Lighthouse.ForkChoice
