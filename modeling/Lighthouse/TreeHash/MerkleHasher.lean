import Lighthouse.TreeHash.Hash
import Lighthouse.Ssz.Bitfield

/-! `MerkleHasher` (`merkle_hasher.rs`): the streaming Merkleizer. Bytes are cut into 32-byte
leaves as they arrive, with a buffer for a leaf that straddles two writes; each leaf is placed at
its node id (the root is `1`, the children of `i` are `2 i` and `2 i + 1`), a left child as a
half node waiting for its sibling and a right child by completing its parent and every half
node above that it completes in turn. `finish` pads the buffer into a last leaf and completes the
tree with the zero hashes of the missing right subtrees.

The half nodes are a stack kept with its top first. A hasher context that has absorbed the left
value is the list of bytes absorbed. `with_depth` asserts, `get_zero_hash` may panic, and the
subtraction in `zero_hash` would overflow on an id below the leaves; these panics are
`Fault.panic` with their message, apart from the error `MaximumLeavesExceeded`. The completion
loop of `finish` has no bound in the code; here it is given `depth + 1` rounds, which is the
number it takes when no leaf was written (one left node, one right node per level, and the
round that returns the root). -/
namespace Lighthouse.TreeHash
open MerkleTree Ssz.Bitfield

/-- A node with its left child hashed into the context and its right child still missing. -/
structure HalfNode where
  context : List UInt8
  id : Nat
deriving DecidableEq, Repr

namespace MerkleHasher

/-- `merkle_hasher::Error`. -/
inductive Error where
  | maximumLeavesExceeded (maxLeaves : Nat)
deriving DecidableEq, Repr

end MerkleHasher

/-- `MerkleHasher`. The buffer never reaches a whole leaf: `write` only extends it below 32
bytes. -/
structure MerkleHasher where
  halfNodes : List HalfNode
  depth : Nat
  nextLeaf : Nat
  buffer : List UInt8
  buffer_lt : buffer.length < 32
  root : Option Hash256

/-- The empty buffer of a hasher that starts or has just processed a leaf. -/
theorem nil_buffer_lt : ([] : List UInt8).length < 32 := by decide

/-- `get_parent`. -/
def getParent (i : Nat) : Nat := i / 2

/-- `get_depth`: the level of node `i`, the root at level `0`. -/
def getDepth (i : Nat) : Nat := Nat.log2 i

section Hasher
variable (sha : List UInt8 → Hash256)

/-- `HalfNode::new`. -/
def HalfNode.new (id : Nat) (left : Hash256) : HalfNode := ⟨left.bytes, id⟩

/-- `HalfNode::finish`: the context takes the right value and is finalised. -/
def HalfNode.finish (n : HalfNode) (right : Hash256) : Hash256 := sha (n.context ++ right.bytes)

namespace MerkleHasher
open Error

/-- `MerkleHasher::with_depth`. -/
def withDepth (depth : Nat) : Except (Fault Error) MerkleHasher :=
  if depth > 0 then
    pure
      { halfNodes := []
        depth := depth
        nextLeaf := 2 ^ (depth - 1)
        buffer := []
        buffer_lt := by decide
        root := none }
  else throw (.panic "merkle tree cannot have a depth of zero")

/-- `MerkleHasher::with_leaves`. -/
def withLeaves (numLeaves : Nat) : Except (Fault Error) MerkleHasher :=
  withDepth (getDepth (nextPowerOfTwo numLeaves) + 1)

/-- `process_left_node`. -/
def processLeftNode (m : MerkleHasher) (id : Nat) (preimage : Hash256) : MerkleHasher :=
  { m with halfNodes := HalfNode.new (getParent id) preimage :: m.halfNodes }

/-- The loop of `process_right_node` from the half nodes `halfNodes`, at node `parent` with the
value `preimage` of its right child: the half nodes left and the root, if it was found. -/
def rightNodeLoop : List HalfNode → Nat → Hash256 → Option Hash256 → List HalfNode × Option Hash256
  | node :: rest, parent, preimage, root =>
    if node.id = parent then
      let preimage := node.finish sha preimage
      if parent = 1 then (rest, some preimage)
      else rightNodeLoop rest (getParent parent) preimage root
    else (HalfNode.new parent preimage :: node :: rest, root)
  | [], parent, preimage, root => ([HalfNode.new parent preimage], root)

/-- `process_right_node`. -/
def processRightNode (m : MerkleHasher) (id : Nat) (preimage : Hash256) : MerkleHasher :=
  let r := rightNodeLoop sha m.halfNodes (getParent id) preimage m.root
  { m with halfNodes := r.1, root := r.2 }

/-- `process_leaf`. The leaf is 32 bytes by its type, which is the assertion of the code. -/
def processLeaf (m : MerkleHasher) (leaf : Hash256) : Except Error MerkleHasher :=
  let maxLeaves := 2 ^ (m.depth + 1)
  if m.nextLeaf > maxLeaves then throw (maximumLeavesExceeded maxLeaves)
  else
    let m' := if m.nextLeaf = 1 then { m with root := some leaf }
      else if m.nextLeaf % 2 = 0 then m.processLeftNode m.nextLeaf leaf
      else m.processRightNode sha m.nextLeaf leaf
    pure { m' with nextLeaf := m.nextLeaf + 1 }

/-- The loop of `write` from position `ptr` of `bytes`. -/
def writeLoop (bytes : List UInt8) (ptr : Nat) (m : MerkleHasher) : Except Error MerkleHasher :=
  if hptr : ptr ≤ bytes.length then
    -- `&bytes[ptr..min(bytes.len(), ptr + HASHSIZE)]`
    let slice := (bytes.drop ptr).take 32
    if hleaf : m.buffer.isEmpty ∧ slice.length = 32 then do
      let m' ← m.processLeaf sha ⟨slice, hleaf.2⟩
      writeLoop bytes (ptr + 32) m'
    else if hbuf : m.buffer.length + slice.length < 32 then
      writeLoop bytes (ptr + 32)
        { m with buffer := m.buffer ++ slice, buffer_lt := by simpa using hbuf }
    else do
      let required := 32 - m.buffer.length
      let m' ← m.processLeaf sha ⟨m.buffer ++ slice.take required, by
        have := m.buffer_lt
        simp only [List.length_append, List.length_take]
        omega⟩
      writeLoop bytes (ptr + required) { m' with buffer := [], buffer_lt := by decide }
  else pure m
termination_by bytes.length + 1 - ptr
decreasing_by
  all_goals have := m.buffer_lt
  all_goals omega

/-- `MerkleHasher::write`. -/
def write (m : MerkleHasher) (bytes : List UInt8) : Except Error MerkleHasher :=
  writeLoop sha bytes 0 m

/-- `zero_hash`: the root of the all-zero subtree at node `id`. -/
def zeroHash (m : MerkleHasher) (id : Nat) : Except String Hash256 :=
  if getDepth id + 1 ≤ m.depth then getZeroHash sha (m.depth - (getDepth id + 1))
  else throw "attempt to subtract with overflow"

/-- The loop of `finish`, for at most `fuel` rounds. -/
def finishLoop : Nat → MerkleHasher → Except (Fault Error) Hash256
  | 0, _ => throw (.panic "finish loop out of fuel")
  | fuel + 1, m =>
    match m.root, m.halfNodes with
    | some root, _ => pure root
    | none, node :: _ => do
      let rightChild := node.id * 2 + 1
      let z ← (m.zeroHash sha rightChild).mapError .panic
      finishLoop fuel (m.processRightNode sha rightChild z)
    | none, [] =>
      if m.nextLeaf = 1 then pure Hash256.zero
      else do
        let z ← (m.zeroHash sha m.nextLeaf).mapError .panic
        finishLoop fuel (m.processLeftNode m.nextLeaf z)

/-- `MerkleHasher::finish`. -/
def finish (m : MerkleHasher) : Except (Fault Error) Hash256 := do
  let m ← if m.buffer.isEmpty then pure m
    else (m.processLeaf sha ⟨resize m.buffer 32, length_resize _ _⟩).mapError .error
  finishLoop sha (m.depth + 1) m

end MerkleHasher

/-- A hasher of depth `depth` fed `writes` one after the other, then finished: the use the
code's tests make of it. -/
def streamRoot (depth : Nat) (writes : List (List UInt8)) : Except (Fault MerkleHasher.Error) Hash256 := do
  let m ← MerkleHasher.withDepth depth
  let m ← writes.foldlM (fun m bytes => (m.write sha bytes).mapError .error) m
  m.finish sha

end Hasher

end Lighthouse.TreeHash
