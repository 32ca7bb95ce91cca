import Lighthouse.Foundations.MerkleBranch
import Lighthouse.TreeHash.Hash

/-! The right-sparse Merkle tree of `merkle_proof`, which mirrors the deposit contract's tree of
deposits. Only the first leaves are stored; a `Zero(depth)` subtree stands for `2 ^ depth` zero
leaves and hashes to the table entry `ZERO_HASHES[depth]`.

`WellFormed t d` says that `t` is a tree of depth `d` whose every node holds the hash of its
two subtrees, and `leafAt t d` reads its leaves; the hash of such a tree is the root of the
perfect tree over its leaves (`hash_eq_treeRoot`). `create` builds one over the given leaves
padded with zeros, and `push_leaf` keeps the invariant, leaves a tree unchanged whenever it
fails, and on a created tree that is not full is `create` over one more leaf. The proof that
`generate_proof` returns is the library's branch of the leaf, so it passes
`verify_merkle_proof` against the tree's hash.

The SHA-256 function is a parameter. `ZERO_HASHES` and `ZERO_NODES` are read as the zero roots
and zero subtrees of every depth: the panics of the source past their last entries (depth 48
and 32) are not modelled. -/
namespace Lighthouse.MerkleProof
open Lighthouse.MerkleTree Lighthouse.TreeHash

/-- `MerkleTree`: a leaf with its hash, a node with its hash and two subtrees, or the zero
subtree of a depth. -/
inductive MerkleTree where
  | leaf (hash : Hash256)
  | node (hash : Hash256) (left right : MerkleTree)
  | zero (depth : Nat)
deriving DecidableEq, Repr

/-- `MerkleTreeError`. -/
inductive MerkleTreeError where
  | leafReached
  | merkleTreeFull
  | invalid
  | depthTooSmall
  | arithError
deriving DecidableEq, Repr

namespace MerkleTree
variable (sha : List UInt8 → Hash256)

/-- `MerkleTree::hash`: the stored hash, or the zero root of the subtree's depth. -/
def hash : MerkleTree → Hash256
  | .leaf h => h
  | .node h _ _ => h
  | .zero depth => zeroHashes sha depth

/-- `MerkleTree::create`: the leaves split at the capacity of the left subtree, each part built
one level down; no leaves give a zero subtree. -/
def create : List Hash256 → Nat → MerkleTree
  | [], depth => .zero depth
  | first :: _, 0 => .leaf first
  | leaves, depth + 1 =>
    let subtreeCapacity := 2 ^ depth
    let (leftLeaves, rightLeaves) :=
      if leaves.length ≤ subtreeCapacity then (leaves, []) else leaves.splitAt subtreeCapacity
    let leftSubtree := create leftLeaves depth
    let rightSubtree := create rightLeaves depth
    .node (hash32Concat sha (leftSubtree.hash sha) (rightSubtree.hash sha)) leftSubtree
      rightSubtree

/-- The match of `push_leaf` on the two subtrees of a node: its result and the subtrees it
leaves, given the push one level down and `fresh`, the tree `create(&[elem], depth - 1)` that
takes the place of a zero subtree. -/
def pushIntoSubtrees (push : MerkleTree → Except MerkleTreeError Unit × MerkleTree)
    (fresh left right : MerkleTree) : Except MerkleTreeError Unit × MerkleTree × MerkleTree :=
  match left, right with
  | .leaf _, .leaf _ => (.error .merkleTreeFull, left, right)
  | .node .., .node .. =>
    let (result, right) := push right
    (result, left, right)
  | .zero _, .zero _ => (.ok (), fresh, right)
  | .leaf _, .zero _ => (.ok (), left, fresh)
  | .node .., .zero _ =>
    match push left with
    | (.ok (), left) => (.ok (), left, right)
    -- a full left subtree sends the leaf into the right one
    | (.error .merkleTreeFull, left) => (.ok (), left, fresh)
    | (.error e, left) => (.error e, left, right)
  | _, _ => (.error .invalid, left, right)

/-- `MerkleTree::push_leaf`, with the tree it leaves behind. The node's hash is recomputed only
when the push into its subtrees succeeds. -/
def pushLeaf (elem : Hash256) : MerkleTree → Nat → Except MerkleTreeError Unit × MerkleTree
  | self, 0 => (.error .depthTooSmall, self)
  | .leaf h, _ + 1 => (.error .leafReached, .leaf h)
  | .zero _, depth + 1 => (.ok (), create sha [elem] (depth + 1))
  | .node hash left right, depth + 1 =>
    match pushIntoSubtrees (fun t => pushLeaf elem t depth) (create sha [elem] depth) left right with
    | (.ok (), left, right) =>
      (.ok (), .node (hash32Concat sha (left.hash sha) (right.hash sha)) left right)
    | (.error e, left, right) => (.error e, .node hash left right)

/-- `MerkleTree::left_and_right_branches`: a node's subtrees, or two zero subtrees one level
down; none for a leaf or a zero leaf. -/
def leftAndRightBranches : MerkleTree → Option (MerkleTree × MerkleTree)
  | .leaf _ => none
  | .zero 0 => none
  | .node _ l r => some (l, r)
  | .zero (depth + 1) => some (.zero depth, .zero depth)

/-- The loop of `generate_proof`: from `currentNode` at `currentDepth`, the node reached at the
bottom and the proof gathered from the top; none where the source's `unwrap` panics. -/
def generateProofLoop (index : Nat) :
    MerkleTree → Nat → List Hash256 → Option (MerkleTree × List Hash256)
  | currentNode, 0, proof => some (currentNode, proof)
  | currentNode, currentDepth + 1, proof =>
    match currentNode.leftAndRightBranches with
    | none => none
    | some (left, right) =>
      let ithBit := (index >>> currentDepth) &&& 1
      if ithBit = 1 then generateProofLoop index right currentDepth (proof ++ [left.hash sha])
      else generateProofLoop index left currentDepth (proof ++ [right.hash sha])

/-- `MerkleTree::generate_proof`: the leaf at `index` and its proof, bottom-up. -/
def generateProof (t : MerkleTree) (index depth : Nat) : Option (Hash256 × List Hash256) :=
  (generateProofLoop sha index t depth []).map fun (currentNode, proof) =>
    (currentNode.hash sha, proof.reverse)

end MerkleTree

section Verify
variable (sha : List UInt8 → Hash256)

/-- `merkle_root_from_branch`. Its length assertion is left out: its one caller checks the
length first. -/
def merkleRootFromBranch (leaf : Hash256) (branch : List Hash256) (depth index : Nat) :
    Hash256 :=
  (branch.zipIdx.take depth).foldl (fun merkleRoot (leaf, i) =>
    if (index >>> i) &&& 1 = 1 then hash32Concat sha leaf merkleRoot
    else sha (merkleRoot.bytes ++ leaf.bytes)) leaf

/-- `verify_merkle_proof`. -/
def verifyMerkleProof (leaf : Hash256) (branch : List Hash256) (depth index : Nat)
    (root : Hash256) : Bool :=
  if branch.length = depth then decide (merkleRootFromBranch sha leaf branch depth index = root)
  else false

/-- The verifier's climb is the library's, with SHA-256 joining two values. -/
theorem merkleRootFromBranch_eq {leaf : Hash256} {branch : List Hash256} {depth : Nat}
    (h : branch.length = depth) (index : Nat) :
    merkleRootFromBranch sha leaf branch depth index =
      rootFromBranch (hash32Concat sha) index leaf branch := by
  unfold merkleRootFromBranch rootFromBranch
  rw [List.take_of_length_le (by simp [h])]
  apply List.foldl_ext
  rintro acc ⟨s, k⟩ -
  simp only [climb, shiftRight_and_one_eq_one_iff]
  rfl

theorem verifyMerkleProof_iff {leaf : Hash256} {branch : List Hash256} {depth index : Nat}
    {root : Hash256} :
    verifyMerkleProof sha leaf branch depth index root = true ↔
      branch.length = depth ∧ rootFromBranch (hash32Concat sha) index leaf branch = root := by
  unfold verifyMerkleProof
  split
  case isTrue h => simp [merkleRootFromBranch_eq sha h, h]
  case isFalse h => simp [h]

end Verify

namespace MerkleTree
variable (sha : List UInt8 → Hash256)

/-- A tree of depth `d` as `create` and `push_leaf` keep it: leaves only at the bottom, zero
subtrees of the height they stand at, and every node holding the hash of its two subtrees. -/
def WellFormed : MerkleTree → Nat → Prop
  | .leaf _, 0 => True
  | .zero k, d => k = d
  | .node h l r, d + 1 =>
    l.WellFormed d ∧ r.WellFormed d ∧ h = hash32Concat sha (l.hash sha) (r.hash sha)
  | _, _ => False

instance decidableWellFormed : ∀ (t : MerkleTree) (d : Nat), Decidable (t.WellFormed sha d)
  | .leaf _, 0 => isTrue trivial
  | .leaf _, _ + 1 => isFalse id
  | .zero k, d => inferInstanceAs (Decidable (k = d))
  | .node .., 0 => isFalse id
  | .node h l r, d + 1 =>
    have := decidableWellFormed l d
    have := decidableWellFormed r d
    inferInstanceAs (Decidable (_ ∧ _ ∧ h = hash32Concat sha (l.hash sha) (r.hash sha)))

/-- The leaves of a tree of depth `d`, from the left: zero inside a zero subtree. -/
def leafAt : MerkleTree → Nat → Nat → Hash256
  | .leaf h, _, _ => h
  | .node _ l r, d + 1, i => if i < 2 ^ d then l.leafAt d i else r.leafAt d (i - 2 ^ d)
  | _, _, _ => Hash256.zero

/-! `create`. -/

/-- Either way the source splits, the left subtree takes the first `2 ^ depth` leaves and the
right one the rest. -/
theorem create_succ {leaves : List Hash256} (h : leaves ≠ []) (depth : Nat) :
    create sha leaves (depth + 1) =
      .node (hash32Concat sha ((create sha (leaves.take (2 ^ depth)) depth).hash sha)
          ((create sha (leaves.drop (2 ^ depth)) depth).hash sha))
        (create sha (leaves.take (2 ^ depth)) depth) (create sha (leaves.drop (2 ^ depth)) depth) := by
  obtain ⟨a, as, rfl⟩ := List.exists_cons_of_ne_nil h
  simp only [create]
  split
  case isTrue hle => rw [List.take_of_length_le hle, List.drop_eq_nil_of_le hle]
  case isFalse => rw [List.splitAt_eq]

@[simp] theorem create_nil (depth : Nat) : create sha [] depth = .zero depth := by
  cases depth <;> rfl

theorem wellFormed_create : ∀ (leaves : List Hash256) (d : Nat),
    (create sha leaves d).WellFormed sha d
  | [], d => by simp [WellFormed]
  | _ :: _, 0 => trivial
  | a :: as, d + 1 => by
    rw [create_succ sha (List.cons_ne_nil a as)]
    exact ⟨wellFormed_create _ d, wellFormed_create _ d, rfl⟩

theorem leafAt_create : ∀ (leaves : List Hash256) (d : Nat) {i : Nat}, i < 2 ^ d →
    (create sha leaves d).leafAt d i = leaves.getD i Hash256.zero
  | [], d, i, _ => by simp [leafAt]
  | a :: as, 0, i, hi => by
    obtain rfl : i = 0 := by simpa using hi
    rfl
  | a :: as, d + 1, i, hi => by
    rw [create_succ sha (List.cons_ne_nil a as), leafAt]
    split
    case isTrue hlt =>
      rw [leafAt_create _ d hlt, List.getD_eq_getElem?_getD, List.getD_eq_getElem?_getD,
        List.getElem?_take_of_lt hlt]
    case isFalse hge =>
      rw [leafAt_create _ d (by rw [Nat.pow_succ] at hi; omega), List.getD_eq_getElem?_getD,
        List.getD_eq_getElem?_getD, List.getElem?_drop, Nat.add_sub_cancel' (by omega)]

/-! The hash of a well-formed tree. -/

/-- The hash of a well-formed tree is the root of the perfect tree over its leaves. -/
theorem hash_eq_treeRoot : ∀ {t : MerkleTree} {d : Nat}, t.WellFormed sha d →
    t.hash sha = treeRoot (hash32Concat sha) d (t.leafAt d)
  | .leaf _, 0, _ => rfl
  | .zero k, d, hk => by
    obtain rfl : k = d := hk
    exact (treeRoot_eq_zeroRoot _ fun _ _ => rfl).symm
  | .node h l r, d + 1, ⟨hl, hr, hh⟩ => by
    -- each half of the node's leaves is the leaves of one subtree
    have hleft : ∀ i < 2 ^ d, (node h l r).leafAt (d + 1) i = l.leafAt d i := fun i hi => by
      simp [leafAt, hi]
    have hright : ∀ i < 2 ^ d, (node h l r).leafAt (d + 1) (2 ^ d + i) = r.leafAt d i :=
      fun i _ => by simp [leafAt]
    rw [treeRoot_succ, treeRoot_congr d hleft, treeRoot_congr d hright, ← hash_eq_treeRoot hl,
      ← hash_eq_treeRoot hr]
    exact hh

/-- The root of a created tree is the root of the perfect tree over its leaves padded with zero
leaves; leaves past the `2 ^ d` it holds are dropped. -/
theorem hash_create (leaves : List Hash256) (d : Nat) :
    (create sha leaves d).hash sha =
      treeRoot (hash32Concat sha) d fun i => leaves.getD i Hash256.zero := by
  rw [hash_eq_treeRoot sha (wellFormed_create sha leaves d)]
  exact treeRoot_congr d fun i hi => leafAt_create sha leaves d hi

/-- The tree is a node, as the source's pattern `Node(_, _, _)` tests. -/
def IsNode (t : MerkleTree) : Prop := ∃ h l r, t = .node h l r

theorem isNode_create {leaves : List Hash256} (hne : leaves ≠ []) {d : Nat} (hd : 1 ≤ d) :
    (create sha leaves d).IsNode := by
  obtain ⟨e, rfl⟩ : ∃ e, d = e + 1 := ⟨d - 1, by omega⟩
  exact ⟨_, _, _, create_succ sha hne e⟩

/-! `push_leaf`. The match on the subtrees, shape by shape, and what a push does to a node
through it. -/

section Push
variable {push : MerkleTree → Except MerkleTreeError Unit × MerkleTree}
  {fresh left right : MerkleTree}

/-- A push one level down that fails only where it changes nothing makes a failed push into
the subtrees change nothing. -/
theorem pushIntoSubtrees_error (hpush : ∀ {t e t'}, push t = (.error e, t') → t' = t)
    {e : MerkleTreeError} {l r : MerkleTree}
    (h : pushIntoSubtrees push fresh left right = (.error e, l, r)) : l = left ∧ r = right := by
  unfold pushIntoSubtrees at h
  split at h
  next => cases h; exact ⟨rfl, rfl⟩
  next =>
    -- the right subtree was pushed into
    generalize hp : push _ = p at h
    obtain ⟨res, r'⟩ := p
    cases h
    exact ⟨rfl, hpush hp⟩
  next => cases h
  next => cases h
  next =>
    -- the left subtree was pushed into, and failed other than by being full
    generalize hp : push _ = p at h
    split at h
    next => cases h
    next => cases h
    next => cases h; exact ⟨hpush hp, rfl⟩
  next => cases h; exact ⟨rfl, rfl⟩

/-- The subtrees a push leaves are well formed when the push one level down keeps trees well
formed. -/
theorem pushIntoSubtrees_wellFormed {d : Nat}
    (hpush : ∀ {t}, t.WellFormed sha d → (push t).2.WellFormed sha d)
    (hfresh : fresh.WellFormed sha d) (hl : left.WellFormed sha d) (hr : right.WellFormed sha d)
    {res : Except MerkleTreeError Unit} {l r : MerkleTree}
    (h : pushIntoSubtrees push fresh left right = (res, l, r)) :
    l.WellFormed sha d ∧ r.WellFormed sha d := by
  unfold pushIntoSubtrees at h
  split at h
  next => cases h; exact ⟨hl, hr⟩
  next =>
    have hr' := hpush hr
    generalize push _ = p at h hr'
    cases h
    exact ⟨hl, hr'⟩
  next => cases h; exact ⟨hfresh, hr⟩
  next => cases h; exact ⟨hl, hfresh⟩
  next =>
    have hl' := hpush hl
    generalize hp : push _ = p at h hl'
    split at h <;> cases h
    next => exact ⟨hl', hr⟩
    next => exact ⟨hl', hfresh⟩
    next => exact ⟨hl', hr⟩
  next => cases h; exact ⟨hl, hr⟩

end Push

section PushNode
variable {elem hash : Hash256} {left right : MerkleTree} {d : Nat}

theorem pushLeaf_node_of_ok {l r : MerkleTree}
    (h : pushIntoSubtrees (fun t => pushLeaf sha elem t d) (create sha [elem] d) left right =
      (.ok (), l, r)) :
    pushLeaf sha elem (.node hash left right) (d + 1) =
      (.ok (), .node (hash32Concat sha (l.hash sha) (r.hash sha)) l r) := by
  rw [pushLeaf, h]

theorem pushLeaf_node_of_error {e : MerkleTreeError} {l r : MerkleTree}
    (h : pushIntoSubtrees (fun t => pushLeaf sha elem t d) (create sha [elem] d) left right =
      (.error e, l, r)) :
    pushLeaf sha elem (.node hash left right) (d + 1) = (.error e, .node hash l r) := by
  rw [pushLeaf, h]

/-- Two node subtrees: the leaf goes to the right one. -/
theorem pushLeaf_node_right_ok {r : MerkleTree} (hl : left.IsNode) (hr : right.IsNode)
    (hp : pushLeaf sha elem right d = (.ok (), r)) :
    pushLeaf sha elem (.node hash left right) (d + 1) =
      (.ok (), .node (hash32Concat sha (left.hash sha) (r.hash sha)) left r) := by
  obtain ⟨_, _, _, rfl⟩ := hl
  obtain ⟨_, _, _, rfl⟩ := hr
  exact pushLeaf_node_of_ok sha (by simp only [pushIntoSubtrees, hp])

theorem pushLeaf_node_right_error {e : MerkleTreeError} {r : MerkleTree} (hl : left.IsNode)
    (hr : right.IsNode) (hp : pushLeaf sha elem right d = (.error e, r)) :
    pushLeaf sha elem (.node hash left right) (d + 1) = (.error e, .node hash left r) := by
  obtain ⟨_, _, _, rfl⟩ := hl
  obtain ⟨_, _, _, rfl⟩ := hr
  exact pushLeaf_node_of_error sha (by simp only [pushIntoSubtrees, hp])

/-- A node and a zero subtree: the leaf goes to the left one while it has room. -/
theorem pushLeaf_node_left_ok {k : Nat} {l : MerkleTree} (hl : left.IsNode) (hr : right = .zero k)
    (hp : pushLeaf sha elem left d = (.ok (), l)) :
    pushLeaf sha elem (.node hash left right) (d + 1) =
      (.ok (), .node (hash32Concat sha (l.hash sha) (right.hash sha)) l right) := by
  obtain ⟨_, _, _, rfl⟩ := hl
  subst hr
  exact pushLeaf_node_of_ok sha (by simp only [pushIntoSubtrees, hp])

/-- A full left subtree sends the leaf to a fresh right one. -/
theorem pushLeaf_node_left_full {k : Nat} {l : MerkleTree} (hl : left.IsNode)
    (hr : right = .zero k) (hp : pushLeaf sha elem left d = (.error .merkleTreeFull, l)) :
    pushLeaf sha elem (.node hash left right) (d + 1) =
      (.ok (), .node (hash32Concat sha (l.hash sha) ((create sha [elem] d).hash sha)) l
        (create sha [elem] d)) := by
  obtain ⟨_, _, _, rfl⟩ := hl
  subst hr
  exact pushLeaf_node_of_ok sha (by simp only [pushIntoSubtrees, hp])

/-- A leaf and a zero subtree: the leaf goes to a fresh right one. -/
theorem pushLeaf_node_leaf_zero {a : Hash256} {k : Nat} :
    pushLeaf sha elem (.node hash (.leaf a) (.zero k)) (d + 1) =
      (.ok (), .node (hash32Concat sha a ((create sha [elem] d).hash sha)) (.leaf a)
        (create sha [elem] d)) := rfl

/-- Two leaves: the node is full. -/
theorem pushLeaf_node_leaf_leaf {a b : Hash256} :
    pushLeaf sha elem (.node hash (.leaf a) (.leaf b)) (d + 1) =
      (.error .merkleTreeFull, .node hash (.leaf a) (.leaf b)) := rfl

end PushNode

/-- A failed push changes nothing: the source returns each error before it assigns to the
tree, and the recursive pushes fail the same way. -/
theorem pushLeaf_error (elem : Hash256) : ∀ {d : Nat} {t : MerkleTree} {e : MerkleTreeError}
    {t' : MerkleTree}, pushLeaf sha elem t d = (.error e, t') → t' = t
  | 0, _, _, _, h => by cases h; rfl
  | _ + 1, .leaf _, _, _, h => by cases h; rfl
  | _ + 1, .zero _, _, _, h => by cases h
  | d + 1, .node hash left right, e, t', h => by
    rw [pushLeaf] at h
    split at h
    next => cases h
    next hp =>
      cases h
      obtain ⟨rfl, rfl⟩ := pushIntoSubtrees_error (fun hq => pushLeaf_error elem hq) hp
      rfl

/-- `push_leaf` keeps a tree well formed: the hashes it recomputes on the way down are those of
the new subtrees, and where it fails nothing changed. -/
theorem wellFormed_pushLeaf (elem : Hash256) : ∀ {d : Nat} {t : MerkleTree},
    t.WellFormed sha d → (pushLeaf sha elem t d).2.WellFormed sha d
  | 0, _, h => h
  | d + 1, .zero _, _ => wellFormed_create sha [elem] (d + 1)
  | d + 1, .node hash left right, ⟨hl, hr, hh⟩ => by
    rw [pushLeaf]
    split
    next hp =>
      obtain ⟨hl', hr'⟩ := pushIntoSubtrees_wellFormed sha (fun ht => wellFormed_pushLeaf elem ht)
        (wellFormed_create sha [elem] d) hl hr hp
      exact ⟨hl', hr', rfl⟩
    next hp =>
      obtain ⟨rfl, rfl⟩ := pushIntoSubtrees_error (fun hq => pushLeaf_error sha elem hq) hp
      exact ⟨hl, hr, hh⟩

theorem wellFormed_pushLeaf_at_zero :
    (MerkleTree.zero 1).WellFormed (fun _ => Hash256.zero) 1 ∧
      (pushLeaf (fun _ => Hash256.zero) Hash256.zero (.zero 1) 1).2.WellFormed
        (fun _ => Hash256.zero) 1 :=
  ⟨rfl, wellFormed_pushLeaf (fun _ => Hash256.zero) Hash256.zero rfl⟩

/-- A push into a created tree holding `2 ^ d` leaves fails with `MerkleTreeFull` and leaves the
tree as it was. Both subtrees are full, so the push goes right until two leaves meet. -/
theorem pushLeaf_create_full (elem : Hash256) : ∀ {d : Nat} {leaves : List Hash256}, 1 ≤ d →
    leaves.length = 2 ^ d →
    pushLeaf sha elem (create sha leaves d) d = (.error .merkleTreeFull, create sha leaves d)
  | 1, leaves, _, hlen => by
    match leaves, hlen with
    | [a, b], _ => rfl
  | e + 2, leaves, _, hlen => by
    have hc : 2 ^ (e + 2) = 2 ^ (e + 1) + 2 ^ (e + 1) := by rw [Nat.pow_succ]; omega
    have hpos : 0 < 2 ^ (e + 1) := Nat.two_pow_pos _
    have hne : leaves ≠ [] := List.ne_nil_of_length_pos (by omega)
    have htake : (leaves.take (2 ^ (e + 1))).length = 2 ^ (e + 1) := by simp; omega
    have hdrop : (leaves.drop (2 ^ (e + 1))).length = 2 ^ (e + 1) := by simp; omega
    rw [create_succ sha hne]
    exact pushLeaf_node_right_error sha
      (isNode_create sha (List.ne_nil_of_length_pos (by omega)) (by omega))
      (isNode_create sha (List.ne_nil_of_length_pos (by omega)) (by omega))
      (pushLeaf_create_full elem (by omega) hdrop)

/-- A push into a created tree that is not full is the tree created over one more leaf. The
cases follow where the new leaf lands: in the left subtree, in the fresh right subtree just
after a full left one, or in a right subtree already begun. -/
theorem pushLeaf_create (elem : Hash256) : ∀ {d : Nat} {leaves : List Hash256}, 1 ≤ d →
    leaves.length < 2 ^ d →
    pushLeaf sha elem (create sha leaves d) d = (.ok (), create sha (leaves ++ [elem]) d)
  | e + 1, [], _, _ => by simp [pushLeaf]
  | e + 1, a :: as, _, hlen => by
    have hne : a :: as ++ [elem] ≠ [] := by simp
    rw [create_succ sha (List.cons_ne_nil a as), create_succ sha hne]
    have hlen' : (a :: as ++ [elem]).length = (a :: as).length + 1 := by simp
    rcases Nat.lt_trichotomy (a :: as).length (2 ^ e) with hlt | heq | hgt
    · -- the leaf lands in the left subtree, which is not full
      have he : 1 ≤ e := Nat.one_le_iff_ne_zero.mpr fun he => by subst he; simp at hlt
      rw [List.take_of_length_le (Nat.le_of_lt hlt), List.drop_eq_nil_of_le (Nat.le_of_lt hlt),
        List.take_of_length_le (by omega), List.drop_eq_nil_of_le (by omega), create_nil]
      exact pushLeaf_node_left_ok sha (isNode_create sha (List.cons_ne_nil a as) he) rfl
        (pushLeaf_create elem he hlt)
    · -- the left subtree is full: the leaf starts the right one
      rw [List.take_of_length_le heq.le, List.drop_eq_nil_of_le heq.le,
        List.take_append_of_le_length heq.ge, List.take_of_length_le heq.le,
        List.drop_append_of_le_length heq.ge, List.drop_eq_nil_of_le heq.le, List.nil_append,
        create_nil]
      rcases Nat.eq_zero_or_pos e with rfl | he
      · obtain rfl : as = [] := List.length_eq_zero_iff.mp (by simpa using heq)
        rfl
      · exact pushLeaf_node_left_full sha (isNode_create sha (List.cons_ne_nil a as) he) rfl
          (pushLeaf_create_full sha elem he heq)
    · -- the leaf joins the right subtree, begun and not full
      have hpow : 2 ^ (e + 1) = 2 ^ e + 2 ^ e := by rw [Nat.pow_succ]; omega
      have hpos : 0 < 2 ^ e := Nat.two_pow_pos e
      have he : 1 ≤ e := Nat.one_le_iff_ne_zero.mpr fun he => by
        subst he
        rw [Nat.pow_zero] at hgt
        rw [Nat.zero_add, Nat.pow_one] at hlen
        omega
      have htake : (a :: as).take (2 ^ e) ≠ [] :=
        List.ne_nil_of_length_pos (by rw [List.length_take]; omega)
      have hdrop : (a :: as).drop (2 ^ e) ≠ [] :=
        List.ne_nil_of_length_pos (by rw [List.length_drop]; omega)
      rw [List.take_append_of_le_length hgt.le, List.drop_append_of_le_length hgt.le]
      exact pushLeaf_node_right_ok sha (isNode_create sha htake he) (isNode_create sha hdrop he)
        (pushLeaf_create elem he (by rw [List.length_drop]; omega))

/-- The subtrees of a well-formed tree, and how they split its leaves. -/
theorem leftAndRightBranches_of_wellFormed {t : MerkleTree} {d : Nat}
    (h : t.WellFormed sha (d + 1)) :
    ∃ l r, t.leftAndRightBranches = some (l, r) ∧ l.WellFormed sha d ∧ r.WellFormed sha d ∧
      (∀ i < 2 ^ d, t.leafAt (d + 1) i = l.leafAt d i) ∧
      ∀ i, t.leafAt (d + 1) (2 ^ d + i) = r.leafAt d i := by
  match t, h with
  | .zero _, rfl => exact ⟨.zero d, .zero d, rfl, rfl, rfl, fun _ _ => rfl, fun _ => rfl⟩
  | .node _ l r, ⟨hl, hr, _⟩ =>
    exact ⟨l, r, rfl, hl, hr, fun i hi => by simp [leafAt, hi], fun i => by simp [leafAt]⟩

/-- The loop of `generate_proof` on a well-formed tree of height `k` reaches the leaf at the
index's low `k` bits and gathers, from the top, the library's branch of that leaf. -/
theorem generateProofLoop_of_wellFormed (index : Nat) : ∀ (k : Nat) {t : MerkleTree}
    (proof : List Hash256), t.WellFormed sha k →
    ∃ bottom, generateProofLoop sha index t k proof =
        some (bottom, proof ++ (branch (hash32Concat sha) k (t.leafAt k) (index % 2 ^ k)).reverse) ∧
      bottom.hash sha = t.leafAt k (index % 2 ^ k)
  | 0, t, proof, h => ⟨t, by simp [generateProofLoop, branch], by
      rw [hash_eq_treeRoot sha h, Nat.pow_zero, Nat.mod_one, treeRoot_zero]⟩
  | k + 1, t, proof, h => by
    obtain ⟨l, r, hlr, hl, hr, hleft, hright⟩ := leftAndRightBranches_of_wellFormed sha h
    -- the index within this subtree is its index within the half plus the half it is in
    have hmod : index % 2 ^ (k + 1) = index % 2 ^ k + 2 ^ k * (index / 2 ^ k % 2) :=
      Nat.mod_pow_succ
    have hlow : index % 2 ^ k < 2 ^ k := Nat.mod_lt _ (Nat.two_pow_pos k)
    simp only [generateProofLoop, hlr]
    split
    case isTrue hbit =>
      have hb : index / 2 ^ k % 2 = 1 := by
        rwa [shiftRight_and_one_eq_one_iff, Nat.testBit_eq_decide_div_mod_eq,
          decide_eq_true_iff] at hbit
      obtain ⟨bottom, hloop, hbottom⟩ :=
        generateProofLoop_of_wellFormed index k (proof ++ [l.hash sha]) hr
      have hidx : index % 2 ^ (k + 1) = 2 ^ k + index % 2 ^ k := by rw [hmod, hb]; omega
      refine ⟨bottom, ?_, ?_⟩
      · rw [hloop, hidx, branch, if_pos (Nat.le_add_right _ _), Nat.add_sub_cancel_left,
          branch_congr k _ fun j _ => hright j, treeRoot_congr k hleft, ← hash_eq_treeRoot sha hl]
        simp
      · rw [hbottom, hidx, hright]
    case isFalse hbit =>
      have hb : index / 2 ^ k % 2 = 0 := by
        rw [shiftRight_and_one_eq_one_iff, Nat.testBit_eq_decide_div_mod_eq,
          decide_eq_true_iff] at hbit
        omega
      obtain ⟨bottom, hloop, hbottom⟩ :=
        generateProofLoop_of_wellFormed index k (proof ++ [r.hash sha]) hl
      have hidx : index % 2 ^ (k + 1) = index % 2 ^ k := by rw [hmod, hb]; omega
      refine ⟨bottom, ?_, ?_⟩
      · rw [hloop, hidx, branch, if_neg (Nat.not_le.mpr hlow), branch_congr k _ hleft,
          treeRoot_congr k fun j _ => hright j, ← hash_eq_treeRoot sha hr]
        simp
      · rw [hbottom, hidx, hleft _ hlow]

/-- On a well-formed tree, `generate_proof` never panics: it returns the leaf at the index's
low `d` bits and the library's branch of that leaf. -/
theorem generateProof_of_wellFormed {t : MerkleTree} {d : Nat} (h : t.WellFormed sha d)
    (index : Nat) :
    generateProof sha t index d = some (t.leafAt d (index % 2 ^ d),
      branch (hash32Concat sha) d (t.leafAt d) (index % 2 ^ d)) := by
  obtain ⟨bottom, hloop, hbottom⟩ := generateProofLoop_of_wellFormed sha index d [] h
  simp [generateProof, hloop, hbottom]

/-- The proof a created tree gives is the library's branch over its zero-padded leaves. -/
theorem generateProof_create (leaves : List Hash256) {d index : Nat} (hi : index < 2 ^ d) :
    generateProof sha (create sha leaves d) index d = some (leaves.getD index Hash256.zero,
      branch (hash32Concat sha) d (fun j => leaves.getD j Hash256.zero) index) := by
  rw [generateProof_of_wellFormed sha (wellFormed_create sha leaves d), Nat.mod_eq_of_lt hi,
    leafAt_create sha leaves d hi, branch_congr d index fun j hj => leafAt_create sha leaves d hj]

end MerkleTree

end Lighthouse.MerkleProof
