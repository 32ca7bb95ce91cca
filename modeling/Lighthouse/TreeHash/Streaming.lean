import Lighthouse.TreeHash.MerkleHasher
import Mathlib.Tactic.Ring
import Lighthouse.Foundations.CacheRefinement

/-! What the streaming hasher computes. Fix the leaf at every node id of the last level
(`L : Nat → Hash256`); `nodeValue L h x` is then the root of the subtree of height `h` at node
`x`. When node `x` of height `h` is the next to be placed, the hasher holds exactly one half node
for each ancestor whose right subtree holds `x`, with the value of its left child: that stack
is `stackOf L h x`. Placing the value of `x` (`placeNode`, the dispatch of `process_leaf`) takes
that stack to the one for `x + 1`, and sets the root when `x + 1` is on the left edge
(`placeNode_stackOf`). Leaves and the zero subtrees of `finish` are both placements. -/
namespace Lighthouse.TreeHash
open MerkleTree Ssz.Bitfield

namespace MerkleHasher
variable (sha : List UInt8 → Hash256)

/-- The root of the subtree of height `h` at node `x`, whose leaves are `L` at the ids
`x * 2 ^ h, …`. -/
def nodeValue (L : Nat → Hash256) (h x : Nat) : Hash256 :=
  treeRoot (hash32Concat sha) h fun i => L (x * 2 ^ h + i)

/-- The half nodes before node `x` of height `h` is placed: for each ancestor whose right
subtree holds `x`, deepest first, the value of its left child. -/
def stackOf (L : Nat → Hash256) (h x : Nat) : List HalfNode :=
  if 2 ≤ x then
    if x % 2 = 1 then HalfNode.new (x / 2) (nodeValue sha L h (x - 1)) :: stackOf L (h + 1) (x / 2)
    else stackOf L (h + 1) (x / 2)
  else []
termination_by x
decreasing_by all_goals omega

/-- Where `process_leaf` puts a value for node `c`: the root, a new half node for a left
child, or the completion of the parent for a right child. -/
def placeNode (m : MerkleHasher) (c : Nat) (v : Hash256) : MerkleHasher :=
  if c = 1 then { m with root := some v }
  else if c % 2 = 0 then m.processLeftNode c v
  else m.processRightNode sha c v

variable {sha}

@[simp] theorem finish_new (id : Nat) (l r : Hash256) :
    (HalfNode.new id l).finish sha r = hash32Concat sha l r := rfl

@[simp] theorem id_new (id : Nat) (l : Hash256) : (HalfNode.new id l).id = id := rfl

theorem processLeaf_eq (m : MerkleHasher) (leaf : Hash256) :
    m.processLeaf sha leaf =
      if m.nextLeaf > 2 ^ (m.depth + 1) then .error (.maximumLeavesExceeded (2 ^ (m.depth + 1)))
      else .ok { placeNode sha m m.nextLeaf leaf with nextLeaf := m.nextLeaf + 1 } := by
  unfold processLeaf
  dsimp only
  by_cases hmax : m.nextLeaf > 2 ^ (m.depth + 1)
  · rw [if_pos hmax, if_pos hmax]
    rfl
  · rw [if_neg hmax, if_neg hmax]
    unfold placeNode
    split_ifs <;> rfl

section Values
variable (L : Nat → Hash256)

@[simp] theorem nodeValue_zero (x : Nat) : nodeValue sha L 0 x = L x := by
  simp [nodeValue]

/-- A node's value hashes its children's. -/
theorem nodeValue_succ (h x : Nat) :
    nodeValue sha L (h + 1) x =
      hash32Concat sha (nodeValue sha L h (2 * x)) (nodeValue sha L h (2 * x + 1)) := by
  unfold nodeValue
  rw [treeRoot_succ]
  -- The right child's leaves start `2 ^ h` after the left child's.
  have hleft : x * 2 ^ (h + 1) = 2 * x * 2 ^ h := by rw [Nat.pow_succ]; ring
  have hright : ∀ i, 2 * x * 2 ^ h + (2 ^ h + i) = (2 * x + 1) * 2 ^ h + i := by
    intro i
    ring
  simp only [hleft, hright]

/-- A subtree whose leaves are all zero has the zero hash of its height as its value. -/
theorem nodeValue_of_zero {h x : Nat} (hz : ∀ y, x * 2 ^ h ≤ y → L y = Hash256.zero) :
    nodeValue sha L h x = zeroHashes sha h :=
  treeRoot_eq_zeroRoot h fun _ _ => hz _ (Nat.le_add_right _ _)

@[simp] theorem stackOf_one (h : Nat) : stackOf sha L h 1 = [] := by
  rw [stackOf]
  simp

theorem stackOf_left {x : Nat} (hx : 1 ≤ x) (h : Nat) :
    stackOf sha L h (2 * x) = stackOf sha L (h + 1) x := by
  rw [stackOf, if_pos (by omega), if_neg (by omega)]
  congr 1
  omega

theorem stackOf_right {x : Nat} (hx : 1 ≤ x) (h : Nat) :
    stackOf sha L h (2 * x + 1) = HalfNode.new x (nodeValue sha L h (2 * x)) :: stackOf sha L (h + 1) x := by
  rw [stackOf, if_pos (by omega), if_pos (by omega)]
  have hx2 : (2 * x + 1) / 2 = x := by omega
  rw [hx2, Nat.add_sub_cancel]

/-- The stack holds one half node for each right ancestor, in the same order. -/
theorem map_id_stackOf : ∀ (h x : Nat), (stackOf sha L h x).map HalfNode.id = rightAncestors x
  | h, x => by
    rw [stackOf, rightAncestors]
    split_ifs with h₁ h₂
    · simp [map_id_stackOf (h + 1) (x / 2)]
    · exact map_id_stackOf (h + 1) (x / 2)
    · rfl
termination_by _ x => x
decreasing_by all_goals omega

theorem stackOf_eq_nil {h x : Nat} (hx : rightAncestors x = []) : stackOf sha L h x = [] :=
  List.map_eq_nil_iff.mp ((map_id_stackOf L h x).trans hx)

/-- Every node of a stack that is not empty is the odd part of itself times a power of two:
the stack of `x` is the stack of its odd part, placed that many heights higher. -/
theorem stackOf_oddPart : ∀ {x : Nat}, 1 ≤ x → rightAncestors x ≠ [] → ∀ h, ∃ y j,
    y % 2 = 1 ∧ 3 ≤ y ∧ x = y * 2 ^ j ∧ stackOf sha L h x = stackOf sha L (h + j) y
  | x, hx, hne, h => by
    by_cases hodd : x % 2 = 1
    · -- An odd node other than the root is its own odd part.
      have hx3 : 3 ≤ x := by
        by_contra hlt
        have : x = 1 := by omega
        exact hne (by rw [this, rightAncestors_one])
      exact ⟨x, 0, hodd, hx3, by simp, by simp⟩
    · have hhalf : x = 2 * (x / 2) := by omega
      have hx2 : 1 ≤ x / 2 := by
        by_contra hlt
        have : x = 0 := by omega
        omega
      have hne' : rightAncestors (x / 2) ≠ [] := by
        rwa [hhalf, rightAncestors_left hx2] at hne
      obtain ⟨y, j, hy, hy3, hxy, hst⟩ := stackOf_oddPart hx2 hne' (h + 1)
      refine ⟨y, j + 1, hy, hy3, ?_, ?_⟩
      · rw [hhalf, hxy, Nat.pow_succ]
        ring
      · rw [hhalf, stackOf_left L hx2, hst, Nat.add_assoc, Nat.add_comm 1 j]
termination_by x => x
decreasing_by omega

end Values

section Placement

/-- A left child is pushed: no half node on the stack is its parent. -/
theorem rightNodeLoop_of_left {q : Nat} (hq : 2 ≤ q) (heven : q % 2 = 0) (stack : List HalfNode)
    (hids : stack.map HalfNode.id = rightAncestors q) (v : Hash256) (root : Option Hash256) :
    rightNodeLoop sha stack (getParent q) v root = (HalfNode.new (getParent q) v :: stack, root) := by
  cases stack with
  | nil => rfl
  | cons node rest =>
    -- The deepest right ancestor of a left child lies above its parent.
    have hmem : node.id ∈ rightAncestors (q / 2) := by
      rw [← rightAncestors_left (c := q / 2) (by omega), show 2 * (q / 2) = q by omega, ← hids]
      exact List.mem_map_of_mem List.mem_cons_self
    have hlt := (lt_of_mem_rightAncestors hmem).2
    rw [rightNodeLoop, if_neg (show node.id ≠ getParent q from Nat.ne_of_lt hlt)]

/-- The loop of `process_right_node` from a stack of right ancestors places the value where it
belongs. -/
theorem rightNodeLoop_eq_placeNode {q : Nat} (hq : 2 ≤ q) (m : MerkleHasher)
    (hids : m.halfNodes.map HalfNode.id = rightAncestors q) (v : Hash256) :
    { m with halfNodes := (rightNodeLoop sha m.halfNodes (getParent q) v m.root).1,
             root := (rightNodeLoop sha m.halfNodes (getParent q) v m.root).2 } =
      placeNode sha m q v := by
  unfold placeNode
  rw [if_neg (by omega)]
  split_ifs with heven
  · rw [rightNodeLoop_of_left hq heven _ hids]
    rfl
  · rfl

variable (L : Nat → Hash256)

/-- Placing the value of node `x` on its stack gives the stack of `x + 1`, and the root once
`x + 1` is on the left edge of the tree, that is once `x` ends a level. -/
theorem placeNode_stackOf : ∀ {x : Nat}, 1 ≤ x → ∀ (h : Nat) (m : MerkleHasher),
    m.halfNodes = stackOf sha L h x →
    placeNode sha m x (nodeValue sha L h x) =
      { m with halfNodes := stackOf sha L h (x + 1),
               root := if rightAncestors (x + 1) = [] then some (nodeValue sha L (h + Nat.log2 x) 1)
                 else m.root }
  | x, hx, h, m, hm => by
    by_cases hx1 : x = 1
    · -- The root itself.
      subst hx1
      have h2 : stackOf sha L h 2 = [] := by rw [stackOf_left L (le_refl 1), stackOf_one]
      simp only [placeNode, if_true, h2, show rightAncestors (1 + 1) = [] from
        rightAncestors_left (c := 1) (le_refl 1) ▸ rightAncestors_one]
      have hlog : Nat.log2 1 = 0 := by decide
      cases m
      simp_all
    · by_cases heven : x % 2 = 0
      · -- A left child: its parent waits for the right child.
        have hx2 : x = 2 * (x / 2) := by omega
        have hq : 1 ≤ x / 2 := by omega
        have hnext : stackOf sha L h (x + 1) =
            HalfNode.new (x / 2) (nodeValue sha L h x) :: stackOf sha L (h + 1) (x / 2) := by
          conv_lhs => rw [hx2]
          rw [stackOf_right L hq, ← hx2]
        have hne : rightAncestors (x + 1) ≠ [] := by
          rw [hx2, rightAncestors_right hq]
          exact List.cons_ne_nil _ _
        have hstack : m.halfNodes = stackOf sha L (h + 1) (x / 2) := by
          rw [hm, hx2, stackOf_left L hq, ← hx2]
        simp only [placeNode, if_neg hx1, if_pos heven, processLeftNode, getParent, hnext,
          if_neg hne, hstack]
      · -- A right child completes its parent, which is then placed one height up.
        have hx2 : x = 2 * (x / 2) + 1 := by omega
        have hq : 1 ≤ x / 2 := by omega
        have hpop : m.halfNodes =
            HalfNode.new (x / 2) (nodeValue sha L h (x - 1)) :: stackOf sha L (h + 1) (x / 2) := by
          rw [hm, hx2, stackOf_right L hq, ← hx2, show 2 * (x / 2) = x - 1 by omega]
        have hparent : hash32Concat sha (nodeValue sha L h (x - 1)) (nodeValue sha L h x) =
            nodeValue sha L (h + 1) (x / 2) := by
          rw [nodeValue_succ, show 2 * (x / 2) = x - 1 by omega, show x - 1 + 1 = x by omega]
        have hlog : h + Nat.log2 x = h + 1 + Nat.log2 (x / 2) := by
          rw [Nat.log2_def x, if_pos (by omega)]
          omega
        have hnext : stackOf sha L h (x + 1) = stackOf sha L (h + 1) (x / 2 + 1) := by
          rw [show x + 1 = 2 * (x / 2 + 1) by omega, stackOf_left L (by omega)]
        have hanc : rightAncestors (x + 1) = rightAncestors (x / 2 + 1) := by
          rw [show x + 1 = 2 * (x / 2 + 1) by omega, rightAncestors_left (by omega)]
        -- The first round of the loop pops the parent's half node.
        have hloop : rightNodeLoop sha m.halfNodes (getParent x) (nodeValue sha L h x) m.root =
            if x / 2 = 1 then (stackOf sha L (h + 1) (x / 2), some (nodeValue sha L (h + 1) (x / 2)))
            else rightNodeLoop sha (stackOf sha L (h + 1) (x / 2)) (getParent (x / 2))
              (nodeValue sha L (h + 1) (x / 2)) m.root := by
          rw [hpop]
          simp only [rightNodeLoop, getParent, id_new, if_true, finish_new, hparent]
        have hplace : placeNode sha m x (nodeValue sha L h x) =
            { m with halfNodes := (rightNodeLoop sha m.halfNodes (getParent x) (nodeValue sha L h x) m.root).1,
                     root := (rightNodeLoop sha m.halfNodes (getParent x) (nodeValue sha L h x) m.root).2 } := by
          simp only [placeNode, if_neg hx1, if_neg heven]
          rfl
        rw [hplace, hloop, hnext, hanc, hlog]
        by_cases hq1 : x / 2 = 1
        · -- The parent is the root.
          have hroot : rightAncestors (x / 2 + 1) = [] := by
            rw [hq1]
            exact rightAncestors_two_pow 1
          simp only [if_pos hq1, if_pos hroot]
          rw [hq1, stackOf_one, show Nat.log2 1 = 0 by decide, stackOf_left L (le_refl 1), stackOf_one]
        · -- The parent is placed in turn, from the stack below its half node.
          let m' : MerkleHasher := { m with halfNodes := stackOf sha L (h + 1) (x / 2) }
          have hdisp := @rightNodeLoop_eq_placeNode sha (x / 2) (by omega) m'
            (map_id_stackOf L (h + 1) (x / 2)) (nodeValue sha L (h + 1) (x / 2))
          have ih := placeNode_stackOf hq (h + 1) m' rfl
          have hh : (rightNodeLoop sha (stackOf sha L (h + 1) (x / 2)) (getParent (x / 2))
              (nodeValue sha L (h + 1) (x / 2)) m.root).1 = stackOf sha L (h + 1) (x / 2 + 1) :=
            congrArg MerkleHasher.halfNodes (hdisp.trans ih)
          have hr : (rightNodeLoop sha (stackOf sha L (h + 1) (x / 2)) (getParent (x / 2))
              (nodeValue sha L (h + 1) (x / 2)) m.root).2 =
              if rightAncestors (x / 2 + 1) = [] then
                some (nodeValue sha L (h + 1 + Nat.log2 (x / 2)) 1) else m.root :=
            congrArg MerkleHasher.root (hdisp.trans ih)
          simp only [if_neg hq1, hh, hr]
termination_by x => x

end Placement

section Runs
variable (L : Nat → Hash256)

/-- Leaves written from node `c` on are placements at height zero, one after the other. The
root is set by the last leaf only if it ends the level: no earlier leaf may reach the left edge. -/
theorem foldlM_processLeaf : ∀ (ls : List Hash256) {c : Nat} (m : MerkleHasher), 1 ≤ c →
    m.nextLeaf = c → m.halfNodes = stackOf sha L 0 c →
    (∀ i (hi : i < ls.length), L (c + i) = ls[i]) → c + ls.length ≤ 2 ^ (m.depth + 1) + 1 →
    (∀ i, 0 < i → i < ls.length → rightAncestors (c + i) ≠ []) →
    ls.foldlM (processLeaf sha) m =
      .ok { m with nextLeaf := c + ls.length, halfNodes := stackOf sha L 0 (c + ls.length),
                   root := if 0 < ls.length ∧ rightAncestors (c + ls.length) = [] then
                     some (nodeValue sha L (Nat.log2 (c + ls.length - 1)) 1) else m.root }
  | [], c, m, _, hnext, hstack, _, _, _ => by
    cases m
    simp_all [pure, Except.pure]
  | leaf :: rest, c, m, hc, hnext, hstack, hleaves, hcap, hedge => by
    have hleaf : leaf = nodeValue sha L 0 c := by
      have h0 := hleaves 0 (by simp)
      rw [Nat.add_zero, List.getElem_cons_zero] at h0
      rw [nodeValue_zero, h0]
    have hlen : c + (leaf :: rest).length = c + 1 + rest.length := by
      rw [List.length_cons]
      omega
    -- The first leaf is placed at `c`; the rest start from `c + 1`.
    let m₁ : MerkleHasher :=
      { m with nextLeaf := c + 1, halfNodes := stackOf sha L 0 (c + 1),
               root := if rightAncestors (c + 1) = [] then some (nodeValue sha L (Nat.log2 c) 1)
                 else m.root }
    have hfirst : m.processLeaf sha leaf = .ok m₁ := by
      rw [processLeaf_eq, if_neg (by rw [List.length_cons] at hcap; omega), hnext, hleaf,
        placeNode_stackOf L hc 0 m (hnext ▸ hstack), Nat.zero_add]
    have hrest := foldlM_processLeaf rest (c := c + 1) m₁ (by omega) rfl rfl
      (fun i hi => by
        have := hleaves (i + 1) (by rw [List.length_cons]; omega)
        rwa [List.getElem_cons_succ, ← Nat.add_assoc, Nat.add_right_comm] at this)
      (by
        show c + 1 + rest.length ≤ 2 ^ (m.depth + 1) + 1
        rw [List.length_cons] at hcap
        omega)
      (fun i hi hlt => by
        have := hedge (i + 1) (by omega) (by rw [List.length_cons]; omega)
        rwa [← Nat.add_assoc, Nat.add_right_comm] at this)
    rw [List.foldlM_cons, hfirst, CacheRefinement.ok_bind, hrest, hlen]
    -- Only the last leaf can set the root.
    rcases Nat.eq_zero_or_pos rest.length with hnil | hpos
    · simp [m₁, hnil]
    · have hne : rightAncestors (c + 1) ≠ [] := hedge 1 (by omega) (by simp; omega)
      simp [m₁, hpos, hne]

end Runs

section Chunking

section ExceptSteps
variable {ε ε' α β : Type} (f : α → β) (g : ε → ε')

@[simp] theorem map_ok' (a : α) : (Except.ok a : Except ε α).map f = .ok (f a) := rfl
@[simp] theorem map_error' (e : ε) : (Except.error e : Except ε α).map f = .error e := rfl
@[simp] theorem mapError_ok' (a : α) : (Except.ok a : Except ε α).mapError g = .ok a := rfl
@[simp] theorem mapError_error' (e : ε) : (Except.error e : Except ε α).mapError g = .error (g e) := rfl
@[simp] theorem error_bind' (e : ε) (k : α → Except ε β) : (Except.error e >>= k) = .error e := rfl

end ExceptSteps

/-- The hasher with what is left of `s` after its whole leaves as its buffer. -/
def withTail (m : MerkleHasher) (s : List UInt8) : MerkleHasher :=
  { m with buffer := tail32 s, buffer_lt := length_tail32_lt s }

theorem withTail_congr (m : MerkleHasher) {s t : List UInt8} (h : tail32 s = tail32 t) :
    withTail m s = withTail m t := by
  simp only [withTail, h]

/-- `process_leaf` neither reads nor writes the buffer. -/
theorem processLeaf_buffer (m : MerkleHasher) (b : List UInt8) (hb : b.length < 32)
    (leaf : Hash256) :
    ({ m with buffer := b, buffer_lt := hb } : MerkleHasher).processLeaf sha leaf =
      (m.processLeaf sha leaf).map fun m' => { m' with buffer := b, buffer_lt := hb } := by
  rw [processLeaf_eq, processLeaf_eq]
  split_ifs
  · rfl
  · unfold placeNode
    split_ifs <;> rfl

theorem foldlM_processLeaf_buffer (b : List UInt8) (hb : b.length < 32) :
    ∀ (ls : List Hash256) (m : MerkleHasher),
      ls.foldlM (processLeaf sha) ({ m with buffer := b, buffer_lt := hb } : MerkleHasher) =
        (ls.foldlM (processLeaf sha) m).map fun m' => { m' with buffer := b, buffer_lt := hb }
  | [], _ => rfl
  | leaf :: rest, m => by
    rw [List.foldlM_cons, List.foldlM_cons, processLeaf_buffer]
    cases m.processLeaf sha leaf with
    | error e => rfl
    | ok m' => exact foldlM_processLeaf_buffer b hb rest m'

theorem buffer_of_processLeaf {m m' : MerkleHasher} {leaf : Hash256}
    (h : m.processLeaf sha leaf = .ok m') : m'.buffer = m.buffer := by
  rw [processLeaf_eq] at h
  split_ifs at h
  cases h
  unfold placeNode
  split_ifs <;> rfl

theorem writeLoop_of_lt {bytes : List UInt8} {ptr : Nat} (h : bytes.length < ptr) (m : MerkleHasher) :
    writeLoop sha bytes ptr m = .ok m := by
  rw [writeLoop, dif_neg (by omega)]
  rfl

/-- The loop of `write` cuts the buffer and the bytes not yet read into whole leaves, processes
them, and keeps what is left in the buffer. -/
theorem writeLoop_eq (bytes : List UInt8) : ∀ (ptr : Nat) (m : MerkleHasher), ptr ≤ bytes.length →
    writeLoop sha bytes ptr m =
      ((wholeLeaves (m.buffer ++ bytes.drop ptr)).foldlM (processLeaf sha) m).map
        (withTail · (m.buffer ++ bytes.drop ptr))
  | ptr, m, hptr => by
    have hb := m.buffer_lt
    have hsl : ((bytes.drop ptr).take 32).length = min 32 (bytes.drop ptr).length := List.length_take
    have hdl : (bytes.drop ptr).length = bytes.length - ptr := List.length_drop
    rw [writeLoop, dif_pos hptr]
    dsimp only
    split_ifs with hleaf hbuf
    · -- An empty buffer and a whole slice: the slice is the leaf.
      have hnil : m.buffer = [] := List.isEmpty_iff.mp hleaf.1
      have hlen : 32 ≤ (bytes.drop ptr).length := by
        have := hleaf.2
        omega
      rw [hnil, List.nil_append, wholeLeaves_of_le hlen, List.foldlM_cons]
      cases hp : m.processLeaf sha ⟨(bytes.drop ptr).take 32, hleaf.2⟩ with
      | error e => rfl
      | ok m' =>
        have hrest := writeLoop_eq bytes (ptr + 32) m' (by omega)
        rw [buffer_of_processLeaf hp, hnil, List.nil_append, ← List.drop_drop] at hrest
        rw [CacheRefinement.ok_bind, hrest]
        congr 1
        funext m''
        exact withTail_congr m'' (tail32_of_le hlen).symm
    · -- The slice fits in the buffer: this is the last round.
      have hshort : (bytes.drop ptr).length < 32 := by omega
      have hslice : (bytes.drop ptr).take 32 = bytes.drop ptr := List.take_of_length_le (by omega)
      have hs : (m.buffer ++ bytes.drop ptr).length < 32 := by
        rw [List.length_append]
        omega
      rw [writeLoop_of_lt (by omega), wholeLeaves_of_lt hs, List.foldlM_nil]
      show Except.ok _ = Except.ok (withTail m _)
      simp only [withTail, tail32_of_lt hs, hslice]
    · -- The buffer is completed into a leaf from the front of the slice.
      have hlong : 32 ≤ (m.buffer ++ bytes.drop ptr).length := by
        rw [List.length_append]
        omega
      have hleafEq : m.buffer ++ ((bytes.drop ptr).take 32).take (32 - m.buffer.length) =
          (m.buffer ++ bytes.drop ptr).take 32 := by
        rw [List.take_append, List.take_of_length_le (l := m.buffer) (by omega), List.take_take,
          Nat.min_eq_left (by omega)]
      have hdrop : (m.buffer ++ bytes.drop ptr).drop 32 = bytes.drop (ptr + (32 - m.buffer.length)) := by
        rw [List.drop_append, List.drop_of_length_le (l := m.buffer) (by omega), List.nil_append,
          List.drop_drop]
      rw [wholeLeaves_of_le hlong, List.foldlM_cons]
      simp only [hleafEq]
      cases hp : m.processLeaf sha ⟨(m.buffer ++ bytes.drop ptr).take 32, by simp; omega⟩ with
      | error e => rfl
      | ok m' =>
        have hptr' : ptr + (32 - m.buffer.length) ≤ bytes.length := by
          rw [List.length_append] at hlong
          omega
        have hrest := writeLoop_eq bytes (ptr + (32 - m.buffer.length))
          { m' with buffer := [], buffer_lt := by decide } hptr'
        rw [List.nil_append, foldlM_processLeaf_buffer] at hrest
        simp only [CacheRefinement.ok_bind]
        rw [hrest, ← hdrop]
        cases (wholeLeaves ((m.buffer ++ bytes.drop ptr).drop 32)).foldlM (processLeaf sha) m' with
        | error e => rfl
        | ok m'' => exact congrArg Except.ok (withTail_congr m'' (tail32_of_le hlong).symm)
termination_by ptr => bytes.length + 1 - ptr

/-- Writes one after the other process the whole leaves of the buffer and of everything written,
in order, and keep the rest: how the bytes are split into writes does not matter. -/
theorem foldlM_write : ∀ (writes : List (List UInt8)) (m : MerkleHasher),
    writes.foldlM (fun m bytes => (m.write sha bytes).mapError Fault.error) m =
      (((wholeLeaves (m.buffer ++ writes.flatten)).foldlM (processLeaf sha) m).map
        (withTail · (m.buffer ++ writes.flatten))).mapError Fault.error
  | [], m => by
    have hb := m.buffer_lt
    rw [List.foldlM_nil, List.flatten_nil, List.append_nil, wholeLeaves_of_lt hb]
    show Except.ok m = Except.ok (withTail m m.buffer)
    simp only [withTail, tail32_of_lt hb]
  | w :: rest, m => by
    rw [List.foldlM_cons, write, writeLoop_eq w 0 m (Nat.zero_le _), List.drop_zero,
      List.flatten_cons, ← List.append_assoc, wholeLeaves_append (m.buffer ++ w), List.foldlM_append]
    cases (wholeLeaves (m.buffer ++ w)).foldlM (processLeaf sha) m with
    | error e => rfl
    | ok m₁ =>
      -- The second part starts from what the first write left in the buffer.
      simp only [map_ok', mapError_ok', CacheRefinement.ok_bind]
      rw [foldlM_write rest (withTail m₁ (m.buffer ++ w))]
      simp only [withTail, foldlM_processLeaf_buffer]
      cases (wholeLeaves (tail32 (m.buffer ++ w) ++ rest.flatten)).foldlM (processLeaf sha) m₁ with
      | error e => rfl
      | ok m₂ => simp only [map_ok', mapError_ok', ← tail32_append]

end Chunking

section Finish

theorem placeNode_of_odd {x : Nat} (hx : x % 2 = 1) (hx1 : x ≠ 1) (m : MerkleHasher) (v : Hash256) :
    placeNode sha m x v = m.processRightNode sha x v := by
  simp [placeNode, hx1, hx]

theorem placeNode_of_even {x : Nat} (hx : x % 2 = 0) (hx1 : x ≠ 1) (m : MerkleHasher) (v : Hash256) :
    placeNode sha m x v = m.processLeftNode x v := by
  simp [placeNode, hx1, hx]

/-- The zero hash at a node of height `h` in the table's range. -/
theorem zeroHash_eq {m : MerkleHasher} {x h : Nat} (hlev : getDepth x + h + 1 = m.depth)
    (hh : h ≤ 48) : m.zeroHash sha x = .ok (zeroHashes sha h) := by
  rw [zeroHash, if_pos (by omega), show m.depth - (getDepth x + 1) = h by omega,
    getZeroHash_of_le sha hh]

theorem finishLoop_of_root {m : MerkleHasher} {r : Hash256} (hr : m.root = some r) (fuel : Nat) :
    finishLoop sha (fuel + 1) m = .ok r := by
  simp [finishLoop, hr, pure, Except.pure]

theorem finishLoop_of_halfNode {m : MerkleHasher} (hr : m.root = none) {node : HalfNode}
    {rest : List HalfNode} (hn : m.halfNodes = node :: rest) (fuel : Nat) :
    finishLoop sha (fuel + 1) m =
      (m.zeroHash sha (node.id * 2 + 1)).mapError Fault.panic >>= fun z =>
        finishLoop sha fuel (m.processRightNode sha (node.id * 2 + 1) z) := by
  simp only [finishLoop, hr, hn]

theorem finishLoop_of_nil {m : MerkleHasher} (hr : m.root = none) (hn : m.halfNodes = [])
    (fuel : Nat) :
    finishLoop sha (fuel + 1) m =
      if m.nextLeaf = 1 then .ok Hash256.zero
      else (m.zeroHash sha m.nextLeaf).mapError Fault.panic >>= fun z =>
        finishLoop sha fuel (m.processLeftNode m.nextLeaf z) := by
  simp only [finishLoop, hr, hn]
  rfl

variable (L : Nat → Hash256)

/-- The completion loop from the stack of an odd node `x` of height `h`, with every leaf from
`x`'s subtree on zero: each round places the zero subtree at the right child of the top half
node, which is `x` itself, and moves up to the next odd node, until the root is known. -/
theorem finishLoop_stackOf : ∀ {x : Nat} (h fuel : Nat) (m : MerkleHasher), x % 2 = 1 → 3 ≤ x →
    m.root = none → m.halfNodes = stackOf sha L h x →
    (∀ y, x * 2 ^ h ≤ y → L y = Hash256.zero) →
    2 ^ (m.depth - 1) ≤ x * 2 ^ h → x * 2 ^ h < 2 ^ m.depth → m.depth ≤ 50 →
    m.depth - h ≤ fuel →
    finishLoop sha fuel m = .ok (nodeValue sha L (m.depth - 1) 1)
  | x, h, fuel, m, hodd, hx3, hroot, hstack, hzero, hlo, hhi, hdepth, hfuel => by
    have hlev : Nat.log2 x + h + 1 = m.depth := log2_add_of_mem_leaves (by omega) hlo hhi
    have hlog1 : 1 ≤ Nat.log2 x := (Nat.le_log2 (by omega)).mpr (by omega)
    obtain ⟨fuel, rfl⟩ : ∃ f, fuel = f + 1 := ⟨fuel - 1, by omega⟩
    have hx2 : x = 2 * (x / 2) + 1 := by omega
    have hpop : m.halfNodes =
        HalfNode.new (x / 2) (nodeValue sha L h (x - 1)) :: stackOf sha L (h + 1) (x / 2) := by
      rw [hstack, hx2, stackOf_right L (by omega), ← hx2, show 2 * (x / 2) = x - 1 by omega]
    have hchild : (HalfNode.new (x / 2) (nodeValue sha L h (x - 1))).id * 2 + 1 = x := by
      rw [id_new]
      omega
    have hz : m.zeroHash sha x = .ok (nodeValue sha L h x) := by
      rw [zeroHash_eq (h := h) (by rw [getDepth]; omega) (by omega), nodeValue_of_zero L hzero]
    -- One round places the zero subtree at `x`.
    have hround := placeNode_stackOf L (by omega) h m hstack
    rw [placeNode_of_odd hodd (by omega)] at hround
    rw [finishLoop_of_halfNode hroot hpop, hchild, hz]
    simp only [Except.mapError, CacheRefinement.ok_bind, hround, hroot]
    by_cases hedge : rightAncestors (x + 1) = []
    · -- `x` ended the last level below the root: the next round returns the root.
      obtain ⟨f, rfl⟩ : ∃ f, fuel = f + 1 := ⟨fuel - 1, by omega⟩
      rw [finishLoop_of_root (r := nodeValue sha L (h + Nat.log2 x) 1) (by simp [hedge]) f,
        show h + Nat.log2 x = m.depth - 1 by omega]
    · -- Otherwise the loop goes on from the odd part of `x + 1`, some heights up.
      obtain ⟨y, j, hy, hy3, hxy, hst⟩ := @stackOf_oddPart sha L (x + 1) (by omega) hedge h
      have hj : 1 ≤ j := by
        by_contra hj0
        rw [show j = 0 by omega, Nat.pow_zero, Nat.mul_one] at hxy
        omega
      have hyx : y < x := by
        have h2j : 2 ≤ 2 ^ j := Nat.le_self_pow (by omega) 2
        have : y * 2 ≤ y * 2 ^ j := Nat.mul_le_mul_left y h2j
        omega
      have hstart : y * 2 ^ (h + j) = (x + 1) * 2 ^ h := by
        rw [hxy, Nat.pow_add]
        ring
      have hend : (x + 1) * 2 ^ h < 2 ^ m.depth := by
        have hlt : x < 2 ^ (Nat.log2 x + 1) := Nat.lt_log2_self
        have hne : x + 1 ≠ 2 ^ (Nat.log2 x + 1) := fun heq =>
          hedge (heq ▸ rightAncestors_two_pow _)
        calc (x + 1) * 2 ^ h < 2 ^ (Nat.log2 x + 1) * 2 ^ h :=
              Nat.mul_lt_mul_of_pos_right (by omega) (Nat.two_pow_pos h)
          _ = 2 ^ m.depth := by rw [← Nat.pow_add, ← hlev]; congr 1; omega
      rw [if_neg hedge]
      exact finishLoop_stackOf (h + j) fuel _ hy hy3 rfl hst
        (fun z hz => hzero z (by
          rw [hstart] at hz
          exact Nat.le_trans (Nat.mul_le_mul_right _ (Nat.le_succ x)) hz))
        (by rw [hstart]; exact Nat.le_trans hlo (Nat.mul_le_mul_right _ (Nat.le_succ x)))
        (by rwa [hstart]) hdepth (by show m.depth - (h + j) ≤ fuel; omega)
termination_by x => x

end Finish

section Stream

/-- The leaf at id `2 ^ (d - 1) + i` of the tree of depth `d` over the bytes `B`: their `i`-th
chunk. -/
def streamLeaf (d : Nat) (B : List UInt8) (y : Nat) : Hash256 := chunk B (y - 2 ^ (d - 1))

theorem nodeValue_streamLeaf (d : Nat) (B : List UInt8) :
    nodeValue sha (streamLeaf d B) (d - 1) 1 = treeRoot (hash32Concat sha) (d - 1) (chunk B) := by
  unfold nodeValue streamLeaf
  congr 1
  funext i
  rw [Nat.one_mul, Nat.add_sub_cancel_left]

/-- Past the leaves the bytes fill, every leaf is zero. -/
theorem streamLeaf_of_le {d : Nat} {B : List UInt8} {n y : Nat} (hn : B.length ≤ 32 * n)
    (hy : 2 ^ (d - 1) + n ≤ y) : streamLeaf d B y = Hash256.zero :=
  chunk_of_length_le (by omega)

/-- The hasher `with_depth` builds. -/
def fresh (d : Nat) : MerkleHasher :=
  { halfNodes := []
    depth := d
    nextLeaf := 2 ^ (d - 1)
    buffer := []
    buffer_lt := nil_buffer_lt
    root := none }

theorem withDepth_eq {d : Nat} (hd : 1 ≤ d) : withDepth d = .ok (fresh d) := by
  rw [withDepth, if_pos (show d > 0 from hd)]
  rfl

variable (sha) in
/-- The hasher `m` of depth `d` after the first `n` chunks of `B`. -/
def afterLeaves (m : MerkleHasher) (d : Nat) (B : List UInt8) (n : Nat) : MerkleHasher :=
  { m with nextLeaf := 2 ^ (d - 1) + n
           halfNodes := stackOf sha (streamLeaf d B) 0 (2 ^ (d - 1) + n)
           root := if n = 2 ^ (d - 1) then some (nodeValue sha (streamLeaf d B) (d - 1) 1)
             else none }

variable {d : Nat} (L : Nat → Hash256)

/-- Up to `2 ^ (d - 1)` leaves from a fresh hasher of depth `d`: the stack of the next leaf, and
the root once the last one is written. -/
theorem foldlM_processLeaf_of_le (hd : 1 ≤ d) (ls : List Hash256) (m : MerkleHasher)
    (hdepth : m.depth = d) (hnext : m.nextLeaf = 2 ^ (d - 1)) (hstack : m.halfNodes = [])
    (hroot : m.root = none) (hlen : ls.length ≤ 2 ^ (d - 1))
    (hleaves : ∀ i (hi : i < ls.length), L (2 ^ (d - 1) + i) = ls[i]) :
    ls.foldlM (processLeaf sha) m =
      .ok { m with nextLeaf := 2 ^ (d - 1) + ls.length,
                   halfNodes := stackOf sha L 0 (2 ^ (d - 1) + ls.length),
                   root := if ls.length = 2 ^ (d - 1) then some (nodeValue sha L (d - 1) 1)
                     else none } := by
  have hd1 : d - 1 + 1 = d := Nat.sub_add_cancel hd
  have hpow : 2 ^ d = 2 ^ (d - 1) + 2 ^ (d - 1) := by
    rw [← hd1, Nat.pow_succ, Nat.add_sub_cancel]
    omega
  have hc : 1 ≤ 2 ^ (d - 1) := Nat.one_le_two_pow
  rw [foldlM_processLeaf L ls m Nat.one_le_two_pow hnext
    (by rw [hstack, stackOf_eq_nil L (rightAncestors_two_pow _)]) hleaves
    (by rw [hdepth, Nat.pow_succ]; omega)
    (fun i hi hlt => rightAncestors_ne_nil (k := d - 1) (by omega) (by rw [hd1]; omega))]
  congr 2
  rw [hroot]
  by_cases hfull : ls.length = 2 ^ (d - 1)
  · -- The last leaf completes the tree.
    have hedge : rightAncestors (2 ^ (d - 1) + ls.length) = [] := by
      rw [hfull, ← hpow]
      exact rightAncestors_two_pow d
    have hlog : Nat.log2 (2 ^ (d - 1) + ls.length - 1) = d - 1 := by
      rw [Nat.log2_eq_iff (by omega), hd1]
      omega
    rw [if_pos hfull, if_pos ⟨by omega, hedge⟩, hlog]
  · -- Short of it, no leaf reaches the right edge.
    rw [if_neg hfull, if_neg]
    rintro ⟨hpos, hedge⟩
    exact rightAncestors_ne_nil (k := d - 1) (by omega) (by rw [hd1]; omega) hedge

/-- After `n ≤ 2 ^ (d - 1)` leaves, with every later leaf zero, the completion loop of `finish`
returns the root of the whole tree: it is known already when the leaves fill the tree, the first
leaf is placed as a zero one when no leaf was written, and the loop runs from the odd part of the
next leaf otherwise. -/
theorem finishLoop_of_leaves (hd : 1 ≤ d) (hd50 : d ≤ 50) {n : Nat} (hn : n ≤ 2 ^ (d - 1))
    (hzero : ∀ y, 2 ^ (d - 1) + n ≤ y → L y = Hash256.zero) (m : MerkleHasher)
    (hdepth : m.depth = d) (hnext : m.nextLeaf = 2 ^ (d - 1) + n)
    (hstack : m.halfNodes = stackOf sha L 0 (2 ^ (d - 1) + n))
    (hroot : m.root = if n = 2 ^ (d - 1) then some (nodeValue sha L (d - 1) 1) else none) :
    finishLoop sha (d + 1) m = .ok (nodeValue sha L (d - 1) 1) := by
  have hd1 : d - 1 + 1 = d := Nat.sub_add_cancel hd
  have hc : 1 ≤ 2 ^ (d - 1) := Nat.one_le_two_pow
  have hpow : 2 ^ d = 2 ^ (d - 1) + 2 ^ (d - 1) := by
    rw [← hd1, Nat.pow_succ, Nat.add_sub_cancel]
    omega
  by_cases hfull : n = 2 ^ (d - 1)
  · rw [if_pos hfull] at hroot
    exact finishLoop_of_root hroot d
  rw [if_neg hfull] at hroot
  by_cases hedge : rightAncestors (2 ^ (d - 1) + n) = []
  · -- No leaf was written: the loop first places a zero leaf at the first id.
    have hn0 : n = 0 := by
      by_contra hpos
      exact rightAncestors_ne_nil (k := d - 1) (by omega) (by rw [hd1]; omega) hedge
    subst hn0
    rw [Nat.add_zero] at hnext hstack hzero
    rw [finishLoop_of_nil hroot (hstack.trans (stackOf_eq_nil L hedge)) d, hnext]
    by_cases hd₁ : d = 1
    · -- A tree of one leaf: the zero leaf is its root.
      subst hd₁
      rw [if_pos (show 2 ^ (1 - 1) = 1 from rfl), show (1 : Nat) - 1 = 0 from rfl, nodeValue_zero,
        hzero 1 (by simp)]
    · have hd2 : 2 ≤ d := by omega
      have heven : 2 ^ (d - 1) % 2 = 0 := by
        obtain ⟨e, he⟩ : ∃ e, d - 1 = e + 1 := ⟨d - 2, by omega⟩
        rw [he, Nat.pow_succ]
        omega
      have hlev : getDepth (2 ^ (d - 1)) + 0 + 1 = m.depth := by
        rw [getDepth, Nat.log2_two_pow, hdepth]
        omega
      have hz : zeroHashes sha 0 = nodeValue sha L 0 (2 ^ (d - 1)) := by
        rw [nodeValue_zero, hzero _ (le_refl _)]
        rfl
      rw [if_neg (by omega), zeroHash_eq (h := 0) hlev (by decide), mapError_ok', CacheRefinement.ok_bind,
        hz, ← placeNode_of_even heven (by omega), placeNode_stackOf L hc 0 m hstack]
      have hne : rightAncestors (2 ^ (d - 1) + 1) ≠ [] :=
        rightAncestors_ne_nil (k := d - 1) (by omega) (by rw [hd1]; omega)
      rw [if_neg hne, hroot]
      have key : finishLoop sha d { m with halfNodes := stackOf sha L 0 (2 ^ (d - 1) + 1), root := none } =
          .ok (nodeValue sha L (m.depth - 1) 1) :=
        finishLoop_stackOf L 0 d _ (by omega) (by omega) rfl rfl
          (fun y hy => hzero y (by simp at hy; omega)) (by simp [hdepth]) (by simp [hdepth]; omega)
          (by rw [hdepth]; exact hd50) (by simp [hdepth])
      simpa only [hdepth] using key
  · -- Otherwise the loop starts from the odd part of the next leaf.
    obtain ⟨y, j, hy, hy3, hxy, hst⟩ := @stackOf_oddPart sha L _ (by omega) hedge 0
    rw [Nat.zero_add] at hst
    have key := finishLoop_stackOf L j (d + 1) m hy hy3 hroot (hstack.trans hst)
      (fun z hz => hzero z (by omega)) (by rw [hdepth, ← hxy]; omega)
      (by rw [hdepth, ← hxy]; omega) (by rw [hdepth]; exact hd50) (by omega)
    rwa [hdepth] at key

/-- After the writes, `finish` pads what is left in the buffer into one more leaf: the loop
then starts from the hasher with all the chunks of the bytes processed, in order. -/
theorem finish_eq_finishLoop (hd : 1 ≤ d) (B : List UInt8) (hlen : B.length ≤ 32 * 2 ^ (d - 1))
    (m : MerkleHasher) (hdepth : m.depth = d) (hnext : m.nextLeaf = 2 ^ (d - 1))
    (hstack : m.halfNodes = []) (hroot : m.root = none) :
    ∃ b : List UInt8, ∃ hb : b.length < 32,
      (((wholeLeaves B).foldlM (processLeaf sha) m).map (withTail · B)).mapError Fault.error >>=
        (fun m => m.finish sha) =
      finishLoop sha (d + 1)
        { afterLeaves sha m d B ((B.length + 31) / 32) with buffer := b, buffer_lt := hb } := by
  -- The run over the first `n` chunks, for any `n` the tree has room for.
  have hrun : ∀ n, n ≤ 2 ^ (d - 1) →
      ((List.range n).map (chunk B)).foldlM (processLeaf sha) m = .ok (afterLeaves sha m d B n) := by
    intro n hn
    have := @foldlM_processLeaf_of_le sha d (streamLeaf d B) hd ((List.range n).map (chunk B)) m
      hdepth hnext hstack hroot (by simpa using hn) (fun i hi => by simp [streamLeaf])
    simpa [afterLeaves] using this
  have hk : B.length / 32 ≤ 2 ^ (d - 1) := by omega
  rw [wholeLeaves_eq_map_chunk, hrun _ hk, map_ok', mapError_ok', CacheRefinement.ok_bind]
  by_cases ht : tail32 B = []
  · -- The bytes end on a leaf boundary: the buffer is empty.
    have hmod : B.length % 32 = 0 := by rw [← length_tail32, ht]; rfl
    refine ⟨tail32 B, length_tail32_lt B, ?_⟩
    rw [finish, if_pos (by simp [withTail, ht]), show (B.length + 31) / 32 = B.length / 32 by omega,
      show (pure (withTail (afterLeaves sha m d B (B.length / 32)) B) : Except (Fault Error) _) =
        .ok (withTail (afterLeaves sha m d B (B.length / 32)) B) from rfl, CacheRefinement.ok_bind]
    dsimp only
    rw [show (withTail (afterLeaves sha m d B (B.length / 32)) B).depth = d from hdepth]
    rfl
  · -- The buffer holds the start of one more leaf, padded by `finish`.
    have hmod : B.length % 32 ≠ 0 := by
      intro h
      exact ht (List.eq_nil_of_length_eq_zero (by rw [length_tail32, h]))
    have hk1 : B.length / 32 + 1 ≤ 2 ^ (d - 1) := by omega
    have hlast : processLeaf sha (afterLeaves sha m d B (B.length / 32)) (chunk B (B.length / 32)) =
        .ok (afterLeaves sha m d B (B.length / 32 + 1)) := by
      have h := hrun _ hk1
      rw [List.range_succ, List.map_append, List.foldlM_append, hrun _ hk, CacheRefinement.ok_bind,
        List.map_cons, List.map_nil, List.foldlM_cons] at h
      simpa only [List.foldlM_nil, bind_pure] using h
    have hleaf : (⟨resize (tail32 B) 32, length_resize _ _⟩ : Hash256) = chunk B (B.length / 32) :=
      Hash256.ext (resize_tail32 B)
    refine ⟨tail32 B, length_tail32_lt B, ?_⟩
    rw [finish, if_neg (by simp [withTail, ht]), show (B.length + 31) / 32 = B.length / 32 + 1 by omega]
    simp only [withTail, hleaf, processLeaf_buffer, hlast, map_ok', mapError_ok',
      CacheRefinement.ok_bind]
    rw [show (afterLeaves sha m d B (B.length / 32 + 1)).depth = d from hdepth]

/-- From `2 ^ (d - 1)` up to `2 ^ d` chunks, written to a fresh hasher of depth `d`, are all
accepted: the first `2 ^ (d - 1)` fill the tree and set its root, and the rest only build half
nodes below ids the tree does not have, which never reach the root again. -/
theorem foldlM_chunks_of_ge (hd : 1 ≤ d) (B : List UInt8) {n : Nat} (hlo : 2 ^ (d - 1) ≤ n)
    (hhi : n ≤ 2 ^ d) : ∃ M, ((List.range n).map (chunk B)).foldlM (processLeaf sha) (fresh d) =
      .ok M ∧ M.root = some (nodeValue sha (streamLeaf d B) (d - 1) 1) := by
  have hd1 : d - 1 + 1 = d := Nat.sub_add_cancel hd
  have hpow : 2 ^ d = 2 ^ (d - 1) + 2 ^ (d - 1) := by
    rw [← hd1, Nat.pow_succ, Nat.add_sub_cancel]
    omega
  have hc : 1 ≤ 2 ^ (d - 1) := Nat.one_le_two_pow
  -- The chunks that fill the tree, then those past it.
  have hfill := @foldlM_processLeaf_of_le sha d (streamLeaf d B) hd
    ((List.range (2 ^ (d - 1))).map (chunk B)) (fresh d) rfl rfl rfl rfl (by simp)
    (fun i hi => by simp [streamLeaf])
  rw [show n = 2 ^ (d - 1) + (n - 2 ^ (d - 1)) by omega, List.range_add, List.map_append,
    List.foldlM_append, hfill, CacheRefinement.ok_bind, List.map_map]
  simp only [List.length_map, List.length_range, if_true]
  have hover := foldlM_processLeaf (streamLeaf d B) ((List.range (n - 2 ^ (d - 1))).map
      (chunk B ∘ (2 ^ (d - 1) + ·)))
    (c := 2 ^ (d - 1) + 2 ^ (d - 1))
    { fresh d with nextLeaf := 2 ^ (d - 1) + 2 ^ (d - 1),
                   halfNodes := stackOf sha (streamLeaf d B) 0 (2 ^ (d - 1) + 2 ^ (d - 1)),
                   root := some (nodeValue sha (streamLeaf d B) (d - 1) 1) }
    (by omega) rfl rfl
    (fun i hi => by
      simp only [streamLeaf, List.getElem_map, List.getElem_range, Function.comp]
      congr 1
      omega)
    (by simp [fresh]; rw [Nat.pow_succ]; omega)
    (fun i hi hlt => rightAncestors_ne_nil (k := d) (by omega) (by
      simp at hlt
      rw [Nat.pow_succ]
      omega))
  refine ⟨_, hover, ?_⟩
  -- The last chunk past the tree is still short of the next left edge.
  simp only [List.length_map, List.length_range]
  rw [if_neg]
  rintro ⟨hpos, hedge⟩
  exact rightAncestors_ne_nil (k := d) (by omega) (by rw [Nat.pow_succ]; omega) hedge

/-- A fresh hasher of depth `d ≤ 50` fed at most `2 ^ (d - 1)` leaves of bytes, in writes of any
sizes, returns the root of the tree of depth `d` over their 32-byte chunks, the last one and the
missing leaves zero. -/
theorem streamRoot_eq_treeRoot (hd : 1 ≤ d) (hd50 : d ≤ 50) (writes : List (List UInt8))
    (hlen : writes.flatten.length ≤ 32 * 2 ^ (d - 1)) :
    streamRoot sha d writes = .ok (treeRoot (hash32Concat sha) (d - 1) (chunk writes.flatten)) := by
  unfold streamRoot
  rw [withDepth_eq hd, CacheRefinement.ok_bind, foldlM_write,
    show (fresh d).buffer = [] from rfl, List.nil_append]
  obtain ⟨b, hb, hfin⟩ := finish_eq_finishLoop hd writes.flatten hlen (fresh d) rfl rfl rfl rfl
  rw [hfin, finishLoop_of_leaves (streamLeaf d writes.flatten) hd hd50 (by omega)
    (fun y hy => streamLeaf_of_le (n := (writes.flatten.length + 31) / 32) (by omega) hy) _ rfl rfl
    rfl rfl, nodeValue_streamLeaf]

/-- Bytes past the capacity of the tree, up to as many again, are accepted: every write and
`finish` succeed, with the root of the first `2 ^ (d - 1)` leaves; the rest are dropped. -/
theorem streamRoot_of_capacity_lt (hd : 1 ≤ d) (writes : List (List UInt8))
    (hlo : 32 * 2 ^ (d - 1) < writes.flatten.length) (hhi : writes.flatten.length ≤ 32 * 2 ^ d) :
    streamRoot sha d writes = .ok (treeRoot (hash32Concat sha) (d - 1) (chunk writes.flatten)) := by
  unfold streamRoot
  rw [withDepth_eq hd, CacheRefinement.ok_bind, foldlM_write,
    show (fresh d).buffer = [] from rfl, List.nil_append, wholeLeaves_eq_map_chunk,
    ← nodeValue_streamLeaf]
  obtain ⟨M, hM, hroot⟩ := @foldlM_chunks_of_ge sha d hd writes.flatten
    (writes.flatten.length / 32) (by omega) (by omega)
  rw [hM, map_ok', mapError_ok', CacheRefinement.ok_bind, finish]
  by_cases ht : tail32 writes.flatten = []
  · -- No bytes wait in the buffer: the root is already known.
    rw [if_pos (by simp [withTail, ht]),
      show (pure (withTail M writes.flatten) : Except (Fault Error) _) =
        .ok (withTail M writes.flatten) from rfl, CacheRefinement.ok_bind]
    refine finishLoop_of_root ?_ _
    exact hroot
  · -- The padded last leaf is one more past the tree, and leaves the root alone.
    have hmod : writes.flatten.length % 32 ≠ 0 := by
      intro h
      exact ht (List.eq_nil_of_length_eq_zero (by rw [length_tail32, h]))
    obtain ⟨M', hM', hroot'⟩ := @foldlM_chunks_of_ge sha d hd writes.flatten
      (writes.flatten.length / 32 + 1) (by omega) (by omega)
    have hlast : processLeaf sha M (chunk writes.flatten (writes.flatten.length / 32)) = .ok M' := by
      rw [List.range_succ, List.map_append, List.foldlM_append, hM, CacheRefinement.ok_bind,
        List.map_cons, List.map_nil, List.foldlM_cons] at hM'
      simpa only [List.foldlM_nil, bind_pure] using hM'
    have hleaf : (⟨resize (tail32 writes.flatten) 32, length_resize _ _⟩ : Hash256) =
        chunk writes.flatten (writes.flatten.length / 32) :=
      Hash256.ext (resize_tail32 writes.flatten)
    rw [if_neg (by simp [withTail, ht])]
    simp only [withTail, hleaf, processLeaf_buffer, hlast, map_ok', mapError_ok',
      CacheRefinement.ok_bind]
    refine finishLoop_of_root ?_ _
    exact hroot'

theorem streamRoot_of_capacity_lt_twoLeaves :
    1 ≤ 1 ∧ 32 * 2 ^ (1 - 1) < [List.replicate 64 (1 : UInt8)].flatten.length ∧
      [List.replicate 64 (1 : UInt8)].flatten.length ≤ 32 * 2 ^ 1 ∧
      streamRoot (fun bs => chunk bs 0) 1 [List.replicate 64 1] =
        .ok (treeRoot (hash32Concat fun bs => chunk bs 0) (1 - 1)
          (chunk [List.replicate 64 (1 : UInt8)].flatten)) :=
  ⟨by decide, by decide, by decide, streamRoot_of_capacity_lt (by decide) _ (by decide) (by decide)⟩

end Stream

end MerkleHasher

end Lighthouse.TreeHash
