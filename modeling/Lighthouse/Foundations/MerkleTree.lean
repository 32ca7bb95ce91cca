import Mathlib

/-! Perfect binary trees over a node operation, with leaves read from a function: the root of
height `h` over `f` hashes the roots over `f 0, …` and `f (2 ^ h), …`. Hashing one layer of
leaves pairwise leaves the root unchanged one height down (`treeRoot_succ_layer`), and a tree
whose leaves are all one value has the iterated root of that value (`treeRoot_eq_zeroRoot`).

The nodes of such a tree are numbered as in a binary heap, from `1` at the root, the children of
`c` being `2 c` and `2 c + 1`. A left-to-right walk that has reached node `c` has finished the
left subtrees of the ancestors whose right subtree holds `c`; `rightAncestors c` lists them,
deepest first. -/
namespace Lighthouse.MerkleTree
variable {α : Type*} (node : α → α → α)

/-- The root of the perfect tree of height `h` whose leaves, from the left, are `f 0, f 1, …`. -/
def treeRoot : Nat → (Nat → α) → α
  | 0, f => f 0
  | h + 1, f => node (treeRoot h f) (treeRoot h fun i => f (2 ^ h + i))

/-- The root of the perfect tree of height `h` all of whose leaves are `z`. -/
def zeroRoot (z : α) : Nat → α
  | 0 => z
  | h + 1 => node (zeroRoot z h) (zeroRoot z h)

/-- The leaves one height up: each the node over two neighbours. -/
def layer (f : Nat → α) (i : Nat) : α := node (f (2 * i)) (f (2 * i + 1))

variable {node}

@[simp] theorem treeRoot_zero (f : Nat → α) : treeRoot node 0 f = f 0 := rfl

theorem treeRoot_succ (h : Nat) (f : Nat → α) :
    treeRoot node (h + 1) f = node (treeRoot node h f) (treeRoot node h fun i => f (2 ^ h + i)) :=
  rfl

/-- The root reads the first `2 ^ h` leaves only. -/
theorem treeRoot_congr : ∀ (h : Nat) {f g : Nat → α}, (∀ i < 2 ^ h, f i = g i) →
    treeRoot node h f = treeRoot node h g
  | 0, _, _, hfg => hfg 0 (by simp)
  | h + 1, f, g, hfg => by
    have hpow : 2 ^ (h + 1) = 2 ^ h + 2 ^ h := by omega
    rw [treeRoot_succ, treeRoot_succ,
      treeRoot_congr h fun i hi => hfg i (by omega),
      treeRoot_congr h fun i hi => hfg (2 ^ h + i) (by omega)]

theorem treeRoot_eq_zeroRoot {z : α} : ∀ (h : Nat) {f : Nat → α}, (∀ i < 2 ^ h, f i = z) →
    treeRoot node h f = zeroRoot node z h
  | 0, _, hf => hf 0 (by simp)
  | h + 1, f, hf => by
    have hpow : 2 ^ (h + 1) = 2 ^ h + 2 ^ h := by omega
    rw [treeRoot_succ, zeroRoot, treeRoot_eq_zeroRoot h fun i hi => hf i (by omega),
      treeRoot_eq_zeroRoot h fun i hi => hf (2 ^ h + i) (by omega)]

/-- Hashing the leaves pairwise is the first step of the root. -/
theorem treeRoot_succ_layer : ∀ (h : Nat) (f : Nat → α),
    treeRoot node (h + 1) f = treeRoot node h (layer node f)
  | 0, f => rfl
  | h + 1, f => by
    -- The right half of the upper layer is the layer of the right half.
    have hright : (fun i => layer node f (2 ^ h + i)) = layer node fun i => f (2 ^ (h + 1) + i) := by
      funext i
      simp only [layer, Nat.pow_succ]
      congr 2 <;> omega
    rw [treeRoot_succ (h + 1), treeRoot_succ_layer h, treeRoot_succ_layer h, treeRoot_succ h,
      hright]

/-- The root is the first leaf of the layer `h` levels up. -/
theorem treeRoot_eq_iterate : ∀ (h : Nat) (f : Nat → α),
    treeRoot node h f = ((layer node)^[h] f) 0
  | 0, _ => rfl
  | h + 1, f => by
    rw [treeRoot_succ_layer, treeRoot_eq_iterate h, Function.iterate_succ_apply]

/-- The layer over a list of nodes padded with `z` is the list of the pairs' nodes padded with
the node over two `z`. -/
theorem layer_getD (z : α) (l : List α) :
    layer node (fun i => l.getD i z) = fun i =>
      ((List.range ((l.length + 1) / 2)).map fun j => node (l.getD (2 * j) z)
        (l.getD (2 * j + 1) z)).getD i (node z z) := by
  funext i
  by_cases hi : i < (l.length + 1) / 2
  · simp [layer, List.getD_eq_getElem?_getD, hi]
  · have h₁ : l.length ≤ 2 * i := by omega
    simp [layer, List.getD_eq_getElem?_getD, hi, List.getElem?_eq_none h₁,
      List.getElem?_eq_none (show l.length ≤ 2 * i + 1 by omega)]

section Heap

/-- The ancestors of node `c` whose right subtree holds `c`, deepest first. -/
def rightAncestors (c : Nat) : List Nat :=
  if 2 ≤ c then
    if c % 2 = 1 then c / 2 :: rightAncestors (c / 2) else rightAncestors (c / 2)
  else []
termination_by c
decreasing_by all_goals omega

@[simp] theorem rightAncestors_one : rightAncestors 1 = [] := by
  rw [rightAncestors]
  simp

/-- A left child lies in the right subtree of the same ancestors as its parent. -/
theorem rightAncestors_left {c : Nat} (hc : 1 ≤ c) : rightAncestors (2 * c) = rightAncestors c := by
  rw [rightAncestors, if_pos (by omega), if_neg (by omega)]
  congr 1
  omega

/-- A right child lies in the right subtree of its parent too. -/
theorem rightAncestors_right {c : Nat} (hc : 1 ≤ c) :
    rightAncestors (2 * c + 1) = c :: rightAncestors c := by
  rw [rightAncestors, if_pos (by omega), if_pos (by omega)]
  have : (2 * c + 1) / 2 = c := by omega
  rw [this]

theorem lt_of_mem_rightAncestors : ∀ {c a : Nat}, a ∈ rightAncestors c → 1 ≤ a ∧ a < c
  | c, a, h => by
    rw [rightAncestors] at h
    split_ifs at h with h₁ h₂
    · rcases List.mem_cons.mp h with rfl | h
      · omega
      · have := lt_of_mem_rightAncestors h
        omega
    · have := lt_of_mem_rightAncestors h
      omega
    · cases h
termination_by c => c
decreasing_by all_goals omega

/-- Below the deepest such ancestor, the others are its own. -/
theorem rightAncestors_eq_cons : ∀ {c a : Nat} {rest : List Nat}, rightAncestors c = a :: rest →
    rest = rightAncestors a
  | c, a, rest, h => by
    rw [rightAncestors] at h
    split_ifs at h with h₁ h₂
    · injection h with ha hrest
      rw [← hrest, ← ha]
    · exact rightAncestors_eq_cons h
termination_by c => c
decreasing_by omega

/-- Only the nodes on the left edge of the tree have no such ancestor. -/
theorem rightAncestors_two_pow : ∀ m : Nat, rightAncestors (2 ^ m) = []
  | 0 => rightAncestors_one
  | m + 1 => by
    rw [Nat.pow_succ, Nat.mul_comm, rightAncestors_left (Nat.one_le_two_pow),
      rightAncestors_two_pow m]

theorem exists_two_pow_of_rightAncestors_eq_nil : ∀ {c : Nat}, 1 ≤ c → rightAncestors c = [] →
    ∃ m, c = 2 ^ m
  | c, hc, h => by
    by_cases hc₁ : c = 1
    · exact ⟨0, hc₁⟩
    · rw [rightAncestors, if_pos (by omega)] at h
      split_ifs at h with hodd
      -- An even node below the root is the left child of a node on the left edge.
      obtain ⟨m, hm⟩ := exists_two_pow_of_rightAncestors_eq_nil (c := c / 2) (by omega) h
      exact ⟨m + 1, by rw [Nat.pow_succ, ← hm]; omega⟩
termination_by c => c
decreasing_by omega

/-- A node strictly inside a level, off its left edge, has a right ancestor. -/
theorem rightAncestors_ne_nil {c k : Nat} (hlo : 2 ^ k < c) (hhi : c < 2 ^ (k + 1)) :
    rightAncestors c ≠ [] := by
  intro h
  obtain ⟨m, rfl⟩ := exists_two_pow_of_rightAncestors_eq_nil (Nat.le_of_lt (Nat.lt_of_le_of_lt
    (Nat.one_le_two_pow) hlo)) h
  have h₁ : k < m := (Nat.pow_lt_pow_iff_right (by decide)).mp hlo
  have h₂ : m < k + 1 := (Nat.pow_lt_pow_iff_right (by decide)).mp hhi
  omega

end Heap

section PowersOfTwo

/-- The least power of two at or above `n` (`1` for `0`). -/
def nextPowerOfTwo (n : Nat) : Nat := 2 ^ Nat.log2 (2 * n - 1)

theorem le_nextPowerOfTwo (n : Nat) : n ≤ nextPowerOfTwo n := by
  have := Nat.lt_log2_self (n := 2 * n - 1)
  rw [Nat.pow_succ] at this
  unfold nextPowerOfTwo
  omega

theorem nextPowerOfTwo_le {n k : Nat} (h : n ≤ 2 ^ k) : nextPowerOfTwo n ≤ 2 ^ k := by
  unfold nextPowerOfTwo
  by_cases hn : 2 * n - 1 = 0
  · rw [hn, Nat.log2_zero]
    exact Nat.one_le_two_pow
  · have hlt : Nat.log2 (2 * n - 1) < k + 1 := by
      rw [Nat.log2_lt hn, Nat.pow_succ]
      omega
    exact Nat.pow_le_pow_right (by decide) (by omega)

theorem nextPowerOfTwo_two_pow (k : Nat) : nextPowerOfTwo (2 ^ k) = 2 ^ k :=
  Nat.le_antisymm (nextPowerOfTwo_le (Nat.le_refl _)) (le_nextPowerOfTwo _)

theorem nextPowerOfTwo_mono {a b : Nat} (h : a ≤ b) : nextPowerOfTwo a ≤ nextPowerOfTwo b :=
  nextPowerOfTwo_le (Nat.le_trans h (le_nextPowerOfTwo b))

/-- Rounding one side of a maximum up first rounds the maximum up to the same power. -/
theorem nextPowerOfTwo_max_nextPowerOfTwo (a b : Nat) :
    nextPowerOfTwo (max a (nextPowerOfTwo b)) = nextPowerOfTwo (max a b) := by
  apply Nat.le_antisymm
  · apply nextPowerOfTwo_le
    show max a (nextPowerOfTwo b) ≤ nextPowerOfTwo (max a b)
    have h₁ := le_nextPowerOfTwo (max a b)
    have h₂ := nextPowerOfTwo_mono (Nat.le_max_right a b)
    omega
  · have := le_nextPowerOfTwo b
    exact nextPowerOfTwo_mono (by omega)

/-- Rounding up to a power of two is monotone and stops at the first power above. -/
theorem nextPowerOfTwo_eq_of_le {n k : Nat} (hk : 1 ≤ k) (hlo : 2 ^ (k - 1) < n)
    (hhi : n ≤ 2 ^ k) : nextPowerOfTwo n = 2 ^ k := by
  have hn : 0 < n := Nat.lt_of_le_of_lt (Nat.zero_le _) hlo
  have hne : 2 * n - 1 ≠ 0 := by omega
  have hlog : Nat.log2 (2 * n - 1) = k := by
    rw [Nat.log2_eq_iff hne]
    obtain ⟨j, rfl⟩ : ∃ j, k = j + 1 := ⟨k - 1, by omega⟩
    simp only [Nat.add_sub_cancel, Nat.pow_succ] at hlo ⊢
    omega
  rw [nextPowerOfTwo, hlog]

theorem log2_mul_two_pow {x : Nat} (hx : x ≠ 0) : ∀ h : Nat, Nat.log2 (x * 2 ^ h) = Nat.log2 x + h
  | 0 => by simp
  | h + 1 => by
    rw [Nat.pow_succ, ← Nat.mul_assoc, Nat.mul_comm _ 2,
      Nat.log2_two_mul (Nat.mul_ne_zero hx (Nat.ne_of_gt (Nat.two_pow_pos h))),
      log2_mul_two_pow hx h, Nat.add_assoc]

/-- A node `x` whose subtree of height `h` starts among the `2 ^ (d - 1)` leaves of a tree of
depth `d` sits at level `d - 1 - h`. -/
theorem log2_add_of_mem_leaves {x h d : Nat} (hx : x ≠ 0) (hlo : 2 ^ (d - 1) ≤ x * 2 ^ h)
    (hhi : x * 2 ^ h < 2 ^ d) : Nat.log2 x + h + 1 = d := by
  have hne : x * 2 ^ h ≠ 0 := Nat.mul_ne_zero hx (Nat.ne_of_gt (Nat.two_pow_pos h))
  have hd : 1 ≤ d := by
    by_contra hd
    have : d = 0 := by omega
    subst this
    have := Nat.pos_of_ne_zero hne
    simp at hhi
    omega
  have hlog : Nat.log2 (x * 2 ^ h) = d - 1 := by
    rw [Nat.log2_eq_iff hne]
    exact ⟨hlo, by rwa [Nat.sub_add_cancel hd]⟩
  rw [log2_mul_two_pow hx] at hlog
  omega

end PowersOfTwo

section HeapLayers
variable (node)

/-- The value at heap node `x` of the tree of height `H` over `f`: the entry at `x`'s place in
its level of the layer `H - log2 x` levels above the leaves. -/
def heapValue (H : Nat) (f : Nat → α) (x : Nat) : α :=
  ((layer node)^[H - Nat.log2 x] f) (x - 2 ^ Nat.log2 x)

variable {node}

theorem heapValue_one (H : Nat) (f : Nat → α) : heapValue node H f 1 = treeRoot node H f := by
  rw [heapValue, treeRoot_eq_iterate, show Nat.log2 1 = 0 by decide]
  rfl

/-- The nodes of the bottom level are the leaves. -/
theorem heapValue_of_leaf {H x : Nat} (f : Nat → α) (hlo : 2 ^ H ≤ x) (hhi : x < 2 ^ (H + 1)) :
    heapValue node H f x = f (x - 2 ^ H) := by
  have hlog : Nat.log2 x = H :=
    (Nat.log2_eq_iff (Nat.ne_of_gt (Nat.lt_of_lt_of_le (Nat.two_pow_pos H) hlo))).mpr ⟨hlo, hhi⟩
  rw [heapValue, hlog, Nat.sub_self]
  rfl

/-- A node above the leaves is the node over its children `2 x` and `2 x + 1`. -/
theorem heapValue_of_lt {H x : Nat} (f : Nat → α) (hx : 1 ≤ x) (hxH : x < 2 ^ H) :
    heapValue node H f x = node (heapValue node H f (2 * x)) (heapValue node H f (2 * x + 1)) := by
  have hx0 : x ≠ 0 := by omega
  have hlt : Nat.log2 x < H := (Nat.log2_lt hx0).mpr hxH
  have hle : 2 ^ Nat.log2 x ≤ x := Nat.log2_self_le hx0
  have hup : x < 2 ^ (Nat.log2 x + 1) := Nat.lt_log2_self
  have hleft : Nat.log2 (2 * x) = Nat.log2 x + 1 := Nat.log2_two_mul hx0
  -- The right child shares the left child's level.
  have hright : Nat.log2 (2 * x + 1) = Nat.log2 x + 1 := by
    rw [Nat.log2_eq_iff (by omega), Nat.pow_succ, Nat.pow_succ]
    rw [Nat.pow_succ] at hup
    constructor <;> omega
  unfold heapValue
  rw [hleft, hright, show H - Nat.log2 x = H - (Nat.log2 x + 1) + 1 by omega,
    Function.iterate_succ_apply', layer, Nat.pow_succ,
    show 2 * x - 2 ^ Nat.log2 x * 2 = 2 * (x - 2 ^ Nat.log2 x) by omega,
    show 2 * x + 1 - 2 ^ Nat.log2 x * 2 = 2 * (x - 2 ^ Nat.log2 x) + 1 by omega]

end HeapLayers

end Lighthouse.MerkleTree
