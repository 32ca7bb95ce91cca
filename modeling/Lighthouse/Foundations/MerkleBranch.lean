import Lighthouse.Foundations.MerkleTree

/-! Branches of perfect trees. The branch of leaf `i` lists, from the bottom up, the roots of
the subtrees beside the path from that leaf to the root; the climb folds a leaf with a branch,
putting each entry on the left or the right as bit `k` of the index says at height `k`. Climbing
leaf `i`'s branch from leaf `i` rebuilds the root (`rootFromBranch_branch`), and the climb reads
only as many bits of the index as the branch is long (`rootFromBranch_congr_index`). -/
namespace Lighthouse.MerkleTree
variable {α : Type*} (node : α → α → α)

/-- The roots beside the path from leaf `i` to the root of the tree of height `h` over `f`,
from the bottom up. -/
def branch : Nat → (Nat → α) → Nat → List α
  | 0, _, _ => []
  | h + 1, f, i =>
    if 2 ^ h ≤ i then branch h (fun j => f (2 ^ h + j)) (i - 2 ^ h) ++ [treeRoot node h f]
    else branch h f i ++ [treeRoot node h fun j => f (2 ^ h + j)]

/-- One level of the climb: the entry of height `p.2` joins the value climbed so far on the side
that bit `p.2` of the index names. -/
def climb (index : Nat) (acc : α) (p : α × Nat) : α :=
  if index.testBit p.2 then node p.1 acc else node acc p.1

/-- The root rebuilt from a leaf and a branch, one level per entry. -/
def rootFromBranch (index : Nat) (leaf : α) (br : List α) : α :=
  br.zipIdx.foldl (climb node index) leaf

variable {node}

theorem length_branch : ∀ (h : Nat) (f : Nat → α) (i : Nat), (branch node h f i).length = h
  | 0, _, _ => rfl
  | h + 1, f, i => by
    unfold branch
    split <;> simp [length_branch h]

/-- The branch reads the first `2 ^ h` leaves only. -/
theorem branch_congr : ∀ (h : Nat) {f g : Nat → α} (i : Nat), (∀ j < 2 ^ h, f j = g j) →
    branch node h f i = branch node h g i
  | 0, _, _, _, _ => rfl
  | h + 1, f, g, i, hfg => by
    have hpow : 2 ^ (h + 1) = 2 ^ h + 2 ^ h := by omega
    have hleft : ∀ j < 2 ^ h, f j = g j := fun j hj => hfg j (by omega)
    have hright : ∀ j < 2 ^ h, f (2 ^ h + j) = g (2 ^ h + j) := fun j hj => hfg _ (by omega)
    unfold branch
    rw [treeRoot_congr h hleft, treeRoot_congr h hright, branch_congr h i hleft,
      branch_congr h (i - 2 ^ h) hright]

/-- The bit test of the source, `(index >> k) & 1 == 1`, is the test of bit `k`. -/
theorem shiftRight_and_one_eq_one_iff (index k : Nat) :
    (index >>> k) &&& 1 = 1 ↔ index.testBit k = true := by
  rw [Nat.testBit_eq_decide_div_mod_eq, Nat.and_one_is_mod, Nat.shiftRight_eq_div_pow]
  simp

theorem rootFromBranch_nil (index : Nat) (leaf : α) : rootFromBranch node index leaf [] = leaf :=
  rfl

/-- The last entry of a branch is its top level. -/
theorem rootFromBranch_append_singleton (index : Nat) (leaf : α) (br : List α) (s : α) :
    rootFromBranch node index leaf (br ++ [s]) =
      climb node index (rootFromBranch node index leaf br) (s, br.length) := by
  simp [rootFromBranch, List.zipIdx_append]

/-- An entry put on top of a branch joins on the right when the index stops below it. -/
theorem rootFromBranch_append_top {index : Nat} (leaf : α) (br : List α) (s : α)
    (hi : index < 2 ^ br.length) :
    rootFromBranch node index leaf (br ++ [s]) = node (rootFromBranch node index leaf br) s := by
  rw [rootFromBranch_append_singleton, climb,
    if_neg (by rw [Nat.testBit_eq_false_of_lt hi]; decide)]

/-- Indices that agree on the bits below the branch's length climb alike. -/
theorem rootFromBranch_congr_index {index index' : Nat} (leaf : α) (br : List α)
    (h : ∀ k < br.length, index.testBit k = index'.testBit k) :
    rootFromBranch node index leaf br = rootFromBranch node index' leaf br := by
  unfold rootFromBranch
  apply List.foldl_ext
  rintro acc ⟨s, k⟩ hmem
  have hk := (List.mem_zipIdx hmem).2.1
  simp only [climb, h k (by omega)]

/-- Climbing leaf `i`'s own branch from that leaf rebuilds the root. The induction is on the
height; at each level the index falls in the left or the right half, and the low bits that the
half's branch reads are those of the index within the half. -/
theorem rootFromBranch_branch : ∀ (h : Nat) (f : Nat → α) {i : Nat}, i < 2 ^ h →
    rootFromBranch node i (f i) (branch node h f i) = treeRoot node h f
  | 0, f, i, hi => by
    obtain rfl : i = 0 := by simpa using hi
    rfl
  | h + 1, f, i, hi => by
    unfold branch
    split
    case isTrue hle =>
      -- The right half: `i = 2 ^ h + m` with `m` the index inside it.
      obtain ⟨m, rfl⟩ : ∃ m, i = 2 ^ h + m := ⟨i - 2 ^ h, by omega⟩
      have hm : m < 2 ^ h := by rw [Nat.pow_succ] at hi; omega
      have hlow : rootFromBranch node (2 ^ h + m) (f (2 ^ h + m))
          (branch node h (fun j => f (2 ^ h + j)) m) =
          rootFromBranch node m (f (2 ^ h + m)) (branch node h (fun j => f (2 ^ h + j)) m) :=
        rootFromBranch_congr_index _ _ fun k hk =>
          Nat.testBit_two_pow_add_gt (by rwa [length_branch] at hk) m
      have htop : (2 ^ h + m).testBit h = true := by
        rw [Nat.testBit_two_pow_add_eq, Nat.testBit_eq_false_of_lt hm]
        rfl
      rw [Nat.add_sub_cancel_left, rootFromBranch_append_singleton, hlow,
        rootFromBranch_branch h (fun j => f (2 ^ h + j)) hm, length_branch, climb, if_pos htop,
        treeRoot_succ]
    case isFalse hlt =>
      have hi' : i < 2 ^ h := by omega
      rw [rootFromBranch_append_top _ _ _ (by rwa [length_branch]), rootFromBranch_branch h f hi',
        treeRoot_succ]

end Lighthouse.MerkleTree
