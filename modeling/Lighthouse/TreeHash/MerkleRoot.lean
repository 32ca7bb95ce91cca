import Lighthouse.TreeHash.Streaming
import Lighthouse.TreeHash.Merkleize
import Lighthouse.TreeHash.Standard

/-! `merkle_root` (`lib.rs`), and what the three Merkleizers of `tree_hash` have in common.
`merkle_root` answers trees of up to two leaves itself and hands bigger ones to a `MerkleHasher`
of the depth their leaf count rounds up to; its `expect`s are panics with their message and the
error as `{:?}` prints it.

For trees of at most `2 ^ 49` leaves they all return the root of the tree over the chunks of the
bytes: the hasher, for any split of the bytes into writes, `merkleize_padded`, and
`merkleize_standard` on the bytes zero-padded to the leaf count. Past that the table of zero
hashes runs out: the hasher and `merkleize_padded` panic on a tree whose right half is empty,
where `merkleize_standard`, which hashes its zeros itself, still returns. -/
namespace Lighthouse.TreeHash
open MerkleTree Ssz.Bitfield

/-- `merkle_hasher::Error` as `{:?}` prints it. -/
def MerkleHasher.Error.debug : MerkleHasher.Error → String
  | .maximumLeavesExceeded maxLeaves =>
    "MaximumLeavesExceeded \x7b max_leaves: " ++ toString maxLeaves ++ " \x7d"

/-- `Result::expect(msg)` on a call of the hasher: an error is a panic with the message and the
error, and a panic inside the call is left as it is. -/
def expectHasher (msg : String) : Fault MerkleHasher.Error → String
  | .error e => msg ++ ": " ++ e.debug
  | .panic s => s

section MerkleRoot
variable (sha : List UInt8 → Hash256)

/-- `merkle_root`. The leaf bytes of the small trees are copied into zeros with
`copy_from_slice`, which panics when they do not fit. -/
def merkleRoot (bytes : List UInt8) (minimumLeafCount : Nat) : Except String Hash256 :=
  let leaves := max ((bytes.length + 31) / 32) minimumLeafCount
  if leaves = 0 then pure Hash256.zero
  else if leaves = 1 then
    if bytes.length ≤ 32 then pure ⟨resize bytes 32, length_resize_hash bytes⟩
    else throw (rangeEndPanic bytes.length 32)
  else if leaves = 2 then
    if bytes.length ≤ 64 then pure (sha (resize bytes 64))
    else throw (rangeEndPanic bytes.length 64)
  else
    -- Both `expect`s carry the one message.
    (do
      let hasher ← MerkleHasher.withLeaves leaves
      let hasher ← (hasher.write sha bytes).mapError Fault.error
      hasher.finish sha).mapError
        (expectHasher "the number of leaves is adequate for the number of bytes")

end MerkleRoot

namespace MerkleHasher
open CacheRefinement

variable {sha : List UInt8 → Hash256}

section Depth

theorem getDepth_two_pow_mul_two_add_one (k : Nat) : getDepth (2 ^ k * 2 + 1) = k + 1 := by
  have h₀ := Nat.two_pow_pos k
  have h₁ : 2 ^ (k + 1) = 2 ^ k * 2 := Nat.pow_succ 2 k
  have h₂ : 2 ^ (k + 1 + 1) = 2 ^ (k + 1) * 2 := Nat.pow_succ 2 (k + 1)
  rw [getDepth, Nat.log2_eq_iff (n := 2 ^ k * 2 + 1) (by omega)]
  constructor <;> omega

/-- The zero hash at a node of a height past the table panics. -/
theorem zeroHash_of_lt {m : MerkleHasher} {x h : Nat} (hlev : getDepth x + h + 1 = m.depth)
    (hh : 48 < h) : m.zeroHash sha x = .error "Tree exceeds MAX_TREE_DEPTH of 48" := by
  rw [zeroHash, if_pos (by omega), show m.depth - (getDepth x + 1) = h by omega,
    getZeroHash_of_lt sha hh]

/-- Completing the only half node `q` with its right child leaves the half node of its parent. -/
theorem rightNodeLoop_single {q : Nat} (hq : q ≠ 1) (ctx : List UInt8) (v : Hash256)
    (root : Option Hash256) :
    rightNodeLoop sha [⟨ctx, q⟩] q v root = ([HalfNode.new (q / 2) (sha (ctx ++ v.bytes))], root) := by
  rw [rightNodeLoop, if_pos rfl]
  dsimp only
  rw [if_neg hq, rightNodeLoop]
  rfl

/-- In a hasher of depth `D ≥ 51` whose only half node is `2 ^ k`, with nothing to its right,
`finish` climbs to the root, each round completing the leftmost node of one level with the zero
hash of its empty right subtree, and panics at the first right subtree of a height past the
table: at the latest at node `3`, of height `D - 2 ≥ 49`. -/
theorem finishLoop_of_leftmost {D : Nat} (hD : 51 ≤ D) :
    ∀ (k fuel : Nat) (m : MerkleHasher) (ctx : List UInt8), k + 2 ≤ D → k + 1 ≤ fuel →
      m.depth = D → m.root = none → m.halfNodes = [⟨ctx, 2 ^ k⟩] →
      finishLoop sha fuel m = .error (.panic "Tree exceeds MAX_TREE_DEPTH of 48")
  | k, 0, _, _, _, hf, _, _, _ => absurd hf (by omega)
  | 0, fuel + 1, m, ctx, _, _, hd, hr, hn => by
    rw [finishLoop_of_halfNode hr hn, zeroHash_of_lt (h := D - 2)
      (by rw [getDepth_two_pow_mul_two_add_one, hd]; omega) (by omega)]
    rfl
  | k + 1, fuel + 1, m, ctx, hk, hf, hd, hr, hn => by
    have hlev : getDepth (2 ^ (k + 1) * 2 + 1) + (D - (k + 3)) + 1 = m.depth := by
      rw [getDepth_two_pow_mul_two_add_one, hd]
      omega
    rw [finishLoop_of_halfNode hr hn]
    by_cases hz : 48 < D - (k + 3)
    · rw [zeroHash_of_lt hlev hz]
      rfl
    -- The right subtree's zero hash is in the table: the parent becomes the half node.
    · rw [zeroHash_eq hlev (by omega), mapError_ok', ok_bind]
      have hpow : 2 ^ (k + 1) = 2 ^ k * 2 := Nat.pow_succ 2 k
      have hloop := @rightNodeLoop_single sha (2 ^ (k + 1))
        (Nat.ne_of_gt (Nat.one_lt_two_pow (by omega))) ctx (zeroHashes sha (D - (k + 3))) none
      refine finishLoop_of_leftmost hD k fuel _ (sha (ctx ++ (zeroHashes sha (D - (k + 3))).bytes)).bytes
        (by omega) (by omega) hd ?_ ?_
      · simp only [processRightNode, hn, getParent, show (2 ^ (k + 1) * 2 + 1) / 2 = 2 ^ (k + 1) by omega,
          hloop, hr]
      · simp only [processRightNode, hn, getParent, show (2 ^ (k + 1) * 2 + 1) / 2 = 2 ^ (k + 1) by omega,
          hr, hloop, show 2 ^ (k + 1) / 2 = 2 ^ k by omega]
        rfl

/-- A hasher of depth `d ≥ 51` given no bytes panics in `finish`. -/
theorem streamRoot_nil_of_depth {d : Nat} (hd : 51 ≤ d) :
    streamRoot sha d [] = .error (.panic "Tree exceeds MAX_TREE_DEPTH of 48") := by
  obtain ⟨e, rfl⟩ : ∃ e, d = e + 2 := ⟨d - 2, by omega⟩
  unfold streamRoot
  rw [withDepth_eq (by omega), ok_bind, List.foldlM_nil, pure_bind, finish,
    if_pos (show (fresh (e + 2)).buffer.isEmpty = true from rfl), pure_bind]
  show finishLoop sha (e + 2 + 1) (fresh (e + 2)) = _
  rw [finishLoop_of_nil rfl rfl,
    if_neg (show (fresh (e + 2)).nextLeaf ≠ 1 by
      show 2 ^ (e + 1) ≠ 1
      exact Nat.ne_of_gt (Nat.one_lt_two_pow (by omega))),
    zeroHash_eq (h := 0) (by show Nat.log2 (2 ^ (e + 1)) + 0 + 1 = e + 2; rw [Nat.log2_two_pow])
      (by omega), mapError_ok', ok_bind]
  -- The one left node sits at `2 ^ e`, the leftmost node above the leaves.
  refine finishLoop_of_leftmost hd e (e + 2) _ (zeroHashes sha 0).bytes (by omega) (by omega) rfl rfl ?_
  show [HalfNode.new (2 ^ (e + 1) / 2) _] = _
  rw [Nat.pow_succ, Nat.mul_div_cancel _ (by decide)]
  rfl

end Depth

end MerkleHasher

section PaddedDepth
variable {sha : List UInt8 → Hash256}

/-- A round over one node, at a height the table covers, pairs it with the zero hash. -/
theorem round_singleton {height : Nat} (hh : height ≤ 48) (x : Hash256) :
    round sha height [x] = .ok [hash32Concat sha x (zeroHashes sha height)] := by
  rw [round_eq sha hh (by simp), List.length_singleton]
  rfl

/-- Past the table, a round over one node panics for its missing right child. -/
theorem round_singleton_of_lt {height : Nat} (hh : 48 < height) (x : Hash256) :
    round sha height [x] = .error "Tree exceeds MAX_TREE_DEPTH of 48" := by
  have hc : children sha height [x] 0 = .error "Tree exceeds MAX_TREE_DEPTH of 48" := by
    show (getZeroHash sha height >>= fun right => pure (x, right)) = _
    rw [getZeroHash_of_lt sha hh]
    rfl
  unfold round
  dsimp only
  rw [List.length_singleton, show nextEvenNumber 1 / 2 = 1 by decide,
    show List.range 1 = [0] from rfl, List.foldlM_cons]
  simp only [hc]
  rfl

/-- The rounds from height `s` over one node, while the table covers them, leave one node. -/
theorem foldlM_round_singleton : ∀ (n s : Nat) (x : Hash256), s + n ≤ 49 →
    ∃ y, (List.range' s n).foldlM (fun c h => round sha h c) [x] = .ok [y]
  | 0, _, x, _ => ⟨x, rfl⟩
  | n + 1, s, x, h => by
    rw [List.range'_succ, List.foldlM_cons, round_singleton (by omega), CacheRefinement.ok_bind]
    exact foldlM_round_singleton n (s + 1) _ (by omega)

/-- `merkleize_padded` of no bytes for `2 ^ 50` leaves keeps one node per level and panics at the
round of height 49. -/
theorem merkleizePadded_nil_two_pow_fifty :
    merkleizePadded sha [] (2 ^ 50) = .error "Tree exceeds MAX_TREE_DEPTH of 48" := by
  unfold merkleizePadded
  rw [if_neg (by decide), if_neg (by decide)]
  dsimp only
  rw [show max ((([] : List UInt8).length + 31) / 32) (2 ^ 50) = 2 ^ 50 by simp,
    nextPowerOfTwo_two_pow, trailingZeros_two_pow (by decide), if_neg (by decide),
    show max 1 (nextEvenNumber ((([] : List UInt8).length + 31) / 32) / 2) = 1 by decide,
    firstRound_eq sha (fun i hi => by omega), CacheRefinement.ok_bind,
    show 50 + 1 - 2 = 48 + 1 from rfl, List.range'_concat, List.foldlM_append]
  obtain ⟨y, hy⟩ := @foldlM_round_singleton sha 48 1 (layer (hash32Concat sha) (chunk []) 0)
    (by omega)
  rw [show (List.range 1).map (layer (hash32Concat sha) (chunk [])) =
      [layer (hash32Concat sha) (chunk []) 0] from rfl,
    hy, CacheRefinement.ok_bind, List.foldlM_cons, round_singleton_of_lt (by decide)]
  rfl

end PaddedDepth

section Agreement
variable (sha : List UInt8 → Hash256)

theorem merkleRoot_of_le_one {bytes : List UInt8} {minLeaves : Nat}
    (hsmall : bytes.length ≤ 32 ∧ minLeaves ≤ 1) :
    merkleRoot sha bytes minLeaves = .ok ⟨resize bytes 32, length_resize _ _⟩ := by
  unfold merkleRoot
  dsimp only
  by_cases h0 : max ((bytes.length + 31) / 32) minLeaves = 0
  · -- No leaf at all: no bytes, and the zero hash is their padding.
    have hnil : bytes = [] := List.eq_nil_of_length_eq_zero (by omega)
    subst hnil
    rw [if_pos h0]
    rfl
  · rw [if_neg h0, if_pos (by omega), if_pos hsmall.1]
    rfl

theorem merkleizeStandard_resize_of_le_one {bytes : List UInt8} {minLeaves : Nat}
    (hsmall : bytes.length ≤ 32 ∧ minLeaves ≤ 1) :
    merkleizeStandard sha (resize bytes (max bytes.length (nextPowerOfTwo minLeaves * 32))) =
      .ok ⟨resize bytes 32, length_resize _ _⟩ := by
  have hone : nextPowerOfTwo minLeaves = 1 := by
    have := nextPowerOfTwo_le (k := 0) (n := minLeaves) (by omega)
    have := le_nextPowerOfTwo minLeaves
    have : 0 < nextPowerOfTwo minLeaves := Nat.two_pow_pos _
    omega
  rw [hone, show max bytes.length (1 * 32) = 32 by omega, merkleizeStandard,
    if_pos (by rw [length_resize])]
  congr 2
  rw [resize_of_length_le (by rw [length_resize]), length_resize, Nat.sub_self,
    List.replicate_zero, List.append_nil]

/-- `merkleize_standard` on the bytes zero-padded to the leaf count returns the root over their
chunks, whatever the height: it hashes its zeros itself. -/
theorem merkleizeStandard_resize_eq_treeRoot {bytes : List UInt8} {minLeaves H : Nat}
    (hslow : ¬(bytes.length ≤ 32 ∧ minLeaves ≤ 1))
    (hH : nextPowerOfTwo (max ((bytes.length + 31) / 32) minLeaves) = 2 ^ H) :
    merkleizeStandard sha (resize bytes (max bytes.length (nextPowerOfTwo minLeaves * 32))) =
      .ok (treeRoot (hash32Concat sha) H (chunk bytes)) := by
  have hm := le_nextPowerOfTwo minLeaves
  have hpad : resize bytes (max bytes.length (nextPowerOfTwo minLeaves * 32)) =
      bytes ++ List.replicate (max bytes.length (nextPowerOfTwo minLeaves * 32) - bytes.length) 0 :=
    resize_of_length_le (Nat.le_max_left _ _)
  -- The padding rounds the chunk count up to the leaf count's power of two, not past it.
  have hleaves : numSanitizedLeaves (max bytes.length (nextPowerOfTwo minLeaves * 32)) = 2 ^ H := by
    rw [numSanitizedLeaves, show (max bytes.length (nextPowerOfTwo minLeaves * 32) + 32 - 1) / 32 =
      max ((bytes.length + 31) / 32) (nextPowerOfTwo minLeaves) by omega,
      nextPowerOfTwo_max_nextPowerOfTwo, hH]
  rw [merkleizeStandard_eq_treeRoot sha (by rw [length_resize]; omega)
    (by rw [length_resize]; exact hleaves), hpad]
  congr 2
  funext i
  exact chunk_append_replicate bytes _ i

/-- From three leaves on, `merkle_root` is a hasher of the depth of the rounded leaf count fed
the bytes in one write. -/
theorem merkleRoot_of_three_le {bytes : List UInt8} {minLeaves : Nat}
    (h3 : 3 ≤ max ((bytes.length + 31) / 32) minLeaves) :
    merkleRoot sha bytes minLeaves =
      (streamRoot sha (getDepth (nextPowerOfTwo (max ((bytes.length + 31) / 32) minLeaves)) + 1)
        [bytes]).mapError (expectHasher "the number of leaves is adequate for the number of bytes") := by
  unfold merkleRoot streamRoot
  dsimp only
  rw [if_neg (by omega), if_neg (by omega), if_neg (by omega)]
  simp only [List.foldlM_cons, List.foldlM_nil, bind_pure]
  rfl

theorem merkleRoot_eq_treeRoot {bytes : List UInt8} {minLeaves H : Nat}
    (hslow : ¬(bytes.length ≤ 32 ∧ minLeaves ≤ 1))
    (hH : nextPowerOfTwo (max ((bytes.length + 31) / 32) minLeaves) = 2 ^ H) (hH49 : H ≤ 49) :
    merkleRoot sha bytes minLeaves = .ok (treeRoot (hash32Concat sha) H (chunk bytes)) := by
  have hmax := le_nextPowerOfTwo (max ((bytes.length + 31) / 32) minLeaves)
  rw [hH] at hmax
  by_cases h2 : max ((bytes.length + 31) / 32) minLeaves = 2
  · -- Two leaves: the tree of height one, hashed in one call.
    have hH1 : H = 1 := by
      rw [h2, show 2 = 2 ^ 1 from rfl, nextPowerOfTwo_two_pow] at hH
      exact (Nat.pow_right_injective (Nat.le_refl 2) hH).symm
    unfold merkleRoot
    dsimp only
    rw [if_neg (by omega), if_neg (by omega), if_pos h2, if_pos (by omega), hH1, treeRoot_succ,
      treeRoot_zero, treeRoot_zero, show 2 ^ 0 + 0 = 0 + 1 from rfl, hash32Concat_chunk,
      Nat.mul_zero, List.drop_zero]
    rfl
  · -- More: a hasher of depth `H + 1`, fed the bytes in one write.
    rw [merkleRoot_of_three_le sha (by omega), hH, getDepth, Nat.log2_two_pow,
      MerkleHasher.streamRoot_eq_treeRoot (by omega) (by omega) [bytes]
        (by rw [List.flatten_singleton, Nat.add_sub_cancel]; omega),
      List.flatten_singleton, Nat.add_sub_cancel]
    rfl

/-- For depths up to 50, a hasher fed at most `2 ^ (d - 1)` leaves of bytes, split into writes in
any way, returns what `merkleize_padded` returns for those bytes and `2 ^ (d - 1)` leaves. -/
theorem streamRoot_eq_merkleizePadded (d : Nat) (writes : List (List UInt8)) (hd : 1 ≤ d)
    (hd50 : d ≤ 50) (hlen : writes.flatten.length ≤ 32 * 2 ^ (d - 1)) :
    ∃ r, streamRoot sha d writes = .ok r ∧
      merkleizePadded sha writes.flatten (2 ^ (d - 1)) = .ok r := by
  refine ⟨treeRoot (hash32Concat sha) (d - 1) (chunk writes.flatten),
    MerkleHasher.streamRoot_eq_treeRoot hd hd50 writes hlen, ?_⟩
  by_cases hd1 : d = 1
  · -- One leaf: the fast path of `merkleize_padded`, the padded bytes themselves.
    subst hd1
    rw [merkleizePadded, if_pos ⟨by simpa using hlen, by decide⟩]
    rfl
  · have hpow : 1 < 2 ^ (d - 1) := Nat.one_lt_two_pow (by omega)
    exact merkleizePadded_eq_treeRoot sha _ _ (by omega)
      (by rw [Nat.max_eq_right (by omega), nextPowerOfTwo_two_pow]) (by omega)

theorem streamRoot_eq_merkleizePadded_threeWrites :
    1 ≤ 2 ∧ 2 ≤ 50 ∧ [[(1 : UInt8), 2, 3], [], [4]].flatten.length ≤ 32 * 2 ^ (2 - 1) ∧
      ∃ r, streamRoot (fun bs => chunk bs 0) 2 [[1, 2, 3], [], [4]] = .ok r ∧
        merkleizePadded (fun bs => chunk bs 0) [[(1 : UInt8), 2, 3], [], [4]].flatten (2 ^ (2 - 1)) =
          .ok r :=
  ⟨by decide, by decide, by decide,
    streamRoot_eq_merkleizePadded _ 2 _ (by decide) (by decide) (by decide)⟩

/-- At depth 51 a hasher given no bytes panics in `finish`: it needs the zero hash of height 49
for the right half of the tree. -/
theorem streamRoot_panics_at_depth_fiftyOne :
    streamRoot (fun bs => chunk bs 0) 51 [] = .error (.panic "Tree exceeds MAX_TREE_DEPTH of 48") :=
  MerkleHasher.streamRoot_nil_of_depth (by decide)

/-- Up to `2 ^ 49` leaves, `merkle_root`, `merkleize_padded` and `merkleize_standard` on the
bytes zero-padded to the leaf count all return one root. -/
theorem merkleizers_agree (bytes : List UInt8) (minLeaves : Nat)
    (hsize : nextPowerOfTwo (max ((bytes.length + 31) / 32) minLeaves) ≤ 2 ^ 49) :
    ∃ r, merkleRoot sha bytes minLeaves = .ok r ∧ merkleizePadded sha bytes minLeaves = .ok r ∧
      merkleizeStandard sha (resize bytes (max bytes.length (nextPowerOfTwo minLeaves * 32))) =
        .ok r := by
  by_cases hsmall : bytes.length ≤ 32 ∧ minLeaves ≤ 1
  · -- One leaf or none: every fast path returns the padded bytes.
    refine ⟨⟨resize bytes 32, length_resize _ _⟩, merkleRoot_of_le_one sha hsmall, ?_,
      merkleizeStandard_resize_of_le_one sha hsmall⟩
    rw [merkleizePadded, if_pos hsmall]
    rfl
  · obtain ⟨H, hH⟩ : ∃ H, nextPowerOfTwo (max ((bytes.length + 31) / 32) minLeaves) = 2 ^ H :=
      ⟨_, rfl⟩
    have hH49 : H ≤ 49 := (Nat.pow_le_pow_iff_right (by decide)).mp (hH ▸ hsize)
    exact ⟨_, merkleRoot_eq_treeRoot sha hsmall hH hH49,
      merkleizePadded_eq_treeRoot sha bytes minLeaves hsmall hH hH49,
      merkleizeStandard_resize_eq_treeRoot sha hsmall hH⟩

theorem merkleizers_agree_at_threeLeaves :
    nextPowerOfTwo (max (((List.replicate 40 (7 : UInt8)).length + 31) / 32) 3) ≤ 2 ^ 49 ∧
      ∃ r, merkleRoot (fun bs => chunk bs 0) (List.replicate 40 7) 3 = .ok r ∧
        merkleizePadded (fun bs => chunk bs 0) (List.replicate 40 7) 3 = .ok r ∧
        merkleizeStandard (fun bs => chunk bs 0) (resize (List.replicate 40 7)
          (max (List.replicate 40 (7 : UInt8)).length (nextPowerOfTwo 3 * 32))) = .ok r :=
  ⟨by decide, merkleizers_agree _ _ _ (by decide)⟩

/-- With no bytes and `2 ^ 50` leaves, `merkleize_padded` panics where `merkleize_standard` on the
padded bytes returns the zero hash of height 50, whatever the hash function. -/
theorem merkleizePadded_nil_panics_of_standard_ok :
    merkleizePadded sha [] (2 ^ 50) = .error "Tree exceeds MAX_TREE_DEPTH of 48" ∧
      merkleizeStandard sha (resize [] (max ([] : List UInt8).length (nextPowerOfTwo (2 ^ 50) * 32))) =
        .ok (zeroHashes sha 50) := by
  refine ⟨merkleizePadded_nil_two_pow_fifty, ?_⟩
  rw [merkleizeStandard_resize_eq_treeRoot sha (H := 50) (by decide)
    (by rw [show max ((([] : List UInt8).length + 31) / 32) (2 ^ 50) = 2 ^ 50 by simp,
      nextPowerOfTwo_two_pow])]
  exact congrArg Except.ok (treeRoot_eq_zeroRoot 50 fun i _ => chunk_of_length_le (Nat.zero_le _))

theorem merkleizePadded_panics_where_standard_returns :
    merkleizePadded (fun bs => chunk bs 0) [] (2 ^ 50) = .error "Tree exceeds MAX_TREE_DEPTH of 48" ∧
      merkleizeStandard (fun bs => chunk bs 0)
          (resize [] (max ([] : List UInt8).length (nextPowerOfTwo (2 ^ 50) * 32))) =
        .ok (zeroHashes (fun bs => chunk bs 0) 50) :=
  merkleizePadded_nil_panics_of_standard_ok _

end Agreement

end Lighthouse.TreeHash
