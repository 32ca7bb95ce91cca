import Lighthouse.TreeHash.Hash
import Lighthouse.Foundations.CacheRefinement

/-! `merkleize_standard` (`merkleize_standard.rs`): the reference Merkleizer that lays the whole
tree out as a binary heap in one byte array, the internal nodes first as zeros and the bytes after
them, and hashes each internal node from its two children, the last one first. Reads past the end
of the array are zeros, as the code's padding and `empty_chunk_hash` make them; the slicing and
the subtraction that could panic are kept with their messages, and never happen.

The block of 32 bytes at position `p` is node `p + 1` of the library's heap numbering, so the
loop keeps the invariant that every block from the one it writes next on holds the value of its
node (`heapValue`), and the first block ends as the root (`merkleizeStandard_eq_treeRoot`). -/
namespace Lighthouse.TreeHash
open MerkleTree

/-- `num_sanitized_leaves`. -/
def numSanitizedLeaves (numBytes : Nat) : Nat := nextPowerOfTwo ((numBytes + 32 - 1) / 32)

/-- `num_nodes`. -/
def numNodes (numLeaves : Nat) : Nat := 2 * numLeaves - 1

/-- `o[j..j + HASHSIZE].copy_from_slice(&hash)`, which panics past the end of `o`. -/
def copyHash (o : List UInt8) (j : Nat) (hash : Hash256) : Except String (List UInt8) :=
  if j + 32 ≤ o.length then pure (o.take j ++ hash.bytes ++ o.drop (j + 32))
  else throw (rangeEndPanic (j + 32) o.length)

section Standard
variable (sha : List UInt8 → Hash256)

/-- The hash of the 64 bytes of `o` from `i`: all of them, or what there is padded with zeros,
or `empty_chunk_hash` when none is left. -/
def pairAt (o : List UInt8) (i : Nat) : Hash256 :=
  if i + 64 ≤ o.length then sha ((o.drop i).take 64)
  else if i ≤ o.length then sha (resize (o.drop i) 64)
  else sha (List.replicate 64 0)

/-- The loop of `merkleize_standard` from the byte offsets `i` and `j`. -/
def standardLoop (o : List UInt8) (i j : Nat) : Except String (List UInt8) :=
  if i ≥ 64 then
    if j < 32 then throw "attempt to subtract with overflow"
    else do
      let o ← copyHash o (j - 32) (pairAt sha o (i - 64))
      standardLoop o (i - 64) (j - 32)
  else pure o
termination_by i
decreasing_by omega

/-- `merkleize_standard`. -/
def merkleizeStandard (bytes : List UInt8) : Except String Hash256 :=
  if bytes.length ≤ 32 then pure ⟨resize bytes 32, length_resize_hash bytes⟩
  else
    let leaves := numSanitizedLeaves bytes.length
    let nodes := numNodes leaves
    let internalNodes := nodes - leaves
    let numBytes := max internalNodes 1 * 32 + bytes.length
    let o := List.replicate (internalNodes * 32) 0 ++ bytes
    if o.length ≠ numBytes then
      throw ("assertion `left == right` failed\n  left: " ++ toString o.length ++ "\n right: " ++
        toString numBytes)
    else do
      let o ← standardLoop sha o (nodes * 32) (internalNodes * 32)
      if h : 32 ≤ o.length then pure ⟨o.take 32, length_take_hash h⟩
      else throw (rangeEndPanic 32 o.length)

end Standard

section Laws

/-- Two blocks are equal when their bytes are, zeros read past the ends. -/
theorem chunk_congr {s t : List UInt8} {p q : Nat}
    (h : ∀ i, i < 32 → s.getD (32 * p + i) 0 = t.getD (32 * q + i) 0) : chunk s p = chunk t q := by
  apply Hash256.ext
  apply List.ext_getElem (by simp [chunk])
  intro i h₁ _
  have hi : i < 32 := by simpa [chunk] using h₁
  simp only [chunk]
  rw [getElem_resize, getElem_resize, List.getD_eq_getElem?_getD, List.getD_eq_getElem?_getD,
    List.getElem?_drop, List.getElem?_drop, ← List.getD_eq_getElem?_getD,
    ← List.getD_eq_getElem?_getD]
  exact h i hi

/-- The bytes after a copy: the hash's in the 32 bytes from `j`, the old ones elsewhere. -/
theorem getD_copy {o : List UInt8} {j : Nat} (hash : Hash256) (hj : j + 32 ≤ o.length) (n : Nat) :
    (o.take j ++ hash.bytes ++ o.drop (j + 32)).getD n 0 =
      if j ≤ n ∧ n < j + 32 then hash.bytes.getD (n - j) 0 else o.getD n 0 := by
  have hb := hash.length_bytes
  have hpre : (o.take j ++ hash.bytes).length = j + 32 := by simp; omega
  simp only [List.getD_eq_getElem?_getD]
  by_cases hlo : n < j
  · rw [if_neg (by omega), List.getElem?_append_left (by omega),
      List.getElem?_append_left (by simp; omega), List.getElem?_take, if_pos hlo]
  · by_cases hhi : n < j + 32
    · rw [if_pos ⟨by omega, hhi⟩, List.getElem?_append_left (by omega),
        List.getElem?_append_right (by simp; omega), List.length_take, Nat.min_eq_left (by omega)]
    · rw [if_neg (by omega), List.getElem?_append_right (by omega), hpre, List.getElem?_drop,
        Nat.add_sub_cancel' (by omega)]

theorem chunk_bytes (hash : Hash256) : chunk hash.bytes 0 = hash := by
  apply Hash256.ext
  simp only [chunk, Nat.mul_zero, List.drop_zero]
  rw [resize_of_length_le (Nat.le_of_eq hash.length_bytes), hash.length_bytes, Nat.sub_self,
    List.replicate_zero, List.append_nil]

/-- The block a copy writes holds the hash. -/
theorem chunk_copy_self {o : List UInt8} {k : Nat} (hash : Hash256) (hk : 32 * k + 32 ≤ o.length) :
    chunk (o.take (32 * k) ++ hash.bytes ++ o.drop (32 * k + 32)) k = hash := by
  conv_rhs => rw [← chunk_bytes hash]
  refine chunk_congr fun i hi => ?_
  rw [getD_copy hash hk, if_pos ⟨by omega, by omega⟩, Nat.mul_zero, Nat.zero_add,
    Nat.add_sub_cancel_left]

/-- Every other block is left as it was. -/
theorem chunk_copy_of_ne {o : List UInt8} {k p : Nat} (hash : Hash256) (hk : 32 * k + 32 ≤ o.length)
    (hp : p ≠ k) : chunk (o.take (32 * k) ++ hash.bytes ++ o.drop (32 * k + 32)) p = chunk o p :=
  chunk_congr fun i hi => by
    rw [getD_copy hash hk, if_neg (by omega)]

/-- Below the zeros of the internal nodes, the blocks are the leaves. -/
theorem chunk_replicate_append (n : Nat) (bytes : List UInt8) {p : Nat} (hp : n ≤ p) :
    chunk (List.replicate (32 * n) 0 ++ bytes) p = chunk bytes (p - n) := by
  apply Hash256.ext
  simp only [chunk]
  rw [List.drop_append, List.drop_eq_nil_of_le (by simp; omega), List.nil_append,
    List.length_replicate, Nat.mul_sub]

variable {sha : List UInt8 → Hash256}

/-- The pair read at the start of block `q` is the node over blocks `q` and `q + 1`. -/
theorem pairAt_eq (o : List UInt8) (q : Nat) :
    pairAt sha o (32 * q) = hash32Concat sha (chunk o q) (chunk o (q + 1)) := by
  rw [hash32Concat_chunk]
  unfold pairAt
  split_ifs with h₁ h₂
  · rw [resize, (List.replicate_eq_nil_iff _).mpr (by simp; omega), List.append_nil]
  · rfl
  · -- No byte is left: the empty-chunk hash is the hash of 64 zeros.
    rw [List.drop_eq_nil_of_le (by omega)]
    rfl

/-- The loop from node `k + 1` down, over an array whose blocks from `k` on hold their nodes'
values: it ends with the root in the first block. -/
theorem standardLoop_eq (f : Nat → Hash256) (H : Nat) :
    ∀ k (o : List UInt8), k < 2 ^ H → 32 * (2 ^ H - 1) ≤ o.length →
      (∀ p, k ≤ p → p + 1 < 2 ^ (H + 1) →
        chunk o p = heapValue (hash32Concat sha) H f (p + 1)) →
      ∃ o', standardLoop sha o (64 * k + 32) (32 * k) = .ok o' ∧ o'.length = o.length ∧
        chunk o' 0 = treeRoot (hash32Concat sha) H f
  | 0, o, _, _, hinv => by
    refine ⟨o, ?_, rfl, ?_⟩
    · rw [standardLoop, if_neg (by omega)]
      rfl
    · rw [hinv 0 (Nat.le_refl 0) (by rw [Nat.pow_succ]; have := Nat.two_pow_pos H; omega),
        heapValue_one]
  | k + 1, o, hk, hlen, hinv => by
    have hpow : 2 ^ (H + 1) = 2 * 2 ^ H := by rw [Nat.pow_succ, Nat.mul_comm]
    rw [standardLoop, if_pos (by omega), if_neg (by omega),
      show 64 * (k + 1) + 32 - 64 = 32 * (2 * k + 1) by omega,
      show 32 * (k + 1) - 32 = 32 * k by omega]
    -- Node `k + 1` is hashed from its children, at positions `2 k + 1` and `2 k + 2`.
    have hnode : pairAt sha o (32 * (2 * k + 1)) = heapValue (hash32Concat sha) H f (k + 1) := by
      rw [pairAt_eq, hinv (2 * k + 1) (by omega) (by omega), hinv (2 * k + 1 + 1) (by omega)
        (by omega), heapValue_of_lt f (by omega) hk, show 2 * k + 1 + 1 = 2 * (k + 1) by omega]
    rw [hnode, copyHash, if_pos (by omega), pure_bind,
      show 32 * (2 * k + 1) = 64 * k + 32 by omega]
    obtain ⟨o', hloop, hlen', hroot⟩ := standardLoop_eq f H k
      (o.take (32 * k) ++ (heapValue (hash32Concat sha) H f (k + 1)).bytes ++ o.drop (32 * k + 32))
      (by omega) (by simp only [List.length_append, List.length_take, List.length_drop,
        Hash256.length_bytes]; omega) (fun p hp hpH => by
        by_cases hpk : p = k
        · rw [hpk, chunk_copy_self _ (by omega)]
        · rw [chunk_copy_of_ne _ (by omega) hpk, hinv p (by omega) hpH])
    refine ⟨o', hloop, ?_, hroot⟩
    rw [hlen']
    simp only [List.length_append, List.length_take, List.length_drop, Hash256.length_bytes]
    omega

variable (sha)

/-- Past its fast path, `merkleize_standard` returns the root of the tree of height `H` over the
chunks of the bytes, where `2 ^ H` is their number rounded up to a power of two. -/
theorem merkleizeStandard_eq_treeRoot {bytes : List UInt8} (hlen : 32 < bytes.length) {H : Nat}
    (hH : numSanitizedLeaves bytes.length = 2 ^ H) :
    merkleizeStandard sha bytes = .ok (treeRoot (hash32Concat sha) H (chunk bytes)) := by
  have hleaves := le_nextPowerOfTwo ((bytes.length + 32 - 1) / 32)
  rw [← numSanitizedLeaves, hH] at hleaves
  have hpow : 2 ^ (H + 1) = 2 * 2 ^ H := by rw [Nat.pow_succ, Nat.mul_comm]
  have hint : numNodes (2 ^ H) - 2 ^ H = 2 ^ H - 1 := by
    unfold numNodes
    omega
  unfold merkleizeStandard
  rw [if_neg (by omega)]
  dsimp only
  rw [hH, hint, if_neg (by rw [List.length_append, List.length_replicate]; omega),
    show numNodes (2 ^ H) * 32 = 64 * (2 ^ H - 1) + 32 by unfold numNodes; omega,
    show (2 ^ H - 1) * 32 = 32 * (2 ^ H - 1) by omega]
  -- The leaves start at position `2 ^ H - 1`, node `2 ^ H`.
  obtain ⟨o, hloop, hlen', hroot⟩ := @standardLoop_eq sha (chunk bytes) H (2 ^ H - 1)
    (List.replicate (32 * (2 ^ H - 1)) 0 ++ bytes) (by omega) (by simp) (fun p hp hpH => by
      rw [chunk_replicate_append _ _ hp, heapValue_of_leaf _ (by omega) hpH]
      congr 1
      omega)
  have h32 : 32 ≤ o.length := by
    rw [hlen', List.length_append, List.length_replicate]
    omega
  rw [hloop, CacheRefinement.ok_bind, dif_pos h32, ← hroot]
  congr 1
  apply Hash256.ext
  simp only [chunk, Nat.mul_zero, List.drop_zero]
  rw [resize, Nat.sub_eq_zero_of_le h32, List.replicate_zero, List.append_nil]

end Laws

end Lighthouse.TreeHash
