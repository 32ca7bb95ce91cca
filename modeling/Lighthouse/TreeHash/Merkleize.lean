import Lighthouse.TreeHash.Hash
import Mathlib.Logic.Function.Iterate
import Lighthouse.Foundations.CacheRefinement

/-! `merkleize_padded` (`merkleize_padded.rs`): the reference Merkleizer that keeps one layer of
the tree at a time in a `ChunkStore`, the parents of the leaves that hold bytes first, then each
layer above hashed in place from the one below, a missing right child being the zero hash of its
height. The store is a list of 32-byte values; `expect`, `unreachable!` and the assertions are
panics with their messages.

Read as functions from positions to values, padded with the zero hash of their height, the
layers are the iterated `layer` of the chunks (`RepAt`), so the single value left is the root of
the tree over the chunks (`merkleizePadded_eq_treeRoot`). -/
namespace Lighthouse.TreeHash
open MerkleTree

/-- `next_even_number`. -/
def nextEvenNumber (n : Nat) : Nat := n + n % 2

/-- `usize::trailing_zeros` on the low `bits` bits. -/
def trailingZerosFrom : Nat → Nat → Nat
  | 0, _ => 0
  | bits + 1, n => if n % 2 = 0 then trailingZerosFrom bits (n / 2) + 1 else 0

/-- `usize::trailing_zeros`, for 64-bit `usize`. -/
def trailingZeros (n : Nat) : Nat := trailingZerosFrom 64 n

/-- `ChunkStore::set(i, value).expect(msg)`. -/
def chunkSet (chunks : List Hash256) (i : Nat) (value : Hash256) (msg : String) :
    Except String (List Hash256) :=
  if i < chunks.length then pure (chunks.set i value) else throw (msg ++ ": ()")

section Padded
variable (sha : List UInt8 → Hash256)

/-- The hash of the `i`-th pair of leaves: `hash_fixed` of the 64 bytes from `64 i`, padded
with zeros when the bytes end inside them. -/
def pairHash (bytes : List UInt8) (i : Nat) : Except String Hash256 :=
  let start := i * 64
  if start + 64 ≤ bytes.length then pure (sha ((bytes.drop start).take 64))
  else if start ≤ bytes.length then pure (sha (resize (bytes.drop start) 64))
  else throw "`i` can only be larger than zero if there are bytes to read"

/-- The first round: a parent for every two chunks that hold bytes. -/
def firstRound (bytes : List UInt8) (initialParentsWithValues : Nat) : Except String (List Hash256) :=
  (List.range initialParentsWithValues).foldlM
    (fun chunks i => do
      let hash ← pairHash sha bytes i
      chunkSet chunks i hash "Buffer should always have capacity for parent nodes")
    (List.replicate initialParentsWithValues Hash256.zero)

/-- The two children of parent `i` in the store at `height`; a missing right child is the zero
hash of the height. -/
def children (height : Nat) (chunks : List Hash256) (i : Nat) : Except String (Hash256 × Hash256) :=
  match chunks[i * 2]?, chunks[i * 2 + 1]? with
  | some left, some right => pure (left, right)
  | some left, none => do
    let right ← getZeroHash sha height
    pure (left, right)
  | none, none => throw "internal error: entered unreachable code: Parent must have one child"
  | none, some _ => throw "internal error: entered unreachable code: Parent must have a left child"

/-- One round above the leaves: each parent hashed in place from its children, then the store
truncated to the parents. -/
def round (height : Nat) (chunks : List Hash256) : Except String (List Hash256) := do
  let parentNodes := nextEvenNumber chunks.length / 2
  let chunks ← (List.range parentNodes).foldlM
    (fun chunks i => do
      let lr ← children sha height chunks i
      chunkSet chunks i (hash32Concat sha lr.1 lr.2) "Buf is adequate size for parent")
    chunks
  pure (chunks.take parentNodes)

/-- `merkleize_padded`. -/
def merkleizePadded (bytes : List UInt8) (minLeaves : Nat) : Except String Hash256 :=
  if bytes.length ≤ 32 ∧ minLeaves ≤ 1 then pure ⟨resize bytes 32, length_resize_hash bytes⟩
  else if ¬(bytes.length > 32 ∨ minLeaves > 1) then
    throw "Merkle hashing only needs to happen if there is more than one chunk"
  else
    let leavesWithValues := (bytes.length + 31) / 32
    let initialParentsWithValues := max 1 (nextEvenNumber leavesWithValues / 2)
    let numLeaves := nextPowerOfTwo (max leavesWithValues minLeaves)
    let height := trailingZeros numLeaves + 1
    if height < 2 then throw "The tree should have two or more heights"
    else do
      let chunks ← firstRound sha bytes initialParentsWithValues
      let chunks ← (List.range' 1 (height - 2)).foldlM (fun chunks h => round sha h chunks) chunks
      match chunks with
      | [root] => pure root
      | _ => throw "Only one chunk should remain"

end Padded

section Laws

theorem trailingZerosFrom_two_pow : ∀ {bits k : Nat}, k ≤ bits → trailingZerosFrom bits (2 ^ k) = k
  | 0, 0, _ => rfl
  | bits + 1, 0, _ => by simp [trailingZerosFrom]
  | bits + 1, k + 1, hk => by
    rw [trailingZerosFrom, if_pos (by rw [Nat.pow_succ]; omega),
      show 2 ^ (k + 1) / 2 = 2 ^ k by rw [Nat.pow_succ]; omega,
      trailingZerosFrom_two_pow (by omega)]

theorem trailingZeros_two_pow {k : Nat} (hk : k ≤ 64) : trailingZeros (2 ^ k) = k :=
  trailingZerosFrom_two_pow hk

/-- Writing the values `g 0, g 1, …, g (k - 1)` in place, in order, where each write may read the
list but only at positions not yet written. -/
theorem foldlM_set_range {ε : Type} (c : List Hash256) (g : Nat → Hash256)
    (step : List Hash256 → Nat → Except ε (List Hash256)) :
    ∀ k, k ≤ c.length → (∀ cur i, i < k → cur.length = c.length → cur.drop i = c.drop i →
      step cur i = .ok (cur.set i (g i))) →
      (List.range k).foldlM step c = .ok ((List.range k).map g ++ c.drop k)
  | 0, _, _ => by simp [pure, Except.pure]
  | k + 1, hk, hstep => by
    rw [List.range_succ, List.foldlM_append,
      foldlM_set_range c g step k (by omega) fun cur i hi => hstep cur i (by omega)]
    -- The list so far: the new prefix, then the untouched suffix.
    have hlen : ((List.range k).map g ++ c.drop k).length = c.length := by simp; omega
    have hdrop : ((List.range k).map g ++ c.drop k).drop k = c.drop k := by
      rw [List.drop_append_of_le_length (by simp), List.drop_of_length_le (by simp),
        List.nil_append]
    show (step _ k >>= fun c' => [].foldlM step c') = _
    rw [hstep _ k (by omega) hlen hdrop]
    show Except.ok _ = Except.ok _
    congr 1
    rw [List.set_append_right _ _ (by simp), List.length_map, List.length_range, Nat.sub_self,
      List.drop_eq_getElem_cons (by omega), List.set_cons_zero, List.map_append, List.append_assoc]
    rfl

variable (sha : List UInt8 → Hash256)

/-- The hash of a pair of leaves that starts within the bytes is the node over them. -/
theorem pairHash_eq {bytes : List UInt8} {i : Nat} (hi : i * 64 ≤ bytes.length) :
    pairHash sha bytes i = .ok (layer (hash32Concat sha) (chunk bytes) i) := by
  have hpad : sha (resize (bytes.drop (i * 64)) 64) = layer (hash32Concat sha) (chunk bytes) i := by
    rw [layer, hash32Concat_chunk, show 32 * (2 * i) = i * 64 by omega]
  unfold pairHash
  dsimp only
  split_ifs with h₁
  · rw [← hpad, resize, (List.replicate_eq_nil_iff _).mpr (by simp; omega), List.append_nil]
    rfl
  · rw [← hpad]
    rfl

/-- The first round stores the nodes over the pairs of chunks, when every pair it reads starts
within the bytes. -/
theorem firstRound_eq {bytes : List UInt8} {initial : Nat}
    (hstart : ∀ i, i < initial → i * 64 ≤ bytes.length) :
    firstRound sha bytes initial =
      .ok ((List.range initial).map (layer (hash32Concat sha) (chunk bytes))) := by
  unfold firstRound
  rw [foldlM_set_range _ (layer (hash32Concat sha) (chunk bytes)) _ initial (by simp) ?_,
    List.drop_of_length_le (by simp), List.append_nil]
  intro cur i hi hlen _
  rw [List.length_replicate] at hlen
  rw [pairHash_eq sha (hstart i hi), CacheRefinement.ok_bind, chunkSet, if_pos (by omega)]
  rfl

/-- Positions at or past `i` are read from the part of the store not yet written. -/
theorem getElem?_of_drop_eq {cur old : List Hash256} {i j : Nat} (h : cur.drop i = old.drop i)
    (hj : i ≤ j) : cur[j]? = old[j]? := by
  have := congrArg (·[j - i]?) h
  simp only [List.getElem?_drop, Nat.add_sub_cancel' hj] at this
  exact this

/-- The children of a parent whose left child is stored; the right one may be the zero hash. -/
theorem children_eq {height : Nat} (hh : height ≤ 48) {c : List Hash256} {i : Nat}
    (hi : 2 * i < c.length) :
    children sha height c i =
      .ok (c.getD (2 * i) (zeroHashes sha height), c.getD (2 * i + 1) (zeroHashes sha height)) := by
  unfold children
  rw [show i * 2 = 2 * i by omega, List.getElem?_eq_getElem hi]
  by_cases hr : 2 * i + 1 < c.length
  · rw [List.getElem?_eq_getElem hr, List.getD_eq_getElem _ _ hi, List.getD_eq_getElem _ _ hr]
    rfl
  · rw [List.getElem?_eq_none (by omega), List.getD_eq_getElem _ _ hi,
      List.getD_eq_default _ _ (by omega), getZeroHash_of_le sha hh]
    rfl

/-- A round over a store of at least one node stores the nodes over its pairs, a missing right
child read as the zero hash of the height. -/
theorem round_eq {height : Nat} (hh : height ≤ 48) {c : List Hash256} (hc : 1 ≤ c.length) :
    round sha height c = .ok ((List.range ((c.length + 1) / 2)).map fun i =>
      hash32Concat sha (c.getD (2 * i) (zeroHashes sha height))
        (c.getD (2 * i + 1) (zeroHashes sha height))) := by
  unfold round
  dsimp only
  have hp : nextEvenNumber c.length / 2 = (c.length + 1) / 2 := by
    unfold nextEvenNumber
    omega
  rw [hp, foldlM_set_range c _ _ _ (by omega) ?_, CacheRefinement.ok_bind,
    List.take_left' (by simp)]
  · rfl
  -- Each parent reads children at or past its own position, not yet overwritten.
  intro cur i hi hlen hdrop
  have hread : children sha height cur i = children sha height c i := by
    unfold children
    rw [getElem?_of_drop_eq hdrop (by omega : i ≤ i * 2),
      getElem?_of_drop_eq hdrop (by omega : i ≤ i * 2 + 1)]
  rw [hread, children_eq sha hh (by omega), CacheRefinement.ok_bind, chunkSet, if_pos (by omega)]
  rfl

/-- Read with the zero hash of the height past its end, the store after a round is the layer above
the store before it. -/
theorem getD_round_eq (height : Nat) (c : List Hash256) :
    (fun i => ((List.range ((c.length + 1) / 2)).map fun j =>
      hash32Concat sha (c.getD (2 * j) (zeroHashes sha height))
        (c.getD (2 * j + 1) (zeroHashes sha height))).getD i (zeroHashes sha (height + 1))) =
      layer (hash32Concat sha) fun i => c.getD i (zeroHashes sha height) := by
  rw [layer_getD]
  rfl

/-- The rounds from height `s` on, over a store that reads, padded with the zero hashes of `s`,
as the `s`-th layer above `f` and holds at most `2 ^ (H - s)` nodes: after `n` of them the store
is the `(s + n)`-th layer, of at most `2 ^ (H - (s + n))` nodes. -/
theorem foldlM_round (f : Nat → Hash256) {H : Nat} (hH : H ≤ 49) :
    ∀ n s (c : List Hash256), s + n ≤ H → 1 ≤ c.length → c.length ≤ 2 ^ (H - s) →
      (fun i => c.getD i (zeroHashes sha s)) = (layer (hash32Concat sha))^[s] f →
      ∃ c', (List.range' s n).foldlM (fun c h => round sha h c) c = .ok c' ∧
        1 ≤ c'.length ∧ c'.length ≤ 2 ^ (H - (s + n)) ∧
        (fun i => c'.getD i (zeroHashes sha (s + n))) = (layer (hash32Concat sha))^[s + n] f
  | 0, s, c, _, h₁, h₂, hrep => ⟨c, rfl, h₁, h₂, hrep⟩
  | n + 1, s, c, hsn, h₁, h₂, hrep => by
    rw [List.range'_succ, List.foldlM_cons, round_eq sha (by omega) h₁, CacheRefinement.ok_bind,
      show s + (n + 1) = s + 1 + n by omega]
    have hpow : 2 ^ (H - s) = 2 * 2 ^ (H - (s + 1)) := by
      rw [show H - s = H - (s + 1) + 1 by omega, Nat.pow_succ']
    have hrep₁ := getD_round_eq sha s c
    rw [hrep, ← Function.iterate_succ_apply' (layer (hash32Concat sha)) s f] at hrep₁
    exact foldlM_round f hH n (s + 1) _ (by omega) (by simp; omega) (by simp; omega) hrep₁

/-- The first round's store, read with the zero hash of height one past its end, is the layer
above the chunks, when it covers all the bytes. -/
theorem getD_map_layer_chunk {bytes : List UInt8} {k : Nat} (hk : bytes.length ≤ 64 * k) :
    (fun i => ((List.range k).map (layer (hash32Concat sha) (chunk bytes))).getD i
      (zeroHashes sha 1)) = layer (hash32Concat sha) (chunk bytes) := by
  funext i
  by_cases hi : i < k
  · rw [List.getD_eq_getElem _ _ (by simpa using hi), List.getElem_map, List.getElem_range]
  -- Past the first round's store, both chunks under a parent are past the bytes.
  · rw [List.getD_eq_default _ _ (by simp; omega), layer, chunk_of_length_le (by omega),
      chunk_of_length_le (by omega)]
    rfl

/-- Past its fast path, and for trees of at most `2 ^ 49` leaves, `merkleize_padded` returns the
root of the tree of height `H` over the chunks of the bytes, where `2 ^ H` is the number of leaves
rounded up to a power of two. -/
theorem merkleizePadded_eq_treeRoot (bytes : List UInt8) (minLeaves : Nat) {H : Nat}
    (hslow : ¬(bytes.length ≤ 32 ∧ minLeaves ≤ 1))
    (hH : nextPowerOfTwo (max ((bytes.length + 31) / 32) minLeaves) = 2 ^ H) (hH49 : H ≤ 49) :
    merkleizePadded sha bytes minLeaves = .ok (treeRoot (hash32Concat sha) H (chunk bytes)) := by
  have hmax := le_nextPowerOfTwo (max ((bytes.length + 31) / 32) minLeaves)
  rw [hH] at hmax
  -- Two leaves at least, so the tree has a height.
  have hH1 : 1 ≤ H := by
    rcases Nat.eq_zero_or_pos H with h0 | h0
    · rw [h0] at hmax
      omega
    · exact h0
  have hpow : 2 ^ H = 2 * 2 ^ (H - 1) := by
    rw [← Nat.pow_succ']
    congr 1
    omega
  unfold merkleizePadded
  rw [if_neg hslow, if_neg (by omega)]
  dsimp only
  rw [hH, trailingZeros_two_pow (by omega), if_neg (by omega)]
  -- The first round: its parents cover the bytes, and each reads a pair that starts within them.
  have hinit : bytes.length ≤ 64 * max 1 (nextEvenNumber ((bytes.length + 31) / 32) / 2) := by
    unfold nextEvenNumber
    omega
  have hstart : ∀ i, i < max 1 (nextEvenNumber ((bytes.length + 31) / 32) / 2) →
      i * 64 ≤ bytes.length := by
    unfold nextEvenNumber
    omega
  have hcount : max 1 (nextEvenNumber ((bytes.length + 31) / 32) / 2) ≤ 2 ^ (H - 1) := by
    unfold nextEvenNumber
    omega
  rw [firstRound_eq sha hstart, CacheRefinement.ok_bind]
  obtain ⟨c, hc, hc₁, hc₂, hrep⟩ := foldlM_round sha (chunk bytes) hH49 (H + 1 - 2) 1 _
    (by omega) (by rw [List.length_map, List.length_range]; omega) (by simpa using hcount)
    (getD_map_layer_chunk sha hinit)
  rw [hc, CacheRefinement.ok_bind]
  -- One node is left, and it is the root.
  rw [show 1 + (H + 1 - 2) = H by omega] at hc₂ hrep
  rw [Nat.sub_self, Nat.pow_zero] at hc₂
  obtain ⟨x, rfl⟩ := List.length_eq_one_iff.mp (show c.length = 1 by omega)
  have hx := congrFun hrep 0
  rw [List.getD_cons_zero, ← treeRoot_eq_iterate] at hx
  rw [hx]
  rfl

end Laws

end Lighthouse.TreeHash
