import Lighthouse.Foundations.MerkleTree
import Mathlib.Data.List.GetD

/-! What the three Merkleizers of `tree_hash` share: 32-byte values (`Hash256`), the SHA-256
function they hash with, taken here as an arbitrary function from bytes to 32-byte values, and
the table `ZERO_HASHES` of the roots of all-zero trees (`eth2_hashing`), read through
`get_zero_hash`, which panics past its last entry. The table is the zero root of the library,
and `chunk bytes i` is the `i`-th leaf the Merkleizers cut from their input. -/
namespace Lighthouse.TreeHash
open MerkleTree

/-- `Hash256`: thirty-two bytes. -/
structure Hash256 where
  bytes : List UInt8
  length_bytes : bytes.length = 32
deriving DecidableEq, Repr

namespace Hash256

/-- `Hash256::zero()`. -/
def zero : Hash256 := ⟨List.replicate 32 0, rfl⟩

@[ext] theorem ext {a b : Hash256} (h : a.bytes = b.bytes) : a = b := by
  cases a
  cases b
  cases h
  rfl

end Hash256

/-- The panic of a slice `[..index]` of something of length `len` shorter than that. -/
def rangeEndPanic (index len : Nat) : String :=
  "range end index " ++ toString index ++ " out of range for slice of length " ++ toString len

/-- `Vec::resize(n, 0)` on bytes: cut to `n`, or padded with zeros up to it. -/
def resize (bs : List UInt8) (n : Nat) : List UInt8 := bs.take n ++ List.replicate (n - bs.length) 0

@[simp] theorem length_resize (bs : List UInt8) (n : Nat) : (resize bs n).length = n := by
  simp only [resize, List.length_append, List.length_take, List.length_replicate]
  omega

/-- The bytes of a hash cut or padded from a buffer. Named so that the definitions building a
hash from it all cite one proof. -/
theorem length_resize_hash (bs : List UInt8) : (resize bs 32).length = 32 := length_resize bs 32

theorem resize_of_length_le {bs : List UInt8} {n : Nat} (h : bs.length ≤ n) :
    resize bs n = bs ++ List.replicate (n - bs.length) 0 := by
  rw [resize, List.take_of_length_le h]

/-- Each byte of a resized list is the old byte there, or zero. -/
theorem getElem_resize (bs : List UInt8) (n : Nat) {i : Nat} (h : i < (resize bs n).length) :
    (resize bs n)[i] = bs.getD i 0 := by
  have hn : i < n := by simpa using h
  by_cases hi : i < bs.length
  · rw [List.getD_eq_getElem _ _ hi]
    simp only [resize]
    rw [List.getElem_append_left (by simp; omega), List.getElem_take]
  · rw [List.getD_eq_default _ _ (by omega)]
    simp only [resize]
    rw [List.getElem_append_right (by simp; omega), List.getElem_replicate]

theorem getD_append_replicate_zero (bs : List UInt8) (k i : Nat) :
    (bs ++ List.replicate k 0).getD i 0 = bs.getD i 0 := by
  by_cases hi : i < bs.length
  · exact List.getD_append _ _ _ _ hi
  · rw [List.getD_append_right _ _ _ _ (by omega), List.getD_eq_default bs 0 (by omega)]
    -- Inside the zeros or past them, the byte read is zero.
    by_cases hk : i - bs.length < k
    · exact List.getD_replicate (x := (0 : UInt8)) hk
    · exact List.getD_eq_default _ _ (by simp; omega)

theorem resize_append_replicate (bs : List UInt8) (k n : Nat) :
    resize (bs ++ List.replicate k 0) n = resize bs n := by
  apply List.ext_getElem (by simp)
  intro i h₁ h₂
  rw [getElem_resize, getElem_resize, getD_append_replicate_zero]

/-- Sixty-four padded bytes are two padded leaves side by side. -/
theorem resize_split (s : List UInt8) : resize s 64 = resize s 32 ++ resize (s.drop 32) 32 := by
  apply List.ext_getElem (by simp)
  intro j h₁ h₂
  rw [getElem_resize]
  by_cases hj : j < 32
  · rw [List.getElem_append_left (by simpa using hj), getElem_resize]
  · rw [List.getElem_append_right (by simp; omega), getElem_resize, length_resize,
      List.getD_eq_getElem?_getD, List.getD_eq_getElem?_getD, List.getElem?_drop]
    congr 2
    omega

/-- The `i`-th 32-byte leaf of `bytes`, zero-padded past their end. -/
def chunk (bytes : List UInt8) (i : Nat) : Hash256 := ⟨resize (bytes.drop (32 * i)) 32, length_resize _ _⟩

/-- `ZERO_HASHES_MAX_INDEX`. -/
def zeroHashesMaxIndex : Nat := 48

section Hashing
variable (sha : List UInt8 → Hash256)

/-- `hash32_concat`: the hash of two values side by side. -/
def hash32Concat (l r : Hash256) : Hash256 := sha (l.bytes ++ r.bytes)

/-- `ZERO_HASHES[i]`, built from `[0; 32]` by hashing each entry with itself: the root of the
tree of height `i` whose leaves are all zero. -/
def zeroHashes (i : Nat) : Hash256 := zeroRoot (hash32Concat sha) Hash256.zero i

/-- `get_zero_hash`: the table entry, or the panic past its end. -/
def getZeroHash (height : Nat) : Except String Hash256 :=
  if height ≤ zeroHashesMaxIndex then pure (zeroHashes sha height)
  else throw ("Tree exceeds MAX_TREE_DEPTH of " ++ toString zeroHashesMaxIndex)

theorem getZeroHash_of_le {height : Nat} (h : height ≤ 48) :
    getZeroHash sha height = .ok (zeroHashes sha height) := by
  simp [getZeroHash, zeroHashesMaxIndex, h, pure, Except.pure]

theorem getZeroHash_of_lt {height : Nat} (h : 48 < height) :
    getZeroHash sha height = .error "Tree exceeds MAX_TREE_DEPTH of 48" := by
  simp [getZeroHash, zeroHashesMaxIndex, Nat.not_le.mpr h, throw, throwThe, MonadExceptOf.throw]
  rfl

/-- Two neighbouring leaves hashed together are the hash of the 64 bytes from the first. -/
theorem hash32Concat_chunk (bytes : List UInt8) (i : Nat) :
    hash32Concat sha (chunk bytes i) (chunk bytes (i + 1)) = sha (resize (bytes.drop (32 * i)) 64) := by
  rw [hash32Concat, resize_split, List.drop_drop]
  simp only [chunk]
  congr 3

end Hashing

section Chunks

/-- Past the end of the bytes, every leaf is zero. -/
theorem chunk_of_length_le {bytes : List UInt8} {i : Nat} (h : bytes.length ≤ 32 * i) :
    chunk bytes i = Hash256.zero := by
  ext1
  simp [chunk, resize, List.drop_eq_nil_of_le h, Hash256.zero]

/-- Zeros appended to the bytes change no leaf. -/
theorem chunk_append_replicate (bytes : List UInt8) (k i : Nat) :
    chunk (bytes ++ List.replicate k 0) i = chunk bytes i := by
  ext1
  simp only [chunk, List.drop_append, List.drop_replicate, resize_append_replicate]

/-- The first 32 bytes of a buffer that holds at least 32. -/
theorem length_take_hash {s : List UInt8} (h : 32 ≤ s.length) : (s.take 32).length = 32 := by
  simp only [List.length_take]
  omega

/-- The whole 32-byte leaves at the front of `s`. -/
def wholeLeaves (s : List UInt8) : List Hash256 :=
  if h : 32 ≤ s.length then ⟨s.take 32, length_take_hash h⟩ :: wholeLeaves (s.drop 32) else []
termination_by s.length
decreasing_by simp; omega

/-- What is left of `s` after its whole leaves. -/
def tail32 (s : List UInt8) : List UInt8 :=
  if 32 ≤ s.length then tail32 (s.drop 32) else s
termination_by s.length
decreasing_by simp; omega

theorem wholeLeaves_of_le {s : List UInt8} (h : 32 ≤ s.length) :
    wholeLeaves s = ⟨s.take 32, by simp; omega⟩ :: wholeLeaves (s.drop 32) := by
  rw [wholeLeaves, dif_pos h]

theorem wholeLeaves_of_lt {s : List UInt8} (h : s.length < 32) : wholeLeaves s = [] := by
  rw [wholeLeaves, dif_neg (by omega)]

theorem tail32_of_le {s : List UInt8} (h : 32 ≤ s.length) : tail32 s = tail32 (s.drop 32) := by
  rw [tail32, if_pos h]

theorem tail32_of_lt {s : List UInt8} (h : s.length < 32) : tail32 s = s := by
  rw [tail32, if_neg (by omega)]

theorem length_tail32 (s : List UInt8) : (tail32 s).length = s.length % 32 := by
  by_cases h : 32 ≤ s.length
  · rw [tail32_of_le h, length_tail32 (s.drop 32), List.length_drop]
    omega
  · rw [tail32_of_lt (by omega)]
    omega
termination_by s.length
decreasing_by simp; omega

theorem length_tail32_lt (s : List UInt8) : (tail32 s).length < 32 := by
  rw [length_tail32]
  omega

/-- Cutting `s ++ t` into leaves cuts `s` first, and goes on from what is left of it. -/
theorem wholeLeaves_append (s t : List UInt8) :
    wholeLeaves (s ++ t) = wholeLeaves s ++ wholeLeaves (tail32 s ++ t) := by
  by_cases h : 32 ≤ s.length
  · have hst : 32 ≤ (s ++ t).length := by simp; omega
    rw [wholeLeaves_of_le hst, wholeLeaves_of_le h, tail32_of_le h, List.cons_append,
      List.drop_append_of_le_length h, wholeLeaves_append (s.drop 32) t]
    congr 2
    exact List.take_append_of_le_length h
  · rw [wholeLeaves_of_lt (s := s) (by omega), tail32_of_lt (by omega), List.nil_append]
termination_by s.length
decreasing_by simp; omega

theorem tail32_append (s t : List UInt8) : tail32 (s ++ t) = tail32 (tail32 s ++ t) := by
  by_cases h : 32 ≤ s.length
  · rw [tail32_of_le (by simp; omega), tail32_of_le h, List.drop_append_of_le_length h,
      tail32_append (s.drop 32) t]
  · rw [tail32_of_lt (s := s) (by omega)]
termination_by s.length
decreasing_by simp; omega

/-- The whole leaves are the first leaves of `chunk`. -/
theorem wholeLeaves_eq_map_chunk (s : List UInt8) :
    wholeLeaves s = (List.range (s.length / 32)).map (chunk s) := by
  by_cases h : 32 ≤ s.length
  · rw [wholeLeaves_of_le h, wholeLeaves_eq_map_chunk (s.drop 32),
      show s.length / 32 = (s.drop 32).length / 32 + 1 by simp; omega, List.range_succ_eq_map,
      List.map_cons, List.map_map]
    congr 1
    · ext1
      simp [chunk, resize, h]
    · congr 1
      funext i
      ext1
      simp [chunk, List.drop_drop, Nat.mul_add, Nat.add_comm]
  · rw [wholeLeaves_of_lt (by omega), show s.length / 32 = 0 by omega]
    rfl
termination_by s.length
decreasing_by simp; omega

/-- The leaf `finish` pads from the buffer is the leaf after the whole ones. -/
theorem resize_tail32 (s : List UInt8) : resize (tail32 s) 32 = (chunk s (s.length / 32)).bytes := by
  by_cases h : 32 ≤ s.length
  · rw [tail32_of_le h, resize_tail32 (s.drop 32)]
    simp only [chunk, List.length_drop, List.drop_drop]
    congr 2
    omega
  · rw [tail32_of_lt (by omega), show s.length / 32 = 0 by omega]
    simp [chunk]
termination_by s.length
decreasing_by simp; omega

end Chunks

end Lighthouse.TreeHash
