import Lighthouse.Foundations.Swaps
import Lighthouse.TreeHash.Hash
import Lighthouse.Ssz.FourByteOption

/-! `compute_shuffled_index` of `swap_or_not_shuffle`: the position an index takes in the
swap-or-not shuffle of a list, round by round. SHA-256 is an arbitrary function from bytes to
32-byte values.

In a round with pivot `p` the index `i` is paired with `flip = (p - i) mod n`, and the bit of the
hash at the larger of the two decides whether it moves there (`doRound`). Both indices of a pair
read the same bit, so a round is an involution of `[0, n)` (`doRound_doRound`), and the rounds
compose to a bijection (`computeShuffledIndex_bijOn`). -/
namespace Lighthouse.Shuffling
open Lighthouse.TreeHash Lighthouse.Ssz Lighthouse.Swaps

/-- `usize::max_value()`, on a 64-bit target. -/
def usizeMax : ℕ := 2 ^ 64 - 1

section Model
variable (sha : List UInt8 → Hash256)

/-- `hash_with_round_and_position`: the seed, the round, and the low four bytes of
`position / 256`, little-endian. -/
def hashWithRoundAndPosition (seed : List UInt8) (round : UInt8) (position : ℕ) : Hash256 :=
  sha (seed ++ [round] ++ leBytes (position / 256) 4)

/-- `hash_with_round`. -/
def hashWithRound (seed : List UInt8) (round : UInt8) : Hash256 := sha (seed ++ [round])

/-- `bytes_to_int64`: the first eight bytes, little-endian. It is read from a hash, of
thirty-two, so `copy_from_slice` does not panic. -/
def bytesToInt64 (slice : List UInt8) : ℕ := fromLeBytes (slice.take 8)

/-- `do_round`. The byte index `(position % 256) / 8` is below thirty-two, inside the hash. -/
def doRound (seed : List UInt8) (index pivot : ℕ) (round : UInt8) (listSize : ℕ) : ℕ :=
  let flip := (pivot + (listSize - index)) % listSize
  let position := max index flip
  let source := hashWithRoundAndPosition sha seed round position
  let byte := source.bytes.getD ((position % 256) / 8) 0
  let bit := (byte >>> UInt8.ofNat (position % 8)) % 2
  if bit = 1 then flip else index

/-- `compute_shuffled_index`. The rounds `0..shuffle_round_count` of `u8` are the numbers below
it, each below `256`. -/
def computeShuffledIndex (index listSize : ℕ) (seed : List UInt8) (shuffleRoundCount : UInt8) :
    Option ℕ :=
  if listSize = 0 ∨ index ≥ listSize ∨ listSize > usizeMax / 2 ∨ listSize > 2 ^ 24 then none
  else
    some ((List.range shuffleRoundCount.toNat).foldl (fun index round =>
      let pivot := bytesToInt64 (hashWithRound sha seed (UInt8.ofNat round)).bytes % listSize
      doRound sha seed index pivot (UInt8.ofNat round) listSize) index)

end Model

/-! The rounds as maps of `[0, n)`. -/

/-- The partner of `index` in a round of pivot `pivot`. -/
def flipIndex (pivot listSize index : ℕ) : ℕ := (pivot + (listSize - index)) % listSize

section Rounds
variable (sha : List UInt8 → Hash256) (seed : List UInt8)

/-- The bit of a round's hash at a position. -/
def roundBit (round : UInt8) (position : ℕ) : Bool :=
  decide (((hashWithRoundAndPosition sha seed round position).bytes.getD ((position % 256) / 8) 0 >>>
    UInt8.ofNat (position % 8)) % 2 = 1)

theorem doRound_eq (index pivot : ℕ) (round : UInt8) (listSize : ℕ) :
    doRound sha seed index pivot round listSize =
      if roundBit sha seed round (max index (flipIndex pivot listSize index)) then
        flipIndex pivot listSize index
      else index := by
  rw [doRound]
  exact if_congr decide_eq_true_iff.symm rfl rfl

/-- The pivot of round `round` for a list of `listSize`. -/
def pivotOf (listSize round : ℕ) : ℕ :=
  bytesToInt64 (hashWithRound sha seed (UInt8.ofNat round)).bytes % listSize

/-- Round `round` of the shuffle of a list of `listSize`, as a map of indices. -/
def roundMap (listSize round index : ℕ) : ℕ :=
  doRound sha seed index (pivotOf sha seed listSize round) (UInt8.ofNat round) listSize

end Rounds

section Flip
variable {pivot n k : ℕ}

theorem flipIndex_of_le (hk : k ≤ pivot) (hp : pivot < n) : flipIndex pivot n k = pivot - k := by
  have h : pivot + (n - k) = pivot - k + n := by omega
  rw [flipIndex, h, Nat.add_mod_right, Nat.mod_eq_of_lt (by omega)]

theorem flipIndex_of_lt (hk : pivot < k) (hn : k < n) : flipIndex pivot n k = pivot + n - k := by
  rw [flipIndex, Nat.mod_eq_of_lt (by omega)]
  omega

theorem flipIndex_lt (hn : 0 < n) : flipIndex pivot n k < n := Nat.mod_lt _ hn

/-- The partner's partner is the index. -/
theorem flipIndex_flipIndex (hp : pivot < n) (hk : k < n) :
    flipIndex pivot n (flipIndex pivot n k) = k := by
  rcases Nat.lt_or_ge pivot k with hpk | hkp
  · rw [flipIndex_of_lt hpk hk, flipIndex_of_lt (by omega) (by omega)]
    omega
  · rw [flipIndex_of_le hkp hp, flipIndex_of_le (by omega) hp]
    omega

end Flip

section Involution
variable (sha : List UInt8 → Hash256) (seed : List UInt8) {pivot n k : ℕ}

theorem doRound_lt (round : UInt8) (hk : k < n) : doRound sha seed k pivot round n < n := by
  rw [doRound_eq]
  split
  · exact flipIndex_lt (by omega)
  · exact hk

/-- A round is an involution of `[0, n)`: an index and its partner read the same bit. -/
theorem doRound_doRound (round : UInt8) (hp : pivot < n) (hk : k < n) :
    doRound sha seed (doRound sha seed k pivot round n) pivot round n = k := by
  have hflip := flipIndex_flipIndex hp hk
  by_cases hbit : roundBit sha seed round (max k (flipIndex pivot n k)) = true
  · -- the index moves to its partner, and the partner back
    have hback : roundBit sha seed round
        (max (flipIndex pivot n k) (flipIndex pivot n (flipIndex pivot n k))) = true := by
      rw [hflip, max_comm]
      exact hbit
    rw [doRound_eq sha seed k, if_pos hbit, doRound_eq, if_pos hback, hflip]
  · rw [doRound_eq sha seed k, if_neg hbit, doRound_eq, if_neg hbit]

theorem pivotOf_lt (hn : 0 < n) (round : ℕ) : pivotOf sha seed n round < n := Nat.mod_lt _ hn

theorem roundMap_lt (round : ℕ) (hk : k < n) : roundMap sha seed n round k < n :=
  doRound_lt sha seed _ hk

theorem roundMap_roundMap (round : ℕ) (hk : k < n) :
    roundMap sha seed n round (roundMap sha seed n round k) = k :=
  doRound_doRound sha seed _ (pivotOf_lt sha seed (by omega) round) hk

end Involution

section Index
variable (sha : List UInt8 → Hash256) (seed : List UInt8) {n : ℕ}

/-- For an index of a list of at most `2 ^ 24`, `compute_shuffled_index` applies the rounds in
order. -/
theorem computeShuffledIndex_eq (shuffleRoundCount : UInt8) {index : ℕ} (hindex : index < n)
    (hn : n ≤ 2 ^ 24) :
    computeShuffledIndex sha index n seed shuffleRoundCount =
      some ((List.range shuffleRoundCount.toNat).foldl
        (fun index round => roundMap sha seed n round index) index) := by
  have hcond : ¬ (n = 0 ∨ index ≥ n ∨ n > usizeMax / 2 ∨ n > 2 ^ 24) := by
    simp only [usizeMax]
    omega
  rw [computeShuffledIndex, if_neg hcond]
  rfl

/-- `compute_shuffled_index` is a bijection of the indices of a list of at most `2 ^ 24`, whatever
the hash, the seed and the number of rounds. -/
theorem computeShuffledIndex_bijOn (shuffleRoundCount : UInt8) (hn : n ≤ 2 ^ 24) :
    ∃ g : ℕ → ℕ, (∀ index < n, computeShuffledIndex sha index n seed shuffleRoundCount =
      some (g index)) ∧ Set.BijOn g (Set.Iio n) (Set.Iio n) :=
  ⟨fun index => (List.range shuffleRoundCount.toNat).foldl
      (fun index round => roundMap sha seed n round index) index,
    fun _ hindex => computeShuffledIndex_eq sha seed shuffleRoundCount hindex hn,
    bijOn_foldl_of_involutive (fun round index => roundMap sha seed n round index)
      (fun round _ hk => roundMap_lt sha seed round hk)
      (fun round _ hk => roundMap_roundMap sha seed round hk) _⟩

theorem computeShuffledIndex_bijOn_at_ten :
    (10 : ℕ) ≤ 2 ^ 24 ∧ ∃ g : ℕ → ℕ, (∀ index < 10,
      computeShuffledIndex (fun _ => Hash256.zero) index 10 [] 90 = some (g index)) ∧
      Set.BijOn g (Set.Iio 10) (Set.Iio 10) :=
  ⟨by decide, computeShuffledIndex_bijOn (fun _ => Hash256.zero) [] 90 (by decide)⟩

theorem computeShuffledIndex_of_le (shuffleRoundCount : UInt8) {index : ℕ} (hindex : n ≤ index) :
    computeShuffledIndex sha index n seed shuffleRoundCount = none := by
  rw [computeShuffledIndex, if_pos (.inr (.inl hindex))]

end Index

end Lighthouse.Shuffling
