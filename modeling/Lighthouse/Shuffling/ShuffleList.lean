import Lighthouse.Shuffling.ComputeShuffledIndex

/-! `shuffle_list` of `swap_or_not_shuffle`: the swap-or-not shuffle of a whole list, each round
as two sweeps of swaps with the hash read through a cached buffer.

A sweep recomputes its hash only where a position's window of 256 changes and rereads its byte
only every eight positions; the cache is right at each position it reaches (`Cached`), so a
sweep is a mirror sweep of `Swaps` whose flags are the bits `compute_shuffled_index` reads
(`sweep_spec`). The two sweeps of a round pair each index with its partner in `do_round`
(`swapsTarget_roundPairs`), so a round moves each element by the round map, and a run of rounds
by their composition (`Shuffles.rounds`). The list shuffled backwards holds at each index the
element at its `compute_shuffled_index`, forwards the inverse, and the two undo each other. -/
namespace Lighthouse.Shuffling
open Lighthouse.TreeHash Lighthouse.Ssz Lighthouse.Swaps

/-- `SEED_SIZE`. -/
def seedSize : ℕ := 32
/-- `ROUND_SIZE`. -/
def roundSize : ℕ := 1
/-- `POSITION_WINDOW_SIZE`. -/
def positionWindowSize : ℕ := 4
/-- `PIVOT_VIEW_SIZE`. -/
def pivotViewSize : ℕ := seedSize + roundSize
/-- `TOTAL_SIZE`. -/
def totalSize : ℕ := seedSize + roundSize + positionWindowSize

/-- `Buf`: the seed, the round and the window of the position, `TOTAL_SIZE` bytes. -/
structure Buf where
  bytes : List UInt8
  length_bytes : bytes.length = totalSize
deriving DecidableEq

namespace Buf

theorem length_new (seed : Hash256) :
    (seed.bytes ++ List.replicate (totalSize - seedSize) 0).length = totalSize := by
  simp [seed.length_bytes, totalSize, seedSize, roundSize, positionWindowSize]

theorem length_setRound (b : Buf) (round : UInt8) :
    (b.bytes.set seedSize round).length = totalSize :=
  (List.length_set ..).trans b.length_bytes

theorem length_mixInPosition (b : Buf) (position : ℕ) :
    (b.bytes.take pivotViewSize ++ leBytes position positionWindowSize).length = totalSize := by
  simp [b.length_bytes, length_leBytes, totalSize, pivotViewSize]

/-- `Buf::new`, from a seed of thirty-two bytes, so that the copy does not panic. -/
def new (seed : Hash256) : Buf := ⟨seed.bytes ++ List.replicate (totalSize - seedSize) 0, length_new seed⟩

/-- `set_round`. -/
def setRound (b : Buf) (round : UInt8) : Buf := ⟨b.bytes.set seedSize round, length_setRound b round⟩

/-- `raw_pivot`: the first eight bytes of the hash of the seed and the round, little-endian. -/
def rawPivot (sha : List UInt8 → Hash256) (b : Buf) : ℕ :=
  fromLeBytes ((sha (b.bytes.take pivotViewSize)).bytes.take 8)

/-- `mix_in_position`: the low four bytes of `position`, little-endian, after the round. -/
def mixInPosition (b : Buf) (position : ℕ) : Buf :=
  ⟨b.bytes.take pivotViewSize ++ leBytes position positionWindowSize,
    length_mixInPosition b position⟩

/-- `hash`. -/
def hash (sha : List UInt8 → Hash256) (b : Buf) : Hash256 := sha b.bytes

end Buf

/-- The variables of a sweep of `shuffle_list`: the list, the buffer, the hash `source` and the
byte `byte_v` read from it. -/
structure SweepState where
  input : List ℕ
  buf : Buf
  source : Hash256
  byteV : UInt8

section Model
variable (sha : List UInt8 → Hash256)

/-- One pass of a sweep's loop body, at the pair `i` and `j`. -/
def sweepStep (st : SweepState) (i j : ℕ) : SweepState :=
  let buf := if j &&& 0xff = 0xff then st.buf.mixInPosition (j >>> 8) else st.buf
  let source := if j &&& 0xff = 0xff then buf.hash sha else st.source
  let byteV := if j &&& 0x07 = 0x07 then source.bytes.getD ((j &&& 0xff) >>> 3) 0 else st.byteV
  let bitV := (byteV >>> UInt8.ofNat (j &&& 0x07)) &&& 0x01
  ⟨if bitV = 1 then st.input.swap i j else st.input, buf, source, byteV⟩

/-- What precedes each of the two loops of a round: the hash and the byte at the top position. -/
def startSweep (buf : Buf) (input : List ℕ) (top : ℕ) : SweepState :=
  let buf := buf.mixInPosition (top >>> 8)
  let source := buf.hash sha
  ⟨input, buf, source, source.bytes.getD ((top &&& 0xff) >>> 3) 0⟩

/-- One of the two loops of a round, with what precedes it: pass `t` swaps `start + t` and
`top - t`. The first loop is `0..mirror` with `j = pivot - i`; the second runs `(pivot + 1)..mirror`
enumerated, with `j = end - loop_iter`. -/
def sweep (buf : Buf) (input : List ℕ) (start top count : ℕ) : SweepState :=
  (List.range count).foldl (fun st t => sweepStep sha st (start + t) (top - t))
    (startSweep sha buf input top)

/-- One round of the loop of `shuffle_list`, on the buffer and the list. -/
def shuffleRound (listSize : ℕ) (st : Buf × List ℕ) (r : ℕ) : Buf × List ℕ :=
  let buf := st.1.setRound (UInt8.ofNat r)
  let pivot := buf.rawPivot sha % listSize
  let mirror := (pivot + 1) >>> 1
  let first := sweep sha buf st.2 0 pivot mirror
  let mirror := (pivot + listSize + 1) >>> 1
  let endIndex := listSize - 1
  let second := sweep sha first.buf first.input (pivot + 1) endIndex (mirror - (pivot + 1))
  (second.buf, second.input)

/-- The rounds the loop of `shuffle_list` runs, for at least one: up from `0` forwards, down from
`rounds - 1` backwards. -/
def roundOrder (rounds : UInt8) (forwards : Bool) : List ℕ :=
  if forwards then List.range rounds.toNat else (List.range rounds.toNat).reverse

/-- `shuffle_list`. -/
def shuffleList (input : List ℕ) (rounds : UInt8) (seed : Hash256) (forwards : Bool) :
    Option (List ℕ) :=
  let listSize := input.length
  if input.isEmpty ∨ listSize > usizeMax / 2 ∨ listSize > 2 ^ 24 ∨ rounds = 0 then none
  else some ((roundOrder rounds forwards).foldl (shuffleRound sha listSize) (Buf.new seed, input)).2

end Model

/-! The buffer. -/

section Buffer
variable (sha : List UInt8 → Hash256)

theorem take_seedSize_new (seed : Hash256) : (Buf.new seed).bytes.take seedSize = seed.bytes :=
  List.take_left' seed.length_bytes

theorem take_pivotViewSize_setRound {b : Buf} {seed : List UInt8}
    (hseed : b.bytes.take seedSize = seed) (round : UInt8) :
    (b.setRound round).bytes.take pivotViewSize = seed ++ [round] := by
  have hlen : seedSize < b.bytes.length := by
    simp [b.length_bytes, totalSize, seedSize, roundSize, positionWindowSize]
  rw [← hseed, Buf.setRound, pivotViewSize, roundSize, List.take_add_one,
    List.take_set_of_le (le_refl _), List.getElem?_set_self hlen]
  rfl

theorem take_pivotViewSize_mixInPosition (b : Buf) (position : ℕ) :
    (b.mixInPosition position).bytes.take pivotViewSize = b.bytes.take pivotViewSize := by
  have hlen : (b.bytes.take pivotViewSize).length = pivotViewSize := by
    simp [b.length_bytes, totalSize, pivotViewSize]
  rw [Buf.mixInPosition, List.take_left' hlen]

/-- The hash of the buffer with a position mixed in is the hash `compute_shuffled_index` reads
at each position of the same window of 256. -/
theorem hash_mixInPosition {b : Buf} {seed : List UInt8} {round : UInt8}
    (hpre : b.bytes.take pivotViewSize = seed ++ [round]) (j : ℕ) :
    (b.mixInPosition (j >>> 8)).hash sha = hashWithRoundAndPosition sha seed round j := by
  show sha (b.bytes.take pivotViewSize ++ leBytes (j >>> 8) positionWindowSize) = _
  rw [hpre, hashWithRoundAndPosition, Nat.shiftRight_eq_div_pow]
  rfl

theorem rawPivot_setRound {b : Buf} {seed : List UInt8} (hseed : b.bytes.take seedSize = seed)
    (round : UInt8) :
    (b.setRound round).rawPivot sha = bytesToInt64 (hashWithRound sha seed round).bytes := by
  rw [Buf.rawPivot, take_pivotViewSize_setRound hseed]
  rfl

end Buffer

/-! The cache of a sweep. -/

theorem land_0xff (j : ℕ) : j &&& 0xff = j % 256 := by
  simpa using Nat.and_two_pow_sub_one_eq_mod j 8

theorem land_0x07 (j : ℕ) : j &&& 0x07 = j % 8 := by
  simpa using Nat.and_two_pow_sub_one_eq_mod j 3

theorem byteIndex_eq (j : ℕ) : (j &&& 0xff) >>> 3 = j % 256 / 8 := by
  rw [land_0xff, Nat.shiftRight_eq_div_pow]

theorem UInt8.land_one (x : UInt8) : x &&& 1 = x % 2 := by
  apply UInt8.toNat_inj.mp
  simp [Nat.and_one_is_mod]

section Cache
variable (sha : List UInt8 → Hash256) (seed : List UInt8) (round : UInt8)

/-- The byte of a round's hash that holds the bit of a position. -/
def positionByte (position : ℕ) : UInt8 :=
  (hashWithRoundAndPosition sha seed round position).bytes.getD ((position % 256) / 8) 0

/-- The cache of a sweep is right for position `j`: the buffer holds the seed and the round, the
hash is the one of `j`'s window unless `j` is the last of it, and the byte is the one of `j`
unless `j` is the last of its byte. At those two the loop body rereads. -/
structure Cached (st : SweepState) (j : ℕ) : Prop where
  view_eq : st.buf.bytes.take pivotViewSize = seed ++ [round]
  source_eq : j % 256 ≠ 255 → st.source = hashWithRoundAndPosition sha seed round j
  byteV_eq : j % 8 ≠ 7 → st.byteV = positionByte sha seed round j

variable {sha seed round}

theorem hashWithRoundAndPosition_pred {j : ℕ} (hj : 0 < j) (h : (j - 1) % 256 ≠ 255) :
    hashWithRoundAndPosition sha seed round (j - 1) = hashWithRoundAndPosition sha seed round j := by
  rw [hashWithRoundAndPosition, hashWithRoundAndPosition, show (j - 1) / 256 = j / 256 by omega]

theorem positionByte_pred {j : ℕ} (hj : 0 < j) (h : (j - 1) % 8 ≠ 7) :
    positionByte sha seed round (j - 1) = positionByte sha seed round j := by
  have h256 : (j - 1) % 256 ≠ 255 := by omega
  rw [positionByte, positionByte, hashWithRoundAndPosition_pred hj h256,
    show (j - 1) % 256 / 8 = j % 256 / 8 by omega]

theorem cached_startSweep {buf : Buf} (hpre : buf.bytes.take pivotViewSize = seed ++ [round])
    (input : List ℕ) (top : ℕ) : Cached sha seed round (startSweep sha buf input top) top := by
  have hsource : (startSweep sha buf input top).source = hashWithRoundAndPosition sha seed round top :=
    hash_mixInPosition sha hpre top
  refine ⟨?_, fun _ => hsource, fun _ => ?_⟩
  · rw [startSweep, take_pivotViewSize_mixInPosition, hpre]
  · show (startSweep sha buf input top).source.bytes.getD _ 0 = _
    rw [hsource, byteIndex_eq, positionByte]

section Step
variable {st : SweepState} {j : ℕ} (i : ℕ)

theorem sweepStep_view (h : Cached sha seed round st j) :
    (sweepStep sha st i j).buf.bytes.take pivotViewSize = seed ++ [round] := by
  simp only [sweepStep]
  split
  · rw [take_pivotViewSize_mixInPosition, h.view_eq]
  · exact h.view_eq

/-- After the loop body at `j` the hash is the one of `j`'s window. -/
theorem sweepStep_source (h : Cached sha seed round st j) :
    (sweepStep sha st i j).source = hashWithRoundAndPosition sha seed round j := by
  simp only [sweepStep]
  split
  · exact hash_mixInPosition sha h.view_eq j
  · exact h.source_eq (by rwa [land_0xff] at *)

/-- After the loop body at `j` the byte is the one of `j`. -/
theorem sweepStep_byteV (h : Cached sha seed round st j) :
    (sweepStep sha st i j).byteV = positionByte sha seed round j := by
  have hsource := sweepStep_source i h
  simp only [sweepStep] at hsource ⊢
  split
  · rw [hsource, byteIndex_eq, positionByte]
  · exact h.byteV_eq (by rwa [land_0x07] at *)

/-- The loop body at `j` swaps `i` and `j` where the bit of `j` is set. -/
theorem sweepStep_input (h : Cached sha seed round st j) :
    (sweepStep sha st i j).input = swapWhen st.input (i, j, roundBit sha seed round j) := by
  have hbyte := sweepStep_byteV i h
  simp only [sweepStep] at hbyte ⊢
  rw [hbyte, land_0x07, UInt8.land_one, swapWhen]
  exact if_congr decide_eq_true_iff.symm rfl rfl

/-- The loop body at `j` leaves the cache right for `j - 1`. -/
theorem Cached.sweepStep (h : Cached sha seed round st j) (hj : 0 < j) :
    Cached sha seed round (sweepStep sha st i j) (j - 1) := by
  refine ⟨sweepStep_view i h, fun h256 => ?_, fun h8 => ?_⟩
  · rw [sweepStep_source i h, hashWithRoundAndPosition_pred hj h256]
  · rw [sweepStep_byteV i h, positionByte_pred hj h8]

end Step

/-! A sweep is a mirror sweep with the bits of `compute_shuffled_index`. -/

/-- The first `t` passes of a sweep from a cache right at `top`: the cache is right at `top - t`,
and the list is swapped as the mirror sweep of `t` pairs with the round's bits. The induction is
on the number of passes, each one appended at the end of the loop. -/
theorem foldl_sweepStep {st : SweepState} (start : ℕ) {top : ℕ}
    (h0 : Cached sha seed round st top) :
    ∀ t ≤ top,
      Cached sha seed round
          ((List.range t).foldl (fun st t => sweepStep sha st (start + t) (top - t)) st) (top - t) ∧
        ((List.range t).foldl (fun st t => sweepStep sha st (start + t) (top - t)) st).input =
          (mirrorPairs (roundBit sha seed round) start top t).foldl swapWhen st.input
  | 0, _ => ⟨h0, rfl⟩
  | t + 1, ht => by
    obtain ⟨hc, hin⟩ := foldl_sweepStep start h0 t (by omega)
    rw [List.range_succ, List.foldl_append, List.foldl_cons, List.foldl_nil, mirrorPairs_succ,
      List.foldl_append, List.foldl_cons, List.foldl_nil, ← hin]
    refine ⟨?_, sweepStep_input _ hc⟩
    rw [show top - (t + 1) = top - t - 1 by omega]
    exact hc.sweepStep _ (by omega)

/-- A sweep of at most `top` passes keeps the seed and the round in the buffer and swaps the list
as the mirror sweep with the round's bits. -/
theorem sweep_spec {buf : Buf} (hpre : buf.bytes.take pivotViewSize = seed ++ [round])
    (input : List ℕ) (start top count : ℕ) (hcount : count ≤ top) :
    (sweep sha buf input start top count).buf.bytes.take pivotViewSize = seed ++ [round] ∧
      (sweep sha buf input start top count).input =
        (mirrorPairs (roundBit sha seed round) start top count).foldl swapWhen input := by
  obtain ⟨hc, hin⟩ := foldl_sweepStep start (cached_startSweep hpre input top) count hcount
  exact ⟨hc.view_eq, hin⟩

end Cache

/-! The two sweeps of a round together. -/

/-- The pairs of the two sweeps of a round of pivot `pivot`: `[0, pivot]` and `(pivot, n)`, each
from its ends inwards. -/
def roundPairs (b : ℕ → Bool) (pivot listSize : ℕ) : List (ℕ × ℕ × Bool) :=
  mirrorPairs b 0 pivot ((pivot + 1) / 2) ++
    mirrorPairs b (pivot + 1) (listSize - 1) ((pivot + listSize + 1) / 2 - (pivot + 1))

section RoundPairs
variable {b : ℕ → Bool} {pivot n : ℕ}

theorem roundPairs_bounds (hp : pivot < n) {q : ℕ × ℕ × Bool} (hq : q ∈ roundPairs b pivot n) :
    q.1 < n ∧ q.2.1 < n := by
  rcases List.mem_append.mp hq with hq | hq
  · have h := mirrorPairs_bounds (by omega) hq
    omega
  · have h := mirrorPairs_bounds (by omega) hq
    omega

theorem pairwise_apart_roundPairs : (roundPairs b pivot n).Pairwise Apart := by
  refine List.pairwise_append.mpr
    ⟨pairwise_apart_mirrorPairs (by omega), pairwise_apart_mirrorPairs (by omega), ?_⟩
  -- the first sweep stays at or below the pivot, the second above it
  intro q hq q' hq'
  have h := mirrorPairs_bounds (by omega) hq
  have h' := mirrorPairs_bounds (by omega) hq'
  simp only [Apart]
  omega

/-- The two sweeps of a round pair each index with its partner in `do_round`, and read the bit of
the larger of the two. -/
theorem swapsTarget_roundPairs (hp : pivot < n) {k : ℕ} (hk : k < n) :
    swapsTarget (roundPairs b pivot n) k =
      if b (max k (flipIndex pivot n k)) then flipIndex pivot n k else k := by
  rcases Nat.lt_or_ge pivot k with hpk | hkp
  · -- above the pivot: the first sweep does not have `k`, the second pairs it with `pivot + n - k`
    have hfar : ∀ q ∈ mirrorPairs b 0 pivot ((pivot + 1) / 2), k ≠ q.1 ∧ k ≠ q.2.1 := by
      intro q hq
      have h := mirrorPairs_bounds (by omega) hq
      omega
    rw [roundPairs, swapsTarget_append_of_forall_ne hfar,
      swapsTarget_mirrorPairs (by omega) (by omega) (by omega), flipIndex_of_lt hpk hk,
      show pivot + 1 + (n - 1) - k = pivot + n - k by omega]
  · -- at or below the pivot: the second sweep does not have `k`, the first pairs it with
    -- `pivot - k`
    have hfar : ∀ q ∈ mirrorPairs b (pivot + 1) (n - 1) ((pivot + n + 1) / 2 - (pivot + 1)),
        k ≠ q.1 ∧ k ≠ q.2.1 := by
      intro q hq
      have h := mirrorPairs_bounds (by omega) hq
      omega
    rw [roundPairs, swapsTarget_append_of_forall_ne_right hfar,
      swapsTarget_mirrorPairs (by omega) (by omega) hkp, flipIndex_of_le hkp hp, Nat.zero_add]

end RoundPairs

/-! A round, and runs of rounds. -/

theorem shiftRight_one (x : ℕ) : x >>> 1 = x / 2 := by
  rw [Nat.shiftRight_eq_div_pow, pow_one]

theorem take_seedSize_of_view {b : Buf} {seed : Hash256} {round : UInt8}
    (h : b.bytes.take pivotViewSize = seed.bytes ++ [round]) : b.bytes.take seedSize = seed.bytes := by
  have htake : b.bytes.take seedSize = (b.bytes.take pivotViewSize).take seedSize := by
    rw [List.take_take]
    rfl
  rw [htake, h]
  exact List.take_left' seed.length_bytes

@[simp] theorem roundOrder_true (rounds : UInt8) : roundOrder rounds true = List.range rounds.toNat :=
  rfl

@[simp] theorem roundOrder_false (rounds : UInt8) :
    roundOrder rounds false = (List.range rounds.toNat).reverse := rfl

section Rounds
variable (sha : List UInt8 → Hash256) (seed : Hash256)

/-- A round from a buffer that holds the seed: the buffer still holds it, and the list is swapped
by the round's two sweeps, with the pivot and the bits `compute_shuffled_index` reads. -/
theorem shuffleRound_spec {st : Buf × List ℕ} (hseed : st.1.bytes.take seedSize = seed.bytes)
    {n : ℕ} (hn : 0 < n) (r : ℕ) :
    (shuffleRound sha n st r).1.bytes.take seedSize = seed.bytes ∧
      (shuffleRound sha n st r).2 =
        (roundPairs (roundBit sha seed.bytes (UInt8.ofNat r)) (pivotOf sha seed.bytes n r) n).foldl
          swapWhen st.2 := by
  have hp : pivotOf sha seed.bytes n r < n := pivotOf_lt sha seed.bytes hn r
  have hpre := take_pivotViewSize_setRound hseed (UInt8.ofNat r)
  have hpivot : (st.1.setRound (UInt8.ofNat r)).rawPivot sha % n = pivotOf sha seed.bytes n r := by
    rw [rawPivot_setRound sha hseed, pivotOf]
  -- the first sweep runs over `[0, pivot]`, the second over `(pivot, n)`
  obtain ⟨hpre₁, hin₁⟩ := sweep_spec hpre st.2 0 (pivotOf sha seed.bytes n r)
    ((pivotOf sha seed.bytes n r + 1) / 2) (by omega)
  obtain ⟨hpre₂, hin₂⟩ := sweep_spec hpre₁
    (sweep sha (st.1.setRound (UInt8.ofNat r)) st.2 0 (pivotOf sha seed.bytes n r)
      ((pivotOf sha seed.bytes n r + 1) / 2)).input
    (pivotOf sha seed.bytes n r + 1) (n - 1)
    ((pivotOf sha seed.bytes n r + n + 1) / 2 - (pivotOf sha seed.bytes n r + 1)) (by omega)
  simp only [shuffleRound, hpivot, shiftRight_one]
  exact ⟨take_seedSize_of_view hpre₂, by rw [hin₂, hin₁, roundPairs, List.foldl_append]⟩

/-- A round moves the element at each index by the round map of `compute_shuffled_index`. -/
theorem getElem?_shuffleRound {st : Buf × List ℕ} (hseed : st.1.bytes.take seedSize = seed.bytes)
    {n : ℕ} (hlen : st.2.length = n) (hn : 0 < n) (r : ℕ) {k : ℕ} (hk : k < n) :
    (shuffleRound sha n st r).2[k]? = st.2[roundMap sha seed.bytes n r k]? := by
  have hp := pivotOf_lt sha seed.bytes hn r
  have hbounds : ∀ q ∈ roundPairs (roundBit sha seed.bytes (UInt8.ofNat r))
      (pivotOf sha seed.bytes n r) n, q.1 < st.2.length ∧ q.2.1 < st.2.length := by
    rw [hlen]
    exact fun q hq => roundPairs_bounds hp hq
  rw [(shuffleRound_spec sha seed hseed hn r).2,
    getElem?_foldl_swapWhen pairwise_apart_roundPairs hbounds k, swapsTarget_roundPairs hp hk,
    roundMap, doRound_eq]

/-- What a run of rounds has made of a list: the buffer holds the seed, the list is a permutation
of the input, and each index holds the input's element at `σ` of it. -/
structure Shuffles (input : List ℕ) (σ : ℕ → ℕ) (st : Buf × List ℕ) : Prop where
  seed_eq : st.1.bytes.take seedSize = seed.bytes
  perm : st.2.Perm input
  getElem?_eq : ∀ k < input.length, st.2[k]? = input[σ k]?

theorem shuffles_new (input : List ℕ) : Shuffles seed input (fun k => k) (Buf.new seed, input) :=
  ⟨take_seedSize_new seed, List.Perm.refl input, fun _ _ => rfl⟩

variable {sha seed} {input : List ℕ}

/-- A round composes the round map onto what the run has done. -/
theorem Shuffles.round {σ : ℕ → ℕ} {st : Buf × List ℕ} (h : Shuffles seed input σ st)
    (hn : 0 < input.length) (r : ℕ) :
    Shuffles seed input (fun k => σ (roundMap sha seed.bytes input.length r k))
      (shuffleRound sha input.length st r) := by
  have hspec := shuffleRound_spec sha seed h.seed_eq hn r
  refine ⟨hspec.1, ?_, fun k hk => ?_⟩
  · rw [hspec.2]
    exact (perm_foldl_swapWhen _ _).trans h.perm
  · rw [getElem?_shuffleRound sha seed h.seed_eq h.perm.length_eq hn r hk]
    exact h.getElem?_eq _ (roundMap_lt sha seed.bytes r hk)

/-- A run of rounds composes their round maps, the first one outermost. -/
theorem Shuffles.rounds (hn : 0 < input.length) :
    ∀ (rs : List ℕ) {σ : ℕ → ℕ} {st : Buf × List ℕ}, Shuffles seed input σ st →
      Shuffles seed input (fun k => σ (rs.foldr (roundMap sha seed.bytes input.length) k))
        (rs.foldl (shuffleRound sha input.length) st)
  | [], _, _, h => h
  | r :: rs, _, _, h => Shuffles.rounds hn rs (h.round hn r)

variable (sha seed)

theorem shuffleList_eq (hn : 0 < input.length) (hmax : input.length ≤ 2 ^ 24) {rounds : UInt8}
    (hr : rounds ≠ 0) (forwards : Bool) :
    shuffleList sha input rounds seed forwards =
      some ((roundOrder rounds forwards).foldl (shuffleRound sha input.length)
        (Buf.new seed, input)).2 := by
  have hcond : ¬ (input.isEmpty ∨ input.length > usizeMax / 2 ∨ input.length > 2 ^ 24 ∨
      rounds = 0) := by
    have he : input.isEmpty = false := List.isEmpty_eq_false_iff.mpr (List.ne_nil_of_length_pos hn)
    simp only [he, usizeMax, hr, Bool.false_eq_true, or_false, false_or]
    omega
  rw [shuffleList, if_neg hcond]

/-- A run of `shuffle_list` that returns: each index of the list holds the input's element at the
round maps of the loop's rounds, the first one outermost. -/
theorem shuffles_shuffleList (hn : 0 < input.length) (hmax : input.length ≤ 2 ^ 24)
    {rounds : UInt8} (hr : rounds ≠ 0) (forwards : Bool) :
    ∃ st, shuffleList sha input rounds seed forwards = some st.2 ∧
      Shuffles seed input
        (fun k => (roundOrder rounds forwards).foldr (roundMap sha seed.bytes input.length) k) st :=
  ⟨_, shuffleList_eq sha seed hn hmax hr forwards, (shuffles_new seed input).rounds hn _⟩

/-- The rounds in one order undo the rounds in the other, on `[0, n)`. -/
theorem foldr_roundOrder_not {n k : ℕ} (hk : k < n) (rounds : UInt8) (forwards : Bool) :
    (roundOrder rounds forwards).foldr (roundMap sha seed.bytes n)
      ((roundOrder rounds !forwards).foldr (roundMap sha seed.bytes n) k) = k := by
  have hlt : ∀ r k, k < n → roundMap sha seed.bytes n r k < n :=
    fun r _ hk => roundMap_lt sha seed.bytes r hk
  have hinv : ∀ r k, k < n → roundMap sha seed.bytes n r (roundMap sha seed.bytes n r k) = k :=
    fun r _ hk => roundMap_roundMap sha seed.bytes r hk
  cases forwards
  · -- backwards after forwards: the reversed rounds are a left fold
    simp only [Bool.not_false, roundOrder_false, roundOrder_true, List.foldr_reverse]
    exact foldl_foldr_of_involutive _ hlt hinv _ hk
  · simp only [Bool.not_true, roundOrder_false, roundOrder_true, List.foldr_reverse]
    exact foldr_foldl_of_involutive _ hlt hinv _ hk

/-- Shuffled backwards, each index of the list holds the input's element at the index's
`compute_shuffled_index`, the form the specification uses. -/
theorem shuffleList_backwards (hn : 0 < input.length) (hmax : input.length ≤ 2 ^ 24)
    {rounds : UInt8} (hr : rounds ≠ 0) :
    ∃ out, shuffleList sha input rounds seed false = some out ∧ out.length = input.length ∧
      ∀ i < input.length, ∃ k, computeShuffledIndex sha i input.length seed.bytes rounds = some k ∧
        out[i]? = input[k]? := by
  obtain ⟨st, hst, h⟩ := shuffles_shuffleList sha seed hn hmax hr false
  refine ⟨st.2, hst, h.perm.length_eq, fun i hi =>
    ⟨_, computeShuffledIndex_eq sha seed.bytes rounds hi hmax, ?_⟩⟩
  -- the rounds run down from the last, so their maps compose as the left fold of the index
  rw [h.getElem?_eq i hi, roundOrder_false, List.foldr_reverse]

/-- A hash of all ones, whose bits all say swap. -/
def onesHash : Hash256 := ⟨List.replicate 32 0xff, rfl⟩

theorem shuffleList_backwards_at_three :
    0 < [5, 6, 7].length ∧ [5, 6, 7].length ≤ 2 ^ 24 ∧ (1 : UInt8) ≠ 0 ∧
      ∃ out, shuffleList (fun _ => onesHash) [5, 6, 7] 1 onesHash false = some out ∧
        out.length = [5, 6, 7].length ∧
        ∀ i < [5, 6, 7].length, ∃ k, computeShuffledIndex (fun _ => onesHash) i [5, 6, 7].length
          onesHash.bytes 1 = some k ∧ out[i]? = [5, 6, 7][k]? :=
  ⟨by decide, by decide, by decide,
    shuffleList_backwards (fun _ => onesHash) onesHash (by decide) (by decide) (by decide)⟩

/-- Shuffled forwards, the element at each index of the input goes to the index's
`compute_shuffled_index`. -/
theorem shuffleList_forwards (hn : 0 < input.length) (hmax : input.length ≤ 2 ^ 24)
    {rounds : UInt8} (hr : rounds ≠ 0) :
    ∃ out, shuffleList sha input rounds seed true = some out ∧ out.length = input.length ∧
      ∀ i < input.length, ∃ k, computeShuffledIndex sha i input.length seed.bytes rounds = some k ∧
        out[k]? = input[i]? := by
  obtain ⟨st, hst, h⟩ := shuffles_shuffleList sha seed hn hmax hr true
  refine ⟨st.2, hst, h.perm.length_eq, fun i hi =>
    ⟨_, computeShuffledIndex_eq sha seed.bytes rounds hi hmax, ?_⟩⟩
  -- the index's shuffled place, as the backwards rounds' composition, is undone by the forwards
  have hback : (List.range rounds.toNat).foldl
      (fun index round => roundMap sha seed.bytes input.length round index) i =
        (roundOrder rounds false).foldr (roundMap sha seed.bytes input.length) i := by
    rw [roundOrder_false, List.foldr_reverse]
  have hlt : (roundOrder rounds false).foldr (roundMap sha seed.bytes input.length) i <
      input.length :=
    foldr_lt _ (fun r _ hk => roundMap_lt sha seed.bytes r hk) _ hi
  have hundo := foldr_roundOrder_not sha seed hi rounds true
  rw [Bool.not_true] at hundo
  rw [hback, h.getElem?_eq _ hlt, hundo]

theorem shuffleList_forwards_at_three :
    0 < [5, 6, 7].length ∧ [5, 6, 7].length ≤ 2 ^ 24 ∧ (1 : UInt8) ≠ 0 ∧
      ∃ out, shuffleList (fun _ => onesHash) [5, 6, 7] 1 onesHash true = some out ∧
        out.length = [5, 6, 7].length ∧
        ∀ i < [5, 6, 7].length, ∃ k, computeShuffledIndex (fun _ => onesHash) i [5, 6, 7].length
          onesHash.bytes 1 = some k ∧ out[k]? = [5, 6, 7][i]? :=
  ⟨by decide, by decide, by decide,
    shuffleList_forwards (fun _ => onesHash) onesHash (by decide) (by decide) (by decide)⟩

/-- Shuffling one way and then the other gives the list back, in both orders, as the source's
documentation says. -/
theorem shuffleList_roundTrip (hn : 0 < input.length) (hmax : input.length ≤ 2 ^ 24)
    {rounds : UInt8} (hr : rounds ≠ 0) (forwards : Bool) :
    (shuffleList sha input rounds seed forwards).bind
      (fun out => shuffleList sha out rounds seed !forwards) = some input := by
  obtain ⟨st, hst, h⟩ := shuffles_shuffleList sha seed hn hmax hr forwards
  have hlen : st.2.length = input.length := h.perm.length_eq
  obtain ⟨st', hst', h'⟩ := shuffles_shuffleList sha seed (show 0 < st.2.length by omega)
    (show st.2.length ≤ 2 ^ 24 by omega) hr (!forwards)
  rw [hlen] at h'
  rw [hst, Option.bind_some, hst']
  refine congrArg some (List.ext_getElem? fun k => ?_)
  by_cases hk : k < input.length
  · -- back through the second run's rounds, then through the first's
    have hlt : (roundOrder rounds !forwards).foldr (roundMap sha seed.bytes input.length) k <
        input.length :=
      foldr_lt _ (fun r _ hk => roundMap_lt sha seed.bytes r hk) _ hk
    rw [h'.getElem?_eq k (by omega), h.getElem?_eq _ hlt,
      foldr_roundOrder_not sha seed hk rounds forwards]
  · rw [List.getElem?_eq_none (by rw [h'.perm.length_eq]; omega),
      List.getElem?_eq_none (by omega)]

theorem shuffleList_roundTrip_at_three :
    0 < [5, 6, 7].length ∧ [5, 6, 7].length ≤ 2 ^ 24 ∧ (1 : UInt8) ≠ 0 ∧
      (shuffleList (fun _ => onesHash) [5, 6, 7] 1 onesHash true).bind
        (fun out => shuffleList (fun _ => onesHash) out 1 onesHash !true) = some [5, 6, 7] :=
  ⟨by decide, by decide, by decide,
    shuffleList_roundTrip (fun _ => onesHash) onesHash (by decide) (by decide) (by decide) true⟩

/-- Where `shuffle_list` returns a list, the list is nonempty, within bounds, and the rounds at
least one. -/
theorem shuffleList_some_cond {rounds : UInt8} {forwards : Bool} {out : List ℕ}
    (h : shuffleList sha input rounds seed forwards = some out) :
    0 < input.length ∧ input.length ≤ 2 ^ 24 ∧ rounds ≠ 0 := by
  rw [shuffleList] at h
  split at h
  · cases h
  · rename_i hcond
    simp only [not_or, List.isEmpty_iff, usizeMax, gt_iff_lt, not_lt] at hcond
    exact ⟨List.length_pos_iff_ne_nil.mpr hcond.1, hcond.2.2.1, hcond.2.2.2⟩

/-- `shuffle_list` returns a permutation of its input: no index is lost or repeated. -/
theorem shuffleList_perm {rounds : UInt8} {forwards : Bool} {out : List ℕ}
    (h : shuffleList sha input rounds seed forwards = some out) : out.Perm input := by
  obtain ⟨hn, hmax, hr⟩ := shuffleList_some_cond sha seed h
  obtain ⟨st, hst, hs⟩ := shuffles_shuffleList sha seed hn hmax hr forwards
  rw [hst, Option.some.injEq] at h
  exact h ▸ hs.perm

theorem shuffleList_perm_at_three :
    shuffleList (fun _ => onesHash) [5, 6, 7] 1 onesHash true = some [5, 7, 6] ∧
      [5, 7, 6].Perm [5, 6, 7] :=
  have h : shuffleList (fun _ => onesHash) [5, 6, 7] 1 onesHash true = some [5, 7, 6] := by decide
  ⟨h, shuffleList_perm (fun _ => onesHash) onesHash h⟩

end Rounds

end Lighthouse.Shuffling
