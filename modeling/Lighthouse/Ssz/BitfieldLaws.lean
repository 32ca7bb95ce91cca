import Lighthouse.Ssz.Bitfield
import Lighthouse.Foundations.PositionMap
import Lighthouse.Foundations.CacheRefinement

/-! The representation invariant of the bitfields and what every operation does to the bits.
`Wf` asks for the minimal byte count and for the bits past the length to be clear; `BitList.Inv`
and `BitVector.Inv` add the bound on the length. `bitAt` is the bit the specification reads,
`false` past the length. -/
namespace Lighthouse.Ssz
open Bytes

namespace Bitfield

/-- The representation invariant shared by both kinds of bitfield. -/
structure Wf (b : Bitfield) : Prop where
  length_bytes : b.bytes.length = bytesForBitLen b.len
  bitOf_of_le : ∀ i, b.len ≤ i → bitOf b.bytes i = false

/-- Bit `i` as the specification reads it: `get`, and `false` past the length. -/
def bitAt (b : Bitfield) (i : Nat) : Bool :=
  match b.get i with
  | .ok v => v
  | .error _ => false

section ByteCount

theorem one_le_bytesForBitLen (bitLen : Nat) : 1 ≤ bytesForBitLen bitLen := by
  unfold bytesForBitLen
  omega

theorem div_lt_bytesForBitLen {i bitLen : Nat} (h : i < bitLen) : i / 8 < bytesForBitLen bitLen := by
  unfold bytesForBitLen
  omega

theorem bytesForBitLen_succ (len : Nat) : bytesForBitLen (len + 1) = len / 8 + 1 := by
  unfold bytesForBitLen
  omega

theorem bytesForBitLen_mono {a b : Nat} (h : a ≤ b) : bytesForBitLen a ≤ bytesForBitLen b := by
  unfold bytesForBitLen
  omega

/-- A bit at or past `8 * bytesForBitLen bitLen` lies past the length. -/
theorem le_of_bytesForBitLen_le {i bitLen : Nat} (h : bytesForBitLen bitLen ≤ i / 8) :
    bitLen ≤ i := by
  unfold bytesForBitLen at h
  omega

end ByteCount

section GetSet
variable {b : Bitfield}

theorem get_eq_ok (hlen : b.bytes.length = bytesForBitLen b.len) {i : Nat} (hi : i < b.len) :
    b.get i = .ok (bitOf b.bytes i) := by
  have hk : i / 8 < b.bytes.length := hlen ▸ div_lt_bytesForBitLen hi
  simp only [get, hi, ↓reduceIte, List.getElem?_eq_getElem hk]
  rw [and_one_shiftLeft_pos _ (Nat.mod_lt _ (by omega)), bitOf_eq_bit hk rfl]
  rfl

theorem get_of_le {i : Nat} (hi : b.len ≤ i) : b.get i = .error (.outOfBounds i b.len) := by
  simp [get, Nat.not_lt.mpr hi]
  rfl

theorem bitAt_eq (hb : b.Wf) (i : Nat) : b.bitAt i = bitOf b.bytes i := by
  by_cases hi : i < b.len
  · simp only [bitAt, get_eq_ok hb.length_bytes hi]
  · simp only [bitAt, get_of_le (Nat.le_of_not_lt hi), hb.bitOf_of_le i (Nat.le_of_not_lt hi)]

/-- The byte `set` writes, for the bit `i % 8`. -/
theorem bit_setByte (x : UInt8) {j : Nat} (hj : j < 8) (v : Bool) (k : Nat) :
    bit (if v then x ||| 1 <<< UInt8.ofNat j else x &&& ~~~(1 <<< UInt8.ofNat j)) k =
      if k = j then v else bit x k := by
  by_cases hk8 : k < 8
  · cases v <;> by_cases hkj : k = j <;> simp [bit_one_shiftLeft hj, hkj, hk8]
  · have hkj : k ≠ j := by omega
    simp [bit_of_le (Nat.le_of_not_lt hk8), hkj]

/-- `set` changes bit `i` alone. -/
theorem set_eq_ok (hlen : b.bytes.length = bytesForBitLen b.len) {i : Nat} (hi : i < b.len)
    (v : Bool) :
    ∃ b', b.set i v = .ok b' ∧ b'.len = b.len ∧ b'.bytes.length = b.bytes.length ∧
      ∀ k, bitOf b'.bytes k = if k = i then v else bitOf b.bytes k := by
  have hk : i / 8 < b.bytes.length := hlen ▸ div_lt_bytesForBitLen hi
  refine ⟨⟨b.bytes.set (i / 8) (if v then b.bytes[i / 8] ||| 1 <<< UInt8.ofNat (i % 8)
      else b.bytes[i / 8] &&& ~~~(1 <<< UInt8.ofNat (i % 8))), b.len⟩, ?_, rfl,
    List.length_set .., fun k => ?_⟩
  · simp only [set, hi, ↓reduceIte, List.getElem?_eq_getElem hk]
    rfl
  rw [bitOf_set]
  by_cases hki : k / 8 = i / 8
  · have hmod : k % 8 = i % 8 ↔ k = i := by omega
    rw [if_pos ⟨hki, hk⟩, bit_setByte _ (Nat.mod_lt _ (by omega)), ← bitOf_eq_bit hk hki]
    simp only [hmod]
  · have hne : k ≠ i := fun h => hki (h ▸ rfl)
    simp [hki, hne]

theorem Wf.set (hb : b.Wf) {i : Nat} {v : Bool} {b' : Bitfield} (h : b.set i v = .ok b') :
    b'.Wf := by
  have hi : i < b.len := by
    by_contra hi
    rw [Bitfield.set, if_neg hi] at h
    cases h
  obtain ⟨c, hc, hlen, hbytes, hbits⟩ := set_eq_ok hb.length_bytes hi v
  rw [hc, Except.ok.injEq] at h
  subst h
  refine ⟨by rw [hbytes, hlen, hb.length_bytes], fun k hk => ?_⟩
  rw [hbits, if_neg (by omega)]
  exact hb.bitOf_of_le k (hlen ▸ hk)

theorem set_len {i : Nat} {v : Bool} {b' : Bitfield} (h : b.set i v = .ok b') : b'.len = b.len := by
  by_cases hi : i < b.len
  · rw [Bitfield.set, if_pos hi] at h
    split at h
    · cases h
      rfl
    · cases h
  · rw [Bitfield.set, if_neg hi] at h
    cases h

end GetSet

section Ext

/-- A well-formed bitfield is determined by its length and its bits. -/
theorem Wf.ext {a b : Bitfield} (ha : a.Wf) (hb : b.Wf) (hlen : a.len = b.len)
    (hbits : ∀ i < a.len, bitOf a.bytes i = bitOf b.bytes i) : a = b := by
  have hbytes : a.bytes = b.bytes := by
    refine ext_bitOf (by rw [ha.length_bytes, hb.length_bytes, hlen]) fun i => ?_
    by_cases hi : i < a.len
    · exact hbits i hi
    · rw [ha.bitOf_of_le i (by omega), hb.bitOf_of_le i (by omega)]
  cases a
  cases b
  simp only at hbytes hlen
  rw [hbytes, hlen]

end Ext

section RawBytes
variable {bytes : List UInt8} {bitLen : Nat}

theorem getLastD_eq_getD (bytes : List UInt8) :
    bytes.getLastD 0 = bytes.getD (bytes.length - 1) 0 := by
  rw [List.getLastD_eq_getLast?, List.getLast?_eq_getElem?, List.getD_eq_getElem?_getD]

/-- The mask test of `from_raw_bytes` is that every bit past `bitLen` is clear, given the byte
count: only the last byte can hold such bits, at `bitLen % 8` and above. -/
theorem mask_test_iff (hl : bytes.length = bytesForBitLen bitLen) (h0 : bitLen ≠ 0) :
    (bytes.getLastD 0 &&& ~~~(255 >>> UInt8.ofNat (8 - bitLen % 8)) = 0) ↔
      ∀ i, bitLen ≤ i → bitOf bytes i = false := by
  have hL : bytes.length - 1 = (bitLen - 1) / 8 := by
    unfold bytesForBitLen at hl
    omega
  rw [getLastD_eq_getD, eq_zero_iff]
  simp only [bit_and, bit_not, bit_mask (Nat.mod_lt bitLen (by omega))]
  constructor
  · intro h i hi
    by_cases hin : bytes.length ≤ i / 8
    · exact bitOf_of_length_le hin
    · -- The bit lies in the last byte, at `bitLen % 8` or above, so the mask drops it.
      have hlast : i / 8 = bytes.length - 1 := by
        unfold bytesForBitLen at hl
        omega
      have hj := h (i % 8)
      rw [← hlast] at hj
      simp only [bitOf] at hj ⊢
      have hr : ¬(bitLen % 8 = 0 ∨ i % 8 < bitLen % 8) := by
        unfold bytesForBitLen at hl
        omega
      simpa [Nat.mod_lt i (by omega : 8 > 0), hr] using hj
  · intro h j
    by_cases hj : j < 8 ∧ ¬(bitLen % 8 = 0 ∨ j < bitLen % 8)
    · -- Bit `j` of the last byte is bit `8 * (length - 1) + j`, past the length.
      have hpast : bitLen ≤ 8 * (bytes.length - 1) + j := by
        unfold bytesForBitLen at hl
        omega
      have := h _ hpast
      rw [bitOf_byte hj.1] at this
      rw [this, Bool.false_and]
    · by_cases hj8 : j < 8
      · have hm : bitLen % 8 = 0 ∨ j < bitLen % 8 := by tauto
        simp [hj8, hm]
      · simp [hj8]

theorem wf_zero_iff : Bitfield.Wf ⟨bytes, 0⟩ ↔ bytes.length = 1 ∧ bytes[0]? = some 0 := by
  constructor
  · rintro ⟨hl, hbits⟩
    have hl1 : bytes.length = 1 := by simpa [bytesForBitLen] using hl
    refine ⟨hl1, ?_⟩
    have hz : bytes.getD 0 0 = 0 :=
      (eq_zero_iff _).mpr fun j => by
        by_cases hj : j < 8
        · rw [← bitOf_byte (k := 0) hj]
          exact hbits _ (Nat.zero_le _)
        · exact bit_of_le (Nat.le_of_not_lt hj) _
    rw [List.getD_eq_getElem?_getD, List.getElem?_eq_getElem (by omega), Option.getD_some] at hz
    rw [List.getElem?_eq_getElem (by omega), hz]
  · rintro ⟨hl, h0⟩
    refine ⟨by simp [bytesForBitLen, hl], fun i _ => ?_⟩
    dsimp only
    by_cases hi : i / 8 = 0
    · simp [bitOf, hi, List.getD_eq_getElem?_getD, h0]
    · exact bitOf_of_length_le (by omega)

/-- `from_raw_bytes` accepts exactly the well-formed pairs of bytes and length. -/
theorem fromRawBytes_eq_ok_iff {b : Bitfield} :
    fromRawBytes bytes bitLen = .ok b ↔ b = ⟨bytes, bitLen⟩ ∧ Bitfield.Wf ⟨bytes, bitLen⟩ := by
  by_cases h0 : bitLen = 0
  · subst h0
    rw [wf_zero_iff]
    by_cases hz : bytes.length = 1 ∧ bytes[0]? = some 0
    · rw [fromRawBytes, if_pos rfl, if_pos hz]
      exact ⟨fun h => ⟨(Except.ok.inj h).symm, hz⟩, fun h => h.1 ▸ rfl⟩
    · rw [fromRawBytes, if_pos rfl, if_neg hz]
      exact ⟨fun h => (by cases h), fun h => absurd h.2 hz⟩
  · by_cases hl : bytes.length = bytesForBitLen bitLen
    · have hwf : Bitfield.Wf ⟨bytes, bitLen⟩ ↔ ∀ i, bitLen ≤ i → bitOf bytes i = false :=
        ⟨fun h => h.bitOf_of_le, fun h => ⟨hl, h⟩⟩
      rw [hwf, ← mask_test_iff hl h0, fromRawBytes, if_neg h0, if_neg (not_not.mpr hl)]
      dsimp only
      by_cases hm : bytes.getLastD 0 &&& ~~~(255 >>> UInt8.ofNat (8 - bitLen % 8)) = 0
      · rw [if_pos hm]
        exact ⟨fun h => ⟨(Except.ok.inj h).symm, hm⟩, fun h => h.1 ▸ rfl⟩
      · rw [if_neg hm]
        exact ⟨fun h => (by cases h), fun h => absurd h.2 hm⟩
    · rw [fromRawBytes, if_neg h0, if_pos hl]
      exact ⟨fun h => (by cases h), fun h => absurd h.2.length_bytes hl⟩

theorem Wf.fromRawBytes {b : Bitfield} (h : Bitfield.fromRawBytes bytes bitLen = .ok b) : b.Wf := by
  obtain ⟨rfl, hwf⟩ := fromRawBytes_eq_ok_iff.mp h
  exact hwf

theorem fromRawBytes_self {b : Bitfield} (hb : b.Wf) : Bitfield.fromRawBytes b.bytes b.len = .ok b :=
  fromRawBytes_eq_ok_iff.mpr ⟨rfl, hb⟩

end RawBytes

section Loops

/-- `updateEach` rewrites each byte below `k` with the value its step computes from the old
byte; the step never sees an earlier write, since each index is written once. -/
theorem updateEach_eq_ok {f : Nat → UInt8 → Except (Fault Error) UInt8} {g : Nat → UInt8}
    {v : List UInt8} :
    ∀ {k : Nat}, k ≤ v.length → (∀ i < k, f i (v.getD i 0) = .ok (g i)) →
      ∃ w, updateEach f k v = .ok w ∧ w.length = v.length ∧
        ∀ i, w.getD i 0 = if i < k then g i else v.getD i 0
  | 0, _, _ => ⟨v, rfl, rfl, fun i => by simp⟩
  | k + 1, hk, hf => by
    obtain ⟨w, hw, hlen, hget⟩ := updateEach_eq_ok (k := k) (by omega)
      fun i hi => hf i (by omega)
    -- The last step reads byte `k`, which the earlier steps left alone.
    have hwk : w.getD k 0 = v.getD k 0 := by rw [hget, if_neg (Nat.lt_irrefl k)]
    refine ⟨w.set k (g k), ?_, by rw [List.length_set, hlen], fun i => ?_⟩
    · unfold updateEach at hw ⊢
      have hkw : k < w.length := by omega
      rw [List.range_succ, List.foldlM_append, hw]
      simp only [List.foldlM_cons, List.foldlM_nil, bind, Except.bind, hwk,
        hf k (Nat.lt_succ_self k), writeIndex, hkw, ↓reduceIte, pure, Except.pure]
    · rw [List.getD_eq_getElem?_getD, List.getElem?_set]
      by_cases hik : k = i
      · subst hik
        simp [show k < w.length by omega]
      · rw [if_neg hik, ← List.getD_eq_getElem?_getD, hget]
        by_cases hi : i < k
        · simp [hi, show i < k + 1 by omega]
        · simp [hi, show ¬ i < k + 1 by omega]

/-- The bits after `updateEach`, from its bytes. -/
theorem bitOf_of_getD {w v : List UInt8} {k : Nat} {g : Nat → UInt8}
    (hget : ∀ i, w.getD i 0 = if i < k then g i else v.getD i 0) (i : Nat) :
    bitOf w i = if i / 8 < k then bit (g (i / 8)) (i % 8) else bitOf v i := by
  unfold bitOf
  rw [hget]
  split_ifs <;> rfl

theorem index_eq_ok {v : List UInt8} {i : Nat} (hi : i < v.length) : index v i = .ok (v.getD i 0) := by
  simp [index, List.getElem?_eq_getElem hi, List.getD_eq_getElem?_getD]
  rfl

end Loops


section HighestSetBit
variable {b : Bitfield}

theorem leadingZeros_le_seven {x : UInt8} (hx : x ≠ 0) : leadingZeros x ≤ 7 := by
  unfold leadingZeros
  rw [if_neg hx]
  omega

theorem eq_zero_of_not_pos {y : UInt8} (hy : decide (y > 0) = false) : y = 0 := by
  simpa [UInt8.pos_iff_ne_zero] using hy

/-- `highest_set_bit` finds the last nonzero byte and in it the highest set bit. -/
theorem highestSetBit_eq_some {h : Nat} (hh : b.highestSetBit = some h) :
    h / 8 < b.bytes.length ∧ bitOf b.bytes h = true ∧ ∀ k, h < k → bitOf b.bytes k = false := by
  obtain ⟨⟨x, i'⟩, hfind, rfl⟩ := Option.map_eq_some_iff.mp hh
  obtain ⟨i, hi, hx, hafter⟩ := PositionMap.find?_reverse_eq_some hfind
  rw [List.getElem?_zipIdx, Option.map_eq_some_iff] at hi
  obtain ⟨x', hx', hxx⟩ := hi
  simp only [Prod.mk.injEq, Nat.zero_add] at hxx
  obtain ⟨rfl, rfl⟩ := hxx
  have hx0 : x' ≠ 0 := by simpa [UInt8.pos_iff_ne_zero] using hx
  have hlz := leadingZeros_le_seven hx0
  have hil : i < b.bytes.length := (List.getElem?_eq_some_iff.mp hx').1
  have hget : b.bytes.getD i 0 = x' := by simp [List.getD_eq_getElem?_getD, hx']
  have hpos : i * 8 + 7 - leadingZeros x' = 8 * i + (7 - leadingZeros x') := by omega
  refine ⟨by rw [hpos]; omega, ?_, fun k hk => ?_⟩
  · rw [hpos, bitOf_byte (leadingZeros_le x'), hget]
    exact bit_highest hx0
  rw [hpos] at hk
  by_cases hki : k / 8 = i
  · rw [bitOf, hki, hget]
    exact bit_above_highest (by omega)
  · -- A later byte, which is zero or past the end.
    cases hy : b.bytes[k / 8]? with
    | none => exact bitOf_of_length_le (List.getElem?_eq_none_iff.mp hy)
    | some y =>
      have hz := hafter (k / 8) (y, k / 8) (by omega)
        (by rw [List.getElem?_zipIdx, hy, Option.map_some, Nat.zero_add])
      have hy0 : y = 0 := eq_zero_of_not_pos hz
      simp [bitOf, List.getD_eq_getElem?_getD, hy, hy0]

theorem highestSetBit_eq_none (hh : b.highestSetBit = none) (k : Nat) : bitOf b.bytes k = false := by
  rw [highestSetBit, Option.map_eq_none_iff, List.find?_eq_none] at hh
  cases hy : b.bytes[k / 8]? with
  | none => exact bitOf_of_length_le (List.getElem?_eq_none_iff.mp hy)
  | some y =>
    have hz := hh (y, k / 8) (List.mem_reverse.mpr (List.mem_zipIdx_iff_getElem?.mpr hy))
    have hy0 : y = 0 := eq_zero_of_not_pos (Bool.eq_false_iff.mpr hz)
    simp [bitOf, List.getD_eq_getElem?_getD, hy, hy0]

/-- The highest set bit is the set bit above which all are clear. -/
theorem highestSetBit_eq_of {h : Nat} (hset : bitOf b.bytes h = true)
    (habove : ∀ k, h < k → bitOf b.bytes k = false) : b.highestSetBit = some h := by
  cases hh : b.highestSetBit with
  | none =>
    rw [highestSetBit_eq_none hh] at hset
    cases hset
  | some h' =>
    obtain ⟨-, hset', habove'⟩ := highestSetBit_eq_some hh
    rcases lt_trichotomy h h' with hlt | rfl | hgt
    · rw [habove h' hlt] at hset'
      cases hset'
    · rfl
    · rw [habove' h hgt] at hset
      cases hset

end HighestSetBit

end Bitfield

namespace BitList
open Bitfield

/-- The representation invariant of a `BitList<N>`. -/
def Inv (n : Nat) (b : Bitfield) : Prop := b.Wf ∧ b.len ≤ n

theorem length_resize (v : List UInt8) (m : Nat) (x : UInt8) : (resize v m x).length = m := by
  simp only [resize, List.length_append, List.length_take, List.length_replicate]
  omega

theorem bitOf_resize (v : List UInt8) (m i : Nat) :
    bitOf (resize v m 0) i = (decide (i / 8 < m) && bitOf v i) := by
  rw [resize, bitOf_append_replicate_zero, bitOf_take]

/-- `into_bytes` sets the length bit above the bits, in `len / 8 + 1` bytes. -/
theorem intoBytes_eq_ok {b : Bitfield} (hb : b.Wf) :
    ∃ s, intoBytes b = .ok s ∧ s.length = b.len / 8 + 1 ∧
      ∀ i, bitOf s i = (decide (i = b.len) || bitOf b.bytes i) := by
  have hwf : Bitfield.Wf ⟨resize b.bytes (bytesForBitLen (b.len + 1)) 0, b.len + 1⟩ := by
    refine ⟨length_resize .., fun i hi => ?_⟩
    dsimp only at hi ⊢
    rw [bitOf_resize, hb.bitOf_of_le i (by omega), Bool.and_false]
  have hraw : fromRawBytes (resize b.bytes (bytesForBitLen (b.len + 1)) 0) (b.len + 1) =
      .ok ⟨resize b.bytes (bytesForBitLen (b.len + 1)) 0, b.len + 1⟩ := fromRawBytes_self hwf
  obtain ⟨c, hc, -, hcbytes, hcbits⟩ :=
    set_eq_ok hwf.length_bytes (i := b.len) (Nat.lt_succ_self _) true
  refine ⟨c.bytes, ?_, ?_, fun i => ?_⟩
  · simp only [intoBytes, hraw, hc, bind, Except.bind, pure, Except.pure]
  · rw [hcbytes, length_resize, bytesForBitLen_succ]
  · rw [hcbits]
    by_cases hi : i = b.len
    · simp [hi]
    · -- Below the new byte count the old bits; above it, past the length, none.
      rw [bitOf_resize]
      by_cases him : i / 8 < bytesForBitLen (b.len + 1)
      · simp [hi, him]
      · have hpast : b.len + 1 ≤ i := le_of_bytesForBitLen_le (Nat.le_of_not_lt him)
        simp [hi, him, hb.bitOf_of_le i (by omega)]

/-- `from_bytes` accepts bytes whose highest set bit, in the last byte, is at most `n`: the
bitfield of the bits below it. -/
theorem fromBytes_eq_ok_of {n len : Nat} {s : List UInt8} (hl : s.length = len / 8 + 1)
    (hset : bitOf s len = true) (habove : ∀ k, len < k → bitOf s k = false) (hn : len ≤ n) :
    ∃ b, fromBytes n s = .ok b ∧ b.Wf ∧ b.len = len ∧ ∀ i < len, bitOf b.bytes i = bitOf s i := by
  have hib : Bitfield.Wf ⟨s, s.length * 8⟩ := by
    refine ⟨by simp only [bytesForBitLen]; omega, fun i hi => bitOf_of_length_le ?_⟩
    dsimp only at hi ⊢
    omega
  have hr : fromRawBytes s (s.length * 8) = .ok ⟨s, s.length * 8⟩ := fromRawBytes_self hib
  have hh : Bitfield.highestSetBit ⟨s, s.length * 8⟩ = some len := highestSetBit_eq_of hset habove
  obtain ⟨c, hc, -, hcbytes, hcbits⟩ :=
    set_eq_ok hib.length_bytes (i := len) (by dsimp only; omega) false
  -- The length bit cleared and the byte it may have added dropped.
  have hwf : Bitfield.Wf ⟨c.bytes.take (bytesForBitLen len), len⟩ := by
    refine ⟨?_, fun k hk => ?_⟩
    · have hcl : c.bytes.length = len / 8 + 1 := by rw [hcbytes]; exact hl
      dsimp only
      rw [List.length_take, hcl]
      unfold bytesForBitLen
      omega
    · dsimp only at hk ⊢
      rw [bitOf_take, hcbits]
      by_cases hkl : k = len
      · simp [hkl]
      · simp [hkl, habove k (by omega)]
  have hf : fromRawBytes (c.bytes.take (bytesForBitLen len)) len =
      .ok ⟨c.bytes.take (bytesForBitLen len), len⟩ := fromRawBytes_self hwf
  refine ⟨_, ?_, hwf, rfl, fun i hi => ?_⟩
  · have hcond : len / 8 + 1 = s.length := hl.symm
    simp only [fromBytes, hr, hh, hcond, hn, hc, hf, Except.mapError, bind, Except.bind, pure,
      Except.pure, ne_eq, not_true_eq_false, ↓reduceIte]
  · dsimp only
    rw [bitOf_take, hcbits, if_neg (by omega), decide_eq_true (div_lt_bytesForBitLen hi),
      Bool.true_and]

/-- What `from_bytes` accepts has its highest set bit at the length, in the last byte. -/
theorem fromBytes_conditions {n : Nat} {s : List UInt8} {b : Bitfield} (h : fromBytes n s = .ok b) :
    s.length = b.len / 8 + 1 ∧ bitOf s b.len = true ∧ (∀ k, b.len < k → bitOf s k = false) ∧
      b.len ≤ n := by
  cases hr : fromRawBytes s (s.length * 8) with
  | error e => simp [fromBytes, hr, Except.mapError, bind, Except.bind] at h
  | ok ib =>
    obtain ⟨rfl, hib⟩ := fromRawBytes_eq_ok_iff.mp hr
    cases hh : Bitfield.highestSetBit ⟨s, s.length * 8⟩ with
    | none => simp [fromBytes, hr, hh, Except.mapError, bind, Except.bind] at h
    | some len =>
      obtain ⟨hlen8, hset, habove⟩ := highestSetBit_eq_some hh
      simp only [fromBytes, hr, hh, Except.mapError, bind, Except.bind, pure, Except.pure] at h
      by_cases hc : len / 8 + 1 = s.length
      · by_cases hn : len ≤ n
        · obtain ⟨c, hc', -⟩ :=
            set_eq_ok hib.length_bytes (i := len) (by dsimp only at hlen8 ⊢; omega) false
          simp only [hc, hn, hc', ne_eq, not_true_eq_false, ↓reduceIte] at h
          cases hf : fromRawBytes (c.bytes.take (bytesForBitLen len)) len with
          | error e =>
            rw [hf] at h
            cases h
          | ok b' =>
            rw [hf] at h
            cases h
            obtain ⟨rfl, -⟩ := fromRawBytes_eq_ok_iff.mp hf
            exact ⟨by dsimp only; omega, hset, habove, hn⟩
        · simp only [hc, hn, ne_eq, not_true_eq_false, ↓reduceIte] at h
          cases h
      · simp only [hc, ne_eq, not_false_eq_true, ↓reduceIte] at h
        cases h

theorem fromBytes_eq_ok {n : Nat} {s : List UInt8} {b : Bitfield} (h : fromBytes n s = .ok b) :
    Inv n b ∧ s.length = b.len / 8 + 1 ∧ ∀ i, bitOf s i = (decide (i = b.len) || bitOf b.bytes i) := by
  obtain ⟨hl, hset, habove, hn⟩ := fromBytes_conditions h
  obtain ⟨b', hb', hwf, hlen, hbits⟩ := fromBytes_eq_ok_of hl hset habove hn
  rw [h, Except.ok.injEq] at hb'
  subst hb'
  refine ⟨⟨hwf, hn⟩, hl, fun i => ?_⟩
  rcases lt_trichotomy i b.len with hi | rfl | hi
  · simp [hbits i hi, Nat.ne_of_lt hi]
  · simp [hset]
  · simp [habove i hi, hwf.bitOf_of_le i (Nat.le_of_lt hi), Nat.ne_of_gt hi]

/-- Encoding a `BitList` and decoding it gives it back. -/
theorem fromSszBytes_asSszBytes {n : Nat} {b : Bitfield} (hb : Inv n b) :
    ∃ s, asSszBytes b = .ok s ∧ fromSszBytes n s = .ok b := by
  obtain ⟨s, hs, hl, hbits⟩ := intoBytes_eq_ok hb.1
  have hset : bitOf s b.len = true := by simp [hbits]
  have habove : ∀ k, b.len < k → bitOf s k = false := fun k hk => by
    simp [hbits, Nat.ne_of_gt hk, hb.1.bitOf_of_le k (Nat.le_of_lt hk)]
  obtain ⟨b', hb', hwf, hlen, hbits'⟩ := fromBytes_eq_ok_of hl hset habove hb.2
  -- The decoded bitfield has the length and the bits below it, so it is `b`.
  have heq : b' = b := Wf.ext hwf hb.1 hlen fun i hi => by
    rw [hbits' i (hlen ▸ hi), hbits, decide_eq_false (Nat.ne_of_lt (hlen ▸ hi)), Bool.false_or]
  refine ⟨s, hs, ?_⟩
  rw [fromSszBytes, hb', heq]
  rfl

/-- Decoding a `BitList` and encoding it gives the bytes back. -/
theorem asSszBytes_fromSszBytes {n : Nat} {s : List UInt8} {b : Bitfield}
    (h : fromSszBytes n s = .ok b) : asSszBytes b = .ok s := by
  obtain ⟨hinv, hl, hbits⟩ := fromBytes_eq_ok (CacheRefinement.mapError_eq_ok.mp h)
  obtain ⟨s', hs', hl', hbits'⟩ := intoBytes_eq_ok hinv.1
  rw [asSszBytes, hs', ext_bitOf (hl'.trans hl.symm) fun i => by rw [hbits, hbits']]

end BitList

namespace BitVector
open Bitfield

/-- The representation invariant of a `BitVector<N>`. -/
def Inv (n : Nat) (b : Bitfield) : Prop := b.Wf ∧ b.len = n

theorem fromSszBytes_asSszBytes {n : Nat} {b : Bitfield} (hb : Inv n b) :
    fromSszBytes n (asSszBytes b) = .ok b := by
  rw [fromSszBytes, fromBytes, asSszBytes, intoBytes, ← hb.2, fromRawBytes_self hb.1]
  rfl

theorem asSszBytes_fromSszBytes {n : Nat} {s : List UInt8} {b : Bitfield}
    (h : fromSszBytes n s = .ok b) : asSszBytes b = s := by
  obtain ⟨rfl, -⟩ := fromRawBytes_eq_ok_iff.mp (CacheRefinement.mapError_eq_ok.mp h)
  rfl

end BitVector

/-- SSZ encoding of bitfields is a bijection between the values that keep the invariant and the
byte strings that decode. -/
theorem bitfield_ssz_round_trip (n : Nat) :
    (∀ b, BitList.Inv n b → ∃ s, BitList.asSszBytes b = .ok s ∧ BitList.fromSszBytes n s = .ok b) ∧
    (∀ s b, BitList.fromSszBytes n s = .ok b → BitList.asSszBytes b = .ok s) ∧
    (∀ b, BitVector.Inv n b → BitVector.fromSszBytes n (BitVector.asSszBytes b) = .ok b) ∧
    (∀ s b, BitVector.fromSszBytes n s = .ok b → BitVector.asSszBytes b = s) :=
  ⟨fun _ hb => BitList.fromSszBytes_asSszBytes hb, fun _ _ h => BitList.asSszBytes_fromSszBytes h,
    fun _ hb => BitVector.fromSszBytes_asSszBytes hb, fun _ _ h => BitVector.asSszBytes_fromSszBytes h⟩

end Lighthouse.Ssz
