import Mathlib.Data.List.Basic

/-! Byte strings read bit by bit, least significant bit first, byte `i / 8` holding bit `i`: the
layout of SSZ bitfields. Every byte operation is pushed down to its bits by the simp lemmas
below, and two bytes, or two byte strings of one length, are equal when their bits are. -/
namespace Lighthouse.Bytes

/-- Bit `j` of a byte. -/
def bit (x : UInt8) (j : Nat) : Bool := x.toBitVec.getLsbD j

@[simp] theorem bit_and (x y : UInt8) (j : Nat) : bit (x &&& y) j = (bit x j && bit y j) := by
  simp [bit]

@[simp] theorem bit_or (x y : UInt8) (j : Nat) : bit (x ||| y) j = (bit x j || bit y j) := by
  simp [bit]

@[simp] theorem bit_not (x : UInt8) (j : Nat) : bit (~~~x) j = (decide (j < 8) && !bit x j) := by
  simp [bit]

@[simp] theorem bit_zero (j : Nat) : bit 0 j = false := by
  simp [bit]

theorem bit_of_le {j : Nat} (hj : 8 ≤ j) (x : UInt8) : bit x j = false :=
  BitVec.getLsbD_of_ge _ _ hj

theorem ext_bit {x y : UInt8} (h : ∀ j < 8, bit x j = bit y j) : x = y :=
  UInt8.eq_iff_toBitVec_eq.mpr (BitVec.eq_of_getLsbD_eq h)

theorem eq_zero_iff (x : UInt8) : x = 0 ↔ ∀ j, bit x j = false := by
  constructor
  · rintro rfl j
    exact bit_zero j
  · intro h
    exact ext_bit fun j _ => by rw [h, bit_zero]

set_option maxRecDepth 4096 in
theorem bit_one_shiftLeft {j : Nat} (hj : j < 8) (k : Nat) :
    bit (1 <<< UInt8.ofNat j) k = decide (k = j) := by
  by_cases hk : k < 8
  · have table : ∀ a b : Fin 8, bit (1 <<< UInt8.ofNat a) b = decide (b = a) := by decide
    simpa [Fin.ext_iff] using table ⟨j, hj⟩ ⟨k, hk⟩
  · rw [bit_of_le (by omega)]
    simp only [Bool.false_eq, decide_eq_false_iff_not]
    omega

set_option maxRecDepth 4096 in
/-- The test `x & (1 << j) > 0` of `Bitfield::get`. -/
theorem and_one_shiftLeft_pos (x : UInt8) {j : Nat} (hj : j < 8) :
    decide (x &&& 1 <<< UInt8.ofNat j > 0) = bit x j := by
  rw [Bool.eq_iff_iff, decide_eq_true_iff, gt_iff_lt, UInt8.pos_iff_ne_zero, ne_eq, eq_zero_iff]
  simp only [bit_and, bit_one_shiftLeft hj, not_forall]
  constructor
  · rintro ⟨k, hk⟩
    by_cases hkj : k = j
    · subst hkj
      simpa using hk
    · simp [hkj] at hk
  · intro h
    exact ⟨j, by simp [h]⟩

set_option maxRecDepth 4096 in
/-- The mask `u8::MAX.overflowing_shr(8 - r)` of `Bitfield::from_raw_bytes`: Lean's shift, like
the first component of `overflowing_shr`, takes its amount modulo 8, so `r = 0` keeps all
eight bits. -/
theorem bit_mask {r : Nat} (hr : r < 8) (k : Nat) :
    bit (255 >>> UInt8.ofNat (8 - r)) k = decide (k < 8 ∧ (r = 0 ∨ k < r)) := by
  by_cases hk : k < 8
  · have table : ∀ a b : Fin 8, bit (255 >>> UInt8.ofNat (8 - a)) b =
        decide (b.val < 8 ∧ (a.val = 0 ∨ b.val < a.val)) := by decide
    simpa using table ⟨r, hr⟩ ⟨k, hk⟩
  · rw [bit_of_le (by omega)]
    simp [hk]

/-- `u8::leading_zeros`. -/
def leadingZeros (x : UInt8) : Nat := if x = 0 then 8 else 7 - x.toNat.log2

set_option maxRecDepth 4096 in
theorem bit_highest {x : UInt8} (hx : x ≠ 0) : bit x (7 - leadingZeros x) = true := by
  have table : ∀ y : Fin 256, UInt8.ofFin y ≠ 0 →
      bit (UInt8.ofFin y) (7 - leadingZeros (UInt8.ofFin y)) = true := by decide
  exact table x.toFin hx

set_option maxRecDepth 4096 in
theorem bit_above_highest {x : UInt8} {k : Nat} (hk : 7 - leadingZeros x < k) :
    bit x k = false := by
  by_cases h8 : k < 8
  · have table : ∀ (y : Fin 256) (b : Fin 8), 7 - leadingZeros (UInt8.ofFin y) < b.val →
        bit (UInt8.ofFin y) b = false := by decide
    exact table x.toFin ⟨k, h8⟩ hk
  · exact bit_of_le (by omega) x

theorem leadingZeros_le (x : UInt8) : 7 - leadingZeros x < 8 := by omega

section Strings
variable {bs cs : List UInt8}

/-- Bit `i` of a byte string; bits past its end read as zero. -/
def bitOf (bs : List UInt8) (i : Nat) : Bool := bit (bs.getD (i / 8) 0) (i % 8)

theorem bitOf_of_length_le {i : Nat} (h : bs.length ≤ i / 8) : bitOf bs i = false := by
  simp [bitOf, List.getD_eq_getElem?_getD, List.getElem?_eq_none h]

theorem bitOf_eq_bit {i k : Nat} (hk : k < bs.length) (hi : i / 8 = k) :
    bitOf bs i = bit bs[k] (i % 8) := by
  simp [bitOf, hi, List.getD_eq_getElem?_getD, List.getElem?_eq_getElem hk]

/-- Bit `8 * k + j` is bit `j` of byte `k`. -/
theorem bitOf_byte {k j : Nat} (hj : j < 8) : bitOf bs (8 * k + j) = bit (bs.getD k 0) j := by
  have hdiv : (8 * k + j) / 8 = k := by omega
  have hmod : (8 * k + j) % 8 = j := by omega
  rw [bitOf, hdiv, hmod]

theorem getD_ext_bitOf {k : Nat} (h : ∀ i, i / 8 = k → bitOf bs i = bitOf cs i) :
    bs.getD k 0 = cs.getD k 0 :=
  ext_bit fun j hj => by
    rw [← bitOf_byte hj, ← bitOf_byte hj]
    exact h _ (by omega)

/-- Byte strings of one length are equal when their bits are. -/
theorem ext_bitOf (hl : bs.length = cs.length) (h : ∀ i, bitOf bs i = bitOf cs i) : bs = cs := by
  apply List.ext_getElem hl
  intro k hk hk'
  have := getD_ext_bitOf (k := k) fun i _ => h i
  simpa [List.getD_eq_getElem?_getD, List.getElem?_eq_getElem hk,
    List.getElem?_eq_getElem hk'] using this

theorem bitOf_set (bs : List UInt8) (k : Nat) (x : UInt8) (i : Nat) :
    bitOf (bs.set k x) i = if i / 8 = k ∧ k < bs.length then bit x (i % 8) else bitOf bs i := by
  unfold bitOf
  rw [List.getD_eq_getElem?_getD, List.getD_eq_getElem?_getD, List.getElem?_set]
  by_cases hk : k = i / 8
  · subst hk
    by_cases hl : i / 8 < bs.length <;> simp [hl]
  · simp [hk, Ne.symm hk]

theorem bitOf_take (bs : List UInt8) (k i : Nat) :
    bitOf (bs.take k) i = (decide (i / 8 < k) && bitOf bs i) := by
  unfold bitOf
  rw [List.getD_eq_getElem?_getD, List.getD_eq_getElem?_getD, List.getElem?_take]
  by_cases h : i / 8 < k <;> simp [h]

theorem bitOf_append_replicate_zero (bs : List UInt8) (m i : Nat) :
    bitOf (bs ++ List.replicate m 0) i = bitOf bs i := by
  unfold bitOf
  rw [List.getD_eq_getElem?_getD, List.getD_eq_getElem?_getD, List.getElem?_append]
  split
  · rfl
  · rename_i h
    rw [List.getElem?_eq_none (Nat.le_of_not_lt h), List.getElem?_replicate]
    split <;> simp

@[simp] theorem bitOf_replicate_zero (m i : Nat) : bitOf (List.replicate m 0) i = false := by
  simpa [bitOf_of_length_le] using bitOf_append_replicate_zero [] m i

end Strings

end Lighthouse.Bytes
