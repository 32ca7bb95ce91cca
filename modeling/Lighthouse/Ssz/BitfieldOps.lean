import Lighthouse.Ssz.BitfieldLaws

/-! The set operations of the bitfields, bit by bit. Intersection and union build a fresh
zero buffer and write each byte from the operands' bytes, difference clears in place the bytes
both operands have, and `shift_up` moves the bits up from the top down before clearing the low
ones. Each keeps the invariant, and each computes the bitwise operation on the bits the
specification reads, `false` past the length. -/
namespace Lighthouse.Ssz
open Bytes

namespace Bitfield

theorem wf_zeros (len : Nat) : Bitfield.Wf ⟨List.replicate (bytesForBitLen len) 0, len⟩ :=
  ⟨List.length_replicate .., fun _ _ => bitOf_replicate_zero _ _⟩

/-- A fresh zero buffer written byte by byte. -/
theorem updateEach_zeros {f : Nat → UInt8 → Except (Fault Error) UInt8} {g : Nat → UInt8}
    {L : Nat} (hf : ∀ i < L, f i 0 = .ok (g i)) :
    ∃ w, updateEach f L (List.replicate L 0) = .ok w ∧ w.length = L ∧
      ∀ i, bitOf w i = (decide (i / 8 < L) && bit (g (i / 8)) (i % 8)) := by
  obtain ⟨w, hw, hlen, hget⟩ := updateEach_eq_ok (f := f) (g := g) (v := List.replicate L 0)
    (k := L) (by simp) fun i hi => by
      rw [List.getD_eq_getElem?_getD, List.getElem?_replicate, if_pos hi, Option.getD_some]
      exact hf i hi
  refine ⟨w, hw, by simpa using hlen, fun i => ?_⟩
  rw [bitOf_of_getD hget]
  by_cases hi : i / 8 < L <;> simp [hi]

theorem index_getD {v : List UInt8} {L i : Nat} (hL : L ≤ v.length) (hi : i < L) :
    index v i = .ok (v.getD i 0) :=
  index_eq_ok (by omega)

/-- `difference_inplace` clears the bits of `other`, whatever the lengths. -/
theorem differenceInplace_eq_ok (a other : Bitfield) :
    ∃ c, a.differenceInplace other = .ok c ∧ c.len = a.len ∧ c.bytes.length = a.bytes.length ∧
      ∀ i, bitOf c.bytes i = (bitOf a.bytes i && !bitOf other.bytes i) := by
  obtain ⟨w, hw, hlen, hget⟩ :=
    updateEach_eq_ok (v := a.bytes) (k := min a.bytes.length other.bytes.length)
    (f := fun i x => do pure (x &&& ~~~(← index other.bytes i)))
    (g := fun i => a.bytes.getD i 0 &&& ~~~other.bytes.getD i 0) (by omega) fun i hi => by
      simp only [index_getD (Nat.min_le_right _ _) hi, bind, Except.bind, pure, Except.pure]
  refine ⟨⟨w, a.len⟩, by simp only [differenceInplace, hw]; rfl, rfl, hlen, fun i => ?_⟩
  rw [bitOf_of_getD hget]
  split_ifs with hi
  · simp [bitOf, Nat.mod_lt i (by omega : 8 > 0)]
  · -- Past the shorter byte string one of the two bits reads as zero.
    rcases Nat.le_total a.bytes.length other.bytes.length with hle | hle
    · rw [bitOf_of_length_le (by omega), Bool.false_and]
    · rw [@bitOf_of_length_le other.bytes i (by omega), Bool.not_false, Bool.and_true]

theorem difference_eq_ok (a other : Bitfield) :
    ∃ c, a.difference other = .ok c ∧ c.len = a.len ∧ c.bytes.length = a.bytes.length ∧
      ∀ i, bitOf c.bytes i = (bitOf a.bytes i && !bitOf other.bytes i) :=
  differenceInplace_eq_ok a other

theorem Wf.differenceInplace {a other c : Bitfield} (ha : a.Wf)
    (h : a.differenceInplace other = .ok c) : c.Wf := by
  obtain ⟨c', hc', hlen, hbytes, hbits⟩ := differenceInplace_eq_ok a other
  rw [h, Except.ok.injEq] at hc'
  subst hc'
  refine ⟨by rw [hbytes, hlen, ha.length_bytes], fun i hi => ?_⟩
  rw [hbits, ha.bitOf_of_le i (hlen ▸ hi), Bool.false_and]

section ShiftUp
variable {k : Nat}

/-- The first loop of `shift_up` over `n .. n + m`, from the top down: each step reads a bit
below the ones written so far, so every bit in the range gets the old bit `k` below it. -/
theorem shiftLoop_eq_ok (old : Bitfield) :
    ∀ (m : Nat) (b : Bitfield), b.Wf → b.len = old.len → k + m ≤ old.len →
      (∀ j < k + m, bitOf b.bytes j = bitOf old.bytes j) →
      ∃ c, (List.range' k m).reverse.foldlM
          (fun (b : Bitfield) i => do b.set i (← b.get (i - k))) b = .ok c ∧
        c.Wf ∧ c.len = old.len ∧
        ∀ j, bitOf c.bytes j = if k ≤ j ∧ j < k + m then bitOf old.bytes (j - k) else bitOf b.bytes j
  | 0, b, hb, hlen, _, _ => ⟨b, rfl, hb, hlen, fun j => by rw [if_neg (by omega)]⟩
  | m + 1, b, hb, hlen, hkm, hagree => by
    have hget : b.get m = .ok (bitOf old.bytes m) := by
      rw [get_eq_ok hb.length_bytes (by omega), hagree m (by omega)]
    obtain ⟨b', hb', hlen', -, hbits'⟩ :=
      set_eq_ok hb.length_bytes (i := k + m) (by omega) (bitOf old.bytes m)
    obtain ⟨c, hc, hcwf, hclen, hcbits⟩ := shiftLoop_eq_ok old m b' (hb.set hb') (hlen'.trans hlen)
      (by omega) fun j hj => by rw [hbits', if_neg (by omega), hagree j (by omega)]
    refine ⟨c, ?_, hcwf, hclen, fun j => ?_⟩
    · rw [List.range'_concat, Nat.one_mul, List.reverse_append, List.reverse_singleton,
        List.singleton_append, List.foldlM_cons]
      simp only [Nat.add_sub_cancel_left, hget, CacheRefinement.ok_bind, hb', hc]
    · rw [hcbits, hbits']
      by_cases hj : j = k + m
      · subst hj
        simp
      · by_cases hr : k ≤ j ∧ j < k + m
        · simp [hr, show k ≤ j ∧ j < k + (m + 1) by omega]
        · simp [hr, hj, show ¬(k ≤ j ∧ j < k + (m + 1)) by omega]

/-- The second loop of `shift_up`: the bits below `m` cleared. -/
theorem clearLoop_eq_ok :
    ∀ (m : Nat) (b : Bitfield), b.Wf → m ≤ b.len →
      ∃ c, (List.range m).foldlM (fun (b : Bitfield) (i : Nat) =>
          (match b.set i false with
          | .ok b => pure b
          | .error _ => throw (Fault.panic "called Result::unwrap() on an Err value") :
            Except (Fault Error) Bitfield)) b = .ok c ∧
        c.Wf ∧ c.len = b.len ∧ ∀ j, bitOf c.bytes j = (decide (m ≤ j) && bitOf b.bytes j)
  | 0, b, hb, _ => ⟨b, rfl, hb, rfl, fun j => by simp⟩
  | m + 1, b, hb, hm => by
    obtain ⟨c, hc, hcwf, hclen, hcbits⟩ := clearLoop_eq_ok m b hb (by omega)
    obtain ⟨c', hc', hlen', -, hbits'⟩ := set_eq_ok hcwf.length_bytes (i := m) (by omega) false
    refine ⟨c', ?_, hcwf.set hc', hlen'.trans hclen, fun j => ?_⟩
    · rw [List.range_succ, List.foldlM_append, hc]
      simp only [List.foldlM_cons, List.foldlM_nil, hc', bind, Except.bind, pure, Except.pure]
    · rw [hbits', hcbits]
      by_cases hj : j = m
      · rw [if_pos hj, hj, decide_eq_false (Nat.not_succ_le_self m), Bool.false_and]
      · by_cases hmj : m + 1 ≤ j
        · simp [hj, hmj, show m ≤ j by omega]
        · simp [hj, hmj, show ¬ m ≤ j by omega]

/-- `shift_up` moves every bit `k` places up within the length. -/
theorem shiftUp_eq_ok {b : Bitfield} (hb : b.Wf) (hk : k ≤ b.len) :
    ∃ c, b.shiftUp k = .ok c ∧ c.Wf ∧ c.len = b.len ∧
      ∀ i < b.len, bitOf c.bytes i = (decide (k ≤ i) && bitOf b.bytes (i - k)) := by
  obtain ⟨c₁, hc₁, hwf₁, hlen₁, hbits₁⟩ :=
    shiftLoop_eq_ok (k := k) b (b.len - k) b hb rfl (by omega) fun _ _ => rfl
  obtain ⟨c₂, hc₂, hwf₂, hlen₂, hbits₂⟩ := clearLoop_eq_ok k c₁ hwf₁ (by omega)
  refine ⟨c₂, ?_, hwf₂, hlen₂.trans hlen₁, fun i hi => ?_⟩
  · simp only [shiftUp, hk, ↓reduceIte, hc₁]
    simp only [Except.mapError, CacheRefinement.ok_bind]
    exact hc₂
  · rw [hbits₂, hbits₁]
    by_cases hki : k ≤ i
    · simp [hki, show i < k + (b.len - k) by omega]
    · simp [hki]

theorem Wf.shiftUp {b c : Bitfield} (hb : b.Wf) (h : b.shiftUp k = .ok c) : c.Wf ∧ c.len = b.len := by
  by_cases hk : k ≤ b.len
  · obtain ⟨c', hc', hwf, hlen, -⟩ := shiftUp_eq_ok hb hk
    rw [h, Except.ok.injEq] at hc'
    subst hc'
    exact ⟨hwf, hlen⟩
  · simp [Bitfield.shiftUp, hk] at h

end ShiftUp

end Bitfield

namespace BitList
open Bitfield

theorem withCapacity_eq_ok {n numBits : Nat} (h : numBits ≤ n) :
    withCapacity n numBits = .ok ⟨List.replicate (bytesForBitLen numBits) 0, numBits⟩ := by
  simp [withCapacity, h]
  rfl

theorem Inv.withCapacity {n numBits : Nat} {b : Bitfield} (h : withCapacity n numBits = .ok b) :
    Inv n b := by
  by_cases hn : numBits ≤ n
  · rw [withCapacity_eq_ok hn, Except.ok.injEq] at h
    subst h
    exact ⟨wf_zeros _, hn⟩
  · simp [BitList.withCapacity, hn] at h

/-- `intersection` of two `BitList`s: the shorter length, and both bits. -/
theorem intersection_eq_ok {n : Nat} {a b : Bitfield} (ha : Inv n a) (hb : Inv n b) :
    ∃ c, intersection n a b = .ok c ∧ c.Wf ∧ c.len = min a.len b.len ∧
      ∀ i, bitOf c.bytes i = (bitOf a.bytes i && bitOf b.bytes i) := by
  have hmin : min a.len b.len ≤ n := by have := ha.2; omega
  have haL : bytesForBitLen (min a.len b.len) ≤ a.bytes.length :=
    ha.1.length_bytes ▸ bytesForBitLen_mono (Nat.min_le_left _ _)
  have hbL : bytesForBitLen (min a.len b.len) ≤ b.bytes.length :=
    hb.1.length_bytes ▸ bytesForBitLen_mono (Nat.min_le_right _ _)
  obtain ⟨w, hw, hlen, hbits⟩ := updateEach_zeros (L := bytesForBitLen (min a.len b.len))
    (f := fun i _ => do pure ((← index a.bytes i) &&& (← index b.bytes i)))
    (g := fun i => a.bytes.getD i 0 &&& b.bytes.getD i 0) fun i hi => by
      simp only [index_getD haL hi, index_getD hbL hi, bind, Except.bind, pure, Except.pure]
  -- Past the shorter length one of the operands has no bit.
  have hbits' : ∀ i, bitOf w i = (bitOf a.bytes i && bitOf b.bytes i) := fun i => by
    rw [hbits]
    by_cases hi : i / 8 < bytesForBitLen (min a.len b.len)
    · simp [hi, bitOf]
    · have hpast : min a.len b.len ≤ i := le_of_bytesForBitLen_le (Nat.le_of_not_lt hi)
      rcases Nat.le_total a.len b.len with hle | hle
      · simp [hi, ha.1.bitOf_of_le i (by omega)]
      · simp [hi, hb.1.bitOf_of_le i (by omega)]
  refine ⟨⟨w, min a.len b.len⟩, ?_, ⟨hlen, fun i hi => ?_⟩, rfl, hbits'⟩
  · simp only [intersection, withCapacity_eq_ok hmin, List.length_replicate, pure_bind, hw]
    rfl
  · rw [hbits']
    rcases Nat.le_total a.len b.len with hle | hle
    · rw [ha.1.bitOf_of_le i (by dsimp only at hi; omega), Bool.false_and]
    · rw [hb.1.bitOf_of_le i (by dsimp only at hi; omega), Bool.and_false]

/-- `union` of two `BitList`s: the longer length, and either bit. -/
theorem union_eq_ok {n : Nat} {a b : Bitfield} (ha : Inv n a) (hb : Inv n b) :
    ∃ c, union n a b = .ok c ∧ c.Wf ∧ c.len = max a.len b.len ∧
      ∀ i, bitOf c.bytes i = (bitOf a.bytes i || bitOf b.bytes i) := by
  have hmax : max a.len b.len ≤ n := by have := ha.2; have := hb.2; omega
  obtain ⟨w, hw, hlen, hbits⟩ := updateEach_zeros (L := bytesForBitLen (max a.len b.len))
    (f := fun i _ => pure (a.bytes.getD i 0 ||| b.bytes.getD i 0))
    (g := fun i => a.bytes.getD i 0 ||| b.bytes.getD i 0) fun _ _ => rfl
  -- Past the longer length neither operand has a bit.
  have hbits' : ∀ i, bitOf w i = (bitOf a.bytes i || bitOf b.bytes i) := fun i => by
    rw [hbits]
    by_cases hi : i / 8 < bytesForBitLen (max a.len b.len)
    · simp [hi, bitOf]
    · have hpast : max a.len b.len ≤ i := le_of_bytesForBitLen_le (Nat.le_of_not_lt hi)
      simp [hi, ha.1.bitOf_of_le i (by omega), hb.1.bitOf_of_le i (by omega)]
  refine ⟨⟨w, max a.len b.len⟩, ?_, ⟨hlen, fun i hi => ?_⟩, rfl, hbits'⟩
  · simp only [union, withCapacity_eq_ok hmax, List.length_replicate, pure_bind, hw]
    rfl
  · dsimp only at hi
    rw [hbits', ha.1.bitOf_of_le i (by omega), hb.1.bitOf_of_le i (by omega), Bool.or_false]

end BitList

namespace BitVector
open Bitfield

theorem Inv.new (n : Nat) : Inv n (new n) := ⟨wf_zeros n, rfl⟩

/-- `intersection` of two `BitVector`s: both bits. -/
theorem intersection_eq_ok {n : Nat} {a b : Bitfield} (ha : Inv n a) (hb : Inv n b) :
    ∃ c, intersection n a b = .ok c ∧ Inv n c ∧
      ∀ i, bitOf c.bytes i = (bitOf a.bytes i && bitOf b.bytes i) := by
  have haL : bytesForBitLen n ≤ a.bytes.length := by rw [ha.1.length_bytes, ha.2]
  have hbL : bytesForBitLen n ≤ b.bytes.length := by rw [hb.1.length_bytes, hb.2]
  obtain ⟨w, hw, hlen, hbits⟩ := updateEach_zeros (L := bytesForBitLen n)
    (f := fun i _ => do pure ((← index a.bytes i) &&& (← index b.bytes i)))
    (g := fun i => a.bytes.getD i 0 &&& b.bytes.getD i 0) fun i hi => by
      simp only [index_getD haL hi, index_getD hbL hi, bind, Except.bind, pure, Except.pure]
  have hbits' : ∀ i, bitOf w i = (bitOf a.bytes i && bitOf b.bytes i) := fun i => by
    rw [hbits]
    by_cases hi : i / 8 < bytesForBitLen n
    · simp [hi, bitOf]
    · have hpast : n ≤ i := le_of_bytesForBitLen_le (Nat.le_of_not_lt hi)
      simp [hi, ha.1.bitOf_of_le i (by rw [ha.2]; exact hpast)]
  refine ⟨⟨w, n⟩, ?_, ⟨⟨hlen, fun i hi => ?_⟩, rfl⟩, hbits'⟩
  · simp only [intersection, new, List.length_replicate, hw]
    rfl
  · rw [hbits', ha.1.bitOf_of_le i (by rw [ha.2]; exact hi), Bool.false_and]

/-- `union` of two `BitVector`s: either bit. -/
theorem union_eq_ok {n : Nat} {a b : Bitfield} (ha : Inv n a) (hb : Inv n b) :
    ∃ c, union n a b = .ok c ∧ Inv n c ∧
      ∀ i, bitOf c.bytes i = (bitOf a.bytes i || bitOf b.bytes i) := by
  obtain ⟨w, hw, hlen, hbits⟩ := updateEach_zeros (L := bytesForBitLen n)
    (f := fun i _ => pure (a.bytes.getD i 0 ||| b.bytes.getD i 0))
    (g := fun i => a.bytes.getD i 0 ||| b.bytes.getD i 0) fun _ _ => rfl
  have hbits' : ∀ i, bitOf w i = (bitOf a.bytes i || bitOf b.bytes i) := fun i => by
    rw [hbits]
    by_cases hi : i / 8 < bytesForBitLen n
    · simp [hi, bitOf]
    · have hpast : n ≤ i := le_of_bytesForBitLen_le (Nat.le_of_not_lt hi)
      simp [hi, ha.1.bitOf_of_le i (by rw [ha.2]; exact hpast),
        hb.1.bitOf_of_le i (by rw [hb.2]; exact hpast)]
  refine ⟨⟨w, n⟩, ?_, ⟨⟨hlen, fun i hi => ?_⟩, rfl⟩, hbits'⟩
  · simp only [union, new, List.length_replicate, hw]
    rfl
  · rw [hbits', ha.1.bitOf_of_le i (by rw [ha.2]; exact hi),
      hb.1.bitOf_of_le i (by rw [hb.2]; exact hi), Bool.or_false]

end BitVector

namespace Bitfield

/-- The operations of one kind of bitfield keep its invariant `inv`: `set` and `shift_up` on
what they return, and the set operations always return such a value. -/
structure KeepsInv (inv : Bitfield → Prop)
    (intersection union : Bitfield → Bitfield → Except (Fault Error) Bitfield) : Prop where
  set : ∀ a i v c, inv a → a.set i v = .ok c → inv c
  intersection : ∀ a b, inv a → inv b → ∃ c, intersection a b = .ok c ∧ inv c
  union : ∀ a b, inv a → inv b → ∃ c, union a b = .ok c ∧ inv c
  difference : ∀ a b, inv a → inv b → ∃ c, a.difference b = .ok c ∧ inv c
  differenceInplace : ∀ a b, inv a → inv b → ∃ c, a.differenceInplace b = .ok c ∧ inv c
  shiftUp : ∀ a k c, inv a → a.shiftUp k = .ok c → inv c

/-- `set`, the differences and `shift_up` keep the length, so they keep any invariant that is
well-formedness and a condition on the length. -/
theorem keepsInv {P : Nat → Prop}
    {intersection union : Bitfield → Bitfield → Except (Fault Error) Bitfield}
    (hi : ∀ a b, a.Wf ∧ P a.len → b.Wf ∧ P b.len → ∃ c, intersection a b = .ok c ∧ c.Wf ∧ P c.len)
    (hu : ∀ a b, a.Wf ∧ P a.len → b.Wf ∧ P b.len → ∃ c, union a b = .ok c ∧ c.Wf ∧ P c.len) :
    KeepsInv (fun b => b.Wf ∧ P b.len) intersection union where
  set a _ _ _ ha h := ⟨ha.1.set h, (set_len h).symm ▸ ha.2⟩
  intersection := hi
  union := hu
  difference a b ha _ := by
    obtain ⟨c, hc, hlen, -⟩ := difference_eq_ok a b
    exact ⟨c, hc, ha.1.differenceInplace hc, hlen ▸ ha.2⟩
  differenceInplace a b ha _ := by
    obtain ⟨c, hc, hlen, -⟩ := differenceInplace_eq_ok a b
    exact ⟨c, hc, ha.1.differenceInplace hc, hlen ▸ ha.2⟩
  shiftUp a _ _ ha h := by
    obtain ⟨hwf, hlen⟩ := ha.1.shiftUp h
    exact ⟨hwf, hlen ▸ ha.2⟩

end Bitfield

open Bitfield in
/-- Every constructor of a `BitList<N>` or `BitVector<N>` returns a value that keeps its
representation invariant, and every operation keeps it. -/
theorem bitfield_invariant_kept (n : Nat) :
    (∀ k b, BitList.withCapacity n k = .ok b → BitList.Inv n b) ∧
    (∀ s b, BitList.fromBytes n s = .ok b → BitList.Inv n b) ∧
    (∀ s b, BitList.fromSszBytes n s = .ok b → BitList.Inv n b) ∧
    BitVector.Inv n (BitVector.new n) ∧
    (∀ s b, BitVector.fromBytes n s = .ok b → BitVector.Inv n b) ∧
    (∀ s b, BitVector.fromSszBytes n s = .ok b → BitVector.Inv n b) ∧
    KeepsInv (BitList.Inv n) (BitList.intersection n) (BitList.union n) ∧
    KeepsInv (BitVector.Inv n) (BitVector.intersection n) (BitVector.union n) := by
  have hvector : ∀ s b, BitVector.fromBytes n s = .ok b → BitVector.Inv n b := fun s b h => by
    obtain ⟨rfl, hwf⟩ := fromRawBytes_eq_ok_iff.mp h
    exact ⟨hwf, rfl⟩
  refine ⟨fun _ _ h => BitList.Inv.withCapacity h, fun _ _ h => (BitList.fromBytes_eq_ok h).1,
    fun _ _ h => (BitList.fromBytes_eq_ok (CacheRefinement.mapError_eq_ok.mp h)).1,
    BitVector.Inv.new n, hvector,
    fun s b h => hvector s b (CacheRefinement.mapError_eq_ok.mp h), ?_, ?_⟩
  · exact keepsInv (P := (· ≤ n))
      (fun _ _ ha hb => by
        obtain ⟨c, hc, hwf, hlen, -⟩ := BitList.intersection_eq_ok ha hb
        exact ⟨c, hc, hwf, by rw [hlen]; exact le_trans (Nat.min_le_left _ _) ha.2⟩)
      (fun _ _ ha hb => by
        obtain ⟨c, hc, hwf, hlen, -⟩ := BitList.union_eq_ok ha hb
        exact ⟨c, hc, hwf, by rw [hlen]; exact Nat.max_le.mpr ⟨ha.2, hb.2⟩⟩)
  · exact keepsInv (P := (· = n))
      (fun _ _ ha hb => by
        obtain ⟨c, hc, hinv, -⟩ := BitVector.intersection_eq_ok ha hb
        exact ⟨c, hc, hinv⟩)
      (fun _ _ ha hb => by
        obtain ⟨c, hc, hinv, -⟩ := BitVector.union_eq_ok ha hb
        exact ⟨c, hc, hinv⟩)

open Bitfield in
/-- The set operations of `BitList`s are the bitwise ones on the bits the specification reads,
`false` past the length; `shift_up` moves each bit of the list `k` places up. -/
theorem bitList_ops_bitwise (n : Nat) (a b : Bitfield) (ha : BitList.Inv n a)
    (hb : BitList.Inv n b) :
    (∃ c, BitList.union n a b = .ok c ∧ c.len = max a.len b.len ∧
      ∀ i, c.bitAt i = (a.bitAt i || b.bitAt i)) ∧
    (∃ c, BitList.intersection n a b = .ok c ∧ c.len = min a.len b.len ∧
      ∀ i, c.bitAt i = (a.bitAt i && b.bitAt i)) ∧
    (∃ c, a.difference b = .ok c ∧ c.len = a.len ∧ ∀ i, c.bitAt i = (a.bitAt i && !b.bitAt i)) ∧
    (∀ k ≤ a.len, ∃ c, a.shiftUp k = .ok c ∧ c.len = a.len ∧
      ∀ i < a.len, c.bitAt i = (decide (k ≤ i) && a.bitAt (i - k))) := by
  refine ⟨?_, ?_, ?_, fun k hk => ?_⟩
  · obtain ⟨c, hc, hwf, hlen, hbits⟩ := BitList.union_eq_ok ha hb
    exact ⟨c, hc, hlen, fun i => by rw [bitAt_eq hwf, bitAt_eq ha.1, bitAt_eq hb.1, hbits]⟩
  · obtain ⟨c, hc, hwf, hlen, hbits⟩ := BitList.intersection_eq_ok ha hb
    exact ⟨c, hc, hlen, fun i => by rw [bitAt_eq hwf, bitAt_eq ha.1, bitAt_eq hb.1, hbits]⟩
  · obtain ⟨c, hc, hlen, -, hbits⟩ := difference_eq_ok a b
    have hwf : c.Wf := ha.1.differenceInplace hc
    exact ⟨c, hc, hlen, fun i => by rw [bitAt_eq hwf, bitAt_eq ha.1, bitAt_eq hb.1, hbits]⟩
  · obtain ⟨c, hc, hwf, hlen, hbits⟩ := shiftUp_eq_ok ha.1 hk
    exact ⟨c, hc, hlen, fun i hi => by rw [bitAt_eq hwf, bitAt_eq ha.1, hbits i hi]⟩

/-- Bits `0` and `2` of three. -/
def threeBits : Bitfield := ⟨[5], 3⟩

/-- Bits `1`, `2` and `8` of nine, the list two bytes long. -/
def nineBits : Bitfield := ⟨[6, 1], 9⟩

open Bitfield in
theorem bitList_ops_bitwise_at_threeBits :
    BitList.Inv 10 threeBits ∧ BitList.Inv 10 nineBits ∧
    ((∃ c, BitList.union 10 threeBits nineBits = .ok c ∧ c.len = max threeBits.len nineBits.len ∧
      ∀ i, c.bitAt i = (threeBits.bitAt i || nineBits.bitAt i)) ∧
    (∃ c, BitList.intersection 10 threeBits nineBits = .ok c ∧
      c.len = min threeBits.len nineBits.len ∧
      ∀ i, c.bitAt i = (threeBits.bitAt i && nineBits.bitAt i)) ∧
    (∃ c, threeBits.difference nineBits = .ok c ∧ c.len = threeBits.len ∧
      ∀ i, c.bitAt i = (threeBits.bitAt i && !nineBits.bitAt i)) ∧
    (∀ k ≤ threeBits.len, ∃ c, threeBits.shiftUp k = .ok c ∧ c.len = threeBits.len ∧
      ∀ i < threeBits.len, c.bitAt i = (decide (k ≤ i) && threeBits.bitAt (i - k)))) :=
  have ha : BitList.Inv 10 threeBits := ⟨Wf.fromRawBytes (show fromRawBytes [5] 3 = .ok threeBits from rfl), by decide⟩
  have hb : BitList.Inv 10 nineBits :=
    ⟨Wf.fromRawBytes (show fromRawBytes [6, 1] 9 = .ok nineBits from rfl), by decide⟩
  ⟨ha, hb, bitList_ops_bitwise 10 threeBits nineBits ha hb⟩

end Lighthouse.Ssz
