import Mathlib.Data.List.Basic
import Mathlib.Algebra.GroupWithZero.Nat

/-! The legacy SSZ encoding of `Option<T>` that `four_byte_option_impl!` generates for the
database: a four-byte little-endian selector, `0` for `None` and `1` for `Some`, followed for
`Some` by the value's encoding.

The decoder reads the selector and, for `0`, returns `None` without looking at the bytes after
it. So every string that starts with four zero bytes decodes to `None`, while `None` encodes to
those four bytes alone: decoding is not canonical. For `Some` it is canonical whenever the inner
type's decoding is. -/
namespace Lighthouse.Ssz

/-- `BYTES_PER_LENGTH_OFFSET`. -/
def bytesPerLengthOffset : Nat := 4

/-- `ssz::DecodeError`, the variants the decoders modelled here return. -/
inductive DecodeError where
  | invalidByteLength (len expected : Nat)
  | invalidLengthPrefix (len expected : Nat)
  | outOfBoundsByte (i : Nat)
  | offsetIntoFixedPortion (offset : Nat)
  | offsetSkipsVariableBytes (offset : Nat)
  | offsetsAreDecreasing (offset : Nat)
  | offsetOutOfBounds (offset : Nat)
  | invalidListFixedBytesLen (len : Nat)
  | bytesInvalid (message : String)
deriving DecidableEq, Repr

/-- The `w` low bytes of `n`, little-endian (`to_le_bytes`, truncated to `w` bytes). -/
def leBytes (n : Nat) : Nat → List UInt8
  | 0 => []
  | w + 1 => UInt8.ofNat (n % 256) :: leBytes (n / 256) w

/-- A little-endian byte string read as a number (`from_le_bytes`). -/
def fromLeBytes : List UInt8 → Nat
  | [] => 0
  | b :: bs => b.toNat + 256 * fromLeBytes bs

/-- An SSZ encoder and decoder for one type. -/
structure Codec (T : Type) where
  encode : T → List UInt8
  decode : List UInt8 → Except DecodeError T

/-- `encode_length`: the low four bytes of the length. -/
def encodeLength (len : Nat) : List UInt8 := leBytes len bytesPerLengthOffset

/-- `read_offset` and `decode_offset`: the first four bytes as a little-endian number. -/
def readOffset (bytes : List UInt8) : Except DecodeError Nat :=
  let offsetBytes := bytes.take bytesPerLengthOffset
  if offsetBytes.length ≠ bytesPerLengthOffset then
    .error (.invalidLengthPrefix bytes.length bytesPerLengthOffset)
  else .ok (fromLeBytes offsetBytes)

/-- `Encode` and `Decode` for `u64`: eight little-endian bytes, exactly. -/
def u64Codec : Codec UInt64 where
  encode v := leBytes v.toNat 8
  decode bytes :=
    if bytes.length ≠ 8 then .error (.invalidByteLength bytes.length 8)
    else .ok (UInt64.ofNat (fromLeBytes bytes))

/-- The `encode` and `decode` modules of `four_byte_option_impl!` for the inner codec `c`. -/
def fourByteOption {T : Type} (c : Codec T) : Codec (Option T) where
  encode
    | none => encodeLength 0
    | some t => encodeLength 1 ++ c.encode t
  decode bytes :=
    if bytes.length < bytesPerLengthOffset then
      .error (.invalidByteLength bytes.length bytesPerLengthOffset)
    else
      let indexBytes := bytes.take bytesPerLengthOffset
      let valueBytes := bytes.drop bytesPerLengthOffset
      match readOffset indexBytes with
      | .error e => .error e
      | .ok index =>
        if index = 0 then .ok none
        else if index = 1 then (c.decode valueBytes).map some
        else .error (.bytesInvalid (toString index ++ " is not a valid union index for Option<T>"))

/-- A codec whose decoder only accepts what its encoder produces. -/
def Codec.Canonical {T : Type} (c : Codec T) : Prop :=
  ∀ bytes v, c.decode bytes = .ok v → c.encode v = bytes

section Bytes

theorem length_leBytes (n w : Nat) : (leBytes n w).length = w := by
  induction w generalizing n with
  | zero => rfl
  | succ w ih => simp [leBytes, ih]

theorem fromLeBytes_lt (bytes : List UInt8) : fromLeBytes bytes < 256 ^ bytes.length := by
  induction bytes with
  | nil => simp [fromLeBytes]
  | cons b bytes ih =>
    have hb : b.toNat < 256 := b.toNat_lt
    rw [fromLeBytes, List.length_cons, Nat.pow_succ]
    omega

/-- Writing back as many bytes as were read gives the bytes read. -/
theorem leBytes_fromLeBytes (bytes : List UInt8) :
    leBytes (fromLeBytes bytes) bytes.length = bytes := by
  induction bytes with
  | nil => rfl
  | cons b bytes ih =>
    have hb : b.toNat < 256 := b.toNat_lt
    have hmod : (b.toNat + 256 * fromLeBytes bytes) % 256 = b.toNat := by omega
    have hdiv : (b.toNat + 256 * fromLeBytes bytes) / 256 = fromLeBytes bytes := by omega
    rw [fromLeBytes, List.length_cons, leBytes, hmod, hdiv, ih, UInt8.ofNat_toNat]

end Bytes

section Canonical

theorem u64Codec_canonical : u64Codec.Canonical := by
  intro bytes v h
  simp only [u64Codec] at h
  split_ifs at h with hlen
  cases h
  have hlt : fromLeBytes bytes < 2 ^ 64 := by
    have := fromLeBytes_lt bytes
    rw [Decidable.not_not.mp hlen] at this
    simpa using this
  show leBytes (UInt64.ofNat (fromLeBytes bytes)).toNat 8 = bytes
  rw [UInt64.toNat_ofNat_of_lt' hlt, ← Decidable.not_not.mp hlen]
  exact leBytes_fromLeBytes bytes

/-- Past the length check, the decoder is the selector read off the first four bytes. -/
theorem fourByteOption_decode_of_le {T : Type} (c : Codec T) {bytes : List UInt8}
    (hlen : bytesPerLengthOffset ≤ bytes.length) :
    (fourByteOption c).decode bytes =
      if fromLeBytes (bytes.take bytesPerLengthOffset) = 0 then .ok none
      else if fromLeBytes (bytes.take bytesPerLengthOffset) = 1 then
        (c.decode (bytes.drop bytesPerLengthOffset)).map some
      else .error (.bytesInvalid (toString (fromLeBytes (bytes.take bytesPerLengthOffset)) ++
        " is not a valid union index for Option<T>")) := by
  have htake : (bytes.take bytesPerLengthOffset).length = bytesPerLengthOffset :=
    List.length_take_of_le hlen
  have htt : (bytes.take bytesPerLengthOffset).take bytesPerLengthOffset =
      bytes.take bytesPerLengthOffset := List.take_of_length_le (Nat.le_of_eq htake)
  have hread : readOffset (bytes.take bytesPerLengthOffset) =
      .ok (fromLeBytes (bytes.take bytesPerLengthOffset)) := by
    simp only [readOffset, htt, htake, ne_eq, not_true_eq_false, if_false]
  simp only [fourByteOption, if_neg (Nat.not_lt.mpr hlen), hread]

/-- Four bytes that read as `n` are the encoding of `n`. -/
theorem take_eq_encodeLength {bytes : List UInt8} (hlen : bytesPerLengthOffset ≤ bytes.length)
    {n : Nat} (h : fromLeBytes (bytes.take bytesPerLengthOffset) = n) :
    bytes.take bytesPerLengthOffset = encodeLength n := by
  have htake : (bytes.take bytesPerLengthOffset).length = bytesPerLengthOffset :=
    List.length_take_of_le hlen
  calc bytes.take bytesPerLengthOffset
      = leBytes (fromLeBytes (bytes.take bytesPerLengthOffset))
          (bytes.take bytesPerLengthOffset).length := (leBytes_fromLeBytes _).symm
    _ = encodeLength n := by rw [htake, h]; rfl

/-- The strings decoded to `None` are exactly those that start with the zero selector, whatever
follows it. -/
theorem fourByteOption_decode_eq_none {T : Type} (c : Codec T) (bytes : List UInt8) :
    (fourByteOption c).decode bytes = .ok none ↔ ∃ rest, bytes = encodeLength 0 ++ rest := by
  constructor
  · intro h
    have hlen : bytesPerLengthOffset ≤ bytes.length := by
      by_contra hlt
      simp [fourByteOption, Nat.lt_of_not_le hlt] at h
    rw [fourByteOption_decode_of_le c hlen] at h
    split_ifs at h with h₀ h₁
    · exact ⟨bytes.drop bytesPerLengthOffset,
        by rw [← take_eq_encodeLength hlen h₀, List.take_append_drop]⟩
    · cases hd : c.decode (bytes.drop bytesPerLengthOffset) <;> simp [hd, Except.map] at h
  · rintro ⟨rest, rfl⟩
    have hlen : bytesPerLengthOffset ≤ (encodeLength 0 ++ rest).length := by
      simp [encodeLength, length_leBytes]
    rw [fourByteOption_decode_of_le c hlen]
    have hzero : fromLeBytes ((encodeLength 0 ++ rest).take bytesPerLengthOffset) = 0 := by
      rw [List.take_append_of_le_length (by simp [encodeLength, length_leBytes]),
        List.take_of_length_le (by simp [encodeLength, length_leBytes])]
      rfl
    rw [if_pos hzero]

/-- For `Some`, decoding is canonical when the inner type's is. -/
theorem fourByteOption_decode_eq_some {T : Type} {c : Codec T} (hc : c.Canonical)
    {bytes : List UInt8} {v : T} (h : (fourByteOption c).decode bytes = .ok (some v)) :
    (fourByteOption c).encode (some v) = bytes := by
  have hlen : bytesPerLengthOffset ≤ bytes.length := by
    by_contra hlt
    simp [fourByteOption, Nat.lt_of_not_le hlt] at h
  rw [fourByteOption_decode_of_le c hlen] at h
  split_ifs at h with h₀ h₁
  · cases h
  · cases hd : c.decode (bytes.drop bytesPerLengthOffset) with
    | error e => simp [hd, Except.map] at h
    | ok w =>
      simp only [hd, Except.map, Except.ok.injEq, Option.some.injEq] at h
      subst h
      show encodeLength 1 ++ c.encode w = bytes
      rw [hc _ _ hd, ← take_eq_encodeLength hlen h₁, List.take_append_drop]

end Canonical

/-- The decoder accepts `0, 0, 0, 0, 1` as `None`, which encodes to `0, 0, 0, 0`. -/
theorem fourByteOption_decode_not_canonical :
    (fourByteOption u64Codec).decode [0, 0, 0, 0, 1] = .ok none ∧
      (fourByteOption u64Codec).encode none = [0, 0, 0, 0] := ⟨rfl, rfl⟩

end Lighthouse.Ssz
