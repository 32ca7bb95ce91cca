import Lighthouse.Ssz.FourByteOption
import Lighthouse.Foundations.EState
import Lighthouse.Foundations.CacheRefinement
import Mathlib.Data.List.Chain

/-! SSZ decoding of containers and of lists of variable-length items (`decode.rs`,
`decode/impls.rs`). A container is split by `SszDecoderBuilder`: each field is registered in
turn, a fixed-length one taking its bytes at once and a variable-length one reading its offset,
and `finalize` cuts the variable-length items between consecutive offsets. A list of
variable-length items reads its offsets from the front of the bytes.

The bytes are an arbitrary byte string and every offset is read from it, so each index the code
uses is a claim to check: the slices `bytes[items_index..]`, `bytes[a.offset..b.offset]`,
`bytes[last.offset..]` and `bytes[i * 4..]`, the assignment `items[position]` and
`items.remove(0)` panic when out of range. The model keeps these panics apart from the errors the
code returns (`Fault`), and the builder's `&mut self` as an `EStateM` state, so that a failed call
leaves what the source leaves. -/
namespace Lighthouse.Ssz
open EState

/-- How a run of a decoder stops early: with the `DecodeError` the code returns, or with a panic
at an index out of range. -/
inductive Fault where
  | error (e : DecodeError)
  | outOfRange
deriving DecidableEq, Repr

/-- A decoding error, propagated with `?`. -/
def orFail {α : Type} (x : Except DecodeError α) : Except Fault α := x.mapError .error

/-- `&bytes[start..]`. -/
def sliceFrom (bytes : List UInt8) (start : Nat) : Except Fault (List UInt8) :=
  if start ≤ bytes.length then .ok (bytes.drop start) else .error .outOfRange

/-- `&bytes[start..stop]`. -/
def sliceRange (bytes : List UInt8) (start stop : Nat) : Except Fault (List UInt8) :=
  if start ≤ stop ∧ stop ≤ bytes.length then .ok ((bytes.take stop).drop start)
  else .error .outOfRange

/-- `bytes.get(start..stop)`: `None` where the slice would panic. -/
def getRange (bytes : List UInt8) (start stop : Nat) : Option (List UInt8) :=
  if start ≤ stop ∧ stop ≤ bytes.length then some ((bytes.take stop).drop start) else none

/-- `bytes.get(start..)`. -/
def getFrom (bytes : List UInt8) (start : Nat) : Option (List UInt8) :=
  if start ≤ bytes.length then some (bytes.drop start) else none

/-- `v[i] = x`. -/
def setAt {α : Type} (v : List α) (i : Nat) (x : α) : Except Fault (List α) :=
  if i < v.length then .ok (v.set i x) else .error .outOfRange

/-- `usize` addition in a release build. -/
def wrappingAddUsize (a b : Nat) : Nat := (a + b) % 2 ^ 64

/-- `sanitize_offset`: an offset not into the fixed bytes, the first one right after them, not
past the end and not below the previous one. -/
def sanitizeOffset (offset : Nat) (previousOffset : Option Nat) (numBytes : Nat)
    (numFixedBytes : Option Nat) : Except DecodeError Nat :=
  if numFixedBytes.any (fun fixedBytes => offset < fixedBytes) then
    .error (.offsetIntoFixedPortion offset)
  else if previousOffset.isNone && numFixedBytes.any (fun fixedBytes => offset != fixedBytes) then
    .error (.offsetSkipsVariableBytes offset)
  else if offset > numBytes then .error (.offsetOutOfBounds offset)
  else if previousOffset.any (fun prev => prev > offset) then .error (.offsetsAreDecreasing offset)
  else .ok offset

/-- `Offset`: where a variable-length item is among the items, and its offset in the bytes. -/
structure Offset where
  position : Nat
  offset : Nat
deriving DecidableEq, Repr

/-- `SszDecoderBuilder`: the bytes, the items so far (a variable-length one empty until
`finalize`), the offsets of the variable-length items, and the index of the next fixed byte. -/
structure SszDecoderBuilder where
  bytes : List UInt8
  items : List (List UInt8)
  offsets : List Offset
  itemsIndex : Nat
deriving DecidableEq, Repr

namespace SszDecoderBuilder

/-- `SszDecoderBuilder::new`. -/
def new (bytes : List UInt8) : SszDecoderBuilder := ⟨bytes, [], [], 0⟩

/-- The offset a variable-length registration reads, at `items_index`, checked against the
last offset read. -/
def readItemOffset (b : SszDecoderBuilder) : Except Fault Nat := do
  let rest ← sliceFrom b.bytes b.itemsIndex
  let offset ← orFail (readOffset rest)
  orFail (sanitizeOffset offset (b.offsets.getLast?.map (·.offset)) b.bytes.length none)

/-- `register_type_parameterized`. As with the source's `&mut self`, a fixed-length
registration that fails has already moved `items_index`. -/
def registerTypeParameterized (isSszFixedLen : Bool) (sszFixedLen : Nat) :
    EStateM Fault SszDecoderBuilder Unit := do
  let b ← get
  if isSszFixedLen then
    let start := b.itemsIndex
    let itemsIndex := wrappingAddUsize b.itemsIndex sszFixedLen
    set { b with itemsIndex }
    let slice ← ofOption (getRange b.bytes start itemsIndex)
      (.error (.invalidByteLength b.bytes.length itemsIndex))
    set { b with itemsIndex, items := b.items ++ [slice] }
  else
    let offset ← ofResult b.readItemOffset
    -- An empty slice stands for the item; `finalize` replaces it.
    set { b with
      offsets := b.offsets ++ [({ position := b.items.length, offset } : Offset)]
      items := b.items ++ [[]]
      itemsIndex := wrappingAddUsize b.itemsIndex bytesPerLengthOffset }

/-- The loops of `finalize` over `offsets.windows(2)` and over the last offset: each
variable-length item is the bytes from its offset to the next one, the last to the end. -/
def fillItems (bytes : List UInt8) : List Offset → List (List UInt8) → Except Fault (List (List UInt8))
  | [], items => pure items
  | [last], items => do setAt items last.position (← sliceFrom bytes last.offset)
  | a :: b :: offsets, items => do
    let items ← setAt items a.position (← sliceRange bytes a.offset b.offset)
    fillItems bytes (b :: offsets) items

/-- `finalize`: the first offset must point right after the fixed bytes; with no offset, the
fixed bytes must be all the bytes. -/
def finalize (b : SszDecoderBuilder) : Except Fault (List (List UInt8)) :=
  match b.offsets.head? with
  | some first =>
    if first.offset < b.itemsIndex then .error (.error (.offsetIntoFixedPortion first.offset))
    else if first.offset > b.itemsIndex then
      .error (.error (.offsetSkipsVariableBytes first.offset))
    else fillItems b.bytes b.offsets b.items
  | none =>
    if b.itemsIndex ≠ b.bytes.length then
      .error (.error (.invalidByteLength b.bytes.length b.itemsIndex))
    else .ok b.items

end SszDecoderBuilder

/-- `SszDecoder`: the items not decoded yet. -/
structure SszDecoder where
  items : List (List UInt8)
deriving DecidableEq, Repr

/-- `SszDecoderBuilder::build`. -/
def SszDecoderBuilder.build (b : SszDecoderBuilder) : Except Fault SszDecoder := do
  pure ⟨← b.finalize⟩

/-- `SszDecoder::decode_next_with`: the first item left, removed and decoded. -/
def SszDecoder.decodeNext {β : Type} (f : List UInt8 → Except DecodeError β) :
    EStateM Fault SszDecoder β := do
  match (← get).items with
  | [] => throw .outOfRange
  | item :: items =>
    set ({ items } : SszDecoder)
    ofResult (orFail (f item))

/-- A field of a container: whether its type is fixed-length, its fixed length, and its
`from_ssz_bytes`. -/
structure Field (β : Type) where
  isSszFixedLen : Bool
  sszFixedLen : Nat
  decode : List UInt8 → Except DecodeError β

/-- A container's `from_ssz_bytes` as `#[derive(Decode)]` writes it: every field registered
(the first error returned with `?`), the builder built, and every field decoded in turn. -/
def decodeContainer {β : Type} (fields : List (Field β)) (bytes : List UInt8) :
    Except Fault (List β) :=
  match (fields.forM fun field => SszDecoderBuilder.registerTypeParameterized field.isSszFixedLen
      field.sszFixedLen).run (SszDecoderBuilder.new bytes) with
  | .error e _ => .error e
  | .ok () builder => do
    let decoder ← builder.build
    match (fields.mapM fun field => SszDecoder.decodeNext field.decode).run decoder with
    | .ok values _ => .ok values
    | .error e _ => .error e

/-- The loop of `decode_list_of_variable_length_items` over `i` in `1..=num_items`: the slice
from the current offset to the next offset, read at `i * 4`, or to the end for the last item. -/
def decodeListLoop {β : Type} (bytes : List UInt8) (firstOffset numItems : Nat)
    (decodeItem : List UInt8 → Except DecodeError β) :
    List Nat → Nat → List β → Except Fault (List β)
  | [], _, values => pure values
  | i :: is, offset, values => do
    let (offset, sliceOption) ← (if i = numItems then pure (offset, getFrom bytes offset) else do
      let start := offset
      let rest ← sliceFrom bytes (i * bytesPerLengthOffset)
      let nextOffset ← orFail (readOffset rest)
      let offset ← orFail (sanitizeOffset nextOffset (some offset) bytes.length (some firstOffset))
      pure (offset, getRange bytes start offset))
    let slice ← orFail (okOr sliceOption (.outOfBoundsByte offset))
    let value ← orFail (decodeItem slice)
    decodeListLoop bytes firstOffset numItems decodeItem is offset (values ++ [value])

/-- `decode_list_of_variable_length_items`. -/
def decodeListOfVariableLengthItems {β : Type} (bytes : List UInt8) (maxLen : Option Nat)
    (decodeItem : List UInt8 → Except DecodeError β) : Except Fault (List β) := do
  if bytes.isEmpty then return []
  let firstOffset ← orFail (readOffset bytes)
  let _ ← orFail (sanitizeOffset firstOffset none bytes.length (some firstOffset))
  if firstOffset % bytesPerLengthOffset ≠ 0 ∨ firstOffset < bytesPerLengthOffset then
    throw (.error (.invalidListFixedBytesLen firstOffset))
  let numItems := firstOffset / bytesPerLengthOffset
  match maxLen with
  | some max =>
    if numItems > max then
      throw (.error (.bytesInvalid ("Variable length list of " ++ toString numItems ++
        " items exceeds maximum of Some(" ++ toString max ++ ")")))
  | none => pure ()
  decodeListLoop bytes firstOffset numItems decodeItem (List.range' 1 numItems) firstOffset []

section Bounds
variable {α β : Type}

theorem orFail_errorsIn (x : Except DecodeError α) : ErrorsIn (· ≠ Fault.outOfRange) (orFail x) := by
  intro e he
  cases x with
  | ok a => cases he
  | error d =>
    cases he
    exact Fault.noConfusion

theorem orFail_eq_ok {x : Except DecodeError α} {a : α} : orFail x = .ok a ↔ x = .ok a := by
  cases x <;> simp [orFail, Except.mapError]

theorem sliceFrom_of_le {bytes : List UInt8} {start : Nat} (h : start ≤ bytes.length) :
    sliceFrom bytes start = .ok (bytes.drop start) := if_pos h

theorem sliceRange_of_le {bytes : List UInt8} {start stop : Nat} (h₁ : start ≤ stop)
    (h₂ : stop ≤ bytes.length) : sliceRange bytes start stop = .ok ((bytes.take stop).drop start) :=
  if_pos ⟨h₁, h₂⟩

theorem setAt_of_lt {v : List α} {i : Nat} {x : α} (h : i < v.length) : setAt v i x = .ok (v.set i x) :=
  if_pos h

theorem getRange_eq_some {bytes slice : List UInt8} {start stop : Nat}
    (h : getRange bytes start stop = some slice) : start ≤ stop ∧ stop ≤ bytes.length := by
  unfold getRange at h
  split_ifs at h with hle
  exact hle

/-- An offset is read from four bytes at least. -/
theorem readOffset_length {bytes : List UInt8} {offset : Nat} (h : readOffset bytes = .ok offset) :
    bytesPerLengthOffset ≤ bytes.length := by
  unfold readOffset at h
  dsimp only at h
  split_ifs at h with hlen
  have : (bytes.take bytesPerLengthOffset).length = bytesPerLengthOffset := not_not.mp hlen
  rw [List.length_take] at this
  omega

/-- What `sanitize_offset` lets through: the offset itself, within the bytes, not below the
previous one nor below the fixed bytes. -/
theorem sanitizeOffset_eq_ok {offset numBytes o : Nat} {previousOffset numFixedBytes : Option Nat}
    (h : sanitizeOffset offset previousOffset numBytes numFixedBytes = .ok o) :
    o = offset ∧ offset ≤ numBytes ∧ (∀ prev ∈ previousOffset, prev ≤ offset) ∧
      ∀ fixedBytes ∈ numFixedBytes, fixedBytes ≤ offset := by
  unfold sanitizeOffset at h
  split_ifs at h with h₁ h₂ h₃ h₄
  cases h
  refine ⟨rfl, by omega, fun prev hprev => ?_, fun fixedBytes hfixed => ?_⟩
  · rw [Option.mem_def] at hprev
    subst hprev
    simpa using h₄
  · rw [Option.mem_def] at hfixed
    subst hfixed
    simpa using h₁

namespace SszDecoderBuilder

/-- The builder's invariant: the next fixed byte is within the bytes, and the offsets read so far
are within the bytes, in non-decreasing order, each at the position of an item. -/
structure Wf (b : SszDecoderBuilder) : Prop where
  itemsIndex_le : b.itemsIndex ≤ b.bytes.length
  offsets_chain : b.offsets.IsChain fun o o' => o.offset ≤ o'.offset
  offset_le : ∀ o ∈ b.offsets, o.offset ≤ b.bytes.length
  position_lt : ∀ o ∈ b.offsets, o.position < b.items.length

theorem wf_new (bytes : List UInt8) : (new bytes).Wf :=
  ⟨Nat.zero_le _, List.IsChain.nil, fun _ h => (List.not_mem_nil h).elim,
    fun _ h => (List.not_mem_nil h).elim⟩

/-- Reading an item's offset from a well-formed builder: no panic, and an offset within the
bytes, not below the last one, read from four bytes before the end. -/
theorem readItemOffset_spec {b : SszDecoderBuilder} (hwf : b.Wf) :
    ErrorsIn (· ≠ Fault.outOfRange) b.readItemOffset ∧
      ∀ offset, b.readItemOffset = .ok offset →
        offset ≤ b.bytes.length ∧ (∀ o ∈ b.offsets.getLast?, o.offset ≤ offset) ∧
          b.itemsIndex + bytesPerLengthOffset ≤ b.bytes.length := by
  unfold readItemOffset
  rw [sliceFrom_of_le hwf.itemsIndex_le]
  refine ⟨ErrorsIn.bind ErrorsIn.pure fun rest _ =>
    ErrorsIn.bind (orFail_errorsIn _) fun _ _ => orFail_errorsIn _, fun offset h => ?_⟩
  obtain ⟨rest, hrest, h⟩ := CacheRefinement.bind_eq_ok.mp h
  cases hrest
  obtain ⟨read, hread, h⟩ := CacheRefinement.bind_eq_ok.mp h
  rw [orFail_eq_ok] at hread h
  obtain ⟨rfl, hle, hprev, -⟩ := sanitizeOffset_eq_ok h
  have hfour := readOffset_length hread
  rw [List.length_drop] at hfour
  refine ⟨hle, fun o ho => hprev o.offset ?_, by unfold bytesPerLengthOffset at hfour ⊢; omega⟩
  exact Option.mem_map_of_mem _ ho

/-- A registration from a well-formed builder returns a well-formed builder with one item more,
or fails with an error the code returns. -/
theorem registerTypeParameterized_spec (isSszFixedLen : Bool) (sszFixedLen : Nat)
    (bytes : List UInt8) (n : Nat) :
    Triple (fun b => b.Wf ∧ b.bytes = bytes ∧ b.items.length = n)
      (registerTypeParameterized isSszFixedLen sszFixedLen)
      (fun _ b => b.Wf ∧ b.bytes = bytes ∧ b.items.length = n + 1)
      (fun e _ => e ≠ .outOfRange) := by
  intro b ⟨hwf, hbytes, hlen⟩
  cases isSszFixedLen with
  | true =>
    cases hget : getRange b.bytes b.itemsIndex (wrappingAddUsize b.itemsIndex sszFixedLen) with
    | none =>
      simp [registerTypeParameterized, hget, ofOption]
    | some slice =>
      obtain ⟨-, hle⟩ := getRange_eq_some hget
      simp [registerTypeParameterized, hget, ofOption]
      refine ⟨⟨hle, hwf.offsets_chain, hwf.offset_le, fun o ho => ?_⟩, hbytes, hlen⟩
      exact Nat.lt_of_lt_of_le (hwf.position_lt o ho) (by simp)
  | false =>
    obtain ⟨herr, hok⟩ := readItemOffset_spec hwf
    cases hx : b.readItemOffset with
    | error e =>
      simp [registerTypeParameterized, hx, ofResult]
      exact herr e hx
    | ok offset =>
      obtain ⟨hle, hlast, hfour⟩ := hok offset hx
      simp [registerTypeParameterized, hx, ofResult]
      refine ⟨⟨Nat.le_trans (Nat.mod_le _ _) hfour, ?_, fun o ho => ?_, fun o ho => ?_⟩, hbytes, hlen⟩
      · -- The new offset is not below the last one.
        refine hwf.offsets_chain.append (List.IsChain.singleton _) fun x hx y hy => ?_
        cases hy
        exact hlast x hx
      · rcases List.mem_append.mp ho with ho | ho
        · exact hwf.offset_le o ho
        · cases List.mem_singleton.mp ho
          exact hle
      · rcases List.mem_append.mp ho with ho | ho
        · exact Nat.lt_of_lt_of_le (hwf.position_lt o ho) (by simp)
        · cases List.mem_singleton.mp ho
          simp

/-- Registering fields one after another, stopping at the first error: the builder stays
well-formed with one item per field, and no registration panics. -/
theorem registerAll_spec (bytes : List UInt8) :
    ∀ (fields : List (Field β)) (n : Nat),
      Triple (fun b => b.Wf ∧ b.bytes = bytes ∧ b.items.length = n)
        (fields.forM fun field => registerTypeParameterized field.isSszFixedLen field.sszFixedLen)
        (fun _ b => b.Wf ∧ b.bytes = bytes ∧ b.items.length = n + fields.length)
        (fun e _ => e ≠ .outOfRange)
  | [], n => Triple.pure fun _ hs => hs
  | field :: fields, n => by
    refine Triple.bind (registerTypeParameterized_spec _ _ bytes n) fun _ => ?_
    refine (registerAll_spec bytes fields (n + 1)).mono (fun _ h => h) (fun _ _ h => ?_)
      (fun _ _ h => h)
    refine ⟨h.1, h.2.1, ?_⟩
    rw [h.2.2, List.length_cons]
    omega

/-- `finalize`'s loops, from sorted offsets within the bytes at positions of items: no panic,
and the same number of items. -/
theorem fillItems_spec (bytes : List UInt8) :
    ∀ (offsets : List Offset) (items : List (List UInt8)),
      offsets.IsChain (fun o o' => o.offset ≤ o'.offset) →
      (∀ o ∈ offsets, o.offset ≤ bytes.length) → (∀ o ∈ offsets, o.position < items.length) →
      ErrorsIn (· ≠ Fault.outOfRange) (fillItems bytes offsets items) ∧
        ∀ items', fillItems bytes offsets items = .ok items' → items'.length = items.length
  | [], items, _, _, _ => ⟨ErrorsIn.pure, fun _ h => by cases h; rfl⟩
  | [last], items, _, hle, hpos => by
    simp only [fillItems]
    rw [sliceFrom_of_le (hle last List.mem_cons_self), CacheRefinement.ok_bind,
      setAt_of_lt (hpos last List.mem_cons_self)]
    exact ⟨ErrorsIn.pure, fun _ h => by cases h; exact List.length_set⟩
  | a :: b :: offsets, items, hchain, hle, hpos => by
    simp only [fillItems]
    -- The slice between two consecutive offsets, then the rest from the next one.
    obtain ⟨hab, hchain'⟩ := List.isChain_cons_cons.mp hchain
    rw [sliceRange_of_le hab (hle b (by simp)), CacheRefinement.ok_bind,
      setAt_of_lt (hpos a List.mem_cons_self), CacheRefinement.ok_bind]
    have hrest := fillItems_spec bytes (b :: offsets)
      (items.set a.position ((bytes.take b.offset).drop a.offset)) hchain'
      (fun o ho => hle o (List.mem_cons_of_mem a ho))
      (fun o ho => by rw [List.length_set]; exact hpos o (List.mem_cons_of_mem a ho))
    refine ⟨hrest.1, fun items' h => ?_⟩
    rw [hrest.2 items' h, List.length_set]

/-- `finalize` on a well-formed builder: no panic, and one item per registration. -/
theorem finalize_spec {b : SszDecoderBuilder} (hwf : b.Wf) :
    ErrorsIn (· ≠ Fault.outOfRange) b.finalize ∧
      ∀ items, b.finalize = .ok items → items.length = b.items.length := by
  have herror : ∀ d : DecodeError, ErrorsIn (· ≠ Fault.outOfRange)
      (.error (.error d) : Except Fault (List (List UInt8))) := fun d e he => by
    cases he
    exact Fault.noConfusion
  unfold finalize
  cases b.offsets.head? with
  | none =>
    simp only
    split_ifs
    · exact ⟨herror _, fun _ h => by cases h⟩
    · exact ⟨ErrorsIn.pure, fun _ h => by cases h; rfl⟩
  | some first =>
    simp only
    split_ifs
    · exact ⟨herror _, fun _ h => by cases h⟩
    · exact ⟨herror _, fun _ h => by cases h⟩
    · exact fillItems_spec b.bytes b.offsets b.items hwf.offsets_chain hwf.offset_le hwf.position_lt

end SszDecoderBuilder

/-- Each `decode_next` takes an item that is there, as long as there are as many items left as
calls to come. -/
theorem decodeNext_spec (f : List UInt8 → Except DecodeError β) (n : Nat) :
    Triple (fun d : SszDecoder => d.items.length = n + 1) (SszDecoder.decodeNext f)
      (fun _ d => d.items.length = n) (fun e _ => e ≠ .outOfRange) := by
  intro d hd
  cases hitems : d.items with
  | nil =>
    rw [hitems] at hd
    cases hd
  | cons item items =>
    rw [hitems, List.length_cons] at hd
    cases hf : f item with
    | ok v =>
      simp [SszDecoder.decodeNext, hitems, hf, ofResult, orFail, Except.mapError]
      omega
    | error e =>
      simp [SszDecoder.decodeNext, hitems, hf, ofResult, orFail, Except.mapError]

theorem decodeAll_spec :
    ∀ fields : List (Field β),
      Triple (fun d : SszDecoder => d.items.length = fields.length)
        (fields.mapM fun field => SszDecoder.decodeNext field.decode) (fun _ _ => True)
        (fun e _ => e ≠ .outOfRange)
  | [] => by
    rw [List.mapM_nil]
    exact Triple.pure fun _ _ => trivial
  | field :: fields => by
    rw [List.mapM_cons]
    exact Triple.bind (decodeNext_spec field.decode fields.length) fun _ =>
      Triple.bind (decodeAll_spec fields) fun _ => Triple.pure fun _ _ => trivial

/-- A container's decoding never panics: registration stops at the first error with the
builder well-formed, `build` cuts only slices within the bytes, and there are exactly as many
items as `decode_next` calls. -/
theorem decodeContainer_errorsIn (fields : List (Field β)) (bytes : List UInt8) :
    ErrorsIn (· ≠ Fault.outOfRange) (decodeContainer fields bytes) := by
  have hreg := SszDecoderBuilder.registerAll_spec bytes fields 0 (SszDecoderBuilder.new bytes)
    ⟨SszDecoderBuilder.wf_new bytes, rfl, rfl⟩
  unfold decodeContainer
  split
  · rename_i e s hrun
    rw [hrun] at hreg
    intro e' he'
    cases he'
    exact hreg
  · rename_i builder hrun
    rw [hrun] at hreg
    obtain ⟨hwf, -, hlen⟩ := hreg
    obtain ⟨herr, hitems⟩ := SszDecoderBuilder.finalize_spec hwf
    refine ErrorsIn.bind (ErrorsIn.bind herr fun _ _ => ErrorsIn.pure) fun decoder hdecoder => ?_
    obtain ⟨items, hfinal, hd⟩ := CacheRefinement.bind_eq_ok.mp hdecoder
    cases hd
    have hdec := decodeAll_spec fields ⟨items⟩ (show items.length = fields.length by
      rw [hitems items hfinal, hlen, Nat.zero_add])
    split
    · exact ErrorsIn.pure
    · rename_i e s hrun'
      rw [hrun'] at hdec
      intro e' he'
      cases he'
      exact hdec

/-- The loop of the list decoder never panics: each offset it reads at `i * 4`, for an item
before the last, lies within the first offset, which lies within the bytes. -/
theorem decodeListLoop_errorsIn (bytes : List UInt8) {firstOffset numItems : Nat}
    (hfirst : firstOffset ≤ bytes.length) (hnum : numItems * bytesPerLengthOffset ≤ firstOffset)
    (decodeItem : List UInt8 → Except DecodeError β) :
    ∀ (is : List Nat) (offset : Nat) (values : List β), (∀ i ∈ is, i ≤ numItems) →
      ErrorsIn (· ≠ Fault.outOfRange)
        (decodeListLoop bytes firstOffset numItems decodeItem is offset values)
  | [], _, _, _ => ErrorsIn.pure
  | i :: is, offset, values, hi => by
    simp only [decodeListLoop]
    refine ErrorsIn.bind ?_ fun p _ => ?_
    · split_ifs with hlast
      · exact ErrorsIn.pure
      · -- An item before the last: its successor's offset is read inside the fixed part.
        have hlt : i < numItems := Nat.lt_of_le_of_ne (hi i List.mem_cons_self) hlast
        have hread : i * bytesPerLengthOffset ≤ bytes.length :=
          Nat.le_trans (Nat.mul_le_mul_right _ hlt.le) (Nat.le_trans hnum hfirst)
        rw [sliceFrom_of_le hread, CacheRefinement.ok_bind]
        exact ErrorsIn.bind (orFail_errorsIn _) fun _ _ =>
          ErrorsIn.bind (orFail_errorsIn _) fun _ _ => ErrorsIn.pure
    · obtain ⟨offset', sliceOption⟩ := p
      exact ErrorsIn.bind (orFail_errorsIn _) fun _ _ => ErrorsIn.bind (orFail_errorsIn _) fun _ _ =>
        decodeListLoop_errorsIn bytes hfirst hnum decodeItem is _ _
          fun j hj => hi j (List.mem_cons_of_mem i hj)

theorem decodeListOfVariableLengthItems_errorsIn (bytes : List UInt8) (maxLen : Option Nat)
    (decodeItem : List UInt8 → Except DecodeError β) :
    ErrorsIn (· ≠ Fault.outOfRange) (decodeListOfVariableLengthItems bytes maxLen decodeItem) := by
  unfold decodeListOfVariableLengthItems
  split
  · exact ErrorsIn.pure
  · refine ErrorsIn.bind (orFail_errorsIn _) fun firstOffset _ => ?_
    refine ErrorsIn.bind (orFail_errorsIn _) fun _ hsanitize => ?_
    -- The first offset lies within the bytes, and the offsets of all items before it.
    obtain ⟨-, hfirst, -, -⟩ := sanitizeOffset_eq_ok (orFail_eq_ok.mp hsanitize)
    have hloop := decodeListLoop_errorsIn bytes hfirst
      (Nat.div_mul_le_self firstOffset bytesPerLengthOffset) decodeItem
      (List.range' 1 (firstOffset / bytesPerLengthOffset)) firstOffset []
      fun i hi => by
        rw [List.mem_range'_1] at hi
        omega
    dsimp only
    split_ifs
    · exact ErrorsIn.throw_bind Fault.noConfusion
    · split
      · split_ifs
        · exact ErrorsIn.throw_bind Fault.noConfusion
        · exact hloop
      · exact hloop

/-- SSZ decoding never indexes out of range, whatever the bytes: a container decoded through
`SszDecoderBuilder` with any fields, one `decode_next` per registration, and a list of
variable-length items with any maximum length, end with a value or with a `DecodeError`. -/
theorem ssz_decode_never_out_of_range (fields : List (Field β)) (bytes : List UInt8)
    (maxLen : Option Nat) (decodeItem : List UInt8 → Except DecodeError β) :
    decodeContainer fields bytes ≠ .error .outOfRange ∧
      decodeListOfVariableLengthItems bytes maxLen decodeItem ≠ .error .outOfRange :=
  ⟨fun h => decodeContainer_errorsIn fields bytes _ h rfl,
    fun h => decodeListOfVariableLengthItems_errorsIn bytes maxLen decodeItem _ h rfl⟩

/-- A fixed-length registration that fails has already moved `items_index` to where the item
would have ended. -/
theorem registerTypeParameterized_fixed_error {b : SszDecoderBuilder} {sszFixedLen : Nat}
    (h : getRange b.bytes b.itemsIndex (wrappingAddUsize b.itemsIndex sszFixedLen) = none) :
    (SszDecoderBuilder.registerTypeParameterized true sszFixedLen).run b =
      .error (.error (.invalidByteLength b.bytes.length (wrappingAddUsize b.itemsIndex sszFixedLen)))
        { b with itemsIndex := wrappingAddUsize b.itemsIndex sszFixedLen } := by
  simp [SszDecoderBuilder.registerTypeParameterized, h, ofOption]

/-- From `items_index` past the end, a variable-length registration panics: the guarantee rests
on the callers returning at the first error, as `?` does. -/
theorem registerTypeParameterized_variable_out_of_range {b : SszDecoderBuilder} {sszFixedLen : Nat}
    (h : b.bytes.length < b.itemsIndex) :
    (SszDecoderBuilder.registerTypeParameterized false sszFixedLen).run b = .error .outOfRange b := by
  have hslice : b.readItemOffset = .error .outOfRange := by
    unfold SszDecoderBuilder.readItemOffset sliceFrom
    rw [if_neg (Nat.not_le.mpr h)]
    rfl
  simp [SszDecoderBuilder.registerTypeParameterized, hslice, ofResult]

end Bounds

end Lighthouse.Ssz
