import Mathlib
import Lighthouse.Ssz.BitfieldOps
import Lighthouse.TreeHash.Hash

set_option linter.dupNamespace false

/-! The attestation store of the operation pool (`lib.rs`, `attestation_id.rs`, and
`Attestation::signers_disjoint_from` and `aggregate`). Attestations are kept in buckets under
their `AttestationId`: the SSZ bytes of their data, then the domain of their target epoch under
the fork they came with. `insert_attestation` opens a bucket for a new id; otherwise it
aggregates the new attestation into every stored one whose signers are disjoint from its own, and
keeps it apart only where none absorbed it and none equals it. `prune_attestations` drops the
buckets whose first attestation targets an epoch before the previous one.

A signature is read in a commutative monoid, and an attestation is genuine when its signature is
the sum of one signature per signer over its data (`Genuine`); with the multiset of (signer,
data) pairs that is a signature counting every signer once. Over every run of inserts of genuine
attestations and prunes (`Reachable`) no bucket is empty, every stored attestation sits under an
id of its own data and is genuine, and every attestation inserted and not pruned since has its
signers in one stored under its id (`Covers`). That the attestations of one bucket agree on
their data, which aggregation needs, rests on the SSZ encoding of the data being injective and of
one length, as it is for the fixed-size `AttestationData`.

The rest of the pool (sync contributions, slashings, exits) and its lock are left out. -/
namespace Lighthouse.Ssz
open Bytes

namespace Bitfield

/-- `Bitfield::is_zero`. -/
def isZero (b : Bitfield) : Bool := b.bytes.all fun byte => byte == 0

/-- The positions of the set bits, as `get` reads them. -/
def ones (b : Bitfield) : Finset Nat := (Finset.range b.len).filter fun i => b.bitAt i

theorem lt_len_of_bitAt {b : Bitfield} {i : Nat} (h : b.bitAt i = true) : i < b.len := by
  by_contra hi
  simp [bitAt, get_of_le (Nat.le_of_not_lt hi)] at h

@[simp] theorem mem_ones {b : Bitfield} {i : Nat} : i ∈ b.ones ↔ b.bitAt i = true := by
  simp only [ones, Finset.mem_filter, Finset.mem_range]
  exact ⟨fun h => h.2, fun h => ⟨lt_len_of_bitAt h, h⟩⟩

theorem mem_ones_of_wf {b : Bitfield} (hb : b.Wf) {i : Nat} :
    i ∈ b.ones ↔ bitOf b.bytes i = true := by
  rw [mem_ones, bitAt_eq hb]

/-- Bytes are all zero exactly when none of their bits is set. -/
theorem all_zero_iff_bitOf (bs : List UInt8) : (∀ x ∈ bs, x = 0) ↔ ∀ i, bitOf bs i = false := by
  constructor
  · intro h i
    rw [bitOf, List.getD_eq_getElem?_getD]
    cases hk : bs[i / 8]? with
    | none => exact bit_zero _
    | some x =>
      rw [Option.getD_some, h x (List.mem_of_getElem? hk)]
      exact bit_zero _
  · intro h x hx
    obtain ⟨k, hk, rfl⟩ := List.getElem_of_mem hx
    refine (eq_zero_iff _).mpr fun j => ?_
    by_cases hj : j < 8
    · rw [← List.getD_eq_getElem bs 0 hk, ← bitOf_byte hj]
      exact h _
    · exact bit_of_le (Nat.le_of_not_lt hj) _

/-- A well-formed bitfield is zero exactly when it has no set bit. -/
theorem isZero_iff {b : Bitfield} (hb : b.Wf) : b.isZero = true ↔ b.ones = ∅ := by
  rw [Finset.eq_empty_iff_forall_notMem]
  simp only [isZero, List.all_eq_true, beq_iff_eq, mem_ones_of_wf hb, Bool.not_eq_true]
  exact all_zero_iff_bitOf b.bytes

end Bitfield

namespace BitList
open Bitfield

/-- `union` of two `BitList`s: a `BitList` whose set bits are those of either. -/
theorem union_ones {n : Nat} {a b : Bitfield} (ha : Inv n a) (hb : Inv n b) :
    ∃ c, union n a b = .ok c ∧ Inv n c ∧ c.ones = a.ones ∪ b.ones := by
  obtain ⟨c, hc, hwf, hlen, hbits⟩ := union_eq_ok ha hb
  refine ⟨c, hc, ⟨hwf, by rw [hlen]; exact Nat.max_le.mpr ⟨ha.2, hb.2⟩⟩, ?_⟩
  ext i
  rw [Finset.mem_union, mem_ones_of_wf hwf, mem_ones_of_wf ha.1, mem_ones_of_wf hb.1, hbits,
    Bool.or_eq_true]

/-- `intersection` of two `BitList`s is zero exactly when their set bits are disjoint. -/
theorem intersection_isZero {n : Nat} {a b : Bitfield} (ha : Inv n a) (hb : Inv n b) :
    ∃ c, intersection n a b = .ok c ∧ (c.isZero = true ↔ Disjoint a.ones b.ones) := by
  obtain ⟨c, hc, hwf, -, hbits⟩ := intersection_eq_ok ha hb
  have hinter : c.ones = a.ones ∩ b.ones := by
    ext i
    rw [Finset.mem_inter, mem_ones_of_wf hwf, mem_ones_of_wf ha.1, mem_ones_of_wf hb.1, hbits,
      Bool.and_eq_true]
  refine ⟨c, hc, ?_⟩
  rw [isZero_iff hwf, hinter, Finset.disjoint_iff_inter_eq_empty]

end BitList

end Lighthouse.Ssz

namespace Lighthouse.OperationPool
open Lighthouse.Ssz Lighthouse.Ssz.Bitfield Lighthouse.TreeHash

/-- `Attestation<T>`. -/
structure Attestation (δ σ : Type) where
  aggregationBits : Bitfield
  data : δ
  signature : σ
deriving DecidableEq

/-- What the pool reads of `EthSpec`, `ChainSpec` and `AttestationData`:
`MaxValidatorsPerCommittee`, `MaxAttestations` and `MaxPendingAttestations`; the SSZ encoding of
the data, its slot, committee index and target epoch; and `compute_domain_bytes` of an epoch
under a fork (which holds the genesis validators root). -/
structure PoolSpec (δ φ : Type) where
  maxValidatorsPerCommittee : Nat
  maxAttestations : Nat
  maxPendingAttestations : Nat
  sszEncode : δ → List UInt8
  slot : δ → Nat
  index : δ → Nat
  targetEpoch : δ → Nat
  computeDomainBytes : Nat → φ → Hash256

namespace Attestation
variable {δ σ : Type}

/-- `Attestation::signers_disjoint_from`, of attestations of at most `n` bits. -/
def signersDisjointFrom (n : Nat) (a other : Attestation δ σ) : Except (Fault Error) Bool := do
  let common ← BitList.intersection n a.aggregationBits other.aggregationBits
  pure common.isZero

/-- `Attestation::aggregate`: the union of the bits, and the other's signature added
(`add_assign_aggregate`). Its `debug_assert`s, on the data and on the signers, are not in a
release build. -/
def aggregate [Add σ] (n : Nat) (a other : Attestation δ σ) :
    Except (Fault Error) (Attestation δ σ) := do
  let aggregationBits ← BitList.union n a.aggregationBits other.aggregationBits
  pure { a with aggregationBits := aggregationBits, signature := a.signature + other.signature }

/-- The signers of an attestation: the set bits of its aggregation bits. -/
def signers (a : Attestation δ σ) : Finset Nat := a.aggregationBits.ones

theorem signersDisjointFrom_eq_ok {n : Nat} {a b : Attestation δ σ}
    (ha : BitList.Inv n a.aggregationBits) (hb : BitList.Inv n b.aggregationBits) :
    a.signersDisjointFrom n b = .ok (decide (Disjoint a.signers b.signers)) := by
  obtain ⟨c, hc, hzero⟩ := BitList.intersection_isZero ha hb
  simp only [signersDisjointFrom, hc, bind, Except.bind, pure, Except.pure]
  congr 1
  rw [Bool.eq_iff_iff, decide_eq_true_iff]
  exact hzero

theorem aggregate_eq_ok [Add σ] {n : Nat} {a b : Attestation δ σ}
    (ha : BitList.Inv n a.aggregationBits) (hb : BitList.Inv n b.aggregationBits) :
    ∃ c, a.aggregate n b = .ok c ∧ c.data = a.data ∧ BitList.Inv n c.aggregationBits ∧
      c.signers = a.signers ∪ b.signers ∧ c.signature = a.signature + b.signature := by
  obtain ⟨bits, hbits, hinv, hones⟩ := BitList.union_ones ha hb
  refine ⟨{ a with aggregationBits := bits, signature := a.signature + b.signature }, ?_, rfl,
    hinv, hones, rfl⟩
  simp only [aggregate, hbits, bind, Except.bind, pure, Except.pure]

end Attestation

/-- `AttestationId`. -/
structure AttestationId where
  v : List UInt8
deriving DecidableEq

/-- `DOMAIN_BYTES_LEN`, the size of a `Hash256`. -/
def domainBytesLen : Nat := 32

namespace AttestationId
variable {δ φ : Type}

/-- `AttestationId::from_data`. -/
def fromData (spec : PoolSpec δ φ) (attestation : δ) (fork : φ) : AttestationId :=
  ⟨spec.sszEncode attestation ++
    (spec.computeDomainBytes (spec.targetEpoch attestation) fork).bytes⟩

/-- `AttestationId::domain_bytes_match`: the last `DOMAIN_BYTES_LEN` bytes. The `usize`
subtraction, which no id of `from_data` makes underflow, is the truncated one. -/
def domainBytesMatch (id : AttestationId) (domainBytes : Hash256) : Bool :=
  id.v.drop (id.v.length - domainBytesLen) == domainBytes.bytes

/-- The last bytes of an id are the domain it was made with. -/
theorem drop_fromData (spec : PoolSpec δ φ) (d : δ) (fork : φ) :
    (fromData spec d fork).v.drop ((fromData spec d fork).v.length - domainBytesLen) =
      (spec.computeDomainBytes (spec.targetEpoch d) fork).bytes := by
  have hlen := (spec.computeDomainBytes (spec.targetEpoch d) fork).length_bytes
  have hskip : (fromData spec d fork).v.length - domainBytesLen = (spec.sszEncode d).length := by
    simp only [fromData, List.length_append, hlen, domainBytesLen]
    omega
  rw [hskip]
  exact List.drop_left

/-- An id matches a domain exactly when that is the domain of its data's target epoch under the
fork it was made with. -/
theorem domainBytesMatch_fromData (spec : PoolSpec δ φ) (d : δ) (fork : φ) (h : Hash256) :
    (fromData spec d fork).domainBytesMatch h = true ↔
      h = spec.computeDomainBytes (spec.targetEpoch d) fork := by
  rw [domainBytesMatch, drop_fromData, beq_iff_eq]
  exact ⟨fun he => (Hash256.ext he).symm, fun he => he ▸ rfl⟩

/-- Where the SSZ encoding is injective and of one length, an id determines the data, whatever
the forks. -/
theorem data_eq_of_fromData_eq {spec : PoolSpec δ φ}
    (hlen : ∀ d₁ d₂, (spec.sszEncode d₁).length = (spec.sszEncode d₂).length)
    (hinj : Function.Injective spec.sszEncode) {d₁ d₂ : δ} {f₁ f₂ : φ}
    (h : fromData spec d₁ f₁ = fromData spec d₂ f₂) : d₁ = d₂ := by
  have hv : spec.sszEncode d₁ ++ _ = spec.sszEncode d₂ ++ _ := congrArg AttestationId.v h
  exact hinj (List.append_inj hv (hlen d₁ d₂)).1

end AttestationId

/-- `HashMap::retain`, on the entries of an association list. -/
theorem nodupKeys_filter_entries {α : Type} {β : α → Type} (p : (a : α) → β a → Bool)
    (m : AList β) : (m.entries.filter fun e => p e.1 e.2).NodupKeys :=
  m.nodupKeys.sublist List.filter_sublist

/-- `HashMap::retain`. -/
def retainEntries {α : Type} {β : α → Type} (p : (a : α) → β a → Bool) (m : AList β) : AList β :=
  ⟨m.entries.filter fun e => p e.1 e.2, nodupKeys_filter_entries p m⟩

theorem lookup_retainEntries {α : Type} {β : α → Type} [DecidableEq α] (p : (a : α) → β a → Bool)
    (m : AList β) (a : α) (b : β a) :
    (retainEntries p m).lookup a = some b ↔ m.lookup a = some b ∧ p a b = true := by
  rw [← Option.mem_def, AList.mem_lookup_iff, ← Option.mem_def, AList.mem_lookup_iff]
  simp only [retainEntries, List.mem_filter]

theorem lookup_insert_eq_some {α : Type} {β : α → Type} [DecidableEq α] {m : AList β}
    {a a' : α} {b : β a} {b' : β a'} (h : (m.insert a b).lookup a' = some b') :
    (∃ h : a' = a, b' = h ▸ b) ∨ (a' ≠ a ∧ m.lookup a' = some b') := by
  by_cases ha : a' = a
  · subst ha
    rw [AList.lookup_insert, Option.some_inj] at h
    exact .inl ⟨rfl, h.symm⟩
  · rw [AList.lookup_insert_ne ha] at h
    exact .inr ⟨ha, h⟩

/-- `OperationPool<T>`, its attestations: the `HashMap` from id to bucket, as its entries. -/
structure OperationPool (δ σ : Type) where
  attestations : AList fun _ : AttestationId => List (Attestation δ σ)

namespace OperationPool
variable {δ σ φ : Type}

/-- A pool with no attestation (`OperationPool::new`). -/
def new : OperationPool δ σ := ⟨∅⟩

section Insert
variable [DecidableEq δ] [DecidableEq σ] [Add σ] (n : Nat)

/-- One round of the loop of `insert_attestation`, on a stored attestation: it absorbs the new
attestation where their signers are disjoint; the flag says whether it did, or equals it. -/
def absorb (attestation existing : Attestation δ σ) :
    Except (Fault Error) (Attestation δ σ × Bool) := do
  if ← existing.signersDisjointFrom n attestation then
    pure (← existing.aggregate n attestation, true)
  else
    pure (existing, decide (existing = attestation))

/-- The loop of `insert_attestation` over a bucket (`iter_mut`), with its flag `aggregated`. -/
def aggregateInto (attestation : Attestation δ σ) :
    List (Attestation δ σ) → Except (Fault Error) (List (Attestation δ σ) × Bool)
  | [] => pure ([], false)
  | existing :: rest => do
    let (existing, aggregated) ← absorb n attestation existing
    let (rest, aggregatedRest) ← aggregateInto attestation rest
    pure (existing :: rest, aggregated || aggregatedRest)

variable (spec : PoolSpec δ φ)

/-- `OperationPool::insert_attestation`. It returns `Ok(())` in every case; what it can do
besides is panic in the bitfield operations. -/
def insertAttestation (pool : OperationPool δ σ) (attestation : Attestation δ σ) (fork : φ) :
    Except (Fault Error) (OperationPool δ σ) :=
  let id := AttestationId.fromData spec attestation.data fork
  match pool.attestations.lookup id with
  | none => pure ⟨pool.attestations.insert id [attestation]⟩
  | some existingAttestations => do
    let (existingAttestations, aggregated) ←
      aggregateInto spec.maxValidatorsPerCommittee attestation existingAttestations
    let existingAttestations :=
      if aggregated then existingAttestations else existingAttestations ++ [attestation]
    pure ⟨pool.attestations.insert id existingAttestations⟩

end Insert

/-- `prune_attestations`: a bucket stays while its first attestation targets the previous epoch
or a later one, and an empty bucket goes (`map_or(false, ..)`). The saturating `+ 1` of `Epoch`
is the one of `Nat` for the epochs of a `u64`. -/
def pruneAttestations (spec : PoolSpec δ φ) (pool : OperationPool δ σ) (currentEpoch : Nat) :
    OperationPool δ σ :=
  ⟨retainEntries (fun _ attestations => (attestations.head?.map fun att =>
    decide (currentEpoch ≤ spec.targetEpoch att.data + 1)).getD false) pool.attestations⟩

end OperationPool

/-! What one insert does. -/

section Step
variable {δ σ φ : Type}
open Attestation

/-- An attestation the pool may store: a `BitList` of at most `n` bits, with the signature of its
signers, one each, over its data. -/
structure Genuine [AddCommMonoid σ] (n : Nat) (sign : Nat → δ → σ) (a : Attestation δ σ) :
    Prop where
  inv : BitList.Inv n a.aggregationBits
  signature_eq : a.signature = ∑ i ∈ a.signers, sign i a.data

/-- What one round of the loop makes of a stored attestation `e`: an attestation of the same
data; where the signers of `e` and of the new attestation are disjoint, with both and the
signatures added, and otherwise `e` itself. -/
structure Absorbs [Add σ] (n : Nat) (attestation e e' : Attestation δ σ) : Prop where
  data_eq : e'.data = e.data
  inv : BitList.Inv n e'.aggregationBits
  of_disjoint : Disjoint e.signers attestation.signers →
    e'.signers = e.signers ∪ attestation.signers ∧ e'.signature = e.signature + attestation.signature
  of_not_disjoint : ¬ Disjoint e.signers attestation.signers → e' = e

theorem Absorbs.signers_subset [Add σ] {n : Nat} {attestation e e' : Attestation δ σ}
    (h : Absorbs n attestation e e') : e.signers ⊆ e'.signers := by
  by_cases hd : Disjoint e.signers attestation.signers
  · rw [(h.of_disjoint hd).1]
    exact Finset.subset_union_left
  · rw [h.of_not_disjoint hd]

/-- Aggregating a genuine attestation of the same data into a genuine one is genuine: the
signers are disjoint, so the sum splits. -/
theorem Absorbs.genuine [AddCommMonoid σ] {n : Nat} {sign : Nat → δ → σ}
    {attestation e e' : Attestation δ σ} (h : Absorbs n attestation e e') (he : Genuine n sign e)
    (ha : Genuine n sign attestation) (hdata : attestation.data = e.data) :
    Genuine n sign e' := by
  refine ⟨h.inv, ?_⟩
  by_cases hd : Disjoint e.signers attestation.signers
  · obtain ⟨hsigners, hsig⟩ := h.of_disjoint hd
    rw [hsig, hsigners, Finset.sum_union hd, he.signature_eq, ha.signature_eq, h.data_eq, hdata]
  · rw [h.of_not_disjoint hd]
    exact he.signature_eq

namespace OperationPool
variable [DecidableEq δ] [DecidableEq σ] [Add σ] {n : Nat}

theorem absorb_eq_ok {attestation e : Attestation δ σ}
    (ha : BitList.Inv n attestation.aggregationBits) (he : BitList.Inv n e.aggregationBits) :
    ∃ e' aggregated, absorb n attestation e = .ok (e', aggregated) ∧ Absorbs n attestation e e' ∧
      (aggregated = true → attestation.signers ⊆ e'.signers) := by
  by_cases hd : Disjoint e.signers attestation.signers
  · -- the stored attestation absorbs the new one
    obtain ⟨c, hc, hdata, hinv, hsigners, hsig⟩ := aggregate_eq_ok he ha
    refine ⟨c, true, ?_, ⟨hdata, hinv, fun _ => ⟨hsigners, hsig⟩, fun h => absurd hd h⟩,
      fun _ => hsigners ▸ Finset.subset_union_right⟩
    simp only [absorb, signersDisjointFrom_eq_ok he ha, hd, decide_true, hc, bind, Except.bind,
      pure, Except.pure, if_true]
  · -- it stays, and the flag is whether it is the new one
    refine ⟨e, decide (e = attestation), ?_, ⟨rfl, he, fun h => absurd h hd, fun _ => rfl⟩,
      fun heq => (of_decide_eq_true heq) ▸ subset_rfl⟩
    simp only [absorb, signersDisjointFrom_eq_ok he ha, hd, decide_false, bind, Except.bind,
      pure, Except.pure, Bool.false_eq_true, if_false]

/-- The loop over a bucket of `BitList`s: each stored attestation becomes one it absorbs into,
and where the flag is set one of them has the new attestation's signers. -/
theorem aggregateInto_eq_ok {attestation : Attestation δ σ}
    (ha : BitList.Inv n attestation.aggregationBits) :
    ∀ {l : List (Attestation δ σ)}, (∀ e ∈ l, BitList.Inv n e.aggregationBits) →
      ∃ l' aggregated, aggregateInto n attestation l = .ok (l', aggregated) ∧
        (∀ e' ∈ l', ∃ e ∈ l, Absorbs n attestation e e') ∧
        (∀ e ∈ l, ∃ e' ∈ l', Absorbs n attestation e e') ∧
        (aggregated = true → ∃ e' ∈ l', attestation.signers ⊆ e'.signers)
  | [], _ => ⟨[], false, rfl, by simp, by simp, by simp⟩
  | e :: rest, hl => by
    obtain ⟨e', agg, habs, hrel, hcov⟩ := absorb_eq_ok ha (hl e List.mem_cons_self)
    obtain ⟨rest', aggRest, hrest, hback, hforth, hcovRest⟩ :=
      aggregateInto_eq_ok ha fun x hx => hl x (List.mem_cons_of_mem e hx)
    refine ⟨e' :: rest', agg || aggRest, ?_, ?_, ?_, ?_⟩
    · simp only [aggregateInto, habs, hrest, bind, Except.bind, pure, Except.pure]
    · intro x hx
      rcases List.mem_cons.mp hx with rfl | hx
      · exact ⟨e, List.mem_cons_self, hrel⟩
      · obtain ⟨y, hy, hxy⟩ := hback x hx
        exact ⟨y, List.mem_cons_of_mem e hy, hxy⟩
    · intro x hx
      rcases List.mem_cons.mp hx with rfl | hx
      · exact ⟨e', List.mem_cons_self, hrel⟩
      · obtain ⟨y, hy, hxy⟩ := hforth x hx
        exact ⟨y, List.mem_cons_of_mem e' hy, hxy⟩
    · intro hagg
      rcases Bool.or_eq_true_iff.mp hagg with h | h
      · exact ⟨e', List.mem_cons_self, hcov h⟩
      · obtain ⟨y, hy, hsub⟩ := hcovRest h
        exact ⟨y, List.mem_cons_of_mem e' hy, hsub⟩

/-- What `insert_attestation` leaves under the id of the new attestation, given the bucket that
was there: a bucket that is not empty and has the new attestation's signers in one attestation,
each of whose attestations is the new one or one of the old bucket after a round, and which keeps
the signers of each old one. -/
structure NewBucket (n : Nat) (attestation : Attestation δ σ)
    (old : Option (List (Attestation δ σ))) (bucket : List (Attestation δ σ)) : Prop where
  ne_nil : bucket ≠ []
  covers : ∃ e' ∈ bucket, attestation.signers ⊆ e'.signers
  mem : ∀ e' ∈ bucket, e' = attestation ∨ ∃ atts, old = some atts ∧ ∃ e ∈ atts, Absorbs n attestation e e'
  keeps : ∀ atts, old = some atts → ∀ e ∈ atts, ∃ e' ∈ bucket, e.signers ⊆ e'.signers

omit [DecidableEq δ] [DecidableEq σ] in
theorem newBucket_of_aggregateInto {attestation : Attestation δ σ} {atts l' : List (Attestation δ σ)}
    {aggregated : Bool} (hback : ∀ e' ∈ l', ∃ e ∈ atts, Absorbs n attestation e e')
    (hforth : ∀ e ∈ atts, ∃ e' ∈ l', Absorbs n attestation e e')
    (hcov : aggregated = true → ∃ e' ∈ l', attestation.signers ⊆ e'.signers) :
    NewBucket n attestation (some atts) (if aggregated then l' else l' ++ [attestation]) where
  ne_nil := by
    cases aggregated
    · simp
    · obtain ⟨e', he', -⟩ := hcov rfl
      exact List.ne_nil_of_mem he'
  covers := by
    cases aggregated
    · exact ⟨attestation, by simp, subset_rfl⟩
    · exact hcov rfl
  mem e' he' := by
    have hmem : e' ∈ l' ∨ e' = attestation := by
      cases aggregated
      · simpa using he'
      · exact .inl he'
    rcases hmem with he' | rfl
    · exact .inr ⟨atts, rfl, hback e' he'⟩
    · exact .inl rfl
  keeps atts' hold e he := by
    cases hold
    obtain ⟨e', he', habs⟩ := hforth e he
    refine ⟨e', ?_, habs.signers_subset⟩
    cases aggregated
    · simp [he']
    · exact he'

variable (spec : PoolSpec δ φ)

/-- `insert_attestation` on a pool of `BitList`s returns, and replaces the bucket of the new
attestation's id by a `NewBucket`. -/
theorem insertAttestation_eq_ok {pool : OperationPool δ σ} {attestation : Attestation δ σ}
    (fork : φ)
    (hpool : ∀ id atts, pool.attestations.lookup id = some atts →
      ∀ e ∈ atts, BitList.Inv spec.maxValidatorsPerCommittee e.aggregationBits)
    (ha : BitList.Inv spec.maxValidatorsPerCommittee attestation.aggregationBits) :
    ∃ bucket, pool.insertAttestation spec attestation fork =
        .ok ⟨pool.attestations.insert (AttestationId.fromData spec attestation.data fork) bucket⟩ ∧
      NewBucket spec.maxValidatorsPerCommittee attestation
        (pool.attestations.lookup (AttestationId.fromData spec attestation.data fork)) bucket := by
  cases hold : pool.attestations.lookup (AttestationId.fromData spec attestation.data fork) with
  | none =>
    -- a new id opens a bucket of the new attestation alone
    refine ⟨[attestation], ?_, ⟨by simp, ⟨attestation, by simp, subset_rfl⟩,
      fun e' he' => .inl (List.mem_singleton.mp he'), fun _ h => by cases h⟩⟩
    simp only [insertAttestation, hold, pure, Except.pure]
  | some atts =>
    obtain ⟨l', agg, hloop, hback, hforth, hcov⟩ :=
      aggregateInto_eq_ok ha (hpool _ atts hold)
    refine ⟨if agg then l' else l' ++ [attestation], ?_,
      newBucket_of_aggregateInto hback hforth hcov⟩
    simp only [insertAttestation, hold, hloop, bind, Except.bind, pure, Except.pure]

end OperationPool

end Step

/-! Runs of inserts and prunes. -/

section Runs
variable {δ σ φ : Type} [AddCommMonoid σ]
variable (spec : PoolSpec δ φ) (sign : Nat → δ → σ)
open Attestation OperationPool

/-- An attestation stored under `id`: `id` is the id of its data under some fork, and it is
genuine. -/
structure Stored (id : AttestationId) (a : Attestation δ σ) : Prop where
  id_eq : ∃ fork, AttestationId.fromData spec a.data fork = id
  genuine : Genuine spec.maxValidatorsPerCommittee sign a

/-- The invariant of the store: no bucket is empty, and each holds attestations stored under its
id. -/
def PoolInv (pool : OperationPool δ σ) : Prop :=
  ∀ id atts, pool.attestations.lookup id = some atts →
    atts ≠ [] ∧ ∀ a ∈ atts, Stored spec sign id a

/-- An attestation inserted with a fork whose signers are all in one attestation stored under its
id. -/
def Covers (pool : OperationPool δ σ) (x : Attestation δ σ × φ) : Prop :=
  ∃ atts, pool.attestations.lookup (AttestationId.fromData spec x.1.data x.2) = some atts ∧
    ∃ e ∈ atts, x.1.signers ⊆ e.signers

variable {spec sign}

omit [AddCommMonoid σ] in
theorem lookup_pruneAttestations {pool : OperationPool δ σ} {currentEpoch : Nat}
    {id : AttestationId} {atts : List (Attestation δ σ)} :
    (pool.pruneAttestations spec currentEpoch).attestations.lookup id = some atts ↔
      pool.attestations.lookup id = some atts ∧ (atts.head?.map fun att =>
        decide (currentEpoch ≤ spec.targetEpoch att.data + 1)).getD false = true :=
  lookup_retainEntries _ _ _ _

theorem PoolInv.bits {pool : OperationPool δ σ} (h : PoolInv spec sign pool) :
    ∀ id atts, pool.attestations.lookup id = some atts →
      ∀ e ∈ atts, BitList.Inv spec.maxValidatorsPerCommittee e.aggregationBits :=
  fun id atts hl e he => ((h id atts hl).2 e he).genuine.inv

/-- Where an id determines the data, the attestations of one bucket share their data. -/
theorem PoolInv.data_eq (hid : ∀ {d₁ d₂ : δ} {f₁ f₂ : φ},
      AttestationId.fromData spec d₁ f₁ = AttestationId.fromData spec d₂ f₂ → d₁ = d₂)
    {pool : OperationPool δ σ} (h : PoolInv spec sign pool) {id : AttestationId}
    {atts : List (Attestation δ σ)} (hl : pool.attestations.lookup id = some atts)
    {a b : Attestation δ σ} (ha : a ∈ atts) (hb : b ∈ atts) : a.data = b.data := by
  obtain ⟨fa, hfa⟩ := ((h id atts hl).2 a ha).id_eq
  obtain ⟨fb, hfb⟩ := ((h id atts hl).2 b hb).id_eq
  exact hid (hfa.trans hfb.symm)

theorem poolInv_new : PoolInv spec sign (OperationPool.new : OperationPool δ σ) := by
  intro id atts h
  simp [OperationPool.new] at h

/-- A prune keeps the invariant: the buckets it keeps are the old ones. -/
theorem PoolInv.prune {pool : OperationPool δ σ} (hinv : PoolInv spec sign pool)
    (currentEpoch : Nat) : PoolInv spec sign (pool.pruneAttestations spec currentEpoch) :=
  fun id atts hl => hinv id atts (lookup_pruneAttestations.mp hl).1

omit [AddCommMonoid σ] in
/-- A prune keeps an inserted attestation covered where it keeps its bucket. -/
theorem Covers.prune {pool : OperationPool δ σ} {x : Attestation δ σ × φ} {currentEpoch : Nat}
    (hx : Covers spec pool x)
    (hkept : ((pool.pruneAttestations spec currentEpoch).attestations.lookup
      (AttestationId.fromData spec x.1.data x.2)).isSome) :
    Covers spec (pool.pruneAttestations spec currentEpoch) x := by
  obtain ⟨atts, hl, hcov⟩ := hx
  obtain ⟨atts', hl'⟩ := Option.isSome_iff_exists.mp hkept
  have hsame : atts' = atts := by
    have hold := (lookup_pruneAttestations.mp hl').1
    rw [hl, Option.some_inj] at hold
    exact hold.symm
  exact ⟨atts', hl', hsame ▸ hcov⟩

variable [DecidableEq δ] [DecidableEq σ]

variable (spec sign) in
/-- The pools a run from an empty pool reaches, with the attestations inserted and not pruned
since, each with the fork it came with. Every insert is of a genuine attestation
(`insert_attestation` "assumes the given attestation is valid") and returns; a prune forgets the
inserted attestations whose bucket it drops. -/
inductive Reachable : OperationPool δ σ → List (Attestation δ σ × φ) → Prop
  | new : Reachable OperationPool.new []
  | insert {pool pool' : OperationPool δ σ} {live : List (Attestation δ σ × φ)}
      (attestation : Attestation δ σ) (fork : φ) : Reachable pool live →
      Genuine spec.maxValidatorsPerCommittee sign attestation →
      pool.insertAttestation spec attestation fork = .ok pool' →
      Reachable pool' ((attestation, fork) :: live)
  | prune {pool : OperationPool δ σ} {live : List (Attestation δ σ × φ)} (currentEpoch : Nat) :
      Reachable pool live →
      Reachable (pool.pruneAttestations spec currentEpoch) (live.filter fun x =>
        ((pool.pruneAttestations spec currentEpoch).attestations.lookup
          (AttestationId.fromData spec x.1.data x.2)).isSome)

/-- What an insert from a pool of the invariant does: it replaces the bucket of the new
attestation's id by a `NewBucket`. -/
theorem eq_of_insertAttestation {pool pool' : OperationPool δ σ} {attestation : Attestation δ σ}
    {fork : φ} (hinv : PoolInv spec sign pool)
    (ha : Genuine spec.maxValidatorsPerCommittee sign attestation)
    (h : pool.insertAttestation spec attestation fork = .ok pool') :
    ∃ bucket, pool' =
        ⟨pool.attestations.insert (AttestationId.fromData spec attestation.data fork) bucket⟩ ∧
      NewBucket spec.maxValidatorsPerCommittee attestation
        (pool.attestations.lookup (AttestationId.fromData spec attestation.data fork)) bucket := by
  obtain ⟨bucket, hins, hnew⟩ := insertAttestation_eq_ok spec fork hinv.bits ha.inv
  rw [hins, Except.ok.injEq] at h
  exact ⟨bucket, h.symm, hnew⟩

/-- An insert keeps the invariant: the new bucket holds the new attestation and rounds of the old
ones, which share its data since they share its id. -/
theorem PoolInv.insert (hid : ∀ {d₁ d₂ : δ} {f₁ f₂ : φ},
      AttestationId.fromData spec d₁ f₁ = AttestationId.fromData spec d₂ f₂ → d₁ = d₂)
    {pool pool' : OperationPool δ σ} {attestation : Attestation δ σ} {fork : φ}
    (hinv : PoolInv spec sign pool) (ha : Genuine spec.maxValidatorsPerCommittee sign attestation)
    (h : pool.insertAttestation spec attestation fork = .ok pool') : PoolInv spec sign pool' := by
  obtain ⟨bucket, rfl, hnew⟩ := eq_of_insertAttestation hinv ha h
  intro id atts hl
  rcases lookup_insert_eq_some hl with ⟨rfl, rfl⟩ | ⟨-, hl⟩
  · refine ⟨hnew.ne_nil, fun e' he' => ?_⟩
    rcases hnew.mem e' he' with rfl | ⟨old, hold, e, he, habs⟩
    · exact ⟨⟨fork, rfl⟩, ha⟩
    · -- a round of a stored attestation, of the data of the new one
      have hstored := (hinv _ old hold).2 e he
      obtain ⟨f, hf⟩ := hstored.id_eq
      exact ⟨⟨f, habs.data_eq ▸ hf⟩, habs.genuine hstored.genuine ha (hid hf.symm)⟩
  · exact hinv id atts hl

/-- An insert keeps every inserted attestation covered: no round loses a signer. -/
theorem Covers.insert {pool pool' : OperationPool δ σ} {attestation : Attestation δ σ} {fork : φ}
    {x : Attestation δ σ × φ} (hinv : PoolInv spec sign pool)
    (ha : Genuine spec.maxValidatorsPerCommittee sign attestation)
    (h : pool.insertAttestation spec attestation fork = .ok pool') (hx : Covers spec pool x) :
    Covers spec pool' x := by
  obtain ⟨bucket, rfl, hnew⟩ := eq_of_insertAttestation hinv ha h
  obtain ⟨atts, hl, e, he, hsub⟩ := hx
  by_cases hid : AttestationId.fromData spec x.1.data x.2 =
      AttestationId.fromData spec attestation.data fork
  · rw [hid] at hl
    obtain ⟨e', he', hsub'⟩ := hnew.keeps atts hl e he
    exact ⟨bucket, by rw [hid, AList.lookup_insert], e', he', hsub.trans hsub'⟩
  · exact ⟨atts, by rw [AList.lookup_insert_ne hid]; exact hl, e, he, hsub⟩

/-- An insert covers the attestation it inserts. -/
theorem covers_insert_self {pool pool' : OperationPool δ σ} {attestation : Attestation δ σ}
    {fork : φ} (hinv : PoolInv spec sign pool)
    (ha : Genuine spec.maxValidatorsPerCommittee sign attestation)
    (h : pool.insertAttestation spec attestation fork = .ok pool') :
    Covers spec pool' (attestation, fork) := by
  obtain ⟨bucket, rfl, hnew⟩ := eq_of_insertAttestation hinv ha h
  obtain ⟨e', he', hsub⟩ := hnew.covers
  exact ⟨bucket, AList.lookup_insert _, e', he', hsub⟩

/-- The run lemma: every reachable pool keeps the invariant and covers every attestation inserted
and not pruned since. -/
theorem reachable_inv (hid : ∀ {d₁ d₂ : δ} {f₁ f₂ : φ},
      AttestationId.fromData spec d₁ f₁ = AttestationId.fromData spec d₂ f₂ → d₁ = d₂)
    {pool : OperationPool δ σ} {live : List (Attestation δ σ × φ)}
    (h : Reachable spec sign pool live) :
    PoolInv spec sign pool ∧ ∀ x ∈ live, Covers spec pool x := by
  induction h with
  | new => exact ⟨poolInv_new, fun _ hx => by cases hx⟩
  | insert attestation fork _ ha hins ih =>
    refine ⟨ih.1.insert hid ha hins, fun x hx => ?_⟩
    rcases List.mem_cons.mp hx with rfl | hx
    · exact covers_insert_self ih.1 ha hins
    · exact (ih.2 x hx).insert ih.1 ha hins
  | prune currentEpoch _ ih =>
    refine ⟨ih.1.prune currentEpoch, fun x hx => ?_⟩
    obtain ⟨hx, hkept⟩ := List.mem_filter.mp hx
    exact (ih.2 x hx).prune hkept

/-- The attestation store over every run of inserts of genuine attestations and prunes, where the
SSZ encoding of the data is injective and of one length: no bucket is empty; the attestations of
a bucket share their data, the data of its id under some fork; each is genuine, with the
signature of its signers, one each, over that data; every attestation inserted and not pruned
since has all its signers in one stored under its id; and the next insert of a genuine
attestation returns. -/
theorem attestationPool_invariant
    (hlen : ∀ d₁ d₂, (spec.sszEncode d₁).length = (spec.sszEncode d₂).length)
    (hinj : Function.Injective spec.sszEncode) {pool : OperationPool δ σ}
    {live : List (Attestation δ σ × φ)} (h : Reachable spec sign pool live) :
    (∀ id atts, pool.attestations.lookup id = some atts →
      atts ≠ [] ∧ (∀ a ∈ atts, ∀ b ∈ atts, a.data = b.data) ∧
      ∀ a ∈ atts, (∃ fork, AttestationId.fromData spec a.data fork = id) ∧
        BitList.Inv spec.maxValidatorsPerCommittee a.aggregationBits ∧
        a.signature = ∑ i ∈ a.signers, sign i a.data) ∧
    (∀ x ∈ live, ∃ atts,
      pool.attestations.lookup (AttestationId.fromData spec x.1.data x.2) = some atts ∧
        ∃ e ∈ atts, x.1.signers ⊆ e.signers) ∧
    ∀ (attestation : Attestation δ σ) (fork : φ),
      Genuine spec.maxValidatorsPerCommittee sign attestation →
        ∃ pool', pool.insertAttestation spec attestation fork = .ok pool' := by
  have hid : ∀ {d₁ d₂ : δ} {f₁ f₂ : φ},
      AttestationId.fromData spec d₁ f₁ = AttestationId.fromData spec d₂ f₂ → d₁ = d₂ :=
    fun h => AttestationId.data_eq_of_fromData_eq hlen hinj h
  obtain ⟨hinv, hcov⟩ := reachable_inv hid h
  refine ⟨fun id atts hl => ⟨(hinv id atts hl).1, fun a ha b hb => hinv.data_eq hid hl ha hb,
    fun a ha => ?_⟩, hcov, fun attestation fork ha => ?_⟩
  · obtain ⟨hid, hgen⟩ := (hinv id atts hl).2 a ha
    exact ⟨hid, hgen.inv, hgen.signature_eq⟩
  · obtain ⟨bucket, hins, -⟩ := insertAttestation_eq_ok spec fork hinv.bits ha.inv
    exact ⟨_, hins⟩

/-- A pool over data of one byte, its own encoding, with the zero domain. -/
def byteSpec : PoolSpec UInt8 Unit where
  maxValidatorsPerCommittee := 8
  maxAttestations := 2
  maxPendingAttestations := 4
  sszEncode d := [d]
  slot d := d.toNat
  index _ := 0
  targetEpoch d := d.toNat
  computeDomainBytes _ _ := Hash256.zero

theorem length_sszEncode_byteSpec :
    ∀ d₁ d₂, (byteSpec.sszEncode d₁).length = (byteSpec.sszEncode d₂).length :=
  fun _ _ => rfl

theorem injective_sszEncode_byteSpec : Function.Injective byteSpec.sszEncode :=
  fun _ _ h => List.singleton_inj.mp h

/-- The signature of one signer, as the multiset of its one (signer, data) pair. -/
def signerPair (i : Nat) (d : UInt8) : Multiset (Nat × UInt8) := {(i, d)}

/-- An attestation of data `5` by the one signer of a committee of one. -/
def oneSigner : Attestation UInt8 (Multiset (Nat × UInt8)) := ⟨⟨[1], 1⟩, 5, {(0, 5)}⟩

/-- The pool after inserting `oneSigner` into an empty one. -/
def oneSignerPool : OperationPool UInt8 (Multiset (Nat × UInt8)) :=
  ⟨(∅ : AList _).insert (AttestationId.fromData byteSpec oneSigner.data ()) [oneSigner]⟩

theorem genuine_oneSigner : Genuine byteSpec.maxValidatorsPerCommittee signerPair oneSigner := by
  refine ⟨⟨Wf.fromRawBytes (show fromRawBytes [1] 1 = .ok ⟨[1], 1⟩ from rfl), by decide⟩, ?_⟩
  have hsigners : oneSigner.signers = {0} := by decide
  rw [hsigners, Finset.sum_singleton]
  rfl

theorem reachable_oneSignerPool : Reachable byteSpec signerPair oneSignerPool [(oneSigner, ())] :=
  Reachable.insert oneSigner () Reachable.new genuine_oneSigner rfl

theorem attestationPool_invariant_at_oneSigner :
    (∀ d₁ d₂, (byteSpec.sszEncode d₁).length = (byteSpec.sszEncode d₂).length) ∧
      Function.Injective byteSpec.sszEncode ∧
      Reachable byteSpec signerPair oneSignerPool [(oneSigner, ())] ∧
      (∀ id atts, oneSignerPool.attestations.lookup id = some atts →
        atts ≠ [] ∧ (∀ a ∈ atts, ∀ b ∈ atts, a.data = b.data) ∧
        ∀ a ∈ atts, (∃ fork, AttestationId.fromData byteSpec a.data fork = id) ∧
          BitList.Inv byteSpec.maxValidatorsPerCommittee a.aggregationBits ∧
          a.signature = ∑ i ∈ a.signers, signerPair i a.data) ∧
      (∀ x ∈ [(oneSigner, ())], ∃ atts,
        oneSignerPool.attestations.lookup (AttestationId.fromData byteSpec x.1.data x.2) =
          some atts ∧ ∃ e ∈ atts, x.1.signers ⊆ e.signers) ∧
      ∀ (attestation : Attestation UInt8 (Multiset (Nat × UInt8))) (fork : Unit),
        Genuine byteSpec.maxValidatorsPerCommittee signerPair attestation →
          ∃ pool', oneSignerPool.insertAttestation byteSpec attestation fork = .ok pool' :=
  ⟨length_sszEncode_byteSpec, injective_sszEncode_byteSpec, reachable_oneSignerPool,
    attestationPool_invariant length_sszEncode_byteSpec injective_sszEncode_byteSpec
      reachable_oneSignerPool⟩

/-- `prune_attestations` reads the first attestation of a bucket only, and over every run, where
the SSZ encoding of the data is injective and of one length, that is as good as reading them
all: it keeps a bucket, unchanged, exactly where all its attestations target the previous epoch
or a later one, and drops it otherwise. -/
theorem pruneAttestations_keeps
    (hlen : ∀ d₁ d₂, (spec.sszEncode d₁).length = (spec.sszEncode d₂).length)
    (hinj : Function.Injective spec.sszEncode) {pool : OperationPool δ σ}
    {live : List (Attestation δ σ × φ)} (h : Reachable spec sign pool live) (currentEpoch : Nat)
    (id : AttestationId) (atts : List (Attestation δ σ)) :
    (pool.pruneAttestations spec currentEpoch).attestations.lookup id = some atts ↔
      pool.attestations.lookup id = some atts ∧
        ∀ a ∈ atts, currentEpoch ≤ spec.targetEpoch a.data + 1 := by
  have hid : ∀ {d₁ d₂ : δ} {f₁ f₂ : φ},
      AttestationId.fromData spec d₁ f₁ = AttestationId.fromData spec d₂ f₂ → d₁ = d₂ :=
    fun h => AttestationId.data_eq_of_fromData_eq hlen hinj h
  obtain ⟨hinv, -⟩ := reachable_inv hid h
  rw [lookup_pruneAttestations]
  refine and_congr_right fun hl => ?_
  -- the bucket has a first attestation, and the others share its data
  obtain ⟨a₀, rest, rfl⟩ := List.exists_cons_of_ne_nil (hinv id _ hl).1
  simp only [List.head?_cons, Option.map_some, Option.getD_some, decide_eq_true_eq]
  constructor
  · intro h₀ a ha
    rw [hinv.data_eq hid hl ha List.mem_cons_self]
    exact h₀
  · intro hall
    exact hall a₀ List.mem_cons_self

theorem pruneAttestations_keeps_at_oneSigner :
    (∀ d₁ d₂, (byteSpec.sszEncode d₁).length = (byteSpec.sszEncode d₂).length) ∧
      Function.Injective byteSpec.sszEncode ∧
      Reachable byteSpec signerPair oneSignerPool [(oneSigner, ())] ∧
      ((oneSignerPool.pruneAttestations byteSpec 6).attestations.lookup
          (AttestationId.fromData byteSpec 5 ()) = some [oneSigner] ↔
        oneSignerPool.attestations.lookup (AttestationId.fromData byteSpec 5 ()) =
            some [oneSigner] ∧
          ∀ a ∈ [oneSigner], 6 ≤ byteSpec.targetEpoch a.data + 1) :=
  ⟨length_sszEncode_byteSpec, injective_sszEncode_byteSpec, reachable_oneSignerPool,
    pruneAttestations_keeps length_sszEncode_byteSpec injective_sszEncode_byteSpec
      reachable_oneSignerPool 6 _ [oneSigner]⟩

end Runs

end Lighthouse.OperationPool
