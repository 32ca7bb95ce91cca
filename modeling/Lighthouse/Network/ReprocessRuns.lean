import Lighthouse.Network.ReprocessQueue
import Lighthouse.Foundations.Tally

/-! The bookkeeping of the reprocessing queue over whole runs. A queued attestation lives in
three places: the map of its kind (with its delay key), the delay queue (under that key) and the
list of its block's root. `Bookkeeping` says they agree (`GroupIndex.Consistent`), that the sent
attestations were each sent once and are no longer queued (`GroupIndex.Ledger`), how many entries
each holds, and the bounds the handlers check. Every event keeps it, so every reachable queue
has it. The roots of the per-root index are not among the bounds: an expiry leaves a root whose
list it empties, so the index has as many roots as any run gives it. -/
namespace Lighthouse.BeaconProcessor
open GroupIndex Tally

variable {ρ κ α β : Type}

namespace ReprocessQueue
variable (q : ReprocessQueue ρ κ α β)

/-! Views of the maps of the two kinds and of the sent work. -/

/-- The root and the delay key of a queued attestation, from the map of its kind. -/
def queuedEntry : QueuedAttestationId → Option (ρ × κ)
  | .aggregate id => (q.queuedAggregates.lookup id).map fun e => (e.1.beaconBlockRoot, e.2)
  | .unaggregate id => (q.queuedUnaggregates.lookup id).map fun e => (e.1.beaconBlockRoot, e.2)

/-- The attestations sent so far, in order. -/
def sentIds : List QueuedAttestationId := q.readyWorkTx.filterMap ReadyWork.attestationId

/-- The number of attestations the maps of the two kinds hold. -/
def queuedCount : ℕ := q.queuedAggregates.entries.length + q.queuedUnaggregates.entries.length

variable {q}

section Views
variable {q' : ReprocessQueue ρ κ α β}

theorem queuedEntry_of_maps (ha : q'.queuedAggregates = q.queuedAggregates)
    (hu : q'.queuedUnaggregates = q.queuedUnaggregates) : q'.queuedEntry = q.queuedEntry := by
  funext id
  cases id <;> simp [queuedEntry, ha, hu]

theorem queuedEntry_of_insertAggregate {n : ℕ} {a : QueuedAggregate ρ α} {key : κ}
    (ha : q'.queuedAggregates = q.queuedAggregates.insert n (a, key))
    (hu : q'.queuedUnaggregates = q.queuedUnaggregates) :
    q'.queuedEntry = Function.update q.queuedEntry (.aggregate n) (some (a.beaconBlockRoot, key)) := by
  funext id
  cases id with
  | aggregate m =>
    by_cases hm : m = n
    · subst hm; simp [queuedEntry, ha]
    · simp [queuedEntry, ha, AList.lookup_insert_ne hm, hm]
  | unaggregate m => simp [queuedEntry, hu]

theorem queuedEntry_of_insertUnaggregate {n : ℕ} {a : QueuedUnaggregate ρ α} {key : κ}
    (ha : q'.queuedAggregates = q.queuedAggregates)
    (hu : q'.queuedUnaggregates = q.queuedUnaggregates.insert n (a, key)) :
    q'.queuedEntry =
      Function.update q.queuedEntry (.unaggregate n) (some (a.beaconBlockRoot, key)) := by
  funext id
  cases id with
  | aggregate m => simp [queuedEntry, ha]
  | unaggregate m =>
    by_cases hm : m = n
    · subst hm; simp [queuedEntry, hu]
    · simp [queuedEntry, hu, AList.lookup_insert_ne hm, hm]

end Views

/-! Sending touches nothing but the log. -/

section Send
variable (w : ReadyWork ρ α β)

@[simp] theorem send_attestationsDelayQueue :
    (q.send w).attestationsDelayQueue = q.attestationsDelayQueue := rfl

@[simp] theorem send_awaitingAttestationsPerRoot :
    (q.send w).awaitingAttestationsPerRoot = q.awaitingAttestationsPerRoot := rfl

@[simp] theorem send_queuedAggregates : (q.send w).queuedAggregates = q.queuedAggregates := rfl

@[simp] theorem send_queuedUnaggregates : (q.send w).queuedUnaggregates = q.queuedUnaggregates :=
  rfl

@[simp] theorem send_nextAttestation : (q.send w).nextAttestation = q.nextAttestation := rfl

@[simp] theorem send_queuedGossipBlockRoots :
    (q.send w).queuedGossipBlockRoots = q.queuedGossipBlockRoots := rfl

@[simp] theorem send_rpcBlockDelayQueue : (q.send w).rpcBlockDelayQueue = q.rpcBlockDelayQueue :=
  rfl

@[simp] theorem send_readyWorkTx : (q.send w).readyWorkTx = q.readyWorkTx ++ [w] := rfl

end Send

theorem sentIds_send (w : ReadyWork ρ α β) :
    (q.send w).sentIds = q.sentIds ++ w.attestationId.toList := by
  cases hw : w.attestationId <;> simp [sentIds, send, hw]

/-! Taking an attestation out of its map touches nothing else. -/

section TakeQueued
variable (id : QueuedAttestationId)

@[simp] theorem takeQueued_attestationsDelayQueue :
    (q.takeQueued id).2.attestationsDelayQueue = q.attestationsDelayQueue := by
  cases id <;> rfl

@[simp] theorem takeQueued_awaitingAttestationsPerRoot :
    (q.takeQueued id).2.awaitingAttestationsPerRoot = q.awaitingAttestationsPerRoot := by
  cases id <;> rfl

@[simp] theorem takeQueued_readyWorkTx : (q.takeQueued id).2.readyWorkTx = q.readyWorkTx := by
  cases id <;> rfl

@[simp] theorem takeQueued_nextAttestation :
    (q.takeQueued id).2.nextAttestation = q.nextAttestation := by
  cases id <;> rfl

@[simp] theorem takeQueued_queuedGossipBlockRoots :
    (q.takeQueued id).2.queuedGossipBlockRoots = q.queuedGossipBlockRoots := by
  cases id <;> rfl

@[simp] theorem takeQueued_rpcBlockDelayQueue :
    (q.takeQueued id).2.rpcBlockDelayQueue = q.rpcBlockDelayQueue := by
  cases id <;> rfl

theorem queuedEntry_takeQueued :
    (q.takeQueued id).2.queuedEntry = Function.update q.queuedEntry id none := by
  funext id'
  cases id with
  | aggregate n =>
    cases id' with
    | aggregate m =>
      by_cases hm : m = n
      · subst hm; simp [takeQueued, queuedEntry]
      · simp [takeQueued, queuedEntry, AList.lookup_erase_ne hm, hm]
    | unaggregate m => simp [takeQueued, queuedEntry]
  | unaggregate n =>
    cases id' with
    | aggregate m => simp [takeQueued, queuedEntry]
    | unaggregate m =>
      by_cases hm : m = n
      · subst hm; simp [takeQueued, queuedEntry]
      · simp [takeQueued, queuedEntry, AList.lookup_erase_ne hm, hm]

/-- What the removal hands back: the attestation's root and delay key, and work that sends it;
one attestation fewer in the maps. -/
theorem takeQueued_of_queuedEntry {root : ρ} {key : κ} (h : q.queuedEntry id = some (root, key)) :
    ∃ work, (q.takeQueued id).1 = some (root, work, key) ∧ work.attestationId = some id ∧
      (q.takeQueued id).2.queuedCount + 1 = q.queuedCount := by
  cases id with
  | aggregate n =>
    obtain ⟨⟨a, k⟩, hl, he⟩ := Option.map_eq_some_iff.mp h
    simp only [Prod.mk.injEq] at he
    obtain ⟨rfl, rfl⟩ := he
    refine ⟨.aggregate n a, by simp [takeQueued, hl], rfl, ?_⟩
    have := length_erase_of_lookup hl
    simp only [queuedCount, takeQueued]
    omega
  | unaggregate n =>
    obtain ⟨⟨a, k⟩, hl, he⟩ := Option.map_eq_some_iff.mp h
    simp only [Prod.mk.injEq] at he
    obtain ⟨rfl, rfl⟩ := he
    refine ⟨.unaggregate n a, by simp [takeQueued, hl], rfl, ?_⟩
    have := length_erase_of_lookup hl
    simp only [queuedCount, takeQueued]
    omega

end TakeQueued

/-! The delay queue and the lists of the roots, and how they change when the fields under them
do. -/

variable [DecidableEq ρ] [DecidableEq κ]

variable (q) in
/-- The attestation whose delay is registered under a key. -/
def delayed (key : κ) : Option QueuedAttestationId := q.attestationsDelayQueue.lookup key

variable (q) in
/-- The ids listed under a root; none where the root has no entry. -/
def listed (root : ρ) : List QueuedAttestationId :=
  (q.awaitingAttestationsPerRoot.lookup root).getD []

variable {q' : ReprocessQueue ρ κ α β}

omit [DecidableEq ρ] in
theorem delayed_of_insert {key : κ} {id : QueuedAttestationId}
    (h : q'.attestationsDelayQueue = q.attestationsDelayQueue.insert key id) :
    q'.delayed = Function.update q.delayed key (some id) := by
  have := lookup_insert_eq_update q.attestationsDelayQueue key id
  rw [← h] at this
  exact this

omit [DecidableEq ρ] in
theorem delayed_of_erase {key : κ} (h : q'.attestationsDelayQueue = q.attestationsDelayQueue.erase key) :
    q'.delayed = Function.update q.delayed key none := by
  have := lookup_erase_eq_update q.attestationsDelayQueue key
  rw [← h] at this
  exact this

omit [DecidableEq κ] in
theorem listed_of_insert {root : ρ} {l : List QueuedAttestationId}
    (h : q'.awaitingAttestationsPerRoot = q.awaitingAttestationsPerRoot.insert root l) :
    q'.listed = Function.update q.listed root l := by
  have hcomp := Function.comp_update (fun o : Option (List QueuedAttestationId) => o.getD [])
    (fun r => q.awaitingAttestationsPerRoot.lookup r) root (some l)
  rw [← lookup_insert_eq_update, ← h] at hcomp
  exact hcomp

omit [DecidableEq κ] in
theorem listed_of_eq (h : q'.awaitingAttestationsPerRoot = q.awaitingAttestationsPerRoot) :
    q'.listed = q.listed := by
  funext root
  simp [listed, h]

omit [DecidableEq κ] in
theorem listed_of_erase {root : ρ}
    (h : q'.awaitingAttestationsPerRoot = q.awaitingAttestationsPerRoot.erase root) :
    q'.listed = Function.update q.listed root [] := by
  have hcomp := Function.comp_update (fun o : Option (List QueuedAttestationId) => o.getD [])
    (fun r => q.awaitingAttestationsPerRoot.lookup r) root none
  rw [← lookup_erase_eq_update, ← h] at hcomp
  exact hcomp


/-! The bookkeeping and the events that keep it. -/

/-- The bookkeeping of the queue. `index` stands for the lists of the roots and `pending` for the
number of ids of a root taken out of the index whose attestations are still being sent: the two
differ from the index and from nought only inside the loop of `BlockImported`. -/
structure Bookkeeping (q : ReprocessQueue ρ κ α β) (index : ρ → List QueuedAttestationId)
    (pending : ℕ) : Prop where
  consistent : Consistent q.queuedEntry q.delayed index
  ledger : Ledger QueuedAttestationId.number q.nextAttestation q.queuedEntry q.sentIds
  queuedCount_eq : q.queuedCount = q.attestationsDelayQueue.entries.length
  listedCount_eq :
    tally q.awaitingAttestationsPerRoot List.length + pending = q.attestationsDelayQueue.entries.length
  attestations_le : q.attestationsDelayQueue.entries.length ≤ maximumQueuedAttestations
  gossipRoots_le : q.queuedGossipBlockRoots.card ≤ maximumQueuedBlocks
  rpcBlocks_le : q.rpcBlockDelayQueue.entries.length ≤ maximumQueuedBlocks

/-- The bookkeeping between two events. -/
def Inv (q : ReprocessQueue ρ κ α β) : Prop := Bookkeeping q q.listed 0

theorem Inv.new : Inv (ReprocessQueue.new : ReprocessQueue ρ κ α β) where
  consistent :=
    ⟨fun k i => by cases i <;> simp [delayed, queuedEntry, ReprocessQueue.new],
      fun g i => by cases i <;> simp [listed, queuedEntry, ReprocessQueue.new],
      fun g => by simp [listed, ReprocessQueue.new]⟩
  ledger :=
    ⟨fun i hi => by cases i <;> simp [queuedEntry, ReprocessQueue.new] at hi,
      fun i hi => by simp [sentIds, ReprocessQueue.new] at hi,
      by simp [sentIds, ReprocessQueue.new],
      fun i hi => by simp [sentIds, ReprocessQueue.new] at hi⟩
  queuedCount_eq := rfl
  listedCount_eq := rfl
  attestations_le := by simp [ReprocessQueue.new]
  gossipRoots_le := by simp [ReprocessQueue.new]
  rpcBlocks_le := by simp [ReprocessQueue.new]

omit [DecidableEq ρ] in
/-- An event that leaves the attestations' places and the sent attestations as they were, and
keeps the bounds on the blocks' queues, keeps the bookkeeping. -/
theorem Bookkeeping.of_blocks {index : ρ → List QueuedAttestationId} {pending : ℕ}
    {q' : ReprocessQueue ρ κ α β} (h : Bookkeeping q index pending)
    (hd : q'.attestationsDelayQueue = q.attestationsDelayQueue)
    (ha : q'.queuedAggregates = q.queuedAggregates)
    (hu : q'.queuedUnaggregates = q.queuedUnaggregates)
    (hr : q'.awaitingAttestationsPerRoot = q.awaitingAttestationsPerRoot)
    (hn : q'.nextAttestation = q.nextAttestation) (hs : q'.sentIds = q.sentIds)
    (hg : q'.queuedGossipBlockRoots.card ≤ maximumQueuedBlocks)
    (hrpc : q'.rpcBlockDelayQueue.entries.length ≤ maximumQueuedBlocks) :
    Bookkeeping q' index pending := by
  have he := queuedEntry_of_maps ha hu
  have hk : q'.delayed = q.delayed := by
    funext k
    simp [delayed, hd]
  refine ⟨?_, ?_, ?_, ?_, ?_, hg, hrpc⟩
  · rw [he, hk]; exact h.consistent
  · rw [he, hn, hs]; exact h.ledger
  · simp only [queuedCount, ha, hu, hd]; exact h.queuedCount_eq
  · rw [hr, hd]; exact h.listedCount_eq
  · rw [hd]; exact h.attestations_le

omit [DecidableEq ρ] in
theorem Bookkeeping.send {index : ρ → List QueuedAttestationId} {pending : ℕ}
    (h : Bookkeeping q index pending) {w : ReadyWork ρ α β} (hw : w.attestationId = none) :
    Bookkeeping (q.send w) index pending :=
  h.of_blocks rfl rfl rfl rfl rfl (by simp [sentIds_send, hw]) h.gossipRoots_le h.rpcBlocks_le

/-- What the `store` of an attestation arm does at a queue: file the attestation under `attId`
with its root and delay key, and touch nothing but the maps of the two kinds. -/
structure Stores (store : ReprocessQueue ρ κ α β → ReprocessQueue ρ κ α β)
    (q : ReprocessQueue ρ κ α β) (attId : QueuedAttestationId) (root : ρ) (key : κ) : Prop where
  frame : store q = { q with
    queuedAggregates := (store q).queuedAggregates
    queuedUnaggregates := (store q).queuedUnaggregates }
  entry : (store q).queuedEntry = Function.update q.queuedEntry attId (some (root, key))
  count : (store q).queuedCount = q.queuedCount + 1

/-- The arm shared by the two kinds of attestation keeps the bookkeeping, for a key the delay
queue does not hold and an id numbered by the counter. -/
theorem Inv.queueAttestation (h : Inv q) {key : κ} (hkey : key ∉ q.attestationsDelayQueue)
    {attId : QueuedAttestationId} (hnum : attId.number = q.nextAttestation) {root : ρ}
    {store : ReprocessQueue ρ κ α β → ReprocessQueue ρ κ α β}
    (hstore : ∀ q' : ReprocessQueue ρ κ α β, q'.queuedEntry attId = none →
      Stores store q' attId root key) :
    Inv (ReprocessQueue.queueAttestation key attId root store q) := by
  unfold ReprocessQueue.queueAttestation
  split_ifs with hfull
  · exact h
  -- the id is new: the counter is past every queued id
  have hnew : q.queuedEntry attId = none := by
    cases hq : q.queuedEntry attId with
    | none => rfl
    | some e =>
      have := h.ledger.lt_of_stored attId (by simp [hq])
      omega
  have hfree : q.delayed key = none := AList.lookup_eq_none.mpr hkey
  dsimp only
  set q₁ : ReprocessQueue ρ κ α β := { q with
    attestationsDelayQueue := q.attestationsDelayQueue.insert key attId
    awaitingAttestationsPerRoot := q.awaitingAttestationsPerRoot.insert root
      ((q.awaitingAttestationsPerRoot.lookup root).getD [] ++ [attId]) } with hq₁
  obtain ⟨hframe, hentry, hcount⟩ := hstore q₁ hnew
  set q₂ := store q₁ with hq₂
  -- the store leaves every field but the maps as the registration made them
  have hD : q₂.attestationsDelayQueue = q.attestationsDelayQueue.insert key attId :=
    congrArg ReprocessQueue.attestationsDelayQueue hframe
  have hR : q₂.awaitingAttestationsPerRoot = q.awaitingAttestationsPerRoot.insert root
      (q.listed root ++ [attId]) :=
    congrArg ReprocessQueue.awaitingAttestationsPerRoot hframe
  have hN : q₂.nextAttestation = q.nextAttestation := (congrArg ReprocessQueue.nextAttestation hframe).trans rfl
  have hW : q₂.readyWorkTx = q.readyWorkTx := (congrArg ReprocessQueue.readyWorkTx hframe).trans rfl
  have hG : q₂.queuedGossipBlockRoots = q.queuedGossipBlockRoots :=
    (congrArg ReprocessQueue.queuedGossipBlockRoots hframe).trans rfl
  have hP : q₂.rpcBlockDelayQueue = q.rpcBlockDelayQueue :=
    (congrArg ReprocessQueue.rpcBlockDelayQueue hframe).trans rfl
  have hE : q₂.queuedEntry = Function.update q.queuedEntry attId (some (root, key)) := by
    rw [hentry, (queuedEntry_of_maps rfl rfl : q₁.queuedEntry = q.queuedEntry)]
  have hS : q₂.sentIds = q.sentIds := by simp only [sentIds, hW]
  -- one more entry in the delay queue and in the lists of the roots
  have hlenD := length_insert_of_notMem hkey attId
  have htally := tally_insert q.awaitingAttestationsPerRoot root (q.listed root ++ [attId])
    List.length
  have hw : weightAt q.awaitingAttestationsPerRoot List.length root = (q.listed root).length :=
    weightAt_eq_getD _ _ rfl
  rw [hw, List.length_append, List.length_singleton] at htally
  have hc₁ : q₁.queuedCount = q.queuedCount := rfl
  refine ⟨?_, ?_, ?_, ?_, ?_, ?_, ?_⟩
  · show Consistent q₂.queuedEntry q₂.delayed q₂.listed
    rw [hE, delayed_of_insert hD, listed_of_insert hR]
    exact h.consistent.add hnew hfree
  · show Ledger _ (q₂.nextAttestation + 1) q₂.queuedEntry q₂.sentIds
    rw [hE, hN, hS]
    exact h.ledger.issue hnum _
  · show q₂.queuedCount = q₂.attestationsDelayQueue.entries.length
    have := h.queuedCount_eq
    rw [hcount, hD, hc₁, hlenD]
    omega
  · show tally q₂.awaitingAttestationsPerRoot List.length + 0 = q₂.attestationsDelayQueue.entries.length
    have := h.listedCount_eq
    rw [hR, hD, hlenD]
    omega
  · show q₂.attestationsDelayQueue.entries.length ≤ _
    rw [hD, hlenD]
    omega
  · show q₂.queuedGossipBlockRoots.card ≤ _
    rw [hG]; exact h.gossipRoots_le
  · show q₂.rpcBlockDelayQueue.entries.length ≤ _
    rw [hP]; exact h.rpcBlocks_le

theorem Inv.unknownBlockAggregate (h : Inv q) {key : κ} (hkey : key ∉ q.attestationsDelayQueue)
    (a : QueuedAggregate ρ α) : Inv (q.unknownBlockAggregate key a) :=
  h.queueAttestation hkey rfl fun q' hnone =>
    { frame := rfl
      entry := queuedEntry_of_insertAggregate rfl rfl
      count := by
        have hn : q.nextAttestation ∉ q'.queuedAggregates := by
          simpa [queuedEntry, AList.lookup_eq_none] using hnone
        simp only [queuedCount, length_insert_of_notMem hn]
        omega }

theorem Inv.unknownBlockUnaggregate (h : Inv q) {key : κ} (hkey : key ∉ q.attestationsDelayQueue)
    (a : QueuedUnaggregate ρ α) : Inv (q.unknownBlockUnaggregate key a) :=
  h.queueAttestation hkey rfl fun q' hnone =>
    { frame := rfl
      entry := queuedEntry_of_insertUnaggregate rfl rfl
      count := by
        have hn : q.nextAttestation ∉ q'.queuedUnaggregates := by
          simpa [queuedEntry, AList.lookup_eq_none] using hnone
        simp only [queuedCount, length_insert_of_notMem hn]
        omega }

/-! The loop of `BlockImported`. -/

omit [DecidableEq ρ] in
theorem unqueue_of_takeQueued {id : QueuedAttestationId} {root : ρ} {work : ReadyWork ρ α β}
    {key : κ} (h : (q.takeQueued id).1 = some (root, work, key)) :
    q.unqueue id = { (q.takeQueued id).2 with
      attestationsDelayQueue := (q.takeQueued id).2.attestationsDelayQueue.erase key }.send work := by
  rcases hp : q.takeQueued id with ⟨fst, q'⟩
  rw [hp] at h
  subst h
  unfold ReprocessQueue.unqueue
  rw [hp]

omit [DecidableEq ρ] in
@[simp] theorem awaitingAttestationsPerRoot_unqueue (id : QueuedAttestationId) :
    (q.unqueue id).awaitingAttestationsPerRoot = q.awaitingAttestationsPerRoot := by
  unfold ReprocessQueue.unqueue
  rcases hp : q.takeQueued id with ⟨_ | ⟨_, _, _⟩, q'⟩ <;>
    simp [send, ← takeQueued_awaitingAttestationsPerRoot (q := q) id, hp]

omit [DecidableEq ρ] in
theorem awaitingAttestationsPerRoot_foldl_unqueue (ids : List QueuedAttestationId) :
    (ids.foldl unqueue q).awaitingAttestationsPerRoot = q.awaitingAttestationsPerRoot := by
  induction ids generalizing q with
  | nil => rfl
  | cons id rest ih => rw [List.foldl_cons, ih, awaitingAttestationsPerRoot_unqueue]

/-- One pass of the loop sends the first pending id's attestation and takes it out of the maps and
the delay queue. -/
theorem Bookkeeping.unqueue {root : ρ} {id : QueuedAttestationId} {rest : List QueuedAttestationId}
    (h : Bookkeeping q (Function.update q.listed root (id :: rest)) (rest.length + 1)) :
    Bookkeeping (q.unqueue id) (Function.update (q.unqueue id).listed root rest) rest.length := by
  -- the first pending id is queued under the root, with its key in the delay queue
  have hmem : id ∈ Function.update q.listed root (id :: rest) root := by simp
  obtain ⟨key, hq⟩ := h.consistent.store_of_mem_index hmem
  have hk := h.consistent.keyed_of_store hq
  obtain ⟨work, htake, hwork, hcount⟩ := takeQueued_of_queuedEntry id hq
  have hnd : (id :: rest).Nodup := by simpa using h.consistent.nodup root
  rw [unqueue_of_takeQueued htake]
  set q' := { (q.takeQueued id).2 with
    attestationsDelayQueue := (q.takeQueued id).2.attestationsDelayQueue.erase key }.send work
    with hq'
  have hD : q'.attestationsDelayQueue = q.attestationsDelayQueue.erase key := by simp [hq']
  have hE : q'.queuedEntry = Function.update q.queuedEntry id none := queuedEntry_takeQueued id
  have hL : q'.listed = q.listed := listed_of_eq (by simp [hq'])
  have hS : q'.sentIds = q.sentIds ++ [id] := by simp [sentIds, hq', hwork]
  have hlenD := length_erase_of_lookup hk
  refine ⟨?_, ?_, ?_, ?_, ?_, ?_, ?_⟩
  · rw [hE, delayed_of_erase hD, hL]
    have hrem := h.consistent.remove hq (l := rest) (fun j => by
      rw [Function.update_self]
      constructor
      · intro hj
        exact ⟨List.mem_cons_of_mem id hj, fun hji => (List.nodup_cons.mp hnd).1 (hji ▸ hj)⟩
      · rintro ⟨hj, hji⟩
        exact (List.mem_cons.mp hj).resolve_left hji) (List.nodup_cons.mp hnd).2
    rwa [Function.update_idem] at hrem
  · have hN : q'.nextAttestation = q.nextAttestation := by simp [hq']
    rw [hE, hS, hN]
    exact h.ledger.retire (i := id) (by simp [hq])
  · have := h.queuedCount_eq
    have hc : q'.queuedCount = (q.takeQueued id).2.queuedCount := rfl
    rw [hc, hD]
    omega
  · have := h.listedCount_eq
    have ht : q'.awaitingAttestationsPerRoot = q.awaitingAttestationsPerRoot := by simp [hq']
    rw [ht, hD]
    omega
  · rw [hD]
    have := h.attestations_le
    omega
  · simpa [hq'] using h.gossipRoots_le
  · simpa [hq'] using h.rpcBlocks_le

/-- The loop over the pending ids of a root sends them all and leaves nothing pending. -/
theorem Bookkeeping.foldl_unqueue {root : ρ} :
    ∀ {q : ReprocessQueue ρ κ α β} (pending : List QueuedAttestationId),
      Bookkeeping q (Function.update q.listed root pending) pending.length →
      Bookkeeping (pending.foldl ReprocessQueue.unqueue q)
        (Function.update (pending.foldl ReprocessQueue.unqueue q).listed root []) 0
  | _, [], h => h
  | _, _ :: rest, h => Bookkeeping.foldl_unqueue rest h.unqueue

theorem Inv.blockImported (h : Inv q) (root : ρ) : Inv (q.blockImported root) := by
  unfold ReprocessQueue.blockImported
  cases hl : q.awaitingAttestationsPerRoot.lookup root with
  | none => exact h
  | some queuedIds =>
    dsimp only
    set q₀ : ReprocessQueue ρ κ α β :=
      { q with awaitingAttestationsPerRoot := q.awaitingAttestationsPerRoot.erase root } with hq₀
    have hL₀ : q₀.listed = Function.update q.listed root [] := listed_of_erase rfl
    have hids : q.listed root = queuedIds := by simp [listed, hl]
    -- the root's list leaves the index and stands as the pending ids
    have hstart : Bookkeeping q₀ (Function.update q₀.listed root queuedIds) queuedIds.length := by
      have htally := tally_erase_of_lookup hl List.length
      refine ⟨?_, h.ledger, h.queuedCount_eq, ?_, h.attestations_le, h.gossipRoots_le,
        h.rpcBlocks_le⟩
      · rw [hL₀, ← hids]
        exact h.consistent.detach root
      · have := h.listedCount_eq
        show tally (q.awaitingAttestationsPerRoot.erase root) List.length + queuedIds.length =
          q.attestationsDelayQueue.entries.length
        omega
    have hend := Bookkeeping.foldl_unqueue queuedIds hstart
    -- at the end the root has no entry, so the index is the queue's own
    have hnone : (queuedIds.foldl unqueue q₀).listed root = [] := by
      simp [listed, awaitingAttestationsPerRoot_foldl_unqueue, hq₀]
    rwa [Function.update_eq_self_iff.mpr hnone.symm] at hend

/-! An expired attestation. -/

omit [DecidableEq κ] in
theorem readyAttestation_of_takeQueued {id : QueuedAttestationId} {root : ρ}
    {work : ReadyWork ρ α β} {key : κ} {l : List QueuedAttestationId} {index : ℕ}
    (h : (q.takeQueued id).1 = some (root, work, key))
    (hl : q.awaitingAttestationsPerRoot.lookup root = some l) (hi : l.idxOf? id = some index) :
    q.readyAttestation id = { (q.takeQueued id).2.send work with
      awaitingAttestationsPerRoot := q.awaitingAttestationsPerRoot.insert root (swapRemove l index) } := by
  have hr := takeQueued_awaitingAttestationsPerRoot (q := q) id
  rcases hp : q.takeQueued id with ⟨fst, q'⟩
  rw [hp] at h hr
  dsimp only at hr
  subst h
  unfold ReprocessQueue.readyAttestation
  simp only [hp, send_awaitingAttestationsPerRoot, hr, hl, hi]

/-- An attestation whose delay passed, with its key already out of the delay queue, is sent and
taken out of its map and of the list of its root. -/
theorem Inv.readyAttestation (h : Inv q) {key : κ} {id : QueuedAttestationId}
    (hk : q.attestationsDelayQueue.lookup key = some id) :
    Inv ({ q with attestationsDelayQueue := q.attestationsDelayQueue.erase key }.readyAttestation id) := by
  obtain ⟨root, hq⟩ := h.consistent.store_of_keyed hk
  set qe : ReprocessQueue ρ κ α β :=
    { q with attestationsDelayQueue := q.attestationsDelayQueue.erase key } with hqe
  have hEe : qe.queuedEntry = q.queuedEntry := queuedEntry_of_maps rfl rfl
  obtain ⟨work, htake, hwork, hcount⟩ :=
    takeQueued_of_queuedEntry (q := qe) id (by rw [hEe]; exact hq)
  -- the id is listed under its root, so the root has a list and the search finds the id
  have hmem : id ∈ q.listed root := h.consistent.mem_index_of_store hq
  obtain ⟨l, hl⟩ : ∃ l, q.awaitingAttestationsPerRoot.lookup root = some l := by
    cases hl : q.awaitingAttestationsPerRoot.lookup root with
    | none => simp [listed, hl] at hmem
    | some l => exact ⟨l, rfl⟩
  have hlisted : q.listed root = l := by simp [listed, hl]
  rw [hlisted] at hmem
  obtain ⟨index, hindex⟩ : ∃ index, l.idxOf? id = some index := by
    cases hi : l.idxOf? id with
    | none => simp [List.idxOf?_eq_none_iff.mp hi] at hmem
    | some index => exact ⟨index, rfl⟩
  have hnd : l.Nodup := hlisted ▸ h.consistent.nodup root
  rw [readyAttestation_of_takeQueued htake (q := qe) hl hindex]
  set q' := { (qe.takeQueued id).2.send work with
    awaitingAttestationsPerRoot := qe.awaitingAttestationsPerRoot.insert root (swapRemove l index) }
    with hq'
  have hD : q'.attestationsDelayQueue = q.attestationsDelayQueue.erase key := by simp [hq', hqe]
  have hE : q'.queuedEntry = Function.update q.queuedEntry id none := by
    rw [← hEe]
    exact queuedEntry_takeQueued id
  have hR : q'.awaitingAttestationsPerRoot =
      q.awaitingAttestationsPerRoot.insert root (swapRemove l index) := rfl
  have hS : q'.sentIds = q.sentIds ++ [id] := by simp [sentIds, hq', hqe, hwork]
  have hN : q'.nextAttestation = q.nextAttestation := by simp [hq', hqe]
  -- one entry fewer in the delay queue and in the lists of the roots
  have hlenD := length_erase_of_lookup hk
  have hlen := length_swapRemove hindex
  have htally := tally_insert q.awaitingAttestationsPerRoot root (swapRemove l index) List.length
  rw [weightAt_of_lookup hl] at htally
  refine ⟨?_, ?_, ?_, ?_, ?_, ?_, ?_⟩
  · rw [hE, delayed_of_erase hD, listed_of_insert hR]
    refine h.consistent.remove hq (fun j => ?_) (nodup_swapRemove hnd hindex)
    rw [hlisted]
    exact mem_swapRemove_iff hnd hindex j
  · rw [hE, hS, hN]
    exact h.ledger.retire (i := id) (by simp [hq])
  · have := h.queuedCount_eq
    have hc : q'.queuedCount = (qe.takeQueued id).2.queuedCount := rfl
    have hce : qe.queuedCount = q.queuedCount := rfl
    rw [hc, hD]
    omega
  · have := h.listedCount_eq
    rw [hR, hD]
    omega
  · rw [hD]
    have := h.attestations_le
    omega
  · simpa [hq', hqe] using h.gossipRoots_le
  · simpa [hq', hqe] using h.rpcBlocks_le

/-! The blocks' arms. -/

theorem Inv.earlyBlock (h : Inv q) (slotClock : SlotClock) (key : κ) (b : QueuedGossipBlock ρ β) :
    Inv (q.earlyBlock slotClock key b) := by
  unfold ReprocessQueue.earlyBlock
  split
  next => exact h
  next hin =>
    split
    next =>
      -- the block waits for its slot, unless the set of roots is full
      split
      next => exact h
      next hfull =>
        refine h.of_blocks rfl rfl rfl rfl rfl rfl ?_ h.rpcBlocks_le
        show (insert b.blockRoot q.queuedGossipBlockRoots).card ≤ maximumQueuedBlocks
        rw [Finset.card_insert_of_notMem hin]
        omega
    next =>
      -- no duration to the slot: the block is sent if its slot has come
      split
      next =>
        split
        next => exact h.send rfl
        next => exact h
      next => exact h

theorem Inv.rpcBlock (h : Inv q) {key : κ} (hkey : key ∉ q.rpcBlockDelayQueue)
    (b : QueuedRpcBlock β) : Inv (q.rpcBlock key b) := by
  unfold ReprocessQueue.rpcBlock
  split_ifs with hfull
  · exact h.send rfl
  · refine h.of_blocks rfl rfl rfl rfl rfl rfl h.gossipRoots_le ?_
    show (q.rpcBlockDelayQueue.insert key b).entries.length ≤ maximumQueuedBlocks
    rw [length_insert_of_notMem hkey]
    omega

/-! Every event. -/

theorem Inv.msg (h : Inv q) (slotClock : SlotClock) (key : κ) (m : ReprocessQueueMessage ρ α β)
    (hfresh : q.KeyFresh key m) : Inv (handleMessage slotClock key (.msg m) q) := by
  cases m with
  | earlyBlock b => exact h.earlyBlock slotClock key b
  | rpcBlock b => exact h.rpcBlock hfresh b
  | blockImported root => exact h.blockImported root
  | unknownBlockUnaggregate a => exact h.unknownBlockUnaggregate hfresh a
  | unknownBlockAggregate a => exact h.unknownBlockAggregate hfresh a

theorem Inv.expire (h : Inv q) (slotClock : SlotClock) (key : κ) (e : Expiry κ)
    {ev : InboundEvent ρ α β} {q' : ReprocessQueue ρ κ α β} (he : q.pollExpired e = some (ev, q')) :
    Inv (handleMessage slotClock key ev q') := by
  cases e with
  | gossipBlock k =>
    obtain ⟨b, hb, he⟩ := Option.map_eq_some_iff.mp he
    obtain ⟨rfl, rfl⟩ := Prod.mk.inj he
    simp only [handleMessage, ReprocessQueue.readyGossipBlock]
    -- the block's root leaves the set and the block is sent
    refine Bookkeeping.send ?_ rfl
    refine h.of_blocks rfl rfl rfl rfl rfl rfl ?_ h.rpcBlocks_le
    exact (Finset.card_erase_le).trans h.gossipRoots_le
  | rpcBlock k =>
    obtain ⟨b, hb, he⟩ := Option.map_eq_some_iff.mp he
    obtain ⟨rfl, rfl⟩ := Prod.mk.inj he
    have hlen := length_erase_of_lookup hb
    simp only [handleMessage, ReprocessQueue.readyRpcBlock]
    refine Bookkeeping.send ?_ rfl
    refine h.of_blocks rfl rfl rfl rfl rfl rfl h.gossipRoots_le ?_
    show (q.rpcBlockDelayQueue.erase k).entries.length ≤ maximumQueuedBlocks
    have := h.rpcBlocks_le
    omega
  | attestation k =>
    obtain ⟨id, hk, he⟩ := Option.map_eq_some_iff.mp he
    obtain ⟨rfl, rfl⟩ := Prod.mk.inj he
    exact h.readyAttestation hk

/-- Every reachable queue keeps its books. -/
theorem Inv.reachable (h : Reachable q) : Inv q := by
  induction h with
  | new => exact Inv.new
  | msg slotClock key m hfresh _ ih => exact ih.msg slotClock key m hfresh
  | expire slotClock key e he _ ih => exact ih.expire slotClock key e he
  | delayQueueError slotClock key queueName _ ih => exact ih

end ReprocessQueue

open ReprocessQueue

/-- Rounds that each queue an aggregate for a new root and let its delay pass leave one root per
round in the per-root index, each with an empty list, and nothing in the delay queue. -/
theorem exists_reachable_emptied_roots (n : ℕ) :
    ∃ q : ReprocessQueue ℕ ℕ Unit Unit, Reachable q ∧ q.attestationsDelayQueue.entries = [] ∧
      q.awaitingAttestationsPerRoot.entries.length = n ∧
      ∀ root ∈ q.awaitingAttestationsPerRoot, root < n := by
  induction n with
  | zero => exact ⟨ReprocessQueue.new, .new, rfl, rfl, by simp [ReprocessQueue.new]⟩
  | succ n ih =>
    obtain ⟨q, hq, hD, hlen, hlt⟩ := ih
    have hn : n ∉ q.awaitingAttestationsPerRoot := fun h => lt_irrefl n (hlt n h)
    have hfresh : (0 : ℕ) ∉ q.attestationsDelayQueue := by
      simp [AList.mem_keys, AList.keys, hD]
    -- queue an aggregate for the new root `n` under the key 0
    have h₁ := Reachable.msg ⟨fun _ => none, none⟩ 0 (.unknownBlockAggregate ⟨n, ()⟩) hfresh hq
    set q₁ := handleMessage ⟨fun _ => none, none⟩ 0 (.msg (.unknownBlockAggregate ⟨n, ()⟩)) q
      with hq₁
    have hfit : ¬ maximumQueuedAttestations ≤ q.attestationsDelayQueue.entries.length := by
      simp [hD, maximumQueuedAttestations]
    have hD₁ : q₁.attestationsDelayQueue =
        q.attestationsDelayQueue.insert 0 (.aggregate q.nextAttestation) := by
      simp [hq₁, handleMessage, unknownBlockAggregate, queueAttestation, hfit]
    have hR₁ : q₁.awaitingAttestationsPerRoot =
        q.awaitingAttestationsPerRoot.insert n [.aggregate q.nextAttestation] := by
      simp [hq₁, handleMessage, unknownBlockAggregate, queueAttestation, hfit,
        AList.lookup_eq_none.mpr hn]
    have hA₁ : q₁.queuedAggregates.lookup q.nextAttestation = some (⟨n, ()⟩, 0) := by
      simp [hq₁, handleMessage, unknownBlockAggregate, queueAttestation, hfit]
    -- then let its delay pass
    have hpoll : q₁.pollExpired (.attestation 0) =
        some (.readyAttestation (.aggregate q.nextAttestation),
          { q₁ with attestationsDelayQueue := q₁.attestationsDelayQueue.erase 0 }) := by
      simp [pollExpired, hD₁]
    have h₂ := Reachable.expire ⟨fun _ => none, none⟩ 0 (.attestation 0) hpoll h₁
    set q₁' : ReprocessQueue ℕ ℕ Unit Unit :=
      { q₁ with attestationsDelayQueue := q₁.attestationsDelayQueue.erase 0 } with hq₁'
    have htake : (q₁'.takeQueued (.aggregate q.nextAttestation)).1 =
        some (n, .aggregate q.nextAttestation ⟨n, ()⟩, 0) := by
      simp [takeQueued, hq₁', hA₁]
    have hfin := readyAttestation_of_takeQueued htake (q := q₁') (l := [.aggregate q.nextAttestation])
      (by simp [hq₁', hR₁])
      (show [QueuedAttestationId.aggregate q.nextAttestation].idxOf? _ = some 0 by simp)
    have hq₂ : handleMessage ⟨fun _ => none, none⟩ 0
        (.readyAttestation (.aggregate q.nextAttestation)) q₁' = _ := hfin
    rw [hq₂] at h₂
    refine ⟨_, h₂, ?_, ?_, ?_⟩
    · show (q₁.attestationsDelayQueue.erase 0).entries = []
      rw [hD₁, Tally.entries_erase, AList.entries_insert, hD]
      simp
    · show ((q₁.awaitingAttestationsPerRoot).insert n _).entries.length = n + 1
      rw [hR₁, AList.entries_insert, AList.entries_insert]
      simp [List.kerase_of_notMem_keys hn, hlen]
    · intro root hroot
      have : root ∈ (q₁.awaitingAttestationsPerRoot).insert n _ := hroot
      rw [hR₁] at this
      simp only [AList.mem_insert] at this
      rcases this with rfl | rfl | hmem
      · omega
      · omega
      · exact Nat.lt_succ_of_lt (hlt root hmem)

end Lighthouse.BeaconProcessor
