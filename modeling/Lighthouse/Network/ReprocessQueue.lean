import Mathlib.Data.Finset.Card
import Mathlib.Data.List.AList
import Lighthouse.Foundations.GroupIndex

/-! The queue of the beacon processor that holds work back for later processing
(`work_reprocessing_queue.rs`). A block that arrived early waits in a delay queue until its slot;
an RPC block waits while the same block is imported over gossip; an attestation that names an
unknown block waits until that block is imported or its delay passes.

Each `DelayQueue` is a finite map from the keys it hands out to its items. The key an insert hands
out and the moment an item expires are the environment's: the key is an argument of
`handleMessage`, and `pollExpired` takes out the item under any key. The sender of ready work is
the log of what was sent. A queued attestation is an owned value that the queue moves into the
work it sends, never a copy; the work is tagged with the id under which it was queued, which
stands for that identity. -/
namespace Lighthouse.BeaconProcessor
open GroupIndex

variable {ρ κ α β : Type}

/-- Set an arbitrary upper bound on the number of queued blocks to avoid DoS attacks. -/
def maximumQueuedBlocks : ℕ := 16

/-- How many attestations we keep before new ones get dropped. -/
def maximumQueuedAttestations : ℕ := 16384

inductive QueuedAttestationId where
  | aggregate (id : ℕ)
  | unaggregate (id : ℕ)
  deriving DecidableEq, Repr

/-- The number under which the attestation was queued, shared by the two kinds. -/
def QueuedAttestationId.number : QueuedAttestationId → ℕ
  | .aggregate id | .unaggregate id => id

/-- An aggregated attestation for which the block was not seen while processing; the queue
reads its `beacon_block_root` and moves the rest. -/
structure QueuedAggregate (ρ α : Type) where
  beaconBlockRoot : ρ
  attestation : α

/-- An attestation for which the block was not seen while processing. -/
structure QueuedUnaggregate (ρ α : Type) where
  beaconBlockRoot : ρ
  attestation : α

/-- A block that arrived early and has been queued for later import. -/
structure QueuedGossipBlock (ρ β : Type) where
  blockRoot : ρ
  slot : ℕ
  block : β

/-- A block that arrived for processing when the same block was being imported over gossip. -/
structure QueuedRpcBlock (β : Type) where
  block : β
  /-- Whether the beacon chain should process this block: not when the queue is full. -/
  shouldProcess : Bool

/-- The events sent once they are ready for processing again. -/
inductive ReadyWork (ρ α β : Type) where
  | block (b : QueuedGossipBlock ρ β)
  | rpcBlock (b : QueuedRpcBlock β)
  | unaggregate (id : ℕ) (a : QueuedUnaggregate ρ α)
  | aggregate (id : ℕ) (a : QueuedAggregate ρ α)

/-- The attestation that a piece of work hands on. -/
def ReadyWork.attestationId : ReadyWork ρ α β → Option QueuedAttestationId
  | .aggregate id _ => some (.aggregate id)
  | .unaggregate id _ => some (.unaggregate id)
  | .block _ | .rpcBlock _ => none

/-- The messages that the scheduler can receive. -/
inductive ReprocessQueueMessage (ρ α β : Type) where
  | earlyBlock (b : QueuedGossipBlock ρ β)
  | rpcBlock (b : QueuedRpcBlock β)
  | blockImported (root : ρ)
  | unknownBlockUnaggregate (a : QueuedUnaggregate ρ α)
  | unknownBlockAggregate (a : QueuedAggregate ρ α)

/-- What `poll_next` hands to `handle_message`: an expired item of one of the delay queues, an
error of a delay queue, or a message. -/
inductive InboundEvent (ρ α β : Type) where
  | readyGossipBlock (b : QueuedGossipBlock ρ β)
  | readyRpcBlock (b : QueuedRpcBlock β)
  | readyAttestation (id : QueuedAttestationId)
  | delayQueueError (queueName : String)
  | msg (m : ReprocessQueueMessage ρ α β)

/-- The readings of the slot clock that handling a message takes. -/
structure SlotClock where
  durationToSlot : ℕ → Option ℕ
  now : Option ℕ

/-- A delay queue: the items it holds, under the keys it handed out. -/
abbrev DelayQueue (κ τ : Type) := AList fun _ : κ => τ

structure ReprocessQueue (ρ κ α β : Type) where
  gossipBlockDelayQueue : DelayQueue κ (QueuedGossipBlock ρ β)
  rpcBlockDelayQueue : DelayQueue κ (QueuedRpcBlock β)
  attestationsDelayQueue : DelayQueue κ QueuedAttestationId
  queuedGossipBlockRoots : Finset ρ
  queuedAggregates : AList fun _ : ℕ => QueuedAggregate ρ α × κ
  queuedUnaggregates : AList fun _ : ℕ => QueuedUnaggregate ρ α × κ
  awaitingAttestationsPerRoot : AList fun _ : ρ => List QueuedAttestationId
  nextAttestation : ℕ
  /-- The work sent on `ready_work_tx`, in order. -/
  readyWorkTx : List (ReadyWork ρ α β)

namespace ReprocessQueue
variable [DecidableEq ρ] [DecidableEq κ]

/-- The queue as `spawn_reprocess_scheduler` starts it. -/
def new : ReprocessQueue ρ κ α β :=
  ⟨∅, ∅, ∅, ∅, ∅, ∅, ∅, 0, []⟩

def send (q : ReprocessQueue ρ κ α β) (work : ReadyWork ρ α β) : ReprocessQueue ρ κ α β :=
  { q with readyWorkTx := q.readyWorkTx ++ [work] }

/-- A block that is early: queued until its slot unless its root is already queued or the queue
is full; sent at once if the clock has no duration to its slot but the slot has come. -/
def earlyBlock (slotClock : SlotClock) (key : κ) (earlyBlock : QueuedGossipBlock ρ β)
    (q : ReprocessQueue ρ κ α β) : ReprocessQueue ρ κ α β :=
  if earlyBlock.blockRoot ∈ q.queuedGossipBlockRoots then q
  else
    match slotClock.durationToSlot earlyBlock.slot with
    | some _ =>
      if maximumQueuedBlocks ≤ q.queuedGossipBlockRoots.card then q
      else
        { q with
          queuedGossipBlockRoots := insert earlyBlock.blockRoot q.queuedGossipBlockRoots
          gossipBlockDelayQueue := q.gossipBlockDelayQueue.insert key earlyBlock }
    | none =>
      match slotClock.now with
      | some now => if earlyBlock.slot ≤ now then q.send (.block earlyBlock) else q
      | none => q

/-- An RPC block: queued for a quarter of a slot, or sent back at once marked not to be
processed when the queue is full. -/
def rpcBlock (key : κ) (rpcBlock : QueuedRpcBlock β) (q : ReprocessQueue ρ κ α β) :
    ReprocessQueue ρ κ α β :=
  if maximumQueuedBlocks ≤ q.rpcBlockDelayQueue.entries.length then
    q.send (.rpcBlock { rpcBlock with shouldProcess := false })
  else { q with rpcBlockDelayQueue := q.rpcBlockDelayQueue.insert key rpcBlock }

def readyRpcBlock (queuedRpcBlock : QueuedRpcBlock β) (q : ReprocessQueue ρ κ α β) :
    ReprocessQueue ρ κ α β :=
  q.send (.rpcBlock queuedRpcBlock)

/-- The arm that the two kinds of attestation for an unknown block share: unless the delay queue
is full, register the delay under `key`, list `attId` under its block's root, store the
attestation with `store` and move the counter on. -/
def queueAttestation (key : κ) (attId : QueuedAttestationId) (root : ρ)
    (store : ReprocessQueue ρ κ α β → ReprocessQueue ρ κ α β) (q : ReprocessQueue ρ κ α β) :
    ReprocessQueue ρ κ α β :=
  if maximumQueuedAttestations ≤ q.attestationsDelayQueue.entries.length then q
  else
    let q := store
      { q with
        attestationsDelayQueue := q.attestationsDelayQueue.insert key attId
        awaitingAttestationsPerRoot := q.awaitingAttestationsPerRoot.insert root
          ((q.awaitingAttestationsPerRoot.lookup root).getD [] ++ [attId]) }
    { q with nextAttestation := q.nextAttestation + 1 }

def unknownBlockAggregate (key : κ) (queuedAggregate : QueuedAggregate ρ α)
    (q : ReprocessQueue ρ κ α β) : ReprocessQueue ρ κ α β :=
  queueAttestation key (.aggregate q.nextAttestation) queuedAggregate.beaconBlockRoot
    (fun q' => { q' with
      queuedAggregates := q'.queuedAggregates.insert q.nextAttestation (queuedAggregate, key) }) q

def unknownBlockUnaggregate (key : κ) (queuedUnaggregate : QueuedUnaggregate ρ α)
    (q : ReprocessQueue ρ κ α β) : ReprocessQueue ρ κ α β :=
  queueAttestation key (.unaggregate q.nextAttestation) queuedUnaggregate.beaconBlockRoot
    (fun q' => { q' with
      queuedUnaggregates :=
        q'.queuedUnaggregates.insert q.nextAttestation (queuedUnaggregate, key) }) q

/-- Remove an attestation from the map of its kind: its root, the work that hands it on and its
delay key, if it was there. -/
def takeQueued (q : ReprocessQueue ρ κ α β) :
    QueuedAttestationId → Option (ρ × ReadyWork ρ α β × κ) × ReprocessQueue ρ κ α β
  | .aggregate id =>
    ((q.queuedAggregates.lookup id).map fun (aggregate, delayKey) =>
        (aggregate.beaconBlockRoot, .aggregate id aggregate, delayKey),
      { q with queuedAggregates := q.queuedAggregates.erase id })
  | .unaggregate id =>
    ((q.queuedUnaggregates.lookup id).map fun (unaggregate, delayKey) =>
        (unaggregate.beaconBlockRoot, .unaggregate id unaggregate, delayKey),
      { q with queuedUnaggregates := q.queuedUnaggregates.erase id })

/-- One pass of the loop of `BlockImported`: the attestation leaves its map and its delay queue
and is sent; an id with no attestation is only logged. -/
def unqueue (q : ReprocessQueue ρ κ α β) (id : QueuedAttestationId) : ReprocessQueue ρ κ α β :=
  match q.takeQueued id with
  | (some (_, work, delayKey), q) =>
    { q with attestationsDelayQueue := q.attestationsDelayQueue.erase delayKey }.send work
  | (none, q) => q

/-- A block was imported: the attestations listed under its root are sent. -/
def blockImported (root : ρ) (q : ReprocessQueue ρ κ α β) : ReprocessQueue ρ κ α β :=
  match q.awaitingAttestationsPerRoot.lookup root with
  | some queuedIds =>
    queuedIds.foldl unqueue
      { q with awaitingAttestationsPerRoot := q.awaitingAttestationsPerRoot.erase root }
  | none => q

/-- A queued block is ready: its root leaves the set (an unknown root is only logged) and the
block is sent. -/
def readyGossipBlock (readyBlock : QueuedGossipBlock ρ β) (q : ReprocessQueue ρ κ α β) :
    ReprocessQueue ρ κ α β :=
  { q with queuedGossipBlockRoots := q.queuedGossipBlockRoots.erase readyBlock.blockRoot }.send
    (.block readyBlock)

/-- The delay of an attestation passed: it is sent and its id is swap-removed from the list of
its root, which stays in the index even when the list becomes empty. -/
def readyAttestation (queuedId : QueuedAttestationId) (q : ReprocessQueue ρ κ α β) :
    ReprocessQueue ρ κ α β :=
  match q.takeQueued queuedId with
  | (some (root, work, _), q) =>
    let q := q.send work
    match q.awaitingAttestationsPerRoot.lookup root with
    | some queuedAtts =>
      match queuedAtts.idxOf? queuedId with
      | some index =>
        { q with
          awaitingAttestationsPerRoot :=
            q.awaitingAttestationsPerRoot.insert root (swapRemove queuedAtts index) }
      | none => q
    | none => q
  | (none, q) => q

/-- `handle_message`; `key` is the key that the delay queue inserted into hands out. -/
def handleMessage (slotClock : SlotClock) (key : κ) :
    InboundEvent ρ α β → ReprocessQueue ρ κ α β → ReprocessQueue ρ κ α β
  | .msg (.earlyBlock b) => earlyBlock slotClock key b
  | .msg (.rpcBlock b) => rpcBlock key b
  | .readyRpcBlock b => readyRpcBlock b
  | .msg (.unknownBlockAggregate a) => unknownBlockAggregate key a
  | .msg (.unknownBlockUnaggregate a) => unknownBlockUnaggregate key a
  | .msg (.blockImported root) => blockImported root
  | .readyGossipBlock b => readyGossipBlock b
  | .delayQueueError _ => id
  | .readyAttestation queuedId => readyAttestation queuedId

/-- The delay queue and the key of an item that expires. -/
inductive Expiry (κ : Type) where
  | gossipBlock (key : κ)
  | rpcBlock (key : κ)
  | attestation (key : κ)

/-- `poll_next` on an expired item: taken out of its delay queue and handed on as an event;
nothing if the key holds no item. -/
def pollExpired (q : ReprocessQueue ρ κ α β) :
    Expiry κ → Option (InboundEvent ρ α β × ReprocessQueue ρ κ α β)
  | .gossipBlock key => (q.gossipBlockDelayQueue.lookup key).map fun b =>
    (.readyGossipBlock b, { q with gossipBlockDelayQueue := q.gossipBlockDelayQueue.erase key })
  | .rpcBlock key => (q.rpcBlockDelayQueue.lookup key).map fun b =>
    (.readyRpcBlock b, { q with rpcBlockDelayQueue := q.rpcBlockDelayQueue.erase key })
  | .attestation key => (q.attestationsDelayQueue.lookup key).map fun id =>
    (.readyAttestation id,
      { q with attestationsDelayQueue := q.attestationsDelayQueue.erase key })

/-- The key handed to a message is one that the delay queue it inserts into does not hold. -/
def KeyFresh (q : ReprocessQueue ρ κ α β) (key : κ) : ReprocessQueueMessage ρ α β → Prop
  | .earlyBlock _ => key ∉ q.gossipBlockDelayQueue
  | .rpcBlock _ => key ∉ q.rpcBlockDelayQueue
  | .unknownBlockAggregate _ | .unknownBlockUnaggregate _ => key ∉ q.attestationsDelayQueue
  | .blockImported _ => True

end ReprocessQueue

open ReprocessQueue in
/-- The queues reachable from a new one through any interleaving of messages, expiries in any
order and errors of the delay queues. -/
inductive Reachable [DecidableEq ρ] [DecidableEq κ] : ReprocessQueue ρ κ α β → Prop where
  | new : Reachable new
  | msg {q : ReprocessQueue ρ κ α β} (slotClock : SlotClock) (key : κ)
      (m : ReprocessQueueMessage ρ α β) :
      q.KeyFresh key m → Reachable q → Reachable (handleMessage slotClock key (.msg m) q)
  | expire {q q' : ReprocessQueue ρ κ α β} {ev : InboundEvent ρ α β} (slotClock : SlotClock)
      (key : κ) (e : Expiry κ) :
      q.pollExpired e = some (ev, q') → Reachable q → Reachable (handleMessage slotClock key ev q')
  | delayQueueError {q : ReprocessQueue ρ κ α β} (slotClock : SlotClock) (key : κ)
      (queueName : String) :
      Reachable q → Reachable (handleMessage slotClock key (.delayQueueError queueName) q)

end Lighthouse.BeaconProcessor
