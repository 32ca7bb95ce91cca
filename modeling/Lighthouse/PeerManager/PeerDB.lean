import Lighthouse.Foundations.Tally
import Mathlib.Data.List.MinMax

/-! The peer database of the peer manager
(beacon_node/lighthouse_network/src/peer_manager/peerdb.rs): the table of known peers and the
counters kept beside it, the number of disconnected peers and the banned peers in total and per
IP address. update_connection_state keeps the counters by hand in each arm of its match on the
old status and the new one; shrink_to_fit trusts them to bound the table.

A peer id, an IP address, an ENR and a subnet are type parameters, a socket address is an IP
address with a port and a multiaddr the list of its protocols; `Instant::now()` is the `now`
of a call. A peer's score enters only through its state: the one action taken on it here,
PeerAction::Fatal, sets an untrusted peer's score to the minimum, whose state is Banned. Logging
is left out: no arm reads what it logs. -/
namespace Lighthouse.PeerManager

variable {π ι ε ν : Type}

inductive PeerConnectionStatus where
  | connected (nIn nOut : Nat)
  /-- After the disconnection the peer is banned if `toBan`. -/
  | disconnecting (toBan : Bool)
  | disconnected (since : Nat)
  | banned (since : Nat)
  | dialing (since : Nat)
  | unknown
deriving DecidableEq, Repr

inductive ConnectionDirection where
  | incoming
  | outgoing
deriving DecidableEq, Repr

inductive ScoreState where
  | healthy
  | disconnected
  | banned
deriving DecidableEq, Repr

/-- A protocol of a multiaddr; `Ip4` and `Ip6` are both an IP address here. -/
inductive Protocol (ι : Type) where
  | ip (addr : ι)
  | tcp (port : Nat)
  | other
deriving DecidableEq, Repr

structure PeerInfo (ι ε ν : Type) where
  score : ScoreState
  connectionStatus : PeerConnectionStatus
  /-- The set of socket addresses, as (IP, port), the peer has been seen at. -/
  seenAddresses : List (ι × Nat)
  subnets : List ν
  isTrusted : Bool
  connectionDirection : Option ConnectionDirection
  enr : Option ε

instance : Inhabited (PeerInfo ι ε ν) :=
  ⟨{ score := .healthy, connectionStatus := .unknown, seenAddresses := [], subnets := [],
     isTrusted := false, connectionDirection := none, enr := none }⟩

namespace PeerInfo

def isBanned (info : PeerInfo ι ε ν) : Bool :=
  match info.connectionStatus with
  | .banned _ => true
  | _ => false

def isDisconnected (info : PeerInfo ι ε ν) : Bool :=
  match info.connectionStatus with
  | .disconnected _ => true
  | _ => false

variable [DecidableEq ι]

def trustedPeerInfo : PeerInfo ι ε ν := { (default : PeerInfo ι ε ν) with isTrusted := true }

/-- The IP addresses of the seen socket addresses, one for each address. -/
def seenIpAddresses (info : PeerInfo ι ε ν) : List ι := info.seenAddresses.map Prod.fst

def applyPeerActionFatal (info : PeerInfo ι ε ν) : PeerInfo ι ε ν :=
  if info.isTrusted then info else { info with score := .banned }

def setEnr (info : PeerInfo ι ε ν) : Option ε → PeerInfo ι ε ν
  | some enr => { info with enr := some enr }
  | none => info

/-- Modifies the status to Dialing; an error if the current state is unexpected. -/
def setDialingPeer (info : PeerInfo ι ε ν) (now : Nat) : Except String (PeerInfo ι ε ν) :=
  match info.connectionStatus with
  | .connected .. => throw "Dialing connected peer"
  | .dialing _ => throw "Dialing an already dialing peer"
  | .disconnecting _ => throw "Dialing a disconnecting peer"
  | .disconnected _ | .banned _ | .unknown => pure { info with connectionStatus := .dialing now }

def insertSeenAddress (info : PeerInfo ι ε ν) : Option (ι × Nat) → PeerInfo ι ε ν
  | some socketAddr => { info with seenAddresses := info.seenAddresses.insert socketAddr }
  | none => info

/-- One more ingoing connection; the `u8` count wraps as in a release build. -/
def connectIngoing (info : PeerInfo ι ε ν) (seenAddress : Option (ι × Nat)) : PeerInfo ι ε ν :=
  insertSeenAddress (match info.connectionStatus with
    | .connected nIn nOut => { info with connectionStatus := .connected ((nIn + 1) % 2 ^ 8) nOut }
    | _ => { info with
        connectionStatus := .connected 1 0, connectionDirection := some .incoming }) seenAddress

def connectOutgoing (info : PeerInfo ι ε ν) (seenAddress : Option (ι × Nat)) : PeerInfo ι ε ν :=
  insertSeenAddress (match info.connectionStatus with
    | .connected nIn nOut => { info with connectionStatus := .connected nIn ((nOut + 1) % 2 ^ 8) }
    | _ => { info with
        connectionStatus := .connected 0 1, connectionDirection := some .outgoing }) seenAddress

end PeerInfo

/-- The IP address and TCP port of a multiaddr, the last of each, as its protocols are folded. -/
def ipAndPort (seenAddress : List (Protocol ι)) : Option ι × Option Nat :=
  seenAddress.foldl (fun (foundIp, foundPort) protocol =>
    match protocol with
    | .ip addr => (some addr, foundPort)
    | .tcp port => (foundIp, some port)
    | .other => (foundIp, foundPort)) (none, none)

/-- The socket address of a connection; an IP address without a TCP port gives none (and a
critical log). -/
def socketAddrOf (seenAddress : List (Protocol ι)) : Option (ι × Nat) :=
  match ipAndPort seenAddress with
  | (some ip, some port) => some (ip, port)
  | _ => none

def bannedPeersPerIpThreshold : Nat := 5

def maxBannedPeers : Nat := 1000

def maxDcPeers : Nat := 500

structure BannedPeersCount (ι : Type) where
  bannedPeers : Nat
  /-- The number of banned peers with each IP address. -/
  bannedPeersPerIp : AList fun _ : ι => Nat

instance : Inhabited (BannedPeersCount ι) := ⟨⟨0, ∅⟩⟩

namespace BannedPeersCount

variable [DecidableEq ι]

/-- The count at an IP address, 0 where there is none. -/
def perIp (c : BannedPeersCount ι) (ip : ι) : Nat := (c.bannedPeersPerIp.lookup ip).getD 0

def removeBannedPeer (c : BannedPeersCount ι) (ipAddresses : List ι) : BannedPeersCount ι :=
  { bannedPeers := c.bannedPeers - 1
    bannedPeersPerIp := ipAddresses.foldl (fun m address =>
      match m.lookup address with
      | some count => m.insert address (count - 1)
      | none => m) c.bannedPeersPerIp }

/-- A banned peer more; `saturating_add` on a `usize` never saturates for a table in memory. -/
def addBannedPeer (c : BannedPeersCount ι) (ipAddresses : List ι) : BannedPeersCount ι :=
  { bannedPeers := c.bannedPeers + 1
    bannedPeersPerIp := ipAddresses.foldl (fun m address =>
      m.insert address ((m.lookup address).getD 0 + 1)) c.bannedPeersPerIp }

/-- An IP is banned when more than the threshold of banned peers have it; `banned_ips()` is the
set of those. -/
def ipIsBanned (c : BannedPeersCount ι) (ip : ι) : Bool :=
  match c.bannedPeersPerIp.lookup ip with
  | some count => bannedPeersPerIpThreshold < count
  | none => false

end BannedPeersCount

inductive NewConnectionState (ι ε : Type) where
  | connected (enr : Option ε) (seenAddress : List (Protocol ι)) (direction : ConnectionDirection)
  | disconnecting (toBan : Bool)
  | dialing (enr : Option ε)
  | disconnected
  | banned
  | unbanned

inductive BanOperation (ι : Type) where
  | disconnectThePeer
  | readyToBan (bannedIps : List ι)
  | peerDisconnecting
deriving DecidableEq, Repr

/-- What an arm of update_connection_state leaves: the peer's info, the two counters, and the
ban operation returned. -/
structure Transition (ι ε ν : Type) where
  info : PeerInfo ι ε ν
  disconnectedPeers : Nat
  bannedPeersCount : BannedPeersCount ι
  banOperation : Option (BanOperation ι)

namespace Transition

variable [DecidableEq ι]

/-- The seen IP addresses of a peer that the counts ban, sent with ReadyToBan. -/
def readyToBan (info : PeerInfo ι ε ν) (c : BannedPeersCount ι) : Option (BanOperation ι) :=
  some (.readyToBan (info.seenIpAddresses.filter c.ipIsBanned))

def toConnected (info : PeerInfo ι ε ν) (d : Nat) (c : BannedPeersCount ι) (enr : Option ε)
    (seenAddress : List (Protocol ι)) (direction : ConnectionDirection) : Transition ι ε ν :=
  let currentState := info.connectionStatus
  let info := info.setEnr enr
  let (d, c) := match currentState with
    | .disconnected _ => (d - 1, c)
    | .banned _ => (d, c.removeBannedPeer info.seenIpAddresses)
    | _ => (d, c)
  let socketAddr := socketAddrOf seenAddress
  let info := match direction with
    | .incoming => info.connectIngoing socketAddr
    | .outgoing => info.connectOutgoing socketAddr
  ⟨info, d, c, none⟩

def toDialing (info : PeerInfo ι ε ν) (d : Nat) (c : BannedPeersCount ι) (enr : Option ε)
    (now : Nat) : Transition ι ε ν :=
  let oldState := info.connectionStatus
  let (d, c) := match oldState with
    | .banned _ => (d, c.removeBannedPeer info.seenIpAddresses)
    | .disconnected _ => (d - 1, c)
    | _ => (d, c)
  let info := info.setEnr enr
  -- a failure of set_dialing_peer is only logged
  let info := match info.setDialingPeer now with
    | .ok info => info
    | .error _ => info
  ⟨info, d, c, none⟩

def toDisconnected (info : PeerInfo ι ε ν) (d : Nat) (c : BannedPeersCount ι) (now : Nat) :
    Transition ι ε ν :=
  let oldState := info.connectionStatus
  -- remove all subnets for disconnected peers
  let info := { info with subnets := [] }
  match oldState with
  | .banned _ | .disconnected _ => ⟨info, d, c, none⟩
  | .disconnecting true =>
    let info := { info with connectionStatus := .banned now }
    let c := c.addBannedPeer info.seenIpAddresses
    ⟨info, d, c, readyToBan info c⟩
  | .disconnecting false | .unknown | .connected .. | .dialing _ =>
    ⟨{ info with connectionStatus := .disconnected now }, d + 1, c, none⟩

/-- The Disconnecting arms: from Banned the status is overwritten and the banned counts are left
as they were. -/
def toDisconnecting (info : PeerInfo ι ε ν) (d : Nat) (c : BannedPeersCount ι) (toBan : Bool) :
    Transition ι ε ν :=
  match info.connectionStatus with
  | .banned _ => ⟨{ info with connectionStatus := .disconnecting toBan }, d, c, none⟩
  | .disconnected _ => ⟨{ info with connectionStatus := .disconnecting toBan }, d - 1, c, none⟩
  | _ => ⟨{ info with connectionStatus := .disconnecting toBan }, d, c, none⟩

def toBanned (info : PeerInfo ι ε ν) (d : Nat) (c : BannedPeersCount ι) (now : Nat) :
    Transition ι ε ν :=
  match info.connectionStatus with
  | .disconnected _ =>
    let info := { info with connectionStatus := .banned now }
    let c := c.addBannedPeer info.seenIpAddresses
    ⟨info, d - 1, c, readyToBan info c⟩
  | .disconnecting _ =>
    ⟨{ info with connectionStatus := .disconnecting true }, d, c, some .peerDisconnecting⟩
  | .banned _ => ⟨info, d, c, readyToBan info c⟩
  | .connected .. | .dialing _ =>
    ⟨{ info with connectionStatus := .disconnecting true }, d, c, some .disconnectThePeer⟩
  | .unknown =>
    let c := c.addBannedPeer info.seenIpAddresses
    let info := { info with connectionStatus := .banned now }
    ⟨info, d, c, readyToBan info c⟩

def toUnbanned (info : PeerInfo ι ε ν) (d : Nat) (c : BannedPeersCount ι) : Transition ι ε ν :=
  match info.connectionStatus with
  | .banned since =>
    ⟨{ info with connectionStatus := .disconnected since }, d + 1,
      c.removeBannedPeer info.seenIpAddresses, none⟩
  | _ => ⟨info, d, c, none⟩

end Transition

structure PeerDB (π ι ε ν : Type) where
  peers : AList fun _ : π => PeerInfo ι ε ν
  disconnectedPeers : Nat
  bannedPeersCount : BannedPeersCount ι

namespace PeerDB

variable [DecidableEq π] [DecidableEq ι]

/-- The database with the trusted peers in it. -/
def new (trustedPeers : List π) : PeerDB π ι ε ν :=
  { peers := trustedPeers.foldl (fun m peerId => m.insert peerId PeerInfo.trustedPeerInfo) ∅
    disconnectedPeers := 0, bannedPeersCount := default }

/-- The info the entry API yields: the stored one, or the default inserted for a new peer. -/
def entry (db : PeerDB π ι ε ν) (peerId : π) : PeerInfo ι ε ν := (db.peers.lookup peerId).getD default

/-- Ban the peer if the score is not already low enough. -/
def scoreForBan (info : PeerInfo ι ε ν) : PeerInfo ι ε ν :=
  if info.score = .banned then info else info.applyPeerActionFatal

def transition (info : PeerInfo ι ε ν) (d : Nat) (c : BannedPeersCount ι) (now : Nat) :
    NewConnectionState ι ε → Transition ι ε ν
  | .connected enr seenAddress direction => .toConnected info d c enr seenAddress direction
  | .dialing enr => .toDialing info d c enr now
  | .disconnected => .toDisconnected info d c now
  | .disconnecting toBan => .toDisconnecting info d c toBan
  | .banned => .toBanned (scoreForBan info) d c now
  | .unbanned => .toUnbanned info d c

def updateConnectionState (db : PeerDB π ι ε ν) (peerId : π) (newState : NewConnectionState ι ε)
    (now : Nat) : PeerDB π ι ε ν × Option (BanOperation ι) :=
  let t := transition (db.entry peerId) db.disconnectedPeers db.bannedPeersCount now newState
  ({ peers := db.peers.insert peerId t.info, disconnectedPeers := t.disconnectedPeers,
     bannedPeersCount := t.bannedPeersCount }, t.banOperation)

/-- The banned peer with the earliest `since`, the first such in the table's order. -/
def oldestBanned (db : PeerDB π ι ε ν) : Option (π × PeerInfo ι ε ν × Nat) :=
  (db.peers.entries.filterMap fun e => match e.2.connectionStatus with
    | .banned since => some (e.1, e.2, since)
    | _ => none).argmin fun x => x.2.2

def oldestDisconnected (db : PeerDB π ι ε ν) : Option π :=
  ((db.peers.entries.filterMap fun e => match e.2.connectionStatus with
    | .disconnected since => some (e.1, since)
    | _ => none).argmin fun x => x.2).map Prod.fst

/-- Remove excess banned peers, returning each with its IP addresses that are no longer banned. -/
def removeExcessBanned (db : PeerDB π ι ε ν) : PeerDB π ι ε ν × List (π × List ι) :=
  if maxBannedPeers < db.bannedPeersCount.bannedPeers then
    match oldestBanned db with
    | some (id, info, _) =>
      let c := db.bannedPeersCount.removeBannedPeer info.seenIpAddresses
      let unbannedIps := info.seenIpAddresses.filter fun ip => !c.ipIsBanned ip
      let r := removeExcessBanned
        { db with peers := db.peers.erase id, bannedPeersCount := c }
      (r.1, (id, unbannedIps) :: r.2)
    | none =>
      -- a coding error: reset the counts, which also ends the loop
      removeExcessBanned { db with bannedPeersCount := default }
  else (db, [])
termination_by db.bannedPeersCount.bannedPeers
decreasing_by
  · simp only [BannedPeersCount.removeBannedPeer]
    omega
  · show 0 < db.bannedPeersCount.bannedPeers
    omega

/-- Remove excess disconnected peers; the count goes down also when none is found. -/
def removeExcessDisconnected (db : PeerDB π ι ε ν) : PeerDB π ι ε ν :=
  if maxDcPeers < db.disconnectedPeers then
    let peers := match oldestDisconnected db with
      | some toDrop => db.peers.erase toDrop
      | none => db.peers
    removeExcessDisconnected { db with peers, disconnectedPeers := db.disconnectedPeers - 1 }
  else db
termination_by db.disconnectedPeers
decreasing_by omega

/-- Removes banned and disconnected peers from the DB if a limit is reached; the peers unbanned
are returned to be reported to libp2p. -/
def shrinkToFit (db : PeerDB π ι ε ν) : PeerDB π ι ε ν × List (π × List ι) :=
  let (db, unbannedPeers) := removeExcessBanned db
  (removeExcessDisconnected db, unbannedPeers)

/-! The peer manager's entry points. -/

def dialingPeer (db : PeerDB π ι ε ν) (peerId : π) (enr : Option ε) (now : Nat) :
    PeerDB π ι ε ν :=
  (db.updateConnectionState peerId (.dialing enr) now).1

def connectIngoing (db : PeerDB π ι ε ν) (peerId : π) (seenAddress : List (Protocol ι))
    (enr : Option ε) (now : Nat) : PeerDB π ι ε ν :=
  (db.updateConnectionState peerId (.connected enr seenAddress .incoming) now).1

def connectOutgoing (db : PeerDB π ι ε ν) (peerId : π) (seenAddress : List (Protocol ι))
    (enr : Option ε) (now : Nat) : PeerDB π ι ε ν :=
  (db.updateConnectionState peerId (.connected enr seenAddress .outgoing) now).1

/-- A peer can be banned for disconnecting, so another peer can be purged. -/
def injectDisconnect (db : PeerDB π ι ε ν) (peerId : π) (now : Nat) :
    (PeerDB π ι ε ν × Option (BanOperation ι)) × List (π × List ι) :=
  let (db, maybeBanOp) := db.updateConnectionState peerId .disconnected now
  let (db, purgedPeers) := db.shrinkToFit
  ((db, maybeBanOp), purgedPeers)

def notifyDisconnecting (db : PeerDB π ι ε ν) (peerId : π) (toBan : Bool) (now : Nat) :
    PeerDB π ι ε ν :=
  (db.updateConnectionState peerId (.disconnecting toBan) now).1

end PeerDB

/-- The calls that change a peer's connection state: the peer manager's dial, connect,
disconnect and disconnecting entry points, and the updates to Banned and Unbanned that a score
transition makes. -/
inductive Call (π ι ε : Type) where
  | dialingPeer (peerId : π) (enr : Option ε)
  | connectIngoing (peerId : π) (seenAddress : List (Protocol ι)) (enr : Option ε)
  | connectOutgoing (peerId : π) (seenAddress : List (Protocol ι)) (enr : Option ε)
  | injectDisconnect (peerId : π)
  | notifyDisconnecting (peerId : π) (toBan : Bool)
  | ban (peerId : π)
  | unban (peerId : π)

namespace Call

variable [DecidableEq π] [DecidableEq ι]

def run (now : Nat) (db : PeerDB π ι ε ν) : Call π ι ε → PeerDB π ι ε ν
  | .dialingPeer peerId enr => db.dialingPeer peerId enr now
  | .connectIngoing peerId seenAddress enr => db.connectIngoing peerId seenAddress enr now
  | .connectOutgoing peerId seenAddress enr => db.connectOutgoing peerId seenAddress enr now
  | .injectDisconnect peerId => (db.injectDisconnect peerId now).1.1
  | .notifyDisconnecting peerId toBan => db.notifyDisconnecting peerId toBan now
  | .ban peerId => (db.updateConnectionState peerId .banned now).1
  | .unban peerId => (db.updateConnectionState peerId .unbanned now).1

end Call

/-- The databases a run of calls reaches from PeerDB::new, each call allowed by `G` in the
database it is made on. -/
inductive Reaches [DecidableEq π] [DecidableEq ι] (G : PeerDB π ι ε ν → Call π ι ε → Prop) :
    PeerDB π ι ε ν → Prop
  | new (trustedPeers : List π) : Reaches G (PeerDB.new trustedPeers)
  | step {db : PeerDB π ι ε ν} (c : Call π ι ε) (now : Nat) :
      G db c → Reaches G db → Reaches G (c.run now db)

end Lighthouse.PeerManager
