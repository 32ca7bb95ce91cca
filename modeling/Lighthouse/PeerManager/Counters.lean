import Lighthouse.PeerManager.PeerDB

/-! The counters of the peer database against its table.

Each counter is meant to be a sum over the table (`Tally.tally`): the number of Disconnected
peers, the number of Banned peers, and per IP address the seen socket addresses at that IP of
the Banned peers (a peer seen at one IP on two ports counts twice, since `seen_ip_addresses`
yields an IP for each socket address). An arm of update_connection_state changes one peer; it
keeps a counter when it moves the counter by that peer's change of weight (`Follows`).

Every arm does so for the disconnected count. For the banned counts every arm does too, except
Disconnecting from Banned, which changes the status and leaves the counts as they were: after it
the counts only bound the table from above (`Covers`). On runs that never disconnect a Banned
peer the counters are exact (`Exact`). -/
namespace Lighthouse.PeerManager
open Tally

variable {π ι ε ν : Type}

namespace PeerInfo

def disconnectedWeight (info : PeerInfo ι ε ν) : Nat := if info.isDisconnected then 1 else 0

def bannedWeight (info : PeerInfo ι ε ν) : Nat := if info.isBanned then 1 else 0

@[simp] theorem disconnectedWeight_default : disconnectedWeight (default : PeerInfo ι ε ν) = 0 :=
  rfl

@[simp] theorem bannedWeight_default : bannedWeight (default : PeerInfo ι ε ν) = 0 := rfl

variable [DecidableEq ι]

/-- The seen socket addresses at `ip` of a Banned peer. -/
def ipWeight (ip : ι) (info : PeerInfo ι ε ν) : Nat :=
  if info.isBanned then info.seenIpAddresses.count ip else 0

@[simp] theorem ipWeight_default (ip : ι) : ipWeight ip (default : PeerInfo ι ε ν) = 0 := rfl

end PeerInfo

namespace BannedPeersCount

variable [DecidableEq ι]

theorem perIp_foldl_add (ips : List ι) (m : AList fun _ : ι => Nat) (ip : ι) :
    ((ips.foldl (fun m address => m.insert address ((m.lookup address).getD 0 + 1)) m).lookup
      ip).getD 0 = (m.lookup ip).getD 0 + ips.count ip := by
  induction ips generalizing m with
  | nil => rfl
  | cons a rest ih =>
    rw [List.foldl_cons, ih, List.count_cons]
    by_cases ha : a = ip
    · subst ha
      simp [AList.lookup_insert]
      omega
    · simp [AList.lookup_insert_ne (Ne.symm ha), ha]

theorem perIp_foldl_remove (ips : List ι) (m : AList fun _ : ι => Nat) (ip : ι) :
    ((ips.foldl (fun m address => match m.lookup address with
      | some count => m.insert address (count - 1)
      | none => m) m).lookup ip).getD 0 = (m.lookup ip).getD 0 - ips.count ip := by
  induction ips generalizing m with
  | nil => rfl
  | cons a rest ih =>
    rw [List.foldl_cons, ih, List.count_cons]
    by_cases ha : a = ip
    · subst ha
      cases hm : m.lookup a with
      | none => simp [hm]
      | some count =>
        simp only [AList.lookup_insert, Option.getD_some, beq_self_eq_true, if_true]
        omega
    · cases hm : m.lookup a with
      | none => simp [ha]
      | some count => simp [AList.lookup_insert_ne (Ne.symm ha), ha]

@[simp] theorem perIp_addBannedPeer (c : BannedPeersCount ι) (ips : List ι) (ip : ι) :
    (c.addBannedPeer ips).perIp ip = c.perIp ip + ips.count ip :=
  perIp_foldl_add ips c.bannedPeersPerIp ip

@[simp] theorem perIp_removeBannedPeer (c : BannedPeersCount ι) (ips : List ι) (ip : ι) :
    (c.removeBannedPeer ips).perIp ip = c.perIp ip - ips.count ip :=
  perIp_foldl_remove ips c.bannedPeersPerIp ip

@[simp] theorem bannedPeers_addBannedPeer (c : BannedPeersCount ι) (ips : List ι) :
    (c.addBannedPeer ips).bannedPeers = c.bannedPeers + 1 := rfl

@[simp] theorem bannedPeers_removeBannedPeer (c : BannedPeersCount ι) (ips : List ι) :
    (c.removeBannedPeer ips).bannedPeers = c.bannedPeers - 1 := rfl

@[simp] theorem perIp_default (ip : ι) : (default : BannedPeersCount ι).perIp ip = 0 := rfl

end BannedPeersCount

namespace PeerInfo

variable [DecidableEq ι]

@[simp] theorem isBanned_connectIngoing (info : PeerInfo ι ε ν) (s : Option (ι × Nat)) :
    (info.connectIngoing s).isBanned = false := by
  unfold connectIngoing insertSeenAddress
  cases info.connectionStatus <;> cases s <;> rfl

@[simp] theorem isDisconnected_connectIngoing (info : PeerInfo ι ε ν) (s : Option (ι × Nat)) :
    (info.connectIngoing s).isDisconnected = false := by
  unfold connectIngoing insertSeenAddress
  cases info.connectionStatus <;> cases s <;> rfl

@[simp] theorem isBanned_connectOutgoing (info : PeerInfo ι ε ν) (s : Option (ι × Nat)) :
    (info.connectOutgoing s).isBanned = false := by
  unfold connectOutgoing insertSeenAddress
  cases info.connectionStatus <;> cases s <;> rfl

@[simp] theorem isDisconnected_connectOutgoing (info : PeerInfo ι ε ν) (s : Option (ι × Nat)) :
    (info.connectOutgoing s).isDisconnected = false := by
  unfold connectOutgoing insertSeenAddress
  cases info.connectionStatus <;> cases s <;> rfl

theorem isBanned_of_isDisconnected {info : PeerInfo ι ε ν} (h : info.isDisconnected = true) :
    info.isBanned = false := by
  unfold isDisconnected at h
  unfold isBanned
  split at h <;> simp_all

theorem isDisconnected_of_isBanned {info : PeerInfo ι ε ν} (h : info.isBanned = true) :
    info.isDisconnected = false := by
  unfold isBanned at h
  unfold isDisconnected
  split at h <;> simp_all

theorem exists_banned_of_isBanned {info : PeerInfo ι ε ν} (h : info.isBanned = true) :
    ∃ since, info.connectionStatus = .banned since := by
  unfold isBanned at h
  split at h <;> simp_all

@[simp] theorem connectionStatus_setEnr (info : PeerInfo ι ε ν) (enr : Option ε) :
    (info.setEnr enr).connectionStatus = info.connectionStatus := by
  cases enr <;> rfl

@[simp] theorem seenIpAddresses_setEnr (info : PeerInfo ι ε ν) (enr : Option ε) :
    (info.setEnr enr).seenIpAddresses = info.seenIpAddresses := by
  cases enr <;> rfl

end PeerInfo

namespace PeerDB

@[simp] theorem connectionStatus_scoreForBan (info : PeerInfo ι ε ν) :
    (scoreForBan info).connectionStatus = info.connectionStatus := by
  unfold scoreForBan PeerInfo.applyPeerActionFatal
  split_ifs <;> rfl

theorem seenIpAddresses_scoreForBan (info : PeerInfo ι ε ν) :
    (scoreForBan info).seenIpAddresses = info.seenIpAddresses := by
  unfold scoreForBan PeerInfo.applyPeerActionFatal
  split_ifs <;> rfl

end PeerDB

/-- A counter moved from `n` to `n'` by one peer's change of weight from `w i₀` to `w i₁`,
wherever it covered the old weight. -/
def Follows (w : PeerInfo ι ε ν → Nat) (i₀ i₁ : PeerInfo ι ε ν) (n n' : Nat) : Prop :=
  w i₀ ≤ n → n' + w i₀ = n + w i₁

/-- A counter moved down by at most one peer's fall of weight. -/
def Bounds (w : PeerInfo ι ε ν → Nat) (i₀ i₁ : PeerInfo ι ε ν) (n n' : Nat) : Prop :=
  w i₀ ≤ n → n + w i₁ ≤ n' + w i₀

theorem Follows.bounds {w : PeerInfo ι ε ν → Nat} {i₀ i₁ : PeerInfo ι ε ν} {n n' : Nat}
    (h : Follows w i₀ i₁ n n') : Bounds w i₀ i₁ n n' :=
  fun h₀ => (h h₀).symm.le

namespace Transition

variable [DecidableEq ι]

/-- The change `t` an arm makes from a peer's info `i₀` and the counters `d`, `c` keeps every
counter in step with the peer. -/
structure Tracks (i₀ : PeerInfo ι ε ν) (d : Nat) (c : BannedPeersCount ι) (t : Transition ι ε ν) :
    Prop where
  disconnected : Follows PeerInfo.disconnectedWeight i₀ t.info d t.disconnectedPeers
  banned : Follows PeerInfo.bannedWeight i₀ t.info c.bannedPeers t.bannedPeersCount.bannedPeers
  perIp : ∀ ip,
    Follows (PeerInfo.ipWeight ip) i₀ t.info (c.perIp ip) (t.bannedPeersCount.perIp ip)

/-- The disconnected count in step, the banned counts not fallen below the table. -/
structure Bounded (i₀ : PeerInfo ι ε ν) (d : Nat) (c : BannedPeersCount ι)
    (t : Transition ι ε ν) : Prop where
  disconnected : Follows PeerInfo.disconnectedWeight i₀ t.info d t.disconnectedPeers
  banned : Bounds PeerInfo.bannedWeight i₀ t.info c.bannedPeers t.bannedPeersCount.bannedPeers
  perIp : ∀ ip,
    Bounds (PeerInfo.ipWeight ip) i₀ t.info (c.perIp ip) (t.bannedPeersCount.perIp ip)

theorem Tracks.bounded {i₀ : PeerInfo ι ε ν} {d : Nat} {c : BannedPeersCount ι}
    {t : Transition ι ε ν} (h : Tracks i₀ d c t) : Bounded i₀ d c t :=
  ⟨h.disconnected, h.banned.bounds, fun ip => (h.perIp ip).bounds⟩

/-! The ways an arm changes the counters, each with the change of the peer it follows. -/

section Patterns
variable {i₀ i₁ : PeerInfo ι ε ν} {d : Nat} {c : BannedPeersCount ι} (op : Option (BanOperation ι))

theorem Tracks.same (hd : i₁.isDisconnected = i₀.isDisconnected) (hb : i₁.isBanned = i₀.isBanned)
    (hips : i₀.isBanned = true → i₁.seenIpAddresses = i₀.seenIpAddresses) :
    Tracks i₀ d c ⟨i₁, d, c, op⟩ := by
  refine ⟨fun _ => ?_, fun _ => ?_, fun ip _ => ?_⟩
  · simp [PeerInfo.disconnectedWeight, hd]
  · simp [PeerInfo.bannedWeight, hb]
  · cases h₀ : i₀.isBanned
    · simp [PeerInfo.ipWeight, hb, h₀]
    · simp [PeerInfo.ipWeight, hb, h₀, hips h₀]

/-- Neither before nor after is the peer Banned or Disconnected. -/
theorem Tracks.neither (hd₀ : i₀.isDisconnected = false) (hb₀ : i₀.isBanned = false)
    (hd : i₁.isDisconnected = false) (hb : i₁.isBanned = false) : Tracks i₀ d c ⟨i₁, d, c, op⟩ :=
  Tracks.same op (hd.trans hd₀.symm) (hb.trans hb₀.symm) (fun h => absurd (hb₀.symm.trans h) (by simp))

theorem Tracks.leaveDisconnected (h₀ : i₀.isDisconnected = true) (hd : i₁.isDisconnected = false)
    (hb : i₁.isBanned = false) : Tracks i₀ d c ⟨i₁, d - 1, c, op⟩ := by
  have hb₀ : i₀.isBanned = false := PeerInfo.isBanned_of_isDisconnected h₀
  refine ⟨fun h => ?_, fun _ => ?_, fun ip _ => ?_⟩
  · simp only [PeerInfo.disconnectedWeight, h₀, hd, if_true, Bool.false_eq_true, if_false] at h ⊢
    omega
  · simp [PeerInfo.bannedWeight, hb, hb₀]
  · simp [PeerInfo.ipWeight, hb, hb₀]

theorem Tracks.enterDisconnected (hd₀ : i₀.isDisconnected = false) (hb₀ : i₀.isBanned = false)
    (h₁ : i₁.isDisconnected = true) (hb : i₁.isBanned = false) :
    Tracks i₀ d c ⟨i₁, d + 1, c, op⟩ := by
  refine ⟨fun _ => ?_, fun _ => ?_, fun ip _ => ?_⟩
  · simp [PeerInfo.disconnectedWeight, hd₀, h₁]
  · simp [PeerInfo.bannedWeight, hb, hb₀]
  · simp [PeerInfo.ipWeight, hb, hb₀]

theorem Tracks.leaveBanned (h₀ : i₀.isBanned = true) (hd₀ : i₀.isDisconnected = false)
    (hd : i₁.isDisconnected = false) (hb : i₁.isBanned = false) :
    Tracks i₀ d c ⟨i₁, d, c.removeBannedPeer i₀.seenIpAddresses, op⟩ := by
  refine ⟨fun _ => ?_, fun h => ?_, fun ip h => ?_⟩
  · simp [PeerInfo.disconnectedWeight, hd₀, hd]
  · simp only [PeerInfo.bannedWeight, h₀, hb, if_true, Bool.false_eq_true, if_false] at h ⊢
    simp only [BannedPeersCount.bannedPeers_removeBannedPeer]
    omega
  · simp only [PeerInfo.ipWeight, h₀, hb, if_true, Bool.false_eq_true, if_false] at h ⊢
    simp only [BannedPeersCount.perIp_removeBannedPeer]
    omega

theorem Tracks.enterBanned (hd₀ : i₀.isDisconnected = false) (hb₀ : i₀.isBanned = false)
    (hd : i₁.isDisconnected = false) (h₁ : i₁.isBanned = true) :
    Tracks i₀ d c ⟨i₁, d, c.addBannedPeer i₁.seenIpAddresses, op⟩ := by
  refine ⟨fun _ => ?_, fun _ => ?_, fun ip _ => ?_⟩
  · simp [PeerInfo.disconnectedWeight, hd₀, hd]
  · simp [PeerInfo.bannedWeight, hb₀, h₁]
  · simp [PeerInfo.ipWeight, hb₀, h₁]

theorem Tracks.disconnectedToBanned (h₀ : i₀.isDisconnected = true) (hd : i₁.isDisconnected = false)
    (h₁ : i₁.isBanned = true) :
    Tracks i₀ d c ⟨i₁, d - 1, c.addBannedPeer i₁.seenIpAddresses, op⟩ := by
  have hb₀ : i₀.isBanned = false := PeerInfo.isBanned_of_isDisconnected h₀
  refine ⟨fun h => ?_, fun _ => ?_, fun ip _ => ?_⟩
  · simp only [PeerInfo.disconnectedWeight, h₀, hd, if_true, Bool.false_eq_true, if_false] at h ⊢
    omega
  · simp [PeerInfo.bannedWeight, hb₀, h₁]
  · simp [PeerInfo.ipWeight, hb₀, h₁]

theorem Tracks.bannedToDisconnected (h₀ : i₀.isBanned = true) (h₁ : i₁.isDisconnected = true) :
    Tracks i₀ d c ⟨i₁, d + 1, c.removeBannedPeer i₀.seenIpAddresses, op⟩ := by
  have hd₀ : i₀.isDisconnected = false := PeerInfo.isDisconnected_of_isBanned h₀
  have hb : i₁.isBanned = false := PeerInfo.isBanned_of_isDisconnected h₁
  refine ⟨fun _ => ?_, fun h => ?_, fun ip h => ?_⟩
  · simp [PeerInfo.disconnectedWeight, hd₀, h₁]
  · simp only [PeerInfo.bannedWeight, h₀, hb, if_true, Bool.false_eq_true, if_false] at h ⊢
    simp only [BannedPeersCount.bannedPeers_removeBannedPeer]
    omega
  · simp only [PeerInfo.ipWeight, h₀, hb, if_true, Bool.false_eq_true, if_false] at h ⊢
    simp only [BannedPeersCount.perIp_removeBannedPeer]
    omega

/-- A Banned peer that leaves Banned with the banned counts as they were: they no longer follow
the table, but they still bound it. -/
theorem Bounded.leaveBannedUncounted (h₀ : i₀.isBanned = true) (hd : i₁.isDisconnected = false)
    (hb : i₁.isBanned = false) : Bounded i₀ d c ⟨i₁, d, c, op⟩ := by
  have hd₀ : i₀.isDisconnected = false := PeerInfo.isDisconnected_of_isBanned h₀
  refine ⟨fun _ => ?_, fun _ => ?_, fun ip _ => ?_⟩
  · simp [PeerInfo.disconnectedWeight, hd₀, hd]
  · simp [PeerInfo.bannedWeight, h₀, hb]
  · simp [PeerInfo.ipWeight, h₀, hb]

end Patterns

/-! Each arm of update_connection_state, by the old status. -/

section Arms
variable (info : PeerInfo ι ε ν) (d : Nat) (c : BannedPeersCount ι)

theorem connect_isBanned (i : PeerInfo ι ε ν) (s : Option (ι × Nat))
    (direction : ConnectionDirection) :
    (match direction with
      | .incoming => i.connectIngoing s
      | .outgoing => i.connectOutgoing s).isBanned = false := by
  cases direction <;> simp

theorem connect_isDisconnected (i : PeerInfo ι ε ν) (s : Option (ι × Nat))
    (direction : ConnectionDirection) :
    (match direction with
      | .incoming => i.connectIngoing s
      | .outgoing => i.connectOutgoing s).isDisconnected = false := by
  cases direction <;> simp

/-- A connection from any state: the peer ends Connected, weighing in no count. -/
theorem toConnected_tracks (enr : Option ε) (seenAddress : List (Protocol ι))
    (direction : ConnectionDirection) :
    Tracks info d c (toConnected info d c enr seenAddress direction) := by
  have hb := connect_isBanned (info.setEnr enr) (socketAddrOf seenAddress) direction
  have hd := connect_isDisconnected (info.setEnr enr) (socketAddrOf seenAddress) direction
  cases hs : info.connectionStatus with
  | disconnected since =>
    simp only [toConnected, hs]
    exact Tracks.leaveDisconnected none (by simp [PeerInfo.isDisconnected, hs]) hd hb
  | banned since =>
    simp only [toConnected, hs, PeerInfo.seenIpAddresses_setEnr]
    exact Tracks.leaveBanned none (by simp [PeerInfo.isBanned, hs])
      (by simp [PeerInfo.isDisconnected, hs]) hd hb
  | connected nIn nOut =>
    simp only [toConnected, hs]
    exact Tracks.neither none (by simp [PeerInfo.isDisconnected, hs])
      (by simp [PeerInfo.isBanned, hs]) hd hb
  | disconnecting toBan =>
    simp only [toConnected, hs]
    exact Tracks.neither none (by simp [PeerInfo.isDisconnected, hs])
      (by simp [PeerInfo.isBanned, hs]) hd hb
  | dialing since =>
    simp only [toConnected, hs]
    exact Tracks.neither none (by simp [PeerInfo.isDisconnected, hs])
      (by simp [PeerInfo.isBanned, hs]) hd hb
  | unknown =>
    simp only [toConnected, hs]
    exact Tracks.neither none (by simp [PeerInfo.isDisconnected, hs])
      (by simp [PeerInfo.isBanned, hs]) hd hb

/-- Dialing: from Banned or Disconnected the peer leaves its count; from a connected, dialing or
disconnecting peer set_dialing_peer fails and the status stays. -/
theorem toDialing_tracks (enr : Option ε) (now : Nat) :
    Tracks info d c (toDialing info d c enr now) := by
  cases hs : info.connectionStatus with
  | banned since =>
    simp only [toDialing, hs, PeerInfo.setDialingPeer, PeerInfo.connectionStatus_setEnr, pure,
      Except.pure]
    exact Tracks.leaveBanned none (by simp [PeerInfo.isBanned, hs])
      (by simp [PeerInfo.isDisconnected, hs]) rfl rfl
  | disconnected since =>
    simp only [toDialing, hs, PeerInfo.setDialingPeer, PeerInfo.connectionStatus_setEnr, pure,
      Except.pure]
    exact Tracks.leaveDisconnected none (by simp [PeerInfo.isDisconnected, hs]) rfl rfl
  | unknown =>
    simp only [toDialing, hs, PeerInfo.setDialingPeer, PeerInfo.connectionStatus_setEnr, pure,
      Except.pure]
    exact Tracks.neither none (by simp [PeerInfo.isDisconnected, hs])
      (by simp [PeerInfo.isBanned, hs]) rfl rfl
  | connected nIn nOut =>
    simp only [toDialing, hs, PeerInfo.setDialingPeer, PeerInfo.connectionStatus_setEnr, throw,
      throwThe, MonadExceptOf.throw]
    exact Tracks.neither none (by simp [PeerInfo.isDisconnected, hs])
      (by simp [PeerInfo.isBanned, hs]) (by simp [PeerInfo.isDisconnected, hs])
      (by simp [PeerInfo.isBanned, hs])
  | dialing since =>
    simp only [toDialing, hs, PeerInfo.setDialingPeer, PeerInfo.connectionStatus_setEnr, throw,
      throwThe, MonadExceptOf.throw]
    exact Tracks.neither none (by simp [PeerInfo.isDisconnected, hs])
      (by simp [PeerInfo.isBanned, hs]) (by simp [PeerInfo.isDisconnected, hs])
      (by simp [PeerInfo.isBanned, hs])
  | disconnecting toBan =>
    simp only [toDialing, hs, PeerInfo.setDialingPeer, PeerInfo.connectionStatus_setEnr, throw,
      throwThe, MonadExceptOf.throw]
    exact Tracks.neither none (by simp [PeerInfo.isDisconnected, hs])
      (by simp [PeerInfo.isBanned, hs]) (by simp [PeerInfo.isDisconnected, hs])
      (by simp [PeerInfo.isBanned, hs])

/-- Disconnected: from Disconnecting with `toBan` the peer is banned now, from Banned or
Disconnected nothing changes but the subnets, from any other state it is disconnected. -/
theorem toDisconnected_tracks (now : Nat) : Tracks info d c (toDisconnected info d c now) := by
  cases hs : info.connectionStatus with
  | banned since =>
    simp only [toDisconnected, hs]
    exact Tracks.same _ (by simp [PeerInfo.isDisconnected, hs]) (by simp [PeerInfo.isBanned, hs])
      (fun _ => rfl)
  | disconnected since =>
    simp only [toDisconnected, hs]
    exact Tracks.same _ (by simp [PeerInfo.isDisconnected, hs]) (by simp [PeerInfo.isBanned, hs])
      (fun _ => rfl)
  | disconnecting toBan =>
    cases toBan with
    | true =>
      simp only [toDisconnected, hs]
      exact Tracks.enterBanned _ (by simp [PeerInfo.isDisconnected, hs])
        (by simp [PeerInfo.isBanned, hs]) rfl rfl
    | false =>
      simp only [toDisconnected, hs]
      exact Tracks.enterDisconnected _ (by simp [PeerInfo.isDisconnected, hs])
        (by simp [PeerInfo.isBanned, hs]) rfl rfl
  | connected nIn nOut =>
    simp only [toDisconnected, hs]
    exact Tracks.enterDisconnected _ (by simp [PeerInfo.isDisconnected, hs])
      (by simp [PeerInfo.isBanned, hs]) rfl rfl
  | dialing since =>
    simp only [toDisconnected, hs]
    exact Tracks.enterDisconnected _ (by simp [PeerInfo.isDisconnected, hs])
      (by simp [PeerInfo.isBanned, hs]) rfl rfl
  | unknown =>
    simp only [toDisconnected, hs]
    exact Tracks.enterDisconnected _ (by simp [PeerInfo.isDisconnected, hs])
      (by simp [PeerInfo.isBanned, hs]) rfl rfl

/-- Disconnecting keeps the counts from every state but Banned. -/
theorem toDisconnecting_tracks (toBan : Bool) (hb : info.isBanned = false) :
    Tracks info d c (toDisconnecting info d c toBan) := by
  cases hs : info.connectionStatus with
  | banned since => simp [PeerInfo.isBanned, hs] at hb
  | disconnected since =>
    simp only [toDisconnecting, hs]
    exact Tracks.leaveDisconnected none (by simp [PeerInfo.isDisconnected, hs]) rfl rfl
  | connected nIn nOut =>
    simp only [toDisconnecting, hs]
    exact Tracks.neither none (by simp [PeerInfo.isDisconnected, hs]) hb rfl rfl
  | disconnecting toBan' =>
    simp only [toDisconnecting, hs]
    exact Tracks.neither none (by simp [PeerInfo.isDisconnected, hs]) hb rfl rfl
  | dialing since =>
    simp only [toDisconnecting, hs]
    exact Tracks.neither none (by simp [PeerInfo.isDisconnected, hs]) hb rfl rfl
  | unknown =>
    simp only [toDisconnecting, hs]
    exact Tracks.neither none (by simp [PeerInfo.isDisconnected, hs]) hb rfl rfl

/-- From Banned, Disconnecting overwrites the status and leaves the banned counts. -/
theorem toDisconnecting_of_banned (toBan : Bool) (hb : info.isBanned = true) :
    (toDisconnecting info d c toBan).bannedPeersCount = c ∧
      (toDisconnecting info d c toBan).info.isBanned = false := by
  cases hs : info.connectionStatus <;> simp_all [PeerInfo.isBanned, toDisconnecting]

theorem toDisconnecting_bounded (toBan : Bool) : Bounded info d c (toDisconnecting info d c toBan) := by
  cases hb : info.isBanned with
  | false => exact (toDisconnecting_tracks info d c toBan hb).bounded
  | true =>
    obtain ⟨since, hs⟩ := PeerInfo.exists_banned_of_isBanned hb
    simp only [toDisconnecting, hs]
    exact Bounded.leaveBannedUncounted none hb rfl rfl

/-- Banned: from Disconnected or Unknown the peer is banned now; from a connected, dialing or
disconnecting peer it is set to be banned when it disconnects. -/
theorem toBanned_tracks (now : Nat) :
    Tracks info d c (toBanned (PeerDB.scoreForBan info) d c now) := by
  cases hs : info.connectionStatus with
  | disconnected since =>
    simp only [toBanned, PeerDB.connectionStatus_scoreForBan, hs]
    exact Tracks.disconnectedToBanned _ (by simp [PeerInfo.isDisconnected, hs]) rfl rfl
  | unknown =>
    simp only [toBanned, PeerDB.connectionStatus_scoreForBan, hs]
    exact Tracks.enterBanned _ (by simp [PeerInfo.isDisconnected, hs])
      (by simp [PeerInfo.isBanned, hs]) rfl rfl
  | banned since =>
    simp only [toBanned, PeerDB.connectionStatus_scoreForBan, hs]
    exact Tracks.same _ (by simp [PeerInfo.isDisconnected, hs]) (by simp [PeerInfo.isBanned, hs])
      (fun _ => PeerDB.seenIpAddresses_scoreForBan info)
  | disconnecting toBan =>
    simp only [toBanned, PeerDB.connectionStatus_scoreForBan, hs]
    exact Tracks.neither _ (by simp [PeerInfo.isDisconnected, hs])
      (by simp [PeerInfo.isBanned, hs]) rfl rfl
  | connected nIn nOut =>
    simp only [toBanned, PeerDB.connectionStatus_scoreForBan, hs]
    exact Tracks.neither _ (by simp [PeerInfo.isDisconnected, hs])
      (by simp [PeerInfo.isBanned, hs]) rfl rfl
  | dialing since =>
    simp only [toBanned, PeerDB.connectionStatus_scoreForBan, hs]
    exact Tracks.neither _ (by simp [PeerInfo.isDisconnected, hs])
      (by simp [PeerInfo.isBanned, hs]) rfl rfl

/-- Unbanned: a Banned peer goes back to Disconnected, with its ban time; any other is kept. -/
theorem toUnbanned_tracks : Tracks info d c (toUnbanned info d c) := by
  cases hs : info.connectionStatus with
  | banned since =>
    simp only [toUnbanned, hs]
    exact Tracks.bannedToDisconnected none (by simp [PeerInfo.isBanned, hs]) rfl
  | disconnected since =>
    simp only [toUnbanned, hs]
    exact Tracks.same none rfl rfl fun _ => rfl
  | connected nIn nOut =>
    simp only [toUnbanned, hs]
    exact Tracks.same none rfl rfl fun _ => rfl
  | disconnecting toBan =>
    simp only [toUnbanned, hs]
    exact Tracks.same none rfl rfl fun _ => rfl
  | dialing since =>
    simp only [toUnbanned, hs]
    exact Tracks.same none rfl rfl fun _ => rfl
  | unknown =>
    simp only [toUnbanned, hs]
    exact Tracks.same none rfl rfl fun _ => rfl

end Arms

end Transition

namespace NewConnectionState

/-- Whether the new state is Disconnecting for a Banned peer, the one arm that leaves the banned
counts behind. -/
def disconnectsBanned (info : PeerInfo ι ε ν) : NewConnectionState ι ε → Bool
  | .disconnecting _ => info.isBanned
  | _ => false

end NewConnectionState

namespace PeerDB
open Transition

variable [DecidableEq ι]

theorem transition_tracks (info : PeerInfo ι ε ν) (d : Nat) (c : BannedPeersCount ι) (now : Nat)
    (newState : NewConnectionState ι ε) (h : newState.disconnectsBanned info = false) :
    Tracks info d c (transition info d c now newState) := by
  cases newState with
  | connected enr seenAddress direction => exact toConnected_tracks info d c enr seenAddress direction
  | dialing enr => exact toDialing_tracks info d c enr now
  | disconnected => exact toDisconnected_tracks info d c now
  | disconnecting toBan => exact toDisconnecting_tracks info d c toBan h
  | banned => exact toBanned_tracks info d c now
  | unbanned => exact toUnbanned_tracks info d c

theorem transition_bounded (info : PeerInfo ι ε ν) (d : Nat) (c : BannedPeersCount ι) (now : Nat)
    (newState : NewConnectionState ι ε) : Bounded info d c (transition info d c now newState) := by
  cases h : newState.disconnectsBanned info with
  | false => exact (transition_tracks info d c now newState h).bounded
  | true =>
    cases newState
    case disconnecting toBan => exact toDisconnecting_bounded info d c toBan
    all_goals simp [NewConnectionState.disconnectsBanned] at h

section Counts
variable [DecidableEq π] (db : PeerDB π ι ε ν)

/-- The number of Disconnected peers in the table. -/
def disconnectedCount : Nat := tally db.peers PeerInfo.disconnectedWeight

/-- The number of Banned peers in the table. -/
def bannedCount : Nat := tally db.peers PeerInfo.bannedWeight

/-- The seen socket addresses at `ip` of the Banned peers in the table. -/
def bannedAtIp (ip : ι) : Nat := tally db.peers (PeerInfo.ipWeight ip)

/-- The counters are the table's counts. -/
structure Exact : Prop where
  disconnected : db.disconnectedPeers = db.disconnectedCount
  banned : db.bannedPeersCount.bannedPeers = db.bannedCount
  perIp : ∀ ip, db.bannedPeersCount.perIp ip = db.bannedAtIp ip

/-- The disconnected counter is the table's count, the banned ones are at least the table's. -/
structure Covers : Prop where
  disconnected : db.disconnectedPeers = db.disconnectedCount
  banned : db.bannedCount ≤ db.bannedPeersCount.bannedPeers
  perIp : ∀ ip, db.bannedAtIp ip ≤ db.bannedPeersCount.perIp ip

variable {db}

theorem Exact.covers (h : db.Exact) : db.Covers :=
  ⟨h.disconnected, h.banned.ge, fun ip => (h.perIp ip).ge⟩

end Counts

/-! One peer's entry replaced: a counter that follows the peer's change stays the table's count. -/

section Insert
variable [DecidableEq π] {w : PeerInfo ι ε ν → Nat} (hw : w default = 0)
  {peers : AList fun _ : π => PeerInfo ι ε ν} {a : π} {i₁ : PeerInfo ι ε ν} {n n' : Nat}
include hw

theorem tally_insert_of_follows (hn : n = tally peers w)
    (hf : Follows w ((peers.lookup a).getD default) i₁ n n') : n' = tally (peers.insert a i₁) w := by
  have hins := tally_insert peers a i₁ w
  have hat := weightAt_eq_getD peers a hw
  have hle := weightAt_le_tally peers a w
  have := hf (by omega)
  omega

theorem tally_insert_of_bounds (hn : tally peers w ≤ n)
    (hb : Bounds w ((peers.lookup a).getD default) i₁ n n') : tally (peers.insert a i₁) w ≤ n' := by
  have hins := tally_insert peers a i₁ w
  have hat := weightAt_eq_getD peers a hw
  have hle := weightAt_le_tally peers a w
  have := hb (by omega)
  omega

end Insert

section Update
variable [DecidableEq π] {db : PeerDB π ι ε ν} (peerId : π) (newState : NewConnectionState ι ε)
  (now : Nat)

theorem Exact.updateConnectionState (h : db.Exact)
    (hb : newState.disconnectsBanned (db.entry peerId) = false) :
    (db.updateConnectionState peerId newState now).1.Exact := by
  have ht := transition_tracks (db.entry peerId) db.disconnectedPeers db.bannedPeersCount now
    newState hb
  exact ⟨tally_insert_of_follows PeerInfo.disconnectedWeight_default h.disconnected ht.disconnected,
    tally_insert_of_follows PeerInfo.bannedWeight_default h.banned ht.banned,
    fun ip => tally_insert_of_follows (PeerInfo.ipWeight_default ip) (h.perIp ip) (ht.perIp ip)⟩

theorem Covers.updateConnectionState (h : db.Covers) :
    (db.updateConnectionState peerId newState now).1.Covers := by
  have ht := transition_bounded (db.entry peerId) db.disconnectedPeers db.bannedPeersCount now
    newState
  exact ⟨tally_insert_of_follows PeerInfo.disconnectedWeight_default h.disconnected ht.disconnected,
    tally_insert_of_bounds PeerInfo.bannedWeight_default h.banned ht.banned,
    fun ip => tally_insert_of_bounds (PeerInfo.ipWeight_default ip) (h.perIp ip) (ht.perIp ip)⟩

end Update

/-! shrink_to_fit removes peers the counters say are there. -/

section Shrink
variable [DecidableEq π] {db : PeerDB π ι ε ν}

theorem oldestBanned_eq_some {id : π} {info : PeerInfo ι ε ν} {since : Nat}
    (h : db.oldestBanned = some (id, info, since)) :
    db.peers.lookup id = some info ∧ info.isBanned = true := by
  obtain ⟨e, he, hf⟩ := List.mem_filterMap.mp (List.argmin_mem h)
  split at hf
  · rename_i since' hs
    cases hf
    exact ⟨AList.mem_lookup_iff.mpr he, by simp [PeerInfo.isBanned, hs]⟩
  · cases hf

theorem oldestBanned_eq_none (h : db.oldestBanned = none) :
    ∀ e ∈ db.peers.entries, e.2.isBanned = false := by
  intro e he
  have hnil := List.argmin_eq_none.mp h
  have hnone := List.filterMap_eq_nil_iff.mp hnil e he
  unfold PeerInfo.isBanned
  split
  · rename_i since hs
    simp [hs] at hnone
  · rfl

theorem oldestDisconnected_eq_some {id : π} (h : db.oldestDisconnected = some id) :
    ∃ info, db.peers.lookup id = some info ∧ info.isDisconnected = true := by
  obtain ⟨⟨id', since⟩, hmin, rfl⟩ := Option.map_eq_some_iff.mp h
  obtain ⟨e, he, hf⟩ := List.mem_filterMap.mp (List.argmin_mem hmin)
  split at hf
  · rename_i since' hs
    cases hf
    exact ⟨e.2, AList.mem_lookup_iff.mpr he, by simp [PeerInfo.isDisconnected, hs]⟩
  · cases hf

theorem oldestDisconnected_eq_none (h : db.oldestDisconnected = none) :
    ∀ e ∈ db.peers.entries, e.2.isDisconnected = false := by
  intro e he
  have hnil := List.argmin_eq_none.mp (Option.map_eq_none_iff.mp h)
  have hnone := List.filterMap_eq_nil_iff.mp hnil e he
  unfold PeerInfo.isDisconnected
  split
  · rename_i since hs
    simp [hs] at hnone
  · rfl

/-- Erasing a Banned peer: a Banned peer less, its addresses less at each IP, the Disconnected
ones as they were. -/
theorem counts_erase_banned {id : π} {info : PeerInfo ι ε ν} (hl : db.peers.lookup id = some info)
    (hb : info.isBanned = true) :
    tally (db.peers.erase id) PeerInfo.disconnectedWeight = db.disconnectedCount ∧
    tally (db.peers.erase id) PeerInfo.bannedWeight + 1 = db.bannedCount ∧
    ∀ ip, tally (db.peers.erase id) (PeerInfo.ipWeight ip) + info.seenIpAddresses.count ip =
      db.bannedAtIp ip := by
  refine ⟨?_, ?_, fun ip => ?_⟩
  · have herase := tally_erase_of_lookup hl PeerInfo.disconnectedWeight
    simpa [disconnectedCount, PeerInfo.disconnectedWeight, PeerInfo.isDisconnected_of_isBanned hb]
      using herase
  · have herase := tally_erase_of_lookup hl PeerInfo.bannedWeight
    simpa [bannedCount, PeerInfo.bannedWeight, hb] using herase
  · have herase := tally_erase_of_lookup hl (PeerInfo.ipWeight ip)
    simpa [bannedAtIp, PeerInfo.ipWeight, hb] using herase

/-- Erasing a Disconnected peer: a Disconnected peer less, the banned counts as they were. -/
theorem counts_erase_disconnected {id : π} {info : PeerInfo ι ε ν}
    (hl : db.peers.lookup id = some info) (hd : info.isDisconnected = true) :
    tally (db.peers.erase id) PeerInfo.disconnectedWeight + 1 = db.disconnectedCount ∧
    tally (db.peers.erase id) PeerInfo.bannedWeight = db.bannedCount ∧
    ∀ ip, tally (db.peers.erase id) (PeerInfo.ipWeight ip) = db.bannedAtIp ip := by
  have hb := PeerInfo.isBanned_of_isDisconnected hd
  refine ⟨?_, ?_, fun ip => ?_⟩
  · have herase := tally_erase_of_lookup hl PeerInfo.disconnectedWeight
    simpa [disconnectedCount, PeerInfo.disconnectedWeight, hd] using herase
  · have herase := tally_erase_of_lookup hl PeerInfo.bannedWeight
    simpa [bannedCount, PeerInfo.bannedWeight, hb] using herase
  · have herase := tally_erase_of_lookup hl (PeerInfo.ipWeight ip)
    simpa [bannedAtIp, PeerInfo.ipWeight, hb] using herase

/-- With no Banned peer in the table the banned counts are zero. -/
theorem counts_of_none_banned (h : ∀ e ∈ db.peers.entries, e.2.isBanned = false) :
    db.bannedCount = 0 ∧ ∀ ip, db.bannedAtIp ip = 0 :=
  ⟨tally_eq_zero fun e he => by simp [PeerInfo.bannedWeight, h e he],
    fun ip => tally_eq_zero fun e he => by simp [PeerInfo.ipWeight, h e he]⟩

theorem disconnectedCount_of_none (h : ∀ e ∈ db.peers.entries, e.2.isDisconnected = false) :
    db.disconnectedCount = 0 :=
  tally_eq_zero fun e he => by simp [PeerInfo.disconnectedWeight, h e he]

theorem Exact.removeBanned (h : db.Exact) {id : π} {info : PeerInfo ι ε ν}
    (hl : db.peers.lookup id = some info) (hb : info.isBanned = true) :
    Exact (⟨db.peers.erase id, db.disconnectedPeers,
      db.bannedPeersCount.removeBannedPeer info.seenIpAddresses⟩ : PeerDB π ι ε ν) := by
  obtain ⟨hd, hban, hip⟩ := counts_erase_banned hl hb
  refine ⟨h.disconnected.trans hd.symm, ?_, fun ip => ?_⟩
  · have := h.banned
    simp only [bannedCount, BannedPeersCount.bannedPeers_removeBannedPeer]
    omega
  · have := h.perIp ip
    simp only [bannedAtIp, BannedPeersCount.perIp_removeBannedPeer]
    have := hip ip
    omega

theorem Covers.removeBanned (h : db.Covers) {id : π} {info : PeerInfo ι ε ν}
    (hl : db.peers.lookup id = some info) (hb : info.isBanned = true) :
    Covers (⟨db.peers.erase id, db.disconnectedPeers,
      db.bannedPeersCount.removeBannedPeer info.seenIpAddresses⟩ : PeerDB π ι ε ν) := by
  obtain ⟨hd, hban, hip⟩ := counts_erase_banned hl hb
  refine ⟨h.disconnected.trans hd.symm, ?_, fun ip => ?_⟩
  · have := h.banned
    simp only [bannedCount, BannedPeersCount.bannedPeers_removeBannedPeer]
    omega
  · have := h.perIp ip
    simp only [bannedAtIp, BannedPeersCount.perIp_removeBannedPeer]
    have := hip ip
    omega

/-- The reset of the counts when no Banned peer is found makes them exact. -/
theorem Exact.resetCounts (hd : db.disconnectedPeers = db.disconnectedCount)
    (hnone : db.oldestBanned = none) :
    Exact (⟨db.peers, db.disconnectedPeers, default⟩ : PeerDB π ι ε ν) := by
  obtain ⟨hban, hip⟩ := counts_of_none_banned (oldestBanned_eq_none hnone)
  exact ⟨hd, hban.symm, fun ip => (hip ip).symm⟩

theorem Exact.removeExcessBanned (h : db.Exact) : (PeerDB.removeExcessBanned db).1.Exact := by
  fun_induction PeerDB.removeExcessBanned db with
  | case1 db _ id info _ hold c _ r ih =>
    obtain ⟨hl, hb⟩ := oldestBanned_eq_some hold
    exact ih (h.removeBanned hl hb)
  | case2 db _ hnone ih => exact ih (Exact.resetCounts h.disconnected hnone)
  | case3 db _ => exact h

theorem Covers.removeExcessBanned (h : db.Covers) : (PeerDB.removeExcessBanned db).1.Covers := by
  fun_induction PeerDB.removeExcessBanned db with
  | case1 db _ id info _ hold c _ r ih =>
    obtain ⟨hl, hb⟩ := oldestBanned_eq_some hold
    exact ih (h.removeBanned hl hb)
  | case2 db _ hnone ih => exact ih (Exact.resetCounts h.disconnected hnone).covers
  | case3 db _ => exact h

/-- One round of the disconnected loop on the table: the oldest Disconnected peer is dropped;
with none in the table there was no Disconnected peer to count. -/
theorem counts_dropOldest (db : PeerDB π ι ε ν) {peers : AList fun _ : π => PeerInfo ι ε ν}
    (hp : peers = match db.oldestDisconnected with
      | some toDrop => db.peers.erase toDrop
      | none => db.peers) :
    tally peers PeerInfo.disconnectedWeight = db.disconnectedCount - 1 ∧
    tally peers PeerInfo.bannedWeight = db.bannedCount ∧
    ∀ ip, tally peers (PeerInfo.ipWeight ip) = db.bannedAtIp ip := by
  cases hold : db.oldestDisconnected with
  | some toDrop =>
    simp only [hold] at hp
    subst hp
    obtain ⟨info, hl, hd⟩ := oldestDisconnected_eq_some hold
    obtain ⟨hdc, hban, hip⟩ := counts_erase_disconnected hl hd
    exact ⟨by omega, hban, hip⟩
  | none =>
    simp only [hold] at hp
    subst hp
    have h0 := disconnectedCount_of_none (oldestDisconnected_eq_none hold)
    exact ⟨by simp only [disconnectedCount] at h0 ⊢; omega, rfl, fun _ => rfl⟩

theorem Exact.dropOldest (h : db.Exact) :
    Exact (⟨match db.oldestDisconnected with
      | some toDrop => db.peers.erase toDrop
      | none => db.peers, db.disconnectedPeers - 1, db.bannedPeersCount⟩ : PeerDB π ι ε ν) := by
  obtain ⟨hd, hban, hip⟩ := counts_dropOldest db rfl
  have hD := h.disconnected
  exact ⟨by simp only [disconnectedCount] at hd hD ⊢; omega, h.banned.trans hban.symm,
    fun ip => (h.perIp ip).trans (hip ip).symm⟩

theorem Covers.dropOldest (h : db.Covers) :
    Covers (⟨match db.oldestDisconnected with
      | some toDrop => db.peers.erase toDrop
      | none => db.peers, db.disconnectedPeers - 1, db.bannedPeersCount⟩ : PeerDB π ι ε ν) := by
  obtain ⟨hd, hban, hip⟩ := counts_dropOldest db rfl
  have hD := h.disconnected
  exact ⟨by simp only [disconnectedCount] at hd hD ⊢; omega, hban.trans_le h.banned,
    fun ip => (hip ip).trans_le (h.perIp ip)⟩

theorem Exact.removeExcessDisconnected (h : db.Exact) :
    (PeerDB.removeExcessDisconnected db).Exact := by
  fun_induction PeerDB.removeExcessDisconnected db with
  | case1 db _ peers ih => exact ih h.dropOldest
  | case2 db _ => exact h

theorem Covers.removeExcessDisconnected (h : db.Covers) :
    (PeerDB.removeExcessDisconnected db).Covers := by
  fun_induction PeerDB.removeExcessDisconnected db with
  | case1 db _ peers ih => exact ih h.dropOldest
  | case2 db _ => exact h

theorem Exact.shrinkToFit (h : db.Exact) : db.shrinkToFit.1.Exact :=
  h.removeExcessBanned.removeExcessDisconnected

theorem Covers.shrinkToFit (h : db.Covers) : db.shrinkToFit.1.Covers :=
  h.removeExcessBanned.removeExcessDisconnected

end Shrink

section New
variable [DecidableEq π]

/-- PeerDB::new inserts the trusted peers with an Unknown status, which no count weighs. -/
theorem tally_new {w : PeerInfo ι ε ν → Nat} (hw : w PeerInfo.trustedPeerInfo = 0)
    (trustedPeers : List π) : tally (PeerDB.new trustedPeers : PeerDB π ι ε ν).peers w = 0 := by
  have hfold : ∀ (l : List π) (m : AList fun _ : π => PeerInfo ι ε ν), tally m w = 0 →
      tally (l.foldl (fun m peerId => m.insert peerId PeerInfo.trustedPeerInfo) m) w = 0 := by
    intro l
    induction l with
    | nil => exact fun m h => h
    | cons peerId rest ih =>
      intro m h
      apply ih
      have hins := tally_insert m peerId PeerInfo.trustedPeerInfo w
      rw [h, hw] at hins
      show tally (m.insert peerId _) w = 0
      omega
  exact hfold trustedPeers ∅ rfl

theorem Exact.new (trustedPeers : List π) : (PeerDB.new trustedPeers : PeerDB π ι ε ν).Exact :=
  ⟨(tally_new rfl trustedPeers).symm, (tally_new rfl trustedPeers).symm,
    fun ip => (tally_new (w := PeerInfo.ipWeight ip) rfl trustedPeers).symm⟩

end New

end PeerDB

/-! Runs of the peer manager's calls. -/

section Runs
variable [DecidableEq π] [DecidableEq ι] {db : PeerDB π ι ε ν}

/-- Whether a call disconnects a peer that is Banned. -/
def Call.disconnectsBanned (db : PeerDB π ι ε ν) : Call π ι ε → Bool
  | .notifyDisconnecting peerId _ => (db.entry peerId).isBanned
  | _ => false

theorem PeerDB.Exact.run (h : db.Exact) (c : Call π ι ε) (now : Nat)
    (hc : c.disconnectsBanned db = false) : (c.run now db).Exact := by
  cases c with
  | dialingPeer peerId enr => exact h.updateConnectionState peerId _ now rfl
  | connectIngoing peerId seenAddress enr => exact h.updateConnectionState peerId _ now rfl
  | connectOutgoing peerId seenAddress enr => exact h.updateConnectionState peerId _ now rfl
  | injectDisconnect peerId => exact (h.updateConnectionState peerId .disconnected now rfl).shrinkToFit
  | notifyDisconnecting peerId toBan => exact h.updateConnectionState peerId _ now hc
  | ban peerId => exact h.updateConnectionState peerId .banned now rfl
  | unban peerId => exact h.updateConnectionState peerId .unbanned now rfl

theorem PeerDB.Covers.run (h : db.Covers) (c : Call π ι ε) (now : Nat) : (c.run now db).Covers := by
  cases c with
  | dialingPeer peerId enr => exact h.updateConnectionState peerId _ now
  | connectIngoing peerId seenAddress enr => exact h.updateConnectionState peerId _ now
  | connectOutgoing peerId seenAddress enr => exact h.updateConnectionState peerId _ now
  | injectDisconnect peerId => exact (h.updateConnectionState peerId .disconnected now).shrinkToFit
  | notifyDisconnecting peerId toBan => exact h.updateConnectionState peerId _ now
  | ban peerId => exact h.updateConnectionState peerId .banned now
  | unban peerId => exact h.updateConnectionState peerId .unbanned now

variable {G : PeerDB π ι ε ν → Call π ι ε → Prop}

/-- On every run the disconnected counter is the number of Disconnected peers, and the banned
counters are at least the Banned peers and their addresses at each IP. -/
theorem Reaches.covers (h : Reaches G db) : db.Covers := by
  induction h with
  | new trustedPeers => exact (PeerDB.Exact.new trustedPeers).covers
  | step c now _ _ ih => exact ih.run c now

/-- On a run that never disconnects a Banned peer every counter is the table's count. -/
theorem Reaches.exact (hG : ∀ db c, G db c → c.disconnectsBanned db = false) (h : Reaches G db) :
    db.Exact := by
  induction h with
  | new trustedPeers => exact PeerDB.Exact.new trustedPeers
  | step c now hc _ ih => exact ih.run c now (hG _ c hc)

end Runs

namespace PeerDB
variable [DecidableEq π] [DecidableEq ι]

/-- Disconnecting a Banned peer leaves the banned counters as they were while the peer stops
being Banned, so that the counter then counts one peer more than the table holds. -/
theorem notifyDisconnecting_banned_keeps_count {db : PeerDB π ι ε ν} {peerId : π}
    {info : PeerInfo ι ε ν} (hl : db.peers.lookup peerId = some info) (hb : info.isBanned = true)
    (toBan : Bool) (now : Nat) :
    (db.notifyDisconnecting peerId toBan now).bannedPeersCount = db.bannedPeersCount ∧
      (db.notifyDisconnecting peerId toBan now).bannedCount + 1 = db.bannedCount := by
  have hentry : db.entry peerId = info := by simp [entry, hl]
  obtain ⟨hc, hinfo⟩ :=
    Transition.toDisconnecting_of_banned info db.disconnectedPeers db.bannedPeersCount toBan hb
  -- the table trades the peer's weight of one for the weight nought of its new info
  have hins := tally_insert db.peers peerId
    (Transition.toDisconnecting info db.disconnectedPeers db.bannedPeersCount toBan).info
    PeerInfo.bannedWeight
  have hw₀ : PeerInfo.bannedWeight
      (Transition.toDisconnecting info db.disconnectedPeers db.bannedPeersCount toBan).info = 0 := by
    simp [PeerInfo.bannedWeight, hinfo]
  have hw₁ : PeerInfo.bannedWeight info = 1 := by simp [PeerInfo.bannedWeight, hb]
  rw [weightAt_of_lookup hl, hw₀, hw₁] at hins
  simp only [notifyDisconnecting, updateConnectionState, transition, hentry, bannedCount]
  exact ⟨hc, by omega⟩

/-- A peer banned in an empty table and then disconnected. -/
theorem notifyDisconnecting_banned_keeps_count_afterBan :
    Reaches (fun _ _ => True) ((Call.ban 0).run 0 (PeerDB.new [] : PeerDB Nat Nat Unit Unit)) ∧
      ((Call.ban 0).run 0 (PeerDB.new [] : PeerDB Nat Nat Unit Unit)).peers.lookup 0 =
        some ⟨.banned, .banned 0, [], [], false, none, none⟩ ∧
      (⟨.banned, .banned 0, [], [], false, none, none⟩ : PeerInfo Nat Unit Unit).isBanned = true ∧
      ((((Call.ban 0).run 0 (PeerDB.new [] : PeerDB Nat Nat Unit Unit)).notifyDisconnecting 0
          false 1).bannedPeersCount =
        ((Call.ban 0).run 0 (PeerDB.new [] : PeerDB Nat Nat Unit Unit)).bannedPeersCount ∧
      (((Call.ban 0).run 0 (PeerDB.new [] : PeerDB Nat Nat Unit Unit)).notifyDisconnecting 0
          false 1).bannedCount + 1 =
        ((Call.ban 0).run 0 (PeerDB.new [] : PeerDB Nat Nat Unit Unit)).bannedCount) :=
  ⟨.step (.ban 0) 0 trivial (.new []), rfl, rfl,
    notifyDisconnecting_banned_keeps_count rfl rfl false 1⟩

end PeerDB

end Lighthouse.PeerManager
