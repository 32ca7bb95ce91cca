import Lighthouse.Eth1.DepositCache

/-! The deposit cache over whole runs. `depositRoot leaves n` is the deposit contract's root
after its first `n` deposits: the root of the depth-32 tree over them, padded with zero leaves,
hashed with the count. `Inv` says what every run from `DepositCache::new` keeps (each
`insert_log` preserves it), and from it: `get_deposits` serves deposits whose proofs verify
against the recorded root of their count, `get_deposit_root_from_cache` answers with the root over
the deposits it counts, and a cache written to disk and read back is the cache it was. -/
namespace Lighthouse.Eth1
open Lighthouse.MerkleTree Lighthouse.TreeHash Lighthouse.MerkleProof

theorem mapM_eq_some_map {α β : Type} {f : α → Option β} {g : α → β} :
    ∀ {l : List α}, (∀ a ∈ l, f a = some (g a)) → l.mapM f = some (l.map g)
  | [], _ => rfl
  | a :: l, h => by
    have ih := mapM_eq_some_map (l := l) fun b hb => h b (List.mem_cons_of_mem a hb)
    rw [List.mapM_cons, h a List.mem_cons_self, ih]
    rfl

theorem sliceGet_eq_some {α : Type} {l : List α} {start end' : Nat} (hse : start ≤ end')
    (hel : end' ≤ l.length) : sliceGet l start end' = some ((l.drop start).take (end' - start)) :=
  if_pos ⟨hse, hel⟩

variable (sha : List UInt8 → Hash256)

/-- The deposit contract's root after its first `n` deposits: the root of the tree of depth
`DEPOSIT_TREE_DEPTH` over them, padded with zero leaves, hashed with the count. -/
def depositRoot (leaves : List Hash256) (n : Nat) : Hash256 :=
  sha ((treeRoot (hash32Concat sha) depositTreeDepth fun i =>
    (leaves.take n).getD i Hash256.zero).bytes ++ intToBytes32 n)

theorem root_create_take (leaves : List Hash256) (n : Nat) :
    (DepositDataTree.create sha (leaves.take n) n depositTreeDepth).root sha =
      depositRoot sha leaves n := by
  simp only [DepositDataTree.root, DepositDataTree.create, DepositDataTree.lengthBytes,
    MerkleTree.hash_create, depositRoot]

/-- Taking one more deposit does not change the roots over the deposits before it. -/
theorem depositRoot_append {leaves : List Hash256} {n : Nat} (hn : n ≤ leaves.length)
    (x : Hash256) : depositRoot sha (leaves ++ [x]) n = depositRoot sha leaves n := by
  rw [depositRoot, depositRoot, List.take_append_of_le_length hn]

/-- The capacity of the deposit tree. -/
theorem two_pow_depositTreeDepth_add_one_lt : 2 ^ depositTreeDepth + 1 < 2 ^ 64 := by decide

variable {δ : Type} (leafOf : δ → Hash256)

namespace DepositCache

/-- What every run keeps: the leaves are the logs' leaves and the logs' indices their positions;
the tree is created over the leaves it can hold, counted; and the roots recorded are the roots
over each prefix up to that count. -/
structure Inv (c : DepositCache δ) : Prop where
  leaves_eq : c.leaves = c.logs.map fun log => leafOf log.depositData
  indices_eq : c.logs.map DepositLog.index = List.range c.logs.length
  tree_eq : c.depositTree = DepositDataTree.create sha (c.leaves.take (2 ^ depositTreeDepth))
    (min c.leaves.length (2 ^ depositTreeDepth)) depositTreeDepth
  roots_eq : c.depositRoots =
    (List.range (min c.leaves.length (2 ^ depositTreeDepth) + 1)).map (depositRoot sha c.leaves)

variable {sha leafOf} {c : DepositCache δ}

theorem Inv.length_logs (h : c.Inv sha leafOf) : c.logs.length = c.leaves.length := by
  rw [h.leaves_eq, List.length_map]

theorem Inv.index_of_getElem? (h : c.Inv sha leafOf) {i : Nat} {log : DepositLog δ}
    (hi : c.logs[i]? = some log) : log.index = i := by
  have hlt : i < c.logs.length := (List.getElem?_eq_some_iff.mp hi).1
  have := congrArg (·[i]?) h.indices_eq
  simp only [List.getElem?_map, hi, List.getElem?_range hlt, Option.map_some,
    Option.some.injEq] at this
  exact this

theorem Inv.leaf_of_getElem? (h : c.Inv sha leafOf) {i : Nat} {log : DepositLog δ}
    (hi : c.logs[i]? = some log) : c.leaves[i]? = some (leafOf log.depositData) := by
  rw [h.leaves_eq, List.getElem?_map, hi]
  rfl

/-- The recorded root of a count the tree holds is the root over that many deposits. -/
theorem Inv.depositRoots_getElem? (h : c.Inv sha leafOf) {n : Nat} (hn : n ≤ c.leaves.length)
    (hcap : n ≤ 2 ^ depositTreeDepth) : c.depositRoots[n]? = some (depositRoot sha c.leaves n) := by
  rw [h.roots_eq, List.getElem?_map, List.getElem?_range (by omega)]
  rfl

theorem Inv.depositRoots_getElem?_of_lt (h : c.Inv sha leafOf) {n : Nat}
    (hcap : 2 ^ depositTreeDepth < n) : c.depositRoots[n]? = none := by
  rw [h.roots_eq, List.getElem?_map, List.getElem?_eq_none (by simp; omega)]
  rfl

/-- The logs from `start` on are those at their positions, each carrying its position as its
index. -/
theorem Inv.getElem?_slice (h : c.Inv sha leafOf) {start end' k : Nat}
    (hel : end' ≤ c.logs.length) (hk : k < end' - start) :
    ∃ log, ((c.logs.drop start).take (end' - start))[k]? = some log ∧
      c.logs[start + k]? = some log ∧ log.index = start + k := by
  obtain ⟨log, hl⟩ : ∃ log, c.logs[start + k]? = some log :=
    ⟨_, List.getElem?_eq_getElem (by omega)⟩
  refine ⟨log, ?_, hl, h.index_of_getElem? hl⟩
  rw [List.getElem?_take_of_lt hk, List.getElem?_drop, hl]

theorem getDepositCountFromCache_le {blockNumber n : Nat}
    (h : c.getDepositCountFromCache blockNumber = some n) : n ≤ c.logs.length := by
  unfold getDepositCountFromCache at h
  split at h
  next => cases h
  next =>
    cases h
    exact (List.takeWhile_prefix _).length_le

theorem Inv.new (depositContractDeployBlock : Nat) :
    (DepositCache.new sha depositContractDeployBlock : DepositCache δ).Inv sha leafOf where
  leaves_eq := rfl
  indices_eq := rfl
  tree_eq := by simp [DepositCache.new, default]
  roots_eq := by
    simp [DepositCache.new, default, ← root_create_take sha [] 0]

/-! Runs of `insert_log`, and what one insert does, by the index of the log. -/

variable (sha leafOf) [DecidableEq δ]

/-- The caches a run from `DepositCache::new` reaches, one `insert_log` after another. -/
inductive Reachable : DepositCache δ → Prop
  | new (depositContractDeployBlock : Nat) : Reachable (new sha depositContractDeployBlock)
  | insertLog {c : DepositCache δ} (log : DepositLog δ) :
      Reachable c → Reachable (c.insertLog sha leafOf log).2

theorem insertLog_of_ne {log : DepositLog δ} (h : log.index ≠ c.logs.length) :
    (c.insertLog sha leafOf log).2 = c := by
  unfold insertLog
  split
  next heq => exact absurd (Nat.compare_eq_eq.mp heq) h
  next => split <;> rfl
  next => rfl

theorem insertLog_of_push_ok {log : DepositLog δ} (h : log.index = c.logs.length)
    {t : DepositDataTree} (hp : c.depositTree.pushLeaf sha (leafOf log.depositData) = (.ok (), t)) :
    c.insertLog sha leafOf log = (.ok .inserted, ⟨c.logs ++ [log],
      c.leaves ++ [leafOf log.depositData], c.depositContractDeployBlock, t,
      c.depositRoots ++ [t.root sha]⟩) := by
  simp only [insertLog, Nat.compare_eq_eq.mpr h, hp]

theorem insertLog_of_push_error {log : DepositLog δ} (h : log.index = c.logs.length)
    {e : MerkleTreeError} {t : DepositDataTree}
    (hp : c.depositTree.pushLeaf sha (leafOf log.depositData) = (.error e, t)) :
    c.insertLog sha leafOf log = (.error (.depositTree e), ⟨c.logs ++ [log],
      c.leaves ++ [leafOf log.depositData], c.depositContractDeployBlock, t, c.depositRoots⟩) := by
  simp only [insertLog, Nat.compare_eq_eq.mpr h, hp]

variable {sha leafOf}

/-- `insert_log` keeps the invariant. A log at the next index below the tree's capacity grows
the tree and records one more root; at capacity the push fails and only the logs and leaves
grow; any other log changes nothing. -/
theorem Inv.insertLog (h : c.Inv sha leafOf) (log : DepositLog δ) :
    (c.insertLog sha leafOf log).2.Inv sha leafOf := by
  by_cases hidx : log.index = c.logs.length
  case neg => rw [insertLog_of_ne sha leafOf hidx]; exact h
  case pos =>
    have hcap := two_pow_depositTreeDepth_add_one_lt
    have hn := h.length_logs
    have hindices : (c.logs ++ [log]).map DepositLog.index = List.range (c.logs ++ [log]).length := by
      simp [h.indices_eq, hidx, List.range_succ]
    have hleaves : c.leaves ++ [leafOf log.depositData] =
        (c.logs ++ [log]).map fun log => leafOf log.depositData := by simp [h.leaves_eq]
    rcases Nat.lt_or_ge c.leaves.length (2 ^ depositTreeDepth) with hlt | hge
    · -- below capacity: the tree takes the leaf and its new root is recorded
      have hp : c.depositTree.pushLeaf sha (leafOf log.depositData) = (.ok (),
          DepositDataTree.create sha (c.leaves ++ [leafOf log.depositData])
            (c.leaves.length + 1) depositTreeDepth) := by
        rw [h.tree_eq, List.take_of_length_le hlt.le, min_eq_left hlt.le]
        exact DepositDataTree.pushLeaf_create sha (by decide) hlt (by omega) _
      rw [insertLog_of_push_ok sha leafOf hidx hp]
      refine ⟨hleaves, hindices, ?_, ?_⟩
      · simp only [List.length_append, List.length_singleton]
        rw [List.take_of_length_le (by simp; omega), min_eq_left (by omega)]
      · simp only [List.length_append, List.length_singleton]
        rw [min_eq_left (by omega), List.range_succ, List.map_append, h.roots_eq,
          min_eq_left hlt.le, List.map_singleton,
          ← root_create_take sha (c.leaves ++ [leafOf log.depositData]) (c.leaves.length + 1),
          List.take_of_length_le (by simp)]
        congr 1
        exact List.map_congr_left fun k hk =>
          (depositRoot_append sha (by simp at hk; omega) _).symm
    · -- at capacity: the push fails, the tree and the roots stay
      have hp : c.depositTree.pushLeaf sha (leafOf log.depositData) =
          (.error .merkleTreeFull, c.depositTree) := by
        rw [h.tree_eq]
        exact DepositDataTree.pushLeaf_create_full sha (by decide) (List.length_take_of_le hge) _
      rw [insertLog_of_push_error sha leafOf hidx hp]
      have hmin : min (c.leaves ++ [leafOf log.depositData]).length (2 ^ depositTreeDepth) =
          min c.leaves.length (2 ^ depositTreeDepth) := by simp; omega
      refine ⟨hleaves, hindices, ?_, ?_⟩
      · rw [hmin, List.take_append_of_le_length hge]
        exact h.tree_eq
      · rw [hmin, h.roots_eq]
        exact List.map_congr_left fun k hk =>
          (depositRoot_append sha (by simp at hk; omega) _).symm

/-- Every reachable cache satisfies the invariant. -/
theorem Reachable.inv (hc : Reachable sha leafOf c) : c.Inv sha leafOf := by
  induction hc with
  | new b => exact Inv.new b
  | insertLog log _ ih => exact ih.insertLog log

/-- Along every run from `DepositCache::new`, the leaves are the logs' leaves and the logs'
indices their positions; the deposit tree is the tree created over the deposits it can hold,
and the roots recorded are the deposit contract's roots after each of them. -/
theorem depositTree_of_reachable (hc : Reachable sha leafOf c) :
    c.leaves = c.logs.map (fun log => leafOf log.depositData) ∧
      c.logs.map DepositLog.index = List.range c.logs.length ∧
      c.depositTree = DepositDataTree.create sha (c.leaves.take (2 ^ depositTreeDepth))
        (min c.leaves.length (2 ^ depositTreeDepth)) depositTreeDepth ∧
      c.depositRoots = (List.range (min c.leaves.length (2 ^ depositTreeDepth) + 1)).map
        (depositRoot sha c.leaves) := by
  have h := hc.inv
  exact ⟨h.leaves_eq, h.indices_eq, h.tree_eq, h.roots_eq⟩

theorem depositTree_of_reachable_at_new :
    Reachable (fun _ => Hash256.zero) (fun _ : Nat => Hash256.zero)
        (DepositCache.new (fun _ => Hash256.zero) 0) ∧
      ([] : List Hash256) = ([] : List (DepositLog Nat)).map (fun _ => Hash256.zero) ∧
      ([] : List (DepositLog Nat)).map DepositLog.index = List.range 0 ∧
      (DepositCache.new (fun _ => Hash256.zero) 0 : DepositCache Nat).depositTree =
        DepositDataTree.create (fun _ => Hash256.zero) ([].take (2 ^ depositTreeDepth))
          (min 0 (2 ^ depositTreeDepth)) depositTreeDepth ∧
      (DepositCache.new (fun _ => Hash256.zero) 0 : DepositCache Nat).depositRoots =
        (List.range (min 0 (2 ^ depositTreeDepth) + 1)).map
          (depositRoot (fun _ => Hash256.zero) []) := by
  have hc : Reachable (fun _ => Hash256.zero) (fun _ : Nat => Hash256.zero)
      (DepositCache.new (fun _ => Hash256.zero) 0) := Reachable.new 0
  exact ⟨hc, depositTree_of_reachable hc⟩

/-! What the reachable caches serve. -/

/-- Every deposit that `get_deposits` serves for a count the tree can hold verifies, one level
above the deposit tree, against the root recorded for that count. The deposits are those of the
logs in the range, in order, and each proof is the branch of its leaf in the tree over the first
`depositCount` leaves, the count on top. -/
theorem getDeposits_verify (hc : Reachable sha leafOf c) {start end' depositCount : Nat}
    (hse : start ≤ end') (hed : end' ≤ depositCount) (hdl : depositCount ≤ c.leaves.length)
    (hcap : depositCount ≤ 2 ^ depositTreeDepth) :
    ∃ root deposits, c.getDeposits sha start end' depositCount depositTreeDepth =
        some (.ok (root, deposits)) ∧ c.depositRoots[depositCount]? = some root ∧
      deposits.map Deposit.data =
        ((c.logs.drop start).take (end' - start)).map DepositLog.depositData ∧
      ∀ k < deposits.length, ∃ deposit, deposits[k]? = some deposit ∧
        verifyMerkleProof sha (leafOf deposit.data) deposit.proof (depositTreeDepth + 1)
          (start + k) root = true := by
  have h := hc.inv
  have hn := h.length_logs
  set leaves := c.leaves.take depositCount
  set slice := (c.logs.drop start).take (end' - start)
  set tree := DepositDataTree.create sha leaves depositCount depositTreeDepth
  -- the deposit served for a log: its data, and the branch of its leaf with the count on top
  let serve : DepositLog δ → Deposit δ := fun log =>
    ⟨branch (hash32Concat sha) depositTreeDepth (fun j => leaves.getD j Hash256.zero) log.index ++
      [lengthHash depositCount], log.depositData⟩
  have hserve : slice.mapM (fun depositLog => (tree.generateProof sha depositLog.index).map
      fun p => (⟨fixedVectorFrom 33 p.2, depositLog.depositData⟩ : Deposit δ)) =
      some (slice.map serve) := by
    apply mapM_eq_some_map
    intro log hlog
    obtain ⟨k, hk⟩ := List.mem_iff_getElem?.mp hlog
    have hks : k < end' - start := by
      have := (List.getElem?_eq_some_iff.mp hk).1
      simp [slice] at this
      omega
    obtain ⟨log', hs, -, hi⟩ := h.getElem?_slice (by omega) hks
    obtain rfl : log = log' := Option.some.inj (hk.symm.trans hs)
    rw [DepositDataTree.generateProof_create sha (by omega)]
    simp [serve, fixedVectorFrom_of_length, length_branch, depositTreeDepth]
  refine ⟨tree.root sha, slice.map serve, ?_, ?_, by simp [serve], ?_⟩
  · unfold getDeposits
    rw [if_neg (by omega), if_neg (by omega), if_neg (by omega),
      sliceGet_eq_some (Nat.zero_le _) hdl, sliceGet_eq_some hse (by omega)]
    simp only [List.drop_zero, Nat.sub_zero]
    rw [hserve]
    rfl
  · rw [h.depositRoots_getElem? hdl hcap, ← root_create_take]
  · intro k hk
    have hks : k < end' - start := by simp [slice] at hk; omega
    obtain ⟨log, hs, hl, hi⟩ : ∃ log, slice[k]? = some log ∧ c.logs[start + k]? = some log ∧
        log.index = start + k := h.getElem?_slice (by omega) hks
    refine ⟨serve log, by simp [hs], ?_⟩
    -- the served leaf is the leaf at the log's position among the first `depositCount`
    have hleaf : leafOf log.depositData = leaves.getD (start + k) Hash256.zero := by
      have hlt : start + k < depositCount := by omega
      rw [List.getD_eq_getElem?_getD, List.getElem?_take_of_lt hlt, h.leaf_of_getElem? hl]
      rfl
    show verifyMerkleProof sha (leafOf log.depositData) (branch (hash32Concat sha)
      depositTreeDepth (fun j => leaves.getD j Hash256.zero) log.index ++
        [lengthHash depositCount]) (depositTreeDepth + 1) (start + k) (tree.root sha) = true
    rw [hleaf, hi]
    exact DepositDataTree.verifyMerkleProof_create sha (by omega)

/-- One deposit log inserted into a new cache, and the deposit served for it. -/
theorem getDeposits_verify_at_one_log :
    Reachable (fun _ => Hash256.zero) (fun _ : Nat => Hash256.zero)
        ((DepositCache.new (fun _ => Hash256.zero) 0).insertLog (fun _ => Hash256.zero)
          (fun _ : Nat => Hash256.zero) ⟨7, 1, 0, true⟩).2 ∧
      0 ≤ 1 ∧ 1 ≤ 1 ∧ 1 ≤ (((DepositCache.new (fun _ => Hash256.zero) 0).insertLog (fun _ => Hash256.zero)
          (fun _ : Nat => Hash256.zero) ⟨7, 1, 0, true⟩).2).leaves.length ∧ 1 ≤ 2 ^ depositTreeDepth ∧
      ∃ root deposits, (((DepositCache.new (fun _ => Hash256.zero) 0).insertLog (fun _ => Hash256.zero)
          (fun _ : Nat => Hash256.zero) ⟨7, 1, 0, true⟩).2).getDeposits (fun _ => Hash256.zero) 0 1 1 depositTreeDepth =
          some (.ok (root, deposits)) ∧ (((DepositCache.new (fun _ => Hash256.zero) 0).insertLog (fun _ => Hash256.zero)
          (fun _ : Nat => Hash256.zero) ⟨7, 1, 0, true⟩).2).depositRoots[1]? = some root ∧
        deposits.map Deposit.data = [7] ∧
        ∀ k < deposits.length, ∃ deposit, deposits[k]? = some deposit ∧
          verifyMerkleProof (fun _ => Hash256.zero) Hash256.zero deposit.proof
            (depositTreeDepth + 1) (0 + k) root = true := by
  have hc : Reachable (fun _ => Hash256.zero) (fun _ : Nat => Hash256.zero)
      ((DepositCache.new (fun _ => Hash256.zero) 0).insertLog (fun _ => Hash256.zero)
        (fun _ : Nat => Hash256.zero) ⟨7, 1, 0, true⟩).2 :=
    Reachable.insertLog _ (Reachable.new 0)
  exact ⟨hc, Nat.zero_le 1, le_rfl, by decide, by decide,
    getDeposits_verify hc (Nat.zero_le 1) le_rfl (by decide) (by decide)⟩

/-- The deposit root the cache gives for a block is the root over the deposits it counts up to
that block, while the tree can hold them, and none past that. -/
theorem getDepositRootFromCache_eq (hc : Reachable sha leafOf c) (blockNumber : Nat) :
    c.getDepositRootFromCache blockNumber = (c.getDepositCountFromCache blockNumber).bind fun n =>
      if n ≤ 2 ^ depositTreeDepth then some (depositRoot sha c.leaves n) else none := by
  have h := hc.inv
  unfold getDepositRootFromCache
  cases hn : c.getDepositCountFromCache blockNumber with
  | none => rfl
  | some n =>
    have hle := getDepositCountFromCache_le hn
    show c.depositRoots[n]? = _
    rw [Option.bind_some]
    split
    next hcap => exact h.depositRoots_getElem? (by rw [← h.length_logs]; exact hle) hcap
    next hcap => exact h.depositRoots_getElem?_of_lt (by omega)

theorem getDepositRootFromCache_eq_at_one_log :
    Reachable (fun _ => Hash256.zero) (fun _ : Nat => Hash256.zero)
        ((DepositCache.new (fun _ => Hash256.zero) 0).insertLog (fun _ => Hash256.zero)
          (fun _ : Nat => Hash256.zero) ⟨7, 1, 0, true⟩).2 ∧
      (((DepositCache.new (fun _ => Hash256.zero) 0).insertLog (fun _ => Hash256.zero)
          (fun _ : Nat => Hash256.zero) ⟨7, 1, 0, true⟩).2).getDepositRootFromCache 1 =
        ((((DepositCache.new (fun _ => Hash256.zero) 0).insertLog (fun _ => Hash256.zero)
          (fun _ : Nat => Hash256.zero) ⟨7, 1, 0, true⟩).2).getDepositCountFromCache 1).bind fun n =>
          if n ≤ 2 ^ depositTreeDepth then
            some (depositRoot (fun _ => Hash256.zero) [Hash256.zero] n)
          else none := by
  have hc : Reachable (fun _ => Hash256.zero) (fun _ : Nat => Hash256.zero)
      ((DepositCache.new (fun _ => Hash256.zero) 0).insertLog (fun _ => Hash256.zero)
        (fun _ : Nat => Hash256.zero) ⟨7, 1, 0, true⟩).2 :=
    Reachable.insertLog _ (Reachable.new 0)
  exact ⟨hc, getDepositRootFromCache_eq hc 1⟩

/-- A log already stored, inserted again, is reported as a duplicate and changes nothing. -/
theorem insertLog_of_stored (hc : Reachable sha leafOf c) {i : Nat} {log : DepositLog δ}
    (hi : c.logs[i]? = some log) : c.insertLog sha leafOf log = (.ok .duplicate, c) := by
  have hidx := hc.inv.index_of_getElem? hi
  have hlt : log.index < c.logs.length := hidx ▸ (List.getElem?_eq_some_iff.mp hi).1
  unfold insertLog
  rw [Nat.compare_eq_lt.mpr hlt, if_pos (hidx ▸ hi)]

theorem insertLog_of_stored_at_one_log :
    Reachable (fun _ => Hash256.zero) (fun _ : Nat => Hash256.zero)
        ((DepositCache.new (fun _ => Hash256.zero) 0).insertLog (fun _ => Hash256.zero)
          (fun _ : Nat => Hash256.zero) ⟨7, 1, 0, true⟩).2 ∧
      (((DepositCache.new (fun _ => Hash256.zero) 0).insertLog (fun _ => Hash256.zero)
          (fun _ : Nat => Hash256.zero) ⟨7, 1, 0, true⟩).2).logs[0]? = some ⟨7, 1, 0, true⟩ ∧
      (((DepositCache.new (fun _ => Hash256.zero) 0).insertLog (fun _ => Hash256.zero)
          (fun _ : Nat => Hash256.zero) ⟨7, 1, 0, true⟩).2).insertLog (fun _ => Hash256.zero) (fun _ => Hash256.zero) ⟨7, 1, 0, true⟩ =
        (.ok .duplicate, ((DepositCache.new (fun _ => Hash256.zero) 0).insertLog (fun _ => Hash256.zero)
          (fun _ : Nat => Hash256.zero) ⟨7, 1, 0, true⟩).2) := by
  have hc : Reachable (fun _ => Hash256.zero) (fun _ : Nat => Hash256.zero)
      ((DepositCache.new (fun _ => Hash256.zero) 0).insertLog (fun _ => Hash256.zero)
        (fun _ : Nat => Hash256.zero) ⟨7, 1, 0, true⟩).2 :=
    Reachable.insertLog _ (Reachable.new 0)
  have hi : (((DepositCache.new (fun _ => Hash256.zero) 0).insertLog (fun _ => Hash256.zero)
      (fun _ : Nat => Hash256.zero) ⟨7, 1, 0, true⟩).2).logs[0]? = some ⟨7, 1, 0, true⟩ := rfl
  exact ⟨hc, hi, insertLog_of_stored hc hi⟩

/-- A cache the tree can hold, written to disk and read back, is the cache it was: the tree
rebuilt over the stored leaves is the one the inserts built. -/
theorem toDepositCache_fromDepositCache (hc : Reachable sha leafOf c)
    (hcap : c.leaves.length ≤ 2 ^ depositTreeDepth) :
    SszDepositCache.toDepositCache sha (SszDepositCache.fromDepositCache c) = .ok c := by
  have h := hc.inv
  have htree : DepositDataTree.create sha c.leaves c.leaves.length depositTreeDepth =
      c.depositTree := by
    rw [h.tree_eq, List.take_of_length_le hcap, min_eq_left hcap]
  have hroots : c.leaves.length + 1 = c.depositRoots.length := by
    rw [h.roots_eq, List.length_map, List.length_range, min_eq_left hcap]
  simp only [SszDepositCache.toDepositCache, SszDepositCache.fromDepositCache, h.length_logs,
    hroots, htree, ne_eq, not_true_eq_false, if_false]

theorem toDepositCache_fromDepositCache_at_one_log :
    Reachable (fun _ => Hash256.zero) (fun _ : Nat => Hash256.zero)
        ((DepositCache.new (fun _ => Hash256.zero) 0).insertLog (fun _ => Hash256.zero)
          (fun _ : Nat => Hash256.zero) ⟨7, 1, 0, true⟩).2 ∧
      (((DepositCache.new (fun _ => Hash256.zero) 0).insertLog (fun _ => Hash256.zero)
          (fun _ : Nat => Hash256.zero) ⟨7, 1, 0, true⟩).2).leaves.length ≤ 2 ^ depositTreeDepth ∧
      SszDepositCache.toDepositCache (fun _ => Hash256.zero)
        (SszDepositCache.fromDepositCache ((DepositCache.new (fun _ => Hash256.zero) 0).insertLog (fun _ => Hash256.zero)
          (fun _ : Nat => Hash256.zero) ⟨7, 1, 0, true⟩).2) = .ok ((DepositCache.new (fun _ => Hash256.zero) 0).insertLog (fun _ => Hash256.zero)
          (fun _ : Nat => Hash256.zero) ⟨7, 1, 0, true⟩).2 := by
  have hc : Reachable (fun _ => Hash256.zero) (fun _ : Nat => Hash256.zero)
      ((DepositCache.new (fun _ => Hash256.zero) 0).insertLog (fun _ => Hash256.zero)
        (fun _ : Nat => Hash256.zero) ⟨7, 1, 0, true⟩).2 :=
    Reachable.insertLog _ (Reachable.new 0)
  exact ⟨hc, by decide, toDepositCache_fromDepositCache hc (by decide)⟩

end DepositCache

end Lighthouse.Eth1
