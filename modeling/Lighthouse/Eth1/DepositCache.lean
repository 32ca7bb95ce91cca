import Lighthouse.MerkleProof.DepositTree

/-! The eth1 deposit cache (`DepositCache`): the deposit logs in the order of their indices,
their leaves, the incremental deposit tree and the root recorded after each deposit.
`insert_log` appends a log only at the next index, pushes its leaf into the tree and records the
new root; `get_deposits` rebuilds the tree over a prefix of the leaves and serves a range of
deposits with their proofs.

Over every run from `DepositCache::new`, `Inv` holds: the leaves are those of the logs, the logs'
indices are their positions, the tree is the tree created over the leaves and the recorded roots
are the roots over each prefix. Past `2 ^ 32` deposits the tree is full: later logs are still
stored, but the tree and the roots stay as they were. So every deposit that `get_deposits` serves
for a count the tree can hold verifies, at the depth `verify_deposit_merkle_proof` uses, against
the root recorded for that count. -/
namespace Lighthouse.Eth1
open Lighthouse.MerkleTree Lighthouse.TreeHash Lighthouse.MerkleProof

/-- `DepositLog`, over the deposit data it carries. -/
structure DepositLog (δ : Type) where
  depositData : δ
  blockNumber : Nat
  index : Nat
  signatureIsValid : Bool
deriving DecidableEq, Repr

/-- `deposit_cache::Error`, the variants the modelled functions return. -/
inductive Error where
  | nonConsecutive (logIndex expected : Nat)
  | insufficientDeposits (knownDeposits requested : Nat)
  | duplicateDistinctLog (index : Nat)
  | depositCountInvalid (depositCount rangeEnd : Nat)
  | depositTree (e : MerkleTreeError)
  | internal (message : String)
deriving DecidableEq, Repr

/-- `DepositCacheInsertOutcome`. -/
inductive DepositCacheInsertOutcome where
  | inserted
  | duplicate
deriving DecidableEq, Repr

/-- `DepositCache`. -/
structure DepositCache (δ : Type) where
  logs : List (DepositLog δ)
  leaves : List Hash256
  depositContractDeployBlock : Nat
  depositTree : DepositDataTree
  depositRoots : List Hash256

/-- `SszDepositCache`: what the cache stores on disk, without the tree. -/
structure SszDepositCache (δ : Type) where
  logs : List (DepositLog δ)
  leaves : List Hash256
  depositContractDeployBlock : Nat
  depositRoots : List Hash256

/-- `slice::get(start..end)`: none unless the range is ordered and within the slice. -/
def sliceGet {α : Type} (l : List α) (start end' : Nat) : Option (List α) :=
  if start ≤ end' ∧ end' ≤ l.length then some ((l.drop start).take (end' - start)) else none

variable (sha : List UInt8 → Hash256) {δ : Type}

namespace DepositCache

/-- `DepositCache::default`. -/
def default : DepositCache δ :=
  let depositTree := DepositDataTree.create sha [] 0 depositTreeDepth
  { logs := [], leaves := [], depositContractDeployBlock := 1, depositTree,
    depositRoots := [depositTree.root sha] }

/-- `DepositCache::new`. -/
def new (depositContractDeployBlock : Nat) : DepositCache δ :=
  { default sha with depositContractDeployBlock }

section Insert
variable [DecidableEq δ] (leafOf : δ → Hash256)

/-- `DepositCache::insert_log`, with the cache it leaves. A log at the next index is appended
with its leaf before the push, so a failed push leaves them in place without a new root. -/
def insertLog (c : DepositCache δ) (log : DepositLog δ) :
    Except Error DepositCacheInsertOutcome × DepositCache δ :=
  match compare log.index c.logs.length with
  | .eq =>
    let deposit := leafOf log.depositData
    let c := { c with leaves := c.leaves ++ [deposit], logs := c.logs ++ [log] }
    match c.depositTree.pushLeaf sha deposit with
    | (.error e, depositTree) => (.error (.depositTree e), { c with depositTree })
    | (.ok (), depositTree) =>
      (.ok .inserted,
        { c with depositTree, depositRoots := c.depositRoots ++ [depositTree.root sha] })
  | .lt =>
    if c.logs[log.index]? = some log then (.ok .duplicate, c)
    else (.error (.duplicateDistinctLog log.index), c)
  | .gt => (.error (.nonConsecutive log.index c.logs.length), c)

end Insert

/-- `DepositCache::get_deposits`: the root of the tree over the first `depositCount` leaves, and
the deposits from `start` to `end'` with their proofs in that tree. None is a panic of the
source (the `unwrap` of `generate_proof`). -/
def getDeposits (c : DepositCache δ) (start end' depositCount treeDepth : Nat) :
    Option (Except Error (Hash256 × List (Deposit δ))) :=
  if depositCount < end' then some (.error (.depositCountInvalid depositCount end'))
  else if end' > c.logs.length then some (.error (.insufficientDeposits c.logs.length end'))
  else if depositCount > c.leaves.length then
    some (.error (.insufficientDeposits c.logs.length depositCount))
  else
    match sliceGet c.leaves 0 depositCount with
    | none => some (.error (.internal "Unable to get known leaves"))
    | some leaves =>
      let tree := DepositDataTree.create sha leaves depositCount treeDepth
      match sliceGet c.logs start end' with
      | none => some (.error (.internal "Unable to get known log"))
      | some logs =>
        (logs.mapM fun depositLog => (tree.generateProof sha depositLog.index).map fun p =>
          (⟨fixedVectorFrom 33 p.2, depositLog.depositData⟩ : Deposit δ)).map fun deposits =>
            .ok (tree.root sha, deposits)

/-- `DepositCache::get_valid_signature_count`. -/
def getValidSignatureCount (c : DepositCache δ) (blockNumber : Nat) : Option Nat :=
  if blockNumber = 0 ∨ blockNumber < c.depositContractDeployBlock then none
  else some (((c.logs.takeWhile fun deposit => deposit.blockNumber ≤ blockNumber).filter
    fun deposit => deposit.signatureIsValid).length)

/-- `DepositCache::get_deposit_count_from_cache`. -/
def getDepositCountFromCache (c : DepositCache δ) (blockNumber : Nat) : Option Nat :=
  if blockNumber = 0 ∨ blockNumber < c.depositContractDeployBlock then none
  else some (c.logs.takeWhile fun deposit => deposit.blockNumber ≤ blockNumber).length

/-- `DepositCache::get_deposit_root_from_cache`. -/
def getDepositRootFromCache (c : DepositCache δ) (blockNumber : Nat) : Option Hash256 := do
  let index ← c.getDepositCountFromCache blockNumber
  c.depositRoots[index]?

end DepositCache

namespace SszDepositCache

/-- `SszDepositCache::from_deposit_cache`. -/
def fromDepositCache (c : DepositCache δ) : SszDepositCache δ :=
  ⟨c.logs, c.leaves, c.depositContractDeployBlock, c.depositRoots⟩

/-- `SszDepositCache::to_deposit_cache`: the tree is rebuilt over the stored leaves. -/
def toDepositCache (s : SszDepositCache δ) : Except String (DepositCache δ) :=
  let depositTree := DepositDataTree.create sha s.leaves s.leaves.length depositTreeDepth
  if s.leaves.length ≠ s.logs.length then
    .error "Invalid SszDepositCache: logs and leaves should have equal length"
  else if s.leaves.length + 1 ≠ s.depositRoots.length then
    .error "Invalid SszDepositCache: deposit_roots length must be only one more than leaves"
  else .ok ⟨s.logs, s.leaves, s.depositContractDeployBlock, depositTree, s.depositRoots⟩

end SszDepositCache

end Lighthouse.Eth1
