import Lighthouse.MerkleProof.Tree
import Lighthouse.Ssz.FourByteOption

/-! The deposit tree with its length mixed in (`DepositDataTree` of `state_processing`) and the
proofs of the genesis deposits (`genesis_deposits`). The root of a `DepositDataTree` hashes the
sparse tree's hash with the little-endian count of deposits, as SSZ mixes a list's length into
its root; its proofs are the sparse tree's proofs with the count on top, and they verify at one
level more than the tree's depth. The genesis proofs are taken after each push, each against the
root of the deposits so far: the pushes build the trees `create` would, so every genesis proof
verifies against the root over the deposits up to its own. -/
namespace Lighthouse.MerkleProof
open Lighthouse.MerkleTree Lighthouse.TreeHash

/-- `int_to_bytes32`: the eight little-endian bytes of a `u64`, padded with zeros to 32. -/
def intToBytes32 (int : Nat) : List UInt8 := resize (Ssz.leBytes int 8) 32

/-- `int_to_fixed_bytes32`, which writes the same bytes into an array. -/
def intToFixedBytes32 (int : Nat) : List UInt8 := intToBytes32 int

theorem length_intToBytes32 (int : Nat) : (intToBytes32 int).length = 32 :=
  length_resize_hash _

/-- `Hash256::from_slice` of the 32 bytes of a count. -/
def lengthHash (int : Nat) : Hash256 := ⟨intToBytes32 int, length_intToBytes32 int⟩

/-- `DEPOSIT_TREE_DEPTH`. -/
def depositTreeDepth : Nat := 32

/-- `Deposit`: a deposit's data and the proof of its leaf. -/
structure Deposit (δ : Type) where
  proof : List Hash256
  data : δ

/-- `FixedVector::from(vec)`: the vector resized to the fixed length, padded with zero hashes. -/
def fixedVectorFrom (n : Nat) (vec : List Hash256) : List Hash256 :=
  vec.take n ++ List.replicate (n - vec.length) Hash256.zero

theorem fixedVectorFrom_of_length {n : Nat} {vec : List Hash256} (h : vec.length = n) :
    fixedVectorFrom n vec = vec := by
  simp [fixedVectorFrom, h, List.take_of_length_le (Nat.le_of_eq h)]

/-- `DepositDataTree`. -/
structure DepositDataTree where
  tree : MerkleTree
  mixInLength : Nat
  depth : Nat
deriving DecidableEq, Repr

namespace DepositDataTree
variable (sha : List UInt8 → Hash256)

/-- `DepositDataTree::create`. -/
def create (leaves : List Hash256) (mixInLength depth : Nat) : DepositDataTree :=
  ⟨MerkleTree.create sha leaves depth, mixInLength, depth⟩

/-- `DepositDataTree::length_bytes`. -/
def lengthBytes (t : DepositDataTree) : List UInt8 := intToBytes32 t.mixInLength

/-- `DepositDataTree::root`: the hash of the tree's hash followed by the length bytes. -/
def root (t : DepositDataTree) : Hash256 := sha ((t.tree.hash sha).bytes ++ t.lengthBytes)

/-- `DepositDataTree::generate_proof`: the tree's proof with the length on top. -/
def generateProof (t : DepositDataTree) (index : Nat) : Option (Hash256 × List Hash256) :=
  (t.tree.generateProof sha index t.depth).map fun (root, proof) =>
    (root, proof ++ [lengthHash t.mixInLength])

/-- `DepositDataTree::push_leaf`: the tree's push, then the count, whose overflow past
`usize::MAX` is an `ArithError` that leaves the pushed tree in place. -/
def pushLeaf (t : DepositDataTree) (leaf : Hash256) :
    Except MerkleTreeError Unit × DepositDataTree :=
  match t.tree.pushLeaf sha leaf t.depth with
  | (.error e, tree) => (.error e, { t with tree })
  | (.ok (), tree) =>
    if t.mixInLength + 1 < 2 ^ 64 then (.ok (), { t with tree, mixInLength := t.mixInLength + 1 })
    else (.error .arithError, { t with tree })

theorem root_eq (t : DepositDataTree) :
    t.root sha = hash32Concat sha (t.tree.hash sha) (lengthHash t.mixInLength) := rfl

/-- The proof a created tree gives is the library's branch over its zero-padded leaves, the
length on top. -/
theorem generateProof_create {leaves : List Hash256} {mixInLength depth index : Nat}
    (hi : index < 2 ^ depth) :
    (create sha leaves mixInLength depth).generateProof sha index =
      some (leaves.getD index Hash256.zero,
        branch (hash32Concat sha) depth (fun j => leaves.getD j Hash256.zero) index ++
          [lengthHash mixInLength]) := by
  simp [generateProof, create, MerkleTree.generateProof_create sha leaves hi]

/-- A leaf's branch with the length on top verifies against the root of a created tree at one
level more than its depth: the length joins on the right, since the index stops below it. -/
theorem verifyMerkleProof_create {leaves : List Hash256} {mixInLength depth index : Nat}
    (hi : index < 2 ^ depth) :
    verifyMerkleProof sha (leaves.getD index Hash256.zero)
      (branch (hash32Concat sha) depth (fun j => leaves.getD j Hash256.zero) index ++
        [lengthHash mixInLength]) (depth + 1) index
      ((create sha leaves mixInLength depth).root sha) = true := by
  set f : Nat → Hash256 := fun j => leaves.getD j Hash256.zero
  have hlen : (branch (hash32Concat sha) depth f index).length = depth := length_branch _ _ _
  have hroot : rootFromBranch (hash32Concat sha) index (f index)
      (branch (hash32Concat sha) depth f index) = treeRoot (hash32Concat sha) depth f :=
    rootFromBranch_branch depth f hi
  rw [verifyMerkleProof_iff, rootFromBranch_append_top _ _ _ (by rwa [hlen]), hroot, root_eq]
  refine ⟨by rw [List.length_append, hlen]; rfl, ?_⟩
  rw [show (create sha leaves mixInLength depth).tree = MerkleTree.create sha leaves depth from rfl,
    MerkleTree.hash_create]
  rfl

theorem pushLeaf_of_ok {t : DepositDataTree} {leaf : Hash256} {tree : MerkleTree}
    (h : t.tree.pushLeaf sha leaf t.depth = (.ok (), tree)) (hmix : t.mixInLength + 1 < 2 ^ 64) :
    t.pushLeaf sha leaf = (.ok (), { t with tree, mixInLength := t.mixInLength + 1 }) := by
  simp only [pushLeaf, h]
  rw [if_pos hmix]

theorem pushLeaf_of_error {t : DepositDataTree} {leaf : Hash256} {e : MerkleTreeError}
    {tree : MerkleTree} (h : t.tree.pushLeaf sha leaf t.depth = (.error e, tree)) :
    t.pushLeaf sha leaf = (.error e, { t with tree }) := by
  simp only [pushLeaf, h]

/-- A push into a created tree that is not full is the tree created over one more leaf, counted
once more. -/
theorem pushLeaf_create {leaves : List Hash256} {mixInLength depth : Nat} (hd : 1 ≤ depth)
    (hlen : leaves.length < 2 ^ depth) (hmix : mixInLength + 1 < 2 ^ 64) (leaf : Hash256) :
    (create sha leaves mixInLength depth).pushLeaf sha leaf =
      (.ok (), create sha (leaves ++ [leaf]) (mixInLength + 1) depth) :=
  pushLeaf_of_ok sha (MerkleTree.pushLeaf_create sha leaf hd hlen) hmix

/-- A push into a created tree holding `2 ^ depth` leaves fails and changes nothing. -/
theorem pushLeaf_create_full {leaves : List Hash256} {mixInLength depth : Nat} (hd : 1 ≤ depth)
    (hlen : leaves.length = 2 ^ depth) (leaf : Hash256) :
    (create sha leaves mixInLength depth).pushLeaf sha leaf =
      (.error .merkleTreeFull, create sha leaves mixInLength depth) :=
  pushLeaf_of_error sha (MerkleTree.pushLeaf_create_full sha leaf hd hlen)

end DepositDataTree

section Genesis
variable (sha : List UInt8 → Hash256) {δ : Type} (leafOf : δ → Hash256)

/-- The loop of `genesis_deposits` from leaf `i` on: each leaf pushed, then the proof of leaf
`i` against the tree as it now stands, with the count `i + 1` on top. An error returns the
source's message; none is a panic of the source (a failed `unwrap` or length assertion). -/
def genesisProofs (depth : Nat) :
    MerkleTree → Nat → List Hash256 → Option (Except String (List (List Hash256)))
  | _, _, [] => some (.ok [])
  | tree, i, depositLeaf :: rest =>
    match tree.pushLeaf sha depositLeaf depth with
    | (.error _, _) => some (.error "Failed to push leaf")
    | (.ok (), tree) =>
      match tree.generateProof sha i depth with
      | none => none
      | some (_, proof) =>
        let proof := proof ++ [⟨intToFixedBytes32 (i + 1), length_intToBytes32 (i + 1)⟩]
        if proof.length = depth + 1 then
          (genesisProofs depth tree (i + 1) rest).map fun r => r.map (proof :: ·)
        else none

/-- `genesis_deposits`, for the tree depth of the chain spec. -/
def genesisDeposits (depositData : List δ) (depositContractTreeDepth : Nat) :
    Option (Except String (List (Deposit δ))) :=
  let depositRootLeaves := depositData.map leafOf
  (genesisProofs sha depositContractTreeDepth (MerkleTree.create sha [] depositContractTreeDepth)
      0 depositRootLeaves).map fun r =>
    r.map fun proofs => (depositData.zip proofs).map fun (data, proof) =>
      ⟨fixedVectorFrom 33 proof, data⟩

/-- One round of the genesis loop on a tree created over the deposits so far: the push, and the
proof of the new deposit against the tree now created over one more. -/
theorem genesisProofs_cons {depth : Nat} (hd : 1 ≤ depth) {done : List Hash256}
    (hlt : done.length < 2 ^ depth) (x : Hash256) (rest : List Hash256) :
    genesisProofs sha depth (MerkleTree.create sha done depth) done.length (x :: rest) =
      (genesisProofs sha depth (MerkleTree.create sha (done ++ [x]) depth) (done.length + 1)
        rest).map fun r => r.map ((branch (hash32Concat sha) depth
          (fun j => (done ++ [x]).getD j Hash256.zero) done.length ++
            [lengthHash (done.length + 1)]) :: ·) := by
  simp only [genesisProofs, MerkleTree.pushLeaf_create sha x hd hlt,
    MerkleTree.generateProof_create sha _ hlt]
  rw [if_pos (by simp [length_branch])]
  rfl

/-- The pushes of `genesis_deposits` build, after each deposit, the tree created over the
deposits so far, so the proof taken then verifies against that tree's root with the count mixed
in. The induction is on the deposits still to come, with those already pushed generalised. -/
theorem genesisProofs_verify {depth : Nat} (hd : 1 ≤ depth) : ∀ (done rest : List Hash256),
    done.length + rest.length ≤ 2 ^ depth →
    ∃ proofs, genesisProofs sha depth (MerkleTree.create sha done depth) done.length rest =
        some (.ok proofs) ∧ proofs.length = rest.length ∧
      ∀ k < rest.length, ∃ leaf proof, rest[k]? = some leaf ∧ proofs[k]? = some proof ∧
        verifyMerkleProof sha leaf proof (depth + 1) (done.length + k)
          ((DepositDataTree.create sha (done ++ rest.take (k + 1)) (done.length + k + 1)
            depth).root sha) = true
  | _, [], _ => ⟨[], rfl, rfl, fun _ hk => absurd hk (Nat.not_lt_zero _)⟩
  | done, x :: rest, hlen => by
    have hlt : done.length < 2 ^ depth := by simp at hlen; omega
    obtain ⟨proofs, hrun, hcount, hall⟩ :=
      genesisProofs_verify hd (done ++ [x]) rest (by simp at hlen ⊢; omega)
    rw [List.length_append, List.length_singleton] at hrun hall
    refine ⟨_ :: proofs, by rw [genesisProofs_cons sha hd hlt, hrun]; rfl, by simp [hcount], ?_⟩
    intro k hk
    cases k with
    | zero =>
      -- the new deposit's own proof, against the tree over the deposits up to it
      have hv : verifyMerkleProof sha ((done ++ [x]).getD done.length Hash256.zero) _ (depth + 1)
          done.length ((DepositDataTree.create sha (done ++ [x]) (done.length + 1) depth).root
            sha) = true := DepositDataTree.verifyMerkleProof_create sha hlt
      exact ⟨x, _, rfl, rfl, by simpa using hv⟩
    | succ k =>
      obtain ⟨leaf, proof, hl, hp, hv⟩ := hall k (by simpa using hk)
      have hidx : done.length + (k + 1) = done.length + 1 + k := by omega
      refine ⟨leaf, proof, by simpa using hl, by simpa using hp, ?_⟩
      rw [hidx]
      simpa [List.take_succ_cons] using hv

/-- Every genesis deposit carries a proof that verifies, at one level above the deposit
contract's tree, against the root over the deposits up to and including it. -/
theorem genesisDeposits_verify (depositData : List δ)
    (hlen : depositData.length ≤ 2 ^ depositTreeDepth) :
    ∃ deposits, genesisDeposits sha leafOf depositData depositTreeDepth = some (.ok deposits) ∧
      deposits.map Deposit.data = depositData ∧
      ∀ i < depositData.length, ∃ deposit, deposits[i]? = some deposit ∧
        verifyMerkleProof sha (leafOf deposit.data) deposit.proof (depositTreeDepth + 1) i
          ((DepositDataTree.create sha ((depositData.map leafOf).take (i + 1)) (i + 1)
            depositTreeDepth).root sha) = true := by
  obtain ⟨proofs, hrun, hcount, hall⟩ := genesisProofs_verify sha
    (show 1 ≤ depositTreeDepth by decide) [] (depositData.map leafOf) (by simpa using hlen)
  rw [List.length_nil] at hrun
  refine ⟨_, by simp only [genesisDeposits, hrun]; rfl, ?_, ?_⟩
  · rw [List.map_map]
    exact List.map_fst_zip (by simp [hcount])
  · intro i hi
    obtain ⟨leaf, proof, hl, hp, hv⟩ := hall i (by simpa using hi)
    have hproof : proof.length = depositTreeDepth + 1 := ((verifyMerkleProof_iff sha).mp hv).1
    obtain ⟨data, hdata⟩ : ∃ data, depositData[i]? = some data :=
      ⟨_, List.getElem?_eq_getElem hi⟩
    have hleaf : leaf = leafOf data := by simpa [hdata] using hl.symm
    refine ⟨⟨proof, data⟩, ?_, by simpa [hleaf] using hv⟩
    have hproof' : proof.length = 33 := hproof
    simp [List.getElem?_zip_eq_some, hdata, hp, fixedVectorFrom_of_length hproof']

theorem genesisDeposits_verify_at_one_deposit :
    [(0 : Nat)].length ≤ 2 ^ depositTreeDepth ∧
      ∃ deposits, genesisDeposits (fun _ => Hash256.zero) (fun _ => Hash256.zero) [(0 : Nat)]
          depositTreeDepth = some (.ok deposits) ∧ deposits.map Deposit.data = [0] ∧
        ∀ i < [(0 : Nat)].length, ∃ deposit, deposits[i]? = some deposit ∧
          verifyMerkleProof (fun _ => Hash256.zero) Hash256.zero deposit.proof
            (depositTreeDepth + 1) i
            ((DepositDataTree.create (fun _ => Hash256.zero)
              (([(0 : Nat)].map fun _ => Hash256.zero).take (i + 1)) (i + 1)
                depositTreeDepth).root fun _ => Hash256.zero) = true :=
  ⟨by decide,
    genesisDeposits_verify (fun _ => Hash256.zero) (fun _ => Hash256.zero) [0] (by decide)⟩

end Genesis

end Lighthouse.MerkleProof
