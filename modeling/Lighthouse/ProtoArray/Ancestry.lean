import Lighthouse.ProtoArray.Invalidation

/-! `is_descendant` (proto_array.rs). The method does not follow parent links to the ancestor's
position: it walks up from the descendant while the slots are at least the ancestor's and
compares the root found at exactly the ancestor's slot. Yes means a known ancestor-or-self on any
well-formed array (`isDescendant_eq_true`); when every node's slot is above its parent's, the
walk from a descendant passes the ancestor's node before any other node of that slot, so yes is
also the answer for every ancestor, and the method decides the relation. -/
namespace Lighthouse.ForkChoice
open EState Forest

namespace ProtoArray

/-- Every node's slot is greater than its parent's. -/
def SlotsIncrease (pa : ProtoArray) : Prop :=
  ∀ i p : Fin pa.nodes.length, pa.nodes[i].parent = some p.val → pa.nodes[p].slot < pa.nodes[i].slot

instance (pa : ProtoArray) : Decidable pa.SlotsIncrease :=
  inferInstanceAs (Decidable (∀ i p : Fin pa.nodes.length,
    pa.nodes[i].parent = some p.val → pa.nodes[p].slot < pa.nodes[i].slot))

variable {pa : ProtoArray}

theorem SlotsIncrease.lt (h : pa.SlotsIncrease) {i p : Nat} {n m : ProtoNode}
    (hn : pa.nodes[i]? = some n) (hp : n.parent = some p) (hm : pa.nodes[p]? = some m) :
    m.slot < n.slot := by
  obtain ⟨hi, rfl⟩ := List.getElem?_eq_some_iff.mp hn
  obtain ⟨hpl, rfl⟩ := List.getElem?_eq_some_iff.mp hm
  exact h ⟨i, hi⟩ ⟨p, hpl⟩ hp

theorem SlotsIncrease.lt_of_descends (h : pa.SlotsIncrease) {d a : Nat} {n m : ProtoNode}
    (hda : Descends ProtoNode.parent pa.nodes d a) (hn : pa.nodes[d]? = some n)
    (hm : pa.nodes[a]? = some m) : m.slot < n.slot :=
  Descends.key_lt (fun _ _ _ _ hc hp hq => h.lt hc hp hq) hda hn hm

theorem iterNodes_succ_of_getElem? {fuel k : Nat} {n : ProtoNode} (hn : pa.nodes[k]? = some n) :
    pa.iterNodes (fuel + 1) (some k) = n :: pa.iterNodes fuel n.parent := by
  simp only [iterNodes, hn]

section Walk
variable (hwf : pa.Wf) (hslot : pa.SlotsIncrease) {ia : Nat} {anc : ProtoNode}
  (hanc : pa.nodes[ia]? = some anc)
include hwf hslot hanc

/-- The walk of `is_descendant` from the ancestor itself or from a node below it, with a step
for each node of the path, finds the ancestor's node: the nodes before it on the path have
larger slots, so none of them stops the walk or is taken for it. -/
theorem find_iterNodes_of_descends : ∀ fuel k, k < fuel →
    (k = ia ∨ Descends ProtoNode.parent pa.nodes k ia) →
    ((pa.iterNodes fuel (some k)).takeWhile fun node => decide (node.slot ≥ anc.slot)).find?
      (fun node => node.slot == anc.slot) = some anc
  | 0, _, hk, _ => absurd hk (Nat.not_lt_zero _)
  | fuel + 1, k, hk, hka => by
    rcases hka with rfl | hka
    · simp [iterNodes_succ_of_getElem? hanc]
    · obtain ⟨n, hn⟩ : ∃ n, pa.nodes[k]? = some n :=
        ⟨_, List.getElem?_eq_getElem (Descends.lt_length hka)⟩
      have hlt : anc.slot < n.slot := hslot.lt_of_descends hka hn hanc
      obtain ⟨p, hp⟩ : ∃ p, parentAt ProtoNode.parent pa.nodes k = some p :=
        (Relation.TransGen.head'_iff.mp hka).imp fun _ h => h.1
      have hpar : n.parent = some p := by simpa [parentAt, hn] using hp
      have hpk : p < k := hwf.topological k p hp
      have hrest := find_iterNodes_of_descends fuel p (by omega) (hka.parent_eq_or hp)
      rw [iterNodes_succ_of_getElem? hn, hpar, List.takeWhile_cons_of_pos (by simpa using hlt.le),
        List.find?_cons_of_neg (by simpa using hlt.ne')]
      exact hrest

end Walk

/-- With slots increasing along the links, `is_descendant` says yes for every known ancestor
(or the block itself) of a known block. -/
theorem isDescendant_of_descends (hwf : pa.Wf) (hslot : pa.SlotsIncrease) {a d ia k : Nat}
    (hia : pa.indices.lookup a = some ia) (hk : pa.indices.lookup d = some k)
    (hka : k = ia ∨ Descends ProtoNode.parent pa.nodes k ia) : pa.isDescendant a d = true := by
  obtain ⟨anc, hanc, hroot⟩ := hwf.node_of_lookup hia
  have hfind := find_iterNodes_of_descends hwf hslot hanc pa.nodes.length k (hwf.lt_length hk) hka
  unfold isDescendant
  simp only [hia, Option.bind_some, hanc, hk, hfind, Option.map_some, Option.getD_some, hroot,
    beq_self_eq_true]

/-- On every array reachable from `new` in which each node's slot is above its parent's,
`is_descendant a d` holds exactly when `a` is the root of a node that is `d`'s node or an
ancestor of it along the parent links. -/
theorem isDescendant_iff_ancestor (hr : Reachable pa) (hslot : pa.SlotsIncrease) (a d : Nat) :
    pa.isDescendant a d = true ↔
      ∃ ia k, (pa.nodes.map (·.root))[ia]? = some a ∧ (pa.nodes.map (·.root))[k]? = some d ∧
        (k = ia ∨ Descends ProtoNode.parent pa.nodes k ia) := by
  have hwf := hr.wf
  constructor
  · intro h
    obtain ⟨ia, k, hia, hk, hka⟩ := isDescendant_eq_true hwf h
    exact ⟨ia, k, (hwf.indices a ia).mp hia, (hwf.indices d k).mp hk, hka⟩
  · rintro ⟨ia, k, hia, hk, hka⟩
    exact isDescendant_of_descends hwf hslot ((hwf.indices a ia).mpr hia)
      ((hwf.indices d k).mpr hk) hka

/-- The array of `new` at the anchor block `1` in slot `0`, with the block `2` of slot `1` on
top of it. -/
def twoBlocks : ProtoArray :=
  EState.final ((onBlock ⟨1, 2, some 1, ⟨0, 1⟩, ⟨0, 1⟩, .valid 12⟩).run
    { pruneThreshold := defaultPruneThreshold
      justifiedCheckpoint := ⟨0, 1⟩
      finalizedCheckpoint := ⟨0, 1⟩
      nodes := [⟨0, 1, none, some ⟨0, 1⟩, some ⟨0, 1⟩, 0, none, none, .valid 11⟩]
      indices := (∅ : PositionMap.Map Nat).insert 1 0
      previousProposerBoost := default })

theorem isDescendant_iff_ancestor_twoBlocks :
    Reachable twoBlocks ∧ twoBlocks.SlotsIncrease ∧
      (twoBlocks.isDescendant 1 2 = true ↔
        ∃ ia k, (twoBlocks.nodes.map (·.root))[ia]? = some 1 ∧
          (twoBlocks.nodes.map (·.root))[k]? = some 2 ∧
          (k = ia ∨ Descends ProtoNode.parent twoBlocks.nodes k ia)) := by
  have hr : Reachable twoBlocks :=
    .step (Operation.onBlock _) (.init ⟨0, ⟨0, 1⟩, ⟨0, 1⟩, .valid 11, _, rfl, rfl⟩)
  have hs : twoBlocks.SlotsIncrease := by decide
  exact ⟨hr, hs, isDescendant_iff_ancestor hr hs 1 2⟩

end ProtoArray

end Lighthouse.ForkChoice
