import Lighthouse.ProtoArray.Structure

/-! `maybe_prune` under the structural invariant. Every check it makes passes: the prefix before
the finalized node is dropped, `indices` loses exactly the roots of that prefix, and every link
of a survivor is shifted down by the finalized index, a parent in the prefix being cut. So the
survivors keep their parent, best child and best descendant, named by root. -/
namespace Lighthouse.ForkChoice
open EState Forest

namespace ProtoArray

/-- A node as a prune at `k` in which every check passes leaves it: its links shifted down by
`k`, a parent that was pruned cut. -/
def reindexedNode (k : Nat) (node : ProtoNode) : ProtoNode :=
  { node with
    parent := shiftParent k node.parent
    bestChild := node.bestChild.map (· - k)
    bestDescendant := node.bestDescendant.map (· - k) }

@[simp] theorem reindexedNode_root (k : Nat) (node : ProtoNode) :
    (reindexedNode k node).root = node.root := rfl

/-- The array after a prune at `k` in which every check passes. -/
def prunedAt (k : Nat) (pa : ProtoArray) : ProtoArray :=
  { pa with
    nodes := (pa.nodes.drop k).map (reindexedNode k)
    indices := PositionMap.mapPositions (· - k)
      (PositionMap.erasePrefix ((pa.nodes.map (·.root)).take k) pa.indices) }

/-- The links of a node point at or after position `k`. -/
def LinksFrom (k : Nat) (node : ProtoNode) : Prop :=
  (∀ c ∈ node.bestChild, k ≤ c) ∧ ∀ d ∈ node.bestDescendant, k ≤ d

theorem reindexNode_of_linksFrom {k : Nat} {node : ProtoNode} (h : LinksFrom k node) :
    reindexNode k node = (reindexedNode k node, none) := by
  obtain ⟨hbc, hbd⟩ := h
  unfold reindexNode reindexNode.reindexBestDescendant reindexedNode
  cases hc : node.bestChild <;> cases hd : node.bestDescendant <;> simp_all

theorem reindexNodes_of_linksFrom {k : Nat} :
    ∀ {nodes : List ProtoNode}, (∀ n ∈ nodes, LinksFrom k n) →
      reindexNodes k nodes = (nodes.map (reindexedNode k), none)
  | [], _ => rfl
  | n :: rest, h => by
    rw [reindexNodes, reindexNode_of_linksFrom (h n List.mem_cons_self)]
    simp only [reindexNodes_of_linksFrom fun m hm => h m (List.mem_cons_of_mem n hm),
      List.map_cons]

/-- Under the structure every link of a node at or after position `k` points after it. -/
theorem Wf.linksFrom {pa : ProtoArray} (h : pa.Wf) {j k : Nat} {n : ProtoNode}
    (hn : pa.nodes[j]? = some n) (hjk : k ≤ j) : LinksFrom k n := by
  constructor
  · intro c hc
    have := h.topological c j (h.bestChild j n c hn hc)
    omega
  · intro d hd
    have := (h.bestDescendant j n d hn hd).lt h.topological
    omega

/-- The first loop of `maybe_prune`, over positions inside the array, erases the roots found
there from `indices` and changes nothing else. -/
theorem removeIndices_spec {E : Error → ProtoArray → Prop} :
    ∀ (is : List Nat) (t : ProtoArray), (∀ i ∈ is, i < t.nodes.length) →
      Triple (· = t) (removeIndices is) (fun _ u => u = { t with
        indices := PositionMap.erasePrefix (is.filterMap fun i => (t.nodes.map (·.root))[i]?)
          t.indices }) E
  | [], t, _ => Triple.pure fun _ h => h
  | i :: rest, t, hidx => by
    rw [removeIndices]
    refine triple_node_bind (fun s n hs hn => ?_) (fun s hs hnone => ?_)
    · subst hs
      refine Triple.bind Triple.modify_eq fun _ => ?_
      refine (removeIndices_spec rest { s with indices := s.indices.erase n.root }
        fun j hj => hidx j (List.mem_cons_of_mem i hj)).mono
        (fun _ h => h) (fun _ u hu => ?_) (fun _ _ => id)
      rw [hu, List.filterMap_cons, List.getElem?_map, hn, Option.map_some]
      rfl
    · subst hs
      rw [List.getElem?_eq_getElem (hidx i List.mem_cons_self)] at hnone
      cases hnone

section Prune
variable {pa : ProtoArray} {k : Nat}

@[simp] theorem getElem?_prunedAt (j : Nat) :
    (prunedAt k pa).nodes[j]? = pa.nodes[j + k]?.map (reindexedNode k) := by
  simp [prunedAt, List.getElem?_drop, Nat.add_comm]

theorem parentAt_prunedAt (c : Nat) :
    parentAt ProtoNode.parent (prunedAt k pa).nodes c =
      shiftParent k (parentAt ProtoNode.parent pa.nodes (c + k)) := by
  unfold parentAt
  rw [getElem?_prunedAt]
  cases pa.nodes[c + k]? <;> rfl

/-- A prune at a position inside the array keeps the structure. -/
theorem Wf.prunedAt (h : pa.Wf) : (prunedAt k pa).Wf where
  indices := by
    have hkeys : (ProtoArray.prunedAt k pa).nodes.map (·.root) = (pa.nodes.map (·.root)).drop k := by
      simp [ProtoArray.prunedAt, List.map_drop, Function.comp_def]
    rw [hkeys]
    exact h.indices.drop k
  topological := h.topological.drop parentAt_prunedAt
  bestChild := by
    intro i n' c' hn' hc'
    rw [getElem?_prunedAt, Option.map_eq_some_iff] at hn'
    obtain ⟨n, hn, rfl⟩ := hn'
    obtain ⟨c, hc, rfl⟩ := Option.map_eq_some_iff.mp hc'
    have hlink := h.bestChild _ n c hn hc
    have hlt := h.topological c _ hlink
    rw [parentAt_prunedAt, Nat.sub_add_cancel (by omega), hlink, shiftParent_eq_some]
  bestDescendant := by
    intro i n' d' hn' hd'
    rw [getElem?_prunedAt, Option.map_eq_some_iff] at hn'
    obtain ⟨n, hn, rfl⟩ := hn'
    obtain ⟨d, hd, rfl⟩ := Option.map_eq_some_iff.mp hd'
    have hdesc := h.bestDescendant _ n d hn hd
    have hlt := hdesc.lt h.topological
    rw [descends_drop h.topological parentAt_prunedAt, Nat.sub_add_cancel (by omega)]
    exact hdesc

/-- Under the structure, `maybe_prune` either changes nothing (an unknown finalized root, or
one below the threshold) or is the prune at the finalized node's position: none of its checks
fails. -/
theorem maybePrune_spec {s : ProtoArray} (hs : s.Wf) (finalizedRoot : Nat) :
    Triple (· = s) (maybePrune finalizedRoot)
      (fun _ s' => s' = s ∨ ∃ k, s.indices.lookup finalizedRoot = some k ∧
        s.pruneThreshold ≤ k ∧ s' = prunedAt k s)
      (fun e s' => s' = s ∧ e = .finalizedNodeUnknown finalizedRoot) := by
  unfold maybePrune
  refine Triple.get_bind_eq (Triple.ofOption_bind (fun k hk => ?_) (fun _ _ h => ⟨h, rfl⟩))
  refine Triple.get_bind_eq ?_
  dsimp only
  split
  · exact Triple.pure fun _ h => .inl h
  rename_i hthreshold
  have hlen : k < s.nodes.length := hs.lt_length hk
  have hrange : ∀ i ∈ List.range k, i < s.nodes.length := fun i hi => by
    rw [List.mem_range] at hi
    omega
  refine Triple.bind (removeIndices_spec _ _ hrange) fun _ => ?_
  rw [PositionMap.filterMap_getElem?_range]
  refine Triple.bind Triple.modify_eq fun _ => Triple.get_bind_eq ?_
  dsimp only
  split
  · -- Every position left after the erasure is at least `k`.
    rename_i hany
    obtain ⟨e, he, hlt⟩ := List.any_eq_true.mp hany
    have hlookup := (AList.mem_lookup_iff).mpr he
    have := hs.indices.le_of_lookup_erasePrefix hlookup
    simp at hlt
    omega
  refine Triple.bind Triple.set_eq fun _ => Triple.get_bind_eq ?_
  have hlinks : ∀ n ∈ s.nodes.drop k, LinksFrom k n := by
    intro n hn
    obtain ⟨j, hj, hjn⟩ := List.getElem_of_mem hn
    rw [List.getElem_drop] at hjn
    exact hs.linksFrom (List.getElem?_eq_some_iff.mpr ⟨_, hjn⟩) (Nat.le_add_right k j)
  simp only [reindexNodes_of_linksFrom hlinks]
  refine Triple.bind Triple.set_eq fun _ => Triple.pure fun _ h => .inr ⟨k, hk, by omega, ?_⟩
  rw [h]
  rfl

end Prune


/-- The root at a position of the array. -/
def rootAt (pa : ProtoArray) (i : Nat) : Option Nat :=
  pa.nodes[i]?.map (·.root)

/-- `pa'` is `pa` with its first `k` nodes pruned: every survivor keeps its fields but the
links, and the links name the same roots as before, a parent among the pruned cut. -/
def PrunedLinks (pa pa' : ProtoArray) (k : Nat) : Prop :=
  pa'.nodes.length + k = pa.nodes.length ∧
    ∀ j n', pa'.nodes[j]? = some n' → ∃ n, pa.nodes[j + k]? = some n ∧
      n' = { n with
        parent := n'.parent
        bestChild := n'.bestChild
        bestDescendant := n'.bestDescendant } ∧
      n'.parent.map (rootAt pa') = (n.parent.filter (k ≤ ·)).map (rootAt pa) ∧
      n'.bestChild.map (rootAt pa') = n.bestChild.map (rootAt pa) ∧
      n'.bestDescendant.map (rootAt pa') = n.bestDescendant.map (rootAt pa)

theorem prunedLinks_refl (pa : ProtoArray) : PrunedLinks pa pa 0 := by
  refine ⟨rfl, fun j n' hn' => ⟨n', hn', rfl, ?_, rfl, rfl⟩⟩
  cases n'.parent <;> rfl

section Links
variable {pa : ProtoArray} {k : Nat}

theorem rootAt_prunedAt (c : Nat) : rootAt (prunedAt k pa) c = rootAt pa (c + k) := by
  simp [rootAt, Option.map_map, Function.comp_def]

/-- A link at or after `k`, shifted down, names the same root. -/
theorem rootAt_prunedAt_sub {c : Nat} (hc : k ≤ c) :
    rootAt (prunedAt k pa) (c - k) = rootAt pa c := by
  rw [rootAt_prunedAt, Nat.sub_add_cancel hc]

theorem map_rootAt_shiftParent (p : Option Nat) :
    (shiftParent k p).map (rootAt (prunedAt k pa)) = (p.filter (k ≤ ·)).map (rootAt pa) := by
  cases p with
  | none => rfl
  | some p =>
    by_cases hp : k ≤ p
    · simp [shiftParent, hp, rootAt_prunedAt_sub hp]
    · simp [shiftParent, hp]
      omega

theorem map_rootAt_shift {l : Option Nat} (hl : ∀ c ∈ l, k ≤ c) :
    (l.map (· - k)).map (rootAt (prunedAt k pa)) = l.map (rootAt pa) := by
  cases l with
  | none => rfl
  | some c => simp [rootAt_prunedAt_sub (hl c rfl)]

/-- A prune at a position inside the array keeps every survivor's links by root. -/
theorem Wf.prunedLinks (h : pa.Wf) (hk : k ≤ pa.nodes.length) :
    PrunedLinks pa (ProtoArray.prunedAt k pa) k := by
  refine ⟨by simp [ProtoArray.prunedAt]; omega, fun j n' hn' => ?_⟩
  rw [getElem?_prunedAt, Option.map_eq_some_iff] at hn'
  obtain ⟨n, hn, rfl⟩ := hn'
  obtain ⟨hbc, hbd⟩ := h.linksFrom hn (Nat.le_add_left k j)
  exact ⟨n, hn, rfl, map_rootAt_shiftParent _, map_rootAt_shift hbc, map_rootAt_shift hbd⟩

end Links

end ProtoArray

end Lighthouse.ForkChoice
