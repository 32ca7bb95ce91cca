import Lighthouse.ProtoArray.ForkChoice

/-! The structure of a `ProtoArray` and its preservation. `Wf` says that `indices` maps each
root to its node's position and nothing else, that parents come before their children, and that
a node's `best_child` is one of its children and its `best_descendant` one of its descendants.
Every method keeps it, also when it fails half way, and under it none of them fails with an
error about an index. -/
namespace Lighthouse.ForkChoice
open EState Forest

namespace ProtoArray

/-- The structural invariant of the array. -/
structure Wf (pa : ProtoArray) : Prop where
  indices : PositionMap.Indexes pa.indices (pa.nodes.map (·.root))
  topological : Topological ProtoNode.parent pa.nodes
  bestChild : ∀ i n c, pa.nodes[i]? = some n → n.bestChild = some c →
    parentAt ProtoNode.parent pa.nodes c = some i
  bestDescendant : ∀ i n d, pa.nodes[i]? = some n → n.bestDescendant = some d →
    Descends ProtoNode.parent pa.nodes d i

end ProtoArray

/-- The errors that report a position outside the array. -/
def Error.IsIndexError : Error → Prop
  | .invalidNodeIndex _ | .invalidParentDelta _ | .invalidBestDescendant _
  | .indexOverflow _ => True
  | _ => False

namespace ProtoArray

/-- A program keeps the structure and fails, if at all, with no index error. -/
def KeepsWf {α : Type} (m : M α) : Prop :=
  Triple Wf m (fun _ => Wf) (fun e pa => Wf pa ∧ ¬ e.IsIndexError)

section Frame
variable {pa : ProtoArray}

theorem Wf.congr (h : pa.Wf) {pa' : ProtoArray} (hn : pa'.nodes = pa.nodes)
    (hi : pa'.indices = pa.indices) : pa'.Wf := by
  obtain ⟨h₁, h₂, h₃, h₄⟩ := h
  exact ⟨hn ▸ hi ▸ h₁, hn ▸ h₂, hn ▸ h₃, hn ▸ h₄⟩

theorem Wf.lt_length (h : pa.Wf) {r i : Nat} (hr : pa.indices.lookup r = some i) :
    i < pa.nodes.length := by
  simpa using h.indices.lt_length hr

theorem Wf.parent_lt_length (h : pa.Wf) {i p : Nat} {n : ProtoNode} (hn : pa.nodes[i]? = some n)
    (hp : n.parent = some p) : p < pa.nodes.length := by
  have hpi := h.topological i p (by simp [parentAt, hn, hp])
  have := (List.getElem?_eq_some_iff.mp hn).1
  omega

/-- Rewriting one node keeps the structure when its root and parent stay and its new best
child and best descendant are a child and a descendant. -/
theorem Wf.set (h : pa.Wf) {i : Nat} {n n' : ProtoNode} (hn : pa.nodes[i]? = some n)
    (hroot : n'.root = n.root) (hparent : n'.parent = n.parent)
    (hbc : ∀ c, n'.bestChild = some c → parentAt ProtoNode.parent pa.nodes c = some i)
    (hbd : ∀ d, n'.bestDescendant = some d → Descends ProtoNode.parent pa.nodes d i) :
    ({ pa with nodes := pa.nodes.set i n' } : ProtoArray).Wf := by
  have hpar : ∀ x, pa.nodes[i]? = some x → n'.parent = x.parent := by
    intro x hx
    rw [hn] at hx
    cases hx
    exact hparent
  have hlinks := parentAt_set hpar
  have hdesc : ∀ d a, Descends ProtoNode.parent (pa.nodes.set i n') d a ↔
      Descends ProtoNode.parent pa.nodes d a := fun d a => descends_congr hlinks
  have hi : i < pa.nodes.length := (List.getElem?_eq_some_iff.mp hn).1
  refine ⟨?_, h.topological.set hpar, ?_, ?_⟩
  · have hkeys : (pa.nodes.set i n').map (·.root) = pa.nodes.map (·.root) := by
      rw [List.map_set, hroot]
      have : (pa.nodes.map (·.root))[i]? = some n.root := by simp [hn]
      obtain ⟨hlt, hget⟩ := List.getElem?_eq_some_iff.mp this
      rw [← hget]
      exact List.set_getElem_self hlt
    simpa only [hkeys] using h.indices
  · intro j m c hm hc
    rw [hlinks]
    rw [List.getElem?_set] at hm
    by_cases hij : i = j
    · subst hij
      simp only [hi, ↓reduceIte, Option.some.injEq] at hm
      subst hm
      exact hbc c hc
    · simp only [hij, ↓reduceIte] at hm
      exact h.bestChild j m c hm hc
  · intro j m d hm hd
    rw [hdesc]
    rw [List.getElem?_set] at hm
    by_cases hij : i = j
    · subst hij
      simp only [hi, ↓reduceIte, Option.some.injEq] at hm
      subst hm
      exact hbd d hd
    · simp only [hij, ↓reduceIte] at hm
      exact h.bestDescendant j m d hm hd

/-- A write that keeps the root and the parent and at most drops the links (a new weight or
execution status, a best child forgotten). -/
theorem Wf.set_of_links (h : pa.Wf) {i : Nat} {n n' : ProtoNode} (hn : pa.nodes[i]? = some n)
    (hroot : n'.root = n.root) (hparent : n'.parent = n.parent)
    (hbc : ∀ c, n'.bestChild = some c → n.bestChild = some c)
    (hbd : ∀ d, n'.bestDescendant = some d → n.bestDescendant = some d) :
    ({ pa with nodes := pa.nodes.set i n' } : ProtoArray).Wf :=
  h.set hn hroot hparent (fun c hc => h.bestChild i n c hn (hbc c hc))
    (fun d hd => h.bestDescendant i n d hn (hbd d hd))

/-- Appending a fresh node with a parent inside the array and no best child. -/
theorem Wf.push (h : pa.Wf) {node : ProtoNode} (hfresh : node.root ∉ pa.indices)
    (hparent : ∀ p, node.parent = some p → p < pa.nodes.length) (hbc : node.bestChild = none)
    (hbd : node.bestDescendant = none) :
    ({ pa with
        indices := pa.indices.insert node.root pa.nodes.length
        nodes := pa.nodes ++ [node] } : ProtoArray).Wf := by
  have hkeys : node.root ∉ pa.nodes.map (·.root) := fun hk => hfresh ((h.indices.mem_iff _).mpr hk)
  have hlen : (pa.nodes.map (·.root)).length = pa.nodes.length := List.length_map _
  refine ⟨?_, h.topological.push hparent, ?_, ?_⟩
  · simpa [hlen] using h.indices.push hkeys
  · intro j m c hm hc
    by_cases hj : j < pa.nodes.length
    · rw [List.getElem?_append_left hj] at hm
      have hc' := h.bestChild j m c hm hc
      rw [parentAt_append_of_lt (parentAt_lt_length hc')]
      exact hc'
    · rw [List.getElem?_append_right (by omega)] at hm
      simp only [List.getElem?_singleton, Option.ite_none_right_eq_some, Option.some.injEq] at hm
      rw [← hm.2, hbc] at hc
      cases hc
  · intro j m d hm hd
    by_cases hj : j < pa.nodes.length
    · rw [List.getElem?_append_left hj] at hm
      exact (h.bestDescendant j m d hm hd).push node
    · rw [List.getElem?_append_right (by omega)] at hm
      simp only [List.getElem?_singleton, Option.ite_none_right_eq_some, Option.some.injEq] at hm
      rw [← hm.2, hbd] at hd
      cases hd

theorem length_set_nodes (pa : ProtoArray) (i : Nat) (n : ProtoNode) :
    ({ pa with nodes := pa.nodes.set i n } : ProtoArray).nodes.length = pa.nodes.length := by
  simp

end Frame

/-- Reading a node of the current state and continuing with it. -/
theorem triple_node_bind {β : Type} {P : ProtoArray → Prop} {i : Nat} {e : Error}
    {k : ProtoArray → ProtoNode → M β} {Q : β → ProtoArray → Prop}
    {E : Error → ProtoArray → Prop}
    (hk : ∀ s n, P s → s.nodes[i]? = some n → Triple (· = s) (k s n) Q E)
    (hnone : ∀ s, P s → s.nodes[i]? = none → E e s) :
    Triple P (do let pa ← get; let node ← ofOption pa.nodes[i]? e; k pa node) Q E := by
  refine Triple.get_bind fun s hs => ?_
  have hread : Triple (· = s) (ofOption s.nodes[i]? e)
      (fun n s' => s' = s ∧ s.nodes[i]? = some n) E :=
    Triple.ofOption (fun n hn s' hs' => ⟨hs', hn⟩) fun hn s' hs' => hs' ▸ hnone s hs hn
  exact Triple.bind hread fun n s' ⟨hs', hn⟩ => hk s n hs hn s' hs'

/-- Reading a node that is there, from a known state. -/
theorem triple_node_bind_eq {β : Type} {s : ProtoArray} {i : Nat} {n : ProtoNode} {e : Error}
    {k : ProtoArray → ProtoNode → M β} {Q : β → ProtoArray → Prop} {E : Error → ProtoArray → Prop}
    (hn : s.nodes[i]? = some n) (h : Triple (· = s) (k s n) Q E) :
    Triple (· = s) (do let pa ← get; let node ← ofOption pa.nodes[i]? e; k pa node) Q E :=
  triple_node_bind (fun _ n' ht hn' => by
      subst ht
      rw [hn, Option.some.injEq] at hn'
      subst hn'
      exact h)
    (fun _ ht hnone => by
      subst ht
      rw [hn] at hnone
      cases hnone)

section BestChild
variable {pa : ProtoArray}

theorem bestChildAndDescendant_cases {pa : ProtoArray} {p c : Nat} {r : Option Nat × Option Nat}
    (h : pa.bestChildAndDescendant p c = .ok r) :
    ∃ child parent, pa.nodes[c]? = some child ∧ pa.nodes[p]? = some parent ∧
      (r = (none, none) ∨ r = (some c, some (child.bestDescendant.getD c)) ∨
        r = (parent.bestChild, parent.bestDescendant)) := by
  unfold bestChildAndDescendant at h
  cases hc : pa.nodes[c]? with
  | none => simp [hc, okOr, bind, Except.bind] at h
  | some child =>
  cases hp : pa.nodes[p]? with
  | none => simp [hc, hp, okOr, bind, Except.bind] at h
  | some parent =>
  refine ⟨child, parent, rfl, rfl, ?_⟩
  simp only [hc, hp, okOr, bind, Except.bind] at h
  split at h
  · cases h
  split at h
  · -- The parent has a best child: keep it, replace it, or drop it.
    split_ifs at h
    · simp only [pure, Except.pure, Except.ok.injEq] at h
      exact .inl h.symm
    · simp only [pure, Except.pure, Except.ok.injEq] at h
      simp [← h]
    · split at h
      · cases h
      split at h
      · cases h
      split_ifs at h <;> simp only [pure, Except.pure, Except.ok.injEq] at h <;> simp [← h]
  · split_ifs at h <;> simp only [pure, Except.pure, Except.ok.injEq] at h <;> simp [← h]
theorem nodeLeadsToViableHead_ok (h : pa.Wf) {i : Nat} {n : ProtoNode}
    (hn : pa.nodes[i]? = some n) : ∃ b, pa.nodeLeadsToViableHead n = .ok b := by
  unfold nodeLeadsToViableHead
  cases hbd : n.bestDescendant with
  | none => exact ⟨_, rfl⟩
  | some d =>
    have hd := (h.bestDescendant i n d hn hbd).lt_length
    simp [List.getElem?_eq_getElem hd, okOr, bind, Except.bind, pure, Except.pure]

/-- Under the structure, offering a child to its parent never fails. -/
theorem bestChildAndDescendant_ok (h : pa.Wf) {p c : Nat}
    (hpc : parentAt ProtoNode.parent pa.nodes c = some p) :
    ∃ r, pa.bestChildAndDescendant p c = .ok r := by
  have hc := parentAt_lt_length hpc
  have hp : p < pa.nodes.length := Nat.lt_trans (h.topological c p hpc) hc
  obtain ⟨b, hb⟩ := nodeLeadsToViableHead_ok h (List.getElem?_eq_getElem hc)
  unfold bestChildAndDescendant
  simp only [List.getElem?_eq_getElem hc, List.getElem?_eq_getElem hp, okOr, hb, bind,
    Except.bind]
  cases hbc : pa.nodes[p].bestChild with
  | none => split_ifs <;> exact ⟨_, rfl⟩
  | some bc =>
    have hbcl := parentAt_lt_length (h.bestChild p _ bc (List.getElem?_eq_getElem hp) hbc)
    obtain ⟨b', hb'⟩ := nodeLeadsToViableHead_ok h (List.getElem?_eq_getElem hbcl)
    simp only [List.getElem?_eq_getElem hbcl, hb']
    split_ifs <;> exact ⟨_, rfl⟩

/-- The new links of the parent are a child and a descendant of it. -/
theorem bestChildAndDescendant_links (h : pa.Wf) {p c : Nat}
    (hpc : parentAt ProtoNode.parent pa.nodes c = some p) {r : Option Nat × Option Nat}
    (hr : pa.bestChildAndDescendant p c = .ok r) :
    (∀ c', r.1 = some c' → parentAt ProtoNode.parent pa.nodes c' = some p) ∧
      ∀ d, r.2 = some d → Descends ProtoNode.parent pa.nodes d p := by
  obtain ⟨child, parent, hchild, hparent, hr⟩ := bestChildAndDescendant_cases hr
  rcases hr with rfl | rfl | rfl
  · simp
  · refine ⟨fun c' hc' => by cases hc'; exact hpc, fun d hd => ?_⟩
    cases hbd : child.bestDescendant with
    | none =>
      simp only [hbd, Option.getD_none, Option.some.injEq] at hd
      exact hd ▸ .single hpc
    | some d' =>
      simp only [hbd, Option.getD_some, Option.some.injEq] at hd
      exact hd ▸ (h.bestDescendant c child d' hchild hbd).trans (.single hpc)
  · exact ⟨fun c' hc' => h.bestChild p parent c' hparent hc',
      fun d hd => h.bestDescendant p parent d hparent hd⟩

/-- Offering a child to its parent keeps the structure, and under it never fails. -/
theorem maybeUpdateBestChildAndDescendant_keepsWf (p c : Nat) :
    Triple (fun s => s.Wf ∧ parentAt ProtoNode.parent s.nodes c = some p)
      (maybeUpdateBestChildAndDescendant p c) (fun _ => Wf) (fun _ _ => False) := by
  refine Triple.get_bind fun s ⟨hs, hpc⟩ => ?_
  obtain ⟨r, hr⟩ := bestChildAndDescendant_ok hs hpc
  have hchoice : Triple (· = s) (ofResult (s.bestChildAndDescendant p c))
      (fun r' s' => s' = s ∧ r' = r) (fun _ _ => False) :=
    Triple.ofResult (fun r' hr' s' hs' => ⟨hs', by rw [hr] at hr'; cases hr'; rfl⟩)
      fun e he => by rw [hr] at he; cases he
  refine Triple.bind hchoice fun ⟨bc, bd⟩ => ?_
  refine triple_node_bind (fun s' parent ⟨hs', hrr⟩ hparent => ?_) (fun s' ⟨hs', _⟩ hnone => ?_)
  · subst hs' hrr
    obtain ⟨hbc, hbd⟩ := bestChildAndDescendant_links hs hpc hr
    refine Triple.modify_of fun s'' hs'' => ?_
    subst hs''
    exact hs.set hparent rfl rfl hbc hbd
  · subst hs'
    have hp := Nat.lt_trans (hs.topological c p hpc) (parentAt_lt_length hpc)
    rw [List.getElem?_eq_getElem hp] at hnone
    cases hnone

theorem maybeUpdateBestChildAndDescendant_length (p c L : Nat) :
    Triple (fun s => s.nodes.length = L) (maybeUpdateBestChildAndDescendant p c)
      (fun _ s => s.nodes.length = L) (fun _ s => s.nodes.length = L) := by
  refine Triple.get_bind fun s hs => ?_
  refine Triple.bind (Triple.ofResult (fun r _ s' h => h) fun _ _ s' h => h ▸ hs) fun ⟨bc, bd⟩ => ?_
  refine triple_node_bind (fun s' parent hs' _ => ?_) (fun s' hs' _ => hs' ▸ hs)
  exact Triple.modify_of fun s'' h => by subst h hs'; simpa using hs

/-- Rewriting a node into one with the same image leaves the image of the array. -/
theorem map_set_of_eq {β : Type} (f : ProtoNode → β) {l : List ProtoNode} {i : Nat}
    {n n' : ProtoNode} (hn : l[i]? = some n) (he : f n' = f n) :
    (l.set i n').map f = l.map f := by
  apply List.ext_getElem?
  intro j
  rw [List.getElem?_map, List.getElem?_map, List.getElem?_set]
  split
  · rename_i hij
    subst hij
    rw [hn]
    simp [(List.getElem?_eq_some_iff.mp hn).1, he]
  · rfl

theorem maybeUpdateBestChildAndDescendant_map {β : Type} (f : ProtoNode → β)
    (hf : ∀ n bc bd, f { n with bestChild := bc, bestDescendant := bd } = f n) (p c : Nat)
    (L : List β) :
    Triple (fun s => s.nodes.map f = L) (maybeUpdateBestChildAndDescendant p c)
      (fun _ s => s.nodes.map f = L) (fun _ s => s.nodes.map f = L) := by
  refine Triple.get_bind fun s hs => ?_
  refine Triple.bind (Triple.ofResult (fun r _ s' h => h) fun _ _ s' h => h ▸ hs) fun ⟨bc, bd⟩ => ?_
  refine triple_node_bind (fun s' parent hs' hparent => ?_) (fun s' hs' _ => hs' ▸ hs)
  refine Triple.modify_of fun s'' h => ?_
  subst h hs'
  rw [← hs]
  exact map_set_of_eq f hparent (hf _ _ _)

end BestChild

theorem triple_setNode {s : ProtoArray} {i : Nat} {n : ProtoNode} {E : Error → ProtoArray → Prop} :
    Triple (· = s) (setNode i n) (fun _ s' => s' = { s with nodes := s.nodes.set i n }) E :=
  Triple.modify_eq

/-- The validation walk keeps the structure: it only rewrites execution statuses, and it
follows parent links, which stay inside the array. -/
theorem propagateValidationLoop_keepsWf :
    ∀ fuel i, Triple (fun s => s.Wf ∧ i < s.nodes.length) (propagateValidationLoop fuel i)
      (fun _ => Wf) (fun e s => s.Wf ∧ ¬ e.IsIndexError)
  | 0, _ => Triple.pure fun _ h => h.1
  | fuel + 1, i => by
    unfold propagateValidationLoop
    refine triple_node_bind (fun s n ⟨hs, _⟩ hn => ?_) (fun s ⟨_, hi⟩ hnone => ?_)
    · split
      · exact Triple.pure fun s' h => h ▸ hs
      · exact Triple.pure fun s' h => h ▸ hs
      · rename_i payloadBlockHash _
        let n' := { n with executionStatus := .valid payloadBlockHash }
        have hs' : ({ s with nodes := s.nodes.set i n' } : ProtoArray).Wf :=
          hs.set_of_links hn rfl rfl (fun _ => id) (fun _ => id)
        refine Triple.bind triple_setNode fun _ => ?_
        split
        · rename_i p hp
          refine (propagateValidationLoop_keepsWf fuel p).mono (fun s' hs'' => ?_)
            (fun _ _ => id) (fun _ _ => id)
          subst hs''
          exact ⟨hs', by simpa using hs.parent_lt_length hn hp⟩
        · exact Triple.pure fun _ h => h ▸ hs'
      · exact Triple.throw fun s' h => h ▸ ⟨hs, id⟩
    · rw [List.getElem?_eq_getElem hi] at hnone
      cases hnone

theorem propagateExecutionPayloadValidationByIndex_keepsWf {i : Nat} :
    Triple (fun s => s.Wf ∧ i < s.nodes.length) (propagateExecutionPayloadValidationByIndex i)
      (fun _ => Wf) (fun e s => s.Wf ∧ ¬ e.IsIndexError) :=
  Triple.get_bind fun s hs =>
    (propagateValidationLoop_keepsWf s.nodes.length i).mono (fun _ h => h ▸ hs)
      (fun _ _ => id) (fun _ _ => id)

theorem propagateExecutionPayloadValidation_keepsWf (blockRoot : Nat) :
    KeepsWf (propagateExecutionPayloadValidation blockRoot) := by
  refine Triple.get_bind fun s hs => ?_
  have hlookup : Triple (· = s)
      (ofOption (s.indices.lookup blockRoot) (Error.nodeUnknown blockRoot) : M Nat)
      (fun i s' => s' = s ∧ s.indices.lookup blockRoot = some i)
      (fun e s' => s'.Wf ∧ ¬ Error.IsIndexError e) :=
    Triple.ofOption (fun i hi s' h => ⟨h, hi⟩) (fun _ s' h => h ▸ ⟨hs, id⟩)
  refine Triple.bind hlookup fun i => ?_
  exact propagateExecutionPayloadValidationByIndex_keepsWf.mono
    (fun s' ⟨hs', hi⟩ => hs' ▸ ⟨hs, hs.lt_length hi⟩) (fun _ _ => id) (fun _ _ => id)

theorem onBlock_keepsWf (block : Block) : KeepsWf (onBlock block) := by
  refine Triple.get_bind fun s hs => ?_
  split
  · exact Triple.pure fun _ h => h ▸ hs
  rename_i hfresh
  dsimp only
  -- The parent, when known, is a node of the array.
  have hparent : ∀ p, (s.nodeOfBlock block).parent = some p → p < s.nodes.length := by
    intro p hp
    obtain ⟨r, -, hr⟩ := Option.bind_eq_some_iff.mp hp
    exact hs.lt_length hr
  have hpushed := hs.push hfresh hparent rfl rfl
  split
  · rename_i p hp
    have hlen := hparent p hp
    have hread : Triple (· = s) (ofOption s.nodes[p]? (Error.invalidNodeIndex p))
        (fun parent s' => s' = s ∧ s.nodes[p]? = some parent)
        (fun e s' => s'.Wf ∧ ¬ e.IsIndexError) :=
      Triple.ofOption (fun parent h s' hs' => ⟨hs', h⟩)
        (fun h => by rw [List.getElem?_eq_getElem hlen] at h; cases h)
    refine Triple.bind hread fun parent => ?_
    split
    · exact Triple.throw_bind fun s' h => h.1 ▸ ⟨hs, id⟩
    · refine Triple.bind Triple.set_eq fun _ => ?_
      dsimp only
      -- Offer the new node to its parent, then validate upwards from the parent.
      have hoffer := (maybeUpdateBestChildAndDescendant_keepsWf p s.nodes.length).and
        (maybeUpdateBestChildAndDescendant_length p s.nodes.length (s.nodes.length + 1))
      refine Triple.bind (hoffer.mono (fun s' h => ?_) (fun _ _ => id) (fun _ _ h => h.1.elim))
        fun _ => ?_
      · subst h
        exact ⟨⟨hpushed, by simpa [parentAt] using hp⟩, by simp⟩
      split
      · exact propagateExecutionPayloadValidationByIndex_keepsWf.mono
          (fun s' h => ⟨h.1, by have := h.2; omega⟩) (fun _ _ => id) (fun _ _ => id)
      · exact Triple.pure fun _ h => h.1
  · rename_i hnone
    refine Triple.bind Triple.set_eq fun _ => ?_
    split
    · rename_i p hp
      exact absurd hp (by simp_all)
    · exact Triple.pure fun _ h => h ▸ hpushed

/-- The errors of the weight arithmetic of one node. -/
def ScoreError (nodeIndex : Nat) (e : Error) : Prop :=
  e = .invalidExecutionDeltaOverflow nodeIndex ∨ e = .invalidNodeDelta nodeIndex ∨
    e = .deltaOverflow nodeIndex ∨ e = .proposerBoostOverflow nodeIndex

theorem scoreChange_errorsIn (slotsPerEpoch : Nat) (newBalances : List Nat) (proposerBoostRoot : Nat)
    (spec : ChainSpec) (pa : ProtoArray) (nodeIndex : Nat) (node : ProtoNode) (deltas : List Int)
    (proposerScore : Nat) :
    ErrorsIn (ScoreError nodeIndex) (scoreChange slotsPerEpoch newBalances proposerBoostRoot spec pa
      nodeIndex node deltas proposerScore) := by
  unfold scoreChange
  dsimp only
  -- Each step passes a value on or fails with one of the four errors.
  repeat' (first
    | exact ErrorsIn.pure
    | exact ErrorsIn.okOr (by simp [ScoreError])
    | refine ErrorsIn.ite (fun _ => ?_) (fun _ => ?_)
    | refine ErrorsIn.bind ?_ (fun _ _ => ?_)
    | split)

theorem ScoreError.not_isIndexError {i : Nat} {e : Error} (h : ScoreError i e) :
    ¬ e.IsIndexError := by
  rcases h with rfl | rfl | rfl | rfl <;> exact id

theorem applyDeltas_keepsWf (slotsPerEpoch : Nat) (newBalances : List Nat) (proposerBoostRoot : Nat)
    (spec : ChainSpec) : ∀ (is : List Nat) (deltas : List Int) (proposerScore : Nat),
    Triple (fun s => s.Wf ∧ deltas.length = s.nodes.length ∧ ∀ i ∈ is, i < s.nodes.length)
      (applyDeltas slotsPerEpoch newBalances proposerBoostRoot spec is deltas proposerScore)
      (fun _ => Wf) (fun e s => s.Wf ∧ ¬ e.IsIndexError)
  | [], _, _ => Triple.pure fun _ h => h.1
  | i :: rest, deltas, proposerScore => by
    rw [applyDeltas]
    have ih := applyDeltas_keepsWf slotsPerEpoch newBalances proposerBoostRoot spec rest
    refine triple_node_bind (fun s n ⟨hs, hlen, hidx⟩ hn => ?_) (fun s ⟨_, _, hidx⟩ hnone => ?_)
    · have hrest : ∀ j ∈ rest, j < s.nodes.length := fun j hj =>
        hidx j (List.mem_cons_of_mem i hj)
      split
      · exact (ih deltas proposerScore).mono (fun s' h => h ▸ ⟨hs, hlen, hrest⟩)
          (fun _ _ => id) (fun _ _ => id)
      · have hscore : Triple (· = s) (ofResult (scoreChange slotsPerEpoch newBalances
            proposerBoostRoot spec s i n deltas proposerScore)) (fun _ t => t = s)
            (fun e t => t.Wf ∧ ¬ e.IsIndexError) :=
          Triple.ofResult (fun _ _ _ ht => ht) fun e he _ ht =>
            ht ▸ ⟨hs, (scoreChange_errorsIn _ _ _ _ _ _ _ _ _ e he).not_isIndexError⟩
        refine Triple.bind hscore fun ⟨proposerScore', nodeDelta, weight⟩ => ?_
        let n' := { n with weight }
        have hs' : ({ s with nodes := s.nodes.set i n' } : ProtoArray).Wf :=
          hs.set_of_links hn rfl rfl (fun _ => id) (fun _ => id)
        have hrest' : ∀ j ∈ rest, j < (s.nodes.set i n').length := by simpa using hrest
        refine Triple.bind triple_setNode fun _ => ?_
        split
        · rename_i p hp
          have hp' : p < deltas.length := hlen ▸ hs.parent_lt_length hn hp
          have hread : Triple (· = { s with nodes := s.nodes.set i n' })
              (ofOption deltas[p]? (Error.invalidParentDelta p))
              (fun _ t => t = { s with nodes := s.nodes.set i n' })
              (fun e t => t.Wf ∧ ¬ e.IsIndexError) :=
            Triple.ofOption (fun _ _ _ ht => ht) fun hnone => by
              rw [List.getElem?_eq_none_iff] at hnone
              omega
          refine Triple.bind hread fun parentDelta => ?_
          exact (ih _ proposerScore').mono (fun t ht => ht ▸ ⟨hs', by simp [hlen], hrest'⟩)
            (fun _ _ => id) (fun _ _ => id)
        · exact (ih deltas proposerScore').mono (fun t ht => ht ▸ ⟨hs', by simp [hlen], hrest'⟩)
            (fun _ _ => id) (fun _ _ => id)
    · rw [List.getElem?_eq_getElem (hidx i List.mem_cons_self)] at hnone
      cases hnone
theorem updateBestChildren_keepsWf : ∀ is : List Nat,
    Triple (fun s => s.Wf ∧ ∀ i ∈ is, i < s.nodes.length) (updateBestChildren is)
      (fun _ => Wf) (fun e s => s.Wf ∧ ¬ e.IsIndexError)
  | [] => Triple.pure fun _ h => h.1
  | i :: rest => by
    rw [updateBestChildren]
    have ih := updateBestChildren_keepsWf rest
    refine triple_node_bind (fun s n hpre hn => ?_) (fun s hpre hnone => ?_)
    · obtain ⟨hs, hidx⟩ := hpre
      have hrest : ∀ j ∈ rest, j < s.nodes.length := fun j hj =>
        hidx j (List.mem_cons_of_mem i hj)
      dsimp only
      split
      · rename_i p hp
        have hoffer := (maybeUpdateBestChildAndDescendant_keepsWf p i).and
          (maybeUpdateBestChildAndDescendant_length p i s.nodes.length)
        have hpi : parentAt ProtoNode.parent s.nodes i = some p := by simp [parentAt, hn, hp]
        refine Triple.bind (hoffer.mono (fun t ht => by subst ht; exact ⟨⟨hs, hpi⟩, rfl⟩)
          (fun _ _ => id) (fun _ _ h => h.1.elim)) fun _ => ?_
        exact ih.mono (fun t h => ⟨h.1, h.2 ▸ hrest⟩) (fun _ _ => id) (fun _ _ => id)
      · exact ih.mono (fun t ht => ht ▸ ⟨hs, hrest⟩) (fun _ _ => id) (fun _ _ => id)
    · rw [List.getElem?_eq_getElem (hpre.2 i List.mem_cons_self)] at hnone
      cases hnone

theorem applyScoreChanges_keepsWf (slotsPerEpoch : Nat) (deltas : List Int)
    (justifiedCheckpoint finalizedCheckpoint : Checkpoint) (newBalances : List Nat)
    (proposerBoostRoot : Nat) (spec : ChainSpec) :
    KeepsWf (applyScoreChanges slotsPerEpoch deltas justifiedCheckpoint finalizedCheckpoint
      newBalances proposerBoostRoot spec) := by
  refine Triple.get_bind fun s hs => ?_
  -- Both ways past the checkpoint update end in the same loops, over the nodes of `s`.
  have htail : ∀ t : ProtoArray, t.Wf → t.nodes.length = s.nodes.length →
      deltas.length = t.nodes.length → Triple (· = t) (do
        let proposerScore ← applyDeltas slotsPerEpoch newBalances proposerBoostRoot spec
          (List.range s.nodes.length).reverse deltas 0
        modify fun pa : ProtoArray =>
          { pa with previousProposerBoost := ⟨proposerBoostRoot, proposerScore⟩ }
        updateBestChildren (List.range (← get).nodes.length).reverse)
        (fun _ => Wf) (fun (e : Error) pa => pa.Wf ∧ ¬ e.IsIndexError) := by
    intro t ht hlen hd
    have hdeltas : Triple (· = t) (applyDeltas slotsPerEpoch newBalances proposerBoostRoot spec
        (List.range s.nodes.length).reverse deltas 0) (fun _ => Wf)
        (fun e pa => pa.Wf ∧ ¬ e.IsIndexError) :=
      (applyDeltas_keepsWf slotsPerEpoch newBalances proposerBoostRoot spec _ deltas 0).mono
        (fun u hu => hu ▸ ⟨ht, hd, fun i hi => by simpa [hlen] using hi⟩)
        (fun _ _ => id) (fun _ _ => id)
    refine Triple.bind hdeltas fun proposerScore => ?_
    have hboost : Triple Wf (modify fun pa : ProtoArray =>
        { pa with previousProposerBoost := ⟨proposerBoostRoot, proposerScore⟩ } : M PUnit)
        (fun _ => Wf) (fun e pa => pa.Wf ∧ ¬ e.IsIndexError) :=
      Triple.modify_of fun u hu => hu.congr rfl rfl
    refine Triple.bind hboost fun _ => Triple.get_bind fun u hu => ?_
    exact (updateBestChildren_keepsWf _).mono (fun v hv => by subst hv; exact ⟨hu, by simp⟩)
      (fun _ _ => id) (fun _ _ => id)
  dsimp only
  split
  · exact Triple.throw_bind fun _ h => by subst h; exact ⟨hs, id⟩
  · rename_i hlen
    have hd : deltas.length = s.nodes.length := by
      simpa [hs.indices.length] using hlen
    split
    · exact Triple.bind Triple.set_eq fun _ => htail _ (hs.congr rfl rfl) rfl hd
    · exact htail s hs rfl hd

/-- The last step of `invalidate_ancestors`, going on to the parent when there is one: from
a well-formed state in which the parent is a node, the walk keeps the structure. -/
theorem invalidateAncestors_parent_keepsWf (op : InvalidationOperation) (headBlockRoot : Nat)
    (latestValidAncestorIsDescendant : Bool) {fuel : Nat}
    (ih : ∀ index inv, Triple (fun s => s.Wf ∧ index < s.nodes.length)
      (invalidateAncestors op headBlockRoot latestValidAncestorIsDescendant fuel index inv)
      (fun _ => Wf) (fun e s => s.Wf ∧ ¬ e.IsIndexError))
    {t : ProtoArray} (ht : t.Wf) {parent : Option Nat}
    (hparent : ∀ p, parent = some p → p < t.nodes.length) (inv : List Nat) :
    Triple (· = t) (match parent with
      | some parentIndex => invalidateAncestors op headBlockRoot
          latestValidAncestorIsDescendant fuel parentIndex inv
      | none => pure inv) (fun _ => Wf) (fun e s => s.Wf ∧ ¬ e.IsIndexError) := by
  cases parent with
  | some p =>
    exact (ih p inv).mono (fun u hu => by subst hu; exact ⟨ht, hparent p rfl⟩)
      (fun _ _ => id) (fun _ _ => id)
  | none => exact Triple.pure fun _ h => h ▸ ht

/-- The invalidation walk up from the head only rewrites statuses and drops links. -/
theorem invalidateAncestors_keepsWf (op : InvalidationOperation) (headBlockRoot : Nat)
    (latestValidAncestorIsDescendant : Bool) :
    ∀ fuel index invalidatedIndices, Triple (fun s => s.Wf ∧ index < s.nodes.length)
      (invalidateAncestors op headBlockRoot latestValidAncestorIsDescendant fuel index
        invalidatedIndices) (fun _ => Wf) (fun e s => s.Wf ∧ ¬ e.IsIndexError)
  | 0, _, _ => Triple.pure fun _ h => h.1
  | fuel + 1, index, invalidatedIndices => by
    rw [invalidateAncestors]
    have ih := invalidateAncestors_keepsWf op headBlockRoot latestValidAncestorIsDescendant fuel
    refine triple_node_bind (fun s n hpre hn => ?_) (fun s hpre hnone => ?_)
    · have hs := hpre.1
      -- Going on to the parent, from any state with the same nodes' count and structure.
      have hnext : ∀ (t : ProtoArray), t.Wf → t.nodes.length = s.nodes.length → ∀ inv, _ :=
        fun t ht hlen => invalidateAncestors_parent_keepsWf op headBlockRoot
          latestValidAncestorIsDescendant ih ht fun p hp => hlen ▸ hs.parent_lt_length hn hp
      dsimp only
      split
      · exact Triple.pure fun _ h => h ▸ hs
      split
      · exact Triple.pure fun _ h => h ▸ hs
      split
      · -- The latest valid ancestor forgets the links into what was just invalidated.
        refine Triple.bind triple_setNode fun _ => Triple.pure fun _ h => h ▸ ?_
        exact hs.set_of_links hn rfl rfl (fun c => by split <;> simp) (fun d => by split <;> simp)
      split
      · split
        · exact Triple.throw fun _ h => by subst h; exact ⟨hs, id⟩
        · refine Triple.bind triple_setNode fun _ => hnext _ ?_ (by simp) _
          exact hs.set_of_links hn rfl rfl (by simp) (by simp)
        · exact hnext s hs rfl _
        · exact Triple.pure fun _ h => h ▸ hs
      · exact hnext s hs rfl _
    · rw [List.getElem?_eq_getElem hpre.2] at hnone
      cases hnone

theorem invalidateDescendants_keepsWf : ∀ (is invalidatedIndices : List Nat),
    Triple (fun s => s.Wf ∧ ∀ i ∈ is, i < s.nodes.length)
      (invalidateDescendants is invalidatedIndices) (fun _ => Wf)
      (fun e s => s.Wf ∧ ¬ e.IsIndexError)
  | [], _ => Triple.pure fun _ h => h.1
  | i :: rest, invalidatedIndices => by
    rw [invalidateDescendants]
    have ih := invalidateDescendants_keepsWf rest
    refine triple_node_bind (fun s n ⟨hs, hidx⟩ hn => ?_) (fun s ⟨_, hidx⟩ hnone => ?_)
    · have hrest : ∀ j ∈ rest, j < s.nodes.length := fun j hj =>
        hidx j (List.mem_cons_of_mem i hj)
      have hskip : ∀ inv, Triple (· = s) (invalidateDescendants rest inv) (fun _ => Wf)
          (fun e s => s.Wf ∧ ¬ e.IsIndexError) := fun inv =>
        (ih inv).mono (fun t ht => ht ▸ ⟨hs, hrest⟩) (fun _ _ => id) (fun _ _ => id)
      -- An optimistic or invalid child of an invalidated node becomes invalid.
      have hmark : ∀ hash inv, Triple (· = s) (do
          setNode i { n with executionStatus := .invalid hash }
          invalidateDescendants rest (i :: inv)) (fun _ => Wf)
          (fun e s => s.Wf ∧ ¬ e.IsIndexError) := fun hash inv =>
        Triple.bind triple_setNode fun _ => (ih _).mono (fun t ht => by
            subst ht
            exact ⟨hs.set_of_links hn rfl rfl (fun _ => id) (fun _ => id), by simpa using hrest⟩)
          (fun _ _ => id) (fun _ _ => id)
      split
      · split
        · split
          · exact Triple.throw fun _ h => by subst h; exact ⟨hs, id⟩
          · exact hmark _ _
          · exact hmark _ _
          · exact Triple.throw fun _ h => by subst h; exact ⟨hs, id⟩
        · exact hskip _
      · exact hskip _
    · rw [List.getElem?_eq_getElem (hidx i List.mem_cons_self)] at hnone
      cases hnone

theorem propagateExecutionPayloadInvalidation_keepsWf (op : InvalidationOperation) :
    KeepsWf (propagateExecutionPayloadInvalidation op) := by
  refine Triple.get_bind fun s hs => ?_
  have hlookup : Triple (· = s) (ofOption (s.indices.lookup op.blockRoot)
      (Error.nodeUnknown op.blockRoot) : M Nat) (fun i t => t = s ∧ i < s.nodes.length)
      (fun e t => t.Wf ∧ ¬ e.IsIndexError) :=
    Triple.ofOption (fun i hi t ht => ⟨ht, hs.lt_length hi⟩) fun _ t ht => ht ▸ ⟨hs, id⟩
  refine Triple.bind hlookup fun index => ?_
  dsimp only
  refine Triple.bind ((invalidateAncestors_keepsWf _ _ _ _ _ _).mono
    (fun t ⟨ht, hi⟩ => ⟨ht ▸ hs, ht ▸ hi⟩) (fun _ _ => id) (fun _ _ => id)) fun inv => ?_
  refine Triple.get_bind fun t ht => ?_
  -- A start that is not known ends the method without an index error.
  have hstart : ∀ r, Triple (· = t) (ofOption (t.indices.lookup r) (Error.nodeUnknown r) : M Nat)
      (fun _ u => u = t) (fun e u => u.Wf ∧ ¬ e.IsIndexError) := fun r =>
    Triple.ofOption (fun _ _ _ hu => hu) fun _ u hu => hu ▸ ⟨ht, id⟩
  refine Triple.bind (hstart _) fun start => Triple.get_bind fun u hu => ?_
  subst hu
  refine (invalidateDescendants_keepsWf _ inv).mono (fun v hv => ?_) (fun _ _ => id)
    (fun _ _ => id)
  subst hv
  refine ⟨ht, fun i hi => ?_⟩
  rw [List.mem_range'_1] at hi
  omega

end ProtoArray

end Lighthouse.ForkChoice
