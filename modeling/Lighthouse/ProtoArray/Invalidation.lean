import Lighthouse.ProtoArray.Marking

/-! `propagate_execution_payload_invalidation`. The method walks up from the head, marking the
optimistic nodes of the path up to the latest valid ancestor (or the head alone, when that
ancestor is not known below the finalized block), then forwards over the rest of the array,
marking every node whose parent was marked. It fails on a valid node of the path and on a valid
or irrelevant node below a marked one, keeping what it wrote. From consistent statuses it
succeeds exactly when the path holds no valid node, and then marks the path and everything
below its optimistic nodes, which keeps the statuses consistent. Over runs from `new` of
`on_block`, the validation walk and successful invalidations the facts (a)-(c) hold. -/
namespace Lighthouse.ForkChoice
open EState Forest

namespace ProtoArray

section Lookups
variable {pa : ProtoArray}

@[simp] theorem iterNodes_none (fuel : Nat) : pa.iterNodes fuel none = [] := by
  cases fuel <;> rfl

theorem mem_iterNodes : ∀ {fuel i : Nat} {node : ProtoNode}, node ∈ pa.iterNodes fuel (some i) →
    ∃ j, pa.nodes[j]? = some node ∧ (j = i ∨ Descends ProtoNode.parent pa.nodes i j)
  | 0, _, _, h => by simp [iterNodes] at h
  | fuel + 1, i, node, h => by
    unfold iterNodes at h
    split at h
    · rename_i n hn
      rcases List.mem_cons.mp h with rfl | h
      · exact ⟨i, hn, .inl rfl⟩
      · cases hp : n.parent with
        | none =>
          rw [hp, iterNodes_none] at h
          cases h
        | some p =>
          rw [hp] at h
          obtain ⟨j, hj, hpj⟩ := mem_iterNodes h
          have hip : parentAt ProtoNode.parent pa.nodes i = some p := by simp [parentAt, hn, hp]
          refine ⟨j, hj, .inr ?_⟩
          rcases hpj with rfl | hpj
          · exact .single hip
          · exact (Descends.single hip).trans hpj
    · simp at h

/-- `is_descendant` answers yes only for a known ancestor-or-self of a known block. -/
theorem isDescendant_eq_true (hwf : pa.Wf) {a d : Nat} (h : pa.isDescendant a d = true) :
    ∃ ia k, pa.indices.lookup a = some ia ∧ pa.indices.lookup d = some k ∧
      (k = ia ∨ Descends ProtoNode.parent pa.nodes k ia) := by
  unfold isDescendant at h
  split at h
  · rename_i ancestor hanc
    obtain ⟨ia, hia, -⟩ := Option.bind_eq_some_iff.mp hanc
    cases hfind : ((pa.iterNodes pa.nodes.length (pa.indices.lookup d)).takeWhile
        fun node => decide (node.slot ≥ ancestor.slot)).find?
          (fun node => node.slot == ancestor.slot) with
    | none => simp [hfind] at h
    | some node =>
      simp only [hfind, Option.map_some, Option.getD_some, beq_iff_eq] at h
      have hmem := List.takeWhile_subset _ (List.mem_of_find?_eq_some hfind)
      cases hd : pa.indices.lookup d with
      | none => simp [hd] at hmem
      | some k =>
        rw [hd] at hmem
        obtain ⟨j, hj, hij⟩ := mem_iterNodes hmem
        have hja : pa.indices.lookup a = some j :=
          (hwf.indices a j).mpr (by rw [List.getElem?_map, hj, Option.map_some, h])
        rw [hja, Option.some.injEq] at hia
        subst hia
        exact ⟨j, k, hja, rfl, hij.imp Eq.symm id⟩
  · simp at h

theorem any_beq_eq_true {o : Option Nat} {h : Nat} : o.any (· == h) = true ↔ o = some h := by
  cases o <;> simp

/-- The block of a payload hash is the last node that carries it. -/
theorem executionBlockHashToBeaconBlockRoot_eq_some (hwf : pa.Wf) {h r : Nat}
    (hr : pa.executionBlockHashToBeaconBlockRoot h = some r) :
    ∃ i n, pa.indices.lookup r = some i ∧ pa.nodes[i]? = some n ∧
      n.executionStatus.blockHash = some h ∧
      ∀ j m, i < j → pa.nodes[j]? = some m → m.executionStatus.blockHash ≠ some h := by
  unfold executionBlockHashToBeaconBlockRoot at hr
  obtain ⟨node, hfind, rfl⟩ := Option.map_eq_some_iff.mp hr
  obtain ⟨i, hi, hp, hlast⟩ := PositionMap.find?_reverse_eq_some hfind
  refine ⟨i, node, (hwf.indices node.root i).mpr (by rw [List.getElem?_map, hi]; rfl), hi,
    any_beq_eq_true.mp hp, fun j m hij hm hmh => ?_⟩
  have := hlast j m hij hm
  rw [hmh] at this
  simp at this

end Lookups

theorem Wf.node_of_lookup {s : ProtoArray} (hwf : s.Wf) {r i : Nat}
    (h : s.indices.lookup r = some i) : ∃ n, s.nodes[i]? = some n ∧ n.root = r := by
  have hr := (hwf.indices r i).mp h
  rw [List.getElem?_map, Option.map_eq_some_iff] at hr
  exact hr

theorem Wf.eq_of_root_eq {s : ProtoArray} (hwf : s.Wf) {i j : Nat} {n m : ProtoNode}
    (hn : s.nodes[i]? = some n) (hm : s.nodes[j]? = some m) (hroot : n.root = m.root) : i = j := by
  have hi := (hwf.indices n.root i).mpr (by rw [List.getElem?_map, hn]; rfl)
  have hj := (hwf.indices n.root j).mpr (by rw [List.getElem?_map, hm, hroot]; rfl)
  rw [hi] at hj
  exact Option.some.inj hj

theorem blockHash_eq_none {st : ExecutionStatus} : st.blockHash = none ↔ st.isIrrelevant = true := by
  cases st <;> simp [ExecutionStatus.blockHash, ExecutionStatus.isIrrelevant]

/-- The walk of `propagate_execution_payload_invalidation` up from the head when the latest
valid ancestor `r` is a known ancestor: every node on the path below `r` is marked invalid and
the optimistic ones are collected, and it fails only on a valid node of the path. -/
theorem invalidateAncestors_toAncestor (op : InvalidationOperation) (headBlockRoot : Nat)
    {lvaHash r : Nat} (hop : op.latestValidAncestor = some lvaHash) :
    ∀ fuel i (inv : List Nat) (s : ProtoArray), s.Wf → i < fuel →
      (i = r ∨ Descends ProtoNode.parent s.nodes i r) →
      (∃ n, s.nodes[r]? = some n ∧ n.executionStatus.blockHash = some lvaHash) →
      (∀ y n, Between ProtoNode.parent s.nodes i r y → s.nodes[y]? = some n →
        n.executionStatus.blockHash.isSome ∧ n.executionStatus.blockHash ≠ some lvaHash) →
      Triple (· = s) (invalidateAncestors op headBlockRoot true fuel i inv)
        (fun R s' => (∀ x, x ∈ R ↔ x ∈ inv ∨ (Between ProtoNode.parent s.nodes i r x ∧
            s.HasStatus ExecutionStatus.isOptimistic x)) ∧
          MarkedIn s (Between ProtoNode.parent s.nodes i r) s')
        (fun _ _ => ∃ y, Between ProtoNode.parent s.nodes i r y ∧
          s.HasStatus ExecutionStatus.isValidAndPostBellatrix y)
  | 0, _, _, _, _, hfuel, _, _, _ => absurd hfuel (Nat.not_lt_zero _)
  | fuel + 1, i, inv, s, hwf, hfuel, hir, ⟨nr, hnr, hrhash⟩, hchain => by
    rw [invalidateAncestors]
    refine triple_node_bind (fun s₀ n hs₀ hn => ?_) (fun s₀ hs₀ hnone => ?_)
    · subst hs₀
      dsimp only
      rcases hir with rfl | hir
      · -- At the latest valid ancestor the walk stops; it forgets links only.
        rw [hn, Option.some.injEq] at hnr
        subst hnr
        rw [hrhash]
        simp only [Bool.not_true, Bool.false_and, Bool.false_eq_true, ↓reduceIte, hop,
          beq_self_eq_true]
        refine Triple.bind triple_setNode fun _ => Triple.pure fun _ h => ?_
        subst h
        have hnot := not_between_self hwf.topological i
        refine ⟨fun x => by simp [hnot x], ?_⟩
        refine MarkedIn.congr ?_ fun x => (iff_false_intro (hnot x)).symm
        exact markedIn_set_links hwf hn rfl rfl (fun c => by split <;> simp)
          (fun d => by split <;> simp) rfl
      · -- A node of the path: marked invalid, then the walk goes on to its parent.
        have hmem : Between ProtoNode.parent s₀.nodes i r i := ⟨.inl rfl, hir⟩
        obtain ⟨hsome, hne⟩ := hchain i n hmem hn
        obtain ⟨hash, hhash⟩ := Option.isSome_iff_exists.mp hsome
        rw [hhash]
        have hne' : (op.latestValidAncestor == some hash) = false := by
          have : lvaHash ≠ hash := fun h => hne (h ▸ hhash)
          rw [hop]
          simpa using this
        simp only [Bool.not_true, Bool.false_and, Bool.false_eq_true, ↓reduceIte, hne',
          Bool.or_true]
        obtain ⟨p, hip⟩ : ∃ p, parentAt ProtoNode.parent s₀.nodes i = some p := by
          obtain ⟨p, hp, -⟩ := Relation.TransGen.head'_iff.mp hir
          exact ⟨p, hp⟩
        have hp : n.parent = some p := by simpa [parentAt, hn] using hip
        have hpi : p < i := hwf.topological i p hip
        have hpr := hir.parent_eq_or hip
        -- The walk goes on to the parent `p`.
        have hnext : ∀ (t : ProtoArray) (inv' : List Nat), MarkedIn s₀ (· = i) t →
            (∀ x, x ∈ inv' ↔ x ∈ inv ∨ (x = i ∧ s₀.HasStatus ExecutionStatus.isOptimistic i)) →
            (∀ x, x ≠ i → t.nodes[x]? = s₀.nodes[x]?) →
            Triple (· = t) (invalidateAncestors op headBlockRoot true fuel p inv')
              (fun R s' => (∀ x, x ∈ R ↔ x ∈ inv ∨ (Between ProtoNode.parent s₀.nodes i r x ∧
                  s₀.HasStatus ExecutionStatus.isOptimistic x)) ∧
                MarkedIn s₀ (Between ProtoNode.parent s₀.nodes i r) s')
              (fun _ _ => ∃ y, Between ProtoNode.parent s₀.nodes i r y ∧
                s₀.HasStatus ExecutionStatus.isValidAndPostBellatrix y) := by
          intro t inv' ht hinv' hsame
          have hstep := between_iff_of_parent hip hir
          -- Above `i` nothing was written.
          have hbelow : ∀ y, Between ProtoNode.parent s₀.nodes p r y → y ≠ i := by
            rintro y ⟨hy | hy, -⟩
            · omega
            · have := hy.lt hwf.topological
              omega
          have hr : t.nodes[r]? = some nr := by
            rw [hsame r (by have := hir.lt hwf.topological; omega), hnr]
          refine (invalidateAncestors_toAncestor op headBlockRoot hop fuel p inv' t ht.wf
            (by omega) (hpr.imp id (descends_congr (parentAt_eq_of_map_eq ht.parents)).mpr)
            ⟨nr, hr, hrhash⟩ (fun y m hy hm => ?_)).mono (fun _ h => h)
            (fun R s' h => ⟨fun x => ?_, ?_⟩) (fun _ _ hex => ?_)
          · rw [between_congr ht.parents] at hy
            rw [hsame y (hbelow y hy)] at hm
            exact hchain y m ((hstep y).mpr (.inr hy)) hm
          · rw [h.1 x, hinv' x, between_congr ht.parents, hstep x]
            by_cases hx : x = i
            · subst hx
              have hnb : ¬ Between ProtoNode.parent s₀.nodes p r x := fun h => hbelow x h rfl
              simp [hnb]
            · rw [hasStatus_congr (hsame x hx)]
              simp [hx]
          · exact (ht.trans h.2).congr fun x => by rw [between_congr ht.parents, hstep x]
          · obtain ⟨y, hy, hv⟩ := hex
            rw [between_congr ht.parents] at hy
            rw [hasStatus_congr (hsame y (hbelow y hy))] at hv
            exact ⟨y, (hstep y).mpr (.inr hy), hv⟩
        split
        · rename_i payloadBlockHash hst
          exact Triple.throw fun _ _ => ⟨i, hmem, n, hn, by simp [hst,
            ExecutionStatus.isValidAndPostBellatrix]⟩
        · rename_i hash' hst
          refine Triple.bind triple_setNode fun _ => ?_
          refine Triple.intro fun t ht => ?_
          rw [hp]
          refine hnext t _ ?_ ?_ ?_
          · subst ht
            exact markedIn_set hwf hn rfl rfl (by simp) (by simp) (by simp [hst,
              ExecutionStatus.markedInvalid])
          · have hopt : s₀.HasStatus ExecutionStatus.isOptimistic i :=
              ⟨n, hn, by simp [hst, ExecutionStatus.isOptimistic]⟩
            intro x
            simp only [List.mem_cons, hopt, and_true]
            exact or_comm
          · intro x hx
            subst ht
            exact List.getElem?_set_ne (Ne.symm hx)
        · rename_i hash' hst
          rw [hp]
          refine hnext s₀ inv (markedIn_self hwf hn (by simp [hst,
            ExecutionStatus.markedInvalid])) (fun x => ?_) (fun _ _ => rfl)
          simp [HasStatus, hn, hst, ExecutionStatus.isOptimistic]
        · rename_i b hst
          rw [hst] at hhash
          cases hhash
    · subst hs₀
      have hi : i < s₀.nodes.length := by
        rcases hir with rfl | hir
        · exact (List.getElem?_eq_some_iff.mp hnr).1
        · exact hir.lt_length
      rw [List.getElem?_eq_getElem hi] at hnone
      cases hnone

/-- Without a known latest valid ancestor the walk stops at the first node that is not the
head. -/
theorem invalidateAncestors_stop (op : InvalidationOperation) (headBlockRoot : Nat) {s : ProtoArray}
    {p : Nat} {m : ProtoNode} (hm : s.nodes[p]? = some m) (hroot : m.root ≠ headBlockRoot)
    (fuel : Nat) (inv : List Nat) :
    Triple (· = s) (invalidateAncestors op headBlockRoot false fuel p inv)
      (fun R s' => R = inv ∧ s' = s) (fun _ _ => False) := by
  cases fuel with
  | zero => exact Triple.pure fun _ h => ⟨rfl, h⟩
  | succ fuel =>
    rw [invalidateAncestors]
    refine triple_node_bind (fun t m' ht hm' => ?_) (fun t ht hnone => ?_)
    · subst ht
      rw [hm, Option.some.injEq] at hm'
      subst hm'
      dsimp only
      split
      · exact Triple.pure fun _ h => ⟨rfl, h⟩
      · have hne : (m.root != headBlockRoot) = true := by simpa using hroot
        simp only [Bool.not_false, hne, Bool.and_self, ↓reduceIte]
        exact Triple.pure fun _ h => ⟨rfl, h⟩
    · subst ht
      rw [hm] at hnone
      cases hnone

/-- Without a known latest valid ancestor, the head alone is invalidated: when that is asked
for, the head has a payload, and its payload is not the latest valid one. -/
def HeadInvalidated (op : InvalidationOperation) (head : ProtoNode) : Prop :=
  op.invalidateBlockRoot = true ∧ head.executionStatus.blockHash.isSome = true ∧
    op.latestValidAncestor ≠ head.executionStatus.blockHash

/-- Going on from the head to its parent ends the walk there, when the nodes other than the
head are as they were: the parent is not the head. -/
theorem invalidateAncestors_parent_stop (op : InvalidationOperation) {s : ProtoArray}
    (hwf : s.Wf) {hi : Nat} {n : ProtoNode} (hn : s.nodes[hi]? = some n) {headBlockRoot : Nat}
    (hroot : n.root = headBlockRoot) (fuel : Nat) (t : ProtoArray) (inv : List Nat)
    (hsame : ∀ x, x ≠ hi → t.nodes[x]? = s.nodes[x]?) :
    Triple (· = t) (match n.parent with
      | some parentIndex => invalidateAncestors op headBlockRoot false fuel parentIndex inv
      | none => pure inv) (fun R s' => R = inv ∧ s' = t) (fun _ _ => False) := by
  split
  · rename_i p hp
    have hpi : p < hi := hwf.topological hi p (by simp [parentAt, hn, hp])
    have hplen := hwf.parent_lt_length hn hp
    refine invalidateAncestors_stop op headBlockRoot
      (by rw [hsame p (by omega)]; exact List.getElem?_eq_getElem hplen) ?_ fuel inv
    intro h
    have := hwf.eq_of_root_eq (List.getElem?_eq_getElem hplen) hn (h.trans hroot.symm)
    omega
  · exact Triple.pure fun _ h => ⟨rfl, h⟩

/-- The walk up from the head when the latest valid ancestor is not a known ancestor. -/
theorem invalidateAncestors_atHead (op : InvalidationOperation) {s : ProtoArray} (hwf : s.Wf)
    {hi : Nat} {n : ProtoNode} (hn : s.nodes[hi]? = some n) {headBlockRoot : Nat}
    (hroot : n.root = headBlockRoot) {fuel : Nat} (hfuel : 0 < fuel) :
    Triple (· = s) (invalidateAncestors op headBlockRoot false fuel hi [])
      (fun R s' => (∀ x, x ∈ R ↔ x = hi ∧ HeadInvalidated op n ∧
          n.executionStatus.isOptimistic = true) ∧
        MarkedIn s (fun x => x = hi ∧ HeadInvalidated op n) s')
      (fun _ _ => HeadInvalidated op n ∧ n.executionStatus.isValidAndPostBellatrix = true) := by
  obtain ⟨fuel, rfl⟩ : ∃ f, fuel = f + 1 := ⟨fuel - 1, by omega⟩
  rw [invalidateAncestors]
  refine triple_node_bind_eq hn ?_
  · dsimp only
    have hnext := invalidateAncestors_parent_stop op hwf hn hroot fuel
    have hne : (n.root != headBlockRoot) = false := by simp [hroot]
    split
    · rename_i hnone
      refine Triple.pure fun _ h => ⟨fun x => by simp [HeadInvalidated, hnone], ?_⟩
      subst h
      exact (MarkedIn.refl hwf).congr fun x => by simp [HeadInvalidated, hnone]
    rename_i hash hhash
    simp only [Bool.not_false, hne, Bool.and_false, Bool.false_eq_true, ↓reduceIte,
      Bool.or_false, Bool.false_or]
    split
    · -- The head carries the latest valid payload: only its links change.
      rename_i hlva
      have hlva' : op.latestValidAncestor = n.executionStatus.blockHash := by
        rw [hhash]
        simpa using hlva
      refine Triple.bind triple_setNode fun _ => Triple.pure fun _ h => ?_
      subst h
      refine ⟨fun x => by simp [HeadInvalidated, hlva'], MarkedIn.congr
        (markedIn_set_links hwf hn rfl rfl (fun c => by split <;> simp)
          (fun d => by split <;> simp) rfl) fun x => ?_⟩
      simp [HeadInvalidated, hlva']
    rename_i hlva
    have hlva' : op.latestValidAncestor ≠ n.executionStatus.blockHash := by
      rw [hhash]
      simpa using hlva
    have hsome : n.executionStatus.blockHash.isSome = true := by simp [hhash]
    split
    · rename_i hask
      have hinv : HeadInvalidated op n := ⟨hask, hsome, hlva'⟩
      split
      · rename_i payloadBlockHash hst
        exact Triple.throw fun _ _ => ⟨hinv, by simp [hst, ExecutionStatus.isValidAndPostBellatrix]⟩
      · rename_i hash' hst
        refine Triple.bind triple_setNode fun _ => ?_
        refine Triple.intro fun t ht => ?_
        refine (hnext t [hi] fun x hx => ?_).mono (fun _ h => h) (fun R s' h => ?_)
          (fun _ _ h => h.elim)
        · subst ht
          exact List.getElem?_set_ne (Ne.symm hx)
        · obtain ⟨rfl, rfl⟩ := h
          subst ht
          refine ⟨fun x => by simp [hinv, hst, ExecutionStatus.isOptimistic], ?_⟩
          refine MarkedIn.congr (markedIn_set hwf hn rfl rfl (by simp) (by simp)
            (by simp [hst, ExecutionStatus.markedInvalid])) fun x => ?_
          simp [hinv]
      · rename_i hash' hst
        refine (hnext s [] fun _ _ => rfl).mono (fun _ h => h) (fun R s' h => ?_)
          (fun _ _ h => h.elim)
        obtain ⟨rfl, rfl⟩ := h
        refine ⟨fun x => by simp [hst, ExecutionStatus.isOptimistic], ?_⟩
        refine (markedIn_self hwf hn (by simp [hst, ExecutionStatus.markedInvalid])).congr
          fun x => ?_
        simp [hinv]
      · rename_i b hst
        rw [hst] at hhash
        cases hhash
    · rename_i hask
      have hnot : ¬ HeadInvalidated op n := fun h => hask h.1
      refine (hnext s [] fun _ _ => rfl).mono (fun _ h => h) (fun R s' h => ?_)
        (fun _ _ h => h.elim)
      obtain ⟨rfl, rfl⟩ := h
      exact ⟨fun x => by simp [hnot], (MarkedIn.refl hwf).congr fun x => by simp [hnot]⟩

/-- The positions the forward pass of `propagate_execution_payload_invalidation` marks: from
`a` on, those whose parent is reached from the list `T`. -/
def Covered (s : ProtoArray) (T : List Nat) (a x : Nat) : Prop :=
  a ≤ x ∧ ∃ p, parentAt ProtoNode.parent s.nodes x = some p ∧ Reached ProtoNode.parent s.nodes T a p

/-- The forward pass over the positions from `a` to the end marks exactly the covered ones, and
fails only on a covered node that is valid or irrelevant. -/
theorem invalidateDescendants_spec : ∀ (k : Nat) (T : List Nat) (s : ProtoArray) (a : Nat),
    s.Wf → a + k = s.nodes.length →
    Triple (· = s) (invalidateDescendants (List.range' a k) T)
      (fun _ s' => MarkedIn s (Covered s T a) s')
      (fun _ _ => ∃ x, Covered s T a x ∧ s.HasStatus ExecutionStatus.isValidOrIrrelevant x)
  | 0, T, s, a, hwf, hlen => Triple.pure fun _ h => by
    subst h
    refine (MarkedIn.refl hwf).congr fun x => ⟨False.elim, fun hx => ?_⟩
    obtain ⟨hax, p, hxp, -⟩ := hx
    have := parentAt_lt_length hxp
    omega
  | k + 1, T, s, a, hwf, hlen => by
    rw [List.range'_succ, invalidateDescendants]
    have ha : a < s.nodes.length := by omega
    refine triple_node_bind_eq (List.getElem?_eq_getElem ha) ?_
    -- Position `a` is marked when its parent is in `T`; the pass goes on from `a + 1`.
    have hnext : ∀ (t : ProtoArray) (T' : List Nat),
        MarkedIn s (fun x => x = a ∧ ∃ p, parentAt ProtoNode.parent s.nodes a = some p ∧ p ∈ T) t →
        (∀ x, x ∈ T' ↔ x ∈ T ∨ (x = a ∧ ∃ p, parentAt ProtoNode.parent s.nodes a = some p ∧ p ∈ T)) →
        (∀ x, x ≠ a → t.nodes[x]? = s.nodes[x]?) →
        Triple (· = t) (invalidateDescendants (List.range' (a + 1) k) T')
          (fun _ s' => MarkedIn s (Covered s T a) s')
          (fun _ _ => ∃ x, Covered s T a x ∧ s.HasStatus ExecutionStatus.isValidOrIrrelevant x) := by
      intro t T' ht hT' hsame
      have hpar := parentAt_eq_of_map_eq ht.parents
      have hcov : ∀ x, Covered t T' (a + 1) x ↔ a + 1 ≤ x ∧ Covered s T a x := by
        intro x
        constructor
        · rintro ⟨hx, p, hp, hr⟩
          exact ⟨hx, by omega, p, (hpar x) ▸ hp,
            (reached_succ_iff hwf.topological T' hT' p).mpr (hr.congr hpar)⟩
        · rintro ⟨hx, -, p, hp, hr⟩
          exact ⟨hx, p, (hpar x).symm ▸ hp,
            ((reached_succ_iff hwf.topological T' hT' p).mp hr).congr fun c => (hpar c).symm⟩
      have hlen' : a + 1 + k = t.nodes.length := by
        have := congrArg List.length ht.parents
        simp only [List.length_map] at this
        omega
      refine (invalidateDescendants_spec k T' t (a + 1) ht.wf hlen').mono (fun _ h => h)
        (fun _ s' hm => (ht.trans hm).congr fun x => ?_) (fun _ _ hex => ?_)
      · rw [hcov x]
        constructor
        · rintro (⟨rfl, p, hp, hpT⟩ | ⟨-, h⟩)
          · exact ⟨Nat.le_refl _, p, hp, .mem hpT⟩
          · exact h
        · rintro ⟨hax, p, hp, hr⟩
          by_cases hxa : x = a
          · subst hxa
            exact .inl ⟨rfl, p, hp, hr.mem_of_lt (hwf.topological x p hp)⟩
          · exact .inr ⟨by omega, hax, p, hp, hr⟩
      · obtain ⟨x, hx, hv⟩ := hex
        obtain ⟨hx, hcovx⟩ := (hcov x).mp hx
        exact ⟨x, hcovx, (hasStatus_congr (hsame x (by omega))).mp hv⟩
    have hn := List.getElem?_eq_getElem ha
    -- A marked node becomes invalid and joins the list.
    have hmark : ∀ hash p, parentAt ProtoNode.parent s.nodes a = some p → p ∈ T →
        s.nodes[a].executionStatus.markedInvalid = .invalid hash →
        Triple (· = s) (do
          setNode a { s.nodes[a] with executionStatus := .invalid hash }
          invalidateDescendants (List.range' (a + 1) k) (a :: T))
          (fun _ s' => MarkedIn s (Covered s T a) s')
          (fun _ _ => ∃ x, Covered s T a x ∧ s.HasStatus ExecutionStatus.isValidOrIrrelevant x) := by
      intro hash p hap hpT hst
      refine Triple.bind triple_setNode fun _ => Triple.intro fun t ht => hnext t (a :: T) ?_ ?_ ?_
      · subst ht
        refine MarkedIn.congr (markedIn_set hwf hn rfl rfl (fun _ => id) (fun _ => id) hst.symm)
          fun x => ?_
        simp [hap, hpT]
      · intro x
        simp [hap, hpT, or_comm]
      · intro x hx
        subst ht
        exact List.getElem?_set_ne (Ne.symm hx)
    -- An unmarked node is passed over.
    have hskip : (¬ ∃ p, parentAt ProtoNode.parent s.nodes a = some p ∧ p ∈ T) →
        Triple (· = s) (invalidateDescendants (List.range' (a + 1) k) T)
          (fun _ s' => MarkedIn s (Covered s T a) s')
          (fun _ _ => ∃ x, Covered s T a x ∧ s.HasStatus ExecutionStatus.isValidOrIrrelevant x) :=
      fun hnot => hnext s T ((MarkedIn.refl hwf).congr fun x => by simp [hnot])
        (fun x => by simp [hnot]) fun _ _ => rfl
    split
    · rename_i p hp
      have hap : parentAt ProtoNode.parent s.nodes a = some p := by simp [parentAt, hn, hp]
      split
      · rename_i hpT
        have hcova : Covered s T a a := ⟨Nat.le_refl _, p, hap, .mem hpT⟩
        split
        · rename_i payloadBlockHash hst
          exact Triple.throw fun _ _ => ⟨a, hcova, s.nodes[a], hn, by
            simp [hst, ExecutionStatus.isValidOrIrrelevant]⟩
        · rename_i hash hst
          exact hmark hash p hap hpT (by simp [hst, ExecutionStatus.markedInvalid])
        · rename_i hash hst
          exact hmark hash p hap hpT (by simp [hst, ExecutionStatus.markedInvalid])
        · rename_i b hst
          exact Triple.throw fun _ _ => ⟨a, hcova, s.nodes[a], hn, by
            simp [hst, ExecutionStatus.isValidOrIrrelevant]⟩
      · rename_i hpT
        refine hskip fun hex => hpT ?_
        obtain ⟨p', hp', hp'T⟩ := hex
        rw [hap, Option.some.injEq] at hp'
        exact hp' ▸ hp'T
    · rename_i hp
      refine hskip fun hex => ?_
      obtain ⟨p', hp', -⟩ := hex
      simp [parentAt, hn, hp] at hp'

/-- When every listed position is at least `a - 1`, the pass covers exactly their
descendants. -/
theorem covered_iff {s : ProtoArray} (hwf : s.Wf) {T : List Nat} {a : Nat}
    (hT : ∀ y ∈ T, a ≤ y + 1) (x : Nat) :
    Covered s T a x ↔ ∃ y ∈ T, Descends ProtoNode.parent s.nodes x y := by
  constructor
  · rintro ⟨-, p, hp, hr⟩
    rcases (reached_iff hwf.topological hT p).mp hr with hpT | ⟨y, hy, hpy⟩
    · exact ⟨p, hpT, .single hp⟩
    · exact ⟨y, hy, (Descends.single hp).trans hpy⟩
  · rintro ⟨y, hy, hxy⟩
    obtain ⟨p, hp, hpy⟩ := Relation.TransGen.head'_iff.mp hxy
    have hxlt := hxy.lt hwf.topological
    have := hT y hy
    refine ⟨by omega, p, hp, (reached_iff hwf.topological hT p).mpr ?_⟩
    rcases Relation.reflTransGen_iff_eq_or_transGen.mp hpy with rfl | hpy
    · exact .inl hy
    · exact .inr ⟨y, hy, hpy⟩

/-- What `latest_valid_ancestor_is_descendant` being true tells: the latest valid hash names the
last node `r` that carries it, and `r` is the head or one of its ancestors. -/
theorem latestValidAncestorIsDescendant_eq_true {s : ProtoArray} (hwf : s.Wf)
    {op : InvalidationOperation} {hi : Nat} (hhead : s.indices.lookup op.blockRoot = some hi)
    (h : s.latestValidAncestorIsDescendant op = true) :
    ∃ r' r lvaHash nr, s.latestValidAncestorRoot op = some r' ∧
      op.latestValidAncestor = some lvaHash ∧ s.indices.lookup r' = some r ∧
      (hi = r ∨ Descends ProtoNode.parent s.nodes hi r) ∧ s.nodes[r]? = some nr ∧
      nr.executionStatus.blockHash = some lvaHash ∧
      ∀ j m, r < j → s.nodes[j]? = some m → m.executionStatus.blockHash ≠ some lvaHash := by
  unfold latestValidAncestorIsDescendant at h
  split at h
  · rename_i r' hr'
    obtain ⟨lvaHash, hop, hroot⟩ := Option.bind_eq_some_iff.mp hr'
    obtain ⟨r, nr, hr, hnr, hhash, hlast⟩ := executionBlockHashToBeaconBlockRoot_eq_some hwf hroot
    rw [Bool.and_eq_true] at h
    obtain ⟨ia, k, hia, hk, hdesc⟩ := isDescendant_eq_true hwf h.1
    rw [hr, Option.some.injEq] at hia
    rw [hhead, Option.some.injEq] at hk
    subst hia hk
    exact ⟨r', r, lvaHash, nr, hr', hop, hr, hdesc, hnr, hhash, hlast⟩
  · cases h

/-- The forward pass that ends `propagate_execution_payload_invalidation`, started after the
node of `r`: it marks the descendants of the collected list `R`, and fails only on a valid or
irrelevant one. -/
theorem invalidateDescendants_after {s s₁ : ProtoArray} {S : Nat → Prop} (h₁ : MarkedIn s S s₁)
    {r : Nat} (start : Nat) (hstart : s.indices.lookup r = some start) {R : List Nat}
    (hR : ∀ y ∈ R, start ≤ y) :
    Triple (· = s₁)
      (do
        let i ← ofOption ((← get).indices.lookup r) (Error.nodeUnknown r)
        let len := (← get).nodes.length
        invalidateDescendants (List.range' (i + 1) (len - (i + 1))) R)
      (fun _ s₂ => MarkedIn s (fun x => S x ∨ ∃ y ∈ R, Descends ProtoNode.parent s.nodes x y) s₂)
      (fun _ _ => ∃ x, (∃ y ∈ R, Descends ProtoNode.parent s.nodes x y) ∧
        s₁.HasStatus ExecutionStatus.isValidOrIrrelevant x) := by
  rw [← h₁.indices] at hstart
  refine Triple.get_bind_eq (Triple.ofOption_bind (fun i hi => ?_) fun hnone => ?_)
  · rw [hstart, Option.some.injEq] at hi
    subst hi
    have hlt := h₁.wf.lt_length hstart
    have hcov := covered_iff h₁.wf (a := start + 1) fun y hy => Nat.succ_le_succ (hR y hy)
    refine Triple.get_bind_eq ((invalidateDescendants_spec _ R s₁ (start + 1) h₁.wf
      (by omega)).mono (fun _ h => h) (fun _ s₂ h₂ => ?_) fun _ _ ⟨x, hx, hs⟩ => ?_)
    · refine (h₁.trans h₂).congr fun x => or_congr_right ?_
      rw [hcov]
      simp only [h₁.descends_iff]
    · exact ⟨x, by simpa only [hcov, h₁.descends_iff] using hx, hs⟩
  · rw [hstart] at hnone
    cases hnone

/-- The path the invalidation marks: from the head up to the latest valid ancestor, left out,
when that is a known ancestor; else the head alone, when that is asked for. -/
def InvalidationPath (s : ProtoArray) (op : InvalidationOperation) (hi : Nat) (head : ProtoNode)
    (x : Nat) : Prop :=
  if s.latestValidAncestorIsDescendant op then
    ∃ r' r, s.latestValidAncestorRoot op = some r' ∧ s.indices.lookup r' = some r ∧
      Between ProtoNode.parent s.nodes hi r x
  else x = hi ∧ HeadInvalidated op head

/-- The nodes an invalidation marks: the path, and every descendant of an optimistic node of
it. -/
def InvalidationSet (s : ProtoArray) (op : InvalidationOperation) (hi : Nat) (head : ProtoNode)
    (x : Nat) : Prop :=
  InvalidationPath s op hi head x ∨ ∃ y, InvalidationPath s op hi head y ∧
    s.HasStatus ExecutionStatus.isOptimistic y ∧ Descends ProtoNode.parent s.nodes x y

/-- Why an invalidation fails: an unknown head, a valid node on the path, or a valid or
irrelevant descendant of an optimistic node of the path. -/
def InvalidationFailure (s : ProtoArray) (op : InvalidationOperation) : Prop :=
  s.indices.lookup op.blockRoot = none ∨ ∃ hi head, s.indices.lookup op.blockRoot = some hi ∧
    s.nodes[hi]? = some head ∧
    ((∃ x, InvalidationPath s op hi head x ∧ s.HasStatus ExecutionStatus.isValidAndPostBellatrix x) ∨
      ∃ x, (∃ y, InvalidationPath s op hi head y ∧ s.HasStatus ExecutionStatus.isOptimistic y ∧
        Descends ProtoNode.parent s.nodes x y) ∧
        s.HasStatus ExecutionStatus.isValidOrIrrelevant x)

/-- The whole invalidation, from a state with consistent statuses: on success the invalidation
set is marked and nothing else; a failure has one of the reasons above. -/
theorem propagateExecutionPayloadInvalidation_spec {s : ProtoArray} (hwf : s.Wf)
    (hc : s.StatusConsistent) (op : InvalidationOperation) :
    Triple (· = s) (propagateExecutionPayloadInvalidation op)
      (fun _ s' => ∃ hi head, s.indices.lookup op.blockRoot = some hi ∧ s.nodes[hi]? = some head ∧
        MarkedIn s (InvalidationSet s op hi head) s')
      (fun _ _ => InvalidationFailure s op) := by
  unfold propagateExecutionPayloadInvalidation
  refine Triple.get_bind_eq (Triple.ofOption_bind (fun hi hhi => ?_) fun hnone _ _ => .inl hnone)
  obtain ⟨head, hhead, hroot⟩ := hwf.node_of_lookup hhi
  have hlt := hwf.lt_length hhi
  have hfail : ∀ x, InvalidationPath s op hi head x →
      s.HasStatus ExecutionStatus.isValidAndPostBellatrix x → InvalidationFailure s op :=
    fun x hx hv => .inr ⟨hi, head, hhi, hhead, .inl ⟨x, hx, hv⟩⟩
  have hfail' : ∀ x y, InvalidationPath s op hi head y →
      s.HasStatus ExecutionStatus.isOptimistic y → Descends ProtoNode.parent s.nodes x y →
      s.HasStatus ExecutionStatus.isValidOrIrrelevant x → InvalidationFailure s op :=
    fun x y hy hopt hxy hv => .inr ⟨hi, head, hhi, hhead, .inr ⟨x, ⟨y, hy, hopt, hxy⟩, hv⟩⟩
  dsimp only
  cases hdesc : s.latestValidAncestorIsDescendant op
  · -- No known latest valid ancestor: the walk stops at the head.
    have hpath : ∀ x, InvalidationPath s op hi head x ↔ x = hi ∧ HeadInvalidated op head := by
      simp [InvalidationPath, hdesc]
    refine Triple.bind ((invalidateAncestors_atHead op hwf hhead hroot (by omega)).mono
      (fun _ h => h) (fun _ _ h => h) fun _ _ ⟨hinv, hv⟩ =>
        hfail hi ((hpath hi).mpr ⟨rfl, hinv⟩) ((hasStatus_of_getElem? hhead).mpr hv))
      fun R => Triple.intro fun s₁ ⟨hR, hm₁⟩ => ?_
    have hstart : (Option.filter (fun _ => false) (s.latestValidAncestorRoot op)).getD
        op.blockRoot = op.blockRoot := by
      cases s.latestValidAncestorRoot op <;> rfl
    refine (invalidateDescendants_after hm₁ hi (by rw [hstart]; exact hhi)
      fun y hy => Nat.le_of_eq ((hR y).mp hy).1.symm).mono (fun _ h => h)
      (fun _ s₂ h₂ => ⟨hi, head, hhi, hhead, h₂.congr fun x => ?_⟩) fun _ _ ⟨x, ⟨y, hy, hxy⟩, hs⟩ => ?_
    · simp only [InvalidationSet, hpath, hR]
      constructor
      · rintro (hx | ⟨y, ⟨rfl, hinv, hopt⟩, hxy⟩)
        · exact .inl hx
        · exact .inr ⟨y, ⟨rfl, hinv⟩, (hasStatus_of_getElem? hhead).mpr hopt, hxy⟩
      · rintro (hx | ⟨y, ⟨rfl, hinv⟩, hopt, hxy⟩)
        · exact .inl hx
        · exact .inr ⟨y, ⟨rfl, hinv, (hasStatus_of_getElem? hhead).mp hopt⟩, hxy⟩
    · obtain ⟨rfl, hinv, hopt⟩ := (hR y).mp hy
      exact hfail' x y ((hpath y).mpr ⟨rfl, hinv⟩) ((hasStatus_of_getElem? hhead).mpr hopt) hxy
        ((hm₁.hasStatus_iff isValidOrIrrelevant_markedInvalid x).mp hs)
  · -- A known latest valid ancestor: the walk marks the path up to it.
    obtain ⟨r', r, lvaHash, nr, hr', hop, hr, hdescent, hnr, hhash, hlast⟩ :=
      latestValidAncestorIsDescendant_eq_true hwf hhi hdesc
    have hpath : ∀ x, InvalidationPath s op hi head x ↔ Between ProtoNode.parent s.nodes hi r x := by
      intro x
      rw [InvalidationPath, if_pos hdesc]
      constructor
      · rintro ⟨r₁, r₂, h₁, h₂, hb⟩
        rw [hr', Option.some.injEq] at h₁
        subst h₁
        rw [hr, Option.some.injEq] at h₂
        subst h₂
        exact hb
      · exact fun hb => ⟨r', r, hr', hr, hb⟩
    -- Every node strictly between carries a payload other than the latest valid one.
    have hchain : ∀ y m, Between ProtoNode.parent s.nodes hi r y → s.nodes[y]? = some m →
        m.executionStatus.blockHash.isSome ∧ m.executionStatus.blockHash ≠ some lvaHash := by
      intro y m hy hm
      have hyr := hy.2.lt hwf.topological
      refine ⟨?_, hlast y m hyr hm⟩
      rw [Option.isSome_iff_ne_none, Ne, blockHash_eq_none]
      intro hirr
      obtain ⟨m', hm', hirr'⟩ := hc.irrelevant_ancestor hwf hy.2 ⟨m, hm, hirr⟩
      rw [hnr, Option.some.injEq] at hm'
      subst hm'
      rw [← blockHash_eq_none, hhash] at hirr'
      cases hirr'
    refine Triple.bind ((invalidateAncestors_toAncestor op op.blockRoot hop _ hi [] s hwf hlt
      hdescent ⟨nr, hnr, hhash⟩ hchain).mono (fun _ h => h) (fun _ _ h => h)
      fun _ _ ⟨y, hy, hv⟩ => hfail y ((hpath y).mpr hy) hv)
      fun R => Triple.intro fun s₁ ⟨hR, hm₁⟩ => ?_
    refine (invalidateDescendants_after hm₁ r (by rw [hr']; exact hr)
      fun y hy => ?_).mono (fun _ h => h)
      (fun _ s₂ h₂ => ⟨hi, head, hhi, hhead, h₂.congr fun x => ?_⟩) fun _ _ ⟨x, ⟨y, hy, hxy⟩, hs⟩ => ?_
    · obtain ⟨hyr, -⟩ := ((hR y).mp hy).resolve_left (List.not_mem_nil)
      exact Nat.le_of_lt (hyr.2.lt hwf.topological)
    · simp only [InvalidationSet, hpath, hR, List.not_mem_nil, false_or]
      constructor
      · rintro (hx | ⟨y, ⟨hy, hopt⟩, hxy⟩)
        · exact .inl hx
        · exact .inr ⟨y, hy, hopt, hxy⟩
      · rintro (hx | ⟨y, hy, hopt, hxy⟩)
        · exact .inl hx
        · exact .inr ⟨y, ⟨hy, hopt⟩, hxy⟩
    · obtain ⟨hy, hopt⟩ := ((hR y).mp hy).resolve_left (List.not_mem_nil)
      exact hfail' x y ((hpath y).mpr hy) hopt hxy
        ((hm₁.hasStatus_iff isValidOrIrrelevant_markedInvalid x).mp hs)

/-- The invalidation set holds every child of its optimistic members. -/
theorem invalidationSet_closed {op : InvalidationOperation} {hi : Nat} {head : ProtoNode} (c p : Nat)
    (hcp : parentAt ProtoNode.parent s.nodes c = some p) (hp : InvalidationSet s op hi head p)
    (hopt : s.HasStatus ExecutionStatus.isOptimistic p) : InvalidationSet s op hi head c := by
  rcases hp with hp | ⟨y, hy, hopty, hpy⟩
  · exact .inr ⟨p, hp, hopt, .single hcp⟩
  · exact .inr ⟨y, hy, hopty, (Descends.single hcp).trans hpy⟩

/-- A successful invalidation keeps the structure and the statuses consistent. -/
theorem propagateExecutionPayloadInvalidation_ok {s s' : ProtoArray} (hwf : s.Wf)
    (hc : s.StatusConsistent) {op : InvalidationOperation}
    (hrun : (propagateExecutionPayloadInvalidation op).run s = .ok () s') :
    s'.Wf ∧ s'.StatusConsistent ∧ ∃ hi head, s.indices.lookup op.blockRoot = some hi ∧
      s.nodes[hi]? = some head ∧ MarkedIn s (InvalidationSet s op hi head) s' := by
  obtain ⟨hi, head, hhi, hhead, hm⟩ :=
    ((propagateExecutionPayloadInvalidation_spec hwf hc op).run rfl).1 () s' hrun
  exact ⟨hm.wf, hc.marked hm invalidationSet_closed, hi, head, hhi, hhead, hm⟩

/-- From consistent statuses, an invalidation of a known head with no valid node on its path
succeeds, and invalidates the optimistic nodes of the path and everything below them. -/
theorem propagateExecutionPayloadInvalidation_succeeds {s : ProtoArray} (hwf : s.Wf)
    (hc : s.StatusConsistent) {op : InvalidationOperation} {hi : Nat} {head : ProtoNode}
    (hhi : s.indices.lookup op.blockRoot = some hi) (hhead : s.nodes[hi]? = some head)
    (hvalid : ∀ x, InvalidationPath s op hi head x →
      ¬ s.HasStatus ExecutionStatus.isValidAndPostBellatrix x) :
    ∃ s', (propagateExecutionPayloadInvalidation op).run s = .ok () s' ∧
      ∀ x, s'.HasStatus ExecutionStatus.isInvalid x ↔ s.HasStatus ExecutionStatus.isInvalid x ∨
        (InvalidationPath s op hi head x ∧ s.HasStatus ExecutionStatus.isOptimistic x) ∨
        ∃ y, InvalidationPath s op hi head y ∧ s.HasStatus ExecutionStatus.isOptimistic y ∧
          Descends ProtoNode.parent s.nodes x y := by
  have hspec := (propagateExecutionPayloadInvalidation_spec hwf hc op).run rfl
  -- Below an optimistic node of the path nothing is valid or irrelevant, so nothing fails.
  have hnofail : ¬ InvalidationFailure s op := by
    rintro (hnone | ⟨hi', head', hhi', hhead', hfail⟩)
    · rw [hhi] at hnone
      cases hnone
    rw [hhi, Option.some.injEq] at hhi'
    subst hhi'
    rw [hhead, Option.some.injEq] at hhead'
    subst hhead'
    rcases hfail with ⟨x, hx, hv⟩ | ⟨x, ⟨y, hy, hopt, hxy⟩, hv⟩
    · exact hvalid x hx hv
    · obtain ⟨n, hn, hmarked⟩ := hc.optimistic_descendant hxy hopt
      obtain ⟨n', hn', hv'⟩ := hv
      rw [hn, Option.some.injEq] at hn'
      subst hn'
      rw [isValidOrIrrelevant_of_markedInvalid hmarked] at hv'
      cases hv'
  cases hrun : (propagateExecutionPayloadInvalidation op).run s with
  | error e s' => exact absurd (hspec.2 e s' hrun) hnofail
  | ok a s' =>
    obtain ⟨hi', head', hhi', hhead', hm⟩ := hspec.1 a s' hrun
    rw [hhi, Option.some.injEq] at hhi'
    subst hhi'
    rw [hhead, Option.some.injEq] at hhead'
    subst hhead'
    refine ⟨s', rfl, fun x => ?_⟩
    rw [hm.isInvalid_iff]
    constructor
    · rintro (hinv | ⟨hx | ⟨y, hy, hopt, hxy⟩, hoptx⟩)
      · exact .inl hinv
      · exact .inr (.inl ⟨hx, hoptx⟩)
      · exact .inr (.inr ⟨y, hy, hopt, hxy⟩)
    · rintro (hinv | ⟨hx, hoptx⟩ | ⟨y, hy, hopt, hxy⟩)
      · exact .inl hinv
      · exact .inr ⟨.inl hx, hoptx⟩
      · -- A descendant of an optimistic node of the path was optimistic or invalid.
        obtain ⟨n, hn, hmarked⟩ := hc.optimistic_descendant hxy hopt
        have hst : n.executionStatus.isInvalid = true ∨ n.executionStatus.isOptimistic = true := by
          rw [← Bool.or_eq_true, ← isInvalid_markedInvalid]
          exact hmarked
        rcases hst with hst | hst
        · exact .inl ⟨n, hn, hst⟩
        · exact .inr ⟨.inr ⟨y, hy, hopt, hxy⟩, n, hn, hst⟩

/-- The arrays reachable from `new` by the methods that touch execution statuses: `on_block`
adding a block without a payload only below a parent without one, the validation walk, and
invalidations that succeed. -/
inductive StatusReachable : ProtoArray → Prop
  | init {pa : ProtoArray} : FromNew pa → StatusReachable pa
  | onBlock {pa : ProtoArray} (block : Block) : StatusReachable pa → PreMergeParent pa block →
      StatusReachable (EState.final ((ProtoArray.onBlock block).run pa))
  | validation {pa : ProtoArray} (blockRoot : Nat) : StatusReachable pa →
      StatusReachable (EState.final ((propagateExecutionPayloadValidation blockRoot).run pa))
  | invalidation {pa pa' : ProtoArray} (op : InvalidationOperation) : StatusReachable pa →
      (propagateExecutionPayloadInvalidation op).run pa = .ok () pa' → StatusReachable pa'

theorem StatusReachable.reachable {pa : ProtoArray} (h : StatusReachable pa) : Reachable pa := by
  induction h with
  | init h => exact .init h
  | onBlock block _ _ ih => exact .step (Operation.onBlock block) ih
  | validation blockRoot _ ih => exact .step (Operation.propagateExecutionPayloadValidation blockRoot) ih
  | @invalidation pa pa' op _ hrun ih =>
    have hstep := EState.Reachable.step (Operation.propagateExecutionPayloadInvalidation op) ih
    have hfinal : EState.final ((Operation.propagateExecutionPayloadInvalidation op).run.run pa) =
        pa' := by
      simp only [Operation.run, hrun, EState.final]
    exact hfinal ▸ hstep

theorem StatusReachable.consistent {pa : ProtoArray} (h : StatusReachable pa) :
    pa.StatusConsistent := by
  induction h with
  | init h => exact fromNew_status h
  | onBlock block h hpre ih => exact (onBlock_status block).final ⟨h.reachable.wf, ih, hpre⟩
  | validation blockRoot h ih =>
    exact (propagateExecutionPayloadValidation_status blockRoot).final ⟨h.reachable.wf, ih⟩
  | invalidation op h hrun ih => exact (propagateExecutionPayloadInvalidation_ok h.reachable.wf ih hrun).2.1

/-- Three runs from `new`: `on_block` puts a block without a payload below an optimistic one,
and (c) fails; on a chain valid, valid, optimistic, optimistic with a second optimistic child,
invalidating from the last block down to the first fails at the valid one, leaving the second
child optimistic below an invalid node, so (a) fails; and a head without a known ancestor that
carries the latest valid payload itself is not invalidated, though asked to be. -/
theorem invalidation_status_counterexample :
    (∃ pa block, FromNew pa ∧ ¬ (EState.final ((onBlock block).run pa)).StatusAlongTree) ∧
    (∃ pa op hi, StatusReachable pa ∧ pa.StatusAlongTree ∧
      pa.indices.lookup (InvalidationOperation.blockRoot op) = some hi ∧
      pa.HasStatus ExecutionStatus.isOptimistic hi ∧
      ∃ e pa', (propagateExecutionPayloadInvalidation op).run pa = .error e pa' ∧
        ¬ pa'.StatusAlongTree) ∧
    (∃ pa op hi, StatusReachable pa ∧ pa.StatusAlongTree ∧
      pa.indices.lookup (InvalidationOperation.blockRoot op) = some hi ∧
      pa.HasStatus ExecutionStatus.isOptimistic hi ∧ op.invalidateBlockRoot = true ∧
      pa.latestValidAncestorIsDescendant op = false ∧
      ∃ pa', (propagateExecutionPayloadInvalidation op).run pa = .ok () pa' ∧
        ¬ pa'.HasStatus ExecutionStatus.isInvalid hi) := by
  let cp : Checkpoint := ⟨0, 1⟩
  let anchor : ExecutionStatus → ProtoArray := fun st =>
    { pruneThreshold := defaultPruneThreshold
      justifiedCheckpoint := cp
      finalizedCheckpoint := cp
      nodes := [⟨0, 1, none, some cp, some cp, 0, none, none, st⟩]
      indices := (∅ : PositionMap.Map Nat).insert 1 0
      previousProposerBoost := default }
  have hopt : FromNew (anchor (.optimistic 11)) := ⟨0, cp, cp, .optimistic 11, _, rfl, rfl⟩
  have hvalid : FromNew (anchor (.valid 11)) := ⟨0, cp, cp, .valid 11, _, rfl, rfl⟩
  refine ⟨⟨_, ⟨1, 2, some 1, cp, cp, .irrelevant false⟩, hopt, fun h => ?_⟩, ?_, ?_⟩
  · exact absurd (h.irrelevantAncestor 1 0 (.single (by decide)) (by decide)) (by decide)
  · let pa₂ := EState.final ((onBlock ⟨3, 5, some 3, cp, cp, .optimistic 15⟩).run
      (EState.final ((onBlock ⟨3, 4, some 3, cp, cp, .optimistic 14⟩).run
      (EState.final ((onBlock ⟨2, 3, some 2, cp, cp, .optimistic 13⟩).run
      (EState.final ((onBlock ⟨1, 2, some 1, cp, cp, .valid 12⟩).run (anchor (.valid 11)))))))))
    have h₂ : StatusReachable pa₂ :=
      .onBlock _ (.onBlock _ (.onBlock _ (.onBlock _ (.init hvalid) (.of_payload rfl))
        (.of_payload rfl)) (.of_payload rfl)) (.of_payload rfl)
    obtain ⟨e, he⟩ := failed_eq_error
      (r := (propagateExecutionPayloadInvalidation (.invalidateMany 4 true 11)).run pa₂) (by decide)
    refine ⟨_, .invalidateMany 4 true 11, 3, h₂, h₂.consistent.alongTree h₂.reachable.wf,
      by decide, by decide, e, _, he, fun h => ?_⟩
    exact absurd (h.invalidDescendant 4 2 (.single (by decide)) (by decide)) (by decide)
  · let pa₃ := EState.final ((onBlock ⟨1, 2, some 99, cp, cp, .optimistic 12⟩).run
      (anchor (.valid 11)))
    have h₃ : StatusReachable pa₃ := .onBlock _ (.init hvalid) (.of_payload rfl)
    obtain ⟨a, ha⟩ := failed_eq_ok
      (r := (propagateExecutionPayloadInvalidation (.invalidateMany 2 true 12)).run pa₃) (by decide)
    exact ⟨_, .invalidateMany 2 true 12, 1, h₃, h₃.consistent.alongTree h₃.reachable.wf,
      by decide, by decide, rfl, by decide, _, ha, by decide⟩

/-- Every array reachable from `new` by `on_block` (a block without a payload only below a
parent without one), the validation walk and successful invalidations satisfies (a)-(c); and
from any well-formed array satisfying them, an invalidation of a known optimistic head whose
path holds no valid node succeeds, and afterwards the invalid nodes are the invalid ones before,
the optimistic nodes of the path, and all the descendants of those. -/
theorem status_along_tree_and_invalidation :
    (∀ pa, StatusReachable pa → pa.StatusAlongTree) ∧
    ∀ (pa : ProtoArray) (op : InvalidationOperation) (hi : Nat) (head : ProtoNode), pa.Wf →
      pa.StatusAlongTree → pa.indices.lookup op.blockRoot = some hi → pa.nodes[hi]? = some head →
      head.executionStatus.isOptimistic = true →
      (∀ x, InvalidationPath pa op hi head x →
        ¬ pa.HasStatus ExecutionStatus.isValidAndPostBellatrix x) →
      ∃ pa', (propagateExecutionPayloadInvalidation op).run pa = .ok () pa' ∧
        ∀ x, pa'.HasStatus ExecutionStatus.isInvalid x ↔ pa.HasStatus ExecutionStatus.isInvalid x ∨
          (InvalidationPath pa op hi head x ∧ pa.HasStatus ExecutionStatus.isOptimistic x) ∨
          ∃ y, InvalidationPath pa op hi head y ∧ pa.HasStatus ExecutionStatus.isOptimistic y ∧
            Descends ProtoNode.parent pa.nodes x y :=
  ⟨fun _ h => h.consistent.alongTree h.reachable.wf,
    fun _ _ _ _ hwf halong hhi hhead _ hvalid =>
      propagateExecutionPayloadInvalidation_succeeds hwf halong.consistent hhi hhead hvalid⟩

theorem status_along_tree_and_invalidation_anchor :
    let head : ProtoNode := ⟨0, 1, none, some ⟨0, 1⟩, some ⟨0, 1⟩, 0, none, none, .optimistic 11⟩
    let pa : ProtoArray :=
      { pruneThreshold := defaultPruneThreshold
        justifiedCheckpoint := ⟨0, 1⟩
        finalizedCheckpoint := ⟨0, 1⟩
        nodes := [head]
        indices := (∅ : PositionMap.Map Nat).insert 1 0
        previousProposerBoost := default }
    pa.StatusAlongTree ∧
      ∃ pa', (propagateExecutionPayloadInvalidation (.invalidateOne 1)).run pa = .ok () pa' ∧
        ∀ x, pa'.HasStatus ExecutionStatus.isInvalid x ↔ pa.HasStatus ExecutionStatus.isInvalid x ∨
          (InvalidationPath pa (.invalidateOne 1) 0 head x ∧
            pa.HasStatus ExecutionStatus.isOptimistic x) ∨
          ∃ y, InvalidationPath pa (.invalidateOne 1) 0 head y ∧
            pa.HasStatus ExecutionStatus.isOptimistic y ∧ Descends ProtoNode.parent pa.nodes x y := by
  intro head pa
  have hr : StatusReachable pa := .init ⟨0, ⟨0, 1⟩, ⟨0, 1⟩, .optimistic 11, _, rfl, rfl⟩
  have halong := status_along_tree_and_invalidation.1 pa hr
  refine ⟨halong, status_along_tree_and_invalidation.2 pa (.invalidateOne 1) 0 head hr.reachable.wf
    halong rfl rfl rfl fun x hx hv => ?_⟩
  -- Without a latest valid ancestor the path is the head alone, and the head is optimistic.
  have hdesc : pa.latestValidAncestorIsDescendant (.invalidateOne 1) = false := rfl
  rw [InvalidationPath, hdesc] at hx
  obtain ⟨rfl, -⟩ := hx
  exact absurd hv (by decide)

end ProtoArray

end Lighthouse.ForkChoice
