import Lighthouse.OperationPool.MaxCover

/-! What every run of `maximum_cover` returns. Each property is a property of the work list and
the result that one round keeps (`exists_maximumCoverLoop` packages the induction over rounds).

For every instance: at most `limit` items, each of nonzero score when it was taken; where the
update keeps objects, their objects are those of distinct input items; where the update never
raises a score, in non-increasing order of score.

For an instance whose items cover sets of elements and whose update removes the taken item's
elements from the items of related objects (`Removes`), on an input whose unrelated items cover
disjoint elements: the items taken cover pairwise disjoint elements, together the elements their
input items covered; and where the score is the weight of the elements covered, the scores sum to
at least `1 - (1 - 1/k) ^ k` of the weight any `k` input items cover, when the limit is `k`.

The two latter properties are proved over the instance `withOrigin`, whose items carry the
input item they started as; the map to the first component carries its cover to the cover of the
instance itself (`maximumCover_eq_withOrigin`). -/
namespace Lighthouse.OperationPool
open Lighthouse.MaxCoverage

namespace MaxCover
variable {τ ω σ : Type*}

/-! Rounds, item by item. -/

section Round
variable {mc : MaxCover τ ω σ}

theorem mem_updateCandidates {best : τ} {l : List (MaxCoverItem τ)} {y' : MaxCoverItem τ}
    (h : y' ∈ mc.updateCandidates best l) :
    ∃ y ∈ l, (mc.isCandidate y = true ∧
        y' = { y with item := mc.updateCoveringSet y.item (mc.object best) (mc.coveringSet best) }) ∨
      (mc.isCandidate y = false ∧ y' = y) := by
  obtain ⟨y, hy, rfl⟩ := List.mem_map.mp h
  refine ⟨y, hy, ?_⟩
  cases hc : mc.isCandidate y
  · exact .inr ⟨rfl, by simp⟩
  · exact .inl ⟨rfl, by simp⟩

/-- A property holds of every item a round leaves when the best item marked unavailable has it,
every updated candidate has it and every item left as it was had it. -/
theorem forall_mem_round (P : MaxCoverItem τ → Prop) {pre post : List (MaxCoverItem τ)}
    {x : MaxCoverItem τ} (hx : P { x with available := false })
    (hcand : ∀ y ∈ pre ++ x :: post, mc.isCandidate y = true →
      P { y with item := mc.updateCoveringSet y.item (mc.object x.item) (mc.coveringSet x.item) })
    (hkeep : ∀ y ∈ pre ++ x :: post, mc.isCandidate y = false → P y) :
    ∀ y' ∈ mc.updateCandidates x.item pre ++
      { x with available := false } :: mc.updateCandidates x.item post, P y' := by
  intro y' hy'
  rcases List.mem_append.mp hy' with h | h
  · obtain ⟨y, hy, ⟨hc, rfl⟩ | ⟨hc, hyy⟩⟩ := mem_updateCandidates h
    · exact hcand y (List.mem_append_left _ hy) hc
    · exact hyy ▸ hkeep y (List.mem_append_left _ hy) hc
  · rcases List.mem_cons.mp h with rfl | h
    · exact hx
    · obtain ⟨y, hy, ⟨hc, rfl⟩ | ⟨hc, hyy⟩⟩ := mem_updateCandidates h
      · exact hcand y (by simp [hy]) hc
      · exact hyy ▸ hkeep y (by simp [hy]) hc

theorem available_of_isCandidate {y : MaxCoverItem τ} (h : mc.isCandidate y = true) :
    y.available = true := by
  simp only [isCandidate, Bool.and_eq_true] at h
  exact h.1

theorem score_ne_zero_of_isCandidate {y : MaxCoverItem τ} (h : mc.isCandidate y = true) :
    mc.score y.item ≠ 0 := by
  simp only [isCandidate, Bool.and_eq_true, bne_iff_ne] at h
  exact h.2

theorem isCandidate_of_available {y : MaxCoverItem τ} (ha : y.available = true)
    (hs : mc.score y.item ≠ 0) : mc.isCandidate y = true := by
  simp [isCandidate, ha, hs]

/-- A property of the work list and the result that every round keeps holds, for some work
list, of the loop's result. -/
theorem exists_maximumCoverLoop (Inv : List (MaxCoverItem τ) → List τ → Prop)
    (hround : ∀ {l : List (MaxCoverItem τ)} {result : List τ} {x : MaxCoverItem τ}
      {pre post : List (MaxCoverItem τ)}, Inv l result → mc.selectBest l = some (x, pre.length) →
      l = pre ++ x :: post → Inv (mc.updateCandidates x.item pre ++
        { x with available := false } :: mc.updateCandidates x.item post) (result ++ [x.item])) :
    ∀ (limit : ℕ) (l : List (MaxCoverItem τ)) (result : List τ), Inv l result →
      ∃ l', Inv l' (mc.maximumCoverLoop limit l result)
  | 0, l, _, h => ⟨l, h⟩
  | limit + 1, l, result, h => by
    cases hs : mc.selectBest l with
    | none => exact ⟨l, by rw [maximumCoverLoop_succ_of_none hs]; exact h⟩
    | some p =>
      obtain ⟨x, i⟩ := p
      obtain ⟨pre, post, hl, rfl, -⟩ := selectBest_eq_some hs
      rw [maximumCoverLoop_succ_of_selectBest hs hl]
      exact exists_maximumCoverLoop Inv hround limit _ _ (hround h hs hl)

end Round

/-! Every instance: at most `limit` items, each of nonzero score. -/

section Shape
variable {mc : MaxCover τ ω σ}

theorem length_maximumCover_le (items : List τ) (limit : ℕ) :
    (mc.maximumCover items limit).length ≤ limit := by
  have h : (mc.maximumCoverLoop limit (mc.initialItems items) []).length ≤ [].length + limit :=
    length_maximumCoverLoop_le limit (mc.initialItems items) []
  rw [maximumCover]
  simpa using h

/-- Every item taken had a nonzero score: a round takes a candidate. -/
theorem score_ne_zero_of_mem_maximumCover {items : List τ} {limit : ℕ} {t : τ}
    (ht : t ∈ mc.maximumCover items limit) : mc.score t ≠ 0 := by
  obtain ⟨_, h⟩ := exists_maximumCoverLoop (fun _ result => ∀ r ∈ result, mc.score r ≠ 0)
    (fun {_ result x _ _} h hs _ => by
      obtain ⟨_, _, _, _, hcx, _⟩ := selectBest_eq_some hs
      intro r hr
      rcases List.mem_append.mp hr with hr | hr
      · exact h r hr
      · rw [List.mem_singleton.mp hr]
        exact score_ne_zero_of_isCandidate hcx)
    limit (mc.initialItems items) [] (by simp)
  exact h t ht

end Shape

/-! Every instance whose update never raises a score: the items come in non-increasing order
of score. -/

section Sorted
variable (mc : MaxCover τ ω σ)

/-- What the rounds keep when no update raises a score: every item still available scores at
most every item taken, and the items taken come in non-increasing order of score. -/
structure ScoresBelow (l : List (MaxCoverItem τ)) (result : List τ) : Prop where
  available_le : ∀ y ∈ l, y.available = true → ∀ r ∈ result, mc.score y.item ≤ mc.score r
  sorted : result.Pairwise fun a b => mc.score b ≤ mc.score a

variable {mc}

theorem ScoresBelow.round (hmono : ∀ t o s, mc.score (mc.updateCoveringSet t o s) ≤ mc.score t)
    {l : List (MaxCoverItem τ)} {result : List τ} {x : MaxCoverItem τ}
    {pre post : List (MaxCoverItem τ)} (h : mc.ScoresBelow l result)
    (hs : mc.selectBest l = some (x, pre.length)) (hl : l = pre ++ x :: post) :
    mc.ScoresBelow (mc.updateCandidates x.item pre ++
      { x with available := false } :: mc.updateCandidates x.item post) (result ++ [x.item]) := by
  obtain ⟨_, _, _, _, hcx, hbest⟩ := selectBest_eq_some hs
  subst hl
  have hxl : x ∈ pre ++ x :: post := by simp
  -- a score below both the best item's and every earlier item's stays below all taken items
  have hbelow : ∀ {n : ℕ}, n ≤ mc.score x.item → (∀ r ∈ result, n ≤ mc.score r) →
      ∀ r ∈ result ++ [x.item], n ≤ mc.score r := by
    intro n hnx hnr r hr
    rcases List.mem_append.mp hr with hr | hr
    · exact hnr r hr
    · rw [List.mem_singleton.mp hr]
      exact hnx
  refine ⟨forall_mem_round (fun y => y.available = true → ∀ r ∈ result ++ [x.item],
      mc.score y.item ≤ mc.score r) (fun hfalse => by cases hfalse) ?_ ?_, ?_⟩
  · intro y hy hc _
    exact hbelow ((hmono _ _ _).trans (hbest y hy hc))
      fun r hr => (hmono _ _ _).trans (h.available_le y hy (available_of_isCandidate hc) r hr)
  · intro y hy hc hya
    -- an available item that is no candidate scores zero
    have hzero : mc.score y.item = 0 := by simpa [isCandidate, hya] using hc
    rw [hzero]
    exact hbelow (Nat.zero_le _) fun r _ => Nat.zero_le _
  · refine List.pairwise_append.mpr ⟨h.sorted, List.pairwise_singleton _ _, ?_⟩
    intro a ha b hb
    rw [List.mem_singleton.mp hb]
    exact h.available_le x hxl (available_of_isCandidate hcx) a ha

/-- Where no update raises a score, `maximum_cover` returns its items in non-increasing order
of score. -/
theorem maximumCover_sorted (hmono : ∀ t o s, mc.score (mc.updateCoveringSet t o s) ≤ mc.score t)
    (items : List τ) (limit : ℕ) :
    (mc.maximumCover items limit).Pairwise fun a b => mc.score b ≤ mc.score a := by
  obtain ⟨_, h⟩ := exists_maximumCoverLoop (mc.ScoresBelow) (fun h hs hl => h.round hmono hs hl)
    limit (mc.initialItems items) [] ⟨by simp, List.Pairwise.nil⟩
  exact h.sorted

end Sorted

/-! Items that carry their origin. -/

/-- The instance over items paired with the input item each started as: the update acts on the
first and keeps the second. -/
def withOrigin (mc : MaxCover τ ω σ) : MaxCover (τ × τ) ω σ where
  object p := mc.object p.1
  coveringSet p := mc.coveringSet p.1
  updateCoveringSet p o s := (mc.updateCoveringSet p.1 o s, p.2)
  score p := mc.score p.1

section Origin
variable {mc : MaxCover τ ω σ}

theorem hom_withOrigin_fst : Hom mc.withOrigin mc Prod.fst :=
  ⟨fun _ => rfl, fun _ => rfl, fun _ => rfl, fun _ _ _ => rfl⟩

/-- `maximum_cover` is the first component of the cover that tracks origins. -/
theorem maximumCover_eq_withOrigin (items : List τ) (limit : ℕ) :
    mc.maximumCover items limit =
      (mc.withOrigin.maximumCover (items.map fun t => (t, t)) limit).map Prod.fst := by
  rw [hom_withOrigin_fst.maximumCover_map, List.map_map]
  simp [Function.comp_def]

/-- The origins of the items, and of the items still available, are what they were. -/
theorem origins_updateCandidates (best : τ × τ) (l : List (MaxCoverItem (τ × τ))) :
    (mc.withOrigin.updateCandidates best l).map (fun y => y.item.2) = l.map fun y => y.item.2 := by
  simp only [updateCandidates, List.map_map]
  apply List.map_congr_left
  intro y _
  simp only [Function.comp_apply]
  split <;> rfl

theorem filter_available_updateCandidates (best : τ × τ) (l : List (MaxCoverItem (τ × τ))) :
    (mc.withOrigin.updateCandidates best l).filter (·.available) =
      mc.withOrigin.updateCandidates best (l.filter (·.available)) := by
  unfold updateCandidates
  rw [List.filter_map]
  congr 1
  apply List.filter_congr
  intro y _
  simp only [Function.comp_apply]
  split <;> rfl

theorem pool_updateCandidates (best : τ × τ) (l : List (MaxCoverItem (τ × τ))) :
    ((mc.withOrigin.updateCandidates best l).filter (·.available)).map (fun y => y.item.2) =
      (l.filter (·.available)).map fun y => y.item.2 := by
  rw [filter_available_updateCandidates, origins_updateCandidates]

variable (mc) in
/-- What the rounds keep of the origins: each item has its origin's object, the origins stand
in the input's order, and the origins of the items taken and of those still available are the
input items of nonzero score, each once. -/
structure OriginInv (items : List τ) (l : List (MaxCoverItem (τ × τ))) (result : List (τ × τ)) :
    Prop where
  object_item : ∀ y ∈ l, mc.object y.item.1 = mc.object y.item.2
  object_result : ∀ r ∈ result, mc.object r.1 = mc.object r.2
  origins : l.map (fun y : MaxCoverItem (τ × τ) => y.item.2) = items.filter fun t => mc.score t != 0
  perm : (result.map Prod.snd ++
      (l.filter (·.available)).map fun y : MaxCoverItem (τ × τ) => y.item.2).Perm
    (items.filter fun t => mc.score t != 0)

theorem OriginInv.round (hobj : ∀ t o s, mc.object (mc.updateCoveringSet t o s) = mc.object t)
    {items : List τ} {l : List (MaxCoverItem (τ × τ))} {result : List (τ × τ)}
    {x : MaxCoverItem (τ × τ)} {pre post : List (MaxCoverItem (τ × τ))}
    (h : mc.OriginInv items l result) (hs : mc.withOrigin.selectBest l = some (x, pre.length))
    (hl : l = pre ++ x :: post) :
    mc.OriginInv items (mc.withOrigin.updateCandidates x.item pre ++
      { x with available := false } :: mc.withOrigin.updateCandidates x.item post)
      (result ++ [x.item]) := by
  obtain ⟨_, _, _, _, hcx, -⟩ := selectBest_eq_some hs
  have hxa : x.available = true := available_of_isCandidate hcx
  subst hl
  constructor
  · refine forall_mem_round
      (fun y : MaxCoverItem (τ × τ) => mc.object y.item.1 = mc.object y.item.2)
      (h.object_item x (by simp)) ?_ ?_
    · intro y hy _
      exact (hobj _ _ _).trans (h.object_item y hy)
    · intro y hy _
      exact h.object_item y hy
  · intro r hr
    rcases List.mem_append.mp hr with hr | hr
    · exact h.object_result r hr
    · rw [List.mem_singleton.mp hr]
      exact h.object_item x (by simp)
  · rw [← h.origins]
    simp only [List.map_append, List.map_cons, origins_updateCandidates]
  · -- the best item's origin moves from the pool to the result
    refine List.Perm.trans ?_ h.perm
    simp only [List.filter_append, List.filter_cons, hxa, if_true, Bool.false_eq_true, if_false,
      List.map_append, List.map_cons, List.map_nil, pool_updateCandidates, List.append_assoc,
      List.cons_append, List.nil_append]
    exact List.Perm.append_left _ List.perm_middle.symm

theorem OriginInv.initial (items : List τ) :
    mc.OriginInv items (mc.withOrigin.initialItems (items.map fun t => (t, t))) [] := by
  have hinit : mc.withOrigin.initialItems (items.map fun t => (t, t)) =
      (items.filter fun t => mc.score t != 0).map fun t => MaxCoverItem.new (t, t) := by
    simp [initialItems, List.filter_map, List.map_map, Function.comp_def, withOrigin,
      MaxCoverItem.new]
  have hpool : ((mc.withOrigin.initialItems (items.map fun t => (t, t))).filter
      (·.available)) = mc.withOrigin.initialItems (items.map fun t => (t, t)) :=
    List.filter_eq_self.mpr fun y hy => by
      rw [hinit] at hy
      obtain ⟨t, -, rfl⟩ := List.mem_map.mp hy
      rfl
  refine ⟨?_, by simp, ?_, ?_⟩
  · intro y hy
    rw [hinit] at hy
    obtain ⟨t, -, rfl⟩ := List.mem_map.mp hy
    rfl
  · rw [hinit, List.map_map]
    simp [Function.comp_def, MaxCoverItem.new]
  · rw [hpool, hinit, List.map_nil, List.nil_append, List.map_map]
    simp [Function.comp_def, MaxCoverItem.new]

/-- The items an origin-tracking run takes are distinct input items. -/
theorem OriginInv.subperm {items : List τ} {l : List (MaxCoverItem (τ × τ))}
    {result : List (τ × τ)} (h : mc.OriginInv items l result) :
    (result.map Prod.snd).Subperm items :=
  ((List.sublist_append_left _ _).subperm.trans h.perm.subperm).trans
    List.filter_sublist.subperm

/-- Where the update keeps objects, `maximum_cover` returns the objects of distinct input items:
a sub-multiset of the input, in the order taken. -/
theorem maximumCover_objects (hobj : ∀ t o s, mc.object (mc.updateCoveringSet t o s) = mc.object t)
    (items : List τ) (limit : ℕ) :
    ∃ sel : List τ, sel.Subperm items ∧
      (mc.maximumCover items limit).map mc.object = sel.map mc.object := by
  obtain ⟨_, h⟩ := exists_maximumCoverLoop (mc.OriginInv items)
    (fun h hs hl => h.round hobj hs hl) limit _ [] (OriginInv.initial items)
  refine ⟨_, h.subperm, ?_⟩
  rw [maximumCover_eq_withOrigin, List.map_map, List.map_map]
  exact List.map_congr_left fun r hr => h.object_result r hr

end Origin

/-! Instances over weighted elements. -/

section Removes
variable {ε : Type*} [DecidableEq ε]

variable (mc : MaxCover τ ω σ) in
/-- An instance whose items cover finite sets of elements and whose update removes the taken
item's elements: the update keeps the object; for the inclusion of an item whose object is
related to the updated item's own it removes that item's elements, and otherwise changes
nothing. -/
structure Removes (rel : ω → ω → Prop) (cov : τ → Finset ε) : Prop where
  object_update : ∀ t o s, mc.object (mc.updateCoveringSet t o s) = mc.object t
  cov_update_of_rel : ∀ t b, rel (mc.object b) (mc.object t) →
    cov (mc.updateCoveringSet t (mc.object b) (mc.coveringSet b)) = cov t \ cov b
  cov_update_of_not_rel : ∀ t b, ¬ rel (mc.object b) (mc.object t) →
    cov (mc.updateCoveringSet t (mc.object b) (mc.coveringSet b)) = cov t

variable (mc : MaxCover τ ω σ) in
/-- An input whose items of unrelated objects cover disjoint elements. -/
def Separated (rel : ω → ω → Prop) (cov : τ → Finset ε) (items : List τ) : Prop :=
  ∀ a ∈ items, ∀ b ∈ items, ¬ rel (mc.object a) (mc.object b) → Disjoint (cov a) (cov b)

variable {mc : MaxCover τ ω σ} {rel : ω → ω → Prop} {cov : τ → Finset ε} {w : ε → ℕ}

/-- The elements the items taken cover, as they were taken. -/
def covered (cov : τ → Finset ε) (result : List (τ × τ)) : Finset ε :=
  unionOf (fun r => cov r.1) result

theorem covered_append_singleton (result : List (τ × τ)) (r : τ × τ) :
    covered cov (result ++ [r]) = covered cov result ∪ cov r.1 := by
  rw [covered, covered, unionOf_append, unionOf_cons, unionOf_nil, Finset.union_empty]

variable (mc) in
/-- What each item of an origin-tracking work list keeps against the elements covered: while
available, its elements lie among its origin's and include all of the origin's elements not yet
covered, and, while it scores, none that is; once taken, all of its origin's elements are
covered. -/
structure ItemInv (cov : τ → Finset ε) (c : Finset ε) (y : MaxCoverItem (τ × τ)) : Prop where
  sub_origin : y.available = true → cov y.item.1 ⊆ cov y.item.2
  origin_sdiff : y.available = true → cov y.item.2 \ c ⊆ cov y.item.1
  disjoint_covered : y.available = true → mc.score y.item.1 ≠ 0 → Disjoint (cov y.item.1) c
  taken : y.available = false → cov y.item.2 ⊆ c

variable (mc) in
/-- What the rounds keep of the elements: every item keeps `ItemInv` against the elements
covered, each item taken covers part of its origin's elements and all of them are covered, and
the items taken cover pairwise disjoint elements. -/
structure CoverInv (cov : τ → Finset ε) (l : List (MaxCoverItem (τ × τ))) (result : List (τ × τ)) :
    Prop where
  item : ∀ y ∈ l, mc.ItemInv cov (covered cov result) y
  sub_origin : ∀ r ∈ result, cov r.1 ⊆ cov r.2
  origin_covered : ∀ r ∈ result, cov r.2 ⊆ covered cov result
  pairwise : result.Pairwise fun a b => Disjoint (cov a.1) (cov b.1)

/-- An instance mapped into one that removes elements removes them too. -/
theorem Hom.removes {τ' : Type*} {mc' : MaxCover τ' ω σ} {f : τ → τ'} (hf : Hom mc mc' f)
    {cov' : τ' → Finset ε} (hx : mc'.Removes rel cov') : mc.Removes rel fun t => cov' (f t) where
  object_update t o s := by
    rw [← hf.object_map, hf.update_map, hx.object_update, hf.object_map]
  cov_update_of_rel t b h := by
    rw [← hf.object_map b, ← hf.object_map t] at h
    rw [hf.update_map, ← hf.object_map b, ← hf.coveringSet_map b, hx.cov_update_of_rel _ _ h]
  cov_update_of_not_rel t b h := by
    rw [← hf.object_map b, ← hf.object_map t] at h
    rw [hf.update_map, ← hf.object_map b, ← hf.coveringSet_map b, hx.cov_update_of_not_rel _ _ h]

theorem Removes.cov_update_subset (hx : mc.Removes rel cov) (t b : τ) :
    cov (mc.updateCoveringSet t (mc.object b) (mc.coveringSet b)) ⊆ cov t := by
  by_cases hr : rel (mc.object b) (mc.object t)
  · rw [hx.cov_update_of_rel t b hr]
    exact Finset.sdiff_subset
  · rw [hx.cov_update_of_not_rel t b hr]

/-- The best item, marked unavailable: all of its origin's elements are covered now. -/
theorem ItemInv.mark {c : Finset ε} {x : MaxCoverItem (τ × τ)} (h : mc.ItemInv cov c x)
    (hxa : x.available = true) : mc.ItemInv cov (c ∪ cov x.item.1) { x with available := false } where
  sub_origin hfalse := by cases hfalse
  origin_sdiff hfalse := by cases hfalse
  disjoint_covered hfalse := by cases hfalse
  taken _ := by
    intro e he
    by_cases hc : e ∈ c
    · exact Finset.mem_union_left _ hc
    · exact Finset.mem_union_right _ (h.origin_sdiff hxa (Finset.mem_sdiff.mpr ⟨he, hc⟩))

/-- An item no round updates only sees more elements covered. -/
theorem ItemInv.keep {c : Finset ε} {y : MaxCoverItem (τ × τ)} (h : mc.ItemInv cov c y)
    (hc : mc.withOrigin.isCandidate y = false) (s : Finset ε) : mc.ItemInv cov (c ∪ s) y where
  sub_origin := h.sub_origin
  origin_sdiff hya :=
    (Finset.sdiff_subset_sdiff le_rfl Finset.subset_union_left).trans (h.origin_sdiff hya)
  disjoint_covered hya hys := by
    have : mc.withOrigin.isCandidate y = true := isCandidate_of_available hya hys
    rw [hc] at this
    cases this
  taken hya := (h.taken hya).trans Finset.subset_union_left

/-- An updated candidate: related to the best item, it loses the best item's elements; unrelated,
its elements are disjoint from them already. -/
theorem ItemInv.update (hx : mc.Removes rel cov) {c : Finset ε} {y : MaxCoverItem (τ × τ)}
    {b : τ} (h : mc.ItemInv cov c y) (hcy : mc.withOrigin.isCandidate y = true)
    (hdisj : ¬ rel (mc.object b) (mc.object y.item.1) → Disjoint (cov y.item.1) (cov b)) :
    mc.ItemInv cov (c ∪ cov b)
      { y with item := (mc.updateCoveringSet y.item.1 (mc.object b) (mc.coveringSet b), y.item.2) } := by
  have hya : y.available = true := available_of_isCandidate hcy
  have hys : mc.score y.item.1 ≠ 0 := score_ne_zero_of_isCandidate hcy
  have hsub := hx.cov_update_subset y.item.1 b
  refine ⟨fun _ => hsub.trans (h.sub_origin hya), fun _ => ?_, fun _ _ => ?_, fun hfalse => ?_⟩
  · by_cases hr : rel (mc.object b) (mc.object y.item.1)
    · -- the origin's elements not covered now avoid the best item's, so they stay
      rw [hx.cov_update_of_rel _ _ hr]
      intro e he
      simp only [Finset.mem_sdiff, Finset.mem_union, not_or] at he
      exact Finset.mem_sdiff.mpr ⟨h.origin_sdiff hya (Finset.mem_sdiff.mpr ⟨he.1, he.2.1⟩), he.2.2⟩
    · rw [hx.cov_update_of_not_rel _ _ hr]
      exact (Finset.sdiff_subset_sdiff le_rfl Finset.subset_union_left).trans (h.origin_sdiff hya)
  · rw [Finset.disjoint_union_right]
    by_cases hr : rel (mc.object b) (mc.object y.item.1)
    · rw [hx.cov_update_of_rel _ _ hr]
      exact ⟨Disjoint.mono_left Finset.sdiff_subset (h.disjoint_covered hya hys), Finset.sdiff_disjoint⟩
    · rw [hx.cov_update_of_not_rel _ _ hr]
      exact ⟨h.disjoint_covered hya hys, hdisj hr⟩
  · simp only at hfalse
    rw [hya] at hfalse
    cases hfalse

theorem CoverInv.initial (items : List τ) :
    mc.CoverInv cov (mc.withOrigin.initialItems (items.map fun t => (t, t))) [] := by
  refine ⟨?_, by simp, by simp, List.Pairwise.nil⟩
  intro y hy
  obtain ⟨y0, hy0, rfl⟩ := List.mem_map.mp (List.mem_filter.mp hy).1
  obtain ⟨t, -, rfl⟩ := List.mem_map.mp hy0
  exact ⟨fun _ => le_rfl, fun _ => Finset.sdiff_subset, fun _ _ => by simp [covered],
    fun hfalse => by cases hfalse⟩

/-- A round keeps `CoverInv`: the best item's elements join those covered, disjoint from them. -/
theorem CoverInv.round (hx : mc.Removes rel cov) {items : List τ} (hsep : mc.Separated rel cov items)
    {l : List (MaxCoverItem (τ × τ))} {result : List (τ × τ)} {x : MaxCoverItem (τ × τ)}
    {pre post : List (MaxCoverItem (τ × τ))} (ho : mc.OriginInv items l result)
    (h : mc.CoverInv cov l result) (hs : mc.withOrigin.selectBest l = some (x, pre.length))
    (hl : l = pre ++ x :: post) :
    mc.CoverInv cov (mc.withOrigin.updateCandidates x.item pre ++
      { x with available := false } :: mc.withOrigin.updateCandidates x.item post)
      (result ++ [x.item]) := by
  obtain ⟨_, _, _, _, hcx, -⟩ := selectBest_eq_some hs
  have hxa : x.available = true := available_of_isCandidate hcx
  have hxs : mc.score x.item.1 ≠ 0 := score_ne_zero_of_isCandidate hcx
  have hxl : x ∈ l := hl ▸ by simp
  have hix := h.item x hxl
  -- every origin is an input item
  have horigin : ∀ y ∈ l, y.item.2 ∈ items := fun y hy =>
    List.mem_of_mem_filter (ho.origins ▸ List.mem_map_of_mem hy)
  refine ⟨?_, ?_, ?_, ?_⟩
  · rw [covered_append_singleton]
    refine forall_mem_round (fun y => mc.ItemInv cov (covered cov result ∪ cov x.item.1) y)
      (hix.mark hxa) ?_ ?_
    · intro y hy hcy
      rw [← hl] at hy
      refine (h.item y hy).update hx hcy fun hr => ?_
      -- unrelated objects: the origins cover disjoint elements, and so do the items
      have hr' : ¬ rel (mc.object x.item.2) (mc.object y.item.2) := by
        rwa [← ho.object_item x hxl, ← ho.object_item y hy]
      exact Disjoint.mono ((h.item y hy).sub_origin (available_of_isCandidate hcy))
        (hix.sub_origin hxa) (hsep _ (horigin x hxl) _ (horigin y hy) hr').symm
    · intro y hy hcy
      rw [← hl] at hy
      exact (h.item y hy).keep hcy _
  · intro r hr
    rcases List.mem_append.mp hr with hr | hr
    · exact h.sub_origin r hr
    · rw [List.mem_singleton.mp hr]
      exact hix.sub_origin hxa
  · intro r hr
    rw [covered_append_singleton]
    rcases List.mem_append.mp hr with hr | hr
    · exact (h.origin_covered r hr).trans Finset.subset_union_left
    · rw [List.mem_singleton.mp hr]
      exact ((hix.mark hxa).taken rfl)
  · refine List.pairwise_append.mpr ⟨h.pairwise, List.pairwise_singleton _ _, ?_⟩
    intro a ha b hb
    rw [List.mem_singleton.mp hb]
    have hsub : cov a.1 ⊆ covered cov result := subset_unionOf (f := fun r => cov r.1) ha
    exact (Disjoint.mono_right hsub (hix.disjoint_covered hxa hxs)).symm

/-- The invariants of an origin-tracking run hold at its end. -/
theorem exists_inv_maximumCover (hx : mc.Removes rel cov) {items : List τ}
    (hsep : mc.Separated rel cov items) (limit : ℕ) :
    ∃ l, mc.OriginInv items l (mc.withOrigin.maximumCover (items.map fun t => (t, t)) limit) ∧
      mc.CoverInv cov l (mc.withOrigin.maximumCover (items.map fun t => (t, t)) limit) := by
  obtain ⟨l, ho, h⟩ := exists_maximumCoverLoop
    (fun l result => mc.OriginInv items l result ∧ mc.CoverInv cov l result)
    (fun hinv hs hl => ⟨hinv.1.round hx.object_update hs hl, hinv.2.round hx hsep hinv.1 hs hl⟩)
    limit _ [] ⟨OriginInv.initial items, CoverInv.initial items⟩
  exact ⟨l, ho, h⟩

/-- For an instance over weighted elements, on an input whose unrelated items cover disjoint
elements, `maximum_cover` returns distinct input items, as updated when taken: the elements they
cover are pairwise disjoint and together those their input items covered. -/
theorem maximumCover_disjoint (hx : mc.Removes rel cov) {items : List τ}
    (hsep : mc.Separated rel cov items) (limit : ℕ) :
    ∃ sel : List τ, sel.Subperm items ∧
      (mc.maximumCover items limit).map mc.object = sel.map mc.object ∧
      (mc.maximumCover items limit).Pairwise (fun a b => Disjoint (cov a) (cov b)) ∧
      unionOf cov (mc.maximumCover items limit) = unionOf cov sel := by
  obtain ⟨_, ho, h⟩ := exists_inv_maximumCover hx hsep limit
  refine ⟨_, ho.subperm, ?_, ?_, ?_⟩
  · rw [maximumCover_eq_withOrigin, List.map_map, List.map_map]
    exact List.map_congr_left fun r hr => ho.object_result r hr
  · rw [maximumCover_eq_withOrigin, List.pairwise_map]
    exact h.pairwise
  · rw [maximumCover_eq_withOrigin, unionOf_map, unionOf_map]
    apply Finset.Subset.antisymm
    · exact unionOf_subset fun r hr => (h.sub_origin r hr).trans (subset_unionOf (f := fun r => cov r.2) hr)
    · exact unionOf_subset fun r hr => h.origin_covered r hr

/-! The greedy bound. -/

/-- Against the elements covered, no input item adds more weight than a bound on the scores of
the candidates: an input item of score zero adds none, a taken one none, and an available one at
most its own score. -/
theorem marginal_le (hscore : ∀ t, mc.score t = weight w (cov t)) {items : List τ} {l : List (MaxCoverItem (τ × τ))}
    {result : List (τ × τ)} (ho : mc.OriginInv items l result) (h : mc.CoverInv cov l result)
    {g : ℕ} (hg : ∀ y ∈ l, mc.withOrigin.isCandidate y = true → mc.score y.item.1 ≤ g) :
    ∀ o ∈ items, weight w (cov o \ covered cov result) ≤ g := by
  intro o hoi
  by_cases hzero : mc.score o = 0
  · have hw : weight w (cov o) = 0 := (hscore o).symm.trans hzero
    rw [weight_eq_zero_of_subset Finset.sdiff_subset hw]
    exact Nat.zero_le _
  have hmem : o ∈ l.map fun y => y.item.2 := by
    rw [ho.origins]
    exact List.mem_filter.mpr ⟨hoi, by simpa using hzero⟩
  obtain ⟨y, hy, rfl⟩ := List.mem_map.mp hmem
  cases hya : y.available
  · have hempty : cov y.item.2 \ covered cov result = ∅ :=
      Finset.sdiff_eq_empty_iff_subset.mpr ((h.item y hy).taken hya)
    rw [hempty]
    exact Nat.zero_le _
  · have hle : weight w (cov y.item.2 \ covered cov result) ≤ mc.score y.item.1 := by
      rw [hscore]
      exact weight_mono ((h.item y hy).origin_sdiff hya)
    by_cases hys : mc.score y.item.1 = 0
    · exact hle.trans (hys ▸ Nat.zero_le _)
    · exact hle.trans (hg y hy (isCandidate_of_available hya hys))

/-- What any list of input items covers weighs at most the weight covered plus its length times
a bound on the candidates' scores. -/
theorem weight_opt_le (hscore : ∀ t, mc.score t = weight w (cov t)) {items : List τ} {l : List (MaxCoverItem (τ × τ))}
    {result : List (τ × τ)} (ho : mc.OriginInv items l result) (h : mc.CoverInv cov l result)
    {g : ℕ} (hg : ∀ y ∈ l, mc.withOrigin.isCandidate y = true → mc.score y.item.1 ≤ g)
    {opt : List τ} (hopt : ∀ o ∈ opt, o ∈ items) :
    weight w (unionOf cov opt) ≤ weight w (covered cov result) + opt.length * g := by
  have hsum : (opt.map fun o => weight w (cov o \ covered cov result)).sum ≤ opt.length * g := by
    have := List.sum_le_card_nsmul (opt.map fun o => weight w (cov o \ covered cov result)) g
      (by
        intro n hn
        obtain ⟨o, ho', rfl⟩ := List.mem_map.mp hn
        exact marginal_le hscore ho h hg o (hopt o ho'))
    simpa using this
  calc weight w (unionOf cov opt)
      ≤ weight w (covered cov result ∪ unionOf cov opt) := weight_mono Finset.subset_union_right
    _ ≤ weight w (covered cov result) +
        (opt.map fun o => weight w (cov o \ covered cov result)).sum := weight_unionOf_le cov _ opt
    _ ≤ weight w (covered cov result) + opt.length * g := Nat.add_le_add_left hsum _

/-- Taking the best item adds its score to the weight covered. -/
theorem weight_covered_round (hscore : ∀ t, mc.score t = weight w (cov t)) {l : List (MaxCoverItem (τ × τ))}
    {result : List (τ × τ)} (h : mc.CoverInv cov l result) {x : MaxCoverItem (τ × τ)}
    (hxl : x ∈ l) (hcx : mc.withOrigin.isCandidate x = true) :
    weight w (covered cov (result ++ [x.item])) =
      weight w (covered cov result) + mc.score x.item.1 := by
  have hd : Disjoint (covered cov result) (cov x.item.1) :=
    ((h.item x hxl).disjoint_covered (available_of_isCandidate hcx)
      (score_ne_zero_of_isCandidate hcx)).symm
  rw [covered_append_singleton, hscore]
  exact Finset.sum_union hd

/-- Round after round, the gap between the weight `opt` covers and the weight covered shrinks by
the factor `1 - 1/k`, or is closed: a round gains at least a `k`-th of the gap, and a loop that
stops early leaves no gap. -/
theorem gap_maximumCoverLoop (hx : mc.Removes rel cov) (hscore : ∀ t, mc.score t = weight w (cov t))
    {items : List τ}
    (hsep : mc.Separated rel cov items) {opt : List τ} (hopt : ∀ o ∈ opt, o ∈ items) {k : ℕ}
    (hk : 1 ≤ k) (hlen : opt.length ≤ k) :
    ∀ (limit : ℕ) (l : List (MaxCoverItem (τ × τ))) (result : List (τ × τ)),
      mc.OriginInv items l result → mc.CoverInv cov l result →
      (weight w (unionOf cov opt) : ℚ) -
          weight w (covered cov (mc.withOrigin.maximumCoverLoop limit l result)) ≤
        (1 - 1 / (k : ℚ)) ^ limit *
          max ((weight w (unionOf cov opt) : ℚ) - weight w (covered cov result)) 0 := by
  have hq : (0 : ℚ) ≤ 1 - 1 / (k : ℚ) := one_sub_inv_nonneg (by exact_mod_cast hk)
  intro limit
  induction limit with
  | zero =>
    intro l result _ _
    simp only [maximumCoverLoop, pow_zero, one_mul]
    exact le_max_left _ _
  | succ n ih =>
    intro l result ho h
    cases hs : mc.withOrigin.selectBest l with
    | none =>
      -- no candidate is left: `opt` covers nothing beyond what is covered
      rw [maximumCoverLoop_succ_of_none hs]
      have hg : ∀ y ∈ l, mc.withOrigin.isCandidate y = true → mc.score y.item.1 ≤ 0 := by
        intro y hy hc
        rw [selectBest_eq_none_iff.mp hs y hy] at hc
        cases hc
      have hle := weight_opt_le hscore ho h hg hopt
      rw [Nat.mul_zero, Nat.add_zero] at hle
      have hclosed : (weight w (unionOf cov opt) : ℚ) - weight w (covered cov result) ≤ 0 :=
        sub_nonpos.mpr (by exact_mod_cast hle)
      exact hclosed.trans (mul_nonneg (pow_nonneg hq _) (le_max_right _ _))
    | some p =>
      obtain ⟨x, i⟩ := p
      obtain ⟨pre, post, hl, rfl, hcx, hbest⟩ := selectBest_eq_some hs
      have hxl : x ∈ l := hl ▸ by simp
      rw [maximumCoverLoop_succ_of_selectBest hs hl]
      have hgain := weight_covered_round hscore h hxl hcx
      have hle : weight w (unionOf cov opt) ≤
          weight w (covered cov result) + opt.length * mc.score x.item.1 :=
        weight_opt_le hscore ho h (fun y hy hc => hbest y hy hc) hopt
      set gap : ℚ := (weight w (unionOf cov opt) : ℚ) - weight w (covered cov result)
      set gain : ℚ := (mc.score x.item.1 : ℚ)
      -- the round gains at least a `k`-th of the gap
      have hshare : gap ≤ (k : ℚ) * gain := by
        have hle' : (weight w (unionOf cov opt) : ℚ) ≤
            weight w (covered cov result) + (opt.length : ℚ) * (mc.score x.item.1 : ℚ) := by
          exact_mod_cast hle
        have hlen' : (opt.length : ℚ) * gain ≤ (k : ℚ) * gain :=
          mul_le_mul_of_nonneg_right (by exact_mod_cast hlen) (Nat.cast_nonneg _)
        simp only [gap]
        linarith
      have hmax : max (gap - gain) 0 ≤ (1 - 1 / (k : ℚ)) * max gap 0 :=
        max_le ((gap_step (by exact_mod_cast hk) hshare).trans
            (mul_le_mul_of_nonneg_left (le_max_left _ _) hq))
          (mul_nonneg hq (le_max_right _ _))
      have hnext : (weight w (unionOf cov opt) : ℚ) - weight w (covered cov (result ++ [x.item])) =
          gap - gain := by
        rw [hgain]
        push_cast
        ring
      calc (weight w (unionOf cov opt) : ℚ) - _
          ≤ (1 - 1 / (k : ℚ)) ^ n * max ((weight w (unionOf cov opt) : ℚ) -
              weight w (covered cov (result ++ [x.item]))) 0 :=
            ih _ _ (ho.round hx.object_update hs hl) (h.round hx hsep ho hs hl)
        _ = (1 - 1 / (k : ℚ)) ^ n * max (gap - gain) 0 := by rw [hnext]
        _ ≤ (1 - 1 / (k : ℚ)) ^ n * ((1 - 1 / (k : ℚ)) * max gap 0) :=
            mul_le_mul_of_nonneg_left hmax (pow_nonneg hq n)
        _ = (1 - 1 / (k : ℚ)) ^ (n + 1) * max gap 0 := by ring

/-- The greedy bound: for an instance over weighted elements, on an input whose unrelated items
cover disjoint elements, the scores of the items `maximum_cover` takes with limit `k` sum to at
least `1 - (1 - 1/k) ^ k` of the weight that any `k` input items cover. -/
theorem maximumCover_approx (hx : mc.Removes rel cov) (hscore : ∀ t, mc.score t = weight w (cov t))
    {items : List τ}
    (hsep : mc.Separated rel cov items) {k : ℕ} {opt : List τ} (hopt : ∀ o ∈ opt, o ∈ items)
    (hlen : opt.length ≤ k) :
    (1 - (1 - 1 / (k : ℚ)) ^ k) * weight w (unionOf cov opt) ≤
      (((mc.maximumCover items k).map mc.score).sum : ℚ) := by
  rcases Nat.eq_zero_or_pos k with rfl | hk
  · rw [pow_zero, sub_self, zero_mul]
    exact Nat.cast_nonneg _
  obtain ⟨_, ho, h⟩ := exists_inv_maximumCover hx hsep k
  -- the scores taken sum to the weight covered
  have htotal : ((mc.maximumCover items k).map mc.score).sum =
      weight w (covered cov (mc.withOrigin.maximumCover (items.map fun t => (t, t)) k)) := by
    rw [maximumCover_eq_withOrigin, List.map_map, covered, weight_unionOf_of_pairwise _ h.pairwise]
    exact congrArg List.sum (List.map_congr_left fun r _ => hscore r.1)
  have hgap := gap_maximumCoverLoop hx hscore hsep hopt hk hlen k _ [] (OriginInv.initial items)
    (CoverInv.initial items)
  have hopt0 : (0 : ℚ) ≤ weight w (unionOf cov opt) := Nat.cast_nonneg _
  simp only [covered, unionOf_nil] at hgap
  rw [show weight w (∅ : Finset ε) = 0 from rfl, Nat.cast_zero, sub_zero, max_eq_left hopt0] at hgap
  rw [htotal]
  change _ ≤ ((weight w (covered cov (mc.withOrigin.maximumCoverLoop k _ [])) : ℕ) : ℚ)
  simp only [covered] at hgap ⊢
  linarith

end Removes

/-! Merging two covers. -/

section Merge
variable {mc : MaxCover τ ω σ}

/-- `merge_solutions` of two covers in non-increasing order of score is, for some items of the
two covers taken each once, their objects in non-increasing order of score, as many as `limit`
allows. -/
theorem mergeSolutions_eq {cover1 cover2 : List τ}
    (h1 : cover1.Pairwise fun a b => mc.score b ≤ mc.score a)
    (h2 : cover2.Pairwise fun a b => mc.score b ≤ mc.score a) (limit : ℕ) :
    ∃ merged : List τ, merged.Subperm (cover1 ++ cover2) ∧
      merged.length = min limit (cover1.length + cover2.length) ∧
      merged.Pairwise (fun a b => mc.score b ≤ mc.score a) ∧
      mc.mergeSolutions cover1 cover2 limit = merged.map mc.object := by
  set le : τ → τ → Bool := fun item1 item2 => decide (mc.score item2 ≤ mc.score item1)
  have htrans : ∀ a b c : τ, le a b = true → le b c = true → le a c = true := by
    intro a b c hab hbc
    simp only [le, decide_eq_true_eq] at hab hbc ⊢
    omega
  have htotal : ∀ a b : τ, (le a b || le b a) = true := by
    intro a b
    simp only [le, Bool.or_eq_true, decide_eq_true_eq]
    omega
  have hle : ∀ {l : List τ}, (l.Pairwise fun a b => mc.score b ≤ mc.score a) ↔
      l.Pairwise fun a b => le a b = true := by
    intro l
    simp [le]
  have hmerge := List.pairwise_merge htrans htotal cover1 cover2 (hle.mp h1) (hle.mp h2)
  refine ⟨(cover1.merge cover2 le).take limit, ?_, ?_, ?_, rfl⟩
  · exact (List.take_sublist _ _).subperm.trans (List.merge_perm_append le).subperm
  · rw [List.length_take, List.length_merge]
  · exact hle.mpr (hmerge.sublist (List.take_sublist _ _))

end Merge

end MaxCover

end Lighthouse.OperationPool
