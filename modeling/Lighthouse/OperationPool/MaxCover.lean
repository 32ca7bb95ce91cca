import Lighthouse.Foundations.MaxCoverage

/-! The greedy maximum cover of `max_cover`, with which the operation pool packs attestations
into a block. An item of a `MaxCover` instance has an object (what a solution collects), a
covering set and a score. `maximum_cover` keeps the input items of nonzero score and, `limit`
times, takes the available item of greatest nonzero score (the last such, as
`Iterator::max_by_key` picks), marks it unavailable and updates the covering sets of the other
candidates for its inclusion. `merge_solutions` merges two covers by score.

Each round is said once (`selectBest_eq_some`, `maximumCoverLoop_succ_of_selectBest`): the best
item stands at a split `pre ++ x :: post` of the items, and the round leaves
`update pre ++ x' :: update post`. A map between two instances that keeps objects, covering
sets and scores and commutes with the update carries the whole cover across
(`maximumCover_map`).

The metrics label of `maximum_cover` is left out. -/
namespace Lighthouse.OperationPool
open Lighthouse.MaxCoverage

/-- The `MaxCover` trait: an item's object, its covering set, the update of its covering set for
the inclusion of another item's object and covering set, and its score. -/
structure MaxCover (τ ω σ : Type*) where
  object : τ → ω
  coveringSet : τ → σ
  updateCoveringSet : τ → ω → σ → τ
  score : τ → ℕ

/-- `MaxCoverItem`: an item of the input, and whether it may still be taken. -/
structure MaxCoverItem (τ : Type*) where
  item : τ
  available : Bool

namespace MaxCoverItem
variable {τ τ' : Type*}

/-- `MaxCoverItem::new`. -/
def new (item : τ) : MaxCoverItem τ := ⟨item, true⟩

/-- The item mapped, its availability kept. -/
def map (f : τ → τ') (x : MaxCoverItem τ) : MaxCoverItem τ' := ⟨f x.item, x.available⟩

end MaxCoverItem

namespace MaxCover
variable {τ ω σ : Type*} (mc : MaxCover τ ω σ)

/-- The filter of both loops of a round: an available item of nonzero score. -/
def isCandidate (x : MaxCoverItem τ) : Bool := x.available && mc.score x.item != 0

/-- The selection of a round: the last candidate of greatest score, with its position. -/
def selectBest (allItems : List (MaxCoverItem τ)) : Option (MaxCoverItem τ × ℕ) :=
  maxByKey (fun p => mc.score p.1.item) (allItems.zipIdx.filter fun p => mc.isCandidate p.1)

/-- The update of a round: every candidate's covering set, for the inclusion of `best`. -/
def updateCandidates (best : τ) (allItems : List (MaxCoverItem τ)) : List (MaxCoverItem τ) :=
  allItems.map fun x => if mc.isCandidate x then
    { x with item := mc.updateCoveringSet x.item (mc.object best) (mc.coveringSet best) } else x

/-- The loop of `maximum_cover`: at most `limit` rounds, each taking the best candidate, marking
it unavailable and updating the candidates left; it returns early once no candidate is left. -/
def maximumCoverLoop : ℕ → List (MaxCoverItem τ) → List τ → List τ
  | 0, _, result => result
  | limit + 1, allItems, result =>
    match mc.selectBest allItems with
    | none => result
    | some (x, i) =>
      let best := x.item
      let allItems := allItems.set i { x with available := false }
      maximumCoverLoop limit (mc.updateCandidates best allItems) (result ++ [best])

/-- The items `maximum_cover` starts from: the input of nonzero score, all available. -/
def initialItems (items : List τ) : List (MaxCoverItem τ) :=
  (items.map MaxCoverItem.new).filter fun x => mc.score x.item != 0

/-- `maximum_cover`. -/
def maximumCover (items : List τ) (limit : ℕ) : List τ :=
  mc.maximumCoverLoop limit (mc.initialItems items) []

/-- `merge_solutions`: the two covers merged by score, the first cover's item first at equal
scores, cut at `limit`, as objects. -/
def mergeSolutions (cover1 cover2 : List τ) (limit : ℕ) : List ω :=
  ((cover1.merge cover2 fun item1 item2 => decide (mc.score item2 ≤ mc.score item1)).take
    limit).map mc.object

/-! One round. -/

variable {mc}

theorem selectBest_eq_none_iff {l : List (MaxCoverItem τ)} :
    mc.selectBest l = none ↔ ∀ x ∈ l, mc.isCandidate x = false := by
  rw [selectBest, maxByKey_eq_none_iff, List.filter_eq_nil_iff]
  constructor
  · intro h x hx
    obtain ⟨i, hi, rfl⟩ := List.mem_iff_getElem.mp hx
    simpa using h (l[i], i) (List.mem_zipIdx_iff_getElem?.mpr (by simp))
  · intro h p hp
    have hmem : p.1 ∈ l := List.mem_of_getElem? (List.mem_zipIdx_iff_getElem?.mp hp)
    simp [h p.1 hmem]

/-- What a selection says: the best item stands at its position among the items, is a candidate,
and no candidate scores more. -/
theorem selectBest_eq_some {l : List (MaxCoverItem τ)} {x : MaxCoverItem τ} {i : ℕ}
    (h : mc.selectBest l = some (x, i)) :
    ∃ pre post, l = pre ++ x :: post ∧ pre.length = i ∧ mc.isCandidate x = true ∧
      ∀ y ∈ l, mc.isCandidate y = true → mc.score y.item ≤ mc.score x.item := by
  have hmem := List.mem_filter.mp (maxByKey_mem h)
  have hget : l[i]? = some x := List.mem_zipIdx_iff_getElem?.mp hmem.1
  have hlt : i < l.length := (List.getElem?_eq_some_iff.mp hget).1
  have hx : l[i] = x := (List.getElem?_eq_some_iff.mp hget).2
  refine ⟨l.take i, l.drop (i + 1), ?_, by simp; omega, hmem.2, ?_⟩
  · rw [← hx, ← List.drop_eq_getElem_cons hlt, List.take_append_drop]
  · intro y hy hcand
    obtain ⟨j, hj, rfl⟩ := List.mem_iff_getElem.mp hy
    have hin : (l[j], j) ∈ l.zipIdx.filter fun p => mc.isCandidate p.1 :=
      List.mem_filter.mpr ⟨List.mem_zipIdx_iff_getElem?.mpr (by simp), hcand⟩
    exact le_maxByKey h _ hin

theorem isCandidate_mark (x : MaxCoverItem τ) :
    mc.isCandidate { x with available := false } = false := rfl

theorem updateCandidates_append (best : τ) (l l' : List (MaxCoverItem τ)) :
    mc.updateCandidates best (l ++ l') = mc.updateCandidates best l ++ mc.updateCandidates best l' :=
  List.map_append

/-- The items a round leaves: the best one marked unavailable in its place, the candidates
around it updated. -/
theorem round_eq (best : τ) (pre post : List (MaxCoverItem τ)) (x : MaxCoverItem τ) :
    mc.updateCandidates best ((pre ++ x :: post).set pre.length { x with available := false }) =
      mc.updateCandidates best pre ++
        { x with available := false } :: mc.updateCandidates best post := by
  rw [List.set_append_right _ _ le_rfl, Nat.sub_self, List.set_cons_zero,
    updateCandidates_append]
  simp [updateCandidates, isCandidate_mark]

/-- A round that finds a best item at the split `pre ++ x :: post`. -/
theorem maximumCoverLoop_succ_of_selectBest {limit : ℕ} {l : List (MaxCoverItem τ)}
    {result : List τ} {x : MaxCoverItem τ} {pre post : List (MaxCoverItem τ)}
    (h : mc.selectBest l = some (x, pre.length)) (hl : l = pre ++ x :: post) :
    mc.maximumCoverLoop (limit + 1) l result =
      mc.maximumCoverLoop limit (mc.updateCandidates x.item pre ++
        { x with available := false } :: mc.updateCandidates x.item post) (result ++ [x.item]) := by
  rw [maximumCoverLoop, h]
  dsimp only
  rw [hl, round_eq]

theorem maximumCoverLoop_succ_of_none {limit : ℕ} {l : List (MaxCoverItem τ)} {result : List τ}
    (h : mc.selectBest l = none) : mc.maximumCoverLoop (limit + 1) l result = result := by
  rw [maximumCoverLoop, h]

/-- Every round adds one item at most. -/
theorem length_maximumCoverLoop_le :
    ∀ (limit : ℕ) (l : List (MaxCoverItem τ)) (result : List τ),
      (mc.maximumCoverLoop limit l result).length ≤ result.length + limit
  | 0, _, _ => le_rfl
  | limit + 1, l, result => by
    cases h : mc.selectBest l with
    | none => rw [maximumCoverLoop_succ_of_none h]; omega
    | some p =>
      obtain ⟨x, i⟩ := p
      obtain ⟨pre, post, hl, rfl, -⟩ := selectBest_eq_some h
      rw [maximumCoverLoop_succ_of_selectBest h hl]
      have := length_maximumCoverLoop_le limit (mc.updateCandidates x.item pre ++
        { x with available := false } :: mc.updateCandidates x.item post) (result ++ [x.item])
      simp only [List.length_append, List.length_singleton] at this
      omega

/-! Maps between instances. -/

variable {τ' : Type*}

/-- A map between the items of two instances that keeps objects, covering sets and scores, and
commutes with the update. -/
structure Hom (mc : MaxCover τ ω σ) (mc' : MaxCover τ' ω σ) (f : τ → τ') : Prop where
  object_map : ∀ t, mc'.object (f t) = mc.object t
  coveringSet_map : ∀ t, mc'.coveringSet (f t) = mc.coveringSet t
  score_map : ∀ t, mc'.score (f t) = mc.score t
  update_map : ∀ t o s, f (mc.updateCoveringSet t o s) = mc'.updateCoveringSet (f t) o s

section Hom
variable {mc' : MaxCover τ' ω σ} {f : τ → τ'} (hf : Hom mc mc' f)
include hf

theorem Hom.isCandidate_map (x : MaxCoverItem τ) : mc'.isCandidate (x.map f) = mc.isCandidate x := by
  simp [isCandidate, MaxCoverItem.map, hf.score_map]

theorem Hom.selectBest_map (l : List (MaxCoverItem τ)) :
    mc'.selectBest (l.map (MaxCoverItem.map f)) =
      (mc.selectBest l).map fun p => (p.1.map f, p.2) := by
  have hfilter : (List.map (MaxCoverItem.map f) l).zipIdx.filter (fun p => mc'.isCandidate p.1) =
      (l.zipIdx.filter fun p => mc.isCandidate p.1).map (Prod.map (MaxCoverItem.map f) id) := by
    rw [List.zipIdx_map, List.filter_map]
    congr 1
    apply List.filter_congr
    intro p _
    simp [hf.isCandidate_map]
  rw [selectBest, hfilter, maxByKey_map (fun q => mc'.score q.1.item)
    (Prod.map (MaxCoverItem.map f) id) fun p => hf.score_map p.1.item]
  rfl

theorem Hom.updateCandidates_map (best : τ) (l : List (MaxCoverItem τ)) :
    mc'.updateCandidates (f best) (l.map (MaxCoverItem.map f)) =
      (mc.updateCandidates best l).map (MaxCoverItem.map f) := by
  simp only [updateCandidates, List.map_map]
  apply List.map_congr_left
  intro x _
  simp only [Function.comp_apply, hf.isCandidate_map]
  split <;> simp [MaxCoverItem.map, hf.object_map, hf.coveringSet_map, hf.update_map]

/-- The loop commutes with the map, round by round. -/
theorem Hom.maximumCoverLoop_map (limit : ℕ) :
    ∀ (l : List (MaxCoverItem τ)) (result : List τ),
      (mc.maximumCoverLoop limit l result).map f =
        mc'.maximumCoverLoop limit (l.map (MaxCoverItem.map f)) (result.map f) := by
  induction limit with
  | zero => intro l result; rfl
  | succ limit ih =>
    intro l result
    cases h : mc.selectBest l with
    | none =>
      have h' : mc'.selectBest (l.map (MaxCoverItem.map f)) = none := by
        rw [hf.selectBest_map, h]
        rfl
      rw [maximumCoverLoop_succ_of_none h, maximumCoverLoop_succ_of_none h']
    | some p =>
      obtain ⟨x, i⟩ := p
      obtain ⟨pre, post, hl, rfl, -⟩ := selectBest_eq_some h
      have h' : mc'.selectBest (l.map (MaxCoverItem.map f)) =
          some (x.map f, (pre.map (MaxCoverItem.map f)).length) := by
        rw [hf.selectBest_map, h, List.length_map]
        rfl
      have hl' : l.map (MaxCoverItem.map f) =
          pre.map (MaxCoverItem.map f) ++ x.map f :: post.map (MaxCoverItem.map f) := by
        rw [hl, List.map_append, List.map_cons]
      rw [maximumCoverLoop_succ_of_selectBest h hl, maximumCoverLoop_succ_of_selectBest h' hl',
        ih, List.map_append, List.map_cons, List.map_append, List.map_singleton]
      simp only [MaxCoverItem.map]
      rw [hf.updateCandidates_map, hf.updateCandidates_map]

/-- A map that keeps objects, covering sets and scores and commutes with the update carries
`maximum_cover` across. -/
theorem Hom.maximumCover_map (items : List τ) (limit : ℕ) :
    (mc.maximumCover items limit).map f = mc'.maximumCover (items.map f) limit := by
  have hinit : (mc.initialItems items).map (MaxCoverItem.map f) = mc'.initialItems (items.map f) := by
    simp only [initialItems, List.map_map, List.filter_map]
    simp [Function.comp_def, MaxCoverItem.map, MaxCoverItem.new, hf.score_map]
  rw [maximumCover, hf.maximumCoverLoop_map, hinit]
  rfl

end Hom

end MaxCover

end Lighthouse.OperationPool
