import Mathlib.Logic.Relation
import Mathlib.Data.List.Basic

/-! A forest kept in an array: each element may name the position of its parent. The
descendant relation is the transitive closure of the parent links; when parents come before
their children (`Topological`) it runs downwards in the array. A write that keeps every parent
link keeps the relation, appending an element only adds descendants of its parent, and
dropping a prefix with the links shifted down (those into the prefix cut) keeps the relation
among the survivors. -/
namespace Lighthouse.Forest
variable {α β : Type*} (parent : α → Option Nat)

/-- The parent position of position `c`, when it holds an element that has one. -/
def parentAt (xs : List α) (c : Nat) : Option Nat := xs[c]?.bind parent

/-- `d` lies strictly below `a`: following parent links from `d` reaches `a`. -/
def Descends (xs : List α) (d a : Nat) : Prop :=
  Relation.TransGen (fun c p => parentAt parent xs c = some p) d a

/-- Parents come before their children. -/
def Topological (xs : List α) : Prop := ∀ c p, parentAt parent xs c = some p → p < c

/-- `x` lies on the path from `lo` up to `hi`, `hi` left out. -/
def Between (xs : List α) (lo hi x : Nat) : Prop :=
  (x = lo ∨ Descends parent xs lo x) ∧ Descends parent xs x hi

variable {parent} {xs : List α}

theorem parentAt_lt_length {c p : Nat} (h : parentAt parent xs c = some p) : c < xs.length := by
  unfold parentAt at h
  cases hc : xs[c]? with
  | none => rw [hc] at h; cases h
  | some x => exact (List.getElem?_eq_some_iff.mp hc).1

theorem Descends.single {d a : Nat} (h : parentAt parent xs d = some a) :
    Descends parent xs d a :=
  Relation.TransGen.single h

theorem Descends.trans {d m a : Nat} (h₁ : Descends parent xs d m) (h₂ : Descends parent xs m a) :
    Descends parent xs d a :=
  Relation.TransGen.trans h₁ h₂

theorem Descends.lt_length {d a : Nat} (h : Descends parent xs d a) : d < xs.length := by
  induction h using Relation.TransGen.head_induction_on with
  | single h => exact parentAt_lt_length h
  | head h _ _ => exact parentAt_lt_length h

theorem Descends.lt (ht : Topological parent xs) {d a : Nat} (h : Descends parent xs d a) :
    a < d := by
  induction h with
  | single h => exact ht _ _ h
  | tail _ h ih => exact Nat.lt_trans (ht _ _ h) ih

/-- A property that every parent passes to its child passes from an ancestor to each of its
descendants. -/
theorem Descends.transport {Q : Nat → Prop}
    (hQ : ∀ c p, parentAt parent xs c = some p → Q p → Q c) {d a : Nat}
    (h : Descends parent xs d a) (ha : Q a) : Q d := by
  induction h using Relation.TransGen.head_induction_on with
  | single h => exact hQ _ _ h ha
  | head h _ ih => exact hQ _ _ h ih

/-- A property that every child passes to its parent passes from a descendant to each of its
ancestors. -/
theorem Descends.transport_up {Q : Nat → Prop}
    (hQ : ∀ c p, parentAt parent xs c = some p → Q c → Q p) {d a : Nat}
    (h : Descends parent xs d a) (hd : Q d) : Q a := by
  induction h with
  | single h => exact hQ _ _ h hd
  | tail _ h ih => exact hQ _ _ h ih

/-- A key that grows from every parent to its child grows along every descent. -/
theorem Descends.key_lt {key : α → Nat}
    (hkey : ∀ (c p : Nat) x y, xs[c]? = some x → parent x = some p → xs[p]? = some y →
      key y < key x)
    {d a : Nat} (h : Descends parent xs d a) {x y : α} (hx : xs[d]? = some x)
    (hy : xs[a]? = some y) : key y < key x := by
  induction h using Relation.TransGen.head_induction_on generalizing x with
  | single h =>
    obtain ⟨z, hz, hp⟩ := Option.bind_eq_some_iff.mp h
    rw [hx, Option.some.injEq] at hz
    subst hz
    exact hkey _ _ _ _ hx hp hy
  | head h hrest ih =>
    obtain ⟨z, hz, hp⟩ := Option.bind_eq_some_iff.mp h
    rw [hx, Option.some.injEq] at hz
    subst hz
    -- The middle of the chain holds an element, as every start of a descent does.
    obtain ⟨w, hw⟩ : ∃ w, xs[_]? = some w :=
      ⟨_, List.getElem?_eq_getElem (Descends.lt_length hrest)⟩
    exact Nat.lt_trans (ih hw) (hkey _ _ _ _ hx hp hw)

/-- The ancestors of a node lie on one chain: any two are equal or one is below the other. -/
theorem Descends.total {d a b : Nat} (ha : Descends parent xs d a) (hb : Descends parent xs d b) :
    a = b ∨ Descends parent xs a b ∨ Descends parent xs b a := by
  induction ha using Relation.TransGen.head_induction_on generalizing b with
  | @single c h =>
    obtain ⟨m, hm, hmb⟩ := Relation.TransGen.head'_iff.mp hb
    rw [h, Option.some.injEq] at hm
    subst hm
    rcases hmb.cases_head with rfl | ⟨m', hm', hm'b⟩
    · exact .inl rfl
    · exact .inr (.inl (Relation.TransGen.head'_iff.mpr ⟨m', hm', hm'b⟩))
  | @head c m h hma ih =>
    obtain ⟨m', hm', hm'b⟩ := Relation.TransGen.head'_iff.mp hb
    rw [h, Option.some.injEq] at hm'
    subst hm'
    rcases hm'b.cases_head with rfl | ⟨k, hk, hkb⟩
    · exact .inr (.inr hma)
    · exact ih (Relation.TransGen.head'_iff.mpr ⟨k, hk, hkb⟩)

/-- The parent of a node below `a` is `a` or again below `a`. -/
theorem Descends.parent_eq_or {i p a : Nat} (hp : parentAt parent xs i = some p)
    (h : Descends parent xs i a) : p = a ∨ Descends parent xs p a := by
  obtain ⟨m, hm, hma⟩ := Relation.TransGen.head'_iff.mp h
  rw [hp, Option.some.injEq] at hm
  subst hm
  exact (Relation.reflTransGen_iff_eq_or_transGen.mp hma).imp Eq.symm id

theorem Descends.irrefl (ht : Topological parent xs) (a : Nat) : ¬ Descends parent xs a a :=
  fun h => Nat.lt_irrefl a (h.lt ht)

theorem not_between_self (ht : Topological parent xs) (r x : Nat) : ¬ Between parent xs r r x := by
  rintro ⟨hx | hx, hxr⟩
  · subst hx
    exact hxr.irrefl ht _
  · exact (hx.trans hxr).irrefl ht _

/-- The path from a node below `hi` is the node followed by the path from its parent. -/
theorem between_iff_of_parent {i p hi : Nat} (hp : parentAt parent xs i = some p)
    (hihi : Descends parent xs i hi) (x : Nat) :
    Between parent xs i hi x ↔ x = i ∨ Between parent xs p hi x := by
  constructor
  · rintro ⟨hx | hx, hxhi⟩
    · exact .inl hx
    · refine .inr ⟨?_, hxhi⟩
      obtain ⟨m, hm, hmx⟩ := Relation.TransGen.head'_iff.mp hx
      rw [hp, Option.some.injEq] at hm
      subst hm
      exact Relation.reflTransGen_iff_eq_or_transGen.mp hmx
  · rintro (rfl | ⟨hx, hxhi⟩)
    · exact ⟨.inl rfl, hihi⟩
    · refine ⟨.inr ?_, hxhi⟩
      rcases hx with rfl | hx
      · exact .single hp
      · exact (Descends.single hp).trans hx

/-- The descendant relation depends on the parent links only. -/
theorem descends_congr {parent' : β → Option Nat} {ys : List β}
    (h : ∀ c, parentAt parent xs c = parentAt parent' ys c) {d a : Nat} :
    Descends parent xs d a ↔ Descends parent' ys d a := by
  unfold Descends
  simp only [h]

theorem parentAt_eq_of_map_eq {parent' : β → Option Nat} {ys : List β}
    (h : xs.map parent = ys.map parent') (c : Nat) :
    parentAt parent xs c = parentAt parent' ys c := by
  have hc := congrArg (·[c]?) h
  simp only [List.getElem?_map] at hc
  unfold parentAt
  cases hx : xs[c]? <;> cases hy : ys[c]? <;> simp_all

theorem parentAt_set {i : Nat} {y : α} (h : ∀ x, xs[i]? = some x → parent y = parent x)
    (c : Nat) : parentAt parent (xs.set i y) c = parentAt parent xs c := by
  unfold parentAt
  rw [List.getElem?_set]
  by_cases hic : i = c
  · subst hic
    cases hx : xs[i]? with
    | none =>
      have := List.getElem?_eq_none_iff.mp hx
      simp [Nat.not_lt.mpr this]
    | some x =>
      have hi : i < xs.length := (List.getElem?_eq_some_iff.mp hx).1
      simp [hi, h x hx]
  · simp [hic]

theorem parentAt_append_of_lt {c : Nat} (hc : c < xs.length) (ys : List α) :
    parentAt parent (xs ++ ys) c = parentAt parent xs c := by
  simp [parentAt, List.getElem?_append_left hc]

theorem parentAt_concat_length (y : α) : parentAt parent (xs ++ [y]) xs.length = parent y := by
  simp [parentAt]

theorem Topological.set (ht : Topological parent xs) {i : Nat} {y : α}
    (h : ∀ x, xs[i]? = some x → parent y = parent x) : Topological parent (xs.set i y) := by
  intro c p hc
  rw [parentAt_set h] at hc
  exact ht c p hc

/-- Appending an element whose parent is already in the array. -/
theorem Topological.push (ht : Topological parent xs) {y : α}
    (hy : ∀ p, parent y = some p → p < xs.length) : Topological parent (xs ++ [y]) := by
  intro c p hc
  have hlt : c < xs.length + 1 := by simpa using parentAt_lt_length hc
  rcases Nat.lt_succ_iff_lt_or_eq.mp hlt with hlt | rfl
  · rw [parentAt_append_of_lt hlt] at hc
    exact ht c p hc
  · rw [parentAt_concat_length] at hc
    exact hy p hc

/-- The old descendants survive an append. -/
theorem Descends.push {d a : Nat} (h : Descends parent xs d a) (y : α) :
    Descends parent (xs ++ [y]) d a := by
  induction h with
  | single h => exact .single (by rw [parentAt_append_of_lt (parentAt_lt_length h)]; exact h)
  | tail _ h ih => exact ih.tail (by rw [parentAt_append_of_lt (parentAt_lt_length h)]; exact h)

/-- After an append, a descendant is an old one or the new element below its parent. -/
theorem descends_push (ht : Topological parent xs) {y : α}
    (hy : ∀ p, parent y = some p → p < xs.length) {d a : Nat}
    (h : Descends parent (xs ++ [y]) d a) :
    Descends parent xs d a ∨
      (d = xs.length ∧ ∃ p, parent y = some p ∧ (p = a ∨ Descends parent xs p a)) := by
  induction h using Relation.TransGen.head_induction_on with
  | @single d h =>
    by_cases hd : d < xs.length
    · rw [parentAt_append_of_lt hd] at h
      exact .inl (.single h)
    · have : d = xs.length := by
        have := parentAt_lt_length h
        simp at this
        omega
      subst this
      rw [parentAt_concat_length] at h
      exact .inr ⟨rfl, _, h, .inl rfl⟩
  | @head d m h _ ih =>
    by_cases hd : d < xs.length
    · rw [parentAt_append_of_lt hd] at h
      -- Below an old element the chain stays among the old elements.
      have hm : m < xs.length := Nat.lt_trans (ht d m h) hd
      rcases ih with ih | ⟨rfl, -⟩
      · exact .inl ((Descends.single h).trans ih)
      · exact absurd hm (Nat.lt_irrefl _)
    · have hdl : d = xs.length := by
        have := parentAt_lt_length h
        simp at this
        omega
      subst hdl
      rw [parentAt_concat_length] at h
      rcases ih with ih | ⟨rfl, -⟩
      · exact .inr ⟨rfl, m, h, .inr ih⟩
      · exact absurd (hy _ h) (Nat.lt_irrefl _)

/-- A parent link after dropping the first `k` positions: shifted down, or cut when it pointed
into the dropped prefix (`checked_sub`). -/
def shiftParent (k : Nat) (p : Option Nat) : Option Nat :=
  p.bind fun p => if k ≤ p then some (p - k) else none

section Drop
variable {parent' : β → Option Nat} {ys : List β} {k : Nat}

theorem shiftParent_eq_some {p : Option Nat} {q : Nat} :
    shiftParent k p = some q ↔ p = some (q + k) := by
  unfold shiftParent
  cases p with
  | none => simp
  | some p =>
    simp only [Option.bind_some, Option.ite_none_right_eq_some, Option.some.injEq]
    omega

theorem Topological.drop (ht : Topological parent xs)
    (hys : ∀ c, parentAt parent' ys c = shiftParent k (parentAt parent xs (c + k))) :
    Topological parent' ys := by
  intro c p hc
  rw [hys, shiftParent_eq_some] at hc
  have := ht _ _ hc
  omega

/-- Dropping a prefix keeps the descendant relation among the survivors. -/
theorem descends_drop (ht : Topological parent xs)
    (hys : ∀ c, parentAt parent' ys c = shiftParent k (parentAt parent xs (c + k))) (d a : Nat) :
    Descends parent' ys d a ↔ Descends parent xs (d + k) (a + k) := by
  constructor
  · intro h
    induction h with
    | single h =>
      rw [hys, shiftParent_eq_some] at h
      exact .single h
    | tail _ h ih =>
      rw [hys, shiftParent_eq_some] at h
      exact ih.tail h
  · -- Every link of a chain ending at or above position `k` starts above `k`.
    have key : ∀ D A, Descends parent xs D A → k ≤ A → Descends parent' ys (D - k) (A - k) := by
      intro D A h hA
      induction h with
      | @single D h =>
        have hD := ht _ _ h
        refine .single ?_
        rw [hys, Nat.sub_add_cancel (by omega), h, shiftParent]
        simp [hA]
      | @tail M A _ h ih =>
        have hM := ht _ _ h
        refine (ih (by omega)).tail ?_
        rw [hys, Nat.sub_add_cancel (by omega), h, shiftParent]
        simp [hA]
    intro h
    simpa using key _ _ h (Nat.le_add_left k a)

end Drop

section Reach
variable (parent) (xs)

/-- The positions reached from `T` by going down to children at positions `a` and above: a
forward pass over the array from `a` that marks every child of a marked position. -/
inductive Reached (T : List Nat) (a : Nat) : Nat → Prop
  | mem {x : Nat} : x ∈ T → Reached T a x
  | child {x p : Nat} : a ≤ x → parentAt parent xs x = some p → Reached T a p → Reached T a x

variable {parent} {xs}

theorem Reached.mem_of_lt {T : List Nat} {a x : Nat} (h : Reached parent xs T a x) (hx : x < a) :
    x ∈ T := by
  cases h with
  | mem h => exact h
  | child hax _ _ => omega

theorem Reached.congr {parent' : β → Option Nat} {ys : List β}
    (h : ∀ c, parentAt parent xs c = parentAt parent' ys c) {T : List Nat} {a x : Nat}
    (hr : Reached parent xs T a x) : Reached parent' ys T a x := by
  induction hr with
  | mem h => exact .mem h
  | child hax hxp _ ih => exact .child hax (h _ ▸ hxp) ih

/-- Handling position `a` of the pass: it joins the marked list when its parent is marked, and
the pass goes on from `a + 1` reaching the same positions. -/
theorem reached_succ_iff (ht : Topological parent xs) {T : List Nat} {a : Nat} (T' : List Nat)
    (hT' : ∀ x, x ∈ T' ↔ x ∈ T ∨ (x = a ∧ ∃ p, parentAt parent xs a = some p ∧ p ∈ T)) (y : Nat) :
    Reached parent xs T a y ↔ Reached parent xs T' (a + 1) y := by
  constructor
  · intro h
    induction h with
    | mem h => exact .mem ((hT' _).mpr (.inl h))
    | @child x p hax hxp _ ih =>
      by_cases hx : x = a
      · subst hx
        have hpx := ht _ _ hxp
        -- The parent of `a` comes before `a`, so it was marked from the start.
        have hpT : p ∈ T := by
          refine (((hT' p).mp (ih.mem_of_lt (by omega))).resolve_right ?_)
          rintro ⟨rfl, -⟩
          omega
        exact .mem ((hT' x).mpr (.inr ⟨rfl, p, hxp, hpT⟩))
      · exact .child (by omega) hxp ih
  · intro h
    induction h with
    | mem h =>
      rcases (hT' _).mp h with h | ⟨rfl, p, hp, hpT⟩
      · exact .mem h
      · exact .child (Nat.le_refl _) hp (.mem hpT)
    | child hax hxp _ ih => exact .child (by omega) hxp ih

/-- When every marked position is at least `a - 1`, the pass reaches exactly the marked
positions and their descendants. -/
theorem reached_iff (ht : Topological parent xs) {T : List Nat} {a : Nat}
    (hT : ∀ y ∈ T, a ≤ y + 1) (x : Nat) :
    Reached parent xs T a x ↔ x ∈ T ∨ ∃ y ∈ T, Descends parent xs x y := by
  constructor
  · intro h
    induction h with
    | mem h => exact .inl h
    | @child x p _ hxp _ ih =>
      rcases ih with hp | ⟨y, hy, hpy⟩
      · exact .inr ⟨p, hp, .single hxp⟩
      · exact .inr ⟨y, hy, (Descends.single hxp).trans hpy⟩
  · rintro (h | ⟨y, hy, hxy⟩)
    · exact .mem h
    · -- Every node strictly below a marked one is at least `a`.
      induction hxy using Relation.TransGen.head_induction_on with
      | @single x hxy =>
        have := ht _ _ hxy
        have := hT y hy
        exact .child (by omega) hxy (.mem hy)
      | @head x m hxm hmy ih =>
        have := ht _ _ hxm
        have := Descends.lt ht hmy
        have := hT y hy
        exact .child (by omega) hxm ih

end Reach

end Lighthouse.Forest
