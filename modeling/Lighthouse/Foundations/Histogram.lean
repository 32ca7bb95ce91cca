import Mathlib.Data.List.AList

/-! A histogram kept beside a list: a finite map from values to how often they occur, updated
one occurrence at a time. `Counts h p l` says that `h` holds the multiplicity in `l` of every
value satisfying `p`. Recording a value keeps it when that value is appended to `l`, or when an
entry of `l` that `p` excludes is changed into it; and the largest key of the map only depends
on which values it has. -/
namespace Lighthouse.Histogram
variable {κ : Type*} [DecidableEq κ]

/-- A finite map from values to counts. -/
abbrev Map (κ : Type*) := AList (fun _ : κ => Nat)

/-- The count of `k`, zero when `k` is absent. -/
def count (h : Map κ) (k : κ) : Nat := (h.lookup k).getD 0

/-- One more occurrence of `k`. -/
def record (h : Map κ) (k : κ) : Map κ := h.insert k (count h k + 1)

/-- `h` holds, for every value satisfying `p`, its number of occurrences in `l`. -/
def Counts (h : Map κ) (p : κ → Prop) (l : List κ) : Prop :=
  ∀ k, p k → count h k = l.count k

@[simp] theorem count_empty (k : κ) : count (∅ : Map κ) k = 0 := by
  simp [count, AList.lookup_empty]

theorem count_record (h : Map κ) (k k' : κ) :
    count (record h k) k' = count h k' + if k = k' then 1 else 0 := by
  by_cases hk : k = k'
  · subst hk
    simp [count, record, AList.lookup_insert]
  · simp [count, record, AList.lookup_insert_ne (Ne.symm hk), hk]

theorem mem_keys_record (h : Map κ) (k k' : κ) :
    k' ∈ (record h k).keys ↔ k' = k ∨ k' ∈ h.keys := by
  simp only [record, ← AList.mem_keys, AList.mem_insert]

/-- The keys after recording the values of a list are the keys before and those values. -/
theorem mem_keys_foldl_record (l : List κ) (h : Map κ) (k : κ) :
    k ∈ (l.foldl record h).keys ↔ k ∈ h.keys ∨ k ∈ l := by
  induction l generalizing h with
  | nil => simp
  | cons k' l ih =>
    rw [List.foldl_cons, ih, mem_keys_record, List.mem_cons]
    tauto

/-- The keys after inserting the pairs of a list are the keys before and the pairs' first
components. -/
theorem mem_keys_foldl_insert (l : List (κ × Nat)) (h : Map κ) (k : κ) :
    k ∈ (l.foldl (fun m e => m.insert e.1 e.2) h).keys ↔ k ∈ h.keys ∨ k ∈ l.map Prod.fst := by
  induction l generalizing h with
  | nil => simp
  | cons e l ih =>
    have hins : k ∈ (h.insert e.1 e.2).keys ↔ k = e.1 ∨ k ∈ h.keys := by
      simp only [← AList.mem_keys, AList.mem_insert]
    rw [List.foldl_cons, ih, hins, List.map_cons, List.mem_cons]
    tauto

theorem Counts.empty (p : κ → Prop) : Counts (∅ : Map κ) p [] := by
  intro k _
  rw [count_empty, List.count_nil]

theorem Counts.record_append {h : Map κ} {p : κ → Prop} {l : List κ} (hc : Counts h p l)
    (k : κ) : Counts (record h k) p (l ++ [k]) := by
  intro k' hk'
  rw [count_record, hc k' hk', List.count_append, List.count_singleton]
  by_cases hk : k = k' <;> simp [hk]

/-- Changing an entry that `p` excludes into `k`, and recording `k`. -/
theorem Counts.record_set {h : Map κ} {p : κ → Prop} {l : List κ} (hc : Counts h p l)
    {i : Nat} (hi : i < l.length) (hx : ¬ p l[i]) (k : κ) :
    Counts (record h k) p (l.set i k) := by
  intro k' hk'
  have hne : l[i] ≠ k' := fun heq => hx (heq ▸ hk')
  rw [count_record, hc k' hk', List.count_set hi]
  simp [hne]

section Max
variable [Max κ] [LE κ] [Std.IsLinearOrder κ] [Std.LawfulOrderMax κ]

omit [DecidableEq κ] in
/-- The largest element of a list only depends on its members. -/
theorem max?_congr {l₁ l₂ : List κ} (h : ∀ x, x ∈ l₁ ↔ x ∈ l₂) :
    l₁.max? = l₂.max? := by
  cases hm : l₂.max? with
  | none =>
    rw [List.max?_eq_none_iff] at hm ⊢
    subst hm
    exact List.eq_nil_iff_forall_not_mem.mpr fun x hx => by simpa using (h x).mp hx
  | some m =>
    rw [List.max?_eq_some_iff] at hm ⊢
    exact ⟨(h m).mpr hm.1, fun b hb => hm.2 b ((h b).mp hb)⟩

theorem max?_keys_record (h : Map κ) (k : κ) :
    (record h k).keys.max? = (k :: h.keys).max? :=
  max?_congr fun x => by rw [mem_keys_record, List.mem_cons]

omit [DecidableEq κ] in
theorem max?_cons_congr {l₁ l₂ : List κ} (h : l₁.max? = l₂.max?) (k : κ) :
    (k :: l₁).max? = (k :: l₂).max? := by
  simp only [List.max?_cons, h]

/-- `h` is the histogram of `l`: it counts every value, and its largest key is the largest
value of `l`. -/
structure Tallies (h : Map κ) (l : List κ) : Prop where
  counts : Counts h (fun _ => True) l
  max : h.keys.max? = l.max?

omit [LE κ] [Std.IsLinearOrder κ] [Std.LawfulOrderMax κ] in
theorem Tallies.empty : Tallies (∅ : Map κ) [] :=
  ⟨Counts.empty _, by rw [AList.keys_empty]⟩

theorem Tallies.record_append {h : Map κ} {l : List κ} (ht : Tallies h l) (k : κ) :
    Tallies (record h k) (l ++ [k]) := by
  refine ⟨ht.counts.record_append k, ?_⟩
  calc (record h k).keys.max? = (k :: h.keys).max? := max?_keys_record h k
    _ = (k :: l).max? := max?_cons_congr ht.max k
    _ = (l ++ [k]).max? := max?_congr fun x => by simp [or_comm]

end Max

omit [DecidableEq κ] in
/-- Changing an entry that `p` rejects into one that it accepts adds exactly that value to the
accepted ones. -/
theorem mem_filter_set {p : κ → Bool} {l : List κ} {i : Nat} (hi : i < l.length)
    (hx : p l[i] = false) {k : κ} (hk : p k = true) (x : κ) :
    x ∈ (l.set i k).filter p ↔ x = k ∨ x ∈ l.filter p := by
  simp only [List.mem_filter]
  constructor
  · rintro ⟨hmem, hpx⟩
    rcases List.mem_or_eq_of_mem_set hmem with hl | rfl
    · exact .inr ⟨hl, hpx⟩
    · exact .inl rfl
  · rintro (rfl | ⟨hl, hpx⟩)
    · exact ⟨List.mem_set hi _, hk⟩
    · obtain ⟨j, hj, rfl⟩ := List.getElem_of_mem hl
      have hji : i ≠ j := fun hij => by subst hij; simp [hx] at hpx
      refine ⟨?_, hpx⟩
      rw [List.mem_iff_getElem]
      exact ⟨j, by simpa using hj, by rw [List.getElem_set_ne hji]⟩

end Lighthouse.Histogram
