import Mathlib

/-! Sums of a weight over the values of a finite map: what a counter kept beside a table is
meant to equal, and how inserting or erasing one key changes the sum. -/
namespace Lighthouse.Tally
variable {α V : Type*}

/-- The sum of `w` over the values of `s`. -/
def tally (s : AList fun _ : α => V) (w : V → Nat) : Nat := (s.entries.map fun e => w e.2).sum

@[simp] theorem tally_empty (w : V → Nat) : tally (∅ : AList fun _ : α => V) w = 0 := rfl

/-- A sum of weights that vanish on every value is zero. -/
theorem tally_eq_zero {s : AList fun _ : α => V} {w : V → Nat} (h : ∀ e ∈ s.entries, w e.2 = 0) :
    tally s w = 0 := by
  apply List.sum_eq_zero_iff_forall_eq_nat.mpr
  intro n hn
  obtain ⟨e, he, rfl⟩ := List.mem_map.mp hn
  exact h e he

/-- The sum counts at least the values of positive weight. -/
theorem length_filter_pos_le_tally (s : AList fun _ : α => V) (w : V → Nat) :
    (s.entries.filter fun e => 0 < w e.2).length ≤ tally s w := by
  unfold tally
  induction s.entries with
  | nil => simp
  | cons e rest ih =>
    by_cases hpos : 0 < w e.2
    · simp [hpos]
      omega
    · simp [hpos]
      omega

variable [DecidableEq α]

/-- The weight of the value at `a`, zero where there is none. -/
def weightAt (s : AList fun _ : α => V) (w : V → Nat) (a : α) : Nat :=
  ((s.lookup a).map w).getD 0

theorem entries_erase (s : AList fun _ : α => V) (a : α) :
    (s.erase a).entries = s.entries.kerase a := rfl

theorem weightAt_of_lookup {s : AList fun _ : α => V} {a : α} {v : V} (h : s.lookup a = some v)
    (w : V → Nat) : weightAt s w a = w v := by
  simp [weightAt, h]

theorem weightAt_of_notMem {s : AList fun _ : α => V} {a : α} (h : a ∉ s) (w : V → Nat) :
    weightAt s w a = 0 := by
  simp [weightAt, AList.lookup_eq_none.mpr h]

/-- Where the default value weighs nothing, the weight at a key is that of what the entry API
yields there. -/
theorem weightAt_eq_getD [Inhabited V] (s : AList fun _ : α => V) (a : α) {w : V → Nat}
    (h : w default = 0) : weightAt s w a = w ((s.lookup a).getD default) := by
  cases hl : s.lookup a with
  | none => simp [weightAt, hl, h]
  | some v => simp [weightAt, hl]

/-- Erasing a key takes the weight of its value out of the sum. -/
theorem tally_erase (s : AList fun _ : α => V) (a : α) (w : V → Nat) :
    tally (s.erase a) w + weightAt s w a = tally s w := by
  by_cases ha : a ∈ s
  · -- the entries split around the one at `a`, which the erase drops
    obtain ⟨v, l₁, l₂, hnot, hs, hker⟩ := List.exists_of_kerase ha
    have hlookup : s.lookup a = some v := by
      rw [AList.lookup, hs, List.dlookup_append, List.dlookup_eq_none.mpr hnot,
        List.dlookup_cons_eq]
      rfl
    rw [weightAt_of_lookup hlookup, tally, tally, entries_erase, hker, hs]
    simp only [List.map_append, List.map_cons, List.sum_append, List.sum_cons]
    omega
  · rw [weightAt_of_notMem ha, tally, tally, entries_erase, List.kerase_of_notMem_keys ha,
      Nat.add_zero]

theorem tally_erase_of_lookup {s : AList fun _ : α => V} {a : α} {v : V} (h : s.lookup a = some v)
    (w : V → Nat) : tally (s.erase a) w + w v = tally s w := by
  have := tally_erase s a w
  rwa [weightAt_of_lookup h] at this

/-- Inserting a value at a key puts the new value's weight where the old one's was. -/
theorem tally_insert (s : AList fun _ : α => V) (a : α) (v : V) (w : V → Nat) :
    tally (s.insert a v) w + weightAt s w a = tally s w + w v := by
  have herase := tally_erase s a w
  have hinsert : tally (s.insert a v) w = w v + tally (s.erase a) w := by
    simp only [tally, AList.entries_insert, List.map_cons, List.sum_cons, entries_erase]
  omega

theorem length_insert_of_notMem {s : AList fun _ : α => V} {a : α} (h : a ∉ s) (v : V) :
    (s.insert a v).entries.length = s.entries.length + 1 := by
  rw [AList.entries_insert, List.length_cons, List.kerase_of_notMem_keys h]

theorem length_erase_of_lookup {s : AList fun _ : α => V} {a : α} {v : V}
    (h : s.lookup a = some v) : (s.erase a).entries.length + 1 = s.entries.length := by
  have := tally_erase_of_lookup h fun _ => 1
  simpa [tally] using this

/-- The sum bounds the weight of each value. -/
theorem weightAt_le_tally (s : AList fun _ : α => V) (a : α) (w : V → Nat) :
    weightAt s w a ≤ tally s w := by
  have := tally_erase s a w
  omega

end Lighthouse.Tally
