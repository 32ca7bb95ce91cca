import Mathlib.Data.List.AList
import Mathlib.Logic.Function.Basic

/-! A store of items, each filed under a group and a key, kept beside two indexes: the map from
keys back to items and the list of the items of each group. `Consistent store keyed index` says
the three agree: a key names the item stored under it, and a group lists each of its items once.
Filing a new item under a fresh key and taking an item out keep them in agreement.

`Ledger` adds the items already taken out and handed on, each at most once, and the counter
that numbers new items. The lemmas on `swapRemove` say what the removal of a vector's element by
swapping in the last one leaves, and the lemmas on lookups say how an `AList` insert or erase
updates the lookup function. -/
namespace Lighthouse.GroupIndex
variable {ι γ κ : Type*}

/-- The store, the map from keys back to items and the lists of each group agree. -/
structure Consistent (store : ι → Option (γ × κ)) (keyed : κ → Option ι) (index : γ → List ι) :
    Prop where
  keyed_iff : ∀ k i, keyed k = some i ↔ (store i).map Prod.snd = some k
  mem_index_iff : ∀ g i, i ∈ index g ↔ (store i).map Prod.fst = some g
  nodup : ∀ g, (index g).Nodup

namespace Consistent
variable {store : ι → Option (γ × κ)} {keyed : κ → Option ι} {index : γ → List ι}

theorem keyed_of_store (h : Consistent store keyed index) {i : ι} {g : γ} {k : κ}
    (hs : store i = some (g, k)) : keyed k = some i :=
  (h.keyed_iff k i).mpr (by simp [hs])

theorem mem_index_of_store (h : Consistent store keyed index) {i : ι} {g : γ} {k : κ}
    (hs : store i = some (g, k)) : i ∈ index g :=
  (h.mem_index_iff g i).mpr (by simp [hs])

theorem store_of_mem_index (h : Consistent store keyed index) {i : ι} {g : γ}
    (hi : i ∈ index g) : ∃ k, store i = some (g, k) := by
  obtain ⟨⟨g', k⟩, hs, rfl⟩ := Option.map_eq_some_iff.mp ((h.mem_index_iff g i).mp hi)
  exact ⟨k, hs⟩

theorem store_of_keyed (h : Consistent store keyed index) {i : ι} {k : κ}
    (hk : keyed k = some i) : ∃ g, store i = some (g, k) := by
  obtain ⟨⟨g, k'⟩, hs, rfl⟩ := Option.map_eq_some_iff.mp ((h.keyed_iff k i).mp hk)
  exact ⟨g, hs⟩

theorem notMem_index (h : Consistent store keyed index) {i : ι} (hi : store i = none) (g : γ) :
    i ∉ index g := by
  intro hmem
  obtain ⟨k, hs⟩ := h.store_of_mem_index hmem
  simp [hi] at hs

/-- A group's list taken aside: the index is the one where that list is put back. -/
theorem detach [DecidableEq γ] (h : Consistent store keyed index) (g : γ) :
    Consistent store keyed (Function.update (Function.update index g []) g (index g)) := by
  rwa [Function.update_idem, Function.update_eq_self]

variable [DecidableEq ι] [DecidableEq γ] [DecidableEq κ]

/-- Filing a new item under a fresh key, at the end of its group's list. -/
theorem add (h : Consistent store keyed index) {i : ι} {g : γ} {k : κ} (hi : store i = none)
    (hk : keyed k = none) :
    Consistent (Function.update store i (some (g, k))) (Function.update keyed k (some i))
      (Function.update index g (index g ++ [i])) where
  keyed_iff k' j := by
    by_cases hkk : k' = k
    · subst hkk
      by_cases hj : j = i
      · subst hj; simp
      · -- no stored item names the fresh key
        have hnot : (store j).map Prod.snd ≠ some k' := fun hs => by
          simp [(h.keyed_iff k' j).mpr hs] at hk
        simp [Function.update_of_ne hj, hnot, Ne.symm hj]
    · by_cases hj : j = i
      · subst hj
        simp [Function.update_of_ne hkk, h.keyed_iff, hi, Ne.symm hkk]
      · simp [Function.update_of_ne hkk, Function.update_of_ne hj, h.keyed_iff]
  mem_index_iff g' j := by
    by_cases hgg : g' = g
    · subst hgg
      by_cases hj : j = i
      · subst hj; simp
      · simp [h.mem_index_iff, hj]
    · by_cases hj : j = i
      · subst hj
        simp [Function.update_of_ne hgg, h.notMem_index hi, Ne.symm hgg]
      · simp [Function.update_of_ne hgg, Function.update_of_ne hj, h.mem_index_iff]
  nodup g' := by
    by_cases hgg : g' = g
    · subst hgg
      rw [Function.update_self]
      exact (h.nodup g').append (List.nodup_singleton i)
        (List.disjoint_singleton.mpr (h.notMem_index hi g'))
    · simpa [Function.update_of_ne hgg] using h.nodup g'

/-- Taking an item out of the store, its key out of the key map, and its group's list down to
a list of the group's other items. -/
theorem remove (h : Consistent store keyed index) {i : ι} {g : γ} {k : κ}
    (hs : store i = some (g, k)) {l : List ι} (hl : ∀ j, j ∈ l ↔ j ∈ index g ∧ j ≠ i)
    (hnd : l.Nodup) :
    Consistent (Function.update store i none) (Function.update keyed k none)
      (Function.update index g l) where
  keyed_iff k' j := by
    by_cases hkk : k' = k
    · subst hkk
      by_cases hj : j = i
      · subst hj; simp
      · -- the key was the removed item's, so no other item stores it
        have hnot : (store j).map Prod.snd ≠ some k' := fun hsj => by
          have := (h.keyed_iff k' j).mpr hsj
          rw [h.keyed_of_store hs] at this
          exact hj (Option.some.inj this).symm
        simp [Function.update_of_ne hj, hnot]
    · by_cases hj : j = i
      · subst hj
        simp [Function.update_of_ne hkk, h.keyed_iff, hs, Ne.symm hkk]
      · simp [Function.update_of_ne hkk, Function.update_of_ne hj, h.keyed_iff]
  mem_index_iff g' j := by
    by_cases hgg : g' = g
    · subst hgg
      by_cases hj : j = i
      · subst hj; simp [hl]
      · simp [hl, h.mem_index_iff, hj]
    · by_cases hj : j = i
      · subst hj
        have hnot : j ∉ index g' := fun hmem => by
          obtain ⟨k', hs'⟩ := h.store_of_mem_index hmem
          rw [hs] at hs'
          exact hgg (Prod.mk.inj (Option.some.inj hs')).1.symm
        simp [Function.update_of_ne hgg, hnot]
      · simp [Function.update_of_ne hgg, Function.update_of_ne hj, h.mem_index_iff]
  nodup g' := by
    by_cases hgg : g' = g
    · subst hgg; simpa using hnd
    · simpa [Function.update_of_ne hgg] using h.nodup g'

end Consistent

variable [DecidableEq ι]

/-- The items numbered below `next`: those still stored and those taken out and handed on, each
handed on once and no longer stored. -/
structure Ledger {β : Type*} (number : ι → ℕ) (next : ℕ) (store : ι → Option β) (sent : List ι) :
    Prop where
  lt_of_stored : ∀ i, (store i).isSome → number i < next
  lt_of_sent : ∀ i ∈ sent, number i < next
  sent_nodup : sent.Nodup
  notStored_of_sent : ∀ i ∈ sent, store i = none

namespace Ledger
variable {β : Type*} {number : ι → ℕ} {next : ℕ} {store : ι → Option β} {sent : List ι}

/-- A new item, numbered by the counter, which then moves on. -/
theorem issue (h : Ledger number next store sent) {i : ι} (hi : number i = next) (v : β) :
    Ledger number (next + 1) (Function.update store i (some v)) sent where
  lt_of_stored j hj := by
    by_cases hji : j = i
    · subst hji
      omega
    · rw [Function.update_of_ne hji] at hj
      have := h.lt_of_stored j hj
      omega
  lt_of_sent j hj := Nat.lt_succ_of_lt (h.lt_of_sent j hj)
  sent_nodup := h.sent_nodup
  notStored_of_sent j hj := by
    -- what was handed on is numbered below the counter, the new item at it
    have hji : j ≠ i := fun hji => by
      have := h.lt_of_sent j hj
      subst hji
      omega
    rw [Function.update_of_ne hji]
    exact h.notStored_of_sent j hj

/-- A stored item taken out and handed on. -/
theorem retire (h : Ledger number next store sent) {i : ι} (hi : (store i).isSome) :
    Ledger number next (Function.update store i none) (sent ++ [i]) where
  lt_of_stored j hj := by
    by_cases hji : j = i
    · subst hji; simp at hj
    · rw [Function.update_of_ne hji] at hj
      exact h.lt_of_stored j hj
  lt_of_sent j hj := by
    rcases List.mem_append.mp hj with hj | hj
    · exact h.lt_of_sent j hj
    · rw [List.mem_singleton.mp hj]
      exact h.lt_of_stored i hi
  sent_nodup := by
    have hnot : i ∉ sent := fun hmem => by simp [h.notStored_of_sent i hmem] at hi
    exact h.sent_nodup.append (List.nodup_singleton i) (List.disjoint_singleton.mpr hnot)
  notStored_of_sent j hj := by
    by_cases hji : j = i
    · subst hji; simp
    · rw [Function.update_of_ne hji]
      rcases List.mem_append.mp hj with hj | hj
      · exact h.notStored_of_sent j hj
      · exact absurd (List.mem_singleton.mp hj) hji

end Ledger

/-! `Vec::swap_remove`: the element at `index` is replaced by the last one, which is popped. -/

section SwapRemove
variable {α : Type*}

/-- `Vec::swap_remove` at an index in range. -/
def swapRemove (l : List α) (index : ℕ) : List α :=
  match l.getLast? with
  | some last => (l.set index last).dropLast
  | none => l

theorem swapRemove_perm {l : List α} {index : ℕ} (h : index < l.length) :
    (swapRemove l index).Perm (l.eraseIdx index) := by
  obtain ⟨init, last, rfl⟩ : ∃ init last, l = init ++ [last] := by
    rcases List.eq_nil_or_concat l with hl | ⟨init, last, hl⟩
    · simp [hl] at h
    · exact ⟨init, last, by simpa using hl⟩
  simp only [swapRemove, List.getLast?_concat]
  rcases Nat.lt_or_ge index init.length with hi | hi
  · -- the last element moves into the gap
    rw [List.set_append_left _ _ hi, List.dropLast_concat, List.eraseIdx_append_of_lt_length hi,
      List.set_eq_take_append_cons_drop, if_pos hi, List.eraseIdx_eq_take_drop_succ]
    exact List.perm_middle.trans (List.perm_append_singleton _ _).symm
  · -- the index is the last one's
    have hi : index = init.length := by simp at h; omega
    subst hi
    simp [List.eraseIdx_append_of_length_le]

variable [DecidableEq α]

/-- Removing the element that a search for `a` found: the list without `a`, up to order. -/
theorem swapRemove_idxOf_perm {l : List α} {a : α} {index : ℕ} (h : l.idxOf? a = some index) :
    (swapRemove l index).Perm (l.erase a) := by
  obtain ⟨hlt, -, -⟩ := List.idxOf?_eq_some_iff.mp h
  rw [List.erase_eq_eraseIdx, h]
  exact swapRemove_perm hlt

theorem mem_swapRemove_iff {l : List α} {a : α} {index : ℕ} (hl : l.Nodup)
    (h : l.idxOf? a = some index) (b : α) : b ∈ swapRemove l index ↔ b ∈ l ∧ b ≠ a := by
  rw [(swapRemove_idxOf_perm h).mem_iff, hl.mem_erase_iff, and_comm]

theorem nodup_swapRemove {l : List α} {a : α} {index : ℕ} (hl : l.Nodup)
    (h : l.idxOf? a = some index) : (swapRemove l index).Nodup :=
  (swapRemove_idxOf_perm h).nodup_iff.mpr (hl.erase a)

theorem length_swapRemove {l : List α} {a : α} {index : ℕ} (h : l.idxOf? a = some index) :
    (swapRemove l index).length + 1 = l.length := by
  have hmem : a ∈ l := by
    obtain ⟨hlt, heq, -⟩ := List.idxOf?_eq_some_iff.mp h
    exact heq ▸ List.getElem_mem hlt
  have hlen := List.length_erase_of_mem hmem
  have hpos := List.length_pos_of_mem hmem
  rw [(swapRemove_idxOf_perm h).length_eq]
  omega

end SwapRemove

/-! Lookups in an `AList` after an insert or an erase, as updates of the lookup function. -/

section Lookup
variable {α V : Type*} [DecidableEq α]

theorem lookup_insert_eq_update (s : AList fun _ : α => V) (a : α) (v : V) :
    (fun b => (s.insert a v).lookup b) = Function.update (fun b => s.lookup b) a (some v) := by
  funext b
  by_cases hb : b = a
  · subst hb; simp
  · simp [AList.lookup_insert_ne hb, Function.update_of_ne hb]

theorem lookup_erase_eq_update (s : AList fun _ : α => V) (a : α) :
    (fun b => (s.erase a).lookup b) = Function.update (fun b => s.lookup b) a none := by
  funext b
  by_cases hb : b = a
  · subst hb; simp
  · simp [AList.lookup_erase_ne hb, Function.update_of_ne hb]

end Lookup

end Lighthouse.GroupIndex
