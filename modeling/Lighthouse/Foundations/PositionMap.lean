import Mathlib.Data.List.AList

/-! A map from the elements of a list to their positions, kept beside the list: the lookup
table of an append-only array of distinct keys. `Indexes m keys` says the map holds exactly
the pairs `(keys[i], i)`; appending a fresh key and dropping a prefix (erasing its keys and
shifting the other positions down) keep it. -/
namespace Lighthouse.PositionMap
variable {κ : Type*} [DecidableEq κ]

/-- A finite map from keys to positions. -/
abbrev Map (κ : Type*) := AList (fun _ : κ => Nat)

/-- `m` maps each element of `keys` to its position, and nothing else. -/
def Indexes (m : Map κ) (keys : List κ) : Prop :=
  ∀ k i, m.lookup k = some i ↔ keys[i]? = some k

/-- Apply `f` to every position of the map. -/
def mapPositions (f : Nat → Nat) (m : Map κ) : Map κ :=
  ⟨m.entries.map fun e => ⟨e.1, f e.2⟩, by
    have h := m.nodupKeys
    simp only [List.NodupKeys, List.keys, List.map_map] at h ⊢
    exact h⟩

omit [DecidableEq κ] in
theorem mapPositions_keys (f : Nat → Nat) (m : Map κ) : (mapPositions f m).keys = m.keys := by
  simp [mapPositions, AList.keys, List.keys, Function.comp_def]

private theorem dlookup_map_snd (f : Nat → Nat) (k : κ) :
    ∀ l : List ((_ : κ) × Nat),
      (l.map fun e => (⟨e.1, f e.2⟩ : (_ : κ) × Nat)).dlookup k = (l.dlookup k).map f
  | [] => rfl
  | ⟨a, b⟩ :: l => by
    by_cases h : a = k
    · subst h
      simp
    · rw [List.map_cons, List.dlookup_cons_ne _ _ (Ne.symm h), List.dlookup_cons_ne _ _ (Ne.symm h)]
      exact dlookup_map_snd f k l

theorem lookup_mapPositions (f : Nat → Nat) (m : Map κ) (k : κ) :
    (mapPositions f m).lookup k = (m.lookup k).map f :=
  dlookup_map_snd f k m.entries

section Indexes
variable {m : Map κ} {keys : List κ}

theorem Indexes.nodup (h : Indexes m keys) : keys.Nodup := by
  refine List.nodup_iff_getElem?_ne_getElem?.mpr fun i j hij hj heq => ?_
  obtain ⟨k, hk⟩ : ∃ k, keys[j]? = some k := ⟨keys[j], List.getElem?_eq_getElem hj⟩
  have hi := (h k i).mpr (heq ▸ hk)
  have hj' := (h k j).mpr hk
  rw [hi] at hj'
  exact absurd (Option.some.inj hj') (Nat.ne_of_lt hij)

theorem Indexes.mem_iff (h : Indexes m keys) (k : κ) : k ∈ m ↔ k ∈ keys := by
  rw [← AList.lookup_isSome, List.mem_iff_getElem?]
  constructor
  · intro hs
    obtain ⟨i, hi⟩ := Option.isSome_iff_exists.mp hs
    exact ⟨i, (h k i).mp hi⟩
  · rintro ⟨i, hi⟩
    exact Option.isSome_iff_exists.mpr ⟨i, (h k i).mpr hi⟩

/-- The map has one entry per key (`HashMap::len` is the number of keys). -/
theorem Indexes.length (h : Indexes m keys) : m.entries.length = keys.length := by
  have hperm : m.keys.Perm keys :=
    (List.perm_ext_iff_of_nodup m.keys_nodup h.nodup).mpr fun k => by
      rw [← AList.mem_keys]
      exact h.mem_iff k
  simpa [AList.keys, List.keys] using hperm.length_eq

theorem Indexes.lt_length (h : Indexes m keys) {k : κ} {i : Nat} (hk : m.lookup k = some i) :
    i < keys.length := by
  obtain ⟨hi, -⟩ := List.getElem?_eq_some_iff.mp ((h k i).mp hk)
  exact hi

theorem Indexes.empty : Indexes (∅ : Map κ) [] := by
  intro k i
  simp

/-- Appending a fresh key records it at the end. -/
theorem Indexes.push (h : Indexes m keys) {k : κ} (hk : k ∉ keys) :
    Indexes (m.insert k keys.length) (keys ++ [k]) := by
  intro k' i
  by_cases hkk : k' = k
  · subst hkk
    rw [AList.lookup_insert]
    constructor
    · rintro ⟨⟩
      simp
    · intro hi
      by_cases hlt : i < keys.length
      · rw [List.getElem?_append_left hlt] at hi
        exact absurd (List.mem_of_getElem? hi) hk
      · rw [List.getElem?_append_right (by omega)] at hi
        simp only [List.getElem?_singleton, Option.ite_none_right_eq_some] at hi
        exact congrArg some (by omega)
  · rw [AList.lookup_insert_ne hkk, h k' i]
    constructor
    · intro hi
      rw [List.getElem?_append_left (List.getElem?_eq_some_iff.mp hi).1, hi]
    · intro hi
      by_cases hlt : i < keys.length
      · rwa [List.getElem?_append_left hlt] at hi
      · rw [List.getElem?_append_right (by omega)] at hi
        simp only [List.getElem?_singleton, Option.ite_none_right_eq_some,
          Option.some.injEq] at hi
        exact absurd hi.2.symm hkk

/-- Erasing the first `j` keys one after the other. -/
def erasePrefix (keys : List κ) (m : Map κ) : Map κ :=
  keys.foldl (fun m k => m.erase k) m

theorem lookup_erasePrefix (ks : List κ) (m : Map κ) (k : κ) :
    (erasePrefix ks m).lookup k = if k ∈ ks then none else m.lookup k := by
  induction ks generalizing m with
  | nil => simp [erasePrefix]
  | cons k' ks ih =>
    simp only [erasePrefix, List.foldl_cons] at ih ⊢
    rw [ih]
    by_cases hk : k = k'
    · subst hk
      simp [AList.lookup_erase]
    · by_cases hks : k ∈ ks
      · simp [hks]
      · simp [hks, hk, AList.lookup_erase_ne hk]

omit [DecidableEq κ] in
/-- The keys at the first `n` positions, read one position after the other. -/
theorem filterMap_getElem?_range (keys : List κ) :
    ∀ n, (List.range n).filterMap (fun i => keys[i]?) = keys.take n
  | 0 => by simp
  | n + 1 => by
    rw [List.range_succ, List.filterMap_append, filterMap_getElem?_range keys n,
      List.take_add_one]
    simp only [List.filterMap_cons, List.filterMap_nil]
    cases keys[n]? <;> rfl

omit [DecidableEq κ] in
/-- The search from the back finds the last position that satisfies `p`. -/
theorem find?_reverse_eq_some {l : List κ} {p : κ → Bool} {x : κ}
    (h : l.reverse.find? p = some x) :
    ∃ i : Nat, l[i]? = some x ∧ p x ∧ ∀ (j : Nat) y, i < j → l[j]? = some y → p y = false := by
  obtain ⟨hpx, i, hi, hix, hbefore⟩ := List.find?_eq_some_iff_getElem.mp h
  rw [List.length_reverse] at hi
  refine ⟨l.length - 1 - i, ?_, hpx, fun j y hj hy => ?_⟩
  · rw [List.getElem_reverse] at hix
    rw [List.getElem?_eq_getElem (by omega), hix]
  · obtain ⟨hjl, rfl⟩ := List.getElem?_eq_some_iff.mp hy
    have := hbefore (l.length - 1 - j) (by omega)
    rw [List.getElem_reverse] at this
    have e : l.length - 1 - (l.length - 1 - j) = j := by omega
    simp only [e] at this
    simpa using this

/-- Once the first `j` keys are erased, every position left is at least `j`. -/
theorem Indexes.le_of_lookup_erasePrefix (h : Indexes m keys) {j : Nat} {k : κ} {i : Nat}
    (hk : (erasePrefix (keys.take j) m).lookup k = some i) : j ≤ i := by
  rw [lookup_erasePrefix] at hk
  split at hk
  · cases hk
  · rename_i hnot
    by_contra hlt
    apply hnot
    rw [List.mem_iff_getElem?]
    exact ⟨i, by rw [List.getElem?_take, if_pos (by omega)]; exact (h k i).mp hk⟩

/-- Dropping the first `j` keys: their entries are erased and every other position is
shifted down by `j`. -/
theorem Indexes.drop (h : Indexes m keys) (j : Nat) :
    Indexes (mapPositions (· - j) (erasePrefix (keys.take j) m)) (keys.drop j) := by
  intro k i
  rw [lookup_mapPositions, List.getElem?_drop, Option.map_eq_some_iff]
  constructor
  · rintro ⟨p, hp, rfl⟩
    rw [Nat.add_sub_cancel' (h.le_of_lookup_erasePrefix hp)]
    rw [lookup_erasePrefix] at hp
    split at hp
    · cases hp
    · exact (h k p).mp hp
  · intro hi
    refine ⟨j + i, ?_, by omega⟩
    rw [lookup_erasePrefix, if_neg, (h k _).mpr hi]
    -- A key among the first `j` sits at a position below `j`, and keys are distinct.
    intro hk
    obtain ⟨q, hq, hqk⟩ := List.getElem_of_mem hk
    rw [List.getElem_take] at hqk
    obtain ⟨hp, hpk⟩ := List.getElem?_eq_some_iff.mp hi
    have := (List.Nodup.getElem_inj_iff h.nodup).mp (hqk.trans hpk.symm)
    simp only [List.length_take] at hq
    omega

end Indexes

end Lighthouse.PositionMap
