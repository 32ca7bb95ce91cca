import Mathlib.Data.Finset.Basic
import Mathlib.Data.List.Sort

/-! `LRUTimeCache` (`lru_cache/src/time.rs`): a set of keys each of which lapses `ttl` after its
last insertion. The keys are kept twice, in a set and in a list ordered by insertion time, and
expiry is lazy: before each call `update` pops the expired elements from the front of the list.
The `FnvHashSet` is a `Finset`, the `VecDeque` a list with its front first, and an `Instant` a
`Nat`; each call is given the readings of `Instant::now` it makes, from a clock that never goes
back, and the sum `inserted + ttl` does not overflow.

Lazy expiry is right because the list stays sorted: every expired element is then in front of
every live one (`mem_update`), so the set after `update` holds exactly the keys inserted last
less than `ttl` ago (`Inv`). -/
namespace Lighthouse.LruCache

/-- `Element`. -/
structure Element (κ : Type) where
  key : κ
  inserted : Nat
deriving DecidableEq, Repr

/-- `LRUTimeCache`. -/
structure LRUTimeCache (κ : Type) where
  map : Finset κ
  list : List (Element κ)
  ttl : Nat

namespace LRUTimeCache
variable {κ : Type} [DecidableEq κ]

/-- `LRUTimeCache::new`. -/
def new (ttl : Nat) : LRUTimeCache κ := ⟨∅, [], ttl⟩

/-- The loop of `update`: pop the front element while it is expired at `now`, removing its key
from the set, and put back the first live one. -/
def expire (ttl now : Nat) : Finset κ → List (Element κ) → Finset κ × List (Element κ)
  | map, [] => (map, [])
  | map, element :: rest =>
    if element.inserted + ttl > now then (map, element :: rest)
    else expire ttl now (map.erase element.key) rest

/-- `update`, which reads the clock at `now` when the list is not empty. -/
def update (c : LRUTimeCache κ) (now : Nat) : LRUTimeCache κ :=
  if c.list.isEmpty then c
  else
    let r := expire c.ttl now c.map c.list
    { c with map := r.1, list := r.2 }

/-- `insert`, whose `update` reads the clock at `updateNow` and which stamps the element with
the later reading `now`. -/
def insert (c : LRUTimeCache κ) (key : κ) (updateNow now : Nat) :
    Except String (Bool × LRUTimeCache κ) :=
  let c := c.update updateNow
  let isNew := decide (key ∉ c.map)
  let map := Insert.insert key c.map
  if isNew then pure (true, { c with map, list := c.list ++ [⟨key, now⟩] })
  else
    match c.list.findIdx? (fun e => decide (e.key = key)) with
    | none => throw "Key is not new"
    | some position =>
      match c.list[position]? with
      | none => throw "Position is not occupied"
      | some element =>
        pure (false, { c with map, list := c.list.eraseIdx position ++ [{ element with inserted := now }] })

/-- `contains`, whose `update` reads the clock at `now`. -/
def contains (c : LRUTimeCache κ) (key : κ) (now : Nat) : Bool × LRUTimeCache κ :=
  let c := c.update now
  (decide (key ∈ c.map), c)

/-- What `check_invariant` asserts: the list is sorted by insertion time, and it holds the keys
of the set, each once. -/
structure Wf (c : LRUTimeCache κ) : Prop where
  sorted : c.list.Pairwise fun a b => a.inserted ≤ b.inserted
  nodup : (c.list.map Element.key).Nodup
  keys : (c.list.map Element.key).toFinset = c.map

end LRUTimeCache

/-- The time of the last insertion of `key` in a history of insertions, oldest first. -/
def lastInsertTime {κ : Type} [DecidableEq κ] (hist : List (κ × Nat)) (key : κ) : Option Nat :=
  ((hist.filter fun p => decide (p.1 = key)).map Prod.snd).getLast?

namespace LRUTimeCache
variable {κ : Type} [DecidableEq κ]

/-- The caches a run of calls from `new ttl` reaches, with the history of its insertions and the
last reading of the clock: each reading is at least the one before. -/
inductive Reaches (ttl : Nat) : List (κ × Nat) → LRUTimeCache κ → Nat → Prop
  | new : Reaches ttl [] (new ttl) 0
  | insert {hist : List (κ × Nat)} {c c' : LRUTimeCache κ} {now : Nat} {b : Bool} (key : κ)
      (updateNow insertNow : Nat) :
      Reaches ttl hist c now → now ≤ updateNow → updateNow ≤ insertNow →
      c.insert key updateNow insertNow = .ok (b, c') →
      Reaches ttl (hist ++ [(key, insertNow)]) c' insertNow
  | contains {hist : List (κ × Nat)} {c : LRUTimeCache κ} {now : Nat} (key : κ) (containsNow : Nat) :
      Reaches ttl hist c now → now ≤ containsNow →
      Reaches ttl hist (c.contains key containsNow).2 containsNow

section History

theorem lastInsertTime_append_self (hist : List (κ × Nat)) (key : κ) (t : Nat) :
    lastInsertTime (hist ++ [(key, t)]) key = some t := by
  simp [lastInsertTime, List.filter_append, List.getLast?_append]

theorem lastInsertTime_append_of_ne (hist : List (κ × Nat)) {key key' : κ} (t : Nat)
    (h : key' ≠ key) : lastInsertTime (hist ++ [(key, t)]) key' = lastInsertTime hist key' := by
  simp [lastInsertTime, List.filter_append, Ne.symm h]

theorem mem_of_lastInsertTime {hist : List (κ × Nat)} {key : κ} {t : Nat}
    (h : lastInsertTime hist key = some t) : (key, t) ∈ hist := by
  obtain ⟨p, hp, rfl⟩ := List.mem_map.mp (List.mem_of_getLast? h)
  obtain ⟨hmem, hkey⟩ := List.mem_filter.mp hp
  rw [decide_eq_true_eq] at hkey
  rw [← hkey]
  exact hmem

theorem exists_lastInsertTime {hist : List (κ × Nat)} {key : κ} {t : Nat} (ht : (key, t) ∈ hist) :
    ∃ t₀, lastInsertTime hist key = some t₀ := by
  have hmem : t ∈ (hist.filter fun p => decide (p.1 = key)).map Prod.snd :=
    List.mem_map.mpr ⟨(key, t), List.mem_filter.mpr ⟨ht, by simp⟩, rfl⟩
  cases hl : lastInsertTime hist key with
  | none =>
    rw [lastInsertTime, List.getLast?_eq_none_iff] at hl
    rw [hl] at hmem
    cases hmem
  | some t₀ => exact ⟨t₀, rfl⟩

/-- In a history ordered by time, the last insertion of a key is its latest. -/
theorem le_of_lastInsertTime {hist : List (κ × Nat)} {key : κ} {t₀ : Nat}
    (hs : hist.Pairwise fun p q => p.2 ≤ q.2) (h : lastInsertTime hist key = some t₀) {t : Nat}
    (ht : (key, t) ∈ hist) : t ≤ t₀ := by
  obtain ⟨ys, hys⟩ := List.getLast?_eq_some_iff.mp h
  have hsorted : ((hist.filter fun p => decide (p.1 = key)).map Prod.snd).Pairwise (· ≤ ·) :=
    List.pairwise_map.mpr (hs.filter _)
  have hmem : t ∈ (hist.filter fun p => decide (p.1 = key)).map Prod.snd :=
    List.mem_map.mpr ⟨(key, t), List.mem_filter.mpr ⟨ht, by simp⟩, rfl⟩
  rw [hys] at hsorted hmem
  rcases List.mem_append.mp hmem with hy | hlast
  · exact (List.pairwise_append.mp hsorted).2.2 t hy t₀ (List.mem_singleton_self t₀)
  · rw [List.mem_singleton.mp hlast]

end History

section Expiry

theorem expire_sublist (ttl now : Nat) :
    ∀ (map : Finset κ) (list : List (Element κ)), (expire ttl now map list).2.Sublist list
  | _, [] => List.Sublist.refl _
  | map, element :: rest => by
    rw [expire]
    split
    · exact List.Sublist.refl _
    · exact (expire_sublist ttl now (map.erase element.key) rest).cons element

/-- On a sorted list, the loop keeps exactly the live elements: the expired ones are in front. -/
theorem mem_expire {ttl now : Nat} :
    ∀ (map : Finset κ) (list : List (Element κ)), (list.Pairwise fun a b => a.inserted ≤ b.inserted) →
      ∀ e, e ∈ (expire ttl now map list).2 ↔ e ∈ list ∧ now < e.inserted + ttl
  | _, [], _, e => by simp [expire]
  | map, element :: rest, hs, e => by
    have hle : ∀ e' ∈ rest, element.inserted ≤ e'.inserted := fun _ h =>
      List.rel_of_pairwise_cons hs h
    rw [expire]
    split
    · -- The front element is live, and every later one was inserted after it.
      refine ⟨fun he => ⟨he, ?_⟩, fun he => he.1⟩
      rcases List.mem_cons.mp he with rfl | hr
      · omega
      · have := hle _ hr
        omega
    · rw [mem_expire (map.erase element.key) rest hs.of_cons e, List.mem_cons]
      constructor
      · exact fun ⟨hr, hlive⟩ => ⟨.inr hr, hlive⟩
      · rintro ⟨rfl | hr, hlive⟩
        · omega
        · exact ⟨hr, hlive⟩

/-- The loop removes from the set the keys of the elements it pops, so the set stays the keys of
the list. -/
theorem expire_fst {ttl now : Nat} :
    ∀ (map : Finset κ) (list : List (Element κ)), (list.map Element.key).Nodup →
      map = (list.map Element.key).toFinset →
      (expire ttl now map list).1 = ((expire ttl now map list).2.map Element.key).toFinset
  | _, [], _, hmap => by simpa [expire] using hmap
  | map, element :: rest, hnd, hmap => by
    rw [expire]
    split
    · exact hmap
    · have hnot : element.key ∉ (rest.map Element.key).toFinset := by
        rw [List.mem_toFinset]
        exact (List.nodup_cons.mp hnd).1
      refine expire_fst (map.erase element.key) rest (List.nodup_cons.mp hnd).2 ?_
      rw [hmap, List.map_cons, List.toFinset_cons, Finset.erase_insert hnot]

@[simp] theorem ttl_update (c : LRUTimeCache κ) (now : Nat) : (c.update now).ttl = c.ttl := by
  unfold update
  split <;> rfl

theorem update_sublist (c : LRUTimeCache κ) (now : Nat) : (c.update now).list.Sublist c.list := by
  unfold update
  split
  · exact List.Sublist.refl _
  · exact expire_sublist _ _ _ _

theorem mem_update {c : LRUTimeCache κ} (hc : c.Wf) (now : Nat) (e : Element κ) :
    e ∈ (c.update now).list ↔ e ∈ c.list ∧ now < e.inserted + c.ttl := by
  unfold update
  split
  · rename_i hnil
    rw [List.isEmpty_iff.mp hnil]
    simp
  · exact mem_expire _ _ hc.sorted e

theorem Wf.update {c : LRUTimeCache κ} (hc : c.Wf) (now : Nat) : (c.update now).Wf := by
  have hsub := update_sublist c now
  refine ⟨hc.sorted.sublist hsub, hc.nodup.sublist (hsub.map _), ?_⟩
  unfold LRUTimeCache.update
  split
  · exact hc.keys
  · exact (expire_fst _ _ hc.nodup hc.keys.symm).symm

theorem mem_update_map {c : LRUTimeCache κ} (hc : c.Wf) (now : Nat) (key : κ) :
    key ∈ (c.update now).map ↔ ∃ e ∈ c.list, e.key = key ∧ now < e.inserted + c.ttl := by
  rw [← (hc.update now).keys, List.mem_toFinset, List.mem_map]
  constructor
  · rintro ⟨e, he, rfl⟩
    exact ⟨e, ((mem_update hc now e).mp he).1, rfl, ((mem_update hc now e).mp he).2⟩
  · rintro ⟨e, he, rfl, hlive⟩
    exact ⟨e, (mem_update hc now e).mpr ⟨he, hlive⟩, rfl⟩

end Expiry

section Insertion

/-- Removing the first element with a key from a list whose keys are distinct removes every
element with that key. -/
theorem eraseP_key_eq_filter (key : κ) :
    ∀ l : List (Element κ), (l.map Element.key).Nodup →
      l.eraseP (fun e => decide (e.key = key)) = l.filter fun e => decide (e.key ≠ key)
  | [], _ => rfl
  | e :: rest, hnd => by
    have hfresh := (List.nodup_cons.mp hnd).1
    rw [List.eraseP_cons, List.filter_cons]
    by_cases he : e.key = key
    · -- The rest holds no other element with the key.
      rw [decide_eq_true he, cond_true, if_neg (by simp [he])]
      refine (List.filter_eq_self.mpr fun e' he' => ?_).symm
      have : e'.key ≠ key := fun h => hfresh (he ▸ h ▸ List.mem_map_of_mem he')
      simpa using this
    · rw [decide_eq_false he, cond_false, if_pos (by simpa using he),
        eraseP_key_eq_filter key rest (List.nodup_cons.mp hnd).2]

/-- What `insert` does, on a well-formed cache: after `update`, the key's element, if any, is
moved to the back with the new time; the answer is whether the key was absent. -/
theorem insert_eq {c : LRUTimeCache κ} (hc : c.Wf) (key : κ) (updateNow now : Nat) :
    c.insert key updateNow now = .ok (decide (key ∉ (c.update updateNow).map),
      { c.update updateNow with
        map := Insert.insert key (c.update updateNow).map
        list := (c.update updateNow).list.filter (fun e => decide (e.key ≠ key)) ++ [⟨key, now⟩] }) := by
  have hw := hc.update updateNow
  unfold insert
  dsimp only
  by_cases hk : key ∈ (c.update updateNow).map
  · rw [if_neg (by simpa using hk)]
    -- The key has an element: `position` finds it, and removing it is the filter.
    have hmem : key ∈ (c.update updateNow).list.map Element.key := by
      rw [← List.mem_toFinset, hw.keys]
      exact hk
    cases hpos : (c.update updateNow).list.findIdx? (fun e => decide (e.key = key)) with
    | none =>
      obtain ⟨e, he, rfl⟩ := List.mem_map.mp hmem
      exact absurd (List.findIdx?_eq_none_iff.mp hpos e he) (by simp)
    | some position =>
      obtain ⟨hlt, hkey, -⟩ := List.findIdx?_eq_some_iff_getElem.mp hpos
      dsimp only
      rw [List.getElem?_eq_getElem hlt]
      have herase := eraseP_key_eq_filter key _ hw.nodup
      rw [List.eraseP_eq_eraseIdx, hpos] at herase
      dsimp only at herase
      rw [decide_eq_true_eq] at hkey
      simp only [herase, hkey, hk, not_true_eq_false, decide_false]
      rfl
  · rw [if_pos (by simpa using hk), List.filter_eq_self.mpr]
    · simp only [hk, not_false_eq_true, decide_true]
      rfl
    -- A new key has no element to remove.
    intro e he
    have : e.key ≠ key := fun h => hk (by rw [← hw.keys, List.mem_toFinset, ← h]; exact List.mem_map_of_mem he)
    simpa using this

/-- Moving a key to the back of the list, with a time no earlier than any in it, keeps the cache
well formed. -/
theorem Wf.moveBack {c : LRUTimeCache κ} (hc : c.Wf) (key : κ) {now : Nat}
    (hle : ∀ e ∈ c.list, e.inserted ≤ now) :
    ({ c with
        map := Insert.insert key c.map
        list := c.list.filter (fun e => decide (e.key ≠ key)) ++ [⟨key, now⟩] } :
      LRUTimeCache κ).Wf where
  sorted := List.pairwise_append.mpr ⟨hc.sorted.filter _, List.pairwise_singleton _ _,
    fun a ha b hb => by
      rw [List.mem_singleton.mp hb]
      exact hle a (List.mem_of_mem_filter ha)⟩
  nodup := by
    rw [List.map_append, List.nodup_append]
    refine ⟨hc.nodup.sublist (List.filter_sublist.map _), List.nodup_singleton _, ?_⟩
    intro a ha b hb
    obtain ⟨e, he, rfl⟩ := List.mem_map.mp ha
    rw [List.map_cons, List.map_nil, List.mem_singleton] at hb
    rw [hb]
    simpa using (List.mem_filter.mp he).2
  keys := by
    show _ = Insert.insert key c.map
    rw [← hc.keys]
    ext x
    simp only [List.mem_toFinset, Finset.mem_insert, List.map_append, List.mem_append,
      List.mem_map, List.mem_filter, List.mem_singleton, ne_eq, decide_eq_true_eq]
    constructor
    · rintro (⟨a, ⟨ha, -⟩, rfl⟩ | ⟨a, rfl, rfl⟩)
      · exact .inr ⟨a, ha, rfl⟩
      · exact .inl rfl
    · rintro (rfl | ⟨a, ha, rfl⟩)
      · exact .inr ⟨_, rfl, rfl⟩
      · by_cases hk : a.key = key
        · exact .inr ⟨_, rfl, hk.symm⟩
        · exact .inl ⟨a, ⟨ha, hk⟩, rfl⟩

end Insertion

section Runs

/-- The invariant of a run: the cache is well formed, and against the history of insertions
every element of the list carries the time of its key's last insertion, while every key outside
the set has lapsed by `now`, the last reading of the clock. -/
structure Inv (ttl : Nat) (hist : List (κ × Nat)) (c : LRUTimeCache κ) (now : Nat) : Prop where
  wf : c.Wf
  ttl_eq : c.ttl = ttl
  inserted_le : ∀ e ∈ c.list, e.inserted ≤ now
  last : ∀ e ∈ c.list, lastInsertTime hist e.key = some e.inserted
  lapsed : ∀ key, key ∉ c.map → ∀ t, (key, t) ∈ hist → t + ttl ≤ now
  hist_le : ∀ p ∈ hist, p.2 ≤ now
  hist_sorted : hist.Pairwise fun p q => p.2 ≤ q.2

variable {ttl : Nat} {hist : List (κ × Nat)} {c : LRUTimeCache κ} {now : Nat}

theorem Inv.new (ttl : Nat) : Inv ttl [] (new ttl : LRUTimeCache κ) 0 :=
  ⟨⟨List.Pairwise.nil, List.nodup_nil, rfl⟩, rfl, by simp [LRUTimeCache.new],
    by simp [LRUTimeCache.new], by simp, by simp, List.Pairwise.nil⟩

/-- A key is in the set after `update` exactly when its last insertion is still live. -/
theorem Inv.mem_update_map (h : Inv ttl hist c now) {now' : Nat} (hnow : now ≤ now') (key : κ) :
    key ∈ (c.update now').map ↔ ∃ t, lastInsertTime hist key = some t ∧ now' < t + ttl := by
  rw [LRUTimeCache.mem_update_map h.wf, h.ttl_eq]
  constructor
  · rintro ⟨e, he, rfl, hlive⟩
    exact ⟨e.inserted, h.last e he, hlive⟩
  · rintro ⟨t, hlast, hlive⟩
    by_contra hnot
    -- Outside the set, the key's insertions had lapsed at the last reading already.
    have hout : key ∉ c.map := by
      intro hin
      rw [← h.wf.keys, List.mem_toFinset, List.mem_map] at hin
      obtain ⟨e, he, rfl⟩ := hin
      rw [h.last e he] at hlast
      cases hlast
      exact hnot ⟨e, he, rfl, hlive⟩
    have := h.lapsed key hout t (mem_of_lastInsertTime hlast)
    omega

/-- A key is missing after `update` exactly when all its insertions have lapsed. -/
theorem Inv.not_mem_update_map (h : Inv ttl hist c now) {now' : Nat} (hnow : now ≤ now')
    (key : κ) : key ∉ (c.update now').map ↔ ∀ t, (key, t) ∈ hist → t + ttl ≤ now' := by
  rw [h.mem_update_map hnow key]
  constructor
  · -- The last insertion is the latest, and it is not live.
    intro hnot t ht
    obtain ⟨t₀, hlast⟩ := exists_lastInsertTime ht
    have := le_of_lastInsertTime h.hist_sorted hlast ht
    have := not_lt.mp fun hlive => hnot ⟨t₀, hlast, hlive⟩
    omega
  · rintro hall ⟨t, hlast, hlive⟩
    have := hall t (mem_of_lastInsertTime hlast)
    omega

/-- `update` at a later reading keeps the invariant. -/
theorem Inv.update (h : Inv ttl hist c now) {now' : Nat} (hnow : now ≤ now') :
    Inv ttl hist (c.update now') now' where
  wf := h.wf.update now'
  ttl_eq := by rw [ttl_update, h.ttl_eq]
  inserted_le e he := Nat.le_trans (h.inserted_le e ((mem_update h.wf now' e).mp he).1) hnow
  last e he := h.last e ((mem_update h.wf now' e).mp he).1
  lapsed key hkey := (h.not_mem_update_map hnow key).mp hkey
  hist_le p hp := Nat.le_trans (h.hist_le p hp) hnow
  hist_sorted := h.hist_sorted

/-- `insert` never panics on a reached cache, answers whether the key was absent after `update`,
and keeps the invariant with the insertion added to the history. -/
theorem Inv.insert (h : Inv ttl hist c now) (key : κ) {updateNow insertNow : Nat}
    (h₁ : now ≤ updateNow) (h₂ : updateNow ≤ insertNow) :
    ∃ c', c.insert key updateNow insertNow = .ok (decide (key ∉ (c.update updateNow).map), c') ∧
      Inv ttl (hist ++ [(key, insertNow)]) c' insertNow := by
  have hu := h.update h₁
  refine ⟨_, insert_eq h.wf key updateNow insertNow, ?_⟩
  have hle : ∀ e ∈ (c.update updateNow).list, e.inserted ≤ insertNow := fun e he =>
    Nat.le_trans (hu.inserted_le e he) h₂
  refine ⟨hu.wf.moveBack key hle, hu.ttl_eq, ?_, ?_, ?_, ?_, ?_⟩
  · intro e he
    rcases List.mem_append.mp he with he | he
    · exact hle e (List.mem_of_mem_filter he)
    · rw [List.mem_singleton.mp he]
  · -- The moved key's last insertion is the new one; the others' are unchanged.
    intro e he
    rcases List.mem_append.mp he with he | he
    · have hne : e.key ≠ key := by simpa using (List.mem_filter.mp he).2
      rw [lastInsertTime_append_of_ne _ _ hne]
      exact hu.last e (List.mem_of_mem_filter he)
    · rw [List.mem_singleton.mp he]
      exact lastInsertTime_append_self _ _ _
  · intro key' hkey' t ht
    have hne : key' ≠ key := fun heq => hkey' (heq ▸ Finset.mem_insert_self _ _)
    have hold : (key', t) ∈ hist := by
      rcases List.mem_append.mp ht with ht | ht
      · exact ht
      · exact absurd (congrArg Prod.fst (List.mem_singleton.mp ht)) hne
    have := hu.lapsed key' (fun hin => hkey' (Finset.mem_insert_of_mem hin)) t hold
    omega
  · intro p hp
    rcases List.mem_append.mp hp with hp | hp
    · exact Nat.le_trans (hu.hist_le p hp) h₂
    · rw [List.mem_singleton.mp hp]
  · exact List.pairwise_append.mpr ⟨h.hist_sorted, List.pairwise_singleton _ _,
      fun p hp q hq => by
        rw [List.mem_singleton.mp hq]
        exact Nat.le_trans (hu.hist_le p hp) h₂⟩

theorem Inv.contains (h : Inv ttl hist c now) (key : κ) {containsNow : Nat}
    (hnow : now ≤ containsNow) : Inv ttl hist (c.contains key containsNow).2 containsNow :=
  h.update hnow

theorem Reaches.inv {ttl : Nat} {hist : List (κ × Nat)} {c : LRUTimeCache κ} {now : Nat}
    (h : Reaches ttl hist c now) : Inv ttl hist c now := by
  induction h with
  | new => exact Inv.new ttl
  | insert key updateNow insertNow _ h₁ h₂ hins ih =>
    obtain ⟨c', hc', hinv⟩ := ih.insert key h₁ h₂
    rw [hins] at hc'
    cases hc'
    exact hinv
  | contains key containsNow _ hnow ih => exact ih.contains key hnow

/-- Over every run from `new ttl` with a clock that never goes back, the cache stays well
formed; `insert` never panics and answers `true` exactly when every insertion of the key has
lapsed at the reading of its `update`; `contains` answers `true` exactly when the key's last
insertion is still live. -/
theorem lruTimeCache_lapses {ttl : Nat} {hist : List (κ × Nat)} {c : LRUTimeCache κ} {now : Nat}
    (h : Reaches ttl hist c now) :
    c.Wf ∧
      (∀ key updateNow insertNow, now ≤ updateNow → updateNow ≤ insertNow →
        ∃ b c', c.insert key updateNow insertNow = .ok (b, c') ∧
          (b = true ↔ ∀ t, (key, t) ∈ hist → t + ttl ≤ updateNow)) ∧
      (∀ key containsNow, now ≤ containsNow →
        ((c.contains key containsNow).1 = true ↔
          ∃ t, lastInsertTime hist key = some t ∧ containsNow < t + ttl)) := by
  have hinv := h.inv
  refine ⟨hinv.wf, ?_, ?_⟩
  · intro key updateNow insertNow h₁ h₂
    obtain ⟨c', hc', -⟩ := hinv.insert key h₁ h₂
    refine ⟨_, c', hc', ?_⟩
    rw [decide_eq_true_iff]
    exact hinv.not_mem_update_map h₁ key
  · intro key containsNow hnow
    show decide (key ∈ (c.update containsNow).map) = true ↔ _
    rw [decide_eq_true_iff]
    exact hinv.mem_update_map hnow key

theorem lruTimeCache_lapses_new :
    Reaches 10 ([] : List (Nat × Nat)) (new 10) 0 ∧ (new 10 : LRUTimeCache Nat).Wf ∧
      (∀ key updateNow insertNow, 0 ≤ updateNow → updateNow ≤ insertNow →
        ∃ b c', (new 10 : LRUTimeCache Nat).insert key updateNow insertNow = .ok (b, c') ∧
          (b = true ↔ ∀ t, (key, t) ∈ ([] : List (Nat × Nat)) → t + 10 ≤ updateNow)) ∧
      (∀ key containsNow, 0 ≤ containsNow →
        (((new 10 : LRUTimeCache Nat).contains key containsNow).1 = true ↔
          ∃ t, lastInsertTime ([] : List (Nat × Nat)) key = some t ∧ containsNow < t + 10)) :=
  ⟨.new, lruTimeCache_lapses .new⟩

end Runs

end LRUTimeCache

end Lighthouse.LruCache
