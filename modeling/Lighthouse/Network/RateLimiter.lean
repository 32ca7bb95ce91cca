import Lighthouse.Foundations.CacheRefinement
import Lighthouse.Foundations.Checked
import Lighthouse.Foundations.EState
import Lighthouse.Foundations.Gcra

/-! The RPC rate limiter (`rpc/rate_limiter.rs`): a GCRA limiter per protocol, keyed by peer,
built from the quotas of `RPC::new`. Times are nanoseconds since the limiter was created and
are inputs here; the map from peers to theoretical arrival times is a function.

`Limiter::allows` computes `t * tokens` and `tat + additional_time` in `u64` arithmetic, which
wraps in a release build, and `tokens` is the peer's own `count` for `BlocksByRange`. Where no
operation wraps, the limiter is the GCRA on each key (`Gcra`): a key forgotten by `prune` had a
theoretical arrival time already past, so forgetting it changes no decision, and the tokens it
accepts from a key in any window `[a, b]` cost at most `tau + (b - a)`. Where `t * tokens`
wraps, a request past the quota passes the `TooLarge` guard. -/
namespace Lighthouse.RateLimiter
open Checked EState

/-- `Quota`: `max_tokens` tokens every `replenish_all_every`, a `Duration` in nanoseconds. -/
structure Quota where
  replenishAllEvery : ℕ
  maxTokens : ℕ
deriving DecidableEq, Repr

/-- `RateLimitedErr`; the wait of `TooSoon` is a `Duration` in nanoseconds. -/
inductive RateLimitedErr where
  | tooLarge
  | tooSoon (wait : ℕ)
deriving DecidableEq, Repr

/-- `Limiter`: the burst tolerance `tau`, the time `t` one token takes to replenish, and the
theoretical arrival time of each key in `tat_per_key`. -/
structure Limiter (κ : Type) where
  tau : ℕ
  t : ℕ
  tatPerKey : κ → Option ℕ

namespace Limiter
variable {κ : Type} [DecidableEq κ]

/-- `Limiter::from_quota`. `as_nanos` is a `u128`, and `t` and `tau` must fit in a `u64`. -/
def fromQuota (quota : Quota) : Except String (Limiter κ) :=
  if quota.maxTokens = 0 then .error "Max number of tokens should be positive"
  else if quota.replenishAllEvery = 0 then .error "Replenish time must be positive"
  else do
    let t ← okOr (tryIntoU64 (quota.replenishAllEvery / quota.maxTokens))
      "total replenish time is too long"
    let tau ← okOr (tryIntoU64 quota.replenishAllEvery) "total replenish time is too long"
    pure ⟨tau, t, fun _ => none⟩

/-- The entry of `key` set to `tat`. -/
def setTat (self : Limiter κ) (key : κ) (tat : ℕ) : Limiter κ :=
  { self with tatPerKey := Function.update self.tatPerKey key (some tat) }

/-- `Limiter::allows`. The entry of a new key is inserted, at the request's time, before the
`TooSoon` check. -/
def allows (timeSinceStart : ℕ) (key : κ) (tokens : ℕ) :
    EStateM RateLimitedErr (Limiter κ) Unit := do
  let self ← get
  let timeSinceStart := asU64 timeSinceStart
  let additionalTime := wrappingMulU64 self.t tokens
  if additionalTime > self.tau then throw .tooLarge
  else
    let tat := (self.tatPerKey key).getD timeSinceStart
    set (self.setTat key tat)
    -- `saturating_sub` on `u64` is `ℕ` subtraction.
    let earliestTime := wrappingAddU64 tat additionalTime - self.tau
    if timeSinceStart < earliestTime then throw (.tooSoon (earliestTime - timeSinceStart))
    else set (self.setTat key (wrappingAddU64 (max timeSinceStart tat) additionalTime))

/-- `Limiter::prune`: the keys whose theoretical arrival time is before `time_limit` go. -/
def prune (self : Limiter κ) (timeLimit : ℕ) : Limiter κ :=
  let lim := asU64 timeLimit
  { self with tatPerKey := fun key => (self.tatPerKey key).filter fun tat => lim ≤ tat }

end Limiter

/-- A request to a limiter: `allows(time, key, tokens)`. -/
structure Request (κ : Type) where
  time : ℕ
  key : κ
  tokens : ℕ
deriving DecidableEq, Repr

/-- A call on a limiter: a request, or `prune(time)`. -/
inductive Call (κ : Type) where
  | allows (request : Request κ)
  | prune (time : ℕ)
deriving DecidableEq, Repr

namespace Limiter

@[simp] theorem prune_tau {κ : Type} (l : Limiter κ) (time : ℕ) : (l.prune time).tau = l.tau := rfl

@[simp] theorem prune_t {κ : Type} (l : Limiter κ) (time : ℕ) : (l.prune time).t = l.t := rfl

variable {κ : Type} [DecidableEq κ]

@[simp] theorem setTat_tau (l : Limiter κ) (key : κ) (tat : ℕ) : (l.setTat key tat).tau = l.tau :=
  rfl

@[simp] theorem setTat_t (l : Limiter κ) (key : κ) (tat : ℕ) : (l.setTat key tat).t = l.t := rfl

theorem setTat_tatPerKey (l : Limiter κ) (key key' : κ) (tat : ℕ) :
    (l.setTat key tat).tatPerKey key' = if key' = key then some tat else l.tatPerKey key' := by
  simp only [setTat, Function.update_apply]

/-- Setting an entry to the value it has changes nothing. -/
theorem setTat_of_eq {l : Limiter κ} {key : κ} {tat : ℕ} (h : l.tatPerKey key = some tat) :
    l.setTat key tat = l := by
  unfold setTat
  rw [← h, Function.update_eq_self]

theorem fromQuota_eq_ok {quota : Quota} {l : Limiter κ} :
    fromQuota quota = .ok l ↔
      0 < quota.maxTokens ∧ 0 < quota.replenishAllEvery ∧ quota.replenishAllEvery < 2 ^ 64 ∧
        l = ⟨quota.replenishAllEvery, quota.replenishAllEvery / quota.maxTokens, fun _ => none⟩ := by
  unfold fromQuota
  have hdiv := Nat.div_le_self quota.replenishAllEvery quota.maxTokens
  split_ifs with h₁ h₂
  · simp only [false_iff]
    omega
  · simp only [false_iff]
    omega
  · simp only [tryIntoU64, CacheRefinement.bind_eq_ok, okOr_eq_ok]
    constructor
    · rintro ⟨t, ht, tau, htau, hl⟩
      split_ifs at ht htau with h₃ h₄
      cases ht
      cases htau
      cases hl
      exact ⟨by omega, by omega, h₄, rfl⟩
    · rintro ⟨-, -, h₄, rfl⟩
      exact ⟨_, if_pos (by omega), _, if_pos h₄, rfl⟩

/-- `allows`, evaluated. -/
theorem allows_run (l : Limiter κ) (time : ℕ) (key : κ) (tokens : ℕ) :
    (allows time key tokens).run l =
      let x := asU64 time
      let additionalTime := wrappingMulU64 l.t tokens
      let tat := (l.tatPerKey key).getD x
      let earliestTime := wrappingAddU64 tat additionalTime - l.tau
      if additionalTime > l.tau then .error .tooLarge l
      else if x < earliestTime then .error (.tooSoon (earliestTime - x)) (l.setTat key tat)
      else .ok () (l.setTat key (wrappingAddU64 (max x tat) additionalTime)) := by
  simp only [allows, run_get_bind]
  split_ifs <;> rfl

theorem allows_eq_ok {l l' : Limiter κ} {time : ℕ} {key : κ} {tokens : ℕ} {u : Unit} :
    (allows time key tokens).run l = .ok u l' ↔
      wrappingMulU64 l.t tokens ≤ l.tau ∧
      wrappingAddU64 ((l.tatPerKey key).getD (asU64 time)) (wrappingMulU64 l.t tokens) - l.tau ≤
        asU64 time ∧
      l' = l.setTat key (wrappingAddU64 (max (asU64 time) ((l.tatPerKey key).getD (asU64 time)))
        (wrappingMulU64 l.t tokens)) := by
  rw [allows_run]
  dsimp only
  split_ifs with h₁ h₂
  · simp only [false_iff]
    omega
  · simp only [false_iff]
    omega
  · simp only [EStateM.Result.ok.injEq, true_and]
    constructor
    · rintro rfl
      exact ⟨by omega, by omega, rfl⟩
    · rintro ⟨-, -, rfl⟩
      rfl

/-- A new key's first request is never too soon: its cost is at most `tau`. -/
theorem earliestTime_le_of_fresh {x c tau : ℕ} (hc : c ≤ tau) : wrappingAddU64 x c - tau ≤ x := by
  unfold wrappingAddU64
  have := Nat.mod_le (x + c) (2 ^ 64)
  omega

/-- A rejected request leaves the limiter as it was: the entry inserted before `TooSoon` is
only ever inserted for a key that had one. -/
theorem allows_error {l l' : Limiter κ} {time : ℕ} {key : κ} {tokens : ℕ} {e : RateLimitedErr}
    (h : (allows time key tokens).run l = .error e l') : l' = l := by
  rw [allows_run] at h
  dsimp only at h
  split_ifs at h with h₁ h₂
  · cases h
    rfl
  · cases h
    cases hkey : l.tatPerKey key with
    | none =>
      rw [hkey, Option.getD_none] at h₂
      exact absurd (earliestTime_le_of_fresh (Nat.le_of_not_lt h₁)) (Nat.not_le.mpr h₂)
    | some tat => exact setTat_of_eq hkey

/-- Whatever `allows` returns, it touches the entry of its own key only. -/
theorem allows_final (l : Limiter κ) (time : ℕ) (key : κ) (tokens : ℕ) :
    final ((allows time key tokens).run l) = l ∨
      ∃ tat, final ((allows time key tokens).run l) = l.setTat key tat := by
  cases h : (allows time key tokens).run l with
  | ok u l' =>
    obtain ⟨-, -, rfl⟩ := allows_eq_ok.mp h
    exact .inr ⟨_, rfl⟩
  | error e l' =>
    rw [allows_error h]
    exact .inl rfl

theorem allows_final_params (l : Limiter κ) (time : ℕ) (key : κ) (tokens : ℕ) :
    (final ((allows time key tokens).run l)).tau = l.tau ∧
      (final ((allows time key tokens).run l)).t = l.t := by
  rcases allows_final l time key tokens with hl | ⟨tat, hl⟩
  · rw [hl]
    exact ⟨rfl, rfl⟩
  · rw [hl]
    exact ⟨rfl, rfl⟩

/-- The requests a run of calls accepts, in order. -/
def acceptedRequests : Limiter κ → List (Call κ) → List (Request κ)
  | _, [] => []
  | self, .allows r :: calls =>
    match (allows r.time r.key r.tokens).run self with
    | .ok _ self' => r :: acceptedRequests self' calls
    | .error _ self' => acceptedRequests self' calls
  | self, .prune time :: calls => acceptedRequests (self.prune time) calls

theorem acceptedRequests_allows (l : Limiter κ) (r : Request κ) (calls : List (Call κ)) :
    acceptedRequests l (.allows r :: calls) =
      (if failed ((allows r.time r.key r.tokens).run l) then [] else [r]) ++
        acceptedRequests (final ((allows r.time r.key r.tokens).run l)) calls := by
  simp only [acceptedRequests]
  cases (allows r.time r.key r.tokens).run l <;> rfl

end Limiter

/-! ## The limiter as a GCRA on each key

A request of a key is an arrival of the GCRA for that key, costing `t` per token. The limiter's
entry for the key follows the theoretical arrival time of a GCRA that never forgets the key
(`Limiter.Tracks`), as long as the requests of the key wrap no `u64` and the calls come in order
of time. -/

variable {κ : Type} [DecidableEq κ]

/-- A request of `key` as an arrival of the GCRA: its time, and its cost at `t` per token. -/
def Request.arrival (t : ℕ) (key : κ) (r : Request κ) : Option (ℕ × ℕ) :=
  if r.key = key then some (r.time, t * r.tokens) else none

/-- The time of a call. -/
def Call.time : Call κ → ℕ
  | .allows r => r.time
  | .prune time => time

/-- The arrival a call makes for `key`. -/
def Call.arrival (t : ℕ) (key : κ) : Call κ → Option (ℕ × ℕ)
  | .allows r => r.arrival t key
  | .prune _ => none

/-- The tokens of the requests of `key` at times in `[a, b]`. -/
def windowTokens (key : κ) (a b : ℕ) (requests : List (Request κ)) : ℕ :=
  ((requests.filter fun r => r.key = key ∧ a ≤ r.time ∧ r.time ≤ b).map Request.tokens).sum

/-- The requests of `key` in a run wrap no `u64`: their times stay `2 * tau` below `2^64`, and
their cost `t * tokens` fits. -/
def NoWrap (tau t : ℕ) (key : κ) (calls : List (Call κ)) : Prop :=
  ∀ r, Call.allows r ∈ calls → r.key = key → r.time + 2 * tau < 2 ^ 64 ∧ t * r.tokens < 2 ^ 64

theorem windowCost_filterMap_arrival (t : ℕ) (key : κ) (a b : ℕ) (requests : List (Request κ)) :
    Gcra.windowCost a b (requests.filterMap (Request.arrival t key)) =
      t * windowTokens key a b requests := by
  induction requests with
  | nil => simp [windowTokens]
  | cons r requests ih =>
    unfold windowTokens at ih ⊢
    by_cases hk : r.key = key
    · have harr : r.arrival t key = some (r.time, t * r.tokens) := if_pos hk
      rw [List.filterMap_cons_some harr, Gcra.windowCost_cons, ih]
      by_cases hw : a ≤ r.time ∧ r.time ≤ b
      · simp [hk, hw, Nat.mul_add]
      · simp [hk, hw]
    · have harr : r.arrival t key = none := if_neg hk
      rw [List.filterMap_cons_none harr, ih]
      simp [hk]

namespace Limiter

/-- The entry of `key` against the theoretical arrival time `g` of a GCRA that never forgets:
the same, or gone with `g` already past at `now`, the time of the last call. -/
structure Tracks (l : Limiter κ) (key : κ) (now g : ℕ) : Prop where
  entry : l.tatPerKey key = some g ∨ l.tatPerKey key = none ∧ g ≤ now
  le : g ≤ now + l.tau

theorem Tracks.mono {l : Limiter κ} {key : κ} {now now' g : ℕ} (h : Tracks l key now g)
    (hle : now ≤ now') : Tracks l key now' g := by
  obtain ⟨hentry, hg⟩ := h
  refine ⟨?_, by omega⟩
  rcases hentry with hentry | ⟨hentry, hgn⟩
  · exact .inl hentry
  · exact .inr ⟨hentry, by omega⟩

theorem Tracks.congr {l l' : Limiter κ} {key : κ} {now g : ℕ} (h : Tracks l key now g)
    (hkey : l'.tatPerKey key = l.tatPerKey key) (htau : l'.tau = l.tau) : Tracks l' key now g :=
  ⟨hkey ▸ h.entry, htau ▸ h.le⟩

/-- The entry a request at `x` reads acts as the tracked time, and is at most `tau` past `x`. -/
theorem Tracks.getD {l : Limiter κ} {key : κ} {now g x : ℕ} (h : Tracks l key now g)
    (hx : now ≤ x) :
    (∀ c, Gcra.step l.tau ((l.tatPerKey key).getD x) x c = Gcra.step l.tau g x c) ∧
      (l.tatPerKey key).getD x ≤ x + l.tau := by
  rcases h.entry with hentry | ⟨hentry, hgn⟩
  · rw [hentry, Option.getD_some]
    exact ⟨fun _ => rfl, by have := h.le; omega⟩
  · rw [hentry, Option.getD_none]
    exact ⟨fun c => (Gcra.step_of_le (by omega)).symm, by omega⟩

section Step
variable {l l' : Limiter κ} {key : κ} {now g time tokens : ℕ}

/-- An accepted request of the key is an arrival the GCRA accepts. -/
theorem Tracks.allows_ok (h : Tracks l key now g) (hx : now ≤ time)
    (hwrap : time + 2 * l.tau < 2 ^ 64) (hc : l.t * tokens < 2 ^ 64) {u : Unit}
    (hrun : (allows time key tokens).run l = .ok u l') :
    ∃ g', Gcra.step l.tau g time (l.t * tokens) = some g' ∧ l' = l.setTat key g' := by
  obtain ⟨hadd, hearliest, rfl⟩ := allows_eq_ok.mp hrun
  obtain ⟨hstep, hle⟩ := h.getD hx
  have hx64 : asU64 time = time := asU64_of_lt (by omega)
  have hc64 : wrappingMulU64 l.t tokens = l.t * tokens := wrappingMulU64_of_lt hc
  rw [hc64] at hadd
  rw [hx64, hc64, wrappingAddU64_of_lt (by omega)] at hearliest ⊢
  rw [← hstep]
  exact ⟨_, Gcra.step_eq_some.mpr ⟨hadd, by omega, rfl⟩, rfl⟩

/-- A rejected request of the key is an arrival the GCRA rejects. -/
theorem Tracks.allows_error (h : Tracks l key now g) (hx : now ≤ time)
    (hwrap : time + 2 * l.tau < 2 ^ 64) (hc : l.t * tokens < 2 ^ 64) {e : RateLimitedErr}
    (hrun : (allows time key tokens).run l = .error e l') :
    Gcra.step l.tau g time (l.t * tokens) = none := by
  obtain ⟨hstep, hle⟩ := h.getD hx
  rw [← hstep, Gcra.step_eq_none]
  rw [allows_run] at hrun
  dsimp only at hrun
  rw [asU64_of_lt (by omega), wrappingMulU64_of_lt hc] at hrun
  split_ifs at hrun with h₁ h₂
  · omega
  · rw [wrappingAddU64_of_lt (by omega)] at h₂
    omega

/-- A request of another key leaves the entry of this one. -/
theorem Tracks.allows_ne (h : Tracks l key now g) (hx : now ≤ time) {key' : κ} (hne : key' ≠ key)
    (tokens : ℕ) : Tracks (final ((allows time key' tokens).run l)) key time g := by
  apply (h.mono hx).congr
  · rcases allows_final l time key' tokens with hl | ⟨tat, hl⟩
    · rw [hl]
    · rw [hl, setTat_tatPerKey, if_neg (Ne.symm hne)]
  · rcases allows_final l time key' tokens with hl | ⟨tat, hl⟩
    · rw [hl]
    · rw [hl, setTat_tau]

/-- `prune` forgets the key only when its time is past. -/
theorem Tracks.prune (h : Tracks l key now g) (hx : now ≤ time) :
    Tracks (l.prune time) key time g := by
  refine ⟨?_, by have := h.le; simp only [prune_tau]; omega⟩
  have hlim : asU64 time ≤ time := Nat.mod_le _ _
  simp only [Limiter.prune]
  rcases h.entry with hentry | ⟨hentry, hgn⟩
  · rw [hentry]
    by_cases hg : asU64 time ≤ g
    · exact .inl (by simp [hg])
    · exact .inr ⟨by simpa using Nat.lt_of_not_le hg, by omega⟩
  · rw [hentry]
    exact .inr ⟨rfl, by omega⟩

end Step

theorem Tracks.setTat {l : Limiter κ} {key : κ} {g time tokens g' : ℕ}
    (hstep : Gcra.step l.tau g time (l.t * tokens) = some g') : Tracks (l.setTat key g') key time g' :=
  ⟨.inl (by simp [setTat_tatPerKey]), by simpa using Gcra.step_le hstep⟩

/-- The run lemma: along calls in order of time, the requests of `key` that the limiter accepts
are the arrivals that the GCRA accepts, when none of them wraps. -/
theorem acceptedRequests_arrivals (key : κ) (tau t : ℕ) :
    ∀ (calls : List (Call κ)) (l : Limiter κ) (now g : ℕ), l.tau = tau → l.t = t →
      Tracks l key now g → (∀ c ∈ calls, now ≤ c.time) →
      calls.Pairwise (fun c c' => c.time ≤ c'.time) → NoWrap tau t key calls →
      (acceptedRequests l calls).filterMap (Request.arrival t key) =
        Gcra.accepted tau g (calls.filterMap (Call.arrival t key))
  | [], _, _, _, _, _, _, _, _, _ => rfl
  | .allows r :: calls, l, now, g, htau, ht, htr, hnow, hsorted, hwrap => by
    have hx : now ≤ r.time := hnow _ List.mem_cons_self
    obtain ⟨hrest, hsorted⟩ := List.pairwise_cons.mp hsorted
    have hwrap' : NoWrap tau t key calls := fun r' hr' => hwrap r' (List.mem_cons_of_mem _ hr')
    obtain ⟨htau', ht'⟩ := allows_final_params l r.time r.key r.tokens
    rw [acceptedRequests_allows, List.filterMap_append]
    by_cases hk : r.key = key
    · -- A request of the key: the limiter and the GCRA take the same step.
      obtain ⟨hw, hc⟩ := hwrap r List.mem_cons_self hk
      have harr : r.arrival t key = some (r.time, t * r.tokens) := if_pos hk
      subst hk htau ht
      simp only [List.filterMap_cons, Call.arrival, harr]
      cases hrun : (allows r.time r.key r.tokens).run l with
      | ok u l' =>
        obtain ⟨g', hstep, rfl⟩ := htr.allows_ok hx hw hc hrun
        simp only [failed, final, Bool.false_eq_true, if_false, List.filterMap_cons, harr,
          List.filterMap_nil, List.singleton_append, Gcra.accepted, hstep]
        rw [hrun] at htau' ht'
        exact congrArg _ (acceptedRequests_arrivals r.key _ _ calls _ r.time g' htau' ht'
          (Tracks.setTat hstep) hrest hsorted hwrap')
      | error e l' =>
        have hstep := htr.allows_error hx hw hc hrun
        cases allows_error hrun
        simp only [failed, final, if_true, List.filterMap_nil, List.nil_append, Gcra.accepted,
          hstep]
        exact acceptedRequests_arrivals r.key _ _ calls l r.time g rfl rfl (htr.mono hx) hrest
          hsorted hwrap'
    · -- A request of another key: the entry of this one stays, and the GCRA takes no step.
      have harr : r.arrival t key = none := if_neg hk
      have hnone : ((if failed ((allows r.time r.key r.tokens).run l) then [] else [r]).filterMap
          (Request.arrival t key)) = [] := by
        split <;> simp [harr]
      simp only [hnone, List.nil_append, List.filterMap_cons, Call.arrival, harr]
      exact acceptedRequests_arrivals key tau t calls _ r.time g (htau'.trans htau) (ht'.trans ht)
        (htr.allows_ne hx hk r.tokens) hrest hsorted hwrap'
  | .prune time :: calls, l, now, g, htau, ht, htr, hnow, hsorted, hwrap => by
    have hx : now ≤ time := hnow _ List.mem_cons_self
    obtain ⟨hrest, hsorted⟩ := List.pairwise_cons.mp hsorted
    simp only [acceptedRequests, List.filterMap_cons, Call.arrival]
    exact acceptedRequests_arrivals key tau t calls (l.prune time) time g htau ht (htr.prune hx)
      hrest hsorted (fun r' hr' => hwrap r' (List.mem_cons_of_mem _ hr'))

/-- A limiter built by `from_quota`, on calls in order of time whose requests of `key` wrap
nothing, accepts from `key` only requests that cost at most `tau`, and requests that cost at
most `tau + (b - a)` together at times in any `[a, b]`. -/
theorem fromQuota_enforces_quota {quota : Quota} {l : Limiter κ} (hl : fromQuota quota = .ok l)
    (calls : List (Call κ)) (hsorted : calls.Pairwise (fun c c' => c.time ≤ c'.time)) (key : κ)
    (hwrap : NoWrap l.tau l.t key calls) (a b : ℕ) :
    (∀ r ∈ acceptedRequests l calls, r.key = key → l.t * r.tokens ≤ l.tau) ∧
      l.t * windowTokens key a b (acceptedRequests l calls) ≤ l.tau + (b - a) := by
  obtain ⟨-, -, -, hl⟩ := fromQuota_eq_ok.mp hl
  have htr : Tracks l key 0 0 := ⟨.inr ⟨hl ▸ rfl, le_rfl⟩, Nat.zero_le _⟩
  have harr := acceptedRequests_arrivals key l.tau l.t calls l 0 0 rfl rfl htr
    (fun _ _ => Nat.zero_le _) hsorted hwrap
  constructor
  · intro r hr hk
    have hmem : (r.time, l.t * r.tokens) ∈
        (acceptedRequests l calls).filterMap (Request.arrival l.t key) :=
      List.mem_filterMap.mpr ⟨r, hr, if_pos hk⟩
    rw [harr] at hmem
    exact (Gcra.mem_accepted hmem).2
  · rw [← windowCost_filterMap_arrival, harr]
    exact Gcra.windowCost_accepted_le _ _ _ _ _

end Limiter

/-! ## The RPC limiter -/

/-- `Protocol`. -/
inductive Protocol where
  | status
  | goodbye
  | blocksByRange
  | blocksByRoot
  | ping
  | metaData
deriving DecidableEq, Repr

/-- `InboundRequest`, with the fields `expected_responses` reads. -/
inductive InboundRequest where
  | status
  | goodbye
  | blocksByRange (count : ℕ)
  | blocksByRoot (blockRoots : List ℕ)
  | ping
  | metaData
deriving DecidableEq, Repr

namespace InboundRequest

/-- `InboundRequest::expected_responses`. -/
def expectedResponses : InboundRequest → ℕ
  | .status => 1
  | .goodbye => 0
  | .blocksByRange count => count
  | .blocksByRoot blockRoots => blockRoots.length
  | .ping => 1
  | .metaData => 1

/-- `InboundRequest::protocol`. -/
def protocol : InboundRequest → Protocol
  | .status => .status
  | .goodbye => .goodbye
  | .blocksByRange _ => .blocksByRange
  | .blocksByRoot _ => .blocksByRoot
  | .ping => .ping
  | .metaData => .metaData

end InboundRequest

/-- `RPCRateLimiter`, a limiter for each protocol; its creation time and prune interval are left
to the caller, which passes the time since creation. -/
structure RPCRateLimiter (κ : Type) where
  goodbyeRl : Limiter κ
  pingRl : Limiter κ
  metadataRl : Limiter κ
  statusRl : Limiter κ
  bbrangeRl : Limiter κ
  bbrootsRl : Limiter κ

namespace RPCRateLimiter
variable {κ : Type} [DecidableEq κ]

/-- The limiter `allows` picks for a protocol. -/
def limiter (self : RPCRateLimiter κ) : Protocol → Limiter κ
  | .ping => self.pingRl
  | .status => self.statusRl
  | .metaData => self.metadataRl
  | .goodbye => self.goodbyeRl
  | .blocksByRange => self.bbrangeRl
  | .blocksByRoot => self.bbrootsRl

/-- The limiter of a protocol replaced. -/
def setLimiter (self : RPCRateLimiter κ) : Protocol → Limiter κ → RPCRateLimiter κ
  | .ping, l => { self with pingRl := l }
  | .status, l => { self with statusRl := l }
  | .metaData, l => { self with metadataRl := l }
  | .goodbye, l => { self with goodbyeRl := l }
  | .blocksByRange, l => { self with bbrangeRl := l }
  | .blocksByRoot, l => { self with bbrootsRl := l }

/-- `RPCRateLimiter::allows`: the request's protocol's limiter, charged at least one token. -/
def allows (timeSinceStart : ℕ) (peerId : κ) (request : InboundRequest) :
    EStateM RateLimitedErr (RPCRateLimiter κ) Unit :=
  let tokens := max request.expectedResponses 1
  focus (·.limiter request.protocol) (·.setLimiter request.protocol ·) id
    (Limiter.allows timeSinceStart peerId tokens)

theorem allows_run (rl : RPCRateLimiter κ) (time : ℕ) (peerId : κ) (request : InboundRequest) :
    (allows time peerId request).run rl =
      match (Limiter.allows time peerId (max request.expectedResponses 1)).run
          (rl.limiter request.protocol) with
      | .ok a l => .ok a (rl.setLimiter request.protocol l)
      | .error e l => .error e (rl.setLimiter request.protocol l) := by
  simp only [allows, run_focus]
  cases (Limiter.allows time peerId (max request.expectedResponses 1)).run
    (rl.limiter request.protocol) <;> rfl

/-- `RPCRateLimiter::prune`. -/
def prune (self : RPCRateLimiter κ) (timeSinceStart : ℕ) : RPCRateLimiter κ :=
  { pingRl := self.pingRl.prune timeSinceStart
    statusRl := self.statusRl.prune timeSinceStart
    metadataRl := self.metadataRl.prune timeSinceStart
    goodbyeRl := self.goodbyeRl.prune timeSinceStart
    bbrangeRl := self.bbrangeRl.prune timeSinceStart
    bbrootsRl := self.bbrootsRl.prune timeSinceStart }

end RPCRateLimiter

/-- `RPCRateLimiterBuilder`: a quota for each protocol, once set. -/
structure RPCRateLimiterBuilder where
  goodbyeQuota : Option Quota
  pingQuota : Option Quota
  metadataQuota : Option Quota
  statusQuota : Option Quota
  bbrangeQuota : Option Quota
  bbrootsQuota : Option Quota
deriving DecidableEq, Repr

namespace RPCRateLimiterBuilder

/-- `RPCRateLimiterBuilder::new`. -/
def new : RPCRateLimiterBuilder := ⟨none, none, none, none, none, none⟩

/-- `set_quota`. -/
def setQuota (self : RPCRateLimiterBuilder) (protocol : Protocol) (quota : Quota) :
    RPCRateLimiterBuilder :=
  let q := some quota
  match protocol with
  | .ping => { self with pingQuota := q }
  | .status => { self with statusQuota := q }
  | .metaData => { self with metadataQuota := q }
  | .goodbye => { self with goodbyeQuota := q }
  | .blocksByRange => { self with bbrangeQuota := q }
  | .blocksByRoot => { self with bbrootsQuota := q }

/-- `one_every`. -/
def oneEvery (self : RPCRateLimiterBuilder) (protocol : Protocol) (timePeriod : ℕ) :
    RPCRateLimiterBuilder :=
  self.setQuota protocol ⟨timePeriod, 1⟩

/-- `n_every`. -/
def nEvery (self : RPCRateLimiterBuilder) (protocol : Protocol) (n timePeriod : ℕ) :
    RPCRateLimiterBuilder :=
  self.setQuota protocol ⟨timePeriod, n⟩

/-- `RPCRateLimiterBuilder::build`. -/
def build {κ : Type} (self : RPCRateLimiterBuilder) : Except String (RPCRateLimiter κ) := do
  let pingQuota ← okOr self.pingQuota "Ping quota not specified"
  let metadataQuota ← okOr self.metadataQuota "MetaData quota not specified"
  let statusQuota ← okOr self.statusQuota "Status quota not specified"
  let goodbyeQuota ← okOr self.goodbyeQuota "Goodbye quota not specified"
  let bbrootsQuota ← okOr self.bbrootsQuota "BlocksByRoot quota not specified"
  let bbrangeQuota ← okOr self.bbrangeQuota "BlocksByRange quota not specified"
  let pingRl ← Limiter.fromQuota pingQuota
  let metadataRl ← Limiter.fromQuota metadataQuota
  let statusRl ← Limiter.fromQuota statusQuota
  let goodbyeRl ← Limiter.fromQuota goodbyeQuota
  let bbrootsRl ← Limiter.fromQuota bbrootsQuota
  let bbrangeRl ← Limiter.fromQuota bbrangeQuota
  pure { pingRl, metadataRl, statusRl, goodbyeRl, bbrootsRl, bbrangeRl }

end RPCRateLimiterBuilder

/-- `Duration::from_secs`, in nanoseconds. -/
def fromSecs (secs : ℕ) : ℕ := secs * 1000000000

/-- `MAX_REQUEST_BLOCKS`. -/
def maxRequestBlocks : ℕ := 1024

/-- The limiter `RPC::new` builds. -/
def rpcLimiter {κ : Type} : Except String (RPCRateLimiter κ) :=
  RPCRateLimiterBuilder.new
    |>.nEvery .metaData 2 (fromSecs 5)
    |>.nEvery .ping 2 (fromSecs 10)
    |>.nEvery .status 5 (fromSecs 15)
    |>.oneEvery .goodbye (fromSecs 10)
    |>.nEvery .blocksByRange maxRequestBlocks (fromSecs 10)
    |>.nEvery .blocksByRoot 128 (fromSecs 10)
    |>.build

theorem rpcLimiter_bbrangeRl {κ : Type} [DecidableEq κ] :
    ∃ rl : RPCRateLimiter κ, rpcLimiter = .ok rl ∧ rl.bbrangeRl = ⟨10000000000, 9765625, fun _ => none⟩ :=
  ⟨_, rfl, rfl⟩

/-- `RPC::new`'s limiter accepts, as a peer's first request at time 0, a `BlocksByRange` request
for 5739826786856214345 blocks: `t * count` wraps to 1 ns, within `tau`, though the request is
worth far more than the quota of 1024 blocks every ten seconds. -/
theorem blocksByRange_count_wraps_past_quota {κ : Type} [DecidableEq κ] (peerId : κ) :
    ∃ rl : RPCRateLimiter κ, rpcLimiter = .ok rl ∧
      rl.bbrangeRl.tau < rl.bbrangeRl.t * 5739826786856214345 ∧
      (rl.bbrangeRl.tau + (0 - 0)) / rl.bbrangeRl.t < 5739826786856214345 ∧
      Limiter.acceptedRequests rl.bbrangeRl [.allows ⟨0, peerId, 5739826786856214345⟩] =
        [⟨0, peerId, 5739826786856214345⟩] ∧
      ∃ rl', (RPCRateLimiter.allows 0 peerId (.blocksByRange 5739826786856214345)).run rl =
        .ok () rl' := by
  obtain ⟨rl, hrl, hbb⟩ : ∃ rl : RPCRateLimiter κ, _ := rpcLimiter_bbrangeRl
  -- The product wraps to one nanosecond, and a new peer's request is never too soon.
  have hcost : wrappingMulU64 9765625 5739826786856214345 ≤ 10000000000 := by decide
  have hsoon : wrappingAddU64 ((none : Option ℕ).getD (asU64 0))
      (wrappingMulU64 9765625 5739826786856214345) - 10000000000 ≤ asU64 0 := by decide
  obtain ⟨l', hok⟩ : ∃ l',
      (Limiter.allows 0 peerId 5739826786856214345).run rl.bbrangeRl = .ok () l' := by
    rw [hbb]
    exact ⟨_, Limiter.allows_eq_ok.mpr ⟨hcost, hsoon, rfl⟩⟩
  refine ⟨rl, hrl, ?_, ?_, ?_, ?_⟩
  · rw [hbb]
    show 10000000000 < 9765625 * 5739826786856214345
    decide
  · rw [hbb]
    show (10000000000 + (0 - 0)) / 9765625 < 5739826786856214345
    decide
  · rw [Limiter.acceptedRequests_allows, hok]
    rfl
  · -- Each step rewrites with `hok`: unfolding the run instead makes the kernel evaluate
    -- `t * count` with `t` a projection of `rl`, one successor of `count` at a time.
    have hmax : max (InboundRequest.blocksByRange 5739826786856214345).expectedResponses 1 =
        5739826786856214345 := rfl
    have hlim : rl.limiter (InboundRequest.blocksByRange 5739826786856214345).protocol =
        rl.bbrangeRl := rfl
    rw [RPCRateLimiter.allows_run, hmax, hlim, hok]
    exact ⟨_, rfl⟩

end Lighthouse.RateLimiter
