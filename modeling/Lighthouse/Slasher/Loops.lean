import Lighthouse.Slasher.View

/-! The loops of array.rs over the view of the arrays. Within one row and the window of
`history_length` epochs ending at the current epoch, `MinTargetChunk.update` and `applyLoop`
together are the downward sweep of `Sweep.clipAbove`, and the max array's loops the upward sweep
of `Sweep.clipBelow`, provided the targets of the validator are monotone in the epoch: the early
exit when one target is already past the new one is then right for every target beyond it. The
chunk boundaries are invisible in the view; what the proofs must show is that a chunk's loop
leaves exactly at the boundary of the block the outer loop started it from, where the next start
epoch continues. -/
namespace Lighthouse.Slasher
open Registry Sweep CacheRefinement

section Blocks
variable {config : Config} (hc : config.Valid)
include hc

/-- Leaving the chunk of `p` downwards happens just below the block of `p`. -/
theorem exit_below_block {ci p e : Nat} (hp : config.chunkIndex p = ci) (hep : e ≤ p)
    (hin : ∀ y, e < y → y ≤ p → config.chunkIndex y = ci) (hout : config.chunkIndex e ≠ ci) :
    e + 1 = p / config.chunkSize * config.chunkSize := by
  have hC := hc.chunkSize_pos
  have hq1 : p / config.chunkSize * config.chunkSize ≤ p := Nat.div_mul_le_self p config.chunkSize
  have hq2 : p < p / config.chunkSize * config.chunkSize + config.chunkSize := Nat.lt_div_mul_add hC
  -- `e` is below the block of `p`, every epoch of which has the chunk of `p`.
  have hlt : e < p / config.chunkSize * config.chunkSize := by
    by_contra hge
    apply hout
    rw [← hp]
    apply Config.chunkIndex_eq_of_div_eq hc
    exact Nat.div_eq_of_lt_le (by omega) (by rw [Nat.succ_mul]; omega)
  -- Were it lower still, the block below would have the chunk of `p` too, and then every epoch.
  by_contra hne
  have hq0 : 1 ≤ p / config.chunkSize := by
    by_contra h0
    have : p / config.chunkSize = 0 := Nat.lt_one_iff.mp (Nat.not_le.mp h0)
    rw [this, Nat.zero_mul] at hlt
    omega
  have hdiv₁ : p / config.chunkSize * config.chunkSize / config.chunkSize = p / config.chunkSize :=
    Nat.mul_div_cancel _ hC
  have hdiv₂ : (p / config.chunkSize * config.chunkSize - 1) / config.chunkSize =
      p / config.chunkSize - 1 := by
    have h₁ : (p / config.chunkSize - 1) * config.chunkSize + config.chunkSize =
        p / config.chunkSize * config.chunkSize := by
      rw [← Nat.succ_mul, Nat.succ_eq_add_one, Nat.sub_add_cancel hq0]
    exact Nat.div_eq_of_lt_le (by omega) (by rw [Nat.succ_mul]; omega)
  have hbelow := hin (p / config.chunkSize * config.chunkSize - 1) (by omega) (by omega)
  have hsame : config.chunkIndex (p / config.chunkSize * config.chunkSize) =
      config.chunkIndex (p / config.chunkSize * config.chunkSize - 1) := by
    rw [hbelow, ← hp]
    exact Config.chunkIndex_eq_of_div_eq hc hdiv₁
  apply hout
  rw [Config.chunkIndex_const_of_succ hc (by rw [hdiv₁, hdiv₂]; omega) hsame e p, hp]

/-- Leaving the chunk of `p` upwards happens at the first epoch of the next block. -/
theorem exit_above_block {ci p e : Nat} (hp : config.chunkIndex p = ci) (hpe : p ≤ e)
    (hin : ∀ y, p ≤ y → y < e → config.chunkIndex y = ci) (hout : config.chunkIndex e ≠ ci) :
    e = (p / config.chunkSize + 1) * config.chunkSize := by
  have hC := hc.chunkSize_pos
  have hq1 : p / config.chunkSize * config.chunkSize ≤ p := Nat.div_mul_le_self p config.chunkSize
  have hq2 : p < p / config.chunkSize * config.chunkSize + config.chunkSize := Nat.lt_div_mul_add hC
  rw [Nat.succ_mul]
  -- `e` is past the block of `p`, every epoch of which has the chunk of `p`.
  have hgt : p / config.chunkSize * config.chunkSize + config.chunkSize ≤ e := by
    by_contra hlt
    apply hout
    rw [← hp]
    apply Config.chunkIndex_eq_of_div_eq hc
    exact Nat.div_eq_of_lt_le (by omega) (by rw [Nat.succ_mul]; omega)
  -- Were it higher still, the next block would have the chunk of `p` too, and then every epoch.
  by_contra hne
  have hdiv₁ : (p / config.chunkSize * config.chunkSize + config.chunkSize) / config.chunkSize =
      p / config.chunkSize + 1 := by
    rw [← Nat.succ_mul]
    exact Nat.mul_div_cancel _ hC
  have habove := hin (p / config.chunkSize * config.chunkSize + config.chunkSize) (by omega) (by omega)
  have hsame : config.chunkIndex (p / config.chunkSize * config.chunkSize + config.chunkSize) =
      config.chunkIndex p := by rw [habove, hp]
  apply hout
  rw [Config.chunkIndex_const_of_succ hc hdiv₁ hsame e p, hp]

end Blocks

section Turns
variable {α : Type} {kind : TargetArrayChunk} {db : SlasherDB α} {config : Config}
  (hc : config.Valid) {vci : Nat} {u : ChunkMap} {v t cur : Nat}

/-- The target a loop reads from the chunk it holds for the column of `e` is the view's. -/
theorem getTarget_insert {ci e x : Nat} {c : Chunk} (he : config.chunkIndex e = ci)
    (h : c.getTarget v e config = .ok x) :
    x = targetIn kind db config vci (u.insert ci c) v e := by
  rw [Chunk.getTarget_eq_ok h, targetIn, chunkAt_insert, if_pos he]

include hc

/-- One write of a sweep: the target of `v` at `e` becomes `t`. -/
theorem setTarget_view {c c₁ : Chunk} {e : Nat} (he : e ∈ config.window cur)
    (hset : c.setTarget v e t config = .ok c₁) :
    Set.EqOn (targetIn kind db config vci (u.insert (config.chunkIndex e) c₁) v)
      (Function.update (targetIn kind db config vci (u.insert (config.chunkIndex e) c) v) e t)
      (config.window cur) := by
  obtain ⟨hle, hcell, rfl⟩ := Chunk.setTarget_eq_ok hset
  refine (targetIn_insert_set_window hc hcell he).trans ?_
  rw [Nat.add_sub_cancel' hle]
  exact Set.eqOn_refl _ _

/-- A write of a sweep changes no target of another validator of the row. -/
theorem setTarget_view_ne {c c₁ : Chunk} {e : Nat} (hset : c.setTarget v e t config = .ok c₁)
    {v' : Nat} (hv : config.validatorChunkIndex v = config.validatorChunkIndex v') (hne : v' ≠ v) :
    targetIn kind db config vci (u.insert (config.chunkIndex e) c₁) v' =
      targetIn kind db config vci (u.insert (config.chunkIndex e) c) v' := by
  obtain ⟨-, hcell, rfl⟩ := Chunk.setTarget_eq_ok hset
  funext x
  exact targetIn_insert_set_ne hc hcell hv hne

end Turns

section Outer
variable {α : Type} {kind : TargetArrayChunk} {db : SlasherDB α} {config : Config} {vci : Nat}
  {v t cur : Nat}

/-- One turn of `applyLoop`: the update of the chunk of the start epoch, as the view holds it,
and then the next turn or the end. -/
theorem applyLoop_turn {fuel p : Nat} {u u' : ChunkMap}
    (h : applyLoop kind db config vci v t cur (fuel + 1) u p = .ok u') :
    ∃ u₁ c' keep, chunkAt kind db config vci u₁ = chunkAt kind db config vci u ∧
      (∀ k ∈ u₁, k ∈ u ∨ k = config.chunkIndex p) ∧
      kind.update (chunkAt kind db config vci u (config.chunkIndex p)) (config.chunkIndex p) v p t
        cur config = .ok (c', keep) ∧
      (if keep then applyLoop kind db config vci v t cur fuel
          (u₁.insert (config.chunkIndex p) c') (kind.nextStartEpoch p config)
        else pure (u₁.insert (config.chunkIndex p) c')) = .ok u' := by
  simp only [applyLoop] at h
  rcases getChunkForUpdate_eq u (config.chunkIndex p) with hg | hg <;> rw [hg] at h <;>
    obtain ⟨⟨c', keep⟩, hupd, h⟩ := bind_eq_ok.mp h
  · refine ⟨_, c', keep, chunkAt_insert_self u _, fun k hk => ?_, hupd, h⟩
    rcases (AList.mem_insert u).mp hk with hk | hk
    · exact .inr hk
    · exact .inl hk
  · exact ⟨u, c', keep, rfl, fun k hk => .inl hk, hupd, h⟩

/-- Inserting the same chunk into maps with the same view gives maps with the same view. -/
theorem chunkAt_insert_congr {u₁ u : ChunkMap}
    (h : chunkAt kind db config vci u₁ = chunkAt kind db config vci u) (ci : Nat) (c : Chunk) :
    chunkAt kind db config vci (u₁.insert ci c) = chunkAt kind db config vci (u.insert ci c) := by
  funext ci'
  rw [chunkAt_insert, chunkAt_insert, h]

end Outer

/-- The end of a chunk's downward loop: the sweep is done, down to `lo`, or it continues just
below the block of `p`. -/
def MinLoopEnd (config : Config) (view V : Nat → Nat) (t cur lo p top : Nat) (keep : Bool) :
    Prop :=
  (keep = false ∧ Set.EqOn view (clipAbove V t lo (top + 1)) (config.window cur)) ∨
  (keep = true ∧ lo + 1 ≤ p / config.chunkSize * config.chunkSize ∧
    Set.EqOn view (clipAbove V t (p / config.chunkSize * config.chunkSize) (top + 1))
      (config.window cur))

theorem Config.mem_window_of_le {config : Config} (hc : config.Valid) {cur x : Nat}
    (hlo : cur - (config.historyLength - 1) ≤ x) (hx : x ≤ cur) : x ∈ config.window cur := by
  have := hc.historyLength_pos
  exact ⟨by omega, hx⟩

section MinSweep
variable {α : Type} {db : SlasherDB α} {config : Config} (hc : config.Valid) {vci : Nat}
  {u : ChunkMap} {v t cur : Nat} {V : Nat → Nat}
include hc

/-- The loop's condition fails: it ends, or leaves the chunk just below the block of `p`. -/
theorem minLoop_exit {view : Nat → Nat} {ci p top e lo : Nat} (hp : config.chunkIndex p = ci)
    (hep : e ≤ p) (hlo : lo ≤ e + 1) (hin : ∀ y, e < y → y ≤ p → config.chunkIndex y = ci)
    (hview : Set.EqOn view (clipAbove V t (e + 1) (top + 1)) (config.window cur))
    (hcond : ¬(config.chunkIndex e = ci ∧ lo ≤ e)) :
    MinLoopEnd config view V t cur lo p top (decide (lo ≤ e)) := by
  by_cases hle : lo ≤ e
  · have hblock := exit_below_block hc hp hep hin fun h => hcond ⟨h, hle⟩
    right
    rw [← hblock]
    exact ⟨by simp [hle], by omega, hview⟩
  · left
    obtain rfl : lo = e + 1 := by omega
    exact ⟨by simp, hview⟩

/-- The target at `e` is already at most `t`: so are all below it, and the sweep is done. -/
theorem minLoop_stop (hV : MonotoneOn V (config.window cur)) {view : Nat → Nat} {p top e : Nat}
    (hlo : cur - (config.historyLength - 1) ≤ e) (he : e ≤ cur)
    (hview : Set.EqOn view (clipAbove V t (e + 1) (top + 1)) (config.window cur)) (hle : V e ≤ t) :
    MinLoopEnd config view V t cur (cur - (config.historyLength - 1)) p top false := by
  have hclip : clipAbove V t (e + 1) (top + 1) =
      clipAbove V t (cur - (config.historyLength - 1)) (top + 1) :=
    clipAbove_eq_of_le (by omega) fun x hx₁ hx₂ =>
      (hV (Config.mem_window_of_le hc hx₁ (by omega)) (Config.mem_window_of_le hc hlo he)
        (by omega)).trans hle
  exact .inl ⟨rfl, hclip ▸ hview⟩

/-- The target at `e` is above `t`: it is lowered to `t`. -/
theorem minLoop_write {c c₁ : Chunk} {ci e top : Nat} (hci : config.chunkIndex e = ci)
    (he : e ∈ config.window cur) (hetop : e ≤ top)
    (hview : Set.EqOn (targetIn .minTargetChunk db config vci (u.insert ci c) v)
      (clipAbove V t (e + 1) (top + 1)) (config.window cur))
    (hlt : t < V e) (hset : c.setTarget v e t config = .ok c₁) :
    Set.EqOn (targetIn .minTargetChunk db config vci (u.insert ci c₁) v)
      (clipAbove V t e (top + 1)) (config.window cur) := by
  have hwrite : Set.EqOn
      (targetIn .minTargetChunk db config vci (u.insert (config.chunkIndex e) c₁) v)
      (Function.update (targetIn .minTargetChunk db config vci (u.insert (config.chunkIndex e) c) v)
        e t) (config.window cur) := setTarget_view hc he hset
  rw [hci] at hwrite
  refine hwrite.trans ?_
  rw [← update_clipAbove (by omega) hlt.le]
  exact eqOn_update hview e t

/-- `MinTargetChunk.updateLoop` from `e`, with the targets above `e` up to `top` lowered already. -/
theorem minUpdateLoop_view (hV : MonotoneOn V (config.window cur)) {ci p top : Nat}
    (hp : config.chunkIndex p = ci) (hptop : p ≤ top) (htop : top ≤ cur) :
    ∀ (e : Nat) (c c' : Chunk) (keep : Bool), e ≤ p → cur - (config.historyLength - 1) ≤ e + 1 →
      (∀ y, e < y → y ≤ p → config.chunkIndex y = ci) →
      Set.EqOn (targetIn .minTargetChunk db config vci (u.insert ci c) v)
        (clipAbove V t (e + 1) (top + 1)) (config.window cur) →
      MinTargetChunk.updateLoop config ci v t (cur - (config.historyLength - 1)) c e =
        .ok (c', keep) →
      MinLoopEnd config (targetIn .minTargetChunk db config vci (u.insert ci c') v) V t
        cur (cur - (config.historyLength - 1)) p top keep := by
  intro e
  induction e with
  | zero =>
    intro c c' keep he hlo hin hview h
    rw [MinTargetChunk.updateLoop] at h
    split_ifs at h with hcond
    · obtain ⟨target, htarget, h⟩ := bind_eq_ok.mp h
      have hW := Config.mem_window_of_le hc hcond.2 (by omega)
      have hread : target = V 0 := by
        rw [getTarget_insert hcond.1 htarget, hview hW]
        simp [clipAbove]
      split_ifs at h with hlt
      · obtain ⟨c₁, hset, h⟩ := bind_eq_ok.mp h
        cases h
        left
        have hlo0 : cur - (config.historyLength - 1) = 0 := by omega
        rw [hlo0]
        exact ⟨rfl, minLoop_write hc hcond.1 hW (by omega) hview (hread ▸ hlt) hset⟩
      · cases h
        exact minLoop_stop hc hV hcond.2 (by omega) hview (by omega)
    · cases h
      exact minLoop_exit hc hp he hlo hin hview hcond
  | succ e ih =>
    intro c c' keep he hlo hin hview h
    rw [MinTargetChunk.updateLoop] at h
    split_ifs at h with hcond
    · obtain ⟨target, htarget, h⟩ := bind_eq_ok.mp h
      have hW := Config.mem_window_of_le hc hcond.2 (by omega)
      have hread : target = V (e + 1) := by
        rw [getTarget_insert hcond.1 htarget, hview hW]
        simp [clipAbove]
      split_ifs at h with hlt
      · obtain ⟨c₁, hset, h⟩ := bind_eq_ok.mp h
        -- The turn below, with the target at `e + 1` lowered.
        refine ih c₁ c' keep (by omega) (by omega) (fun y hy₁ hy₂ => ?_) ?_ h
        · rcases Nat.lt_or_ge (e + 1) y with hy | hy
          · exact hin y hy hy₂
          · rw [show y = e + 1 by omega]
            exact hcond.1
        · exact minLoop_write hc hcond.1 hW (by omega) hview (hread ▸ hlt) hset
      · cases h
        exact minLoop_stop hc hV hcond.2 (by omega) hview (by omega)
    · cases h
      exact minLoop_exit hc hp he hlo hin hview hcond

/-- `applyLoop` on the min array: chunk after chunk, the downward sweep from `p`, with the
targets above `p` up to `top` lowered already, down to the window's lower end. -/
theorem minApplyLoop_view (hV : MonotoneOn V (config.window cur)) {top : Nat} (htop : top ≤ cur) :
    ∀ (fuel : Nat) (u u' : ChunkMap) (p : Nat), p < fuel → p ≤ top →
      cur - (config.historyLength - 1) ≤ p + 1 →
      Set.EqOn (targetIn .minTargetChunk db config vci u v) (clipAbove V t (p + 1) (top + 1))
        (config.window cur) →
      applyLoop .minTargetChunk db config vci v t cur fuel u p = .ok u' →
      Set.EqOn (targetIn .minTargetChunk db config vci u' v)
        (clipAbove V t (cur - (config.historyLength - 1)) (top + 1)) (config.window cur) := by
  intro fuel
  induction fuel with
  | zero => intro u u' p hp; omega
  | succ fuel ih =>
    intro u u' p hfuel hptop hlo hview h
    obtain ⟨u₁, c', keep, hu₁, -, hupd, h⟩ := applyLoop_turn h
    have hstart : Set.EqOn (targetIn .minTargetChunk db config vci
        (u.insert (config.chunkIndex p) (chunkAt .minTargetChunk db config vci u
          (config.chunkIndex p))) v) (clipAbove V t (p + 1) (top + 1)) (config.window cur) := by
      rw [targetIn_congr (chunkAt_insert_self u _)]
      exact hview
    have hend := minUpdateLoop_view hc hV rfl hptop htop p _ c' keep le_rfl hlo
      (fun y hy₁ hy₂ => by omega) hstart hupd
    rw [← targetIn_congr (chunkAt_insert_congr hu₁ _ c')] at hend
    rcases hend with ⟨rfl, hend⟩ | ⟨rfl, hblock, hend⟩
    · cases h
      exact hend
    · -- The next turn starts just below the block of `p`.
      have hq : p / config.chunkSize * config.chunkSize ≤ p := Nat.div_mul_le_self _ _
      have hnext : TargetArrayChunk.minTargetChunk.nextStartEpoch p config =
          p / config.chunkSize * config.chunkSize - 1 := rfl
      rw [hnext] at h
      refine ih _ u' _ (by omega) (by omega) (by omega) ?_ h
      rw [Nat.sub_add_cancel (by omega)]
      exact hend

end MinSweep

/-- The end of a chunk's upward loop: the sweep is done, up to the current epoch, or it
continues at the first epoch of the next block, not past the current epoch. -/
def MaxLoopEnd (config : Config) (view V : Nat → Nat) (t cur bot p : Nat) (keep : Bool) :
    Prop :=
  (keep = false ∧ Set.EqOn view (clipBelow V t bot (cur + 1)) (config.window cur)) ∨
  (keep = true ∧ (p / config.chunkSize + 1) * config.chunkSize ≤ cur ∧
    Set.EqOn view (clipBelow V t bot ((p / config.chunkSize + 1) * config.chunkSize))
      (config.window cur))

section MaxSweep
variable {α : Type} {db : SlasherDB α} {config : Config} (hc : config.Valid) {vci : Nat}
  {u : ChunkMap} {v t cur : Nat} {V : Nat → Nat}
include hc

/-- `MaxTargetChunk.updateLoop` from `e`, with the targets from `bot` below `e` raised already. -/
theorem maxUpdateLoop_view (hV : MonotoneOn V (config.window cur)) {ci p bot : Nat}
    (hp : config.chunkIndex p = ci) (hbot : bot ≤ p) (hbotW : cur - (config.historyLength - 1) ≤ bot)
    (c : Chunk) (e : Nat) {c' : Chunk} {keep : Bool} (hpe : p ≤ e) (hecur : e ≤ cur + 1)
    (hin : ∀ y, p ≤ y → y < e → config.chunkIndex y = ci)
    (hview : Set.EqOn (targetIn .maxTargetChunk db config vci (u.insert ci c) v)
      (clipBelow V t bot e) (config.window cur))
    (h : MaxTargetChunk.updateLoop config ci v t cur c e = .ok (c', keep)) :
    MaxLoopEnd config (targetIn .maxTargetChunk db config vci (u.insert ci c') v) V t cur bot p
      keep := by
  induction c, e using MaxTargetChunk.updateLoop.induct config ci cur with
  | case1 c e hcond ih =>
    rw [MaxTargetChunk.updateLoop, dif_pos hcond] at h
    obtain ⟨target, htarget, h⟩ := bind_eq_ok.mp h
    have hW := Config.mem_window_of_le hc (by omega) hcond.2
    have hread : target = V e := by
      rw [getTarget_insert hcond.1 htarget, hview hW]
      simp [clipBelow]
    split_ifs at h with hlt
    · obtain ⟨c₁, hset, h⟩ := bind_eq_ok.mp h
      -- The turn above, with the target at `e` raised.
      refine ih c₁ (by omega) (by omega) (fun y hy₁ hy₂ => ?_) ?_ h
      · rcases Nat.lt_or_ge y e with hy | hy
        · exact hin y hy₁ hy
        · rw [show y = e by omega]
          exact hcond.1
      · have hwrite : Set.EqOn
            (targetIn .maxTargetChunk db config vci (u.insert (config.chunkIndex e) c₁) v)
            (Function.update
              (targetIn .maxTargetChunk db config vci (u.insert (config.chunkIndex e) c) v) e t)
            (config.window cur) := setTarget_view hc hW hset
        rw [hcond.1] at hwrite
        refine hwrite.trans ?_
        rw [← update_clipBelow (by omega) (hread ▸ hlt).le]
        exact eqOn_update hview e t
    · cases h
      -- The target at `e` is already at least `t`: so are all above it.
      have hclip : clipBelow V t bot e = clipBelow V t bot (cur + 1) :=
        clipBelow_eq_of_le (by omega) fun x hx₁ hx₂ =>
          (not_lt.mp (hread ▸ hlt)).trans
            (hV hW (Config.mem_window_of_le hc (by omega) (by omega)) hx₁)
      exact .inl ⟨rfl, hclip ▸ hview⟩
  | case2 c e hcond =>
    rw [MaxTargetChunk.updateLoop, dif_neg hcond] at h
    cases h
    by_cases hle : e ≤ cur
    · have hblock := exit_above_block hc hp hpe hin fun h => hcond ⟨h, hle⟩
      right
      rw [← hblock]
      exact ⟨by simp [hle], hle, hview⟩
    · left
      obtain rfl : e = cur + 1 := by omega
      exact ⟨by simp, hview⟩

/-- `applyLoop` on the max array: chunk after chunk, the upward sweep from `p`, with the
targets from `bot` below `p` raised already, up to the current epoch. -/
theorem maxApplyLoop_view (hV : MonotoneOn V (config.window cur)) {bot : Nat}
    (hbotW : cur - (config.historyLength - 1) ≤ bot) :
    ∀ (fuel : Nat) (u u' : ChunkMap) (p : Nat), cur < p + fuel → bot ≤ p → p ≤ cur →
      Set.EqOn (targetIn .maxTargetChunk db config vci u v) (clipBelow V t bot p)
        (config.window cur) →
      applyLoop .maxTargetChunk db config vci v t cur fuel u p = .ok u' →
      Set.EqOn (targetIn .maxTargetChunk db config vci u' v) (clipBelow V t bot (cur + 1))
        (config.window cur) := by
  intro fuel
  induction fuel with
  | zero => intro u u' p hp; omega
  | succ fuel ih =>
    intro u u' p hfuel hbot hpcur hview h
    obtain ⟨u₁, c', keep, hu₁, -, hupd, h⟩ := applyLoop_turn h
    have hstart : Set.EqOn (targetIn .maxTargetChunk db config vci
        (u.insert (config.chunkIndex p) (chunkAt .maxTargetChunk db config vci u
          (config.chunkIndex p))) v) (clipBelow V t bot p) (config.window cur) := by
      rw [targetIn_congr (chunkAt_insert_self u _)]
      exact hview
    have hend := maxUpdateLoop_view hc hV rfl hbot hbotW _ p le_rfl (by omega)
      (fun y hy₁ hy₂ => by omega) hstart hupd
    rw [← targetIn_congr (chunkAt_insert_congr hu₁ _ c')] at hend
    rcases hend with ⟨rfl, hend⟩ | ⟨rfl, hblock, hend⟩
    · cases h
      exact hend
    · -- The next turn starts at the first epoch of the next block.
      have hq : p < (p / config.chunkSize + 1) * config.chunkSize := by
        rw [Nat.succ_mul]
        exact Nat.lt_div_mul_add hc.chunkSize_pos
      exact ih _ u' _ (by omega) (by omega) hblock hend h

end MaxSweep

/-- The targets of the other validators of `v`'s row are the same in `u'` as in `u`. -/
def RowFrame {α : Type} (kind : TargetArrayChunk) (db : SlasherDB α) (config : Config)
    (vci v : Nat) (u u' : ChunkMap) : Prop :=
  ∀ v', config.validatorChunkIndex v' = config.validatorChunkIndex v → v' ≠ v →
    targetIn kind db config vci u' v' = targetIn kind db config vci u v'

section Frames
variable {α : Type} {kind : TargetArrayChunk} {db : SlasherDB α} {config : Config}
  {vci v t cur : Nat}

theorem RowFrame.refl (u : ChunkMap) : RowFrame kind db config vci v u u := fun _ _ _ => rfl

theorem RowFrame.trans {u₁ u₂ u₃ : ChunkMap} (h₁ : RowFrame kind db config vci v u₁ u₂)
    (h₂ : RowFrame kind db config vci v u₂ u₃) : RowFrame kind db config vci v u₁ u₃ :=
  fun v' hv hne => (h₂ v' hv hne).trans (h₁ v' hv hne)

theorem RowFrame.of_chunkAt {u u' : ChunkMap}
    (h : chunkAt kind db config vci u' = chunkAt kind db config vci u) :
    RowFrame kind db config vci v u u' := fun v' _ _ => by rw [targetIn_congr h]

variable (hc : config.Valid)
include hc

/-- A write of a sweep keeps the other validators of the row. -/
theorem RowFrame.setTarget {u : ChunkMap} {c c₁ : Chunk} {ci e : Nat} (hci : config.chunkIndex e = ci)
    (hset : c.setTarget v e t config = .ok c₁) :
    RowFrame kind db config vci v (u.insert ci c) (u.insert ci c₁) := by
  intro v' hv hne
  rw [← hci]
  exact setTarget_view_ne hc hset hv.symm hne

theorem minUpdateLoop_frame {u : ChunkMap} {ci lo : Nat} :
    ∀ (e : Nat) (c c' : Chunk) (keep : Bool),
      MinTargetChunk.updateLoop config ci v t lo c e = .ok (c', keep) →
      RowFrame kind db config vci v (u.insert ci c) (u.insert ci c') := by
  intro e
  induction e with
  | zero =>
    intro c c' keep h
    rw [MinTargetChunk.updateLoop] at h
    split_ifs at h with hcond
    · obtain ⟨target, -, h⟩ := bind_eq_ok.mp h
      split_ifs at h
      · obtain ⟨c₁, hset, h⟩ := bind_eq_ok.mp h
        cases h
        exact RowFrame.setTarget hc hcond.1 hset
      · cases h
        exact RowFrame.refl _
    · cases h
      exact RowFrame.refl _
  | succ e ih =>
    intro c c' keep h
    rw [MinTargetChunk.updateLoop] at h
    split_ifs at h with hcond
    · obtain ⟨target, -, h⟩ := bind_eq_ok.mp h
      split_ifs at h
      · obtain ⟨c₁, hset, h⟩ := bind_eq_ok.mp h
        exact (RowFrame.setTarget hc hcond.1 hset).trans (ih c₁ c' keep h)
      · cases h
        exact RowFrame.refl _
    · cases h
      exact RowFrame.refl _

theorem maxUpdateLoop_frame {u : ChunkMap} {ci : Nat} (c : Chunk) (e : Nat) {c' : Chunk}
    {keep : Bool} (h : MaxTargetChunk.updateLoop config ci v t cur c e = .ok (c', keep)) :
    RowFrame kind db config vci v (u.insert ci c) (u.insert ci c') := by
  induction c, e using MaxTargetChunk.updateLoop.induct config ci cur with
  | case1 c e hcond ih =>
    rw [MaxTargetChunk.updateLoop, dif_pos hcond] at h
    obtain ⟨target, -, h⟩ := bind_eq_ok.mp h
    split_ifs at h
    · obtain ⟨c₁, hset, h⟩ := bind_eq_ok.mp h
      exact (RowFrame.setTarget hc hcond.1 hset).trans (ih c₁ h)
    · cases h
      exact RowFrame.refl _
  | case2 c e hcond =>
    rw [MaxTargetChunk.updateLoop, dif_neg hcond] at h
    cases h
    exact RowFrame.refl _

theorem update_frame {u : ChunkMap} {c c' : Chunk} {ci p : Nat} {keep : Bool}
    (h : kind.update c ci v p t cur config = .ok (c', keep)) :
    RowFrame kind db config vci v (u.insert ci c) (u.insert ci c') := by
  cases kind with
  | minTargetChunk => exact minUpdateLoop_frame hc p c c' keep h
  | maxTargetChunk => exact maxUpdateLoop_frame hc c p h

/-- `applyLoop` keeps the other validators of the row. -/
theorem applyLoop_frame : ∀ (fuel : Nat) (u u' : ChunkMap) (p : Nat),
    applyLoop kind db config vci v t cur fuel u p = .ok u' → RowFrame kind db config vci v u u' := by
  intro fuel
  induction fuel with
  | zero =>
    intro u u' p h
    cases h
    exact RowFrame.refl _
  | succ fuel ih =>
    intro u u' p h
    obtain ⟨u₁, c', keep, hu₁, -, hupd, h⟩ := applyLoop_turn h
    have hturn : RowFrame kind db config vci v u (u₁.insert (config.chunkIndex p) c') :=
      ((RowFrame.of_chunkAt (chunkAt_insert_self u _)).trans (update_frame hc hupd)).trans
        (RowFrame.of_chunkAt (chunkAt_insert_congr hu₁ _ c'))
    split_ifs at h
    · exact hturn.trans (ih _ u' _ h)
    · cases h
      exact hturn

end Frames

/-- The targets of `v` once its cells have been reset from `P` up to `e`: the epochs equal to
one of those modulo the history length hold the neutral distance, the others what `V` held. -/
def ResetFrom (config : Config) (view V : Nat → Nat) (neutral P e : Nat) : Prop :=
  (∀ x, (∃ y, P ≤ y ∧ y < e ∧ y % config.historyLength = x % config.historyLength) →
    view x = x + neutral) ∧
  (∀ x, (∀ y, P ≤ y → y < e → y % config.historyLength ≠ x % config.historyLength) →
    view x = V x)

section Reset
variable {config : Config} {V : Nat → Nat} {neutral P : Nat}

theorem ResetFrom.start : ResetFrom config V V neutral P P :=
  ⟨fun _ ⟨_, h₁, h₂, _⟩ => absurd h₂ (by omega), fun _ _ => rfl⟩

theorem ResetFrom.congr {view view' : Nat → Nat} {e : Nat} (h : view' = view)
    (hr : ResetFrom config view V neutral P e) : ResetFrom config view' V neutral P e := h ▸ hr

/-- One reset cell more: the epochs equal to `e` modulo the history length. -/
theorem ResetFrom.write {view view' : Nat → Nat} {e : Nat} (hr : ResetFrom config view V neutral P e)
    (hPe : P ≤ e)
    (hwrite : ∀ x, view' x = if x % config.historyLength = e % config.historyLength then
      x + neutral else view x) :
    ResetFrom config view' V neutral P (e + 1) := by
  constructor
  · rintro x ⟨y, hy₁, hy₂, hyx⟩
    rw [hwrite x]
    split_ifs with hx
    · rfl
    · refine hr.1 x ⟨y, hy₁, ?_, hyx⟩
      rcases Nat.lt_or_ge y e with hlt | hge
      · exact hlt
      · exact absurd (show y = e by omega ▸ hyx).symm hx
  · intro x hx
    rw [hwrite x, if_neg fun h => hx e hPe (by omega) h.symm]
    exact hr.2 x fun y hy₁ hy₂ => hx y hy₁ (by omega)

/-- After the reset up to the current epoch, the window holds the neutral targets from `P` on
and the old ones below it. -/
theorem ResetFrom.window {view : Nat → Nat} {cur x : Nat}
    (hr : ResetFrom config view V neutral P (cur + 1)) (hx : x ∈ config.window cur) :
    view x = if P ≤ x then x + neutral else V x := by
  split_ifs with hPx
  · exact hr.1 x ⟨x, hPx, by have := hx.2; omega, rfl⟩
  · refine hr.2 x fun y hy₁ hy₂ hyx => ?_
    -- An epoch above `x` with its residue is a whole history length above it, past `cur`.
    have hdvd : config.historyLength ∣ y - x :=
      Nat.dvd_of_mod_eq_zero (Nat.sub_mod_eq_zero_of_mod_eq hyx)
    have hle := Nat.le_of_dvd (by omega) hdvd
    have := hx.1
    omega

end Reset

section ResetLoops
variable {α : Type} {kind : TargetArrayChunk} {db : SlasherDB α} {config : Config}
  (hc : config.Valid) {vci v cur : Nat} {V : Nat → Nat} {P : Nat}
include hc

/-- The reset of one cell, on the view of its validator. -/
theorem setRawDistance_view {u : ChunkMap} {c c₁ : Chunk} {e d : Nat}
    (hset : c.setRawDistance v e d config = .ok c₁) (x : Nat) :
    targetIn kind db config vci (u.insert (config.chunkIndex e) c₁) v x =
      if x % config.historyLength = e % config.historyLength then x + d
      else targetIn kind db config vci (u.insert (config.chunkIndex e) c) v x := by
  obtain ⟨hcell, rfl⟩ := Chunk.setRawDistance_eq_ok hset
  rw [targetIn_insert_set hc hcell rfl]
  simp only [true_and]

/-- `resetLoop` from `e` resets the cells from `e` to the epoch it returns, at least `e` itself
when it is in the chunk and not past the current epoch, and stops where one of those fails. -/
theorem resetLoop_view {u : ChunkMap} {ci neutral : Nat} (c : Chunk) (e : Nat) {c' : Chunk}
    {e' : Nat} (hPe : P ≤ e)
    (hview : ResetFrom config (targetIn kind db config vci (u.insert ci c) v) V neutral P e)
    (h : resetLoop config ci v cur neutral c e = .ok (c', e')) :
    ResetFrom config (targetIn kind db config vci (u.insert ci c') v) V neutral P e' ∧
      (config.chunkIndex e = ci ∧ e ≤ cur → e < e') ∧ (e ≤ cur + 1 → e' ≤ cur + 1) ∧ e ≤ e' := by
  induction c, e using resetLoop.induct config ci cur with
  | case1 c e hcond ih =>
    rw [resetLoop, dif_pos hcond] at h
    obtain ⟨c₁, hset, h⟩ := bind_eq_ok.mp h
    have hwrite : ∀ x, targetIn kind db config vci (u.insert ci c₁) v x =
        if x % config.historyLength = e % config.historyLength then x + neutral
        else targetIn kind db config vci (u.insert ci c) v x := by
      rw [← hcond.1]
      exact setRawDistance_view hc hset
    obtain ⟨hr, -, hle, hge⟩ := ih c₁ (by omega) (hview.write hPe hwrite) h
    exact ⟨hr, fun _ => by omega, fun _ => hle (by omega), by omega⟩
  | case2 c e hcond =>
    rw [resetLoop, dif_neg hcond] at h
    cases h
    exact ⟨hview, fun h => absurd h hcond, id, le_rfl⟩

theorem resetLoop_frame {u : ChunkMap} {ci neutral : Nat} (c : Chunk) (e : Nat) {c' : Chunk}
    {e' : Nat} (h : resetLoop config ci v cur neutral c e = .ok (c', e')) :
    RowFrame kind db config vci v (u.insert ci c) (u.insert ci c') := by
  induction c, e using resetLoop.induct config ci cur with
  | case1 c e hcond ih =>
    rw [resetLoop, dif_pos hcond] at h
    obtain ⟨c₁, hset, h⟩ := bind_eq_ok.mp h
    refine RowFrame.trans (fun v' hv hne => ?_) (ih c₁ h)
    obtain ⟨hcell, rfl⟩ := Chunk.setRawDistance_eq_ok hset
    funext x
    rw [← hcond.1]
    exact targetIn_insert_set_ne hc hcell hv.symm hne
  | case2 c e hcond =>
    rw [resetLoop, dif_neg hcond] at h
    cases h
    exact RowFrame.refl _

omit hc in
/-- One turn of `epochUpdateLoop`, on the chunk the view holds for the epoch's column. -/
theorem epochUpdateLoop_turn {fuel e : Nat} {u u' : ChunkMap} (he : e ≤ cur)
    (h : epochUpdateLoop kind db config vci v cur (fuel + 1) u e = .ok u') :
    ∃ u₁ c' e', chunkAt kind db config vci u₁ = chunkAt kind db config vci u ∧
      (∀ k ∈ u₁, k ∈ u ∨ k = config.chunkIndex e) ∧
      resetLoop config (config.chunkIndex e) v cur kind.neutralElement
        (chunkAt kind db config vci u (config.chunkIndex e)) e = .ok (c', e') ∧
      epochUpdateLoop kind db config vci v cur fuel (u₁.insert (config.chunkIndex e) c') e' =
        .ok u' := by
  simp only [epochUpdateLoop, if_pos he] at h
  rcases getChunkForUpdate_eq u (config.chunkIndex e) with hg | hg <;> rw [hg] at h <;>
    obtain ⟨⟨c', e'⟩, hreset, h⟩ := bind_eq_ok.mp h
  · refine ⟨_, c', e', chunkAt_insert_self u _, fun k hk => ?_, hreset, h⟩
    rcases (AList.mem_insert u).mp hk with hk | hk
    · exact .inr hk
    · exact .inl hk
  · exact ⟨u, c', e', rfl, fun k hk => .inl hk, hreset, h⟩

/-- `epochUpdateLoop` resets the cells of `v` from `P` up to the current epoch. -/
theorem epochUpdateLoop_view : ∀ (fuel : Nat) (u u' : ChunkMap) (e : Nat), cur + 1 ≤ e + fuel →
    P ≤ e → e ≤ cur + 1 →
    ResetFrom config (targetIn kind db config vci u v) V kind.neutralElement P e →
    epochUpdateLoop kind db config vci v cur fuel u e = .ok u' →
    ResetFrom config (targetIn kind db config vci u' v) V kind.neutralElement P (cur + 1) ∧
      RowFrame kind db config vci v u u' := by
  intro fuel
  induction fuel with
  | zero =>
    intro u u' e hfuel hPe hecur hview h
    cases h
    obtain rfl : e = cur + 1 := by omega
    exact ⟨hview, RowFrame.refl _⟩
  | succ fuel ih =>
    intro u u' e hfuel hPe hecur hview h
    by_cases he : e ≤ cur
    · obtain ⟨u₁, c', e', hu₁, -, hreset, h⟩ := epochUpdateLoop_turn he h
      have hstart := hview.congr (congrFun (targetIn_congr (chunkAt_insert_self u (config.chunkIndex e))) v)
      obtain ⟨hr, hlt, hle, -⟩ := resetLoop_view hc _ e hPe hstart hreset
      have hframe : RowFrame kind db config vci v u (u₁.insert (config.chunkIndex e) c') :=
        ((RowFrame.of_chunkAt (chunkAt_insert_self u _)).trans (resetLoop_frame hc _ e hreset)).trans
          (RowFrame.of_chunkAt (chunkAt_insert_congr hu₁ _ c'))
      obtain ⟨hr', hframe'⟩ := ih _ u' e' (by have := hlt ⟨rfl, he⟩; omega)
        (by have := hlt ⟨rfl, he⟩; omega) (hle hecur)
        (hr.congr (congrFun (targetIn_congr (chunkAt_insert_congr hu₁ _ c')) v)) h
      exact ⟨hr', hframe.trans hframe'⟩
    · simp only [epochUpdateLoop, if_neg he] at h
      cases h
      obtain rfl : e = cur + 1 := by omega
      exact ⟨hview, RowFrame.refl _⟩

end ResetLoops

/-- The keys of a map of updated chunks are columns of the array. -/
def KeysIn (config : Config) (u : ChunkMap) : Prop :=
  ∀ ci ∈ u, ci < config.historyLength / config.chunkSize

section Keys
variable {α : Type} {kind : TargetArrayChunk} {db : SlasherDB α} {config : Config}
  (hc : config.Valid) {vci v t cur : Nat}
include hc

theorem KeysIn.of_turn {u u₁ : ChunkMap} {e : Nat} (hu : KeysIn config u)
    (h : ∀ k ∈ u₁, k ∈ u ∨ k = config.chunkIndex e) (c : Chunk) :
    KeysIn config (u₁.insert (config.chunkIndex e) c) := by
  intro k hk
  rcases (AList.mem_insert u₁).mp hk with rfl | hk
  · exact Config.chunkIndex_lt hc e
  · rcases h k hk with hk | rfl
    · exact hu k hk
    · exact Config.chunkIndex_lt hc e

theorem applyLoop_keys : ∀ (fuel : Nat) (u u' : ChunkMap) (p : Nat),
    applyLoop kind db config vci v t cur fuel u p = .ok u' → KeysIn config u → KeysIn config u' := by
  intro fuel
  induction fuel with
  | zero =>
    intro u u' p h hu
    cases h
    exact hu
  | succ fuel ih =>
    intro u u' p h hu
    obtain ⟨u₁, c', keep, -, hkeys, -, h⟩ := applyLoop_turn h
    have hturn := KeysIn.of_turn hc hu hkeys c'
    split_ifs at h
    · exact ih _ u' _ h hturn
    · cases h
      exact hturn

theorem epochUpdateLoop_keys : ∀ (fuel : Nat) (u u' : ChunkMap) (e : Nat),
    epochUpdateLoop kind db config vci v cur fuel u e = .ok u' → KeysIn config u →
      KeysIn config u' := by
  intro fuel
  induction fuel with
  | zero =>
    intro u u' e h hu
    cases h
    exact hu
  | succ fuel ih =>
    intro u u' e h hu
    by_cases he : e ≤ cur
    · obtain ⟨u₁, c', e', -, hkeys, -, h⟩ := epochUpdateLoop_turn he h
      exact ih _ u' e' h (KeysIn.of_turn hc hu hkeys c')
    · simp only [epochUpdateLoop, if_neg he] at h
      cases h
      exact hu

end Keys

end Lighthouse.Slasher
