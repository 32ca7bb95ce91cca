import Mathlib.Data.List.AList
import Mathlib.Data.List.MinMax
import Mathlib.Data.Prod.Lex
import Lighthouse.Foundations.Histogram

/-! The eth1 vote a block proposer casts (`eth1_chain.rs`): `CachingEth1Backend::eth1_data` reads
the cached eth1 blocks of the voting period's follow-distance window, counts the votes of the
state that are for one of them, and returns the most voted, or the latest block's data when no
vote counts. Beside it the honest-validator specification's `get_eth1_vote`.

The two differ. The implementation keeps no deposit-count filter, so it can vote for eth1 data
with fewer deposits than the state already has; and it breaks a tie between votes by the larger
block number where the specification takes the earliest vote. What both share is proved here:
the window of candidate blocks, and that every vote cast is the state's own eth1 data or that of
a candidate block. `HashMap`s are association lists; their order of iteration is the order of
the list, which no result below depends on. -/
namespace Lighthouse.Eth1

/-- `Eth1Data`. -/
structure Eth1Data where
  depositRoot : Nat
  depositCount : Nat
  blockHash : Nat
deriving DecidableEq, Repr

/-- `Eth1Block`, as the block cache keeps it. -/
structure Eth1Block where
  hash : Nat
  timestamp : Nat
  number : Nat
  depositRoot : Option Nat
  depositCount : Option Nat
deriving DecidableEq, Repr

/-- `Eth1Block::eth1_data`: none without the deposit root and count. -/
def Eth1Block.eth1Data (b : Eth1Block) : Option Eth1Data := do
  pure ⟨← b.depositRoot, ← b.depositCount, b.hash⟩

/-- `ChainSpec`, the fields read here. -/
structure ChainSpec where
  secondsPerSlot : Nat
  secondsPerEth1Block : Nat
  eth1FollowDistance : Nat

/-- `BeaconState`, the fields read here. -/
structure BeaconState where
  slot : Nat
  genesisTime : Nat
  eth1Data : Eth1Data
  eth1DataVotes : List Eth1Data

/-- `Iterator::max_by_key`: the last of the elements with the greatest key, which is the first
one of the reversed list. -/
def maxByKey {α β : Type} [LinearOrder β] (f : α → β) (l : List α) : Option α :=
  l.reverse.argmax f

/-- `slot_start_seconds`. -/
def slotStartSeconds (genesisUnixSeconds secondsPerSlot slot : Nat) : Nat :=
  genesisUnixSeconds + slot * secondsPerSlot

/-- `is_candidate_block`: a block of the follow-distance window before `periodStart`; the
subtractions saturate. -/
def isCandidateBlock (spec : ChainSpec) (periodStart : Nat) (block : Eth1Block) : Bool :=
  decide (block.timestamp ≤ periodStart - spec.secondsPerEth1Block * spec.eth1FollowDistance) &&
    decide (periodStart - spec.secondsPerEth1Block * spec.eth1FollowDistance * 2 ≤ block.timestamp)

/-- `get_votes_to_consider`: from the latest block back, the first run of candidate blocks,
each with deposit data keyed to its number. -/
def getVotesToConsider (blocks : List Eth1Block) (votingPeriodStartSeconds : Nat)
    (spec : ChainSpec) : AList (fun _ : Eth1Data => Nat) :=
  let window := (blocks.reverse.dropWhile fun b => !isCandidateBlock spec votingPeriodStartSeconds b)
    |>.takeWhile (isCandidateBlock spec votingPeriodStartSeconds)
  (window.filterMap fun b => b.eth1Data.map (·, b.number)).foldl (fun m e => m.insert e.1 e.2) ∅

/-- `collect_valid_votes`: how often the state voted for each vote to consider, keyed with its
block number. -/
def collectValidVotes (state : BeaconState) (votesToConsider : AList (fun _ : Eth1Data => Nat)) :
    Histogram.Map (Eth1Data × Nat) :=
  (state.eth1DataVotes.filterMap fun vote => (votesToConsider.lookup vote).map (vote, ·)).foldl
    Histogram.record ∅

/-- `find_winning_vote`: the vote with the most votes, then the greatest block number. -/
def findWinningVote (validVotes : Histogram.Map (Eth1Data × Nat)) : Option Eth1Data :=
  (maxByKey (fun e => toLex (e.2, e.1.2)) validVotes.entries).map (·.1.1)

/-- `CachingEth1Backend::eth1_data`, whose `Result` is always `Ok`; `slotsPerEth1VotingPeriod`
is `T::SlotsPerEth1VotingPeriod`. -/
def eth1Data (state : BeaconState) (blocks : List Eth1Block) (spec : ChainSpec)
    (slotsPerEth1VotingPeriod : Nat) : Eth1Data :=
  let votingPeriodStartSlot := state.slot / slotsPerEth1VotingPeriod * slotsPerEth1VotingPeriod
  let votingPeriodStartSeconds :=
    slotStartSeconds state.genesisTime spec.secondsPerSlot votingPeriodStartSlot
  let votesToConsider := getVotesToConsider blocks votingPeriodStartSeconds spec
  match findWinningVote (collectValidVotes state votesToConsider) with
  | some eth1Data => eth1Data
  | none =>
    ((maxByKey (fun e => e.2) votesToConsider.entries).map (·.1)).getD state.eth1Data

section Specification

/-- `get_eth1_vote` of the honest-validator specification, on the blocks of the eth1 chain in
ascending order: the candidate blocks' data whose deposit count is not below the state's, the
state's votes for one of them, and the most voted of those, the earliest on a tie; by default the
latest candidate, or the state's own eth1 data. -/
def specGetEth1Vote (state : BeaconState) (eth1Chain : List Eth1Block) (spec : ChainSpec)
    (slotsPerEth1VotingPeriod : Nat) : Eth1Data :=
  let periodStart := slotStartSeconds state.genesisTime spec.secondsPerSlot
    (state.slot - state.slot % slotsPerEth1VotingPeriod)
  let votesToConsider := eth1Chain.filterMap fun block =>
    (block.eth1Data.filter fun d =>
      isCandidateBlock spec periodStart block && decide (state.eth1Data.depositCount ≤ d.depositCount))
  let validVotes := state.eth1DataVotes.filter (· ∈ votesToConsider)
  let defaultVote := votesToConsider.getLast?.getD state.eth1Data
  -- The tie goes to the earlier vote: the position is compared in the dual order.
  (validVotes.argmax fun v => toLex (validVotes.count v, OrderDual.toDual (validVotes.idxOf v))).getD
    defaultVote

end Specification

section Window
variable {α : Type} (key : α → Nat) (lo hi : Nat)

/-- On a list in descending order of `key`, all at most `hi`, the run of elements from `lo` up
is all of them. -/
theorem takeWhile_eq_filter_of_le :
    ∀ {l : List α}, l.Pairwise (fun a b => key b ≤ key a) → (∀ a ∈ l, key a ≤ hi) →
      l.takeWhile (fun a => decide (key a ≤ hi) && decide (lo ≤ key a)) =
        l.filter (fun a => decide (key a ≤ hi) && decide (lo ≤ key a))
  | [], _, _ => rfl
  | a :: l, hs, hhi => by
    obtain ⟨hle, hs⟩ := List.pairwise_cons.mp hs
    by_cases hlo : lo ≤ key a
    · have ha : (decide (key a ≤ hi) && decide (lo ≤ key a)) = true := by
        simp [hlo, hhi a List.mem_cons_self]
      simp only [List.takeWhile_cons, List.filter_cons, ha, ↓reduceIte]
      rw [takeWhile_eq_filter_of_le hs fun b hb => hhi b (List.mem_cons_of_mem a hb)]
    · -- Everything after `a` is below it, so below `lo` too.
      have ha : ¬(decide (key a ≤ hi) && decide (lo ≤ key a)) = true := by simp [hlo]
      simp only [List.takeWhile_cons, List.filter_cons, ha, Bool.false_eq_true, ↓reduceIte]
      rw [eq_comm, List.filter_eq_nil_iff]
      intro b hb
      have := hle b hb
      simp only [Bool.and_eq_true, decide_eq_true_eq, not_and, Nat.not_le]
      omega

/-- On a list in descending order of `key`, the first run of elements whose key is in
`[lo, hi]`, after those that are not, is all the elements whose key is in `[lo, hi]`: the
interval is contiguous in the list. -/
theorem takeWhile_dropWhile_eq_filter :
    ∀ {l : List α}, l.Pairwise (fun a b => key b ≤ key a) →
      (l.dropWhile fun a => !(decide (key a ≤ hi) && decide (lo ≤ key a))).takeWhile
          (fun a => decide (key a ≤ hi) && decide (lo ≤ key a)) =
        l.filter (fun a => decide (key a ≤ hi) && decide (lo ≤ key a))
  | [], _ => rfl
  | a :: l, hs => by
    by_cases ha : (decide (key a ≤ hi) && decide (lo ≤ key a)) = true
    · -- The run starts at `a`; everything after is at most `key a`, so at most `hi`.
      obtain ⟨hahi, -⟩ : key a ≤ hi ∧ lo ≤ key a := by simpa using ha
      have hhi : ∀ b ∈ a :: l, key b ≤ hi := by
        intro b hb
        rcases List.mem_cons.mp hb with rfl | hb
        · exact hahi
        · exact ((List.pairwise_cons.mp hs).1 b hb).trans hahi
      simp only [List.dropWhile_cons, ha, Bool.not_true, Bool.false_eq_true, ↓reduceIte]
      exact takeWhile_eq_filter_of_le key lo hi hs hhi
    · simp only [List.dropWhile_cons, List.filter_cons, ha, Bool.not_false, Bool.false_eq_true,
        ↓reduceIte]
      exact takeWhile_dropWhile_eq_filter (List.pairwise_cons.mp hs).2

end Window

/-- On a cache in non-decreasing order of timestamps the candidate blocks are one run, so the
window that `get_votes_to_consider` cuts from the latest block back is all of them, latest
first. -/
theorem window_eq_filter (blocks : List Eth1Block) (spec : ChainSpec) (periodStart : Nat)
    (hsorted : blocks.Pairwise fun a b => a.timestamp ≤ b.timestamp) :
    (blocks.reverse.dropWhile fun b => !isCandidateBlock spec periodStart b).takeWhile
        (isCandidateBlock spec periodStart) =
      (blocks.filter (isCandidateBlock spec periodStart)).reverse := by
  rw [← List.filter_reverse]
  exact takeWhile_dropWhile_eq_filter Eth1Block.timestamp _ _ (List.pairwise_reverse.mpr hsorted)

theorem maxByKey_mem {α β : Type} [LinearOrder β] {f : α → β} {l : List α} {a : α}
    (h : maxByKey f l = some a) : a ∈ l :=
  List.mem_reverse.mp (List.argmax_mem h)

/-- Every vote to consider is the eth1 data of a candidate block of the cache. -/
theorem mem_keys_getVotesToConsider {blocks : List Eth1Block} {periodStart : Nat}
    {spec : ChainSpec} {d : Eth1Data} (h : d ∈ (getVotesToConsider blocks periodStart spec).keys) :
    ∃ b ∈ blocks, isCandidateBlock spec periodStart b = true ∧ b.eth1Data = some d := by
  unfold getVotesToConsider at h
  rcases (Histogram.mem_keys_foldl_insert _ _ d).mp h with h | h
  · simp at h
  · obtain ⟨e, he, rfl⟩ := List.mem_map.mp h
    obtain ⟨b, hb, hbe⟩ := List.mem_filterMap.mp he
    obtain ⟨d, hd, rfl⟩ := Option.map_eq_some_iff.mp hbe
    -- The window is a run of candidates taken from the reversed cache.
    have hcand := List.all_eq_true.mp List.all_takeWhile b hb
    have hmem := List.mem_reverse.mp ((List.dropWhile_sublist _).subset
      ((List.takeWhile_sublist _).subset hb))
    exact ⟨b, hmem, hcand, hd⟩

/-- Every vote counted is one to consider, keyed with that vote's block number. -/
theorem mem_keys_collectValidVotes {state : BeaconState}
    {votesToConsider : AList (fun _ : Eth1Data => Nat)} {e : Eth1Data × Nat}
    (h : e ∈ (collectValidVotes state votesToConsider).keys) :
    votesToConsider.lookup e.1 = some e.2 := by
  unfold collectValidVotes at h
  rcases (Histogram.mem_keys_foldl_record _ _ e).mp h with h | h
  · simp at h
  · obtain ⟨v, -, hv⟩ := List.mem_filterMap.mp h
    obtain ⟨n, hn, rfl⟩ := Option.map_eq_some_iff.mp hv
    exact hn

theorem findWinningVote_mem {validVotes : Histogram.Map (Eth1Data × Nat)} {d : Eth1Data}
    (h : findWinningVote validVotes = some d) : ∃ n, (d, n) ∈ validVotes.keys := by
  obtain ⟨e, he, rfl⟩ := Option.map_eq_some_iff.mp h
  exact ⟨e.1.2, List.mem_keys_of_mem (maxByKey_mem he)⟩

/-- The vote cast is the state's own eth1 data or that of a candidate block of the cache, a block
of the voting period's follow-distance window with deposit data. -/
theorem eth1Data_mem (state : BeaconState) (blocks : List Eth1Block) (spec : ChainSpec)
    (slotsPerEth1VotingPeriod : Nat) :
    eth1Data state blocks spec slotsPerEth1VotingPeriod = state.eth1Data ∨
      ∃ b ∈ blocks,
        isCandidateBlock spec (slotStartSeconds state.genesisTime spec.secondsPerSlot
          (state.slot / slotsPerEth1VotingPeriod * slotsPerEth1VotingPeriod)) b = true ∧
        b.eth1Data = some (eth1Data state blocks spec slotsPerEth1VotingPeriod) := by
  unfold eth1Data
  dsimp only
  split
  · -- A winning vote: counted, so one to consider.
    rename_i d hd
    obtain ⟨n, hn⟩ := findWinningVote_mem hd
    have hlookup := mem_keys_collectValidVotes hn
    have hkey : d ∈ (getVotesToConsider blocks _ spec).keys :=
      AList.mem_keys.mpr (AList.lookup_isSome.mp (by rw [hlookup]; rfl))
    exact .inr (mem_keys_getVotesToConsider hkey)
  · -- No vote counts: the latest vote to consider, or the state's own.
    cases hm : maxByKey (fun e => e.2) (getVotesToConsider blocks _ spec).entries with
    | none => exact .inl rfl
    | some e =>
      exact .inr (mem_keys_getVotesToConsider (List.mem_keys_of_mem (maxByKey_mem hm)))

/-- Mainnet's `seconds_per_slot`, `seconds_per_eth1_block` and `eth1_follow_distance`. -/
def mainnetSpec : ChainSpec := ⟨12, 14, 2048⟩

/-- A state at slot 100000 of a chain started at 1606824023 whose eth1 data already counts five
deposits, with no votes yet in the period. -/
def fiveDepositState : BeaconState := ⟨100000, 1606824023, ⟨6, 5, 0⟩, []⟩

/-- Two blocks of the period's follow-distance window, the later one with data of three
deposits only (as after a reorganisation of the eth1 chain). -/
def regressingBlocks : List Eth1Block :=
  [⟨1, 1607950000, 11000000, some 7, some 5⟩, ⟨2, 1607960000, 11000001, some 8, some 3⟩]

end Lighthouse.Eth1
