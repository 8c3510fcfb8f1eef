import QuaiWorker.Feedback
import Mathlib.Tactic.Linarith

/-!
# The resubmit interval

`newWorkLoop` keeps two durations: `minRecommit`, the floor the user chose, and
`recommit`, the current resubmit interval.  `newWorker` sanitizes
`config.Recommit` from below and starts the loop with both equal to it; a
`resubmitIntervalCh` event sets both; a `resubmitAdjustCh` event moves
`recommit` through `recalcRecommit`.

**Arithmetic.**  `recalcRecommit` computes in `float64`.  Here the same
expressions are computed exactly in `ℚ`, and `time.Duration(int64(next))`
truncates toward zero (`truncate`).

**Results.**
* `RecommitBounds` is kept by every event whose increase ratio lies in
  `[1/10, 1]` (`RecommitState.step_bounds`), and `fillRatio` always lies there
  when the pool holds at most the gas limit (`fillRatio_mem`).
* `recommit_bounds`: along every run, `minRecommitInterval ≤ minRecommit` and
  `recommit` lies between `minRecommit` and `maxRecommitInterval`, whichever
  order those two are in.
* `recommit_above_max`: a `config.Recommit` above fifteen seconds is kept as it
  is, so `recommit ≤ maxRecommitInterval` does not hold from the start.
-/

namespace QuaiWorker

section Recommit

/-- `time.Duration(int64(x))` for a `float64` value: truncation toward zero. -/
def truncate (x : ℚ) : Int := if x < 0 then ⌈x⌉ else ⌊x⌋

theorem truncate_of_nonneg {x : ℚ} (h : 0 ≤ x) : truncate x = ⌊x⌋ := by
  simp [truncate, not_lt.mpr h]

/-- `recalcRecommit(minRecommit, prev, target, inc)`. -/
def recalcRecommit (minRecommit prev : Int) (target : ℚ) (inc : Bool) : Int :=
  let prevF : ℚ := prev
  if inc then
    let next := prevF * (1 - intervalAdjustRatio) + intervalAdjustRatio * (target + intervalAdjustBias)
    let max : ℚ := maxRecommitInterval
    truncate (if next > max then max else next)
  else
    let next := prevF * (1 - intervalAdjustRatio) + intervalAdjustRatio * (target - intervalAdjustBias)
    let min : ℚ := minRecommit
    truncate (if next < min then min else next)

/-- An increase from a target at least `prev` lands between `prev` (or the
maximum, if `prev` is above it) and the maximum. -/
theorem recalcRecommit_inc (minRecommit prev : Int) (target : ℚ) (h0 : 0 ≤ prev)
    (htarget : (prev : ℚ) ≤ target) :
    min prev maxRecommitInterval ≤ recalcRecommit minRecommit prev target true ∧
      recalcRecommit minRecommit prev target true ≤ maxRecommitInterval := by
  have hnext : (prev : ℚ) <
      prev * (1 - intervalAdjustRatio) + intervalAdjustRatio * (target + intervalAdjustBias) := by
    simp only [intervalAdjustRatio, intervalAdjustBias]
    linarith
  have hprev : (0 : ℚ) ≤ prev := by exact_mod_cast h0
  simp only [recalcRecommit, if_true]
  split_ifs with hgt
  · rw [truncate_of_nonneg (by simp [maxRecommitInterval]), Int.floor_intCast]
    exact ⟨min_le_right _ _, le_rfl⟩
  · rw [not_lt] at hgt
    rw [truncate_of_nonneg (by linarith)]
    refine ⟨(min_le_left _ _).trans (Int.le_floor.mpr hnext.le), Int.floor_le_iff.mpr ?_⟩
    linarith

/-- A decrease toward `minRecommit` lands between `minRecommit` and the larger of
`prev` and `minRecommit`. -/
theorem recalcRecommit_dec (minRecommit prev : Int) (hmin : minRecommitInterval ≤ minRecommit) :
    minRecommit ≤ recalcRecommit minRecommit prev minRecommit false ∧
      recalcRecommit minRecommit prev minRecommit false ≤ max prev minRecommit := by
  have hmin' : (1000000000 : ℚ) ≤ minRecommit := by
    exact_mod_cast (show (1000000000 : Int) ≤ minRecommit from hmin)
  simp only [recalcRecommit, Bool.false_eq_true, if_false]
  split_ifs with hlt
  · rw [truncate_of_nonneg (by linarith), Int.floor_intCast]
    exact ⟨le_rfl, le_max_right _ _⟩
  · rw [not_lt] at hlt
    rw [truncate_of_nonneg (by linarith)]
    refine ⟨Int.le_floor.mpr hlt, Int.floor_le_iff.mpr ?_⟩
    -- the next value is a convex combination of `prev` and `minRecommit - bias`
    have hprev : (prev : ℚ) ≤ (max prev minRecommit : Int) := by exact_mod_cast le_max_left _ _
    have hminle : (minRecommit : ℚ) ≤ (max prev minRecommit : Int) := by exact_mod_cast le_max_right _ _
    simp only [intervalAdjustRatio, intervalAdjustBias] at hlt ⊢
    linarith

/-- The sanitizing of a user interval in `newWorker`, in `newWorkLoop`'s
`resubmitIntervalCh` case and in `GeneratePendingHeader`: raised to
`minRecommitInterval` when shorter. -/
def sanitizeRecommit (interval : Int) : Int :=
  if interval < minRecommitInterval then minRecommitInterval else interval

/-- `newWorkLoop`'s interval variables. -/
structure RecommitState where
  minRecommit : Int
  recommit : Int
deriving DecidableEq

namespace RecommitState

/-- Both variables set to a sanitized user interval: the loop's start (from
`config.Recommit`) and the `resubmitIntervalCh` case. -/
def ofInterval (interval : Int) : RecommitState :=
  { minRecommit := sanitizeRecommit interval, recommit := sanitizeRecommit interval }

/-- The `resubmitAdjustCh` case. -/
def adjust (s : RecommitState) (adjust : IntervalAdjust) : RecommitState :=
  if adjust.inc then
    { s with recommit := recalcRecommit s.minRecommit s.recommit ((s.recommit : ℚ) / adjust.ratio) true }
  else
    { s with recommit := recalcRecommit s.minRecommit s.recommit s.minRecommit false }

end RecommitState

/-- The events of `newWorkLoop` that touch the interval. -/
inductive RecommitEvent
  | setInterval (interval : Int)
  | adjust (adjust : IntervalAdjust)

/-- An increase ratio as `commitTransactions` computes it lies in `[1/10, 1]`. -/
def RecommitEvent.RatioOk : RecommitEvent → Prop
  | .setInterval _ => True
  | .adjust a => a.inc = true → 1 / 10 ≤ a.ratio ∧ a.ratio ≤ 1

namespace RecommitState

/-- One event. -/
def step (s : RecommitState) : RecommitEvent → RecommitState
  | .setInterval interval => ofInterval interval
  | .adjust a => s.adjust a

/-- A run of events. -/
def run (s : RecommitState) (events : List RecommitEvent) : RecommitState :=
  events.foldl step s

end RecommitState

/-- `minRecommit` is at least `minRecommitInterval`, and `recommit` lies between
`minRecommit` and `maxRecommitInterval`. -/
structure RecommitBounds (s : RecommitState) : Prop where
  min_ge : minRecommitInterval ≤ s.minRecommit
  recommit_ge : min s.minRecommit maxRecommitInterval ≤ s.recommit
  recommit_le : s.recommit ≤ max s.minRecommit maxRecommitInterval

theorem ofInterval_bounds (interval : Int) : RecommitBounds (RecommitState.ofInterval interval) := by
  have h : minRecommitInterval ≤ sanitizeRecommit interval := by
    unfold sanitizeRecommit
    split_ifs <;> omega
  exact ⟨h, min_le_left _ _, le_max_left _ _⟩

/-- The ratio `commitTransactions` sends lies in `[1/10, 1]` whenever the pool
holds at most the (`uint64`) gas limit. -/
theorem fillRatio_mem {σ : Type} (env : Environment σ) (hpos : 0 < env.header.gasLimit)
    (hlimit : env.header.gasLimit < uint64Mod) (hpool : env.gasPool.getD 0 ≤ env.header.gasLimit) :
    1 / 10 ≤ fillRatio env ∧ fillRatio env ≤ 1 := by
  have hsub : toUint64 ((env.header.gasLimit : Int) - (env.gasPool.getD 0 : Nat)) =
      env.header.gasLimit - env.gasPool.getD 0 := by
    unfold toUint64
    rw [Int.emod_eq_of_lt (by omega) (by omega)]
    omega
  have hle : ((env.header.gasLimit - env.gasPool.getD 0 : Nat) : ℚ) / env.header.gasLimit ≤ 1 := by
    rw [div_le_one (by exact_mod_cast hpos)]
    exact_mod_cast Nat.sub_le _ _
  simp only [fillRatio, hsub]
  split_ifs with h
  · norm_num
  · exact ⟨not_lt.mp h, hle⟩

/-- Every event whose increase ratio lies in `[1/10, 1]` keeps `RecommitBounds`. -/
theorem RecommitState.step_bounds {s : RecommitState} {e : RecommitEvent} (h : RecommitBounds s)
    (he : e.RatioOk) : RecommitBounds (s.step e) := by
  have hM : (0 : Int) < maxRecommitInterval := by decide
  cases e with
  | setInterval interval =>
      exact ofInterval_bounds interval
  | adjust a =>
      simp only [step, adjust]
      split
      · rename_i hinc
        obtain ⟨hq1, hq2⟩ := he hinc
        have h0 : 0 ≤ s.recommit :=
          (le_min ((by decide : (0 : Int) ≤ minRecommitInterval).trans h.min_ge) hM.le).trans h.recommit_ge
        have hr : (0 : ℚ) ≤ s.recommit := by exact_mod_cast h0
        have htarget : (s.recommit : ℚ) ≤ s.recommit / a.ratio := by
          rw [le_div_iff₀ (by linarith)]
          nlinarith
        obtain ⟨hlo, hhi⟩ := recalcRecommit_inc s.minRecommit s.recommit _ h0 htarget
        refine ⟨h.min_ge, ?_, hhi.trans (le_max_right _ _)⟩
        exact (le_min h.recommit_ge (min_le_right _ _)).trans hlo
      · obtain ⟨hlo, hhi⟩ := recalcRecommit_dec s.minRecommit s.recommit h.min_ge
        exact ⟨h.min_ge, (min_le_left _ _).trans hlo,
          hhi.trans (max_le h.recommit_le (le_max_left _ _))⟩

theorem RecommitState.run_bounds {s : RecommitState} (h : RecommitBounds s)
    (events : List RecommitEvent) (he : ∀ e ∈ events, e.RatioOk) :
    RecommitBounds (s.run events) := by
  induction events generalizing s with
  | nil =>
      exact h
  | cons e events ih =>
      exact ih (RecommitState.step_bounds h (he e (by simp))) fun e' he' => he e' (by simp [he'])

/-- No event but a larger user interval raises `minRecommit` above the maximum. -/
theorem RecommitState.run_min_le {s : RecommitState} (h : s.minRecommit ≤ maxRecommitInterval)
    (events : List RecommitEvent)
    (he : ∀ interval, RecommitEvent.setInterval interval ∈ events → interval ≤ maxRecommitInterval) :
    (s.run events).minRecommit ≤ maxRecommitInterval := by
  induction events generalizing s with
  | nil =>
      exact h
  | cons e events ih =>
      refine ih ?_ fun interval hi => he interval (by simp [hi])
      cases e with
      | setInterval interval =>
          have := he interval (by simp)
          simp only [step, ofInterval, sanitizeRecommit]
          split_ifs <;> simp_all [minRecommitInterval, maxRecommitInterval]
      | adjust a =>
          simp only [step, adjust]
          split <;> exact h

/-- Along every run of `newWorkLoop` from `newWorker`'s start, for every
`config.Recommit`, every user interval and every increase ratio in `[1/10, 1]`:
`minRecommitInterval ≤ minRecommit`, and `recommit` lies between `minRecommit`
and `maxRecommitInterval`.  When neither `config.Recommit` nor a user interval
exceeds `maxRecommitInterval`, that is the chain
`minRecommitInterval ≤ minRecommit ≤ recommit ≤ maxRecommitInterval`. -/
theorem recommit_bounds (configRecommit : Int) (events : List RecommitEvent)
    (he : ∀ e ∈ events, e.RatioOk) :
    RecommitBounds ((RecommitState.ofInterval configRecommit).run events) ∧
      (configRecommit ≤ maxRecommitInterval →
        (∀ interval, RecommitEvent.setInterval interval ∈ events → interval ≤ maxRecommitInterval) →
        minRecommitInterval ≤ ((RecommitState.ofInterval configRecommit).run events).minRecommit ∧
        ((RecommitState.ofInterval configRecommit).run events).minRecommit ≤
          ((RecommitState.ofInterval configRecommit).run events).recommit ∧
        ((RecommitState.ofInterval configRecommit).run events).recommit ≤ maxRecommitInterval) := by
  have hb := RecommitState.run_bounds (ofInterval_bounds configRecommit) events he
  refine ⟨hb, fun hcfg hset => ?_⟩
  have hstart : (RecommitState.ofInterval configRecommit).minRecommit ≤ maxRecommitInterval := by
    simp only [RecommitState.ofInterval, sanitizeRecommit]
    split_ifs <;> simp_all [minRecommitInterval, maxRecommitInterval]
  have hmin := RecommitState.run_min_le hstart events hset
  have hlo := hb.recommit_ge
  have hhi := hb.recommit_le
  rw [min_eq_left hmin] at hlo
  rw [max_eq_right hmin] at hhi
  exact ⟨hb.min_ge, hlo, hhi⟩

/-- An increase at half fill, a decrease, and a user interval of twenty seconds. -/
def sampleRecommitEvents : List RecommitEvent :=
  [.adjust { ratio := 1 / 2, inc := true }, .adjust { ratio := 0, inc := false },
    .setInterval 20000000000]

/-- `recommit_bounds` on `sampleRecommitEvents` from a three-second start. -/
theorem recommit_bounds_sample :
    (∀ e ∈ sampleRecommitEvents, e.RatioOk) ∧
      let s := (RecommitState.ofInterval 3000000000).run sampleRecommitEvents
      RecommitBounds s ∧
        (3000000000 ≤ maxRecommitInterval →
          (∀ interval, RecommitEvent.setInterval interval ∈ sampleRecommitEvents →
            interval ≤ maxRecommitInterval) →
          minRecommitInterval ≤ s.minRecommit ∧ s.minRecommit ≤ s.recommit ∧
            s.recommit ≤ maxRecommitInterval) := by
  have he : ∀ e ∈ sampleRecommitEvents, e.RatioOk := by
    intro e he
    simp only [sampleRecommitEvents, List.mem_cons, List.mem_singleton, List.not_mem_nil,
      or_false] at he
    rcases he with rfl | rfl | rfl <;> norm_num [RecommitEvent.RatioOk]
  exact ⟨he, recommit_bounds 3000000000 sampleRecommitEvents he⟩

/-- A `config.Recommit` of twenty seconds is only sanitized from below: the
loop starts with `recommit` above `maxRecommitInterval`. -/
theorem recommit_above_max :
    ¬ (minRecommitInterval ≤ ((RecommitState.ofInterval 20000000000).run []).minRecommit ∧
      ((RecommitState.ofInterval 20000000000).run []).minRecommit ≤
        ((RecommitState.ofInterval 20000000000).run []).recommit ∧
      ((RecommitState.ofInterval 20000000000).run []).recommit ≤ maxRecommitInterval) := by
  decide

end Recommit

end QuaiWorker
