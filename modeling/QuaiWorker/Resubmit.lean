import QuaiWorker.Signals

/-!
# The resubmit signal never reaches a round

`newWorkLoop`'s timer resubmits, with `commit(true, commitInterruptResubmit)`,
only when `newTxs ≠ 0`.  `newTxs` grows only in `mainLoop`'s `txsCh` case, which
runs between rounds, and `newWorkLoop`'s `commit` zeroes it after every request
`mainLoop` receives.  So while a round runs on `newWorkLoop`'s current cell,
`newTxs` is zero once `newWorkLoop` is back in its `select`, and the resubmit
signal always lands in the cell of a round that has already returned.

Hence `commitTransactions` never sends `intervalAdjust{inc: true}`: every message
on `resubmitAdjustCh` asks for a decrease, and a decrease from `minRecommit`
stays at `minRecommit`.

**Results.**
* `RoundSignals`: the invariant; `Reachable.roundSignals`.
* `resubmit_never_loaded`: in every reachable state, a round in flight does not
  read `commitInterruptResubmit` from its cell.
* `Reachable.adjustDecreases_run`: along every run, every message on
  `resubmitAdjustCh` asks for a decrease, and `recommit = minRecommit`, the
  sanitized value of `lastInterval`, the interval last set.
* `recommit_never_adapts`: the same on runs whose intervals are at most
  `2 ^ 53` ns, where the model's exact arithmetic and Go's `float64` agree:
  there the value stays at most `2 ^ 53` ns.
-/

namespace QuaiWorker

section Resubmit

variable {σ ι : Type} {b : Backend σ ι}

/-- A decrease from a freshly set pair leaves it as it is: `recalcRecommit`
clamps the decrease at `minRecommit`. -/
theorem RecommitState.ofInterval_adjust_dec (interval : Int) (adjust : IntervalAdjust)
    (hinc : adjust.inc = false) :
    (RecommitState.ofInterval interval).step (.adjust adjust) = RecommitState.ofInterval interval := by
  have hmin := (ofInterval_bounds interval).min_ge
  obtain ⟨hlo, hhi⟩ := recalcRecommit_dec _ (RecommitState.ofInterval interval).minRecommit hmin
  rw [max_self] at hhi
  simp only [RecommitState.step, RecommitState.adjust, hinc, Bool.false_eq_true, if_false]
  exact congrArg _ (le_antisymm hhi hlo)

namespace Sys

variable {s s' : Sys σ ι}

/-- A request on its way carries `newWorkLoop`'s current cell; and a round in
flight reads either that cell, while `newWorkLoop` has not reset `newTxs` yet or
`newTxs` is zero, or a cell that already holds `commitInterruptNewHead`. -/
structure RoundSignals (s : Sys σ ι) : Prop where
  send : ∀ req, s.newWork.pc = .send req → s.newWork.interrupt = some req.interrupt
  round : ∀ round c, s.main.round = some round → round.interrupt = some c →
    (s.newWork.interrupt = some c ∧ (s.newWork.pc = .reset ∨ s.worker.newTxs = 0)) ∨
      s.cell c = .newHead

namespace RoundSignals

variable (h : s.RoundSignals)
include h

/-- A step that moves neither the round nor the cells keeps the invariant when
it keeps `newWorkLoop`'s request, its cell and the guard on `newTxs`. -/
theorem congr (hsend : ∀ req, s'.newWork.pc = .send req → s.newWork.pc = .send req)
    (hi : s'.newWork.interrupt = s.newWork.interrupt) (hmain : s'.main = s.main)
    (hcells : s'.cells = s.cells)
    (hnew : s.newWork.pc = .reset ∨ s.worker.newTxs = 0 →
      s'.newWork.pc = .reset ∨ s'.worker.newTxs = 0) :
    s'.RoundSignals := by
  refine ⟨fun req hpc => hi ▸ h.send req (hsend req hpc), fun round c hround hc => ?_⟩
  rw [hmain] at hround
  rcases h.round round c hround hc with ⟨hic, hguard⟩ | hcell
  · exact .inl ⟨hi ▸ hic, hnew hguard⟩
  · exact .inr (by simpa [cell, hcells] using hcell)

/-- A step whose round, if any, continues one of `s` on the same cell with
`newTxs` unchanged keeps the invariant when it keeps `newWorkLoop` and the
cells. -/
theorem of_round (hnew : s'.newWork = s.newWork) (hcells : s'.cells = s.cells)
    (hround : ∀ round', s'.main.round = some round' →
      ∃ round, s.main.round = some round ∧ round'.interrupt = round.interrupt ∧
        s'.worker.newTxs = s.worker.newTxs) :
    s'.RoundSignals := by
  refine ⟨fun req hpc => hnew ▸ h.send req (hnew ▸ hpc), fun round' c hround' hc => ?_⟩
  obtain ⟨round, hround, hint, hnewTxs⟩ := hround round' hround'
  rcases h.round round c hround (hint ▸ hc) with ⟨hic, hguard⟩ | hcell
  · exact .inl ⟨hnew ▸ hic, by rwa [hnew, hnewTxs]⟩
  · exact .inr (by simpa [cell, hcells] using hcell)

/-- A `MainOnly` change batching on no cell, from a state with `newWorkLoop` as
in `s`, keeps the invariant. -/
theorem of_mainOnly {s₀ : Sys σ ι} (hm : s₀.MainOnly none s') (hnew : s₀.newWork = s.newWork) :
    s'.RoundSignals := by
  obtain ⟨-, hnew', -, hbatch⟩ := hm.frame
  refine ⟨fun req hpc => ?_, fun round c hround hc => ?_⟩
  · rw [hnew', hnew] at hpc ⊢
    exact h.send req hpc
  · cases hbatch.round_interrupt hround ▸ hc

/-- `commit` of `commitInterruptNewHead` keeps the invariant. -/
theorem commit_newHead (hwf : s.CellsWellFormed) {s₀ : Sys σ ι} (hc : s₀.cells = s.cells)
    (hi : s₀.newWork.interrupt = s.newWork.interrupt) (hmain : s₀.main = s.main)
    (noempty : Bool) :
    (s₀.newWorkCommit noempty .newHead).RoundSignals := by
  have hwf₀ : s₀.CellsWellFormed := (hwf.of_frame hc hi).1
  refine ⟨fun req hpc => ?_, fun round c hround hic => .inr ?_⟩
  · rw [newWorkCommit_pc] at hpc
    cases hpc
    exact newWorkCommit_interrupt _ _
  · rw [newWorkCommit_cell hwf₀]
    split
    · rfl
    · rcases h.round round c (hmain ▸ hround) hic with ⟨hic', -⟩ | hcell
      · exact absurd (hi ▸ hic') ‹_›
      · simpa [cell, hc] using hcell

/-- The timer's `commit` of `commitInterruptResubmit`, which needs `newWorkLoop`
in its `select` and `newTxs ≠ 0`, keeps the invariant. -/
theorem commit_resubmit (hwf : s.CellsWellFormed) (hpc : s.newWork.pc = .select)
    (hnewTxs : s.worker.newTxs ≠ 0) {s₀ : Sys σ ι} (hc : s₀.cells = s.cells)
    (hi : s₀.newWork.interrupt = s.newWork.interrupt) (hmain : s₀.main = s.main)
    (noempty : Bool) :
    (s₀.newWorkCommit noempty .resubmit).RoundSignals := by
  have hwf₀ : s₀.CellsWellFormed := (hwf.of_frame hc hi).1
  refine ⟨fun req hpc => ?_, fun round c hround hic => .inr ?_⟩
  · rw [newWorkCommit_pc] at hpc
    cases hpc
    exact newWorkCommit_interrupt _ _
  · rcases h.round round c (hmain ▸ hround) hic with ⟨-, hguard⟩ | hcell
    · rw [hpc] at hguard
      simp_all
    · have hnot : s₀.newWork.interrupt ≠ some c := fun hic' => by
        have := (hwf c (hi ▸ hic')).2
        rw [hcell] at this
        cases this
      rw [newWorkCommit_cell hwf₀, if_neg hnot]
      simpa [cell, hc] using hcell

/-- `mainLoop` receiving `newWorkLoop`'s request and starting its round keeps the
invariant. -/
theorem receive {req : NewWorkReq} (hpc : s.newWork.pc = .send req)
    (hm : MainOnly (some req.interrupt) { s with newWork := { s.newWork with pc := .reset } } s') :
    s'.RoundSignals := by
  obtain ⟨-, hnew, -, hbatch⟩ := hm.frame
  refine ⟨fun _ hpc' => ?_, fun round c hround hc => .inl ?_⟩
  · rw [hnew] at hpc'
    cases hpc'
  · obtain rfl : req.interrupt = c := Option.some.inj ((hbatch.round_interrupt hround).symm.trans hc)
    rw [hnew]
    exact ⟨h.send req hpc, .inl rfl⟩

/-- Every step keeps the invariant. -/
theorem step (hwf : s.CellsWellFormed) {a : Action} (hs : s.step b a = some s') :
    s'.RoundSignals := by
  cases a with
  | newWorkStart =>
      simp only [Sys.step] at hs
      split at hs <;> cases hs
      exact h.commit_newHead hwf (by split <;> rfl) (by split <;> rfl) (by split <;> rfl) _
  | newWorkChainHead =>
      simp only [Sys.step] at hs
      split at hs <;> cases hs
      exact h.commit_newHead hwf (by rfl) (by rfl) (by rfl) _
  | newWorkTimer =>
      obtain ⟨hpc, ⟨_, rfl⟩ | ⟨hnewTxs, rfl⟩⟩ := step_newWorkTimer hs
      · exact h.congr (fun _ => id) rfl rfl rfl id
      · exact h.commit_resubmit hwf hpc hnewTxs (by rfl) (by rfl) (by rfl) _
  | newWorkReset =>
      simp only [Sys.step] at hs
      split at hs <;> cases hs
      exact h.congr (fun _ hpc => by cases hpc) rfl rfl rfl (fun _ => .inr rfl)
  | newWorkExit =>
      simp only [Sys.step] at hs
      split at hs
      · split at hs <;> cases hs
        exact h.congr (fun _ hpc => by cases hpc) rfl rfl rfl (fun hg => .inr (by simp_all))
      · cases hs
  | newWorkSendExit =>
      simp only [Sys.step] at hs
      split at hs
      · split at hs <;> cases hs
        exact h.congr (fun _ hpc => by cases hpc) rfl rfl rfl (fun hg => .inr (by simp_all))
      · cases hs
  | generatePendingHeader header =>
      simp only [Sys.step] at hs
      split at hs <;> cases hs <;>
        exact h.congr (fun _ => id) rfl rfl rfl (fun _ => .inr (generatePendingHeader_newTxs ..))
  | mainNewWork =>
      obtain ⟨_, -, hpc, rfl⟩ := step_mainNewWork hs
      exact h.receive hpc (commitWork_mainOnly _ _)
  | mainChainSide =>
      obtain ⟨_, _, hmain, -, rfl⟩ := step_mainChainSide hs
      exact h.of_mainOnly (sideEvent_mainOnly (by exact hmain) _) rfl
  | mainCleanTick =>
      obtain ⟨hmain, rfl⟩ := step_mainCleanTick hs
      exact h.of_mainOnly (cleanTick_mainOnly hmain) rfl
  | mainTxs =>
      obtain ⟨_, _, hmain, -, rfl⟩ := step_mainTxs hs
      exact h.of_mainOnly (txsEvent_mainOnly (by exact hmain) _) rfl
  | mainExit =>
      obtain ⟨-, -, rfl⟩ := step_mainExit hs
      exact h.of_round rfl rfl fun _ hround => by cases hround
  | mainTaskExit =>
      obtain ⟨_, _, _, -, -, rfl⟩ := step_mainTaskExit hs
      exact h.of_mainOnly (afterCommit_mainOnly _).of_update rfl
  | mainRound =>
      rcases roundStep_cases hs with ⟨round, _, _, hmain, hm, hw⟩ |
        ⟨round, _, _, _, _, hmain, hint, -, rfl⟩ | ⟨round, _, _, hmain, -, rfl⟩
      · obtain ⟨hcells, hnew, -, hbatch⟩ := hm.frame
        exact h.of_round hnew hcells fun round' hround' =>
          ⟨round, by rw [hmain]; rfl, hbatch.round_interrupt hround', by rw [hw round' hround']⟩
      · exact h.of_round rfl rfl fun round' hround' =>
          ⟨round, by rw [hmain]; rfl, by cases hround'; exact hint, rfl⟩
      · obtain ⟨hcells, hnew, -, hbatch⟩ := (nextBatch_mainOnly round _).frame
        exact h.of_round hnew hcells fun round' hround' =>
          ⟨round, by rw [hmain]; rfl, hbatch.round_interrupt hround', by rw [nextBatch_worker hround']⟩
  | taskRecv =>
      exact h.of_mainOnly (taskRecv_mainOnly hs) rfl
  | _ =>
      simp only [Sys.step] at hs
      repeat' split at hs
      all_goals first
        | (cases hs; exact h.congr (fun _ => id) rfl rfl rfl id)
        | cases hs

/-- A round in flight does not read `commitInterruptResubmit`. -/
theorem cell_ne_resubmit (hwf : s.CellsWellFormed) {round : Round σ} {c : Nat}
    (hround : s.main.round = some round) (hc : round.interrupt = some c) :
    s.cell c ≠ .resubmit := by
  rcases h.round round c hround hc with ⟨hic, -⟩ | hcell
  · rw [(hwf c hic).2]
    decide
  · rw [hcell]
    decide

end RoundSignals

end Sys

/-- The interval `newWorkLoop` was last given, after one more action: a
`setRecommitInterval` replaces it, and every other action keeps it. -/
def intervalAfter (current : Int) : Action → Int
  | .setRecommitInterval interval => interval
  | _ => current

/-- The interval last set along a run that starts from `config.Recommit`. -/
def lastInterval (initial : Int) (actions : List Action) : Int :=
  actions.foldl intervalAfter initial

theorem intervalAfter_le {bound current : Int} (h : current ≤ bound) {a : Action}
    (hset : ∀ interval, a = .setRecommitInterval interval → interval ≤ bound) :
    intervalAfter current a ≤ bound := by
  unfold intervalAfter
  split
  · exact hset _ rfl
  · exact h

/-- When `config.Recommit` and every interval set are at most `bound`, so is the
last one. -/
theorem lastInterval_le {bound : Int} {actions : List Action} {initial : Int} (h : initial ≤ bound)
    (hset : ∀ interval, Action.setRecommitInterval interval ∈ actions → interval ≤ bound) :
    lastInterval initial actions ≤ bound := by
  induction actions generalizing initial with
  | nil => exact h
  | cons a actions ih =>
      exact ih (intervalAfter_le h fun interval ha => hset interval (ha ▸ List.mem_cons_self _ _))
        fun interval hmem => hset interval (List.mem_cons_of_mem _ hmem)

namespace Sys

variable {s s' : Sys σ ι}

/-- Every message on its way to `newWorkLoop` asks for a decrease, and
`newWorkLoop`'s interval variables are the pair set from `interval`. -/
structure AdjustDecreases (interval : Int) (s : Sys σ ι) : Prop where
  queued : ∀ msg ∈ s.resubmitAdjustCh, msg.inc = false
  sending : ∀ round msg rest, s.main = .adjust round msg rest → msg.inc = false
  interval : s.newWork.interval = RecommitState.ofInterval interval

namespace AdjustDecreases

variable {interval : Int} (h : s.AdjustDecreases interval)
include h

theorem congr (hch : s'.resubmitAdjustCh = s.resubmitAdjustCh)
    (hmain : ∀ round msg rest, s'.main = .adjust round msg rest → s.main = .adjust round msg rest)
    (hint : s'.newWork.interval = s.newWork.interval) :
    s'.AdjustDecreases interval :=
  ⟨hch ▸ h.queued, fun round msg rest hm => h.sending round msg rest (hmain round msg rest hm),
    hint ▸ h.interval⟩

omit h in
/-- A `MainOnly` change keeps the invariant, from a state whose buffer and
interval have it. -/
theorem of_mainOnly {s₀ : Sys σ ι} {interrupt : Option Nat} (hm : s₀.MainOnly interrupt s')
    (hq : ∀ msg ∈ s₀.resubmitAdjustCh, msg.inc = false)
    (hint : s₀.newWork.interval = RecommitState.ofInterval interval) :
    s'.AdjustDecreases interval := by
  obtain ⟨_, _, _, m, _, rfl, hbatch⟩ := hm
  refine ⟨hq, fun round msg rest hmain => ?_, hint⟩
  change m = _ at hmain
  subst hmain
  cases hbatch

/-- Every step keeps the invariant, for the interval after the step, from a
state where no round in flight reads `commitInterruptResubmit`. -/
theorem step (hres : ∀ round c, s.main.round = some round → round.interrupt = some c →
      s.cell c ≠ .resubmit)
    {a : Action} (hs : s.step b a = some s') :
    s'.AdjustDecreases (intervalAfter interval a) := by
  cases a with
  | newWorkAdjust =>
      simp only [Sys.step] at hs
      split at hs <;> cases hs
      rename_i msg rest _ hch
      have hinc := h.queued msg (by rw [hch]; exact List.mem_cons_self _ _)
      refine ⟨fun m hm => h.queued m (by rw [hch]; exact List.mem_cons_of_mem _ hm), h.sending, ?_⟩
      show s.newWork.interval.step (.adjust msg) = _
      rw [h.interval]
      exact RecommitState.ofInterval_adjust_dec interval msg hinc
  | setRecommitInterval interval' =>
      simp only [Sys.step] at hs
      split at hs <;> cases hs
      exact ⟨h.queued, h.sending, rfl⟩
  | mainNewWork =>
      obtain ⟨_, -, -, rfl⟩ := step_mainNewWork hs
      exact of_mainOnly (commitWork_mainOnly _ _) h.queued h.interval
  | mainChainSide =>
      obtain ⟨_, _, hmain, -, rfl⟩ := step_mainChainSide hs
      exact of_mainOnly (sideEvent_mainOnly (by exact hmain) _ : MainOnly none _ _) h.queued h.interval
  | mainCleanTick =>
      obtain ⟨hmain, rfl⟩ := step_mainCleanTick hs
      exact of_mainOnly (cleanTick_mainOnly hmain : MainOnly none _ _) h.queued h.interval
  | mainTxs =>
      obtain ⟨_, _, hmain, -, rfl⟩ := step_mainTxs hs
      exact of_mainOnly (txsEvent_mainOnly (by exact hmain) _) h.queued h.interval
  | mainTaskExit =>
      obtain ⟨_, _, _, -, -, rfl⟩ := step_mainTaskExit hs
      exact of_mainOnly ((afterCommit_mainOnly _).of_update : MainOnly none _ _) h.queued h.interval
  | taskRecv =>
      exact of_mainOnly (taskRecv_mainOnly hs : MainOnly none _ _) h.queued h.interval
  | mainRound =>
      rcases roundStep_cases hs with ⟨_, _, _, -, hm, -⟩ |
        ⟨round, _, _, _, _, hmain, -, hmsg, rfl⟩ | ⟨round, msg, _, hmain, -, rfl⟩
      · exact of_mainOnly hm h.queued h.interval
      · refine ⟨h.queued, fun _ _ _ hm => ?_, h.interval⟩
        cases hm
        rcases hmsg with rfl | ⟨hload, -⟩
        · rfl
        · obtain ⟨c, hc, hcell⟩ := Option.map_eq_some.mp hload
          exact absurd hcell (hres round c (by rw [hmain]; rfl) hc)
      · refine of_mainOnly (nextBatch_mainOnly _ _) (fun m hm => ?_) h.interval
        rcases List.mem_append.mp hm with hm | hm
        · exact h.queued m hm
        · rw [List.mem_singleton.mp hm]
          exact h.sending round msg _ hmain
  | _ =>
      simp only [Sys.step] at hs
      repeat' split at hs
      all_goals first
        | (cases hs; exact h.congr rfl (fun _ _ _ => id) rfl)
        | (cases hs; exact h.congr rfl (fun _ _ _ hm => by cases hm) rfl)
        | cases hs

end AdjustDecreases

end Sys

theorem Reachable.roundSignals {start : Bool} {s : Sys σ ι} (h : Reachable b start s) :
    s.RoundSignals := by
  induction h with
  | init =>
      exact ⟨fun _ hpc => (nomatch hpc), fun _ _ hround => (nomatch hround)⟩
  | step _ hr hs ih =>
      exact ih.step hr.cellsWellFormed hs

/-- In every reachable state, a round in flight does not read
`commitInterruptResubmit` from its cell: the resubmit signal only ever reaches
rounds that have returned. -/
theorem resubmit_never_loaded {start : Bool} {s : Sys σ ι} (h : Reachable b start s) :
    ∀ round txs rest c, s.main = .fill round txs rest → round.interrupt = some c →
      s.cell c ≠ .resubmit :=
  fun round _ _ _ hmain hc =>
    h.roundSignals.cell_ne_resubmit h.cellsWellFormed (by rw [hmain]; rfl) hc

/-- A round on a pool of one transaction, at the top of its first batch. -/
theorem resubmit_never_loaded_first_round :
    ∃ s round txs rest, (Sys.init basicBackend false).run basicBackend
        [.pool (.ok [(1, [sampleTx])]) [], .chainHead sampleHead, .newWorkChainHead, .mainNewWork] =
        some s ∧
      s.main = .fill round txs rest ∧ round.interrupt = some 0 ∧ s.cell 0 ≠ .resubmit := by
  obtain ⟨s, round, txs, rest, hrun, hmain, hc⟩ : ∃ s round txs rest,
      (Sys.init basicBackend false).run basicBackend
        [.pool (.ok [(1, [sampleTx])]) [], .chainHead sampleHead, .newWorkChainHead, .mainNewWork] =
        some s ∧ s.main = .fill round txs rest ∧ round.interrupt = some 0 :=
    ⟨_, _, _, _, rfl, rfl, rfl⟩
  exact ⟨s, round, txs, rest, hrun, hmain, hc,
    resubmit_never_loaded (Reachable.init.run hrun) round txs rest 0 hmain hc⟩

/-- The invariant holds initially, for `config.Recommit`. -/
theorem Sys.AdjustDecreases.init (start : Bool) : (Sys.init b start).AdjustDecreases b.recommit :=
  ⟨fun _ hm => (nomatch hm), fun _ _ _ hm => (nomatch hm), rfl⟩

/-- Along a run from a reachable state, the invariant follows the interval last
set. -/
theorem Reachable.adjustDecreases_run {start : Bool} {actions : List Action} {s s' : Sys σ ι}
    {interval : Int} (hr : Reachable b start s) (h : s.AdjustDecreases interval)
    (hrun : s.run b actions = some s') :
    s'.AdjustDecreases (lastInterval interval actions) := by
  induction actions generalizing s interval with
  | nil =>
      cases hrun
      exact h
  | cons a actions ih =>
      obtain ⟨s₁, h₁, hrun⟩ := Option.bind_eq_some.mp hrun
      exact ih (hr.step a h₁)
        (h.step (fun _ _ hround hc => hr.roundSignals.cell_ne_resubmit hr.cellsWellFormed hround hc) h₁)
        hrun

/-- The sanitized value of an interval of at most `2 ^ 53` ns is at most
`2 ^ 53` ns. -/
theorem sanitizeRecommit_le_two_pow {interval : Int} (h : interval ≤ 2 ^ 53) :
    sanitizeRecommit interval ≤ 2 ^ 53 := by
  unfold sanitizeRecommit minRecommitInterval
  split_ifs <;> omega

/-- On every run of a worker whose `config.Recommit` and user intervals are at
most `2 ^ 53` ns, every message on `resubmitAdjustCh` asks for a decrease, and
`newWorkLoop`'s `minRecommit` and `recommit` are both the sanitized value of the
last interval set, by `newWorker` or by `setRecommitInterval`: `recalcRecommit`
never moves `recommit` off `minRecommit`.  That value `m` stays at most
`2 ^ 53` ns, where a `float64` holds it exactly: Go's decrease computes
`0.9 * m + 0.1 * (m - 2e8)` with a rounding error far below the `2e7` ns by which
it falls short of `m`, clamps it to `m` and returns `m`, as the model does. -/
theorem recommit_never_adapts {start : Bool} {actions : List Action} {s : Sys σ ι}
    (hrun : (Sys.init b start).run b actions = some s)
    (hexact : b.recommit ≤ 2 ^ 53 ∧
      ∀ interval, Action.setRecommitInterval interval ∈ actions → interval ≤ 2 ^ 53) :
    (∀ msg ∈ s.resubmitAdjustCh, msg.inc = false) ∧
      s.newWork.interval = RecommitState.ofInterval (lastInterval b.recommit actions) ∧
      s.newWork.interval.recommit ≤ 2 ^ 53 := by
  have h := Reachable.init.adjustDecreases_run (Sys.AdjustDecreases.init start) hrun
  refine ⟨h.queued, h.interval, ?_⟩
  rw [h.interval]
  exact sanitizeRecommit_le_two_pow (lastInterval_le hexact.1 hexact.2)

/-- A user interval of half a second, sanitized to one second; then a round on
a pool of one transaction commits it, runs out of work and sends its decrease on
`resubmitAdjustCh`. -/
def decreaseSchedule : List Action :=
  [.setRecommitInterval 500000000, .pool (.ok [(1, [sampleTx])]) [], .chainHead sampleHead,
   .newWorkChainHead, .mainNewWork, .mainRound, .mainRound, .mainRound]

theorem recommit_never_adapts_decrease :
    ∃ s, (Sys.init basicBackend false).run basicBackend decreaseSchedule = some s ∧
      s.resubmitAdjustCh = [{ ratio := 0, inc := false }] ∧
      lastInterval basicBackend.recommit decreaseSchedule = 500000000 ∧
      (basicBackend.recommit ≤ 2 ^ 53 ∧
        ∀ interval, Action.setRecommitInterval interval ∈ decreaseSchedule → interval ≤ 2 ^ 53) ∧
      (∀ msg ∈ s.resubmitAdjustCh, msg.inc = false) ∧
        s.newWork.interval = RecommitState.ofInterval (lastInterval basicBackend.recommit decreaseSchedule) ∧
        s.newWork.interval.recommit ≤ 2 ^ 53 := by
  obtain ⟨s, hrun, hch⟩ : ∃ s, (Sys.init basicBackend false).run basicBackend decreaseSchedule =
      some s ∧ s.resubmitAdjustCh = [{ ratio := 0, inc := false }] :=
    ⟨_, rfl, rfl⟩
  have hexact : basicBackend.recommit ≤ 2 ^ 53 ∧
      ∀ interval, Action.setRecommitInterval interval ∈ decreaseSchedule → interval ≤ 2 ^ 53 := by
    refine ⟨by decide, fun interval hmem => ?_⟩
    simp only [decreaseSchedule, List.mem_cons, Action.setRecommitInterval.injEq, reduceCtorEq,
      List.mem_singleton, List.not_mem_nil, or_false] at hmem
    omega
  exact ⟨s, hrun, hch, rfl, hexact, recommit_never_adapts hrun hexact⟩

end Resubmit

end QuaiWorker
