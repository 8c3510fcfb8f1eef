import QuaiWorker.Signals
import QuaiWorker.Handover

/-!
# Shutting the worker down

`close` stores `running = 0`, closes `exitCh` and waits on `wg` until the three
goroutines have returned.  `taskLoop` returns from its `select` on `exitCh`;
`newWorkLoop` returns from its `select`, and leaves a pending send on
`newWorkCh` through `exitCh`; `mainLoop` returns from its `select`, so only
once the round it may be in is over.

**The round.**  A round of `commitWork` ends on its own: every iteration of
`commitTransactions`' loop that goes on shrinks the iterator, `fillTransactions`
runs at most two batches, and `commit` hands its task over or returns on
`exitCh`.  One operation can wait for good: the send on `resubmitAdjustCh`,
whose only receiver is `newWorkLoop`.  While `newWorkLoop` is in its `select`
it can always take a message from the buffer, so the send can always be made.

**Starting again.**  `start` stores `running = 1` and sends on `startCh`, whose
one slot only `newWorkLoop`'s `select` empties.  Once `newWorkLoop` has
returned on `exitCh` with a start left in the slot (one sent after `close`, or
`newWorker`'s own when `exitCh` won the `select`), the next `start` waits for
good.

**Results.**
* `Sys.ShutsDown`: the goroutines' own steps can make all three return.
* `Sys.shutsDown_fill`, `Sys.shutsDown_adjust`: a batch in progress, and a
  round waiting on its send, come to an end, by induction on the iterator's
  size and on the buffer.
* `close_can_return`: from every state in which `exitCh` is closed and
  `newWorkLoop` has not returned, the three goroutines can all return, so
  `close` can return.  When `newWorkLoop` returns first, a round waiting on a
  full buffer never moves again (`Sys.Stranded.step`).
* `Sys.StartStuck.step`, `start_blocks_after_exit`: once `newWorkLoop` has
  returned with `startCh` full, no run lets a `start` complete.
-/

namespace QuaiWorker

section Shutdown

variable {σ ι : Type} {b : Backend σ ι}

/-- The steps of the worker's three goroutines, as opposed to the chain's, the
pool's and the callers'. -/
def Action.isGoroutine : Action → Bool
  | .newWorkStart | .newWorkChainHead | .newWorkTimer | .newWorkAdjust | .newWorkExit
  | .newWorkSendExit | .newWorkReset | .mainNewWork | .mainChainSide | .mainCleanTick
  | .mainTxs | .mainExit | .mainRound | .mainTaskExit | .taskRecv | .taskExit => true
  | _ => false

namespace Sys

/-- The goroutines' own steps can make `mainLoop`, `newWorkLoop` and `taskLoop`
return, so that `close`'s `wg.Wait` returns. -/
def ShutsDown (b : Backend σ ι) (s : Sys σ ι) : Prop :=
  ∃ actions s', (∀ a ∈ actions, a.isGoroutine) ∧ s.run b actions = some s' ∧
    s'.main = .done ∧ s'.newWork.pc = .done ∧ s'.taskLoop.done

variable {s t : Sys σ ι}

/-- A goroutine step to a state that can shut down. -/
theorem ShutsDown.of_step {a : Action} (ha : a.isGoroutine) (hs : s.step b a = some t)
    (h : t.ShutsDown b) : s.ShutsDown b := by
  obtain ⟨actions, s', hg, hrun, hdone⟩ := h
  refine ⟨a :: actions, s', List.forall_mem_cons.mpr ⟨ha, hg⟩, ?_, hdone⟩
  rw [run, hs]
  exact hrun

/-- `exitCh` is closed and `newWorkLoop` is in its `select`. -/
structure Closing (s : Sys σ ι) : Prop where
  closed : s.exitClosed = true
  select : s.newWork.pc = .select

/-- What only `mainLoop` and `taskLoop` change keeps `Closing`. -/
theorem Closing.of_mainOnly (h : s.Closing) (hm : s.MainOnly none t) :
    t.Closing := by
  obtain ⟨_, _, _, _, _, rfl, -⟩ := hm
  exact ⟨h.closed, h.select⟩

@[simp] theorem afterCommit_main (after : AfterCommit σ) : (s.afterCommit after).main = .select := by
  cases after <;> rfl

/-- Once `mainLoop` has returned, `newWorkLoop` and `taskLoop` return on `exitCh`. -/
theorem shutsDown_of_main_done (h : s.Closing) (hmain : s.main = .done) : s.ShutsDown b := by
  cases htask : s.taskLoop.done
  · exact ⟨[.newWorkExit, .taskExit],
      { s with newWork := { s.newWork with pc := .done }, taskLoop := { s.taskLoop with done := true } },
      by decide, by simp [run, step, h.select, h.closed, htask], hmain, rfl, rfl⟩
  · exact ⟨[.newWorkExit], { s with newWork := { s.newWork with pc := .done } }, by decide,
      by simp [run, step, h.select, h.closed], hmain, rfl, htask⟩

/-- `mainLoop` in its `select` returns on `exitCh`. -/
theorem shutsDown_of_main_select (h : s.Closing) (hmain : s.main = .select) : s.ShutsDown b := by
  obtain ⟨t, hs⟩ := Option.isSome_iff_exists.mp (by simp [step, hmain, h.closed] :
    (s.step b .mainExit).isSome)
  obtain ⟨-, -, rfl⟩ := step_mainExit hs
  exact ShutsDown.of_step (a := .mainExit) rfl hs (shutsDown_of_main_done ⟨h.closed, h.select⟩ rfl)

/-- `mainLoop` in no round returns, after finishing `commit` if it is there. -/
theorem shutsDown_of_idle (h : s.Closing) (hround : s.main.round = none) : s.ShutsDown b := by
  cases hmain : s.main with
  | select => exact shutsDown_of_main_select h hmain
  | task task env after =>
      exact ShutsDown.of_step (a := .mainTaskExit) (t := (s.withSnapshot env).afterCommit after) rfl
        (by simp [step, hmain, h.closed])
        (shutsDown_of_main_select (h.of_mainOnly (afterCommit_mainOnly after))
          (afterCommit_main after))
  | done => exact shutsDown_of_main_done h hmain
  | fill => simp [hmain, MainPc.round] at hround
  | adjust => simp [hmain, MainPc.round] at hround

/-- `commit` ends the round. -/
theorem shutsDown_commitEnv (h : s.Closing) (env : Environment σ) (after : AfterCommit σ) :
    (s.commitEnv b env after).ShutsDown b :=
  shutsDown_of_idle (h.of_mainOnly (commitEnv_mainOnly env after))
    (commitEnv_round env after)

/-- A step of a batch in progress can always be taken. -/
theorem roundStep_fill_isSome {round : Round σ} {txs : ι}
    {rest : List (List (Address × List Transaction))} (hmain : s.main = .fill round txs rest) :
    ∃ s', s.roundStep b = some s' := by
  simp only [roundStep, hmain]
  split
  · exact ⟨_, rfl⟩
  · split <;> exact ⟨_, rfl⟩
  · exact ⟨_, rfl⟩
  · exact ⟨_, rfl⟩

section Batches

variable {rest : List (List (Address × List Transaction))}
  (hnext : ∀ (s : Sys σ ι) round, s.Closing → (s.nextBatch b round rest).ShutsDown b)
include hnext

/-- A round waiting to send on `resubmitAdjustCh`: while the buffer is full,
`newWorkLoop` takes a message, and then the send goes through. -/
theorem shutsDown_adjust (buffer : List IntervalAdjust) :
    ∀ (s : Sys σ ι) round msg, s.resubmitAdjustCh = buffer → s.Closing →
      s.main = .adjust round msg rest → s.ShutsDown b := by
  have hsend : ∀ (s : Sys σ ι) round msg, s.resubmitAdjustCh.length < resubmitAdjustChanSize →
      s.Closing → s.main = .adjust round msg rest → s.ShutsDown b := by
    intro s round msg hroom h hmain
    let t : Sys σ ι := { s with resubmitAdjustCh := s.resubmitAdjustCh ++ [msg] }
    exact ShutsDown.of_step (a := .mainRound) (t := t.nextBatch b round rest) rfl
      (by simp [step, roundStep, hmain, hroom, t]) (hnext t round ⟨h.closed, h.select⟩)
  induction buffer with
  | nil =>
      intro s round msg hbuf h hmain
      exact hsend s round msg (by simp [hbuf, resubmitAdjustChanSize]) h hmain
  | cons m ms ih =>
      intro s round msg hbuf h hmain
      by_cases hroom : s.resubmitAdjustCh.length < resubmitAdjustChanSize
      · exact hsend s round msg hroom h hmain
      · let t : Sys σ ι := { s with
          resubmitAdjustCh := ms
          newWork := { s.newWork with interval := s.newWork.interval.step (.adjust m) } }
        exact ShutsDown.of_step (a := .newWorkAdjust) (t := t) rfl
          (by simp [step, h.select, hbuf, t]) (ih t round msg rfl ⟨h.closed, h.select⟩ hmain)

/-- A batch in progress runs to its end, by induction on the iterator's size:
an iteration that goes on shrinks the iterator, and one that stops moves to the
send, to the next batch or to `commit`. -/
theorem shutsDown_fill (n : Nat) :
    ∀ (s : Sys σ ι) round txs, b.iter.size txs = n → s.Closing →
      s.main = .fill round txs rest → s.ShutsDown b := by
  induction n using Nat.strong_induction_on with
  | _ n ih =>
    intro s round txs hsize h hmain
    obtain ⟨t, hs⟩ := roundStep_fill_isSome hmain
    refine ShutsDown.of_step (a := .mainRound) rfl hs ?_
    have h' : ∀ main, ({ s with main } : Sys σ ι).Closing := fun _ => ⟨h.closed, h.select⟩
    rcases roundStep_some hs with
      ⟨round', txs', rest', work, txs'', hm, hstep, rfl⟩ |
      ⟨round', txs', rest', work, hm, -, -, rfl⟩ |
      ⟨round', txs', rest', work, hm, -, -, rfl⟩ |
      ⟨round', txs', rest', result, hm, -, rfl⟩ |
      ⟨round', txs', rest', msg, result, hm, -, rfl⟩ |
      ⟨round', msg, rest', hm, -, rfl⟩ <;>
      rw [hmain] at hm <;> cases hm
    · exact ih _ (hsize ▸ commitTransactionsStep_size hstep) _ _ _ rfl (h' _) rfl
    · exact shutsDown_adjust hnext _ _ _ _ rfl (h' _) rfl
    · exact hnext _ _ h
    · exact shutsDown_commitEnv h _ _
    · exact shutsDown_adjust hnext _ _ _ _ rfl (h' _) rfl

end Batches

/-- `fillTransactions` from any batch on runs to `commit`: by induction on the
batches left. -/
theorem shutsDown_nextBatch (rest : List (List (Address × List Transaction))) :
    ∀ (s : Sys σ ι) round, s.Closing → (s.nextBatch b round rest).ShutsDown b := by
  induction rest with
  | nil => exact fun s round h => shutsDown_commitEnv h _ _
  | cons txs rest ih =>
      exact fun s round h => shutsDown_fill ih _ _ _ _ rfl ⟨h.closed, h.select⟩ rfl

end Sys

/-- From every state in which `exitCh` is closed and `newWorkLoop` has not
returned, the goroutines' own steps can make `mainLoop`, `newWorkLoop` and
`taskLoop` all return, so that `close` returns from `wg.Wait`: `newWorkLoop`
leaves a pending send through `exitCh` and stays in its `select`, draining
`resubmitAdjustCh` whenever `mainLoop`'s send would wait, while `mainLoop`
finishes its round. -/
theorem close_can_return (b : Backend σ ι) (s : Sys σ ι) (hclosed : s.exitClosed = true)
    (hloop : s.newWork.pc ≠ .done) :
    ∃ actions s', (∀ a ∈ actions, a.isGoroutine) ∧ s.run b actions = some s' ∧
      s'.main = .done ∧ s'.newWork.pc = .done ∧ s'.taskLoop.done := by
  have hmain : ∀ s : Sys σ ι, s.Closing → s.ShutsDown b := by
    intro s h
    cases hm : s.main with
    | fill round txs rest =>
        exact Sys.shutsDown_fill (Sys.shutsDown_nextBatch rest) _ s round txs rfl h hm
    | adjust round msg rest =>
        exact Sys.shutsDown_adjust (Sys.shutsDown_nextBatch rest) _ s round msg rfl h hm
    | _ => exact Sys.shutsDown_of_idle h (by simp [hm, MainPc.round])
  cases hpc : s.newWork.pc with
  | select => exact hmain s ⟨hclosed, hpc⟩
  | send req =>
      exact Sys.ShutsDown.of_step (a := .newWorkSendExit)
        (t := { s with newWork := { s.newWork with pc := .select } }) rfl
        (by simp [Sys.step, hpc, hclosed]) (hmain _ ⟨hclosed, rfl⟩)
  | reset =>
      exact Sys.ShutsDown.of_step (a := .newWorkReset)
        (t := { s with
          worker := { s.worker with newTxs := 0 }
          newWork := { s.newWork with pc := .select, timerArmed := true } }) rfl
        (by simp [Sys.step, hpc]) (hmain _ ⟨hclosed, rfl⟩)
  | done => exact absurd hpc hloop

/-- `close` on the deadlock of `deadlockSchedule`: `newWorkLoop` leaves its send
to `newWorkCh`, takes messages from the full buffer, and all three goroutines
return. -/
theorem close_can_return_deadlock :
    ∃ s, (Sys.init basicBackend false).run basicBackend (deadlockSchedule ++ [Action.close]) = some s ∧
      s.main.round.isSome ∧ resubmitAdjustChanSize ≤ s.resubmitAdjustCh.length ∧
      s.exitClosed = true ∧ s.newWork.pc ≠ .done ∧
      ∃ actions s', (∀ a ∈ actions, a.isGoroutine) ∧ s.run basicBackend actions = some s' ∧
        s'.main = .done ∧ s'.newWork.pc = .done ∧ s'.taskLoop.done := by
  obtain ⟨s, hrun, hround, hfull, hclosed, req, hsend⟩ : ∃ s,
      (Sys.init basicBackend false).run basicBackend (deadlockSchedule ++ [Action.close]) = some s ∧
        s.main.round.isSome ∧ resubmitAdjustChanSize ≤ s.resubmitAdjustCh.length ∧
        s.exitClosed = true ∧ ∃ req, s.newWork.pc = .send req :=
    ⟨_, rfl, rfl, by decide, rfl, _, rfl⟩
  have hloop : s.newWork.pc ≠ .done := by
    rw [hsend]
    exact NewWorkPc.noConfusion
  exact ⟨s, hrun, hround, hfull, hclosed, hloop, close_can_return basicBackend s hclosed hloop⟩

namespace Sys

/-- `newWorkLoop` has returned, and `startCh`'s one slot holds a start that no
one will take. -/
structure StartStuck (s : Sys σ ι) : Prop where
  newWork_done : s.newWork.pc = .done
  start_full : s.startCh = true

variable {s t : Sys σ ι}

/-- What only `mainLoop` and `taskLoop` change, from a state with the same
`newWorkLoop` and `startCh`, keeps `StartStuck`. -/
theorem StartStuck.of_mainOnly {s₀ : Sys σ ι} {interrupt : Option Nat} (h : s.StartStuck)
    (hm : s₀.MainOnly interrupt t) (hnew : s₀.newWork = s.newWork) (hstart : s₀.startCh = s.startCh) :
    t.StartStuck := by
  obtain ⟨_, _, _, _, _, rfl, -⟩ := hm
  exact ⟨(congrArg NewWorkLoop.pc hnew).trans h.newWork_done, hstart.trans h.start_full⟩

/-- Every step keeps `StartStuck`: `newWorkLoop`'s steps and `start` are not
enabled, and the other steps leave `newWorkLoop` and `startCh` alone. -/
theorem StartStuck.step {a : Action} (h : s.StartStuck) (hs : s.step b a = some t) : t.StartStuck := by
  cases a with
  | mainNewWork =>
      obtain ⟨_, -, hpc, -⟩ := step_mainNewWork hs
      exact NewWorkPc.noConfusion (h.newWork_done.symm.trans hpc)
  | mainChainSide =>
      obtain ⟨_, _, hmain, -, rfl⟩ := step_mainChainSide hs
      exact h.of_mainOnly (sideEvent_mainOnly (by exact hmain) _ : MainOnly none _ _) rfl rfl
  | mainCleanTick =>
      obtain ⟨hmain, rfl⟩ := step_mainCleanTick hs
      exact h.of_mainOnly (cleanTick_mainOnly hmain : MainOnly none _ _) rfl rfl
  | mainTxs =>
      obtain ⟨_, _, hmain, -, rfl⟩ := step_mainTxs hs
      exact h.of_mainOnly (txsEvent_mainOnly (by exact hmain) _) rfl rfl
  | mainExit =>
      obtain ⟨-, -, rfl⟩ := step_mainExit hs
      exact ⟨h.newWork_done, h.start_full⟩
  | mainTaskExit =>
      obtain ⟨_, _, _, -, -, rfl⟩ := step_mainTaskExit hs
      exact h.of_mainOnly ((afterCommit_mainOnly _).of_update : MainOnly none _ _) rfl rfl
  | mainRound =>
      rcases roundStep_cases hs with ⟨_, _, _, -, hm, -⟩ | ⟨_, _, _, _, _, -, -, -, rfl⟩ |
        ⟨_, _, _, -, -, rfl⟩
      · exact h.of_mainOnly hm rfl rfl
      · exact ⟨h.newWork_done, h.start_full⟩
      · exact h.of_mainOnly (nextBatch_mainOnly _ _) rfl rfl
  | taskRecv => exact h.of_mainOnly (taskRecv_mainOnly hs : MainOnly none _ _) rfl rfl
  | start => simp [Sys.step, h.start_full] at hs
  | _ =>
      simp only [Sys.step, h.newWork_done] at hs
      repeat' split at hs
      all_goals first
        | (cases hs; exact ⟨h.newWork_done, h.start_full⟩)
        | cases hs

end Sys

/-- Once `newWorkLoop` has returned with a start left in `startCh`, no later
`start` completes, along every run: its send on `startCh` waits for good. -/
theorem start_blocks_after_exit {b : Backend σ ι} {s t : Sys σ ι} {actions : List Action}
    (hdone : s.newWork.pc = .done) (hfull : s.startCh = true) (hrun : s.run b actions = some t) :
    t.step b .start = none := by
  have h := Sys.run_invariant Sys.StartStuck (fun _ _ _ _ h hs => h.step hs) ⟨hdone, hfull⟩ hrun
  simp [Sys.step, h.start_full]

/-- `newWorker(..., init = true)` then `close` before `newWorkLoop` has taken
its start: `newWorkLoop` returns on `exitCh` with the start still in
`startCh`, and once `mainLoop` and `taskLoop` have returned too, `start`
waits for good. -/
theorem start_blocks_after_exit_init :
    ∃ s t, (Sys.init basicBackend true).run basicBackend [.close, .newWorkExit] = some s ∧
      s.newWork.pc = .done ∧ s.startCh = true ∧
      s.run basicBackend [.mainExit, .taskExit] = some t ∧ t.step basicBackend .start = none := by
  obtain ⟨s, t, hs, hdone, hfull, ht⟩ : ∃ s t,
      (Sys.init basicBackend true).run basicBackend [.close, .newWorkExit] = some s ∧
        s.newWork.pc = .done ∧ s.startCh = true ∧ s.run basicBackend [.mainExit, .taskExit] = some t :=
    ⟨_, _, rfl, rfl, rfl, rfl⟩
  exact ⟨s, t, hs, hdone, hfull, ht, start_blocks_after_exit hdone hfull ht⟩

end Shutdown

end QuaiWorker
