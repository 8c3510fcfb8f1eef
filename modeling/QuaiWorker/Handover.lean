import QuaiWorker.System

/-!
# The hand-over between `newWorkLoop` and `mainLoop`

`newWorkLoop`'s `commit` helper stores a signal into the old interrupt cell,
hands a request to `mainLoop` over the unbuffered `newWorkCh` (or gives up on
`exitCh`), and only then re-arms its timer and stores zero into `newTxs`.
`mainLoop` reports back on `resubmitAdjustCh` with a plain send.

**Deadlock.**  The send on `resubmitAdjustCh` waits while the buffer of
`resubmitAdjustChanSize` messages is full, and its only receiver is a case of
`newWorkLoop`'s `select`.  A round posts up to two messages, and the `select`
may take chain-head events while messages wait: five rounds fill the buffer,
the sixth stops `mainLoop` on its send, and the next chain-head event stops
`newWorkLoop` on `newWorkCh`, whose only receiver is `mainLoop`'s `select`.

**Lost arrivals.**  Between the hand-over and the store of zero, `mainLoop` can
run the whole round and count a transaction event; the store erases it.

**Results.**
* `Sys.Deadlocked.step`: from such a deadlock, no step but `close` moves either
  loop or frees the buffer.
* `Sys.Stranded.step`: once `newWorkLoop` has returned on `exitCh`, `mainLoop`
  never leaves its send, so `close`'s `wg.Wait` never returns.
* `adjust_send_deadlock`: a schedule from `newWorker` reaches the deadlock, and
  `close` then strands `mainLoop`.
* `newTxs_reset_loses_arrival`: a schedule in which an arrival counted after
  the hand-over is erased, and the next tick does not resubmit.
-/

namespace QuaiWorker

section Handover

variable {σ ι : Type} {b : Backend σ ι} {s s' : Sys σ ι} {a : Action}

namespace Sys

/-- `mainLoop` waits on its send to a full `resubmitAdjustCh`. -/
structure AdjustBlocked (s : Sys σ ι) : Prop where
  main_adjust : ∃ round msg rest, s.main = .adjust round msg rest
  full : resubmitAdjustChanSize ≤ s.resubmitAdjustCh.length

/-- `mainLoop` waits on `resubmitAdjustCh` while `newWorkLoop` waits on
`newWorkCh`, and `exitCh` is open. -/
structure Deadlocked (s : Sys σ ι) : Prop where
  main_blocked : s.AdjustBlocked
  newWork_send : ∃ req, s.newWork.pc = .send req
  exit_open : s.exitClosed = false

/-- `mainLoop` waits on `resubmitAdjustCh` after `newWorkLoop` returned. -/
structure Stranded (s : Sys σ ι) : Prop where
  main_blocked : s.AdjustBlocked
  newWork_done : s.newWork.pc = .done

/-- Every step but `close` keeps a deadlock, and moves neither loop. -/
theorem Deadlocked.step (h : s.Deadlocked) (hs : s.step b a = some s') (ha : a ≠ .close) :
    s'.Deadlocked ∧ s'.main = s.main ∧ s'.newWork.pc = s.newWork.pc := by
  obtain ⟨⟨⟨round, msg, rest, hmain⟩, hfull⟩, ⟨req, hpc⟩, hopen⟩ := h
  cases a <;> simp only [Sys.step, hmain, hpc, hopen, roundStep, taskRecv, reduceCtorEq] at hs <;>
    (repeat' split at hs) <;> (try cases hs) <;>
    first
    | omega
    | contradiction
    | exact absurd rfl ha
    | (refine ⟨⟨⟨⟨round, msg, rest, ?_⟩, hfull⟩, ⟨req, ?_⟩, ?_⟩, ?_, ?_⟩ <;>
        simp only [hmain, hpc, hopen])

/-- Every step keeps `mainLoop` stranded. -/
theorem Stranded.step (h : s.Stranded) (hs : s.step b a = some s') :
    s'.Stranded ∧ s'.main = s.main := by
  obtain ⟨⟨⟨round, msg, rest, hmain⟩, hfull⟩, hpc⟩ := h
  cases a <;> simp only [Sys.step, hmain, hpc, roundStep, taskRecv, reduceCtorEq] at hs <;>
    (repeat' split at hs) <;> (try cases hs) <;>
    first
    | omega
    | exact ⟨⟨⟨⟨round, msg, rest, rfl⟩, hfull⟩, hpc⟩, hmain.symm⟩

end Sys

/-- One round on a chain-head event with one local and one remote sender, each
with one transaction: the request is handed over, `newWorkLoop` resets, and
`mainLoop` commits each batch's transaction, finds the batch empty and posts
`intervalAdjust{inc: false}`, then commits the block. -/
def fullRound : List Action :=
  [.chainHead sampleHead, .newWorkChainHead, .mainNewWork, .newWorkReset,
   .mainRound, .mainRound, .mainRound, .mainRound, .mainRound, .mainRound]

/-- The pool, five full rounds that leave ten messages in `resubmitAdjustCh`
(`newWorkLoop` takes the chain-head events instead), a sixth round up to its
first send, and a seventh chain-head event taken by `newWorkLoop`. -/
def deadlockSchedule : List Action :=
  [.pool (.ok [(1, [{ hash := 1, sender := 1, nonce := 0, replayProtected := false }]),
      (2, [{ hash := 2, sender := 2, nonce := 0, replayProtected := false }])]) [1]] ++
    (List.replicate 5 fullRound).flatten ++
    [.chainHead sampleHead, .newWorkChainHead, .mainNewWork, .newWorkReset, .mainRound, .mainRound,
     .chainHead sampleHead, .newWorkChainHead]

/-- A reachable deadlock: `mainLoop` waits on a full `resubmitAdjustCh` and
`newWorkLoop` on `newWorkCh`, and no run without `close` moves either loop.
After `close`, `newWorkLoop` may return on `exitCh`, and then no run ever moves
`mainLoop`, so `close` never returns from `wg.Wait`. -/
theorem adjust_send_deadlock :
    ∃ s, (Sys.init basicBackend false).run basicBackend deadlockSchedule = some s ∧
      s.Deadlocked ∧
      (∀ actions s', (∀ a ∈ actions, a ≠ .close) → s.run basicBackend actions = some s' →
        s'.main = s.main ∧ s'.newWork.pc = s.newWork.pc) ∧
      ∃ s', s.run basicBackend [.close, .newWorkSendExit, .newWorkExit] = some s' ∧
        ∀ actions s'', s'.run basicBackend actions = some s'' → s''.main = s.main := by
  obtain ⟨s, hrun, hdead⟩ : ∃ s, (Sys.init basicBackend false).run basicBackend deadlockSchedule =
      some s ∧ s.Deadlocked :=
    ⟨_, rfl, ⟨⟨_, _, _, rfl⟩, by decide⟩, ⟨_, rfl⟩, rfl⟩
  refine ⟨s, hrun, hdead, fun actions s' hclose hrun' => ?_, ?_⟩
  · refine (Sys.run_invariant
      (fun s' => s'.Deadlocked ∧ s'.main = s.main ∧ s'.newWork.pc = s.newWork.pc)
      (fun a ha s₁ s₂ ⟨h₁, hmain, hpc⟩ hs =>
        let ⟨h₂, hmain', hpc'⟩ := h₁.step hs (hclose a ha)
        ⟨h₂, hmain'.trans hmain, hpc'.trans hpc⟩) ?_ hrun').2
    exact ⟨hdead, rfl, rfl⟩
  · obtain ⟨⟨⟨round, msg, rest, hmain⟩, hfull⟩, ⟨req, hpc⟩, hopen⟩ := hdead
    refine ⟨{ s with
        worker := { s.worker with running := false }
        exitClosed := true
        newWork := { s.newWork with pc := .done } }, ?_, fun actions s'' hrun' => ?_⟩
    · simp [Sys.run, Sys.step, hpc, hopen]
    · refine (Sys.run_invariant (fun s' => s'.Stranded ∧ s'.main = s.main)
        (fun _ _ s₁ s₂ ⟨h₁, hmain⟩ hs =>
          let ⟨h₂, hmain'⟩ := h₁.step hs
          ⟨h₂, hmain'.trans hmain⟩) ?_ hrun').2
      exact ⟨⟨⟨⟨round, msg, rest, hmain⟩, hfull⟩, rfl⟩, rfl⟩

/-- A running worker whose `newWorkLoop` has taken a chain-head event and waits
to hand the request over. -/
def lostArrivalPrefix : List Action :=
  [.setEtherbase 7, .start, .chainHead sampleHead, .newWorkChainHead]

/-- `mainLoop` takes the request, runs the round (an empty pool) and hands its
task to `taskLoop`, then counts a transaction event; `newWorkLoop`'s reset comes
after and erases the count, so the next tick does not resubmit. -/
theorem newTxs_reset_loses_arrival :
    ∃ s₀ s₁ s₂, (Sys.init basicBackend false).run basicBackend lostArrivalPrefix = some s₀ ∧
      (∃ req, s₀.newWork.pc = .send req) ∧
      s₀.run basicBackend [.mainNewWork, .taskRecv, .newTxs [sampleTx], .mainTxs] = some s₁ ∧
      s₁.worker.newTxs = 1 ∧
      s₁.step basicBackend .newWorkReset = some s₂ ∧
      s₂.newWork.pc = .select ∧ s₂.worker.running = true ∧ s₂.worker.newTxs = 0 ∧
      ∃ s₃, s₂.step basicBackend .newWorkTimer = some s₃ ∧ s₃.newWork.pc = .select ∧
        s₃.cells = s₂.cells :=
  ⟨_, _, _, rfl, ⟨_, rfl⟩, rfl, rfl, rfl, rfl, rfl, rfl, _, rfl, rfl, rfl⟩

end Handover

end QuaiWorker
