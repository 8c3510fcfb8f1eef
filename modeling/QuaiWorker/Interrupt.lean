import QuaiWorker.System

/-!
# What a round does after a new-head interrupt

When `newWorkLoop`'s `commit` helper stores `commitInterruptNewHead` into the
cell of a round in flight, the round's next load returns it and
`commitTransactions` returns `true`.  `fillTransactions` passes that on by
returning early, and `commitWork` ignores it: it goes on to
`commit(work.copy(), ...)` and `w.current = work`, as after a round that ran to
completion.

**Results.**
* `Sys.step_mainRound_newHead`: a round step that loads
  `commitInterruptNewHead` is `commit` of the round's environment, followed by
  its installation.
* `Sys.newHead_round_handoff`: on a running worker, that `commit` hands the
  partial block to `taskLoop`, publishes it and installs the partial
  environment as `w.current`.
* `newHead_round_committed`: a schedule in which the interrupted round's partial
  block is sent to `taskLoop`, published as the snapshot and installed as
  `w.current`.
-/

namespace QuaiWorker

section Interrupt

variable {σ ι : Type} {b : Backend σ ι} {s : Sys σ ι}

namespace Sys

/-- A load of `commitInterruptNewHead` ends the round in `commit` of its
environment, then installs it as `w.current`. -/
theorem step_mainRound_newHead {round : Round σ} {txs : ι}
    {rest : List (List (Address × List Transaction))}
    (hmain : s.main = .fill round txs rest) (hload : round.interrupt.map s.cell = some .newHead) :
    s.step b .mainRound =
      some (s.commitEnv b round.work.copy (.install round.work round.addTxs)) := by
  simp [Sys.step, roundStep, hmain, hload, commitTransactionsStep]

/-- On a running worker whose `taskLoop` waits, a load of
`commitInterruptNewHead` does not discard the round: `commit` assembles the
partial environment's copy, `taskLoop` records the block under its seal hash,
`updateSnapshot` publishes the copy, and the partial environment becomes
`w.current`. -/
theorem newHead_round_handoff {round : Round σ} {txs : ι}
    {rest : List (List (Address × List Transaction))} {block : Block}
    (hmain : s.main = .fill round txs rest) (hload : round.interrupt.map s.cell = some .newHead)
    (hrunning : s.worker.running = true) (hready : s.taskLoop.done = false)
    (hblock : let cpy := round.work.copy.copy
      b.finalizeAndAssemble cpy.header cpy.state cpy.txs cpy.unclelist cpy.receipts = .ok block) :
    ∃ s', s.run b [.mainRound, .taskRecv] = some s' ∧ s'.worker.current = some round.work ∧
      s'.worker.snapshot = some (updateSnapshot round.work.copy) ∧
      ∃ task ∈ s'.worker.pendingTasks, task.2.block = block := by
  -- `commit` waits on `taskCh` with the assembled block
  have hcommit : s.commitEnv b round.work.copy (.install round.work round.addTxs) =
      { s with
        main := .task
          { receipts := round.work.copy.copy.receipts, state := round.work.copy.copy.state, block
            createdAt := s.now }
          round.work.copy (.install round.work round.addTxs) } := by
    simp only [commitEnv, hrunning, if_true]
    rw [hblock]
  rw [run, step_mainRound_newHead hmain hload, Option.some_bind, hcommit]
  simp only [run, step, taskRecv, hready, Bool.false_eq_true, if_false, Option.some_bind, Option.bind_some]
  exact ⟨_, rfl, rfl, rfl, _, List.mem_cons_self _ _, rfl⟩

end Sys

/-- A running worker with one remote sender and one transaction: the first
round commits the transaction, and a chain-head event then sets the round's
cell to `commitInterruptNewHead`. -/
def newHeadSchedule : List Action :=
  [.pool (.ok [(1, [{ hash := 1, sender := 1, nonce := 0, replayProtected := false }])]) [],
   .setEtherbase 7, .start, .chainHead sampleHead, .newWorkChainHead, .mainNewWork,
   .newWorkReset, .mainRound, .chainHead sampleHead, .newWorkChainHead]

/-- A round whose cell reads `commitInterruptNewHead` after it committed a
transaction: its next step sends a task with the partial block to `taskLoop`,
publishes the partial block as the snapshot and installs the partial
environment as `w.current`. -/
theorem newHead_round_committed :
    ∃ s round txs rest c, (Sys.init basicBackend false).run basicBackend newHeadSchedule = some s ∧
      s.main = .fill round txs rest ∧ round.interrupt = some c ∧ s.cell c = .newHead ∧
      round.work.txs ≠ [] ∧
      ∃ s', s.run basicBackend [.mainRound, .taskRecv] = some s' ∧
        s'.worker.current = some round.work ∧
        s'.worker.snapshot = some (updateSnapshot round.work.copy) ∧
        ∃ task ∈ s'.worker.pendingTasks, task.2.block.transactions = round.work.txs := by
  -- the state the schedule reaches, and the round in flight there
  have hsome : ((Sys.init basicBackend false).run basicBackend newHeadSchedule).isSome := by decide
  let s := ((Sys.init basicBackend false).run basicBackend newHeadSchedule).get hsome
  have hmain : s.main = .fill _ _ _ := rfl
  obtain ⟨s', hrun, hcurrent, hsnapshot, task, hmem, hblock⟩ :=
    Sys.newHead_round_handoff (b := basicBackend) hmain rfl rfl rfl rfl
  exact ⟨s, _, _, _, _, Option.eq_some_of_isSome hsome, hmain, rfl, rfl, by decide,
    s', hrun, hcurrent, hsnapshot, task, hmem,
    (congrArg Block.transactions hblock).trans ((Environment.copy_txs _).trans (Environment.copy_txs _))⟩

end Interrupt

end QuaiWorker
