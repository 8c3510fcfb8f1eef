import QuaiWorker.Invariants

/-!
# The published snapshot

`updateSnapshot(env)` publishes the block of `env`, a copy of its receipts and
a copy of its state, which `pending` and `pendingBlockAndReceipts` hand out.
`commit` publishes the environment it commits when the worker is not running,
`taskLoop`'s receive and the exit path of `commit` publish the environment of
the task, and `mainLoop`'s `txsCh` case publishes `w.current` when it gained a
transaction.  Each of them is an environment of the system, or one made from
one by the operations `EnvPreserved` lists.

**Results.**
* `Sys.step_snapshot`: after a step the snapshot is the one before, or one
  published from an environment with every property the operations keep.
* `snapshot_consistent`: in every reachable state the snapshot is published
  from an environment that satisfies `TxsConsistent` and `UnclesWellFormed`, so
  its block's transactions and its receipts correspond one for one and it holds
  at most two well-formed uncles.
-/

namespace QuaiWorker

section Snapshot

variable {σ ι : Type} {b : Backend σ ι}

/-- Two properties the operations keep, together. -/
theorem EnvPreserved.and {P Q : Environment σ → Prop} (hP : EnvPreserved b P)
    (hQ : EnvPreserved b Q) : EnvPreserved b fun env => P env ∧ Q env where
  copy env h := ⟨hP.copy env h.1, hQ.copy env h.2⟩
  adjustGasLimit head env h := ⟨hP.adjustGasLimit head env h.1, hQ.adjustGasLimit head env h.2⟩
  initGasPool env h := ⟨hP.initGasPool env h.1, hQ.initGasPool env h.2⟩
  loop env txs load env' h hstep := ⟨hP.loop env txs load env' h.1 hstep, hQ.loop env txs load env' h.2 hstep⟩
  commitUncle env uncle env' h hlen hok :=
    ⟨hP.commitUncle env uncle env' h.1 hlen hok, hQ.commitUncle env uncle env' h.2 hlen hok⟩

namespace Sys

variable {P : Environment σ → Prop} {s s' : Sys σ ι}

/-- The snapshot, once there is one, was published from an environment with `P`. -/
def SnapshotSatisfy (P : Environment σ → Prop) (s : Sys σ ι) : Prop :=
  ∀ snap, s.worker.snapshot = some snap → ∃ env, P env ∧ snap = updateSnapshot env

/-- `s'` has the snapshot of `s`, or one published from an environment with `P`. -/
def SnapshotFrom (P : Environment σ → Prop) (s s' : Sys σ ι) : Prop :=
  s'.worker.snapshot = s.worker.snapshot ∨
    ∃ env, P env ∧ s'.worker.snapshot = some (updateSnapshot env)

theorem SnapshotSatisfy.of_from (h : s.SnapshotSatisfy P) (hf : SnapshotFrom P s s') :
    s'.SnapshotSatisfy P := by
  intro snap hsnap
  rcases hf with heq | ⟨env, henv, heq⟩
  · exact h snap (heq ▸ hsnap)
  · exact ⟨env, henv, Option.some.inj (hsnap.symm.trans heq)⟩

/-- A step from a state with the same snapshot. -/
theorem SnapshotFrom.of_eq {s₀ : Sys σ ι} (h : SnapshotFrom P s₀ s')
    (h₀ : s₀.worker.snapshot = s.worker.snapshot) : SnapshotFrom P s s' := by
  rcases h with heq | hex
  · exact .inl (heq.trans h₀)
  · exact .inr hex

theorem resume_snapshot (addTxs : Option Nat) : SnapshotFrom P s (s.resume addTxs) :=
  .inl rfl

theorem afterCommit_snapshot (after : AfterCommit σ) : SnapshotFrom P s (s.afterCommit after) := by
  cases after <;> exact .inl rfl

/-- `commit(env, ...)` publishes `env` itself, or nothing. -/
theorem commitEnv_snapshot {env : Environment σ} (henv : P env) (after : AfterCommit σ) :
    SnapshotFrom P s (s.commitEnv b env after) := by
  unfold commitEnv
  split
  · dsimp only
    split
    · exact afterCommit_snapshot after
    · exact .inl rfl
  · cases after <;> exact .inr ⟨env, henv, rfl⟩

section Helpers

variable (hP : EnvPreserved b P)
include hP

theorem nextBatch_snapshot {round : Round σ} (hwork : P round.work)
    (batches : List (List (Address × List Transaction))) :
    SnapshotFrom P s (s.nextBatch b round batches) := by
  cases batches with
  | nil =>
      exact commitEnv_snapshot (hP.copy _ hwork) _
  | cons txs rest =>
      exact .inl rfl

theorem commitWork_snapshot {interrupt : Option Nat} {timestamp : Int} {addTxs : Option Nat}
    (hfresh : ∀ w params env, prepareWork b w s.head s.nextPrefetcher params = .ok env → P env) :
    SnapshotFrom P s (s.commitWork b interrupt timestamp addTxs) := by
  unfold commitWork
  split
  · exact .inl rfl
  · dsimp only
    split
    · exact .inl rfl
    · exact nextBatch_snapshot hP (hP.adjustGasLimit _ _ (hfresh _ _ _ ‹_›)) _

variable (hcur : ∀ env, s.worker.current = some env → P env)
include hcur

theorem sideEvent_snapshot (block : Block) : SnapshotFrom P s (s.sideEvent b block) := by
  unfold sideEvent
  dsimp only
  split
  · exact .inl rfl
  · split
    · rename_i current hcurrent
      rw [addSideBlock_current] at hcurrent
      split
      · split
        · rename_i hguard _ current' hok
          exact (commitEnv_snapshot (hP.copy _ (hP.commitUncle _ _ _ (hcur _ hcurrent) hguard.2 hok))
            _).of_eq (addSideBlock_snapshot _ _ _)
        · exact .inl (addSideBlock_snapshot _ _ _)
      · exact .inl (addSideBlock_snapshot _ _ _)
    · exact .inl (addSideBlock_snapshot _ _ _)

theorem txsEvent_snapshot (txs : List Transaction)
    (hfresh : ∀ w params env, prepareWork b w s.head s.nextPrefetcher params = .ok env → P env) :
    SnapshotFrom P s (s.txsEvent b txs) := by
  unfold txsEvent
  dsimp only
  split
  · rename_i current _ hcurrent
    split
    · exact .inl rfl
    · split
      · exact .inr ⟨_, hP.commitTransactions (hcur _ hcurrent), rfl⟩
      · exact .inl rfl
  · split
    · exact commitWork_snapshot hP hfresh
    · exact .inl rfl

end Helpers

variable (hP : EnvPreserved b P) (h : s.EnvsSatisfy P)
include hP h

theorem roundStep_snapshot (hs : s.roundStep b = some s') : SnapshotFrom P s s' := by
  have hmain := (envsSatisfy_iff.mp h).2
  rcases roundStep_some hs with ⟨_, _, _, _, _, -, -, rfl⟩ | ⟨_, _, _, _, -, -, -, rfl⟩ |
      ⟨_, _, _, _, hm, hstep, -, rfl⟩ | ⟨_, _, _, _, hm, -, rfl⟩ | ⟨_, _, _, _, _, -, -, rfl⟩ |
      ⟨_, _, _, hm, -, rfl⟩
  · exact .inl rfl
  · exact .inl rfl
  · exact nextBatch_snapshot hP (hP.loop _ _ _ _ (hmain _ (by simp [hm, MainPc.envs])) (.inr hstep)) _
  · exact commitEnv_snapshot (hP.copy _ (hmain _ (by simp [hm, MainPc.envs]))) _
  · exact .inl rfl
  · exact nextBatch_snapshot hP (hmain _ (by simp [hm, MainPc.envs])) _

omit hP in
theorem taskRecv_snapshot (hs : s.taskRecv b = some s') : SnapshotFrom P s s' := by
  have hmain := (envsSatisfy_iff.mp h).2
  obtain ⟨_, env, after, hm, rfl⟩ := taskRecv_some hs
  cases after <;> exact .inr ⟨env, hmain env (by simp [hm, MainPc.envs]), rfl⟩

/-- After a step the snapshot is the one before, or one published from an
environment with `P`. -/
theorem step_snapshot {a : Action}
    (hfresh : ∀ w params env, prepareWork b w s.head s.nextPrefetcher params = .ok env → P env)
    (hs : s.step b a = some s') :
    SnapshotFrom P s s' := by
  obtain ⟨hcur, hmain⟩ := envsSatisfy_iff.mp h
  cases a with
  | mainNewWork =>
      obtain ⟨_, -, -, rfl⟩ := step_mainNewWork hs
      exact commitWork_snapshot hP hfresh
  | mainChainSide =>
      obtain ⟨_, _, -, -, rfl⟩ := step_mainChainSide hs
      exact sideEvent_snapshot hP (by exact hcur) _
  | mainTxs =>
      obtain ⟨_, _, -, -, rfl⟩ := step_mainTxs hs
      exact txsEvent_snapshot hP (by exact hcur) _ hfresh
  | mainRound =>
      exact roundStep_snapshot hP h hs
  | mainTaskExit =>
      obtain ⟨_, env, after, hm, -, rfl⟩ := step_mainTaskExit hs
      cases after <;> exact .inr ⟨env, hmain env (by simp [hm, MainPc.envs]), rfl⟩
  | taskRecv =>
      exact taskRecv_snapshot h hs
  | generatePendingHeader header =>
      simp only [Sys.step] at hs
      split at hs <;> cases hs <;> exact .inl (generatePendingHeader_snapshot ..)
  | _ =>
      simp only [Sys.step] at hs
      repeat' split at hs
      all_goals first
        | (cases hs; exact .inl rfl)
        | (cases hs; unfold cleanTick; split <;> exact .inl rfl)
        | cases hs

end Sys

/-- In every reachable state the snapshot, once there is one, was published from
an environment with every property the operations keep and `prepareWork`'s
environments have. -/
theorem Reachable.snapshot {start : Bool} {P : Environment σ → Prop} {s : Sys σ ι}
    (hP : EnvPreserved b P)
    (hfresh : ∀ w head id params env, prepareWork b w head id params = .ok env → P env)
    (h : Reachable b start s) : s.SnapshotSatisfy P := by
  induction h with
  | init =>
      intro _ hsnap
      cases hsnap
  | step a hr hs ih =>
      exact ih.of_from (Sys.step_snapshot hP (hr.envs hP hfresh)
        (fun w params env => hfresh w _ _ params env) hs)

/-- In every reachable state, the snapshot that `pending` and
`pendingBlockAndReceipts` return, once there is one, is `updateSnapshot` of an
environment with `TxsConsistent` and `UnclesWellFormed`: its block's
transactions and its receipts correspond one for one, each receipt the one
`ApplyTransaction` returned for its transaction, and its block holds at most two
uncles, each admissible. -/
theorem snapshot_consistent {start : Bool} {s : Sys σ ι} (h : Reachable b start s) :
    ∀ snap, s.worker.snapshot = some snap →
      ∃ env, TxsConsistent b env ∧ UnclesWellFormed b env ∧ snap = updateSnapshot env := by
  intro snap hsnap
  obtain ⟨env, ⟨htxs, huncles⟩, rfl⟩ := h.snapshot (txsConsistent_preserved.and unclesWellFormed_preserved)
    (fun _ _ _ _ _ hok => ⟨prepareWork_txsConsistent hok, prepareWork_unclesWellFormed hok⟩) snap hsnap
  exact ⟨env, htxs, huncles, rfl⟩

/-- `oneTxSchedule` on a worker that does not run, until the round has sent its
feedback and returned: it publishes its block of one transaction. -/
def publishSchedule : List Action := oneTxSchedule ++ [.mainRound, .mainRound]

theorem snapshot_consistent_one_tx :
    ∃ s snap, (Sys.init basicBackend false).run basicBackend publishSchedule = some s ∧
      s.worker.snapshot = some snap ∧ snap.1.transactions.length = 1 ∧
      ∃ env, TxsConsistent basicBackend env ∧ UnclesWellFormed basicBackend env ∧
        snap = updateSnapshot env := by
  obtain ⟨s, snap, hrun, hsnap, hlen⟩ : ∃ s snap,
      (Sys.init basicBackend false).run basicBackend publishSchedule = some s ∧
      s.worker.snapshot = some snap ∧ snap.1.transactions.length = 1 :=
    ⟨_, _, rfl, rfl, rfl⟩
  exact ⟨s, snap, hrun, hsnap, hlen, snapshot_consistent (Reachable.init.run hrun) snap hsnap⟩

end Snapshot

end QuaiWorker
