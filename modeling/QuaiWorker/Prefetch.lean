import QuaiWorker.Envs

/-!
# Prefetcher lifetimes

`makeEnv` starts a prefetcher on the state it opens, and `environment.discard`
stops it.  `commitWork` discards `w.current` when it installs a new round,
`mainLoop` discards it when it returns, and `generateWork` discards its own
environment.  `GeneratePendingHeader` discards nothing: the environment it
prepares is dropped with its prefetcher still running.

**Results.**
* `Sys.Orphaned`: a running prefetcher that no environment of the system
  holds.  `Sys.Orphaned.step`: every step keeps it so, hence no run ever stops
  it.
* `pendingHeader_leaks_prefetcher`: `GeneratePendingHeader` on an idle worker
  leaves such a prefetcher, in a state where no operation is in progress.
-/

namespace QuaiWorker

section Prefetch

variable {σ ι : Type} {b : Backend σ ι} {s : Sys σ ι} {x : Nat}

/-- Discarding an environment that does not hold `x` leaves `x` running. -/
theorem Environment.mem_discard {env : Environment σ} {running : List Nat} (hx : x ∈ running)
    (hne : env.state.prefetcher ≠ some x) :
    x ∈ env.discard running := by
  unfold Environment.discard
  split
  · rename_i id hid
    exact (List.mem_erase_of_ne fun h => hne (by rw [hid, h])).mpr hx
  · exact hx

/-- Not holding `x` is kept by every operation on environments. -/
theorem notHolding_preserved (x : Nat) :
    EnvPreserved b fun env => env.state.prefetcher ≠ some x where
  copy _ _ := by simp
  adjustGasLimit head env h := by
    obtain ⟨_, heq⟩ := adjustGasLimit_eq b head env
    rwa [heq]
  initGasPool _ h := h
  loop _ _ _ _ h hstep := by rwa [(commitTransactionsStep_frame hstep).2.2.2.2]
  commitUncle env uncle env' h _ hok := by
    obtain ⟨-, rfl⟩ := (commitUncle_ok_iff b env env' uncle).mp hok
    exact h

/-- `prepareWork` hands out the prefetcher it is given. -/
theorem prepareWork_notHolding {w : Worker σ} {head : Option Block} {id : Nat}
    {params : GenerateParams} {env : Environment σ} (hne : id ≠ x)
    (h : prepareWork b w head id params = .ok env) :
    env.state.prefetcher ≠ some x := by
  refine (notHolding_preserved x).prepareWork (fun parent header coinbase env hmk => ?_) h
  rw [(makeEnv_spec b id parent header coinbase hmk).2.2.2.2.2.2.2.1]
  simpa using hne

namespace Sys

/-- `x` runs and was allocated. -/
def Live (x : Nat) (s : Sys σ ι) : Prop := x ∈ s.prefetchers ∧ x < s.nextPrefetcher

/-- `x` runs, was allocated, and no environment of the system holds it. -/
structure Orphaned (x : Nat) (s : Sys σ ι) : Prop where
  live : s.Live x
  unheld : s.EnvsSatisfy fun env => env.state.prefetcher ≠ some x

section Helpers

variable (hlive : s.Live x) (hcur : ∀ env, s.worker.current = some env → env.state.prefetcher ≠ some x)
include hlive hcur

omit hcur in
theorem resume_live {addTxs : Option Nat} : (s.resume addTxs).Live x := hlive

theorem afterCommit_live {after : AfterCommit σ} : (s.afterCommit after).Live x := by
  cases after with
  | install work addTxs =>
      refine ⟨?_, hlive.2⟩
      show x ∈ (match s.worker.current with
        | some current => current.discard s.prefetchers
        | none => s.prefetchers)
      split
      · exact Environment.mem_discard hlive.1 (hcur _ ‹_›)
      · exact hlive.1
  | resume =>
      exact hlive

theorem commitEnv_live {env : Environment σ} {after : AfterCommit σ} :
    (s.commitEnv b env after).Live x := by
  unfold commitEnv
  split
  · dsimp only
    split
    · exact afterCommit_live hlive hcur
    · exact hlive
  · refine afterCommit_live ?_ ?_
    exacts [hlive, hcur]

theorem nextBatch_live {round : Round σ} {batches : List (List (Address × List Transaction))} :
    (s.nextBatch b round batches).Live x := by
  cases batches with
  | nil =>
      exact commitEnv_live hlive hcur
  | cons txs rest =>
      exact hlive

theorem commitWork_live {interrupt : Option Nat} {timestamp : Int} {addTxs : Option Nat} :
    (s.commitWork b interrupt timestamp addTxs).Live x := by
  unfold commitWork
  split
  · exact hlive
  · dsimp only
    split
    · exact hlive
    · refine nextBatch_live ⟨List.mem_cons_of_mem _ hlive.1, Nat.lt_succ_of_lt hlive.2⟩ ?_
      exact hcur

theorem sideEvent_live {block : Block} : (s.sideEvent b block).Live x := by
  unfold sideEvent
  dsimp only
  split
  · exact hlive
  · split
    · rename_i current hcurrent
      rw [addSideBlock_current] at hcurrent
      split
      · split
        · rename_i current' hok
          obtain ⟨-, rfl⟩ := (commitUncle_ok_iff b current current' _).mp hok
          refine commitEnv_live ?_ ?_
          · simpa [Live] using hlive
          · simpa using hcur _ hcurrent
        · simpa [Live] using hlive
      · simpa [Live] using hlive
    · simpa [Live] using hlive

theorem txsEvent_live {txs : List Transaction} : (s.txsEvent b txs).Live x := by
  unfold txsEvent
  dsimp only
  split
  · split
    · exact hlive
    · split <;> exact hlive
  · split
    · exact commitWork_live hlive hcur
    · exact hlive

theorem roundStep_live {s' : Sys σ ι} (hs : s.roundStep b = some s') : s'.Live x := by
  rcases Sys.roundStep_some hs with ⟨_, _, _, _, _, -, -, rfl⟩ | ⟨_, _, _, _, -, -, -, rfl⟩ |
      ⟨_, _, _, _, -, -, -, rfl⟩ | ⟨_, _, _, _, -, -, rfl⟩ | ⟨_, _, _, _, _, -, -, rfl⟩ |
      ⟨_, _, _, -, -, rfl⟩
  · exact hlive
  · exact hlive
  · exact nextBatch_live hlive hcur
  · exact commitEnv_live hlive hcur
  · exact hlive
  · refine nextBatch_live ?_ ?_
    exacts [hlive, hcur]

theorem taskRecv_live {s' : Sys σ ι} (hs : s.taskRecv b = some s') : s'.Live x := by
  obtain ⟨_, _, _, -, rfl⟩ := Sys.taskRecv_some hs
  refine afterCommit_live ?_ ?_
  exacts [hlive, hcur]

end Helpers

/-- `getSealingBlock`'s environment does not hold a prefetcher allocated
before it. -/
theorem generateWork_notHolding {w : Worker σ} {pending : Except String (List (Address × List Transaction))}
    {locals : List Address} {params : GenerateParams} {work : Environment σ}
    (hlt : x < s.nextPrefetcher)
    (h : (generateWork b w s.head s.nextPrefetcher pending locals params).1 = some work) :
    work.state.prefetcher ≠ some x := by
  obtain ⟨env, henv, rfl⟩ := generateWork_env h
  have hP : EnvPreserved b fun env : Environment σ => env.state.prefetcher ≠ some x :=
    notHolding_preserved x
  exact hP.fillTransactions (hP.adjustGasLimit _ _ (prepareWork_notHolding (by omega) henv))

/-- No step stops a prefetcher that no environment holds. -/
theorem step_live {a : Action} {s' : Sys σ ι} (h : s.Orphaned x) (hs : s.step b a = some s') :
    s'.Live x := by
  have hcur := (envsSatisfy_iff.mp h.unheld).1
  cases a with
  | generatePendingHeader header =>
      simp only [Sys.step] at hs
      split at hs <;> cases hs
      · exact ⟨List.mem_cons_of_mem _ h.live.1, Nat.lt_succ_of_lt h.live.2⟩
      · exact h.live
  | getSealingBlock params =>
      simp only [Sys.step] at hs
      split at hs
      · split at hs <;> cases hs
        · exact ⟨Environment.mem_discard (List.mem_cons_of_mem _ h.live.1)
            (generateWork_notHolding h.live.2 ‹_›), Nat.lt_succ_of_lt h.live.2⟩
        · exact h.live
      · cases hs
  | mainNewWork =>
      obtain ⟨_, -, -, rfl⟩ := Sys.step_mainNewWork hs
      refine commitWork_live ?_ ?_
      exacts [h.live, hcur]
  | mainChainSide =>
      obtain ⟨_, _, -, -, rfl⟩ := Sys.step_mainChainSide hs
      refine sideEvent_live ?_ ?_
      exacts [h.live, hcur]
  | mainTxs =>
      obtain ⟨_, _, -, -, rfl⟩ := Sys.step_mainTxs hs
      refine txsEvent_live ?_ ?_
      exacts [h.live, hcur]
  | mainExit =>
      obtain ⟨-, -, rfl⟩ := Sys.step_mainExit hs
      refine ⟨?_, h.live.2⟩
      show x ∈ (match s.worker.current with
        | some current => current.discard s.prefetchers
        | none => s.prefetchers)
      split
      · exact Environment.mem_discard h.live.1 (hcur _ ‹_›)
      · exact h.live.1
  | mainRound =>
      exact roundStep_live h.live hcur hs
  | mainTaskExit =>
      obtain ⟨_, _, _, -, -, rfl⟩ := Sys.step_mainTaskExit hs
      refine afterCommit_live ?_ ?_
      exacts [h.live, hcur]
  | taskRecv =>
      exact taskRecv_live h.live hcur hs
  | _ =>
      simp only [Sys.step] at hs
      repeat' split at hs
      all_goals first
        | (cases hs; exact h.live)
        | (cases hs; unfold cleanTick; split <;> exact h.live)
        | cases hs

/-- Every step keeps a prefetcher orphaned: it keeps running, and no
environment ever holds it. -/
theorem Orphaned.step {a : Action} {s' : Sys σ ι} (h : s.Orphaned x) (hs : s.step b a = some s') :
    s'.Orphaned x :=
  ⟨step_live h hs, step_envs (notHolding_preserved x) h.unheld
    (fun _ _ _ => prepareWork_notHolding (Nat.ne_of_gt h.live.2)) hs⟩

end Sys

/-- After `GeneratePendingHeader` on an idle worker, with no operation in
progress, prefetcher 0 runs while `w.current` is nil, and no later run ever
stops it or gives it to an environment. -/
theorem pendingHeader_leaks_prefetcher :
    ∃ s, (Sys.init basicBackend false).run basicBackend
        [.chainHead sampleHead, .generatePendingHeader sampleHead.header] = some s ∧
      s.main = .select ∧ s.newWork.pc = .select ∧ s.worker.current = none ∧ 0 ∈ s.prefetchers ∧
      ∀ actions s', s.run basicBackend actions = some s' →
        0 ∈ s'.prefetchers ∧ ∀ env ∈ s'.envs, env.state.prefetcher ≠ some 0 := by
  obtain ⟨s, hrun, hmain, hpc, hcur, h0, hnext, henvs⟩ :
      ∃ s, (Sys.init basicBackend false).run basicBackend
        [.chainHead sampleHead, .generatePendingHeader sampleHead.header] = some s ∧
      s.main = .select ∧ s.newWork.pc = .select ∧ s.worker.current = none ∧ 0 ∈ s.prefetchers ∧
      0 < s.nextPrefetcher ∧ s.envs = [] :=
    ⟨_, rfl, rfl, rfl, rfl, by decide, by decide, rfl⟩
  refine ⟨s, hrun, hmain, hpc, hcur, h0, fun actions s' hrun' => ?_⟩
  have horphan := Sys.run_invariant (Sys.Orphaned 0) (fun _ _ _ _ h hs => h.step hs)
    ⟨⟨h0, hnext⟩, by simp [Sys.EnvsSatisfy, henvs]⟩ hrun'
  exact ⟨horphan.live.1, horphan.unheld⟩

end Prefetch

end QuaiWorker
