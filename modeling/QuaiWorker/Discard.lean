import QuaiWorker.Prefetch
import QuaiWorker.Arrivals

/-!
# Every prefetcher but `GeneratePendingHeader`'s is discarded

`environment.discard` states the duty: "It should always be called for all
created environment instances otherwise the go-routine leak can happen."
`makeEnv` starts a prefetcher for `commitWork`, `generateWork` and
`GeneratePendingHeader`.  `commitWork` hands its environment to the round, the
round hands it to `w.current`, and `w.current` is discarded when the next round
is installed and when `mainLoop` returns; `generateWork` discards its own;
`commit` publishes copies, which hold no prefetcher.  Only
`GeneratePendingHeader` drops its environment (`pendingHeader_leaks_prefetcher`).

**Results.**
* `Sys.Accounted`: the running prefetchers are distinct and allocated, each is
  held by an environment of the system, the copy `commit` publishes holds none,
  and none runs once `mainLoop` has returned.
* `Sys.Accounted.step`: every step but `GeneratePendingHeader` keeps it.
* `prefetchers_accounted`: along every run from `newWorker` without
  `GeneratePendingHeader`, every running prefetcher runs once and belongs to
  `w.current` or to the round in flight, and after `mainLoop` has returned none
  runs.
-/

namespace QuaiWorker

section Discard

variable {σ ι : Type} {b : Backend σ ι}

/-- `commitUncles` changes only the uncles. -/
theorem commitUncles_eq (pool : List (Hash × Block)) :
    ∀ env : Environment σ, ∃ uncles, commitUncles b env pool = { env with uncles } := by
  induction pool with
  | nil => exact fun env => ⟨env.uncles, rfl⟩
  | cons entry pool ih =>
      intro env
      rw [commitUncles]
      split_ifs
      · exact ⟨env.uncles, rfl⟩
      · split
        · rename_i env' hcommit
          obtain ⟨-, rfl⟩ := (commitUncle_ok_iff b env env' _).mp hcommit
          exact ih _
        · exact ih env

/-- `prepareWork` hands out the prefetcher `makeEnv` started. -/
theorem prepareWork_prefetcher {w : Worker σ} {head : Option Block} {id : Nat}
    {params : GenerateParams} {env : Environment σ} (h : prepareWork b w head id params = .ok env) :
    env.state.prefetcher = some id := by
  obtain ⟨parent, header, env₀, hmk, rfl⟩ := prepareWork_ok h
  obtain ⟨U, hU⟩ := commitUncles_eq (b := b) w.localUncles env₀
  obtain ⟨U', hU'⟩ := commitUncles_eq (b := b) w.remoteUncles (commitUncles b env₀ w.localUncles)
  rw [hU', hU]
  exact (makeEnv_spec b id parent header w.coinbase hmk).2.2.2.2.2.2.2.1

/-- A batch keeps the state's prefetcher. -/
theorem commitTransactions_prefetcher (env : Environment σ) (txs : ι)
    (interrupt : Option (Nat → CommitInterrupt)) :
    (commitTransactions b env txs interrupt).env.state.prefetcher = env.state.prefetcher :=
  commitTransactions_rel (fun e e' => e'.state.prefetcher = e.state.prefetcher) (fun _ => rfl)
    (fun _ _ _ h₁ h₂ => h₂.trans h₁) (fun _ => rfl)
    (fun _ _ _ _ h => (commitTransactionsStep_frame h).2.2.2.2) env txs interrupt

@[simp] theorem adjustGasLimit_state (head : Option Block) (env : Environment σ) :
    (adjustGasLimit b head env).state = env.state := by
  obtain ⟨_, h⟩ := adjustGasLimit_eq b head env
  rw [h]

/-- `getSealingBlock`'s environment holds the prefetcher its `prepareWork` started. -/
theorem generateWork_prefetcher {w : Worker σ} {head : Option Block} {id : Nat}
    {pending : Except String (List (Address × List Transaction))} {locals : List Address}
    {params : GenerateParams} {work : Environment σ}
    (h : (generateWork b w head id pending locals params).1 = some work) :
    work.state.prefetcher = some id := by
  obtain ⟨env, henv, rfl⟩ := generateWork_env h
  rw [← prepareWork_prefetcher henv, ← adjustGasLimit_state (b := b) head env]
  exact fillTransactions_env (P := fun e => e.state.prefetcher = (adjustGasLimit b head env).state.prefetcher)
    (fun e _ _ he => (commitTransactions_prefetcher e _ _).trans he) rfl

/-- What discarding an environment leaves running: a part of what ran, without
the environment's own prefetcher. -/
theorem Environment.mem_discard_iff {env : Environment σ} {running : List Nat} (hnodup : running.Nodup)
    {x : Nat} : x ∈ env.discard running ↔ x ∈ running ∧ env.state.prefetcher ≠ some x := by
  unfold Environment.discard
  split
  · rename_i id hid
    simp [hnodup.mem_erase_iff, hid, eq_comm, and_comm]
  · rename_i hnone
    simp [hnone]

theorem Environment.discard_nodup {env : Environment σ} {running : List Nat} (hnodup : running.Nodup) :
    (env.discard running).Nodup := by
  unfold Environment.discard
  split
  · exact hnodup.erase _
  · exact hnodup

namespace Sys

/-- The environments in `envs` hold every prefetcher in `running`. -/
def HeldBy (envs : List (Environment σ)) (running : List Nat) : Prop :=
  ∀ x ∈ running, ∃ env ∈ envs, env.state.prefetcher = some x

/-- The prefetcher bookkeeping: every running prefetcher runs once, was
allocated, and is held by an environment of the system; the copy `commit`
publishes holds none; and none runs once `mainLoop` has returned. -/
structure Accounted (s : Sys σ ι) : Prop where
  nodup : s.prefetchers.Nodup
  allocated : ∀ x ∈ s.prefetchers, x < s.nextPrefetcher
  held : HeldBy s.envs s.prefetchers
  task_copy : ∀ task env after, s.main = .task task env after → env.state.prefetcher = none
  done_empty : s.main = .done → s.prefetchers = []

variable {s s' : Sys σ ι}

/-- A state with the same prefetchers, `w.current` and round. -/
theorem Accounted.congr (h : s.Accounted) (hp : s'.prefetchers = s.prefetchers)
    (hn : s'.nextPrefetcher = s.nextPrefetcher) (hc : s'.worker.current = s.worker.current)
    (hm : s'.main = s.main) : s'.Accounted := by
  obtain ⟨h₁, h₂, h₃, h₄, h₅⟩ := h
  refine ⟨hp ▸ h₁, hp ▸ hn ▸ h₂, ?_, hm ▸ h₄, hm ▸ hp ▸ h₅⟩
  rw [HeldBy, hp, envs, hc, hm]
  exact h₃

/-- In `mainLoop`'s `select`, `w.current` holds every running prefetcher. -/
theorem Accounted.held_current (h : s.Accounted) (hmain : s.main = .select) :
    HeldBy s.worker.current.toList s.prefetchers := by
  simpa only [envs, hmain, MainPc.envs, List.append_nil] using h.held

/-- While a round is in flight, `w.current` and the round's environment hold
every running prefetcher. -/
theorem Accounted.held_round (h : s.Accounted) {work : Environment σ} (hmain : s.main.envs = [work]) :
    HeldBy (s.worker.current.toList ++ [work]) s.prefetchers := by
  simpa only [envs, hmain] using h.held

/-- More environments hold at least as much. -/
theorem HeldBy.mono {envs envs' : List (Environment σ)} {running : List Nat} (h : HeldBy envs running)
    (hsub : envs ⊆ envs') : HeldBy envs' running :=
  fun x hx => (h x hx).imp fun _ he => ⟨hsub he.1, he.2⟩

/-- The round's environment may be replaced by one with the same prefetcher. -/
theorem HeldBy.swap {others : List (Environment σ)} {work work' : Environment σ} {running : List Nat}
    (h : HeldBy (others ++ [work]) running) (hpre : work'.state.prefetcher = work.state.prefetcher) :
    HeldBy (others ++ [work']) running := by
  intro x hx
  obtain ⟨e, he, hpe⟩ := h x hx
  rcases List.mem_append.mp he with he | he
  · exact ⟨e, List.mem_append_left _ he, hpe⟩
  · rw [List.mem_singleton.mp he] at hpe
    exact ⟨work', List.mem_append_right _ (List.mem_singleton_self _), hpre.trans hpe⟩

/-- A round in flight on an environment with the prefetcher of the last one. -/
theorem Accounted.of_round (h : s.Accounted) {work : Environment σ} (hmain : s.main.envs = [work])
    {main : MainPc σ ι} {work' : Environment σ} (hmain' : main.envs = [work'])
    (htask : ∀ task env after, main ≠ .task task env after) (hdone : main ≠ .done)
    (hpre : work'.state.prefetcher = work.state.prefetcher) : ({ s with main } : Sys σ ι).Accounted :=
  ⟨h.nodup, h.allocated, by simpa only [envs, hmain'] using (h.held_round hmain).swap hpre,
    fun _ _ _ hm => absurd hm (htask _ _ _), fun hm => absurd hm hdone⟩

section Helpers

variable (hnodup : s.prefetchers.Nodup) (halloc : ∀ x ∈ s.prefetchers, x < s.nextPrefetcher)
include hnodup halloc

theorem resume_accounted (addTxs : Option Nat) (hheld : HeldBy s.worker.current.toList s.prefetchers) :
    (s.resume addTxs).Accounted :=
  ⟨hnodup, halloc, by simpa only [envs, resume, MainPc.envs, List.append_nil] using hheld, (fun _ _ _ h => nomatch h),
    (fun h => nomatch h)⟩

/-- `w.current.discard(); w.current = work`, or back to the `select`. -/
theorem afterCommit_accounted {after : AfterCommit σ}
    (hheld : HeldBy (s.worker.current.toList ++ after.envs) s.prefetchers) :
    (s.afterCommit after).Accounted := by
  cases after with
  | resume =>
      exact resume_accounted hnodup halloc none (by simpa [AfterCommit.envs] using hheld)
  | install work addTxs =>
      simp only [afterCommit]
      cases hcur : s.worker.current with
      | none =>
          refine resume_accounted (s := { s with worker := { s.worker with current := some work } })
            hnodup halloc _ ?_
          simpa only [hcur, AfterCommit.envs, Option.toList_none, List.nil_append] using hheld
      | some current =>
          have hnodup' : (current.discard s.prefetchers).Nodup := Environment.discard_nodup hnodup
          refine resume_accounted (s := { s with
              prefetchers := current.discard s.prefetchers
              worker := { s.worker with current := some work } })
            hnodup' (fun x hx => halloc x ((Environment.mem_discard_iff hnodup).mp hx).1) _ ?_
          intro x hx
          obtain ⟨hx, hne⟩ := (Environment.mem_discard_iff hnodup).mp hx
          obtain ⟨env, henv, hpre⟩ := hheld x hx
          simp only [hcur, Option.toList_some, AfterCommit.envs, List.singleton_append,
            List.mem_cons, List.not_mem_nil, or_false] at henv
          rcases henv with rfl | rfl
          · exact absurd hpre hne
          · exact ⟨env, List.mem_singleton_self _, hpre⟩

/-- `commit(env, ...)` on a copy. -/
theorem commitEnv_accounted {env : Environment σ} {after : AfterCommit σ}
    (henv : env.state.prefetcher = none)
    (hheld : HeldBy (s.worker.current.toList ++ after.envs) s.prefetchers) :
    (s.commitEnv b env after).Accounted := by
  unfold commitEnv
  split
  · dsimp only
    split
    · exact afterCommit_accounted hnodup halloc hheld
    · refine ⟨hnodup, halloc, hheld.mono fun e he => ?_, fun _ _ _ h => ?_, (fun h => nomatch h)⟩
      · exact List.mem_append.mpr ((List.mem_append.mp he).imp id (List.mem_cons_of_mem _))
      · cases h
        exact henv
  · exact afterCommit_accounted (s := s.withSnapshot env) hnodup halloc hheld

/-- The next batch of a round, or its `commit`. -/
theorem nextBatch_accounted {round : Round σ} {batches : List (List (Address × List Transaction))}
    (hheld : HeldBy (s.worker.current.toList ++ [round.work]) s.prefetchers) :
    (s.nextBatch b round batches).Accounted := by
  cases batches with
  | nil => exact commitEnv_accounted hnodup halloc (by simp) hheld
  | cons txs rest =>
      refine ⟨hnodup, halloc, ?_, (fun _ _ _ h => nomatch h), (fun h => nomatch h)⟩
      refine (hheld.swap (show (if round.work.gasPool = none
        then { round.work with gasPool := some round.work.header.gasLimit } else round.work).state.prefetcher =
          round.work.state.prefetcher by split <;> rfl) :)

/-- `commitWork` starts a prefetcher for its round. -/
theorem commitWork_accounted {interrupt : Option Nat} {timestamp : Int} {addTxs : Option Nat}
    (hheld : HeldBy s.worker.current.toList s.prefetchers) :
    (s.commitWork b interrupt timestamp addTxs).Accounted := by
  unfold commitWork
  split
  · exact resume_accounted hnodup halloc _ hheld
  · dsimp only
    split
    · exact resume_accounted hnodup halloc _ hheld
    · rename_i work hwork
      have hfresh : s.nextPrefetcher ∉ s.prefetchers := fun h => (halloc _ h).false
      refine nextBatch_accounted (List.nodup_cons.mpr ⟨hfresh, hnodup⟩) (fun x hx => ?_) (fun x hx => ?_)
      · rcases List.mem_cons.mp hx with rfl | hx
        · exact Nat.lt_succ_self _
        · exact Nat.lt_succ_of_lt (halloc x hx)
      · rcases List.mem_cons.mp hx with rfl | hx
        · exact ⟨_, List.mem_append_right _ (List.mem_singleton_self _),
            (adjustGasLimit_state s.head work).symm ▸ prepareWork_prefetcher hwork⟩
        · obtain ⟨e, he, hpre⟩ := hheld x hx
          exact ⟨e, List.mem_append_left _ he, hpre⟩

end Helpers

section Events

variable (h : s.Accounted) (hmain : s.main = .select)
include h hmain

theorem sideEvent_accounted {block : Block} : (s.sideEvent b block).Accounted := by
  have hheld := h.held_current hmain
  unfold sideEvent
  dsimp only
  split
  · exact h
  · split
    · rename_i current hcurrent
      rw [addSideBlock_current] at hcurrent
      split
      · split
        · rename_i current' hok
          obtain ⟨-, rfl⟩ := (commitUncle_ok_iff b current current' _).mp hok
          refine commitEnv_accounted (by simpa using h.nodup) (by simpa using h.allocated) (by simp) ?_
          simpa only [HeldBy, hcurrent, AfterCommit.envs, Option.toList_some, List.append_nil,
            List.mem_singleton, exists_eq_left, addSideBlock_prefetchers] using hheld
        · exact h.congr (by simp) (by simp) (by simp) (by simp)
      · exact h.congr (by simp) (by simp) (by simp) (by simp)
    · exact h.congr (by simp) (by simp) (by simp) (by simp)

theorem txsEvent_accounted {txs : List Transaction} : (s.txsEvent b txs).Accounted := by
  have hheld := h.held_current hmain
  unfold txsEvent
  dsimp only
  split
  · rename_i current _ hcurrent
    split
    · exact h
    · have hheld' : HeldBy (some (commitTransactions b current
          (b.newTransactionsByPriceAndNonce current.signer (groupBySender txs) current.header.baseFee)
          none).env).toList s.prefetchers := by
        simpa only [HeldBy, hcurrent, Option.toList_some, List.mem_singleton, exists_eq_left,
          commitTransactions_prefetcher] using hheld
      split
      · exact resume_accounted (s := ({ s with worker := { s.worker with current := some _ } } : Sys σ ι).withSnapshot _)
          h.nodup h.allocated _ hheld'
      · exact resume_accounted (s := ({ s with worker := { s.worker with current := some _ } } : Sys σ ι))
          h.nodup h.allocated _ hheld'
  · split
    · exact commitWork_accounted h.nodup h.allocated hheld
    · exact resume_accounted h.nodup h.allocated _ hheld

/-- `mainLoop` returns: `w.current.discard()` stops the last prefetcher. -/
theorem mainExit_accounted :
    ({ s with
        main := .done
        prefetchers := match s.worker.current with
          | some current => current.discard s.prefetchers
          | none => s.prefetchers } : Sys σ ι).Accounted := by
  have hempty : (match s.worker.current with
      | some current => current.discard s.prefetchers
      | none => s.prefetchers) = [] := by
    have hheld := h.held_current hmain
    split
    · rename_i current hcur
      refine List.eq_nil_iff_forall_not_mem.mpr fun x hx => ?_
      obtain ⟨hx, hne⟩ := (Environment.mem_discard_iff h.nodup).mp hx
      obtain ⟨e, he, hpre⟩ := hheld x hx
      simp only [hcur, Option.toList_some, List.mem_singleton] at he
      exact hne (he ▸ hpre)
    · rename_i hcur
      refine List.eq_nil_iff_forall_not_mem.mpr fun x hx => ?_
      obtain ⟨e, he, -⟩ := hheld x hx
      simp [hcur] at he
  refine ⟨?_, fun x hx => ?_, fun x hx => ?_, (fun _ _ _ h => nomatch h), fun _ => hempty⟩
  · simpa only [hempty] using List.nodup_nil
  all_goals simp only [hempty, List.not_mem_nil] at hx

end Events

/-- A step of a round. -/
theorem roundStep_accounted (h : s.Accounted) (hs : s.roundStep b = some s') : s'.Accounted := by
  rcases Sys.roundStep_some hs with
    ⟨round, txs, rest, work, txs', hm, hstep, rfl⟩ | ⟨round, txs, rest, work, hm, hstep, -, rfl⟩ |
      ⟨round, txs, rest, work, hm, hstep, -, rfl⟩ | ⟨round, txs, rest, result, hm, -, rfl⟩ |
      ⟨round, txs, rest, msg, result, hm, -, rfl⟩ | ⟨round, msg, rest, hm, -, rfl⟩ <;>
    have hround := h.held_round (show s.main.envs = [round.work] by rw [hm]; rfl)
  · exact h.of_round (by rw [hm]; rfl) rfl (fun _ _ _ => nofun) nofun
      (commitTransactionsStep_frame (.inl ⟨_, hstep⟩)).2.2.2.2
  · exact h.of_round (by rw [hm]; rfl) rfl (fun _ _ _ => nofun) nofun
      (commitTransactionsStep_frame (.inr hstep)).2.2.2.2
  · exact nextBatch_accounted h.nodup h.allocated
      (hround.swap (commitTransactionsStep_frame (.inr hstep)).2.2.2.2)
  · exact commitEnv_accounted h.nodup h.allocated (by simp) hround
  · exact h.of_round (by rw [hm]; rfl) rfl (fun _ _ _ => nofun) nofun rfl
  · exact nextBatch_accounted (s := { s with resubmitAdjustCh := s.resubmitAdjustCh ++ [msg] })
      h.nodup h.allocated hround

/-- `commit` goes on after its send on `taskCh`, or after `exitCh`. -/
theorem afterTask_accounted (h : s.Accounted) {task : Task σ} {env : Environment σ}
    {after : AfterCommit σ} (hmain : s.main = .task task env after) (worker : Worker σ)
    (taskLoop : TaskLoop) (hcur : worker.current = s.worker.current) :
    (({ s with worker, taskLoop } : Sys σ ι).withSnapshot env).afterCommit after |>.Accounted := by
  refine afterCommit_accounted (s := ({ s with worker, taskLoop } : Sys σ ι).withSnapshot env)
    h.nodup h.allocated fun x hx => ?_
  obtain ⟨e, he, hpre⟩ := h.held x hx
  simp only [envs, hmain, MainPc.envs, List.mem_append, List.mem_cons] at he
  rcases he with he | rfl | he
  · exact ⟨e, List.mem_append_left _ (by simpa [withSnapshot, hcur] using he), hpre⟩
  · rw [h.task_copy _ _ _ hmain] at hpre
    cases hpre
  · exact ⟨e, List.mem_append_right _ he, hpre⟩

/-- Every step but `GeneratePendingHeader` keeps the bookkeeping. -/
theorem Accounted.step {a : Action} (h : s.Accounted) (hs : s.step b a = some s')
    (ha : ∀ header, a ≠ .generatePendingHeader header) : s'.Accounted := by
  cases a with
  | generatePendingHeader header => exact absurd rfl (ha header)
  | getSealingBlock params =>
      simp only [Sys.step] at hs
      split at hs
      · rename_i hmain
        split at hs <;> cases hs
        · rename_i work hwork
          have hdiscard : work.discard (s.nextPrefetcher :: s.prefetchers) = s.prefetchers := by
            simp only [Environment.discard, generateWork_prefetcher hwork, List.erase_cons_head]
          rw [hdiscard]
          exact ⟨h.nodup, fun x hx => Nat.lt_succ_of_lt (h.allocated x hx), h.held,
            fun _ _ _ h' => (by rw [hmain] at h'; cases h'), fun h' => (by rw [hmain] at h'; cases h')⟩
        · exact h
      · cases hs
  | mainNewWork =>
      obtain ⟨_, hmain, -, rfl⟩ := Sys.step_mainNewWork hs
      exact commitWork_accounted (s := { s with newWork := { s.newWork with pc := .reset } })
        h.nodup h.allocated (h.held_current hmain)
  | mainChainSide =>
      obtain ⟨_, rest, hmain, -, rfl⟩ := Sys.step_mainChainSide hs
      exact sideEvent_accounted (s := { s with chainSideCh := rest }) (h.congr rfl rfl rfl rfl) hmain
  | mainTxs =>
      obtain ⟨_, rest, hmain, -, rfl⟩ := Sys.step_mainTxs hs
      exact txsEvent_accounted (s := { s with txsCh := rest }) (h.congr rfl rfl rfl rfl) hmain
  | mainExit =>
      obtain ⟨hmain, -, rfl⟩ := Sys.step_mainExit hs
      exact mainExit_accounted h hmain
  | mainRound => exact roundStep_accounted h hs
  | mainCleanTick =>
      obtain ⟨-, rfl⟩ := Sys.step_mainCleanTick hs
      unfold cleanTick
      split
      · exact h.congr rfl rfl rfl rfl
      · exact h
  | mainTaskExit =>
      obtain ⟨_, _, _, hmain, -, rfl⟩ := Sys.step_mainTaskExit hs
      exact afterTask_accounted h hmain s.worker s.taskLoop rfl
  | taskRecv =>
      obtain ⟨_, _, _, hmain, rfl⟩ := Sys.taskRecv_some hs
      exact afterTask_accounted h hmain _ _ rfl
  | _ =>
      simp only [Sys.step] at hs
      repeat' split at hs
      all_goals first
        | (cases hs; exact h.congr rfl rfl rfl rfl)
        | cases hs

end Sys

/-- Along every run from `newWorker` in which `GeneratePendingHeader` is never
called, every running prefetcher runs once and belongs to an environment the
worker holds: `w.current`, the round in flight, or the environment `commit`
installs next; the copy `commit` publishes holds none; and once `mainLoop` has
returned, no prefetcher runs. -/
theorem prefetchers_accounted {b : Backend σ ι} {start : Bool} {actions : List Action}
    {s : Sys σ ι} (hgen : ∀ a ∈ actions, ∀ header, a ≠ .generatePendingHeader header)
    (hrun : (Sys.init b start).run b actions = some s) :
    s.prefetchers.Nodup ∧ (∀ x ∈ s.prefetchers, ∃ env ∈ s.envs, env.state.prefetcher = some x) ∧
      (∀ task env after, s.main = .task task env after → env.state.prefetcher = none) ∧
      (s.main = .done → s.prefetchers = []) := by
  have h := Sys.run_invariant Sys.Accounted (fun a ha _ _ h hs => h.step hs (hgen a ha))
    ⟨List.nodup_nil, fun _ h => absurd h (List.not_mem_nil _), fun _ h => absurd h (List.not_mem_nil _),
      fun _ _ _ h => MainPc.noConfusion h, fun _ => rfl⟩ hrun
  exact ⟨h.nodup, h.held, h.task_copy, h.done_empty⟩

/-- A round on a stopped worker installs its environment, with prefetcher 0, as
`w.current`; then `close`, and `mainLoop` returns. -/
def exitSchedule : List Action :=
  [.chainHead sampleHead, .newWorkChainHead, .mainNewWork, .close, .mainExit]

/-- `prefetchers_accounted` at the end of `exitSchedule`: prefetcher 0 was
started for the round and `mainLoop`'s exit stopped it. -/
theorem prefetchers_accounted_exit :
    ∃ s, (Sys.init basicBackend false).run basicBackend exitSchedule = some s ∧
      s.nextPrefetcher = 1 ∧ s.main = .done ∧
      s.prefetchers.Nodup ∧ (∀ x ∈ s.prefetchers, ∃ env ∈ s.envs, env.state.prefetcher = some x) ∧
      (∀ task env after, s.main = .task task env after → env.state.prefetcher = none) ∧
      (s.main = .done → s.prefetchers = []) := by
  obtain ⟨s, hrun, hnext, hmain⟩ : ∃ s, (Sys.init basicBackend false).run basicBackend exitSchedule =
      some s ∧ s.nextPrefetcher = 1 ∧ s.main = .done := ⟨_, rfl, rfl, rfl⟩
  exact ⟨s, hrun, hnext, hmain, prefetchers_accounted (by simp [exitSchedule]) hrun⟩

end Discard

end QuaiWorker
