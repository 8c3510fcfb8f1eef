import QuaiWorker.System

/-!
# The environments of the system

The worker holds environments in `w.current` and, while `mainLoop` is in a
round, in the round's locals: the environment it fills, and in `commit` the
environment it publishes and the one it installs next.  Every one of them comes
from `prepareWork`, and from there only through the operations `EnvPreserved`
lists: `copy`, `adjustGasLimit`, the gas-pool allocation of
`commitTransactions`, an iteration of its loop, and `commitUncle` while the
environment holds fewer than two uncles.

**Results.**
* `EnvPreserved.commitTransactions`, `EnvPreserved.fillTransactions`,
  `EnvPreserved.commitUncles`: what the operations keep, whole calls keep.
* `Sys.step_envs`: a property the operations keep, and that the environments
  `prepareWork` makes in the current state have, holds of every environment
  after a step when it held of every one before.
* `Reachable.envs`: so it holds of every environment of every reachable state.
-/

namespace QuaiWorker

section Envs

variable {σ ι : Type} {b : Backend σ ι}

/-- The environment `commit` installs next, if any. -/
def AfterCommit.envs : AfterCommit σ → List (Environment σ)
  | .install work _ => [work]
  | .resume => []

/-- The environments of `mainLoop`'s round in flight. -/
def MainPc.envs : MainPc σ ι → List (Environment σ)
  | .fill round _ _ => [round.work]
  | .adjust round _ _ => [round.work]
  | .task _ env after => env :: after.envs
  | _ => []

/-- The environments the system holds. -/
def Sys.envs (s : Sys σ ι) : List (Environment σ) := s.worker.current.toList ++ s.main.envs

/-- A property of environments that every operation of the worker on an
environment keeps. -/
structure EnvPreserved (b : Backend σ ι) (P : Environment σ → Prop) : Prop where
  copy : ∀ env, P env → P env.copy
  adjustGasLimit : ∀ head env, P env → P (adjustGasLimit b head env)
  initGasPool : ∀ env, P env → P { env with gasPool := some env.header.gasLimit }
  loop : ∀ env txs load env', P env →
    ((∃ txs', commitTransactionsStep b env txs load = .next env' txs') ∨
      commitTransactionsStep b env txs load = .exit env') → P env'
  commitUncle : ∀ env uncle env', P env → env.uncles.length < 2 →
    commitUncle b env uncle = .ok env' → P env'

namespace EnvPreserved

variable {P : Environment σ → Prop} (hP : EnvPreserved b P)
include hP

theorem commitTransactionsLoop {interrupt : Option (Nat → CommitInterrupt)}
    {env : Environment σ} {txs : ι} {k : Nat} (h : P env) :
    P (QuaiWorker.commitTransactionsLoop b interrupt env txs k).env := by
  induction env, txs, k using QuaiWorker.commitTransactionsLoop.induct b interrupt with
  | case1 env txs k env' txs' hstep ih =>
      rw [commitTransactionsLoop_next hstep]
      exact ih (hP.loop _ _ _ _ h (.inl ⟨_, hstep⟩))
  | case2 env txs k env' hstep =>
      rw [commitTransactionsLoop_exit hstep]
      exact hP.loop _ _ _ _ h (.inr hstep)
  | case3 env txs k adjust result hstep =>
      rw [commitTransactionsLoop_abort hstep]
      exact h

/-- The pool allocation at the top of `commitTransactions`. -/
theorem initGasPool' {env : Environment σ} (h : P env) :
    P (if env.gasPool = none then { env with gasPool := some env.header.gasLimit } else env) := by
  split
  · exact hP.initGasPool _ h
  · exact h

theorem commitTransactions {interrupt : Option (Nat → CommitInterrupt)} {env : Environment σ}
    {txs : ι} (h : P env) :
    P (QuaiWorker.commitTransactions b env txs interrupt).env :=
  hP.commitTransactionsLoop (hP.initGasPool' h)

theorem fillTransactions {pending : Except String (List (Address × List Transaction))}
    {locals : List Address} {interrupt : Option (Nat → CommitInterrupt)} {env : Environment σ}
    (h : P env) :
    P (QuaiWorker.fillTransactions b pending locals interrupt env).env :=
  fillTransactions_env (fun _ _ _ => hP.commitTransactions) h

/-- `prepareWork`'s uncle loop, which stops at two uncles. -/
theorem commitUncles {env : Environment σ} {pool : List (Hash × Block)} (h : P env)
    (hlen : env.uncles.length ≤ 2) :
    P (QuaiWorker.commitUncles b env pool) ∧ (QuaiWorker.commitUncles b env pool).uncles.length ≤ 2 := by
  induction pool generalizing env with
  | nil =>
      exact ⟨h, hlen⟩
  | cons entry pool ih =>
      unfold QuaiWorker.commitUncles
      split
      · exact ⟨h, hlen⟩
      · split
        · rename_i env' hok
          have hlt : env.uncles.length < 2 := by omega
          obtain ⟨-, rfl⟩ := (commitUncle_ok_iff b env env' _).mp hok
          exact ih (hP.commitUncle _ _ _ h hlt hok) (by simp; omega)
        · exact ih h hlen

/-- Every environment `prepareWork` returns has `P` when every one `makeEnv`
returns has it with no uncles. -/
theorem prepareWork {w : Worker σ} {head : Option Block} {id : Nat} {params : GenerateParams}
    {env : Environment σ}
    (hmake : ∀ parent header coinbase env, makeEnv b id parent header coinbase = .ok env → P env)
    (h : QuaiWorker.prepareWork b w head id params = .ok env) :
    P env := by
  obtain ⟨parent, header, env₀, hmk, rfl⟩ := prepareWork_ok h
  have hlen : env₀.uncles.length = 0 := by
    rw [(makeEnv_spec b id _ _ _ hmk).2.2.2.2.2.1]
    rfl
  obtain ⟨hlocal, hlocal_len⟩ : P (QuaiWorker.commitUncles b env₀ w.localUncles) ∧ _ :=
    hP.commitUncles (hmake _ _ _ _ hmk) (by omega)
  exact (hP.commitUncles hlocal hlocal_len).1

end EnvPreserved

namespace Sys

variable {P : Environment σ → Prop} {s : Sys σ ι}

@[simp] theorem mem_envs {env : Environment σ} :
    env ∈ s.envs ↔ s.worker.current = some env ∨ env ∈ s.main.envs := by
  simp [envs]

/-- Every environment the system holds has `P`. -/
def EnvsSatisfy (P : Environment σ → Prop) (s : Sys σ ι) : Prop := ∀ env ∈ s.envs, P env

theorem envsSatisfy_iff :
    s.EnvsSatisfy P ↔ (∀ env, s.worker.current = some env → P env) ∧ ∀ env ∈ s.main.envs, P env := by
  simp [EnvsSatisfy, or_imp, forall_and]

/-- A state with the same `w.current` and round as one whose environments have `P`. -/
theorem EnvsSatisfy.congr {s' : Sys σ ι} (h : s.EnvsSatisfy P)
    (hcur : s'.worker.current = s.worker.current) (hmain : s'.main = s.main) :
    s'.EnvsSatisfy P :=
  fun env he => h env (by rwa [Sys.envs, hcur, hmain] at he)

section Helpers

variable (hP : EnvPreserved b P) (hcur : ∀ env, s.worker.current = some env → P env)
include hcur

theorem resume_envs {addTxs : Option Nat} : (s.resume addTxs).EnvsSatisfy P :=
  envsSatisfy_iff.mpr ⟨hcur, fun _ he => nomatch he⟩

theorem afterCommit_envs {after : AfterCommit σ} (hafter : ∀ env ∈ after.envs, P env) :
    (s.afterCommit after).EnvsSatisfy P := by
  cases after with
  | install work addTxs =>
      exact envsSatisfy_iff.mpr ⟨fun _ he => Option.some.inj he ▸ hafter work (List.mem_singleton_self _),
        fun _ he => nomatch he⟩
  | resume =>
      exact resume_envs hcur

theorem commitEnv_envs {env : Environment σ} {after : AfterCommit σ} (henv : P env)
    (hafter : ∀ env ∈ after.envs, P env) :
    (s.commitEnv b env after).EnvsSatisfy P := by
  unfold commitEnv
  split
  · dsimp only
    split
    · exact afterCommit_envs hcur hafter
    · exact envsSatisfy_iff.mpr ⟨hcur, fun e he => (List.mem_cons.mp he).elim (· ▸ henv) (hafter e)⟩
  · refine afterCommit_envs ?_ hafter
    exact hcur

include hP

theorem nextBatch_envs {round : Round σ} {batches : List (List (Address × List Transaction))}
    (hwork : P round.work) :
    (s.nextBatch b round batches).EnvsSatisfy P := by
  cases batches with
  | nil =>
      exact commitEnv_envs hcur (hP.copy _ hwork) fun _ he => List.mem_singleton.mp he ▸ hwork
  | cons txs rest =>
      exact envsSatisfy_iff.mpr ⟨hcur, fun _ he => List.mem_singleton.mp he ▸ hP.initGasPool' hwork⟩

theorem commitWork_envs {interrupt : Option Nat} {timestamp : Int} {addTxs : Option Nat}
    (hfresh : ∀ w params env, prepareWork b w s.head s.nextPrefetcher params = .ok env → P env) :
    (s.commitWork b interrupt timestamp addTxs).EnvsSatisfy P := by
  unfold commitWork
  split
  · exact resume_envs hcur
  · dsimp only
    split
    · exact resume_envs hcur
    · refine nextBatch_envs hP ?_ (hP.adjustGasLimit _ _ (hfresh _ _ _ ‹_›))
      exact hcur

end Helpers

section Events

variable (hP : EnvPreserved b P) (h : s.EnvsSatisfy P)
include hP h

theorem sideEvent_envs {block : Block} : (s.sideEvent b block).EnvsSatisfy P := by
  have hcur := (envsSatisfy_iff.mp h).1
  unfold sideEvent
  dsimp only
  split
  · exact h
  · split
    · rename_i current hcurrent
      rw [addSideBlock_current] at hcurrent
      split
      · split
        · rename_i hguard _ current' hok
          have hP' : P current' := hP.commitUncle _ _ _ (hcur _ hcurrent) hguard.2 hok
          refine commitEnv_envs ?_ (hP.copy _ hP') (by simp [AfterCommit.envs])
          simpa using hP'
        · exact h.congr (by simp) (by simp)
      · exact h.congr (by simp) (by simp)
    · exact h.congr (by simp) (by simp)

theorem txsEvent_envs {txs : List Transaction}
    (hfresh : ∀ w params env, prepareWork b w s.head s.nextPrefetcher params = .ok env → P env) :
    (s.txsEvent b txs).EnvsSatisfy P := by
  have hcur := (envsSatisfy_iff.mp h).1
  unfold txsEvent
  dsimp only
  split
  · rename_i current _ hcurrent
    split
    · exact h
    · have hbatch : ∀ txs, P (commitTransactions b current txs none).env :=
        fun _ => hP.commitTransactions (hcur _ hcurrent)
      split <;> refine resume_envs ?_ <;> simpa using hbatch _
  · split
    · exact commitWork_envs hP hcur hfresh
    · exact resume_envs hcur

theorem roundStep_envs {s' : Sys σ ι} (hs : s.roundStep b = some s') : s'.EnvsSatisfy P := by
  obtain ⟨hcur, hmain⟩ := envsSatisfy_iff.mp h
  have hwork : ∀ {round txs rest}, s.main = .fill round txs rest → P round.work :=
    fun hm => hmain _ (by simp [hm, MainPc.envs])
  rcases roundStep_some hs with ⟨_, _, _, _, _, hm, hstep, rfl⟩ | ⟨_, _, _, _, hm, hstep, -, rfl⟩ |
      ⟨_, _, _, _, hm, hstep, -, rfl⟩ | ⟨_, _, _, _, hm, -, rfl⟩ | ⟨_, _, _, _, _, hm, -, rfl⟩ |
      ⟨_, _, _, hm, -, rfl⟩
  · exact envsSatisfy_iff.mpr ⟨hcur, fun _ he =>
      List.mem_singleton.mp he ▸ hP.loop _ _ _ _ (hwork hm) (.inl ⟨_, hstep⟩)⟩
  · exact envsSatisfy_iff.mpr ⟨hcur, fun _ he => List.mem_singleton.mp he ▸ hP.loop _ _ _ _ (hwork hm) (.inr hstep)⟩
  · exact nextBatch_envs hP hcur (hP.loop _ _ _ _ (hwork hm) (.inr hstep))
  · exact commitEnv_envs hcur (hP.copy _ (hwork hm)) (by simp [AfterCommit.envs, hwork hm])
  · exact envsSatisfy_iff.mpr ⟨hcur, fun _ he => List.mem_singleton.mp he ▸ hwork hm⟩
  · refine nextBatch_envs hP ?_ (hmain _ (by simp [hm, MainPc.envs]))
    exact hcur

omit hP in
theorem taskRecv_envs {s' : Sys σ ι} (hs : s.taskRecv b = some s') : s'.EnvsSatisfy P := by
  obtain ⟨hcur, hmain⟩ := envsSatisfy_iff.mp h
  obtain ⟨_, _, _, hm, rfl⟩ := taskRecv_some hs
  refine afterCommit_envs ?_ fun e he => hmain e (by simp [hm, MainPc.envs, he])
  exact hcur

/-- Every step keeps `P` of every environment of the system. -/
theorem step_envs {a : Action} {s' : Sys σ ι}
    (hfresh : ∀ w params env, prepareWork b w s.head s.nextPrefetcher params = .ok env → P env)
    (hs : s.step b a = some s') :
    s'.EnvsSatisfy P := by
  obtain ⟨hcur, hmain⟩ := envsSatisfy_iff.mp h
  cases a with
  | mainNewWork =>
      obtain ⟨_, -, -, rfl⟩ := step_mainNewWork hs
      refine commitWork_envs hP ?_ ?_
      exacts [hcur, hfresh]
  | mainChainSide =>
      obtain ⟨_, _, -, -, rfl⟩ := step_mainChainSide hs
      refine sideEvent_envs hP ?_
      exact h.congr rfl rfl
  | mainTxs =>
      obtain ⟨_, _, -, -, rfl⟩ := step_mainTxs hs
      refine txsEvent_envs hP ?_ ?_
      exacts [h.congr rfl rfl, hfresh]
  | mainExit =>
      obtain ⟨-, -, rfl⟩ := step_mainExit hs
      exact envsSatisfy_iff.mpr ⟨hcur, fun _ he => nomatch he⟩
  | mainRound =>
      exact roundStep_envs hP h hs
  | mainTaskExit =>
      obtain ⟨_, _, _, hm, -, rfl⟩ := step_mainTaskExit hs
      refine afterCommit_envs ?_ fun e he => hmain e (by simp [hm, MainPc.envs, he])
      exact hcur
  | taskRecv =>
      exact taskRecv_envs h hs
  | generatePendingHeader header =>
      simp only [Sys.step] at hs
      split at hs <;> cases hs <;> exact h.congr (by simp) rfl
  | _ =>
      simp only [Sys.step] at hs
      repeat' split at hs
      all_goals first
        | (cases hs; exact h.congr rfl rfl)
        | (cases hs; exact h.congr (by simp) (by simp))
        | cases hs

end Events

end Sys

/-- `P`, kept by every operation on environments and true of every environment
`prepareWork` makes, holds of every environment of every reachable state. -/
theorem Reachable.envs {start : Bool} {P : Environment σ → Prop} {s : Sys σ ι}
    (hP : EnvPreserved b P)
    (hfresh : ∀ w head id params env, prepareWork b w head id params = .ok env → P env)
    (h : Reachable b start s) : s.EnvsSatisfy P := by
  induction h with
  | init =>
      simp [Sys.EnvsSatisfy, Sys.envs, Sys.init, MainPc.envs]
  | step a _ hs ih =>
      exact Sys.step_envs hP ih (fun w params env => hfresh w _ _ params env) hs

end Envs

end QuaiWorker
