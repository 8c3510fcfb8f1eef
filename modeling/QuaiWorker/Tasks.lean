import QuaiWorker.Interrupt

/-!
# The pending-task table is a map keyed by seal hash

`taskLoop` stores every task it receives with `w.pendingTasks[sealHash] = task`,
`sealHash` being the seal hash of the task's block, and `clearPending`, called by
`newWorkLoop` on a new head and by `GeneratePendingHeader`, deletes the stale
entries.  The model keeps the Go map as a list of entries: a receive drops the
entry under the task's key, if any, and puts the new one in front.

Every step of the system keeps the table, deletes entries from it, or is
`taskLoop`'s receive (`Sys.step_pendingTasks`).  Both kinds of change keep the
list a map keyed by seal hash.

**Results.**
* `Sys.step_pendingTasks`: what a step can do to the table.
* `pending_tasks_keyed`: the representation invariant of the list encoding: in
  every reachable state every entry is stored under the seal hash of its
  task's block, and no key occurs twice, as in the Go map.
-/

namespace QuaiWorker

section Tasks

variable {σ ι : Type} {b : Backend σ ι}

namespace Sys

variable {s s' : Sys σ ι}

@[simp] theorem resume_pendingTasks (addTxs : Option Nat) :
    (s.resume addTxs).worker.pendingTasks = s.worker.pendingTasks := rfl

@[simp] theorem withSnapshot_pendingTasks (env : Environment σ) :
    (s.withSnapshot env).worker.pendingTasks = s.worker.pendingTasks := rfl

@[simp] theorem afterCommit_pendingTasks (after : AfterCommit σ) :
    (s.afterCommit after).worker.pendingTasks = s.worker.pendingTasks := by
  cases after <;> rfl

@[simp] theorem commitEnv_pendingTasks (env : Environment σ) (after : AfterCommit σ) :
    (s.commitEnv b env after).worker.pendingTasks = s.worker.pendingTasks := by
  unfold commitEnv
  split
  · dsimp only
    split <;> simp
  · simp

@[simp] theorem nextBatch_pendingTasks (round : Round σ)
    (rest : List (List (Address × List Transaction))) :
    (s.nextBatch b round rest).worker.pendingTasks = s.worker.pendingTasks := by
  cases rest <;> simp [nextBatch]

@[simp] theorem commitWork_pendingTasks (interrupt : Option Nat) (timestamp : Int)
    (addTxs : Option Nat) :
    (s.commitWork b interrupt timestamp addTxs).worker.pendingTasks = s.worker.pendingTasks := by
  unfold commitWork
  split
  · simp
  · dsimp only
    split <;> simp

@[simp] theorem sideEvent_pendingTasks (block : Block) :
    (s.sideEvent b block).worker.pendingTasks = s.worker.pendingTasks := by
  have hadd : (s.addSideBlock b block).worker.pendingTasks = s.worker.pendingTasks := by
    dsimp only [addSideBlock]
    split_ifs <;> rfl
  unfold sideEvent
  dsimp only
  split
  · rfl
  · repeat' split
    all_goals simp [hadd]

@[simp] theorem cleanTick_pendingTasks : s.cleanTick.worker.pendingTasks = s.worker.pendingTasks := by
  unfold cleanTick
  split <;> rfl

@[simp] theorem txsEvent_pendingTasks (txs : List Transaction) :
    (s.txsEvent b txs).worker.pendingTasks = s.worker.pendingTasks := by
  unfold txsEvent
  dsimp only
  repeat' split
  all_goals simp

/-- A step keeps the pending-task table or deletes entries from it, or is
`taskLoop`'s receive of a task, which replaces any entry under the task's seal
hash. -/
theorem step_pendingTasks {a : Action} (hs : s.step b a = some s') :
    s'.worker.pendingTasks.Sublist s.worker.pendingTasks ∨
      ∃ task : Task σ, s'.worker.pendingTasks = (b.sealHash task.block.header, task) ::
        s.worker.pendingTasks.filter fun entry => entry.1 != b.sealHash task.block.header := by
  have keep : ∀ {s₁ : Sys σ ι}, s₁.worker.pendingTasks = s.worker.pendingTasks →
      s₁.worker.pendingTasks.Sublist s.worker.pendingTasks ∨
        ∃ task : Task σ, s₁.worker.pendingTasks = (b.sealHash task.block.header, task) ::
          s.worker.pendingTasks.filter fun entry => entry.1 != b.sealHash task.block.header :=
    fun h => .inl (h ▸ List.Sublist.refl _)
  cases a with
  | taskRecv =>
      obtain ⟨task, _, _, -, rfl⟩ := taskRecv_some hs
      exact .inr ⟨task, by simp⟩
  | newWorkStart =>
      simp only [Sys.step] at hs
      split at hs <;> cases hs
      refine .inl ?_
      split
      · exact List.filter_sublist _
      · exact List.Sublist.refl _
  | newWorkChainHead =>
      simp only [Sys.step] at hs
      split at hs <;> cases hs
      exact .inl (List.filter_sublist _)
  | generatePendingHeader header =>
      simp only [Sys.step] at hs
      split at hs <;> cases hs <;>
        (rw [generatePendingHeader_worker]; exact .inl (List.filter_sublist _))
  | mainNewWork =>
      obtain ⟨_, -, -, rfl⟩ := step_mainNewWork hs
      exact keep (by simp)
  | mainChainSide =>
      obtain ⟨_, _, -, -, rfl⟩ := step_mainChainSide hs
      exact keep (by simp)
  | mainCleanTick =>
      obtain ⟨-, rfl⟩ := step_mainCleanTick hs
      exact keep (by simp)
  | mainTxs =>
      obtain ⟨_, _, -, -, rfl⟩ := step_mainTxs hs
      exact keep (by simp)
  | mainTaskExit =>
      obtain ⟨_, _, _, -, -, rfl⟩ := step_mainTaskExit hs
      exact keep (by simp)
  | mainRound =>
      rcases roundStep_some hs with ⟨_, _, _, _, _, -, -, rfl⟩ | ⟨_, _, _, _, -, -, -, rfl⟩ |
          ⟨_, _, _, _, -, -, -, rfl⟩ | ⟨_, _, _, _, -, -, rfl⟩ | ⟨_, _, _, _, _, -, -, rfl⟩ |
          ⟨_, _, _, -, -, rfl⟩ <;>
        exact keep (by simp)
  | _ =>
      simp only [Sys.step] at hs
      repeat' split at hs
      all_goals first
        | (cases hs; exact keep rfl)
        | cases hs

end Sys

/-- The entries of the pending-task table are stored under the seal hash of
their task's block, and no key occurs twice: the list is the Go map. -/
structure TasksKeyed (b : Backend σ ι) (tasks : List (Hash × Task σ)) : Prop where
  key_eq : ∀ hash task, (hash, task) ∈ tasks → hash = b.sealHash task.block.header
  nodup : (tasks.map Prod.fst).Nodup

namespace TasksKeyed

variable {tasks tasks' : List (Hash × Task σ)}

/-- Deleting entries keeps the table a map. -/
theorem sublist (h : TasksKeyed b tasks) (hsub : tasks'.Sublist tasks) : TasksKeyed b tasks' :=
  ⟨fun hash task hm => h.key_eq hash task (hsub.subset hm), h.nodup.sublist (hsub.map _)⟩

/-- `pendingTasks[sealHash] = task` keeps the table a map. -/
theorem insert (h : TasksKeyed b tasks) (task : Task σ) :
    TasksKeyed b ((b.sealHash task.block.header, task) ::
      tasks.filter fun entry => entry.1 != b.sealHash task.block.header) := by
  refine ⟨fun hash task' hm => ?_,
    List.nodup_cons.mpr ⟨?_, h.nodup.sublist ((List.filter_sublist _).map _)⟩⟩
  · rcases List.mem_cons.mp hm with heq | hm
    · cases heq
      rfl
    · exact h.key_eq hash task' (List.mem_of_mem_filter hm)
  · simp

/-- Every step keeps the table a map. -/
theorem step {s s' : Sys σ ι} {a : Action} (h : TasksKeyed b s.worker.pendingTasks)
    (hs : s.step b a = some s') :
    TasksKeyed b s'.worker.pendingTasks := by
  rcases Sys.step_pendingTasks hs with hsub | ⟨task, htasks⟩
  · exact h.sublist hsub
  · rw [htasks]
    exact h.insert task

end TasksKeyed

/-- In every reachable state `pendingTasks` is a map keyed by seal hash: every
task is stored under the seal hash of its block, and no key occurs twice. -/
theorem pending_tasks_keyed {start : Bool} {s : Sys σ ι} (h : Reachable b start s) :
    TasksKeyed b s.worker.pendingTasks := by
  induction h with
  | init =>
      exact ⟨fun _ _ hmem => (nomatch hmem), List.nodup_nil⟩
  | step _ _ hs ih =>
      exact ih.step hs

end Tasks

end QuaiWorker
