import QuaiWorker.Interrupt

/-!
# The interrupt cells and what `mainLoop` writes

`newWorkLoop` signals a round in flight through the round's interrupt cell: its
`commit` helper stores the signal into the cell of its last request, then
allocates a fresh cell for the next one.  Nothing else writes a cell.
`mainLoop` and `taskLoop`, for their part, write the worker's fields, the
running prefetchers and their own positions; `mainLoop` reaches `newWorkLoop`
only through the `newWorkCh` rendezvous and through `resubmitAdjustCh`, from
its `adjust` position.

**Results.**
* `Sys.MainOnly`: what the code `mainLoop` runs within one step changes, with
  one lemma per helper (`commitWork_mainOnly`, `sideEvent_mainOnly`, ...), and
  `Sys.roundStep_cases` for a round step, the one step that sends on
  `resubmitAdjustCh`.
* `Sys.newWorkCommit_cell`: `commit` stores into its current cell only.
* `stored_signal_kept`: in every reachable state `newWorkLoop`'s current cell is
  the last one and still holds `commitInterruptNone`, so along every run a
  signal stored into a cell stays there.
-/

namespace QuaiWorker

section Signals

variable {σ ι : Type} {b : Backend σ ι}

namespace MainPc

/-- The round `mainLoop` is in: at the top of a batch, or on its send. -/
def round : MainPc σ ι → Option (Round σ)
  | .fill round _ _ => some round
  | .adjust round _ _ => some round
  | _ => none

/-- `mainLoop` is not on its send to `resubmitAdjustCh`, and a round it is in
reads cell `interrupt`. -/
def Batching (interrupt : Option Nat) : MainPc σ ι → Prop
  | .fill round _ _ => round.interrupt = interrupt
  | .adjust .. => False
  | _ => True

theorem Batching.round_interrupt {interrupt : Option Nat} {m : MainPc σ ι} {round : Round σ}
    (h : m.Batching interrupt) (hround : m.round = some round) :
    round.interrupt = interrupt := by
  cases m <;> simp_all [MainPc.round, Batching]

end MainPc

namespace Sys

variable {s s' : Sys σ ι} {interrupt : Option Nat}

/-- `s'` differs from `s` only in what `mainLoop` and `taskLoop` write: the
worker, the running prefetchers and the two loops' positions, with `mainLoop`
batching on cell `interrupt`. -/
def MainOnly (interrupt : Option Nat) (s s' : Sys σ ι) : Prop :=
  ∃ worker prefetchers nextPrefetcher main taskLoop,
    s' = { s with worker, prefetchers, nextPrefetcher, main, taskLoop } ∧ main.Batching interrupt

theorem mainOnly_self (h : s.main.Batching interrupt) : s.MainOnly interrupt s :=
  ⟨_, _, _, _, _, rfl, h⟩

/-- Writing `mainLoop`'s data and then making a `MainOnly` change is one
`MainOnly` change. -/
theorem MainOnly.of_update {worker : Worker σ} {prefetchers : List Nat} {nextPrefetcher : Nat}
    {main : MainPc σ ι} {taskLoop : TaskLoop}
    (h : MainOnly interrupt { s with worker, prefetchers, nextPrefetcher, main, taskLoop } s') :
    s.MainOnly interrupt s' := by
  obtain ⟨w, ps, n, m, t, rfl, hm⟩ := h
  exact ⟨w, ps, n, m, t, rfl, hm⟩

/-- What a `MainOnly` change keeps: the cells, `newWorkLoop`'s locals and the
buffer of `resubmitAdjustCh`; and a round `mainLoop` is in after it reads cell
`interrupt`. -/
theorem MainOnly.frame (h : s.MainOnly interrupt s') :
    s'.cells = s.cells ∧ s'.newWork = s.newWork ∧ s'.resubmitAdjustCh = s.resubmitAdjustCh ∧
      s'.main.Batching interrupt := by
  obtain ⟨_, _, _, _, _, rfl, hm⟩ := h
  exact ⟨rfl, rfl, rfl, hm⟩

theorem resume_mainOnly (addTxs : Option Nat) : s.MainOnly interrupt (s.resume addTxs) :=
  ⟨_, _, _, _, _, rfl, trivial⟩

theorem afterCommit_mainOnly (after : AfterCommit σ) :
    s.MainOnly interrupt (s.afterCommit after) := by
  cases after <;> exact ⟨_, _, _, _, _, rfl, trivial⟩

/-- `commit` ends every round: `mainLoop` is back in its `select`, or waits on
`taskCh`. -/
theorem commitEnv_round (env : Environment σ) (after : AfterCommit σ) :
    (s.commitEnv b env after).main.round = none := by
  unfold commitEnv
  split
  · dsimp only
    split
    · cases after <;> rfl
    · rfl
  · cases after <;> rfl

theorem commitEnv_mainOnly (env : Environment σ) (after : AfterCommit σ) :
    s.MainOnly interrupt (s.commitEnv b env after) := by
  unfold commitEnv
  split
  · dsimp only
    split
    · exact afterCommit_mainOnly after
    · exact ⟨_, _, _, _, _, rfl, trivial⟩
  · cases after <;> exact ⟨_, _, _, _, _, rfl, trivial⟩

theorem nextBatch_mainOnly (round : Round σ) (batches : List (List (Address × List Transaction))) :
    s.MainOnly round.interrupt (s.nextBatch b round batches) := by
  cases batches with
  | nil =>
      exact commitEnv_mainOnly _ _
  | cons txs rest =>
      exact ⟨_, _, _, _, _, rfl, rfl⟩

/-- The next batch of a round starts with the worker as it was. -/
theorem nextBatch_worker {round round' : Round σ} {batches : List (List (Address × List Transaction))}
    (h : (s.nextBatch b round batches).main.round = some round') :
    (s.nextBatch b round batches).worker = s.worker := by
  cases batches with
  | nil =>
      rw [nextBatch, commitEnv_round] at h
      cases h
  | cons txs rest =>
      rfl

theorem commitWork_mainOnly (timestamp : Int) (addTxs : Option Nat) :
    s.MainOnly interrupt (s.commitWork b interrupt timestamp addTxs) := by
  unfold commitWork
  split
  · exact resume_mainOnly addTxs
  · dsimp only
    split
    · exact resume_mainOnly addTxs
    · exact (nextBatch_mainOnly _ _).of_update

section Select

variable (h : s.main = .select)
include h

theorem select_mainOnly {worker : Worker σ} : s.MainOnly interrupt { s with worker } :=
  ⟨_, _, _, _, _, rfl, by rw [h]; trivial⟩

theorem sideEvent_mainOnly (block : Block) : s.MainOnly interrupt (s.sideEvent b block) := by
  obtain ⟨worker, hadd⟩ : ∃ worker, s.addSideBlock b block = { s with worker } := by
    dsimp only [addSideBlock]
    split_ifs <;> exact ⟨_, rfl⟩
  unfold sideEvent
  dsimp only
  rw [hadd]
  split
  · exact mainOnly_self (by rw [h]; trivial)
  · split
    · split
      · split
        · exact (commitEnv_mainOnly _ _).of_update
        · exact select_mainOnly h
      · exact select_mainOnly h
    · exact select_mainOnly h

theorem txsEvent_mainOnly (txs : List Transaction) : s.MainOnly none (s.txsEvent b txs) := by
  unfold txsEvent
  dsimp only
  split
  · split
    · exact mainOnly_self (by rw [h]; trivial)
    · split <;> exact ⟨_, _, _, _, _, rfl, trivial⟩
  · split
    · exact commitWork_mainOnly _ _
    · exact resume_mainOnly _

theorem cleanTick_mainOnly : s.MainOnly interrupt s.cleanTick := by
  unfold cleanTick
  split
  · exact select_mainOnly h
  · exact mainOnly_self (by rw [h]; trivial)

end Select

theorem taskRecv_mainOnly (hs : s.taskRecv b = some s') : s.MainOnly interrupt s' := by
  obtain ⟨_, _, _, -, rfl⟩ := taskRecv_some hs
  exact (afterCommit_mainOnly _).of_update

/-- A round step makes a `MainOnly` change that keeps the round's cell and,
while the round goes on, the worker; or moves `mainLoop` onto its send on
`resubmitAdjustCh`, with a decrease after a batch that ran out of work or with
the fill ratio after a load of `commitInterruptResubmit`; or completes that
send. -/
theorem roundStep_cases (hs : s.roundStep b = some s') :
    (∃ round txs rest, s.main = .fill round txs rest ∧ s.MainOnly round.interrupt s' ∧
      ∀ round', s'.main.round = some round' → s'.worker = s.worker) ∨
    (∃ round txs rest round' msg, s.main = .fill round txs rest ∧
      round'.interrupt = round.interrupt ∧
      (msg = { ratio := 0, inc := false } ∨
        round.interrupt.map s.cell = some .resubmit ∧
          msg = { ratio := fillRatio round.work, inc := true }) ∧
      s' = { s with main := .adjust round' msg rest }) ∨
    (∃ round msg rest, s.main = .adjust round msg rest ∧
      s.resubmitAdjustCh.length < resubmitAdjustChanSize ∧
      s' = { s with resubmitAdjustCh := s.resubmitAdjustCh ++ [msg] }.nextBatch b round rest) := by
  rcases roundStep_some hs with ⟨round, txs, rest, _, _, hmain, -, rfl⟩ |
      ⟨round, txs, rest, _, hmain, -, -, rfl⟩ | ⟨round, txs, rest, _, hmain, -, -, rfl⟩ |
      ⟨round, txs, rest, _, hmain, -, rfl⟩ | ⟨round, txs, rest, _, _, hmain, hstep, rfl⟩ |
      ⟨round, msg, rest, hmain, hch, rfl⟩
  · exact .inl ⟨round, txs, rest, hmain, ⟨_, _, _, _, _, rfl, rfl⟩, fun _ _ => rfl⟩
  · refine .inr (.inl ⟨round, txs, rest, _, _, hmain, ?_, .inl rfl, rfl⟩)
    rfl
  · exact .inl ⟨round, txs, rest, hmain, nextBatch_mainOnly _ _, fun _ => nextBatch_worker⟩
  · refine .inl ⟨round, txs, rest, hmain, commitEnv_mainOnly _ _, fun _ hround => ?_⟩
    rw [commitEnv_round] at hround
    cases hround
  · rcases commitTransactionsStep_abort hstep with ⟨-, hnone, -⟩ | ⟨hload, hmsg, -⟩
    · cases hnone
    · cases hmsg
      exact .inr (.inl ⟨round, txs, rest, round, _, hmain, rfl, .inr ⟨hload, rfl⟩, rfl⟩)
  · exact .inr (.inr ⟨round, msg, rest, hmain, hch, rfl⟩)

/-- `newWorkLoop`'s interrupt index names the last cell allocated, which still
holds `commitInterruptNone`. -/
def CellsWellFormed (s : Sys σ ι) : Prop :=
  ∀ c, s.newWork.interrupt = some c → c + 1 = s.cells.length ∧ s.cell c = .none

/-- A fresh cell at the end changes no cell's value. -/
theorem getD_append_none (cells : List CommitInterrupt) (c : Nat) :
    (cells ++ [CommitInterrupt.none]).getD c .none = cells.getD c .none := by
  rcases Nat.lt_or_ge c cells.length with hc | hc
  · exact List.getD_append _ _ _ _ hc
  · rw [List.getD_append_right _ _ _ _ hc, List.getD_eq_default _ _ hc]
    simp

/-- `commit` stores its signal into its current cell, and into no other. -/
theorem newWorkCommit_cell (h : s.CellsWellFormed) (noempty : Bool) (signal : CommitInterrupt)
    (c : Nat) :
    (s.newWorkCommit noempty signal).cell c =
      if s.newWork.interrupt = some c then signal else s.cell c := by
  unfold newWorkCommit cell
  dsimp only
  rw [getD_append_none]
  cases hi : s.newWork.interrupt with
  | none =>
      rfl
  | some c₀ =>
      have hlt : c₀ < s.cells.length := by have := (h c₀ hi).1; omega
      simp only [Option.some.injEq, List.getD_eq_getElem?_getD, List.getElem?_set, if_pos hlt]
      split_ifs <;> rfl

@[simp] theorem newWorkCommit_interrupt (noempty : Bool) (signal : CommitInterrupt) :
    (s.newWorkCommit noempty signal).newWork.interrupt = some s.cells.length := by
  unfold newWorkCommit
  split <;> simp

@[simp] theorem newWorkCommit_pc (noempty : Bool) (signal : CommitInterrupt) :
    (s.newWorkCommit noempty signal).newWork.pc =
      .send { interrupt := s.cells.length, noempty, timestamp := s.newWork.timestamp } := by
  unfold newWorkCommit
  split <;> simp

@[simp] theorem newWorkCommit_length (noempty : Bool) (signal : CommitInterrupt) :
    (s.newWorkCommit noempty signal).cells.length = s.cells.length + 1 := by
  unfold newWorkCommit
  split <;> simp

namespace CellsWellFormed

variable (h : s.CellsWellFormed)
include h

/-- A step that leaves the cells and the interrupt index alone keeps the
invariant and every cell. -/
theorem of_frame (hc : s'.cells = s.cells) (hi : s'.newWork.interrupt = s.newWork.interrupt) :
    s'.CellsWellFormed ∧ ∀ c, s.cell c ≠ .none → s'.cell c = s.cell c :=
  ⟨fun c hic => by simpa [cell, hc] using h c (hi ▸ hic), fun c _ => by simp only [cell, hc]⟩

/-- `commit`, from a state with the same cells and interrupt index, keeps the
invariant and every cell that holds a signal. -/
theorem commit {s₀ : Sys σ ι} (hc : s₀.cells = s.cells)
    (hi : s₀.newWork.interrupt = s.newWork.interrupt) (noempty : Bool) (signal : CommitInterrupt) :
    (s₀.newWorkCommit noempty signal).CellsWellFormed ∧
      ∀ c, s.cell c ≠ .none → (s₀.newWorkCommit noempty signal).cell c = s.cell c := by
  obtain ⟨h₀, hcell⟩ := h.of_frame hc hi
  refine ⟨fun c hic => ?_, fun c hne => ?_⟩
  · obtain rfl : s₀.cells.length = c := by simpa using hic
    have hfresh : s₀.newWork.interrupt ≠ some s₀.cells.length := fun hi => by
      have := (h₀ _ hi).1
      omega
    refine ⟨(newWorkCommit_length _ _).symm, ?_⟩
    rw [newWorkCommit_cell h₀, if_neg hfresh]
    exact List.getD_eq_default _ _ le_rfl
  · rw [newWorkCommit_cell h₀, hcell c hne, if_neg]
    intro hic
    exact hne ((h c (hi ▸ hic)).2)

theorem of_mainOnly {s₀ : Sys σ ι} {interrupt : Option Nat} (hm : s₀.MainOnly interrupt s')
    (hc : s₀.cells = s.cells) (hi : s₀.newWork.interrupt = s.newWork.interrupt) :
    s'.CellsWellFormed ∧ ∀ c, s.cell c ≠ .none → s'.cell c = s.cell c :=
  let ⟨hc', hn, _⟩ := hm.frame
  h.of_frame (hc'.trans hc) (by rw [hn, hi])

/-- Every step keeps the invariant, and changes no cell that holds a signal. -/
theorem step {a : Action} (hs : s.step b a = some s') :
    s'.CellsWellFormed ∧ ∀ c, s.cell c ≠ .none → s'.cell c = s.cell c := by
  cases a with
  | newWorkStart =>
      simp only [Sys.step] at hs
      split at hs <;> cases hs
      exact h.commit (by split <;> rfl) (by split <;> rfl) _ _
  | newWorkChainHead =>
      simp only [Sys.step] at hs
      split at hs <;> cases hs
      exact h.commit (by rfl) (by rfl) _ _
  | newWorkTimer =>
      obtain ⟨-, ⟨_, rfl⟩ | ⟨-, rfl⟩⟩ := step_newWorkTimer hs
      · exact h.of_frame rfl rfl
      · exact h.commit (by rfl) (by rfl) _ _
  | mainNewWork =>
      obtain ⟨_, -, -, rfl⟩ := step_mainNewWork hs
      exact h.of_mainOnly (commitWork_mainOnly _ _) rfl rfl
  | mainChainSide =>
      obtain ⟨_, _, hmain, -, rfl⟩ := step_mainChainSide hs
      exact h.of_mainOnly (sideEvent_mainOnly (by exact hmain) _ : MainOnly none _ _) rfl rfl
  | mainCleanTick =>
      obtain ⟨hmain, rfl⟩ := step_mainCleanTick hs
      exact h.of_mainOnly (cleanTick_mainOnly hmain : MainOnly none _ _) rfl rfl
  | mainTxs =>
      obtain ⟨_, _, hmain, -, rfl⟩ := step_mainTxs hs
      exact h.of_mainOnly (txsEvent_mainOnly (by exact hmain) _) rfl rfl
  | mainTaskExit =>
      obtain ⟨_, _, _, -, -, rfl⟩ := step_mainTaskExit hs
      exact h.of_mainOnly ((afterCommit_mainOnly _).of_update : MainOnly none _ _) rfl rfl
  | mainRound =>
      rcases roundStep_cases hs with ⟨_, _, _, -, hm, -⟩ | ⟨_, _, _, _, _, -, -, -, rfl⟩ |
        ⟨_, _, _, -, -, rfl⟩
      · exact h.of_mainOnly hm rfl rfl
      · exact h.of_frame rfl rfl
      · exact h.of_mainOnly (nextBatch_mainOnly _ _) rfl rfl
  | taskRecv =>
      exact h.of_mainOnly (taskRecv_mainOnly hs : MainOnly none _ _) rfl rfl
  | _ =>
      simp only [Sys.step] at hs
      repeat' split at hs
      all_goals first
        | (cases hs; exact h.of_frame rfl rfl)
        | cases hs

end CellsWellFormed

end Sys

/-- In every reachable state `newWorkLoop`'s current cell is the last one and
holds `commitInterruptNone`. -/
theorem Reachable.cellsWellFormed {start : Bool} {s : Sys σ ι} (h : Reachable b start s) :
    s.CellsWellFormed := by
  induction h with
  | init =>
      intro c hc
      cases hc
  | step _ _ hs ih =>
      exact (ih.step hs).1

/-- From every reachable state, along every run, a cell that holds a signal keeps
it: `newWorkLoop` stores into a cell at most once. -/
theorem stored_signal_kept {start : Bool} {s s' : Sys σ ι} {actions : List Action} {c : Nat}
    (h : Reachable b start s) (hrun : s.run b actions = some s') (hc : s.cell c ≠ .none) :
    s'.cell c = s.cell c :=
  (Sys.run_invariant (fun s' => s'.CellsWellFormed ∧ s'.cell c = s.cell c)
    (fun _ _ _ _ ⟨hwf, heq⟩ hs => ⟨(hwf.step hs).1, ((hwf.step hs).2 c (heq ▸ hc)).trans heq⟩)
    ⟨h.cellsWellFormed, rfl⟩ hrun).2

/-- The cell of the round that `newHeadSchedule` interrupts holds
`commitInterruptNewHead`, and keeps it while the round commits, hands its task
over and the next round starts. -/
theorem stored_signal_kept_newHead :
    ∃ s s', (Sys.init basicBackend false).run basicBackend newHeadSchedule = some s ∧
      s.cell 0 = .newHead ∧
      s.run basicBackend [.mainRound, .taskRecv, .mainNewWork, .newWorkReset] = some s' ∧
      s'.cell 0 = s.cell 0 := by
  obtain ⟨s, s', hrun, hcell, hrun'⟩ : ∃ s s',
      (Sys.init basicBackend false).run basicBackend newHeadSchedule = some s ∧
      s.cell 0 = .newHead ∧
      s.run basicBackend [.mainRound, .taskRecv, .mainNewWork, .newWorkReset] = some s' :=
    ⟨_, _, rfl, rfl, rfl⟩
  exact ⟨s, s', hrun, hcell, hrun',
    stored_signal_kept (Reachable.init.run hrun) hrun' (by rw [hcell]; decide)⟩

end Signals

end QuaiWorker
