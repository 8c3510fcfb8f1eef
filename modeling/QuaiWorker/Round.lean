import QuaiWorker.System

/-!
# A round of the system refines `fillTransactions`

`Sys` runs `commitWork`'s round one iteration of `commitTransactions`' loop at a
time (`roundStep`), so that `newWorkLoop` and `taskLoop` can move between two
iterations.  The sequential model computes the same round in one call:
`fillTransactions` runs the local and then the remote batch, and `commit` takes
`work.copy()`.

Here the two are connected.  A run of `mainRound` steps from the top of a batch
makes exactly `loads` steps, one per load of the cell, and ends where
`commitTransactionsLoop` ends (`run_batch`); the send of a batch's
`intervalAdjust` is one more step.  Composing the batches, a round that no other
part of the system disturbs ends where `fillTransactions` followed by `commit`
ends, the cell read as it stands when the round starts.

**Results.**
* `Sys.run_batch`: a batch of the system is `commitTransactionsLoop`.
* `Sys.round_refines_fillTransactions`: an undisturbed round of the system,
  from `nextBatch` over `fillBatches`, ends at `commit` of the environment that
  `fillTransactions` computes, with the messages it sent queued on
  `resubmitAdjustCh`.
-/

namespace QuaiWorker

section Round

variable {σ ι : Type} {b : Backend σ ι}

/-- Each pass of the loop loads the cell once, so the loop from iteration `k`
makes more than `k` loads. -/
theorem commitTransactionsLoop_loads_gt (interrupt : Option (Nat → CommitInterrupt))
    (env : Environment σ) (txs : ι) (k : Nat) :
    k < (commitTransactionsLoop b interrupt env txs k).loads := by
  induction env, txs, k using commitTransactionsLoop.induct b interrupt with
  | case1 env txs k env' txs' hstep ih =>
      rw [commitTransactionsLoop_next hstep]
      omega
  | case2 env txs k env' hstep =>
      rw [commitTransactionsLoop_exit hstep]
      exact Nat.lt_succ_self k
  | case3 env txs k adjust result hstep =>
      rw [commitTransactionsLoop_abort hstep]
      exact Nat.lt_succ_self k

/-- A batch that stopped on a new head sent nothing. -/
theorem commitTransactionsLoop_sent_of_result (interrupt : Option (Nat → CommitInterrupt))
    (env : Environment σ) (txs : ι) (k : Nat)
    (h : (commitTransactionsLoop b interrupt env txs k).result = true) :
    (commitTransactionsLoop b interrupt env txs k).sent = [] := by
  induction env, txs, k using commitTransactionsLoop.induct b interrupt with
  | case1 env txs k env' txs' hstep ih =>
      rw [commitTransactionsLoop_next hstep] at h ⊢
      exact ih h
  | case2 env txs k env' hstep =>
      rw [commitTransactionsLoop_exit hstep] at h
      cases h
  | case3 env txs k adjust result hstep =>
      rw [commitTransactionsLoop_abort hstep] at h ⊢
      rcases commitTransactionsStep_abort hstep with ⟨-, rfl, -⟩ | ⟨-, -, rfl⟩
      · rfl
      · cases h

/-- `commitTransactions` is the loop on the environment with its gas pool
allocated, which is the environment `nextBatch` hands to the round. -/
theorem commitTransactions_alloc (env : Environment σ) (txs : List (Address × List Transaction))
    (interrupt : Option (Nat → CommitInterrupt)) :
    commitTransactions b env (b.newTransactionsByPriceAndNonce env.signer txs env.header.baseFee) interrupt =
      let work := if env.gasPool = none then { env with gasPool := some env.header.gasLimit } else env
      commitTransactionsLoop b interrupt work
        (b.newTransactionsByPriceAndNonce work.signer txs work.header.baseFee) 0 := by
  unfold commitTransactions
  split <;> rfl

namespace Sys

variable {s : Sys σ ι}

theorem run_append (s : Sys σ ι) (actions actions' : List Action) :
    s.run b (actions ++ actions') = (s.run b actions).bind fun s => s.run b actions' := by
  induction actions generalizing s with
  | nil =>
      rfl
  | cons a actions ih =>
      simp only [List.cons_append, Sys.run]
      cases s.step b a <;> simp [ih]

theorem run_replicate_add {s₁ s₂ s₃ : Sys σ ι} {m n : Nat}
    (h₁ : s₁.run b (List.replicate m .mainRound) = some s₂)
    (h₂ : s₂.run b (List.replicate n .mainRound) = some s₃) :
    s₁.run b (List.replicate (m + n) .mainRound) = some s₃ := by
  rw [List.replicate_add, run_append, h₁, Option.some_bind, h₂]

/-- Where the last step of a batch leaves the system: `commit` after a new
head, the send of the batch's message, or the next batch. -/
def batchEnd (b : Backend σ ι) (s : Sys σ ι) (round : Round σ)
    (rest : List (List (Address × List Transaction))) (r : BatchResult σ) : Sys σ ι :=
  if r.result then s.commitEnv b r.env.copy (.install r.env round.addTxs)
  else
    match r.sent with
    | [msg] => { s with main := .adjust { round with work := r.env } msg rest }
    | _ => s.nextBatch b { round with work := r.env } rest

/-- The batch from iteration `k` on, the `i`-th load of `loads` reading the
round's cell. -/
theorem run_batch_from {interrupt addTxs : Option Nat} (rest : List (List (Address × List Transaction)))
    (loads : Option (Nat → CommitInterrupt)) (env : Environment σ) (txs : ι) (k : Nat) (s : Sys σ ι)
    (hloads : ∀ k, loads.map (fun f => f k) = interrupt.map s.cell)
    (hmain : s.main = .fill { interrupt, work := env, addTxs } txs rest) :
    s.run b (List.replicate ((commitTransactionsLoop b loads env txs k).loads - k) .mainRound) =
      some (s.batchEnd b { interrupt, work := env, addTxs } rest (commitTransactionsLoop b loads env txs k)) := by
  induction env, txs, k using commitTransactionsLoop.induct b loads generalizing s with
  | case1 env txs k env' txs' hstep ih =>
      have hlt : k + 1 < (commitTransactionsLoop b loads env' txs' (k + 1)).loads :=
        commitTransactionsLoop_loads_gt _ _ _ _
      rw [commitTransactionsLoop_next hstep,
        show (commitTransactionsLoop b loads env' txs' (k + 1)).loads - k =
          (commitTransactionsLoop b loads env' txs' (k + 1)).loads - (k + 1) + 1 by omega,
        List.replicate_succ]
      have hs : s.step b .mainRound =
          some { s with main := .fill { interrupt, work := env', addTxs } txs' rest } := by
        simp [Sys.step, roundStep, hmain, ← hloads k, hstep]
      simp only [Sys.run, hs, Option.some_bind]
      exact ih _ hloads rfl
  | case2 env txs k env' hstep =>
      have hstep' : commitTransactionsStep b env txs (interrupt.map s.cell) = .exit env' :=
        hloads k ▸ hstep
      have hsome : loads.isSome = interrupt.isSome := by simpa using congrArg Option.isSome (hloads 0)
      rw [commitTransactionsLoop_exit hstep, Nat.add_sub_cancel_left]
      simp only [List.replicate, Sys.run, Sys.step, roundStep, hmain, hstep', batchEnd, hsome]
      cases interrupt <;> rfl
  | case3 env txs k adjust result hstep =>
      have hstep' : commitTransactionsStep b env txs (interrupt.map s.cell) = .abort adjust result :=
        hloads k ▸ hstep
      rw [commitTransactionsLoop_abort hstep, Nat.add_sub_cancel_left]
      rcases commitTransactionsStep_abort hstep' with ⟨-, rfl, rfl⟩ | ⟨-, rfl, rfl⟩ <;>
        simp only [List.replicate, Sys.run, Sys.step, roundStep, hmain, hstep', batchEnd] <;> rfl

/-- A batch of the system makes one `mainRound` step per load of the cell and
ends where `commitTransactionsLoop` ends, every load reading the cell as it is
at the start. -/
theorem run_batch {round : Round σ} {txs : ι} {rest : List (List (Address × List Transaction))}
    (hmain : s.main = .fill round txs rest) :
    s.run b (List.replicate
        (commitTransactionsLoop b (round.interrupt.map fun c _ => s.cell c) round.work txs 0).loads
        .mainRound) =
      some (s.batchEnd b round rest
        (commitTransactionsLoop b (round.interrupt.map fun c _ => s.cell c) round.work txs 0)) :=
  run_batch_from rest _ round.work txs 0 s (fun _ => by cases round.interrupt <;> rfl) hmain

/-- Where an undisturbed round ends: `commit` of its environment, with what
its batches sent queued on `resubmitAdjustCh`. -/
def roundEnd (b : Backend σ ι) (s : Sys σ ι) (round : Round σ) (r : BatchResult σ) : Sys σ ι :=
  ({ s with resubmitAdjustCh := s.resubmitAdjustCh ++ r.sent }).commitEnv b r.env.copy
    (.install r.env round.addTxs)

theorem roundEnd_append (round : Round σ) (r : BatchResult σ) (sent : List IntervalAdjust) :
    ({ s with resubmitAdjustCh := s.resubmitAdjustCh ++ sent } : Sys σ ι).roundEnd b round r =
      s.roundEnd b round { r with sent := sent ++ r.sent } := by
  simp only [roundEnd, List.append_assoc]

theorem roundEnd_of_sent_nil (round : Round σ) {r : BatchResult σ} (h : r.sent = []) :
    s.roundEnd b round r = s.commitEnv b r.env.copy (.install r.env round.addTxs) := by
  rw [roundEnd, h, List.append_nil]

/-- A batch and, when its loop sent a message, the send: the end of the round
after a new head, or else the next batch, with the message queued. -/
theorem run_batch_send {round : Round σ} {txs : ι} {rest : List (List (Address × List Transaction))}
    {r : BatchResult σ} (hmain : s.main = .fill round txs rest)
    (hch : s.resubmitAdjustCh.length < resubmitAdjustChanSize)
    (hr : commitTransactionsLoop b (round.interrupt.map fun c _ => s.cell c) round.work txs 0 = r) :
    ∃ n, s.run b (List.replicate n .mainRound) =
      some (if r.result then s.roundEnd b round r
        else ({ s with resubmitAdjustCh := s.resubmitAdjustCh ++ r.sent }).nextBatch b
          { round with work := r.env } rest) := by
  have hrun := @run_batch _ _ b _ _ _ _ hmain
  have hle := @commitTransactionsLoop_sent_le _ _ b (round.interrupt.map fun c _ => s.cell c) round.work txs 0
  have hsent := @commitTransactionsLoop_sent_of_result _ _ b
    (round.interrupt.map fun c _ => s.cell c) round.work txs 0
  rw [hr] at hrun hle hsent
  unfold batchEnd at hrun
  split at hrun
  · rename_i hres
    rw [if_pos hres, roundEnd_of_sent_nil _ (hsent hres)]
    exact ⟨_, hrun⟩
  · rename_i hres
    rw [if_neg hres]
    match hs : r.sent, hle with
    | [], _ =>
        rw [hs] at hrun
        refine ⟨_, hrun.trans ?_⟩
        simp
    | [msg], _ =>
        rw [hs] at hrun
        refine ⟨r.loads + 1, ?_⟩
        rw [List.replicate_succ', run_append, hrun, Option.some_bind]
        simp only [Sys.run, Sys.step, roundStep, hch, if_true, Option.some_bind]
        rfl

theorem nextBatch_cons_main (round : Round σ) (txs : List (Address × List Transaction))
    (rest : List (List (Address × List Transaction))) :
    (s.nextBatch b round (txs :: rest)).main =
      let work := if round.work.gasPool = none
        then { round.work with gasPool := some round.work.header.gasLimit } else round.work
      .fill { round with work } (b.newTransactionsByPriceAndNonce work.signer txs work.header.baseFee) rest :=
  rfl

/-- The first of the batches left in a round, run to its end. -/
theorem run_nextBatch_cons {round : Round σ} {r : BatchResult σ} (txs : List (Address × List Transaction))
    (rest : List (List (Address × List Transaction)))
    (hch : s.resubmitAdjustCh.length < resubmitAdjustChanSize)
    (hr : commitTransactions b round.work
      (b.newTransactionsByPriceAndNonce round.work.signer txs round.work.header.baseFee)
      (round.interrupt.map fun c _ => s.cell c) = r) :
    ∃ n, (s.nextBatch b round (txs :: rest)).run b (List.replicate n .mainRound) =
      some (if r.result then s.roundEnd b round r
        else ({ s with resubmitAdjustCh := s.resubmitAdjustCh ++ r.sent }).nextBatch b
          { round with work := r.env } rest) := by
  obtain ⟨n, h⟩ := run_batch_send (nextBatch_cons_main round txs rest) hch
    ((commitTransactions_alloc _ _ _).symm.trans hr)
  exact ⟨n, h⟩

/-- The last batch of a round, run to the end of the round. -/
theorem run_nextBatch_last {r : BatchResult σ} (round : Round σ) (txs : List (Address × List Transaction))
    (hch : s.resubmitAdjustCh.length < resubmitAdjustChanSize)
    (hr : commitTransactions b round.work
      (b.newTransactionsByPriceAndNonce round.work.signer txs round.work.header.baseFee)
      (round.interrupt.map fun c _ => s.cell c) = r) :
    ∃ n, (s.nextBatch b round [txs]).run b (List.replicate n .mainRound) = some (s.roundEnd b round r) := by
  obtain ⟨n, h⟩ := run_nextBatch_cons txs [] hch hr
  exact ⟨n, h.trans (by split <;> rfl)⟩

/-- The two batches of a round, a local and a remote one, run to the end of the
round: the second runs only when the first did not stop on a new head. -/
theorem run_nextBatch_pair {round : Round σ} {r₁ r₂ : BatchResult σ}
    (txs₁ txs₂ : List (Address × List Transaction))
    (hch : s.resubmitAdjustCh.length + 2 ≤ resubmitAdjustChanSize)
    (hr₁ : commitTransactions b round.work
      (b.newTransactionsByPriceAndNonce round.work.signer txs₁ round.work.header.baseFee)
      (round.interrupt.map fun c _ => s.cell c) = r₁)
    (hr₂ : commitTransactions b r₁.env
      (b.newTransactionsByPriceAndNonce r₁.env.signer txs₂ r₁.env.header.baseFee)
      (round.interrupt.map fun c _ => s.cell c) = r₂) :
    ∃ n, (s.nextBatch b round [txs₁, txs₂]).run b (List.replicate n .mainRound) =
      some (s.roundEnd b round
        (if r₁.result then r₁ else { r₂ with sent := r₁.sent ++ r₂.sent, loads := r₁.loads + r₂.loads })) := by
  obtain ⟨n₁, h₁⟩ := run_nextBatch_cons txs₁ [txs₂] (show s.resubmitAdjustCh.length < _ by omega) hr₁
  by_cases hres : r₁.result
  · rw [if_pos hres] at h₁ ⊢
    exact ⟨n₁, h₁⟩
  · rw [if_neg hres] at h₁ ⊢
    have hle : r₁.sent.length ≤ 1 := by
      rw [← hr₁]
      exact commitTransactionsLoop_sent_le _ _ _ _
    obtain ⟨n₂, h₂⟩ := run_nextBatch_last { round with work := r₁.env } txs₂
      (show ({ s with resubmitAdjustCh := s.resubmitAdjustCh ++ r₁.sent } : Sys σ ι).resubmitAdjustCh.length < _ by
        simp only [List.length_append]
        omega) hr₂
    exact ⟨n₁ + n₂, run_replicate_add h₁ (h₂.trans (congrArg some (roundEnd_append _ _ _)))⟩

/-- An undisturbed round of the system, one `mainRound` step per load of the
cell and per send on `resubmitAdjustCh`, ends where `fillTransactions` followed
by `commit(work.copy(), ...)` ends, every load reading the cell as it stands
when the round starts. -/
theorem round_refines_fillTransactions (round : Round σ)
    (pending : Except String (List (Address × List Transaction))) (locals : List Address)
    (hch : s.resubmitAdjustCh.length + 2 ≤ resubmitAdjustChanSize) :
    ∃ n, (s.nextBatch b round (fillBatches pending locals)).run b (List.replicate n .mainRound) =
      some (s.roundEnd b round
        (fillTransactions b pending locals (round.interrupt.map fun c _ => s.cell c) round.work)) := by
  have hshift : ∀ k, ((round.interrupt.map fun c (_ : Nat) => s.cell c).map fun loads n => loads (k + n)) =
      round.interrupt.map fun c _ => s.cell c := fun k => by cases round.interrupt <;> rfl
  have hempty : ∃ n, (s.nextBatch b round []).run b (List.replicate n .mainRound) =
      some (s.roundEnd b round { env := round.work, sent := [], result := false, loads := 0 }) :=
    ⟨0, by rw [roundEnd_of_sent_nil _ rfl]; rfl⟩
  cases pending with
  | error e =>
      exact hempty
  | ok pending =>
      simp only [fillBatches, fillTransactions, fillRemotes, hshift]
      by_cases h₁ : (splitPending pending locals).1.isEmpty = true <;>
        by_cases h₂ : (splitPending pending locals).2.isEmpty = true <;>
        simp only [h₁, h₂, if_true, if_false, List.nil_append, List.append_nil, ite_self,
          List.singleton_append]
      · exact hempty
      · obtain ⟨n, h⟩ := run_nextBatch_last round _ (show s.resubmitAdjustCh.length < _ by omega) rfl
        exact ⟨n, h⟩
      · obtain ⟨n, h⟩ := run_nextBatch_last round _ (show s.resubmitAdjustCh.length < _ by omega) rfl
        exact ⟨n, h⟩
      · exact run_nextBatch_pair _ _ hch rfl rfl

/-- A fresh worker's round over one local sender with one transaction. -/
theorem round_refines_fillTransactions_sample :
    (Sys.init basicBackend false).resubmitAdjustCh.length + 2 ≤ resubmitAdjustChanSize ∧
      ∃ n, ((Sys.init basicBackend false).nextBatch basicBackend
          { interrupt := none, work := sampleEnv, addTxs := none }
          (fillBatches (.ok [(1, [sampleTx])]) [1])).run basicBackend (List.replicate n .mainRound) =
        some ((Sys.init basicBackend false).roundEnd basicBackend
          { interrupt := none, work := sampleEnv, addTxs := none }
          (fillTransactions basicBackend (.ok [(1, [sampleTx])]) [1] none sampleEnv)) :=
  ⟨by decide, round_refines_fillTransactions _ _ _ (by decide)⟩

end Sys

end Round

end QuaiWorker
