import QuaiWorker.Environment

/-!
# Transaction execution

This module embeds `worker.commitTransaction`, one iteration of the loop of
`worker.commitTransactions`, the whole loop, and `fillTransactions`, which runs
the loop once for local senders and once for remote ones.

**The interrupt cell.**  `commitTransactions` reads `*interrupt` with an atomic
load at the top of every iteration, while `newWorkLoop` may store a signal into
the same cell at any moment.  A batch therefore sees some sequence of values.
The loop takes that sequence as `loads : Nat → CommitInterrupt`, the value read
at iteration `k`, so that every result quantifies over every interleaving.  A
nil `interrupt` pointer is `none`.  The three loads inside the interrupt branch
of the source see one value, since `newWorkLoop` stores into a cell at most once
(`commit` replaces the cell right after storing).

**Effects.**  Besides its return value, a batch mutates the environment and
sends messages on `resubmitAdjustCh`; `BatchResult` records both, and how many
iterations ran.  The pending-logs feed is not modelled.

**Results.**
* `commitTransaction_error`: a failing transaction leaves the environment as it
  was, except the gas pool and the used-gas counter, which keep what
  `ApplyTransaction` left in them.
* `commitTransactionsStep_consistent`: every iteration keeps
  `len(txs) = len(receipts) = tcount` with each receipt the one
  `ApplyTransaction` returned for its transaction.
* `commitTransactionsStep_frame`: no iteration touches the uncles, the ancestry,
  the parent hash or the prefetcher.
-/

namespace QuaiWorker

section Transactions

variable {σ ι : Type}

/-- `worker.commitTransaction`.  The pool is allocated by `commitTransactions`
before the first call; a nil pool (a panic in Go) reads as an empty one. -/
def commitTransaction (b : Backend σ ι) (env : Environment σ) :
    Option Transaction → Except TxError (List Nat) × Environment σ
  | none => (.error (.other "error finding transaction"), env)
  | some tx =>
      let snap := env.state.snapshot
      let out := b.applyTransaction env.coinbase (env.gasPool.getD 0) env.state env.header tx
      let env : Environment σ :=
        { env with
          gasPool := some out.gasPool
          state := { env.state with world := out.world }
          header := { env.header with gasUsed := out.gasUsed } }
      match out.result with
      | .error err => (.error err, { env with state := env.state.revertToSnapshot snap })
      | .ok receipt =>
          (.ok receipt.logs,
            { env with txs := env.txs ++ [tx], receipts := env.receipts ++ [receipt] })

/-- A failing `ApplyTransaction`: the error is returned, the state is back at the
snapshot, and only the gas pool and the used-gas counter differ from before. -/
theorem commitTransaction_error (b : Backend σ ι) (env : Environment σ) (tx : Transaction)
    (err : TxError)
    (h : (b.applyTransaction env.coinbase (env.gasPool.getD 0) env.state env.header tx).result =
      .error err) :
    commitTransaction b env (some tx) =
      (.error err,
        { env with
          gasPool := some (b.applyTransaction env.coinbase (env.gasPool.getD 0) env.state
            env.header tx).gasPool
          header := { env.header with
            gasUsed := (b.applyTransaction env.coinbase (env.gasPool.getD 0) env.state
              env.header tx).gasUsed } }) := by
  simp [commitTransaction, h, StateDB.revertToSnapshot, StateDB.snapshot]

/-- `basicBackend` with an `ApplyTransaction` that buys the transaction's gas
from the pool and then fails, as a state transition does when the sender cannot
pay for the value it transfers. -/
def buyThenFailBackend : Backend Unit (List Transaction) :=
  { basicBackend with
    applyTransaction := fun _ gp st header _ =>
      { result := .error (.other "insufficient funds for transfer"), gasPool := gp - 21000
        world := st.world, gasUsed := header.gasUsed } }

/-- An environment with a full pool of thirty million gas. -/
def sampleEnv : Environment Unit :=
  { freshEnv basicBackend () 0
      { parentHash := 0, number := 1, extra := [], time := 0, baseFee := 0, gasLimit := 30000000
        coinbase := 0, gasUsed := 0, root := 0, mixDigest := 0 } 0 with
    gasPool := some 30000000 }

/-- A plain transaction. -/
def sampleTx : Transaction := { hash := 1, sender := 1, nonce := 0, replayProtected := false }

/-- A rejected transaction can still consume the block's gas: the pool is not
restored on the failure path. -/
theorem commitTransaction_keeps_bought_gas :
    (buyThenFailBackend.applyTransaction sampleEnv.coinbase (sampleEnv.gasPool.getD 0)
        sampleEnv.state sampleEnv.header sampleTx).result =
      .error (.other "insufficient funds for transfer") ∧
    (commitTransaction buyThenFailBackend sampleEnv (some sampleTx)).2.gasPool ≠ sampleEnv.gasPool :=
  ⟨rfl, by decide⟩

/-- `commitTransaction_error` where `ApplyTransaction` bought gas before failing. -/
theorem commitTransaction_error_bought_gas :
    (buyThenFailBackend.applyTransaction sampleEnv.coinbase (sampleEnv.gasPool.getD 0)
        sampleEnv.state sampleEnv.header sampleTx).result =
      .error (.other "insufficient funds for transfer") ∧
    commitTransaction buyThenFailBackend sampleEnv (some sampleTx) =
      (.error (.other "insufficient funds for transfer"),
        { sampleEnv with gasPool := some 29979000 }) :=
  ⟨rfl, commitTransaction_error buyThenFailBackend sampleEnv sampleTx _ rfl⟩

/-- A succeeding `ApplyTransaction`: the transaction and its receipt are appended. -/
theorem commitTransaction_ok (b : Backend σ ι) (env : Environment σ) (tx : Transaction)
    (receipt : Receipt)
    (h : (b.applyTransaction env.coinbase (env.gasPool.getD 0) env.state env.header tx).result =
      .ok receipt) :
    ∃ env', commitTransaction b env (some tx) = (.ok receipt.logs, env') ∧
      env'.txs = env.txs ++ [tx] ∧ env'.receipts = env.receipts ++ [receipt] ∧
      env'.tcount = env.tcount := by
  simp [commitTransaction, h]

/-- Everything `commitTransaction` can do: keep `tcount`, and either fail leaving
`txs` and `receipts` alone, or append the transaction and the receipt that
`ApplyTransaction` returned for it. -/
theorem commitTransaction_cases {b : Backend σ ι} {env env' : Environment σ} {tx : Transaction}
    {res : Except TxError (List Nat)} (h : commitTransaction b env (some tx) = (res, env')) :
    env'.tcount = env.tcount ∧
      ((∃ err, res = .error err ∧ env'.txs = env.txs ∧ env'.receipts = env.receipts) ∨
       (∃ receipt, res = .ok receipt.logs ∧
          (b.applyTransaction env.coinbase (env.gasPool.getD 0) env.state env.header tx).result =
            .ok receipt ∧
          env'.txs = env.txs ++ [tx] ∧ env'.receipts = env.receipts ++ [receipt])) := by
  simp only [commitTransaction] at h
  split at h <;> cases h
  · exact ⟨rfl, .inl ⟨_, rfl, rfl, rfl⟩⟩
  · exact ⟨rfl, .inr ⟨_, rfl, ‹_›, rfl, rfl⟩⟩

/-- What `commitTransaction` never touches: the uncles, the ancestry, the parent
hash and the prefetcher. -/
theorem commitTransaction_frame {b : Backend σ ι} {env env' : Environment σ}
    {tx : Option Transaction} {res : Except TxError (List Nat)}
    (h : commitTransaction b env tx = (res, env')) :
    env'.uncles = env.uncles ∧ env'.ancestors = env.ancestors ∧ env'.family = env.family ∧
      env'.header.parentHash = env.header.parentHash ∧
      env'.state.prefetcher = env.state.prefetcher := by
  unfold commitTransaction at h
  split at h
  · cases h
    exact ⟨rfl, rfl, rfl, rfl, rfl⟩
  · dsimp only at h
    split at h <;> cases h <;> exact ⟨rfl, rfl, rfl, rfl, rfl⟩

/-- `len(txs) = len(receipts) = tcount`, every receipt being the one that
`ApplyTransaction` returned for the transaction at its index, run on a state
that `Prepare` tagged with that transaction's hash and index. -/
structure TxsConsistent (b : Backend σ ι) (env : Environment σ) : Prop where
  txs_length : env.txs.length = env.tcount
  receipts_length : env.receipts.length = env.tcount
  receipt_of : ∀ i tx receipt, env.txs[i]? = some tx → env.receipts[i]? = some receipt →
    ∃ coinbase gp hdr, ∃ st : StateDB σ, st.thash = tx.hash ∧ st.txIndex = i ∧
      (b.applyTransaction coinbase gp st hdr tx).result = .ok receipt

namespace TxsConsistent

variable {b : Backend σ ι} {env env' : Environment σ}

/-- The invariant reads only `txs`, `receipts` and `tcount`. -/
theorem congr (h : TxsConsistent b env) (htxs : env'.txs = env.txs)
    (hreceipts : env'.receipts = env.receipts) (htcount : env'.tcount = env.tcount) :
    TxsConsistent b env' :=
  ⟨by rw [htxs, htcount]; exact h.1, by rw [hreceipts, htcount]; exact h.2,
    by rw [htxs, hreceipts]; exact h.3⟩

/-- Appending a transaction with the receipt `ApplyTransaction` returned for it on
a state tagged with its hash and the index `tcount`, and counting it. -/
theorem append (h : TxsConsistent b env) {tx : Transaction} {receipt : Receipt}
    {coinbase : Address} {gp : Nat} {hdr : Header} {st : StateDB σ}
    (hthash : st.thash = tx.hash) (hindex : st.txIndex = env.tcount)
    (happly : (b.applyTransaction coinbase gp st hdr tx).result = .ok receipt)
    (htxs : env'.txs = env.txs ++ [tx]) (hreceipts : env'.receipts = env.receipts ++ [receipt])
    (htcount : env'.tcount = env.tcount + 1) :
    TxsConsistent b env' := by
  obtain ⟨h1, h2, h3⟩ := h
  refine ⟨by simp [htxs, htcount, h1], by simp [hreceipts, htcount, h2], ?_⟩
  intro i tx' receipt' htx hreceipt
  rw [htxs] at htx
  rw [hreceipts] at hreceipt
  rcases Nat.lt_or_ge i env.tcount with hi | hi
  · rw [List.getElem?_append_left (by omega)] at htx hreceipt
    exact h3 i tx' receipt' htx hreceipt
  · rw [List.getElem?_append_right (by omega)] at htx hreceipt
    have hi' : i = env.tcount := by
      by_contra hne
      rw [List.getElem?_eq_none (by simp; omega)] at htx
      cases htx
    subst hi'
    simp only [h1, h2, Nat.sub_self, List.getElem?_cons_zero, Option.some.injEq] at htx hreceipt
    subst htx hreceipt
    exact ⟨coinbase, gp, hdr, st, hthash, hindex, happly⟩

end TxsConsistent

/-- `ratio` in `commitTransactions`: the filled share of the gas limit, at least
one tenth.  The subtraction is on `uint64`. -/
def fillRatio (env : Environment σ) : ℚ :=
  let gasLimit := env.header.gasLimit
  let ratio : ℚ := (toUint64 ((gasLimit : Int) - (env.gasPool.getD 0 : Nat)) : ℚ) / gasLimit
  if ratio < 1 / 10 then 1 / 10 else ratio

/-- How one iteration of `commitTransactions`'s loop ends. -/
inductive LoopStep (σ ι : Type)
  /-- The loop goes on with this environment and iterator. -/
  | next (env : Environment σ) (txs : ι)
  /-- `break`: the block is full or no transaction is left. -/
  | exit (env : Environment σ)
  /-- An interrupt was seen: send `adjust` if any, then return `result`. -/
  | abort (adjust : Option IntervalAdjust) (result : Bool)

/-- One iteration of the loop of `worker.commitTransactions`, given what the
interrupt load returned (`none` for a nil `interrupt`). -/
def commitTransactionsStep (b : Backend σ ι) (env : Environment σ) (txs : ι)
    (load : Option CommitInterrupt) : LoopStep σ ι :=
  match load with
  | some .newHead => .abort none true
  | some .resubmit => .abort (some { ratio := fillRatio env, inc := true }) false
  | _ =>
      if env.gasPool.getD 0 < b.txGas then .exit env
      else
        match b.iter.peek txs with
        | none => .exit env
        | some tx =>
            if tx.replayProtected && !b.isEIP155 env.header.number then .next env (b.iter.pop txs)
            else
              let env := { env with state := env.state.prepare tx.hash env.tcount }
              match commitTransaction b env (some tx) with
              | (.error .gasLimitReached, env) => .next env (b.iter.pop txs)
              | (.error .nonceTooLow, env) => .next env (b.iter.shift txs)
              | (.error .nonceTooHigh, env) => .next env (b.iter.pop txs)
              | (.ok _, env) => .next { env with tcount := env.tcount + 1 } (b.iter.shift txs)
              | (.error .txTypeNotSupported, env) => .next env (b.iter.pop txs)
              | (.error (.other _), env) => .next env (b.iter.shift txs)

/-- Every iteration that goes on has peeked a transaction and then shifted or
popped the iterator. -/
theorem commitTransactionsStep_next {b : Backend σ ι} {env env' : Environment σ} {txs txs' : ι}
    {load : Option CommitInterrupt}
    (h : commitTransactionsStep b env txs load = .next env' txs') :
    ∃ tx, b.iter.peek txs = some tx ∧ (txs' = b.iter.pop txs ∨ txs' = b.iter.shift txs) := by
  unfold commitTransactionsStep at h
  split at h
  · cases h
  · cases h
  · split at h
    · cases h
    · split at h
      · cases h
      · rename_i tx hpeek
        refine ⟨tx, hpeek, ?_⟩
        split at h
        · cases h
          exact .inl rfl
        · dsimp only at h
          split at h <;> cases h <;> simp

theorem commitTransactionsStep_size {b : Backend σ ι} {env env' : Environment σ} {txs txs' : ι}
    {load : Option CommitInterrupt}
    (h : commitTransactionsStep b env txs load = .next env' txs') :
    b.iter.size txs' < b.iter.size txs := by
  obtain ⟨tx, hpeek, rfl | rfl⟩ := commitTransactionsStep_next h
  · exact b.iter.pop_lt _ (by simp [hpeek])
  · exact b.iter.shift_lt _ (by simp [hpeek])

/-- Everything an iteration can do to the environment: nothing, or one
`commitTransaction` on a state prepared for the peeked transaction, counted in
`tcount` when it succeeds. -/
theorem commitTransactionsStep_env {b : Backend σ ι} {env env' : Environment σ} {txs : ι}
    {load : Option CommitInterrupt}
    (hstep : (∃ txs', commitTransactionsStep b env txs load = .next env' txs') ∨
      commitTransactionsStep b env txs load = .exit env') :
    env' = env ∨
      ∃ tx res env₁,
        commitTransaction b { env with state := env.state.prepare tx.hash env.tcount } (some tx) =
          (res, env₁) ∧
        ((env' = env₁ ∧ ∀ logs, res ≠ .ok logs) ∨
          ∃ logs, res = .ok logs ∧ env' = { env₁ with tcount := env₁.tcount + 1 }) := by
  unfold commitTransactionsStep at hstep
  split at hstep
  · simp at hstep
  · simp at hstep
  · split at hstep
    · left
      simpa [eq_comm] using hstep
    · split at hstep
      · left
        simpa [eq_comm] using hstep
      · rename_i tx _
        split at hstep
        · left
          simpa [eq_comm] using hstep
        · right
          dsimp only at hstep
          split at hstep <;> rename_i heq <;> refine ⟨tx, _, _, heq, ?_⟩ <;>
            simp only [LoopStep.next.injEq, reduceCtorEq, or_false] at hstep <;>
            obtain ⟨_, rfl, -⟩ := hstep <;> simp

/-- What an iteration never touches: the uncles, the ancestry, the parent hash
and the prefetcher. -/
theorem commitTransactionsStep_frame {b : Backend σ ι} {env env' : Environment σ} {txs : ι}
    {load : Option CommitInterrupt}
    (hstep : (∃ txs', commitTransactionsStep b env txs load = .next env' txs') ∨
      commitTransactionsStep b env txs load = .exit env') :
    env'.uncles = env.uncles ∧ env'.ancestors = env.ancestors ∧ env'.family = env.family ∧
      env'.header.parentHash = env.header.parentHash ∧
      env'.state.prefetcher = env.state.prefetcher := by
  rcases commitTransactionsStep_env hstep with rfl | ⟨tx, res, env₁, heq, hres⟩
  · exact ⟨rfl, rfl, rfl, rfl, rfl⟩
  · obtain ⟨h1, h2, h3, h4, h5⟩ := commitTransaction_frame heq
    rcases hres with ⟨rfl, -⟩ | ⟨logs, -, rfl⟩ <;> exact ⟨h1, h2, h3, h4, h5⟩

/-- Every iteration keeps `TxsConsistent`. -/
theorem commitTransactionsStep_consistent {b : Backend σ ι} {env env' : Environment σ} {txs : ι}
    {load : Option CommitInterrupt} (h : TxsConsistent b env)
    (hstep : (∃ txs', commitTransactionsStep b env txs load = .next env' txs') ∨
      commitTransactionsStep b env txs load = .exit env') :
    TxsConsistent b env' := by
  rcases commitTransactionsStep_env hstep with rfl | ⟨tx, res, env₁, heq, hres⟩
  · exact h
  obtain ⟨htcount, ⟨err, rfl, htxs, hreceipts⟩ | ⟨receipt, rfl, happly, htxs, hreceipts⟩⟩ :=
    commitTransaction_cases heq
  · obtain ⟨rfl, -⟩ | ⟨logs, hlogs, -⟩ := hres
    · exact h.congr htxs hreceipts htcount
    · cases hlogs
  · obtain ⟨-, hne⟩ | ⟨logs, -, rfl⟩ := hres
    · exact absurd rfl (hne _)
    · exact h.append rfl rfl happly htxs hreceipts (by simp [htcount])

/-- What one `commitTransactions` call did. -/
structure BatchResult (σ : Type) where
  env : Environment σ
  sent : List IntervalAdjust
  result : Bool
  loads : Nat

/-- The loop of `commitTransactions` from iteration `k` on. -/
def commitTransactionsLoop (b : Backend σ ι) (interrupt : Option (Nat → CommitInterrupt))
    (env : Environment σ) (txs : ι) (k : Nat) : BatchResult σ :=
  match h : commitTransactionsStep b env txs (interrupt.map (· k)) with
  | .next env' txs' => commitTransactionsLoop b interrupt env' txs' (k + 1)
  | .exit env' =>
      { env := env'
        sent := if interrupt.isSome then [{ ratio := 0, inc := false }] else []
        result := false
        loads := k + 1 }
  | .abort adjust result => { env, sent := adjust.toList, result, loads := k + 1 }
termination_by b.iter.size txs
decreasing_by exact commitTransactionsStep_size h

section Loop

variable {b : Backend σ ι} {interrupt : Option (Nat → CommitInterrupt)} {env env' : Environment σ}
  {txs txs' : ι} {k : Nat}

theorem commitTransactionsLoop_next
    (h : commitTransactionsStep b env txs (interrupt.map (· k)) = .next env' txs') :
    commitTransactionsLoop b interrupt env txs k = commitTransactionsLoop b interrupt env' txs' (k + 1) := by
  rw [commitTransactionsLoop]
  split <;> simp_all

theorem commitTransactionsLoop_exit
    (h : commitTransactionsStep b env txs (interrupt.map (· k)) = .exit env') :
    commitTransactionsLoop b interrupt env txs k =
      { env := env'
        sent := if interrupt.isSome then [{ ratio := 0, inc := false }] else []
        result := false
        loads := k + 1 } := by
  rw [commitTransactionsLoop]
  split <;> simp_all

theorem commitTransactionsLoop_abort {adjust : Option IntervalAdjust} {result : Bool}
    (h : commitTransactionsStep b env txs (interrupt.map (· k)) = .abort adjust result) :
    commitTransactionsLoop b interrupt env txs k =
      { env, sent := adjust.toList, result, loads := k + 1 } := by
  rw [commitTransactionsLoop]
  split <;> simp_all

end Loop

/-- `worker.commitTransactions`: allocate the gas pool if needed, then loop. -/
def commitTransactions (b : Backend σ ι) (env : Environment σ) (txs : ι)
    (interrupt : Option (Nat → CommitInterrupt)) : BatchResult σ :=
  let env := if env.gasPool = none then { env with gasPool := some env.header.gasLimit } else env
  commitTransactionsLoop b interrupt env txs 0

/-- The split at the top of `fillTransactions`: a sender named by `Locals()`
whose pending list is not empty moves from `remoteTxs` (at first all of
`pending`) to `localTxs`. -/
def splitPending (pending : List (Address × List Transaction)) (locals : List Address) :
    List (Address × List Transaction) × List (Address × List Transaction) :=
  locals.foldl
    (fun (localTxs, remoteTxs) account =>
      let txs := (remoteTxs.lookup account).getD []
      if txs.isEmpty then (localTxs, remoteTxs)
      else (localTxs ++ [(account, txs)], remoteTxs.filter (fun entry => entry.1 != account)))
    ([], pending)

/-- The second half of `fillTransactions`: after `r` (the local batch, or nothing
yet), a batch for the remote senders when there are any. -/
def fillRemotes (b : Backend σ ι) (remoteTxs : List (Address × List Transaction))
    (interrupt : Option (Nat → CommitInterrupt)) (r : BatchResult σ) : BatchResult σ :=
  if remoteTxs.isEmpty then r
  else
    let r₂ := commitTransactions b r.env
      (b.newTransactionsByPriceAndNonce r.env.signer remoteTxs r.env.header.baseFee)
      (interrupt.map fun loads n => loads (r.loads + n))
    { r₂ with sent := r.sent ++ r₂.sent, loads := r.loads + r₂.loads }

/-- `worker.fillTransactions`, given what `txPool.Pending(true)` and
`txPool.Locals()` return: a batch for the local senders, then, unless it
stopped on a new head, one for the remote senders.  `result` is whether a batch
stopped on a new head and `loads` how many loads of the cell the batches made. -/
def fillTransactions (b : Backend σ ι) (pending : Except String (List (Address × List Transaction)))
    (locals : List Address) (interrupt : Option (Nat → CommitInterrupt)) (env : Environment σ) :
    BatchResult σ :=
  match pending with
  | .error _ => { env, sent := [], result := false, loads := 0 }
  | .ok pending =>
      let split := splitPending pending locals
      if split.1.isEmpty then
        fillRemotes b split.2 interrupt { env, sent := [], result := false, loads := 0 }
      else
        let r₁ := commitTransactions b env
          (b.newTransactionsByPriceAndNonce env.signer split.1 env.header.baseFee) interrupt
        if r₁.result then r₁ else fillRemotes b split.2 interrupt r₁

section Fill

variable {b : Backend σ ι} {P : Environment σ → Prop}
  {interrupt : Option (Nat → CommitInterrupt)}

theorem fillRemotes_env (hP : ∀ env txs interrupt, P env → P (commitTransactions b env txs interrupt).env)
    {remoteTxs : List (Address × List Transaction)} {r : BatchResult σ} (h : P r.env) :
    P (fillRemotes b remoteTxs interrupt r).env := by
  unfold fillRemotes
  split
  · exact h
  · exact hP _ _ _ h

/-- A property of environments that every batch keeps is kept by
`fillTransactions`. -/
theorem fillTransactions_env
    (hP : ∀ env txs interrupt, P env → P (commitTransactions b env txs interrupt).env)
    {pending : Except String (List (Address × List Transaction))} {locals : List Address}
    {env : Environment σ} (h : P env) :
    P (fillTransactions b pending locals interrupt env).env := by
  unfold fillTransactions
  split
  · exact h
  · dsimp only
    split
    · exact fillRemotes_env hP h
    · split
      · exact hP _ _ _ h
      · exact fillRemotes_env hP (hP _ _ _ h)

end Fill

end Transactions

end QuaiWorker

