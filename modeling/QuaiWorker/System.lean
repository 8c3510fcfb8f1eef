import QuaiWorker.PrepareWork

/-!
# The worker as a concurrent system

`newWorker` starts three goroutines, `mainLoop`, `newWorkLoop` and `taskLoop`,
which talk over channels and share the interrupt cells, the `newTxs` counter,
the pending-task table and the snapshot.  Around them, the chain delivers head,
side and transaction events and the controller calls `start`, `stop`, `close`,
the setters, `getSealingBlock` and `GeneratePendingHeader`.

This module gives the whole system one state, `Sys`, and one labelled step,
`Sys.step : Action → Sys → Option Sys` (`none`: the action is not enabled).

**Granularity.**  Each goroutine moves by its atomic operations on shared
state.  A step of `mainLoop` inside `commitWork` is one iteration of the loop of
`commitTransactions` (`commitTransactionsStep`, whose interrupt load reads the
shared cell at that moment) or one channel operation; the code between two such
points touches only `mainLoop`'s own data and runs within one step.  A channel
with a buffer is a list and a send on it waits while the list is full; an
unbuffered send is a rendezvous, one step that moves both goroutines.  Go's
`select` picks any ready case: each case is its own action.  Time is abstract:
`tick` advances the clock, and an armed timer may fire at any step.

**Prefetchers.**  `prefetchers` lists the identities of the state prefetchers
that run; `makeEnv` starts `nextPrefetcher` and `discard` stops one.

**Left out.**  The pending-logs feed, the `unconfirmed` log, the sealing
engine behind `taskCh`, the pre-seal flag and `setGasCeil` (read by no
modelled code).
-/

namespace QuaiWorker

section System

variable {σ ι : Type}

/-- Go's `int32` wrap-around, for `atomic.AddInt32`. -/
def toInt32 (x : Int) : Int := (x + 2 ^ 31) % 2 ^ 32 - 2 ^ 31

/-- `newWorkReq`, its interrupt cell given by index. -/
structure NewWorkReq where
  interrupt : Nat
  noempty : Bool
  timestamp : Int
deriving DecidableEq, Repr

/-- Where `newWorkLoop` is. -/
inductive NewWorkPc
  /-- In its `select`. -/
  | select
  /-- In `commit`, on `newWorkCh <- req` or `<-exitCh`. -/
  | send (req : NewWorkReq)
  /-- In `commit`, past the send: `timer.Reset` and `StoreInt32(&w.newTxs, 0)` next. -/
  | reset
  /-- Returned. -/
  | done
deriving DecidableEq, Repr

/-- `newWorkLoop`'s locals. -/
structure NewWorkLoop where
  pc : NewWorkPc
  interrupt : Option Nat
  interval : RecommitState
  timestamp : Int
  timerArmed : Bool
deriving DecidableEq

/-- A `commitWork` call in progress: its interrupt cell, the environment it
fills, and what the `txsCh` case adds to `newTxs` once it returns. -/
structure Round (σ : Type) where
  interrupt : Option Nat
  work : Environment σ
  addTxs : Option Nat

/-- What follows `commit`: install a round's environment as `w.current`, or go
back to the `select` (the `chainSideCh` case). -/
inductive AfterCommit (σ : Type)
  | install (work : Environment σ) (addTxs : Option Nat)
  | resume

/-- Where `mainLoop` is. -/
inductive MainPc (σ ι : Type)
  /-- In its `select`. -/
  | select
  /-- At the top of `commitTransactions`' loop on `txs`, with the sender groups
  of the batches still to run. -/
  | fill (round : Round σ) (txs : ι) (rest : List (List (Address × List Transaction)))
  /-- On `w.resubmitAdjustCh <- msg`; the batch then returns `false`. -/
  | adjust (round : Round σ) (msg : IntervalAdjust) (rest : List (List (Address × List Transaction)))
  /-- In `commit`, on `taskCh <- task` or `<-exitCh`, then `updateSnapshot(env)`. -/
  | task (task : Task σ) (env : Environment σ) (after : AfterCommit σ)
  /-- Returned. -/
  | done

/-- `taskLoop`'s locals. -/
structure TaskLoop where
  prev : Hash
  done : Bool
deriving DecidableEq

/-- The worker, its three goroutines, its channels and what it reads of the
chain and the pool. -/
structure Sys (σ ι : Type) where
  worker : Worker σ
  head : Option Block
  pending : Except String (List (Address × List Transaction))
  locals : List Address
  now : Int
  cells : List CommitInterrupt
  prefetchers : List Nat
  nextPrefetcher : Nat
  startCh : Bool
  chainHeadCh : List Block
  chainSideCh : List Block
  txsCh : List (List Transaction)
  resubmitAdjustCh : List IntervalAdjust
  exitClosed : Bool
  subscriptionError : Bool
  newWork : NewWorkLoop
  main : MainPc σ ι
  taskLoop : TaskLoop

/-- The actions of the system. -/
inductive Action
  | chainHead (block : Block)
  | chainSide (block : Block)
  | newTxs (txs : List Transaction)
  | pool (pending : Except String (List (Address × List Transaction))) (locals : List Address)
  | start
  | stop
  | close
  | setEtherbase (addr : Address)
  | setExtra (extra : List Nat)
  | tick
  | subscriptionError
  | generatePendingHeader (header : Header)
  | setRecommitInterval (interval : Int)
  | getSealingBlock (params : GenerateParams)
  | newWorkStart
  | newWorkChainHead
  | newWorkTimer
  | newWorkAdjust
  | newWorkExit
  | newWorkSendExit
  | newWorkReset
  | mainNewWork
  | mainChainSide
  | mainCleanTick
  | mainTxs
  | mainExit
  | mainRound
  | mainTaskExit
  | taskRecv
  | taskExit

/-- The buckets `mainLoop`'s `txsCh` case builds: each sender's transactions in
arrival order. -/
def groupBySender (txs : List Transaction) : List (Address × List Transaction) :=
  txs.foldl
    (fun groups tx =>
      if tx.sender ∈ groups.map Prod.fst then
        groups.map fun group => if group.1 = tx.sender then (group.1, group.2 ++ [tx]) else group
      else groups ++ [(tx.sender, [tx])])
    []

/-- The sender groups of `fillTransactions`' batches: locals, then remotes, each
when not empty; none when `Pending` fails. -/
def fillBatches (pending : Except String (List (Address × List Transaction)))
    (locals : List Address) : List (List (Address × List Transaction)) :=
  match pending with
  | .error _ => []
  | .ok pending =>
      let split := splitPending pending locals
      (if split.1.isEmpty then [] else [split.1]) ++ (if split.2.isEmpty then [] else [split.2])

namespace Sys

/-- `newWorker(config, ..., init)`. -/
def init (b : Backend σ ι) (start : Bool) : Sys σ ι where
  worker :=
    { running := false, coinbase := 0, extra := [], current := none, localUncles := []
      remoteUncles := [], newTxs := 0, pendingTasks := [], snapshot := none }
  head := none
  pending := .ok []
  locals := []
  now := 0
  cells := []
  prefetchers := []
  nextPrefetcher := 0
  startCh := start
  chainHeadCh := []
  chainSideCh := []
  txsCh := []
  resubmitAdjustCh := []
  exitClosed := false
  subscriptionError := false
  newWork :=
    { pc := .select, interrupt := none, interval := RecommitState.ofInterval b.recommit
      timestamp := 0, timerArmed := false }
  main := .select
  taskLoop := { prev := 0, done := false }

/-- The value of an interrupt cell. -/
def cell (s : Sys σ ι) (c : Nat) : CommitInterrupt := s.cells.getD c .none

/-- `clearPending(number)`. -/
def prune (s : Sys σ ι) (number : Nat) : Sys σ ι :=
  { s with worker := { s.worker with pendingTasks := clearPending s.worker.pendingTasks number } }

/-- `newWorkLoop`'s `commit(noempty, signal)` up to its send: store the signal
into the old cell and allocate a new one. -/
def newWorkCommit (s : Sys σ ι) (noempty : Bool) (signal : CommitInterrupt) : Sys σ ι :=
  let cells := match s.newWork.interrupt with
    | some c => s.cells.set c signal
    | none => s.cells
  { s with
    cells := cells ++ [.none]
    newWork := { s.newWork with
      interrupt := some cells.length
      pc := .send { interrupt := cells.length, noempty, timestamp := s.newWork.timestamp } } }

/-- `updateSnapshot(env)`. -/
def withSnapshot (s : Sys σ ι) (env : Environment σ) : Sys σ ι :=
  { s with worker := { s.worker with snapshot := some (updateSnapshot env) } }

@[simp] theorem withSnapshot_current (s : Sys σ ι) (env : Environment σ) :
    (s.withSnapshot env).worker.current = s.worker.current := rfl

@[simp] theorem withSnapshot_main (s : Sys σ ι) (env : Environment σ) :
    (s.withSnapshot env).main = s.main := rfl

/-- Back in `mainLoop`'s `select`, after adding what the `txsCh` case adds. -/
def resume (s : Sys σ ι) (addTxs : Option Nat) : Sys σ ι :=
  { s with
    worker := { s.worker with
      newTxs := match addTxs with
        | some n => toInt32 (s.worker.newTxs + n)
        | none => s.worker.newTxs }
    main := .select }

/-- What follows `commit`: `w.current.discard(); w.current = work` for a round. -/
def afterCommit (s : Sys σ ι) : AfterCommit σ → Sys σ ι
  | .install work addTxs =>
      { s with
        prefetchers := match s.worker.current with
          | some current => current.discard s.prefetchers
          | none => s.prefetchers
        worker := { s.worker with current := some work } }.resume addTxs
  | .resume => s.resume none

/-- `commit(env, _, true, _)` up to its send on `taskCh`. -/
def commitEnv (b : Backend σ ι) (s : Sys σ ι) (env : Environment σ) (after : AfterCommit σ) :
    Sys σ ι :=
  if s.worker.running then
    let cpy := env.copy
    match b.finalizeAndAssemble cpy.header cpy.state cpy.txs cpy.unclelist cpy.receipts with
    | .error _ => s.afterCommit after
    | .ok block =>
        { s with
          main := .task { receipts := cpy.receipts, state := cpy.state, block, createdAt := s.now }
            env after }
  else (s.withSnapshot env).afterCommit after

/-- The next batch of `fillTransactions` (allocating the gas pool as
`commitTransactions` does), or, when none is left, `commit(work.copy(), ...)`. -/
def nextBatch (b : Backend σ ι) (s : Sys σ ι) (round : Round σ) :
    List (List (Address × List Transaction)) → Sys σ ι
  | [] => s.commitEnv b round.work.copy (.install round.work round.addTxs)
  | txs :: rest =>
      let work := if round.work.gasPool = none
        then { round.work with gasPool := some round.work.header.gasLimit } else round.work
      { s with
        main := .fill { round with work }
          (b.newTransactionsByPriceAndNonce work.signer txs work.header.baseFee) rest }

/-- `commitWork(interrupt, noempty, timestamp)` up to the top of its first batch. -/
def commitWork (b : Backend σ ι) (s : Sys σ ι) (interrupt : Option Nat) (timestamp : Int)
    (addTxs : Option Nat) : Sys σ ι :=
  if s.worker.running ∧ s.worker.coinbase = 0 then s.resume addTxs
  else
    let coinbase := if s.worker.running then s.worker.coinbase else 0
    match prepareWork b s.worker s.head s.nextPrefetcher
        { timestamp := toUint64 timestamp, forceTime := false, parentHash := 0, coinbase
          random := 0, noUncle := false, noExtra := false } with
    | .error _ => s.resume addTxs
    | .ok work =>
        { s with prefetchers := s.nextPrefetcher :: s.prefetchers, nextPrefetcher := s.nextPrefetcher + 1 }.nextBatch
          b { interrupt, work := adjustGasLimit b s.head work, addTxs } (fillBatches s.pending s.locals)

/-- Whether `newWorkLoop`'s timer resubmits: `Clique == nil || Clique.Period > 0`. -/
def periodicResubmit (b : Backend σ ι) : Bool :=
  match b.cliquePeriod with
  | none => true
  | some period => decide (0 < period)

/-- `mainLoop`'s `txsCh` case. -/
def txsEvent (b : Backend σ ι) (s : Sys σ ι) (txs : List Transaction) : Sys σ ι :=
  let devMode : Sys σ ι :=
    if b.cliquePeriod = some 0 then s.commitWork b none s.now (some txs.length)
    else s.resume (some txs.length)
  match s.worker.running, s.worker.current with
  | false, some current =>
      if current.gasPool.any (fun gp => decide (gp < b.txGas)) then s
      else
        let r := commitTransactions b current
          (b.newTransactionsByPriceAndNonce current.signer (groupBySender txs) current.header.baseFee)
          none
        let s : Sys σ ι := { s with worker := { s.worker with current := some r.env } }
        (if current.tcount ≠ r.env.tcount then s.withSnapshot r.env else s).resume (some txs.length)
  | _, _ => devMode

/-- A side block enters the local or the remote uncle pool, by its author. -/
def addSideBlock (b : Backend σ ι) (s : Sys σ ι) (block : Block) : Sys σ ι :=
  let hash := b.hash block.header
  let isLocal := match b.isLocalBlock with
    | some isLocalBlock => isLocalBlock block.header
    | none => false
  if isLocal then { s with worker := { s.worker with localUncles := s.worker.localUncles ++ [(hash, block)] } }
  else { s with worker := { s.worker with remoteUncles := s.worker.remoteUncles ++ [(hash, block)] } }

@[simp] theorem addSideBlock_current (b : Backend σ ι) (s : Sys σ ι) (block : Block) :
    (s.addSideBlock b block).worker.current = s.worker.current := by
  dsimp only [addSideBlock]
  split_ifs <;> rfl

@[simp] theorem addSideBlock_snapshot (b : Backend σ ι) (s : Sys σ ι) (block : Block) :
    (s.addSideBlock b block).worker.snapshot = s.worker.snapshot := by
  dsimp only [addSideBlock]
  split_ifs <;> rfl

@[simp] theorem addSideBlock_running (b : Backend σ ι) (s : Sys σ ι) (block : Block) :
    (s.addSideBlock b block).worker.running = s.worker.running := by
  dsimp only [addSideBlock]
  split_ifs <;> rfl

@[simp] theorem addSideBlock_main (b : Backend σ ι) (s : Sys σ ι) (block : Block) :
    (s.addSideBlock b block).main = s.main := by
  dsimp only [addSideBlock]
  split_ifs <;> rfl

@[simp] theorem addSideBlock_prefetchers (b : Backend σ ι) (s : Sys σ ι) (block : Block) :
    (s.addSideBlock b block).prefetchers = s.prefetchers := by
  dsimp only [addSideBlock]
  split_ifs <;> rfl

@[simp] theorem addSideBlock_nextPrefetcher (b : Backend σ ι) (s : Sys σ ι) (block : Block) :
    (s.addSideBlock b block).nextPrefetcher = s.nextPrefetcher := by
  dsimp only [addSideBlock]
  split_ifs <;> rfl

/-- `mainLoop`'s `chainSideCh` case. -/
def sideEvent (b : Backend σ ι) (s : Sys σ ι) (block : Block) : Sys σ ι :=
  let hash := b.hash block.header
  if hash ∈ s.worker.localUncles.map Prod.fst ∨ hash ∈ s.worker.remoteUncles.map Prod.fst then s
  else
    let s := s.addSideBlock b block
    match s.worker.current with
    | some current =>
        if s.worker.running ∧ current.uncles.length < 2 then
          match commitUncle b current block.header with
          | .ok current =>
              { s with worker := { s.worker with current := some current } }.commitEnv b current.copy .resume
          | .error _ => s
        else s
    | none => s

/-- `mainLoop`'s `cleanTicker.C` case: drop the uncles `staleThreshold` blocks
below the head. -/
def cleanTick (s : Sys σ ι) : Sys σ ι :=
  match s.head with
  | some head =>
      let keep := fun (entry : Hash × Block) =>
        !decide ((entry.2.numberU64 + staleThreshold) % uint64Mod ≤ head.numberU64)
      { s with worker := { s.worker with
          localUncles := s.worker.localUncles.filter keep
          remoteUncles := s.worker.remoteUncles.filter keep } }
  | none => s

@[simp] theorem cleanTick_current (s : Sys σ ι) : s.cleanTick.worker.current = s.worker.current := by
  unfold cleanTick
  split <;> rfl

@[simp] theorem cleanTick_main (s : Sys σ ι) : s.cleanTick.main = s.main := by
  unfold cleanTick
  split <;> rfl

/-- A step of `mainLoop` inside `commitWork`: one iteration of `commitTransactions`'
loop, reading the round's cell, or its send on `resubmitAdjustCh`, which waits
while the buffer is full. -/
def roundStep (b : Backend σ ι) (s : Sys σ ι) : Option (Sys σ ι) :=
  match s.main with
  | .fill round txs rest =>
      match commitTransactionsStep b round.work txs (round.interrupt.map s.cell) with
      | .next work txs => some { s with main := .fill { round with work } txs rest }
      | .exit work =>
          if round.interrupt.isSome then
            some { s with main := .adjust { round with work } { ratio := 0, inc := false } rest }
          else some (s.nextBatch b { round with work } rest)
      | .abort none _ => some (s.commitEnv b round.work.copy (.install round.work round.addTxs))
      | .abort (some msg) _ => some { s with main := .adjust round msg rest }
  | .adjust round msg rest =>
      if s.resubmitAdjustCh.length < resubmitAdjustChanSize then
        some ({ s with resubmitAdjustCh := s.resubmitAdjustCh ++ [msg] }.nextBatch b round rest)
      else none
  | _ => none

/-- `taskLoop` receives the task `mainLoop` sends: the previous sealing is
interrupted and the task is recorded under its seal hash; `commit` then goes on
with `updateSnapshot`. -/
def taskRecv (b : Backend σ ι) (s : Sys σ ι) : Option (Sys σ ι) :=
  match s.main with
  | .task task env after =>
      if s.taskLoop.done then none
      else
        let sealHash := b.sealHash task.block.header
        some (({ s with
          taskLoop := { prev := sealHash, done := false }
          worker := { s.worker with
            pendingTasks := (sealHash, task) ::
              s.worker.pendingTasks.filter fun entry => entry.1 != sealHash } }.withSnapshot
          env).afterCommit after)
  | _ => none

/-- One step of the system; `none` when the action is not enabled. -/
def step (b : Backend σ ι) : Action → Sys σ ι → Option (Sys σ ι)
  | .chainHead block, s =>
      if s.chainHeadCh.length < b.chainHeadChanSize then
        some { s with head := some block, chainHeadCh := s.chainHeadCh ++ [block] }
      else none
  | .chainSide block, s =>
      if s.chainSideCh.length < chainSideChanSize then
        some { s with chainSideCh := s.chainSideCh ++ [block] }
      else none
  | .newTxs txs, s =>
      if s.txsCh.length < txChanSize then some { s with txsCh := s.txsCh ++ [txs] } else none
  | .pool pending locals, s => some { s with pending, locals }
  | .start, s =>
      if s.startCh then none
      else some { s with worker := { s.worker with running := true }, startCh := true }
  | .stop, s => some { s with worker := { s.worker with running := false } }
  | .close, s =>
      if s.exitClosed then none
      else some { s with worker := { s.worker with running := false }, exitClosed := true }
  | .setEtherbase addr, s => some { s with worker := { s.worker with coinbase := addr } }
  | .setExtra extra, s => some { s with worker := { s.worker with extra } }
  | .tick, s => some { s with now := s.now + 1 }
  | .subscriptionError, s => some { s with subscriptionError := true }
  | .generatePendingHeader header, s =>
      let r := generatePendingHeader b s.worker s.head s.nextPrefetcher s.now header
      match r.2.1 with
      | some _ =>
          some { s with
            worker := r.1
            prefetchers := s.nextPrefetcher :: s.prefetchers
            nextPrefetcher := s.nextPrefetcher + 1 }
      | none => some { s with worker := r.1 }
  | .setRecommitInterval interval, s =>
      match s.newWork.pc with
      | .select =>
          some { s with newWork := { s.newWork with
            interval := s.newWork.interval.step (.setInterval interval) } }
      | _ => none
  | .getSealingBlock params, s =>
      match s.main with
      | .select =>
          match (generateWork b s.worker s.head s.nextPrefetcher s.pending s.locals params).1 with
          | some work =>
              some { s with
                prefetchers := work.discard (s.nextPrefetcher :: s.prefetchers)
                nextPrefetcher := s.nextPrefetcher + 1 }
          | none => some s
      | _ => none
  | .newWorkStart, s =>
      match s.newWork.pc, s.startCh with
      | .select, true =>
          let s := match s.head with
            | some head => s.prune head.numberU64
            | none => s
          some ({ s with startCh := false, newWork := { s.newWork with timestamp := s.now } }.newWorkCommit
            false .newHead)
      | _, _ => none
  | .newWorkChainHead, s =>
      match s.newWork.pc, s.chainHeadCh with
      | .select, block :: rest =>
          let s := s.prune block.numberU64
          some ({ s with chainHeadCh := rest, newWork := { s.newWork with timestamp := s.now } }.newWorkCommit
            false .newHead)
      | _, _ => none
  | .newWorkTimer, s =>
      match s.newWork.pc, s.newWork.timerArmed with
      | .select, true =>
          let s := { s with newWork := { s.newWork with timerArmed := false } }
          if s.worker.running ∧ periodicResubmit b then
            if s.worker.newTxs = 0 then some { s with newWork := { s.newWork with timerArmed := true } }
            else some (s.newWorkCommit true .resubmit)
          else some s
      | _, _ => none
  | .newWorkAdjust, s =>
      match s.newWork.pc, s.resubmitAdjustCh with
      | .select, msg :: rest =>
          some { s with
            resubmitAdjustCh := rest
            newWork := { s.newWork with interval := s.newWork.interval.step (.adjust msg) } }
      | _, _ => none
  | .newWorkExit, s =>
      match s.newWork.pc with
      | .select => if s.exitClosed then some { s with newWork := { s.newWork with pc := .done } } else none
      | _ => none
  | .newWorkSendExit, s =>
      match s.newWork.pc with
      | .send _ => if s.exitClosed then some { s with newWork := { s.newWork with pc := .select } } else none
      | _ => none
  | .newWorkReset, s =>
      match s.newWork.pc with
      | .reset =>
          some { s with
            worker := { s.worker with newTxs := 0 }
            newWork := { s.newWork with pc := .select, timerArmed := true } }
      | _ => none
  | .mainNewWork, s =>
      match s.main, s.newWork.pc with
      | .select, .send req =>
          some ({ s with newWork := { s.newWork with pc := .reset } }.commitWork b (some req.interrupt)
            req.timestamp none)
      | _, _ => none
  | .mainChainSide, s =>
      match s.main, s.chainSideCh with
      | .select, block :: rest => some ({ s with chainSideCh := rest }.sideEvent b block)
      | _, _ => none
  | .mainCleanTick, s =>
      match s.main with
      | .select => some s.cleanTick
      | _ => none
  | .mainTxs, s =>
      match s.main, s.txsCh with
      | .select, txs :: rest => some ({ s with txsCh := rest }.txsEvent b txs)
      | _, _ => none
  | .mainExit, s =>
      match s.main with
      | .select =>
          if s.exitClosed ∨ s.subscriptionError then
            some { s with
              main := .done
              prefetchers := match s.worker.current with
                | some current => current.discard s.prefetchers
                | none => s.prefetchers }
          else none
      | _ => none
  | .mainRound, s => s.roundStep b
  | .mainTaskExit, s =>
      match s.main with
      | .task _ env after => if s.exitClosed then some ((s.withSnapshot env).afterCommit after) else none
      | _ => none
  | .taskRecv, s => s.taskRecv b
  | .taskExit, s =>
      if s.exitClosed ∧ !s.taskLoop.done then some { s with taskLoop := { s.taskLoop with done := true } }
      else none

section MainSteps

variable {b : Backend σ ι} {s s' : Sys σ ι}

/-! What a step of `mainLoop`, of `newWorkLoop`'s timer and of `taskLoop` can
do, said once here: the invariant proofs cite these instead of unfolding those
cases of `step`. -/

theorem step_mainNewWork (hs : s.step b .mainNewWork = some s') :
    ∃ req, s.main = .select ∧ s.newWork.pc = .send req ∧
      s' = { s with newWork := { s.newWork with pc := .reset } }.commitWork b (some req.interrupt)
        req.timestamp none := by
  simp only [step] at hs
  split at hs <;> cases hs
  exact ⟨_, ‹_›, ‹_›, rfl⟩

theorem step_mainChainSide (hs : s.step b .mainChainSide = some s') :
    ∃ block rest, s.main = .select ∧ s.chainSideCh = block :: rest ∧
      s' = { s with chainSideCh := rest }.sideEvent b block := by
  simp only [step] at hs
  split at hs <;> cases hs
  exact ⟨_, _, ‹_›, ‹_›, rfl⟩

theorem step_mainCleanTick (hs : s.step b .mainCleanTick = some s') :
    s.main = .select ∧ s' = s.cleanTick := by
  simp only [step] at hs
  split at hs <;> cases hs
  exact ⟨‹_›, rfl⟩

theorem step_mainTxs (hs : s.step b .mainTxs = some s') :
    ∃ txs rest, s.main = .select ∧ s.txsCh = txs :: rest ∧
      s' = { s with txsCh := rest }.txsEvent b txs := by
  simp only [step] at hs
  split at hs <;> cases hs
  exact ⟨_, _, ‹_›, ‹_›, rfl⟩

theorem step_mainTaskExit (hs : s.step b .mainTaskExit = some s') :
    ∃ task env after, s.main = .task task env after ∧ s.exitClosed = true ∧
      s' = (s.withSnapshot env).afterCommit after := by
  simp only [step] at hs
  split at hs
  · split at hs <;> cases hs
    exact ⟨_, _, _, ‹_›, ‹_›, rfl⟩
  · cases hs

theorem step_mainExit (hs : s.step b .mainExit = some s') :
    s.main = .select ∧ (s.exitClosed ∨ s.subscriptionError) ∧
      s' = { s with
        main := .done
        prefetchers := match s.worker.current with
          | some current => current.discard s.prefetchers
          | none => s.prefetchers } := by
  simp only [step] at hs
  split at hs
  · split at hs <;> cases hs
    exact ⟨‹_›, ‹_›, rfl⟩
  · cases hs

/-- The timer either re-arms or disarms itself, or, with `newTxs ≠ 0`, resubmits. -/
theorem step_newWorkTimer (hs : s.step b .newWorkTimer = some s') :
    s.newWork.pc = .select ∧
      ((∃ armed, s' = { s with newWork := { s.newWork with timerArmed := armed } }) ∨
        (s.worker.newTxs ≠ 0 ∧
          s' = { s with newWork := { s.newWork with timerArmed := false } }.newWorkCommit true .resubmit)) := by
  simp only [step] at hs
  split at hs
  · split at hs
    · split at hs <;> cases hs
      · exact ⟨‹_›, .inl ⟨true, rfl⟩⟩
      · exact ⟨‹_›, .inr ⟨‹_›, rfl⟩⟩
    · cases hs
      exact ⟨‹_›, .inl ⟨false, rfl⟩⟩
  · cases hs

/-- What a step of a round can do: one outcome of `commitTransactionsStep` on
the round's cell, or the send on `resubmitAdjustCh`. -/
theorem roundStep_some (hs : s.roundStep b = some s') :
    (∃ round txs rest work txs', s.main = .fill round txs rest ∧
      commitTransactionsStep b round.work txs (round.interrupt.map s.cell) = .next work txs' ∧
      s' = { s with main := .fill { round with work } txs' rest }) ∨
    (∃ round txs rest work, s.main = .fill round txs rest ∧
      commitTransactionsStep b round.work txs (round.interrupt.map s.cell) = .exit work ∧
      round.interrupt.isSome ∧
      s' = { s with main := .adjust { round with work } { ratio := 0, inc := false } rest }) ∨
    (∃ round txs rest work, s.main = .fill round txs rest ∧
      commitTransactionsStep b round.work txs (round.interrupt.map s.cell) = .exit work ∧
      round.interrupt = none ∧ s' = s.nextBatch b { round with work } rest) ∨
    (∃ round txs rest result, s.main = .fill round txs rest ∧
      commitTransactionsStep b round.work txs (round.interrupt.map s.cell) = .abort none result ∧
      s' = s.commitEnv b round.work.copy (.install round.work round.addTxs)) ∨
    (∃ round txs rest msg result, s.main = .fill round txs rest ∧
      commitTransactionsStep b round.work txs (round.interrupt.map s.cell) = .abort (some msg) result ∧
      s' = { s with main := .adjust round msg rest }) ∨
    (∃ round msg rest, s.main = .adjust round msg rest ∧
      s.resubmitAdjustCh.length < resubmitAdjustChanSize ∧
      s' = { s with resubmitAdjustCh := s.resubmitAdjustCh ++ [msg] }.nextBatch b round rest) := by
  unfold roundStep at hs
  split at hs
  · rename_i hmain
    split at hs
    · cases hs
      exact .inl ⟨_, _, _, _, _, hmain, ‹_›, rfl⟩
    · split at hs <;> cases hs
      · exact .inr (.inl ⟨_, _, _, _, hmain, ‹_›, ‹_›, rfl⟩)
      · exact .inr (.inr (.inl ⟨_, _, _, _, hmain, ‹_›, Option.not_isSome_iff_eq_none.mp ‹_›, rfl⟩))
    · cases hs
      exact .inr (.inr (.inr (.inl ⟨_, _, _, _, hmain, ‹_›, rfl⟩)))
    · cases hs
      exact .inr (.inr (.inr (.inr (.inl ⟨_, _, _, _, _, hmain, ‹_›, rfl⟩))))
  · split at hs <;> cases hs
    exact .inr (.inr (.inr (.inr (.inr ⟨_, _, _, ‹_›, ‹_›, rfl⟩))))
  · cases hs

/-- What `taskLoop`'s receive can do. -/
theorem taskRecv_some (hs : s.taskRecv b = some s') :
    ∃ task env after, s.main = .task task env after ∧
      s' = ({ s with
        taskLoop := { prev := b.sealHash task.block.header, done := false }
        worker := { s.worker with
          pendingTasks := (b.sealHash task.block.header, task) ::
            s.worker.pendingTasks.filter fun entry => entry.1 != b.sealHash task.block.header } }.withSnapshot
        env).afterCommit after := by
  unfold taskRecv at hs
  split at hs
  · split at hs <;> cases hs
    exact ⟨_, _, _, ‹_›, rfl⟩
  · cases hs

end MainSteps

/-- A run of actions from `s`. -/
def run (b : Backend σ ι) : Sys σ ι → List Action → Option (Sys σ ι)
  | s, [] => some s
  | s, a :: actions => (s.step b a).bind fun s => run b s actions

/-- What every step of a run keeps holds at its end. -/
theorem run_invariant {b : Backend σ ι} (P : Sys σ ι → Prop) {actions : List Action}
    {s s' : Sys σ ι}
    (hstep : ∀ a ∈ actions, ∀ s s', P s → s.step b a = some s' → P s')
    (h : P s) (hrun : s.run b actions = some s') :
    P s' := by
  induction actions generalizing s with
  | nil =>
      cases hrun
      exact h
  | cons a actions ih =>
      obtain ⟨s₁, h₁, hrun⟩ := Option.bind_eq_some.mp hrun
      exact ih (fun a ha => hstep a (List.mem_cons_of_mem _ ha))
        (hstep a (List.mem_cons_self _ _) _ _ h h₁) hrun

end Sys

/-- The states reachable from `newWorker(..., init)`. -/
inductive Reachable (b : Backend σ ι) (start : Bool) : Sys σ ι → Prop
  | init : Reachable b start (Sys.init b start)
  | step {s s' : Sys σ ι} (a : Action) : Reachable b start s → s.step b a = some s' →
      Reachable b start s'

namespace Reachable

variable {b : Backend σ ι} {start : Bool}

/-- A run from a reachable state ends in a reachable state. -/
theorem run {s s' : Sys σ ι} {actions : List Action} (h : Reachable b start s)
    (hrun : s.run b actions = some s') : Reachable b start s' :=
  Sys.run_invariant (Reachable b start) (fun a _ _ _ h hs => h.step a hs) h hrun

end Reachable

end System

end QuaiWorker
