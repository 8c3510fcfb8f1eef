import QuaiWorker.Recommit

/-!
# Preparing and assembling work

This module embeds the sequential parts of a sealing round: `prepareWork` with
its uncle loop, `adjustGasLimit`, `generateWork`, `GeneratePendingHeader`,
`updateSnapshot` and the pruning helper `clearPending`, together with the
fields of `worker` they read and write.

**The head.**  `w.hc.CurrentBlock()` is the chain's state, not the worker's;
every function that reads it takes it as `head`.

**Map order.**  `prepareWork` walks `localUncles` and `remoteUncles` in Go's
map order, which is random.  The pools are lists here, and every result
quantifies over every list, so over every order.

**Results.**
* `prepareWork_ignores_params`: the header and environment `prepareWork` builds
  do not depend on the parent hash, coinbase, randomness, `noUncle` or
  `noExtra` of its `generateParams`.
* `getSealingBlock_ignores_params`: a `getSealingBlock` request with
  `noUncle`, `noExtra`, a parent hash, a coinbase and a randomness of its own
  gets a block built on the head, with an uncle, the worker's extra, the
  worker's coinbase and no mix digest.
-/

namespace QuaiWorker

section PrepareWork

variable {σ ι : Type}

/-- `generateParams`. -/
structure GenerateParams where
  timestamp : Nat
  forceTime : Bool
  parentHash : Hash
  coinbase : Address
  random : Hash
  noUncle : Bool
  noExtra : Bool
deriving DecidableEq, Repr

/-- `task`. -/
structure Task (σ : Type) where
  receipts : List Receipt
  state : StateDB σ
  block : Block
  createdAt : Int
deriving DecidableEq

/-- The fields of `worker` that the sealing code reads and writes, besides its
collaborators and channels. -/
structure Worker (σ : Type) where
  running : Bool
  coinbase : Address
  extra : List Nat
  current : Option (Environment σ)
  localUncles : List (Hash × Block)
  remoteUncles : List (Hash × Block)
  newTxs : Int
  pendingTasks : List (Hash × Task σ)
  snapshot : Option (Block × List Receipt × StateDB σ)
deriving DecidableEq

/-- `commitUncles` inside `prepareWork`: try the pool's blocks in map order, and
`break` once the environment holds two uncles. -/
def commitUncles (b : Backend σ ι) (env : Environment σ) : List (Hash × Block) → Environment σ
  | [] => env
  | (_, uncle) :: blocks =>
      if env.uncles.length = 2 then env
      else
        match commitUncle b env uncle.header with
        | .ok env => commitUncles b env blocks
        | .error _ => commitUncles b env blocks

/-- The header `prepareWork` builds on `parent`, before the consensus engine's
`Prepare`. -/
def sealingHeader (b : Backend σ ι) (w : Worker σ) (parent : Block) (timestamp : Nat) :
    Except String Header :=
  let header : Header :=
    { parentHash := b.hash parent.header
      number := toInt64 (toUint64 (toInt64 (bigUint64 parent.header.number) + 1))
      extra := w.extra
      time := timestamp
      baseFee := b.calcBaseFee parent.header
      gasLimit := 0, coinbase := 0, gasUsed := 0, root := 0, mixDigest := 0 }
  if w.running then
    if w.coinbase = 0 then .error "refusing to mine without etherbase"
    else .ok { header with coinbase := w.coinbase }
  else .ok header

/-- `worker.prepareWork`, given the chain head and the identity of the
prefetcher `makeEnv` starts. -/
def prepareWork (b : Backend σ ι) (w : Worker σ) (head : Option Block) (prefetcher : Nat)
    (genParams : GenerateParams) : Except String (Environment σ) :=
  match head with
  | none => .error "missing parent"
  | some parent =>
      let timestamp : Except String Nat :=
        if parent.header.time ≥ genParams.timestamp then
          if genParams.forceTime then
            .error ("invalid timestamp, parent " ++ toString parent.header.time ++ " given " ++
              toString genParams.timestamp)
          else .ok ((parent.header.time + 1) % uint64Mod)
        else .ok genParams.timestamp
      match timestamp with
      | .error err => .error err
      | .ok timestamp =>
          match sealingHeader b w parent timestamp with
          | .error err => .error err
          | .ok header =>
              match b.prepare header with
              | .error err => .error err
              | .ok header =>
                  match makeEnv b prefetcher parent header w.coinbase with
                  | .error err => .error err
                  | .ok env => .ok (commitUncles b (commitUncles b env w.localUncles) w.remoteUncles)

/-- A successful `prepareWork` builds on the chain head: the header for the
clamped timestamp, through `engine.Prepare`, then `makeEnv` and the two uncle
loops. -/
theorem prepareWork_spec {b : Backend σ ι} {w : Worker σ} {head : Option Block} {prefetcher : Nat}
    {params : GenerateParams} {env : Environment σ}
    (h : prepareWork b w head prefetcher params = .ok env) :
    ∃ parent header₀ header env₀, head = some parent ∧
      sealingHeader b w parent (if parent.header.time < params.timestamp then params.timestamp
        else (parent.header.time + 1) % uint64Mod) = .ok header₀ ∧
      b.prepare header₀ = .ok header ∧ makeEnv b prefetcher parent header w.coinbase = .ok env₀ ∧
      env = commitUncles b (commitUncles b env₀ w.localUncles) w.remoteUncles := by
  unfold prepareWork at h
  split at h
  · cases h
  · rename_i parent
    dsimp only at h
    split at h
    · cases h
    · rename_i timestamp htimestamp
      have hclamp : (if parent.header.time < params.timestamp then params.timestamp
          else (parent.header.time + 1) % uint64Mod) = timestamp := by
        split_ifs at htimestamp with hge hforce <;> cases htimestamp
        · rw [if_neg (by omega)]
        · rw [if_pos (by omega)]
      refine ⟨parent, ?_⟩
      rw [hclamp]
      split at h
      · cases h
      · split at h
        · cases h
        · split at h
          · cases h
          · cases h
            exact ⟨_, _, _, rfl, ‹_›, ‹_›, ‹_›, rfl⟩

/-- A successful `prepareWork` is `makeEnv` followed by the two uncle loops. -/
theorem prepareWork_ok {b : Backend σ ι} {w : Worker σ} {head : Option Block} {prefetcher : Nat}
    {params : GenerateParams} {env : Environment σ}
    (h : prepareWork b w head prefetcher params = .ok env) :
    ∃ parent header env₀, makeEnv b prefetcher parent header w.coinbase = .ok env₀ ∧
      env = commitUncles b (commitUncles b env₀ w.localUncles) w.remoteUncles :=
  let ⟨parent, _, header, env₀, _, _, _, hmake, henv⟩ := prepareWork_spec h
  ⟨parent, header, env₀, hmake, henv⟩

/-- `worker.adjustGasLimit` (its `interrupt` argument is unused). -/
def adjustGasLimit (b : Backend σ ι) (head : Option Block) (env : Environment σ) : Environment σ :=
  match head with
  | none => env
  | some parent =>
      let gasUsed := ((parent.header.gasUsed + env.externalGasUsed) % uint64Mod) /
        toUint64 (env.externalBlockLength + 1)
      let prevBlock := b.getBlockByHash env.header.parentHash
      let uncleCount := (b.getUnclesInChain prevBlock 1000).length
      { env with
        header := { env.header with
          gasLimit := b.calcGasLimit parent.header.gasLimit gasUsed uncleCount } }

/-- `adjustGasLimit` sets the header's gas limit and nothing else. -/
theorem adjustGasLimit_eq (b : Backend σ ι) (head : Option Block) (env : Environment σ) :
    ∃ gasLimit, adjustGasLimit b head env = { env with header := { env.header with gasLimit } } := by
  unfold adjustGasLimit
  split
  · exact ⟨env.header.gasLimit, rfl⟩
  · exact ⟨_, rfl⟩

/-- `worker.generateWork`: the environment it made, which its `defer` discards,
and the block or error it returns. -/
def generateWork (b : Backend σ ι) (w : Worker σ) (head : Option Block) (prefetcher : Nat)
    (pending : Except String (List (Address × List Transaction))) (locals : List Address)
    (params : GenerateParams) : Option (Environment σ) × Except String Block :=
  match prepareWork b w head prefetcher params with
  | .error err => (none, .error err)
  | .ok work =>
      let work := adjustGasLimit b head work
      let work := (fillTransactions b pending locals none work).env
      (some work,
        b.finalizeAndAssemble work.header work.state work.txs work.unclelist work.receipts)

/-- The environment `generateWork` made: `prepareWork`'s, after
`adjustGasLimit` and `fillTransactions`. -/
theorem generateWork_env {b : Backend σ ι} {w : Worker σ} {head : Option Block} {prefetcher : Nat}
    {pending : Except String (List (Address × List Transaction))} {locals : List Address}
    {params : GenerateParams} {work : Environment σ}
    (h : (generateWork b w head prefetcher pending locals params).1 = some work) :
    ∃ env, prepareWork b w head prefetcher params = .ok env ∧
      work = (fillTransactions b pending locals none (adjustGasLimit b head env)).env := by
  unfold generateWork at h
  split at h
  · cases h
  · cases h
    exact ⟨_, ‹_›, rfl⟩

/-- The request `getSealingBlock(parent, timestamp, coinbase, random)` sends. -/
def sealingBlockParams (parent : Hash) (timestamp : Nat) (coinbase : Address) (random : Hash) :
    GenerateParams :=
  { timestamp, forceTime := true, parentHash := parent, coinbase, random
    noUncle := true, noExtra := true }

/-- `clearPending(number)`: drop the tasks at least `staleThreshold` blocks old. -/
def clearPending (pendingTasks : List (Hash × Task σ)) (number : Nat) : List (Hash × Task σ) :=
  pendingTasks.filter fun entry =>
    !decide ((entry.2.block.numberU64 + staleThreshold) % uint64Mod ≤ number)

/-- `worker.updateSnapshot`: the block, receipts and state it publishes. -/
def updateSnapshot (env : Environment σ) : Block × List Receipt × StateDB σ :=
  ({ header := env.header, transactions := env.txs, uncles := env.unclelist },
    copyReceipts env.receipts, env.state.copy)

/-- `worker.GeneratePendingHeader`, called at time `now`: the worker after it
(stale tasks pruned, `newTxs` reset), the environment it made, and what it
returns. -/
def generatePendingHeader (b : Backend σ ι) (w : Worker σ) (head : Option Block)
    (prefetcher : Nat) (now : Int) (header : Header) :
    Worker σ × Option (Environment σ) × Except String Header :=
  let w := { w with pendingTasks := clearPending w.pendingTasks (bigUint64 header.number), newTxs := 0 }
  if w.running ∧ w.coinbase = 0 then (w, none, .error "etherbase not found")
  else
    let coinbase := if w.running then w.coinbase else 0
    match prepareWork b w head prefetcher
        { timestamp := toUint64 now, forceTime := false, parentHash := 0, coinbase
          random := 0, noUncle := false, noExtra := false } with
    | .error err => (w, none, .error err)
    | .ok work => (w, some work, .ok work.copy.header)

/-- The worker after `GeneratePendingHeader`, whatever it returns: stale tasks
pruned at the header's number and `newTxs` reset. -/
theorem generatePendingHeader_worker (b : Backend σ ι) (w : Worker σ)
    (head : Option Block) (prefetcher : Nat) (now : Int) (header : Header) :
    (generatePendingHeader b w head prefetcher now header).1 =
      { w with pendingTasks := clearPending w.pendingTasks (bigUint64 header.number), newTxs := 0 } := by
  unfold generatePendingHeader
  dsimp only
  split
  · rfl
  · split <;> rfl

/-- `GeneratePendingHeader` leaves `w.current` alone. -/
@[simp] theorem generatePendingHeader_current (b : Backend σ ι) (w : Worker σ)
    (head : Option Block) (prefetcher : Nat) (now : Int) (header : Header) :
    (generatePendingHeader b w head prefetcher now header).1.current = w.current := by
  rw [generatePendingHeader_worker]

/-- `GeneratePendingHeader` leaves the snapshot alone. -/
@[simp] theorem generatePendingHeader_snapshot (b : Backend σ ι) (w : Worker σ)
    (head : Option Block) (prefetcher : Nat) (now : Int) (header : Header) :
    (generatePendingHeader b w head prefetcher now header).1.snapshot = w.snapshot := by
  rw [generatePendingHeader_worker]

/-- `GeneratePendingHeader` resets `newTxs`. -/
@[simp] theorem generatePendingHeader_newTxs (b : Backend σ ι) (w : Worker σ)
    (head : Option Block) (prefetcher : Nat) (now : Int) (header : Header) :
    (generatePendingHeader b w head prefetcher now header).1.newTxs = 0 := by
  rw [generatePendingHeader_worker]

/-- `prepareWork` reads only the timestamp and `forceTime` of its parameters. -/
theorem prepareWork_ignores_params (b : Backend σ ι) (w : Worker σ) (head : Option Block)
    (prefetcher : Nat) (params : GenerateParams) (parentHash : Hash) (coinbase : Address)
    (random : Hash) (noUncle noExtra : Bool) :
    prepareWork b w head prefetcher
        { params with parentHash, coinbase, random, noUncle, noExtra } =
      prepareWork b w head prefetcher params := by
  rfl

/-- A header of the sample chain, by number, time, parent hash and hash (its root). -/
def sampleHeader (number : Int) (time : Nat) (parentHash root : Hash) : Header :=
  { parentHash, number, extra := [], time, baseFee := 0, gasLimit := 30000000, coinbase := 0
    gasUsed := 0, root, mixDigest := 0 }

/-- The head of the sample chain, block 5 with hash 50 on block 4 with hash 40. -/
def sampleHead : Block := { header := sampleHeader 5 100 40 50, transactions := [], uncles := [] }

/-- `basicBackend` on the sample chain: the head and its parent are the ancestors. -/
def chainBackend : Backend Unit (List Transaction) :=
  { basicBackend with
    getBlocksFromHash := fun _ _ =>
      [sampleHead, { header := sampleHeader 4 90 0 40, transactions := [], uncles := [] }] }

/-- A running worker with coinbase 7, extra `[1]`, and a side block on block 4
(hash 51) in its local uncle pool. -/
def sampleWorker : Worker Unit :=
  { running := true, coinbase := 7, extra := [1], current := none
    localUncles := [(51, { header := sampleHeader 5 101 40 51, transactions := [], uncles := [] })]
    remoteUncles := [], newTxs := 0, pendingTasks := [], snapshot := none }

/-- `getSealingBlock(99, 200, 8, 5)` on the sample chain: the block is built on the
head (hash 50, not 99), holds the side block as an uncle although `noUncle` is
set, carries the worker's extra although `noExtra` is set, pays coinbase 7 (in
the header and as the fee recipient) instead of 8, and has no mix digest
instead of 5. -/
theorem getSealingBlock_ignores_params :
    (generateWork chainBackend sampleWorker (some sampleHead) 0 (.ok []) []
        (sealingBlockParams 99 200 8 5)).1.map Environment.coinbase = some 7 ∧
      (generateWork chainBackend sampleWorker (some sampleHead) 0 (.ok []) []
          (sealingBlockParams 99 200 8 5)).2.toOption.map
        (fun block => (block.header.parentHash, block.uncles.length, block.header.extra,
          block.header.coinbase, block.header.mixDigest)) = some (50, 1, [1], 7, 0) := by
  decide

end PrepareWork

end QuaiWorker
