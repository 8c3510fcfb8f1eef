import QuaiWorker.Types

/-!
# The worker's collaborators

`worker` in `core/worker.go` holds references to the consensus engine, the
header chain with its state processor, the transaction pool and the chain
configuration.  None of them is part of this repository's `src/`, and the
worker uses each only through a few calls.  `Backend σ ι` gathers those calls
as functions, so that every result below holds for every engine, every chain
and every `ApplyTransaction`.

**The price and nonce iterator.**  `types.TransactionsByPriceAndNonce` is used
through `Peek`, `Shift` and `Pop`.  `TxIterator ι` keeps the three methods and
the number of transactions that remain, with the law that `Shift` and `Pop`
remove at least one of them whenever `Peek` has a transaction.  Which account
head `Peek` yields is left to the iterator.
-/

namespace QuaiWorker

section Backend

/-- What `ApplyTransaction` returns and leaves in the gas pool, the world state
and the header's used-gas counter, whether it succeeds or fails. -/
structure ApplyOutcome (σ : Type) where
  result : Except TxError Receipt
  gasPool : Nat
  world : σ
  gasUsed : Nat

/-- `types.TransactionsByPriceAndNonce` through the methods the worker calls. -/
structure TxIterator (ι : Type) where
  peek : ι → Option Transaction
  shift : ι → ι
  pop : ι → ι
  size : ι → Nat
  shift_lt : ∀ it, (peek it).isSome → size (shift it) < size it
  pop_lt : ∀ it, (peek it).isSome → size (pop it) < size it

/-- The engine, chain, processor, pool and configuration calls of `worker`. -/
structure Backend (σ ι : Type) where
  /-- `config.Recommit`. -/
  recommit : Int
  /-- `chainConfig.Clique`: `none` for nil, else its `Period`. -/
  cliquePeriod : Option Nat
  /-- `params.TxGas`. -/
  txGas : Nat
  /-- `chainConfig.IsEIP155(number)`. -/
  isEIP155 : Int → Bool
  /-- `types.MakeSigner(chainConfig, number)`. -/
  makeSigner : Int → Nat
  /-- `chainHeadChanSize`, declared outside `worker.go`. -/
  chainHeadChanSize : Nat
  /-- `worker.isLocalBlock`, possibly nil. -/
  isLocalBlock : Option (Header → Bool)
  /-- `Header.Hash()`. -/
  hash : Header → Hash
  /-- `engine.SealHash(header)`. -/
  sealHash : Header → Hash
  /-- `engine.Prepare(hc, header)`, which fills engine fields of the header. -/
  prepare : Header → Except String Header
  /-- `engine.FinalizeAndAssemble(hc, header, state, txs, uncles, receipts)`. -/
  finalizeAndAssemble :
    Header → StateDB σ → List Transaction → List Header → List Receipt → Except String Block
  /-- `processor.StateAt(root)`. -/
  stateAt : Hash → Except String σ
  /-- `processor.StateAtBlock(block, 1024, nil, false, false)`. -/
  stateAtBlock : Block → Except String σ
  /-- `hc.GetBlocksFromHash(hash, n)`. -/
  getBlocksFromHash : Hash → Nat → List Block
  /-- `hc.GetBlockByHash(hash)`. -/
  getBlockByHash : Hash → Option Block
  /-- `hc.GetUnclesInChain(block, length)`. -/
  getUnclesInChain : Option Block → Nat → List Header
  /-- `misc.CalcBaseFee(chainConfig, parent, ...)`. -/
  calcBaseFee : Header → Int
  /-- `CalcGasLimit(parentGasLimit, gasUsed, uncleCount)`. -/
  calcGasLimit : Nat → Nat → Nat → Nat
  /-- `ApplyTransaction(config, hc, &coinbase, gasPool, state, header, tx, &usedGas, vmConfig)`. -/
  applyTransaction : Address → Nat → StateDB σ → Header → Transaction → ApplyOutcome σ
  /-- `types.NewTransactionsByPriceAndNonce(signer, txs, baseFee)`. -/
  newTransactionsByPriceAndNonce : Nat → List (Address × List Transaction) → Int → ι
  /-- The iterator's methods. -/
  iter : TxIterator ι

/-- One queue of transactions: `Peek` is its head, `Shift` and `Pop` drop it. -/
def queueIterator : TxIterator (List Transaction) where
  peek := List.head?
  shift := List.tail
  pop := List.tail
  size := List.length
  shift_lt := by
    intro txs h
    cases txs <;> simp_all
  pop_lt := by
    intro txs h
    cases txs <;> simp_all

/-- A concrete backend for the theorems about fixed inputs: a chain whose block
hash is its header's root, an engine that assembles exactly what it is given, a state
that is always available, and an `ApplyTransaction` that buys `TxGas` from the
pool or fails with `ErrGasLimitReached` when the pool holds less. -/
def basicBackend : Backend Unit (List Transaction) where
  recommit := 3000000000
  cliquePeriod := none
  txGas := 21000
  isEIP155 := fun _ => true
  makeSigner := fun _ => 0
  chainHeadChanSize := 10
  isLocalBlock := none
  hash := fun header => header.root
  sealHash := fun header => header.root
  prepare := fun header => .ok header
  finalizeAndAssemble := fun header _ txs uncles _ =>
    .ok { header, transactions := txs, uncles }
  stateAt := fun _ => .ok ()
  stateAtBlock := fun _ => .ok ()
  getBlocksFromHash := fun _ _ => []
  getBlockByHash := fun _ => none
  getUnclesInChain := fun _ _ => []
  calcBaseFee := fun _ => 0
  calcGasLimit := fun parentGasLimit _ _ => parentGasLimit
  applyTransaction := fun _ gp st header _ =>
    if gp < 21000 then
      { result := .error .gasLimitReached, gasPool := gp, world := st.world
        gasUsed := header.gasUsed }
    else
      { result := .ok { gasUsed := 21000, logs := [] }, gasPool := gp - 21000
        world := st.world, gasUsed := header.gasUsed + 21000 }
  newTransactionsByPriceAndNonce := fun _ txs _ => (txs.map Prod.snd).flatten
  iter := queueIterator

end Backend

end QuaiWorker
