import Mathlib.Data.Rat.Floor
import Mathlib.Data.List.Basic

/-!
# go-quai sealing worker: data model

This module fixes the values that `core/worker.go` passes around: hashes and
addresses, the local-context slot of a hierarchical header, transactions,
receipts, blocks, the working state handle, and the worker's constants.

**Hierarchical headers.**  A go-quai header holds three-entry arrays, one
entry per chain context.  The worker writes and reads only the entry at
`types.QuaiNetworkContext`, so `Header` keeps exactly that entry of each
array it touches.

**Machine integers.**  Block numbers are `*big.Int` (`Int` here), times,
gas amounts and counters are `uint64` (`Nat`, wrapped with `toUint64` where
the code converts), durations are `time.Duration` nanoseconds (`Int`).

**The state database.**  The worker never looks inside the world state: it
snapshots and reverts it, hands it to `ApplyTransaction`, tags it with the
transaction being executed (`Prepare`) and starts or stops its prefetcher.
`StateDB σ` therefore keeps the world as an abstract `σ` beside those three
pieces of bookkeeping.
-/

namespace QuaiWorker

section Types

/-- `common.Hash`; the zero hash is the empty hash. -/
abbrev Hash := Nat

/-- `common.Address`; the zero address is the empty address. -/
abbrev Address := Nat

/-- `2^64`, the modulus of Go's `uint64`. -/
def uint64Mod : Nat := 2 ^ 64

/-- Go's conversion `uint64(x)` of a signed integer: two's complement wrap. -/
def toUint64 (x : Int) : Nat := (x % (uint64Mod : Int)).toNat

/-- Go's conversion `int64(n)` of a `uint64`. -/
def toInt64 (n : Nat) : Int :=
  if n < 2 ^ 63 then n else (n : Int) - uint64Mod

/-- `big.Int.Uint64()`: the low 64 bits of the absolute value. -/
def bigUint64 (x : Int) : Nat := x.natAbs % uint64Mod

/-- The local-context slot of `types.Header`, with the fields the worker touches. -/
structure Header where
  parentHash : Hash
  number : Int
  extra : List Nat
  time : Nat
  baseFee : Int
  gasLimit : Nat
  coinbase : Address
  gasUsed : Nat
  root : Hash
  mixDigest : Hash
deriving DecidableEq, Repr

/-- `types.Transaction`, with the sender that `types.Sender` recovers. -/
structure Transaction where
  hash : Hash
  sender : Address
  nonce : Nat
  replayProtected : Bool
deriving DecidableEq, Repr

/-- `types.Receipt`: the gas it used and the logs it emitted. -/
structure Receipt where
  gasUsed : Nat
  logs : List Nat
deriving DecidableEq, Repr

/-- `types.Block`. -/
structure Block where
  header : Header
  transactions : List Transaction
  uncles : List Header
deriving DecidableEq, Repr

/-- `block.NumberU64()`. -/
def Block.numberU64 (block : Block) : Nat := bigUint64 block.header.number

/-- `state.StateDB`: the world state beside the transaction tag set by `Prepare`
and the identity of the prefetcher started on this handle (`none` on copies). -/
structure StateDB (σ : Type) where
  world : σ
  thash : Hash
  txIndex : Nat
  prefetcher : Option Nat
deriving DecidableEq, Repr

namespace StateDB

variable {σ : Type}

/-- `StateDB.Prepare(thash, ti)`. -/
def prepare (st : StateDB σ) (thash : Hash) (ti : Nat) : StateDB σ :=
  { st with thash := thash, txIndex := ti }

/-- `StateDB.Snapshot()`: the revision to come back to. -/
def snapshot (st : StateDB σ) : σ := st.world

/-- `StateDB.RevertToSnapshot(revid)`. -/
def revertToSnapshot (st : StateDB σ) (revid : σ) : StateDB σ :=
  { st with world := revid }

/-- `StateDB.Copy()`: the copy carries an inactive copy of the prefetcher. -/
def copy (st : StateDB σ) : StateDB σ := { st with prefetcher := none }

@[simp] theorem prepare_world (st : StateDB σ) (h : Hash) (i : Nat) :
    (st.prepare h i).world = st.world := rfl

@[simp] theorem copy_world (st : StateDB σ) : st.copy.world = st.world := rfl

@[simp] theorem copy_prefetcher (st : StateDB σ) : st.copy.prefetcher = none := rfl

end StateDB

/-- The values stored into an interrupt cell (`commitInterruptNone`,
`commitInterruptNewHead`, `commitInterruptResubmit`: the `int32`s 0, 1, 2). -/
inductive CommitInterrupt
  | none
  | newHead
  | resubmit
deriving DecidableEq, Repr

/-- `intervalAdjust`: a resubmitting interval adjustment. -/
structure IntervalAdjust where
  ratio : ℚ
  inc : Bool
deriving DecidableEq

/-- The error classes `commitTransactions` distinguishes, and the others. -/
inductive TxError
  | gasLimitReached
  | nonceTooLow
  | nonceTooHigh
  | txTypeNotSupported
  | other (msg : String)
deriving DecidableEq, Repr

/-- `resubmitAdjustChanSize`. -/
def resubmitAdjustChanSize : Nat := 10

/-- `chainSideChanSize`. -/
def chainSideChanSize : Nat := 10

/-- `txChanSize`. -/
def txChanSize : Nat := 4096

/-- `staleThreshold`. -/
def staleThreshold : Nat := 7

/-- `minRecommitInterval`, one second in nanoseconds. -/
def minRecommitInterval : Int := 1000000000

/-- `maxRecommitInterval`, fifteen seconds in nanoseconds. -/
def maxRecommitInterval : Int := 15000000000

/-- `intervalAdjustRatio`. -/
def intervalAdjustRatio : ℚ := 1 / 10

/-- `intervalAdjustBias`, 200 ms in nanoseconds. -/
def intervalAdjustBias : ℚ := 200 * 1000 * 1000

end Types

end QuaiWorker
