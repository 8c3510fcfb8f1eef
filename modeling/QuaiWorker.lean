import QuaiWorker.Types
import QuaiWorker.Backend
import QuaiWorker.Environment
import QuaiWorker.Transactions
import QuaiWorker.Feedback
import QuaiWorker.Recommit
import QuaiWorker.PrepareWork
import QuaiWorker.System
import QuaiWorker.Envs
import QuaiWorker.Handover
import QuaiWorker.Interrupt
import QuaiWorker.Invariants
import QuaiWorker.Prefetch
import QuaiWorker.Snapshot
import QuaiWorker.Pools
import QuaiWorker.Signals
import QuaiWorker.Resubmit
import QuaiWorker.Round
import QuaiWorker.Tasks
import QuaiWorker.Batch
import QuaiWorker.UncleSelection
import QuaiWorker.SealingHeader
import QuaiWorker.Copy
import QuaiWorker.Shutdown
import QuaiWorker.Arrivals
import QuaiWorker.Discard
