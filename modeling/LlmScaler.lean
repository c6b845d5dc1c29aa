import LlmScaler.Accelerator.Optimum
import LlmScaler.Borrow.ReadMerge
import LlmScaler.Borrow.Record
import LlmScaler.Borrow.Turns
import LlmScaler.Borrow.WakeRecord
import LlmScaler.Budget.InTurn
import LlmScaler.Budget.Selection
import LlmScaler.Budget.Tick
import LlmScaler.Composite.Served
import LlmScaler.Governor.Blocks
import LlmScaler.Kueue.Identities
import LlmScaler.Ledger.Commitment
import LlmScaler.Ledger.Donors
import LlmScaler.Ledger.Fills
import LlmScaler.Ledger.NeedRestore
import LlmScaler.Ledger.NeverStarted
import LlmScaler.Ledger.Sets
import LlmScaler.Nodes.Operations
import LlmScaler.Nodes.Persist
import LlmScaler.Optimizer.NodeFit
import LlmScaler.Optimizer.Ceilings
import LlmScaler.Optimizer.Replay
import LlmScaler.Optimizer.WaterFillTargets
import LlmScaler.Release.Pass
import LlmScaler.WarmPool.Bounds
import LlmScaler.WarmPool.Coverage
import LlmScaler.WarmPool.Estimator
import LlmScaler.Budget.ClusterFree
import LlmScaler.Optimizer.ShareCapacity
import LlmScaler.Release.PairUnit
import LlmScaler.Decision.ShareClaims
