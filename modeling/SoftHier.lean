import SoftHier.Lib.Word
import SoftHier.Lib.Interval
import SoftHier.Lib.Runs
import SoftHier.Alloc.Model
import SoftHier.Alloc.FreeList
import SoftHier.Alloc.Malloc
import SoftHier.Alloc.Free
import SoftHier.Alloc.Heap
import SoftHier.Daml.Model
import SoftHier.Lib.Shares
import SoftHier.Daml.Split
import SoftHier.Daml.Arena
import SoftHier.Daml.Bitmap
import SoftHier.Daml.Common
import SoftHier.Daml.Ranges
import SoftHier.Noc.Mesh
import SoftHier.Lib.FieldSwap
import SoftHier.Noc.Interleaving
import SoftHier.Lib.Expansion
import SoftHier.Noc.Collective
import SoftHier.Noc.Coverage
import SoftHier.Noc.Stall
import SoftHier.Noc.Reduction
import SoftHier.Noc.RequestTree
import SoftHier.Noc.ReductionResult
import SoftHier.Ctrl.WakeupQueue
import SoftHier.Lib.Gate
import SoftHier.Lib.TreeBarrier
import SoftHier.Barrier.Model
import SoftHier.Barrier.Polling
import SoftHier.Barrier.Wakeup
import SoftHier.Barrier.Intra
import SoftHier.Barrier.WakeupSafety
import SoftHier.Barrier.WakeupProgress
import SoftHier.Barrier.Group
import SoftHier.Barrier.Local
import SoftHier.Barrier.GroupMap
import SoftHier.Barrier.Geometry
import SoftHier.Barrier.GroupSafety
import SoftHier.Lib.Memory
import SoftHier.Lib.Interleave
import SoftHier.Mem.Interleaver
import SoftHier.Mem.Hbm
import SoftHier.Mem.HbmBanks
import SoftHier.Mem.Wiring
import SoftHier.Gemm.Broadcast
import SoftHier.Gemm.Model
import SoftHier.Gemm.Tiled
import SoftHier.Lib.Bytes
import SoftHier.Redmule.Model
import SoftHier.Redmule.Machine
import SoftHier.Redmule.Steps
import SoftHier.Redmule.Config
import SoftHier.Lib.Progress
import SoftHier.Redmule.Progress
import SoftHier.Redmule.Protocol
import SoftHier.Redmule.Phases
import SoftHier.Redmule.Requests
import SoftHier.Lib.Segments
import SoftHier.Redmule.TimingOnly
import SoftHier.Redmule.Iterations
import SoftHier.Lib.Rows
import SoftHier.Lib.Loops
import SoftHier.Redmule.Blocks
import SoftHier.Redmule.Passes
import SoftHier.Redmule.Product
import SoftHier.Redmule.TileAccess
import SoftHier.Redmule.Stores
import SoftHier.Redmule.Leftovers
import SoftHier.Redmule.Residue
import SoftHier.Redmule.Accumulate
import SoftHier.Noc.Deadlock
import SoftHier.Alloc.Canonical
import SoftHier.Alloc.FirstFit
import SoftHier.Daml.Windows
import SoftHier.Idma.ReadOrder
import SoftHier.Idma.WriteAddress
import SoftHier.Idma.Regulation
import SoftHier.Lib.Positions
import SoftHier.Sparse.NmChain
import SoftHier.Dma.Pattern
import SoftHier.Lib.Strided
import SoftHier.Spatz.Vlsu
import SoftHier.Spatz.UnitStride
import SoftHier.Spatz.Indexed
import SoftHier.Spatz.Shifts
import SoftHier.Lib.Busy
import SoftHier.Spatz.Timing
import SoftHier.Lib.Binade
import SoftHier.Fp.Half
import SoftHier.Fp.E4m3
import SoftHier.Redmule.Kernels
import SoftHier.Redmule.Report
import SoftHier.Redmule.Utilisation
import SoftHier.Mem.BankStatus
import SoftHier.Lib.Packing
import SoftHier.Preload.Elf
import SoftHier.Redmule.Counters
import SoftHier.Redmule.Visits
import SoftHier.Lib.Concurrent
import SoftHier.Systolic.Model
import SoftHier.Systolic.Plan
import SoftHier.Systolic.Places
import SoftHier.Systolic.Operations
import SoftHier.Systolic.Conflicts
import SoftHier.Systolic.Dataflow
import SoftHier.Systolic.Results
import SoftHier.Barrier.GroupPolling
import SoftHier.Gemm.Allocation
import SoftHier.Gemm.Sweep
import SoftHier.Idma.CollectiveWrites
import SoftHier.Gemm.OneCluster
import SoftHier.Spatz.Matmul
import SoftHier.Sparse.Kernel
import SoftHier.Sparse.Scatter
