import DeiChain.Acceptance
import DeiChain.Aging
import DeiChain.AgingRate
import DeiChain.Atomicity
import DeiChain.Audit
import DeiChain.BlockIds
import DeiChain.BlockText
import DeiChain.Calls
import DeiChain.Capacity
import DeiChain.Chain
import DeiChain.ConfigFile
import DeiChain.Controller
import DeiChain.Data
import DeiChain.Difficulty
import DeiChain.Duplicates
import DeiChain.ExactlyOnce
import DeiChain.FineCode
import DeiChain.FineRules
import DeiChain.FineSystem
import DeiChain.Flags
import DeiChain.FrameBounds
import DeiChain.FrameReader
import DeiChain.Gatekeeper
import DeiChain.HoldTimes
import DeiChain.Insertion
import DeiChain.Isolation
import DeiChain.Ledger
import DeiChain.LedgerDump
import DeiChain.LedgerSections
import DeiChain.Library.AppendLog
import DeiChain.Library.Blocks
import DeiChain.Library.Buffer
import DeiChain.Library.Counting
import DeiChain.Library.Critical
import DeiChain.Library.Custody
import DeiChain.Library.FrameDelivery
import DeiChain.Library.FrameView
import DeiChain.Library.Framing
import DeiChain.Library.HashChain
import DeiChain.Library.Heap
import DeiChain.Library.History
import DeiChain.Library.Layout
import DeiChain.Library.LineBuffer
import DeiChain.Library.Loss
import DeiChain.Library.Mean
import DeiChain.Library.Memory
import DeiChain.Library.Numeral
import DeiChain.Library.Places
import DeiChain.Library.Potential
import DeiChain.Library.Scan
import DeiChain.Library.SignalLoop
import DeiChain.Library.StreamReader
import DeiChain.Library.Transition
import DeiChain.Library.Turns
import DeiChain.Library.Writes
import DeiChain.Location
import DeiChain.Logger
import DeiChain.Losses
import DeiChain.MainLoops
import DeiChain.Miner
import DeiChain.MinerHeap
import DeiChain.MinerShutdown
import DeiChain.Mining
import DeiChain.Moves
import DeiChain.Occupancy
import DeiChain.Offsets
import DeiChain.Pipe
import DeiChain.Pool
import DeiChain.PoolSections
import DeiChain.Pow
import DeiChain.Progress
import DeiChain.Provenance
import DeiChain.ReadFully
import DeiChain.Refinement
import DeiChain.Rejection
import DeiChain.Removal
import DeiChain.ReportHeap
import DeiChain.Restore
import DeiChain.Resurrection
import DeiChain.Scaling
import DeiChain.ScalingLaws
import DeiChain.Segment
import DeiChain.Selection
import DeiChain.SendOutcome
import DeiChain.Serialization
import DeiChain.Shutdown
import DeiChain.Standstill
import DeiChain.Statistics
import DeiChain.StatisticsFold
import DeiChain.StatisticsReport
import DeiChain.System
import DeiChain.Tamper
import DeiChain.TransactionIds
import DeiChain.TxGen
import DeiChain.Unaltered
import DeiChain.UnlockedDump
import DeiChain.Validator
import DeiChain.ValidatorHeap
import DeiChain.Verdict
import DeiChain.Wakeup
