import NoxDB.Config
import NoxDB.File
import NoxDB.IoDirect
import NoxDB.ScrapPage
import NoxDB.ScrapPage.Merge
import NoxDB.ScrapPage.Holes
import NoxDB.ScrapPage.Reads
import NoxDB.ScrapPage.HoleFill
import NoxDB.Engine.State
import NoxDB.Engine.Foreground
import NoxDB.Engine.Background
import NoxDB.Engine.Step
import NoxDB.Engine.Moves
import NoxDB.Engine.Roles
import NoxDB.Engine.Custody
import NoxDB.Engine.Ownership
import NoxDB.Engine.Load
import NoxDB.Engine.Decision
import NoxDB.Engine.Ready
import NoxDB.Engine.Refinement
import NoxDB.Engine.Counters
import NoxDB.Engine.Closing
import NoxDB.Engine.Sound
import NoxDB.Engine.Membership
import NoxDB.Engine.Contents
import NoxDB.Engine.Eviction
import NoxDB.Engine.Assembly
import NoxDB.Engine.Requests
import NoxDB.Engine.Order
import NoxDB.Engine.Schedule
import NoxDB.Engine.Stranded
import NoxDB.Engine.Device
import NoxDB.Engine.Generations
import NoxDB.Engine.Drain
import NoxDB.Engine.Backpressure
import NoxDB.Engine.Orphans
import NoxDB.Watermark
import NoxDB.Engine.Admission
import NoxDB.Process
import NoxDB.Engine.Threads
import NoxDB.Engine.Mutexes
import NoxDB.Engine.Progress
import NoxDB.Engine.Sweep
import NoxDB.Engine.Bytes
import NoxDB.Engine.Coherence
import NoxDB.Engine.Concurrent
import NoxDB.Engine.GuardWait
import NoxDB.Engine.LastWriter
import NoxDB.Engine.Integrity
import NoxDB.Engine.Reuse
import NoxDB.Engine.SingleThread
import NoxDB.Engine.Router
import NoxDB.ScrapPage.Layout
import NoxDB.ScrapPage.Bounds
import NoxDB.ScrapPage.Overflow
import NoxDB.ScrapPage.History
import NoxDB.ScrapPage.MergeOrder
import NoxDB.ScrapPage.ReadOnce
import NoxDB.ScrapPage.SplitFill
import NoxDB.IoDirect.Gather
import NoxDB.Engine.Batch
import NoxDB.Engine.Split
import NoxDB.Engine.InFlight
import NoxDB.Engine.Flusher
import NoxDB.Engine.Service
import NoxDB.Engine.Retry
import NoxDB.ScrapPage.Complement
import NoxDB.Engine.Statistics
import NoxDB.Engine.Exhaustion
import NoxDB.PageIndex
import NoxDB.Engine.Index
import NoxDB.Queue
import NoxDB.Queue.Fifo
import NoxDB.Queue.Wakeup
import NoxDB.Library.Potentials
import NoxDB.Engine.Budget
import NoxDB.Engine.Termination
import NoxDB.Engine.Provenance
import NoxDB.Engine.Report
import NoxDB.Engine.Traffic
import NoxDB.Engine.MemorySafety
import NoxDB.Engine.Lifecycle
import NoxDB.Engine.Starvation
import NoxDB.Engine.Store
import NoxDB.Library.Resources
import NoxDB.OpenClose
import NoxDB.Engine.Conservation
import NoxDB.Queue.Calls
import NoxDB.Engine.QueueMemory
import NoxDB.Library.Hashing
import NoxDB.Engine.Collisions
import NoxDB.Engine.Notice
import NoxDB.PageIndex.Linear
