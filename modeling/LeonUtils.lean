import LeonUtils.Transition
import LeonUtils.TicketRing
import LeonUtils.AtomicObject
import LeonUtils.Mask
import LeonUtils.OrderedSet
import LeonUtils.Shm.Layout
import LeonUtils.Shm.Capacity
import LeonUtils.Shm.Machine
import LeonUtils.Shm.Solo
import LeonUtils.Shm.Refine
import LeonUtils.Shm.Tickets
import LeonUtils.Shm.Atomic
import LeonUtils.Shm.Failure
import LeonUtils.Shm.Stall
import LeonUtils.Shm.Sequential
import LeonUtils.Shm.Attach
import LeonUtils.Shm.AttachRace
import LeonUtils.Shm.Attached
import LeonUtils.Shm.Meeting
import LeonUtils.Shm.Ownership
import LeonUtils.Shm.Buffer
import LeonUtils.Shm.Advice
import LeonUtils.Shm.Pages
import LeonUtils.HugePage
import LeonUtils.Shm.Coverage
import LeonUtils.Shm.Observe
import LeonUtils.Craflin.Machine
import LeonUtils.Craflin.Refine
import LeonUtils.Craflin.Atomic
import LeonUtils.Craflin.Stages
import LeonUtils.Craflin.Lifetime
import LeonUtils.Craflin.Failure
import LeonUtils.Craflin.Sequential
import LeonUtils.Craflin.Throwing
import LeonUtils.Craflin.Size
import LeonUtils.RingQue.Machine
import LeonUtils.RingQue.Refine
import LeonUtils.Signals
import LeonUtils.Signals.Crash
import LeonUtils.CallStack
import LeonUtils.CallStack.Jump
import LeonUtils.CallStack.Clear
import LeonUtils.Rdtscp
import LeonUtils.Rdtscp.Reading
import LeonUtils.Samples
import LeonUtils.Statistics
import LeonUtils.Statistics.Prior
import LeonUtils.Statistics.Median
import LeonUtils.Samples.Covariance
import LeonUtils.Statistics.Correlation
import LeonUtils.Samples.Decay
import LeonUtils.Statistics.Tracer
import LeonUtils.Samples.Antivary
import LeonUtils.Statistics.RSquare
import LeonUtils.Sorting
import LeonUtils.Statistics.Spearman
import LeonUtils.TimeDiff
import LeonUtils.TimeDiff.Args
import LeonUtils.Text.Format
import LeonUtils.Text.Padding
import LeonUtils.Text.Number
import LeonUtils.Text.Unicodes
import LeonUtils.Text.Gb
import LeonUtils.Text.Utf8
import LeonUtils.Text.Sheet
import LeonUtils.Text.Width
import LeonUtils.Text.Hiding
import LeonUtils.Text.Batches
import LeonUtils.Text.Rebuild
import LeonUtils.Calendar
import LeonUtils.Chrono.Format
import LeonUtils.Chrono.Parse
import LeonUtils.Chrono.Precision
import LeonUtils.Chrono.Fields
import LeonUtils.Chrono.Fraction
import LeonUtils.Chrono.Timespec
import LeonUtils.Chrono.Duration
import LeonUtils.Chrono.ValidDate
import LeonUtils.Chrono.Midnight
import LeonUtils.Chrono.MakeTime
import LeonUtils.ShowStamp
import LeonUtils.ShowStamp.Main
import LeonUtils.Text.ParseInt
import LeonUtils.SetOps
import LeonUtils.SetOps.Integral
import LeonUtils.SetOps.Algebra
import LeonUtils.Bytes
import LeonUtils.UnionTypes
import LeonUtils.UnionTypes.Short
import LeonUtils.UnionTypes.Order
import LeonUtils.Tolerance
import LeonUtils.Algorithms
import LeonUtils.Algorithms.SafeDiv
import LeonUtils.Algorithms.Integers
import LeonUtils.Semiorder
import LeonUtils.Algorithms.Epsilon
import LeonUtils.CpuAffinity
import LeonUtils.FileTree
import LeonUtils.FileSystem
import LeonUtils.FileTree.Scratch
import LeonUtils.FileSystem.TempDir
import LeonUtils.FileSystem.Programs
import LeonUtils.ProcCtrl
