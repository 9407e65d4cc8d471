import DoubleTake.Theorems.Detection
import DoubleTake.Theorems.Rollback
import DoubleTake.Theorems.QuarantineRuns
import DoubleTake.Syscalls
import DoubleTake.Theorems.Syscalls
import DoubleTake.Theorems.Threads
import DoubleTake.Sync
import DoubleTake.Theorems.Turns
import DoubleTake.Theorems.Replay
import DoubleTake.Theorems.Recording
import DoubleTake.Theorems.Failures
import DoubleTake.Theorems.AlignedFree
import DoubleTake.Theorems.Barrier
import DoubleTake.Theorems.Waiters
import DoubleTake.Theorems.Quiescence
import DoubleTake.Theorems.Files
import DoubleTake.Theorems.Deferred
import DoubleTake.Theorems.ThreadInfo
import DoubleTake.Theorems.HashMap
import DoubleTake.Theorems.Releases
import DoubleTake.Theorems.BarrierRollback
import DoubleTake.Theorems.DoubleFree
import DoubleTake.Theorems.Library
import DoubleTake.Theorems.LeakCheck
import DoubleTake.Theorems.Restored
import DoubleTake.Theorems.Traversal
import DoubleTake.LeakCheck
import DoubleTake.Lib.Worklist
import DoubleTake.Watchpoints
import DoubleTake.Theorems.Watchpoints
import DoubleTake.Theorems.QuarantineChecks
import DoubleTake.Theorems.QuarantineRing
import DoubleTake.Theorems.SyncVars
import DoubleTake.Lib.Rotation
import DoubleTake.Theorems.SyncEntries
import DoubleTake.Memalign
import DoubleTake.Theorems.Marks
import DoubleTake.Theorems.Memalign
import DoubleTake.Fops
import DoubleTake.Theorems.Fops
import DoubleTake.Theorems.OwnCloses
import DoubleTake.Reads
import DoubleTake.Theorems.Reads
import DoubleTake.Theorems.Sizes
import DoubleTake.Theorems.Early
import DoubleTake.Theorems.Iterator
import DoubleTake.CallSite
import DoubleTake.Theorems.CallSite
import DoubleTake.SourceInternalHeap
import DoubleTake.Theorems.SourceInternalHeap
import DoubleTake.BitmapObject
import DoubleTake.Theorems.BitmapObject
import DoubleTake.ListOps
import DoubleTake.Theorems.ListOps
import DoubleTake.Lib.Protection
import DoubleTake.XContext
import DoubleTake.Theorems.XContext
import DoubleTake.Lib.IStream
import DoubleTake.SelfMap
import DoubleTake.Theorems.SelfMap
import DoubleTake.Lib.Linearizable
import DoubleTake.HashMapThreads
import DoubleTake.Theorems.HashMapThreads
import DoubleTake.Lib.Triangular
import DoubleTake.HashFuncs
import DoubleTake.MemTrack
import DoubleTake.Theorems.MemTrack
import DoubleTake.Theorems.Traps
import DoubleTake.Lifecycle
import DoubleTake.Theorems.Lifecycle
import DoubleTake.Globals
import DoubleTake.Theorems.Globals
import DoubleTake.InternalHeap
import DoubleTake.Lib.Extents
import DoubleTake.Lib.LinkedList
import DoubleTake.Theorems.InternalHeap
