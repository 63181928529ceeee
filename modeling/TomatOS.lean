import TomatOS.Foundation.Dyadic
import TomatOS.Foundation.Transition
import TomatOS.Foundation.CachedTree
import TomatOS.Foundation.Ledger
import TomatOS.Foundation.PageTree
import TomatOS.Foundation.LinkedMemory
import TomatOS.Foundation.StackMachine
import TomatOS.Foundation.Overwrite
import TomatOS.Foundation.Runs
import TomatOS.Foundation.LockProgram
import TomatOS.Foundation.TracedArray
import TomatOS.Foundation.Ring
import TomatOS.Foundation.WeakestPre
import TomatOS.Foundation.Simulation
import TomatOS.Foundation.RedBlack
import TomatOS.Foundation.CriticalSection
import TomatOS.Foundation.MaskedLock
import TomatOS.MemoryLayout
import TomatOS.Phys.Region
import TomatOS.Phys.RegionInvariant
import TomatOS.Phys.RegionOperations
import TomatOS.Phys.AddMemory
import TomatOS.Phys.Allocator
import TomatOS.Phys.AllocatorInvariant
import TomatOS.Phys.Partition
import TomatOS.Phys.Coalescing
import TomatOS.Phys.RequestLevel
import TomatOS.Phys.BootMap
import TomatOS.Phys.BootRegions
import TomatOS.Phys.BootMemory
import TomatOS.Phys.LinkedRegion
import TomatOS.Phys.LinkedRuns
import TomatOS.Phys.Concurrent
import TomatOS.Time.Tsc
import TomatOS.Time.TscCalibration
import TomatOS.Time.LapicTimer
import TomatOS.Time.Timer
import TomatOS.Time.Backend
import TomatOS.Time.Interrupt
import TomatOS.Time.Dispatch
import TomatOS.RbTree.Basic
import TomatOS.RbTree.Stored
import TomatOS.RbTree.Insert
import TomatOS.RbTree.Erase
import TomatOS.RbTree.Walk
import TomatOS.RbTree.Cached
import TomatOS.RbTree.Runs
import TomatOS.Time.TimerTree
import TomatOS.Thread.Pool
import TomatOS.Thread.PoolLimit
import TomatOS.Thread.Scheduler
import TomatOS.Thread.PreemptCount
import TomatOS.Thread.Ownership
import TomatOS.Thread.Reschedule
import TomatOS.Thread.Steps
import TomatOS.Thread.SaveState
import TomatOS.Thread.ContextSwitch
import TomatOS.Thread.FreelistLock
import TomatOS.Thread.IdlePark
import TomatOS.Virt.PageTable
import TomatOS.Virt.Tables
import TomatOS.Virt.Operations
import TomatOS.Virt.Mapping
import TomatOS.Virt.MapRange
import TomatOS.Virt.MemoryMap
import TomatOS.Virt.PageFault
import TomatOS.Virt.Descent
import TomatOS.Virt.FaultPages
import TomatOS.Virt.Chain
import TomatOS.Virt.Shadow
import TomatOS.Virt.AllocRange
import TomatOS.Virt.Remap
import TomatOS.Virt.Termination
import TomatOS.Virt.Permissions
import TomatOS.Virt.DirectMap
import TomatOS.Virt.OpenTables
import TomatOS.Virt.Segments
import TomatOS.Virt.JitWindow
import TomatOS.Virt.IsMapped
import TomatOS.Lib.Memmove
import TomatOS.Lib.IntrusiveList
import TomatOS.Lib.OutputGadget
import TomatOS.Lib.PrintInteger
import TomatOS.Lib.FormatString
import TomatOS.Lib.FormatMeaning
import TomatOS.Lib.ReadBack
import TomatOS.Lib.FormatEnd
import TomatOS.Heap.SizeClass
import TomatOS.Heap.Alloc
import TomatOS.Heap.Blocks
import TomatOS.Heap.Requests
import TomatOS.Heap.Realloc
import TomatOS.Gc.Alloc
import TomatOS.Thread.Pcpu
import TomatOS.Fault.StackFault
import TomatOS.Fault.ReservedPage
import TomatOS.Fault.ExceptionFrame
import TomatOS.Fault.StackTrace
import TomatOS.Fault.GuardZones
import TomatOS.Debug.Symbols
import TomatOS.Debug.Sort
import TomatOS.Debug.Lookup
import TomatOS.Debug.Insert
import TomatOS.Debug.FormatSymbol
import TomatOS.Acpi.Tables
