import Cynix.Base.Bytes
import Cynix.Base.Pages
import Cynix.Base.Cells
import Cynix.Base.Linked
import Cynix.Base.Stack
import Cynix.Base.Radix
import Cynix.Base.Lexicographic
import Cynix.Base.Locking
import Cynix.Base.Holdings
import Cynix.Base.Sections
import Cynix.Base.Shares
import Cynix.Base.Progress
import Cynix.Base.Guarded
import Cynix.Base.Finishing
import Cynix.Base.Trace
import Cynix.Lib.Misc
import Cynix.Lib.StdMemory
import Cynix.Lib.StdRoutines
import Cynix.Lib.Spinlock
import Cynix.Lib.SpinlockRuns
import Cynix.Lib.Console
import Cynix.Lib.Alloc
import Cynix.Lib.AllocRuns
import Cynix.Lib.StackContainer
import Cynix.Lib.AllocSizes
import Cynix.Lib.StackRuns
import Cynix.Lib.Vector
import Cynix.Lib.VectorRuns
import Cynix.Lib.VectorFamily
import Cynix.Mm.Pmm
import Cynix.Mm.PmmRuns
import Cynix.Mm.PmmBitmap
import Cynix.Mm.PmmSearch
import Cynix.Mm.PmmSection
import Cynix.Mm.PmmSmp
import Cynix.Lib.HeapSmp
import Cynix.Mm.SlabLayout
import Cynix.Mm.Slab
import Cynix.Mm.SlabRep
import Cynix.Mm.SlabRuns
import Cynix.Mm.SlabSizes
import Cynix.Mm.SlabRealloc
import Cynix.Mm.SlabLock
import Cynix.Mm.SlabLockInv
import Cynix.Mm.SlabLockStep
import Cynix.Mm.SlabLockRefill
import Cynix.Mm.SlabLockRuns
import Cynix.Mm.SlabLockData
import Cynix.Mm.Vmm
import Cynix.Mm.VmmTables
import Cynix.Mm.VmmRuns
import Cynix.Mm.VmmInit
import Cynix.Mm.KernelSpace
import Cynix.Mm.SharedHalf
import Cynix.Mm.Access
import Cynix.Mm.MapSpan
import Cynix.Mm.VmmSmp
import Cynix.Acpi.Tables
import Cynix.Acpi.Lookup
import Cynix.Acpi.FindSdt
import Cynix.Acpi.Walkers
import Cynix.Acpi.MadtDecode
import Cynix.Sys.RegisterPair
import Cynix.Sys.Gdt
import Cynix.Sys.Isr
import Cynix.Sys.Idt
import Cynix.Sys.BringUp
import Cynix.Sys.Devices
import Cynix.Sys.Boot
import Cynix.Sys.Clock
import Cynix.Sys.LapicTimer
import Cynix.Sys.DeviceAccess
import Cynix.Sys.LapicAccess
import Cynix.Sys.PanicIpis
import Cynix.Devices.Term
import Cynix.Devices.TermRuns
