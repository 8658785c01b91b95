import Treeos.Interrupt.Handlers
import Treeos.Interrupt.Region
import Treeos.Interrupt.Vectors
import Treeos.Pmm.Frames
import Treeos.Proc.Quantum
import Treeos.Proc.Switch
import Treeos.Pmm.Coverage
import Treeos.Pmm.MemoryMap
import Treeos.Pmm.Placement
import Treeos.Pmm.BootCode
import Treeos.Proc.SwitchFlags
import Treeos.Proc.SystemStack
import Treeos.Proc.PageDir
import Treeos.Console.Tty
import Treeos.Klibc.Vsprintf
import Treeos.Vmm.HeapHistory
import Treeos.Module.Mapped
import Treeos.Module.Names
import Treeos.Vmm.HeapFree
import Treeos.Vmm.HeapLock
import Treeos.Klibc.Stdio
import Treeos.Interrupt.Report
import Treeos.Module.Accesses
import Treeos.Module.BootData
import Treeos.Klibc.Memory
import Treeos.Klibc.Strings
import Treeos.Timer
import Treeos.Console.Colors
import Treeos.Interrupt.Nesting
import Treeos.Util.BitmapAlloc
import Treeos.Elf32
import Treeos.Pmm.BootMachine
import Treeos.Pmm.ArrayStores
import Treeos.Lib.DoublyLinked
import Treeos.Lib.Extents
import Treeos.Klibc.LiballocSearch
import Treeos.Klibc.LiballocGrow
import Treeos.Klibc.LiballocLoop
import Treeos.Klibc.LiballocUnlink
import Treeos.Klibc.LiballocFree
import Treeos.Klibc.LiballocBytes
import Treeos.Klibc.LiballocRuns
import Treeos.Vmm.HeapAccounts
import Treeos.Vmm.KernelObjects
import Treeos.Vmm.KernelCalloc
import Treeos.Vmm.CachedHeap
import Treeos.Vmm.CachedMalloc
