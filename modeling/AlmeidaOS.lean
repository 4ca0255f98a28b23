import AlmeidaOS.Base.Outcome
import AlmeidaOS.Base.Word
import AlmeidaOS.Base.Blocks
import AlmeidaOS.Base.BlockMoves
import AlmeidaOS.Base.Bytes
import AlmeidaOS.Base.StringOps
import AlmeidaOS.Base.Radix
import AlmeidaOS.Base.Calendar
import AlmeidaOS.Base.LongMode
import AlmeidaOS.Base.Chain
import AlmeidaOS.Base.Trace
import AlmeidaOS.Base.Machine
import AlmeidaOS.Base.Rearrange
import AlmeidaOS.Base.Lcg
import AlmeidaOS.Boot.PageTables
import AlmeidaOS.Kernel.Lib.Math
import AlmeidaOS.Kernel.Lib.Rand
import AlmeidaOS.Kernel.Lib.Memory
import AlmeidaOS.Kernel.Lib.Qsort
import AlmeidaOS.Kernel.Lib.SortItems
import AlmeidaOS.Kernel.Lib.Ringbuffer
import AlmeidaOS.Kernel.Lib.String
import AlmeidaOS.Kernel.Lib.Vsnprintf
import AlmeidaOS.Kernel.Arch.Region
import AlmeidaOS.Kernel.Arch.Mem
import AlmeidaOS.Kernel.Arch.Cmos
import AlmeidaOS.Kernel.Time.Rtc
import AlmeidaOS.Kernel.Mm.Buddy
import AlmeidaOS.Kernel.Mm.BuddyClient
import AlmeidaOS.Kernel.Mm.Pageframe
import AlmeidaOS.Kernel.Mm.Page
import AlmeidaOS.Kernel.Mm.Kmem
import AlmeidaOS.Kernel.Mm.Init
import AlmeidaOS.Kernel.Task.Process
import AlmeidaOS.Libc.Stdlib
import AlmeidaOS.Libc.String
import AlmeidaOS.Libc.Unistd
import AlmeidaOS.Kernel.Task.Scheduler
import AlmeidaOS.Kernel.Video.VgaConsole
import AlmeidaOS.Kernel.Syscall.Entry
import AlmeidaOS.Kernel.Syscall.Write
import AlmeidaOS.Laws.Boot.PageTables
import AlmeidaOS.Laws.Lib.Math
import AlmeidaOS.Laws.Lib.Rand
import AlmeidaOS.Laws.Lib.Qsort
import AlmeidaOS.Laws.Lib.SortItems
import AlmeidaOS.Laws.Lib.Ringbuffer
import AlmeidaOS.Laws.Lib.Memmove
import AlmeidaOS.Laws.Lib.Numerals
import AlmeidaOS.Laws.Lib.Precision
import AlmeidaOS.Laws.Lib.Vsnprintf
import AlmeidaOS.Laws.Lib.FormatGrammar
import AlmeidaOS.Laws.Lib.FormatScan
import AlmeidaOS.Laws.Lib.Printk
import AlmeidaOS.Laws.Arch.Mem
import AlmeidaOS.Laws.Arch.MemInit
import AlmeidaOS.Laws.Arch.MemAlloc
import AlmeidaOS.Laws.Arch.MemAmount
import AlmeidaOS.Laws.Arch.MemStat
import AlmeidaOS.Laws.Arch.MemOrder
import AlmeidaOS.Laws.Arch.ManagedRange
import AlmeidaOS.Laws.Arch.MemShuffle
import AlmeidaOS.Laws.Arch.FirstMb
import AlmeidaOS.Laws.Arch.Cmos
import AlmeidaOS.Laws.Time.Rtc
import AlmeidaOS.Laws.Mm.BuddyLayout
import AlmeidaOS.Laws.Mm.BuddyAlloc
import AlmeidaOS.Laws.Mm.BuddyNavigation
import AlmeidaOS.Laws.Mm.BuddyPreAlloc
import AlmeidaOS.Laws.Mm.BuddyRun
import AlmeidaOS.Laws.Mm.BuddyTotal
import AlmeidaOS.Laws.Mm.Pageframe
import AlmeidaOS.Laws.Mm.PageframeRun
import AlmeidaOS.Laws.Mm.PageTable
import AlmeidaOS.Laws.Mm.AddressConv
import AlmeidaOS.Laws.Mm.PageAlloc
import AlmeidaOS.Laws.Mm.PageBudget
import AlmeidaOS.Laws.Mm.ContiguousMap
import AlmeidaOS.Laws.Mm.PageFree
import AlmeidaOS.Laws.Mm.Kmem
import AlmeidaOS.Laws.Mm.BuddyRequests
import AlmeidaOS.Laws.Mm.PageSupply
import AlmeidaOS.Laws.Mm.LinearMap
import AlmeidaOS.Laws.Mm.Init
import AlmeidaOS.Laws.Task.Scheduler
import AlmeidaOS.Laws.Task.Fairness
import AlmeidaOS.Laws.Task.Process
import AlmeidaOS.Laws.Task.AddressSpace
import AlmeidaOS.Laws.Video.VgaConsole
import AlmeidaOS.Laws.Syscall.Entry
import AlmeidaOS.Laws.Syscall.Write
