import Bethany.Library.Machine
import Bethany.Library.Walk
import Bethany.Library.LinkedList
import Bethany.Library.OrderedTree
import Bethany.Library.Paging
import Bethany.String
import Bethany.Memory.Pmm
import Bethany.Memory.PmmSafety
import Bethany.Memory.PmmAccounting
import Bethany.Memory.Vmm
import Bethany.Memory.Translate
import Bethany.Memory.PageMap
import Bethany.Memory.Region
import Bethany.Memory.Heap
import Bethany.Storage.FakeDisk
import Bethany.Storage.Nvme
import Bethany.Storage.NvmeAccounting
import Bethany.Scheduler.Model
import Bethany.Scheduler.RunList
import Bethany.Sync.Model
import Bethany.Sync.WaitLists
import Bethany.Sync.Calls
import Bethany.Sync.Runs
import Bethany.Sync.MutualExclusion
import Bethany.Sync.Conservation
import Bethany.Scheduler.LifeCycle
import Bethany.Scheduler.Sleep
import Bethany.Filesystem.Ramfs
import Bethany.Filesystem.RamfsLinks
import Bethany.Filesystem.RamfsTree
import Bethany.Boot
import Bethany.Memory.AllocPage
import Bethany.Storage.NvmeDma
import Bethany.Library.Stack
import Bethany.Scheduler.Context
import Bethany.Library.Runs
import Bethany.Scheduler.InterruptFlag
import Bethany.Sync.Preemption
import Bethany.Library.Ring
import Bethany.Sync.Queue
import Bethany.Sync.QueueFifo
import Bethany.Memory.HeapBlocks
import Bethany.Memory.HeapSizes
import Bethany.Memory.BitmapStorage
import Bethany.Memory.FrameOwnership
import Bethany.Library.Fuel
import Bethany.Filesystem.RamfsDelete
import Bethany.Filesystem.RamfsWrite
import Bethany.Filesystem.RamfsNames
import Bethany.Filesystem.FsTree
import Bethany.Library.Unfolding
import Bethany.Filesystem.RamfsCopy
import Bethany.Filesystem.RamfsCopyWhole
import Bethany.Filesystem.RamfsCopyEnds
import Bethany.Memory.BitmapKept
import Bethany.Storage.NvmePages
import Bethany.Memory.IsMapped
import Bethany.Memory.MapRange
import Bethany.Memory.MapWindow
import Bethany.Memory.PageRights
import Bethany.Filesystem.RamfsRead
import Bethany.Filesystem.RamfsMove
import Bethany.Filesystem.RamfsTypes
import Bethany.Filesystem.RamfsNameless
import Bethany.Scheduler.RoundRobin
import Bethany.Interruptions.Pic
import Bethany.Library.SignedWord
import Bethany.Video.Terminal
import Bethany.Drivers.Keyboard
import Bethany.Drivers.Modifiers
import Bethany.Storage.NvmeLimits
import Bethany.Memory.Krealloc
import Bethany.Sync.QueueSize
import Bethany.Sync.WakeUps
import Bethany.Library.Numeral
import Bethany.Print
import Bethany.Drivers.Pci
import Bethany.Library.BoundedTable
import Bethany.Drivers.PciScan
import Bethany.Library.RegisterBits
import Bethany.Drivers.PciWrite
import Bethany.Library.Outline
import Bethany.Filesystem.RamfsDump
import Bethany.Interruptions.Idt
import Bethany.Interruptions.Stubs
import Bethany.Library.Pic8259
import Bethany.Interruptions.Irq
import Bethany.Library.TextGrid
import Bethany.Video.Picture
import Bethany.Drivers.Typing
import Bethany.Library.KeyedTree
import Bethany.Filesystem.Volume
import Bethany.Filesystem.RamfsRefines
import Bethany.Drivers.PciBar
import Bethany.Storage.NvmeSetup
import Bethany.Storage.NvmeHandshake
import Bethany.Library.BlockStore
import Bethany.Memory.HeapMemory
import Bethany.Memory.HeapStore
import Bethany.Library.KeyedStacks
import Bethany.Sync.Kernel
