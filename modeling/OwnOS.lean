import OwnOS.PFAllocator.Model
import OwnOS.Lib.Word
import OwnOS.PFAllocator.Lists
import OwnOS.PFAllocator.Spec
import OwnOS.Lib.Cover
import OwnOS.Lib.Extend
import OwnOS.Lib.Run
import OwnOS.PFAllocator.Conservation
import OwnOS.PFAllocator.FirstFit
import OwnOS.PFAllocator.Sorted
import OwnOS.PFAllocator.Boot
import OwnOS.Kmalloc.Model
import OwnOS.Lib.Tiling
import OwnOS.Kmalloc.Blocks
import OwnOS.Kmalloc.Search
import OwnOS.Kmalloc.Spec
import OwnOS.Kmalloc.Heap
import OwnOS.Lib.Loop
import OwnOS.VarMem.Model
import OwnOS.VarMem.Access
import OwnOS.VarMem.InitPaging
import OwnOS.VarMem.StraightMap
import OwnOS.VarMem.EnableSpace
import OwnOS.VarMem.Layout
import OwnOS.VarMem.Roles
import OwnOS.VarMem.Owned
import OwnOS.VarMem.Isolation
import OwnOS.VarMem.MakeSysProc
import OwnOS.Ipc.Model
import OwnOS.Ipc.Queues
import OwnOS.Ipc.Recv
import OwnOS.Ipc.Schedule
import OwnOS.Ipc.Send
import OwnOS.Ipc.Runs
import OwnOS.Ipc.Delivery
import OwnOS.Ipc.RecvLater
import OwnOS.Ipc.Selective
import OwnOS.Ipc.Rendezvous
import OwnOS.Kmalloc.Roving
import OwnOS.Kmalloc.FindsMemory
import OwnOS.Kmalloc.Coalesce
import OwnOS.Timer.Model
import OwnOS.Timer.Firing
import OwnOS.Lib.Chain
import OwnOS.Que.Model
import OwnOS.Que.Refine
import OwnOS.Sched.Model
import OwnOS.Sched.Queues
import OwnOS.Sched.Calls
import OwnOS.Sched.Timeouts
import OwnOS.Sched.Current
import OwnOS.Sched.Callbacks
import OwnOS.VarMem.ElfLoader
import OwnOS.VarMem.Locality
import OwnOS.VarMem.KernelStays
import OwnOS.VarMem.View
import OwnOS.VarMem.ExactSpace
import OwnOS.VarMem.NewDir
import OwnOS.VarMem.Spaces
import OwnOS.VarMem.ForkCopy
import OwnOS.VarMem.Fork
import OwnOS.VarMem.ForkReturns
import OwnOS.VarMem.StraightFork
import OwnOS.VarMem.AccessRights
import OwnOS.Lib.Bytes
import OwnOS.Lib.Signed
import OwnOS.Disk.Model
import OwnOS.Disk.Blocks
import OwnOS.Disk.FileRead
import OwnOS.Disk.KString
import OwnOS.Disk.Tree
import OwnOS.Disk.Resolve
import OwnOS.Disk.DirScan
import OwnOS.Disk.Fopen
import OwnOS.Disk.Inode
import OwnOS.PFAllocator.RemoveExact
import OwnOS.Disk.BlockMap
import OwnOS.Disk.FileEnd
import OwnOS.Lib.Feedback
import OwnOS.Sched.Fair
import OwnOS.Fork.Clean
import OwnOS.Fork.Fills
import OwnOS.Exec.Call
import OwnOS.VarMem.Space
import OwnOS.Exec.Image
import OwnOS.VarMem.CloneMm
import OwnOS.Que.Capacity
import OwnOS.Sched.Interrupts
import OwnOS.Ipc.UnknownPeer
import OwnOS.Kmalloc.ShortBlock
import OwnOS.Timer.Clock
import OwnOS.Disk.KStringEq
import OwnOS.Lib.Decimal
import OwnOS.Console.Num2str
import OwnOS.Lib.ForInt
import OwnOS.Console.Screen
import OwnOS.Lib.ByteMemory
import OwnOS.Kmalloc.Bytes
import OwnOS.Disk.ReadCalls
import OwnOS.VarMem.MappingPmem
import OwnOS.Lib.MoveAll
import OwnOS.Memory.Memmove
import OwnOS.Ata.Initialize
import OwnOS.Ata.Ext2Blocks
import OwnOS.Context.Runs
import OwnOS.Desc.Tables
