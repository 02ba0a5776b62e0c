import OwnOS.Kmalloc.Model
import OwnOS.PFAllocator.Boot
import OwnOS.Sched.Model
import OwnOS.VarMem.Model

/-!
# `fork` and what it draws on (`task.cpp:127-186`)

`fork` takes a slot of the process table, a pid, memory of the heap for the `mm_struct` and its list
of regions, and page frames for the directory, the tables, the pages and the kernel stack. `Kernel`
puts the models of these together: the address space and the kernel stack of the process in slot `i`
of the table are the `i`-th of the machine.

The routines of `VarMem.Machine` ask an oracle for their chunks. Here the oracle is `pFAllocator`
(`answeredBy`): it answers what its `allocChunk` answers to the row of requests that the routine
makes, and `taken` is the allocator after them. When `allocChunk` panics, so does the routine.

The pointers of `fork` to a process may be NULL: the running process, and the one `allocProc`
returned. When one of them is followed the model stops with `Stop.nullProc`; the program goes on
with whatever lies at address 0. Every other way not to return is a `Halt`.
-/

namespace OwnOS

open VarMem

namespace PFAllocator

/-- The answers of `allocChunk` to a row of requests, up to the first that panics. -/
def answers : PFAllocator → List UInt16 → List UInt32
  | _, [] => []
  | a, num :: nums =>
    match a.allocChunk num with
    | .ok (a, addr) => addr :: a.answers nums
    | .error _ => []

/-- A row of requests. -/
def allocChunks : PFAllocator → List UInt16 → Res PFAllocator
  | a, [] => .ok a
  | a, num :: nums => do
    let (a, _) ← a.allocChunk num
    a.allocChunks nums

end PFAllocator

/-- The scheduler, the address spaces, the heap and the page frames. -/
structure Kernel where
  sched : Sched
  vm : Machine
  heap : Kmalloc
  pfa : PFAllocator

namespace Kernel

/-- Requests of one page, as many as there are descriptors. -/
def onePage : List UInt16 := List.replicate PFAllocator.maxNumSeg 1

/-- A machine whose next requests, of `nums` pages in turn, go to `pfa`. After its last answer comes
1, which is not the address of a page, so that `Machine.allocChunk` panics. The answers that were
given are kept. -/
def answeredBy (vm : Machine) (pfa : PFAllocator) (nums : List UInt16) : Machine :=
  { vm with answers := fun use i =>
      if i < vm.handed.length then vm.answers use i
      else (pfa.answers nums).getD (i - vm.handed.length) 1 }

/-- The allocator after the requests that a routine made on its way from `vm` to `vm'`. -/
def taken (pfa : PFAllocator) (nums : List UInt16) (vm vm' : Machine) : Res PFAllocator :=
  pfa.allocChunks (nums.take (vm'.handed.length - vm.handed.length))

/-- The ways `fork` stops. -/
inductive Stop where
  /-- A NULL `Proc *` was used. -/
  | nullProc
  | halt (h : Halt)
  deriving DecidableEq

/-- A routine that does not use a `Proc *`. -/
def lift {α : Type} : Res α → Except Stop α := Except.mapError Stop.halt

/-- `sizeof(mm_struct)`. -/
def sizeofMmStruct : UInt32 := 8

/-- `sizeof(mm_region)`. -/
def sizeofMmRegion : UInt32 := 16

/-- `kmalloc(sizeof(mm_struct))` and `mm_struct::init` (`Process.cpp:12-15`). -/
def newMm (heap : Kmalloc) : Res Kmalloc := do
  let (heap, _) ← heap.kmalloc sizeofMmStruct
  let (heap, _) ← heap.kmalloc sizeofMmRegion
  .ok heap

/-- One region of `clone_mm`: `add_region`, then its pages. -/
def addRegion (cr3 : UInt32) (s : Machine × Kmalloc) (p : Region) : Res (Machine × Kmalloc) := do
  let (heap, _) ← s.2.kmalloc sizeofMmRegion
  let vm ← s.1.cloneRegion p cr3
  .ok (vm, heap)

/-- `clone_mm` (`task.cpp:127-150`), with the new directory. -/
def cloneMm (vm : Machine) (heap : Kmalloc) (srcMm : List Region) :
    Res ((Machine × Kmalloc) × UInt32) := do
  let (vm, pdir) ← vm.allocChunk .pageDir 1
  let vm ← vm.copyKernelDir pdir
  let s ← srcMm.foldlM (addRegion pdir) (vm, heap)
  .ok (s, pdir)

/-- The memory part of `copy_process` (`task.cpp:154-156`). -/
def copyProcess (vm : Machine) (heap : Kmalloc) (src : Proc) : Res ((Machine × Kmalloc) × UInt32) :=
  do
  let heap ← newMm heap
  cloneMm vm heap src.regions

/-- `setup_stack` (`task.cpp:158-170`), with the new `stack_top`. -/
def setupStack (vm : Machine) (current : Proc) : Res (Machine × UInt32) := do
  let (vm, stack) ← vm.allocChunk .kernelStack 1
  let stackTop := stack + 0x1000 - 4
  let vm ← vm.memcpy (stackTop - 4 * 17) (current.stackTop - 4 * 17) Machine.frameWords
  .ok (vm, stackTop)

/-- `fork` (`task.cpp:172-186`): the pid it returns. -/
def fork (k : Kernel) : Except Stop (Int × Kernel) :=
  let (sched, clone) := k.sched.allocProc
  let pid := sched.pidGen
  let sched := { sched with pidGen := pid + 1 }
  -- `clone->id=..` uses the one, `dest->prior=src->prior` the other
  match clone, sched.pCurrent with
  | some clone, some current => do
    let src ← lift (Que.follow k.vm.procs[current.val]?)
    let ((vm, heap), cr3) ← lift (copyProcess (answeredBy k.vm k.pfa onePage) k.heap src)
    let (vm, stackTop) ← lift (setupStack vm src)
    let pfa ← lift (taken k.pfa onePage k.vm vm)
    let vm := { vm with procs := vm.procs ++ [⟨cr3, src.regions, stackTop⟩] }
    let x : Sched.Proc := ⟨pid, (sched.room current).prior, .stopped, .retFromFork⟩
    let sched ← lift ((sched.setProc clone x).wakeup x.id)
    .ok (pid, ⟨sched, vm, heap, pfa⟩)
  | _, _ => .error .nullProc

/-- The heap part of `makeSysProc` (`Process.cpp:155-156`, and an `add_region` for each stack). -/
def makeSysProcHeap (heap : Kmalloc) : Res Kmalloc := do
  let heap ← newMm heap
  Machine.stackRegions.foldlM (fun heap _ => do
    let (heap, _) ← heap.kmalloc sizeofMmRegion
    .ok heap) heap

/-- `makeSysProc` (`Process.cpp:150-174`); its slot of the table is taken in `Sched.initTasks`. -/
def makeSysProc (k : Kernel) : Res Kernel := do
  let vm ← (answeredBy k.vm k.pfa onePage).makeSysProc
  let pfa ← taken k.pfa onePage k.vm vm
  let heap ← makeSysProcHeap k.heap
  .ok { k with vm, heap, pfa }

/-- `init_tasks` (`task.cpp:10-30`), up to the switch to user mode. -/
def initTasks (k : Kernel) : Res Kernel := do
  let k ← k.makeSysProc
  let k ← k.makeSysProc
  let sched ← k.sched.initTasks
  let vm ← k.vm.run 0
  .ok { k with sched, vm }

/-- The chunks `initPaging` asks for on a machine with `memSize` bytes (`VarMem.cpp:34-39`,
`:209`). -/
def pagingChunks (memSize : UInt32) : List UInt16 :=
  1 :: 1 :: (memSize / dirEntrySize).toUInt16 :: onePage

/-- `kinit` (`kinit.cpp:17-47`) up to the first process, from a memory that holds `phys`, `segs` in
the descriptors and `mem` where the heap will be; `irqQue` is the queue of deferred routines. `tss`,
`idt` and `gdt` take a chunk each (`Tss.cpp:16`, `Descriptor.cpp:45`, `:96`). -/
def kinit (segs : PFAllocator.SegPtr → PFAllocator.Seg) (phys : ℕ → Page) (mem : UInt32 → UInt32)
    (irqQue : Que Sched.Entry 64) (info : PFAllocator.MultibootInfo) (magic : UInt32) :
    Res Kernel := do
  let g ← PFAllocator.mbiRead ⟨PFAllocator.init segs, 0⟩ info magic
  let pfa ← g.pfa.allocChunks [1, 10, 10]
  let vm₀ : Machine := ⟨phys, none, fun _ _ => 1, [], g.memSize, 0, [], none⟩
  let vm ← (answeredBy vm₀ pfa (pagingChunks g.memSize)).initPaging
  let pfa ← taken pfa (pagingChunks g.memSize) vm₀ vm
  let (pfa, heap) ← Kmalloc.initKmalloc pfa mem
  let (heap, _) ← heap.kmalloc 4
  initTasks ⟨Sched.boot irqQue, vm, heap, pfa⟩

end Kernel

end OwnOS
