import OwnOS.Halt
import OwnOS.Lib.Loop

/-!
# Paging (`VarMem.h`, `VarMem.cpp`) and the address spaces of processes

The machine is the physical memory, the paging unit and the kernel's records of its processes. A
page frame holds 1024 words. Until `paging_on_asm` a pointer is a physical address; from then on
every access of the kernel goes through the directory in `cr3`, as `Machine.addr` says: an address
without a present directory and table entry faults.

`allocChunk` is any allocator that panics or answers with page-aligned chunks it never handed out
before: it asks an oracle, `handed` records each answer with the use the caller puts the frames to,
and an answer that is not new counts as the panic. The process table, `mm_struct` and `mm_region`
are records of the model, not words of the memory.

* `enableSpace`, `mappingPmem`, `vir2phy`, `initPaging`, `copyKernelDir`: `VarMem.cpp`.
* `makeSysProc` (`Process.cpp:150-174`), `fork` with `clone_mm` and `setup_stack`
  (`task.cpp:127-186`), and the `enableSpace` call of `exec` (`elf_loader.cpp:85-87`).
-/

namespace OwnOS.VarMem

open Lib

/-- The words of a page frame. -/
abbrev Page := Fin 1024 → UInt32

instance neZero_words : NeZero 1024 := ⟨by decide⟩

/-- What a caller of `allocChunk` uses the frames for. -/
inductive Use where
  | pageDir
  | pageTable
  | kernelTable
  | vramTable
  | kernelStack
  /-- A page that `clone_mm` copies into. -/
  | copied
  | data
  | other
  deriving DecidableEq

/-- An answer of `allocChunk`. -/
structure Grant where
  use : Use
  addr : UInt32
  num : Nat
  deriving DecidableEq

/-- The chunks share no frame. -/
def Grant.Apart (g g' : Grant) : Prop :=
  g.addr.toNat / 4096 + g.num ≤ g'.addr.toNat / 4096 ∨
    g'.addr.toNat / 4096 + g'.num ≤ g.addr.toNat / 4096

instance (g g' : Grant) : Decidable (g.Apart g') := inferInstanceAs (Decidable (_ ∨ _))

/-- A chunk that may be handed out: page-aligned, below 4 GiB, and apart from all others. -/
def Grant.New (g : Grant) (handed : List Grant) : Prop :=
  g.addr.toNat % 4096 = 0 ∧ g.addr.toNat + g.num * 4096 ≤ 4294967296 ∧ ∀ g' ∈ handed, g.Apart g'

instance (g : Grant) (handed : List Grant) : Decidable (g.New handed) :=
  inferInstanceAs (Decidable (_ ∧ _ ∧ _))

/-- `mm_region`. -/
structure Region where
  begin : UInt32
  size : UInt32
  flags : UInt32
  deriving DecidableEq

/-- A process: `mm->cr3`, the list of `mm_region`, and `kernel_info.stack_top`. -/
structure Proc where
  cr3 : UInt32
  regions : List Region
  stackTop : UInt32
  deriving DecidableEq

/-- The machine. -/
structure Machine where
  phys : Nat → Page
  cr3 : Option UInt32
  answers : Use → Nat → UInt32
  handed : List Grant
  memSize : UInt32
  kPdir : UInt32
  procs : List Proc
  pCurrent : Option Nat

/-- The frame of a physical address. -/
def frameOf (a : UInt32) : Nat := a.toNat / 4096

/-- The word of its frame a physical address names. -/
def indexOf (a : UInt32) : Fin 1024 := ⟨a.toNat % 4096 / 4, by omega⟩

/-- The directory slot of a virtual address. -/
def dirIndex (v : UInt32) : Fin 1024 :=
  ⟨v.toNat / 0x400000, by have : v.toNat < 4294967296 := v.toNat_lt_size; omega⟩

/-- The table slot of a virtual address. -/
def tableIndex (v : UInt32) : Fin 1024 := ⟨v.toNat % 0x400000 / 0x1000, by omega⟩

/-- `isEntryExist`: bit 0. -/
def isEntryExist (entry : UInt32) : Bool := entry &&& 0x01 = 0x01

/-- The U/S bit. -/
def isUser (entry : UInt32) : Bool := entry &&& 0x04 = 0x04

/-- `caddrEntry`. -/
def caddrEntry (entry : UInt32) : UInt32 := entry &&& ~~~0xfff

/-- `systempage`. -/
def systempage : UInt32 := 0x013

/-- `userpage`. -/
def userpage : UInt32 := 0x017

/-- `dir_entrySize`. -/
def dirEntrySize : UInt32 := 0x400000

/-- `v2ptable` is never set: the global is 0. -/
def v2ptable : UInt32 := 0

/-- The address of entry `i` of the table at `a`. -/
def entryAddr (a : UInt32) (i : Nat) : UInt32 := a + 4 * UInt32.ofNat i

namespace Machine

/-- The physical address behind the virtual address `v` under the directory `c`. -/
def translate (m : Machine) (c v : UInt32) : Option UInt32 :=
  let entryD := m.phys (frameOf c) (dirIndex v)
  if isEntryExist entryD then
    let entryT := m.phys (frameOf entryD) (tableIndex v)
    if isEntryExist entryT then some (caddrEntry entryT + (v &&& 0xfff)) else none
  else none

/-- The physical address an access of the kernel at `v` goes to. -/
def addr (m : Machine) (v : UInt32) : Res UInt32 :=
  match m.cr3 with
  | none => .ok v
  | some c =>
    match m.translate c v with
    | some p => .ok p
    | none => .error .fault

/-- A word of the physical memory. -/
def peek (m : Machine) (p : UInt32) : UInt32 := m.phys (frameOf p) (indexOf p)

/-- Change one word of a frame. -/
def setWord (m : Machine) (f : Nat) (i : Fin 1024) (w : UInt32) : Machine :=
  { m with phys := Function.update m.phys f (Function.update (m.phys f) i w) }

/-- Change a whole frame. -/
def setPage (m : Machine) (f : Nat) (p : Page) : Machine :=
  { m with phys := Function.update m.phys f p }

/-- Read the word at a pointer. -/
def load (m : Machine) (v : UInt32) : Res UInt32 := do
  let p ← m.addr v
  .ok (m.peek p)

/-- Write the word at a pointer. -/
def store (m : Machine) (v w : UInt32) : Res Machine := do
  let p ← m.addr v
  .ok (m.setWord (frameOf p) (indexOf p) w)

/-- `pFAllocator.allocChunk(num)`. -/
def allocChunk (m : Machine) (use : Use) (num : Nat) : Res (Machine × UInt32) :=
  let r := m.answers use m.handed.length
  if Grant.New ⟨use, r, num⟩ m.handed then
    .ok ({ m with handed := ⟨use, r, num⟩ :: m.handed }, r)
  else .error (.panic "PFAallocator::cannot allocate segment")

/-- `disableAllEntry`. -/
def disableAllEntry (m : Machine) (table : UInt32) : Res Machine :=
  loop (fun i m => do
    let w ← m.load (entryAddr table i)
    m.store (entryAddr table i) (w &&& 0x00)) 1024 m

/-- `editEntry`. -/
def editEntry (m : Machine) (entry pointer type : UInt32) : Res Machine := do
  let m ← m.store entry (pointer &&& 0xfffff000)
  let w ← m.load entry
  m.store entry (w ||| (type &&& 0x00000fff))

/-- The table the directory entry at `entryD` points at, which is made if there is none
(`VarMem.cpp:143-150`, `:209-216`). -/
def tableOf (m : Machine) (entryD type : UInt32) (use : Use) : Res (Machine × UInt32) := do
  let e ← m.load entryD
  if !isEntryExist e then do
    let (m, table) ← m.allocChunk use 1
    let m ← m.editEntry entryD table type
    let m ← m.disableAllEntry table
    .ok (m, table)
  else do
    let e ← m.load entryD
    .ok (m, caddrEntry e)

/-- The body of the loop of `enableSpace` (`VarMem.cpp:140-157`) for the page at `where_`. -/
def enablePage (m : Machine) (where_ pdir type : UInt32) (use : Use) : Res Machine := do
  let (m, table) ← m.tableOf (entryAddr pdir (dirIndex where_)) type .pageTable
  let entryT := entryAddr table (tableIndex where_)
  let e ← m.load entryT
  if !isEntryExist e then do
    let (m, s4k) ← m.allocChunk use 1
    m.editEntry entryT s4k type
  else .ok m

/-- `FLOOR(x,0x1000)`. -/
def floor4k (x : UInt32) : UInt32 := x &&& ~~~(0x1000 - 1)

/-- `CEIL(x,0x1000)`. -/
def ceil4k (x : UInt32) : UInt32 := (x + 0x1000 - 1) &&& ~~~(0x1000 - 1)

/-- `enableSpace` (`VarMem.cpp:126-161`). -/
def enableSpace (m : Machine) (virAddr size pdir type : UInt32) (use : Use) : Res Machine :=
  let begin := floor4k virAddr
  let end_ := ceil4k (virAddr + size)
  let pageNum := (end_ - begin) / 0x1000
  loop (fun i m => m.enablePage (begin + UInt32.ofNat i * 0x1000) pdir type use) pageNum.toNat m

/-- `vir2phy` (`VarMem.cpp:165-190`). A NULL `pdir` stands for the directory of `pCurrent`; NULL is
the answer for an address that is not mapped. -/
def vir2phy (m : Machine) (virAddr pdir : UInt32) : Res UInt32 := do
  let pdir ←
    if pdir = 0 then
      match m.pCurrent.bind fun i => m.procs[i]? with
      | some p => .ok p.cr3
      | none => .error .fault
    else .ok pdir
  let entryD ← m.load (entryAddr pdir (dirIndex virAddr))
  if !isEntryExist entryD then .ok 0
  else do
    let entryT ← m.load (entryAddr (caddrEntry entryD) (tableIndex virAddr))
    if !isEntryExist entryT then .ok 0
    else .ok (caddrEntry entryT + (virAddr &&& 0xfff))

/-- The body of the loop of `mapping_pmem` (`VarMem.cpp:206-223`): page `i` of the range. -/
def mapPmemPage (phyAddr virAddr pdir type : UInt32) (i : Nat) (m : Machine) : Res Machine := do
  let where_ := virAddr + UInt32.ofNat i * 0x1000
  let (m, table) ← m.tableOf (entryAddr pdir (dirIndex where_)) type .vramTable
  let entryT := entryAddr table (tableIndex where_)
  let e ← m.load entryT
  if !isEntryExist e then m.editEntry entryT (phyAddr + UInt32.ofNat i * 0x1000) type
  else .ok m

/-- `mapping_pmem` (`VarMem.cpp:194-229`). -/
def mappingPmem (m : Machine) (phyAddr virAddr size pdir type : UInt32) : Res Machine :=
  loop (mapPmemPage phyAddr virAddr pdir type) (ceil4k size / 0x1000).toNat m

/-- `mem_size/dir_entrySize`: the number of 4 MiB units that are mapped straight. -/
def nrValidPages (m : Machine) : Nat := (m.memSize / dirEntrySize).toNat

/-- `paging_on_asm` (`asmfunc.cpp:43-51`). The next instruction is fetched through the new
directory; the kernel is linked at 1 MiB (`linker.ld`). -/
def pagingOn (m : Machine) (pagedir : UInt32) : Res Machine := do
  let m := { m with cr3 := some pagedir }
  let _ ← m.addr 0x00100000
  .ok m

/-- The inner loop of `initPaging` (`VarMem.cpp:54-56`): the entries of table `i`. -/
def fillTable (kPtables : UInt32) (i : Nat) (m : Machine) : Res Machine :=
  loop (fun j m => do
    let t ← m.load (entryAddr kPtables i)
    m.editEntry (entryAddr t j) (UInt32.ofNat j * 0x1000) systempage) 1024 m

/-- The body of the loop of `initPaging` over the tables (`VarMem.cpp:51-57`). -/
def mapTable (kPtables kPdir : UInt32) (i : Nat) (m : Machine) : Res Machine := do
  let t ← m.load (entryAddr kPtables i)
  let m ← m.disableAllEntry t
  let t ← m.load (entryAddr kPtables i)
  let m ← m.editEntry (entryAddr kPdir i) t systempage
  fillTable kPtables i m

/-- What `initPaging` does with its chunks (`VarMem.cpp:43-62`). -/
def buildMap (m : Machine) (kPtables bigFrame : UInt32) : Res Machine := do
  let kPdir := m.kPdir
  let nr := m.nrValidPages
  let m ← loop (fun i m =>
    m.store (entryAddr kPtables i) (bigFrame + 0x1000 * UInt32.ofNat i)) nr m
  let m ← m.disableAllEntry kPdir
  let m ← loop (mapTable kPtables kPdir) nr m
  let m ← m.mappingPmem 0xe0000000 0xe0000000 0x200000 kPdir systempage
  let m ← m.editEntry (entryAddr kPdir 0x3ff) v2ptable systempage
  m.pagingOn kPdir

/-- `initPaging` (`VarMem.cpp:32-63`). -/
def initPaging (m : Machine) : Res Machine := do
  let (m, kPdir) ← m.allocChunk .pageDir 1
  let m := { m with kPdir }
  let (m, kPtables) ← m.allocChunk .other 1
  let (m, bigFrame) ← m.allocChunk .kernelTable m.nrValidPages
  m.buildMap kPtables bigFrame

/-- `copyKernelDir` (`VarMem.cpp:64-80`). -/
def copyKernelDir (m : Machine) (pdir : UInt32) : Res Machine := do
  let m ← m.disableAllEntry pdir
  let m ← loop (fun i m => do
    let w ← m.load (entryAddr m.kPdir i)
    m.store (entryAddr pdir i) w) m.nrValidPages m
  let iBegin := (0xe0000000 / dirEntrySize).toNat
  let iEnd := (0xe0200000 / dirEntrySize).toNat
  loop (fun i m => do
    let w ← m.load (entryAddr m.kPdir (iBegin + i))
    m.store (entryAddr pdir (iBegin + i)) w) (iEnd + 1 - iBegin) m

/-! ## Processes -/

/-- `nr_Proc`. -/
def nrProc : Nat := 32

/-- The two stacks of a process (`VarMem.h:32-37`), registered by `register_stack` with
`READABLE | WRITABLE` (`Process.cpp:134-148`). -/
def stackRegions : List Region :=
  [⟨0x40000000 - 0x2000, 0x2000, 0x6⟩, ⟨0x80000000 - 0x2000, 0x2000, 0x6⟩]

/-- `makeSysProc` (`Process.cpp:150-174`). The process table has 32 places. -/
def makeSysProc (m : Machine) : Res Machine := do
  if m.procs.length ≥ nrProc then .error .fault
  else do
    let (m, pdir) ← m.allocChunk .pageDir 1
    let m ← m.copyKernelDir pdir
    let m ← stackRegions.foldlM (fun m r => m.enableSpace r.begin r.size pdir userpage .data) m
    let (m, stack) ← m.allocChunk .kernelStack 1
    .ok { m with procs := m.procs ++ [⟨pdir, stackRegions, stack + 0x1000 - 4⟩] }

/-- `memcpy` of `words` words between word-aligned pointers. -/
def memcpy (m : Machine) (dest src : UInt32) (words : Nat) : Res Machine :=
  loop (fun i m => do
    let w ← m.load (entryAddr src i)
    m.store (entryAddr dest i) w) words m

/-- The copy loop of `clone_mm` (`task.cpp:143-148`) from `addr` on; `2^20` turns reach every
page. -/
def copyPages : Nat → Machine → UInt32 → UInt32 → UInt32 → Res Machine
  | 0, _, _, _, _ => .error .hang
  | fuel + 1, m, addr, last, cr3 =>
    if addr ≤ last then do
      let phyAddr ← m.vir2phy addr cr3
      let m ← m.memcpy phyAddr addr 1024
      copyPages fuel m (addr + 0x1000) last cr3
    else .ok m

/-- `mm_region::SYSTEM`. -/
def regionSystem : UInt32 := 0x1

/-- One turn of the loop of `clone_mm` over the regions (`task.cpp:132-148`). -/
def cloneRegion (m : Machine) (p : Region) (cr3 : UInt32) : Res Machine := do
  let type := if p.flags &&& regionSystem ≠ 0 then systempage else userpage
  let m ← m.enableSpace p.begin p.size cr3 type .copied
  copyPages 1048576 m p.begin (p.begin + p.size - 0x1000) cr3

/-- The number of words of a `stack_frame_s`. -/
def frameWords : Nat := 17

/-- `fork` (`task.cpp:174-186`) with `copy_process`, `clone_mm` and `setup_stack`. -/
def fork (m : Machine) : Res Machine :=
  match m.pCurrent.bind fun i => m.procs[i]? with
  | none => .error .fault
  | some current =>
    if m.procs.length ≥ nrProc then .error .fault
    else do
      let (m, pdir) ← m.allocChunk .pageDir 1
      let m ← m.copyKernelDir pdir
      let m ← current.regions.foldlM (fun m p => m.cloneRegion p pdir) m
      let (m, stack) ← m.allocChunk .kernelStack 1
      let stackTop := stack + 0x1000 - 4
      let m ← m.memcpy (stackTop - 4 * 17) (current.stackTop - 4 * 17) frameWords
      .ok { m with procs := m.procs ++ [⟨pdir, current.regions, stackTop⟩] }

/-- The `enableSpace` call of `exec` for a segment (`elf_loader.cpp:85-87`). -/
def exec (m : Machine) (pVaddr pMemsz : UInt32) : Res Machine :=
  match m.pCurrent.bind fun i => m.procs[i]? with
  | none => .error .fault
  | some current => m.enableSpace pVaddr pMemsz current.cr3 userpage .data

/-- The scheduler's switch to process `i`: `pCurrent` and `load_cr3_asm` (`task.cpp:97-104`). -/
def run (m : Machine) (i : Nat) : Res Machine :=
  match m.procs[i]? with
  | none => .error .fault
  | some p => .ok { m with pCurrent := some i, cr3 := some p.cr3 }

end Machine

end OwnOS.VarMem
