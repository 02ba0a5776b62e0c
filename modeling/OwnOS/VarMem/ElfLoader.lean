import OwnOS.VarMem.EnableSpace
import OwnOS.Lib.Run

/-!
# `exec` (`elf_loader.cpp`) and what a process does to its own memory

`load_elf_executable` checks the header, opens the pages of each `PT_LOAD` segment in the directory
of the running process and reads the segment to its address, byte by byte through the running
directory. It records no `mm_region`. The file is what `File::read` gives: the header, the program
headers, and the bytes from an offset on.

Runs are of `makeSysProc`, `fork`, `exec`, switches, and stores of the running process to its own
memory.
-/

namespace OwnOS.VarMem

open Lib

/-- The fields of `Elf32_Phdr` that are read. -/
structure Phdr where
  pType : UInt32
  pOffset : UInt32
  pVaddr : UInt32
  pMemsz : UInt32

/-- An executable. `read offset` are the bytes from `offset` on. -/
structure ElfFile where
  eIdent : List UInt8
  eType : UInt16
  eMachine : UInt16
  eEntry : UInt32
  phdrs : List Phdr
  read : UInt32 → Nat → UInt8

/-- `x86_32_xh.e_ident`. -/
def xhIdent : List UInt8 := [0x7f, 0x45, 0x4c, 0x46, 1, 1, 1, 0, 0, 0, 0, 0, 0, 0, 0, 0]

/-- `ET_EXEC`. -/
def etExec : UInt16 := 2

/-- `EM_386`. -/
def em386 : UInt16 := 3

/-- `PT_LOAD`. -/
def ptLoad : UInt32 := 1

/-- The checks of the header (`elf_loader.cpp:42-66`). -/
def ElfFile.valid (file : ElfFile) : Bool :=
  file.eIdent = xhIdent && file.eType = etExec && file.eMachine = em386

/-- Byte `k` of a word in memory. -/
def getByte (w : UInt32) (k : Nat) : UInt8 := (w >>> UInt32.ofNat (8 * k)).toUInt8

/-- Replace byte `k` of a word. -/
def setByte (w : UInt32) (k : Nat) (x : UInt8) : UInt32 :=
  (w &&& ~~~(0xff <<< UInt32.ofNat (8 * k))) ||| (x.toUInt32 <<< UInt32.ofNat (8 * k))

namespace Machine

/-- The byte at a physical address. -/
def byteAt (m : Machine) (p : UInt32) : UInt8 := getByte (m.peek p) (p.toNat % 4)

/-- Write the byte at a pointer. -/
def storeByte (m : Machine) (v : UInt32) (x : UInt8) : Res Machine := do
  let p ← m.addr v
  .ok (m.setWord (frameOf p) (indexOf p) (setByte (m.peek p) (p.toNat % 4) x))

/-- `file->read(p_offset,p_memsz,dest)`. -/
def readFile (m : Machine) (bytes : Nat → UInt8) (size : Nat) (dest : UInt32) : Res Machine :=
  loop (fun k m => m.storeByte (dest + UInt32.ofNat k) (bytes k)) size m

/-- One turn of the loop over the program headers (`elf_loader.cpp:75-105`). -/
def loadSegment (m : Machine) (file : ElfFile) (cr3 : UInt32) (phdr : Phdr) : Res Machine :=
  if phdr.pType = ptLoad then do
    let m ← m.enableSpace phdr.pVaddr phdr.pMemsz cr3 userpage .data
    m.readFile (file.read phdr.pOffset) phdr.pMemsz.toNat phdr.pVaddr
  else .ok m

/-- `after_exec` (`task.cpp:43-47`): `pc` is word 12 of the frame on the kernel stack. -/
def afterExec (m : Machine) (stackTop retAddr : UInt32) : Res Machine :=
  m.store (entryAddr (stackTop - 4 * 17) 12) retAddr

/-- `load_elf_executable` (`elf_loader.cpp:12-109`). -/
def loadElfExecutable (m : Machine) (file : ElfFile) : Res (Machine × Bool) :=
  if file.valid then
    match m.pCurrent.bind fun i => m.procs[i]? with
    | none => .error .fault
    | some current => do
      let m ← file.phdrs.foldlM (fun m phdr => m.loadSegment file current.cr3 phdr) m
      let m ← m.afterExec current.stackTop file.eEntry
      .ok (m, true)
  else .ok (m, false)

/-- The address is open to the user: both entries are present and have the U/S bit. -/
def userMapped (m : Machine) (c v : UInt32) : Bool :=
  let entryD := m.phys (frameOf c) (dirIndex v)
  let entryT := m.phys (frameOf entryD) (tableIndex v)
  isEntryExist entryD && isUser entryD && isEntryExist entryT && isUser entryT

/-- A store of the running process in user mode. -/
def userStore (m : Machine) (v : UInt32) (x : UInt8) : Res Machine :=
  match m.pCurrent.bind fun i => m.procs[i]? with
  | none => .error .fault
  | some current => if m.userMapped current.cr3 v then m.storeByte v x else .error .fault

end Machine

/-! ## Runs -/

/-- What happens to the address spaces. -/
inductive ProcOp where
  | makeSysProc
  | fork
  | exec (file : ElfFile)
  | run (i : Nat)
  | userStore (v : UInt32) (x : UInt8)

/-- One operation. -/
def procStep (m : Machine) : ProcOp → Res Machine
  | .makeSysProc => m.makeSysProc
  | .fork => m.fork
  | .exec file => do
    let r ← m.loadElfExecutable file
    .ok r.1
  | .run i => m.run i
  | .userStore v x => m.userStore v x

/-- The address lies in a directory slot that every process has from the kernel. -/
def KernelSlot (m : Machine) (v : UInt32) : Prop :=
  (dirIndex v).val < m.nrValidPages ∨ (dirIndex v).val = 0x380

/-- No byte of a program goes to the kernel's part of the address space. -/
def ProcOp.Apart (m : Machine) : ProcOp → Prop
  | .exec file => file.valid = true → ∀ phdr ∈ file.phdrs, phdr.pType = ptLoad →
    ∀ k < phdr.pMemsz.toNat, ¬ KernelSlot m (phdr.pVaddr + UInt32.ofNat k)
  | _ => True

/-- The pages of the two stacks. -/
def stackPages : List UInt32 := Machine.stackRegions.flatMap fun r => rangePages r.begin r.size

/-- The pages of a program. -/
def ElfFile.pages (file : ElfFile) : List UInt32 :=
  if file.valid then
    (file.phdrs.filter fun phdr => phdr.pType = ptLoad).flatMap fun phdr =>
      rangePages phdr.pVaddr phdr.pMemsz
  else []

/-- The pages of the programs that process `i` loads in a run that starts with `cur` running. -/
def loads (i : Nat) : Option Nat → List ProcOp → List UInt32
  | _, [] => []
  | cur, .exec file :: ops => (if cur = some i then file.pages else []) ++ loads i cur ops
  | _, .run j :: ops => loads i (some j) ops
  | cur, .makeSysProc :: ops => loads i cur ops
  | cur, .fork :: ops => loads i cur ops
  | cur, .userStore _ _ :: ops => loads i cur ops

/-- **What `fork` is for**: every address open to the user in the parent is open in the child, is
backed there by another frame, and holds the same byte. -/
def CopiedTo (m : Machine) (parent child : UInt32) : Prop :=
  ∀ v, m.userMapped parent v = true → m.userMapped child v = true ∧
    ∃ a c, m.translate parent v = some a ∧ m.translate child v = some c ∧
      frameOf a ≠ frameOf c ∧ m.byteAt a = m.byteAt c

end OwnOS.VarMem
