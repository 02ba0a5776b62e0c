import OwnOS.Context.Cpu
import OwnOS.Sched.Model

/-!
# The kernel between two processes (`isr.nas`, `irq.cpp`, `task.cpp`, `Tss.cpp`)

`Machine` is one processor with the kernel stacks of the processes. An event is a computation of the
process that runs, or a trap: the gates of the timer, of the keyboard and of `int 0x30`. A trap goes
through the macro of `isr.nas` instruction by instruction, with the frame on the kernel stack read
and written where the C code does it.

What the C code does besides is in `Env` and may be anything: the calls that `Ipc::send` and
`Ipc::recv` make of the scheduler, the registers and all memory outside the frames. Traps do not
nest, for interrupt gates turn interrupts off.

* `Machine.kernelCall`: `irq.cpp:80-141`; `Machine.fork`: `task.cpp:159-186`; `Machine.schedule`:
  `task.cpp:73-120`.
* `Machine.trap`: `irq_master` and `irq_over30`, `isr.nas:211-261`.
* `Machine.initTasks`: `task.cpp:11-31`.

Left out: the address spaces, `interrupts` (its handlers never return) and the gates without a
handler.
-/

namespace OwnOS.Context

open Lib WordMem Sched

/-! ## Constants (`Descriptor.h`, `VarMem.h`, `kernel_call.h`) -/

def KCSeg : UInt16 := 0x08
def KDSeg : UInt16 := 0x10
def UCSeg : UInt16 := 0x28
def UDSeg : UInt16 := 0x30
def TCSeg : UInt16 := 0x40
def TDSeg : UInt16 := 0x48

def sysStackEnd : UInt32 := 0x40000000
def userStackEnd : UInt32 := 0x80000000

def NR_K_EXEC : UInt32 := 0
def NR_K_SEND : UInt32 := 1
def NR_K_RECV : UInt32 := 2
def NR_K_FORK : UInt32 := 3

def privUser : UInt32 := 1

/-! ## `stack_frame_s` -/

/-- `sizeof(stack_frame_s) / 4`. -/
def frameSize : Nat := 17

/-- The words of a `stack_frame_s` for the registers `r`. `st` is the hole for another copy of
`esp`. -/
def frameWords (r : Cpu) (st : UInt32) : List UInt32 :=
  [r.gs.toUInt32, r.fs.toUInt32, r.es.toUInt32, r.ds.toUInt32, r.edi, r.esi, r.ebp, st, r.ebx,
    r.edx, r.ecx, r.eax, r.eip, r.cs.toUInt32, r.eflags, r.esp, r.ss.toUInt32]

/-- The place of a field. -/
def GS : Nat := 0
def FS : Nat := 1
def ES : Nat := 2
def DS : Nat := 3
def CX : Nat := 10
def AX : Nat := 11
def PC : Nat := 12
def CS : Nat := 13
def SP : Nat := 15
def SS : Nat := 16

/-- `stack_top - sizeof(stack_frame_s)`. -/
def frameBase (stackTop : UInt32) : UInt32 := stackTop - 68

/-- `stack_top` for the page of a kernel stack: one word before its end. -/
def stackTopOf (page : UInt32) : UInt32 := page + 0x1000 - 4

/-! ## State -/

/-- `kernel_info_s`. `ret_from` is a field of `Sched.Proc`. -/
structure KernelInfo where
  stackTop : UInt32
  ss : UInt32
  sp : UInt32
  cs : UInt32

structure Machine where
  core : Core
  tss : TSS32
  kernelInfo : ProcPtr → KernelInfo
  sched : Sched

/-- What a trap finds and what its C code does. -/
structure Env where
  /-- Where the code of the gate is. -/
  offset : UInt32
  /-- The memory that the C code leaves. -/
  junk : WordMem
  /-- The registers that the handler leaves, and that `schedule` has at the switch or when it
  returns. -/
  regs : Cpu
  regs' : Cpu
  /-- The calls of `Ipc::send` or `Ipc::recv`. -/
  ops : List Op
  /-- What `allocChunk(1)` gives for a kernel stack. -/
  page : UInt32
  /-- Where the program starts that was loaded, if one was. -/
  entry : Option UInt32
  /-- What `exec` returns. -/
  success : Bool

/-- The gates with a handler that returns. -/
inductive Irq where
  | timer
  | keyboard
  | call
  deriving DecidableEq

inductive Event where
  /-- The process computes: its registers then, and the memory. -/
  | user (r : Cpu) (junk : WordMem)
  | trap (irq : Irq) (e : Env)

/-- The scheduler after some calls. -/
def calls (s : Sched) (ops : List Op) : Res Sched := ops.foldlM Sched.step s

namespace Machine

variable (m : Machine)

def withCore (c : Core) : Machine := { m with core := c }

/-- The address is in the frame of a process. -/
def InFrame (a : UInt32) : Prop :=
  ∃ p, m.sched.isFree p = false ∧ a - frameBase (m.kernelInfo p).stackTop < 68

instance (a : UInt32) : Decidable (m.InFrame a) := inferInstanceAs (Decidable (∃ _, _))

/-- The memory changes, but not the frames. -/
def scribble (junk : WordMem) : Machine :=
  m.withCore ⟨m.core.cpu, fun a => if m.InFrame a then m.core.mem a else junk a⟩

def field (regs : UInt32) (i : Nat) : UInt32 := m.core.mem (at_ regs i)

def setField (regs : UInt32) (i : Nat) (w : UInt32) : Machine :=
  m.withCore ⟨m.core.cpu, Function.update m.core.mem (at_ regs i) w⟩

/-- `frame` of the C code: `kernel_info.stack_top-sizeof(stack_frame_s)`. -/
def frame (p : ProcPtr) : UInt32 := frameBase (m.kernelInfo p).stackTop

/-! ## Handlers -/

/-- `after_exec`. -/
def afterExec (retAddr : UInt32) : Res Machine :=
  match m.sched.pCurrent with
  | some current => .ok (m.setField (m.frame current) PC retAddr)
  | none => .error .fault

/-- What `exec` leaves of the frame: the entry of the program, if one was loaded. -/
def execFile (e : Env) : Res Machine :=
  match e.entry with
  | some pc => m.afterExec pc
  | none => .ok m

/-- The stack and the segments of a user process. -/
def toUser (regs : UInt32) : Machine :=
  let ud := (UDSeg ||| 3).toUInt32
  let m := m.setField regs SS ud
  let m := m.setField regs DS ud
  let m := m.setField regs ES ud
  let m := m.setField regs FS ud
  let m := m.setField regs GS ud
  let m := m.setField regs CS (UCSeg ||| 3).toUInt32
  m.setField regs SP (userStackEnd - 0x10)

/-- `NR_K_EXEC`. -/
def exec (regs : UInt32) (e : Env) : Res Machine := do
  let pri := m.field regs CX
  let m ← m.execFile e
  let m := if pri = privUser then m.toUser regs else m
  .ok (m.setField regs AX (if e.success then 1 else 0))

/-- `setup_stack`, for the page that it allocates. -/
def setupStack (page : UInt32) (current clone : ProcPtr) : Machine :=
  let stackTop := stackTopOf page
  let frameCurr := m.frame current
  let info := { m.kernelInfo current with stackTop, sp := frameBase stackTop }
  { m with
    core.mem := m.core.mem.setWords (frameBase stackTop) (m.core.mem.words frameCurr frameSize)
    kernelInfo := Function.update m.kernelInfo clone info }

/-- `fork`, less the address space: the new process, and its number. -/
def fork (page : UInt32) : Res (Machine × UInt32) := do
  let s ← m.sched.fork
  match m.sched.pCurrent, m.sched.allocProc.2 with
  | some current, some clone =>
    let m := m.setupStack page current clone
    .ok ({ m with sched := s }, UInt32.ofInt m.sched.pidGen)
  | _, _ => .error .fault

/-- `kernelCall`. `regs` is the address of its argument, the frame on the stack. -/
def kernelCall (e : Env) : Res Machine :=
  let regs := m.core.cpu.esp
  let nr := m.field regs AX
  if nr = NR_K_EXEC then m.exec regs e
  else if nr = NR_K_SEND ∨ nr = NR_K_RECV then do
    let s ← calls m.sched e.ops
    .ok { m with sched := s }
  else if nr = NR_K_FORK then do
    let (m, pid) ← m.fork e.page
    .ok (m.setField regs AX pid)
  else .ok m

/-- `intr_func`. -/
def intrFunc (irq : Irq) (e : Env) : Res Machine :=
  match irq with
  | .timer => do
    let s ← m.sched.tick
    .ok { m with sched := s }
  | .keyboard => do
    let s ← m.sched.notify 1
    .ok { m with sched := s }
  | .call => m.kernelCall e

/-- The answer to the interrupt controller. -/
def endOfInterrupt (irq : Irq) : Machine :=
  match irq with
  | .timer => m.withCore (m.core.outRegs 0x20 0x60)
  | .keyboard => m.withCore (m.core.outRegs 0x20 0x61)
  | .call => m

/-! ## The switch -/

/-- `setFrame2TSS`. -/
def setFrame2TSS (ki : KernelInfo) : Machine := { m with tss := ⟨ki.stackTop, ki.ss⟩ }

/-- `swap_esp`. The operands of its last instruction are the other way round: the stack stays what
it was. -/
def swapEsp (prev : ProcPtr) : Machine :=
  { m with
    kernelInfo := Function.update m.kernelInfo prev { m.kernelInfo prev with sp := m.core.cpu.ebp }
    core.cpu.ebp := m.core.cpu.esp }

/-- `ret_to_user`, up to `ret2user`. -/
def retToUser (p : ProcPtr) : Machine := { m with core.cpu.esp := m.frame p }

/-- What `func` does to the frame: only `ret_from_fork` does something. -/
def retFrom (p : ProcPtr) (func : RetFrom) : Machine :=
  match func with
  | .retFromFork => m.setField (m.frame p) AX 0
  | _ => m

/-- The process that `schedule` switches to, unless it returns. -/
def selects (s : Sched) : Option ProcPtr :=
  if ¬s.schedReq ∧ ¬s.timer.quantumExceeded then none else s.firstHead.map (·.2)

/-- `schedule`. -/
def schedule : Res Machine := do
  let s ← m.sched.schedule
  match selects m.sched with
  | none => .ok { m with sched := s }
  | some p =>
    match m.sched.pCurrent with
    | none => .error .fault
    | some prev =>
      if p = prev then .ok ({ m with sched := s }.retToUser p)
      else
        let func := (m.sched.room p).retFrom
        let m := { m with sched := s }
        let m := m.setFrame2TSS (m.kernelInfo p)
        let m := m.swapEsp prev
        let m := m.retFrom p func
        .ok (m.retToUser p)

/-! ## Traps and runs -/

def trap (irq : Irq) (e : Env) : Res Machine := do
  let m := m.withCore (m.core.interrupt m.tss KCSeg e.offset).save
  let m := m.scribble e.junk
  let m ← m.intrFunc irq e
  let m := m.withCore (m.core.clobber e.regs)
  let m := m.endOfInterrupt irq
  let m := m.withCore (m.core.clobber e.regs')
  let m ← m.schedule
  .ok (m.withCore m.core.load.iret)

def step (m : Machine) : Event → Res Machine
  | .user r junk => .ok ((m.scribble junk).withCore ⟨r, (m.scribble junk).core.mem⟩)
  | .trap irq e => m.trap irq e

/-- `taskswitch_asm`. -/
def taskswitch (cs ss : UInt16) (eip esp : UInt32) : Machine :=
  let c := m.core.pushAll [ss.toUInt32, esp, 0x1200, cs.toUInt32, eip]
  let c : Core :=
    { c with cpu := { c.cpu with eax := ss.toUInt32, ds := ss, es := ss, fs := ss, gs := ss } }
  m.withCore c.iret

/-- `makeSysProc`, less the address space: the kernel stack. -/
def sysStack (p : ProcPtr) (page : UInt32) : Machine :=
  { m with
    kernelInfo := Function.update m.kernelInfo p
      { m.kernelInfo p with
        ss := KDSeg.toUInt32, stackTop := stackTopOf page, cs := KCSeg.toUInt32 } }

/-- `init_tasks`. -/
def initTasks (pageInit pageKernel taskInit : UInt32) : Res Machine := do
  let s ← m.sched.initTasks
  match m.sched.allocProc with
  | (t, some pinit) =>
    match t.allocProc.2 with
    | some pkernel =>
      let m := { (m.sysStack pinit pageInit).sysStack pkernel pageKernel with sched := s }
      let m := m.setFrame2TSS (m.kernelInfo pinit)
      .ok (m.taskswitch (TCSeg ||| 1) (TDSeg ||| 1) taskInit (sysStackEnd - 0x10))
    | none => .error .fault
  | _ => .error .fault

end Machine

end OwnOS.Context
