import OwnOS.Lib.Stack

/-!
# Entering and leaving the kernel (`isr.nas`)

The macros of `isr.nas`, instruction by instruction, over the registers and the words of memory, and
what the processor does at an interrupt and at `iret`. A segment register is pushed as a word with
16 zero bits above it.

The handlers in between are C code: `Core.clobber` gives the registers any value but keeps `esp`,
`ss` and `cs`, as a function that returns does.
-/

namespace OwnOS.Context

open Lib

/-- The registers. -/
structure Cpu where
  eax : UInt32
  ecx : UInt32
  edx : UInt32
  ebx : UInt32
  esp : UInt32
  ebp : UInt32
  esi : UInt32
  edi : UInt32
  eip : UInt32
  eflags : UInt32
  cs : UInt16
  ss : UInt16
  ds : UInt16
  es : UInt16
  fs : UInt16
  gs : UInt16
  deriving DecidableEq, Repr

/-- The privilege level in a selector. In `cs` it is the level of the code that runs. -/
def rpl (sel : UInt16) : UInt16 := sel &&& 3

/-- The stack that the processor switches to when it enters the kernel: `esp0` and `ss0` of
`TSS32`. -/
structure TSS32 where
  esp0 : UInt32
  ss0 : UInt32
  deriving DecidableEq

/-- The registers and the memory. -/
structure Core where
  cpu : Cpu
  mem : WordMem

namespace Core

variable (c : Core)

/-! ## Instructions -/

def push (w : UInt32) : Core :=
  { cpu := { c.cpu with esp := c.cpu.esp - 4 }, mem := Function.update c.mem (c.cpu.esp - 4) w }

/-- The word on top of the stack. -/
def top : UInt32 := c.mem c.cpu.esp

/-- The stack without it. -/
def drop : Core := { c with cpu := { c.cpu with esp := c.cpu.esp + 4 } }

/-- Pushes words one after the other. -/
def pushAll (ws : List UInt32) : Core := ws.foldl push c

def pushad : Core :=
  let r := c.cpu
  c.pushAll [r.eax, r.ecx, r.edx, r.ebx, r.esp, r.ebp, r.esi, r.edi]

/-- The copy of `esp` is skipped. -/
def popad : Core :=
  let c := { c.drop with cpu := { c.drop.cpu with edi := c.top } }
  let c := { c.drop with cpu := { c.drop.cpu with esi := c.top } }
  let c := { c.drop with cpu := { c.drop.cpu with ebp := c.top } }
  let c := c.drop
  let c := { c.drop with cpu := { c.drop.cpu with ebx := c.top } }
  let c := { c.drop with cpu := { c.drop.cpu with edx := c.top } }
  let c := { c.drop with cpu := { c.drop.cpu with ecx := c.top } }
  { c.drop with cpu := { c.drop.cpu with eax := c.top } }

/-- The low half of a register. -/
def setLow (r : UInt32) (w : UInt16) : UInt32 := (r &&& 0xFFFF0000) ||| w.toUInt32

/-- The low byte of a register. -/
def setByte (r : UInt32) (b : UInt8) : UInt32 := (r &&& 0xFFFFFF00) ||| b.toUInt32

/-- An interrupt through an interrupt gate to the code segment `selector` of level 0. From a higher
level the stack is switched to the one in the TSS. `IF`, `TF`, `NT`, `RF` and `VM` are cleared. -/
def interrupt (tss : TSS32) (selector : UInt16) (offset : UInt32) : Core :=
  let r := c.cpu
  let c :=
    if rpl r.cs ≠ 0 then
      let c : Core := { c with cpu := { r with esp := tss.esp0, ss := tss.ss0.toUInt16 } }
      c.pushAll [r.ss.toUInt32, r.esp]
    else c
  let c := c.pushAll [r.eflags, r.cs.toUInt32, r.eip]
  { c with cpu := { c.cpu with eflags := r.eflags &&& 0xFFFCBCFF, cs := selector, eip := offset } }

/-- `iret`. A return to a higher level pops the stack, too. -/
def iret : Core :=
  let cpl := rpl c.cpu.cs
  let c := { c.drop with cpu := { c.drop.cpu with eip := c.top } }
  let c := { c.drop with cpu := { c.drop.cpu with cs := c.top.toUInt16 } }
  let c := { c.drop with cpu := { c.drop.cpu with eflags := c.top } }
  if rpl c.cpu.cs > cpl then
    let esp := c.top
    let c := c.drop
    { c with cpu := { c.cpu with esp, ss := c.top.toUInt16 } }
  else c

/-! ## Macros -/

/-- `save`. -/
def save : Core :=
  let r := c.cpu
  let c := c.pushad
  let c := c.pushAll [r.ds.toUInt32, r.es.toUInt32, r.fs.toUInt32, r.gs.toUInt32]
  let di := c.cpu.ss
  { c with
    cpu := { c.cpu with edi := setLow c.cpu.edi di, ds := di, es := di, gs := di, fs := di } }

/-- `load`. -/
def load : Core :=
  let c := { c.drop with cpu := { c.drop.cpu with gs := c.top.toUInt16 } }
  let c := { c.drop with cpu := { c.drop.cpu with fs := c.top.toUInt16 } }
  let c := { c.drop with cpu := { c.drop.cpu with es := c.top.toUInt16 } }
  let c := { c.drop with cpu := { c.drop.cpu with ds := c.top.toUInt16 } }
  c.popad

/-- `mov dx,port` and `mov al,val`, before an `out`. -/
def outRegs (port : UInt16) (val : UInt8) : Core :=
  { c with cpu := { c.cpu with edx := setLow c.cpu.edx port, eax := setByte c.cpu.eax val } }

/-- A C function that returned, with the values that it left in the registers. -/
def clobber (r : Cpu) : Core :=
  { c with cpu := { r with esp := c.cpu.esp, ss := c.cpu.ss, cs := c.cpu.cs } }

/-- The end of `irq_slave n`, from the return of `schedule` on: the registers are loaded before the
interrupt controllers get their answers. -/
def irqSlaveEnd (n : UInt8) : Core :=
  let c := c.load
  let c := c.outRegs 0xa0 (0x60 + n)
  let c := c.outRegs 0x20 0x62
  c.iret

end Core

end OwnOS.Context
