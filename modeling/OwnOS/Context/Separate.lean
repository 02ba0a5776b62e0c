import OwnOS.Context.Model

/-!
# Processes with a processor each

What the kernel is for: each process has registers of its own (`Cpus`). A computation changes the
registers of the process that runs, a trap is handled with them as arguments and results, and
`schedule` only says who runs next. A new process starts with the registers of its parent, and 0 as
the result.
-/

namespace OwnOS.Context

open Lib Sched

structure Cpus where
  cpu : ProcPtr → Cpu
  sched : Sched

/-- The scheduler after a handler, for a call of the number `nr`. -/
def handled (s : Sched) (irq : Irq) (nr : UInt32) (e : Env) : Res Sched :=
  match irq with
  | .timer => s.tick
  | .keyboard => s.notify 1
  | .call =>
    if nr = NR_K_EXEC then .ok s
    else if nr = NR_K_SEND ∨ nr = NR_K_RECV then calls s e.ops
    else if nr = NR_K_FORK then s.fork
    else .ok s

/-- The registers of a process that has a new program. -/
def execRegs (r : Cpu) (e : Env) : Cpu :=
  let ud := UDSeg ||| 3
  let r' := { r with eip := e.entry.getD r.eip, eax := if e.success then 1 else 0 }
  if r.ecx = privUser then
    { r' with
      gs := ud, fs := ud, es := ud, ds := ud, ss := ud, cs := UCSeg ||| 3,
      esp := userStackEnd - 0x10 }
  else r'

namespace Cpus

/-- The registers after a handler. -/
def results (a : Cpus) (p : ProcPtr) (irq : Irq) (e : Env) : ProcPtr → Cpu :=
  let r := a.cpu p
  if irq = .call ∧ r.eax = NR_K_EXEC then Function.update a.cpu p (execRegs r e)
  else if irq = .call ∧ r.eax = NR_K_FORK then
    match a.sched.allocProc.2 with
    | some clone =>
      Function.update (Function.update a.cpu clone { r with eax := 0 }) p
        { r with eax := UInt32.ofInt a.sched.pidGen }
    | none => a.cpu
  else a.cpu

def step (a : Cpus) : Event → Res Cpus
  | .user r _ =>
    match a.sched.pCurrent with
    | some p => .ok { a with cpu := Function.update a.cpu p r }
    | none => .error .fault
  | .trap irq e =>
    match a.sched.pCurrent with
    | some p => do
      let s ← handled a.sched irq (a.cpu p).eax e
      let s' ← s.schedule
      .ok ⟨a.results p irq e, s'⟩
    | none => .error .fault

end Cpus

/-! ## What the environment may do -/

/-- Calls that `Ipc::send` and `Ipc::recv` make. They wake nobody but who waits for a message, and
`PID_KERNEL` does not. -/
def IpcCall : Op → Prop
  | .wakeup pid | .sleep pid _ => pid ≠ -1
  | .sleepCallback _ => True
  | _ => False

/-- Code that is not the kernel cannot enter it but by a trap, and `allocChunk` gives a page that is
not a kernel stack. -/
def Legal (m : Machine) : Event → Prop
  | .user r _ => rpl r.cs ≠ 0
  | .trap _ e =>
    (∀ op ∈ e.ops, IpcCall op) ∧ e.page.toNat % 4096 = 0 ∧
      ∀ p, m.sched.isFree p = false → (m.kernelInfo p).stackTop ≠ stackTopOf e.page

end OwnOS.Context
