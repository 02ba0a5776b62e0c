import OwnOS.Halt
import OwnOS.Lib.Links
import OwnOS.Que.Model
import OwnOS.Timer.Model

/-!
# The scheduler (`task.cpp`, `Process.cpp`)

`PManager` keeps 32 processes in an array and the runnable ones in four queues, `pHead[0..3]`,
linked through the field `next` of the processes. `schedule` takes the head of the first queue that
is not empty, puts it at the end of the next one and switches to it; `sleep` and `wakeup` take a
process out of its queue and put it back; the timer calls `wakeup` and ends the quantum.

The loops over a queue take a bound on the processes they pass: a walk past more than 32 of them has
met one twice and never ends (`Halt.hang`).

Beside the program's data the state records which `sleep(callback)` stored a callback, what each
`schedule` selected and called, and when a process was woken. Left out: the address spaces, the
kernel stacks and the output. `fork` with a full table follows a NULL pointer through the low memory
until `wakeup` does not find the process; `init_tasks` with a full table faults.
-/

namespace OwnOS.Sched

open Lib

/-- `nr_Proc` (`Process.h:90`). -/
abbrev nrProc : Nat := 32

/-- `nr_Level` (`Process.h:91`). -/
abbrev nrLevel : Nat := 4

instance neZero_nrLevel : NeZero nrLevel := ⟨by decide⟩

/-- A pointer to an element of `ProcL.room`. -/
abbrev ProcPtr := Fin nrProc

/-- An index of `pHead`. -/
abbrev Level := Fin nrLevel

/-- A `Proc **`. -/
abbrev ProcLoc := Loc Level ProcPtr

/-- `PManager::priority`. -/
def psys : Level := 1

def papp : Level := 2

/-- `interval` (`Process.cpp:57`). -/
def interval (i : Level) : Int := i.val

/-- `Proc::STATUS`. -/
inductive Status where
  | init
  | sleep
  | running
  | stopped
  deriving DecidableEq

/-- `kernel_info.ret_from`. A callback also tells which call of `sleep(callback)` stored it. -/
inductive RetFrom where
  | kernel2user
  | retFromFork
  | callback (f : Nat) (serial : Nat)
  deriving DecidableEq

/-- `Proc`. -/
structure Proc where
  id : Int
  prior : Level
  status : Status
  retFrom : RetFrom
  deriving DecidableEq

/-- `Proc::Proc`. -/
def Proc.init : Proc := ⟨0, papp, .init, .kernel2user⟩

/-- A call of `sleep(callback)`: by whom, and how many processes had been selected before. -/
structure Sleep where
  proc : ProcPtr
  serial : Nat
  since : Nat
  deriving DecidableEq

/-- A process that `schedule` selected, and the function it called after the switch, if any. -/
structure Selection where
  proc : ProcPtr
  func : Option RetFrom
  deriving DecidableEq

/-- An entry of `irqQue` (`task.cpp:232-243`): `irq` and `pid`. -/
abbrev Entry := Int × Int

end Sched

open Sched Lib

/-- `pManager`, `timer`, `irqQue` and the flag `sched_req`. -/
structure Sched where
  room : ProcPtr → Proc
  isFree : ProcPtr → Bool
  /-- `pHead` and the `next` fields. -/
  links : Links Level ProcPtr
  pCurrent : Option ProcPtr
  pidGen : Int
  schedReq : Bool
  timer : Timer
  irqQue : Que Entry 64
  sleeps : List Sleep
  selected : List Selection
  /-- The pid, and the number of timers that had been set. -/
  woken : List (Int × Nat)

namespace Sched

/-- The constructors: no process, and nothing in the queues. -/
def boot (irqQue : Que Entry 64) : Sched where
  room _ := Proc.init
  isFree _ := true
  links := ⟨fun _ => none, fun _ => none⟩
  pCurrent := none
  pidGen := 100
  schedReq := false
  timer := Timer.init
  irqQue := irqQue
  sleeps := []
  selected := []
  woken := []

/-- Write to a process. -/
def setProc (s : Sched) (p : ProcPtr) (x : Proc) : Sched :=
  { s with room := Function.update s.room p x }

/-- `p->status = st`. -/
def setStatus (s : Sched) (p : ProcPtr) (st : Status) : Sched :=
  s.setProc p { s.room p with status := st }

/-- `*pp = q`. -/
def assign (s : Sched) (pp : ProcLoc) (q : Option ProcPtr) : Sched :=
  { s with links := s.links.set pp q }

/-! ## `PManager` -/

/-- `while((*pp)!=NULL) pp=&((*pp)->next)` (`Process.cpp:85-87`). -/
def endOf (L : Links Level ProcPtr) : Nat → ProcLoc → Res ProcLoc
  | 0, _ => .error .hang
  | n + 1, pp =>
    match L.get pp with
    | none => .ok pp
    | some i => endOf L n (.next i)

/-- `enque` (`Process.cpp:61-92`). Level 0 stands for the priority of the process. -/
def enque (s : Sched) (p : ProcPtr) (level : Level) : Res Sched :=
  match (s.room p).status with
  | .stopped => do
    let k := if level = 0 then (s.room p).prior else level
    let pp ← endOf s.links (nrProc + 1) (.head k)
    let s := s.assign (.next p) none
    let s := s.assign pp (some p)
    .ok (s.setStatus p .running)
  | .running => .ok s
  | _ => .error (.panic "enque wrong process")

/-- The inner loop of `deque` (`Process.cpp:111-119`). -/
def find (L : Links Level ProcPtr) (p : ProcPtr) : Nat → ProcLoc → Res (Option ProcLoc)
  | 0, _ => .error .hang
  | n + 1, pp =>
    match L.get pp with
    | none => .ok none
    | some i => if i = p then .ok (some pp) else find L p n (.next i)

/-- The outer loop of `deque` (`Process.cpp:109-120`). -/
def findLevel (L : Links Level ProcPtr) (p : ProcPtr) : List Level → Res (Option ProcLoc)
  | [] => .ok none
  | k :: ks => do
    match ← find L p (nrProc + 1) (.head k) with
    | some pp => .ok (some pp)
    | none => findLevel L p ks

/-- `deque` (`Process.cpp:94-122`). -/
def deque (s : Sched) (p : ProcPtr) : Res Sched :=
  match (s.room p).status with
  | .running => do
    match ← findLevel s.links p (List.finRange nrLevel) with
    | some pp =>
      let s := s.setStatus p .stopped
      .ok (s.assign pp (s.links.next p))
    | none => .ok s
  | .stopped => .ok s
  | _ => .error (.panic "enque wrong process")

/-- `getProc` (`Process.h:103-111`): the first process with the id. -/
def getProc (s : Sched) (id : Int) : Option ProcPtr :=
  (List.finRange nrProc).find? fun i => !s.isFree i && (s.room i).id = id

/-- `allocProc` (`KType.hpp:92-100`). -/
def allocProc (s : Sched) : Sched × Option ProcPtr :=
  match (List.finRange nrProc).find? s.isFree with
  | some p => ({ s with isFree := Function.update s.isFree p false }, some p)
  | none => (s, none)

/-- `makeSysProc` (`Process.cpp:147-178`), less the address space. -/
def makeSysProc (s : Sched) : Res (Sched × ProcPtr) :=
  match s.allocProc with
  | (s, some p) =>
    .ok (s.setProc p { s.room p with status := .stopped, prior := psys, retFrom := .kernel2user },
      p)
  | (_, none) => .error .fault

/-! ## `task.cpp` -/

/-- `init_tasks` (`task.cpp:10-30`): `PID_INIT` is 1, `PID_KERNEL` is -1. -/
def initTasks (s : Sched) : Res Sched := do
  let (s, pinit) ← s.makeSysProc
  let (s, pkernel) ← s.makeSysProc
  let s := s.setProc pkernel { s.room pkernel with id := -1 }
  let s := s.setProc pinit { s.room pinit with id := 1 }
  let s ← s.enque pinit 0
  let s := { s with pCurrent := some pinit }
  .ok { s with timer := s.timer.resetQuantum (interval 0) (s.room pinit).id }

/-- `wakeup(pid)` (`task.cpp:216-226`). -/
def wakeup (s : Sched) (pid : Int) : Res Sched :=
  match s.getProc pid with
  | some p => do
    let s ← s.enque p 0
    .ok { s with schedReq := true, woken := (pid, s.timer.serial) :: s.woken }
  | none => .error (.panic "sleep()::cannot find process ")

/-- `fork` (`task.cpp:172-186`), with the part of `copy_process` that is not memory. -/
def fork (s : Sched) : Res Sched := do
  let current ← Que.follow s.pCurrent
  match s.allocProc with
  | (s, some clone) =>
    let x : Proc := ⟨s.pidGen, (s.room current).prior, .stopped, .retFromFork⟩
    let s := { s with pidGen := s.pidGen + 1 }
    let s := s.setProc clone x
    s.wakeup x.id
  | (_, none) => .error (.panic "sleep()::cannot find process ")

/-- `sleep(pid, millisec)` (`task.cpp:191-207`); `Timer::interval` is 10. -/
def sleep (s : Sched) (pid millisec : Int) : Res Sched :=
  match s.getProc pid with
  | some p => do
    let s ← s.deque p
    let timer :=
      if millisec > 0 then s.timer.set (millisec.tdiv 10) .wakeup (s.room p).id else s.timer
    .ok { s with timer := timer, schedReq := true }
  | none => .error (.panic "sleep()::cannot find process")

/-- `sleep(callback)` (`task.cpp:187-190`). -/
def sleepCallback (s : Sched) (callback : Nat) : Res Sched := do
  let p ← Que.follow s.pCurrent
  let serial := s.sleeps.length
  let s := s.setProc p { s.room p with retFrom := .callback callback serial }
  let s := { s with sleeps := ⟨p, serial, s.selected.length⟩ :: s.sleeps }
  s.sleep (s.room p).id (-1)

/-- `wait_interrupt` (`task.cpp:249-255`). -/
def waitInterrupt (s : Sched) (irq : Int) : Res Sched := do
  let p ← Que.follow s.pCurrent
  let irqQue ← s.irqQue.enque (irq, (s.room p).id)
  let s := { s with irqQue := irqQue }
  s.sleep (s.room p).id (-1)

/-- `notify` (`task.cpp:256-263`). Two entries are equal when their `irq` is; that of
`invalid_entry` is -1. -/
def notify (s : Sched) (irq : Int) : Res Sched := do
  let (e, irqQue) ← s.irqQue.dequeOf (fun x y => x.1 == y.1) (irq, 0)
  let s := { s with irqQue := irqQue }
  if e.1 = -1 then .ok s else s.wakeup e.2

/-- The calls of `wakeup` in the loop of `timerHandler`. -/
def wakeDue (s : Sched) : List Timer.Entry → Res Sched
  | [] => .ok s
  | e :: l =>
    match e.alarm.kind with
    | .wakeup => do
      let s ← s.wakeup e.alarm.prId
      s.wakeDue l
    | _ => s.wakeDue l

/-- `timerHandler`. -/
def tick (s : Sched) : Res Sched :=
  let (timer, due) := s.timer.handler
  { s with timer := timer }.wakeDue due

/-- The head of the first queue that is not empty. -/
def firstHead (s : Sched) : Option (Level × ProcPtr) :=
  (List.finRange nrLevel).findSome? fun k => (s.links.head k).map (k, ·)

/-- `nlevel` in `schedule` (`task.cpp:89`). -/
def nlevel (k : Level) : Level := if h : k.val + 1 < nrLevel then ⟨k.val + 1, h⟩ else k

/-- The switch (`task.cpp:97-117`): the function in `ret_from` is called, and replaced by the
default, when the selected process is not the current one. -/
def switchTo (s : Sched) (p : ProcPtr) : Sched :=
  let func := (s.room p).retFrom
  if s.pCurrent = some p then { s with selected := s.selected ++ [⟨p, none⟩] }
  else
    let s := s.setProc p { s.room p with retFrom := .kernel2user }
    { s with pCurrent := some p, selected := s.selected ++ [⟨p, some func⟩] }

/-- `schedule` (`task.cpp:73-120`). -/
def schedule (s : Sched) : Res Sched :=
  if ¬s.schedReq ∧ ¬s.timer.quantumExceeded then .ok s
  else
    let s := { s with schedReq := false, timer := { s.timer with quantumExceeded := false } }
    match s.firstHead with
    | none => .ok s
    | some (k, p) => do
      let s := s.setStatus p .stopped
      let s := s.assign (.head k) (s.links.next p)
      let s ← s.enque p (nlevel k)
      let s := { s with timer := s.timer.resetQuantum (interval (nlevel k)) (s.room p).id }
      .ok (s.switchTo p)

/-! ## Runs -/

/-- The calls into the scheduler. -/
inductive Op where
  | initTasks
  | fork
  | sleep (pid millisec : Int)
  | sleepCallback (callback : Nat)
  | wakeup (pid : Int)
  | waitInterrupt (irq : Int)
  | notify (irq : Int)
  | tick
  | schedule
  deriving DecidableEq

/-- One call. -/
def step (s : Sched) : Op → Res Sched
  | .initTasks => s.initTasks
  | .fork => s.fork
  | .sleep pid millisec => s.sleep pid millisec
  | .sleepCallback callback => s.sleepCallback callback
  | .wakeup pid => s.wakeup pid
  | .waitInterrupt irq => s.waitInterrupt irq
  | .notify irq => s.notify irq
  | .tick => s.tick
  | .schedule => s.schedule

end Sched

end OwnOS
