import OwnOS.Halt

/-!
# Message passing (`Ipc.cpp`) and the scheduler (`task.cpp`, `Process.cpp`)

Processes only run in user mode or are in the kernel one at a time: a trap (a system call or the
timer) runs its handler and then `schedule` (`isr.nas`). `Kernel` is the process table, the run
queues of `PManager` and the flags of the scheduler; `send`, `recv`, `tick` and `schedule` are the
steps.

`Que<T,32>` is a list, newest entry first: `enque` puts an entry at the head, `deque()` takes the
oldest, `deque(a)` the newest that is equal to `a`. With 32 entries `Lessor::get` returns NULL and
`enque` faults. Left out: the quantum timers (a tick may end the quantum at any time), the output,
the address spaces.

Kept beside the program's data: a ticket for each `send`, the record of what was sent and taken, and
what each process last went to sleep for.
-/

namespace OwnOS.Ipc

/-- `pid_t`. -/
abbrev Pid := Int

/-- `PID_ANY`. -/
def pidAny : Pid := 5

/-- `Message`; the body is the union `m1`. -/
structure Message where
  id : Pid
  type : UInt16
  isValid : Bool
  p1 : UInt32
  p2 : UInt32
  p3 : UInt32
  deriving DecidableEq

/-! ## `Que` (`KType.hpp:112-190`) -/

/-- `nrMessage`. -/
def nrMessage : Nat := 32

section Que

variable {α : Type}

/-- `enque`. -/
def enque (q : List α) (t : α) : Res (List α) :=
  if q.length > nrMessage then .ok q
  else if q.length = nrMessage then .error .fault
  else .ok (t :: q)

/-- `deque()`: the oldest entry, and the rest. -/
def deque (q : List α) : Option α × List α := (q.getLast?, q.dropLast)

/-- `deque(a)`: the newest entry that is equal to `a`, and the rest. -/
def dequeOf (eq : α → Bool) (q : List α) : Option α × List α := (q.find? eq, q.eraseP eq)

end Que

/-! ## Processes -/

/-- `Proc::STATUS`. -/
inductive Status where
  | init
  | sleep
  | running
  | stopped
  deriving DecidableEq

/-- `kernel_info.ret_from`. -/
inductive RetFrom where
  | kernel2user
  | retFromFork
  | recvLater
  deriving DecidableEq

/-- A message in a `sendQ`, with the number of the `send` that put it there. -/
structure Sent where
  msg : Message
  ticket : Nat
  deriving DecidableEq

/-- What a process went to sleep for: a `recv(id)`, or a `send(id, m)` with this ticket. -/
inductive Wait where
  | none
  | recv (id : Pid)
  | send (id : Pid) (ticket : Nat)
  deriving DecidableEq

instance neZero_levels : NeZero 4 := ⟨by decide⟩

/-- The fields of `Proc` that message passing uses, and what it last waited for. -/
structure Proc where
  prior : Fin 4
  status : Status
  retFrom : RetFrom
  recvQ : List Message
  sendQ : List Sent
  recvAnyQ : List Message
  wait : Wait
  deriving DecidableEq

/-- A call of `send`: who, to whom, what. -/
structure Sending where
  src : Pid
  dst : Pid
  msg : Message
  ticket : Nat
  deriving DecidableEq

/-- The message as `send` queues it: the sender's pid in `id`. -/
def Sending.entry (s : Sending) : Sent := ⟨{ s.msg with id := s.src }, s.ticket⟩

/-- A message that left the `sendQ` of `proc` to complete its `recv`: what `recv` was called with,
and what was written into its buffer, if anything. -/
structure Taken where
  proc : Pid
  want : Wait
  entry : Sent
  buffer : Option Message
  deriving DecidableEq

/-- The kernel. -/
structure Kernel where
  live : Pid → Bool
  proc : Pid → Proc
  pHead : Fin 4 → List Pid
  pCurrent : Pid
  schedReq : Bool
  quantumExceeded : Bool
  /-- A trap was handled and `schedule` comes next. -/
  trapped : Bool
  clock : Nat
  sent : List Sending
  taken : List Taken

/-- `isValid` of what `deque` returned; an empty queue returns `invMessage`. -/
def valid : Option Message → Bool
  | some m => m.isValid
  | none => false

namespace Kernel

/-- Change a process. -/
def setProc (k : Kernel) (p : Pid) (f : Proc → Proc) : Kernel :=
  { k with proc := Function.update k.proc p (f (k.proc p)) }

/-- Follow the pointer `getProc` returned. -/
def deref (k : Kernel) (p : Pid) : Res Proc := if k.live p then .ok (k.proc p) else .error .fault

/-- `PManager::enque` (`Process.cpp:61-92`). Level 0 stands for the priority of the process. -/
def enqueProc (k : Kernel) (p : Pid) (level : Fin 4) : Res Kernel :=
  match (k.proc p).status with
  | .stopped =>
    let level := if level = 0 then (k.proc p).prior else level
    .ok { k.setProc p ({ · with status := .running }) with
      pHead := Function.update k.pHead level (k.pHead level ++ [p]) }
  | .running => .ok k
  | _ => .error (.panic "enque wrong process")

/-- `PManager::deque` (`Process.cpp:94-122`). -/
def dequeProc (k : Kernel) (p : Pid) : Res Kernel :=
  match (k.proc p).status with
  | .running =>
    match ([0, 1, 2, 3] : List (Fin 4)).find? fun i => p ∈ k.pHead i with
    | some i =>
      .ok { k.setProc p ({ · with status := .stopped }) with
        pHead := Function.update k.pHead i ((k.pHead i).erase p) }
    | none => .ok k
  | .stopped => .ok k
  | _ => .error (.panic "enque wrong process")

/-- `wakeup` (`task.cpp:216-226`). -/
def wakeup (k : Kernel) (p : Pid) : Res Kernel :=
  if k.live p then do
    let k ← k.enqueProc p 0
    .ok { k with schedReq := true }
  else .error (.panic "sleep()::cannot find process ")

/-- `sleep` of the current process (`task.cpp:187-207`). -/
def sleep (k : Kernel) : Res Kernel :=
  if k.live k.pCurrent then do
    let k ← k.dequeProc k.pCurrent
    .ok { k with schedReq := true }
  else .error (.panic "sleep()::cannot find process")

/-- `psent->sendQ.enque(mess)`. -/
def push (k : Kernel) (dst : Pid) (mess : Message) : Res Kernel := do
  let psent ← k.deref dst
  let q ← enque psent.sendQ ⟨{ mess with id := k.pCurrent }, k.clock⟩
  .ok { k.setProc dst ({ · with sendQ := q }) with
    clock := k.clock + 1
    sent := ⟨k.pCurrent, dst, mess, k.clock⟩ :: k.sent }

/-- `Ipc::send` (`Ipc.cpp:12-36`). -/
def send (k : Kernel) (id : Pid) (mess : Message) : Res Kernel := do
  let myself ← k.deref k.pCurrent
  let (tmess, rest) := dequeOf (·.id = id) myself.recvQ
  let k := k.setProc k.pCurrent ({ · with recvQ := rest })
  if valid tmess then do
    let k ← k.push id mess
    k.wakeup id
  else do
    let psent ← k.deref id
    let (any, rest) := deque psent.recvAnyQ
    let k := k.setProc id ({ · with recvAnyQ := rest })
    if valid any then do
      let k ← k.push id mess
      k.wakeup id
    else do
      let ticket := k.clock
      let k ← k.push id mess
      let k := k.setProc k.pCurrent ({ · with wait := .send id ticket })
      k.sleep

/-- `Ipc::recv_later` (`Ipc.cpp:38-46`): the message goes into a local variable. -/
def recvLater (k : Kernel) : Res Kernel :=
  let myself := k.proc k.pCurrent
  match deque myself.sendQ with
  | (some e, rest) =>
    if e.msg.isValid then
      .ok { k.setProc k.pCurrent ({ · with sendQ := rest }) with
        taken := ⟨k.pCurrent, myself.wait, e, none⟩ :: k.taken }
    else .error (.panic "invalid message error at recv_later()")
  | (none, _) => .error (.panic "invalid message error at recv_later()")

/-- The entry of a waiting receiver (`Ipc.cpp:62-67`). -/
def await (k : Kernel) (id : Pid) (mess : Message) : Res Kernel :=
  if id = pidAny then do
    let q ← enque (k.proc k.pCurrent).recvAnyQ mess
    .ok (k.setProc k.pCurrent ({ · with recvAnyQ := q }))
  else do
    let precv ← k.deref id
    let q ← enque precv.recvQ mess
    .ok (k.setProc id ({ · with recvQ := q }))

/-- The wait for a message in `recv` (`Ipc.cpp:61-71`). -/
def recvWait (k : Kernel) (id : Pid) (mess : Message) : Res Kernel := do
  let k ← k.await id mess
  let k := k.setProc k.pCurrent ({ · with retFrom := .recvLater, wait := .recv id })
  k.sleep

/-- `Ipc::recv` (`Ipc.cpp:48-72`); `mess` is the caller's buffer. -/
def recv (k : Kernel) (id : Pid) (mess : Message) : Res Kernel := do
  let myself ← k.deref k.pCurrent
  let (tmess, rest) :=
    if id = pidAny then deque myself.sendQ else dequeOf (·.msg.id = id) myself.sendQ
  let k := k.setProc k.pCurrent ({ · with sendQ := rest })
  match tmess with
  | some e =>
    if e.msg.isValid then
      let k := { k with taken := ⟨k.pCurrent, .recv id, e, some e.msg⟩ :: k.taken }
      k.wakeup id
    else k.recvWait id mess
  | none => k.recvWait id mess

/-- The process `schedule` picks: the head of the first level that is not empty. -/
def next (k : Kernel) : Option (Fin 4 × Pid) :=
  ([0, 1, 2, 3] : List (Fin 4)).findSome? fun i => (k.pHead i).head?.map (i, ·)

/-- `nlevel`. -/
def nlevel (i : Fin 4) : Fin 4 := if i.val < 3 then i + 1 else 3

/-- `func()`: only `recv_later` has to do with messages. -/
def callback (k : Kernel) : RetFrom → Res Kernel
  | .recvLater => k.recvLater
  | .kernel2user => .ok k
  | .retFromFork => .ok k

/-- The `deque` in `schedule`: `p` leaves the head of level `i` (`task.cpp:90-91`). -/
def leave (k : Kernel) (i : Fin 4) (p : Pid) : Kernel :=
  { k.setProc p ({ · with status := .stopped }) with
    pHead := Function.update k.pHead i (k.pHead i).tail }

/-- `p` becomes the current process (`task.cpp:98-103`). -/
def enter (k : Kernel) (p : Pid) : Kernel :=
  { k.setProc p ({ · with retFrom := .kernel2user }) with pCurrent := p }

/-- The switch to the process `p` at the head of level `i` (`task.cpp:85-115`). -/
def switch (k : Kernel) (i : Fin 4) (p : Pid) : Res Kernel := do
  let k ← (k.leave i p).enqueProc p (nlevel i)
  let func := (k.proc p).retFrom
  if p = k.pCurrent then .ok k
  else do
    let k ← (k.enter p).callback func
    .ok (k.setProc p ({ · with wait := .none }))

/-- `schedule` (`task.cpp:73-120`). With no process on the run queues it returns to the current
one. -/
def schedule (k : Kernel) : Res Kernel :=
  if !k.schedReq && !k.quantumExceeded then .ok { k with trapped := false }
  else
    let k := { k with schedReq := false, quantumExceeded := false, trapped := false }
    match k.next with
    | some (i, p) => k.switch i p
    | none => .ok k

end Kernel

/-- The steps: a system call of the current process with its own pid in the buffer
(`irq.cpp:114-129`), the timer, and the `schedule` that ends a trap. -/
inductive Op where
  | send (id : Pid) (mess : Message)
  | recv (id : Pid) (mess : Message)
  | tick
  | schedule
  deriving DecidableEq

/-- One step. -/
def step (k : Kernel) : Op → Res Kernel
  | .send id mess => do
    let k ← k.send id { mess with id := k.pCurrent }
    .ok { k with trapped := true }
  | .recv id mess => do
    let k ← k.recv id { mess with id := k.pCurrent }
    .ok { k with trapped := true }
  | .tick => .ok { k with quantumExceeded := true, trapped := true }
  | .schedule => k.schedule

end OwnOS.Ipc
