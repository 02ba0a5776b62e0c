import Mathlib

/-!
# The timers (`Timer.h`, `Timer.cpp`, `timerHandler.cpp`)

`timer.head` is a list of entries in order of the clocks they have left. `set` inserts behind the
entries that are due no later, `timerHandler` takes one clock off each, handles those that have none
left and drops them, and `reset_quantum` replaces the entry that ends the quantum.

An entry also remembers the call of `set` that made it (`Alarm`): the how-manieth it was, at which
tick and with how many clocks. `made`, `fired` and `cancelled` record what became of the alarms. The
pid goes through a `u32_t` and comes back as the same `int`. The counters `msecond` and `second` are
left out, and `kmalloc` of an entry succeeds.
-/

namespace OwnOS

namespace Timer

/-- `Timer::type`. -/
inductive Kind where
  | invalid
  | watchDog
  | taskSwitch
  | wakeup
  deriving DecidableEq

/-- A call of `set`. -/
structure Alarm where
  kind : Kind
  prId : Int
  clocks : Int
  serial : Nat
  /-- The number of ticks before the call. -/
  born : Nat
  deriving DecidableEq

/-- `Timer::entry`: the clocks left, and what to do then. -/
structure Entry where
  clocks : Int
  alarm : Alarm
  deriving DecidableEq

end Timer

open Timer

/-- `Timer`. -/
structure Timer where
  head : List Entry
  quantumExceeded : Bool
  ticks : Nat
  serial : Nat
  made : List Alarm
  /-- In order, each with the tick that handled it. -/
  fired : List (Nat × Alarm)
  cancelled : List Alarm

namespace Timer

/-- `Timer::Timer`. -/
def init : Timer := ⟨[], false, 0, 0, [], [], []⟩

/-- The loop of `set` (`Timer.cpp:24-36`): behind all entries that are due no later. -/
def insert (e : Entry) : List Entry → List Entry
  | [] => [e]
  | x :: l => if x.clocks > e.clocks then e :: x :: l else x :: insert e l

/-- `set` (`Timer.cpp:12-37`). -/
def set (t : Timer) (clocks : Int) (kind : Kind) (prId : Int) : Timer :=
  let a : Alarm := ⟨kind, prId, clocks, t.serial, t.ticks⟩
  { t with head := insert ⟨clocks, a⟩ t.head, serial := t.serial + 1, made := a :: t.made }

/-- `passClocks` (`Timer.cpp:39-46`). -/
def passClocks (clocks : Int) (l : List Entry) : List Entry :=
  l.map fun e => { e with clocks := e.clocks - clocks }

/-- `reset_quantum` (`Timer.cpp:49-63`). -/
def resetQuantum (t : Timer) (clocks : Int) (prId : Int) : Timer :=
  let t : Timer := { t with
    head := t.head.filter (·.alarm.kind ≠ .taskSwitch)
    cancelled := (t.head.filter (·.alarm.kind = .taskSwitch)).map (·.alarm) ++ t.cancelled }
  t.set clocks .taskSwitch prId

/-- The loop of `timerHandler` (`timerHandler.cpp:13-37`): the entries it handles, and the rest. -/
def expire : List Entry → List Entry × List Entry
  | [] => ([], [])
  | e :: l => if e.clocks > 0 then ([], e :: l) else (e :: (expire l).1, (expire l).2)

/-- `timerHandler` (`timerHandler.cpp:5-38`): also what it handled, in order. The handler sets
`quantum_exceeded` for a `TaskSwitch` entry and calls `wakeup` for a `Wakeup` entry. -/
def handler (t : Timer) : Timer × List Entry :=
  let (due, rest) := expire (passClocks 1 t.head)
  ({ t with
      head := rest
      quantumExceeded := t.quantumExceeded || due.any (·.alarm.kind = .taskSwitch)
      ticks := t.ticks + 1
      fired := t.fired ++ due.map fun e => (t.ticks + 1, e.alarm) }, due)

/-- The processes that `timerHandler` calls `wakeup` for, in order. -/
def wakeups (due : List Entry) : List Int :=
  (due.filter (·.alarm.kind = .wakeup)).map (·.alarm.prId)

end Timer

end OwnOS
