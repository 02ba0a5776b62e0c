import OwnOS.Sched.Calls

/-!
# The clock (`Timer.h:26-27`, `timerHandler.cpp:6-10`)

`timerHandler` first adds the 10 milliseconds of a tick to `msecond` and carries to `second` when
`msecond` is greater than 1000. `msecond` is a `u8_t`: it never is, and wraps at 256.

* `iterate_advance`: after `n` ticks `second` is 0 and `msecond` is `10 * n` modulo 256.
* `clock_counts_iff`: **in every run from boot the clock shows the time that has passed exactly for
  the first 25 ticks.**
-/

namespace OwnOS

open Lib

/-- `Timer::msecond` and `Timer::second`. -/
structure Clock where
  msecond : UInt8
  second : UInt32
  deriving DecidableEq

namespace Clock

/-- `Timer::interval`. -/
def interval : Nat := 10

/-- `Timer::Timer`. -/
def init : Clock := ⟨0, 0⟩

/-- The first statements of `timerHandler`. The sum is an `int` that goes back into a `u8_t`. -/
def advance (c : Clock) : Clock :=
  let c := { c with msecond := UInt8.ofNat (c.msecond.toNat + interval) }
  if c.msecond.toNat > 1000 then ⟨0, c.second + 1⟩ else c

/-- The clock shows the time of `n` ticks. -/
def Counts (c : Clock) (n : Nat) : Prop :=
  c.second.toNat * 1000 + c.msecond.toNat = n * interval ∧ c.msecond.toNat < 1000

instance (c : Clock) (n : Nat) : Decidable (c.Counts n) := inferInstanceAs (Decidable (_ ∧ _))

/-! ## The counters -/

/-- The test for a carry fails for every value of a `u8_t`. -/
theorem advance_eq (c : Clock) :
    c.advance = ⟨UInt8.ofNat (c.msecond.toNat + interval), c.second⟩ := by
  have hlt : (UInt8.ofNat (c.msecond.toNat + interval)).toNat < 256 := UInt8.toNat_lt _
  unfold advance
  exact if_neg (by simp only; omega)

/-- **The clock after `n` ticks.** -/
theorem iterate_advance (n : Nat) : (advance^[n] init).second = 0 ∧
    (advance^[n] init).msecond.toNat = n * interval % 256 := by
  induction n with
  | zero => exact ⟨rfl, rfl⟩
  | succ n ih =>
    obtain ⟨hs, hm⟩ := ih
    rw [Function.iterate_succ_apply', advance_eq]
    refine ⟨hs, ?_⟩
    simp only [UInt8.toNat_ofNat', hm, interval]
    omega

theorem counts_iterate_iff (n : Nat) : (advance^[n] init).Counts n ↔ n ≤ 25 := by
  obtain ⟨hs, hm⟩ := iterate_advance n
  have h0 : (0 : UInt32).toNat = 0 := rfl
  unfold Counts
  rw [hs, hm, h0]
  unfold interval
  constructor
  · rintro ⟨hcount, -⟩
    omega
  · intro hn
    omega

/-! ## Runs -/

/-- One call into the scheduler, with the clock. -/
def step (x : Sched × Clock) (o : Sched.Op) : Res (Sched × Clock) := do
  let s ← x.1.step o
  .ok (s, if o = .tick then x.2.advance else x.2)

/-- Every call may be made at any time. -/
def Any (x : Sched × Clock) (o : Sched.Op) : Prop := Sched.Any x.1 o

instance (x : Sched × Clock) (o : Sched.Op) : Decidable (Any x o) := isTrue trivial

/-- Only ticks move the clock. -/
theorem run_clock {x x' : Sched × Clock} {os : List Sched.Op} (hr : Run step Any x os x') :
    x'.2 = advance^[os.count .tick] x.2 := by
  induction hr with
  | nil x => rfl
  | cons _ hs _ ih =>
    obtain ⟨s', -, hx⟩ := Res.bind_eq_ok.mp hs
    obtain rfl := Except.ok.inj hx
    rw [ih, List.count_cons]
    split <;> simp_all

variable {irqQue : Que Sched.Entry 64} {os : List Sched.Op} {s : Sched} {c : Clock}

/-- **When the clock counts real time**: up to the 25th tick after boot. -/
theorem clock_counts_iff (hr : Run step Any (Sched.boot irqQue, init) os (s, c)) :
    c.Counts (os.count .tick) ↔ os.count .tick ≤ 25 := by
  have hc : c = advance^[os.count .tick] init := run_clock hr
  rw [hc]
  exact counts_iterate_iff _

theorem clock_counts_three : ∃ s c, Run step Any (Sched.boot Sched.irqQueInit, init)
    [.initTasks, .tick, .fork, .tick, .schedule, .tick] (s, c) ∧ c.Counts 3 := by
  have hplay : (play step Any (Sched.boot Sched.irqQueInit, init)
      [.initTasks, .tick, .fork, .tick, .schedule, .tick]).isSome = true := by
    decide +kernel
  obtain ⟨⟨s, c⟩, hs⟩ := Option.isSome_iff_exists.mp hplay
  exact ⟨s, c, run_of_play hs, (clock_counts_iff (run_of_play hs)).mpr (by decide)⟩

/-- After 260 milliseconds the clock shows 4. -/
theorem clock_loses :
    ∃ s, Run step Any (Sched.boot Sched.irqQueInit, init) (List.replicate 26 .tick)
    (s, ⟨4, 0⟩) ∧ ¬ Counts ⟨4, 0⟩ 26 := by
  have hplay :
      (play step Any (Sched.boot Sched.irqQueInit, init) (List.replicate 26 .tick)).map (·.2) =
      some ⟨4, 0⟩ := by
    decide +kernel
  obtain ⟨⟨s, c⟩, hs, rfl⟩ := Option.map_eq_some_iff.mp hplay
  exact ⟨s, run_of_play hs, by decide⟩

end Clock

end OwnOS
