import OwnOS.Sched.Calls

/-!
# The current process is runnable

`schedule` clears its two flags, looks for a queue that is not empty and, when there is none, falls
through to its caller: the current process goes on in user mode, asleep or not.

* `schedule_current`: a requested `schedule` ends with a runnable current process, taken from the
  head of the first queue that is not empty, exactly when some process is runnable. In a run in
  which this is so at every requested `schedule`, the current process is runnable after every
  `schedule`.
-/

namespace OwnOS.Sched

open Lib

variable {s s' : Sched} {p : ProcPtr} {pid : Int} {o : Op}

/-- What `schedule` promises when it goes from `s` to `s'`. -/
def Continues (s s' : Sched) : Prop :=
  ∃ k p, s'.pCurrent = some p ∧ (s'.room p).status = .running ∧ s.firstHead = some (k, p)

/-- A requested `schedule` has a process to select. -/
def Busy (s : Sched) (o : Op) : Prop :=
  o = .schedule → s.Requested → ∃ p, (s.room p).status = .running

instance : Decidable (s.Busy o) := inferInstanceAs (Decidable (_ → _ → _))

theorem switchTo_current (s : Sched) (p : ProcPtr) : (s.switchTo p).pCurrent = some p := by
  unfold Sched.switchTo
  split
  · rename_i hcur
    exact hcur
  · rfl

/-- `schedule` keeps its promise exactly when it finds a process. -/
theorem continues_iff (h : Inv s) (hreq : s.Requested) (hs : s.schedule = .ok s') :
    Continues s s' ↔ ∃ p, (s.room p).status = .running := by
  rcases schedule_inv h hs with ⟨hno, -⟩ | ⟨-, hst, rfl⟩ | ⟨-, k, p, t, hhead, hrun, hput, -, rfl⟩
  · exact absurd hreq hno
  · constructor
    · rintro ⟨k, p, -, -, hhead⟩
      rw [h.firstHead_none.mpr hst] at hhead
      exact absurd hhead (by simp)
    · rintro ⟨p, hp⟩
      exact absurd hp (hst p)
  · refine ⟨fun _ => ⟨p, hrun⟩, fun _ => ⟨k, p, switchTo_current _ p, ?_, hhead⟩⟩
    rw [switchTo_status]
    exact hput.status

/-! ## Runs -/

/-- Without a pending request the current process is runnable. -/
structure Awake (s : Sched) : Prop where
  inv : Inv s
  current : s.schedReq = false → ∀ p, s.pCurrent = some p → (s.room p).status = .running

theorem boot_awake (irqQue : Que Entry 64) : Awake (boot irqQue) where
  inv := boot_inv irqQue
  current _ p hp := absurd hp (by simp [boot])

/-- A call that requests a `schedule`. -/
theorem Awake.of_schedReq (hinv : Inv s) (hreq : s.schedReq = true) : Awake s where
  inv := hinv
  current h := absurd (hreq.symm.trans h) (by simp)

theorem wakeup_awake (h : Inv s) (hs : s.wakeup pid = .ok s') : Awake s' := by
  obtain ⟨p, t, -, -, rfl, hinv⟩ := wakeup_inv h hs
  exact Awake.of_schedReq hinv rfl

theorem sleep_awake {millisec : Int} (h : Inv s) (hs : s.sleep pid millisec = .ok s') :
    Awake s' := by
  obtain ⟨p, t, -, -, rfl, hinv⟩ := sleep_inv h hs
  exact Awake.of_schedReq hinv rfl

theorem schedule_awake (h : Awake s) (hl : s.Busy .schedule) (hs : s.schedule = .ok s') : Awake s' ∧
    ∀ p, s'.pCurrent = some p → (s'.room p).status = .running := by
  have hinv : Inv s' := h.inv.step (o := .schedule) hs
  have hcur : ∀ p, s'.pCurrent = some p → (s'.room p).status = .running := by
    by_cases hreq : s.Requested
    · obtain ⟨k, q, hq, hrun, -⟩ := (continues_iff h.inv hreq hs).mpr (hl rfl hreq)
      intro p hp
      obtain rfl := Option.some.inj (hq.symm.trans hp)
      exact hrun
    · rcases schedule_inv h.inv hs with ⟨-, rfl⟩ | ⟨hreq', -⟩ | ⟨hreq', -⟩
      · have hno : s'.schedReq = false := by
          rw [← Bool.not_eq_true]
          exact fun hsched => hreq (Or.inl hsched)
        exact h.current hno
      · exact absurd hreq' hreq
      · exact absurd hreq' hreq
  exact ⟨⟨hinv, fun _ => hcur⟩, hcur⟩

theorem Awake.step (h : Awake s) (hl : s.Busy o) (hs : Sched.step s o = .ok s') : Awake s' := by
  cases o with
  | initTasks =>
    obtain ⟨pinit, pkernel, t, -, -, -, hput, rfl, hinv⟩ := initTasks_inv h.inv hs
    refine ⟨hinv, fun _ p hp => ?_⟩
    obtain rfl := Option.some.inj hp
    exact hput.status
  | fork =>
    obtain ⟨current, clone, -, -, hinv, hs⟩ := fork_inv h.inv hs
    exact wakeup_awake hinv hs
  | sleep pid millisec => exact sleep_awake h.inv hs
  | sleepCallback callback =>
    obtain ⟨p, -, hinv, hs⟩ := sleepCallback_inv h.inv hs
    exact sleep_awake hinv hs
  | wakeup pid => exact wakeup_awake h.inv hs
  | waitInterrupt irq =>
    obtain ⟨p, irqQue, -, hinv, hs⟩ := waitInterrupt_inv h.inv hs
    exact sleep_awake hinv hs
  | notify irq =>
    obtain ⟨e, irqQue, -, hinv, ⟨-, rfl⟩ | ⟨-, hs⟩⟩ := notify_inv h.inv hs
    · exact ⟨hinv, h.current⟩
    · exact wakeup_awake hinv hs
  | tick =>
    have hawake : Awake { s with timer := s.timer.handler.1 } :=
      ⟨h.inv.congr rfl rfl fun _ => rfl, h.current⟩
    refine wakeDue_induction (l := s.timer.handler.2) (fun _ h => h.inv) ?_ hawake hs
    intro s pid s' h hs
    exact wakeup_awake h.inv hs
  | schedule => exact (schedule_awake h hl hs).1

theorem run_awake {irqQue : Que Entry 64} {os : List Op} (hr : Run step Busy (boot irqQue) os s) :
    Awake s :=
  hr.invariant (fun _ _ _ hi hl hs => hi.step hl hs) (boot_awake irqQue)

/-- **When the running process is runnable**: in every run, a requested `schedule` goes on with a
runnable process from the head of the first queue that is not empty, exactly if some process is
runnable; and in every run in which this is so at each requested `schedule`, whoever is current
after a `schedule` is runnable. -/
theorem schedule_current (irqQue : Que Entry 64) (os : List Op) (s s' : Sched) :
    (Run step Any (boot irqQue) os s → s.Requested → s.schedule = .ok s' →
      (Continues s s' ↔ ∃ p, (s.room p).status = .running)) ∧
    (Run step Busy (boot irqQue) os s → s.Busy .schedule → s.schedule = .ok s' →
      ∀ p, s'.pCurrent = some p → (s'.room p).status = .running) := by
  constructor
  · intro hr hreq hs
    exact continues_iff (run_inv hr) hreq hs
  · intro hr hl hs
    exact (schedule_awake (run_awake hr) hl hs).2

/-- A process that forks and goes to sleep. -/
def forkThenSleep : List Op := [.initTasks, .fork, .sleep 1 (-1)]

theorem schedule_current_forkThenSleep : ∃ s s', Run step Busy (boot irqQueInit) forkThenSleep s ∧
    s.schedule = .ok s' ∧ s'.pCurrent = some 2 ∧ (s'.room 2).status = .running := by
  have hplay : ((play step Busy (boot irqQueInit) forkThenSleep).bind fun s =>
      s.schedule.toOption.map fun s' => (decide (s.Busy .schedule), s'.pCurrent)) =
        some (true, some 2) := by
    decide +kernel
  obtain ⟨s, hs, hsched⟩ := Option.bind_eq_some_iff.mp hplay
  obtain ⟨s', hs', hp⟩ := Option.map_eq_some_iff.mp hsched
  obtain ⟨hl, hcur⟩ := Prod.mk.inj hp
  have hok := Res.of_toOption hs'
  exact ⟨s, s', run_of_play hs, hok, hcur, (schedule_current irqQueInit forkThenSleep s s').2
    (run_of_play hs) (of_decide_eq_true hl) hok 2 hcur⟩

/-- The only process goes to sleep: it is current and asleep after the `schedule` it requested. -/
theorem lastSleeper_continues :
    ∃ s s', Run step Any (boot irqQueInit) [.initTasks, .sleep 1 (-1)] s ∧
    s.Requested ∧ s.schedule = .ok s' ∧ ¬Continues s s' ∧ s'.pCurrent = some 0 ∧
    (s'.room 0).status = .stopped := by
  have hplay : ((play step Any (boot irqQueInit) [.initTasks, .sleep 1 (-1)]).bind fun s =>
      s.schedule.toOption.map fun s' =>
        (decide s.Requested, s.firstHead, s'.pCurrent, (s'.room 0).status)) =
        some (true, none, some 0, .stopped) := by
    decide +kernel
  obtain ⟨s, hs, hsched⟩ := Option.bind_eq_some_iff.mp hplay
  obtain ⟨s', hs', hp⟩ := Option.map_eq_some_iff.mp hsched
  simp only [Prod.mk.injEq] at hp
  obtain ⟨hreq, hhead, hcur, hst⟩ := hp
  have hok := Res.of_toOption hs'
  refine ⟨s, s', run_of_play hs, of_decide_eq_true hreq, hok, ?_, hcur, hst⟩
  rintro ⟨k, p, -, -, hsome⟩
  exact absurd (hhead.symm.trans hsome) (by simp)

end OwnOS.Sched
