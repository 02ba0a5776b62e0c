import OwnOS.Context.Quiet
import OwnOS.Sched.Interrupts

/-!
# `PID_KERNEL` never runs

`init_tasks` makes a process for the kernel that has no stack frame to run from. It sleeps from the
start: nobody waits for an interrupt, no timer is set for it, and the calls of `Ipc::send` and
`Ipc::recv` wake others (`Idle`).
-/

namespace OwnOS.Context

open Lib Sched

variable {s s' : Sched} {p : ProcPtr} {irqNo : Int} {irq : Irq} {nr : UInt32} {e : Env} {op : Op}

/-- `PID_KERNEL` sleeps, and nothing is there that would wake it. -/
structure Idle (s : Sched) : Prop where
  waiters : Waiters s []
  asleep : ∀ p, s.isFree p = false → (s.room p).id = -1 → (s.room p).status = .stopped
  timeout : s.NoTimeout (-1)

theorem Idle.inv (h : Idle s) : Inv s := h.waiters.inv

/-- A step that does not wake it. -/
theorem Idle.keep {pids : List Int} (h : Idle s) (hinv : Inv s') (hn : Named s')
    (hst : Stays s s' pids) (hque : s'.irqQue = s.irqQue) (hpids : -1 ∉ pids)
    (ht : s'.NoTimeout (-1))
    (hnew : ∀ p, s.isFree p = true → s'.isFree p = false → (s'.room p).id ≠ -1) : Idle s' := by
  obtain ⟨hd, tl, ids, hrep, hids, hinvalid⟩ := h.waiters.que
  refine ⟨⟨hinv, hn, ⟨hd, tl, ids, ?_, ?_, ?_⟩, fun _ he => absurd he List.not_mem_nil,
    List.nodup_nil⟩, fun p hp hid => ?_, ht⟩
  · rwa [hque]
  · rwa [hque]
  · rwa [hque]
  · cases hf : s.isFree p with
    | true => exact absurd hid (hnew p hf hp)
    | false =>
      obtain ⟨-, hsame⟩ := hst.used p hf
      have hid' : (s.room p).id = -1 := hsame.symm.trans hid
      exact hst.asleep p hf (hid' ▸ hpids) (h.asleep p hf hid')

/-! ## The timers -/

/-- The list of timers after `set`. -/
theorem noTimeout_set {t : Timer} {clocks prId pid : Int} {kind : Timer.Kind}
    (h : ∀ e ∈ t.head, ¬(e.alarm.kind = .wakeup ∧ e.alarm.prId = pid))
    (hk : ¬(kind = .wakeup ∧ prId = pid)) :
    ∀ e ∈ (t.set clocks kind prId).head, ¬(e.alarm.kind = .wakeup ∧ e.alarm.prId = pid) := by
  intro e he
  rcases List.mem_cons.mp ((Timer.insert_perm _ _).mem_iff.mp he) with rfl | he
  · exact hk
  · exact h e he

theorem noTimeout_resetQuantum {t : Timer} {clocks prId pid : Int}
    (h : ∀ e ∈ t.head, ¬(e.alarm.kind = .wakeup ∧ e.alarm.prId = pid)) :
    ∀ e ∈ (t.resetQuantum clocks prId).head, ¬(e.alarm.kind = .wakeup ∧ e.alarm.prId = pid) :=
  noTimeout_set (fun e he => h e (List.mem_of_mem_filter he)) fun hk => absurd hk.1 (by simp)

theorem noTimeout_sleepTimer {t : Timer} {millisec prId pid : Int}
    (h : ∀ e ∈ t.head, ¬(e.alarm.kind = .wakeup ∧ e.alarm.prId = pid)) (hne : prId ≠ pid) :
    ∀ e ∈ (sleepTimer t prId millisec).head, ¬(e.alarm.kind = .wakeup ∧ e.alarm.prId = pid) := by
  unfold sleepTimer
  split
  · exact noTimeout_set h fun hk => hne hk.2
  · exact h

/-- What is due, and what is left, was in the list before. -/
theorem mem_handler {t : Timer} {x : Timer.Entry} (h : x ∈ t.handler.2 ∨ x ∈ t.handler.1.head) :
    ∃ x₀ ∈ t.head, x₀.alarm = x.alarm := by
  have hmem : x ∈ Timer.passClocks 1 t.head := by
    rw [← Timer.expire_append (Timer.passClocks 1 t.head)]
    exact List.mem_append.mpr h
  obtain ⟨x₀, hx₀, rfl⟩ := List.mem_map.mp hmem
  exact ⟨x₀, hx₀, rfl⟩

/-! ## The calls -/

theorem Idle.ipcCall (h : Idle s) (hop : IpcCall op) (hs : Sched.step s op = .ok s') : Idle s' := by
  obtain ⟨hq, hinv⟩ := quiet_ipcCall h.inv hop hs
  obtain ⟨hn, hst, hque⟩ := h.waiters.named.step h.inv
    (fun irqNo ho => by rw [ho] at hop; exact hop)
    (fun irqNo ho => by rw [ho] at hop; exact hop) (fun ho => by rw [ho] at hop; exact hop.elim) hs
  obtain ⟨htimer, -⟩ := step_timer h.inv hs
  have hnew : ∀ p, s.isFree p = true → s'.isFree p = false → (s'.room p).id ≠ -1 := by
    intro p hp hp'
    rw [hq.isFree, hp] at hp'
    exact absurd hp' (by simp)
  cases op with
  | wakeup pid =>
    refine h.keep hinv hn hst hque ?_ ?_ hnew
    · exact fun hmem => hop (List.mem_singleton.mp hmem).symm
    · rw [Sched.NoTimeout, htimer]
      exact h.timeout
  | sleep pid millisec =>
    refine h.keep hinv hn hst hque List.not_mem_nil ?_ hnew
    rw [Sched.NoTimeout, htimer]
    exact noTimeout_sleepTimer h.timeout hop
  | sleepCallback f =>
    refine h.keep hinv hn hst hque List.not_mem_nil ?_ hnew
    rw [Sched.NoTimeout, htimer]
    exact h.timeout
  | initTasks | fork | waitInterrupt irqNo | notify irqNo | tick | schedule => exact hop.elim

theorem Idle.calls {ops : List Op} (h : Idle s) (hops : ∀ op ∈ ops, IpcCall op)
    (hs : calls s ops = .ok s') : Idle s' := by
  induction ops generalizing s with
  | nil =>
    obtain rfl := Except.ok.inj hs
    exact h
  | cons op ops ih =>
    obtain ⟨t, ht, hs⟩ := Res.bind_eq_ok.mp hs
    exact ih (h.ipcCall (hops op List.mem_cons_self) ht)
      (fun op hop => hops op (List.mem_cons_of_mem _ hop)) hs

theorem Idle.fork (h : Idle s) (hs : s.fork = .ok s') : Idle s' := by
  obtain ⟨current, clone, -, -, hforked, hinv⟩ := fork_forked h.inv hs
  obtain ⟨hn, hst, hque⟩ := fork_stays h.inv h.waiters.named hs
  have hgen := h.waiters.named.gen
  refine h.keep hinv hn hst hque ?_ ?_ fun p hp hp' => ?_
  · intro hmem
    have := List.mem_singleton.mp hmem
    omega
  · rw [Sched.NoTimeout, (step_timer (o := .fork) h.inv hs).1]
    exact h.timeout
  · by_cases hpc : p = clone
    · rw [hpc, hforked.id]
      omega
    · rw [hforked.isFree, Function.update_of_ne hpc, hp] at hp'
      exact absurd hp' (by simp)

theorem Idle.tick (h : Idle s) (hs : s.tick = .ok s') : Idle s' := by
  obtain ⟨hq, hinv⟩ := quiet_tick h.inv hs
  obtain ⟨hn, hst, hque⟩ := h.waiters.named.step (o := .tick) h.inv (fun _ => Op.noConfusion)
    (fun _ => Op.noConfusion) (fun ho => Op.noConfusion ho) hs
  refine h.keep hinv hn hst hque ?_ ?_ fun p hp hp' => ?_
  · intro hmem
    obtain ⟨x, hx, hid⟩ := List.mem_map.mp hmem
    obtain ⟨hx, hk⟩ := List.mem_filter.mp hx
    obtain ⟨x₀, hx₀, he⟩ := mem_handler (Or.inl hx)
    exact h.timeout x₀ hx₀ ⟨he ▸ of_decide_eq_true hk, he ▸ hid⟩
  · rw [Sched.NoTimeout, (step_timer (o := .tick) h.inv hs).1]
    intro x hx
    obtain ⟨x₀, hx₀, he⟩ := mem_handler (Or.inr hx)
    rw [← he]
    exact h.timeout x₀ hx₀
  · rw [hq.isFree, hp] at hp'
    exact absurd hp' (by simp)

/-- Nobody waits for the interrupt. -/
theorem Idle.notify (h : Idle s) (hs : s.notify irqNo = .ok s') : Idle s' := by
  obtain ⟨irqQue, hq, -⟩ := h.waiters.dequeOf irqNo
  have halone : Alone [] irqNo := Nat.zero_le _
  have hw := h.waiters.notify_alone halone hs
  have hsame : s' = { s with irqQue := irqQue } := by
    unfold Sched.notify at hs
    rw [hq] at hs
    exact (Except.ok.inj hs).symm
  refine ⟨hw, ?_, ?_⟩
  · rw [hsame]
    exact h.asleep
  · rw [hsame]
    exact h.timeout

theorem Idle.schedule (h : Idle s) (hs : s.schedule = .ok s') : Idle s' := by
  have hinv := h.inv.step (o := .schedule) hs
  obtain ⟨hn, hst, hque⟩ := schedule_stays h.inv h.waiters.named hs
  have hfree := schedule_isFree h.inv hs
  refine h.keep hinv hn hst hque List.not_mem_nil ?_ fun p hp hp' => ?_
  · rw [Sched.NoTimeout, (step_timer (o := .schedule) h.inv hs).1]
    simp only [Sched.timerOf]
    split
    · split
      · exact h.timeout
      · exact noTimeout_resetQuantum h.timeout
    · exact h.timeout
  · rw [hfree, hp] at hp'
    exact absurd hp' (by simp)

/-- **Every handler leaves it asleep.** -/
theorem Idle.handled (h : Idle s) (hops : ∀ op ∈ e.ops, IpcCall op)
    (hs : handled s irq nr e = .ok s') : Idle s' := by
  unfold Context.handled at hs
  cases irq with
  | timer => exact h.tick hs
  | keyboard => exact h.notify hs
  | call =>
    dsimp only at hs
    split_ifs at hs with h0 h12 h3
    · exact Except.ok.inj hs ▸ h
    · exact h.calls hops hs
    · exact h.fork hs
    · exact Except.ok.inj hs ▸ h

/-! ## From the start -/

/-- `init_tasks` lets it sleep. -/
theorem Idle.start {prev : Que.Ptr 64 → Option (Que.Ptr 64)} {content : Que.Ptr 64 → Entry}
    {irqQue : Que Entry 64} (hq : Que.init (-1, -2) prev content = .ok irqQue)
    (hs : (boot irqQue).initTasks = .ok s') : Idle s' := by
  have hw := boot_waiters hq
  obtain ⟨pinit, pkernel, t, -, -, hne, hput, heq, hinv⟩ := initTasks_inv hw.inv hs
  obtain ⟨hn, -, hque⟩ := initTasks_stays hw.inv hw.named (fun _ => rfl) hs
  obtain ⟨hd, tl, ids, hrep, hids, hinvalid⟩ := hw.que
  refine ⟨⟨hinv, hn, ⟨hd, tl, ids, ?_, ?_, ?_⟩, fun _ he => absurd he List.not_mem_nil,
    List.nodup_nil⟩, fun p hp hid => ?_, ?_⟩
  · rwa [hque]
  · rwa [hque]
  · rwa [hque]
  · have hroom : s'.room p = t.room p := by rw [heq]
    have hused : t.isFree p = false := by
      rw [heq] at hp
      exact hp
    rw [hroom] at hid ⊢
    by_cases hpi : p = pinit
    · rw [hpi, hput.moves.id, Sched.withProc, Sched.withProc] at hid
      dsimp only at hid
      rw [Function.update_of_ne hne, Function.update_self] at hid
      exact absurd hid (by decide)
    rw [hput.others p hpi]
    by_cases hpk : p = pkernel
    · rw [hpk, Sched.withProc]
      dsimp only
      rw [Function.update_self]
      rfl
    · rw [hput.moves.same] at hused
      dsimp only [Sched.withProc] at hused
      rw [Function.update_of_ne hpk, Function.update_of_ne hpi] at hused
      exact absurd hused (by simp [boot])
  · rw [Sched.NoTimeout, (step_timer (o := .initTasks) hw.inv hs).1]
    exact noTimeout_resetQuantum fun _ he => absurd he List.not_mem_nil

end OwnOS.Context
