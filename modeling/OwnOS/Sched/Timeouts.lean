import OwnOS.Sched.Calls
import OwnOS.Timer.Firing

/-!
# Timeouts and early wake-ups

`wakeup` never looks at the timer list, so a timeout that was set by `sleep(pid, millisec)` stays
there until it runs out, whoever wakes the process before.

* `wakes`, `timerOf`: the pids a call wakes and the timer it leaves, from the state before it.
* `wakeup_cancels`: after a call that wakes `pid` there is no `Wakeup` entry for `pid` exactly when
  every timeout `pid` was ever put to sleep with has run out. In a run in which this holds at every
  wake-up, a tick wakes a process only by a timer that was set since the process was last woken.
-/

namespace OwnOS.Sched

open Lib

variable {s s' : Sched} {p : ProcPtr} {pid : Int} {o : Op}

/-- The timer after a call. -/
def timerOf (s : Sched) : Op → Timer
  | .initTasks => s.timer.resetQuantum (interval 0) 1
  | .sleep pid millisec => sleepTimer s.timer pid millisec
  | .tick => s.timer.handler.1
  | .schedule =>
    if s.Requested then
      match s.firstHead with
      | none => s.clearFlags.timer
      | some (k, p) => s.clearFlags.timer.resetQuantum (interval (nlevel k)) (s.room p).id
    else s.timer
  | _ => s.timer

/-- The processes a call wakes. -/
def wakes (s : Sched) : Op → List Int
  | .fork => [s.pidGen]
  | .wakeup pid => [pid]
  | .notify irq =>
    match s.irqQue.dequeOf (fun x y => x.1 == y.1) (irq, 0) with
    | .ok (e, _) => if e.1 = -1 then [] else [e.2]
    | .error _ => []
  | .tick => (s.timer.handler.2.filter (·.alarm.kind = .wakeup)).map (·.alarm.prId)
  | _ => []

/-- No `Wakeup` entry for `pid` is in the timer list. -/
def NoTimeout (s : Sched) (pid : Int) : Prop :=
  ∀ e ∈ s.timer.head, ¬(e.alarm.kind = .wakeup ∧ e.alarm.prId = pid)

instance : Decidable (s.NoTimeout pid) := inferInstanceAs (Decidable (∀ e ∈ s.timer.head, _))

/-- Every timeout `pid` was put to sleep with has run out by the tick `now`. -/
def RunOut (s : Sched) (pid : Int) (now : Nat) : Prop :=
  ∀ a ∈ s.timer.made, a.kind = .wakeup ∧ a.prId = pid → a.due ≤ now

instance {now : Nat} : Decidable (s.RunOut pid now) :=
  inferInstanceAs (Decidable (∀ a ∈ s.timer.made, _))

/-- The tick at which a call ends. -/
def now (s : Sched) (o : Op) : Nat := if o = .tick then s.timer.ticks + 1 else s.timer.ticks

/-- A process is only woken when its timeouts have run out. -/
def Unhurried (s : Sched) (o : Op) : Prop := ∀ pid ∈ s.wakes o, s.RunOut pid (s.now o)

instance : Decidable (s.Unhurried o) := inferInstanceAs (Decidable (∀ pid ∈ s.wakes o, _))

/-! ## What the calls do to the timer -/

theorem wakeup_timer (h : Inv s) (hs : s.wakeup pid = .ok s') : s'.timer = s.timer ∧
    s'.woken = (pid, s.timer.serial) :: s.woken := by
  obtain ⟨p, t, -, hput, rfl, -⟩ := wakeup_inv h hs
  exact ⟨hput.moves.timer, rfl⟩

theorem sleep_timer {millisec : Int} (h : Inv s) (hs : s.sleep pid millisec = .ok s') :
    s'.timer = sleepTimer s.timer pid millisec ∧ s'.woken = s.woken := by
  obtain ⟨p, t, -, hput, rfl, -⟩ := sleep_inv h hs
  refine ⟨rfl, ?_⟩
  rw [hput.moves.same]

/-- The wake-ups of a tick are logged and leave the timer alone. -/
theorem wakeDue_timer : ∀ {l : List Timer.Entry} {s : Sched}, Inv s → s.wakeDue l = .ok s' →
    s'.timer = s.timer ∧ s'.woken = ((l.filter (·.alarm.kind = .wakeup)).map
      fun e => (e.alarm.prId, s.timer.serial)).reverse ++ s.woken
  | [], s, _, hs => by
    obtain rfl := Except.ok.inj hs
    exact ⟨rfl, rfl⟩
  | e :: l, s, h, hs => by
    unfold Sched.wakeDue at hs
    split at hs
    · rename_i hk
      obtain ⟨t, ht, hs⟩ := Res.bind_eq_ok.mp hs
      obtain ⟨-, -, -, -, -, hinv⟩ := wakeup_inv h ht
      obtain ⟨htt, htw⟩ := wakeup_timer h ht
      obtain ⟨hst, hsw⟩ := wakeDue_timer hinv hs
      refine ⟨hst.trans htt, ?_⟩
      rw [hsw, htt, htw]
      simp [hk]
    · rename_i hk
      obtain ⟨hst, hsw⟩ := wakeDue_timer h hs
      refine ⟨hst, ?_⟩
      rw [hsw]
      simp [show e.alarm.kind ≠ .wakeup from hk]

/-- **The timer and the log after a call.** -/
theorem step_timer (h : Inv s) (hs : Sched.step s o = .ok s') : s'.timer = s.timerOf o ∧
    s'.woken = ((s.wakes o).map fun pid => (pid, s.timer.serial)).reverse ++ s.woken := by
  cases o with
  | initTasks =>
    obtain ⟨pinit, pkernel, t, -, -, hne, hput, rfl, -⟩ := initTasks_inv h hs
    have hid : (t.room pinit).id = 1 := by
      rw [hput.moves.id pinit]
      simp [withProc, hne, procInit]
    refine ⟨?_, ?_⟩
    · simp only [hid]
      rfl
    · rw [hput.moves.same]
      rfl
  | fork =>
    obtain ⟨current, clone, -, -, hinv, hs⟩ := fork_inv h hs
    obtain ⟨htt, htw⟩ := wakeup_timer hinv hs
    exact ⟨htt, htw⟩
  | sleep pid millisec => exact sleep_timer h hs
  | sleepCallback callback =>
    obtain ⟨p, -, hinv, hs⟩ := sleepCallback_inv h hs
    exact sleep_timer hinv hs
  | wakeup pid => exact wakeup_timer h hs
  | waitInterrupt irq =>
    obtain ⟨p, irqQue, -, hinv, hs⟩ := waitInterrupt_inv h hs
    exact sleep_timer hinv hs
  | notify irq =>
    obtain ⟨e, irqQue, he, hinv, ⟨h1, rfl⟩ | ⟨h1, hs⟩⟩ := notify_inv h hs
    · refine ⟨rfl, ?_⟩
      simp [wakes, he, h1]
    · obtain ⟨htt, htw⟩ := wakeup_timer hinv hs
      refine ⟨htt, ?_⟩
      rw [htw]
      simp [wakes, he, h1]
  | tick =>
    have hinv : Inv { s with timer := s.timer.handler.1 } := h.congr rfl rfl fun _ => rfl
    obtain ⟨htt, htw⟩ := wakeDue_timer (l := s.timer.handler.2) hinv hs
    refine ⟨htt, ?_⟩
    rw [htw, wakes, List.map_map]
    rfl
  | schedule =>
    rcases schedule_inv h hs with ⟨hreq, rfl⟩ | ⟨hreq, hst, rfl⟩ |
      ⟨hreq, k, p, t, hhead, -, hput, -, rfl⟩
    · simp [timerOf, wakes, hreq]
    · have hhead := h.firstHead_none.mpr hst
      simp [timerOf, wakes, hreq, hhead, clearFlags]
    · have hsame : ∀ u : Sched, (u.switchTo p).timer = u.timer ∧
          (u.switchTo p).woken = u.woken := by
        intro u
        unfold Sched.switchTo
        split <;> exact ⟨rfl, rfl⟩
      obtain ⟨htt, htw⟩ := hsame (s.requeued t k p)
      refine ⟨?_, ?_⟩
      · rw [htt]
        simp [timerOf, hreq, hhead, requeued]
      · rw [htw]
        simp only [requeued, wakes]
        rw [hput.moves.same]
        rfl

/-! ## The timer along a run -/

/-- The flag is not part of the timer's invariant. -/
theorem timer_inv_flag {t : Timer} (h : t.Inv) (b : Bool) :
    Timer.Inv { t with quantumExceeded := b } :=
  ⟨h.left, h.order, h.oneSwitch, h.account, h.fresh, h.serials, h.onTime, h.handled, h.cancelled⟩

theorem interval_nonneg (k : Level) : 0 ≤ interval k := Int.natCast_nonneg _

theorem timerOf_inv (h : s.timer.Inv) (o : Op) : (s.timerOf o).Inv := by
  have hclear : s.clearFlags.timer.Inv := timer_inv_flag h false
  cases o with
  | initTasks => exact h.resetQuantum (interval_nonneg 0)
  | sleep pid millisec =>
    change (sleepTimer s.timer pid millisec).Inv
    unfold sleepTimer
    split
    · rename_i hpos
      exact h.set (Int.tdiv_nonneg (Int.le_of_lt hpos) (by decide)) (Or.inl (by decide))
    · exact h
  | tick => exact h.handler
  | schedule =>
    change Timer.Inv (if s.Requested then _ else _)
    split
    · split
      · exact hclear
      · exact hclear.resetQuantum (interval_nonneg _)
    · exact h
  | fork => exact h
  | sleepCallback callback => exact h
  | wakeup pid => exact h
  | waitInterrupt irq => exact h
  | notify irq => exact h

/-- A call that wakes somebody sets no timer, and ends at the tick `now`. -/
theorem timerOf_wakes (hw : s.wakes o ≠ []) : (s.timerOf o).made = s.timer.made ∧
    (s.timerOf o).ticks = s.now o := by
  cases o with
  | fork => exact ⟨rfl, rfl⟩
  | wakeup pid => exact ⟨rfl, rfl⟩
  | notify irq => exact ⟨rfl, rfl⟩
  | tick => exact ⟨rfl, rfl⟩
  | initTasks => exact absurd rfl hw
  | sleep pid millisec => exact absurd rfl hw
  | sleepCallback callback => exact absurd rfl hw
  | waitInterrupt irq => exact absurd rfl hw
  | schedule => exact absurd rfl hw

/-- A timer list keeps an alarm until it is due. -/
theorem timer_noWakeup {t : Timer} (h : t.Inv) (pid : Int) :
    (∀ e ∈ t.head, ¬(e.alarm.kind = .wakeup ∧ e.alarm.prId = pid)) ↔
      ∀ a ∈ t.made, a.kind = .wakeup ∧ a.prId = pid → a.due ≤ t.ticks := by
  constructor
  · intro hnone a ha hpid
    rcases List.mem_append.mp (h.account.mem_iff.mp ha) with hm | hm
    · obtain ⟨e, he, rfl⟩ := List.mem_map.mp hm
      exact absurd hpid (hnone e he)
    · rcases List.mem_append.mp hm with hm | hm
      · obtain ⟨x, hx, rfl⟩ := List.mem_map.mp hm
        obtain ⟨hdue, hle⟩ := h.onTime x hx
        exact hdue ▸ hle
      · exact absurd (hpid.1.symm.trans (h.cancelled a hm)) (by decide)
  · intro hall e he hpid
    have hmade := h.account.mem_iff.mpr (List.mem_append_left _ (List.mem_map_of_mem he))
    exact absurd (hall _ hmade hpid) (Nat.not_le.mpr (h.left e he).2)

/-- An alarm in the list after a call was in it before, or was set by the call. -/
theorem timerOf_head (o : Op) : ∀ e ∈ (s.timerOf o).head,
    (∃ e₀ ∈ s.timer.head, e₀.alarm = e.alarm) ∨ e.alarm.serial = s.timer.serial := by
  have hset : ∀ (t : Timer) (c : Int) (k : Timer.Kind) (pr : Int), ∀ e ∈ (t.set c k pr).head,
      e ∈ t.head ∨ e.alarm.serial = t.serial := by
    intro t c k pr e he
    rcases List.mem_cons.mp ((Timer.insert_perm _ _).mem_iff.mp he) with rfl | he
    · exact Or.inr rfl
    · exact Or.inl he
  have hreset : ∀ (c pr : Int), ∀ e ∈ (s.timer.resetQuantum c pr).head,
      (∃ e₀ ∈ s.timer.head, e₀.alarm = e.alarm) ∨ e.alarm.serial = s.timer.serial := by
    intro c pr e he
    rcases hset _ _ _ _ e he with he | he
    · exact Or.inl ⟨e, List.mem_of_mem_filter he, rfl⟩
    · exact Or.inr he
  intro e he
  cases o with
  | initTasks => exact hreset _ _ e he
  | sleep pid millisec =>
    change e ∈ (sleepTimer s.timer pid millisec).head at he
    unfold sleepTimer at he
    split at he
    · rcases hset _ _ _ _ e he with he | he
      · exact Or.inl ⟨e, he, rfl⟩
      · exact Or.inr he
    · exact Or.inl ⟨e, he, rfl⟩
  | tick =>
    have hmem : e ∈ Timer.passClocks 1 s.timer.head := by
      rw [← Timer.expire_append (Timer.passClocks 1 s.timer.head)]
      exact List.mem_append_right _ he
    obtain ⟨e₀, he₀, rfl⟩ := List.mem_map.mp hmem
    exact Or.inl ⟨e₀, he₀, rfl⟩
  | schedule =>
    change e ∈ (if s.Requested then _ else _ : Timer).head at he
    split at he
    · split at he
      · exact Or.inl ⟨e, he, rfl⟩
      · exact hreset _ _ e he
    · exact Or.inl ⟨e, he, rfl⟩
  | fork => exact Or.inl ⟨e, he, rfl⟩
  | sleepCallback callback => exact Or.inl ⟨e, he, rfl⟩
  | wakeup pid => exact Or.inl ⟨e, he, rfl⟩
  | waitInterrupt irq => exact Or.inl ⟨e, he, rfl⟩
  | notify irq => exact Or.inl ⟨e, he, rfl⟩

theorem timerOf_serial (o : Op) : s.timer.serial ≤ (s.timerOf o).serial := by
  cases o with
  | initTasks => exact Nat.le_succ _
  | sleep pid millisec =>
    change _ ≤ (sleepTimer s.timer pid millisec).serial
    unfold sleepTimer
    split
    · exact Nat.le_succ _
    · exact Nat.le_refl _
  | schedule =>
    change _ ≤ (if s.Requested then _ else _ : Timer).serial
    split
    · split
      · exact Nat.le_refl _
      · exact Nat.le_succ _
    · exact Nat.le_refl _
  | tick => exact Nat.le_refl _
  | fork => exact Nat.le_refl _
  | sleepCallback callback => exact Nat.le_refl _
  | wakeup pid => exact Nat.le_refl _
  | waitInterrupt irq => exact Nat.le_refl _
  | notify irq => exact Nat.le_refl _

theorem boot_timer (irqQue : Que Entry 64) : (boot irqQue).timer.Inv := Timer.init_inv

theorem run_timer {irqQue : Que Entry 64} {legal : Sched → Op → Prop} {os : List Op}
    (hr : Run step legal (boot irqQue) os s) : Inv s ∧ s.timer.Inv := by
  refine hr.invariant (I := fun s => Inv s ∧ s.timer.Inv) ?_ ⟨boot_inv irqQue, boot_timer irqQue⟩
  rintro s o s' ⟨h, ht⟩ - hs
  refine ⟨h.step hs, ?_⟩
  rw [(step_timer h hs).1]
  exact timerOf_inv ht o

/-- After a call that wakes `pid`, its entries are gone exactly if they have all run out. -/
theorem noTimeout_iff (h : Inv s) (ht : s.timer.Inv) (hs : Sched.step s o = .ok s')
    (hpid : pid ∈ s.wakes o) :
    s'.NoTimeout pid ↔ s.RunOut pid (s.now o) := by
  obtain ⟨hmade, hticks⟩ := timerOf_wakes (List.ne_nil_of_mem hpid)
  unfold NoTimeout RunOut
  rw [(step_timer h hs).1, timer_noWakeup (timerOf_inv ht o), hmade, hticks]

/-! ## Runs in which nobody is woken early -/

/-- No timer in the list is older than the last wake-up of its process. -/
structure Fresh (s : Sched) : Prop where
  inv : Inv s
  timer : s.timer.Inv
  logged : ∀ x ∈ s.woken, x.2 ≤ s.timer.serial
  current : ∀ e ∈ s.timer.head, e.alarm.kind = .wakeup →
    ∀ n, (e.alarm.prId, n) ∈ s.woken → n ≤ e.alarm.serial

theorem boot_fresh (irqQue : Que Entry 64) : Fresh (boot irqQue) where
  inv := boot_inv irqQue
  timer := boot_timer irqQue
  logged _ h := absurd h List.not_mem_nil
  current _ h := absurd h List.not_mem_nil

theorem Fresh.step (h : Fresh s) (hl : s.Unhurried o) (hs : Sched.step s o = .ok s') :
    Fresh s' := by
  obtain ⟨htimer, hwoken⟩ := step_timer h.inv hs
  have hnew : ∀ x ∈ ((s.wakes o).map fun pid => (pid, s.timer.serial)).reverse,
      x.1 ∈ s.wakes o ∧ x.2 = s.timer.serial := by
    intro x hx
    obtain ⟨pid, hpid, rfl⟩ := List.mem_map.mp (List.mem_reverse.mp hx)
    exact ⟨hpid, rfl⟩
  refine ⟨h.inv.step hs, htimer ▸ timerOf_inv h.timer o, ?_, ?_⟩
  · intro x hx
    rw [hwoken] at hx
    rw [htimer]
    refine Nat.le_trans ?_ (timerOf_serial o)
    rcases List.mem_append.mp hx with hx | hx
    · exact Nat.le_of_eq (hnew x hx).2
    · exact h.logged x hx
  · intro e he hk n hn
    rw [hwoken] at hn
    rcases List.mem_append.mp hn with hn | hn
    · -- woken by this call, which found all its timeouts run out
      have hpid := (hnew _ hn).1
      exact absurd ⟨hk, rfl⟩ ((noTimeout_iff h.inv h.timer hs hpid).mpr (hl _ hpid) e he)
    · rw [htimer] at he
      rcases timerOf_head o e he with ⟨e₀, he₀, heq⟩ | heq
      · rw [← heq] at hk hn ⊢
        exact h.current e₀ he₀ hk n hn
      · rw [heq]
        exact h.logged _ hn

theorem run_fresh {irqQue : Que Entry 64} {os : List Op}
    (hr : Run step Unhurried (boot irqQue) os s) :
    Fresh s :=
  hr.invariant (fun _ _ _ hi hl hs => hi.step hl hs) (boot_fresh irqQue)

/-- A process that the wake-ups of a tick made runnable is named by one of them. -/
theorem wakeDue_names : ∀ {l : List Timer.Entry} {s : Sched}, Inv s → s.wakeDue l = .ok s' →
    (s.room p).status ≠ .running → (s'.room p).status = .running →
    ∃ e ∈ l, e.alarm.kind = .wakeup ∧ e.alarm.prId = (s.room p).id
  | [], s, _, hs, hp, hp' => by
    obtain rfl := Except.ok.inj hs
    exact absurd hp' hp
  | e :: l, s, h, hs, hp, hp' => by
    unfold Sched.wakeDue at hs
    split at hs
    · rename_i hk
      obtain ⟨t, ht, hs⟩ := Res.bind_eq_ok.mp hs
      obtain ⟨q, u, hq, hput, rfl, hinv⟩ := wakeup_inv h ht
      by_cases hqp : q = p
      · subst hqp
        exact ⟨e, List.mem_cons_self, hk, (getProc_used hq).2.symm⟩
      · have hsame : u.room p = s.room p := hput.others p (Ne.symm hqp)
        obtain ⟨e', he', hk', hid'⟩ := wakeDue_names hinv hs (by simpa [hsame] using hp) hp'
        exact ⟨e', List.mem_cons_of_mem _ he', hk', by simpa [hsame] using hid'⟩
    · obtain ⟨e', he', hk', hid'⟩ := wakeDue_names h hs hp hp'
      exact ⟨e', List.mem_cons_of_mem _ he', hk', hid'⟩

/-- A tick wakes a process by a timer that was set since the process was last woken. -/
theorem Fresh.tick (h : Fresh s) (hs : s.tick = .ok s') (hp : (s.room p).status ≠ .running)
    (hp' : (s'.room p).status = .running) : ∃ a, (s'.timer.ticks, a) ∈ s'.timer.fired ∧
      a.kind = .wakeup ∧ a.prId = (s.room p).id ∧ ∀ n, ((s.room p).id, n) ∈ s.woken →
      n ≤ a.serial := by
  have hinv : Inv { s with timer := s.timer.handler.1 } := h.inv.congr rfl rfl fun _ => rfl
  have hs' : { s with timer := s.timer.handler.1 }.wakeDue s.timer.handler.2 = .ok s' := hs
  obtain ⟨e, he, hk, hid⟩ := wakeDue_names hinv hs' hp hp'
  have htimer := (wakeDue_timer hinv hs').1
  have hmem : e ∈ Timer.passClocks 1 s.timer.head := by
    rw [← Timer.expire_append (Timer.passClocks 1 s.timer.head)]
    exact List.mem_append_left _ he
  obtain ⟨e₀, he₀, rfl⟩ := List.mem_map.mp hmem
  refine ⟨e₀.alarm, ?_, hk, hid, ?_⟩
  · rw [htimer]
    exact List.mem_append_right _
      (List.mem_map_of_mem (f := fun e => (s.timer.ticks + 1, e.alarm)) he)
  · intro n hn
    exact h.current e₀ he₀ hk n (hid ▸ hn)

/-- **When an early wake-up leaves no timeout behind**: in every run, a call that wakes `pid` leaves
no `Wakeup` entry for it exactly if all its timeouts have run out; and in every run whose wake-ups
all find the timeouts run out, a tick makes a process runnable only by a timer of the sleep it is
in. -/
theorem wakeup_cancels (irqQue : Que Entry 64) (os : List Op) (s s' : Sched) :
    (∀ (o : Op) (pid : Int),
      Run step Any (boot irqQue) os s → Sched.step s o = .ok s' → pid ∈ s.wakes o →
      (s'.NoTimeout pid ↔ s.RunOut pid (s.now o))) ∧
    (∀ p : ProcPtr, Run step Unhurried (boot irqQue) os s → s.tick = .ok s' →
      (s.room p).status ≠ .running → (s'.room p).status = .running →
      ∃ a, (s'.timer.ticks, a) ∈ s'.timer.fired ∧ a.kind = .wakeup ∧ a.prId = (s.room p).id ∧
        ∀ n, ((s.room p).id, n) ∈ s.woken → n ≤ a.serial) := by
  constructor
  · intro o pid hr hs hpid
    obtain ⟨h, ht⟩ := run_timer hr
    exact noTimeout_iff h ht hs hpid
  · intro p hr hs hp hp'
    exact (run_fresh hr).tick hs hp hp'

/-- A process sleeps for two ticks and is woken by its timer, and sleeps again. -/
def patient : List Op := [.initTasks, .fork, .sleep 100 20, .tick, .tick, .sleep 100 10]

theorem wakeup_cancels_patient : ∃ s s', Run step Unhurried (boot irqQueInit) patient s ∧
    s.tick = .ok s' ∧ ∃ a, (s'.timer.ticks, a) ∈ s'.timer.fired ∧ a.kind = .wakeup ∧ a.prId = 100 ∧
      ∀ n, (100, n) ∈ s.woken → n ≤ a.serial := by
  have hplay : ((play step Unhurried (boot irqQueInit) patient).bind fun s =>
      s.tick.toOption.map fun s' => ((s.room 2).id, (s.room 2).status, (s'.room 2).status)) =
        some (100, .stopped, .running) := by
    decide +kernel
  obtain ⟨s, hs, htick⟩ := Option.bind_eq_some_iff.mp hplay
  obtain ⟨s', hs', hp⟩ := Option.map_eq_some_iff.mp htick
  obtain ⟨hid, hst⟩ := Prod.mk.inj hp
  obtain ⟨hst, hst'⟩ := Prod.mk.inj hst
  have hok := Res.of_toOption hs'
  refine ⟨s, s', run_of_play hs, hok, ?_⟩
  have := (wakeup_cancels irqQueInit patient s s').2 2 (run_of_play hs) hok (by simp [hst]) hst'
  rwa [hid] at this

/-- A process is woken out of a timed sleep, goes to sleep without a timeout, and the old timer runs
out. -/
def stale : List Op :=
  [.initTasks, .fork, .sleep 100 20, .wakeup 100, .sleep 100 (-1), .tick, .tick]

/-- Its entry is still in the list after the wake-up, and wakes it out of the second sleep. -/
theorem stale_wakes : ∃ s s', Run step Any (boot irqQueInit) (stale.take 4) s ∧ ¬s.NoTimeout 100 ∧
    Run step Any (boot irqQueInit) stale s' ∧ (s'.room 2).id = 100 ∧
    (s'.room 2).status = .running := by
  have h₁ : (play step Any (boot irqQueInit) (stale.take 4)).map
    (fun s => decide (s.NoTimeout 100)) =
      some false := by
    decide +kernel
  have h₂ : (play step Any (boot irqQueInit) stale).map
    (fun s => ((s.room 2).id, (s.room 2).status)) =
      some (100, .running) := by
    decide +kernel
  obtain ⟨s, hs, hno⟩ := Option.map_eq_some_iff.mp h₁
  obtain ⟨s', hs', hst⟩ := Option.map_eq_some_iff.mp h₂
  obtain ⟨hid, hst⟩ := Prod.mk.inj hst
  exact ⟨s, s', run_of_play hs, of_decide_eq_false hno, run_of_play hs', hid, hst⟩

end OwnOS.Sched
