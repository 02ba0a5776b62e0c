import OwnOS.Que.Refine
import OwnOS.Sched.Current
import OwnOS.Sched.Timeouts

/-!
# Waiting for interrupts (`task.cpp:228-263`)

`wait_interrupt` puts the current process into `irqQue` and to sleep, `notify` takes an entry with
the number of the interrupt out of `irqQue` and wakes its process. New entries go to the front of
the queue, and `deque(a)` searches it from there: of several waiters for one interrupt the youngest
is served.

Beside the scheduler's state a run keeps the list of who waits, oldest first, from which `notify` is
to serve the first entry for its interrupt.

* `Waiters.step`: while no interrupt has two waiters, `irqQue` holds that list, and everybody in it
  sleeps.
* `notify_serves_iff_alone`: **in every such run `notify` wakes who has waited longest, and nobody
  else, if and only if there is at most one waiter for its interrupt**, and none when its number is
  -1, which marks an invalid entry.
-/

namespace OwnOS.Sched

open Lib

variable {s s' t : Sched} {p q : ProcPtr} {pid irq millisec : Int} {o : Op} {pids : List Int}
  {W : List Entry}

/-! ## Who waits -/

/-- The entry waits for `irq`. -/
def waitsFor (irq : Int) (e : Entry) : Bool := e.1 == irq

/-- Who waits after a call. A `notify` is to serve the oldest waiter. -/
def waitersAfter (s : Sched) (W : List Entry) : Op → List Entry
  | .waitInterrupt irq =>
    match s.pCurrent with
    | some p => W ++ [(irq, (s.room p).id)]
    | none => W
  | .notify irq => W.eraseP (waitsFor irq)
  | _ => W

/-- One call, with the list of who waits. -/
def stepWaiters (x : Sched × List Entry) (o : Op) : Res (Sched × List Entry) := do
  let s ← x.1.step o
  .ok (s, waitersAfter x.1 x.2 o)

/-- The table is filled once, a process does not wait twice, there is room in `irqQue`, and nobody
else wakes a process that waits. -/
def Orderly (x : Sched × List Entry) : Op → Prop
  | .initTasks => ∀ p, x.1.isFree p = true
  | .waitInterrupt _ =>
    (∀ p, x.1.pCurrent = some p → (x.1.room p).id ∉ x.2.map Prod.snd) ∧ x.2.length < 64
  | .notify _ => True
  | o => ∀ pid ∈ x.1.wakes o, pid ∉ x.2.map Prod.snd

instance (x : Sched × List Entry) (o : Op) : Decidable (Orderly x o) := by
  cases o <;> unfold Orderly <;> infer_instance

/-- At most one process waits for `irq`, and none if `irq` is -1. -/
def Alone (W : List Entry) (irq : Int) : Prop :=
  (W.filter (waitsFor irq)).length ≤ if irq = -1 then 0 else 1

instance : Decidable (Alone W irq) := inferInstanceAs (Decidable (_ ≤ _))

/-- An orderly call that does not notify an interrupt with several waiters. -/
def OrderlyAlone (x : Sched × List Entry) (o : Op) : Prop :=
  Orderly x o ∧ ∀ irq, o = .notify irq → Alone x.2 irq

instance (x : Sched × List Entry) (o : Op) : Decidable (OrderlyAlone x o) :=
  match o with
  | .notify irq => decidable_of_iff (Orderly x (.notify irq) ∧ Alone x.2 irq)
      (by simp [OrderlyAlone])
  | .initTasks => decidable_of_iff (Orderly x .initTasks) (by simp [OrderlyAlone])
  | .fork => decidable_of_iff (Orderly x .fork) (by simp [OrderlyAlone])
  | .sleep pid ms => decidable_of_iff (Orderly x (.sleep pid ms)) (by simp [OrderlyAlone])
  | .sleepCallback f => decidable_of_iff (Orderly x (.sleepCallback f)) (by simp [OrderlyAlone])
  | .wakeup pid => decidable_of_iff (Orderly x (.wakeup pid)) (by simp [OrderlyAlone])
  | .waitInterrupt irq => decidable_of_iff (Orderly x (.waitInterrupt irq)) (by simp [OrderlyAlone])
  | .tick => decidable_of_iff (Orderly x .tick) (by simp [OrderlyAlone])
  | .schedule => decidable_of_iff (Orderly x .schedule) (by simp [OrderlyAlone])

/-- `notify(irq)` wakes the oldest waiter for `irq` and nobody else, or nobody if there is none. -/
def Serves (s : Sched) (W : List Entry) (irq : Int) : Prop :=
  ∃ s', s.notify irq = .ok s' ∧
    match W.find? (waitsFor irq) with
    | some e => ∃ p, s.getProc e.2 = some p ∧ (s.room p).status ≠ .running ∧
        (s'.room p).status = .running ∧ ∀ q ≠ p, (s'.room q).status = (s.room q).status
    | none => ∀ q, (s'.room q).status = (s.room q).status

/-! ## The entries for one interrupt -/

/-- Erasing the only match is erasing all matches. -/
theorem eraseP_eq_filter {α : Type} {f : α → Bool} : ∀ {l : List α}, (l.filter f).length ≤ 1 →
    l.eraseP f = l.filter fun x => !f x
  | [], _ => rfl
  | x :: l, h => by
    cases hx : f x with
    | true =>
      have hnone : l.filter f = [] := by
        rw [List.filter_cons_of_pos hx, List.length_cons] at h
        exact List.eq_nil_of_length_eq_zero (by omega)
      rw [List.eraseP_cons_of_pos hx, List.filter_cons_of_neg (by simp [hx])]
      symm
      rw [List.filter_eq_self]
      intro y hy
      simpa using List.filter_eq_nil_iff.mp hnone y hy
    | false =>
      rw [List.filter_cons_of_neg (by simp [hx])] at h
      rw [List.eraseP_cons_of_neg (by simp [hx]), List.filter_cons_of_pos (by simp [hx]),
        eraseP_eq_filter h]

theorem eraseP_reverse {α : Type} {f : α → Bool} {l : List α} (h : (l.filter f).length ≤ 1) :
    l.reverse.eraseP f = (l.eraseP f).reverse := by
  have hrev : (l.reverse.filter f).length ≤ 1 := by
    rwa [List.filter_reverse, List.length_reverse]
  rw [eraseP_eq_filter h, eraseP_eq_filter hrev, List.filter_reverse]

/-- From the other end the last match is found. -/
theorem find?_reverse {α : Type} (f : α → Bool) (l : List α) :
    l.reverse.find? f = (l.filter f).getLast? := by
  rw [← List.head?_filter, List.filter_reverse, List.head?_reverse]

theorem Alone.le_one (h : Alone W irq) : (W.filter (waitsFor irq)).length ≤ 1 := by
  unfold Alone at h
  split at h <;> omega

/-- A lone waiter is the first and the last. -/
theorem Alone.getLast? (h : Alone W irq) :
    (W.filter (waitsFor irq)).getLast? = W.find? (waitsFor irq) := by
  rw [← List.head?_filter]
  have hle := h.le_one
  match W.filter (waitsFor irq), hle with
  | [], _ => rfl
  | [e], _ => rfl

/-! ## Names -/

/-- The processes of the table have different ids, and the current process is one of them. -/
structure Named (s : Sched) : Prop where
  unique : ∀ p q, s.isFree p = false → s.isFree q = false → (s.room p).id = (s.room q).id → p = q
  fresh : ∀ p, s.isFree p = false → (s.room p).id < s.pidGen
  gen : 1 < s.pidGen
  current : ∀ p, s.pCurrent = some p → s.isFree p = false

/-- A call that wakes `pids` leaves the table as it is, and everybody else asleep. -/
structure Stays (s s' : Sched) (pids : List Int) : Prop where
  used : ∀ p, s.isFree p = false → s'.isFree p = false ∧ (s'.room p).id = (s.room p).id
  asleep : ∀ p, s.isFree p = false → (s.room p).id ∉ pids → (s.room p).status = .stopped →
    (s'.room p).status = .stopped

theorem Named.congr (h : Named s) (hf : s'.isFree = s.isFree)
    (hid : ∀ p, (s'.room p).id = (s.room p).id) (hg : s'.pidGen = s.pidGen)
    (hc : ∀ p, s'.pCurrent = some p → s.isFree p = false) : Named s' where
  unique p q := by
    rw [hf, hid p, hid q]
    exact h.unique p q
  fresh p := by
    rw [hf, hid p, hg]
    exact h.fresh p
  gen := hg ▸ h.gen
  current p := by
    rw [hf]
    exact hc p

theorem Named.getProc (h : Named s) (hp : s.isFree p = false) :
    s.getProc (s.room p).id = some p := by
  cases hq : s.getProc (s.room p).id with
  | none =>
    have := List.find?_eq_none.mp hq p (List.mem_finRange p)
    simp [hp] at this
  | some q =>
    obtain ⟨hused, hid⟩ := getProc_used hq
    rw [h.unique q p hused hp hid]

theorem Stays.refl (s : Sched) (pids : List Int) : Stays s s pids :=
  ⟨fun _ hp => ⟨hp, rfl⟩, fun _ _ _ h => h⟩

theorem Stays.trans {pids' : List Int} (h : Stays s t pids) (h' : Stays t s' pids') :
    Stays s s' (pids ++ pids') where
  used p hp := by
    obtain ⟨ht, hid⟩ := h.used p hp
    obtain ⟨hs', hid'⟩ := h'.used p ht
    exact ⟨hs', hid'.trans hid⟩
  asleep p hp hpid hst := by
    obtain ⟨ht, hid⟩ := h.used p hp
    rw [List.mem_append, not_or] at hpid
    exact h'.asleep p ht (hid ▸ hpid.2) (h.asleep p hp hpid.1 hst)

theorem Moves.named (h : Moves s s') (hn : Named s) : Named s' := by
  have hf : s'.isFree = s.isFree := by rw [h.same]
  have hg : s'.pidGen = s.pidGen := by rw [h.same]
  exact hn.congr hf h.id hg fun p hp => hn.current p (h.pCurrent ▸ hp)

/-- Only `p` may have been woken. -/
theorem Put.stays {st : Status} (h : Put s s' p st) (hst : st = .stopped ∨ (s.room p).id ∈ pids) :
    Stays s s' pids where
  used q hq := by
    refine ⟨?_, h.moves.id q⟩
    rw [h.moves.same]
    exact hq
  asleep q _ hq hstop := by
    by_cases hqp : q = p
    · subst hqp
      rcases hst with rfl | hmem
      · exact h.status
      · exact absurd hmem hq
    · rw [h.others q hqp]
      exact hstop

theorem Moves.irqQue (h : Moves s s') : s'.irqQue = s.irqQue := by
  rw [h.same]

theorem wakeup_stays (hi : Inv s) (hn : Named s) (hs : s.wakeup pid = .ok s') :
    Named s' ∧ Stays s s' [pid] ∧ s'.irqQue = s.irqQue := by
  obtain ⟨p, t, hp, hput, rfl, -⟩ := wakeup_inv hi hs
  have hid := (getProc_used hp).2
  have hstays : Stays s t [pid] := hput.stays (Or.inr (by simp [hid]))
  have hnamed := hput.moves.named hn
  exact ⟨hnamed.congr rfl (fun _ => rfl) rfl hnamed.current, ⟨hstays.used, hstays.asleep⟩,
    hput.moves.irqQue⟩

theorem sleep_stays (hi : Inv s) (hn : Named s) (hs : s.sleep pid millisec = .ok s') :
    Named s' ∧ Stays s s' [] ∧ s'.irqQue = s.irqQue := by
  obtain ⟨p, t, -, hput, rfl, -⟩ := sleep_inv hi hs
  have hstays : Stays s t [] := hput.stays (Or.inl rfl)
  have hnamed := hput.moves.named hn
  exact ⟨hnamed.congr rfl (fun _ => rfl) rfl hnamed.current, ⟨hstays.used, hstays.asleep⟩,
    hput.moves.irqQue⟩

theorem wakeDue_stays :
    ∀ {l : List Timer.Entry} {s : Sched}, Inv s → Named s → s.wakeDue l = .ok s' →
    Named s' ∧ Stays s s' ((l.filter (·.alarm.kind = .wakeup)).map (·.alarm.prId)) ∧
      s'.irqQue = s.irqQue
  | [], s, _, hn, hs => by
    obtain rfl := Except.ok.inj hs
    exact ⟨hn, Stays.refl _ _, rfl⟩
  | e :: l, s, hi, hn, hs => by
    unfold Sched.wakeDue at hs
    split at hs
    · rename_i hk
      obtain ⟨t, ht, hs⟩ := Res.bind_eq_ok.mp hs
      obtain ⟨-, -, -, -, -, hinv⟩ := wakeup_inv hi ht
      obtain ⟨hnt, hstays, hque⟩ := wakeup_stays hi hn ht
      obtain ⟨hn', hstays', hque'⟩ := wakeDue_stays hinv hnt hs
      refine ⟨hn', ?_, hque'.trans hque⟩
      simpa [hk] using hstays.trans hstays'
    · rename_i hk
      have hskip : decide (e.alarm.kind = .wakeup) = false := decide_eq_false hk
      rw [List.filter_cons_of_neg (by simp [hskip])]
      exact wakeDue_stays hi hn hs

/-- `init_tasks` fills an empty table. -/
theorem initTasks_stays (hi : Inv s) (hn : Named s) (hfree : ∀ p, s.isFree p = true)
    (hs : s.initTasks = .ok s') : Named s' ∧ Stays s s' [] ∧ s'.irqQue = s.irqQue := by
  obtain ⟨pinit, pkernel, t, -, -, hne, hput, rfl, -⟩ := initTasks_inv hi hs
  have hused : ∀ p, ((s.withProc pinit procInit).withProc pkernel procKernel).isFree p = false →
      p = pinit ∨ p = pkernel := by
    intro p hp
    by_contra hno
    obtain ⟨h₁, h₂⟩ := not_or.mp hno
    simp [withProc, h₁, h₂, hfree p] at hp
  have hnamed : Named ((s.withProc pinit procInit).withProc pkernel procKernel) := by
    refine ⟨?_, ?_, hn.gen, ?_⟩
    · intro p q hp hq hid
      rcases hused p hp with rfl | rfl <;> rcases hused q hq with rfl | rfl <;>
        simp_all [withProc, procInit, procKernel]
    · intro p hp
      have hgen := hn.gen
      rcases hused p hp with rfl | rfl
      · simpa [withProc, hne, procInit] using hgen
      · simp only [withProc, Function.update_self, procKernel]
        omega
    · intro p hp
      exact absurd ((hfree p).symm.trans (hn.current p hp)) (by simp)
  refine ⟨(hput.moves.named hnamed).congr rfl (fun _ => rfl) rfl ?_, ⟨?_, ?_⟩, hput.moves.irqQue⟩
  · intro p hp
    obtain rfl := Option.some.inj hp
    rw [hput.moves.same]
    simp [withProc, hne]
  · intro p hp
    exact absurd ((hfree p).symm.trans hp) (by simp)
  · intro p hp
    exact absurd ((hfree p).symm.trans hp) (by simp)

/-- The new process has the next id. -/
theorem Named.withProc {current clone : ProcPtr} (hn : Named s) :
    Named { s.withProc clone (s.cloneOf current) with pidGen := s.pidGen + 1 } := by
  have hold : ∀ p ≠ clone, (s.withProc clone (s.cloneOf current)).isFree p = s.isFree p ∧
      (s.withProc clone (s.cloneOf current)).room p = s.room p :=
    fun p hp => ⟨Function.update_of_ne hp _ _, Function.update_of_ne hp _ _⟩
  have hnew : ((s.withProc clone (s.cloneOf current)).room clone).id = s.pidGen := by
    simp [Sched.withProc, cloneOf]
  -- an old process has an older id
  have hlt : ∀ p ≠ clone, (s.withProc clone (s.cloneOf current)).isFree p = false →
      ((s.withProc clone (s.cloneOf current)).room p).id < s.pidGen := by
    intro p hpc hp
    rw [(hold p hpc).2]
    exact hn.fresh p ((hold p hpc).1 ▸ hp)
  refine ⟨?_, ?_, ?_, ?_⟩
  · intro p q hp hq hid
    change ((s.withProc clone (s.cloneOf current)).room p).id =
      ((s.withProc clone (s.cloneOf current)).room q).id at hid
    by_cases hpc : p = clone <;> by_cases hqc : q = clone
    · rw [hpc, hqc]
    · rw [hpc, hnew] at hid
      exact absurd hid (hlt q hqc hq).ne'
    · rw [hqc, hnew] at hid
      exact absurd hid (hlt p hpc hp).ne
    · rw [(hold p hpc).2, (hold q hqc).2] at hid
      exact hn.unique p q ((hold p hpc).1 ▸ hp) ((hold q hqc).1 ▸ hq) hid
  · intro p hp
    change ((s.withProc clone (s.cloneOf current)).room p).id < s.pidGen + 1
    by_cases hpc : p = clone
    · rw [hpc, hnew]
      exact Int.lt_succ _
    · exact (hlt p hpc hp).trans (Int.lt_succ _)
  · exact hn.gen.trans (Int.lt_succ _)
  · intro p hp
    have hused := hn.current p hp
    change (s.withProc clone (s.cloneOf current)).isFree p = false
    by_cases hpc : p = clone
    · simp [hpc, Sched.withProc]
    · rw [(hold p hpc).1, hused]

theorem fork_stays (hi : Inv s) (hn : Named s) (hs : s.fork = .ok s') :
    Named s' ∧ Stays s s' [s.pidGen] ∧ s'.irqQue = s.irqQue := by
  obtain ⟨current, clone, -, hclone, hinv, hs⟩ := fork_inv hi hs
  obtain ⟨hn', hstays, hque⟩ := wakeup_stays hinv hn.withProc hs
  have hne : ∀ p, s.isFree p = false → p ≠ clone := by
    rintro p hp rfl
    exact absurd (hp.symm.trans hclone) (by simp)
  have halloc :
      Stays s { s.withProc clone (s.cloneOf current) with pidGen := s.pidGen + 1 } [] := by
    refine ⟨fun p hp => ?_, fun p hp _ hst => ?_⟩
    · simpa [Sched.withProc, hne p hp] using hp
    · simpa [Sched.withProc, hne p hp] using hst
  exact ⟨hn', halloc.trans hstays, hque⟩

theorem sleepCallback_stays {callback : Nat} (hi : Inv s) (hn : Named s)
    (hs : s.sleepCallback callback = .ok s') : Named s' ∧ Stays s s' [] ∧ s'.irqQue = s.irqQue := by
  obtain ⟨p, -, hinv, hs⟩ := sleepCallback_inv hi hs
  have hroom : ∀ q, ((s.withCallback p callback).room q).id = (s.room q).id ∧
      ((s.withCallback p callback).room q).status = (s.room q).status := by
    intro q
    by_cases hq : q = p
    · subst hq
      simp [withCallback]
    · simp [withCallback, setProc_of_ne _ hq]
  have hnamed : Named (s.withCallback p callback) :=
    hn.congr rfl (fun q => (hroom q).1) rfl hn.current
  obtain ⟨hn', hstays, hque⟩ := sleep_stays hinv hnamed hs
  have hcall : Stays s (s.withCallback p callback) [] :=
    ⟨fun q hq => ⟨hq, (hroom q).1⟩, fun q _ _ hst => (hroom q).2.trans hst⟩
  exact ⟨hn', hcall.trans hstays, hque⟩

/-- The switch changes neither the table nor the ids. -/
theorem switchTo_same (s : Sched) (p : ProcPtr) : (s.switchTo p).isFree = s.isFree ∧
    (s.switchTo p).pidGen = s.pidGen ∧ (s.switchTo p).irqQue = s.irqQue ∧
    ∀ q, ((s.switchTo p).room q).id = (s.room q).id := by
  unfold Sched.switchTo
  split
  · exact ⟨rfl, rfl, rfl, fun _ => rfl⟩
  · refine ⟨rfl, rfl, rfl, fun q => ?_⟩
    by_cases hq : q = p
    · subst hq
      simp
    · simp [setProc_of_ne _ hq]

/-- `schedule` puts back whom it takes out. -/
theorem schedule_stays (hi : Inv s) (hn : Named s) (hs : s.schedule = .ok s') :
    Named s' ∧ Stays s s' [] ∧ s'.irqQue = s.irqQue := by
  have hclear : Named s.clearFlags := hn.congr rfl (fun _ => rfl) rfl hn.current
  rcases schedule_inv hi hs with ⟨-, rfl⟩ | ⟨-, -, rfl⟩ | ⟨-, k, p, t, -, hrun, hput, -, rfl⟩
  · exact ⟨hn, Stays.refl _ _, rfl⟩
  · exact ⟨hclear, ⟨fun _ hp => ⟨hp, rfl⟩, fun _ _ _ h => h⟩, rfl⟩
  · have hused : s.isFree p = false := by
      by_contra hfree
      rw [Bool.not_eq_false] at hfree
      exact absurd ((hi.free p hfree).symm.trans hrun) (by simp)
    have hfree : t.isFree = s.isFree := by
      rw [hput.moves.same]
      rfl
    obtain ⟨hf, hg, hque, hid⟩ := switchTo_same (s.requeued t k p) p
    refine ⟨(hput.moves.named hclear).congr hf hid hg ?_, ⟨?_, ?_⟩, hque.trans hput.moves.irqQue⟩
    · intro q hq
      rw [switchTo_current] at hq
      obtain rfl := Option.some.inj hq
      rw [hfree]
      exact hused
    · intro q hq
      rw [hf, hid q]
      exact ⟨hfree ▸ hq, hput.moves.id q⟩
    · intro q _ _ hst
      rw [switchTo_status]
      have hqp : q ≠ p := by
        rintro rfl
        exact absurd (hst.symm.trans hrun) (by simp)
      change (t.room q).status = _
      rw [hput.others q hqp]
      exact hst

/-- **Every call but `wait_interrupt` and `notify`** leaves `irqQue` alone, and asleep whom it does
not wake. -/
theorem Named.step (hn : Named s) (hi : Inv s) (hwait : ∀ irq, o ≠ .waitInterrupt irq)
    (hnotify : ∀ irq, o ≠ .notify irq) (hfree : o = .initTasks → ∀ p, s.isFree p = true)
    (hs : Sched.step s o = .ok s') : Named s' ∧ Stays s s' (s.wakes o) ∧ s'.irqQue = s.irqQue := by
  cases o with
  | initTasks => exact initTasks_stays hi hn (hfree rfl) hs
  | fork => exact fork_stays hi hn hs
  | sleep pid millisec => exact sleep_stays hi hn hs
  | sleepCallback callback => exact sleepCallback_stays hi hn hs
  | wakeup pid => exact wakeup_stays hi hn hs
  | waitInterrupt irq => exact absurd rfl (hwait irq)
  | notify irq => exact absurd rfl (hnotify irq)
  | tick =>
    have hinv : Inv { s with timer := s.timer.handler.1 } := hi.congr rfl rfl fun _ => rfl
    have hnamed : Named { s with timer := s.timer.handler.1 } :=
      hn.congr rfl (fun _ => rfl) rfl hn.current
    obtain ⟨hn', hstays, hque⟩ := wakeDue_stays (l := s.timer.handler.2) hinv hnamed hs
    exact ⟨hn', ⟨hstays.used, hstays.asleep⟩, hque⟩
  | schedule => exact schedule_stays hi hn hs

/-! ## The waiters -/

/-- **`irqQue` holds who waits**, the youngest first, and everybody who waits sleeps. -/
structure Waiters (s : Sched) (W : List Entry) : Prop where
  inv : Inv s
  named : Named s
  que : ∃ h t ids, s.irqQue.Rep h t ids ∧ ids.map s.irqQue.content = W.reverse ∧
    s.irqQue.invalid = (-1, -2)
  asleep : ∀ e ∈ W, ∃ p, s.isFree p = false ∧ (s.room p).id = e.2 ∧ (s.room p).status = .stopped
  nodup : (W.map Prod.snd).Nodup

/-- Who is not woken still sleeps. -/
theorem Stays.waiters {W' : List Entry} (h : Stays s s' pids)
    (hW : ∀ e ∈ W, ∃ p, s.isFree p = false ∧ (s.room p).id = e.2 ∧ (s.room p).status = .stopped)
    (hsub : ∀ e ∈ W', e ∈ W ∧ e.2 ∉ pids) :
    ∀ e ∈ W', ∃ p, s'.isFree p = false ∧ (s'.room p).id = e.2 ∧ (s'.room p).status = .stopped := by
  intro e he
  obtain ⟨hmem, hpid⟩ := hsub e he
  obtain ⟨p, hp, hid, hst⟩ := hW e hmem
  obtain ⟨hp', hid'⟩ := h.used p hp
  exact ⟨p, hp', hid'.trans hid, h.asleep p hp (hid ▸ hpid) hst⟩

/-- What `notify` takes out of `irqQue`: the youngest waiter for `irq`. -/
theorem Waiters.dequeOf (h : Waiters s W) (irq : Int) : ∃ irqQue,
    s.irqQue.dequeOf (fun x y => x.1 == y.1) (irq, 0) =
      .ok (((W.filter (waitsFor irq)).getLast?).getD (-1, -2), irqQue) ∧
    ∃ h t ids, irqQue.Rep h t ids ∧ ids.map irqQue.content = W.reverse.eraseP (waitsFor irq) ∧
      irqQue.invalid = (-1, -2) := by
  obtain ⟨hd, tl, ids, hrep, hids, hinvalid⟩ := h.que
  obtain ⟨irqQue, ids', hq, hrep', hids', hc, hinv, -⟩ :=
    hrep.dequeOf (fun x y => x.1 == y.1) (irq, 0)
  have hwaits : (fun e : Entry => e.1 == irq) = waitsFor irq := rfl
  rw [hids, hwaits] at hids'
  rw [hids, hwaits, find?_reverse, hinvalid] at hq
  exact ⟨irqQue, hq, hd, tl, ids', hrep', by rw [hc, hids'], hinv.trans hinvalid⟩

/-- The youngest waiter is found in the table, asleep. -/
theorem Waiters.getProc {e : Entry} (h : Waiters s W) (he : e ∈ W) : ∃ p, s.getProc e.2 = some p ∧
    s.isFree p = false ∧ (s.room p).id = e.2 ∧ (s.room p).status = .stopped := by
  obtain ⟨p, hp, hid, hst⟩ := h.asleep e he
  exact ⟨p, hid ▸ h.named.getProc hp, hp, hid, hst⟩

/-- **What `notify` does**: it wakes the youngest waiter for `irq`, or nobody. -/
theorem Waiters.notify (h : Waiters s W) (irq : Int) : ∃ s', s.notify irq = .ok s' ∧
    match if irq = -1 then none else (W.filter (waitsFor irq)).getLast? with
    | some e => ∃ p, s.getProc e.2 = some p ∧ (s.room p).status = .stopped ∧
        (s'.room p).status = .running ∧ ∀ q ≠ p, (s'.room q).status = (s.room q).status
    | none => ∀ q, (s'.room q).status = (s.room q).status := by
  obtain ⟨irqQue, hq, -⟩ := h.dequeOf irq
  have hinv : Inv { s with irqQue := irqQue } := h.inv.congr rfl rfl fun _ => rfl
  unfold Sched.notify
  rw [hq, Res.ok_bind]
  cases he : (W.filter (waitsFor irq)).getLast? with
  | none => exact ⟨_, rfl, by simp⟩
  | some e =>
    obtain ⟨hmem, hwaits⟩ := List.mem_filter.mp (List.mem_of_getLast? he)
    have hirq : e.1 = irq := by simpa [waitsFor] using hwaits
    by_cases hone : irq = -1
    · refine ⟨{ s with irqQue := irqQue }, by simp [hirq, hone], ?_⟩
      simp [hone]
    · obtain ⟨p, hp, -, -, hst⟩ := h.getProc hmem
      obtain ⟨t, hput, -, hok⟩ := hinv.wakeup hp
      refine ⟨_, by simpa [hirq, hone] using hok, ?_⟩
      rw [if_neg hone]
      exact ⟨p, hp, hst, hput.status, fun q hq => by rw [← hput.others q hq]⟩

/-! ## Runs -/

theorem boot_waiters {prev : Que.Ptr 64 → Option (Que.Ptr 64)} {content : Que.Ptr 64 → Entry}
    {irqQue : Que Entry 64} (hq : Que.init (-1, -2) prev content = .ok irqQue) :
    Waiters (boot irqQue) [] := by
  obtain ⟨q, hq', hrep, hinvalid⟩ := Que.init_rep (-1, -2) prev content
  obtain rfl := Except.ok.inj (hq'.symm.trans hq)
  refine ⟨boot_inv q, ⟨?_, ?_, ?_, ?_⟩, ⟨0, 1, [], hrep, rfl, hinvalid⟩, ?_, List.nodup_nil⟩
  · intro p q hp
    exact absurd hp (by simp [boot])
  · intro p hp
    exact absurd hp (by simp [boot])
  · simp [boot]
  · intro p hp
    exact absurd hp (by simp [boot])
  · intro e he
    exact absurd he List.not_mem_nil

/-- The current process joins those who wait. -/
theorem Waiters.waitInterrupt (h : Waiters s W) (hl : Orderly (s, W) (.waitInterrupt irq))
    (hs : s.waitInterrupt irq = .ok s') : Waiters s' (waitersAfter s W (.waitInterrupt irq)) := by
  obtain ⟨p, hp, hs⟩ := Res.bind_eq_ok.mp hs
  obtain ⟨irqQue, hq, hs⟩ := Res.bind_eq_ok.mp hs
  have hcur := follow_eq_ok hp
  have hused := h.named.current p hcur
  obtain ⟨hnew, hroom⟩ := hl
  have hafter : waitersAfter s W (.waitInterrupt irq) = W ++ [(irq, (s.room p).id)] := by
    simp [waitersAfter, hcur]
  obtain ⟨hd, tl, ids, hrep, hids, hinvalid⟩ := h.que
  have hlen : ids.length < 64 := by
    rw [← List.length_map s.irqQue.content, hids, List.length_reverse]
    exact hroom
  obtain ⟨i, q', hq', hrep', hx, hsame, hinv'⟩ := hrep.enque (x := (irq, (s.room p).id)) hlen
  obtain rfl := Except.ok.inj (hq'.symm.trans hq)
  have hinv : Inv { s with irqQue := q' } := h.inv.congr rfl rfl fun _ => rfl
  have hnamed : Named { s with irqQue := q' } :=
    h.named.congr rfl (fun _ => rfl) rfl h.named.current
  obtain ⟨hn, hstays, hque⟩ := sleep_stays hinv hnamed hs
  obtain ⟨r, t, hr, hput, rfl, hinv''⟩ := sleep_inv hinv hs
  obtain rfl := Option.some.inj ((hnamed.getProc hused).symm.trans hr)
  rw [hafter]
  refine ⟨hinv'', hn, ⟨hd, tl, i :: ids, ?_, ?_, ?_⟩, ?_, ?_⟩
  · rw [hque]
    exact hrep'
  · rw [hque, List.map_cons, hx, List.reverse_append, ← hids]
    exact congrArg _ (List.map_congr_left hsame)
  · rw [hque]
    exact hinv'.trans hinvalid
  · intro e he
    rcases List.mem_append.mp he with he | he
    · exact Stays.waiters hstays h.asleep (fun e he => ⟨he, List.not_mem_nil⟩) e he
    · obtain rfl := List.mem_singleton.mp he
      exact ⟨p, (hstays.used p hused).1, (hstays.used p hused).2, hput.status⟩
  · rw [List.map_append, List.nodup_append]
    refine ⟨h.nodup, by simp, ?_⟩
    rintro a ha b hb rfl
    obtain rfl := List.mem_singleton.mp hb
    exact hnew p hcur ha

/-- A lone waiter is taken out of `irqQue` and woken. -/
theorem Waiters.notify_alone (h : Waiters s W) (hl : Alone W irq) (hs : s.notify irq = .ok s') :
    Waiters s' (waitersAfter s W (.notify irq)) := by
  obtain ⟨irqQue, hq, hd, tl, ids, hrep, hids, hinvalid⟩ := h.dequeOf irq
  obtain ⟨e, irqQue', hq', hinv, hcase⟩ := notify_inv h.inv hs
  obtain ⟨he, rfl⟩ := Prod.mk.inj (Except.ok.inj (hq.symm.trans hq'))
  rw [hl.getLast?] at he
  rw [eraseP_reverse hl.le_one] at hids
  have hnamed : Named { s with irqQue := irqQue } :=
    h.named.congr rfl (fun _ => rfl) rfl h.named.current
  have hnodup : ((W.eraseP (waitsFor irq)).map Prod.snd).Nodup :=
    h.nodup.sublist (List.eraseP_sublist.map _)
  rcases hcase with ⟨-, rfl⟩ | ⟨hne, hs⟩
  · refine ⟨hinv, hnamed, ⟨hd, tl, ids, hrep, hids, hinvalid⟩, ?_, hnodup⟩
    intro e he
    exact h.asleep e (List.mem_of_mem_eraseP he)
  · obtain ⟨hn, hstays, hque⟩ := wakeup_stays hinv hnamed hs
    obtain ⟨-, -, -, -, -, hinv'⟩ := wakeup_inv hinv hs
    refine ⟨hinv', hn, ⟨hd, tl, ids, by rw [hque]; exact hrep, by rw [hque]; exact hids,
      by rw [hque]; exact hinvalid⟩, ?_, hnodup⟩
    -- the woken process waits no longer
    cases hf : W.find? (waitsFor irq) with
    | none =>
      rw [hf] at he
      exact absurd (congrArg Prod.fst he).symm hne
    | some e' =>
      rw [hf] at he
      obtain rfl : e' = e := he
      obtain ⟨hmatch, before, after, rfl, hbefore⟩ := List.find?_eq_some_iff_append.mp hf
      have herase : (before ++ e' :: after).eraseP (waitsFor irq) = before ++ after := by
        rw [List.eraseP_append_right _ (by simpa using hbefore), List.eraseP_cons_of_pos hmatch]
      have hnd := h.nodup
      rw [List.map_append, List.map_cons, List.nodup_middle, List.nodup_cons,
        ← List.map_append] at hnd
      rw [show waitersAfter s (before ++ e' :: after) (.notify irq) = before ++ after from herase]
      refine Stays.waiters hstays h.asleep ?_
      intro x hx
      refine ⟨?_, ?_⟩
      · rw [List.mem_append] at hx ⊢
        exact hx.imp_right (List.mem_cons_of_mem _)
      · rw [List.mem_singleton]
        intro hpid
        exact hnd.1 (hpid ▸ List.mem_map_of_mem hx)

/-- **One call.** -/
theorem Waiters.step (h : Waiters s W) (hl : OrderlyAlone (s, W) o) (hs : Sched.step s o = .ok s') :
    Waiters s' (waitersAfter s W o) := by
  obtain ⟨horderly, halone⟩ := hl
  have hother : (∀ irq, o ≠ .waitInterrupt irq) → (∀ irq, o ≠ .notify irq) →
      waitersAfter s W o = W → (∀ pid ∈ s.wakes o, pid ∉ W.map Prod.snd) →
      (o = .initTasks → ∀ p, s.isFree p = true) → Waiters s' (waitersAfter s W o) := by
    intro hwait hnotify hafter hwakes hfree
    obtain ⟨hn, hstays, hque⟩ := h.named.step h.inv hwait hnotify hfree hs
    rw [hafter]
    refine ⟨h.inv.step hs, hn, ?_, ?_, h.nodup⟩
    · rw [hque]
      exact h.que
    · refine Stays.waiters hstays h.asleep fun e he => ⟨he, fun hpid => ?_⟩
      exact hwakes _ hpid (List.mem_map_of_mem he)
  cases o with
  | waitInterrupt irq => exact h.waitInterrupt horderly hs
  | notify irq => exact h.notify_alone (halone irq rfl) hs
  | initTasks =>
    exact hother (by simp) (by simp) rfl (fun pid hpid => absurd hpid List.not_mem_nil)
      fun _ => horderly
  | fork => exact hother (by simp) (by simp) rfl horderly (by simp)
  | sleep pid millisec => exact hother (by simp) (by simp) rfl horderly (by simp)
  | sleepCallback callback => exact hother (by simp) (by simp) rfl horderly (by simp)
  | wakeup pid => exact hother (by simp) (by simp) rfl horderly (by simp)
  | tick => exact hother (by simp) (by simp) rfl horderly (by simp)
  | schedule => exact hother (by simp) (by simp) rfl horderly (by simp)

theorem run_waiters {irqQue : Que Entry 64} {os : List Op} (h : Waiters (boot irqQue) [])
    (hr : Run stepWaiters OrderlyAlone (boot irqQue, []) os (s, W)) : Waiters s W := by
  refine hr.invariant (I := fun x => Waiters x.1 x.2) ?_ h
  rintro ⟨s, W⟩ o x hi hl hs
  obtain ⟨s', hs', hx⟩ := Res.bind_eq_ok.mp hs
  obtain rfl := Except.ok.inj hx
  exact hi.step hl hs'

/-- With a second waiter for `irq` the youngest is not the oldest. -/
theorem Waiters.youngest_ne {e e' : Entry} {F : List Entry} (h : Waiters s W)
    (hF : W.filter (waitsFor irq) = e :: F) (hne : F ≠ [])
    (he' : (W.filter (waitsFor irq)).getLast? = some e') : e' ∈ W ∧ e.2 ≠ e'.2 := by
  refine ⟨(List.mem_filter.mp (List.mem_of_getLast? he')).1, ?_⟩
  have hsub : (W.filter (waitsFor irq)).Sublist W := List.filter_sublist
  have hnodup := h.nodup.sublist (hsub.map Prod.snd)
  rw [hF, List.map_cons, List.nodup_cons] at hnodup
  rw [hF, List.getLast?_cons_of_ne_nil hne] at he'
  intro hpid
  exact hnodup.1 (hpid ▸ List.mem_map_of_mem (List.mem_of_getLast? he'))

/-- The oldest waiter is woken exactly when it is alone. -/
theorem Waiters.serves_iff (h : Waiters s W) : Serves s W irq ↔ Alone W irq := by
  obtain ⟨s', hs', hwoken⟩ := h.notify irq
  have hfirst := List.head?_filter (p := waitsFor irq) (l := W)
  unfold Serves Alone
  simp only [hs', Except.ok.injEq, exists_eq_left', ← hfirst]
  cases hF : W.filter (waitsFor irq) with
  | nil =>
    rw [hF] at hwoken
    simpa using hwoken
  | cons e F =>
    by_cases hone : irq = -1
    · -- the entry is taken for an invalid one
      simp only [hone, if_true] at hwoken
      simp only [List.head?_cons, hone, if_true, List.length_cons, Nat.le_zero, Nat.add_one_ne_zero,
        iff_false]
      rintro ⟨p, -, hp, hp', -⟩
      exact hp (hwoken p ▸ hp')
    · rw [if_neg hone] at hwoken
      simp only [List.head?_cons, if_neg hone, List.length_cons]
      cases F with
      | nil =>
        rw [hF] at hwoken
        obtain ⟨p, hp, hst, hrun, hothers⟩ := hwoken
        exact ⟨fun _ => Nat.le_refl _, fun _ => ⟨p, hp, by simp [hst], hrun, hothers⟩⟩
      | cons e₂ F =>
        obtain ⟨e', he'⟩ : ∃ e', (W.filter (waitsFor irq)).getLast? = some e' :=
          ⟨_, List.getLast?_eq_some_getLast (by simp [hF])⟩
        obtain ⟨hmem, hpid⟩ := h.youngest_ne hF (List.cons_ne_nil _ _) he'
        rw [he'] at hwoken
        obtain ⟨p', hp', hst', hrun', -⟩ := hwoken
        refine ⟨?_, fun hle => absurd hle (by simp)⟩
        rintro ⟨p, hp, -, -, hothers⟩
        have hne : p' ≠ p := by
          rintro rfl
          exact hpid ((getProc_used hp).2.symm.trans (getProc_used hp').2)
        have hsame := hothers p' hne
        rw [hrun', hst'] at hsame
        exact absurd hsame (by simp)

/-- **When interrupt waiters are served in order**: in every run in which no interrupt with several
waiters is notified, `notify` wakes exactly the oldest waiter for its interrupt, or nobody when
there is none, if and only if there is at most one. -/
theorem notify_serves_iff_alone (prev : Que.Ptr 64 → Option (Que.Ptr 64))
    (content : Que.Ptr 64 → Entry) (irqQue : Que Entry 64)
    (hq : Que.init (-1, -2) prev content = .ok irqQue) (os : List Op) (s : Sched) (W : List Entry)
    (hr : Run stepWaiters OrderlyAlone (boot irqQue, []) os (s, W)) (irq : Int) :
    Serves s W irq ↔ Alone W irq :=
  (run_waiters (boot_waiters hq) hr).serves_iff

/-- The constructor makes `irqQueInit`. -/
theorem init_irqQueInit : Que.init (-1, -2) (fun _ => none) (fun _ => (-1, -2)) = .ok irqQueInit :=
  Que.init_eq (-1, -2) _ _

/-- A process forks and waits for the disk, its child for `irq`. -/
def twoWait (irq : Int) : List Op :=
  [.initTasks, .fork, .waitInterrupt 14, .schedule, .waitInterrupt irq]

theorem notify_serves_iff_alone_twoWait :
    ∃ s, Run stepWaiters OrderlyAlone (boot irqQueInit, []) (twoWait 1)
    (s, [(14, 1), (1, 100)]) ∧ Serves s [(14, 1), (1, 100)] 14 ∧
    Serves s [(14, 1), (1, 100)] 5 := by
  have hplay : (play stepWaiters OrderlyAlone (boot irqQueInit, []) (twoWait 1)).map (·.2) =
      some [(14, 1), (1, 100)] := by
    decide +kernel
  obtain ⟨⟨s, W⟩, hs, rfl⟩ := Option.map_eq_some_iff.mp hplay
  have hserves := notify_serves_iff_alone _ _ _ init_irqQueInit (twoWait 1) s
    [(14, 1), (1, 100)] (run_of_play hs)
  exact ⟨s, run_of_play hs, (hserves 14).mpr (by decide), (hserves 5).mpr (by decide)⟩

/-- Process 1 waits for the disk before process 100 does, and the disk wakes process 100. -/
theorem notify_wakes_youngest :
    ∃ s s', Run stepWaiters OrderlyAlone (boot irqQueInit, []) (twoWait 14)
    (s, [(14, 1), (14, 100)]) ∧ s.notify 14 = .ok s' ∧
    (s'.room 0).id = 1 ∧ (s'.room 0).status = .stopped ∧
    (s'.room 2).id = 100 ∧ (s'.room 2).status = .running ∧ ¬Serves s [(14, 1), (14, 100)] 14 := by
  have hplay : ((play stepWaiters OrderlyAlone (boot irqQueInit, []) (twoWait 14)).bind fun x =>
      (x.1.notify 14).toOption.map fun s' => (x.2, (s'.room 0).id, (s'.room 0).status,
        (s'.room 2).id, (s'.room 2).status)) =
      some ([(14, 1), (14, 100)], 1, .stopped, 100, .running) := by
    decide +kernel
  obtain ⟨⟨s, W⟩, hs, hnotify⟩ := Option.bind_eq_some_iff.mp hplay
  obtain ⟨s', hs', hp⟩ := Option.map_eq_some_iff.mp hnotify
  simp only [Prod.mk.injEq] at hp
  obtain ⟨rfl, hid₀, hst₀, hid₂, hst₂⟩ := hp
  refine ⟨s, s', run_of_play hs, Res.of_toOption hs', hid₀, hst₀, hid₂, hst₂, ?_⟩
  rw [(run_waiters (boot_waiters init_irqQueInit) (run_of_play hs)).serves_iff]
  decide

end OwnOS.Sched
