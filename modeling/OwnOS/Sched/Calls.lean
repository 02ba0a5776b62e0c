import OwnOS.Lib.Run
import OwnOS.Sched.Queues

/-!
# What the calls do

One inversion lemma for each call of `task.cpp`: from the invariant and a call that returned, the
state it left, up to the links and the one status that `enque` or `deque` wrote. The properties of
runs are read off these lemmas; none of them unfolds a call again.

* `runQueues_inStep`: in every state of every run the queues are NULL-terminated lists, a runnable
  process is in exactly one of them, once, and no other process is in any; and no call walks in
  circles.
-/

namespace OwnOS.Sched

open Lib

variable {s s' t : Sched} {p q : ProcPtr} {pid millisec : Int}

theorem getProc_used (h : s.getProc pid = some p) : s.isFree p = false ∧ (s.room p).id = pid := by
  have := List.find?_some h
  simpa using this

theorem follow_eq_ok {α : Type} {x : Option α} {a : α} (h : Que.follow x = .ok a) : x = some a := by
  cases x with
  | none => exact absurd h (by simp [Que.follow])
  | some b => exact congrArg some (Except.ok.inj h)

/-! ## `wakeup` and `sleep` -/

/-- `wakeup` of a process that is found. -/
theorem Inv.wakeup (h : Inv s) (hp : s.getProc pid = some p) : ∃ t, Put s t p .running ∧
    Inv { t with schedReq := true, woken := (pid, s.timer.serial) :: s.woken } ∧
    s.wakeup pid = .ok { t with schedReq := true, woken := (pid, s.timer.serial) :: s.woken } := by
  obtain ⟨t, ht, hput, hinv⟩ := h.enque (getProc_used hp).1 0
  refine ⟨t, hput, hinv.congr rfl rfl fun _ => rfl, ?_⟩
  have htimer := hput.moves.timer
  have hwoken : t.woken = s.woken := by rw [hput.moves.same]
  unfold Sched.wakeup
  rw [hp]
  simp only [ht, Res.ok_bind, htimer, hwoken]

theorem wakeup_inv (h : Inv s) (hs : s.wakeup pid = .ok s') : ∃ p t, s.getProc pid = some p ∧
    Put s t p .running ∧
    s' = { t with schedReq := true, woken := (pid, s.timer.serial) :: s.woken } ∧
    Inv s' := by
  cases hp : s.getProc pid with
  | none => exact absurd hs (by simp [Sched.wakeup, hp])
  | some p =>
    obtain ⟨t, hput, hinv, heq⟩ := h.wakeup hp
    obtain rfl := Except.ok.inj (heq.symm.trans hs)
    exact ⟨p, t, rfl, hput, rfl, hinv⟩

/-- The timer after `sleep(pid, millisec)`. -/
def sleepTimer (timer : Timer) (pid millisec : Int) : Timer :=
  if millisec > 0 then timer.set (millisec.tdiv 10) .wakeup pid else timer

/-- `sleep` of a process that is found. -/
theorem Inv.sleep (h : Inv s) (hp : s.getProc pid = some p) (millisec : Int) :
    ∃ t, Put s t p .stopped ∧
    Inv { t with timer := sleepTimer s.timer pid millisec, schedReq := true } ∧
    s.sleep pid millisec =
      .ok { t with timer := sleepTimer s.timer pid millisec, schedReq := true } := by
  obtain ⟨hused, hid⟩ := getProc_used hp
  obtain ⟨t, ht, hput, hinv⟩ := h.deque hused
  refine ⟨t, hput, hinv.congr rfl rfl fun _ => rfl, ?_⟩
  have htimer := hput.moves.timer
  have hid' : (t.room p).id = pid := (hput.moves.id p).trans hid
  unfold Sched.sleep
  rw [hp]
  simp only [ht, Res.ok_bind, htimer, hid', sleepTimer]

theorem sleep_inv (h : Inv s) (hs : s.sleep pid millisec = .ok s') : ∃ p t, s.getProc pid = some p ∧
    Put s t p .stopped ∧
    s' = { t with timer := sleepTimer s.timer pid millisec, schedReq := true } ∧
    Inv s' := by
  cases hp : s.getProc pid with
  | none => exact absurd hs (by simp [Sched.sleep, hp])
  | some p =>
    obtain ⟨t, hput, hinv, heq⟩ := h.sleep hp millisec
    obtain rfl := Except.ok.inj (heq.symm.trans hs)
    exact ⟨p, t, rfl, hput, rfl, hinv⟩

/-- The state in which `sleep(callback)` calls `sleep`. -/
def withCallback (s : Sched) (p : ProcPtr) (callback : Nat) : Sched :=
  { s.setProc p { s.room p with retFrom := .callback callback s.sleeps.length } with
    sleeps := ⟨p, s.sleeps.length, s.selected.length⟩ :: s.sleeps }

theorem Inv.withCallback (h : Inv s) (p : ProcPtr) (callback : Nat) :
    Inv (s.withCallback p callback) := by
  refine h.congr rfl rfl fun q => ?_
  by_cases hq : q = p
  · subst hq
    simp [Sched.withCallback]
  · simp [Sched.withCallback, setProc_of_ne _ hq]

theorem sleepCallback_inv {callback : Nat} (h : Inv s) (hs : s.sleepCallback callback = .ok s') :
    ∃ p, s.pCurrent = some p ∧ Inv (s.withCallback p callback) ∧
      (s.withCallback p callback).sleep (s.room p).id (-1) = .ok s' := by
  obtain ⟨p, hp, hs⟩ := Res.bind_eq_ok.mp hs
  refine ⟨p, follow_eq_ok hp, h.withCallback p callback, ?_⟩
  have hid : ((s.withCallback p callback).room p).id = (s.room p).id := by simp [withCallback]
  rw [← hid]
  exact hs

theorem waitInterrupt_inv {irq : Int} (h : Inv s) (hs : s.waitInterrupt irq = .ok s') : ∃ p irqQue,
    s.pCurrent = some p ∧ Inv { s with irqQue := irqQue } ∧
      { s with irqQue := irqQue }.sleep (s.room p).id (-1) = .ok s' := by
  obtain ⟨p, hp, hs⟩ := Res.bind_eq_ok.mp hs
  obtain ⟨irqQue, -, hs⟩ := Res.bind_eq_ok.mp hs
  exact ⟨p, irqQue, follow_eq_ok hp, h.congr rfl rfl fun _ => rfl, hs⟩

theorem notify_inv {irq : Int} (h : Inv s) (hs : s.notify irq = .ok s') : ∃ e irqQue,
    s.irqQue.dequeOf (fun x y => x.1 == y.1) (irq, 0) = .ok (e, irqQue) ∧
    Inv { s with irqQue := irqQue } ∧
      (e.1 = -1 ∧ s' = { s with irqQue := irqQue } ∨
        e.1 ≠ -1 ∧ { s with irqQue := irqQue }.wakeup e.2 = .ok s') := by
  obtain ⟨⟨e, irqQue⟩, he, hs⟩ := Res.bind_eq_ok.mp hs
  refine ⟨e, irqQue, he, h.congr rfl rfl fun _ => rfl, ?_⟩
  simp only at hs
  split at hs
  · rename_i h1
    exact Or.inl ⟨h1, (Except.ok.inj hs).symm⟩
  · rename_i h1
    exact Or.inr ⟨h1, hs⟩

/-! ## New processes -/

/-- What comes before `k` in the table, or in the levels. -/
theorem mem_before {n : ℕ} {j k : Fin n} {before after : List (Fin n)}
    (hsplit : List.finRange n = before ++ k :: after) (hj : j < k) : j ∈ before := by
  have hsorted := List.pairwise_lt_finRange n
  rw [hsplit, List.pairwise_append] at hsorted
  have hmem : j ∈ before ++ k :: after := hsplit ▸ List.mem_finRange j
  rcases List.mem_append.mp hmem with hm | hm
  · exact hm
  · rcases List.mem_cons.mp hm with rfl | hm
    · exact absurd hj (lt_irrefl _)
    · exact absurd (hj.trans (List.rel_of_pairwise_cons hsorted.2.1 hm)) (lt_irrefl _)

theorem allocProc_inv (hs : s.allocProc = (s', some p)) :
    s.isFree p = true ∧ s' = { s with isFree := Function.update s.isFree p false } := by
  unfold Sched.allocProc at hs
  split at hs
  · rename_i i hi
    obtain ⟨rfl, hpi⟩ := Prod.mk.inj hs
    obtain rfl := Option.some.inj hpi
    exact ⟨List.find?_some hi, rfl⟩
  · exact absurd (Prod.mk.inj hs).2 (by simp)

/-- The state with the new process `x` in the free element `p`. -/
def withProc (s : Sched) (p : ProcPtr) (x : Proc) : Sched :=
  { s with isFree := Function.update s.isFree p false, room := Function.update s.room p x }

theorem makeSysProc_inv (hs : s.makeSysProc = .ok (s', p)) : s.isFree p = true ∧
    s' = s.withProc p
      { s.room p with status := .stopped, prior := psys, retFrom := .kernel2user } := by
  unfold Sched.makeSysProc at hs
  split at hs
  · rename_i t q ht
    obtain ⟨hfree, rfl⟩ := allocProc_inv ht
    obtain ⟨rfl, rfl⟩ := Prod.mk.inj (Except.ok.inj hs)
    exact ⟨hfree, rfl⟩
  · exact absurd hs (by simp)

/-- The process `fork` makes. -/
def cloneOf (s : Sched) (current : ProcPtr) : Proc :=
  ⟨s.pidGen, (s.room current).prior, .stopped, .retFromFork⟩

theorem fork_inv (h : Inv s) (hs : s.fork = .ok s') : ∃ current clone, s.pCurrent = some current ∧
    s.isFree clone = true ∧
    Inv { s.withProc clone (s.cloneOf current) with pidGen := s.pidGen + 1 } ∧
    { s.withProc clone (s.cloneOf current) with pidGen := s.pidGen + 1 }.wakeup s.pidGen =
      .ok s' := by
  obtain ⟨current, hcur, hs⟩ := Res.bind_eq_ok.mp hs
  split at hs
  · rename_i t clone ht
    obtain ⟨hfree, rfl⟩ := allocProc_inv ht
    refine ⟨current, clone, follow_eq_ok hcur, hfree, ?_, hs⟩
    exact (h.alloc hfree (x := s.cloneOf current) rfl).congr rfl rfl fun _ => rfl
  · exact absurd hs (by simp)

/-- `pinit` and `pkernel` as `init_tasks` makes them. -/
def procInit : Proc := ⟨1, psys, .stopped, .kernel2user⟩

def procKernel : Proc := ⟨-1, psys, .stopped, .kernel2user⟩

/-- The state in which `init_tasks` calls `enque`: two new processes, which then got their ids. -/
theorem initTasks_procs {s₁ s₂ : Sched} {pinit pkernel : ProcPtr} (h : Inv s)
    (h₁ : s.makeSysProc = .ok (s₁, pinit)) (h₂ : s₁.makeSysProc = .ok (s₂, pkernel)) :
    s.isFree pinit = true ∧ s.isFree pkernel = true ∧ pinit ≠ pkernel ∧
    (s₂.setProc pkernel { s₂.room pkernel with id := -1 }).setProc pinit
        { (s₂.setProc pkernel { s₂.room pkernel with id := -1 }).room pinit with id := 1 } =
      (s.withProc pinit procInit).withProc pkernel procKernel ∧
    Inv ((s.withProc pinit procInit).withProc pkernel procKernel) ∧
    ((s.withProc pinit procInit).withProc pkernel procKernel).isFree pinit = false := by
  obtain ⟨hf₁, rfl⟩ := makeSysProc_inv h₁
  obtain ⟨hf₂, rfl⟩ := makeSysProc_inv h₂
  have hne : pinit ≠ pkernel := by
    rintro rfl
    simp [withProc] at hf₂
  have hf₂' : s.isFree pkernel = true := by
    simpa [withProc, Function.update_of_ne hne.symm] using hf₂
  refine ⟨hf₁, hf₂', hne, ?_, ?_, ?_⟩
  · simp only [withProc, setProc, Sched.mk.injEq, and_true]
    funext i
    by_cases hi : i = pinit
    · subst hi
      simp [hne, procInit]
    · by_cases hi' : i = pkernel
      · subst hi'
        simp [hne.symm, procKernel]
      · simp [hi, hi']
  · have hinv := h.alloc (x := procInit) hf₁ rfl
    exact hinv.alloc (x := procKernel) hf₂ rfl
  · simp [withProc, Function.update_of_ne hne]

/-- `init_tasks`: two new processes, the first of them current and runnable. -/
theorem initTasks_inv (h : Inv s) (hs : s.initTasks = .ok s') : ∃ pinit pkernel t,
    s.isFree pinit = true ∧ s.isFree pkernel = true ∧ pinit ≠ pkernel ∧
    Put ((s.withProc pinit procInit).withProc pkernel procKernel) t pinit .running ∧
    s' = { t with
      pCurrent := some pinit, timer := s.timer.resetQuantum (interval 0) (t.room pinit).id } ∧
          Inv s' := by
  obtain ⟨⟨s₁, pinit⟩, h₁, hs⟩ := Res.bind_eq_ok.mp hs
  obtain ⟨⟨s₂, pkernel⟩, h₂, hs⟩ := Res.bind_eq_ok.mp hs
  obtain ⟨hf₁, hf₂, hne, heq, hinv, hused⟩ := initTasks_procs h h₁ h₂
  obtain ⟨t, ht, hs⟩ := Res.bind_eq_ok.mp hs
  rw [heq] at ht
  obtain ⟨t', ht', hput, hinv'⟩ := hinv.enque hused 0
  obtain rfl := Except.ok.inj (ht'.symm.trans ht)
  obtain rfl := Except.ok.inj hs
  have htimer := hput.moves.timer
  refine ⟨pinit, pkernel, t', hf₁, hf₂, hne, hput, ?_, hinv'.congr rfl rfl fun _ => rfl⟩
  rw [htimer]
  rfl

/-! ## `schedule` -/

/-- A reschedule was requested, or the quantum was exceeded. -/
def Requested (s : Sched) : Prop := s.schedReq = true ∨ s.timer.quantumExceeded = true

instance : Decidable s.Requested := inferInstanceAs (Decidable (_ ∨ _))

/-- `sched_req=timer.quantum_exceeded=false` (`task.cpp:80`). -/
def clearFlags (s : Sched) : Sched :=
  { s with schedReq := false, timer := { s.timer with quantumExceeded := false } }

/-- Everything `schedule` does before the switch: `t` has the selected process in its next queue. -/
def requeued (s t : Sched) (k : Level) (p : ProcPtr) : Sched :=
  { t with timer := s.clearFlags.timer.resetQuantum (interval (nlevel k)) (s.room p).id }

theorem firstHead_eq_none : s.firstHead = none ↔ ∀ k, s.links.head k = none := by
  simp [Sched.firstHead, List.findSome?_eq_none_iff]

theorem firstHead_eq_some {k : Level} (h : s.firstHead = some (k, p)) :
    s.links.head k = some p := by
  obtain ⟨k', -, hk⟩ := List.exists_of_findSome?_eq_some h
  obtain ⟨p', hp', heq⟩ := Option.map_eq_some_iff.mp hk
  obtain ⟨rfl, rfl⟩ := Prod.mk.inj heq
  exact hp'

/-- The head of a queue is the first of its list. -/
theorem Queues.head_eq {Q : Level → List ProcPtr} (h : Queues s Q) (k : Level) :
    s.links.head k = (Q k).head? := by
  have hpath := h.lists.path k
  cases hQ : Q k with
  | nil =>
    rw [hQ] at hpath
    exact hpath
  | cons i l =>
    rw [hQ] at hpath
    exact hpath.1

/-- All queues are empty when no process is runnable. -/
theorem Inv.firstHead_none (h : Inv s) :
    s.firstHead = none ↔ ∀ p, (s.room p).status ≠ .running := by
  obtain ⟨Q, hQ⟩ := h.queues
  rw [firstHead_eq_none]
  constructor
  · intro hnone p hp
    obtain ⟨k, hk⟩ := (hQ.running p).mp hp
    have hhead := hnone k
    rw [hQ.head_eq k, List.head?_eq_none_iff] at hhead
    exact absurd hk (by simp [hhead])
  · intro hst k
    rw [hQ.head_eq k, List.head?_eq_none_iff, List.eq_nil_iff_forall_not_mem]
    intro p hp
    exact hst p ((hQ.running p).mpr ⟨k, hp⟩)

/-- The head of a queue moves to the end of another. -/
theorem Inv.requeue {k : Level} (h : Inv s) (hhead : s.links.head k = some p) (level : Level) :
    (s.room p).status = .running ∧ ∃ t, Put s t p .running ∧ Inv t ∧
      ((s.setStatus p .stopped).assign (.head k) (s.links.next p)).enque p level = .ok t := by
  obtain ⟨Q, hQ⟩ := h.queues
  obtain ⟨l, hl⟩ : ∃ l, Q k = [] ++ p :: l := by
    have := hQ.head_eq k
    rw [hhead] at this
    exact List.head?_eq_some_iff.mp this.symm
  have hrun : (s.room p).status = .running := (hQ.running p).mpr ⟨k, by simp [hl]⟩
  have hused : s.isFree p = false := by
    by_contra hfree
    rw [Bool.not_eq_false] at hfree
    exact absurd ((h.free p hfree).symm.trans hrun) (by simp)
  -- `schedule` takes the process out by hand, as `deque` does
  have hothers : ∀ q ≠ p,
      ((s.setStatus p .stopped).assign (.head k) (s.links.next p)).room q = s.room q :=
    fun q hq => setStatus_of_ne hq
  have hput : Put s ((s.setStatus p .stopped).assign (.head k) (s.links.next p)) p .stopped :=
    ⟨(Moves.setStatus s _ _).trans (Moves.assign _ _ _), setStatus_self, hothers⟩
  have hinv := h.put hused hput ⟨_, hQ.unlink hl⟩ (Or.inr rfl)
  obtain ⟨t, ht, hput', hinv'⟩ := hinv.enque hused level
  refine ⟨hrun, t, ⟨hput.moves.trans hput'.moves, hput'.status, ?_⟩, hinv', ht⟩
  intro q hq
  rw [hput'.others q hq, hothers q hq]

theorem switchTo_status (s : Sched) (p q : ProcPtr) :
    ((s.switchTo p).room q).status = (s.room q).status := by
  unfold Sched.switchTo
  split
  · rfl
  · by_cases hq : q = p
    · subst hq
      simp
    · simp [setProc_of_ne _ hq]

theorem switchTo_links (s : Sched) (p : ProcPtr) : (s.switchTo p).links = s.links := by
  unfold Sched.switchTo
  split <;> rfl

theorem Inv.switchTo (h : Inv s) (p : ProcPtr) : Inv (s.switchTo p) := by
  refine h.congr (switchTo_links s p) ?_ (switchTo_status s p)
  · unfold Sched.switchTo
    split <;> rfl

/-- A requested `schedule`. -/
theorem schedule_requested (hreq : s.Requested) :
    s.schedule = (match s.clearFlags.firstHead with
      | none => .ok s.clearFlags
      | some (k, p) => do
        let t := s.clearFlags.setStatus p .stopped
        let t := t.assign (.head k) (t.links.next p)
        let t ← t.enque p (nlevel k)
        let t := { t with timer := t.timer.resetQuantum (interval (nlevel k)) (t.room p).id }
        .ok (t.switchTo p)) := by
  have hcond : ¬(¬s.schedReq ∧ ¬s.timer.quantumExceeded) := by
    rintro ⟨h₁, h₂⟩
    exact hreq.elim h₁ h₂
  unfold Sched.schedule
  rw [if_neg hcond]
  rfl

/-- `schedule` in its three cases. -/
theorem Inv.schedule (h : Inv s) :
    (¬s.Requested ∧ s.schedule = .ok s) ∨
    (s.Requested ∧ (∀ p, (s.room p).status ≠ .running) ∧ s.schedule = .ok s.clearFlags) ∨
    (s.Requested ∧ ∃ k p t, s.firstHead = some (k, p) ∧ (s.room p).status = .running ∧
      Put s.clearFlags t p .running ∧ Inv t ∧
      s.schedule = .ok ((s.requeued t k p).switchTo p)) := by
  have hclear : Inv s.clearFlags := h.congr rfl rfl fun _ => rfl
  by_cases hreq : s.Requested
  · cases hhead : s.firstHead with
    | none =>
      refine Or.inr (Or.inl ⟨hreq, h.firstHead_none.mp hhead, ?_⟩)
      have hhead' : s.clearFlags.firstHead = none := hhead
      rw [schedule_requested hreq, hhead']
    | some kp =>
      obtain ⟨k, p⟩ := kp
      have hhead' : s.clearFlags.firstHead = some (k, p) := hhead
      obtain ⟨hrun, t, hput, hinv, ht⟩ := hclear.requeue (firstHead_eq_some hhead') (nlevel k)
      refine Or.inr (Or.inr ⟨hreq, k, p, t, rfl, hrun, hput, hinv, ?_⟩)
      have htimer : t.timer = s.clearFlags.timer := hput.moves.timer
      have hid : (t.room p).id = (s.room p).id := hput.moves.id p
      rw [schedule_requested hreq, hhead']
      change (((s.clearFlags.setStatus p .stopped).assign (.head k)
        (s.clearFlags.links.next p)).enque p (nlevel k) >>= fun s => _) = _
      rw [ht, Res.ok_bind, htimer, hid]
      rfl
  · refine Or.inl ⟨hreq, ?_⟩
    have hcond : ¬s.schedReq ∧ ¬s.timer.quantumExceeded := not_or.mp hreq
    unfold Sched.schedule
    rw [if_pos hcond]

theorem schedule_inv (h : Inv s) (hs : s.schedule = .ok s') :
    (¬s.Requested ∧ s' = s) ∨
    (s.Requested ∧ (∀ p, (s.room p).status ≠ .running) ∧ s' = s.clearFlags) ∨
    (s.Requested ∧ ∃ k p t, s.firstHead = some (k, p) ∧ (s.room p).status = .running ∧
      Put s.clearFlags t p .running ∧ Inv t ∧ s' = (s.requeued t k p).switchTo p) := by
  rcases h.schedule with ⟨hreq, heq⟩ | ⟨hreq, hst, heq⟩ |
    ⟨hreq, k, p, t, hhead, hrun, hput, hinv, heq⟩
  · exact Or.inl ⟨hreq, Except.ok.inj (hs.symm.trans heq)⟩
  · exact Or.inr (Or.inl ⟨hreq, hst, Except.ok.inj (hs.symm.trans heq)⟩)
  · exact Or.inr
      (Or.inr ⟨hreq, k, p, t, hhead, hrun, hput, hinv, Except.ok.inj (hs.symm.trans heq)⟩)

/-! ## Steps and runs -/

/-- A tick calls `wakeup` for the `Wakeup` entries that it handles, in order. -/
theorem wakeDue_eq (s : Sched) (l : List Timer.Entry) :
    s.wakeDue l = (Timer.wakeups l).foldlM Sched.wakeup s := by
  induction l generalizing s with
  | nil => rfl
  | cons e l ih =>
    unfold Sched.wakeDue Timer.wakeups
    rw [List.filter_cons]
    by_cases hk : e.alarm.kind = .wakeup
    · rw [if_pos (decide_eq_true hk), List.map_cons, List.foldlM_cons, hk]
      exact bind_congr fun s => ih s
    · rw [if_neg (by simpa using hk)]
      split
      · rename_i h
        exact absurd h hk
      · exact ih s

/-- The wake-ups of a tick, one after the other. -/
theorem wakeDue_induction {I : Sched → Prop} (hI : ∀ s, I s → Inv s)
    (hstep : ∀ s pid s', I s → s.wakeup pid = .ok s' → I s') :
    ∀ {l : List Timer.Entry} {s : Sched}, I s → s.wakeDue l = .ok s' → I s'
  | [], s, h, hs => by
    obtain rfl := Except.ok.inj hs
    exact h
  | e :: l, s, h, hs => by
    unfold Sched.wakeDue at hs
    split at hs
    · obtain ⟨t, ht, hs⟩ := Res.bind_eq_ok.mp hs
      exact wakeDue_induction hI hstep (hstep s _ t h ht) hs
    · exact wakeDue_induction hI hstep h hs

/-- **One call keeps the invariant.** -/
theorem Inv.step {o : Op} (h : Inv s) (hs : Sched.step s o = .ok s') : Inv s' := by
  have hwake : ∀ s pid s', Inv s → s.wakeup pid = .ok s' → Inv s' := by
    intro s pid s' h hs
    obtain ⟨p, t, -, -, -, hinv⟩ := wakeup_inv h hs
    exact hinv
  have hsleep : ∀ {s s' : Sched} {pid millisec : Int}, Inv s → s.sleep pid millisec = .ok s' →
      Inv s' := by
    intro s s' pid millisec h hs
    obtain ⟨p, t, -, -, -, hinv⟩ := sleep_inv h hs
    exact hinv
  cases o with
  | initTasks =>
    obtain ⟨pinit, pkernel, t, -, -, -, -, -, hinv⟩ := initTasks_inv h hs
    exact hinv
  | fork =>
    obtain ⟨current, clone, -, -, hinv, hs⟩ := fork_inv h hs
    exact hwake _ _ _ hinv hs
  | sleep pid millisec => exact hsleep h hs
  | sleepCallback callback =>
    obtain ⟨p, -, hinv, hs⟩ := sleepCallback_inv h hs
    exact hsleep hinv hs
  | wakeup pid => exact hwake _ _ _ h hs
  | waitInterrupt irq =>
    obtain ⟨p, irqQue, -, hinv, hs⟩ := waitInterrupt_inv h hs
    exact hsleep hinv hs
  | notify irq =>
    obtain ⟨e, irqQue, -, hinv, ⟨-, rfl⟩ | ⟨-, hs⟩⟩ := notify_inv h hs
    · exact hinv
    · exact hwake _ _ _ hinv hs
  | tick =>
    have hinv : Inv { s with timer := s.timer.handler.1 } := h.congr rfl rfl fun _ => rfl
    exact wakeDue_induction (l := s.timer.handler.2) (fun _ h => h) hwake hinv hs
  | schedule =>
    rcases schedule_inv h hs with ⟨-, rfl⟩ | ⟨-, -, rfl⟩ | ⟨-, k, p, t, -, -, -, hinv, rfl⟩
    · exact h
    · exact h.congr rfl rfl fun _ => rfl
    · have hinv' : Inv (s.requeued t k p) := hinv.congr rfl rfl fun _ => rfl
      exact hinv'.switchTo p

/-- Every call may be made at any time. -/
def Any (_ : Sched) (_ : Op) : Prop := True

instance (s : Sched) (o : Op) : Decidable (Any s o) := isTrue trivial

theorem run_inv {irqQue : Que Entry 64} {legal : Sched → Op → Prop} {os : List Op}
    (hr : Run step legal (boot irqQue) os s) : Inv s :=
  hr.invariant (fun _ _ _ hi _ hs => hi.step hs) (boot_inv irqQue)

/-! ## No call walks in circles -/

theorem bind_ne_hang {α β : Type} {x : Res α} {f : α → Res β} (hx : x ≠ .error .hang)
    (hf : ∀ a, x = .ok a → f a ≠ .error .hang) : (x >>= f) ≠ .error .hang := by
  cases x with
  | error e => simpa using hx
  | ok a => exact hf a rfl

theorem follow_ne_hang {α : Type} (x : Option α) : Que.follow x ≠ .error .hang := by
  cases x <;> simp [Que.follow]

section Que

variable {T : Type} {N : Nat}

theorem que_enque_ne_hang (q : Que T N) (x : T) : q.enque x ≠ .error .hang := by
  unfold Que.enque
  split
  · simp
  · refine bind_ne_hang (follow_ne_hang _) fun head _ => ?_
    refine bind_ne_hang (follow_ne_hang _) fun a _ => ?_
    refine bind_ne_hang (follow_ne_hang _) fun n _ => ?_
    simp

theorem que_dequeOfLoop_ne_hang (eq : T → T → Bool) (q : Que T N) (a : T) :
    ∀ (n : Nat) (curr : Option (Que.Ptr N)), q.dequeOfLoop eq a n curr ≠ .error .hang
  | 0, _ => by simp [Que.dequeOfLoop]
  | n + 1, curr => by
    refine bind_ne_hang (follow_ne_hang _) fun c _ => ?_
    split
    · refine bind_ne_hang (follow_ne_hang _) fun p _ => ?_
      refine bind_ne_hang (follow_ne_hang _) fun n _ => ?_
      simp
    · exact que_dequeOfLoop_ne_hang eq q a n _

theorem que_dequeOf_ne_hang (eq : T → T → Bool) (q : Que T N) (a : T) :
    q.dequeOf eq a ≠ .error .hang :=
  bind_ne_hang (follow_ne_hang _) fun _ _ => que_dequeOfLoop_ne_hang eq q a _ _

end Que

theorem Inv.wakeup_ne_hang (h : Inv s) : s.wakeup pid ≠ .error .hang := by
  cases hp : s.getProc pid with
  | none => simp [Sched.wakeup, hp]
  | some p =>
    obtain ⟨t, -, -, heq⟩ := h.wakeup hp
    simp [heq]

theorem Inv.sleep_ne_hang (h : Inv s) : s.sleep pid millisec ≠ .error .hang := by
  cases hp : s.getProc pid with
  | none => simp [Sched.sleep, hp]
  | some p =>
    obtain ⟨t, -, -, heq⟩ := h.sleep hp millisec
    simp [heq]

theorem Inv.wakeDue_ne_hang :
    ∀ {l : List Timer.Entry} {s : Sched}, Inv s → s.wakeDue l ≠ .error .hang
  | [], s, _ => by simp [Sched.wakeDue]
  | e :: l, s, h => by
    unfold Sched.wakeDue
    split
    · refine bind_ne_hang h.wakeup_ne_hang fun t ht => ?_
      obtain ⟨p, u, -, -, -, hinv⟩ := wakeup_inv h ht
      exact Inv.wakeDue_ne_hang hinv
    · exact Inv.wakeDue_ne_hang h

theorem makeSysProc_ne_hang (s : Sched) : s.makeSysProc ≠ .error .hang := by
  unfold Sched.makeSysProc
  split <;> simp

/-- **Every call returns or panics**: none walks a queue for ever. -/
theorem Inv.step_ne_hang (h : Inv s) (o : Op) : Sched.step s o ≠ .error .hang := by
  cases o with
  | initTasks =>
    refine bind_ne_hang (makeSysProc_ne_hang s) fun x₁ h₁ => ?_
    refine bind_ne_hang (makeSysProc_ne_hang _) fun x₂ h₂ => ?_
    obtain ⟨-, -, -, heq, hinv, hused⟩ := initTasks_procs h h₁ h₂
    obtain ⟨t, ht, -⟩ := hinv.enque hused 0
    refine bind_ne_hang ?_ fun _ _ => by simp
    rw [heq, ht]
    simp
  | fork =>
    refine bind_ne_hang (follow_ne_hang _) fun current _ => ?_
    split
    · rename_i t clone ht
      obtain ⟨hfree, rfl⟩ := allocProc_inv ht
      have hinv := h.alloc (x := s.cloneOf current) hfree rfl
      exact Inv.wakeup_ne_hang (hinv.congr rfl rfl fun _ => rfl)
    · simp
  | sleep pid millisec => exact h.sleep_ne_hang
  | sleepCallback callback =>
    refine bind_ne_hang (follow_ne_hang _) fun p hp => ?_
    have hinv : Inv (s.withCallback p callback) := h.withCallback p callback
    exact hinv.sleep_ne_hang
  | wakeup pid => exact h.wakeup_ne_hang
  | waitInterrupt irq =>
    refine bind_ne_hang (follow_ne_hang _) fun p _ => ?_
    refine bind_ne_hang (que_enque_ne_hang _ _) fun irqQue _ => ?_
    have hinv : Inv { s with irqQue := irqQue } := h.congr rfl rfl fun _ => rfl
    exact hinv.sleep_ne_hang
  | notify irq =>
    refine bind_ne_hang (que_dequeOf_ne_hang _ _ _) fun x _ => ?_
    obtain ⟨e, irqQue⟩ := x
    have hinv : Inv { s with irqQue := irqQue } := h.congr rfl rfl fun _ => rfl
    change (if e.1 = -1 then _ else _) ≠ _
    split
    · simp
    · exact hinv.wakeup_ne_hang
  | tick =>
    have hinv : Inv { s with timer := s.timer.handler.1 } := h.congr rfl rfl fun _ => rfl
    exact hinv.wakeDue_ne_hang
  | schedule =>
    change s.schedule ≠ _
    rcases h.schedule with ⟨-, heq⟩ | ⟨-, -, heq⟩ | ⟨-, k, p, t, -, -, -, -, heq⟩ <;> simp [heq]

/-! ## The run queues of every run -/

/-- The queues `Q` of a state: each a NULL-terminated list, a runnable process once in one of them,
any other process in none. -/
def InStep (s : Sched) (Q : Level → List ProcPtr) : Prop :=
  (∀ k, s.links.Path (.head k) (Q k) none) ∧
  ∀ p, if (s.room p).status = .running then ∃ k, (Q k).count p = 1 ∧ ∀ k' ≠ k, p ∉ Q k'
    else ∀ k, p ∉ Q k

theorem Queues.inStep {Q : Level → List ProcPtr} (h : Queues s Q) : InStep s Q := by
  refine ⟨h.lists.path, fun p => ?_⟩
  split
  · rename_i hp
    obtain ⟨k, hk⟩ := (h.running p).mp hp
    refine ⟨k, List.count_eq_one_of_mem (h.lists.nodup k) hk, ?_⟩
    intro k' hne hk'
    exact hne (h.lists.disjoint hk' hk)
  · rename_i hp
    intro k hk
    exact hp ((h.running p).mpr ⟨k, hk⟩)

/-- **The queues and the statuses are in step** in every state of every run, and every further call
returns or panics. -/
theorem runQueues_inStep {irqQue : Que Entry 64} {os : List Op}
    (hr : Run step Any (boot irqQue) os s) :
    (∃ Q, InStep s Q) ∧ ∀ o, Sched.step s o ≠ .error .hang := by
  have h := run_inv hr
  obtain ⟨Q, hQ⟩ := h.queues
  exact ⟨⟨Q, hQ.inStep⟩, h.step_ne_hang⟩

/-- `irqQue` as its constructor leaves it. -/
def irqQueInit : Que Entry 64 where
  invalid := (-1, -2)
  head := some 0
  tail := some 1
  num := 0
  next := Function.update (Function.update (fun _ => none) 0 (some 1)) 1 none
  prev := Function.update (Function.update (fun _ => none) 1 (some 0)) 0 none
  content _ := (-1, -2)
  isFree := Function.update (Function.update (fun _ => true) 0 false) 1 false

/-- The first process forks, both run, it sleeps and its timer wakes it. -/
def forkAndSleep : List Op :=
  [.initTasks, .fork, .schedule, .schedule, .sleep 1 10, .schedule, .tick, .schedule]

theorem runQueues_inStep_forkAndSleep : ∃ s, Run step Any (boot irqQueInit) forkAndSleep s ∧
    s.pCurrent = some 0 ∧ (∃ Q, InStep s Q) ∧ ∀ o, Sched.step s o ≠ .error .hang := by
  have hplay : (play step Any (boot irqQueInit) forkAndSleep).map (·.pCurrent) = some (some 0) := by
    decide +kernel
  obtain ⟨s, hs, hcur⟩ := Option.map_eq_some_iff.mp hplay
  exact ⟨s, run_of_play hs, hcur, runQueues_inStep (run_of_play hs)⟩

end OwnOS.Sched
