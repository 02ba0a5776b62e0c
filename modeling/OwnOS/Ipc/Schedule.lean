import OwnOS.Ipc.Queues

/-!
# What `schedule` does

`schedule_spec`: it stays with the current process, or resumes the one at the head of the first
queue that is not empty; that one first runs `recv_later` if it went to sleep in `recv`.
-/

namespace OwnOS.Ipc

namespace Kernel

variable {k k' : Kernel} {p q id : Pid} {mess : Message}

/-- `schedule` was asked for. -/
def requested (k : Kernel) : Bool := k.schedReq || k.quantumExceeded

/-- `schedule` resumed `p`, which took the message at the end of its `sendQ` if it was waiting in
`recv`. -/
structure Resumes (k k' : Kernel) (p : Pid) : Prop where
  other : p ≠ k.pCurrent
  pCurrent : k'.pCurrent = p
  retFrom : ∀ q, (k'.proc q).retFrom = if q = p then .kernel2user else (k.proc q).retFrom
  wait : ∀ q, (k'.proc q).wait = if q = p then .none else (k.proc q).wait
  takes :
    ((k.proc p).retFrom ≠ .recvLater ∧ k'.taken = k.taken ∧
      ∀ q, (k'.proc q).sendQ = (k.proc q).sendQ) ∨
    ((k.proc p).retFrom = .recvLater ∧ ∃ e, (k.proc p).sendQ.getLast? = some e ∧
      e.msg.isValid = true ∧ k'.taken = ⟨p, (k.proc p).wait, e, none⟩ :: k.taken ∧
      ∀ q, (k'.proc q).sendQ = if q = p then (k.proc p).sendQ.dropLast else (k.proc q).sendQ)

/-- `schedule` stayed with the current process. -/
structure Stays (k k' : Kernel) : Prop where
  pCurrent : k'.pCurrent = k.pCurrent
  taken : k'.taken = k.taken
  retFrom : ∀ q, (k'.proc q).retFrom = (k.proc q).retFrom
  wait : ∀ q, (k'.proc q).wait = (k.proc q).wait
  sendQ : ∀ q, (k'.proc q).sendQ = (k.proc q).sendQ
  why : k.requested = false ∨ k.next = none ∨ ∃ i, k.next = some (i, k.pCurrent)

/-- What `schedule` does. -/
structure Schedules (k k' : Kernel) : Prop where
  live : k'.live = k.live
  clock : k'.clock = k.clock
  sent : k'.sent = k.sent
  trapped : k'.trapped = false
  recvQ : ∀ q, (k'.proc q).recvQ = (k.proc q).recvQ
  recvAnyQ : ∀ q, (k'.proc q).recvAnyQ = (k.proc q).recvAnyQ
  queues : Queues k → Queues k' ∧ ∀ q, (k'.proc q).status = (k.proc q).status
  branch : Stays k k' ∨ k.requested = true ∧ ∃ i p, k.next = some (i, p) ∧ Resumes k k' p

/-- `next` is at the head of its queue. -/
theorem next_some {i : Fin 4} (h : k.next = some (i, p)) : (k.pHead i).head? = some p := by
  obtain ⟨j, -, hj⟩ := List.exists_of_findSome?_eq_some h
  obtain ⟨q, hq, he⟩ := Option.map_eq_some_iff.mp hj
  obtain ⟨rfl, rfl⟩ := Prod.mk.inj he
  exact hq

/-- The turn of the run queues: `p` goes from the head of level `i` to the end of the next. -/
structure Turns (k k' : Kernel) : Prop where
  live : k'.live = k.live
  pCurrent : k'.pCurrent = k.pCurrent
  clock : k'.clock = k.clock
  sent : k'.sent = k.sent
  taken : k'.taken = k.taken
  trapped : k'.trapped = k.trapped
  proc : ∀ q, k'.proc q = { k.proc q with status := (k'.proc q).status }
  queues : Queues k → Queues k' ∧ ∀ q, (k'.proc q).status = (k.proc q).status

theorem leave_sleeps {i : Fin 4} (hh : (k.pHead i).head? = some p) : Sleeps k (k.leave i p) p := by
  refine ⟨fun q => setStatus_status k p q .stopped, i, List.mem_of_mem_head? hh, ?_⟩
  obtain ⟨t, ht⟩ := List.head?_eq_some_iff.mp hh
  simp [leave, ht]

/-- `enque` of a stopped process. -/
theorem enqueProc_stopped {i : Fin 4} (hs : (k.proc p).status = .stopped)
    (h : k.enqueProc p i = .ok k') : ∃ j, k' = { k.setProc p ({ · with status := .running }) with
      pHead := Function.update k.pHead j (k.pHead j ++ [p]) } := by
  unfold enqueProc at h
  rw [hs] at h
  exact ⟨_, (Except.ok.inj h).symm⟩

theorem turn_spec {i : Fin 4} (hh : (k.pHead i).head? = some p)
    (h : (k.leave i p).enqueProc p (nlevel i) = .ok k') : Turns k k' := by
  have hs := leave_sleeps hh
  have hstop : ((k.leave i p).proc p).status = .stopped := by
    rw [hs.1, if_pos rfl]
  obtain ⟨j, rfl⟩ := enqueProc_stopped hstop h
  have hstatus := fun q => setStatus_status (k.leave i p) p q .running
  refine ⟨rfl, rfl, rfl, rfl, rfl, rfl, ?_, ?_⟩
  · intro q
    refine (setStatus_proc (k.leave i p) p q .running).trans ?_
    rw [show (k.leave i p).proc q = _ from setStatus_proc k p q .stopped]
  · intro hq
    have hrun := (hq.runnable p).mp ⟨i, List.mem_of_mem_head? hh⟩
    refine ⟨(hq.sleeps hs rfl).wakes (Or.inr ⟨hstop, hstatus, j, rfl⟩) rfl hrun.1, ?_⟩
    intro q
    refine (hstatus q).trans ?_
    rw [hs.1]
    split
    · rename_i h
      rw [h, hrun.2]
    · rfl

/-- `recv_later`, when it returns. -/
structure Drops (k k' : Kernel) (e : Sent) : Prop where
  oldest : (k.proc k.pCurrent).sendQ.getLast? = some e
  valid : e.msg.isValid = true
  live : k'.live = k.live
  pCurrent : k'.pCurrent = k.pCurrent
  pHead : k'.pHead = k.pHead
  clock : k'.clock = k.clock
  sent : k'.sent = k.sent
  trapped : k'.trapped = k.trapped
  taken : k'.taken = ⟨k.pCurrent, (k.proc k.pCurrent).wait, e, none⟩ :: k.taken
  proc : ∀ q, k'.proc q = { k.proc q with
    sendQ := if q = k.pCurrent then (k.proc k.pCurrent).sendQ.dropLast else (k.proc q).sendQ }

theorem recvLater_spec (h : k.recvLater = .ok k') : ∃ e, Drops k k' e := by
  unfold recvLater deque at h
  simp only at h
  split at h
  · rename_i e rest he
    obtain ⟨hlast, rfl⟩ := Prod.mk.inj he
    split at h
    · rename_i hv
      obtain rfl := Except.ok.inj h
      refine ⟨e, hlast, hv, rfl, rfl, rfl, rfl, rfl, rfl, rfl, ?_⟩
      intro q
      simp only [setProc_proc]
      split
      · rename_i hq
        rw [hq]
      · rfl
    · exact absurd h (by simp)
  · exact absurd h (by simp)

/-- The switch comes back to the current process, or resumes another. -/
theorem switch_cases {i : Fin 4} (h : k.switch i p = .ok k') : ∃ k₁,
    (k.leave i p).enqueProc p (nlevel i) = .ok k₁ ∧
    (p = k₁.pCurrent ∧ k' = k₁ ∨
      p ≠ k₁.pCurrent ∧ ∃ k₂, (k₁.enter p).callback (k₁.proc p).retFrom = .ok k₂ ∧
        k' = k₂.setProc p ({ · with wait := .none })) := by
  obtain ⟨k₁, h₁, h⟩ := Res.bind_eq_ok.mp h
  refine ⟨k₁, h₁, ?_⟩
  by_cases hp : p = k₁.pCurrent
  · exact Or.inl ⟨hp, (Except.ok.inj ((if_pos hp).symm.trans h)).symm⟩
  · obtain ⟨k₂, h₂, h⟩ := Res.bind_eq_ok.mp ((if_neg hp).symm.trans h)
    exact Or.inr ⟨hp, k₂, h₂, (Except.ok.inj h).symm⟩

/-- The callback of a process that `schedule` resumes. -/
theorem callback_cases {func : RetFrom} (h : k.callback func = .ok k') :
    func ≠ .recvLater ∧ k' = k ∨ func = .recvLater ∧ k.recvLater = .ok k' := by
  cases func with
  | kernel2user => exact Or.inl ⟨by simp, (Except.ok.inj h).symm⟩
  | retFromFork => exact Or.inl ⟨by simp, (Except.ok.inj h).symm⟩
  | recvLater => exact Or.inr ⟨rfl, h⟩

theorem enter_proc (k : Kernel) (p q : Pid) : (k.enter p).proc q =
    { k.proc q with retFrom := if q = p then .kernel2user else (k.proc q).retFrom } := by
  unfold enter
  simp only [setProc_proc]
  split
  · rename_i hq
    rw [hq]
  · rfl

/-- What a switch to another process does besides the turn of the queues. -/
theorem resume_spec {k₁ k₂ : Kernel} (hp : p ≠ k.pCurrent) (ht : Turns k k₁)
    (h : (k₁.enter p).callback (k₁.proc p).retFrom = .ok k₂) :
    Resumes k (k₂.setProc p ({ · with wait := .none })) p ∧ k₂.live = k.live ∧ k₂.clock = k.clock ∧
      k₂.sent = k.sent ∧ k₂.trapped = k.trapped ∧ k₂.pHead = k₁.pHead ∧
      ∀ q, (k₂.proc q).recvQ = (k.proc q).recvQ ∧ (k₂.proc q).recvAnyQ = (k.proc q).recvAnyQ ∧
        (k₂.proc q).status = (k₁.proc q).status := by
  have hret : (k₁.proc p).retFrom = (k.proc p).retFrom := by rw [ht.proc p]
  have hset : ∀ q, (k₁.enter p).proc q = { k.proc q with
        status := (k₁.proc q).status
        retFrom := if q = p then .kernel2user else (k.proc q).retFrom } := by
    intro q
    rw [enter_proc, ht.proc q]
  rcases callback_cases h with ⟨hf, rfl⟩ | ⟨hf, hl⟩
  · refine ⟨⟨hp, rfl, ?_, ?_, Or.inl ⟨hret ▸ hf, ht.taken, ?_⟩⟩,
      ht.live, ht.clock, ht.sent, ht.trapped, rfl, ?_⟩
    · intro q
      rw [setWait_proc, hset q]
    · intro q
      rw [setWait_proc, hset q]
    · intro q
      rw [setWait_proc, hset q]
    · intro q
      rw [hset q]
      exact ⟨rfl, rfl, rfl⟩
  · obtain ⟨e, hd⟩ := recvLater_spec hl
    have hcur : (k₁.enter p).pCurrent = p := rfl
    have hold : ((k₁.enter p).proc p).sendQ = (k.proc p).sendQ := by rw [hset p]
    have hwait : ((k₁.enter p).proc p).wait = (k.proc p).wait := by rw [hset p]
    refine ⟨⟨hp, hd.pCurrent, ?_, ?_, Or.inr ⟨hret ▸ hf, e, ?_, hd.valid, ?_, ?_⟩⟩,
      hd.live.trans ht.live, hd.clock.trans ht.clock, hd.sent.trans ht.sent,
      hd.trapped.trans ht.trapped, hd.pHead, ?_⟩
    · intro q
      rw [setWait_proc, hd.proc q, hset q]
    · intro q
      rw [setWait_proc, hd.proc q, hset q]
    · rw [← hold]
      exact hd.oldest
    · rw [← hwait, ← ht.taken]
      exact hd.taken
    · intro q
      rw [setWait_proc, hd.proc q, hcur, hold, hset q]
    · intro q
      rw [hd.proc q, hset q]
      exact ⟨rfl, rfl, rfl⟩

/-- **`schedule`, when it returns.** -/
theorem schedule_spec (h : k.schedule = .ok k') : Schedules k k' := by
  unfold schedule at h
  split at h
  · rename_i hno
    obtain rfl := Except.ok.inj h
    have hreq : k.requested = false := by
      unfold requested
      simpa using hno
    exact ⟨rfl, rfl, rfl, rfl, fun _ => rfl, fun _ => rfl,
      fun hq => ⟨hq.congr rfl rfl fun _ => rfl, fun _ => rfl⟩,
      Or.inl ⟨rfl, rfl, fun _ => rfl, fun _ => rfl, fun _ => rfl, Or.inl hreq⟩⟩
  · rename_i hyes
    have hreq : k.requested = true := by
      unfold requested
      revert hyes
      cases k.schedReq <;> cases k.quantumExceeded <;> simp
    simp only at h
    split at h
    · rename_i i p hnext
      have hnext : k.next = some (i, p) := hnext
      obtain ⟨k₁, h₁, h⟩ := switch_cases h
      have ht :=
        turn_spec (k := { k with schedReq := false, quantumExceeded := false, trapped := false })
        (next_some hnext) h₁
      have hqueues : Queues k → Queues k₁ ∧ ∀ q, (k₁.proc q).status = (k.proc q).status :=
        fun hq => ht.queues (hq.congr rfl rfl fun _ => rfl)
      rcases h with ⟨hp, rfl⟩ | ⟨hp, k₂, h₂, rfl⟩
      · refine ⟨ht.live, ht.clock, ht.sent, ht.trapped, ?_, ?_, hqueues, Or.inl
          ⟨ht.pCurrent, ht.taken, ?_, ?_, ?_, Or.inr (Or.inr ⟨i, ?_⟩)⟩⟩
        · intro q
          rw [ht.proc q]
        · intro q
          rw [ht.proc q]
        · intro q
          rw [ht.proc q]
        · intro q
          rw [ht.proc q]
        · intro q
          rw [ht.proc q]
        · rw [hnext, hp]
          exact congrArg (fun c => some (i, c)) ht.pCurrent
      · rw [ht.pCurrent] at hp
        obtain ⟨hr, hl, hk, hs, htr, hh, hf⟩ := resume_spec hp ht h₂
        have hset := setWait_proc k₂ p .none
        refine ⟨hl, hk, hs, htr, ?_, ?_, ?_, Or.inr ⟨hreq, i, p, hnext,
          ⟨hr.other, hr.pCurrent, hr.retFrom, hr.wait, hr.takes⟩⟩⟩
        · intro q
          rw [hset q]
          exact (hf q).1
        · intro q
          rw [hset q]
          exact (hf q).2.1
        · intro hq
          obtain ⟨hq₁, hst⟩ := hqueues hq
          have hstatus : ∀ q, ((k₂.setProc p ({ · with wait := .none })).proc q).status =
              (k₁.proc q).status := by
            intro q
            rw [hset q]
            exact (hf q).2.2
          refine ⟨hq₁.congr hh (hl.trans ht.live.symm) hstatus, ?_⟩
          intro q
          exact (hstatus q).trans (hst q)
    · rename_i hnext
      obtain rfl := Except.ok.inj h
      exact ⟨rfl, rfl, rfl, rfl, fun _ => rfl, fun _ => rfl,
        fun hq => ⟨hq.congr rfl rfl fun _ => rfl, fun _ => rfl⟩,
        Or.inl ⟨rfl, rfl, fun _ => rfl, fun _ => rfl, fun _ => rfl, Or.inr (Or.inl hnext)⟩⟩

end Kernel

end OwnOS.Ipc
