import OwnOS.Ipc.Recv
import OwnOS.Ipc.Schedule
import OwnOS.Lib.Run

/-!
# Runs of the kernel

A run starts with nothing queued and alternates traps and `schedule` (`Turn`). `Base` is what holds
in every state of a run in which `schedule` always finds a process to run (`Served`): the run queues
are consistent and the current process is not one that waits.
-/

namespace OwnOS.Ipc

namespace Kernel

variable {k k' : Kernel} {p q id : Pid} {mess : Message} {o : Op}

/-! ## The steps -/

theorem Sends.trap (h : Sends k k' id mess) : Sends k { k' with trapped := true } id mess :=
  ⟨⟨h.target, h.room, h.live, h.pCurrent, h.clock, h.sent, h.taken, h.sendQ, h.retFrom, h.recvQ⟩,
    h.schedReq, h.branch⟩

theorem Takes.trap {e : Sent} (h : Takes k k' id e) : Takes k { k' with trapped := true } id e :=
  ⟨h.found, h.valid, h.target, h.taken, h.retFrom, h.recvQ, h.recvAnyQ, h.wait, h.wakes⟩

theorem Waits.trap (h : Waits k k' id mess) : Waits k { k' with trapped := true } id mess :=
  ⟨h.missing, h.taken, h.retFrom, h.wait, h.queue, h.sleeps⟩

theorem Recvs.trap (h : Recvs k k' id mess) : Recvs k { k' with trapped := true } id mess :=
  ⟨h.live, h.pCurrent, h.schedReq, h.clock, h.sent, h.sendQ,
    h.branch.imp (fun ⟨e, he⟩ => ⟨e, he.trap⟩) Waits.trap⟩

/-- The message as it is in the buffer when the handler calls `send` or `recv`. -/
def stamp (k : Kernel) (mess : Message) : Message := { mess with id := k.pCurrent }

theorem step_send (hs : Short k) (h : step k (.send id mess) = .ok k') :
    Sends k k' id (k.stamp mess) ∧ k'.trapped = true := by
  obtain ⟨k₁, h₁, h⟩ := Res.bind_eq_ok.mp h
  obtain rfl := Except.ok.inj h
  exact ⟨(send_spec hs h₁).trap, rfl⟩

theorem step_recv (hs : Short k) (h : step k (.recv id mess) = .ok k') :
    Recvs k k' id (k.stamp mess) ∧ k'.trapped = true := by
  obtain ⟨k₁, h₁, h⟩ := Res.bind_eq_ok.mp h
  obtain rfl := Except.ok.inj h
  exact ⟨(recv_spec hs h₁).trap, rfl⟩

theorem step_tick (h : step k .tick = .ok k') :
    k' = { k with quantumExceeded := true, trapped := true } :=
  (Except.ok.inj h).symm

theorem step_schedule (h : step k .schedule = .ok k') : Schedules k k' :=
  schedule_spec h

/-- The queues stay within their length. -/
theorem Short.step (hs : Short k) (h : step k o = .ok k') : Short k' := by
  intro p
  cases o with
  | send id mess =>
    obtain ⟨h, -⟩ := step_send hs h
    refine ⟨?_, ?_, ?_⟩
    · rw [h.sendQ p]
      split
      · exact h.room
      · exact (hs p).1
    · rw [h.recvQ p]
      split
      · exact Nat.le_trans List.length_eraseP_le (hs _).2.1
      · exact (hs p).2.1
    · have hdrop : (if p = id then (k.proc id).recvAnyQ.dropLast
          else (k.proc p).recvAnyQ).length ≤ nrMessage := by
        split
        · rw [List.length_dropLast]
          exact Nat.le_trans (Nat.sub_le _ _) (hs id).2.2
        · exact (hs p).2.2
      rcases h.branch with ⟨-, ha, -⟩ | ⟨-, -, ha, -⟩ | ⟨-, -, ha, -⟩
      · rw [ha p]
        exact (hs p).2.2
      · rw [ha p]
        exact hdrop
      · rw [ha p]
        exact hdrop
  | recv id mess =>
    obtain ⟨h, -⟩ := step_recv hs h
    refine ⟨?_, ?_⟩
    · rw [h.sendQ p]
      split
      · exact Nat.le_trans (pick_sublist _ _).length_le (hs _).1
      · exact (hs p).1
    · rcases h.branch with ⟨e, he⟩ | hw
      · rw [he.recvQ p, he.recvAnyQ p]
        exact (hs p).2
      · rcases hw.queue with ⟨-, hlt, hr, ha⟩ | ⟨-, -, hlt, ha, hr⟩
        · rw [hr p, ha p]
          refine ⟨(hs p).2.1, ?_⟩
          split
          · exact hlt
          · exact (hs p).2.2
        · rw [hr p, ha p]
          refine ⟨?_, (hs p).2.2⟩
          split
          · exact hlt
          · exact (hs p).2.1
  | tick =>
    obtain rfl := step_tick h
    exact hs p
  | schedule =>
    have h := step_schedule h
    rw [h.recvQ p, h.recvAnyQ p]
    refine ⟨?_, (hs p).2⟩
    rcases h.branch with hst | ⟨-, i, r, -, hr⟩
    · rw [hst.sendQ p]
      exact (hs p).1
    · rcases hr.takes with ⟨-, -, hq⟩ | ⟨-, e, -, -, -, hq⟩
      · rw [hq p]
        exact (hs p).1
      · rw [hq p]
        split
        · rw [List.length_dropLast]
          exact Nat.le_trans (Nat.sub_le _ _) (hs r).1
        · exact (hs p).1

/-! ## What runs are considered -/

/-- A trap comes from user mode and ends with `schedule`. -/
def Turn (k : Kernel) : Op → Prop
  | .schedule => k.trapped = true
  | _ => k.trapped = false

instance : DecidablePred (Turn k)
  | .send _ _ => inferInstanceAs (Decidable (k.trapped = false))
  | .recv _ _ => inferInstanceAs (Decidable (k.trapped = false))
  | .tick => inferInstanceAs (Decidable (k.trapped = false))
  | .schedule => inferInstanceAs (Decidable (k.trapped = true))

/-- The messages handed to `send`, and the buffers of `recv`, are valid. -/
def ValidOp : Op → Prop
  | .send _ mess => mess.isValid = true
  | .recv _ mess => mess.isValid = true
  | _ => True

instance : DecidablePred ValidOp
  | .send _ mess => inferInstanceAs (Decidable (mess.isValid = true))
  | .recv _ mess => inferInstanceAs (Decidable (mess.isValid = true))
  | .tick => isTrue trivial
  | .schedule => isTrue trivial

/-- `schedule` finds a process to run when it looks for one. -/
def Served (k : Kernel) (o : Op) : Prop :=
  o = .schedule → k.requested = true → k.next ≠ none

instance : Decidable (Served k o) := inferInstanceAs (Decidable (_ → _ → _))

/-- Nothing was sent yet, and the current process is in user mode. -/
structure Start (k : Kernel) : Prop where
  queues : Queues k
  live : k.live k.pCurrent = true
  running : (k.proc k.pCurrent).status = .running
  empty : ∀ p, (k.proc p).sendQ = [] ∧ (k.proc p).recvQ = [] ∧ (k.proc p).recvAnyQ = []
  awake : ∀ p, (k.proc p).retFrom ≠ .recvLater ∧ (k.proc p).wait = .none
  sent : k.sent = []
  taken : k.taken = []

theorem Start.short (h : Start k) : Short k := by
  intro p
  obtain ⟨h₁, h₂, h₃⟩ := h.empty p
  rw [h₁, h₂, h₃]
  exact ⟨Nat.zero_le _, Nat.zero_le _, Nat.zero_le _⟩

/-- A message. -/
def hello : Message := ⟨0, 1, true, 7, 8, 9⟩

/-- The processes `p` and `ps`, all on the last level, with `p` current. -/
def boot (p : Pid) (ps : List Pid) : Kernel where
  live q := q ∈ p :: ps
  proc q := ⟨1, if q ∈ p :: ps then .running else .init, .kernel2user, [], [], [], .none⟩
  pHead i := if i = 3 then ps ++ [p] else []
  pCurrent := p
  schedReq := false
  quantumExceeded := false
  trapped := false
  clock := 0
  sent := []
  taken := []

theorem boot_start {ps : List Pid} (h : (p :: ps).Nodup) : Start (boot p ps) := by
  have hmem : ∀ i q, q ∈ (boot p ps).pHead i ↔ i = 3 ∧ q ∈ p :: ps := by
    intro i q
    by_cases hi : i = 3
    · simp [boot, hi, or_comm]
    · simp [boot, hi]
  refine ⟨⟨?_, ?_, ?_⟩, ?_, ?_, fun _ => ⟨rfl, rfl, rfl⟩, fun _ => ⟨by simp [boot], rfl⟩, rfl, rfl⟩
  · intro i
    by_cases hi : i = 3
    · simpa [boot, hi] using (List.perm_append_singleton p ps).nodup_iff.mpr h
    · simp [boot, hi]
  · intro i j q hi hj
    rw [((hmem i q).mp hi).1, ((hmem j q).mp hj).1]
  · intro q
    constructor
    · rintro ⟨i, hi⟩
      have := ((hmem i q).mp hi).2
      exact ⟨decide_eq_true this, if_pos this⟩
    · rintro ⟨hl, -⟩
      exact ⟨3, (hmem 3 q).mpr ⟨rfl, of_decide_eq_true hl⟩⟩
  · simp [boot]
  · simp [boot]

/-! ## The current process -/

/-- What holds in every state of a run: the queues are consistent, and the current process runs
unless `schedule` is about to replace it. -/
structure Base (k : Kernel) : Prop where
  short : Short k
  queues : Queues k
  live : k.live k.pCurrent = true
  ready : (k.proc k.pCurrent).status = .running → (k.proc k.pCurrent).retFrom ≠ .recvLater
  asked : (k.proc k.pCurrent).status ≠ .running → k.schedReq = true
  user : k.trapped = false → (k.proc k.pCurrent).status = .running

theorem Start.base (h : Start k) : Base k where
  short := h.short
  queues := h.queues
  live := h.live
  ready _ := (h.awake k.pCurrent).1
  asked hr := absurd h.running hr
  user _ := h.running

/-- The current process is in a run queue. -/
theorem Base.queued (h : Base k) (hr : (k.proc k.pCurrent).status = .running) :
    ∃ i, k.pCurrent ∈ k.pHead i :=
  (h.queues.runnable _).mpr ⟨h.live, hr⟩

/-- A call that woke a process. -/
theorem Base.wakes (h : Base k) (hw : Wakes k k' p) (hp : k.live p = true) (hs : Short k')
    (hl : k'.live = k.live) (hc : k'.pCurrent = k.pCurrent)
    (hr : (k.proc k.pCurrent).status = .running)
    (hf : ∀ q, (k'.proc q).retFrom = (k.proc q).retFrom) (hq : k'.schedReq = true)
    (ht : k'.trapped = true) : Base k' := by
  refine ⟨hs, h.queues.wakes hw hl hp, ?_, ?_, fun _ => hq, ?_⟩
  · rw [hl, hc]
    exact h.live
  · intro _
    rw [hc, hf]
    exact h.ready hr
  · intro hu
    rw [ht] at hu
    exact absurd hu (by simp)

/-- A call that put its caller to sleep. -/
theorem Base.sleeps (h : Base k) (hw : Sleeps k k' k.pCurrent) (hs : Short k')
    (hl : k'.live = k.live) (hc : k'.pCurrent = k.pCurrent) (hq : k'.schedReq = true)
    (ht : k'.trapped = true) : Base k' := by
  refine ⟨hs, h.queues.sleeps hw hl, ?_, ?_, fun _ => hq, ?_⟩
  · rw [hl, hc]
    exact h.live
  · intro hr
    rw [hc, hw.1, if_pos rfl] at hr
    exact absurd hr (by simp)
  · intro hu
    rw [ht] at hu
    exact absurd hu (by simp)

/-- The process `schedule` leaves current was in a run queue. -/
theorem Base.schedules (h : Base k) (hv : Served k .schedule) (hS : Schedules k k') :
    k.live k'.pCurrent = true ∧ (k.proc k'.pCurrent).status = .running ∧
      (k'.proc k'.pCurrent).retFrom ≠ .recvLater := by
  rcases hS.branch with hst | ⟨-, i, p, hn, hr⟩
  · rw [hst.pCurrent, hst.retFrom]
    have hrun : (k.proc k.pCurrent).status = .running := by
      by_contra hne
      have hreq : k.requested = true := by
        unfold requested
        rw [h.asked hne, Bool.true_or]
      rcases hst.why with hno | hno | ⟨i, hn⟩
      · rw [hreq] at hno
        exact absurd hno (by simp)
      · exact hv rfl hreq hno
      · exact hne ((h.queues.runnable _).mp ⟨i, List.mem_of_mem_head? (next_some hn)⟩).2
    exact ⟨h.live, hrun, h.ready hrun⟩
  · obtain ⟨hl, hrun⟩ := (h.queues.runnable p).mp ⟨i, List.mem_of_mem_head? (next_some hn)⟩
    rw [hr.pCurrent, hr.retFrom, if_pos rfl]
    exact ⟨hl, hrun, by simp⟩

/-- **One step keeps `Base`.** -/
theorem Base.step (h : Base k) (ht : Turn k o) (hv : Served k o) (hs : step k o = .ok k') :
    Base k' := by
  have hshort := h.short.step hs
  cases o with
  | send id mess =>
    obtain ⟨hS, htr⟩ := step_send h.short hs
    have hr := h.user ht
    rcases hS.branch with ⟨-, -, -, hw⟩ | ⟨-, -, -, -, hw⟩ | ⟨-, -, -, -, hw⟩
    · exact h.wakes hw hS.target hshort hS.live hS.pCurrent hr hS.retFrom hS.schedReq htr
    · exact h.wakes hw hS.target hshort hS.live hS.pCurrent hr hS.retFrom hS.schedReq htr
    · exact h.sleeps (hw hr (h.queued hr)) hshort hS.live hS.pCurrent hS.schedReq htr
  | recv id mess =>
    obtain ⟨hR, htr⟩ := step_recv h.short hs
    have hr := h.user ht
    rcases hR.branch with ⟨e, he⟩ | hw
    · exact h.wakes he.wakes he.target hshort hR.live hR.pCurrent hr he.retFrom hR.schedReq htr
    · exact h.sleeps (hw.sleeps hr (h.queued hr)) hshort hR.live hR.pCurrent hR.schedReq htr
  | tick =>
    obtain rfl := step_tick hs
    exact ⟨hshort, h.queues.congr rfl rfl fun _ => rfl, h.live, h.ready, h.asked,
      fun hu => absurd hu (by simp)⟩
  | schedule =>
    have hS := step_schedule hs
    obtain ⟨hq, hst⟩ := hS.queues h.queues
    obtain ⟨hl, hrun, hret⟩ := h.schedules hv hS
    rw [← hst] at hrun
    exact ⟨hshort, hq, hS.live ▸ hl, fun _ => hret, fun hne => absurd hrun hne, fun _ => hrun⟩

end Kernel

end OwnOS.Ipc
