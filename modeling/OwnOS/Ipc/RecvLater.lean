import OwnOS.Ipc.Runs

/-!
# The panic in `recv_later`

A process that went to sleep in `recv` is made runnable by the `send` it waits for, which put a
message into its `sendQ`; but also by any `recv` that finds a message of it, since `recv(id)` calls
`wakeup(id)` without asking what `id` sleeps for. `recvLater_supplied`: where the second never
happens to a process with an empty `sendQ`, `schedule` never runs `recv_later` on one.
-/

namespace OwnOS.Ipc

open OwnOS.Lib

namespace Kernel

variable {k k' : Kernel} {p q id : Pid} {mess : Message} {o : Op} {os : List Op}

/-- **What `recv_later` relies on**: the process that `schedule` resumes with it has a message. -/
def Supplied (k : Kernel) : Prop :=
  ∀ i p, k.requested = true → k.next = some (i, p) → p ≠ k.pCurrent →
    (k.proc p).retFrom = .recvLater → (k.proc p).sendQ ≠ []

/-- `p` sleeps in `recv` and has no message. -/
def starved (k : Kernel) (p : Pid) : Bool :=
  (k.proc p).retFrom = .recvLater && (k.proc p).status = .stopped && (k.proc p).sendQ = []

/-- A `recv(id)` that finds a message wakes no process that sleeps in `recv` without one. -/
def SparesStarved (k : Kernel) : Op → Prop
  | .recv id _ => (pick id (k.proc k.pCurrent).sendQ).1 ≠ none → k.starved id = false
  | _ => True

instance : DecidablePred (SparesStarved k)
  | .recv id _ => inferInstanceAs (Decidable
      ((pick id (k.proc k.pCurrent).sendQ).1 ≠ none → k.starved id = false))
  | .send _ _ => isTrue trivial
  | .tick => isTrue trivial
  | .schedule => isTrue trivial

/-- The operations considered: receives from one process only, `schedule` after each trap and always
with a process to run. -/
def Specific (k : Kernel) (o : Op) : Prop :=
  Turn k o ∧ Served k o ∧ match o with
    | .recv id _ => id ≠ pidAny
    | _ => True

instance : Decidable (Specific k o) :=
  haveI : Decidable (match o with
      | .recv id _ => id ≠ pidAny
      | _ => True) :=
    match o with
    | .recv id _ => inferInstanceAs (Decidable (id ≠ pidAny))
    | .send _ _ => isTrue trivial
    | .tick => isTrue trivial
    | .schedule => isTrue trivial
  inferInstanceAs (Decidable (_ ∧ _ ∧ _))

/-- A runnable process whose callback is `recv_later` has a message. -/
structure Fed (k : Kernel) : Prop where
  base : Base k
  fed : ∀ p, (k.proc p).retFrom = .recvLater → (k.proc p).status = .running → (k.proc p).sendQ ≠ []

theorem Start.fed (h : Start k) : Fed k :=
  ⟨h.base, fun p hp => absurd hp (h.awake p).1⟩

/-- Who runs after `wakeup(p)` ran before, or is `p`. -/
theorem Wakes.running (h : Wakes k k' p) (hr : (k'.proc q).status = .running) :
    (k.proc q).status = .running ∨ q = p ∧ (k.proc p).status = .stopped := by
  rcases h with ⟨-, hs, -⟩ | ⟨hst, hs, -⟩
  · rw [hs] at hr
    exact Or.inl hr
  · rw [hs] at hr
    split at hr
    · rename_i hq
      exact Or.inr ⟨hq, hst⟩
    · exact Or.inl hr

theorem Sleeps.running (h : Sleeps k k' p) (hr : (k'.proc q).status = .running) :
    q ≠ p ∧ (k.proc q).status = .running := by
  rw [h.1] at hr
  split at hr
  · exact absurd hr (by simp)
  · rename_i hq
    exact ⟨hq, hr⟩

theorem Fed.send (h : Fed k) (ht : Turn k (.send id mess)) (hs : step k (.send id mess) = .ok k')
    (hb : Base k') : Fed k' := by
  obtain ⟨hS, -⟩ := step_send h.base.short hs
  have hr := h.base.user ht
  refine ⟨hb, ?_⟩
  intro p hret hrun
  rw [hS.sendQ]
  by_cases hp : p = id
  · rw [if_pos hp]
    exact List.cons_ne_nil _ _
  · rw [if_neg hp]
    rw [hS.retFrom] at hret
    have hold : (k.proc p).status = .running := by
      rcases hS.branch with ⟨-, -, -, hw⟩ | ⟨-, -, -, -, hw⟩ | ⟨-, -, -, -, hw⟩
      · exact (hw.running hrun).resolve_right fun hpp => hp hpp.1
      · exact (hw.running hrun).resolve_right fun hpp => hp hpp.1
      · exact ((hw hr (h.base.queued hr)).running hrun).2
    exact h.fed p hret hold

theorem Fed.recv (h : Fed k) (ht : Turn k (.recv id mess)) (hc : SparesStarved k (.recv id mess))
    (hs : step k (.recv id mess) = .ok k') (hb : Base k') : Fed k' := by
  obtain ⟨hR, -⟩ := step_recv h.base.short hs
  have hr := h.base.user ht
  refine ⟨hb, ?_⟩
  intro p hret hrun
  rw [hR.sendQ]
  rcases hR.branch with ⟨e, he⟩ | hw
  · rw [he.retFrom] at hret
    have hp : p ≠ k.pCurrent := by
      rintro rfl
      exact h.base.ready hr hret
    rw [if_neg hp]
    rcases he.wakes.running hrun with hold | ⟨rfl, hstop⟩
    · exact h.fed p hret hold
    · -- the process that is woken slept in `recv`: it is not one without a message
      have hspare := hc (by rw [he.found]; simp)
      simpa [starved, hret, hstop] using hspare
  · obtain ⟨hp, hold⟩ := (hw.sleeps hr (h.base.queued hr)).running hrun
    rw [if_neg hp]
    rw [hw.retFrom, if_neg hp] at hret
    exact h.fed p hret hold

theorem Fed.schedule (h : Fed k) (hs : step k .schedule = .ok k') (hb : Base k') : Fed k' := by
  have hS := step_schedule hs
  obtain ⟨-, hst⟩ := hS.queues h.base.queues
  refine ⟨hb, ?_⟩
  intro p hret hrun
  rw [hst] at hrun
  rcases hS.branch with hstay | ⟨-, i, r, -, hr⟩
  · rw [hstay.sendQ]
    rw [hstay.retFrom] at hret
    exact h.fed p hret hrun
  · rw [hr.retFrom] at hret
    split at hret
    · exact absurd hret (by simp)
    · rename_i hp
      have hq : (k'.proc p).sendQ = (k.proc p).sendQ := by
        rcases hr.takes with ⟨-, -, hq⟩ | ⟨-, e, -, -, -, hq⟩
        · exact hq p
        · rw [hq, if_neg hp]
      rw [hq]
      exact h.fed p hret hrun

/-- **One step keeps the runnable receivers supplied.** -/
theorem Fed.step (h : Fed k) (ht : Turn k o) (hv : Served k o) (hc : SparesStarved k o)
    (hs : step k o = .ok k') : Fed k' := by
  have hb := h.base.step ht hv hs
  cases o with
  | send id mess => exact h.send ht hs hb
  | recv id mess => exact h.recv ht hc hs hb
  | tick =>
    obtain rfl := step_tick hs
    exact ⟨hb, h.fed⟩
  | schedule => exact h.schedule hs hb

theorem Fed.supplied (h : Fed k) : Supplied k := by
  intro i p _ hn _ hret
  have hrun := (h.base.queues.runnable p).mp ⟨i, List.mem_of_mem_head? (next_some hn)⟩
  exact h.fed p hret hrun.2

/-! ## The panic -/

theorem enqueProc_leave (k : Kernel) (i : Fin 4) (p : Pid) :
    ∃ k', (k.leave i p).enqueProc p (nlevel i) = .ok k' := by
  have hst : ((k.leave i p).proc p).status = .stopped := by
    refine (setStatus_status k p p .stopped).trans ?_
    rw [if_pos rfl]
  unfold enqueProc
  rw [hst]
  exact ⟨_, rfl⟩

/-- With a valid message `recv_later` returns. -/
theorem recvLater_returns (hq : (k.proc k.pCurrent).sendQ ≠ [])
    (hv : ∀ e ∈ (k.proc k.pCurrent).sendQ, e.msg.isValid = true) : ∃ k', k.recvLater = .ok k' := by
  unfold recvLater deque
  obtain ⟨e, he⟩ := Option.ne_none_iff_exists'.mp (mt List.getLast?_eq_none_iff.mp hq)
  have hmem : e ∈ (k.proc k.pCurrent).sendQ := List.mem_of_getLast? he
  simp only [he]
  rw [if_pos (hv e hmem)]
  exact ⟨_, rfl⟩

/-- A switch returns when the process has a message that it needs. -/
theorem switch_returns {i : Fin 4} (hh : (k.pHead i).head? = some p)
    (hq : p ≠ k.pCurrent → (k.proc p).retFrom = .recvLater → (k.proc p).sendQ ≠ [])
    (hv : ∀ e ∈ (k.proc p).sendQ, e.msg.isValid = true) : ∃ k', k.switch i p = .ok k' := by
  obtain ⟨k₁, h₁⟩ := enqueProc_leave k i p
  have ht := turn_spec hh h₁
  unfold switch
  rw [h₁]
  simp only [Res.ok_bind]
  by_cases hp : p = k₁.pCurrent
  · rw [if_pos hp]
    exact ⟨_, rfl⟩
  · rw [if_neg hp]
    have hcur : p ≠ k.pCurrent := by rwa [← ht.pCurrent]
    have hsend : ((k₁.enter p).proc p).sendQ = (k.proc p).sendQ := by rw [enter_proc, ht.proc p]
    have hret : (k₁.proc p).retFrom = (k.proc p).retFrom := by rw [ht.proc p]
    have hcb : ∃ k₂, (k₁.enter p).callback (k₁.proc p).retFrom = .ok k₂ := by
      cases hf : (k₁.proc p).retFrom with
      | kernel2user => exact ⟨_, rfl⟩
      | retFromFork => exact ⟨_, rfl⟩
      | recvLater =>
        have hne : ((k₁.enter p).proc (k₁.enter p).pCurrent).sendQ ≠ [] := by
          change ((k₁.enter p).proc p).sendQ ≠ []
          rw [hsend]
          exact hq hcur (hret.symm.trans hf)
        refine recvLater_returns hne ?_
        change ∀ e ∈ ((k₁.enter p).proc p).sendQ, _
        rw [hsend]
        exact hv
    obtain ⟨k₂, h₂⟩ := hcb
    rw [h₂]
    exact ⟨_, rfl⟩

/-- `schedule` returns when the receivers it resumes have a valid message. -/
theorem schedule_returns (h : Supplied k) (hv : ∀ p, ∀ e ∈ (k.proc p).sendQ, e.msg.isValid = true) :
    ∃ k', k.schedule = .ok k' := by
  unfold schedule
  split
  · exact ⟨_, rfl⟩
  · rename_i hyes
    have hreq : k.requested = true := by
      unfold requested
      revert hyes
      cases k.schedReq <;> cases k.quantumExceeded <;> simp
    simp only
    split
    · rename_i i p hn
      exact switch_returns (next_some hn) (h i p hreq hn) (hv p)
    · exact ⟨_, rfl⟩

/-! ## Runs -/

/-- **The panic in `recv_later` is unreachable** in a run in which no `recv` wakes a process that
sleeps in `recv` without a message; with valid messages `schedule` then returns. -/
theorem recvLater_supplied (hk : Start k)
    (hr : Run step (fun k o => Specific k o ∧ SparesStarved k o) k os k') :
    Supplied k' ∧
    ((∀ p, ∀ e ∈ (k'.proc p).sendQ, e.msg.isValid = true) → ∃ k₁, k'.schedule = .ok k₁) := by
  have hfed : Fed k' := hr.invariant
    (fun s o s' hi hl hs => hi.step hl.1.1 hl.1.2.1 hl.2 hs) hk.fed
  exact ⟨hfed.supplied, schedule_returns hfed.supplied⟩

end Kernel

open Kernel

/-- 102 receives from 101 while 103 sends to it, 101 sends and receives from 103: 102 was woken by
101 and took the message of 103, and its next `recv` from 101 wakes 101. -/
def spuriousWakeup : List Op :=
  [.recv 101 hello, .schedule,
    .send 102 hello, .schedule,
    .send 102 hello, .schedule,
    .tick, .schedule, .tick, .schedule, .tick, .schedule,
    .recv 103 hello, .schedule,
    .recv 101 hello]

/-- The awaited `send` alone. -/
def awaitedSend : List Op :=
  [.recv 101 hello, .schedule, .send 102 hello]

theorem recvLater_supplied_awaited : ∃ k', Run step (fun k o => Specific k o ∧ SparesStarved k o)
    (boot 102 [101]) awaitedSend k' ∧ Supplied k' := by
  have hplay : (play step (fun k o => Specific k o ∧ SparesStarved k o) (boot 102 [101])
      awaitedSend).isSome = true := by
    decide +kernel
  obtain ⟨k', hk'⟩ := Option.isSome_iff_exists.mp hplay
  exact ⟨k', run_of_play hk', (recvLater_supplied (boot_start (by decide)) (run_of_play hk')).1⟩

theorem recvLater_panics : Start (boot 102 [103, 101, 104]) ∧
    ∃ k', Run step Specific (boot 102 [103, 101, 104]) spuriousWakeup k' ∧ ¬ Supplied k' ∧
      step k' .schedule = .error (.panic "invalid message error at recv_later()") := by
  have hplay : (play step Specific (boot 102 [103, 101, 104]) spuriousWakeup).map (fun k =>
      (k.requested, k.next, k.pCurrent)) = some (true, some (1, 101), 102) := by
    decide +kernel
  obtain ⟨k', hk', hs⟩ := Option.map_eq_some_iff.mp hplay
  have hproc : (play step Specific (boot 102 [103, 101, 104]) spuriousWakeup).map (fun k =>
      ((k.proc 101).retFrom, (k.proc 101).sendQ)) = some (.recvLater, []) := by
    decide +kernel
  have herr : (play step Specific (boot 102 [103, 101, 104]) spuriousWakeup).map (fun k =>
      match step k .schedule with
        | .error e => some e
        | .ok _ => none) = some (some (.panic "invalid message error at recv_later()")) := by
    decide +kernel
  rw [hk'] at hproc herr
  simp only [Option.map_some, Option.some.injEq, Prod.mk.injEq] at hs hproc herr
  refine ⟨boot_start (by decide), k', run_of_play hk', ?_, ?_⟩
  · intro hsup
    exact hsup 1 101 hs.1 hs.2.1 (by rw [hs.2.2]; decide) hproc.1 hproc.2
  · split at herr
    · rename_i e he
      rw [he, Option.some.inj herr]
    · exact absurd herr (by simp)

end OwnOS.Ipc
