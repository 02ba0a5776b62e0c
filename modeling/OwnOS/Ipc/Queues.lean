import OwnOS.Ipc.Model

/-!
# Run queues, `wakeup` and `sleep`

`Queues k`: the run queues hold exactly the running processes, each once. `Wakes` and `Sleeps` are
the effects of `wakeup` and `sleep` on them; `Quiet` says that nothing else changed.
-/

namespace OwnOS.Ipc

namespace Kernel

variable {k k' : Kernel} {p q id : Pid} {mess : Message}

/-- The run queues hold the running processes, each in one place. -/
structure Queues (k : Kernel) : Prop where
  nodup : ∀ i, (k.pHead i).Nodup
  unique : ∀ i j p, p ∈ k.pHead i → p ∈ k.pHead j → i = j
  runnable : ∀ p, (∃ i, p ∈ k.pHead i) ↔ k.live p = true ∧ (k.proc p).status = .running

/-- `wakeup(p)`: nothing if `p` is running, else `p` goes to the end of a queue. -/
def Wakes (k k' : Kernel) (p : Pid) : Prop :=
  ((k.proc p).status = .running ∧ (∀ q, (k'.proc q).status = (k.proc q).status) ∧
    k'.pHead = k.pHead) ∨ ((k.proc p).status = .stopped ∧
      (∀ q, (k'.proc q).status = if q = p then .running else (k.proc q).status) ∧
      ∃ i, k'.pHead = Function.update k.pHead i (k.pHead i ++ [p]))

/-- `p` leaves its queue. -/
def Sleeps (k k' : Kernel) (p : Pid) : Prop :=
  (∀ q, (k'.proc q).status = if q = p then .stopped else (k.proc q).status) ∧
    ∃ i, p ∈ k.pHead i ∧ k'.pHead = Function.update k.pHead i ((k.pHead i).erase p)

theorem setProc_proc (k : Kernel) (p q : Pid) (f : Proc → Proc) :
    (k.setProc p f).proc q = if q = p then f (k.proc p) else k.proc q := by
  unfold setProc
  by_cases h : q = p
  · subst h
    simp
  · simp [h]

theorem setStatus_status (k : Kernel) (p q : Pid) (st : Status) :
    ((k.setProc p ({ · with status := st })).proc q).status =
      if q = p then st else (k.proc q).status := by
  rw [setProc_proc]
  split
  · rfl
  · rfl

theorem setStatus_proc (k : Kernel) (p q : Pid) (st : Status) :
    (k.setProc p ({ · with status := st })).proc q =
      { k.proc q with status := ((k.setProc p ({ · with status := st })).proc q).status } := by
  rw [setProc_proc]
  split
  · rename_i hq
    rw [hq]
  · rfl

theorem setWait_proc (k : Kernel) (p : Pid) (w : Wait) (q : Pid) :
    (k.setProc p ({ · with wait := w })).proc q =
      { k.proc q with wait := if q = p then w else (k.proc q).wait } := by
  rw [setProc_proc]
  split
  · rename_i hq
    rw [hq]
  · rfl

/-! ## Run queues -/

theorem Queues.congr (h : Queues k) (hq : k'.pHead = k.pHead) (hl : k'.live = k.live)
    (hs : ∀ q, (k'.proc q).status = (k.proc q).status) : Queues k' := by
  refine ⟨?_, ?_, ?_⟩
  · rw [hq]
    exact h.nodup
  · rw [hq]
    exact h.unique
  · intro q
    rw [hq, hl, hs]
    exact h.runnable q

theorem Queues.wakes (h : Queues k) (hw : Wakes k k' p) (hl : k'.live = k.live)
    (hp : k.live p = true) :
    Queues k' := by
  rcases hw with ⟨-, hs, hq⟩ | ⟨hst, hs, i, hq⟩
  · exact h.congr hq hl hs
  · -- a stopped process is in no queue
    have hout : ∀ j, p ∉ k.pHead j := by
      intro j hj
      have := ((h.runnable p).mp ⟨j, hj⟩).2
      rw [hst] at this
      exact absurd this (by simp)
    have hmem : ∀ j q, q ∈ k'.pHead j ↔ q ∈ k.pHead j ∨ j = i ∧ q = p := by
      intro j q
      rw [hq]
      by_cases hj : j = i
      · subst hj
        simp
      · simp [hj]
    refine ⟨?_, ?_, ?_⟩
    · intro j
      rw [hq]
      by_cases hj : j = i
      · subst hj
        rw [Function.update_self]
        exact List.nodup_append.mpr ⟨h.nodup j, by simp, by
          rintro x hx y hy rfl
          obtain rfl := List.mem_singleton.mp hy
          exact hout j hx⟩
      · rw [Function.update_of_ne hj]
        exact h.nodup j
    · intro j j' q hj hj'
      rw [hmem] at hj hj'
      rcases hj with hj | ⟨rfl, rfl⟩
      · rcases hj' with hj' | ⟨rfl, rfl⟩
        · exact h.unique j j' q hj hj'
        · exact absurd hj (hout j)
      · rcases hj' with hj' | ⟨rfl, -⟩
        · exact absurd hj' (hout j')
        · rfl
    · intro q
      rw [hl, hs]
      by_cases hqp : q = p
      · subst hqp
        rw [if_pos rfl]
        exact ⟨fun _ => ⟨hp, rfl⟩, fun _ => ⟨i, (hmem i q).mpr (Or.inr ⟨rfl, rfl⟩)⟩⟩
      · rw [if_neg hqp, ← h.runnable q]
        constructor
        · rintro ⟨j, hj⟩
          rcases (hmem j q).mp hj with hj | ⟨-, he⟩
          · exact ⟨j, hj⟩
          · exact absurd he hqp
        · rintro ⟨j, hj⟩
          exact ⟨j, (hmem j q).mpr (Or.inl hj)⟩

theorem Queues.sleeps (h : Queues k) (hs : Sleeps k k' p) (hl : k'.live = k.live) : Queues k' := by
  obtain ⟨hst, i, hi, hq⟩ := hs
  have hmem : ∀ j q, q ∈ k'.pHead j ↔ q ∈ k.pHead j ∧ q ≠ p := by
    intro j q
    rw [hq]
    by_cases hj : j = i
    · subst hj
      rw [Function.update_self, (h.nodup j).mem_erase_iff, and_comm]
    · rw [Function.update_of_ne hj]
      refine ⟨fun hm => ⟨hm, ?_⟩, fun hm => hm.1⟩
      rintro rfl
      exact hj (h.unique j i _ hm hi)
  refine ⟨?_, ?_, ?_⟩
  · intro j
    rw [hq]
    by_cases hj : j = i
    · subst hj
      rw [Function.update_self]
      exact (h.nodup j).erase _
    · rw [Function.update_of_ne hj]
      exact h.nodup j
  · intro j j' q hj hj'
    exact h.unique j j' q ((hmem j q).mp hj).1 ((hmem j' q).mp hj').1
  · intro q
    rw [hl, hst]
    by_cases hqc : q = p
    · subst hqc
      rw [if_pos rfl]
      constructor
      · rintro ⟨j, hj⟩
        exact absurd rfl ((hmem j _).mp hj).2
      · rintro ⟨-, he⟩
        exact absurd he (by simp)
    · rw [if_neg hqc, ← h.runnable q]
      constructor
      · rintro ⟨j, hj⟩
        exact ⟨j, ((hmem j q).mp hj).1⟩
      · rintro ⟨j, hj⟩
        exact ⟨j, (hmem j q).mpr ⟨hj, hqc⟩⟩

/-! ## `wakeup` and `sleep` -/

theorem mem_levels : ∀ i, i ∈ ([0, 1, 2, 3] : List (Fin 4)) := by
  decide

/-- Nothing but the run queues changed, and `schedule` is asked for. -/
structure Quiet (k k' : Kernel) : Prop where
  live : k'.live = k.live
  pCurrent : k'.pCurrent = k.pCurrent
  schedReq : k'.schedReq = true
  clock : k'.clock = k.clock
  sent : k'.sent = k.sent
  taken : k'.taken = k.taken
  proc : ∀ q, k'.proc q = { k.proc q with status := (k'.proc q).status }

/-- `wakeup`, when it returns. -/
theorem wakeup_spec (h : k.wakeup p = .ok k') : k.live p = true ∧ Wakes k k' p ∧ Quiet k k' := by
  unfold wakeup at h
  split at h
  · rename_i hl
    refine ⟨hl, ?_⟩
    obtain ⟨k₁, h₁, h⟩ := Res.bind_eq_ok.mp h
    obtain rfl := Except.ok.inj h
    unfold enqueProc at h₁
    split at h₁
    · rename_i hs
      obtain rfl := Except.ok.inj h₁
      refine ⟨Or.inr ⟨hs, ?_, _, rfl⟩, ⟨rfl, rfl, rfl, rfl, rfl, rfl, ?_⟩⟩
      · intro q
        exact setStatus_status k p q .running
      · intro q
        exact setStatus_proc k p q .running
    · rename_i hs
      obtain rfl := Except.ok.inj h₁
      exact ⟨Or.inl ⟨hs, fun _ => rfl, rfl⟩, ⟨rfl, rfl, rfl, rfl, rfl, rfl, fun _ => rfl⟩⟩
    · exact absurd h₁ (by simp)
  · exact absurd h (by simp)

/-- `sleep`, when it returns. A process that does not run is left alone. -/
theorem sleep_spec (h : k.sleep = .ok k') : Quiet k k' ∧
    ((k.proc k.pCurrent).status = .running → (∃ i, k.pCurrent ∈ k.pHead i) →
      Sleeps k k' k.pCurrent) := by
  unfold sleep at h
  split at h
  · obtain ⟨k₁, h₁, h⟩ := Res.bind_eq_ok.mp h
    obtain rfl := Except.ok.inj h
    unfold dequeProc at h₁
    split at h₁
    · split at h₁
      · rename_i i hi
        obtain rfl := Except.ok.inj h₁
        refine ⟨⟨rfl, rfl, rfl, rfl, rfl, rfl, ?_⟩, fun _ _ => ⟨?_, i, ?_, rfl⟩⟩
        · intro q
          exact setStatus_proc k k.pCurrent q .stopped
        · intro q
          exact setStatus_status k k.pCurrent q .stopped
        · simpa using List.find?_some hi
      · rename_i hnone
        obtain rfl := Except.ok.inj h₁
        refine ⟨⟨rfl, rfl, rfl, rfl, rfl, rfl, fun _ => rfl⟩, ?_⟩
        rintro - ⟨i, hi⟩
        exact absurd hi (by simpa using List.find?_eq_none.mp hnone i (mem_levels i))
    · rename_i hs
      obtain rfl := Except.ok.inj h₁
      refine ⟨⟨rfl, rfl, rfl, rfl, rfl, rfl, fun _ => rfl⟩, ?_⟩
      intro hr
      rw [hs] at hr
      exact absurd hr (by simp)
    · exact absurd h₁ (by simp)
  · exact absurd h (by simp)

end Kernel

end OwnOS.Ipc
