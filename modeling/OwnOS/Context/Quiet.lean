import OwnOS.Context.Separate
import OwnOS.Sched.Calls

/-!
# What the scheduler does to the contexts

A context depends on little of the scheduler: which processes there are, who runs, and which ones
have not returned from `fork` yet. The calls but `fork` leave this alone (`Quiet`), `fork` adds a
process (`Forked`), and `schedule` makes one run (`Switched`).
-/

namespace OwnOS.Context

open Lib Sched

variable {s s' t : Sched} {p q : ProcPtr} {pid millisec irqNo : Int} {irq : Irq}
  {nr : UInt32} {e : Env} {op : Op}

/-- The processes are the same, and the same one runs. Only its `ret_from` may have changed. -/
structure Quiet (s s' : Sched) : Prop where
  isFree : s'.isFree = s.isFree
  pidGen : s'.pidGen = s.pidGen
  pCurrent : s'.pCurrent = s.pCurrent
  id : ∀ p, (s'.room p).id = (s.room p).id
  others : ∀ p, s.pCurrent ≠ some p → (s'.room p).retFrom = (s.room p).retFrom
  new : ∀ p, (s'.room p).retFrom = .retFromFork → (s.room p).retFrom = .retFromFork

theorem Quiet.refl (s : Sched) :
    Quiet s s := ⟨rfl, rfl, rfl, fun _ => rfl, fun _ _ => rfl, fun _ h => h⟩

theorem Quiet.trans (h : Quiet s s') (h' : Quiet s' t) : Quiet s t where
  isFree := h'.isFree.trans h.isFree
  pidGen := h'.pidGen.trans h.pidGen
  pCurrent := h'.pCurrent.trans h.pCurrent
  id p := (h'.id p).trans (h.id p)
  others p hp := (h'.others p (h.pCurrent ▸ hp)).trans (h.others p hp)
  new p hp := h.new p (h'.new p hp)

theorem quiet_of_moves (h : Moves s t) : Quiet s t where
  isFree := by rw [h.same]
  pidGen := by rw [h.same]
  pCurrent := h.pCurrent
  id := h.id
  others p _ := h.retFrom p
  new p hp := (h.retFrom p).symm.trans hp

/-! ## The calls -/

theorem quiet_wakeup (h : Inv s) (hs : s.wakeup pid = .ok s') : Quiet s s' ∧ Inv s' := by
  obtain ⟨p, t, -, hput, rfl, hinv⟩ := wakeup_inv h hs
  have hq := quiet_of_moves hput.moves
  exact ⟨⟨hq.isFree, hq.pidGen, hq.pCurrent, hq.id, hq.others, hq.new⟩, hinv⟩

theorem quiet_sleep (h : Inv s) (hs : s.sleep pid millisec = .ok s') : Quiet s s' ∧ Inv s' := by
  obtain ⟨p, t, -, hput, rfl, hinv⟩ := sleep_inv h hs
  have hq := quiet_of_moves hput.moves
  exact ⟨⟨hq.isFree, hq.pidGen, hq.pCurrent, hq.id, hq.others, hq.new⟩, hinv⟩

/-- The process that runs stores its callback. -/
theorem quiet_withCallback (hp : s.pCurrent = some p) (f : Nat) : Quiet s (s.withCallback p f) := by
  have hne {q : ProcPtr} (hq : q ≠ p) : (s.withCallback p f).room q = s.room q := setProc_of_ne _ hq
  have hself : (s.withCallback p f).room p =
      { s.room p with retFrom := .callback f s.sleeps.length } :=
    setProc_self _
  refine ⟨rfl, rfl, rfl, fun q => ?_, fun q hq => ?_, fun q hq => ?_⟩
  all_goals by_cases hqp : q = p
  · rw [hqp, hself]
  · rw [hne hqp]
  · exact absurd hp (hqp ▸ hq)
  · rw [hne hqp]
  · rw [hqp, hself] at hq
    exact absurd hq (by simp)
  · rwa [hne hqp] at hq

theorem quiet_notify (h : Inv s) (hs : s.notify irqNo = .ok s') : Quiet s s' ∧ Inv s' := by
  obtain ⟨e, irqQue, -, hinv, ⟨-, rfl⟩ | ⟨-, hs⟩⟩ := notify_inv h hs
  · exact ⟨⟨rfl, rfl, rfl, fun _ => rfl, fun _ _ => rfl, fun _ h => h⟩, hinv⟩
  · obtain ⟨hq, hinv'⟩ := quiet_wakeup hinv hs
    exact ⟨⟨hq.isFree, hq.pidGen, hq.pCurrent, hq.id, hq.others, hq.new⟩, hinv'⟩

theorem quiet_tick (h : Inv s) (hs : s.tick = .ok s') : Quiet s s' ∧ Inv s' := by
  have h0 : Inv { s with timer := s.timer.handler.1 } := h.congr rfl rfl fun _ => rfl
  have hq0 : Quiet s { s with timer := s.timer.handler.1 } :=
    ⟨rfl, rfl, rfl, fun _ => rfl, fun _ _ => rfl, fun _ h => h⟩
  refine wakeDue_induction (I := fun u => Quiet s u ∧ Inv u) (fun _ hu => hu.2)
    (fun u pid u' hu hw => ?_) (l := s.timer.handler.2) ⟨hq0, h0⟩ hs
  obtain ⟨hq, hinv⟩ := quiet_wakeup hu.2 hw
  exact ⟨hu.1.trans hq, hinv⟩

/-- A call of `Ipc::send` or `Ipc::recv`. -/
theorem quiet_ipcCall (h : Inv s) (hop : IpcCall op) (hs : Sched.step s op = .ok s') :
    Quiet s s' ∧ Inv s' := by
  refine ⟨?_, h.step hs⟩
  cases op with
  | wakeup pid => exact (quiet_wakeup h hs).1
  | sleep pid millisec => exact (quiet_sleep h hs).1
  | sleepCallback f =>
    obtain ⟨p, hp, hinv, hs⟩ := sleepCallback_inv h hs
    exact (quiet_withCallback hp f).trans (quiet_sleep hinv hs).1
  | initTasks | fork | waitInterrupt irqNo | notify irqNo | tick | schedule => exact hop.elim

theorem quiet_calls {ops : List Op} (h : Inv s) (hops : ∀ op ∈ ops, IpcCall op)
    (hs : calls s ops = .ok s') :
    Quiet s s' ∧ Inv s' := by
  induction ops generalizing s with
  | nil =>
    obtain rfl := Except.ok.inj hs
    exact ⟨Quiet.refl s, h⟩
  | cons op ops ih =>
    obtain ⟨t, ht, hs⟩ := Res.bind_eq_ok.mp hs
    obtain ⟨hq, hinv⟩ := quiet_ipcCall h (hops op List.mem_cons_self) ht
    obtain ⟨hq', hinv'⟩ := ih hinv (fun op hop => hops op (List.mem_cons_of_mem _ hop)) hs
    exact ⟨hq.trans hq', hinv'⟩

/-! ## `fork` -/

/-- There is one more process, which has not returned from `fork` yet. -/
structure Forked (s s' : Sched) (clone : ProcPtr) : Prop where
  free : s.isFree clone = true
  isFree : s'.isFree = Function.update s.isFree clone false
  pidGen : s'.pidGen = s.pidGen + 1
  pCurrent : s'.pCurrent = s.pCurrent
  id : (s'.room clone).id = s.pidGen
  retFrom : (s'.room clone).retFrom = .retFromFork
  others : ∀ p ≠ clone, (s'.room p).id = (s.room p).id ∧ (s'.room p).retFrom = (s.room p).retFrom

theorem fork_forked (h : Inv s) (hs : s.fork = .ok s') :
    ∃ current clone, s.pCurrent = some current ∧
    s.allocProc.2 = some clone ∧ Forked s s' clone ∧ Inv s' := by
  obtain ⟨current, hcur, hs⟩ := Res.bind_eq_ok.mp hs
  split at hs
  · rename_i t clone ht
    obtain ⟨hfree, rfl⟩ := allocProc_inv ht
    have hinv : Inv { s.withProc clone (s.cloneOf current) with pidGen := s.pidGen + 1 } :=
      (h.alloc hfree (x := s.cloneOf current) rfl).congr rfl rfl fun _ => rfl
    have hroom {p : ProcPtr} : (s.withProc clone (s.cloneOf current)).room p =
        Function.update s.room clone (s.cloneOf current) p := rfl
    obtain ⟨p, u, -, hput, rfl, hinv'⟩ := wakeup_inv hinv hs
    have hid := hput.moves.id
    have hret := hput.moves.retFrom
    refine ⟨current, clone, follow_eq_ok hcur, by rw [ht],
      ⟨hfree, ?_, ?_, hput.moves.pCurrent, ?_, ?_, fun q hq => ⟨?_, ?_⟩⟩, hinv'⟩
    · exact (quiet_of_moves hput.moves).isFree
    · exact (quiet_of_moves hput.moves).pidGen
    · refine (hid clone).trans ?_
      rw [hroom, Function.update_self]
      rfl
    · refine (hret clone).trans ?_
      rw [hroom, Function.update_self]
      rfl
    · refine (hid q).trans ?_
      rw [hroom, Function.update_of_ne hq]
    · refine (hret q).trans ?_
      rw [hroom, Function.update_of_ne hq]
  · exact absurd hs (by simp)

/-! ## `schedule` -/

/-- Another process runs, or the same one again. -/
structure Switched (s s' : Sched) (p : ProcPtr) : Prop where
  isFree : s'.isFree = s.isFree
  pidGen : s'.pidGen = s.pidGen
  id : ∀ q, (s'.room q).id = (s.room q).id
  pCurrent : s'.pCurrent = some p
  others : ∀ q ≠ p, (s'.room q).retFrom = (s.room q).retFrom
  self : s.pCurrent = some p → (s'.room p).retFrom = (s.room p).retFrom
  switched : s.pCurrent ≠ some p → (s'.room p).retFrom = .kernel2user

theorem switched_switchTo (hq : Quiet s t) (hm : ∀ q, (t.room q).retFrom = (s.room q).retFrom)
    (p : ProcPtr) :
    Switched s (t.switchTo p) p := by
  unfold Sched.switchTo
  rw [hq.pCurrent]
  by_cases hp : s.pCurrent = some p
  · rw [if_pos hp]
    exact ⟨hq.isFree, hq.pidGen, hq.id, hp, fun q _ => hm q, fun _ => hm p, fun h => absurd hp h⟩
  · rw [if_neg hp]
    have hself := setProc_self (s := t) (p := p) { t.room p with retFrom := .kernel2user }
    have hne {q : ProcPtr} (h : q ≠ p) :=
      setProc_of_ne (s := t) { t.room p with retFrom := .kernel2user } h
    refine ⟨hq.isFree, hq.pidGen, fun q => ?_, rfl, fun q hqp => ?_, fun h =>
      absurd h hp, fun _ => ?_⟩
    · by_cases hqp : q = p
      · rw [hqp]
        exact (congrArg Proc.id hself).trans (hq.id p)
      · exact (congrArg Proc.id (hne hqp)).trans (hq.id q)
    · exact (congrArg Proc.retFrom (hne hqp)).trans (hm q)
    · exact congrArg Proc.retFrom hself

/-- **`schedule` returns with nothing changed, or makes a runnable process run.** -/
theorem schedule_switched (h : Inv s) (hs : s.schedule = .ok s') :
    (Machine.selects s = none ∧ Quiet s s') ∨
      ∃ p, Machine.selects s = some p ∧ (s.room p).status = .running ∧ s.isFree p = false ∧
      Switched s s' p := by
  unfold Machine.selects
  rcases schedule_inv h hs with ⟨hreq, rfl⟩ | ⟨hreq, hst, rfl⟩ |
    ⟨hreq, k, p, t, hhead, hrun, hput, -, rfl⟩
  · exact Or.inl ⟨if_pos (not_or.mp hreq), Quiet.refl _⟩
  · have hnot : ¬(¬s.schedReq ∧ ¬s.timer.quantumExceeded) := fun hn => hreq.elim hn.1 hn.2
    refine Or.inl ⟨?_, ⟨rfl, rfl, rfl, fun _ => rfl, fun _ _ => rfl, fun _ h => h⟩⟩
    rw [if_neg hnot, h.firstHead_none.mpr hst]
    rfl
  · have hnot : ¬(¬s.schedReq ∧ ¬s.timer.quantumExceeded) := fun hn => hreq.elim hn.1 hn.2
    have hused : s.isFree p = false := by
      by_contra hf
      rw [Bool.not_eq_false] at hf
      exact absurd ((h.free p hf).symm.trans hrun) (by simp)
    have hq := quiet_of_moves hput.moves
    have hq' : Quiet s (s.requeued t k p) :=
      ⟨hq.isFree, hq.pidGen, hq.pCurrent, hq.id, hq.others, hq.new⟩
    refine Or.inr ⟨p, ?_, hrun, hused, switched_switchTo hq' hput.moves.retFrom p⟩
    rw [if_neg hnot, hhead]
    rfl

/-! ## The table -/

/-- No process is taken out of the table. -/
theorem handled_used (h : Inv s) (hops : ∀ op ∈ e.ops, IpcCall op)
    (hs : handled s irq nr e = .ok s') (hp : s.isFree p = false) :
    s'.isFree p = false ∧ Inv s' := by
  have hquiet : Quiet s s' ∧ Inv s' → s'.isFree p = false ∧ Inv s' :=
    fun hq => ⟨hq.1.isFree ▸ hp, hq.2⟩
  unfold handled at hs
  cases irq with
  | timer => exact hquiet (quiet_tick h hs)
  | keyboard => exact hquiet (quiet_notify h hs)
  | call =>
    dsimp only at hs
    split_ifs at hs with h0 h12 h3
    · exact Except.ok.inj hs ▸ ⟨hp, h⟩
    · exact hquiet (quiet_calls h hops hs)
    · obtain ⟨current, clone, -, -, hforked, hinv⟩ := fork_forked h hs
      refine ⟨?_, hinv⟩
      have hne : p ≠ clone := by
        rintro rfl
        exact absurd (hp.symm.trans hforked.free) (by simp)
      rw [hforked.isFree, Function.update_of_ne hne, hp]
    · exact Except.ok.inj hs ▸ ⟨hp, h⟩

theorem schedule_isFree (h : Inv s) (hs : s.schedule = .ok s') : s'.isFree = s.isFree := by
  obtain ⟨-, hq⟩ | ⟨p, -, -, -, hsw⟩ := schedule_switched h hs
  · exact hq.isFree
  · exact hsw.isFree

end OwnOS.Context
