import OwnOS.Sched.Model

/-!
# The run queues

`Queues s Q`: the four queues are the disjoint NULL-terminated lists `Q`, and the processes in them
are the ones with status `TASK_RUNNING`. `Moves s s'` says that a routine wrote nothing but `next`
fields, queue heads and the status of processes.

* `enque_running`, `enque_stopped`, `deque_stopped`, `deque_running`: what `enque` and `deque` do to
  represented queues. They return, also when a `next` field is stale.
* `enque_spec`, `deque_spec`: what their callers use.
-/

namespace OwnOS.Sched

open Lib

/-- The queues hold `Q`, and the status of a process says whether it is in one of them. -/
structure Queues (s : Sched) (Q : Level → List ProcPtr) : Prop where
  lists : s.links.Lists Q
  running : ∀ p, (s.room p).status = .running ↔ ∃ k, p ∈ Q k

/-- Only links and statuses were written. -/
structure Moves (s s' : Sched) : Prop where
  same : s' = { s with links := s'.links, room := s'.room }
  proc : ∀ p, s'.room p = { s.room p with status := (s'.room p).status }

variable {s s' s'' : Sched} {Q : Level → List ProcPtr} {p q : ProcPtr}
  {k level : Level} {st : Status}

@[simp] theorem setProc_self (x : Proc) : (s.setProc p x).room p = x := Function.update_self ..

theorem setProc_of_ne (x : Proc) (h : q ≠ p) : (s.setProc p x).room q = s.room q :=
  Function.update_of_ne h _ _

@[simp] theorem setStatus_self : ((s.setStatus p st).room p).status = st := by
  simp [setStatus]

theorem setStatus_of_ne (h : q ≠ p) : (s.setStatus p st).room q = s.room q :=
  setProc_of_ne _ h

@[simp] theorem setStatus_links : (s.setStatus p st).links = s.links := rfl

/-- The queues are in the links and the statuses. -/
theorem Queues.congr (h : Queues s Q) (hl : s'.links = s.links)
    (hst : ∀ p, (s'.room p).status = (s.room p).status) : Queues s' Q where
  lists := by
    rw [hl]
    exact h.lists
  running p := by
    rw [hst p]
    exact h.running p

/-! ## What moves leave alone -/

theorem Moves.refl (s : Sched) : Moves s s := ⟨rfl, fun _ => rfl⟩

theorem Moves.trans (h : Moves s s') (h' : Moves s' s'') : Moves s s'' where
  same := by
    rw [h'.same, h.same]
  proc p := by
    rw [h'.proc p, h.proc p]

theorem Moves.setStatus (s : Sched) (p : ProcPtr) (st : Status) : Moves s (s.setStatus p st) where
  same := rfl
  proc q := by
    by_cases hq : q = p
    · subst hq
      simp [Sched.setStatus]
    · rw [setStatus_of_ne hq]

theorem Moves.assign (s : Sched) (pp : ProcLoc) (q : Option ProcPtr) : Moves s (s.assign pp q) :=
  ⟨rfl, fun _ => rfl⟩

theorem Moves.timer (h : Moves s s') : s'.timer = s.timer := by
  rw [h.same]

theorem Moves.pCurrent (h : Moves s s') : s'.pCurrent = s.pCurrent := by
  rw [h.same]

theorem Moves.id (h : Moves s s') (p : ProcPtr) : (s'.room p).id = (s.room p).id := by
  rw [h.proc p]

theorem Moves.prior (h : Moves s s') (p : ProcPtr) : (s'.room p).prior = (s.room p).prior := by
  rw [h.proc p]

theorem Moves.retFrom (h : Moves s s') (p : ProcPtr) :
    (s'.room p).retFrom = (s.room p).retFrom := by
  rw [h.proc p]

/-! ## The walks -/

/-- A walk to the end of a list that is not longer than the table. -/
theorem endOf_eq {L : Links Level ProcPtr} : ∀ {n : Nat} {c : ProcLoc} {l : List ProcPtr},
    L.Path c l none → l.length < n → endOf L n c = .ok (c.after l)
  | 0, _, _, _, hn => absurd hn (Nat.not_lt_zero _)
  | n + 1, c, [], h, _ => by
    rw [endOf, show L.get c = none from h]
    rfl
  | n + 1, c, i :: l, h, hn => by
    rw [endOf, h.1]
    exact endOf_eq h.2 (Nat.lt_of_succ_lt_succ hn)

/-- A search that finds the process. -/
theorem find_eq_some {L : Links Level ProcPtr} {post : List ProcPtr} :
    ∀ {n : Nat} {c : ProcLoc} {pre : List ProcPtr}, L.Path c (pre ++ p :: post) none → p ∉ pre →
      pre.length < n → find L p n c = .ok (some (c.after pre))
  | 0, _, _, _, _, hn => absurd hn (Nat.not_lt_zero _)
  | n + 1, c, [], h, _, _ => by
    rw [find, h.1]
    exact if_pos rfl
  | n + 1, c, i :: pre, h, hp, hn => by
    obtain ⟨hi, hpre⟩ := not_or.mp (List.mem_cons.not.mp hp)
    rw [find, h.1]
    exact (if_neg (Ne.symm hi)).trans (find_eq_some h.2 hpre (Nat.lt_of_succ_lt_succ hn))

/-- A search in a list the process is not in. -/
theorem find_eq_none {L : Links Level ProcPtr} : ∀ {n : Nat} {c : ProcLoc} {l : List ProcPtr},
    L.Path c l none → p ∉ l → l.length < n → find L p n c = .ok none
  | 0, _, _, _, _, hn => absurd hn (Nat.not_lt_zero _)
  | n + 1, c, [], h, _, _ => by
    rw [find, show L.get c = none from h]
  | n + 1, c, i :: l, h, hp, hn => by
    obtain ⟨hi, hl⟩ := not_or.mp (List.mem_cons.not.mp hp)
    rw [find, h.1]
    exact (if_neg (Ne.symm hi)).trans (find_eq_none h.2 hl (Nat.lt_of_succ_lt_succ hn))

theorem length_lt (h : s.links.Lists Q) (k : Level) : (Q k).length < nrProc + 1 := by
  have := (h.nodup k).length_le_card
  rw [Fintype.card_fin] at this
  exact Nat.lt_succ_of_le this

/-- The search through the levels ends in the queue the process is in. -/
theorem findLevel_eq (h : s.links.Lists Q) {pre post : List ProcPtr} (hQ : Q k = pre ++ p :: post) :
    ∀ {ks : List Level}, k ∈ ks → findLevel s.links p ks = .ok (some ((Loc.head k).after pre))
  | [], hk => absurd hk List.not_mem_nil
  | k' :: ks, hk => by
    by_cases hkk : k' = k
    · subst hkk
      have hpath := h.path k'
      have hnd := h.nodup k'
      have hlt := length_lt h k'
      rw [hQ] at hpath hnd hlt
      have hp : p ∉ pre := fun hm => (List.nodup_append.mp hnd).2.2 p hm p List.mem_cons_self rfl
      rw [List.length_append] at hlt
      have hfind : find s.links p (nrProc + 1) (.head k') = .ok (some ((Loc.head k').after pre)) :=
        find_eq_some hpath hp (by omega)
      simp [findLevel, hfind]
    · have hp : p ∉ Q k' := by
        intro hm
        refine hkk (h.disjoint hm ?_)
        rw [hQ]
        exact List.mem_append_right _ List.mem_cons_self
      have hk' : k ∈ ks := (List.mem_cons.mp hk).resolve_left fun e => hkk e.symm
      simp [findLevel, find_eq_none (h.path k') hp (length_lt h k'), findLevel_eq h hQ hk']

/-! ## `enque` and `deque` -/

/-- Nothing is done to a process that is in a queue. -/
theorem enque_running (hp : (s.room p).status = .running) : s.enque p level = .ok s := by
  unfold Sched.enque
  rw [hp]

/-- A stopped process goes to the end of its queue. -/
theorem enque_stopped (h : Queues s Q) (hp : (s.room p).status = .stopped) (level : Level)
    (hk : k = if level = 0 then (s.room p).prior else level) : ∃ s', s.enque p level = .ok s' ∧
    Moves s s' ∧ Queues s' (Function.update Q k (Q k ++ [p])) ∧ (s'.room p).status = .running ∧
    ∀ q ≠ p, s'.room q = s.room q := by
  have hnot : ∀ k, p ∉ Q k := by
    intro k hm
    rw [(h.running p).mpr ⟨k, hm⟩] at hp
    exact absurd hp (by simp)
  have hend := endOf_eq (h.lists.path k) (length_lt h.lists k)
  let t := ((s.assign (.next p) none).assign ((Loc.head k).after (Q k)) (some p)).setStatus p
    .running
  have hlists : t.links.Lists (Function.update Q k (Q k ++ [p])) := by
    have hset := h.lists.set_next (p := none) hnot
    have hQ : Q k = Q k ++ [] := (List.append_nil _).symm
    refine hset.link hQ hnot ?_
    rw [(hset.path k).get_after]
    exact Links.get_set_self (L := s.links) (c := .next p)
  refine ⟨t, ?_, ?_, ⟨hlists, ?_⟩, setStatus_self, fun q hq => setStatus_of_ne hq⟩
  · unfold Sched.enque
    rw [hp]
    simp only [← hk, hend, Res.ok_bind]
    rfl
  · exact ((Moves.assign s _ _).trans (Moves.assign _ _ _)).trans (Moves.setStatus _ _ _)
  · intro q
    by_cases hq : q = p
    · subst hq
      refine ⟨fun _ => ⟨k, ?_⟩, fun _ => setStatus_self⟩
      rw [Function.update_self]
      exact List.mem_append_right _ (List.mem_singleton_self q)
    · have hst : (t.room q).status = (s.room q).status := congrArg _ (setStatus_of_ne hq)
      rw [hst, h.running q]
      refine exists_congr fun k' => ?_
      by_cases hk' : k' = k
      · subst hk'
        simp [hq]
      · rw [Function.update_of_ne hk']

theorem deque_stopped (hp : (s.room p).status = .stopped) : s.deque p = .ok s := by
  unfold Sched.deque
  rw [hp]

/-- The queues once a process is taken out of its own, as `deque` and `schedule` do it. -/
theorem Queues.unlink (h : Queues s Q) {pre post : List ProcPtr} (hQ : Q k = pre ++ p :: post) :
    Queues ((s.setStatus p .stopped).assign ((Loc.head k).after pre) (s.links.next p))
      (Function.update Q k (pre ++ post)) := by
  refine ⟨h.lists.unlink hQ, fun q => ?_⟩
  have hk : p ∈ Q k := by simp [hQ]
  have hnd := h.lists.nodup k
  rw [hQ] at hnd
  obtain ⟨hpq, -⟩ := List.nodup_cons.mp (List.perm_middle.nodup_iff.mp hnd)
  by_cases hq : q = p
  · subst hq
    have hst :
        (((s.setStatus q .stopped).assign ((Loc.head k).after pre) (s.links.next q)).room
        q).status =
        .stopped := setStatus_self
    rw [hst]
    refine ⟨fun e => absurd e (by simp), ?_⟩
    rintro ⟨k', hk'⟩
    exfalso
    by_cases hkk : k' = k
    · subst hkk
      rw [Function.update_self] at hk'
      exact hpq hk'
    · rw [Function.update_of_ne hkk] at hk'
      exact hkk (h.lists.disjoint hk' hk)
  · have hst :
      (((s.setStatus p .stopped).assign ((Loc.head k).after pre) (s.links.next p)).room q).status =
        (s.room q).status := congrArg _ (setStatus_of_ne hq)
    rw [hst, h.running q]
    refine exists_congr fun k' => ?_
    by_cases hk' : k' = k
    · subst hk'
      simp [hQ, hq]
    · rw [Function.update_of_ne hk']

/-- A running process leaves its queue. -/
theorem deque_running (h : Queues s Q) (hp : (s.room p).status = .running) : ∃ s' k pre post,
    s.deque p = .ok s' ∧ Moves s s' ∧ Q k = pre ++ p :: post ∧
    Queues s' (Function.update Q k (pre ++ post)) ∧ (s'.room p).status = .stopped ∧
    ∀ q ≠ p, s'.room q = s.room q := by
  obtain ⟨k, hk⟩ := (h.running p).mp hp
  obtain ⟨pre, post, hQ⟩ := List.append_of_mem hk
  have hfind := findLevel_eq h.lists hQ (List.mem_finRange k)
  let t := (s.setStatus p .stopped).assign ((Loc.head k).after pre) (s.links.next p)
  refine ⟨t, k, pre, post, ?_, ?_, hQ, h.unlink hQ, setStatus_self, fun q hq => setStatus_of_ne hq⟩
  · unfold Sched.deque
    rw [hp]
    simp only [hfind, Res.ok_bind]
    rfl
  · exact (Moves.setStatus s _ _).trans (Moves.assign _ _ _)

/-! ## The invariant -/

/-- **What every call keeps**: the queues are in step with the statuses, and a process of the table
is runnable or stopped. -/
structure Inv (s : Sched) : Prop where
  queues : ∃ Q, Queues s Q
  free : ∀ p, s.isFree p = true → (s.room p).status = .init
  used : ∀ p, s.isFree p = false → (s.room p).status = .running ∨ (s.room p).status = .stopped

/-- Nothing changed but the links and the status of `p`, which is `st` now. -/
structure Put (s s' : Sched) (p : ProcPtr) (st : Status) : Prop where
  moves : Moves s s'
  status : (s'.room p).status = st
  others : ∀ q ≠ p, s'.room q = s.room q

/-- The invariant reads the links, the free flags and the statuses. -/
theorem Inv.congr (h : Inv s) (hl : s'.links = s.links) (hf : s'.isFree = s.isFree)
    (hst : ∀ p, (s'.room p).status = (s.room p).status) : Inv s' where
  queues := by
    obtain ⟨Q, hQ⟩ := h.queues
    exact ⟨Q, hQ.congr hl hst⟩
  free p := by
    rw [hf, hst p]
    exact h.free p
  used p := by
    rw [hf, hst p]
    exact h.used p

theorem boot_inv (irqQue : Que Entry 64) : Inv (boot irqQue) where
  queues := by
    refine ⟨fun _ => [], ⟨fun _ => rfl, ?_⟩, fun p => ?_⟩
    · intro k k' i hi
      exact absurd hi List.not_mem_nil
    · simp [boot, Proc.init]
  free _ _ := rfl
  used _ h := absurd h (by simp [boot])

/-- Changing the status of `p` between runnable and stopped, with the queues in step. -/
theorem Inv.put (h : Inv s) (hp : s.isFree p = false) (hput : Put s s' p st) (hQ : ∃ Q, Queues s' Q)
    (hst : st = .running ∨ st = .stopped) : Inv s' where
  queues := hQ
  free q hq := by
    rw [hput.moves.same] at hq
    have hne : q ≠ p := by
      rintro rfl
      exact absurd (hp.symm.trans hq) (by simp)
    rw [hput.others q hne]
    exact h.free q hq
  used q hq := by
    rw [hput.moves.same] at hq
    by_cases hne : q = p
    · subst hne
      rw [hput.status]
      exact hst
    · rw [hput.others q hne]
      exact h.used q hq

/-- `enque` of a process of the table. -/
theorem Inv.enque (h : Inv s) (hp : s.isFree p = false) (level : Level) :
    ∃ s', s.enque p level = .ok s' ∧ Put s s' p .running ∧ Inv s' := by
  rcases h.used p hp with hst | hst
  · exact ⟨s, enque_running hst, ⟨Moves.refl s, hst, fun _ _ => rfl⟩, h⟩
  · obtain ⟨Q, hQ⟩ := h.queues
    obtain ⟨s', hs', hmoves, hQ', hrun, hothers⟩ := enque_stopped hQ hst level rfl
    have hput : Put s s' p .running := ⟨hmoves, hrun, hothers⟩
    exact ⟨s', hs', hput, h.put hp hput ⟨_, hQ'⟩ (Or.inl rfl)⟩

/-- `deque` of a process of the table. -/
theorem Inv.deque (h : Inv s) (hp : s.isFree p = false) :
    ∃ s', s.deque p = .ok s' ∧ Put s s' p .stopped ∧ Inv s' := by
  rcases h.used p hp with hst | hst
  · obtain ⟨Q, hQ⟩ := h.queues
    obtain ⟨s', k, pre, post, hs', hmoves, -, hQ', hstop, hothers⟩ := deque_running hQ hst
    have hput : Put s s' p .stopped := ⟨hmoves, hstop, hothers⟩
    exact ⟨s', hs', hput, h.put hp hput ⟨_, hQ'⟩ (Or.inr rfl)⟩
  · exact ⟨s, deque_stopped hst, ⟨Moves.refl s, hst, fun _ _ => rfl⟩, h⟩

/-- A free element of the table becomes a stopped process. -/
theorem Inv.alloc (h : Inv s) (hp : s.isFree p = true) {x : Proc} (hx : x.status = .stopped) :
    Inv { s with
      isFree := Function.update s.isFree p false, room := Function.update s.room p x } where
  queues := by
    obtain ⟨Q, hQ⟩ := h.queues
    refine ⟨Q, hQ.lists, fun q => ?_⟩
    by_cases hq : q = p
    · subst hq
      have hnot := (hQ.running q).not.mp (by simp [h.free q hp])
      simpa [hx] using hnot
    · simp only [Function.update_of_ne hq]
      exact hQ.running q
  free q hq := by
    by_cases hne : q = p
    · subst hne
      simp at hq
    · simp only [Function.update_of_ne hne] at hq ⊢
      exact h.free q hq
  used q hq := by
    by_cases hne : q = p
    · subst hne
      simp [hx]
    · simp only [Function.update_of_ne hne] at hq ⊢
      exact h.used q hq

end OwnOS.Sched
