import OwnOS.Lib.Feedback
import OwnOS.Sched.Current

/-!
# Scheduling is fair without sleeps

A requested `schedule` is a turn of the multilevel feedback queues of `Lib.Feedback`: it takes the
head of the first queue that is not empty and puts it at the end of the next one. Of calls one after
the other, with nothing entering or leaving the queues between them:

* `schedule_fair`: each call returns and selects a process, and none is lost. Until all processes
  are in the last queue each is selected once for every queue that it has below it; from then on
  they are selected in one order, over and over.
-/

namespace OwnOS.Sched

open Lib

variable {s s' t u : Sched} {p : ProcPtr} {Q Q' : Level → List ProcPtr}
  {k level : Level} {ps : List ProcPtr}

/-- Nothing entered or left the queues. The flags, the timer and the rest may have changed. -/
structure Undisturbed (s t : Sched) : Prop where
  links : t.links = s.links
  status : ∀ p, (t.room p).status = (s.room p).status

/-- Effective calls of `schedule`, one after the other, that selected the processes `ps`. -/
inductive Effective : Sched → List ProcPtr → Sched → Prop
  | nil (s : Sched) : Effective s [] s
  | call {s t u s' : Sched} {p : ProcPtr} {ps : List ProcPtr} (hbetween : Undisturbed s t)
      (hreq : t.Requested) (hcall : t.schedule = .ok u) (hsel : u.pCurrent = some p)
      (hrest : Effective u ps s') : Effective s (p :: ps) s'

/-- The processes in the queues. -/
def queued (Q : Level → List ProcPtr) : List ProcPtr := (List.finRange nrLevel).flatMap Q

/-- The sum over all queued processes of the number of queues they have below them. -/
def demotions (Q : Level → List ProcPtr) : ℕ := ∑ k, (3 - k.val) * (Q k).length

/-! ## One call is one turn -/

theorem Queues.nodup (h : Queues s Q) : (queued Q).Nodup := by
  refine List.nodup_flatMap.mpr ⟨fun k _ => h.lists.nodup k, ?_⟩
  refine (List.nodup_finRange nrLevel).imp fun hne => ?_
  intro p hp hp'
  exact hne (h.lists.disjoint hp hp')

theorem nlevel_ne_zero (k : Level) : nlevel k ≠ 0 := by
  revert k
  decide

/-- The first queue that is not empty. -/
theorem firstHead_cons (h : Queues s Q) (hhead : s.firstHead = some (k, p)) :
    (∃ l, Q k = p :: l) ∧ ∀ j < k, Q j = [] := by
  obtain ⟨before, k', after, hsplit, hk', hbefore⟩ := List.findSome?_eq_some_iff.mp hhead
  obtain ⟨q, hq, heq⟩ := Option.map_eq_some_iff.mp hk'
  obtain ⟨rfl, rfl⟩ := Prod.mk.inj heq
  rw [h.head_eq] at hq
  refine ⟨List.head?_eq_some_iff.mp hq, fun j hj => ?_⟩
  have := hbefore j (mem_before hsplit hj)
  rwa [Option.map_eq_none_iff, h.head_eq, List.head?_eq_none_iff] at this

/-- **A requested `schedule` is a turn of the queues.** -/
theorem schedule_turn (h : Queues s Q) (hne : ∃ k, Q k ≠ []) (hreq : s.Requested) : ∃ u p Q',
    s.schedule = .ok u ∧ u.pCurrent = some p ∧ Feedback.Turn (n := 3) Q p Q' ∧ Queues u Q' := by
  have hclear : Queues s.clearFlags Q := h.congr rfl fun _ => rfl
  cases hhead : s.clearFlags.firstHead with
  | none =>
    obtain ⟨k, hk⟩ := hne
    have := firstHead_eq_none.mp hhead k
    rw [hclear.head_eq, List.head?_eq_none_iff] at this
    exact absurd this hk
  | some kp =>
    obtain ⟨k, p⟩ := kp
    obtain ⟨⟨l, hl⟩, hfirst⟩ := firstHead_cons hclear hhead
    have hout := hclear.unlink (show Q k = [] ++ p :: l from hl)
    obtain ⟨t, ht, hmoves, hQt, -, -⟩ := enque_stopped hout setStatus_self (nlevel k)
      (if_neg (nlevel_ne_zero k)).symm
    let v := { t with timer := t.timer.resetQuantum (interval (nlevel k)) (t.room p).id }
    refine ⟨v.switchTo p, p, _, ?_, switchTo_current _ p, Feedback.Turn.mk k p l hl hfirst, ?_⟩
    · rw [schedule_requested hreq, hhead]
      change (((s.clearFlags.setStatus p .stopped).assign (.head k)
        (s.clearFlags.links.next p)).enque p (nlevel k) >>= fun s => _) = _
      rw [show ((s.clearFlags.setStatus p .stopped).assign (.head k)
        (s.clearFlags.links.next p)).enque p (nlevel k) = .ok t from ht, Res.ok_bind]
    · exact hQt.congr (switchTo_links _ p) (switchTo_status _ p)

/-! ## Calls one after the other -/

/-- Effective calls are turns, and leave represented queues. -/
theorem Effective.turns (h : Effective s ps s') (hQ : Queues s Q) (hne : ∃ k, Q k ≠ []) :
    ∃ Q', Queues s' Q' ∧ Feedback.Turns (n := 3) Q ps Q' := by
  induction h generalizing Q with
  | nil s => exact ⟨Q, hQ, .nil Q⟩
  | @call s t u s' p ps hbetween hreq hcall hsel _ ih =>
    have hQt : Queues t Q := hQ.congr hbetween.links hbetween.status
    obtain ⟨u', p', Q₁, hcall', hsel', hturn, hQ₁⟩ := schedule_turn hQt hne hreq
    obtain rfl := Except.ok.inj (hcall.symm.trans hcall')
    obtain rfl := Option.some.inj (hsel.symm.trans hsel')
    obtain ⟨Q', hQ', hturns⟩ := ih hQ₁ hturn.ne_nil
    exact ⟨Q', hQ', .cons hturn hturns⟩

theorem demotions_eq (Q : Level → List ProcPtr) : demotions Q = Feedback.work (n := 3) Q := by
  simp [demotions, Feedback.work, Feedback.weigh]

/-- What effective calls promise that found the queues `Q`, selected `ps` and left `Q'`, for a round
`order` of the processes. -/
structure Fair (Q : Level → List ProcPtr) (order ps : List ProcPtr) (Q' : Level → List ProcPtr) :
    Prop where
  /-- No process is lost. -/
  kept : (queued Q').Perm (queued Q)
  /-- The first `demotions Q` calls. -/
  demoted : demotions Q ≤ ps.length → ∀ k, ∀ p ∈ Q k, (ps.take (demotions Q)).count p = 3 - k.val
  /-- After them all processes are in the last queue. -/
  settled : demotions Q ≤ ps.length → (∀ k ≠ 3, Q' k = []) ∧ (Q' 3).Perm (queued Q)
  /-- From then on the calls go round in the order. -/
  round : ∀ i, demotions Q + i + order.length ≤ ps.length →
    (ps.drop (demotions Q + i)).take order.length = order.rotate i
  /-- As many calls as there are processes select each once. -/
  once : ∀ i, demotions Q + i + order.length ≤ ps.length →
    ∀ p ∈ queued Q, ((ps.drop (demotions Q + i)).take order.length).count p = 1

/-- Turns are fair: the round is the last queue as the first `demotions Q` turns leave it. -/
theorem turns_fair (hnd : (queued Q).Nodup) (hne : ∃ k, Q k ≠ []) : ∃ order, order.Perm (queued Q) ∧
    ∀ ps Q', Feedback.Turns (n := 3) Q ps Q' → Fair Q order ps Q' := by
  obtain ⟨ds, R, hlen, hds⟩ := Feedback.exists_turns (n := 3) hne (demotions Q)
  rw [demotions_eq] at hlen
  obtain ⟨hwork, hcredit⟩ := hds.works hlen.le
  have hR : Feedback.work R = 0 := by omega
  have hsettled := Feedback.work_eq_zero.mp hR
  have horder : (R (Fin.last 3)).Perm (queued Q) := Feedback.all_of_settled hsettled ▸ hds.perm
  refine ⟨R (Fin.last 3), horder, fun ps Q' hps => ?_⟩
  -- a run that is long enough begins with those turns
  have hsplit : demotions Q ≤ ps.length →
      ps.take (demotions Q) = ds ∧ Feedback.Turns (n := 3) R (ps.drop (demotions Q)) Q' := by
    intro hle
    rw [← List.take_append_drop (demotions Q) ps] at hps
    obtain ⟨R', htake, hdrop⟩ := hps.split
    obtain ⟨heq, rfl⟩ :=
      htake.unique hds (by rw [List.length_take, hlen, ← demotions_eq, min_eq_left hle])
    exact ⟨heq, hdrop⟩
  have hround : ∀ i, demotions Q + i + (R (Fin.last 3)).length ≤ ps.length →
      (ps.drop (demotions Q + i)).take (R (Fin.last 3)).length = (R (Fin.last 3)).rotate i := by
    intro i hi
    obtain ⟨-, hdrop⟩ := hsplit (by omega)
    obtain ⟨-, -, hget⟩ := hdrop.getElem?_of_settled hsettled
    refine Feedback.take_drop_eq_rotate (m := ps.length - demotions Q) (fun j hj => ?_) (by omega)
    rw [← List.getElem?_drop]
    exact hget j (by rwa [List.length_drop])
  refine ⟨hps.perm, fun hle k p hp => ?_, fun hle => ?_, hround, fun i hi p hp => ?_⟩
  · rw [(hsplit hle).1]
    have := hcredit p
    rw [Feedback.credit_eq_zero hR, Feedback.credit_of_mem hnd hp] at this
    omega
  · obtain ⟨hQ', hrotate, -⟩ := (hsplit hle).2.getElem?_of_settled hsettled
    refine ⟨hQ', ?_⟩
    rw [show Q' 3 = Q' (Fin.last 3) from rfl, hrotate]
    exact (List.rotate_perm _ _).trans horder
  · rw [hround i hi, (List.rotate_perm _ i).count_eq]
    exact List.count_eq_one_of_mem (horder.nodup_iff.mpr hnd) (horder.mem_iff.mpr hp)

/-- **Scheduling is fair without sleeps**, from every contents of the queues. -/
theorem schedule_fair (h : Queues s Q) (hne : queued Q ≠ []) : ∃ order : List ProcPtr,
    order.Perm (queued Q) ∧ (queued Q).Nodup ∧
    ∀ ps s', Effective s ps s' →
      (∃ Q', Queues s' Q' ∧ Fair Q order ps Q') ∧
      -- the next effective call returns and selects a process of the queues
      ∀ t, Undisturbed s' t → t.Requested → ∃ u, ∃ p ∈ queued Q, t.schedule = .ok u ∧
      u.pCurrent = some p := by
  obtain ⟨p, hp⟩ := List.exists_mem_of_ne_nil _ hne
  obtain ⟨k, hk⟩ := Feedback.mem_all.mp hp
  have hne' : ∃ k, Q k ≠ [] := ⟨k, List.ne_nil_of_mem hk⟩
  obtain ⟨order, horder, hfair⟩ := turns_fair h.nodup hne'
  refine ⟨order, horder, h.nodup, fun ps s' heff => ?_⟩
  obtain ⟨Q', hQ', hturns⟩ := heff.turns h hne'
  have hkept := (hfair ps Q' hturns).kept
  refine ⟨⟨Q', hQ', hfair ps Q' hturns⟩, fun t ht hreq => ?_⟩
  obtain ⟨k', hk'⟩ := Feedback.mem_all.mp (hkept.mem_iff.mpr hp)
  obtain ⟨u, q, Q'', hcall, hsel, hturn, -⟩ := schedule_turn (hQ'.congr ht.links ht.status)
    ⟨k', List.ne_nil_of_mem hk'⟩ hreq
  obtain ⟨j, hj, -⟩ := hturn.weighed (fun _ => 0) fun _ => true
  exact ⟨u, q, hkept.mem_iff.mp (Feedback.mem_all.mpr ⟨j, hj⟩), hcall, hsel⟩

/-- After the first process has forked, the two take turns. -/
theorem schedule_fair_fork : ∃ s Q, Run step Any (boot irqQueInit) [.initTasks, .fork] s ∧
    0 ∈ queued Q ∧ 2 ∈ queued Q ∧ ∃ order : List ProcPtr, order.Perm (queued Q) ∧ (queued Q).Nodup ∧
      ∀ ps s', Effective s ps s' → (∃ Q', Queues s' Q' ∧ Fair Q order ps Q') ∧
        ∀ t, Undisturbed s' t → t.Requested →
          ∃ u, ∃ p ∈ queued Q, t.schedule = .ok u ∧ u.pCurrent = some p := by
  have hplay : (play step Any (boot irqQueInit) [.initTasks, .fork]).map
      (fun s => ((s.room 0).status, (s.room 2).status)) = some (.running, .running) := by
    decide +kernel
  obtain ⟨s, hs, hst⟩ := Option.map_eq_some_iff.mp hplay
  obtain ⟨h₀, h₂⟩ := Prod.mk.inj hst
  have hrun := run_of_play hs
  obtain ⟨Q, hQ⟩ := (run_inv hrun).queues
  have hmem : ∀ p, (s.room p).status = .running → p ∈ queued Q :=
    fun p hp => Feedback.mem_all.mpr ((hQ.running p).mp hp)
  exact ⟨s, Q, hrun, hmem 0 h₀, hmem 2 h₂, schedule_fair hQ (List.ne_nil_of_mem (hmem 0 h₀))⟩

end OwnOS.Sched
