import OwnOS.Ipc.Runs

/-!
# Selective receive

`recv(id)` looks for a message of `id`, but `recv_later` takes the oldest message whoever sent it.
The two agree when a receiver goes to sleep with an empty `sendQ` and the first message it then gets
is the awaited one: `receives_selected`.
-/

namespace OwnOS.Ipc

open OwnOS.Lib

namespace Kernel

variable {k k' : Kernel} {p q id : Pid} {mess : Message} {o : Op} {os : List Op}

/-- **Selective receive**: what a `recv(id)` took was sent by `id` to that process. -/
def Selected (k : Kernel) : Prop :=
  ∀ t ∈ k.taken, ∀ id, t.want = .recv id → id ≠ pidAny →
    ∃ s ∈ k.sent, s.src = id ∧ s.dst = t.proc ∧ s.entry = t.entry

/-- The sender that a process asleep in `recv` waits for, if it is one process. -/
def awaits (k : Kernel) (p : Pid) : Option Pid :=
  match (k.proc p).retFrom, (k.proc p).wait with
  | .recvLater, .recv id => if id = pidAny then none else some id
  | _, _ => none

/-- A `recv(id)` that finds no valid message of `id` leaves its `sendQ` empty, and the first `send`
to a process that waits for `id` is by `id`. -/
def InOrder (k : Kernel) : Op → Prop
  | .recv id _ => id ≠ pidAny → valid ((pick id (k.proc k.pCurrent).sendQ).1.map (·.msg)) = false →
    (pick id (k.proc k.pCurrent).sendQ).2 = []
  | .send dst _ => (k.proc dst).sendQ = [] → k.awaits dst = none ∨ k.awaits dst = some k.pCurrent
  | _ => True

instance : DecidablePred (InOrder k)
  | .recv id _ => inferInstanceAs (Decidable (id ≠ pidAny →
      valid ((pick id (k.proc k.pCurrent).sendQ).1.map (·.msg)) = false →
      (pick id (k.proc k.pCurrent).sendQ).2 = []))
  | .send dst _ => inferInstanceAs (Decidable ((k.proc dst).sendQ = [] →
      k.awaits dst = none ∨ k.awaits dst = some k.pCurrent))
  | .tick => isTrue trivial
  | .schedule => isTrue trivial

/-- What holds of the queues of a run in order. -/
structure Ordered (k : Kernel) : Prop where
  base : Base k
  posted : ∀ p, ∀ e ∈ (k.proc p).sendQ, ∃ s ∈ k.sent, s.dst = p ∧ s.entry = e
  oldest : ∀ p id e, k.awaits p = some id → (k.proc p).sendQ.getLast? = some e → e.msg.id = id
  selected : Selected k

theorem awaits_eq_some : k.awaits p = some id ↔
    (k.proc p).retFrom = .recvLater ∧ (k.proc p).wait = .recv id ∧ id ≠ pidAny := by
  unfold awaits
  cases (k.proc p).retFrom with
  | kernel2user => simp
  | retFromFork => simp
  | recvLater =>
    cases (k.proc p).wait with
    | none => simp
    | send _ _ => simp
    | recv i =>
      by_cases hi : i = pidAny
      · simp only [if_pos hi]
        constructor
        · intro h
          exact absurd h (by simp)
        · rintro ⟨-, h, hne⟩
          exact absurd (hi ▸ (Wait.recv.inj h).symm) hne
      · simp only [if_neg hi]
        constructor
        · intro h
          obtain rfl := Option.some.inj h
          exact ⟨trivial, rfl, hi⟩
        · rintro ⟨-, h, -⟩
          rw [Wait.recv.inj h]

theorem Start.ordered (h : Start k) : Ordered k := by
  refine ⟨h.base, ?_, ?_, ?_⟩
  · intro p e he
    rw [(h.empty p).1] at he
    exact absurd he List.not_mem_nil
  · intro p id e ha
    exact absurd (awaits_eq_some.mp ha).1 (h.awake p).1
  · intro t ht
    rw [h.taken] at ht
    exact absurd ht List.not_mem_nil

theorem Selected.mono (h : Selected k) (ht : k'.taken = k.taken) (hs : k.sent ⊆ k'.sent) :
    Selected k' := by
  intro t hm id hw hne
  rw [ht] at hm
  obtain ⟨s, hmem, hsrc⟩ := h t hm id hw hne
  exact ⟨s, hs hmem, hsrc⟩

/-- A message taken for `id` that has the pid of `id`. -/
theorem Ordered.take (h : Ordered k) {t : Taken} (ht : k'.taken = t :: k.taken)
    (hs : k'.sent = k.sent) (he : t.entry ∈ (k.proc t.proc).sendQ)
    (hid : ∀ id, t.want = .recv id → id ≠ pidAny → t.entry.msg.id = id) : Selected k' := by
  intro t' hm id hw hne
  rw [hs]
  rw [ht] at hm
  rcases List.mem_cons.mp hm with rfl | hm
  · obtain ⟨s, hmem, hdst, hse⟩ := h.posted t'.proc _ he
    have hsrc : s.entry.msg.id = id := by
      rw [hse]
      exact hid id hw hne
    exact ⟨s, hmem, hsrc, hdst, hse⟩
  · exact h.selected t' hm id hw hne

theorem Ordered.send (h : Ordered k) (hc : InOrder k (.send id mess))
    (hs : step k (.send id mess) = .ok k') (hb : Base k') : Ordered k' := by
  obtain ⟨hS, -⟩ := step_send h.base.short hs
  have hsub : k.sent ⊆ k'.sent := by
    rw [hS.sent]
    exact List.subset_cons_self _ _
  refine ⟨hb, ?_, ?_, h.selected.mono hS.taken hsub⟩
  · intro p e he
    rw [hS.sendQ] at he
    split at he
    · rename_i hp
      rcases List.mem_cons.mp he with rfl | he
      · refine ⟨⟨k.pCurrent, id, k.stamp mess, k.clock⟩, ?_, hp.symm, rfl⟩
        rw [hS.sent]
        exact List.mem_cons_self ..
      · obtain ⟨s, hm, hd⟩ := h.posted id e he
        exact ⟨s, hsub hm, hp ▸ hd⟩
    · obtain ⟨s, hm, hd⟩ := h.posted p e he
      exact ⟨s, hsub hm, hd⟩
  · intro p w e ha he
    obtain ⟨hret, hwait, hne⟩ := awaits_eq_some.mp ha
    rw [hS.retFrom] at hret
    have hwait : (k.proc p).wait = .recv w := by
      rcases hS.branch with ⟨-, -, hw, -⟩ | ⟨-, -, -, hw, -⟩ | ⟨-, -, -, hw, -⟩
      · exact (hw p).symm.trans hwait
      · exact (hw p).symm.trans hwait
      · rw [hw p] at hwait
        split at hwait
        · exact absurd hwait (by simp)
        · exact hwait
    have ha : k.awaits p = some w := awaits_eq_some.mpr ⟨hret, hwait, hne⟩
    rw [hS.sendQ] at he
    split at he
    · rename_i hp
      subst hp
      cases hq : (k.proc p).sendQ with
      | nil =>
        rw [hq] at he
        obtain rfl := Option.some.inj he
        rcases hc hq with hno | hcur
        · exact absurd (hno.symm.trans ha) (by simp)
        · exact Option.some.inj (hcur.symm.trans ha)
      | cons x xs =>
        rw [hq] at he
        refine h.oldest p w e ha ?_
        rw [hq]
        simpa using he
    · exact h.oldest p w e ha he

theorem Ordered.recv (h : Ordered k) (ht : Turn k (.recv id mess)) (hc : InOrder k (.recv id mess))
    (hs : step k (.recv id mess) = .ok k') (hb : Base k') : Ordered k' := by
  obtain ⟨hR, -⟩ := step_recv h.base.short hs
  have hposted : ∀ p, ∀ e ∈ (k'.proc p).sendQ, ∃ s ∈ k'.sent, s.dst = p ∧ s.entry = e := by
    intro p e he
    rw [hR.sent]
    rw [hR.sendQ] at he
    split at he
    · rename_i hp
      subst hp
      exact h.posted _ e ((pick_sublist id _).subset he)
    · exact h.posted p e he
  rcases hR.branch with ⟨e, he⟩ | hw
  · have hmem := (pick_perm he.found).mem_iff.mpr (List.mem_cons_self ..)
    refine ⟨hb, hposted, ?_, h.take he.taken hR.sent hmem ?_⟩
    · intro p w x ha hx
      obtain ⟨hret, hwait, hne⟩ := awaits_eq_some.mp ha
      rw [he.retFrom] at hret
      rw [he.wait] at hwait
      have hp : p ≠ k.pCurrent := by
        rintro rfl
        exact h.base.ready (h.base.user ht) hret
      rw [hR.sendQ, if_neg hp] at hx
      exact h.oldest p w x (awaits_eq_some.mpr ⟨hret, hwait, hne⟩) hx
    · intro w hw hne
      obtain rfl := Wait.recv.inj hw
      have hfound := he.found
      unfold pick at hfound
      rw [if_neg hne] at hfound
      simpa using List.find?_some hfound
  · refine ⟨hb, hposted, ?_, h.selected.mono hw.taken (by rw [hR.sent]; exact List.Subset.refl _)⟩
    intro p w x ha hx
    obtain ⟨hret, hwait, hne⟩ := awaits_eq_some.mp ha
    rw [hR.sendQ] at hx
    rw [hw.retFrom] at hret
    rw [hw.wait] at hwait
    by_cases hp : p = k.pCurrent
    · rw [if_pos hp] at hx hwait
      obtain rfl := Wait.recv.inj hwait
      -- it went to sleep with an empty queue
      have hmiss : valid ((pick id (k.proc k.pCurrent).sendQ).1.map (·.msg)) = false := by
        cases hpick : (pick id (k.proc k.pCurrent).sendQ).1 with
        | none => rfl
        | some e => exact hw.missing e hpick
      rw [hc hne hmiss] at hx
      exact absurd hx (by simp)
    · rw [if_neg hp] at hx hwait hret
      exact h.oldest p w x (awaits_eq_some.mpr ⟨hret, hwait, hne⟩) hx

theorem Ordered.schedule (h : Ordered k) (hs : step k .schedule = .ok k') (hb : Base k') :
    Ordered k' := by
  have hS := step_schedule hs
  rcases hS.branch with hst | ⟨-, i, r, -, hr⟩
  · have hawaits : ∀ p, k'.awaits p = k.awaits p := by
      intro p
      unfold awaits
      rw [hst.retFrom, hst.wait]
    refine ⟨hb, ?_, ?_, h.selected.mono hst.taken (by rw [hS.sent]; exact List.Subset.refl _)⟩
    · intro p e he
      rw [hS.sent]
      rw [hst.sendQ] at he
      exact h.posted p e he
    · intro p w e ha he
      rw [hawaits] at ha
      rw [hst.sendQ] at he
      exact h.oldest p w e ha he
  · have hawaits : ∀ p w, k'.awaits p = some w → p ≠ r ∧ k.awaits p = some w := by
      intro p w ha
      obtain ⟨hret, hwait, hne⟩ := awaits_eq_some.mp ha
      rw [hr.retFrom] at hret
      rw [hr.wait] at hwait
      by_cases hp : p = r
      · rw [if_pos hp] at hret
        exact absurd hret (by simp)
      · rw [if_neg hp] at hret hwait
        exact ⟨hp, awaits_eq_some.mpr ⟨hret, hwait, hne⟩⟩
    rcases hr.takes with ⟨-, ht, hq⟩ | ⟨hlater, e, he, -, ht, hq⟩
    · refine ⟨hb, ?_, ?_, h.selected.mono ht (by rw [hS.sent]; exact List.Subset.refl _)⟩
      · intro p e he
        rw [hS.sent]
        rw [hq] at he
        exact h.posted p e he
      · intro p w e ha he
        rw [hq] at he
        exact h.oldest p w e (hawaits p w ha).2 he
    · have hmem := (perm_deque he).mem_iff.mpr (List.mem_cons_self ..)
      refine ⟨hb, ?_, ?_, h.take ht hS.sent hmem ?_⟩
      · intro p x hx
        rw [hS.sent]
        rw [hq] at hx
        split at hx
        · rename_i hp
          subst hp
          exact h.posted p x ((List.dropLast_sublist _).subset hx)
        · exact h.posted p x hx
      · intro p w x ha hx
        obtain ⟨hp, ha⟩ := hawaits p w ha
        rw [hq, if_neg hp] at hx
        exact h.oldest p w x ha hx
      · intro w hw hne
        exact h.oldest r w e (awaits_eq_some.mpr ⟨hlater, hw, hne⟩) he

/-- **One step of a run in order.** -/
theorem Ordered.step (h : Ordered k) (ht : Turn k o) (hv : Served k o) (hc : InOrder k o)
    (hs : step k o = .ok k') : Ordered k' := by
  have hb := h.base.step ht hv hs
  cases o with
  | send id mess => exact h.send hc hs hb
  | recv id mess => exact h.recv ht hc hs hb
  | tick =>
    obtain rfl := step_tick hs
    exact ⟨hb, h.posted, h.oldest, h.selected⟩
  | schedule => exact h.schedule hs hb

/-- **Receives are selective** in a run whose steps are in order. -/
theorem receives_selected (hk : Start k)
    (hr : Run step (fun k o => (Turn k o ∧ Served k o) ∧ InOrder k o) k os k') : Selected k' := by
  have hord : Ordered k' := hr.invariant
    (fun s o s' hi hl hs => hi.step hl.1.1 hl.1.2 hl.2 hs) hk.ordered
  exact hord.selected

end Kernel

open Kernel

/-- 102 waits for 101, which sends. -/
def awaitedFirst : List Op :=
  [.recv 101 hello, .schedule, .tick, .schedule, .send 102 hello, .schedule]

/-- 102 waits for 101; 103 sends before it. -/
def thirdBefore : List Op :=
  [.recv 101 hello, .schedule, .send 102 hello, .schedule, .send 102 hello, .schedule]

theorem receives_selected_awaited : ∃ k',
    Run step (fun k o => (Turn k o ∧ Served k o) ∧ InOrder k o)
      (boot 102 [103, 101]) awaitedFirst k' ∧
    k'.taken = [⟨102, .recv 101, ⟨{ hello with id := 101 }, 0⟩, none⟩] ∧ Selected k' := by
  have hplay : (play step (fun k o => (Turn k o ∧ Served k o) ∧ InOrder k o) (boot 102 [103, 101])
      awaitedFirst).map (·.taken) =
        some [⟨102, .recv 101, ⟨{ hello with id := 101 }, 0⟩, none⟩] := by
    decide +kernel
  obtain ⟨k', hk', ht⟩ := Option.map_eq_some_iff.mp hplay
  exact ⟨k', run_of_play hk', ht, receives_selected (boot_start (by decide)) (run_of_play hk')⟩

theorem selection_fails : Start (boot 102 [103, 101]) ∧
    ∃ k', Run step (fun k o => Turn k o ∧ Served k o) (boot 102 [103, 101]) thirdBefore k' ∧
      ¬ Selected k' := by
  have hplay : (play step (fun k o => Turn k o ∧ Served k o) (boot 102 [103, 101]) thirdBefore).map
      (·.taken) = some [⟨102, .recv 101, ⟨{ hello with id := 103 }, 0⟩, none⟩] := by
    decide +kernel
  obtain ⟨k', hk', ht⟩ := Option.map_eq_some_iff.mp hplay
  refine ⟨boot_start (by decide), k', run_of_play hk', ?_⟩
  intro hsel
  obtain ⟨s, -, hsrc, -, he⟩ := hsel _ (by rw [ht]; exact List.mem_cons_self ..) 101 rfl (by decide)
  have hid : s.entry.msg.id = 103 := by rw [he]
  exact absurd (hsrc.symm.trans hid) (by decide)

end OwnOS.Ipc
