import OwnOS.Ipc.Runs

/-!
# Delivery of messages

Every message sent to a process was taken from its `sendQ` once, or is still there (`Accounted`), in
every run. Whether the message taken reached the buffer of the `recv` depends on the path: `recv`
copies it, but `recv_later` leaves it in a local variable. `messages_delivered` says that the
messages of a run are delivered exactly when `schedule` never resumes a process through
`recv_later`.
-/

namespace OwnOS.Ipc

open OwnOS.Lib

namespace Kernel

variable {k k' : Kernel} {p q id : Pid} {mess : Message} {o : Op} {os : List Op}

/-- The messages sent to `p`, as `send` queued them. -/
def sentTo (k : Kernel) (p : Pid) : List Sent := (k.sent.filter (·.dst = p)).map Sending.entry

/-- The messages that left the `sendQ` of `p`. -/
def takenBy (k : Kernel) (p : Pid) : List Sent := (k.taken.filter (·.proc = p)).map (·.entry)

/-- **Delivery.** Each message that left a `sendQ` was sent to that process and was written, as it
was sent and with the pid of its sender, into the buffer of the `recv` it completed; none was lost,
none was taken twice. -/
structure Delivered (k : Kernel) : Prop where
  written : ∀ t ∈ k.taken, t.buffer = some t.entry.msg
  sender : ∀ t ∈ k.taken, ∃ s ∈ k.sent, s.dst = t.proc ∧ s.entry = t.entry
  kept : ∀ p, (k.sentTo p).Perm (k.takenBy p ++ (k.proc p).sendQ)
  once : (k.taken.map (·.entry.ticket)).Nodup

/-- `schedule` resumes a process that went to sleep in `recv`. -/
def resumesLater (k : Kernel) : Op → Bool
  | .schedule => k.requested &&
    match k.next with
    | some (_, p) => p ≠ k.pCurrent && (k.proc p).retFrom = .recvLater
    | none => false
  | _ => false

/-- What holds of the messages of every run. -/
structure Accounted (k : Kernel) : Prop where
  short : Short k
  fresh : ∀ s ∈ k.sent, s.ticket < k.clock
  tickets : (k.sent.map (·.ticket)).Nodup
  valid : ∀ s ∈ k.sent, s.msg.isValid = true
  kept : ∀ p, (k.sentTo p).Perm (k.takenBy p ++ (k.proc p).sendQ)
  once : (k.taken.map (·.entry.ticket)).Nodup

theorem mem_sentTo {e : Sent} : e ∈ k.sentTo p ↔ ∃ s ∈ k.sent, s.dst = p ∧ s.entry = e := by
  simp [sentTo, and_assoc]

theorem mem_takenBy {t : Taken} (h : t ∈ k.taken) : t.entry ∈ k.takenBy t.proc :=
  List.mem_map.mpr ⟨t, List.mem_filter.mpr ⟨h, by simp⟩, rfl⟩

/-- What was taken was sent. -/
theorem Accounted.sender (h : Accounted k) {t : Taken} (ht : t ∈ k.taken) :
    ∃ s ∈ k.sent, s.dst = t.proc ∧ s.entry = t.entry :=
  mem_sentTo.mp ((h.kept t.proc).mem_iff.mpr (List.mem_append_left _ (mem_takenBy ht)))

/-- What is queued was sent. -/
theorem Accounted.posted (h : Accounted k) {e : Sent} (he : e ∈ (k.proc p).sendQ) :
    ∃ s ∈ k.sent, s.dst = p ∧ s.entry = e :=
  mem_sentTo.mp ((h.kept p).mem_iff.mpr (List.mem_append_right _ he))

theorem Accounted.validQ (h : Accounted k) {e : Sent} (he : e ∈ (k.proc p).sendQ) :
    e.msg.isValid = true := by
  obtain ⟨s, hs, -, rfl⟩ := h.posted he
  exact h.valid s hs

/-- The tickets at one process are different. -/
theorem Accounted.nodup (h : Accounted k) (p : Pid) :
    ((k.takenBy p ++ (k.proc p).sendQ).map (·.ticket)).Nodup := by
  rw [← ((h.kept p).map _).nodup_iff]
  have hsub : ((k.sentTo p).map (·.ticket)).Sublist (k.sent.map (·.ticket)) := by
    unfold sentTo
    rw [List.map_map]
    exact List.filter_sublist.map _
  exact h.tickets.sublist hsub

/-- The ticket of a queued message is not among those taken. -/
theorem Accounted.untaken (h : Accounted k) {e : Sent} (he : e ∈ (k.proc p).sendQ) :
    e.ticket ∉ k.taken.map (·.entry.ticket) := by
  intro hm
  obtain ⟨t, ht, heq⟩ := List.mem_map.mp hm
  obtain ⟨s, hs, hdst, hse⟩ := h.posted he
  obtain ⟨s', hs', hdst', hse'⟩ := h.sender ht
  -- the two are the same `send`, so they are at the same process
  have hss : s = s' := List.inj_on_of_nodup_map h.tickets hs hs' (by
    have h₁ : s.ticket = e.ticket := congrArg Sent.ticket hse
    have h₂ : s'.ticket = t.entry.ticket := congrArg Sent.ticket hse'
    rw [h₁, h₂, heq])
  have hp : t.proc = p := by rw [← hdst', ← hss, hdst]
  have hmem := mem_takenBy ht
  rw [hp] at hmem
  have hnd := h.nodup p
  rw [List.map_append] at hnd
  exact (List.nodup_append.mp hnd).2.2 _ (List.mem_map_of_mem hmem) _ (List.mem_map_of_mem he) heq

/-! ## One step -/

theorem sentTo_congr (h : k'.sent = k.sent) : k'.sentTo p = k.sentTo p := by
  unfold sentTo
  rw [h]

theorem takenBy_congr (h : k'.taken = k.taken) : k'.takenBy p = k.takenBy p := by
  unfold takenBy
  rw [h]

/-- A step that moves no message. -/
theorem Accounted.congr (h : Accounted k) (hs : Short k') (hc : k'.clock = k.clock)
    (hsent : k'.sent = k.sent) (ht : k'.taken = k.taken)
    (hq : ∀ p, (k'.proc p).sendQ = (k.proc p).sendQ) : Accounted k' := by
  refine ⟨hs, ?_, ?_, ?_, ?_, ?_⟩
  · rw [hsent, hc]
    exact h.fresh
  · rw [hsent]
    exact h.tickets
  · rw [hsent]
    exact h.valid
  · intro p
    rw [sentTo_congr hsent, takenBy_congr ht, hq]
    exact h.kept p
  · rw [ht]
    exact h.once

/-- A step that takes the message of `t` out of its queue. -/
theorem Accounted.take (h : Accounted k) {t : Taken} {rest : List Sent} (hs : Short k')
    (hc : k'.clock = k.clock) (hsent : k'.sent = k.sent) (ht : k'.taken = t :: k.taken)
    (hp : (k.proc t.proc).sendQ.Perm (t.entry :: rest))
    (hq : ∀ p, (k'.proc p).sendQ = if p = t.proc then rest else (k.proc p).sendQ) :
    Accounted k' := by
  refine ⟨hs, ?_, ?_, ?_, ?_, ?_⟩
  · rw [hsent, hc]
    exact h.fresh
  · rw [hsent]
    exact h.tickets
  · rw [hsent]
    exact h.valid
  · intro p
    rw [sentTo_congr hsent, hq]
    have hold := h.kept p
    by_cases hpt : p = t.proc
    · subst hpt
      rw [if_pos rfl]
      have htaken : k'.takenBy t.proc = t.entry :: k.takenBy t.proc := by
        unfold takenBy
        rw [ht, List.filter_cons_of_pos (by simp), List.map_cons]
      rw [htaken]
      exact hold.trans ((hp.append_left _).trans List.perm_middle)
    · rw [if_neg hpt]
      have htaken : k'.takenBy p = k.takenBy p := by
        unfold takenBy
        rw [ht, List.filter_cons_of_neg (by simpa using fun he => hpt he.symm)]
      rw [htaken]
      exact hold
  · rw [ht, List.map_cons]
    exact List.nodup_cons.mpr ⟨h.untaken (hp.mem_iff.mpr (List.mem_cons_self ..)), h.once⟩

theorem Accounted.send (h : Accounted k) (hs : Short k') (hv : mess.isValid = true)
    (hS : Sends k k' id mess) : Accounted k' := by
  have hfresh : k.clock ∉ k.sent.map (·.ticket) := by
    intro hm
    obtain ⟨s, hs, he⟩ := List.mem_map.mp hm
    have := h.fresh s hs
    omega
  refine ⟨hs, ?_, ?_, ?_, ?_, ?_⟩
  · intro s hm
    rw [hS.clock]
    rw [hS.sent] at hm
    rcases List.mem_cons.mp hm with rfl | hm
    · exact Nat.lt_succ_self _
    · exact Nat.lt_succ_of_lt (h.fresh s hm)
  · rw [hS.sent, List.map_cons]
    exact List.nodup_cons.mpr ⟨hfresh, h.tickets⟩
  · intro s hm
    rw [hS.sent] at hm
    rcases List.mem_cons.mp hm with rfl | hm
    · exact hv
    · exact h.valid s hm
  · intro p
    rw [takenBy_congr hS.taken, hS.sendQ]
    have hold := h.kept p
    by_cases hp : p = id
    · subst hp
      rw [if_pos rfl]
      have hsent : k'.sentTo p = ⟨{ mess with id := k.pCurrent }, k.clock⟩ :: k.sentTo p := by
        unfold sentTo
        rw [hS.sent, List.filter_cons_of_pos (by simp), List.map_cons]
        rfl
      rw [hsent]
      exact (hold.cons _).trans List.perm_middle.symm
    · rw [if_neg hp]
      have hsent : k'.sentTo p = k.sentTo p := by
        unfold sentTo
        rw [hS.sent, List.filter_cons_of_neg (by simpa using fun he => hp he.symm)]
      rw [hsent]
      exact hold
  · rw [hS.taken]
    exact h.once

/-- **One step keeps the account.** -/
theorem Accounted.step (h : Accounted k) (hv : ValidOp o) (hs : step k o = .ok k') :
    Accounted k' := by
  have hshort := h.short.step hs
  cases o with
  | send id mess =>
    have hvalid : (k.stamp mess).isValid = true := hv
    exact h.send hshort hvalid (step_send h.short hs).1
  | recv id mess =>
    obtain ⟨hR, -⟩ := step_recv h.short hs
    rcases hR.branch with ⟨e, he⟩ | hw
    · exact h.take hshort hR.clock hR.sent he.taken (pick_perm he.found) hR.sendQ
    · have hnone : (pick id (k.proc k.pCurrent).sendQ).1 = none := by
        by_contra hne
        obtain ⟨e, he⟩ := Option.ne_none_iff_exists'.mp hne
        have hmem := (pick_perm he).mem_iff.mpr (List.mem_cons_self ..)
        exact absurd (h.validQ hmem) (by simp [hw.missing e he])
      refine h.congr hshort hR.clock hR.sent hw.taken ?_
      intro p
      rw [hR.sendQ, pick_none hnone]
      split
      · rename_i hp
        rw [hp]
      · rfl
  | tick =>
    obtain rfl := step_tick hs
    exact h.congr hshort rfl rfl rfl fun _ => rfl
  | schedule =>
    have hS := step_schedule hs
    rcases hS.branch with hst | ⟨-, i, p, -, hr⟩
    · exact h.congr hshort hS.clock hS.sent hst.taken hst.sendQ
    · rcases hr.takes with ⟨-, ht, hq⟩ | ⟨-, e, he, -, ht, hq⟩
      · exact h.congr hshort hS.clock hS.sent ht hq
      · exact h.take hshort hS.clock hS.sent ht (perm_deque he) hq

theorem Start.accounted (h : Start k) : Accounted k := by
  refine ⟨h.short, ?_, ?_, ?_, ?_, ?_⟩
  · simp [h.sent]
  · simp [h.sent]
  · simp [h.sent]
  · intro p
    simp [sentTo, takenBy, h.sent, h.taken, (h.empty p).1]
  · simp [h.taken]

/-! ## Buffers -/

theorem resumesLater_iff : k.resumesLater .schedule = true ↔ k.requested = true ∧
    ∃ i p, k.next = some (i, p) ∧ p ≠ k.pCurrent ∧ (k.proc p).retFrom = .recvLater := by
  unfold resumesLater
  rw [Bool.and_eq_true]
  refine and_congr_right fun _ => ?_
  cases hn : k.next with
  | none => simp
  | some x => simp [Prod.ext_iff]

/-- A step adds to what was taken; the buffer was written unless it came through `recv_later`. -/
theorem taken_step (h : Short k) (hs : step k o = .ok k') : k'.taken = k.taken ∨
    ∃ t, k'.taken = t :: k.taken ∧
      t.buffer = if k.resumesLater o = true then none else some t.entry.msg := by
  cases o with
  | send id mess => exact Or.inl (step_send h hs).1.taken
  | recv id mess =>
    rcases (step_recv h hs).1.branch with ⟨e, he⟩ | hw
    · exact Or.inr ⟨_, he.taken, rfl⟩
    · exact Or.inl hw.taken
  | tick =>
    obtain rfl := step_tick hs
    exact Or.inl rfl
  | schedule =>
    rcases (step_schedule hs).branch with hst | ⟨hreq, i, p, hn, hr⟩
    · exact Or.inl hst.taken
    · rcases hr.takes with ⟨-, ht, -⟩ | ⟨hret, e, -, -, ht, -⟩
      · exact Or.inl ht
      · exact Or.inr ⟨_, ht, (if_pos (resumesLater_iff.mpr ⟨hreq, i, p, hn, hr.other, hret⟩)).symm⟩

/-- `recv_later` takes a message, or the kernel panics. -/
theorem taken_resumesLater (hl : k.resumesLater o = true) (hs : step k o = .ok k') :
    k'.taken ≠ k.taken := by
  cases o with
  | send id mess => exact absurd hl (by simp [resumesLater])
  | recv id mess => exact absurd hl (by simp [resumesLater])
  | tick => exact absurd hl (by simp [resumesLater])
  | schedule =>
    obtain ⟨hreq, i, p, hn, hp, hret⟩ := resumesLater_iff.mp hl
    rcases (step_schedule hs).branch with hst | ⟨-, j, q, hn', hr⟩
    · rcases hst.why with hno | hno | ⟨j, hn'⟩
      · exact absurd (hno.symm.trans hreq) (by simp)
      · exact absurd (hno.symm.trans hn) (by simp)
      · exact absurd (Prod.mk.inj (Option.some.inj (hn.symm.trans hn'))).2 hp
    · obtain ⟨rfl, rfl⟩ := Prod.mk.inj (Option.some.inj (hn.symm.trans hn'))
      rcases hr.takes with ⟨hne, -⟩ | ⟨-, e, -, -, ht, -⟩
      · exact absurd hret hne
      · rw [ht]
        exact List.cons_ne_self _ _

/-! ## Runs -/

/-- The operations considered: any call with valid messages, in any order, with `schedule` after
each trap. -/
def Legal (k : Kernel) (o : Op) : Prop := Turn k o ∧ ValidOp o

instance : Decidable (Legal k o) := inferInstanceAs (Decidable (_ ∧ _))

theorem taken_run (hr : Run step Legal k os k') (hs : Short k) : k.taken ⊆ k'.taken := by
  induction hr with
  | nil s => exact List.Subset.refl _
  | cons hl hstep _ ih =>
    refine List.Subset.trans ?_ (ih (hs.step hstep))
    rcases taken_step hs hstep with h | ⟨t, h, -⟩
    · rw [h]
      exact List.Subset.refl _
    · rw [h]
      exact List.subset_cons_self _ _

/-- When every buffer of the run was written, no step of it ran `recv_later`. -/
theorem run_without_later (hr : Run step Legal k os k') (hs : Short k)
    (hw : ∀ t ∈ k'.taken, t.buffer = some t.entry.msg) :
    Run step (fun k o => Legal k o ∧ k.resumesLater o = false) k os k' := by
  induction hr with
  | nil s => exact Run.nil s
  | @cons s s₁ s' o os hl hstep hrest ih =>
    refine Run.cons ⟨hl, ?_⟩ hstep (ih (hs.step hstep) hw)
    by_contra hne
    have hl : s.resumesLater o = true := by simpa using hne
    rcases taken_step hs hstep with h | ⟨t, h, hb⟩
    · exact taken_resumesLater hl hstep h
    · rw [if_pos hl] at hb
      have hmem : t ∈ s₁.taken := by
        rw [h]
        exact List.mem_cons_self ..
      have := hw t (taken_run hrest (hs.step hstep) hmem)
      rw [hb] at this
      exact absurd this (by simp)

/-- **Messages are delivered exactly when `recv_later` never runs.** -/
theorem messages_delivered (hk : Start k) (hr : Run step Legal k os k') :
    Delivered k' ↔ Run step (fun k o => Legal k o ∧ k.resumesLater o = false) k os k' := by
  constructor
  · intro hd
    exact run_without_later hr hk.short hd.written
  · intro hr'
    have hacc : Accounted k' := hr.invariant (fun s o s' hi hl hs => hi.step hl.2 hs) hk.accounted
    have hwritten : Short k' ∧ ∀ t ∈ k'.taken, t.buffer = some t.entry.msg := by
      refine Run.invariant (I := fun k => Short k ∧ ∀ t ∈ k.taken, t.buffer = some t.entry.msg)
        (fun s o s' hi hl hs => ?_) hr' ⟨hk.short, by simp [hk.taken]⟩
      refine ⟨hi.1.step hs, ?_⟩
      rcases taken_step hi.1 hs with h | ⟨t, h, hb⟩
      · rw [h]
        exact hi.2
      · rw [h]
        rw [hl.2, if_neg (by simp)] at hb
        intro t' ht
        rcases List.mem_cons.mp ht with rfl | ht
        · exact hb
        · exact hi.2 t' ht
    exact ⟨hwritten.2, fun t ht => hacc.sender ht, hacc.kept, hacc.once⟩

end Kernel

open Kernel

/-- 101 sends to 102 and goes on when 102 receives. -/
def rendezvous : List Op :=
  [.send 102 hello, .schedule, .recv 101 hello, .schedule]

/-- 102 receives from 101 first, and is woken by the `send`. -/
def receiverFirst : List Op :=
  [.tick, .schedule, .recv 101 hello, .schedule, .send 102 hello, .schedule]

theorem messages_delivered_rendezvous :
    (play step Legal (boot 101 [102]) rendezvous).map (·.taken) =
        some [⟨102, .recv 101, ⟨{ hello with id := 101 }, 0⟩, some { hello with id := 101 }⟩] ∧
      ∃ k', Run step Legal (boot 101 [102]) rendezvous k' ∧ Delivered k' := by
  have hplay : (play step (fun k o => Legal k o ∧ k.resumesLater o = false) (boot 101 [102])
      rendezvous).isSome = true := by
    decide +kernel
  obtain ⟨k', hk'⟩ := Option.isSome_iff_exists.mp hplay
  have hr := run_of_play hk'
  have hr' : Run step Legal (boot 101 [102]) rendezvous k' := hr.mono fun _ _ h => h.1
  exact ⟨by decide +kernel, k', hr', (messages_delivered (boot_start (by decide)) hr').mpr hr⟩

theorem delivery_fails : Start (boot 101 [102]) ∧
    ∃ k', Run step Legal (boot 101 [102]) receiverFirst k' ∧ ¬ Delivered k' := by
  have hplay : (play step Legal (boot 101 [102]) receiverFirst).map (·.taken) =
      some [⟨102, .recv 101, ⟨{ hello with id := 101 }, 0⟩, none⟩] := by
    decide +kernel
  obtain ⟨k', hk', ht⟩ := Option.map_eq_some_iff.mp hplay
  refine ⟨boot_start (by decide), k', run_of_play hk', ?_⟩
  intro hd
  have := hd.written _ (by rw [ht]; exact List.mem_cons_self ..)
  exact absurd this (by simp)

end OwnOS.Ipc
