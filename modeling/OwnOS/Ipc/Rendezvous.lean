import OwnOS.Ipc.Runs

/-!
# Blocked senders

A `send` that finds no receiver goes to sleep until its message is received. `recv(id)` wakes the
process it was called with, not the sender of the message; `recv(PID_ANY)` looks for a process
`PID_ANY`, and `recv_later` wakes nobody. `senders_released`: where a `recv` that finds a message
finds one that its argument sleeps on (or one of a process that runs), and `recv_later` takes no
message that its sender sleeps on, a blocked sender sleeps exactly as long as its message is queued.
-/

namespace OwnOS.Ipc

open OwnOS.Lib

namespace Kernel

variable {k k' : Kernel} {p q id dst : Pid} {t : Nat} {mess : Message} {o : Op} {os : List Op}

/-- `q` went to sleep in a `send` to `dst`, and its message is still there. -/
def AsleepOn (k : Kernel) (q dst : Pid) (t : Nat) : Prop :=
  (k.proc q).wait = .send dst t ∧ ∃ e ∈ (k.proc dst).sendQ, e.ticket = t

/-- **Blocked senders are off the run queues.** -/
def Parked (k : Kernel) : Prop := ∀ q dst t, AsleepOn k q dst t → ∀ i, q ∉ k.pHead i

/-- **The step that removes the message of a blocked sender makes that process runnable, and no
other.** -/
def Releases (k k' : Kernel) : Prop :=
  ∀ q dst t, AsleepOn k q dst t → (∀ e ∈ (k'.proc dst).sendQ, e.ticket ≠ t) →
    ∀ p, ((∃ i, p ∈ k'.pHead i) ∧ ¬ ∃ i, p ∈ k.pHead i) ↔ p = q

/-- A `recv(id)` that finds a message finds a valid one, of a process `id` that sleeps on it or
runs; `recv_later` takes no message that its sender sleeps on. -/
def wakesSender (k : Kernel) : Op → Bool
  | .recv id _ => (pick id (k.proc k.pCurrent).sendQ).1.all fun e =>
    id ≠ pidAny && e.msg.isValid &&
      ((k.proc id).status = .running || (k.proc id).wait = .send k.pCurrent e.ticket)
  | .schedule => k.next.all fun (_, p) =>
    !k.requested || p = k.pCurrent || (k.proc p).retFrom ≠ .recvLater ||
      (k.proc p).sendQ.getLast?.all fun e => (k.proc e.msg.id).wait ≠ .send p e.ticket
  | _ => true

/-- What holds of the processes that sleep. -/
structure Sleepers (k : Kernel) : Prop where
  base : Base k
  tickets : ∀ p, ((k.proc p).sendQ.map (·.ticket)).Nodup
  fresh : ∀ p, ∀ e ∈ (k.proc p).sendQ, e.ticket < k.clock
  senders : ∀ p, ∀ e ∈ (k.proc p).sendQ, k.live e.msg.id = true
  /-- A sender sleeps while its message is queued. -/
  asleep : ∀ q dst t, (k.proc q).wait = .send dst t → t < k.clock ∧
    ∀ e ∈ (k.proc dst).sendQ, e.ticket = t → e.msg.id = q ∧ (k.proc q).status = .stopped
  /-- A waiting-receiver entry is of a process that sleeps in that `recv`. -/
  receivers : ∀ p, ∀ m ∈ (k.proc p).recvQ, p ≠ pidAny ∧ (k.proc m.id).status = .stopped ∧
    (k.proc m.id).wait = .recv p
  receiver : ∀ p, ((k.proc p).recvQ.map (·.id)).Nodup
  anyReceivers : ∀ p, (k.proc p).recvAnyQ ≠ [] → (k.proc p).recvAnyQ.length = 1 ∧
    (k.proc p).status = .stopped ∧ (k.proc p).wait = .recv pidAny

theorem Start.sleepers (h : Start k) : Sleepers k := by
  have hs := fun p => (h.empty p).1
  have hr := fun p => (h.empty p).2.1
  have ha := fun p => (h.empty p).2.2
  refine ⟨h.base, ?_, ?_, ?_, ?_, ?_, ?_, ?_⟩
  · simp [hs]
  · simp [hs]
  · simp [hs]
  · intro q dst t hw
    rw [(h.awake q).2] at hw
    exact absurd hw (by simp)
  · simp [hr]
  · simp [hr]
  · simp [ha]

/-- The current process is not waiting in `recv`. -/
theorem Sleepers.not_receiver (h : Sleepers k) (hr : (k.proc q).status = .running) :
    ∀ p, ∀ m ∈ (k.proc p).recvQ, m.id ≠ q := by
  rintro p m hm rfl
  have := (h.receivers p m hm).2.1
  rw [hr] at this
  exact absurd this (by simp)

theorem Sleepers.not_anyReceiver (h : Sleepers k) (hr : (k.proc q).status = .running) :
    (k.proc q).recvAnyQ = [] := by
  by_contra hne
  have := (h.anyReceivers q hne).2.1
  rw [hr] at this
  exact absurd this (by simp)

/-- A process that sleeps in a `send` has no entry as a receiver. -/
theorem Sleepers.sender_not_receiver (h : Sleepers k) (hw : (k.proc q).wait = .send dst t) :
    (∀ p, ∀ m ∈ (k.proc p).recvQ, m.id ≠ q) ∧ (k.proc q).recvAnyQ = [] := by
  constructor
  · rintro p m hm rfl
    have := (h.receivers p m hm).2.2
    rw [hw] at this
    exact absurd this (by simp)
  · by_contra hne
    have := (h.anyReceivers q hne).2.2
    rw [hw] at this
    exact absurd this (by simp)

/-! ## One step -/

/-- `wakeup` leaves the other sleepers asleep. -/
theorem Wakes.stopped (h : Wakes k k' p) (hq : (k.proc q).status = .stopped) (hne : q ≠ p) :
    (k'.proc q).status = .stopped := by
  rcases h with ⟨-, hs, -⟩ | ⟨-, hs, -⟩
  · rw [hs]
    exact hq
  · rw [hs, if_neg hne]
    exact hq

theorem Sleeps.stopped (h : Sleeps k k' p) (hq : (k.proc q).status = .stopped) :
    (k'.proc q).status = .stopped := by
  rw [h.1]
  split
  · rfl
  · exact hq

/-- The messages after a step that adds none. -/
structure Shrinks (k k' : Kernel) : Prop where
  live : k'.live = k.live
  clock : k'.clock = k.clock
  sendQ : ∀ p, (k'.proc p).sendQ.Sublist (k.proc p).sendQ

theorem Recvs.shrinks (h : Recvs k k' id mess) : Shrinks k k' := by
  refine ⟨h.live, h.clock, ?_⟩
  intro p
  rw [h.sendQ]
  split
  · rename_i hp
    rw [hp]
    exact pick_sublist _ _
  · exact List.Sublist.refl _

theorem Schedules.shrinks (h : Schedules k k') : Shrinks k k' := by
  refine ⟨h.live, h.clock, ?_⟩
  intro p
  rcases h.branch with hst | ⟨-, i, r, -, hr⟩
  · rw [hst.sendQ]
  · rcases hr.takes with ⟨-, -, hq⟩ | ⟨-, e, -, -, -, hq⟩
    · rw [hq]
    · rw [hq]
      split
      · rename_i hp
        rw [hp]
        exact List.dropLast_sublist _
      · exact List.Sublist.refl _

/-- A step that adds no message keeps the invariant if it keeps what the sleepers are. -/
theorem Sleepers.shrink (h : Sleepers k) (hb : Base k') (hs : Shrinks k k')
    (hasleep : ∀ q dst t, (k'.proc q).wait = .send dst t → (k.proc q).wait = .send dst t ∧
      ∀ e ∈ (k'.proc dst).sendQ, e.ticket = t → (k.proc q).status = .stopped →
        (k'.proc q).status = .stopped)
    (hreceivers : ∀ p, ∀ m ∈ (k'.proc p).recvQ, p ≠ pidAny ∧ (k'.proc m.id).status = .stopped ∧
      (k'.proc m.id).wait = .recv p)
    (hreceiver : ∀ p, ((k'.proc p).recvQ.map (·.id)).Nodup)
    (hany : ∀ p, (k'.proc p).recvAnyQ ≠ [] → (k'.proc p).recvAnyQ.length = 1 ∧
      (k'.proc p).status = .stopped ∧ (k'.proc p).wait = .recv pidAny) : Sleepers k' := by
  refine ⟨hb, ?_, ?_, ?_, ?_, hreceivers, hreceiver, hany⟩
  · intro p
    exact (h.tickets p).sublist ((hs.sendQ p).map _)
  · intro p e he
    rw [hs.clock]
    exact h.fresh p e ((hs.sendQ p).subset he)
  · intro p e he
    rw [hs.live]
    exact h.senders p e ((hs.sendQ p).subset he)
  · intro q dst t hw
    obtain ⟨hw, hstop⟩ := hasleep q dst t hw
    obtain ⟨hlt, hold⟩ := h.asleep q dst t hw
    rw [hs.clock]
    refine ⟨hlt, ?_⟩
    intro e he ht
    obtain ⟨hid, hst⟩ := hold e ((hs.sendQ dst).subset he) ht
    exact ⟨hid, hstop e he ht hst⟩

/-- What the condition says about the message that a `recv` finds. -/
theorem wakesSender_recv (hc : k.wakesSender (.recv id mess) = true) {e : Sent}
    (he : (pick id (k.proc k.pCurrent).sendQ).1 = some e) : id ≠ pidAny ∧ e.msg.isValid = true ∧
      ((k.proc id).status = .running ∨ (k.proc id).wait = .send k.pCurrent e.ticket) := by
  simp only [wakesSender, he] at hc
  simpa [and_assoc] using hc

/-- The ticket of what a `recv` found is not in the queue it left. -/
theorem Sleepers.ticket_gone (h : Sleepers k) {e x : Sent}
    (he : (pick id (k.proc p).sendQ).1 = some e) (hx : x ∈ (pick id (k.proc p).sendQ).2) :
    x.ticket ≠ e.ticket := by
  have hnd := ((pick_perm he).map (·.ticket)).nodup_iff.mp (h.tickets p)
  rw [List.map_cons, List.nodup_cons] at hnd
  intro heq
  exact hnd.1 (heq ▸ List.mem_map_of_mem hx)

theorem Sleepers.takes (h : Sleepers k) {e : Sent} (hb : Base k') (hR : Recvs k k' id mess)
    (he : Takes k k' id e) (hc : k.wakesSender (.recv id mess) = true) : Sleepers k' := by
  obtain ⟨-, -, hid⟩ := wakesSender_recv hc he.found
  -- the process that is woken is no receiver
  have hno : (∀ p, ∀ m ∈ (k.proc p).recvQ, m.id ≠ id) ∧ (k.proc id).recvAnyQ = [] := by
    rcases hid with hrun | hw
    · exact ⟨h.not_receiver hrun, h.not_anyReceiver hrun⟩
    · exact h.sender_not_receiver hw
  refine h.shrink hb hR.shrinks ?_ ?_ ?_ ?_
  · intro q dst t hw
    rw [he.wait] at hw
    refine ⟨hw, ?_⟩
    intro x hx ht hst
    refine he.wakes.stopped hst ?_
    rintro rfl
    rcases hid with hrun | hsend
    · rw [hrun] at hst
      exact absurd hst (by simp)
    · obtain ⟨rfl, rfl⟩ := Wait.send.inj (hw.symm.trans hsend)
      rw [hR.sendQ, if_pos rfl] at hx
      exact h.ticket_gone he.found hx ht
  · intro p m hm
    rw [he.recvQ] at hm
    obtain ⟨hp, hst, hw⟩ := h.receivers p m hm
    rw [he.wait]
    exact ⟨hp, he.wakes.stopped hst (hno.1 p m hm), hw⟩
  · intro p
    rw [he.recvQ]
    exact h.receiver p
  · intro p hne
    rw [he.recvAnyQ] at hne ⊢
    obtain ⟨hlen, hst, hw⟩ := h.anyReceivers p hne
    have hp : p ≠ id := by
      rintro rfl
      exact hne hno.2
    rw [he.wait]
    exact ⟨hlen, he.wakes.stopped hst hp, hw⟩

theorem Sleepers.waits (h : Sleepers k) (hb : Base k') (hR : Recvs k k' id (k.stamp mess))
    (hw : Waits k k' id (k.stamp mess)) (hr : (k.proc k.pCurrent).status = .running) :
    Sleepers k' := by
  have hsl := hw.sleeps hr (h.base.queued hr)
  have hcur : (k'.proc k.pCurrent).status = .stopped := by rw [hsl.1, if_pos rfl]
  have hold : ∀ p m, m ∈ (k.proc p).recvQ → p ≠ pidAny ∧ (k'.proc m.id).status = .stopped ∧
      (k'.proc m.id).wait = .recv p := by
    intro p m hm
    obtain ⟨hp, hst, hwt⟩ := h.receivers p m hm
    refine ⟨hp, hsl.stopped hst, ?_⟩
    rw [hw.wait, if_neg (h.not_receiver hr p m hm)]
    exact hwt
  have hany : ∀ p, p ≠ k.pCurrent → (k.proc p).recvAnyQ ≠ [] → (k.proc p).recvAnyQ.length = 1 ∧
      (k'.proc p).status = .stopped ∧ (k'.proc p).wait = .recv pidAny := by
    intro p hp hne
    obtain ⟨hlen, hst, hwt⟩ := h.anyReceivers p hne
    refine ⟨hlen, hsl.stopped hst, ?_⟩
    rw [hw.wait, if_neg hp]
    exact hwt
  have hempty := h.not_anyReceiver hr
  refine h.shrink hb hR.shrinks ?_ ?_ ?_ ?_
  · intro q dst t hq
    rw [hw.wait] at hq
    split at hq
    · exact absurd hq (by simp)
    · exact ⟨hq, fun _ _ _ hst => hsl.stopped hst⟩
  · intro p m hm
    rcases hw.queue with ⟨-, -, hrq, -⟩ | ⟨hid, -, -, -, hrq⟩
    · rw [hrq] at hm
      exact hold p m hm
    · rw [hrq] at hm
      split at hm
      · rename_i hp
        subst hp
        rcases List.mem_cons.mp hm with rfl | hm
        · refine ⟨hid, hcur, ?_⟩
          rw [hw.wait]
          exact if_pos rfl
        · exact hold p m hm
      · exact hold p m hm
  · intro p
    rcases hw.queue with ⟨-, -, hrq, -⟩ | ⟨-, -, -, -, hrq⟩
    · rw [hrq]
      exact h.receiver p
    · rw [hrq]
      split
      · rename_i hp
        subst hp
        rw [List.map_cons]
        refine List.nodup_cons.mpr ⟨?_, h.receiver p⟩
        intro hm
        obtain ⟨m, hm, heq⟩ := List.mem_map.mp hm
        exact h.not_receiver hr p m hm heq
      · exact h.receiver p
  · intro p hne
    rcases hw.queue with ⟨hid, -, -, haq⟩ | ⟨-, -, -, haq, -⟩
    · rw [haq] at hne ⊢
      by_cases hp : p = k.pCurrent
      · subst hp
        rw [if_pos rfl, hempty, hw.wait, if_pos rfl, hid]
        exact ⟨rfl, hcur, rfl⟩
      · rw [if_neg hp] at hne ⊢
        exact hany p hp hne
    · rw [haq] at hne ⊢
      refine hany p ?_ hne
      rintro rfl
      exact hne hempty

/-- The entry that a `send` with a waiting receiver takes. -/
theorem Awaited.entry (ha : Awaited k id) :
    ∃ x, (k.proc k.pCurrent).recvQ.find? (·.id = id) = some x ∧ x.id = id := by
  unfold Awaited at ha
  cases hf : (k.proc k.pCurrent).recvQ.find? (·.id = id) with
  | none =>
    rw [hf] at ha
    exact absurd ha (by simp [Ipc.valid])
  | some x => exact ⟨x, rfl, by simpa using List.find?_some hf⟩

/-- The process that a matching `recvQ` entry names waits for the sender. -/
theorem Sleepers.awaited (h : Sleepers k) (ha : Awaited k id) :
    k.pCurrent ≠ pidAny ∧ (k.proc id).wait = .recv k.pCurrent := by
  obtain ⟨x, hf, rfl⟩ := ha.entry
  obtain ⟨hp, -, hw⟩ := h.receivers _ x (List.mem_of_find?_eq_some hf)
  exact ⟨hp, hw⟩

/-- The entry of the receiver that a `send` wakes is the only one it had. -/
theorem Sleepers.unawaited (h : Sleepers k) (ha : Awaited k id) (hS : Posts k k' id mess) :
    ∀ p, ∀ m ∈ (k'.proc p).recvQ, m.id ≠ id := by
  obtain ⟨x, hf, hx⟩ := ha.entry
  obtain ⟨-, hwait⟩ := h.awaited ha
  rintro p m hm rfl
  rw [hS.recvQ] at hm
  split at hm
  · -- at the sender: its entries have different pids
    have hnd := ((perm_dequeOf hf).map (·.id)).nodup_iff.mp (h.receiver k.pCurrent)
    rw [List.map_cons, List.nodup_cons, hx] at hnd
    exact hnd.1 (List.mem_map_of_mem hm)
  · -- elsewhere: it waits for the sender only
    rename_i hp
    have hw := (h.receivers p m hm).2.2
    exact hp (Wait.recv.inj (hw.symm.trans hwait))

/-- The messages after a `send`. -/
theorem Sleepers.posts (h : Sleepers k) (hS : Posts k k' id mess) :
    (∀ p, ((k'.proc p).sendQ.map (·.ticket)).Nodup) ∧
      (∀ p, ∀ e ∈ (k'.proc p).sendQ, e.ticket < k'.clock) ∧
      ∀ p, ∀ e ∈ (k'.proc p).sendQ, k'.live e.msg.id = true := by
  refine ⟨?_, ?_, ?_⟩
  · intro p
    rw [hS.sendQ]
    split
    · rw [List.map_cons]
      refine List.nodup_cons.mpr ⟨?_, h.tickets id⟩
      intro hm
      obtain ⟨e, he, heq⟩ := List.mem_map.mp hm
      have := h.fresh id e he
      rw [heq] at this
      exact Nat.lt_irrefl _ this
    · exact h.tickets p
  · intro p e he
    rw [hS.clock]
    rw [hS.sendQ] at he
    split at he
    · rcases List.mem_cons.mp he with rfl | he
      · exact Nat.lt_succ_self _
      · exact Nat.lt_succ_of_lt (h.fresh id e he)
    · exact Nat.lt_succ_of_lt (h.fresh p e he)
  · intro p e he
    rw [hS.live]
    rw [hS.sendQ] at he
    split at he
    · rcases List.mem_cons.mp he with rfl | he
      · exact h.base.live
      · exact h.senders id e he
    · exact h.senders p e he

/-- A sleeping sender's message after a `send` is not the new one. -/
theorem Sleepers.asleep_posts (h : Sleepers k) (hS : Posts k k' id mess)
    (hw : (k.proc q).wait = .send dst t) : t < k'.clock ∧ ∀ e ∈ (k'.proc dst).sendQ, e.ticket = t →
      e.msg.id = q ∧ (k.proc q).status = .stopped := by
  obtain ⟨hlt, hold⟩ := h.asleep q dst t hw
  rw [hS.clock]
  refine ⟨Nat.lt_succ_of_lt hlt, ?_⟩
  intro e he ht
  rw [hS.sendQ] at he
  split at he
  · rename_i hd
    subst hd
    rcases List.mem_cons.mp he with rfl | he
    · exact absurd ht (Nat.ne_of_gt hlt)
    · exact hold e he ht
  · exact hold e he ht

/-- The receivers' entries that a `send` leaves were there before. -/
theorem Posts.recvQ_sublist (hS : Posts k k' id mess) (p : Pid) :
    (k'.proc p).recvQ.Sublist (k.proc p).recvQ := by
  rw [hS.recvQ]
  split
  · rename_i hp
    rw [hp]
    exact List.eraseP_sublist
  · exact List.Sublist.refl _

/-- A `send` that woke a receiver. -/
theorem Sleepers.send_wakes (h : Sleepers k) (hb : Base k') (hS : Posts k k' id mess)
    (hw : ∀ p, (k'.proc p).wait = (k.proc p).wait) (hwake : Wakes k k' id)
    (hrecv : ∃ p, (k.proc id).wait = .recv p) (hout : ∀ p, ∀ m ∈ (k'.proc p).recvQ, m.id ≠ id)
    (hany : ∀ p, (k'.proc p).recvAnyQ ≠ [] → p ≠ id ∧ (k'.proc p).recvAnyQ = (k.proc p).recvAnyQ) :
    Sleepers k' := by
  obtain ⟨htickets, hfresh, hsenders⟩ := h.posts hS
  refine ⟨hb, htickets, hfresh, hsenders, ?_, ?_, ?_, ?_⟩
  · intro q dst t hq
    rw [hw] at hq
    obtain ⟨hlt, hold⟩ := h.asleep_posts hS hq
    refine ⟨hlt, fun e he ht => ?_⟩
    obtain ⟨hid, hst⟩ := hold e he ht
    refine ⟨hid, hwake.stopped hst ?_⟩
    rintro rfl
    obtain ⟨p, hp⟩ := hrecv
    exact absurd (hq.symm.trans hp) (by simp)
  · intro p m hm
    obtain ⟨hp, hst, hwt⟩ := h.receivers p m ((hS.recvQ_sublist p).subset hm)
    rw [hw]
    exact ⟨hp, hwake.stopped hst (hout p m hm), hwt⟩
  · intro p
    exact (h.receiver p).sublist ((hS.recvQ_sublist p).map _)
  · intro p hne
    obtain ⟨hp, heq⟩ := hany p hne
    rw [heq] at hne ⊢
    obtain ⟨hlen, hst, hwt⟩ := h.anyReceivers p hne
    rw [hw]
    exact ⟨hlen, hwake.stopped hst hp, hwt⟩

/-- `deque` empties a `recv_anyQ`. -/
theorem Sleepers.dropAny (h : Sleepers k) (id : Pid) : (k.proc id).recvAnyQ.dropLast = [] := by
  by_cases hne : (k.proc id).recvAnyQ = []
  · rw [hne]
    rfl
  · apply List.eq_nil_of_length_eq_zero
    rw [List.length_dropLast, (h.anyReceivers id hne).1]

/-- A `send` that found no receiver: its caller sleeps on the new message. -/
theorem Sleepers.send_sleeps (h : Sleepers k) (hb : Base k') (hS : Posts k k' id mess)
    (hr : (k.proc k.pCurrent).status = .running) (hsl : Sleeps k k' k.pCurrent)
    (hw : ∀ p, (k'.proc p).wait = if p = k.pCurrent then .send id k.clock else (k.proc p).wait)
    (hany : ∀ p, (k'.proc p).recvAnyQ =
      if p = id then (k.proc id).recvAnyQ.dropLast else (k.proc p).recvAnyQ) : Sleepers k' := by
  obtain ⟨htickets, hfresh, hsenders⟩ := h.posts hS
  refine ⟨hb, htickets, hfresh, hsenders, ?_, ?_, ?_, ?_⟩
  · intro q dst t hq
    rw [hw] at hq
    by_cases hqc : q = k.pCurrent
    · rw [if_pos hqc] at hq
      obtain ⟨rfl, rfl⟩ := Wait.send.inj hq
      refine ⟨by rw [hS.clock]; exact Nat.lt_succ_self _, ?_⟩
      intro e he ht
      rw [hS.sendQ, if_pos rfl] at he
      rcases List.mem_cons.mp he with rfl | he
      · refine ⟨hqc.symm, ?_⟩
        rw [hsl.1, if_pos hqc]
      · exact absurd ht (Nat.ne_of_lt (h.fresh _ e he))
    · rw [if_neg hqc] at hq
      obtain ⟨hlt, hold⟩ := h.asleep_posts hS hq
      refine ⟨hlt, fun e he ht => ?_⟩
      obtain ⟨hid, hst⟩ := hold e he ht
      exact ⟨hid, hsl.stopped hst⟩
  · intro p m hm
    have hm := (hS.recvQ_sublist p).subset hm
    obtain ⟨hp, hst, hwt⟩ := h.receivers p m hm
    rw [hw, if_neg (h.not_receiver hr p m hm)]
    exact ⟨hp, hsl.stopped hst, hwt⟩
  · intro p
    exact (h.receiver p).sublist ((hS.recvQ_sublist p).map _)
  · intro p hne
    rw [hany] at hne ⊢
    by_cases hp : p = id
    · rw [if_pos hp, h.dropAny] at hne
      exact absurd rfl hne
    · rw [if_neg hp] at hne ⊢
      obtain ⟨hlen, hst, hwt⟩ := h.anyReceivers p hne
      have hpc : p ≠ k.pCurrent := by
        rintro rfl
        exact hne (h.not_anyReceiver hr)
      rw [hw, if_neg hpc]
      exact ⟨hlen, hsl.stopped hst, hwt⟩

theorem Sleepers.awaitsAny (h : Sleepers k) (ha : AwaitsAny k id) :
    (k.proc id).wait = .recv pidAny := by
  unfold AwaitsAny at ha
  refine (h.anyReceivers id ?_).2.2
  intro hnil
  rw [hnil] at ha
  exact absurd ha (by simp [valid])

theorem Sleepers.send (h : Sleepers k) (hb : Base k') (hr : (k.proc k.pCurrent).status = .running)
    (hS : Sends k k' id mess) : Sleepers k' := by
  rcases hS.branch with ⟨ha, haq, hw, hwake⟩ | ⟨-, ha, haq, hw, hwake⟩ | ⟨-, -, haq, hw, hsl⟩
  · obtain ⟨hcur, hwait⟩ := h.awaited ha
    refine h.send_wakes hb hS.toPosts hw hwake ⟨_, hwait⟩ (h.unawaited ha hS.toPosts) ?_
    intro p hne
    refine ⟨?_, haq p⟩
    rintro rfl
    rw [haq] at hne
    have hany := (h.anyReceivers p hne).2.2
    exact hcur (Wait.recv.inj (hwait.symm.trans hany))
  · have hwait := h.awaitsAny ha
    refine h.send_wakes hb hS.toPosts hw hwake ⟨_, hwait⟩ ?_ ?_
    · rintro p m hm rfl
      obtain ⟨hp, -, hwt⟩ := h.receivers p m ((hS.recvQ_sublist p).subset hm)
      exact hp (Wait.recv.inj (hwt.symm.trans hwait))
    · intro p hne
      rw [haq] at hne ⊢
      by_cases hp : p = id
      · rw [if_pos hp, h.dropAny] at hne
        exact absurd rfl hne
      · rw [if_neg hp]
        exact ⟨hp, rfl⟩
  · exact h.send_sleeps hb hS.toPosts hr (hsl hr (h.base.queued hr)) hw haq

theorem Sleepers.schedule (h : Sleepers k) (hb : Base k') (hS : Schedules k k') : Sleepers k' := by
  obtain ⟨-, hst⟩ := hS.queues h.base.queues
  have hwait : ∀ q, (k'.proc q).wait = (k.proc q).wait ∨
      (k'.proc q).wait = .none ∧ (k.proc q).status = .running := by
    intro q
    rcases hS.branch with hstay | ⟨-, i, r, hn, hr⟩
    · exact Or.inl (hstay.wait q)
    · rw [hr.wait]
      split
      · rename_i hq
        rw [hq]
        exact Or.inr
          ⟨rfl, ((h.base.queues.runnable r).mp ⟨i, List.mem_of_mem_head? (next_some hn)⟩).2⟩
      · exact Or.inl rfl
  have hkeep : ∀ q, (k.proc q).status = .stopped → (k'.proc q).wait = (k.proc q).wait := by
    intro q hq
    rcases hwait q with hw | ⟨-, hrun⟩
    · exact hw
    · rw [hq] at hrun
      exact absurd hrun (by simp)
  refine h.shrink hb hS.shrinks ?_ ?_ ?_ ?_
  · intro q dst t hq
    rcases hwait q with hw | ⟨hw, -⟩
    · rw [hw] at hq
      exact ⟨hq, fun _ _ _ hstop => (hst q).trans hstop⟩
    · rw [hw] at hq
      exact absurd hq (by simp)
  · intro p m hm
    rw [hS.recvQ] at hm
    obtain ⟨hp, hstop, hwt⟩ := h.receivers p m hm
    exact ⟨hp, (hst _).trans hstop, (hkeep _ hstop).trans hwt⟩
  · intro p
    rw [hS.recvQ]
    exact h.receiver p
  · intro p hne
    rw [hS.recvAnyQ] at hne ⊢
    obtain ⟨hlen, hstop, hwt⟩ := h.anyReceivers p hne
    exact ⟨hlen, (hst p).trans hstop, (hkeep p hstop).trans hwt⟩

/-- **One step keeps the account of the sleepers.** -/
theorem Sleepers.step (h : Sleepers k) (ht : Turn k o) (hv : Served k o)
    (hc : k.wakesSender o = true) (hs : step k o = .ok k') : Sleepers k' := by
  have hb := h.base.step ht hv hs
  cases o with
  | send id mess => exact h.send hb (h.base.user ht) (step_send h.base.short hs).1
  | recv id mess =>
    have hR := (step_recv h.base.short hs).1
    rcases hR.branch with ⟨e, he⟩ | hw
    · exact h.takes hb hR he hc
    · exact h.waits hb hR hw (h.base.user ht)
  | tick =>
    obtain rfl := step_tick hs
    exact ⟨hb, h.tickets, h.fresh, h.senders, h.asleep, h.receivers, h.receiver, h.anyReceivers⟩
  | schedule => exact h.schedule hb (step_schedule hs)

/-! ## What follows -/

theorem Sleepers.parked (h : Sleepers k) : Parked k := by
  rintro q dst t ⟨hw, e, he, ht⟩ i hi
  have hst := (((h.asleep q dst t hw).2 e he ht).2)
  have hrun := ((h.base.queues.runnable q).mp ⟨i, hi⟩).2
  rw [hst] at hrun
  exact absurd hrun (by simp)

/-- `wakeup` of a stopped process makes that process runnable, and no other. -/
theorem Wakes.released (hq : Queues k) (hq' : Queues k') (hl : k'.live = k.live) (h : Wakes k k' q)
    (hst : (k.proc q).status = .stopped) (hlive : k.live q = true) :
    ((∃ i, p ∈ k'.pHead i) ∧ ¬ ∃ i, p ∈ k.pHead i) ↔ p = q := by
  rw [hq.runnable, hq'.runnable, hl]
  rcases h with ⟨hrun, -, -⟩ | ⟨-, hs, -⟩
  · rw [hst] at hrun
    exact absurd hrun (by simp)
  · rw [hs]
    by_cases hp : p = q
    · subst hp
      simp [hst, hlive]
    · simp [hp]

/-- What the condition says about the message that `recv_later` takes. -/
theorem wakesSender_schedule {i : Fin 4} {e : Sent} (hc : k.wakesSender .schedule = true)
    (hreq : k.requested = true) (hn : k.next = some (i, p)) (hp : p ≠ k.pCurrent)
    (hl : (k.proc p).retFrom = .recvLater) (he : (k.proc p).sendQ.getLast? = some e) :
    (k.proc e.msg.id).wait ≠ .send p e.ticket := by
  simp only [wakesSender, hn, Option.all_some, hreq, hl, he] at hc
  simpa [hp] using hc

/-- **A removal wakes the sender.** -/
theorem Sleepers.releases (h : Sleepers k) (ht : Turn k o) (hv : Served k o)
    (hc : k.wakesSender o = true) (hs : Ipc.step k o = .ok k') : Releases k k' := by
  have hb := h.base.step ht hv hs
  rintro q dst t ⟨hw, e, he, rfl⟩ hgone p
  obtain ⟨hid, hst⟩ := (h.asleep q dst e.ticket hw).2 e he rfl
  cases o with
  | send id mess =>
    have hS := (step_send h.base.short hs).1
    refine absurd rfl (hgone e ?_)
    rw [hS.sendQ]
    split
    · rename_i hd
      exact List.mem_cons_of_mem _ (hd ▸ he)
    · exact he
  | recv id mess =>
    have hR := (step_recv h.base.short hs).1
    by_cases hd : dst = k.pCurrent
    · subst hd
      rw [hR.sendQ, if_pos rfl] at hgone
      rcases hR.branch with ⟨x, hx⟩ | hwt
      · -- the message found is the one that is gone, so `recv` was called with its sender
        have hxe : e = x := by
          rcases List.mem_cons.mp ((pick_perm hx.found).mem_iff.mp he) with heq | hmem
          · exact heq
          · exact absurd rfl (hgone e hmem)
        obtain ⟨hany, -, -⟩ := wakesSender_recv hc hx.found
        have hfound := hx.found
        unfold pick at hfound
        rw [if_neg hany] at hfound
        have hxid : x.msg.id = id := by simpa using List.find?_some hfound
        have hqid : q = id := by rw [← hid, hxe, hxid]
        subst hqid
        exact hx.wakes.released h.base.queues hb.queues hR.live hst hx.target
      · -- no valid message was found, so nothing was removed
        have hnone : (pick id (k.proc k.pCurrent).sendQ).1 = none := by
          by_contra hne
          obtain ⟨x, hx⟩ := Option.ne_none_iff_exists'.mp hne
          have := (wakesSender_recv hc hx).2.1
          rw [hwt.missing x hx] at this
          exact absurd this (by simp)
        rw [pick_none hnone] at hgone
        exact absurd rfl (hgone e he)
    · rw [hR.sendQ, if_neg hd] at hgone
      exact absurd rfl (hgone e he)
  | tick =>
    obtain rfl := step_tick hs
    exact absurd rfl (hgone e he)
  | schedule =>
    rcases (step_schedule hs).branch with hstay | ⟨hreq, i, r, hn, hr⟩
    · rw [hstay.sendQ] at hgone
      exact absurd rfl (hgone e he)
    · rcases hr.takes with ⟨-, -, hq⟩ | ⟨hl, x, hx, -, -, hq⟩
      · rw [hq] at hgone
        exact absurd rfl (hgone e he)
      · rw [hq] at hgone
        split at hgone
        · rename_i hd
          subst hd
          have hxe : e = x := by
            rcases List.mem_cons.mp ((perm_deque hx).mem_iff.mp he) with heq | hmem
            · exact heq
            · exact absurd rfl (hgone e hmem)
          have hne := wakesSender_schedule hc hreq hn hr.other hl hx
          rw [← hxe, hid] at hne
          exact absurd hw hne
        · exact absurd rfl (hgone e he)

/-- `wakeup` of a process that runs or is stopped returns. -/
theorem wakeup_returns (hl : k.live p = true)
    (hs : (k.proc p).status = .running ∨ (k.proc p).status = .stopped) :
    ∃ k', k.wakeup p = .ok k' := by
  unfold wakeup enqueProc
  rw [if_pos hl]
  rcases hs with hs | hs
  · rw [hs]
    exact ⟨_, rfl⟩
  · rw [hs]
    exact ⟨_, rfl⟩

/-- `recv` with a valid message. -/
theorem recv_found {e : Sent} (hl : k.live k.pCurrent = true)
    (he : (pick id (k.proc k.pCurrent).sendQ).1 = some e) (hv : e.msg.isValid = true) :
    k.recv id mess =
      ({ k.unsend id with taken := ⟨k.pCurrent, .recv id, e, some e.msg⟩ :: k.taken }).wakeup
        id := by
  rw [recv_eq hl, he]
  exact if_pos hv

/-- With no process `PID_ANY`, a `recv(PID_ANY)` that finds a message stops the kernel. -/
theorem recvAny_panics {e : Sent} (hl : k.live k.pCurrent = true) (hno : k.live pidAny = false)
    (he : (k.proc k.pCurrent).sendQ.getLast? = some e) (hv : e.msg.isValid = true) :
    k.recv pidAny mess = .error (.panic "sleep()::cannot find process ") := by
  have hfound : (pick pidAny (k.proc k.pCurrent).sendQ).1 = some e := by
    unfold pick
    rw [if_pos rfl]
    exact he
  rw [recv_found hl hfound hv]
  unfold wakeup
  have hno' : ¬ (k.unsend pidAny).live pidAny = true := by
    rw [show (k.unsend pidAny).live pidAny = false from hno]
    exact Bool.false_ne_true
  exact if_neg hno'

/-- A `recv` that finds a message returns. -/
theorem Sleepers.recv_returns (h : Sleepers k) (hc : k.wakesSender (.recv id mess) = true)
    (hf : (pick id (k.proc k.pCurrent).sendQ).1 ≠ none) :
    ∃ k', Ipc.step k (.recv id mess) = .ok k' := by
  obtain ⟨e, he⟩ := Option.ne_none_iff_exists'.mp hf
  obtain ⟨hany, hv, hid⟩ := wakesSender_recv hc he
  have hmem := (pick_perm he).mem_iff.mpr (List.mem_cons_self ..)
  have hfound := he
  unfold pick at hfound
  rw [if_neg hany] at hfound
  have heid : e.msg.id = id := by simpa using List.find?_some hfound
  have hlive : k.live id = true := heid ▸ h.senders _ e hmem
  have hst : (k.proc id).status = .running ∨ (k.proc id).status = .stopped := by
    rcases hid with hrun | hw
    · exact Or.inl hrun
    · exact Or.inr ((h.asleep id _ _ hw).2 e hmem rfl).2
  have hstatus : ((k.unsend id).proc id).status = (k.proc id).status := by rw [unsend_proc]
  rw [← hstatus] at hst
  obtain ⟨k₁, h₁⟩ := @wakeup_returns
    { k.unsend id with taken := ⟨k.pCurrent, .recv id, e, some e.msg⟩ :: k.taken } id hlive hst
  refine ⟨{ k₁ with trapped := true }, ?_⟩
  change (k.recv id (k.stamp mess) >>= fun k => .ok { k with trapped := true }) = _
  rw [recv_found h.base.live he hv, h₁]
  rfl

/-! ## Runs -/

/-- The operations considered: `schedule` after each trap, and always with a process to run. -/
def Regular (k : Kernel) (o : Op) : Prop := Turn k o ∧ Served k o

instance : Decidable (Regular k o) := inferInstanceAs (Decidable (_ ∧ _))

/-- **Blocked senders sleep exactly as long as their message is queued**, in a run in which the
process that a `recv` wakes is the sender of the message it found. A `recv` that finds a message
returns. -/
theorem senders_released (hk : Start k)
    (hr : Run step (fun k o => Regular k o ∧ k.wakesSender o = true) k os k') :
    Parked k' ∧
      (∀ o k'', Regular k' o → k'.wakesSender o = true → step k' o = .ok k'' → Releases k' k'') ∧
      ∀ id mess, k'.wakesSender (.recv id mess) = true →
        (pick id (k'.proc k'.pCurrent).sendQ).1 ≠ none → ∃ k'',
          step k' (.recv id mess) = .ok k'' := by
  have hsl : Sleepers k' := hr.invariant
    (fun s o s' hi hl hs => hi.step hl.1.1 hl.1.2 hl.2 hs) hk.sleepers
  exact ⟨hsl.parked, fun o k'' hl hc hs => hsl.releases hl.1 hl.2 hc hs,
    fun id mess hc hf => hsl.recv_returns hc hf⟩

end Kernel

open Kernel

/-- 101 sleeps in its `send` to 102. -/
def blockedSend : List Op := [.send 102 hello, .schedule]

theorem senders_released_blocked : ∃ k' k'',
    Run step (fun k o => Regular k o ∧ k.wakesSender o = true) (boot 101 [102]) blockedSend k' ∧
      AsleepOn k' 101 102 0 ∧ Parked k' ∧ step k' (.recv 101 hello) = .ok k'' ∧
      Releases k' k'' := by
  have hplay : (play step (fun k o => Regular k o ∧ k.wakesSender o = true) (boot 101 [102])
      blockedSend).map (fun k => ((k.proc 101).wait, (k.proc 102).sendQ, k.pCurrent)) =
      some (.send 102 0, [⟨{ hello with id := 101 }, 0⟩], 102) := by
    decide +kernel
  have hturn : (play step (fun k o => Regular k o ∧ k.wakesSender o = true) (boot 101 [102])
      blockedSend).map (fun k => decide (Regular k (.recv 101 hello) ∧
        k.wakesSender (.recv 101 hello) = true)) = some true := by
    decide +kernel
  obtain ⟨k', hk', hs⟩ := Option.map_eq_some_iff.mp hplay
  rw [hk'] at hturn
  simp only [Option.map_some, Option.some.injEq, Prod.mk.injEq, decide_eq_true_eq] at hs hturn
  obtain ⟨hwait, hsend, hcur⟩ := hs
  obtain ⟨hparked, hrel, hret⟩ := senders_released (boot_start (by decide)) (run_of_play hk')
  obtain ⟨k'', hk''⟩ := hret 101 hello hturn.2 (by rw [hcur, hsend]; decide)
  exact ⟨k', k'', run_of_play hk', ⟨hwait, _, by rw [hsend]; exact List.mem_cons_self .., rfl⟩,
    hparked, hk'', hrel _ _ hturn.1 hturn.2 hk''⟩

/-- 102 waits for 101, 103 goes to sleep in a `send` to it, and 101 sends. -/
def senderBefore : List Op :=
  [.recv 101 hello, .schedule, .send 102 hello, .schedule, .send 102 hello]

theorem release_fails : Start (boot 102 [103, 101]) ∧
    ∃ k' k'', Run step Regular (boot 102 [103, 101]) senderBefore k' ∧ AsleepOn k' 103 102 0 ∧
      Regular k' .schedule ∧ step k' .schedule = .ok k'' ∧ ¬ Releases k' k'' := by
  have hplay : (play step Regular (boot 102 [103, 101]) senderBefore).map (fun k =>
      ((k.proc 103).wait, (k.proc 102).sendQ)) =
      some (.send 102 0, [⟨{ hello with id := 101 }, 1⟩, ⟨{ hello with id := 103 }, 0⟩]) := by
    decide +kernel
  have hnext : (play step Regular (boot 102 [103, 101]) senderBefore).map (fun k =>
      (decide (Regular k .schedule), match step k .schedule with
        | .ok k => some ((k.proc 102).sendQ, [0, 1, 2, 3].map k.pHead)
        | .error _ => none)) =
      some (true, some ([⟨{ hello with id := 101 }, 1⟩], [[], [], [102], [101]])) := by
    decide +kernel
  obtain ⟨k', hk', hs⟩ := Option.map_eq_some_iff.mp hplay
  rw [hk'] at hnext
  simp only [Option.map_some, Option.some.injEq, Prod.mk.injEq, decide_eq_true_eq] at hs hnext
  obtain ⟨hreg, hnext⟩ := hnext
  split at hnext
  · rename_i k'' hk''
    simp only [Option.some.injEq, Prod.mk.injEq, List.map_cons, List.map_nil, List.cons.injEq,
      and_true] at hnext
    obtain ⟨hsend, h₀, h₁, h₂, h₃⟩ := hnext
    have hasleep : AsleepOn k' 103 102 0 :=
      ⟨hs.1, ⟨{ hello with id := 103 }, 0⟩, by rw [hs.2]; decide, rfl⟩
    refine ⟨boot_start (by decide), k', k'', run_of_play hk', hasleep, hreg, hk'', ?_⟩
    intro hrel
    have hgone : ∀ e ∈ (k''.proc 102).sendQ, e.ticket ≠ 0 := by
      rw [hsend]
      simp
    obtain ⟨⟨i, hi⟩, -⟩ := (hrel 103 102 0 hasleep hgone 103).mpr rfl
    have hi' := mem_levels i
    simp only [List.mem_cons, List.not_mem_nil, or_false] at hi'
    rcases hi' with rfl | rfl | rfl | rfl
    · rw [h₀] at hi
      exact absurd hi (by decide)
    · rw [h₁] at hi
      exact absurd hi (by decide)
    · rw [h₂] at hi
      exact absurd hi (by decide)
    · rw [h₃] at hi
      exact absurd hi (by decide)
  · exact absurd hnext (by simp)

end OwnOS.Ipc
