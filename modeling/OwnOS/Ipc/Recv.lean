import OwnOS.Ipc.Send

/-!
# What `recv` does

`recv_spec`: a `recv` that returns either took a message out of the caller's `sendQ`, copied it to
the buffer and woke the process it was called for (`Takes`), or left an entry and went to sleep
(`Waits`).
-/

namespace OwnOS.Ipc

namespace Kernel

variable {k k' : Kernel} {p q id : Pid} {mess : Message}

/-- What `recv(id)` finds in the caller's `sendQ`, and the rest. -/
def pick (id : Pid) (q : List Sent) : Option Sent × List Sent :=
  if id = pidAny then deque q else dequeOf (·.msg.id = id) q

/-- The `recv(id)` found the message `e`. -/
structure Takes (k k' : Kernel) (id : Pid) (e : Sent) : Prop where
  found : (pick id (k.proc k.pCurrent).sendQ).1 = some e
  valid : e.msg.isValid = true
  target : k.live id = true
  taken : k'.taken = ⟨k.pCurrent, .recv id, e, some e.msg⟩ :: k.taken
  retFrom : ∀ p, (k'.proc p).retFrom = (k.proc p).retFrom
  recvQ : ∀ p, (k'.proc p).recvQ = (k.proc p).recvQ
  recvAnyQ : ∀ p, (k'.proc p).recvAnyQ = (k.proc p).recvAnyQ
  wait : ∀ p, (k'.proc p).wait = (k.proc p).wait
  wakes : Wakes k k' id

/-- The `recv(id)` found no valid message: it leaves its buffer with `id`, or for any sender. -/
structure Waits (k k' : Kernel) (id : Pid) (mess : Message) : Prop where
  missing : ∀ e, (pick id (k.proc k.pCurrent).sendQ).1 = some e → e.msg.isValid = false
  taken : k'.taken = k.taken
  retFrom : ∀ p, (k'.proc p).retFrom = if p = k.pCurrent then .recvLater else (k.proc p).retFrom
  wait : ∀ p, (k'.proc p).wait = if p = k.pCurrent then .recv id else (k.proc p).wait
  queue :
    (id = pidAny ∧ (k.proc k.pCurrent).recvAnyQ.length < nrMessage ∧
      (∀ p, (k'.proc p).recvQ = (k.proc p).recvQ) ∧
      ∀ p, (k'.proc p).recvAnyQ =
        if p = k.pCurrent then mess :: (k.proc k.pCurrent).recvAnyQ else (k.proc p).recvAnyQ) ∨
    (id ≠ pidAny ∧ k.live id = true ∧ (k.proc id).recvQ.length < nrMessage ∧
      (∀ p, (k'.proc p).recvAnyQ = (k.proc p).recvAnyQ) ∧
      ∀ p, (k'.proc p).recvQ = if p = id then mess :: (k.proc id).recvQ else (k.proc p).recvQ)
  sleeps : (k.proc k.pCurrent).status = .running → (∃ i, k.pCurrent ∈ k.pHead i) →
    Sleeps k k' k.pCurrent

/-- What `recv(id, mess)` does. -/
structure Recvs (k k' : Kernel) (id : Pid) (mess : Message) : Prop where
  live : k'.live = k.live
  pCurrent : k'.pCurrent = k.pCurrent
  schedReq : k'.schedReq = true
  clock : k'.clock = k.clock
  sent : k'.sent = k.sent
  sendQ : ∀ p, (k'.proc p).sendQ =
    if p = k.pCurrent then (pick id (k.proc k.pCurrent).sendQ).2 else (k.proc p).sendQ
  branch : (∃ e, Takes k k' id e) ∨ Waits k k' id mess

/-- The caller's `sendQ` after `deque`. -/
def unsend (k : Kernel) (id : Pid) : Kernel :=
  k.setProc k.pCurrent fun x => { x with sendQ := (pick id (k.proc k.pCurrent).sendQ).2 }

theorem unsend_proc (p : Pid) : (k.unsend id).proc p = { k.proc p with
    sendQ := if p = k.pCurrent then (pick id (k.proc k.pCurrent).sendQ).2
      else (k.proc p).sendQ } := by
  unfold unsend
  rw [setProc_proc]
  split
  · rename_i h
    rw [h]
  · rfl

/-- `recv` with the two kinds of `deque` as one. -/
theorem recv_eq (hl : k.live k.pCurrent = true) :
    k.recv id mess = match (pick id (k.proc k.pCurrent).sendQ).1 with
      | some e =>
        if e.msg.isValid then
          ({ k.unsend id with taken := ⟨k.pCurrent, .recv id, e, some e.msg⟩ :: k.taken }).wakeup id
        else (k.unsend id).recvWait id mess
      | none => (k.unsend id).recvWait id mess := by
  unfold recv deref
  rw [if_pos hl]
  rfl

/-- `recv` takes a valid message, or waits. -/
theorem recv_cases (h : k.recv id mess = .ok k') :
    (∃ e, (pick id (k.proc k.pCurrent).sendQ).1 = some e ∧ e.msg.isValid = true ∧
      ({ k.unsend id with taken := ⟨k.pCurrent, .recv id, e, some e.msg⟩ :: k.taken }).wakeup id =
        .ok k') ∨
    (∀ e, (pick id (k.proc k.pCurrent).sendQ).1 = some e → e.msg.isValid = false) ∧
      (k.unsend id).recvWait id mess = .ok k' := by
  obtain ⟨_, hm, -⟩ := Res.bind_eq_ok.mp h
  rw [recv_eq (deref_ok hm).1] at h
  cases hf : (pick id (k.proc k.pCurrent).sendQ).1 with
  | none =>
    rw [hf] at h
    exact Or.inr ⟨by simp, h⟩
  | some e =>
    rw [hf] at h
    by_cases hv : e.msg.isValid = true
    · exact Or.inl ⟨e, rfl, hv, (if_pos hv).symm.trans h⟩
    · refine Or.inr ⟨?_, (if_neg hv).symm.trans h⟩
      rintro e' he
      obtain rfl := Option.some.inj he
      simpa using hv

theorem setRecvQ_proc (k : Kernel) (p : Pid) (x : List Message) (q : Pid) :
    (k.setProc p ({ · with recvQ := x })).proc q =
      { k.proc q with recvQ := if q = p then x else (k.proc q).recvQ } := by
  rw [setProc_proc]
  split
  · rename_i hq
    rw [hq]
  · rfl

theorem setRecvAnyQ_proc (k : Kernel) (p : Pid) (x : List Message) (q : Pid) :
    (k.setProc p ({ · with recvAnyQ := x })).proc q =
      { k.proc q with recvAnyQ := if q = p then x else (k.proc q).recvAnyQ } := by
  rw [setProc_proc]
  split
  · rename_i hq
    rw [hq]
  · rfl

/-- The callback and the wait of the process that goes to sleep in `recv(id)`. -/
theorem setLater_proc (k : Kernel) (p id q : Pid) :
    (k.setProc p ({ · with retFrom := .recvLater, wait := .recv id })).proc q =
      { k.proc q with
        retFrom := if q = p then .recvLater else (k.proc q).retFrom
        wait := if q = p then .recv id else (k.proc q).wait } := by
  rw [setProc_proc]
  by_cases h : q = p
  · simp only [h, if_true]
  · simp only [if_neg h]

/-- The wait in `recv`, when it returns: the queue it changed is the one of `k₁`. -/
theorem recvWait_cases (hs : Short k) (h : k.recvWait id mess = .ok k') : ∃ k₁ : Kernel,
    (k₁.setProc k₁.pCurrent ({ · with retFrom := .recvLater, wait := .recv id })).sleep = .ok k' ∧
    (id = pidAny ∧ (k.proc k.pCurrent).recvAnyQ.length < nrMessage ∧
        k₁ = k.setProc k.pCurrent ({ · with recvAnyQ := mess :: (k.proc k.pCurrent).recvAnyQ }) ∨
      id ≠ pidAny ∧ k.live id = true ∧ (k.proc id).recvQ.length < nrMessage ∧
        k₁ = k.setProc id ({ · with recvQ := mess :: (k.proc id).recvQ })) := by
  obtain ⟨k₁, h₁, h⟩ := Res.bind_eq_ok.mp h
  refine ⟨k₁, h, ?_⟩
  by_cases hid : id = pidAny
  · obtain ⟨q, hq, h₁⟩ := Res.bind_eq_ok.mp ((if_pos hid).symm.trans h₁)
    obtain ⟨hlt, rfl⟩ := enque_ok (hs _).2.2 hq
    exact Or.inl ⟨hid, hlt, (Except.ok.inj h₁).symm⟩
  · obtain ⟨_, hp, h₁⟩ := Res.bind_eq_ok.mp ((if_neg hid).symm.trans h₁)
    obtain ⟨hl, rfl⟩ := deref_ok hp
    obtain ⟨q, hq, h₁⟩ := Res.bind_eq_ok.mp h₁
    obtain ⟨hlt, rfl⟩ := enque_ok (hs _).2.1 hq
    exact Or.inr ⟨hid, hl, hlt, (Except.ok.inj h₁).symm⟩

theorem pick_sublist (id : Pid) (q : List Sent) : (pick id q).2.Sublist q := by
  unfold pick
  split
  · exact List.dropLast_sublist q
  · exact List.eraseP_sublist

/-- The oldest entry and the rest. -/
theorem perm_deque {α : Type} {q : List α} {e : α} (h : q.getLast? = some e) :
    q.Perm (e :: q.dropLast) := by
  obtain ⟨l, rfl⟩ := List.getLast?_eq_some_iff.mp h
  rw [List.dropLast_concat]
  exact List.perm_append_singleton e l

/-- The newest entry of a kind and the rest. -/
theorem perm_dequeOf {α : Type} {f : α → Bool} {q : List α} {e : α} (h : q.find? f = some e) :
    q.Perm (e :: q.eraseP f) := by
  induction q with
  | nil => exact absurd h (by simp)
  | cons a q ih =>
    by_cases ha : f a = true
    · rw [List.find?_cons_of_pos ha] at h
      obtain rfl := Option.some.inj h
      rw [List.eraseP_cons_of_pos ha]
    · rw [List.find?_cons_of_neg ha] at h
      rw [List.eraseP_cons_of_neg ha]
      exact ((ih h).cons a).trans (List.Perm.swap e a _)

/-- `recv` takes one message out. -/
theorem pick_perm {q : List Sent} {e : Sent} (h : (pick id q).1 = some e) :
    q.Perm (e :: (pick id q).2) := by
  unfold pick at h ⊢
  split at h
  · rename_i hid
    rw [if_pos hid]
    exact perm_deque h
  · rename_i hid
    rw [if_neg hid]
    exact perm_dequeOf h

/-- `recv` that finds nothing leaves the queue as it is. -/
theorem pick_none {q : List Sent} (h : (pick id q).1 = none) : (pick id q).2 = q := by
  unfold pick at h ⊢
  split at h
  · rename_i hid
    rw [if_pos hid]
    rw [List.getLast?_eq_none_iff.mp h]
    rfl
  · rename_i hid
    rw [if_neg hid]
    exact List.eraseP_of_forall_not (List.find?_eq_none.mp h)

theorem Short.unsend (h : Short k) : Short (k.unsend id) := by
  intro p
  rw [unsend_proc]
  refine ⟨?_, (h p).2⟩
  simp only
  split
  · exact Nat.le_trans (pick_sublist _ _).length_le (h _).1
  · exact (h p).1

/-- **`recv`, when it returns.** -/
theorem recv_spec (hs : Short k) (h : k.recv id mess = .ok k') : Recvs k k' id mess := by
  rcases recv_cases h with ⟨e, he, hv, hw⟩ | ⟨hmiss, hw⟩
  · obtain ⟨hl, hwake, hQ⟩ := wakeup_spec hw
    have hproc : ∀ p, k'.proc p = { (k.unsend id).proc p with status := (k'.proc p).status } :=
      hQ.proc
    refine ⟨hQ.live, hQ.pCurrent, hQ.schedReq, hQ.clock, hQ.sent, ?_,
      Or.inl ⟨e, he, hv, hl, hQ.taken, ?_, ?_, ?_, ?_, hwake.of_eq ?_ rfl⟩⟩
    · intro p
      rw [hproc p, unsend_proc]
    · intro p
      rw [hproc p, unsend_proc]
    · intro p
      rw [hproc p, unsend_proc]
    · intro p
      rw [hproc p, unsend_proc]
    · intro p
      rw [hproc p, unsend_proc]
    · intro p
      change ((k.unsend id).proc p).status = _
      rw [unsend_proc]
  · obtain ⟨k₁, hsleep, hq⟩ := recvWait_cases hs.unsend hw
    have hset := setLater_proc k₁ k₁.pCurrent id
    have hstatus : ∀ q, (k₁.proc q).status = (k.proc q).status := by
      intro q
      rcases hq with ⟨-, -, rfl⟩ | ⟨-, -, -, rfl⟩
      · rw [setRecvAnyQ_proc, unsend_proc]
      · rw [setRecvQ_proc, unsend_proc]
    have hrest : ∀ q, (k₁.proc q).sendQ = ((k.unsend id).proc q).sendQ ∧
        (k₁.proc q).retFrom = (k.proc q).retFrom ∧ (k₁.proc q).wait = (k.proc q).wait := by
      intro q
      rcases hq with ⟨-, -, rfl⟩ | ⟨-, -, -, rfl⟩
      · rw [setRecvAnyQ_proc, unsend_proc]
        exact ⟨rfl, rfl, rfl⟩
      · rw [setRecvQ_proc, unsend_proc]
        exact ⟨rfl, rfl, rfl⟩
    have hsame : k₁.live = k.live ∧ k₁.pCurrent = k.pCurrent ∧ k₁.pHead = k.pHead ∧
        k₁.clock = k.clock ∧ k₁.sent = k.sent ∧ k₁.taken = k.taken := by
      rcases hq with ⟨-, -, rfl⟩ | ⟨-, -, -, rfl⟩
      · exact ⟨rfl, rfl, rfl, rfl, rfl, rfl⟩
      · exact ⟨rfl, rfl, rfl, rfl, rfl, rfl⟩
    obtain ⟨hl, hc, hh, hk, hst, ht⟩ := hsame
    obtain ⟨hQ, hsl⟩ := sleep_spec_of_eq hsleep
      (fun q => (congrArg Proc.status (hset q)).trans (hstatus q)) hh hc
    refine ⟨hQ.live.trans hl, hQ.pCurrent.trans hc, hQ.schedReq, hQ.clock.trans hk,
      hQ.sent.trans hst, ?_, Or.inr ⟨hmiss, hQ.taken.trans ht, ?_, ?_, ?_, hsl⟩⟩
    · intro p
      rw [hQ.proc p, hset p]
      exact (hrest p).1.trans (congrArg Proc.sendQ (unsend_proc p))
    · intro p
      rw [hQ.proc p, hset p]
      simp only [hc, (hrest p).2.1]
    · intro p
      rw [hQ.proc p, hset p]
      simp only [hc, (hrest p).2.2]
    · rcases hq with ⟨hid, hlen, rfl⟩ | ⟨hid, hlive, hlen, rfl⟩
      · left
        have hany := congrArg Proc.recvAnyQ (@unsend_proc k id k.pCurrent)
        refine ⟨hid, hany ▸ hlen, ?_, ?_⟩
        · intro p
          rw [hQ.proc p, hset p, setRecvAnyQ_proc, unsend_proc]
        · intro p
          rw [hQ.proc p, hset p, setRecvAnyQ_proc, unsend_proc]
          simp only [unsend_proc]
          rfl
      · right
        have hrecv := congrArg Proc.recvQ (@unsend_proc k id id)
        refine ⟨hid, hlive, hrecv ▸ hlen, ?_, ?_⟩
        · intro p
          rw [hQ.proc p, hset p, setRecvQ_proc, unsend_proc]
        · intro p
          rw [hQ.proc p, hset p, setRecvQ_proc, unsend_proc]
          simp only [unsend_proc]

end Kernel

end OwnOS.Ipc
