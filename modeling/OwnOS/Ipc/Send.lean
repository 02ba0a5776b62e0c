import OwnOS.Ipc.Queues

/-!
# What `send` does

`send_spec` says field by field what a `send` that returns changed: the message in the `sendQ` of
the target, the waiting-receiver entries it consumed, and who was woken or went to sleep.
-/

namespace OwnOS.Ipc

namespace Kernel

variable {k k' : Kernel} {p q id : Pid} {mess : Message}

/-- No queue is longer than the code allows. -/
def Short (k : Kernel) : Prop :=
  ∀ p, (k.proc p).sendQ.length ≤ nrMessage ∧ (k.proc p).recvQ.length ≤ nrMessage ∧
    (k.proc p).recvAnyQ.length ≤ nrMessage

theorem enque_ok {α : Type} {q q' : List α} {t : α} (hq : q.length ≤ nrMessage)
    (h : enque q t = .ok q') : q.length < nrMessage ∧ q' = t :: q := by
  unfold enque at h
  rw [if_neg (by omega)] at h
  split at h
  · exact absurd h (by simp)
  · obtain rfl := Except.ok.inj h
    exact ⟨by omega, rfl⟩

theorem deref_ok {x : Proc} (h : k.deref p = .ok x) : k.live p = true ∧ x = k.proc p := by
  unfold deref at h
  split at h
  · rename_i hl
    exact ⟨hl, (Except.ok.inj h).symm⟩
  · exact absurd h (by simp)

/-- What `push` does. -/
structure Pushed (k k' : Kernel) (id : Pid) (mess : Message) : Prop where
  target : k.live id = true
  room : (k.proc id).sendQ.length < nrMessage
  live : k'.live = k.live
  pCurrent : k'.pCurrent = k.pCurrent
  pHead : k'.pHead = k.pHead
  clock : k'.clock = k.clock + 1
  sent : k'.sent = ⟨k.pCurrent, id, mess, k.clock⟩ :: k.sent
  taken : k'.taken = k.taken
  proc : ∀ p, k'.proc p = { k.proc p with sendQ := if p = id then
    ⟨{ mess with id := k.pCurrent }, k.clock⟩ :: (k.proc id).sendQ else (k.proc p).sendQ }

theorem push_spec (hq : (k.proc id).sendQ.length ≤ nrMessage) (h : k.push id mess = .ok k') :
    Pushed k k' id mess := by
  unfold push at h
  obtain ⟨psent, hp, h⟩ := Res.bind_eq_ok.mp h
  obtain ⟨hl, rfl⟩ := deref_ok hp
  obtain ⟨q, he, h⟩ := Res.bind_eq_ok.mp h
  obtain ⟨hlt, rfl⟩ := enque_ok hq he
  obtain rfl := Except.ok.inj h
  refine ⟨hl, hlt, rfl, rfl, rfl, rfl, rfl, rfl, ?_⟩
  intro p
  simp only [setProc_proc]
  split
  · rename_i hp
    rw [hp]
  · rfl

/-- A valid waiting-receiver entry of `id` in the sender's own `recvQ`. -/
def Awaited (k : Kernel) (id : Pid) : Prop :=
  valid ((k.proc k.pCurrent).recvQ.find? (·.id = id)) = true

/-- A valid entry that `deque` takes from the `recv_anyQ` of `id`. -/
def AwaitsAny (k : Kernel) (id : Pid) : Prop :=
  valid (k.proc id).recvAnyQ.getLast? = true

/-- What every branch of `send(id, mess)` does to the queues of messages. -/
structure Posts (k k' : Kernel) (id : Pid) (mess : Message) : Prop where
  target : k.live id = true
  room : (k.proc id).sendQ.length < nrMessage
  live : k'.live = k.live
  pCurrent : k'.pCurrent = k.pCurrent
  clock : k'.clock = k.clock + 1
  sent : k'.sent = ⟨k.pCurrent, id, mess, k.clock⟩ :: k.sent
  taken : k'.taken = k.taken
  sendQ : ∀ p, (k'.proc p).sendQ = if p = id then
    ⟨{ mess with id := k.pCurrent }, k.clock⟩ :: (k.proc id).sendQ else (k.proc p).sendQ
  retFrom : ∀ p, (k'.proc p).retFrom = (k.proc p).retFrom
  recvQ : ∀ p, (k'.proc p).recvQ = if p = k.pCurrent then
    (k.proc k.pCurrent).recvQ.eraseP (·.id = id) else (k.proc p).recvQ

/-- What `send(id, mess)` does. The branches: a receiver of this sender, a receiver of any, none. -/
structure Sends (k k' : Kernel) (id : Pid) (mess : Message) : Prop extends Posts k k' id mess where
  schedReq : k'.schedReq = true
  branch :
    (Awaited k id ∧ (∀ p, (k'.proc p).recvAnyQ = (k.proc p).recvAnyQ) ∧
      (∀ p, (k'.proc p).wait = (k.proc p).wait) ∧ Wakes k k' id) ∨
    (¬ Awaited k id ∧ AwaitsAny k id ∧
      (∀ p, (k'.proc p).recvAnyQ =
        if p = id then (k.proc id).recvAnyQ.dropLast else (k.proc p).recvAnyQ) ∧
      (∀ p, (k'.proc p).wait = (k.proc p).wait) ∧ Wakes k k' id) ∨
    (¬ Awaited k id ∧ ¬ AwaitsAny k id ∧
      (∀ p, (k'.proc p).recvAnyQ =
        if p = id then (k.proc id).recvAnyQ.dropLast else (k.proc p).recvAnyQ) ∧
      (∀ p, (k'.proc p).wait = if p = k.pCurrent then .send id k.clock else (k.proc p).wait) ∧
      ((k.proc k.pCurrent).status = .running → (∃ i, k.pCurrent ∈ k.pHead i) →
        Sleeps k k' k.pCurrent))

/-- `Posts` does not look at the run queues and at what processes wait for. -/
theorem Posts.congr {k₁ : Kernel} (h : Posts k k₁ id mess) (hl : k'.live = k₁.live)
    (hc : k'.pCurrent = k₁.pCurrent) (hk : k'.clock = k₁.clock) (hs : k'.sent = k₁.sent)
    (ht : k'.taken = k₁.taken) (hp : ∀ p, k'.proc p = { k₁.proc p with
      status := (k'.proc p).status, wait := (k'.proc p).wait }) : Posts k k' id mess where
  target := h.target
  room := h.room
  live := hl.trans h.live
  pCurrent := hc.trans h.pCurrent
  clock := hk.trans h.clock
  sent := hs.trans h.sent
  taken := ht.trans h.taken
  sendQ p := (congrArg Proc.sendQ (hp p)).trans (h.sendQ p)
  retFrom p := (congrArg Proc.retFrom (hp p)).trans (h.retFrom p)
  recvQ p := (congrArg Proc.recvQ (hp p)).trans (h.recvQ p)

theorem Posts.quiet {k₁ : Kernel} (h : Posts k k₁ id mess) (hq : Quiet k₁ k') :
    Posts k k' id mess := by
  refine h.congr hq.live hq.pCurrent hq.clock hq.sent hq.taken fun p => ?_
  rw [hq.proc p]

/-- The sender's `recvQ` after `deque(Message(id))`. -/
def unawait (k : Kernel) (id : Pid) : Kernel :=
  k.setProc k.pCurrent fun x =>
    { x with recvQ := (k.proc k.pCurrent).recvQ.eraseP (·.id = id) }

/-- The receiver's `recv_anyQ` after `deque()`. -/
def unawaitAny (k : Kernel) (id : Pid) : Kernel :=
  k.setProc id fun x => { x with recvAnyQ := (k.proc id).recvAnyQ.dropLast }

theorem unawait_proc (p : Pid) : (k.unawait id).proc p = { k.proc p with
    recvQ := if p = k.pCurrent then (k.proc k.pCurrent).recvQ.eraseP (·.id = id)
      else (k.proc p).recvQ } := by
  unfold unawait
  rw [setProc_proc]
  split
  · rename_i h
    rw [h]
  · rfl

theorem unawaitAny_proc (p : Pid) : (k.unawaitAny id).proc p = { k.proc p with
    recvAnyQ := if p = id then (k.proc id).recvAnyQ.dropLast else (k.proc p).recvAnyQ } := by
  unfold unawaitAny
  rw [setProc_proc]
  split
  · rename_i h
    rw [h]
  · rfl

theorem Wakes.of_eq {k₁ : Kernel} (h : Wakes k₁ k' p)
    (hs : ∀ q, (k₁.proc q).status = (k.proc q).status) (hq : k₁.pHead = k.pHead) :
    Wakes k k' p := by
  unfold Wakes at h
  simp only [hs, hq] at h
  exact h

theorem Sleeps.of_eq {k₁ : Kernel} (h : Sleeps k₁ k' p)
    (hs : ∀ q, (k₁.proc q).status = (k.proc q).status) (hq : k₁.pHead = k.pHead) :
    Sleeps k k' p := by
  unfold Sleeps at h
  simp only [hs, hq] at h
  exact h

/-- `send` comes to one of its three branches. -/
theorem send_cases (h : k.send id mess = .ok k') :
    (Awaited k id ∧ ∃ k₁, (k.unawait id).push id mess = .ok k₁ ∧ k₁.wakeup id = .ok k') ∨
    (¬ Awaited k id ∧ ∃ k₁, ((k.unawait id).unawaitAny id).push id mess = .ok k₁ ∧
      (AwaitsAny k id ∧ k₁.wakeup id = .ok k' ∨
        ¬ AwaitsAny k id ∧
          (k₁.setProc k₁.pCurrent ({ · with wait := .send id k.clock })).sleep = .ok k')) := by
  obtain ⟨_, hm, h⟩ := Res.bind_eq_ok.mp h
  obtain ⟨-, rfl⟩ := deref_ok hm
  have hany : ((k.unawait id).proc id).recvAnyQ = (k.proc id).recvAnyQ := by
    rw [unawait_proc]
  by_cases hv : Awaited k id
  · left
    obtain ⟨k₁, h₁, h⟩ := Res.bind_eq_ok.mp ((if_pos hv).symm.trans h)
    exact ⟨hv, k₁, h₁, h⟩
  · right
    obtain ⟨_, hp, h⟩ := Res.bind_eq_ok.mp ((if_neg hv).symm.trans h)
    obtain ⟨-, rfl⟩ := deref_ok hp
    refine ⟨hv, ?_⟩
    by_cases ha : valid ((k.unawait id).proc id).recvAnyQ.getLast? = true
    · obtain ⟨k₁, h₁, h⟩ := Res.bind_eq_ok.mp ((if_pos ha).symm.trans h)
      rw [hany] at ha
      exact ⟨k₁, h₁, Or.inl ⟨ha, h⟩⟩
    · obtain ⟨k₁, h₁, h⟩ := Res.bind_eq_ok.mp ((if_neg ha).symm.trans h)
      rw [hany] at ha
      exact ⟨k₁, h₁, Or.inr ⟨ha, h⟩⟩

/-- `push`, in a state that differs from `k` in the waiting receivers only. -/
theorem Pushed.posts {k₁ k₂ : Kernel} {any : Pid → List Message} (h : Pushed k₁ k₂ id mess)
    (hl : k₁.live = k.live) (hc : k₁.pCurrent = k.pCurrent) (hk : k₁.clock = k.clock)
    (hst : k₁.sent = k.sent) (ht : k₁.taken = k.taken)
    (hp : ∀ p, k₁.proc p = { (k.unawait id).proc p with recvAnyQ := any p }) :
    Posts k k₂ id mess where
  target := hl ▸ h.target
  room := by
    have := h.room
    rwa [hp, unawait_proc] at this
  live := h.live.trans hl
  pCurrent := h.pCurrent.trans hc
  clock := by rw [h.clock, hk]
  sent := by rw [h.sent, hc, hk, hst]
  taken := h.taken.trans ht
  sendQ p := by
    rw [h.proc p]
    simp only [hc, hk, hp, unawait_proc]
  retFrom p := by rw [h.proc p, hp, unawait_proc]
  recvQ p := by rw [h.proc p, hp, unawait_proc]

/-- `sleep` in a state with the run queues of `k`. -/
theorem sleep_spec_of_eq {k₁ : Kernel} (h : k₁.sleep = .ok k')
    (hs : ∀ q, (k₁.proc q).status = (k.proc q).status) (hq : k₁.pHead = k.pHead)
    (hc : k₁.pCurrent = k.pCurrent) : Quiet k₁ k' ∧
      ((k.proc k.pCurrent).status = .running → (∃ i, k.pCurrent ∈ k.pHead i) →
        Sleeps k k' k.pCurrent) := by
  obtain ⟨hQ, hsleep⟩ := sleep_spec h
  rw [hc, hs, hq] at hsleep
  exact ⟨hQ, fun hr hi => (hsleep hr hi).of_eq hs hq⟩

/-- **`send`, when it returns.** -/
theorem send_spec (hs : Short k) (h : k.send id mess = .ok k') : Sends k k' id mess := by
  rcases send_cases h with ⟨ha, k₁, hp, hw⟩ | ⟨ha, k₁, hp, hw⟩
  · have hq : ((k.unawait id).proc id).sendQ.length ≤ nrMessage := by
      rw [unawait_proc]
      exact (hs id).1
    have hP := push_spec hq hp
    obtain ⟨-, hwake, hQ⟩ := wakeup_spec hw
    have hposts : Posts k k₁ id mess := hP.posts rfl rfl rfl rfl rfl fun _ => rfl
    refine ⟨hposts.quiet hQ, hQ.schedReq, Or.inl ⟨ha, ?_, ?_, hwake.of_eq ?_ hP.pHead⟩⟩
    · intro p
      rw [hQ.proc p, hP.proc p, unawait_proc]
    · intro p
      rw [hQ.proc p, hP.proc p, unawait_proc]
    · intro p
      rw [hP.proc p, unawait_proc]
  · have hq : (((k.unawait id).unawaitAny id).proc id).sendQ.length ≤ nrMessage := by
      rw [unawaitAny_proc, unawait_proc]
      exact (hs id).1
    have hP := push_spec hq hp
    have hposts : Posts k k₁ id mess := hP.posts rfl rfl rfl rfl rfl unawaitAny_proc
    have hstatus : ∀ q, (k₁.proc q).status = (k.proc q).status := by
      intro q
      rw [hP.proc q, unawaitAny_proc, unawait_proc]
    have hany : ∀ q, (k₁.proc q).recvAnyQ =
        if q = id then (k.proc id).recvAnyQ.dropLast else (k.proc q).recvAnyQ := by
      intro q
      rw [hP.proc q, unawaitAny_proc]
      simp only [unawait_proc]
    have hwait : ∀ q, (k₁.proc q).wait = (k.proc q).wait := by
      intro q
      rw [hP.proc q, unawaitAny_proc, unawait_proc]
    rcases hw with ⟨haa, hw⟩ | ⟨haa, hw⟩
    · obtain ⟨-, hwake, hQ⟩ := wakeup_spec hw
      refine ⟨hposts.quiet hQ, hQ.schedReq, Or.inr (Or.inl ⟨ha, haa, ?_, ?_, ?_⟩)⟩
      · intro p
        rw [hQ.proc p]
        exact hany p
      · intro p
        rw [hQ.proc p]
        exact hwait p
      · exact hwake.of_eq hstatus hP.pHead
    · have hset := setWait_proc k₁ k₁.pCurrent (.send id k.clock)
      have hposts' :
            Posts k (k₁.setProc k₁.pCurrent ({ · with wait := .send id k.clock })) id mess :=
        hposts.congr rfl rfl rfl rfl rfl fun p => by rw [hset p]
      obtain ⟨hQ, hsleep⟩ := sleep_spec_of_eq hw
        (fun q => (congrArg Proc.status (hset q)).trans (hstatus q)) hP.pHead hposts.pCurrent
      refine ⟨hposts'.quiet hQ, hQ.schedReq, Or.inr (Or.inr ⟨ha, haa, ?_, ?_, hsleep⟩)⟩
      · intro p
        rw [hQ.proc p, hset p]
        exact hany p
      · intro p
        rw [hQ.proc p, hset p]
        simp only [hposts.pCurrent, hwait]

end Kernel

end OwnOS.Ipc
