import OwnOS.Ipc.Runs

/-!
# Messages to and from unknown processes (`Ipc.cpp:12-72`, `irq.cpp:114-129`)

The pid in a `send` or `recv` comes from a user register. `getProc` answers NULL for a pid that no
process has, and neither function looks: every way through them ends at that pointer.

* `Known.step`: in every run, whatever is queued was queued by a process.
* `unknownPeer_faults`: **a `send` or `recv` with an unknown process never returns**, and in every
  run it dies by following NULL.
-/

namespace OwnOS.Ipc

namespace Kernel

variable {k k' k₀ : Kernel} {p q id : Pid} {mess : Message} {o : Op} {os : List Op}

/-- `pid_t`, out of a register. -/
def pidOf (r : UInt32) : Pid := r.toInt32.toInt

/-- A call returns, and the queues of messages and the run queues are as they were. -/
def Harmless (k : Kernel) (o : Op) : Prop :=
  ∃ k', step k o = .ok k' ∧ k'.pHead = k.pHead ∧ ∀ p, (k'.proc p).sendQ = (k.proc p).sendQ ∧
    (k'.proc p).recvQ = (k.proc p).recvQ ∧ (k'.proc p).recvAnyQ = (k.proc p).recvAnyQ

theorem deref_unknown (h : k.live id = false) : k.deref id = .error .fault := by
  unfold deref
  rw [if_neg (by simp [h])]

/-! ## `send` -/

theorem push_unknown (h : k.live id = false) : k.push id mess = .error .fault := by
  unfold push
  rw [deref_unknown h]
  rfl

/-- Whether or not somebody waits, `send` follows the pointer to the receiver. -/
theorem send_unknown (h : k.live id = false) : k.send id mess = .error .fault := by
  unfold send
  by_cases hcur : k.live k.pCurrent = true
  · have hmyself : k.deref k.pCurrent = .ok (k.proc k.pCurrent) := if_pos hcur
    -- the `recvQ` of the caller has nothing to do with the receiver
    have hpush : ∀ f, (k.setProc k.pCurrent f).push id mess = .error .fault :=
      fun _ => push_unknown h
    have hpsent : ∀ f, (k.setProc k.pCurrent f).deref id = .error .fault := fun _ => deref_unknown h
    rw [hmyself, Res.ok_bind]
    dsimp only
    split
    · rw [hpush]
      rfl
    · rw [hpsent]
      rfl
  · rw [deref_unknown (by simpa using hcur)]
    rfl

theorem step_send_unknown (h : k.live id = false) : Ipc.step k (.send id mess) = .error .fault := by
  unfold Ipc.step
  simp only [send_unknown h]
  rfl

/-! ## `recv` -/

theorem recvWait_unknown (h : k.live id = false) (hany : id ≠ pidAny) :
    k.recvWait id mess = .error .fault := by
  unfold recvWait await
  rw [if_neg hany, deref_unknown h]
  rfl

/-- `recv` either waits at NULL or wakes a process that is not there. -/
theorem recv_unknown_ne_ok (h : k.live id = false) (hany : id ≠ pidAny) :
    k.recv id mess ≠ .ok k' := by
  intro hok
  rcases recv_cases hok with ⟨e, -, -, hw⟩ | ⟨-, hw⟩
  · have hlive := (wakeup_spec hw).1
    exact absurd (h.symm.trans hlive) (by simp)
  · rw [recvWait_unknown (k := k.unsend id) h hany] at hw
    exact absurd hw (by simp)

/-- Every queued message names a process as its sender, or as who waits for it. -/
def Known (k : Kernel) : Prop :=
  ∀ p, (∀ e ∈ (k.proc p).sendQ, k.live e.msg.id = true) ∧ ∀ m ∈ (k.proc p).recvQ, k.live m.id = true

/-- With no message of the unknown process, `recv` waits. -/
theorem Known.recv_unknown (hk : Known k) (h : k.live id = false) (hany : id ≠ pidAny) :
    k.recv id mess = .error .fault := by
  by_cases hcur : k.live k.pCurrent = true
  · have hnone : (pick id (k.proc k.pCurrent).sendQ).1 = none := by
      unfold pick
      rw [if_neg hany]
      refine List.find?_eq_none.mpr fun e he => ?_
      have hlive := (hk k.pCurrent).1 e he
      simp only [decide_eq_true_eq]
      rintro rfl
      exact absurd (h.symm.trans hlive) (by simp)
    rw [recv_eq hcur, hnone]
    exact recvWait_unknown (k := k.unsend id) h hany
  · unfold recv
    rw [deref_unknown (by simpa using hcur)]
    rfl

/-! ## Runs -/

theorem send_live (h : k.send id mess = .ok k') : k.live k.pCurrent = true := by
  obtain ⟨_, hm, -⟩ := Res.bind_eq_ok.mp h
  exact (deref_ok hm).1

theorem recv_live (h : k.recv id mess = .ok k') : k.live k.pCurrent = true := by
  obtain ⟨_, hm, -⟩ := Res.bind_eq_ok.mp h
  exact (deref_ok hm).1

theorem Start.known (h : Start k) : Known k := by
  intro p
  obtain ⟨hs, hr, -⟩ := h.empty p
  rw [hs, hr]
  exact ⟨fun e he => absurd he List.not_mem_nil, fun m hm => absurd hm List.not_mem_nil⟩

/-- Taking messages out leaves known ones. -/
theorem Known.mono (hk : Known k) (hl : k'.live = k.live)
    (hs : ∀ p, ∀ e ∈ (k'.proc p).sendQ, e ∈ (k.proc p).sendQ)
    (hr : ∀ p, ∀ m ∈ (k'.proc p).recvQ, m ∈ (k.proc p).recvQ) : Known k' := by
  intro p
  rw [hl]
  exact ⟨fun e he => (hk p).1 e (hs p e he), fun m hm => (hk p).2 m (hr p m hm)⟩

/-- **One step**: a new message, or a new entry of a receiver, carries the pid of the caller. -/
theorem Known.step (hk : Known k) (hshort : Short k) (h : step k o = .ok k') : Known k' := by
  cases o with
  | send id mess =>
    obtain ⟨hS, -⟩ := step_send hshort h
    obtain ⟨k₁, h₁, -⟩ := Res.bind_eq_ok.mp h
    have hcur := send_live h₁
    intro p
    rw [hS.live, hS.sendQ, hS.recvQ]
    constructor
    · intro e he
      split at he
      · rcases List.mem_cons.mp he with rfl | he
        · exact hcur
        · exact (hk id).1 e he
      · exact (hk p).1 e he
    · intro m hm
      split at hm
      · exact (hk k.pCurrent).2 m (List.mem_of_mem_eraseP hm)
      · exact (hk p).2 m hm
  | recv id mess =>
    obtain ⟨hR, -⟩ := step_recv hshort h
    obtain ⟨k₁, h₁, -⟩ := Res.bind_eq_ok.mp h
    have hcur := recv_live h₁
    have hsendQ : ∀ p, ∀ e ∈ (k'.proc p).sendQ, e ∈ (k.proc p).sendQ := by
      intro p e he
      rw [hR.sendQ] at he
      split at he
      · rename_i hp
        exact hp ▸ (pick_sublist _ _).subset he
      · exact he
    rcases hR.branch with ⟨e, he⟩ | hw
    · refine hk.mono hR.live hsendQ fun p m hm => ?_
      rwa [he.recvQ] at hm
    · rcases hw.queue with ⟨-, -, hr, -⟩ | ⟨-, -, -, -, hr⟩
      · refine hk.mono hR.live hsendQ fun p m hm => ?_
        rwa [hr] at hm
      · intro p
        rw [hR.live, hr]
        refine ⟨fun e he => (hk p).1 e (hsendQ p e he), fun m hm => ?_⟩
        split at hm
        · rcases List.mem_cons.mp hm with rfl | hm
          · exact hcur
          · exact (hk id).2 m hm
        · exact (hk p).2 m hm
  | tick =>
    obtain rfl := step_tick h
    exact hk
  | schedule =>
    have hS := step_schedule h
    refine hk.mono hS.live ?_ fun p m hm => hS.recvQ p ▸ hm
    intro p e he
    rcases hS.branch with hst | ⟨-, i, r, -, hr⟩
    · exact hst.sendQ p ▸ he
    · rcases hr.takes with ⟨-, -, hq⟩ | ⟨-, _, -, -, -, hq⟩
      · exact hq p ▸ he
      · rw [hq] at he
        split at he
        · rename_i hp
          exact hp ▸ List.mem_of_mem_dropLast he
        · exact he

theorem run_known (hk : Start k₀) (hr : Lib.Run Ipc.step Turn k₀ os k) : Known k := by
  have hinv : Short k ∧ Known k := hr.invariant (I := fun k => Short k ∧ Known k)
    (fun _ _ _ hi _ hs => ⟨hi.1.step hs, hi.2.step hi.1 hs⟩) ⟨hk.short, hk.known⟩
  exact hinv.2

/-- **A `send` or `recv` with an unknown process is never harmless**: `send` follows NULL in every
state, `recv` returns in none, and follows NULL in every state that a run reaches. -/
theorem unknownPeer_faults (k : Kernel) (r : UInt32) (hunknown : k.live (pidOf r) = false)
    (mess : Message) :
    (Ipc.step k (.send (pidOf r) mess) = .error .fault ∧ ¬Harmless k (.send (pidOf r) mess)) ∧
    (pidOf r ≠ pidAny → ¬Harmless k (.recv (pidOf r) mess) ∧
      ∀ k₀ os, Start k₀ → Lib.Run Ipc.step Turn k₀ os k →
        Ipc.step k (.recv (pidOf r) mess) = .error .fault) := by
  refine ⟨⟨step_send_unknown hunknown, ?_⟩, fun hany => ⟨?_, ?_⟩⟩
  · rintro ⟨k', hok, -⟩
    rw [step_send_unknown hunknown] at hok
    exact absurd hok (by simp)
  · rintro ⟨k', hok, -⟩
    obtain ⟨k₁, h₁, -⟩ := Res.bind_eq_ok.mp hok
    exact recv_unknown_ne_ok hunknown hany h₁
  · intro k₀ os hk hr
    unfold Ipc.step
    simp only [(run_known hk hr).recv_unknown hunknown hany]
    rfl

end Kernel

open Kernel

/-- Process 101 alone, after a tick. -/
theorem unknownPeer_faults_102 : ∃ k, Lib.Run step Turn (boot 101 []) [.tick, .schedule] k ∧
    step k (.send 102 hello) = .error .fault ∧ step k (.recv 102 hello) = .error .fault := by
  have hplay : (Lib.play step Turn (boot 101 []) [.tick, .schedule]).map (·.live 102) =
      some false := by
    decide +kernel
  obtain ⟨k, hk, hlive⟩ := Option.map_eq_some_iff.mp hplay
  have hrun := Lib.run_of_play hk
  obtain ⟨⟨hsend, -⟩, hrecv⟩ := unknownPeer_faults k 102 hlive hello
  exact ⟨k, hrun, hsend, (hrecv (by decide)).2 _ _ (boot_start (by simp)) hrun⟩

/-- The first call of process 101 is a `send` to 102. -/
theorem send_unknown_harms : Start (boot 101 []) ∧ (boot 101 []).live (pidOf 102) = false ∧
    step (boot 101 []) (.send (pidOf 102) hello) = .error .fault ∧
    ¬Harmless (boot 101 []) (.send (pidOf 102) hello) := by
  have hfault : step (boot 101 []) (.send (pidOf 102) hello) = .error .fault :=
    step_send_unknown (by decide)
  refine ⟨boot_start (by simp), by decide, hfault, ?_⟩
  rintro ⟨k', hok, -⟩
  exact absurd (hfault.symm.trans hok) (by simp)

end OwnOS.Ipc
