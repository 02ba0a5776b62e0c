import OwnOS.Ata.Address

/-!
# Moving sectors (`ata.cpp:476-501`)

A PIO transfer polls the drive before each sector and then moves its 256 words. `good m lba n`
counts the sectors that the drive has to give before the first bad one, and `firstFault` is what is
wrong with that one.

* `pioRead_eq`: a read leaves **the good sectors, in order, in the buffer**, nothing behind them,
  and the code of the first fault.
* `pioWrite_eq`: a write leaves **the buffer in the good sectors**, and says nothing about the
  fault.
-/

namespace OwnOS.Ata

open Lib

/-! ## Good sectors -/

/-- The code of `ide_polling` for a fault. -/
def Fault.code : Fault → UInt8
  | .error _ => 2
  | .deviceFault => 1
  | .noData => 3

theorem Fault.code_ne_zero (f : Fault) : f.code ≠ 0 := by
  cases f <;> simp [code]

namespace Media

variable (m : Media)

/-- How many of `n` sectors come before the first bad one. -/
def good (lba : Nat) : Nat → Nat
  | 0 => 0
  | n + 1 => if m.faultAt lba = none then good (lba + 1) n + 1 else 0

def firstFault (lba : Nat) : Nat → Option Fault
  | 0 => none
  | n + 1 => if m.faultAt lba = none then firstFault (lba + 1) n else m.faultAt lba

/-- The code of a read: 0 without a fault. -/
def readCode (lba n : Nat) : UInt8 := (m.firstFault lba n).elim 0 Fault.code

variable {m} {lba n k : Nat} {f : Fault} {b : Buf}

theorem good_cons (h : m.faultAt lba = none) :
    m.good lba (n + 1) = m.good (lba + 1) n + 1 := if_pos h

theorem good_fault (h : m.faultAt lba = some f) : m.good lba (n + 1) = 0 :=
  if_neg fun h0 => by rw [h] at h0; exact absurd h0 (by simp)

theorem readCode_cons (h : m.faultAt lba = none) :
    m.readCode lba (n + 1) = m.readCode (lba + 1) n := by
  rw [readCode, firstFault, if_pos h, readCode]

theorem readCode_fault (h : m.faultAt lba = some f) : m.readCode lba (n + 1) = f.code := by
  rw [readCode, firstFault, if_neg fun h0 => by rw [h] at h0; exact absurd h0 (by simp), h]
  rfl

theorem good_le (m : Media) (lba n : Nat) : m.good lba n ≤ n := by
  induction n generalizing lba with
  | zero => exact le_refl 0
  | succ n ih =>
    rw [good]
    split
    · exact Nat.succ_le_succ (ih (lba + 1))
    · exact Nat.zero_le _

/-- The first `q` of them are good when none of them is bad. -/
theorem le_good_iff {q : Nat} (hq : q ≤ n) :
    q ≤ m.good lba n ↔ ∀ k < q, m.faultAt (lba + k) = none := by
  induction n generalizing lba q with
  | zero =>
    obtain rfl : q = 0 := by omega
    exact ⟨fun _ k hk => absurd hk (Nat.not_lt_zero k), fun _ => Nat.zero_le _⟩
  | succ n ih =>
    cases q with
    | zero => exact ⟨fun _ k hk => absurd hk (Nat.not_lt_zero k), fun _ => Nat.zero_le _⟩
    | succ q =>
      cases hf : m.faultAt lba with
      | none =>
        rw [good_cons hf, Nat.add_le_add_iff_right, ih (by omega)]
        constructor
        · intro h k hk
          cases k with
          | zero => exact hf
          | succ k =>
            have := h k (by omega)
            rwa [Nat.add_assoc, Nat.add_comm 1 k] at this
        · intro h k hk
          have := h (k + 1) (by omega)
          rwa [Nat.add_assoc, Nat.add_comm 1 k]
      | some f =>
        rw [good_fault hf]
        refine ⟨fun h => absurd h (by omega), fun h => ?_⟩
        have h0 : m.faultAt lba = none := h 0 (Nat.zero_lt_succ q)
        rw [hf] at h0
        exact absurd h0 (by simp)

/-- Writing does not change which sectors are bad. -/
theorem good_setByte (m : Media) (b : Buf) (lba n : Nat) :
    ({ m with byte := b } : Media).good lba n = m.good lba n := by
  induction n generalizing lba with
  | zero => rfl
  | succ n ih =>
    rw [good, good, ih]
    rfl

end Media

/-! ## The words of a sector -/

/-- The two bytes of a word of a buffer. -/
theorem wordBytes_le16 (b : Buf) (o : Nat) {k : Nat} (hk : k < 2) :
    Chan.wordBytes (b.le16 o) k = b (o + k) := by
  have hlow (x y : UInt8) : (x.toUInt16 ||| y.toUInt16 <<< 8).toUInt8 = x := by
    apply UInt8.eq_of_toBitVec_eq
    apply BitVec.eq_of_getLsbD_eq
    intro i hi
    simp
  have hhigh (x y : UInt8) : ((x.toUInt16 ||| y.toUInt16 <<< 8) >>> 8).toUInt8 = y := by
    apply UInt8.eq_of_toBitVec_eq
    apply BitVec.eq_of_getLsbD_eq
    intro i hi
    have h16 : 8 + i < 16 := by omega
    simp [hi, h16]
  rcases Nat.lt_succ_iff_lt_or_eq.mp hk with h0 | h1
  · obtain rfl : k = 0 := by omega
    exact hlow _ _
  · subst h1
    exact hhigh _ _

namespace Chan

variable {c : Chan} {lba left w : Nat} {out : Bool} {p : Phase}

/-- The channel after `n` more words of a sector, from the word `w`. -/
def moved (c : Chan) (out : Bool) (lba left k : Nat) : Chan :=
  if k < 256 then { c with phase := .data out lba left k } else c.sector out (lba + 1) (left - 1)

def atPhase (c : Chan) (p : Phase) : Chan := { c with phase := p }

theorem moved_of_lt (h : w < 256) :
    c.moved out lba left w = c.atPhase (.data out lba left w) := if_pos h

@[simp] theorem medium_atPhase : (c.atPhase p).medium = c.medium := rfl

/-- The next sector does not depend on the phase. -/
theorem moved_atPhase : (c.atPhase p).moved out lba left w = c.moved out lba left w := rfl

theorem in16_data (hb : c.busy = 0) (hph : c.phase = .data false lba left w) :
    c.in16 = (c.medium.byte.le16 (512 * lba + 2 * w), c.moved false lba left (w + 1)) := by
  rw [in16, if_neg (by omega), hph]
  rfl

end Chan

namespace Ide

variable {s : Ide} {i : Fin 2} {c : Chan} {lba left w n edi fuel : Nat} {b : Buf}

theorem decode_data (i : Fin 2) : decode (pcBase i) = some (i, .block 0) := by
  revert i
  decide

theorem insw_succ (s : Ide) (port : UInt16) (n : Nat) (b : Buf) (edi : Nat) :
    s.insw port (n + 1) b edi =
      ({ s with ports := (s.ports.in16 port).2 } : Ide).insw port n
        (b.put edi 2 (Chan.wordBytes (s.ports.in16 port).1)) (edi + 2) := rfl

theorem in16_ports (s : Ide) (i : Fin 2) (c : Chan) :
    (s.setChan i c).ports.in16 (pcBase i) = (c.in16.1, (s.setChan i c.in16.2).ports) := by
  rw [Ports.in16, decode_data]
  simp only [setChan_ports_self]
  exact congrArg (Prod.mk _) (Function.update_idem ..)

/-- A channel that gives the words of `src` one after the other, and is then `C n`. -/
theorem insw_eq (C : Nat → Chan) (src : Buf)
    (h : ∀ k < n, (C k).in16 = (src.le16 (2 * k), C (k + 1))) :
    (s.setChan i (C 0)).insw (pcBase i) n b edi = (s.setChan i (C n), b.put edi (2 * n) src) := by
  induction n generalizing C src b edi with
  | zero => rw [insw, Nat.mul_zero, Buf.put_nil]
  | succ n ih =>
    have hput : b.put edi 2 (Chan.wordBytes (src.le16 0)) = b.put edi 2 src :=
      Buf.put_congr fun k hk => by rw [wordBytes_le16 _ _ hk, Nat.zero_add]
    have hnext : ∀ k < n, (C (k + 1)).in16 =
        (Buf.le16 (fun j => src (2 + j)) (2 * k), C (k + 1 + 1)) := by
      intro k hk
      rw [h (k + 1) (by omega)]
      refine congrArg (·, _) (Buf.le16_congr fun j _ => congrArg src ?_)
      omega
    rw [insw_succ, in16_ports, h 0 (Nat.zero_lt_succ n)]
    dsimp only
    rw [Nat.mul_zero, hput]
    refine (ih (fun k => C (k + 1)) (fun j => src (2 + j)) hnext).trans ?_
    rw [Buf.put_append, show 2 + 2 * n = 2 * (n + 1) by omega]

/-- **The words of a sector that the drive gives.** -/
theorem insw_data (hb : c.busy = 0) (hph : c.phase = .data false lba left 0) :
    (s.setChan i c).insw (pcBase i) 256 b edi =
      (s.setChan i (c.sector false (lba + 1) (left - 1)), b.put edi 512 fun k => c.medium.byte
        (512 * lba + k)) := by
  have h0 : c.moved false lba left 0 = c := by
    rw [Chan.moved, if_pos (by decide), ← hph]
  have hstep : ∀ k < 256, (c.moved false lba left k).in16 =
      (Buf.le16 (fun j => c.medium.byte (512 * lba + j)) (2 * k),
        c.moved false lba left (k + 1)) := by
    intro k hk
    have hin := Chan.in16_data (c := c.atPhase (.data false lba left k)) hb rfl
    rw [Chan.moved_of_lt hk, hin]
    refine congrArg (·, _) (Buf.le16_congr fun j _ => congrArg c.medium.byte ?_)
    omega
  have hall : (s.setChan i (c.moved false lba left 0)).insw (pcBase i) 256 b edi = _ :=
    insw_eq _ _ hstep
  rw [h0] at hall
  exact hall

end Ide

namespace Chan

variable {c : Chan} {b b' : Buf}

theorem selected_setByte : (c.setByte b).selected = c.selected := rfl

@[simp] theorem medium_setByte : (c.setByte b).medium = { c.medium with byte := b } := by
  unfold medium
  rw [selected_setByte]
  exact Function.update_self ..

@[simp] theorem setByte_setByte : (c.setByte b).setByte b' = c.setByte b' := by
  rw [setByte, medium_setByte]
  exact congrArg (fun m => ({ c with media := m } : Chan)) (Function.update_idem ..)

theorem setByte_atPhase {p : Phase} : (c.atPhase p).setByte b = (c.setByte b).atPhase p := rfl

theorem out16_data {lba left w : Nat} {v : UInt16} (hb : c.busy = 0)
    (hph : c.phase = .data true lba left w) :
    c.out16 v =
      (c.setByte (c.medium.byte.put (512 * lba + 2 * w) 2 (wordBytes v))).moved true
        lba left (w + 1) := by
  rw [out16, if_neg (by omega), hph]
  rfl

theorem setByte_self (c : Chan) : c.setByte c.medium.byte = c := by
  have hm : ({ c.medium with byte := c.medium.byte } : Media) = c.media c.selected := rfl
  rw [setByte, hm, Function.update_eq_self]

end Chan

namespace Ide

variable {s : Ide} {i : Fin 2} {c : Chan} {lba left w n esi : Nat} {b : Buf}

theorem outsw_succ (s : Ide) (port : UInt16) (n : Nat) (b : Buf) (esi : Nat) :
    s.outsw port (n + 1) b esi =
      ({ s with ports := s.ports.out16 port (b.le16 esi) } : Ide).outsw port n b (esi + 2) := rfl

theorem out16_ports (s : Ide) (i : Fin 2) (c : Chan) (v : UInt16) :
    ({ s.setChan i c with ports := (s.setChan i c).ports.out16 (pcBase i) v } : Ide)
      = s.setChan i (c.out16 v) := by
  have hp : (s.setChan i c).ports.out16 (pcBase i) v = (s.setChan i (c.out16 v)).ports := by
    rw [Ports.out16, decode_data]
    simp only [setChan_ports_self]
    exact Function.update_idem ..
  rw [hp]
  rfl

/-- A channel that takes the words one after the other, and is then `C n`. -/
theorem outsw_eq (C : Nat → Chan) (h : ∀ k < n, (C k).out16 (b.le16 (esi + 2 * k)) = C (k + 1)) :
    (s.setChan i (C 0)).outsw (pcBase i) n b esi = s.setChan i (C n) := by
  induction n generalizing C esi with
  | zero => rfl
  | succ n ih =>
    rw [outsw_succ, out16_ports, show (C 0).out16 (b.le16 esi) = C 1 from h 0 (Nat.zero_lt_succ n)]
    refine ih (fun k => C (k + 1)) fun k hk => ?_
    rw [show esi + 2 + 2 * k = esi + 2 * (k + 1) by omega]
    exact h (k + 1) (by omega)

/-- **The words of a sector that the drive takes.** -/
theorem outsw_data (hb : c.busy = 0) (hph : c.phase = .data true lba left 0) :
    (s.setChan i c).outsw (pcBase i) 256 b esi =
      s.setChan i ((c.setByte (c.medium.byte.put (512 * lba) 512 fun k => b (esi + k))).sector
        true (lba + 1) (left - 1)) := by
  let C (k : Nat) : Chan :=
    (c.setByte (c.medium.byte.put (512 * lba) (2 * k) fun j => b (esi + j))).moved true lba left k
  have h0 : C 0 = c := by
    have hput : c.setByte (c.medium.byte.put (512 * lba) (2 * 0) fun j => b (esi + j)) = c := by
      rw [Nat.mul_zero, Buf.put_nil, Chan.setByte_self]
    change (c.setByte _).moved true lba left 0 = c
    rw [hput, Chan.moved, if_pos (by decide), ← hph]
  have hstep : ∀ k < 256, (C k).out16 (b.le16 (esi + 2 * k)) = C (k + 1) := by
    intro k hk
    have hword : (c.medium.byte.put (512 * lba) (2 * k) fun j => b (esi + j)).put
      (512 * lba + 2 * k) 2
        (Chan.wordBytes (b.le16 (esi + 2 * k))) = c.medium.byte.put (512 * lba) (2 * (k + 1))
          fun j => b (esi + j) := by
      rw [show 2 * (k + 1) = 2 * k + 2 by omega, ← Buf.put_append]
      refine Buf.put_congr fun j hj => ?_
      rw [wordBytes_le16 _ _ hj, Nat.add_assoc]
    have hout := Chan.out16_data (v := b.le16 (esi + 2 * k))
      (c := (c.setByte (c.medium.byte.put (512 * lba) (2 * k)
      fun j => b (esi + j))).atPhase (.data true lba left k)) hb rfl
    rw [Chan.medium_atPhase, Chan.medium_setByte, hword, Chan.setByte_atPhase, Chan.setByte_setByte,
      Chan.moved_atPhase] at hout
    change ((c.setByte _).moved true lba left k).out16 _ = _
    rw [Chan.moved_of_lt hk]
    exact hout
  have hall := outsw_eq (s := s) (i := i) C hstep
  rw [h0] at hall
  exact hall

end Ide

/-! ## The sectors of a transfer -/

namespace Chan

variable {c c' c'' : Chan} {lba left fuel : Nat} {out : Bool} {f : Fault}

/-- The channel goes on with the same drives. -/
structure Later (fuel : Nat) (c c' : Chan) : Prop where
  media : c'.media = c.media
  select : c'.select = c.select
  control : c'.control = c.control
  busy : c'.busy < fuel
  delay : ∀ k, c'.delay k < fuel

theorem Later.medium (h : Later fuel c c') : c'.medium = c.medium := by
  unfold Chan.medium selected
  rw [h.media, h.select]

theorem Later.trans (h : Later fuel c c') (h' : Later fuel c' c'') : Later fuel c c'' :=
  ⟨h'.media.trans h.media, h'.select.trans h.select, h'.control.trans h.control, h'.busy, h'.delay⟩

theorem sector_fault (h : c.medium.faultAt lba = some f) :
    c.sector out lba (left + 1) = { c.wait with phase := .failed f } := by
  rw [sector, h]

theorem sector_data (h : c.medium.faultAt lba = none) :
    c.sector out lba (left + 1) = { c.wait with phase := .data out lba (left + 1) 0 } := by
  rw [sector, h]

theorem later_sector (hd : ∀ k, c.delay k < fuel) : Later fuel c (c.sector out lba left) := by
  cases left with
  | zero => exact ⟨rfl, rfl, rfl, hd 0, fun k => hd (k + 1)⟩
  | succ left =>
    cases h : c.medium.faultAt lba with
    | some f =>
      rw [sector_fault h]
      exact ⟨rfl, rfl, rfl, hd 0, fun k => hd (k + 1)⟩
    | none =>
      rw [sector_data h]
      exact ⟨rfl, rfl, rfl, hd 0, fun k => hd (k + 1)⟩

theorem Later.ready (h : Later fuel c c') : Later fuel c c'.ready :=
  ⟨h.media, h.select, h.control, lt_of_le_of_lt (Nat.zero_le _) h.busy, h.delay⟩

end Chan

namespace Ide

variable {s : Ide} {i : Fin 2} {c : Chan} {lba left n edi fuel : Nat} {b : Buf}

theorem pollState_failed (f : Fault) : pollState (Phase.failed f).status = f.code := by
  cases f with
  | error _ => exact (by decide : pollState 0x51 = 2)
  | deviceFault => exact (by decide : pollState 0x70 = 1)
  | noData => exact (by decide : pollState 0x50 = 3)

theorem pollState_data (out : Bool) (lba left w : Nat) :
    pollState (Phase.data out lba left w).status = 0 :=
  (by decide : pollState 0x58 = 0)

/-- **A read of `n` sectors**: the good ones are in the buffer, and the code is that of the first
fault. -/
theorem pioRead_eq (h : s.Standard) (hk : c.medium.kind ≠ .absent) (hd : ∀ k, c.delay k < fuel)
    (hn : n ≤ left) :
    ∃ c', (s.setChan i (c.sector false lba left)).pioRead fuel i (pcBase i) n b edi
        = .ok (c.medium.readCode lba n, s.setChan i c',
          b.put edi (512 * c.medium.good lba n) fun k => c.medium.byte (512 * lba + k)) ∧
      c.Later fuel c' := by
  induction n generalizing c lba left b edi with
  | zero =>
    refine ⟨c.sector false lba left, ?_, Chan.later_sector hd⟩
    rw [Media.good, Nat.mul_zero, Buf.put_nil]
    rfl
  | succ n ih =>
    obtain ⟨left, rfl⟩ : ∃ l, left = l + 1 := ⟨left - 1, by omega⟩
    have hlater : c.Later fuel (c.sector false lba (left + 1)) := Chan.later_sector hd
    have hpoll := idePolling_checked (s := s.setChan i (c.sector false lba (left + 1))) (i := i)
      (standard_setChan.mpr h) (by rw [setChan_ports_self, hlater.medium]; exact hk)
      (by rw [setChan_ports_self]; exact hlater.busy)
    rw [setChan_ports_self, setChan_setChan] at hpoll
    rw [pioRead, hpoll, Res.ok_bind]
    cases hf : c.medium.faultAt lba with
    | some f =>
      rw [Chan.sector_fault hf, Media.good_fault hf, Media.readCode_fault hf,
        Nat.mul_zero, Buf.put_nil]
      refine ⟨_, ?_, (Chan.sector_fault hf ▸ hlater).ready⟩
      dsimp only
      rw [pollState_failed, if_pos f.code_ne_zero]
    | none =>
      rw [Media.good_cons hf, Media.readCode_cons hf]
      rw [Chan.sector_data hf] at hlater ⊢
      obtain ⟨c', hc', hl'⟩ := @ih
        ({ c.wait with phase := .data false lba (left + 1) 0 } : Chan).ready
          (lba + 1) left (edi + 512)
        (b.put edi 512 fun k => c.medium.byte (512 * lba + k)) hk (fun k => hd (k + 1)) (by omega)
      refine ⟨c', ?_, hlater.ready.trans hl'⟩
      have hin :
          (s.setChan i ({ c.wait with phase := .data false lba (left + 1) 0 } : Chan).ready).insw
          (pcBase i) 256 b edi = _ := insw_data rfl rfl
      dsimp only
      rw [pollState_data, if_neg (by decide), hin]
      refine Eq.trans hc' ?_
      rw [show 512 * (c.medium.good (lba + 1) n + 1) =
        512 + 512 * c.medium.good (lba + 1) n by omega,
        ← Buf.put_append]
      have hsrc : (fun k => c.medium.byte (512 * (lba + 1) + k)) = fun k =>
          c.medium.byte (512 * lba + (512 + k)) := by
        funext k
        exact congrArg _ (by omega)
      exact congrArg (fun src => Except.ok (c.medium.readCode (lba + 1) n, s.setChan i c',
        (b.put edi 512 fun k => c.medium.byte (512 * lba + k)).put (edi + 512)
          (512 * c.medium.good (lba + 1) n) src)) hsrc

/-- A drive that does not ask for data ignores the words. -/
theorem outsw_failed {f : Fault} (hph : c.phase = .failed f) :
    (s.setChan i c).outsw (pcBase i) n b edi = s.setChan i c := by
  induction n generalizing edi with
  | zero => rfl
  | succ n ih =>
    have hout : c.out16 (b.le16 edi) = c := by
      rw [Chan.out16, hph]
      split <;> rfl
    rw [outsw_succ, out16_ports, hout, ih]

/-- After a fault nothing more is written. -/
theorem pioWrite_failed {f : Fault} (h : s.Standard) (hk : c.medium.kind ≠ .absent)
    (hb : c.busy < fuel) (hd : ∀ k, c.delay k < fuel) (hph : c.phase = .failed f) :
    ∃ c', pioWrite fuel i (pcBase i) b n (s.setChan i c) edi = .ok (s.setChan i c') ∧
    c.Later fuel c' := by
  induction n generalizing c edi with
  | zero => exact ⟨c, rfl, ⟨rfl, rfl, rfl, hb, hd⟩⟩
  | succ n ih =>
    have hpoll : (s.setChan i c).idePolling fuel i false = _ :=
      idePolling_plain (standard_setChan.mpr h)
      (by rw [setChan_ports_self]; exact fun ha => absurd ha hk)
        (by rw [setChan_ports_self]; exact hb)
    rw [setChan_ports_self, setChan_setChan] at hpoll
    obtain ⟨c', hc', hl⟩ := @ih c.ready (edi + 512) hk (lt_of_le_of_lt (Nat.zero_le _) hb) hd hph
    refine ⟨c', ?_, ⟨hl.media, hl.select, hl.control, hl.busy, hl.delay⟩⟩
    rw [pioWrite, hpoll, Res.ok_bind]
    exact (congrArg (fun t => pioWrite fuel i (pcBase i) b n t (edi + 512))
      (outsw_failed (c := c.ready) hph)).trans hc'

/-- **A write of `n` sectors**: the bytes are in the good sectors, and no other sector of the drive
changes. -/
theorem pioWrite_eq (h : s.Standard) (hk : c.medium.kind ≠ .absent) (hd : ∀ k, c.delay k < fuel)
    (hn : n ≤ left) :
    ∃ c', pioWrite fuel i (pcBase i) b n (s.setChan i (c.sector true lba left)) edi =
      .ok (s.setChan i c') ∧
      (c.setByte (c.medium.byte.put (512 * lba) (512 * c.medium.good lba n)
        fun k => b (edi + k))).Later fuel c' := by
  induction n generalizing c lba left edi with
  | zero =>
    refine ⟨c.sector true lba left, rfl, ?_⟩
    rw [Media.good, Nat.mul_zero, Buf.put_nil, Chan.setByte_self]
    exact Chan.later_sector hd
  | succ n ih =>
    obtain ⟨left, rfl⟩ : ∃ l, left = l + 1 := ⟨left - 1, by omega⟩
    have hlater : c.Later fuel (c.sector true lba (left + 1)) := Chan.later_sector hd
    cases hf : c.medium.faultAt lba with
    | some f =>
      rw [Media.good_fault hf, Nat.mul_zero, Buf.put_nil, Chan.setByte_self]
      have hph : (c.sector true lba (left + 1)).phase = .failed f := by rw [Chan.sector_fault hf]
      have hwrite : ∃ c', pioWrite fuel i (pcBase i) b (n + 1)
        (s.setChan i (c.sector true lba (left + 1))) edi
          = .ok (s.setChan i c') ∧ (c.sector true lba (left + 1)).Later fuel c' :=
        pioWrite_failed h (by rw [hlater.medium]; exact hk) hlater.busy hlater.delay hph
      obtain ⟨c', hc', hl⟩ := hwrite
      exact ⟨c', hc', hlater.trans hl⟩
    | none =>
      have hpoll := idePolling_plain (s := s.setChan i (c.sector true lba (left + 1))) (i := i)
        (standard_setChan.mpr h)
        (by rw [setChan_ports_self]; exact fun ha => absurd (hlater.medium ▸ ha) hk)
        (by rw [setChan_ports_self]; exact hlater.busy)
      rw [setChan_ports_self, setChan_setChan] at hpoll
      let c1 := (c.wait.atPhase (.data true lba (left + 1) 0)).ready
      let c2 := c1.setByte (c.medium.byte.put (512 * lba) 512 fun k => b (edi + k))
      have hc1 : (c.sector true lba (left + 1)).ready = c1 := by
        rw [Chan.sector_data hf]
        rfl
      have hout : (s.setChan i c1).outsw (pcBase i) 256 b edi =
          s.setChan i (c2.sector true (lba + 1) left) :=
        outsw_data (c := c1) rfl rfl
      have hm2 : c2.medium =
          { c.medium with byte := c.medium.byte.put (512 * lba) 512 fun k => b (edi + k) } :=
        Chan.medium_setByte
      obtain ⟨c', hc', hl⟩ := @ih c2 (lba + 1) left (edi + 512)
        (by rw [hm2]; exact hk) (fun k => hd (k + 1)) (by omega)
      refine ⟨c', ?_, ?_⟩
      · rw [pioWrite, hpoll, Res.ok_bind, hc1]
        dsimp only
        rw [hout, hc']
      · have hsum : (c.medium.byte.put (512 * lba) 512 fun k => b (edi + k)).put (512 * (lba + 1))
            (512 * c.medium.good (lba + 1) n) (fun k => b (edi + 512 + k))
            = c.medium.byte.put (512 * lba) (512 * c.medium.good lba (n + 1))
              fun k => b (edi + k) := by
          rw [Media.good_cons hf, show 512 * (lba + 1) = 512 * lba + 512 by omega,
            show 512 * (c.medium.good (lba + 1) n + 1) =
              512 + 512 * c.medium.good (lba + 1) n by omega,
            ← Buf.put_append]
          refine congrArg _ (funext fun k => congrArg b ?_)
          omega
        rw [hm2, Media.good_setByte, hsum, Chan.setByte_setByte] at hl
        exact ⟨hl.media, hl.select, hl.control, hl.busy, hl.delay⟩

end Ide

end OwnOS.Ata
