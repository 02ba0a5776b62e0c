import OwnOS.Ata.Model

/-!
# The register map of the driver

`ide_write` and `ide_read` number the registers of a channel from 0 to `0x15` and find the port of
each. On the channels of a PC (`Standard`) the registers below 8 are the command block, those from 8
to 11 are the same ports written a second time, and `0x0C` is the control register. So every access
is one of the hardware's own on its channel and touches nothing else (`ideWrite_block`,
`ideWrite_hob`, `ideWrite_control`, `ideRead_block`, `ideRead_alt`).

* `waitBsy_eq`, `idePolling_eq`: **a wait ends** when the drive takes fewer polls than there is
  fuel.
* `writeAddress_eq`: the registers that the driver leaves to the drive.
-/

namespace OwnOS.Ata

open Lib

/-- The command block and the control block of a channel of a PC. -/
def pcBase (i : Fin 2) : UInt16 := if i = 0 then 0x1F0 else 0x170

def pcCtrl (i : Fin 2) : UInt16 := if i = 0 then 0x3F4 else 0x374

namespace Ide

/-- The driver knows the ports of the channels. -/
def Standard (s : Ide) : Prop :=
  ∀ i, (s.channels i).base = pcBase i ∧ (s.channels i).ctrl = pcCtrl i

/-- The state with the channel `i` changed. -/
def setChan (s : Ide) (i : Fin 2) (c : Chan) : Ide :=
  { s with ports := Function.update s.ports i c }

variable {s : Ide} {i j : Fin 2} {c c' : Chan} {v w : UInt8} {reg : UInt8} {fuel n : Nat}

@[simp] theorem setChan_ports_self : (s.setChan i c).ports i = c := Function.update_self ..

theorem setChan_ports_of_ne (h : j ≠ i) : (s.setChan i c).ports j = s.ports j :=
  Function.update_of_ne h ..

@[simp] theorem setChan_setChan : (s.setChan i c).setChan i c' = s.setChan i c' := by
  unfold setChan
  rw [Function.update_idem]

@[simp] theorem setChan_self : s.setChan i (s.ports i) = s := by
  unfold setChan
  rw [Function.update_eq_self]

@[simp] theorem setChan_channels : (s.setChan i c).channels = s.channels := rfl

@[simp] theorem setChan_ideDevices : (s.setChan i c).ideDevices = s.ideDevices := rfl

@[simp] theorem standard_setChan : (s.setChan i c).Standard ↔ s.Standard := Iff.rfl

theorem standard_setNIEN (h : s.Standard) : (s.setNIEN i v).Standard := by
  intro j
  by_cases hj : j = i
  · subst hj
    simpa [setNIEN] using h j
  · simpa [setNIEN, Function.update_of_ne hj] using h j

/-! ## Ports -/

theorem decode_block {r : UInt16} (h : r.toNat < 8) :
    decode (pcBase i + r) = some (i, .block r) := by
  obtain ⟨k, hk, rfl⟩ : ∃ k : Fin 8, k.val = r.toNat ∧ UInt16.ofNat k.val = r :=
    ⟨⟨r.toNat, h⟩, rfl, UInt16.ofNat_toNat⟩
  have hall : ∀ (i : Fin 2) (k : Fin 8),
      decode (pcBase i + UInt16.ofNat k.val) = some (i, .block (UInt16.ofNat k.val)) := by decide
  exact hall i k

theorem decode_control (i : Fin 2) : decode (pcCtrl i + 2) = some (i, .control) := by
  revert i
  decide

theorem portOf_block (h : s.Standard) (hr : reg < 0x08) :
    portOf (s.channels i) reg = some (pcBase i + reg.toUInt16) := by
  rw [portOf, if_pos hr, (h i).1, UInt16.sub_zero]

theorem portOf_hob (h : s.Standard) (h1 : 0x07 < reg) (h2 : reg < 0x0C) :
    portOf (s.channels i) reg = some (pcBase i + (reg.toUInt16 - 6)) := by
  have h8 : ¬ reg < 0x08 := by
    rw [UInt8.lt_iff_toNat_lt] at *
    exact Nat.not_lt.mpr h1
  rw [portOf, if_neg h8, if_pos h2, (h i).1, UInt16.sub_eq_add_neg, UInt16.add_assoc,
    ← UInt16.sub_eq_add_neg]

theorem portOf_control (h : s.Standard) : portOf (s.channels i) 0x0C = some (pcCtrl i + 2) := by
  have hc : pcCtrl i + (0x0C : UInt8).toUInt16 - 0x0A = pcCtrl i + 2 := by
    revert i
    decide
  rw [portOf, if_neg (by decide), if_neg (by decide), if_pos (by decide), (h i).2, hc]

theorem outReg_block (h : s.Standard) (hr : reg < 0x08) :
    s.outReg i reg v = s.setChan i ((s.ports i).out8 reg.toUInt16 v) := by
  have hd : decode (pcBase i + reg.toUInt16) = some (i, .block reg.toUInt16) :=
    decode_block (UInt8.lt_iff_toNat_lt.mp hr)
  simp only [outReg, portOf_block h hr, Ports.out8, hd, setChan]

theorem outReg_hob (h : s.Standard) (h1 : 0x07 < reg) (h2 : reg < 0x0C) :
    s.outReg i reg v = s.setChan i ((s.ports i).out8 (reg.toUInt16 - 6) v) := by
  have hlt : (reg.toUInt16 - 6).toNat < 8 := by
    have h1 := UInt8.lt_iff_toNat_lt.mp h1
    have h2 := UInt8.lt_iff_toNat_lt.mp h2
    have hr : reg.toUInt16.toNat = reg.toNat := rfl
    have h7 : (0x07 : UInt8).toNat = 7 := rfl
    have hC : (0x0C : UInt8).toNat = 12 := rfl
    have h6 : (6 : UInt16).toNat = 6 := rfl
    rw [UInt16.toNat_sub_of_le _ _ (UInt16.le_iff_toNat_le.mpr (by omega))]
    omega
  simp only [outReg, portOf_hob h h1 h2, Ports.out8, decode_block hlt, setChan]

theorem outReg_control (h : s.Standard) :
    s.outReg i ATA_REG_CONTROL v = s.setChan i { s.ports i with control := v } := by
  simp only [outReg, ATA_REG_CONTROL, portOf_control h, Ports.out8, decode_control, setChan]

theorem toggle_block (hr : reg < 0x08) : s.toggle i reg v = s :=
  if_neg fun h => absurd (UInt8.lt_iff_toNat_lt.mp h.1) (by
    have := UInt8.lt_iff_toNat_lt.mp hr
    have h8 : (0x08 : UInt8).toNat = 8 := rfl
    have h7 : (0x07 : UInt8).toNat = 7 := rfl
    omega)

theorem toggle_control : s.toggle i 0x0C v = s := if_neg (by decide)

theorem toggle_hob (h : s.Standard) (h1 : 0x07 < reg) (h2 : reg < 0x0C) :
    s.toggle i reg v = s.setChan i { s.ports i with control := v } := by
  rw [toggle, if_pos ⟨h1, h2⟩, outReg_control h]

/-- **A register of the command block.** -/
theorem ideWrite_block (h : s.Standard) (hr : reg < 0x08) :
    s.ideWrite i reg v = s.setChan i ((s.ports i).out8 reg.toUInt16 v) := by
  simp only [ideWrite, toggle_block hr, outReg_block h hr]

theorem ideWrite_control (h : s.Standard) :
    s.ideWrite i ATA_REG_CONTROL v = s.setChan i { s.ports i with control := v } := by
  unfold ATA_REG_CONTROL
  simp only [ideWrite, toggle_control]
  exact outReg_control h

/-- **The second half of a register**: the same port, between two writes of the control register. -/
theorem ideWrite_hob (h : s.Standard) (h1 : 0x07 < reg) (h2 : reg < 0x0C) :
    s.ideWrite i reg v = s.setChan i
      { ({ s.ports i with control := 0x80 ||| (s.channels i).nIEN }).out8 (reg.toUInt16 - 6) v with
        control := (s.channels i).nIEN } := by
  simp only [ideWrite]
  rw [toggle_hob h h1 h2, outReg_hob (standard_setChan.mpr h) h1 h2,
    toggle_hob (standard_setChan.mpr (standard_setChan.mpr h)) h1 h2]
  simp

theorem ideRead_block (h : s.Standard) (hr : reg < 0x08) :
    s.ideRead i reg =
      (((s.ports i).in8 reg.toUInt16).1, s.setChan i ((s.ports i).in8 reg.toUInt16).2) := by
  have hd : decode (pcBase i + reg.toUInt16) = some (i, .block reg.toUInt16) :=
    decode_block (UInt8.lt_iff_toNat_lt.mp hr)
  simp only [ideRead, toggle_block hr, portOf_block h hr, Ports.in8, hd, setChan]

theorem ideRead_status (h : s.Standard) :
    s.ideRead i ATA_REG_STATUS = ((s.ports i).status, s.setChan i (s.ports i).poll.2) :=
  ideRead_block h (by decide)

theorem ideRead_alt (h : s.Standard) :
    s.ideRead i ATA_REG_ALTSTATUS = ((s.ports i).status, s.setChan i (s.ports i).poll.2) := by
  unfold ATA_REG_ALTSTATUS
  simp only [ideRead, toggle_control, portOf_control h, Ports.in8, decode_control, setChan]

end Ide

/-! ## Waiting -/

theorem Phase.status_cases (p : Phase) :
    p.status = 0x50 ∨ p.status = 0x58 ∨ p.status = 0x51 ∨ p.status = 0x70 := by
  rcases p with _ | _ | _ | f
  · exact Or.inl rfl
  · exact Or.inr (Or.inl rfl)
  · exact Or.inr (Or.inl rfl)
  · cases f with
    | error _ => exact Or.inr (Or.inr (Or.inl rfl))
    | deviceFault => exact Or.inr (Or.inr (Or.inr rfl))
    | noData => exact Or.inl rfl

namespace Chan

variable {c : Chan}

/-- The channel is not busy with a drive that does not exist. -/
def Sane (c : Chan) : Prop := c.medium.kind = .absent → c.busy = 0

/-- The channel when the wait is over. -/
def ready (c : Chan) : Chan := { c with busy := 0 }

theorem poll_chan (c : Chan) : c.poll.2 = { c with busy := c.busy - 1 } := rfl

theorem status_of_busy (hp : c.Sane) (hb : 0 < c.busy) : c.status = 0x80 := by
  rw [status, if_neg fun h => absurd (hp h) (by omega), if_pos hb]

/-- Only a drive that is busy shows `BSY`. -/
theorem status_and_bsy (hb : c.busy = 0) : c.status &&& ATA_SR_BSY = 0 := by
  unfold status
  rw [if_neg (show ¬ 0 < c.busy by omega)]
  split
  · rfl
  · rcases Phase.status_cases c.phase with h | h | h | h <;> rw [h] <;> rfl

end Chan

namespace Ide

variable {s : Ide} {i : Fin 2} {fuel n : Nat}

theorem readAlt_eq (h : s.Standard) :
    s.readAlt i n = s.setChan i { s.ports i with busy := (s.ports i).busy - n } := by
  induction n generalizing s with
  | zero => exact setChan_self.symm
  | succ n ih =>
    rw [readAlt, ideRead_alt h, ih (standard_setChan.mpr h), setChan_setChan, setChan_ports_self,
      Chan.poll_chan]
    have hn : (s.ports i).busy - 1 - n = (s.ports i).busy - (n + 1) := by omega
    simp only [hn]

/-- **The wait for the drive ends**, when the drive takes fewer polls than there is fuel. -/
theorem waitBsy_eq (h : s.Standard) (hp : (s.ports i).Sane) (hb : (s.ports i).busy < fuel) :
    s.waitBsy i fuel = .ok (s.setChan i (s.ports i).ready) := by
  induction fuel generalizing s with
  | zero => omega
  | succ fuel ih =>
    rw [waitBsy, ideRead_status h]
    by_cases h0 : (s.ports i).busy = 0
    · have hc : (s.ports i).poll.2 = (s.ports i).ready := by
        rw [Chan.poll_chan, Chan.ready, h0]
      simp only [Chan.status_and_bsy h0, hc]
      rfl
    · have hst : (s.ports i).status &&& ATA_SR_BSY ≠ 0 := by
        rw [Chan.status_of_busy hp (by omega)]
        decide
      have hs : (s.setChan i (s.ports i).poll.2).ports i =
          { s.ports i with busy := (s.ports i).busy - 1 } :=
        setChan_ports_self
      simp only [if_pos hst]
      have hsane : ((s.setChan i (s.ports i).poll.2).ports i).Sane := by
        rw [hs]
        exact fun ha => absurd (hp ha) h0
      rw [ih (standard_setChan.mpr h) hsane (by rw [hs]; simp only; omega), hs, setChan_setChan]
      rfl

theorem idePolling_plain (h : s.Standard) (hp : (s.ports i).Sane) (hb : (s.ports i).busy < fuel) :
    s.idePolling fuel i false = .ok (0, s.setChan i (s.ports i).ready) := by
  have hw : (s.setChan i { s.ports i with busy := (s.ports i).busy - 4 }).waitBsy i fuel
      = .ok (s.setChan i (s.ports i).ready) := by
    rw [waitBsy_eq (standard_setChan.mpr h), setChan_setChan, setChan_ports_self]
    · rfl
    · rw [setChan_ports_self]
      intro ha
      have hb : (s.ports i).busy = 0 := hp ha
      simp only [hb, Nat.zero_sub]
    · rw [setChan_ports_self]
      exact lt_of_le_of_lt (Nat.sub_le _ _) hb
  rw [idePolling, readAlt_eq h, hw]
  rfl

/-- What the drive that was asked shows, when the wait is over. -/
theorem idePolling_checked (h : s.Standard) (hp : (s.ports i).medium.kind ≠ .absent)
    (hb : (s.ports i).busy < fuel) :
    s.idePolling fuel i true
      = .ok (pollState (s.ports i).phase.status, s.setChan i (s.ports i).ready) := by
  have hs := idePolling_plain h (fun ha => absurd ha hp) hb
  rw [idePolling] at hs ⊢
  obtain ⟨t, ht, hs⟩ := Res.bind_eq_ok.mp hs
  obtain rfl : t = s.setChan i (s.ports i).ready := by simpa using hs
  have hr : (s.ports i).ready.poll.2 = (s.ports i).ready := rfl
  have hst : (s.ports i).ready.status = (s.ports i).phase.status := if_neg hp
  rw [ht, Res.ok_bind, if_pos rfl, ideRead_status (standard_setChan.mpr h), setChan_ports_self,
    setChan_setChan, hr, hst]

end Ide

/-! ## The address of a transfer -/

namespace Chan

variable {c : Chan}

/-- The channel with the registers of a transfer. -/
def addressed (c : Chan) (slavebit : Fin 2) (io : LbaIo) (numsects : UInt8) : Chan :=
  let half (r : Latch) (v w : UInt8) : Latch := if io.mode = .lba48 then ⟨v, w⟩ else r.push v
  { c with
    select := (if io.mode = .chs then (0xA0 : UInt8) else 0xE0) ||| UInt8.ofNat slavebit.val <<<
      4 ||| io.head
    count := half c.count numsects 0
    lba0 := half c.lba0 io.io0 io.io3
    lba1 := half c.lba1 io.io1 0
    lba2 := half c.lba2 io.io2 0 }

end Chan

namespace Ide

variable {s : Ide} {i slavebit : Fin 2} {c : Chan} {io : LbaIo}
  {numsects v : UInt8}

/-- Registers of a drive that is not busy. -/
theorem write_ready (h : s.Standard) (hb : c.busy = 0) :
    (s.setChan i c).ideWrite i ATA_REG_HDDEVSEL v = s.setChan i { c with select := v } ∧
    (s.setChan i c).ideWrite i ATA_REG_SECCOUNT0 v =
      s.setChan i { c with count := c.count.push v } ∧
    (s.setChan i c).ideWrite i ATA_REG_LBA0 v = s.setChan i { c with lba0 := c.lba0.push v } ∧
    (s.setChan i c).ideWrite i ATA_REG_LBA1 v = s.setChan i { c with lba1 := c.lba1.push v } ∧
    (s.setChan i c).ideWrite i ATA_REG_LBA2 v = s.setChan i { c with lba2 := c.lba2.push v } ∧
    (s.setChan i c).ideWrite i ATA_REG_COMMAND v = s.setChan i (c.command v) := by
  have hn : ¬ 0 < c.busy := by omega
  refine ⟨?_, ?_, ?_, ?_, ?_, ?_⟩ <;>
    rw [ideWrite_block (standard_setChan.mpr h) (by decide), setChan_ports_self, setChan_setChan,
      Chan.out8, if_neg hn] <;> rfl

/-- The second halves of the registers. -/
theorem write_hob_ready (h : s.Standard) (hb : c.busy = 0) (hc : c.control = (s.channels i).nIEN) :
    (s.setChan i c).ideWrite i ATA_REG_SECCOUNT1 v =
      s.setChan i { c with count := c.count.push v } ∧
    (s.setChan i c).ideWrite i ATA_REG_LBA3 v = s.setChan i { c with lba0 := c.lba0.push v } ∧
    (s.setChan i c).ideWrite i ATA_REG_LBA4 v = s.setChan i { c with lba1 := c.lba1.push v } ∧
    (s.setChan i c).ideWrite i ATA_REG_LBA5 v = s.setChan i { c with lba2 := c.lba2.push v } := by
  have hn : ¬ 0 < c.busy := by omega
  refine ⟨?_, ?_, ?_, ?_⟩ <;>
    rw [ideWrite_hob (standard_setChan.mpr h) (by decide) (by decide), setChan_ports_self,
      setChan_setChan, setChan_channels, Chan.out8, if_neg hn, ← hc] <;> rfl

/-- **The registers of a transfer**, as the driver leaves them. -/
theorem writeAddress_eq (h : s.Standard) (hb : c.busy = 0) (hc : c.control = (s.channels i).nIEN) :
    (s.setChan i c).writeAddress i slavebit io numsects
      = s.setChan i (c.addressed slavebit io numsects) := by
  unfold writeAddress Chan.addressed
  by_cases hm : io.mode = .lba48
  · simp only [hm, reduceCtorEq, if_false, if_true, write_ready h, write_hob_ready
      h, hb, hc, Latch.push]
  · by_cases hs : io.mode = .chs
    · simp only [hs, if_true, reduceCtorEq, if_false, write_ready h, hb]
    · simp only [hm, hs, if_false, write_ready h, hb]

end Ide

end OwnOS.Ata
