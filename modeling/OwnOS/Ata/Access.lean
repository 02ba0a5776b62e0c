import OwnOS.Ata.Transfer

/-!
# One command (`ide_ata_access`, `ide_read_sectors`, `ide_write_sectors`)

From any state of the channel, a transfer left half way included, `ide_ata_access` gives the drive
its command and moves the sectors. `Ok` is what it needs of the state and keeps; `target` is the
sector that the drive is told (`Address.lean`).

* `ideAtaAccess_read`, `ideAtaAccess_write`: **what the command leaves** in the buffer and on the
  drive.
* `ideReadSectors_eq`, `ideWriteSectors_eq`: the same behind the checks of the two callers. A drive
  that is not there and a range that does not end on the drive are refused, and nothing is touched.
-/

namespace OwnOS.Ata

open Lib

namespace Ide

/-- What the driver needs: the ports of a PC, and drives that answer before the fuel runs out. -/
structure Ok (fuel : Nat) (s : Ide) : Prop where
  standard : s.Standard
  busy : ∀ i, (s.ports i).busy < fuel
  delay : ∀ i k, (s.ports i).delay k < fuel
  sane : ∀ i, (s.ports i).Sane

/-- The drives of the machine. -/
def media (s : Ide) (i j : Fin 2) : Media := (s.ports i).media j

/-- The drive of an entry. -/
def drive (s : Ide) (d : Fin 4) : Media := s.media (s.ideDevices d).channel (s.ideDevices d).drive

/-- The drives after a write to the drive of an entry. -/
def mediaWith (s : Ide) (d : Fin 4) (b : Buf) : Fin 2 → Fin 2 → Media :=
  Function.update s.media (s.ideDevices d).channel
    (Function.update (s.media (s.ideDevices d).channel) (s.ideDevices d).drive
      { s.drive d with byte := b })

/-- The sector that the drive of an entry is told. -/
def target (s : Ide) (d : Fin 4) (lba : UInt32) : Nat :=
  if (lbaIo (s.ideDevices d).capabilities lba).mode = .chs then lba.toNat % chsSectors
  else lba.toNat

/-- The channel when the registers of a transfer are written. -/
def started (s : Ide) (d : Fin 4) (lba : UInt32) (numsects : UInt8) : Chan :=
  ({ s.ports (s.ideDevices d).channel with control := 2 } : Chan).ready.addressed
    (s.ideDevices d).drive (lbaIo (s.ideDevices d).capabilities lba) numsects

theorem mediaWith_self (s : Ide) (d : Fin 4) : s.mediaWith d (s.drive d).byte = s.media := by
  have hd : ({ s.drive d with byte := (s.drive d).byte } : Media) =
      s.media (s.ideDevices d).channel (s.ideDevices d).drive := rfl
  rw [mediaWith, hd, Function.update_eq_self, Function.update_eq_self]

variable {s s' : Ide} {fuel edi : Nat} {d : Fin 4} {lba : UInt32} {numsects : UInt8}
  {b : Buf} {mode : LbaMode} {dir : Direction} {c : Chan}

/-! ## The command -/

theorem medium_started : (s.started d lba numsects).medium = s.drive d := by
  unfold Chan.medium
  rw [show (s.started d lba numsects).selected = _ from Chan.selected_addressed (lbaIo_head ..)]
  rfl

theorem command_read (hk : c.medium.kind = .ata) :
    c.command (cmd mode .read) = c.sector false (c.address mode) (c.sectors mode) := by
  rw [Chan.command, hk]
  cases mode <;> rfl

theorem command_write (hk : c.medium.kind = .ata) :
    c.command (cmd mode .write) = c.sector true (c.address mode) (c.sectors mode) := by
  rw [Chan.command, hk]
  cases mode <;> rfl

/-- The drive is told no fewer sectors than are moved. -/
theorem le_sectors (c : Chan) (slavebit : Fin 2) (io : LbaIo) (numsects : UInt8) :
    numsects.toNat ≤ (c.addressed slavebit io numsects).sectors io.mode := by
  by_cases h : numsects = 0
  · rw [h]
    exact Nat.zero_le _
  · rw [Chan.sectors_addressed h]

theorem ideWrite_ideDevices (h : s.Standard) (i : Fin 2) (v : UInt8) :
    (s.ideWrite i ATA_REG_CONTROL v).ideDevices = s.ideDevices := by
  rw [ideWrite_control h, setChan_ideDevices]

/-- Up to the command: the wait, the registers and the sector. -/
theorem started_eq (hs : s.Ok fuel) (d : Fin 4) (lba : UInt32) (numsects : UInt8)
    (dir : Direction) :
    let ch := (s.ideDevices d).channel
    let io := lbaIo (s.ideDevices d).capabilities lba
    (((s.setNIEN ch 2).ideWrite ch ATA_REG_CONTROL 2).waitBsy ch fuel >>= fun t =>
        (.ok ((t.writeAddress ch (s.ideDevices d).drive io numsects).ideWrite ch ATA_REG_COMMAND
          (cmd io.mode dir)) : Res Ide))
      = .ok ((s.setNIEN ch 2).setChan ch
          ((s.started d lba numsects).command (cmd io.mode dir))) := by
  intro ch io
  have hstd : (s.setNIEN ch 2).Standard := standard_setNIEN hs.standard
  have hn : ((s.setNIEN ch 2).channels ch).nIEN = 2 := by simp [setNIEN]
  rw [ideWrite_control hstd, waitBsy_eq (standard_setChan.mpr hstd)]
  · rw [Res.ok_bind, setChan_ports_self, setChan_setChan, writeAddress_eq hstd rfl]
    · rw [(write_ready hstd rfl).2.2.2.2.2]
      rfl
    · exact hn.symm
  · rw [setChan_ports_self]
    exact hs.sane ch
  · rw [setChan_ports_self]
    exact hs.busy ch

/-! ## What a command leaves -/

/-- The driver goes on, with the same table of drives. -/
structure Next (fuel : Nat) (s s' : Ide) : Prop where
  ok : s'.Ok fuel
  ideDevices : s'.ideDevices = s.ideDevices

theorem Next.trans {s'' : Ide} (h : Next fuel s s') (h' : Next fuel s' s'') : Next fuel s s'' :=
  ⟨h'.ok, h'.ideDevices.trans h.ideDevices⟩

theorem Ok.next (hs : s.Ok fuel) : Next fuel s s := ⟨hs, rfl⟩

/-- The state with the channel of the command where the command left it. -/
theorem next_setChan {i : Fin 2} {c' : Chan} (hs : s.Ok fuel) (hk : c.medium.kind ≠ .absent)
    (h : c.Later fuel c') : Next fuel s ((s.setNIEN i 2).setChan i c') := by
  refine ⟨⟨standard_setNIEN hs.standard, fun j => ?_, fun j => ?_, fun j => ?_⟩, rfl⟩
  all_goals by_cases hj : j = i
  · subst hj
    rw [setChan_ports_self]
    exact h.busy
  · rw [setChan_ports_of_ne hj]
    exact hs.busy j
  · subst hj
    rw [setChan_ports_self]
    exact h.delay
  · rw [setChan_ports_of_ne hj]
    exact hs.delay j
  · subst hj
    rw [setChan_ports_self]
    exact fun ha => absurd (h.medium ▸ ha) hk
  · rw [setChan_ports_of_ne hj]
    exact hs.sane j

theorem media_setChan {i : Fin 2} {m : Fin 2 → Media} (h : c.media = m) :
    ((s.setNIEN i 2).setChan i c).media = Function.update s.media i m := by
  funext j k
  by_cases hj : j = i
  · subst hj
    rw [Function.update_self, media, setChan_ports_self, h]
  · rw [Function.update_of_ne hj, media, setChan_ports_of_ne hj]
    rfl

theorem delay_started (hs : s.Ok fuel) :
    ∀ k, (s.started d lba numsects).delay k < fuel := hs.delay _

/-- The channel of an entry. -/
abbrev chan (s : Ide) (d : Fin 4) : Fin 2 := (s.ideDevices d).channel

/-- The state when the drive has its command. -/
def commanded (s : Ide) (d : Fin 4) (lba : UInt32) (numsects : UInt8) (dir : Direction) : Ide :=
  (s.setNIEN (s.chan d) 2).setChan (s.chan d)
    ((s.started d lba numsects).command (cmd (lbaIo (s.ideDevices d).capabilities lba).mode dir))

theorem commanded_read (hs : s.Ok fuel) (hk : (s.drive d).kind = .ata) (lba : UInt32)
    (numsects : UInt8) (b : Buf) (edi : Nat) :
    ∃ c', (s.commanded d lba numsects .read).pioRead fuel (s.chan d) (pcBase (s.chan d))
      numsects.toNat b edi
        = .ok ((s.drive d).readCode (s.target d lba) numsects.toNat,
          (s.setNIEN (s.chan d) 2).setChan (s.chan d) c',
          b.put edi (512 * (s.drive d).good (s.target d lba) numsects.toNat) fun k =>
            (s.drive d).byte (512 * s.target d lba + k)) ∧
      (s.started d lba numsects).Later fuel c' := by
  have hm : (s.started d lba numsects).medium = s.drive d := medium_started
  have haddr : (s.started d lba numsects).address _ = s.target d lba := address_addressed ..
  rw [commanded, command_read (hm ▸ hk), haddr, ← hm]
  exact pioRead_eq (standard_setNIEN hs.standard) (by rw [hm, hk]; decide)
    (delay_started hs) (le_sectors ..)

/-- **A read command**: the good sectors are in the buffer, and the drives are as they were. -/
theorem ideAtaAccess_read (hs : s.Ok fuel) (hk : (s.drive d).kind = .ata) (lba : UInt32)
    (numsects : UInt8) (b : Buf) (edi : Nat) :
    ∃ s', s.ideAtaAccess fuel .read d lba numsects b edi
        = .ok ((s.drive d).readCode (s.target d lba) numsects.toNat, s',
          b.put edi (512 * (s.drive d).good (s.target d lba) numsects.toNat) fun k =>
            (s.drive d).byte (512 * s.target d lba + k)) ∧
      Next fuel s s' ∧ s'.media = s.media := by
  have hne : (s.started d lba numsects).medium.kind ≠ .absent := by
    rw [medium_started, hk]
    decide
  obtain ⟨t, ht, hcmd⟩ := Res.bind_eq_ok.mp (started_eq hs d lba numsects .read)
  obtain ⟨c', hc', hl⟩ := commanded_read hs hk lba numsects b edi
  refine ⟨(s.setNIEN (s.chan d) 2).setChan (s.chan d) c', ?_, next_setChan hs hne hl, ?_⟩
  · rw [ideAtaAccess]
    dsimp only
    rw [show (0x0 + 0x02 : UInt8) = 2 from rfl, ideWrite_ideDevices (standard_setNIEN hs.standard),
      (hs.standard _).1, ht, Res.ok_bind, ← hc', commanded, ← Except.ok.inj hcmd]
    rfl
  · rw [media_setChan hl.media]
    exact Function.update_eq_self ..

/-- The flush is written right after the last word. A drive that is still busy does not see it. -/
theorem later_flush (mode : LbaMode) (hk : c.medium.kind = .ata) (hb : c.busy < fuel)
    (hd : ∀ k, c.delay k < fuel) : c.Later fuel (c.out8 7 (flushCmd mode)) := by
  unfold Chan.out8
  by_cases h0 : 0 < c.busy
  · rw [if_pos h0]
    exact ⟨rfl, rfl, rfl, hb, hd⟩
  · have hc : c.command (flushCmd mode) = { c.wait with phase := .idle } := by
      rw [Chan.command, hk]
      cases mode <;> rfl
    rw [if_neg h0]
    change c.Later fuel (c.command (flushCmd mode))
    rw [hc]
    exact ⟨rfl, rfl, rfl, hd 0, fun k => hd (k + 1)⟩

theorem commanded_write (hs : s.Ok fuel) (hk : (s.drive d).kind = .ata) (lba : UInt32)
    (numsects : UInt8) (b : Buf) (edi : Nat) :
    ∃ c', pioWrite fuel (s.chan d) (pcBase (s.chan d)) b numsects.toNat
      (s.commanded d lba numsects .write) edi
        = .ok ((s.setNIEN (s.chan d) 2).setChan (s.chan d) c') ∧
      ((s.started d lba numsects).setByte ((s.drive d).byte.put (512 * s.target d lba)
        (512 * (s.drive d).good (s.target d lba) numsects.toNat) fun k =>
          b (edi + k))).Later fuel c' := by
  have hm : (s.started d lba numsects).medium = s.drive d := medium_started
  have haddr : (s.started d lba numsects).address _ = s.target d lba := address_addressed ..
  rw [commanded, command_write (hm ▸ hk), haddr, ← hm]
  exact pioWrite_eq (standard_setNIEN hs.standard) (by rw [hm, hk]; decide)
    (delay_started hs) (le_sectors ..)

/-- **A write command**: the bytes are in the good sectors, and nothing else on any drive
changes. -/
theorem ideAtaAccess_write (hs : s.Ok fuel) (hk : (s.drive d).kind = .ata) (lba : UInt32)
    (numsects : UInt8) (b : Buf) (edi : Nat) :
    ∃ s', s.ideAtaAccess fuel .write d lba numsects b edi = .ok (0, s', b) ∧ Next fuel s s' ∧
      s'.media = s.mediaWith d ((s.drive d).byte.put (512 * s.target d lba)
        (512 * (s.drive d).good (s.target d lba) numsects.toNat) fun k => b (edi + k)) := by
  have hstd : (s.setNIEN (s.chan d) 2).Standard := standard_setNIEN hs.standard
  have hm : (s.started d lba numsects).medium = s.drive d := medium_started
  have hsel : (s.started d lba numsects).selected = (s.ideDevices d).drive :=
    Chan.selected_addressed (lbaIo_head ..)
  obtain ⟨t, ht, hcmd⟩ := Res.bind_eq_ok.mp (started_eq hs d lba numsects .write)
  obtain ⟨c', hc', hl⟩ := commanded_write hs hk lba numsects b edi
  generalize hnew : ((s.drive d).byte.put (512 * s.target d lba)
    (512 * (s.drive d).good (s.target d lba) numsects.toNat) fun k => b (edi + k)) = new at hl ⊢
  have hk' : c'.medium.kind = .ata := by
    rw [hl.medium, Chan.medium_setByte, hm]
    exact hk
  let mode := (lbaIo (s.ideDevices d).capabilities lba).mode
  have hflush := hl.trans (later_flush mode hk' hl.busy hl.delay)
  have hpoll :
      ((s.setNIEN (s.chan d) 2).setChan (s.chan d) (c'.out8 7 (flushCmd mode))).idePolling fuel
      (s.chan d) false = _ := idePolling_plain (standard_setChan.mpr hstd)
    (by rw [setChan_ports_self, Chan.Sane, hflush.medium, Chan.medium_setByte, hm]
        exact fun ha => absurd (hk.symm.trans ha) (by decide))
    (by rw [setChan_ports_self]; exact hflush.busy)
  rw [setChan_ports_self, setChan_setChan] at hpoll
  have hwrite : ((s.setNIEN (s.chan d) 2).setChan (s.chan d) c').ideWrite (s.chan d) ATA_REG_COMMAND
      (flushCmd mode) = (s.setNIEN (s.chan d) 2).setChan (s.chan d)
        (c'.out8 7 (flushCmd mode)) := by
    rw [ideWrite_block (standard_setChan.mpr hstd) (by decide), setChan_ports_self, setChan_setChan]
    rfl
  refine ⟨(s.setNIEN (s.chan d) 2).setChan (s.chan d) (c'.out8 7 (flushCmd mode)).ready, ?_,
    next_setChan hs (by rw [Chan.medium_setByte, hm, hk]; decide) hflush.ready, ?_⟩
  · rw [ideAtaAccess]
    dsimp only
    rw [show (0x0 + 0x02 : UInt8) = 2 from rfl, ideWrite_ideDevices hstd, (hs.standard _).1, ht,
      Res.ok_bind]
    have hsec : pioWrite fuel (s.chan d) (pcBase (s.chan d)) b numsects.toNat _ edi = _ :=
      (congrArg (fun t => pioWrite fuel (s.chan d) (pcBase (s.chan d)) b numsects.toNat t edi)
        (Except.ok.inj hcmd)).trans hc'
    refine (congrArg (· >>= _) hsec).trans ?_
    rw [Res.ok_bind]
    refine (congrArg (fun t : Ide => t.idePolling fuel (s.chan d) false >>= _) hwrite).trans ?_
    rw [hpoll]
    rfl
  · rw [media_setChan hflush.ready.media]
    have hmedia : ((s.started d lba numsects).setByte new).media = Function.update
        ((s.ports (s.chan d)).media) (s.started d lba numsects).selected
        { (s.started d lba numsects).medium with byte := new } := rfl
    rw [hmedia, hsel, hm]
    rfl

/-! ## The two callers -/

/-- Reading the error register changes nothing. -/
theorem idePrintError_state (h : s.Standard) (d : Fin 4) (err : UInt8) :
    (s.idePrintError d err).2 = s := by
  have hr : (s.ideRead (s.ideDevices d).channel ATA_REG_ERROR).2 = s := by
    rw [ideRead_block h (by decide)]
    exact setChan_self
  unfold idePrintError
  split
  · rfl
  split
  · rfl
  split
  · exact hr
  split
  · rfl
  split <;> rfl

theorem errorBits_ne_zero (st : UInt8) : errorBits st ≠ 0 := by
  unfold errorBits
  dsimp only
  split_ifs <;> decide

/-- The answer in `package[0]` is 0 for no error only. -/
theorem idePrintError_eq_zero_iff (err : UInt8) : (s.idePrintError d err).1 = 0 ↔ err = 0 := by
  unfold idePrintError
  split_ifs with h0 h1 h2 h3 h4
  · exact Iff.rfl
  · simp [h1]
  · simp [errorBits_ne_zero, h2]
  · simp [h3]
  · simp [h4]
  · exact Iff.rfl

end Ide

theorem Media.readCode_eq_zero_iff {m : Media} {lba n : Nat} :
    m.readCode lba n = 0 ↔ m.good lba n = n := by
  induction n generalizing lba with
  | zero => exact ⟨fun _ => rfl, fun _ => rfl⟩
  | succ n ih =>
    cases hf : m.faultAt lba with
    | none => rw [Media.readCode_cons hf, Media.good_cons hf, ih, Nat.add_right_cancel_iff]
    | some f =>
      rw [Media.readCode_fault hf, Media.good_fault hf]
      exact ⟨fun h => absurd h f.code_ne_zero, fun h => absurd h (by omega)⟩

namespace Ide

variable {s : Ide} {fuel edi : Nat} {d : Fin 4} {lba : UInt32}
  {numsects ataDrive junkErr : UInt8} {b : Buf}

/-- The object reads a disk that the driver has found. -/
structure Mounted (s : Ide) (ataDrive : UInt8) (d : Fin 4) : Prop where
  index : driveIndex ataDrive = some d
  reserved : (s.ideDevices d).reserved ≠ 0
  type : (s.ideDevices d).type = IDE_ATA
  kind : (s.drive d).kind = .ata

/-- The range is past the end of the drive, as the driver computes it. -/
theorem ideReadSectors_refused (hm : s.Mounted ataDrive d)
    (h : lba + numsects.toUInt32 > (s.ideDevices d).size) :
    s.ideReadSectors fuel junkErr ataDrive numsects lba b edi = .ok (0x2, s, b) := by
  simp only [ideReadSectors, hm.index, hm.reserved, hm.type, h, and_self, if_true, if_false]

theorem ideWriteSectors_refused (hm : s.Mounted ataDrive d)
    (h : lba + numsects.toUInt32 > (s.ideDevices d).size) :
    s.ideWriteSectors fuel junkErr ataDrive numsects lba b edi = .ok (0x2, s) := by
  simp only [ideWriteSectors, hm.index, hm.reserved, hm.type, h, and_self, if_true, if_false]

/-- **Reading sectors**: the good ones are in the buffer, and `package[0]` is 0 when all of them are
good. -/
theorem ideReadSectors_eq (hs : s.Ok fuel) (hm : s.Mounted ataDrive d)
    (h : ¬ lba + numsects.toUInt32 > (s.ideDevices d).size) (junkErr : UInt8) (b : Buf)
    (edi : Nat) :
    ∃ package s', s.ideReadSectors fuel junkErr ataDrive numsects lba b edi
        = .ok (package, s',
          b.put edi (512 * (s.drive d).good (s.target d lba) numsects.toNat) fun k =>
            (s.drive d).byte (512 * s.target d lba + k)) ∧
      (package = 0 ↔ (s.drive d).good (s.target d lba) numsects.toNat = numsects.toNat) ∧
      Next fuel s s' ∧ s'.media = s.media := by
  obtain ⟨s', hr, hn, hmedia⟩ := ideAtaAccess_read hs hm.kind lba numsects b edi
  refine ⟨(s'.idePrintError d ((s.drive d).readCode (s.target d lba) numsects.toNat)).1,
    s', ?_, ?_, hn, hmedia⟩
  · simp only [ideReadSectors, hm.index, hm.reserved, hm.type, h, false_and, if_true,
      if_false, hr, Res.ok_bind, idePrintError_state hn.ok.standard]
  · rw [idePrintError_eq_zero_iff, Media.readCode_eq_zero_iff]

/-- **Writing sectors**: the bytes are in the good ones, and `package[0]` is 0 whatever the drive
says. -/
theorem ideWriteSectors_eq (hs : s.Ok fuel) (hm : s.Mounted ataDrive d)
    (h : ¬ lba + numsects.toUInt32 > (s.ideDevices d).size) (junkErr : UInt8) (b : Buf)
    (edi : Nat) :
    ∃ s', s.ideWriteSectors fuel junkErr ataDrive numsects lba b edi = .ok (0, s') ∧
    Next fuel s s' ∧
      s'.media = s.mediaWith d ((s.drive d).byte.put (512 * s.target d lba)
        (512 * (s.drive d).good (s.target d lba) numsects.toNat) fun k => b (edi + k)) := by
  obtain ⟨s', hr, hn, hmedia⟩ := ideAtaAccess_write hs hm.kind lba numsects b edi
  refine ⟨s', ?_, hn, hmedia⟩
  simp only [ideWriteSectors, hm.index, hm.reserved, hm.type, h, false_and, if_true,
    if_false, hr, Res.ok_bind]
  rfl

end Ide

/-! ## Disks of 100 sectors -/

/-- A disk that takes sector numbers and answers at once. -/
def hundredSectors : Media where
  kind := .ata
  capacity := 100
  byte := fun k => UInt8.ofNat k
  fault := fun _ => none
  ident := fun k => if k = 99 then 2 else if k = 120 then 100 else 0

/-- Such disks everywhere, and the table that starts with the first of them. -/
def fourDisks : Ide where
  channels := fun i => ⟨pcBase i, pcCtrl i, 0, 2⟩
  ideDevices := fun _ => Ide.entryOf IDE_ATA 0 0 hundredSectors.ident
  ports := fun _ => ⟨fun _ => hundredSectors, ⟨0, 0⟩, ⟨0, 0⟩, ⟨0, 0⟩, ⟨0, 0⟩, 0, 0,
    .idle, 0, fun _ => 0⟩

theorem fourDisks_ok : fourDisks.Ok 1 :=
  ⟨fun _ => ⟨rfl, rfl⟩, fun _ => Nat.one_pos, fun _ _ => Nat.one_pos, fun _ _ => rfl⟩

theorem fourDisks_mounted : fourDisks.Mounted 0 0 := ⟨rfl, by decide, rfl, rfl⟩

end OwnOS.Ata
