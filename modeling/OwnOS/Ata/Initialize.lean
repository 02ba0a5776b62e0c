import OwnOS.Ata.Store

/-!
# Finding the drives (`ide_initialize`)

The driver asks each of the four places of a drive who is there, and makes an entry for each that
answers. A place without a drive leaves no gap: the next drive gets the entry.

`Cold` is the hardware before. A drive for packets is read right after it is asked a second time,
without a wait, so it has to answer at once.

* `probe_eq`: one place.
* `ideInitialize_eq`: **the table after the four places**: an entry for each drive, in the order of
  the places, with what the drive says of itself, and no other entry.
* `mounted_of_entry`: an `Ata` object with the number of a disk in this order is `Mounted`.
* `started_store`: **from the cold machine on**, each disk that was found is a store of bytes.
-/

namespace OwnOS.Ata

open Lib

/-- The entry of a drive. -/
def Media.entry (m : Media) (i j : Fin 2) : Option IdeDevice :=
  match m.kind with
  | .absent => none
  | .ata => some (Ide.entryOf IDE_ATA i j m.ident)
  | .atapi => some (Ide.entryOf IDE_ATAPI i j m.ident)

namespace Chan

variable {c : Chan} {w : Nat}

theorem status_ne_zero (hk : c.medium.kind ≠ .absent) : c.status ≠ 0 := by
  unfold status
  rw [if_neg hk]
  split
  · decide
  · rcases Phase.status_cases c.phase with h | h | h | h <;> rw [h] <;> decide

theorem status_absent (hk : c.medium.kind = .absent) : c.status = 0 := if_pos hk

/-- The channel while it gives its identification. -/
def identified (c : Chan) (w : Nat) : Chan := c.atPhase (if w < 256 then .identify w else .idle)

theorem in16_identified (hb : c.busy = 0) (hw : w < 256) :
    (c.identified w).in16 = (c.medium.ident.le16 (2 * w), c.identified (w + 1)) := by
  have hb' : ¬ 0 < (c.identified w).busy := by
    change ¬ 0 < c.busy
    omega
  have hph : (c.identified w).phase = .identify w := if_pos hw
  rw [in16, if_neg hb', hph]
  rfl

end Chan

namespace Ide

variable {s : Ide} {fuel : Nat} {i j : Fin 2} {c : Chan} {b : Buf} {count : Nat}

/-- The wait for the answer to `IDENTIFY` ends, with or without the bit `ERR`. -/
theorem waitIdentify_eq (h : s.Standard) (hk : c.medium.kind ≠ .absent) (hb : c.busy < fuel)
    (err : Bool) (hst : c.phase.status = if err then 0x51 else 0x58) :
    (s.setChan i c).waitIdentify i fuel = .ok (err, s.setChan i c.ready) := by
  induction fuel generalizing c with
  | zero => omega
  | succ fuel ih =>
    rw [waitIdentify, ideRead_status (standard_setChan.mpr h), setChan_ports_self, setChan_setChan]
    by_cases h0 : c.busy = 0
    · have hc : c.poll.2 = c.ready := by rw [Chan.poll_chan, Chan.ready, h0]
      have hs : c.status = c.phase.status := by
        rw [Chan.status, if_neg hk, if_neg (by omega)]
      rw [hc, hs, hst]
      cases err <;> rfl
    · have hs : c.status = 0x80 := Chan.status_of_busy (fun ha => absurd ha hk) (by omega)
      have hstep := @ih c.poll.2 hk (by rw [Chan.poll_chan]; dsimp only; omega) hst
      rw [hs]
      exact hstep

/-- The identification, for a drive that is ready to give it. -/
theorem readIdent_eq (h : s.Standard) (hb : c.busy = 0) (hph : c.phase = .identify 0) :
    (s.setChan i c).ideReadBuffer i ATA_REG_DATA b 128 =
      (s.setChan i (c.atPhase .idle), b.put 0 512 c.medium.ident) := by
  have h0 : c.identified 0 = c := by
    rw [Chan.identified, if_pos (by decide), ← hph]
    rfl
  have hread : (s.setChan i (c.identified 0)).insw (pcBase i) 256 b 0 = _ :=
    insw_eq _ _ fun k hk => Chan.in16_identified hb hk
  rw [h0] at hread
  have hport : portOf ((s.setChan i c).channels i) ATA_REG_DATA = some (pcBase i + 0) :=
    portOf_block h (by decide)
  rw [ideReadBuffer, toggle_block (by decide), hport]
  dsimp only
  rw [UInt16.add_zero, hread]
  dsimp only
  rw [toggle_block (by decide)]
  rfl

/-- The entry holds what the drive says of itself. -/
theorem entryOf_put (type : UInt16) (i j : Fin 2) (b src : Buf) :
    entryOf type i j (b.put 0 512 src) = entryOf type i j src := by
  have hbyte {k : Nat} (hk : k < 512) : b.put 0 512 src k = src k := Buf.put_zero_apply hk
  have h16 (o : Nat) (ho : o + 2 ≤ 512) : (b.put 0 512 src).le16 o = src.le16 o :=
    Buf.le16_congr fun k hk => hbyte (by omega)
  have h32 (o : Nat) (ho : o + 4 ≤ 512) : (b.put 0 512 src).le32 o = src.le32 o :=
    Buf.le32_congr fun k hk => hbyte (by omega)
  unfold entryOf
  rw [h16 _ (by decide), h16 _ (by decide), h32 _ (by decide), h32 _ (by decide), h32 _ (by decide)]
  refine congrArg (IdeDevice.mk _ _ _ _ _ _ _ _) (funext fun k => ?_)
  have := k.isLt
  unfold ATA_IDENT_MODEL
  split
  · rfl
  split
  · exact hbyte (by omega)
  · exact hbyte (by omega)

/-! ## One place -/

/-- The hardware before the driver: nothing is under way, the drives answer before the fuel runs
out, and a drive for packets answers at once. -/
structure Cold (fuel : Nat) (ports : Ports) : Prop where
  busy : ∀ i, (ports i).busy = 0
  delay : ∀ i k, (ports i).delay k < fuel
  prompt : ∀ i j, ((ports i).media j).kind = .atapi → ∀ k, (ports i).delay k = 0

/-- The driver while it asks. -/
structure Probing (fuel : Nat) (s : Ide) : Prop where
  standard : s.Standard
  control : ∀ i, (s.ports i).control &&& 0x80 = 0
  cold : Cold fuel s.ports

/-- A channel that has been asked is as quiet as before. -/
structure Asked (c c' : Chan) : Prop where
  media : c'.media = c.media
  control : c'.control = c.control
  busy : c'.busy = 0
  delay : ∀ k, ∃ k', c'.delay k = c.delay k'

theorem Probing.setChan {c' : Chan} (h : Probing fuel s) (ha : Asked (s.ports i) c') :
    Probing fuel (s.setChan i c') := by
  refine ⟨h.standard, fun k => ?_, fun k => ?_, fun k n => ?_, fun k n hk m => ?_⟩
  all_goals by_cases hki : k = i
  · subst hki
    rw [setChan_ports_self, ha.control]
    exact h.control k
  · rw [setChan_ports_of_ne hki]
    exact h.control k
  · subst hki
    rw [setChan_ports_self]
    exact ha.busy
  · rw [setChan_ports_of_ne hki]
    exact h.cold.busy k
  · subst hki
    obtain ⟨k', hk'⟩ := ha.delay n
    rw [setChan_ports_self, hk']
    exact h.cold.delay k k'
  · rw [setChan_ports_of_ne hki]
    exact h.cold.delay k n
  · subst hki
    rw [setChan_ports_self] at hk ⊢
    obtain ⟨k', hk'⟩ := ha.delay m
    rw [hk']
    exact h.cold.prompt k n (ha.media ▸ hk) k'
  · rw [setChan_ports_of_ne hki] at hk ⊢
    exact h.cold.prompt k n hk m

theorem media_setChan_of_media {c' : Chan} (h : c'.media = (s.ports i).media) :
    (s.setChan i c').media = s.media := by
  funext k n
  by_cases hki : k = i
  · subst hki
    rw [media, setChan_ports_self, h]
    rfl
  · rw [media, setChan_ports_of_ne hki]
    rfl

/-- The register value that selects a drive. -/
def selectOf (j : Fin 2) : UInt8 := (0xA0 : UInt8) ||| UInt8.ofNat j.val <<< 4

theorem selected_selectOf : ({ c with select := selectOf j } : Chan).selected = j := by
  have h : ∀ j : Fin 2, (if selectOf j &&& 0x10 = 0 then (0 : Fin 2) else 1) = j := by decide
  exact h j

/-- The channel when the drive `j` has been asked to identify itself. -/
def asked (c : Chan) (j : Fin 2) : Chan :=
  ({ c with select := selectOf j } : Chan).command ATA_CMD_IDENTIFY

theorem medium_selectOf : ({ c with select := selectOf j } : Chan).medium = c.media j := by
  unfold Chan.medium
  rw [selected_selectOf]

theorem asked_absent (h : (c.media j).kind = .absent) :
    asked c j = { c with select := selectOf j } := by
  rw [asked, Chan.command, medium_selectOf, h]

theorem asked_ata (h : (c.media j).kind = .ata) :
    asked c j = { ({ c with select := selectOf j } : Chan).wait with phase := .identify 0 } := by
  rw [asked, Chan.command, medium_selectOf, h]
  rfl

theorem asked_atapi (h : (c.media j).kind = .atapi) :
    asked c j = { ({ c with select := selectOf j } : Chan).abort with
      lba1 := c.lba1.push 0x14, lba2 := c.lba2.push 0xEB } := by
  rw [asked, Chan.command, medium_selectOf, h]
  rfl

/-- Selecting the drive and asking it. -/
theorem ask_eq (h : Probing fuel s) (i j : Fin 2) :
    (s.ideWrite i ATA_REG_HDDEVSEL (selectOf j)).ideWrite i ATA_REG_COMMAND ATA_CMD_IDENTIFY
      = s.setChan i (asked (s.ports i) j) := by
  have hb := h.cold.busy i
  have hsel := (write_ready (i := i) (c := s.ports i) (v := selectOf j) h.standard hb).1
  rw [setChan_self] at hsel
  rw [hsel, (write_ready h.standard
    (show ({ s.ports i with select := selectOf j } : Chan).busy = 0 from hb)).2.2.2.2.2]
  rfl

theorem Probing.setDevice (h : Probing fuel s) (n : Fin 4) (e : IdeDevice) :
    Probing fuel (s.setDevice n e) :=
  ⟨h.standard, h.control, h.cold⟩

/-- The entry that is free for the moment. -/
def cleared (s : Ide) (n : Fin 4) : Ide := s.setDevice n { s.ideDevices n with reserved := 0 }

/-- What asking a place leaves: the next entry if a drive is there. -/
structure AfterProbe (fuel : Nat) (s s' : Ide) (count count' : Nat) (e : Option IdeDevice) :
    Prop where
  probing : Probing fuel s'
  media : s'.media = s.media
  counted : count' = if e.isSome then count + 1 else count
  table : s'.ideDevices =
    e.elim (s.cleared (Fin.ofNat 4 count)).ideDevices
      (Function.update s.ideDevices (Fin.ofNat 4 count))

theorem cleared_self (s : Ide) (n : Fin 4) : ((s.cleared n).ideDevices n).reserved = 0 := by
  simp [cleared, Ide.setDevice]

theorem cleared_of_ne {n m : Fin 4} (h : m ≠ n) : (s.cleared n).ideDevices m = s.ideDevices m :=
  Function.update_of_ne h ..

/-- Up to the first look at the status. -/
theorem probe_start (h : Probing fuel s) (i j : Fin 2) (count : Nat) (b : Buf) :
    s.probe fuel i j count b =
      let c := asked (s.ports i) j
      let t := (s.cleared (Fin.ofNat 4 count)).setChan i c.poll.2
      if c.status = 0 then .ok (t, b, count) else t.identify fuel i j count b := by
  have hp : Probing fuel (s.cleared (Fin.ofNat 4 count)) := h.setDevice ..
  have hread :
      (((s.cleared (Fin.ofNat 4 count)).ideWrite i ATA_REG_HDDEVSEL (selectOf j)).ideWrite i
      ATA_REG_COMMAND ATA_CMD_IDENTIFY).ideRead i ATA_REG_STATUS = ((asked (s.ports i) j).status,
        (s.cleared (Fin.ofNat 4 count)).setChan i (asked (s.ports i) j).poll.2) := by
    rw [ask_eq hp i j, ideRead_status (standard_setChan.mpr hp.standard),
      setChan_ports_self, setChan_setChan]
    rfl
  unfold selectOf cleared at hread
  rw [probe]
  dsimp only
  rw [hread]
  rfl

theorem probe_absent (h : Probing fuel s) (hk : (s.media i j).kind = .absent) :
    ∃ s', s.probe fuel i j count b = .ok (s', b, count) ∧
    AfterProbe fuel s s' count count none := by
  have hm : (asked (s.ports i) j).medium.kind = .absent := by
    rw [asked_absent hk, medium_selectOf]
    exact hk
  have hpoll : Asked (s.ports i) (asked (s.ports i) j).poll.2 := by
    rw [asked_absent hk]
    exact ⟨rfl, rfl, congrArg (· - 1) (h.cold.busy i), fun k => ⟨k, rfl⟩⟩
  refine ⟨(s.cleared (Fin.ofNat 4 count)).setChan i (asked (s.ports i) j).poll.2, ?_,
    (h.setDevice ..).setChan hpoll, media_setChan_of_media hpoll.media, rfl, rfl⟩
  rw [probe_start h]
  exact if_pos (Chan.status_absent hm)

/-- The wait after the first look. -/
theorem waitIdentify_poll (h : s.Standard) (hk : c.medium.kind ≠ .absent) (hb : c.busy < fuel)
    (err : Bool) (hst : c.phase.status = if err then 0x51 else 0x58) :
    (s.setChan i c.poll.2).waitIdentify i fuel = .ok (err, s.setChan i c.ready) :=
  waitIdentify_eq (c := c.poll.2) h hk (lt_of_le_of_lt (Nat.sub_le _ _) hb) err hst

/-- The entry that a drive ready to identify itself gets. -/
theorem found_eq (h : s.Standard) (hb : c.busy = 0) (hph : c.phase = .identify 0) (j : Fin 2)
    (count : Nat) (b : Buf) (type : UInt16) :
    (s.setChan i c).found i j count b type =
      ((s.setDevice (Fin.ofNat 4 count) (entryOf type i j c.medium.ident)).setChan
        i (c.atPhase .idle), b.put 0 512 c.medium.ident, count + 1) := by
  rw [found, readIdent_eq h hb hph]
  dsimp only
  rw [entryOf_put]
  rfl

theorem setDevice_cleared (s : Ide) (n : Fin 4) (e : IdeDevice) :
    (s.cleared n).setDevice n e = s.setDevice n e := by
  unfold cleared setDevice
  rw [Function.update_idem]

theorem probe_ata (h : Probing fuel s) (hk : (s.media i j).kind = .ata) :
    ∃ s' b', s.probe fuel i j count b = .ok (s', b', count + 1) ∧
      AfterProbe fuel s s' count (count + 1) (some (entryOf IDE_ATA i j (s.media i j).ident)) := by
  have hp : Probing fuel (s.cleared (Fin.ofNat 4 count)) := h.setDevice ..
  obtain ⟨c, hc⟩ : ∃ c, c = asked (s.ports i) j := ⟨_, rfl⟩
  have hm : c.medium = s.media i j := by
    rw [hc, asked_ata hk]
    exact medium_selectOf
  have hne : c.medium.kind ≠ .absent := by
    rw [hm, hk]
    decide
  have hph : c.phase = .identify 0 := by rw [hc, asked_ata hk]
  have hasked : Asked (s.ports i) (c.ready.atPhase .idle) := by
    rw [hc, asked_ata hk]
    exact ⟨rfl, rfl, rfl, fun k => ⟨k + 1, rfl⟩⟩
  have hb : c.busy < fuel := by
    rw [hc, asked_ata hk]
    exact h.cold.delay i 0
  refine ⟨(s.setDevice (Fin.ofNat 4 count) (entryOf IDE_ATA i j (s.media i j).ident)).setChan i
    (c.ready.atPhase .idle), b.put 0 512 (s.media i j).ident, ?_, (h.setDevice ..).setChan hasked,
    media_setChan_of_media hasked.media, rfl, rfl⟩
  have hfound := found_eq (s := s.cleared (Fin.ofNat 4 count)) (i := i) (c := c.ready) hp.standard
    rfl hph j count b IDE_ATA
  rw [setDevice_cleared, show c.ready.medium = s.media i j from hm] at hfound
  rw [probe_start h, ← hc, ← hfound]
  dsimp only
  rw [if_neg (Chan.status_ne_zero hne), identify, waitIdentify_poll hp.standard hne hb
    false (by rw [hph]; rfl)]
  rfl

/-- A drive for packets shows its signature and answers the second question. -/
theorem identify_signature (h : s.Standard) (hk : c.medium.kind = .atapi) (hb : c.busy = 0)
    (hd : c.delay 0 = 0) (hc : c.control &&& 0x80 = 0) (h1 : c.lba1.cur = 0x14)
    (h2 : c.lba2.cur = 0xEB) (j : Fin 2) (count : Nat) (b : Buf) {c' : Chan}
    (hwait : (s.setChan i c').waitIdentify i fuel = .ok (true, s.setChan i c)) :
    (s.setChan i c').identify fuel i j count b =
      .ok ((s.setDevice (Fin.ofNat 4 count) (entryOf IDE_ATAPI i j c.medium.ident)).setChan i
        (c.wait.atPhase .idle), b.put 0 512 c.medium.ident, count + 1) := by
  have hr1 : (s.setChan i c).ideRead i ATA_REG_LBA1 = (0x14, s.setChan i c) := by
    rw [ideRead_block (standard_setChan.mpr h) (by decide), setChan_ports_self,
      setChan_setChan, ← h1]
    exact congrArg (·, s.setChan i c) (if_pos hc)
  have hr2 : (s.setChan i c).ideRead i ATA_REG_LBA2 = (0xEB, s.setChan i c) := by
    rw [ideRead_block (standard_setChan.mpr h) (by decide), setChan_ports_self,
      setChan_setChan, ← h2]
    exact congrArg (·, s.setChan i c) (if_pos hc)
  have hcmd : c.command ATA_CMD_IDENTIFY_PACKET = c.wait.atPhase (.identify 0) := by
    rw [Chan.command, hk]
    rfl
  have hfound := found_eq (s := s) (i := i) (c := c.wait.atPhase (.identify 0)) h hd
    rfl j count b IDE_ATAPI
  rw [identify, hwait, Res.ok_bind]
  dsimp only
  rw [if_pos rfl, hr1]
  dsimp only
  rw [hr2]
  dsimp only
  rw [if_pos (Or.inl ⟨rfl, rfl⟩), (write_ready h hb).2.2.2.2.2, hcmd, hfound]
  rfl

theorem probe_atapi (h : Probing fuel s) (hk : (s.media i j).kind = .atapi) :
    ∃ s' b', s.probe fuel i j count b = .ok (s', b', count + 1) ∧
      AfterProbe fuel s s' count (count + 1)
        (some (entryOf IDE_ATAPI i j (s.media i j).ident)) := by
  have hp : Probing fuel (s.cleared (Fin.ofNat 4 count)) := h.setDevice ..
  have hprompt : ∀ k, (s.ports i).delay k = 0 := h.cold.prompt i j hk
  obtain ⟨c, hc⟩ : ∃ c, c = asked (s.ports i) j := ⟨_, rfl⟩
  have hm : c.medium = s.media i j := by
    rw [hc, asked_atapi hk]
    exact medium_selectOf
  have hne : c.medium.kind ≠ .absent := by
    rw [hm, hk]
    decide
  have hph : c.phase = .failed (.error 0x04) := by rw [hc, asked_atapi hk]; rfl
  have hb : c.busy < fuel := by
    rw [hc, asked_atapi hk]
    exact h.cold.delay i 0
  have hasked : Asked (s.ports i) (c.ready.wait.atPhase .idle) := by
    rw [hc, asked_atapi hk]
    exact ⟨rfl, rfl, hprompt 1, fun k => ⟨k + 2, rfl⟩⟩
  refine ⟨(s.setDevice (Fin.ofNat 4 count) (entryOf IDE_ATAPI i j (s.media i j).ident)).setChan i
    (c.ready.wait.atPhase .idle), b.put 0 512 (s.media i j).ident, ?_,
      (h.setDevice ..).setChan hasked,
    media_setChan_of_media hasked.media, rfl, rfl⟩
  have hwait := waitIdentify_poll (i := i) hp.standard hne hb true (by rw [hph]; rfl)
  have hident := identify_signature (c := c.ready) hp.standard (hm ▸ hk) rfl
    (by rw [hc, asked_atapi hk]; exact hprompt 1)
    (by rw [hc, asked_atapi hk]; exact h.control i) (by rw [hc, asked_atapi hk]; rfl)
    (by rw [hc, asked_atapi hk]; rfl) j count b hwait
  rw [probe_start h, ← hc]
  dsimp only
  rw [if_neg (Chan.status_ne_zero hne), hident, setDevice_cleared, show c.ready.medium =
    s.media i j from hm]

/-- **One place.** -/
theorem probe_eq (h : Probing fuel s) (i j : Fin 2) (count : Nat) (b : Buf) :
    ∃ s' b' count', s.probe fuel i j count b = .ok (s', b', count') ∧
      AfterProbe fuel s s' count count' ((s.media i j).entry i j) := by
  unfold Media.entry
  cases hk : (s.media i j).kind with
  | absent =>
    obtain ⟨s', hp, ha⟩ := probe_absent (b := b) h hk
    exact ⟨s', b, count, hp, ha⟩
  | ata =>
    obtain ⟨s', b', hp, ha⟩ := probe_ata (b := b) h hk
    exact ⟨s', b', count + 1, hp, ha⟩
  | atapi =>
    obtain ⟨s', b', hp, ha⟩ := probe_atapi (b := b) h hk
    exact ⟨s', b', count + 1, hp, ha⟩

/-! ## The table -/

/-- The table holds these entries and no other. -/
def Table (s : Ide) (es : List IdeDevice) : Prop :=
  es.length ≤ 4 ∧ ∀ n : Fin 4, match es[n.val]? with
    | some e => s.ideDevices n = e
    | none => (s.ideDevices n).reserved = 0

theorem table_step {s' : Ide} {es : List IdeDevice} {count' : Nat} {e : Option IdeDevice}
    (ht : Table s es) (hlt : es.length < 4) (ha : AfterProbe fuel s s' es.length count' e) :
    Table s' (es ++ e.toList) ∧ count' = (es ++ e.toList).length := by
  have hn : (Fin.ofNat 4 es.length).val = es.length := Nat.mod_eq_of_lt hlt
  have hne {n : Fin 4} (h : n.val ≠ es.length) : n ≠ Fin.ofNat 4 es.length :=
    fun he => h (by rw [he, hn])
  have hlast : Fin.ofNat 4 es.length = ⟨es.length, hlt⟩ := Fin.ext hn
  cases e with
  | none =>
    have hdev : s'.ideDevices = (s.cleared (Fin.ofNat 4 es.length)).ideDevices := ha.table
    rw [Option.toList_none, List.append_nil]
    refine ⟨⟨ht.1, fun n => ?_⟩, ha.counted⟩
    have htn := ht.2 n
    rw [hdev]
    by_cases hne' : n = Fin.ofNat 4 es.length
    · have hnone : es[n.val]? = none := List.getElem?_eq_none (by rw [hne', hn])
      rw [hnone, hne']
      exact cleared_self ..
    · rw [cleared_of_ne hne']
      exact htn
  | some e =>
    have hdev : s'.ideDevices = Function.update s.ideDevices (Fin.ofNat 4 es.length) e := ha.table
    rw [Option.toList_some]
    refine ⟨⟨by rw [List.length_append]; exact hlt, fun n => ?_⟩,
      by rw [ha.counted, List.length_append]; rfl⟩
    have htn := ht.2 n
    rw [hdev]
    rcases Nat.lt_trichotomy n.val es.length with hlt' | heq | hgt
    · rw [List.getElem?_append_left hlt', Function.update_of_ne (hne (by omega))]
      exact htn
    · have hself : n = Fin.ofNat 4 es.length := Fin.ext (by rw [heq, hn])
      rw [List.getElem?_append_right (by omega), heq, Nat.sub_self, hself, Function.update_self]
      rfl
    · have hnone : (es ++ [e])[n.val]? = none :=
        List.getElem?_eq_none (by rw [List.length_append]; exact hgt)
      rw [List.getElem?_eq_none (by omega)] at htn
      rw [hnone, Function.update_of_ne (hne (by omega))]
      exact htn

/-- One more place. -/
theorem probe_table {es : List IdeDevice} (h : Probing fuel s) (ht : Table s es)
    (hlt : es.length < 4) (i j : Fin 2) (b : Buf) :
    ∃ s' b', s.probe fuel i j es.length b
        = .ok (s', b', (es ++ ((s.media i j).entry i j).toList).length) ∧ Probing fuel s' ∧
        s'.media = s.media ∧
      Table s' (es ++ ((s.media i j).entry i j).toList) := by
  obtain ⟨s', b', count', hp, ha⟩ := probe_eq h i j es.length b
  obtain ⟨ht', rfl⟩ := table_step ht hlt ha
  exact ⟨s', b', hp, ha.probing, ha.media, ht'⟩

/-- The entries of the drives, in the order of the places. -/
def entries (media : Fin 2 → Fin 2 → Media) : List IdeDevice :=
  [(0, 0), (0, 1), (1, 0), (1, 1)].flatMap fun p : Fin 2 × Fin 2 =>
    ((media p.1 p.2).entry p.1 p.2).toList

/-- The driver when the channels are set up. -/
def started0 (s : Ide) : Ide :=
  ((s.initChannels 0x1F0 0x3F4 0x170 0x374 0).ideWrite 0 ATA_REG_CONTROL 2).ideWrite 1
    ATA_REG_CONTROL 2

theorem standard_initChannels (s : Ide) : (s.initChannels 0x1F0 0x3F4 0x170 0x374 0).Standard := by
  intro i
  have hi : i = 0 ∨ i = 1 := by omega
  rcases hi with rfl | rfl
  · exact ⟨(by decide : barOr 0x1F0 0x1F0 = 0x1F0), (by decide : barOr 0x3F4 0x3F4 = 0x3F4)⟩
  · exact ⟨(by decide : barOr 0x170 0x170 = 0x170), (by decide : barOr 0x374 0x374 = 0x374)⟩

theorem probing_started0 (hc : Cold fuel s.ports) :
    Probing fuel s.started0 ∧ s.started0.media = s.media ∧
    s.started0.ideDevices = s.ideDevices := by
  have hstd := standard_initChannels s
  have heq : s.started0 = ((s.initChannels 0x1F0 0x3F4 0x170 0x374 0).setChan 0
    { s.ports 0 with control := 2 }).setChan 1
      { s.ports 1 with control := 2 } := by
    rw [started0, ideWrite_control hstd, ideWrite_control (standard_setChan.mpr hstd)]
    rfl
  have hport (i : Fin 2) : s.started0.ports i = { s.ports i with control := 2 } := by
    have hi : i = 0 ∨ i = 1 := by omega
    rw [heq]
    rcases hi with rfl | rfl
    · rw [setChan_ports_of_ne (by decide), setChan_ports_self]
    · rw [setChan_ports_self]
  refine ⟨⟨?_, fun i => ?_, fun i => ?_, fun i k => ?_, fun i j hk k => ?_⟩, ?_, ?_⟩
  · rw [heq]
    exact hstd
  · rw [hport]
    exact (by decide : (2 : UInt8) &&& 0x80 = 0)
  · rw [hport]
    exact hc.busy i
  · rw [hport]
    exact hc.delay i k
  · rw [hport] at hk ⊢
    exact hc.prompt i j hk k
  · funext i j
    rw [media, hport]
    rfl
  · rw [heq]
    rfl

/-- **The table of the drives**: an entry for each drive that is there, in the order of the places
and without a gap. -/
theorem ideInitialize_eq (hc : Cold fuel s.ports) (h0 : ∀ n, (s.ideDevices n).reserved = 0) :
    ∃ s', s.ideInitialize fuel 0x1F0 0x3F4 0x170 0x374 0 = .ok s' ∧ Probing fuel s' ∧
    s'.media = s.media ∧
      Table s' (entries s.media) := by
  obtain ⟨hp, hmedia, hdev⟩ := probing_started0 hc
  have ht : Table s.started0 [] := ⟨Nat.zero_le _, fun n => by rw [hdev]; exact h0 n⟩
  have hone (m : Media) (i j : Fin 2) : (m.entry i j).toList.length ≤ 1 := by
    cases m.entry i j with
    | none => exact Nat.zero_le 1
    | some e => exact le_refl 1
  have hle {es : List IdeDevice} {k : Nat} (m : Media) (i j : Fin 2) (h : es.length ≤ k) :
      (es ++ (m.entry i j).toList).length ≤ k + 1 := by
    rw [List.length_append]
    exact Nat.add_le_add h (hone m i j)
  obtain ⟨s1, b1, h1, hp1, hm1, ht1⟩ := probe_table hp ht (by decide) 0 0 fun _ => 0
  have hl1 := hle (k := 0) (s.started0.media 0 0) 0 0
    (show ([] : List IdeDevice).length ≤ 0 from le_refl 0)
  obtain ⟨s2, b2, h2, hp2, hm2, ht2⟩ := probe_table hp1 ht1 (by omega) 0 1 b1
  have hl2 := hle (s1.media 0 1) 0 1 hl1
  obtain ⟨s3, b3, h3, hp3, hm3, ht3⟩ := probe_table hp2 ht2 (by omega) 1 0 b2
  have hl3 := hle (s2.media 1 0) 1 0 hl2
  obtain ⟨s4, b4, h4, hp4, hm4, ht4⟩ := probe_table hp3 ht3 (by omega) 1 1 b3
  refine ⟨s4, ?_, hp4, by rw [hm4, hm3, hm2, hm1, hmedia], ?_⟩
  · rw [ideInitialize]
    change (s.started0.probe fuel 0 0 ([] : List IdeDevice).length (fun _ => 0) >>= _) = _
    rw [h1, Res.ok_bind]
    dsimp only
    rw [h2, Res.ok_bind, h3, Res.ok_bind, h4]
    rfl
  · rw [hm3, hm2, hm1, hmedia, List.nil_append, List.append_assoc, List.append_assoc] at ht4
    simpa only [entries, List.flatMap_cons, List.flatMap_nil, List.append_nil] using ht4

/-! ## The disks that were found -/

theorem Probing.ok (h : Probing fuel s) : s.Ok fuel :=
  ⟨h.standard, fun i => by rw [h.cold.busy i]; exact Nat.zero_lt_of_lt (h.cold.delay i 0),
    h.cold.delay, fun i _ => h.cold.busy i⟩

/-- The entry of a disk says where it is. -/
theorem entry_ata {m : Media} {e : IdeDevice} (h : m.entry i j = some e) (ht : e.type = IDE_ATA) :
    m.kind = .ata ∧ e = entryOf IDE_ATA i j m.ident := by
  unfold Media.entry at h
  cases hk : m.kind with
  | absent => simp [hk] at h
  | ata =>
    simp only [hk, Option.some.injEq] at h
    exact ⟨rfl, h.symm⟩
  | atapi =>
    simp only [hk, Option.some.injEq] at h
    rw [← h] at ht
    exact absurd ht (by decide : IDE_ATAPI ≠ IDE_ATA)

theorem place_of_mem {media : Fin 2 → Fin 2 → Media} {e : IdeDevice} (h : e ∈ entries media) :
    ∃ i j, (media i j).entry i j = some e := by
  rw [entries, List.mem_flatMap] at h
  obtain ⟨p, -, hp⟩ := h
  exact ⟨p.1, p.2, Option.mem_toList.mp hp⟩

/-- The `Ata` object with the number of a disk. -/
theorem mounted_of_entry {n : Fin 4} {e : IdeDevice} (ht : Table s (entries s.media))
    (he : (entries s.media)[n.val]? = some e) (htype : e.type = IDE_ATA) :
    s.Mounted (UInt8.ofNat n.val) n ∧ s.drive n = s.media e.channel e.drive := by
  obtain ⟨i, j, hij⟩ := place_of_mem (List.mem_of_getElem? he)
  obtain ⟨hk, rfl⟩ := entry_ata hij htype
  have hn : s.ideDevices n = entryOf IDE_ATA i j (s.media i j).ident := by
    have := ht.2 n
    rwa [he] at this
  have hd : s.drive n = s.media i j := by
    rw [drive, hn]
    rfl
  have hindex : ∀ n : Fin 4, driveIndex (UInt8.ofNat n.val) = some n := by decide
  refine ⟨⟨hindex n, ?_, ?_, hd ▸ hk⟩, hd⟩
  · rw [hn]
    exact (by decide : (1 : UInt8) ≠ 0)
  · rw [hn]
    rfl

/-- The four disks before the driver has found them. -/
def unknownDisks : Ide :=
  { fourDisks with ideDevices := fun _ => { fourDisks.ideDevices 0 with reserved := 0 } }

theorem unknownDisks_cold :
    Cold 1 unknownDisks.ports := ⟨fun _ => rfl, fun _ _ => Nat.one_pos, fun _ _ _ _ => rfl⟩

/-- The entry of the second disk of the second channel. -/
def lastEntry : IdeDevice := entryOf IDE_ATA 1 1 hundredSectors.ident

theorem lastEntry_right (ht : Table s (entries unknownDisks.media))
    (hmedia : s.media = unknownDisks.media) {pos sizee : UInt32} (hf : FitsInt pos sizee)
    (h : blEnd pos sizee < 100) (hn : blEnd pos sizee - blBegin pos < 255) (data : Buf)
    (hmod : sizee.toNat % 512 ≠ 0) :
    s.Right 3 (.read pos sizee) ∧ s.Right 3 (.write pos sizee data) := by
  have he : (entries unknownDisks.media)[3]? = some lastEntry := rfl
  have hdev : s.ideDevices 3 = lastEntry := by
    have := ht.2 3
    rwa [show ((3 : Fin 4) : Nat) = 3 from rfl, he] at this
  have hsize : (s.ideDevices 3).size.toNat = 100 := by
    rw [hdev]
    rfl
  have hgood : s.GoodRange 3 pos sizee := by
    intro k _ hk
    rw [drive, hdev, hmedia]
    refine if_pos (show k < 100 from ?_)
    unfold blEnd at h
    omega
  have hblocks : writeBlocks pos sizee = blEnd pos sizee - blBegin pos + 1 := if_neg hmod
  have hle := begin_le_end pos sizee
  exact ⟨⟨hf, Or.inr ⟨by omega, by omega, hgood⟩⟩,
    hf, Or.inr ⟨Or.inl hmod, by omega, by omega, hgood⟩⟩

end Ide

end OwnOS.Ata
