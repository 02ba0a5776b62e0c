import OwnOS.Ata.Drive
import OwnOS.Halt
import OwnOS.Lib.Signed

/-!
# The ATA driver (`ata.cpp`)

`Ide` is the static state of `Ata`, with the ports of the two channels. A loop that waits for the
drive takes `fuel` polls at most, and hangs after them. Buffers are `Buf`; the driver moves `edi`
along one.

The message texts, `package` beyond its first byte and the segment register of the string
instructions are left out.

* `Ide.ideRead`, `ideWrite`, `ideReadBuffer`, `idePolling`, `idePrintError`: `ata.cpp:293-388`.
* `Ide.ideAtaAccess`: `ata.cpp:391-502`, without DMA, which the source never chooses.
* `Ide.ideReadSectors`, `ideWriteSectors`: `ata.cpp:569-598`.
* `Ide.read`, `Ide.write`: `Ata::read` and `Ata::write`, `ata.cpp:101-155`.
* `Ide.ideInitialize`: `ata.cpp:208-290`.
-/

namespace OwnOS.Ata

open Lib

/-! ## Registers and commands (`ata.h`) -/

def ATA_REG_DATA : UInt8 := 0x00
def ATA_REG_ERROR : UInt8 := 0x01
def ATA_REG_SECCOUNT0 : UInt8 := 0x02
def ATA_REG_LBA0 : UInt8 := 0x03
def ATA_REG_LBA1 : UInt8 := 0x04
def ATA_REG_LBA2 : UInt8 := 0x05
def ATA_REG_HDDEVSEL : UInt8 := 0x06
def ATA_REG_COMMAND : UInt8 := 0x07
def ATA_REG_STATUS : UInt8 := 0x07
def ATA_REG_SECCOUNT1 : UInt8 := 0x08
def ATA_REG_LBA3 : UInt8 := 0x09
def ATA_REG_LBA4 : UInt8 := 0x0A
def ATA_REG_LBA5 : UInt8 := 0x0B
def ATA_REG_CONTROL : UInt8 := 0x0C
def ATA_REG_ALTSTATUS : UInt8 := 0x0C

def ATA_SR_BSY : UInt8 := 0x80
def ATA_SR_DF : UInt8 := 0x20
def ATA_SR_DRQ : UInt8 := 0x08
def ATA_SR_ERR : UInt8 := 0x01

def ATA_CMD_READ_PIO : UInt8 := 0x20
def ATA_CMD_READ_PIO_EXT : UInt8 := 0x24
def ATA_CMD_WRITE_PIO : UInt8 := 0x30
def ATA_CMD_WRITE_PIO_EXT : UInt8 := 0x34
def ATA_CMD_CACHE_FLUSH : UInt8 := 0xE7
def ATA_CMD_CACHE_FLUSH_EXT : UInt8 := 0xEA
def ATA_CMD_IDENTIFY : UInt8 := 0xEC
def ATA_CMD_IDENTIFY_PACKET : UInt8 := 0xA1

def ATA_IDENT_DEVICETYPE : Nat := 0
def ATA_IDENT_MODEL : Nat := 54
def ATA_IDENT_CAPABILITIES : Nat := 98
def ATA_IDENT_MAX_LBA : Nat := 120
def ATA_IDENT_COMMANDSETS : Nat := 164
def ATA_IDENT_MAX_LBA_EXT : Nat := 200

def IDE_ATA : UInt16 := 0
def IDE_ATAPI : UInt16 := 1

/-! ## State -/

structure IDEChannelRegisters where
  base : UInt16
  ctrl : UInt16
  bmide : UInt16
  nIEN : UInt8

/-- `ide_device`. `Channel` and `Drive` are only ever 0 or 1. -/
structure IdeDevice where
  reserved : UInt8
  channel : Fin 2
  drive : Fin 2
  type : UInt16
  signature : UInt16
  capabilities : UInt16
  commandSets : UInt32
  size : UInt32
  model : Fin 41 → UInt8

scoped instance neZero_devices : NeZero 4 := ⟨by decide⟩

structure Ide where
  channels : Fin 2 → IDEChannelRegisters
  ideDevices : Fin 4 → IdeDevice
  ports : Ports

/-- `direction`: `ATA_READ` or `ATA_WRITE`. -/
inductive Direction where
  | read
  | write
  deriving DecidableEq, Repr

inductive LbaMode where
  | chs
  | lba28
  | lba48
  deriving DecidableEq, Repr

/-- `lba_mode`, the four bytes of `lba_io` that are not always 0, and `head`. -/
structure LbaIo where
  mode : LbaMode
  io0 : UInt8
  io1 : UInt8
  io2 : UInt8
  io3 : UInt8
  head : UInt8

namespace Ide

/-! ## Ports -/

/-- The port of a register. The sums are `int`s, of which the instruction takes 16 bits. -/
def portOf (r : IDEChannelRegisters) (reg : UInt8) : Option UInt16 :=
  if reg < 0x08 then some (r.base + reg.toUInt16 - 0x00)
  else if reg < 0x0C then some (r.base + reg.toUInt16 - 0x06)
  else if reg < 0x0E then some (r.ctrl + reg.toUInt16 - 0x0A)
  else if reg < 0x16 then some (r.bmide + reg.toUInt16 - 0x0E)
  else none

variable (s : Ide)

/-- The chain of `io_out8_asm` in `ide_write`. -/
def outReg (channel : Fin 2) (reg data : UInt8) : Ide :=
  match portOf (s.channels channel) reg with
  | some p => { s with ports := s.ports.out8 p data }
  | none => s

/-- The call of `ide_write` before and after the access to a register between 8 and 11. The register
that it writes is not one of these, so the calls are one deep. -/
def toggle (channel : Fin 2) (reg data : UInt8) : Ide :=
  if 0x07 < reg ∧ reg < 0x0C then s.outReg channel ATA_REG_CONTROL data else s

def ideWrite (channel : Fin 2) (reg data : UInt8) : Ide :=
  let s := s.toggle channel reg (0x80 ||| (s.channels channel).nIEN)
  let s := s.outReg channel reg data
  s.toggle channel reg (s.channels channel).nIEN

/-- The result of a register without a port is not initialised; no call reads one. -/
def ideRead (channel : Fin 2) (reg : UInt8) : UInt8 × Ide :=
  let s := s.toggle channel reg (0x80 ||| (s.channels channel).nIEN)
  let (result, s) :=
    match portOf (s.channels channel) reg with
    | some p => ((s.ports.in8 p).1, { s with ports := (s.ports.in8 p).2 })
    | none => (0, s)
  (result, s.toggle channel reg (s.channels channel).nIEN)

/-- `rep insw`, `n` words to the offset `edi`. -/
def insw (s : Ide) (port : UInt16) : Nat → Buf → Nat → Ide × Buf
  | 0, b, _ => (s, b)
  | n + 1, b, edi =>
    let (w, ports) := s.ports.in16 port
    insw { s with ports } port n (b.put edi 2 (Chan.wordBytes w)) (edi + 2)

/-- `rep outsw`, `n` words from the offset `esi`. -/
def outsw (s : Ide) (port : UInt16) : Nat → Buf → Nat → Ide
  | 0, _, _ => s
  | n + 1, b, esi =>
    let s := { s with ports := s.ports.out16 port (b.le16 esi) }
    outsw s port n b (esi + 2)

/-- `insl` moves two words at a time. -/
def ideReadBuffer (channel : Fin 2) (reg : UInt8) (buffer : Buf) (quads : Nat) : Ide × Buf :=
  let s := s.toggle channel reg (0x80 ||| (s.channels channel).nIEN)
  let (s, buffer) :=
    match portOf (s.channels channel) reg with
    | some p => s.insw p (2 * quads) buffer 0
    | none => (s, buffer)
  (s.toggle channel reg (s.channels channel).nIEN, buffer)

/-! ## Waiting -/

/-- `while (ide_read(channel, ATA_REG_STATUS) & ATA_SR_BSY);` -/
def waitBsy (s : Ide) (channel : Fin 2) : Nat → Res Ide
  | 0 => .error .hang
  | fuel + 1 =>
    let (status, s) := s.ideRead channel ATA_REG_STATUS
    if status &&& ATA_SR_BSY ≠ 0 then waitBsy s channel fuel else .ok s

/-- `for(i = 0; i < n; i++) ide_read(channel, ATA_REG_ALTSTATUS);` -/
def readAlt (s : Ide) (channel : Fin 2) : Nat → Ide
  | 0 => s
  | n + 1 => readAlt (s.ideRead channel ATA_REG_ALTSTATUS).2 channel n

/-- The `advanced_check` of `ide_polling`. -/
def pollState (state : UInt8) : UInt8 :=
  if state &&& ATA_SR_ERR ≠ 0 then 2
  else if state &&& ATA_SR_DF ≠ 0 then 1
  else if state &&& ATA_SR_DRQ = 0 then 3
  else 0

def idePolling (fuel : Nat) (channel : Fin 2) (advancedCheck : Bool) : Res (UInt8 × Ide) := do
  let s := s.readAlt channel 4
  let s ← s.waitBsy channel fuel
  if advancedCheck then
    let (state, s) := s.ideRead channel ATA_REG_STATUS
    .ok (pollState state, s)
  else .ok (0, s)

/-- The codes of the bits of the error register. The last bit that is set decides. -/
def errorBits (st : UInt8) : UInt8 :=
  let err := if st &&& 0x01 ≠ 0 then 7 else 2
  let err := if st &&& 0x02 ≠ 0 then 3 else err
  let err := if st &&& 0x04 ≠ 0 then 20 else err
  let err := if st &&& 0x08 ≠ 0 then 3 else err
  let err := if st &&& 0x10 ≠ 0 then 21 else err
  let err := if st &&& 0x20 ≠ 0 then 3 else err
  let err := if st &&& 0x40 ≠ 0 then 22 else err
  if st &&& 0x80 ≠ 0 then 13 else err

def idePrintError (drive : Fin 4) (err : UInt8) : UInt8 × Ide :=
  if err = 0 then (err, s)
  else if err = 1 then (19, s)
  else if err = 2 then
    let (st, s) := s.ideRead (s.ideDevices drive).channel ATA_REG_ERROR
    (errorBits st, s)
  else if err = 3 then (23, s)
  else if err = 4 then (8, s)
  else (err, s)

/-! ## Sectors -/

def lbaIo (capabilities : UInt16) (lba : UInt32) : LbaIo :=
  if lba ≥ 0x10000000 then
    { mode := .lba48
      io0 := ((lba &&& 0x000000FF) >>> 0).toUInt8
      io1 := ((lba &&& 0x0000FF00) >>> 8).toUInt8
      io2 := ((lba &&& 0x00FF0000) >>> 16).toUInt8
      io3 := ((lba &&& 0xFF000000) >>> 24).toUInt8
      head := 0 }
  else if capabilities &&& 0x200 ≠ 0 then
    { mode := .lba28
      io0 := ((lba &&& 0x00000FF) >>> 0).toUInt8
      io1 := ((lba &&& 0x000FF00) >>> 8).toUInt8
      io2 := ((lba &&& 0x0FF0000) >>> 16).toUInt8
      io3 := 0
      head := ((lba &&& 0xF000000) >>> 24).toUInt8 }
  else
    let sect := (lba % 63 + 1).toUInt8
    -- `cyl` is a `u16_t`
    let cyl := ((lba + 1 - sect.toUInt32) / (16 * 63)).toUInt16
    { mode := .chs
      io0 := sect
      io1 := ((cyl >>> 0) &&& 0xFF).toUInt8
      io2 := ((cyl >>> 8) &&& 0xFF).toUInt8
      io3 := 0
      head := ((lba + 1 - sect.toUInt32) % (16 * 63) / 63).toUInt8 }

def setNIEN (channel : Fin 2) (v : UInt8) : Ide :=
  { s with channels := Function.update s.channels channel { s.channels channel with nIEN := v } }

/-- From `HDDEVSEL` to the sector number. -/
def writeAddress (channel slavebit : Fin 2) (io : LbaIo) (numsects : UInt8) : Ide :=
  let slave := UInt8.ofNat slavebit.val <<< 4
  let s :=
    if io.mode = .chs then s.ideWrite channel ATA_REG_HDDEVSEL (0xA0 ||| slave ||| io.head)
    else s.ideWrite channel ATA_REG_HDDEVSEL (0xE0 ||| slave ||| io.head)
  let s :=
    if io.mode = .lba48 then
      let s := s.ideWrite channel ATA_REG_SECCOUNT1 0
      let s := s.ideWrite channel ATA_REG_LBA3 io.io3
      let s := s.ideWrite channel ATA_REG_LBA4 0
      s.ideWrite channel ATA_REG_LBA5 0
    else s
  let s := s.ideWrite channel ATA_REG_SECCOUNT0 numsects
  let s := s.ideWrite channel ATA_REG_LBA0 io.io0
  let s := s.ideWrite channel ATA_REG_LBA1 io.io1
  s.ideWrite channel ATA_REG_LBA2 io.io2

def cmd : LbaMode → Direction → UInt8
  | .chs, .read => ATA_CMD_READ_PIO
  | .lba28, .read => ATA_CMD_READ_PIO
  | .lba48, .read => ATA_CMD_READ_PIO_EXT
  | .chs, .write => ATA_CMD_WRITE_PIO
  | .lba28, .write => ATA_CMD_WRITE_PIO
  | .lba48, .write => ATA_CMD_WRITE_PIO_EXT

def flushCmd : LbaMode → UInt8
  | .chs => ATA_CMD_CACHE_FLUSH
  | .lba28 => ATA_CMD_CACHE_FLUSH
  | .lba48 => ATA_CMD_CACHE_FLUSH_EXT

/-- The PIO read of `n` sectors. The first error ends it. -/
def pioRead (fuel : Nat) (channel : Fin 2) (bus : UInt16) :
    Nat → Ide → Buf → Nat → Res (UInt8 × Ide × Buf)
  | 0, s, b, _ => .ok (0, s, b)
  | n + 1, s, b, edi => do
    let (err, s) ← s.idePolling fuel channel true
    if err ≠ 0 then .ok (err, s, b)
    else
      let (s, b) := s.insw bus 256 b edi
      pioRead fuel channel bus n s b (edi + 512)

/-- The PIO write of `n` sectors. Errors are not looked for. -/
def pioWrite (fuel : Nat) (channel : Fin 2) (bus : UInt16) (b : Buf) : Nat → Ide → Nat → Res Ide
  | 0, s, _ => .ok s
  | n + 1, s, edi => do
    let (_, s) ← s.idePolling fuel channel false
    pioWrite fuel channel bus b n (s.outsw bus 256 b edi) (edi + 512)

def ideAtaAccess (fuel : Nat) (direction : Direction) (drive : Fin 4) (lba : UInt32)
    (numsects : UInt8) (b : Buf) (edi : Nat) : Res (UInt8 × Ide × Buf) := do
  let channel := (s.ideDevices drive).channel
  let slavebit := (s.ideDevices drive).drive
  let bus := (s.channels channel).base
  let s := s.setNIEN channel (0x0 + 0x02)
  let s := s.ideWrite channel ATA_REG_CONTROL (0x0 + 0x02)
  let io := lbaIo (s.ideDevices drive).capabilities lba
  let s ← s.waitBsy channel fuel
  let s := s.writeAddress channel slavebit io numsects
  let s := s.ideWrite channel ATA_REG_COMMAND (cmd io.mode direction)
  match direction with
  | .read => s.pioRead fuel channel bus numsects.toNat b edi
  | .write => do
    let s ← s.pioWrite fuel channel bus b numsects.toNat edi
    let s := s.ideWrite channel ATA_REG_COMMAND (flushCmd io.mode)
    let (_, s) ← s.idePolling fuel channel false
    .ok (0, s, b)

/-- The entry of a drive, unless `drive > 3`. -/
def driveIndex (drive : UInt8) : Option (Fin 4) :=
  if h : drive.toNat < 4 then some ⟨drive.toNat, h⟩ else none

/-- `ide_read_sectors`: `package[0]`, too. For a drive for packets `err` is not initialised. -/
def ideReadSectors (fuel : Nat) (junkErr : UInt8) (drive numsects : UInt8) (lba : UInt32) (b : Buf)
    (edi : Nat) : Res (UInt8 × Ide × Buf) :=
  match driveIndex drive with
  | none => .ok (0x1, s, b)
  | some d =>
    if (s.ideDevices d).reserved = 0 then .ok (0x1, s, b)
    else if lba + numsects.toUInt32 > (s.ideDevices d).size ∧ (s.ideDevices d).type = IDE_ATA then
      .ok (0x2, s, b)
    else do
      let (err, s, b) ←
        if (s.ideDevices d).type = IDE_ATA then s.ideAtaAccess fuel .read d lba numsects b edi
        else .ok (junkErr, s, b)
      let (package, s) := s.idePrintError d err
      .ok (package, s, b)

def ideWriteSectors (fuel : Nat) (junkErr : UInt8) (drive numsects : UInt8) (lba : UInt32) (b : Buf)
    (edi : Nat) : Res (UInt8 × Ide) :=
  match driveIndex drive with
  | none => .ok (0x1, s)
  | some d =>
    if (s.ideDevices d).reserved = 0 then .ok (0x1, s)
    else if lba + numsects.toUInt32 > (s.ideDevices d).size ∧ (s.ideDevices d).type = IDE_ATA then
      .ok (0x2, s)
    else do
      let (err, s) ←
        if (s.ideDevices d).type = IDE_ATA then do
          let (err, s, _) ← s.ideAtaAccess fuel .write d lba numsects b edi
          .ok (err, s)
        else if (s.ideDevices d).type = IDE_ATAPI then .ok (4, s)
        else .ok (junkErr, s)
      let (package, s) := s.idePrintError d err
      .ok (package, s)

/-! ## Bytes -/

/-- Where `bl_buffer` is in the memory that holds it. A position from 2 GiB on is a negative `int`,
whose remainder points below the buffer. -/
def blBuffer : Nat := 512

def blOffset (offset : Int32) : Nat := ((blBuffer : Int) + (offset % 512).toInt).toNat

/-- `Ata::read`, for a buffer that is not NULL. `junk` is the memory of `bl_buffer` as `kmalloc`
returns it. -/
def read (fuel : Nat) (junkErr : UInt8) (ataDrive : UInt8) (junk : Buf) (pos : UInt32)
    (buffer : Buf) (o : Nat) (sizee : UInt32) : Res (UInt32 × Ide × Buf) :=
  let count := sizee.toInt32
  let offset := pos.toInt32
  let blBegin := offset / 512
  let blEnd := (offset + count) / 512
  let blocks := blEnd - blBegin + 1
  if blocks > 255 then .ok (0, s, buffer)
  else do
    let (_, s, b) ← s.ideReadSectors fuel junkErr ataDrive blocks.toUInt32.toUInt8
      blBegin.toUInt32 junk blBuffer
    .ok (count.toUInt32, s, buffer.put o count.toUInt32.toNat fun k => b (blOffset offset + k))

/-- `Ata::write`, for a buffer that is not NULL. The answer and what it leaves of the memory of
`bl_buffer`. -/
def write (fuel : Nat) (junkErr : UInt8) (ataDrive : UInt8) (junk : Buf) (pos : UInt32)
    (buffer : Buf) (sizee : UInt32) : Res (UInt32 × Ide × Buf) := do
  let count := sizee.toInt32
  let offset := pos.toInt32
  let blBegin := offset / 512
  let blEnd := (offset + count) / 512
  let blocks := if sizee % 512 = 0 then blEnd - blBegin else blEnd - blBegin + 1
  let (_, s, b) ← s.ideReadSectors fuel junkErr ataDrive blocks.toUInt32.toUInt8
    blBegin.toUInt32 junk blBuffer
  let b := b.put (blOffset offset) count.toUInt32.toNat buffer
  let (_, s) ← s.ideWriteSectors fuel junkErr ataDrive blocks.toUInt32.toUInt8
    blBegin.toUInt32 b blBuffer
  .ok (count.toUInt32, s, b)

/-! ## Finding the drives -/

/-- `BAR & 0xFFFFFFFC`, or the port of a PC. -/
def barOr (bar : UInt32) (port : UInt16) : UInt16 :=
  ((bar &&& 0xFFFFFFFC) + port.toUInt32 * (if bar = 0 then 1 else 0)).toUInt16

def initChannels (BAR0 BAR1 BAR2 BAR3 BAR4 : UInt32) : Ide :=
  { s with
    channels := fun i =>
      if i = 0 then
        { base := barOr BAR0 0x1F0, ctrl := barOr BAR1 0x3F4
          bmide := ((BAR4 &&& 0xFFFFFFFC) + 0).toUInt16, nIEN := (s.channels 0).nIEN }
      else
        { base := barOr BAR2 0x170, ctrl := barOr BAR3 0x374
          bmide := ((BAR4 &&& 0xFFFFFFFC) + 8).toUInt16, nIEN := (s.channels 1).nIEN } }

/-- The entry of a drive, from what it said of itself. -/
def entryOf (type : UInt16) (channel drive : Fin 2) (ideBuf : Buf) : IdeDevice :=
  let commandSets := ideBuf.le32 ATA_IDENT_COMMANDSETS
  { reserved := 1
    type
    channel
    drive
    signature := ideBuf.le16 ATA_IDENT_DEVICETYPE
    capabilities := ideBuf.le16 ATA_IDENT_CAPABILITIES
    commandSets
    size :=
      if commandSets &&& ((1 : UInt32) <<< 26) ≠ 0 then ideBuf.le32 ATA_IDENT_MAX_LBA_EXT
      else ideBuf.le32 ATA_IDENT_MAX_LBA
    model := fun k =>
      if k.val = 40 then 0
      else if k.val % 2 = 0 then ideBuf (ATA_IDENT_MODEL + k.val + 1)
      else ideBuf (ATA_IDENT_MODEL + k.val - 1) }

/-- The loop that waits for the answer to `IDENTIFY`: `err`. -/
def waitIdentify (s : Ide) (channel : Fin 2) : Nat → Res (Bool × Ide)
  | 0 => .error .hang
  | fuel + 1 =>
    let (status, s) := s.ideRead channel ATA_REG_STATUS
    if status &&& ATA_SR_ERR ≠ 0 then .ok (true, s)
    else if status &&& ATA_SR_BSY = 0 ∧ status &&& ATA_SR_DRQ ≠ 0 then .ok (false, s)
    else waitIdentify s channel fuel

def setDevice (count : Fin 4) (d : IdeDevice) : Ide :=
  { s with ideDevices := Function.update s.ideDevices count d }

/-- The entry of the drive that answered. -/
def found (i j : Fin 2) (count : Nat) (ideBuf : Buf) (type : UInt16) : Ide × Buf × Nat :=
  let (s, ideBuf) := s.ideReadBuffer i ATA_REG_DATA ideBuf 128
  (s.setDevice (Fin.ofNat 4 count) (entryOf type i j ideBuf), ideBuf, count + 1)

/-- A turn of the two loops from the wait for the answer on. The source leaves the loop by
`continue` where this answers with the same buffer and count. -/
def identify (fuel : Nat) (i j : Fin 2) (count : Nat) (ideBuf : Buf) : Res (Ide × Buf × Nat) := do
  let (err, s) ← s.waitIdentify i fuel
  if err then
    let (cl, s) := s.ideRead i ATA_REG_LBA1
    let (ch, s) := s.ideRead i ATA_REG_LBA2
    if (cl = 0x14 ∧ ch = 0xEB) ∨ (cl = 0x69 ∧ ch = 0x96) then
      let s := s.ideWrite i ATA_REG_COMMAND ATA_CMD_IDENTIFY_PACKET
      .ok (s.found i j count ideBuf IDE_ATAPI)
    else .ok (s, ideBuf, count)
  else .ok (s.found i j count ideBuf IDE_ATA)

/-- A turn of the two loops: the drive `j` of the channel `i`, for the entry `count`. -/
def probe (fuel : Nat) (i j : Fin 2) (count : Nat) (ideBuf : Buf) : Res (Ide × Buf × Nat) :=
  let n := Fin.ofNat 4 count
  let s := s.setDevice n { s.ideDevices n with reserved := 0 }
  let s := s.ideWrite i ATA_REG_HDDEVSEL ((0xA0 : UInt8) ||| UInt8.ofNat j.val <<< 4)
  let s := s.ideWrite i ATA_REG_COMMAND ATA_CMD_IDENTIFY
  let (status, s) := s.ideRead i ATA_REG_STATUS
  if status = 0 then .ok (s, ideBuf, count) else s.identify fuel i j count ideBuf

/-- `ide_initialize`, without the `Ata` objects that it makes of the table. -/
def ideInitialize (fuel : Nat) (BAR0 BAR1 BAR2 BAR3 BAR4 : UInt32) : Res Ide := do
  let s := s.initChannels BAR0 BAR1 BAR2 BAR3 BAR4
  let s := s.ideWrite 0 ATA_REG_CONTROL 2
  let s := s.ideWrite 1 ATA_REG_CONTROL 2
  let (s, b, count) ← s.probe fuel 0 0 0 fun _ => 0
  let (s, b, count) ← s.probe fuel 0 1 count b
  let (s, b, count) ← s.probe fuel 1 0 count b
  let (s, _, _) ← s.probe fuel 1 1 count b
  .ok s

end Ide

end OwnOS.Ata
