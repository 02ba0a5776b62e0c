import OwnOS.Lib.Bytes

/-!
# Two drives behind the ports of a channel

The hardware that `ata.cpp` talks to: the registers of a channel, the commands written to them and
the data port. A drive decodes its registers when the command is written, transfers one sector after
the other through the data port, and is busy for a while (`delay`, any number of polls) before each
of them. While it is busy it ignores the registers that are written. A sector may be bad (`fault`,
any of them), and a sector from `capacity` on is not there.

The second write of a register pushes the first one out to its `prev` half; the commands of 48 bits
read both.

A drive that was not asked for anything answers 0 where it is absent. Nothing of this is in the
repository: it is what the driver relies on.
-/

namespace OwnOS.Ata

open Lib

scoped instance neZero_places : NeZero 2 := ⟨by decide⟩

/-- How a sector is bad. -/
inductive Fault where
  /-- The bit `ERR`, with the error register. -/
  | error (code : UInt8)
  /-- The bit `DF`. -/
  | deviceFault
  /-- Neither data nor an error. -/
  | noData
  deriving DecidableEq, Repr

inductive Kind where
  | absent
  | ata
  | atapi
  deriving DecidableEq, Repr

/-- A drive. `ident` is its answer to `IDENTIFY`. -/
structure Media where
  kind : Kind
  capacity : Nat
  byte : Buf
  fault : Nat → Option Fault
  ident : Buf

/-- The fault that a transfer of the sector `lba` meets. -/
def Media.faultAt (m : Media) (lba : Nat) : Option Fault :=
  if lba < m.capacity then m.fault lba else some (.error 0x10)

/-- A register of two bytes, written one after the other. -/
structure Latch where
  cur : UInt8
  prev : UInt8

def Latch.push (r : Latch) (v : UInt8) : Latch := ⟨v, r.cur⟩

inductive Phase where
  | idle
  /-- The word `word` of the sector `lba` is next, with `left` sectors to go. -/
  | data (out : Bool) (lba left word : Nat)
  | identify (word : Nat)
  | failed (f : Fault)

/-- The status register of a drive that is not busy. -/
def Phase.status : Phase → UInt8
  | .idle => 0x50
  | .data .. => 0x58
  | .identify _ => 0x58
  | .failed (.error _) => 0x51
  | .failed .deviceFault => 0x70
  | .failed .noData => 0x50

/-- A channel: the drives, the registers that they share, and what the selected one does. -/
structure Chan where
  media : Fin 2 → Media
  count : Latch
  lba0 : Latch
  lba1 : Latch
  lba2 : Latch
  select : UInt8
  control : UInt8
  phase : Phase
  busy : Nat
  delay : Nat → Nat

namespace Chan

variable (c : Chan)

def selected : Fin 2 := if c.select &&& 0x10 = 0 then 0 else 1

def medium : Media := c.media c.selected

/-- Busy for as long as it takes. -/
def wait : Chan := { c with busy := c.delay 0, delay := fun k => c.delay (k + 1) }

/-- The transfer goes on with the sector `lba`. -/
def sector (out : Bool) (lba : Nat) : Nat → Chan
  | 0 => { c.wait with phase := .idle }
  | left + 1 =>
    match c.medium.faultAt lba with
    | some f => { c.wait with phase := .failed f }
    | none => { c.wait with phase := .data out lba (left + 1) 0 }

/-- A count of 0 stands for the largest one. -/
def count8 : Nat := if c.count.cur = 0 then 256 else c.count.cur.toNat

def count16 : Nat :=
  let n := c.count.cur.toNat + 256 * c.count.prev.toNat
  if n = 0 then 65536 else n

/-- The bit 6 of the drive register tells a sector number from a cylinder, a head and a sector of a
drive with 16 heads of 63 sectors. -/
def address28 : Nat :=
  let head := (c.select &&& 0x0F).toNat
  if c.select &&& 0x40 ≠ 0 then
    c.lba0.cur.toNat + 256 * c.lba1.cur.toNat + 65536 * c.lba2.cur.toNat + 16777216 * head
  else
    ((c.lba1.cur.toNat + 256 * c.lba2.cur.toNat) * 16 + head) * 63 + c.lba0.cur.toNat - 1

def address48 : Nat :=
  c.lba0.cur.toNat + 256 * c.lba1.cur.toNat + 65536 * c.lba2.cur.toNat +
    16777216 * c.lba0.prev.toNat + 4294967296 * c.lba1.prev.toNat +
    1099511627776 * c.lba2.prev.toNat

def abort : Chan := { c.wait with phase := .failed (.error 0x04) }

/-- The commands: `READ SECTORS` and `WRITE SECTORS` of 28 and of 48 bits, the two `FLUSH CACHE`,
`IDENTIFY` for either kind of drive. A drive for packets shows its signature when it is asked with
the wrong one. -/
def command (v : UInt8) : Chan :=
  match c.medium.kind with
  | .absent => c
  | .ata =>
    if v = 0x20 then c.sector false c.address28 c.count8
    else if v = 0x24 then c.sector false c.address48 c.count16
    else if v = 0x30 then c.sector true c.address28 c.count8
    else if v = 0x34 then c.sector true c.address48 c.count16
    else if v = 0xE7 ∨ v = 0xEA then { c.wait with phase := .idle }
    else if v = 0xEC then { c.wait with phase := .identify 0 }
    else c.abort
  | .atapi =>
    if v = 0xA1 then { c.wait with phase := .identify 0 }
    else { c.abort with lba1 := c.lba1.push 0x14, lba2 := c.lba2.push 0xEB }

def status : UInt8 :=
  if c.medium.kind = .absent then 0
  else if 0 < c.busy then 0x80
  else c.phase.status

/-- Each poll brings the end of the wait closer. -/
def poll : UInt8 × Chan := (c.status, { c with busy := c.busy - 1 })

def errorByte : UInt8 :=
  match c.phase with
  | .failed (.error code) => code
  | _ => 0

/-- The high bit of the control register selects the half that is read. -/
def half (r : Latch) : UInt8 := if c.control &&& 0x80 = 0 then r.cur else r.prev

/-- Reads the register `r` of the command block. -/
def in8 (r : UInt16) : UInt8 × Chan :=
  if r = 1 then (c.errorByte, c)
  else if r = 2 then (c.half c.count, c)
  else if r = 3 then (c.half c.lba0, c)
  else if r = 4 then (c.half c.lba1, c)
  else if r = 5 then (c.half c.lba2, c)
  else if r = 6 then (c.select, c)
  else if r = 7 then c.poll
  else (0, c)

/-- Writes the register `r` of the command block. -/
def out8 (r : UInt16) (v : UInt8) : Chan :=
  if 0 < c.busy then c
  else if r = 2 then { c with count := c.count.push v }
  else if r = 3 then { c with lba0 := c.lba0.push v }
  else if r = 4 then { c with lba1 := c.lba1.push v }
  else if r = 5 then { c with lba2 := c.lba2.push v }
  else if r = 6 then { c with select := v }
  else if r = 7 then c.command v
  else c

/-- After the last word of a sector comes the next sector. -/
def nextWord (out : Bool) (lba left word : Nat) : Chan :=
  if word + 1 < 256 then { c with phase := .data out lba left (word + 1) }
  else c.sector out (lba + 1) (left - 1)

/-- A word from the data port. -/
def in16 : UInt16 × Chan :=
  if 0 < c.busy then (0xFFFF, c)
  else
    match c.phase with
    | .data false lba left word =>
      (c.medium.byte.le16 (512 * lba + 2 * word), c.nextWord false lba left word)
    | .identify word =>
      (c.medium.ident.le16 (2 * word),
        { c with phase := if word + 1 < 256 then .identify (word + 1) else .idle })
    | _ => (0xFFFF, c)

/-- The two bytes of a word, low byte first. -/
def wordBytes (w : UInt16) : Buf := fun k => if k = 0 then w.toUInt8 else (w >>> 8).toUInt8

def setByte (b : Buf) : Chan :=
  { c with media := Function.update c.media c.selected { c.medium with byte := b } }

/-- A word to the data port. -/
def out16 (w : UInt16) : Chan :=
  if 0 < c.busy then c
  else
    match c.phase with
    | .data true lba left word =>
      (c.setByte (c.medium.byte.put (512 * lba + 2 * word) 2 (wordBytes w))).nextWord true
        lba left word
    | _ => c

end Chan

/-! ## The ports of the two channels -/

/-- A register of a channel, by its port. -/
inductive PortReg where
  | block (r : UInt16)
  | control
  deriving DecidableEq, Repr

/-- The ports of the two channels of a PC. -/
def decode (p : UInt16) : Option (Fin 2 × PortReg) :=
  if 0x1F0 ≤ p ∧ p < 0x1F8 then some (0, .block (p - 0x1F0))
  else if 0x170 ≤ p ∧ p < 0x178 then some (1, .block (p - 0x170))
  else if p = 0x3F6 then some (0, .control)
  else if p = 0x376 then some (1, .control)
  else none

abbrev Ports := Fin 2 → Chan

namespace Ports

/-- `in al, dx`. Reading the control register polls like the status register does. -/
def in8 (ps : Ports) (p : UInt16) : UInt8 × Ports :=
  match decode p with
  | some (i, .block r) => (((ps i).in8 r).1, Function.update ps i ((ps i).in8 r).2)
  | some (i, .control) => ((ps i).status, Function.update ps i (ps i).poll.2)
  | none => (0xFF, ps)

/-- `out dx, al`. -/
def out8 (ps : Ports) (p : UInt16) (v : UInt8) : Ports :=
  match decode p with
  | some (i, .block r) => Function.update ps i ((ps i).out8 r v)
  | some (i, .control) => Function.update ps i { ps i with control := v }
  | none => ps

/-- `in ax, dx`. -/
def in16 (ps : Ports) (p : UInt16) : UInt16 × Ports :=
  match decode p with
  | some (i, .block 0) => ((ps i).in16.1, Function.update ps i (ps i).in16.2)
  | _ => (0xFFFF, ps)

/-- `out dx, ax`. -/
def out16 (ps : Ports) (p : UInt16) (w : UInt16) : Ports :=
  match decode p with
  | some (i, .block 0) => Function.update ps i ((ps i).out16 w)
  | _ => ps

end Ports

end OwnOS.Ata
