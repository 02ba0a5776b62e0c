import OwnOS.Lib.Bytes

/-!
# Segments and gates (`Descriptor.cpp`, `KType.hpp`)

`initGDT` and `initIDT` write the tables of the processor, eight bytes an entry. `deliver` is what
the processor does at an interrupt with them: it reads the gate and the segment that the gate names,
and checks the levels.

* `setSegdesc`, `setGatedesc`: `Descriptor.cpp:110-136`; `initIDT`: `Descriptor.cpp:43-62`;
  `initGDT`: `Descriptor.cpp:95-108`.

The addresses of the handlers are those that the linker chose. Task gates, 16-bit gates and local
tables are left out of `deliver`.
-/

namespace OwnOS.Desc

open Lib

/-! ## Constants (`Descriptor.h`) -/

def KCSeg : Nat := 0x08
def KDSeg : Nat := 0x10
def TssDesc : Nat := 0x20
def UCSeg : Nat := 0x28
def UDSeg : Nat := 0x30
def TCSeg : Nat := 0x40
def TDSeg : Nat := 0x48

def AR_CODE32 : UInt16 := 0x409a
def AR_DATA32 : UInt16 := 0x4092
def AR_TASKCODE32 : UInt16 := 0x40ba
def AR_TASKDATA32 : UInt16 := 0x40b2
def AR_USERCODE32 : UInt16 := 0x40fa
def AR_USERDATA32 : UInt16 := 0x40f2
def TYPE_TSS : UInt16 := 0x89

def AR_INT : UInt16 := 0x008e
def AR_INT_p3 : UInt16 := 0x00ee

/-- `sizeof(struct TSS32)`. -/
def sizeofTSS32 : UInt32 := 104

/-! ## Entries -/

/-- `seg_desc_s`. -/
structure SegDesc where
  limitLow : UInt16
  baseLow : UInt16
  baseMid : UInt8
  accessRight : UInt8
  limitHigh : UInt8
  baseHigh : UInt8

/-- `gate_desc_s`. -/
structure GateDesc where
  offsetLow : UInt16
  selector : UInt16
  count : UInt8
  accessRight : UInt8
  offsetHigh : UInt16

def highByte (w : UInt16) : UInt8 := (w >>> 8).toUInt8

/-- The bytes of an entry. -/
def SegDesc.bytes (d : SegDesc) : Buf
  | 0 => d.limitLow.toUInt8
  | 1 => highByte d.limitLow
  | 2 => d.baseLow.toUInt8
  | 3 => highByte d.baseLow
  | 4 => d.baseMid
  | 5 => d.accessRight
  | 6 => d.limitHigh
  | _ => d.baseHigh

def GateDesc.bytes (d : GateDesc) : Buf
  | 0 => d.offsetLow.toUInt8
  | 1 => highByte d.offsetLow
  | 2 => d.selector.toUInt8
  | 3 => highByte d.selector
  | 4 => d.count
  | 5 => d.accessRight
  | 6 => d.offsetHigh.toUInt8
  | _ => highByte d.offsetHigh

def setSegdesc (addr limit : UInt32) (ar : UInt16) : SegDesc :=
  let (ar, limit) := if limit > 0xfffff then (ar ||| 0x8000, limit / 0x1000) else (ar, limit)
  { limitLow := (limit &&& 0xffff).toUInt16
    limitHigh := ((limit >>> 16) &&& 0x0f).toUInt8 ||| ((ar >>> 8) &&& 0xf0).toUInt8
    accessRight := (ar &&& 0xff).toUInt8
    baseLow := (addr &&& 0xffff).toUInt16
    baseMid := ((addr >>> 16) &&& 0xff).toUInt8
    baseHigh := ((addr >>> 24) &&& 0xff).toUInt8 }

def setGatedesc (offset selector : UInt32) (ar : UInt16) : GateDesc :=
  { offsetLow := (offset &&& 0xffff).toUInt16
    selector := selector.toUInt16
    count := ((ar >>> 8) &&& 0xff).toUInt8
    accessRight := (ar &&& 0xff).toUInt8
    offsetHigh := ((offset >>> 16) &&& 0xffff).toUInt16 }

/-! ## The tables -/

/-- What the linker chose. -/
structure Handlers where
  isr : Nat → UInt32
  invalid : UInt32

/-- `desc[i] = d`. -/
def setEntry (m : Buf) (desc i : Nat) (d : Buf) : Buf := m.put (desc + 8 * i) 8 d

/-- `initIDT`, for the chunk at `desc`. -/
def initIDT (h : Handlers) (desc : Nat) (m : Buf) : Buf :=
  let gate (offset : UInt32) (ar : UInt16) := (setGatedesc offset (UInt32.ofNat KCSeg) ar).bytes
  let m := setEntry m desc 0 (gate h.invalid AR_INT)
  let m := (List.range 0xff).foldl (fun m i => setEntry m desc i fun k => m (desc + k)) m
  let m := (List.range 0x10).foldl (fun m i => setEntry m desc i (gate (h.isr i) AR_INT)) m
  let m := setEntry m desc 0x20 (gate (h.isr 0x20) AR_INT)
  let m := setEntry m desc 0x21 (gate (h.isr 0x21) AR_INT)
  let m := setEntry m desc 0x30 (gate (h.isr 0x30) AR_INT_p3)
  setEntry m desc 0x80 (gate (h.isr 0x30) AR_INT_p3)

/-- `initGDT`, for the chunk at `desc`. -/
def initGDT (tssaddr : UInt32) (desc : Nat) (m : Buf) : Buf :=
  let seg (addr limit : UInt32) (ar : UInt16) := (setSegdesc addr limit ar).bytes
  let m := (List.range 0x1000).foldl (fun m i => m.put (desc + 4 * i) 4 fun _ => 0) m
  let m := setEntry m desc (KCSeg / 8) (seg 0 0xffffffff AR_CODE32)
  let m := setEntry m desc (KDSeg / 8) (seg 0 0xffffffff AR_DATA32)
  let m := setEntry m desc (UCSeg / 8) (seg 0 0xffffffff AR_USERCODE32)
  let m := setEntry m desc (UDSeg / 8) (seg 0 0xffffffff AR_USERDATA32)
  let m := setEntry m desc (TCSeg / 8) (seg 0 0xffffffff AR_TASKCODE32)
  let m := setEntry m desc (TDSeg / 8) (seg 0 0xffffffff AR_TASKDATA32)
  setEntry m desc (TssDesc / 8) (seg tssaddr sizeofTSS32 TYPE_TSS)

/-- `idtr` and `gdtr`. -/
structure TableReg where
  base : Nat
  limit : Nat

/-- `lidt`. -/
def lidt (desc : Nat) : TableReg := ⟨desc, 0x100 * 8 - 1⟩

/-- `lgdt`. -/
def lgdt (desc : Nat) : TableReg := ⟨desc, TDSeg + 8⟩

/-! ## The processor -/

/-- What the processor reads in the entry of a segment. The limit is the last address in it. -/
structure Segment where
  base : Nat
  limit : Nat
  /-- The type, and whether it is code or data. -/
  type : Nat
  plain : Bool
  dpl : Nat
  present : Bool
  deriving DecidableEq

def readSegment (m : Buf) (a : Nat) : Segment :=
  let raw := (m.le16 a).toNat + 65536 * ((m (a + 6)).toNat % 16)
  let ar := (m (a + 5)).toNat
  { base := (m.le16 (a + 2)).toNat + 65536 * (m (a + 4)).toNat + 16777216 * (m (a + 7)).toNat
    limit := if 128 ≤ (m (a + 6)).toNat then 4096 * raw + 4095 else raw
    type := ar % 16
    plain := ar / 16 % 2 = 1
    dpl := ar / 32 % 4
    present := 128 ≤ ar }

/-- Code, and code that runs at the level of its caller. -/
def Segment.isCode (s : Segment) : Bool := s.plain && s.type / 8 = 1

def Segment.conforming (s : Segment) : Bool := s.type / 4 % 2 = 1

/-- The exceptions, with their error code. -/
inductive Fault where
  | gp (code : Nat)
  | np (code : Nat)
  deriving DecidableEq

/-- The handler that runs. -/
structure Entry where
  selector : Nat
  offset : Nat
  level : Nat
  /-- Whether interrupts are turned off. -/
  masked : Bool
  deriving DecidableEq

/-- The code segment of a selector, for code of the level `cpl`. `ext` is set for an interrupt from
outside. -/
def codeSegment (m : Buf) (gdtr : TableReg) (selector cpl ext : Nat) : Except Fault Segment :=
  let code := 4 * (selector / 4) + ext
  if selector / 4 = 0 then .error (.gp ext)
  else if gdtr.limit < 8 * (selector / 8) + 7 then .error (.gp code)
  else
    let s := readSegment m (gdtr.base + 8 * (selector / 8))
    if ¬s.isCode ∨ cpl < s.dpl then .error (.gp code)
    else if ¬s.present then .error (.np code)
    else .ok s

/-- The interrupt `n` at the level `cpl`. `software` is for the instruction `int`. -/
def deliver (m : Buf) (idtr gdtr : TableReg) (n : Nat) (software : Bool) (cpl : Nat) :
    Except Fault Entry :=
  let a := idtr.base + 8 * n
  let ext := if software then 0 else 1
  let code := 8 * n + 2 + ext
  if idtr.limit < 8 * n + 7 then .error (.gp code)
  else
    let ar := (m (a + 5)).toNat
    if ar % 32 ≠ 14 ∧ ar % 32 ≠ 15 then .error (.gp code)
    else if software ∧ ar / 32 % 4 < cpl then .error (.gp code)
    else if ar < 128 then .error (.np code)
    else do
      let selector := (m.le16 (a + 2)).toNat
      let s ← codeSegment m gdtr selector cpl ext
      .ok { selector
            offset := (m.le16 a).toNat + 65536 * (m.le16 (a + 6)).toNat
            level := if s.conforming then cpl else s.dpl
            masked := ar % 32 = 14 }

end OwnOS.Desc
