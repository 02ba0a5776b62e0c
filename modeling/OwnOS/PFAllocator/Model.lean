import OwnOS.Halt
import OwnOS.Lib.Links

/-!
# The page-frame allocator (`PFAllocator.h`, `PFAllocator.cpp`)

The allocator keeps 128 `Seg` descriptors in an array. A descriptor that is not `free` describes
`blocks` page frames of 4 KiB from `begin`, and is linked through `np` into one of two lists, the
free list `seg_free` or the used list `seg_used`. The routines walk the lists with a `Seg **`, which
is a location (`Lib.Loc`): one of the two heads, or the `np` field of a descriptor.

The loops over a list take a bound on the number of descriptors they pass. The lists do not change
while a loop walks on, so a walk that passes more than 128 descriptors has met one twice and never
ends: running out is `Halt.hang`.

`u32_t` arithmetic is that of `UInt32`.
-/

namespace OwnOS.PFAllocator

open Lib

/-- `MaxNumSeg` (`PFAllocator.h:13`). -/
def maxNumSeg : Nat := 128

/-- `ChunkSize` (`PFAllocator.h:16`): the size of a page frame. -/
def chunkSize : UInt32 := 0x1000

/-- An address of an element of `segs`. -/
abbrev SegPtr := Fin maxNumSeg

/-- `PFAllocator::Seg`. -/
structure Seg where
  free : Bool
  begin : UInt32
  blocks : UInt32
  np : Option SegPtr
  deriving DecidableEq

/-- The two list heads. -/
inductive Head where
  | segFree
  | segUsed
  deriving DecidableEq

/-- A `Seg **`. -/
abbrev SegLoc := Loc Head SegPtr

end PFAllocator

open PFAllocator Lib in
/-- The state of a `PFAllocator` object. -/
structure PFAllocator where
  segs : SegPtr → Seg
  segFree : Option SegPtr
  segUsed : Option SegPtr

namespace PFAllocator

open Lib

/-- The constructor `PFAllocator::PFAllocator`: every descriptor free, both lists empty. The other
fields of a descriptor are whatever the memory held. -/
def init (segs : SegPtr → Seg) : PFAllocator where
  segs i := { segs i with free := true }
  segFree := none
  segUsed := none

/-- The pointers of the allocator. -/
def links (a : PFAllocator) : Links Head SegPtr where
  head
    | .segFree => a.segFree
    | .segUsed => a.segUsed
  next i := (a.segs i).np

/-- Change one descriptor. -/
def modify (a : PFAllocator) (i : SegPtr) (f : Seg → Seg) : PFAllocator :=
  { a with segs := Function.update a.segs i (f (a.segs i)) }

/-- `*pp`. -/
def deref (a : PFAllocator) (pp : SegLoc) : Option SegPtr := a.links.get pp

/-- `*pp = p`. -/
def assign (a : PFAllocator) (pp : SegLoc) (p : Option SegPtr) : PFAllocator :=
  match pp with
  | .head .segFree => { a with segFree := p }
  | .head .segUsed => { a with segUsed := p }
  | .next i => a.modify i fun s => { s with np := p }

/-- The end of a segment as the code computes it, `begin + blocks*ChunkSize`. -/
def Seg.fin (s : Seg) : UInt32 := s.begin + s.blocks * chunkSize

/-- `getSeg` (`PFAllocator.cpp:230-239`): the first free descriptor, marked not free. -/
def getSeg (a : PFAllocator) : Res (PFAllocator × SegPtr) :=
  match (List.finRange maxNumSeg).find? fun i => (a.segs i).free with
  | some i => .ok (a.modify i fun s => { s with free := false }, i)
  | none => .error (.panic "PFAllocator:cannot find free segment")

/-- `freeSeg` (`PFAllocator.cpp:240-242`). -/
def freeSeg (a : PFAllocator) (i : SegPtr) : PFAllocator :=
  a.modify i fun s => { s with free := true }

/-- The loop of `addChunk(Seg *)` (`PFAllocator.cpp:37-83`). -/
def addChunkLoop : Nat → PFAllocator → SegPtr → SegLoc → Res PFAllocator
  | 0, _, _, _ => .error .hang
  | fuel + 1, a, seg, cseg =>
    match a.deref cseg with
    | none => .ok (a.assign cseg (some seg))
    | some c =>
      let nseg : SegLoc := .next c
      match a.deref nseg with
      | some n =>
        if (a.segs c).begin < (a.segs seg).begin ∧ (a.segs seg).begin < (a.segs n).begin then
          if (a.segs c).fin = (a.segs seg).begin then
            let a := a.modify c fun s => { s with blocks := s.blocks + (a.segs seg).blocks }
            let a := a.freeSeg seg
            if (a.segs c).fin = (a.segs n).begin then
              let a := a.modify c fun s => { s with blocks := s.blocks + (a.segs n).blocks }
              let a := a.freeSeg n
              .ok (a.assign (.next c) (a.segs n).np)
            else
              .ok a
          else if (a.segs seg).fin = (a.segs n).begin then
            let a := a.modify n fun s => { s with blocks := s.blocks + (a.segs seg).blocks }
            let a := a.modify n fun s => { s with begin := (a.segs seg).begin }
            .ok (a.freeSeg seg)
          else
            let a := a.assign (.next seg) (some n)
            .ok (a.assign (.next c) (some seg))
        else
          addChunkLoop fuel a seg nseg
      | none =>
        if (a.segs c).fin = (a.segs seg).begin then
          let a := a.modify c fun s => { s with blocks := s.blocks + (a.segs seg).blocks }
          .ok (a.freeSeg seg)
        else
          .ok (a.assign (.next c) (some seg))

/-- `addChunk(Seg *)` (`PFAllocator.cpp:32-84`). -/
def addChunkSeg (a : PFAllocator) (seg : SegPtr) : Res PFAllocator :=
  addChunkLoop (maxNumSeg + 1) a seg (.head .segFree)

/-- `addChunk(u32_t, u32_t)` (`PFAllocator.cpp:85-95`). -/
def addChunk (a : PFAllocator) (begin end_ : UInt32) : Res PFAllocator := do
  let B := begin &&& ~~~(chunkSize - 1)
  let E := end_ &&& ~~~(chunkSize - 1)
  let block := (E - B) / chunkSize
  let (a, seg) ← a.getSeg
  let a := a.modify seg fun s => { s with begin := B, blocks := block, np := none }
  a.addChunkSeg seg

/-- The loop of `usedChunk` (`PFAllocator.cpp:103-124`). -/
def usedChunkLoop : Nat → PFAllocator → SegPtr → SegLoc → Res PFAllocator
  | 0, _, _, _ => .error .hang
  | fuel + 1, a, seg, cseg =>
    match a.deref cseg with
    | none => .ok (a.assign cseg (some seg))
    | some c =>
      let nseg : SegLoc := .next c
      match a.deref nseg with
      | some n =>
        if (a.segs c).begin < (a.segs seg).begin ∧ (a.segs seg).begin < (a.segs n).begin then
          let a := a.assign (.next seg) (some n)
          .ok (a.assign (.next c) (some seg))
        else
          usedChunkLoop fuel a seg nseg
      | none => .ok (a.assign (.next c) (some seg))

/-- `usedChunk` (`PFAllocator.cpp:99-125`). -/
def usedChunk (a : PFAllocator) (seg : SegPtr) : Res PFAllocator :=
  usedChunkLoop (maxNumSeg + 1) a seg (.head .segUsed)

/-- The loop of `allocChunk` (`PFAllocator.cpp:134-153`), with the descriptor `useg` in hand. -/
def allocChunkLoop : Nat → PFAllocator → UInt16 → SegPtr → SegLoc → Res (PFAllocator × UInt32)
  | 0, _, _, _, _ => .error .hang
  | fuel + 1, a, seriesNum, useg, ppSeg =>
    match a.deref ppSeg with
    | none => .error (.panic "PFAallocator::cannot allocate segment")
    | some p =>
      if (a.segs p).blocks ≥ seriesNum.toUInt32 then do
        let a := a.modify useg fun s =>
          { s with begin := (a.segs p).begin, blocks := seriesNum.toUInt32, np := none }
        let a := a.modify p fun s =>
          { s with blocks := s.blocks - seriesNum.toUInt32,
                   begin := s.begin + seriesNum.toUInt32 * chunkSize }
        let a :=
          if (a.segs p).blocks = 0 then
            let a := a.freeSeg p
            a.assign ppSeg (a.segs p).np
          else a
        let a ← a.usedChunk useg
        .ok (a, (a.segs useg).begin)
      else
        allocChunkLoop fuel a seriesNum useg (.next p)

/-- `allocChunk` (`PFAllocator.cpp:130-155`). -/
def allocChunk (a : PFAllocator) (seriesNum : UInt16) : Res (PFAllocator × UInt32) := do
  let (a, useg) ← a.getSeg
  allocChunkLoop (maxNumSeg + 1) a seriesNum useg (.head .segFree)

/-- The body of the loop of `removeChunk` (`PFAllocator.cpp:170-202`): the segment `p` against the
rounded range `[bAddrRm, eAddrRm)`. A segment inside the range has no branch of its own. -/
def removeFrom (a : PFAllocator) (p : SegPtr) (bAddrRm eAddrRm : UInt32) : Res PFAllocator :=
  let eAddrChk := (a.segs p).fin
  let bAddrChk := (a.segs p).begin
  if eAddrRm ≥ bAddrChk then
    let chkB := if bAddrChk ≥ bAddrRm then bAddrChk else bAddrRm
    let chkE := if eAddrChk ≤ eAddrRm then eAddrChk else eAddrRm
    let lblkBegin := bAddrChk
    let rblkEnd := eAddrChk
    let lblkEnd := chkB
    let rblkBegin := chkE
    if lblkEnd > lblkBegin then
      if rblkEnd > rblkBegin then do
        let (a, rSeg) ← a.getSeg
        let a := a.modify p fun s =>
          { s with begin := lblkBegin, blocks := (lblkEnd - lblkBegin) / chunkSize }
        let a := a.modify rSeg fun s =>
          { s with begin := rblkBegin, blocks := (rblkEnd - rblkBegin) / chunkSize,
                   np := (a.segs p).np }
        .ok (a.assign (.next p) (some rSeg))
      else
        .ok (a.modify p fun s =>
          { s with begin := lblkBegin, blocks := (lblkEnd - lblkBegin) / chunkSize })
    else if rblkEnd > rblkBegin then
      .ok (a.modify p fun s =>
        { s with begin := rblkBegin, blocks := (rblkEnd - rblkBegin) / chunkSize })
    else .ok a
  else .ok a

/-- The loop of `removeChunk` (`PFAllocator.cpp:169-204`). -/
def removeChunkLoop : Nat → PFAllocator → UInt32 → UInt32 → SegLoc → Res PFAllocator
  | 0, _, _, _, _ => .error .hang
  | fuel + 1, a, bAddrRm, eAddrRm, ppSeg =>
    match a.deref ppSeg with
    | none => .ok a
    | some p => do
      let a ← a.removeFrom p bAddrRm eAddrRm
      removeChunkLoop fuel a bAddrRm eAddrRm (.next p)

/-- `removeChunk` (`PFAllocator.cpp:164-205`). -/
def removeChunk (a : PFAllocator) (bAddrRm eAddrRm : UInt32) : Res PFAllocator :=
  removeChunkLoop (maxNumSeg + 1) a (bAddrRm &&& ~~~(chunkSize - 1))
    ((eAddrRm + (chunkSize - 1)) &&& ~~~(chunkSize - 1)) (.head .segFree)

/-- The loop of `freeChunk` (`PFAllocator.cpp:211-220`). -/
def freeChunkLoop : Nat → PFAllocator → UInt32 → SegLoc → Res PFAllocator
  | 0, _, _, _ => .error .hang
  | fuel + 1, a, addr, ppSeg =>
    match a.deref ppSeg with
    | none => .error (.panic "PFAallocator::Ivalid Chunk freed")
    | some p =>
      if (a.segs p).begin = addr then
        let a := a.assign ppSeg (a.segs p).np
        a.addChunkSeg p
      else
        freeChunkLoop fuel a addr (.next p)

/-- `freeChunk` (`PFAllocator.cpp:209-222`). -/
def freeChunk (a : PFAllocator) (addr : UInt32) : Res PFAllocator :=
  freeChunkLoop (maxNumSeg + 1) a addr (.head .segUsed)

/-! ## Field lemmas -/

variable {a : PFAllocator} {i j : SegPtr} {f : Seg → Seg} {c : SegLoc} {p : Option SegPtr}

@[simp] theorem modify_segs_self : (a.modify i f).segs i = f (a.segs i) := by simp [modify]

theorem modify_segs_of_ne (h : j ≠ i) : (a.modify i f).segs j = a.segs j := by
  simp [modify, h]

/-- A change that keeps `np` keeps every pointer. -/
theorem links_modify (h : (f (a.segs i)).np = (a.segs i).np) : (a.modify i f).links = a.links := by
  have hn : (fun j => ((a.modify i f).segs j).np) = fun j => (a.segs j).np := by
    funext j
    by_cases hj : j = i
    · subst hj
      rw [modify_segs_self, h]
    · rw [modify_segs_of_ne hj]
  unfold links
  rw [hn]
  rfl

theorem links_assign : (a.assign c p).links = a.links.set c p := by
  cases c with
  | head k =>
    cases k <;> simp only [assign, links, Links.set, Links.mk.injEq, and_true] <;> funext k <;>
      cases k <;> rfl
  | next i =>
    simp only [assign, links, modify, Links.set, Links.mk.injEq, true_and]
    funext j
    by_cases hj : j = i
    · subst hj; simp
    · simp [hj]

/-- A store of a pointer changes no other field. -/
theorem assign_segs : (a.assign c p).segs j =
    if c = .next j then { a.segs j with np := p } else a.segs j := by
  cases c with
  | head k => cases k <;> rfl
  | next i =>
    by_cases hj : j = i
    · subst hj; simp [assign]
    · have : ¬ i = j := fun e => hj e.symm
      simp [assign, modify, hj, this]

@[simp] theorem assign_begin : ((a.assign c p).segs j).begin = (a.segs j).begin := by
  rw [assign_segs]; split <;> rfl

@[simp] theorem assign_blocks : ((a.assign c p).segs j).blocks = (a.segs j).blocks := by
  rw [assign_segs]; split <;> rfl

@[simp] theorem assign_free : ((a.assign c p).segs j).free = (a.segs j).free := by
  rw [assign_segs]; split <;> rfl

end OwnOS.PFAllocator
