import OwnOS.Lib.Bytes

/-!
# Reading files (`Ext2.cpp`, `FileSystem.cpp`)

`Ata::read` answers with the bytes of the disk. Every buffer is a `Buf`, so a read leaves the rest
of the memory as it was; a buffer fresh from `new` has arbitrary content (`junk`). Positions, sizes
and block numbers are `u32_t`, the block counts of `read_block_pos` and of `File::read` are `int`,
as in the source. `File::read_block` takes its destination at an offset, since `File::read` moves
the destination along.

* `Ext2.readBlock`, `Ext2.readBlockPos`: `Ext2.cpp:68-117`.
* `FileSystem.readBlock`, `File.readBlock`, `File.read`: `FileSystem.cpp:58-147`.
-/

namespace OwnOS.Disk

open Lib

/-- The disk behind the driver, of any size. The driver takes `u32_t` positions, so it reaches the
first 4 GiB. -/
structure Ata where
  size : Nat
  byte : Buf

/-- `Ata::read`, to the offset `o` of `buffer`. -/
def Ata.read (ata : Ata) (pos : UInt32) (buffer : Buf) (o : Nat) (size : UInt32) : Buf :=
  buffer.put o size.toNat fun k => ata.byte (pos.toNat + k)

instance neZero_iBlock : NeZero 15 := ⟨by decide⟩

/-- `ext2_inode`: the fields that the code reads. -/
structure Inode where
  iMode : UInt16
  iSize : UInt32
  iBlock : Fin 15 → UInt32

/-- `i_mode >> 12`. -/
def Inode.type (inode : Inode) : UInt16 := inode.iMode >>> 12

/-- Tests the bit `FT_DIR`. -/
def Inode.isDirectory (inode : Inode) : Bool := inode.type &&& 4 != 0

/-- Between `FT_UNKNOWN` and `FT_MAX`. -/
def Inode.isValid (inode : Inode) : Bool := 0 < inode.type && inode.type < 13

/-- `i_block[i]`. -/
def Inode.block (inode : Inode) (i : Int32) : UInt32 := inode.iBlock (Fin.ofNat 15 i.toNatClampNeg)

theorem zeroInode_mode : (⟨0, 0, fun _ => 0⟩ : Inode).iMode = 0 := rfl

/-- `Ext2`. The constructor of `invalid_inode` sets its mode only. -/
structure Ext2 where
  atadriver : Ata
  blockSize : UInt32
  rootInode : Inode
  invalidInode : Inode
  invalid_mode : invalidInode.iMode = 0

def firstBlockaddr : UInt32 := 0x7e00

namespace Ext2

variable (fs : Ext2)

/-- A word: the address of a block at 4 GiB or above is taken mod 2^32. -/
def blockIndex2addr (index : UInt32) : UInt32 := firstBlockaddr + index * fs.blockSize

def readBlock (blockIndex : UInt32) (buffer : Buf) (o : Nat) : Buf :=
  fs.atadriver.read (fs.blockIndex2addr blockIndex) buffer o fs.blockSize

/-- `((u32_t *)buffer)[i]`. -/
def entry (buffer : Buf) (o : Nat) (i : Int32) : UInt32 := buffer.le32 (o + 4 * i.toNatClampNeg)

/-- Reads the block of the file that holds the byte `pos`. Each block of pointers is read into the
buffer of the caller. -/
def readBlockPos (pos : UInt32) (buffer : Buf) (o : Nat) (inode : Inode) : Bool × Buf :=
  let accessblock := (pos / fs.blockSize).toInt32
  if pos + fs.blockSize > inode.iSize then (false, buffer)
  else
    let nrEntry := (fs.blockSize / 4).toInt32
    let maxnrDirBlock : Int32 := 12
    let maxnrIndBlock := 12 + nrEntry
    let maxnrDindBlock := maxnrIndBlock + nrEntry * nrEntry
    let maxnrTindBlock := maxnrDindBlock + nrEntry * nrEntry * nrEntry
    if accessblock < maxnrDirBlock then
      (true, fs.readBlock (inode.block accessblock) buffer o)
    else if accessblock < maxnrIndBlock then
      let b := fs.readBlock (inode.block 12) buffer o
      let blockIndex := entry b o (accessblock - maxnrDirBlock)
      (true, fs.readBlock blockIndex b o)
    else if accessblock < maxnrDindBlock then
      let b := fs.readBlock (inode.block 13) buffer o
      let firstIndex := entry b o ((accessblock - maxnrIndBlock) / nrEntry)
      let b := fs.readBlock firstIndex b o
      let secondIndex := entry b o ((accessblock - maxnrIndBlock) % nrEntry)
      (true, fs.readBlock secondIndex b o)
    else if accessblock < maxnrTindBlock then
      let b := fs.readBlock (inode.block 14) buffer o
      let firstIndex := entry b o ((accessblock - maxnrDindBlock) / (nrEntry * nrEntry))
      let b := fs.readBlock firstIndex b o
      let secondIndex := entry b o ((accessblock - maxnrDindBlock) / nrEntry % nrEntry)
      let b := fs.readBlock secondIndex b o
      let thirdIndex := entry b o ((accessblock - maxnrDindBlock) % nrEntry)
      (true, fs.readBlock thirdIndex b o)
    else (true, buffer)

end Ext2

structure FileSystem where
  rootFs : Ext2

def FileSystem.blockSize (fs : FileSystem) : UInt32 := fs.rootFs.blockSize

/-- Answers true whatever `read_block_pos` says. -/
def FileSystem.readBlock (fs : FileSystem) (pos : UInt32) (dbuffer : Buf) (o : Nat)
    (inode : Inode) : Bool × Buf :=
  (true, (fs.rootFs.readBlockPos pos dbuffer o inode).2)

structure File where
  fs : FileSystem
  inode : Inode

namespace File

variable (f : File)

/-- Copies at most a block's length through a buffer of one or two blocks. -/
def readBlock (junk : Buf) (addr size : UInt32) (dbuffer : Buf) (o : Nat) : Bool × Buf :=
  let blockSize := f.fs.blockSize
  let blockMask := f.fs.blockSize - 1
  if size > blockSize then (false, dbuffer)
  else
    let buffer :=
      if (addr &&& blockMask) + size > blockSize then
        let b := (f.fs.readBlock (addr &&& ~~~blockMask) junk 0 f.inode).2
        -- `addr&~block_mask+block_size`: the sum binds tighter than the `&`
        (f.fs.readBlock (addr &&& (~~~blockMask + blockSize)) b blockSize.toNat f.inode).2
      else
        (f.fs.readBlock (addr &&& ~~~blockMask) junk 0 f.inode).2
    (true, dbuffer.put o size.toNat fun k => buffer ((addr &&& blockMask).toNat + k))

/-- The loop over whole blocks: `n` rounds, the `i`-th with its own buffer. `dest` counts from
`dbuffer`. -/
def readBlocks (junk : Nat → Buf) (blockSize : Int32) :
    Nat → Nat → UInt32 → UInt32 → Buf → UInt32 × UInt32 × Buf
  | 0, _, src, dest, d => (src, dest, d)
  | n + 1, i, src, dest, d =>
    let d := (f.readBlock (junk i) src blockSize.toUInt32 d dest.toNat).2
    readBlocks junk blockSize n (i + 1) (src + blockSize.toUInt32) (dest + blockSize.toUInt32) d

/-- Without a `return`. `int` and `u32_t` compare and add as `u32_t`. -/
def read (junk : Nat → Buf) (addr size : UInt32) (dbuffer : Buf) : Buf :=
  let blockSize := f.fs.blockSize.toInt32
  if size > blockSize.toUInt32 then
    let edgeSize := (blockSize.toUInt32 - addr % blockSize.toUInt32).toInt32
    let remainSize := (size - edgeSize.toUInt32).toInt32
    let nrBlocks := remainSize / blockSize
    let d := if edgeSize ≠ 0 then (f.readBlock (junk 0) addr edgeSize.toUInt32 dbuffer 0).2
      else dbuffer
    let (src, dest, d) := f.readBlocks junk blockSize nrBlocks.toNatClampNeg 1
      (addr + edgeSize.toUInt32) edgeSize.toUInt32 d
    let remainSize := remainSize % blockSize
    if remainSize ≠ 0 then
      (f.readBlock (junk (nrBlocks.toNatClampNeg + 1)) src remainSize.toUInt32 d dest.toNat).2
    else d
  else (f.readBlock (junk 0) addr size dbuffer 0).2

end File

end OwnOS.Disk
