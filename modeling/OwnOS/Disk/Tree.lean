import OwnOS.Disk.Blocks
import OwnOS.Disk.KString

/-!
# Path resolution (`Ext2.cpp:21-52`) and the directory tree

`find_inode_from_direntries` walks a chain of entries in a buffer; a chain with `rec_len` 0 keeps it
there, so the walk takes `fuel` and answers `none` when that runs out. What `kmalloc` and `new`
leave in their memory is `Junk`; the entry that reaches over the end of the buffer is read from it.

Below the code stands what a path means on the disk. The data of a directory are its blocks, each a
chain of entries that fills it (`Fills`); an entry with inode 0 is deleted. `lookup` finds the first
live entry of a name, `resolve` follows a list of names.
-/

namespace OwnOS.Disk

open Lib

/-! ## `ext2_dir_entry_2` at the offset `file` of a buffer -/

namespace Dirent

variable (buffer : Buf) (file : Nat)

def inode : UInt32 := buffer.le32 file

def recLen : Nat := (buffer.le16 (file + 4)).toNat

def nameLen : Nat := (buffer (file + 6)).toNat

def name : Buf := fun i => buffer (file + 8 + i)

def nameBytes : List UInt8 := (name buffer file).bytes (nameLen buffer file)

end Dirent

/-! ## The code -/

/-- Uninitialised memory, for each component of the path: the buffer of the directory with what lies
behind it, the string of each entry, and the copy of the name searched for. -/
structure Junk where
  buffer : Nat → Buf
  fileName : Nat → Nat → Buf
  path : Nat → Buf

namespace Ext2

variable (fs : Ext2) (getInode : UInt32 → Inode)

def findInodeFromDirentries (fresh : Nat → Buf) (buffer : Buf) (searchFor : KString) :
    Nat → Nat → Option Inode
  | 0, _ => none
  | fuel + 1, file =>
    let fileName := KString.make (fresh file) (Dirent.name buffer file) (Dirent.nameLen buffer file)
    if searchFor.eq fileName then some (getInode (Dirent.inode buffer file))
    else
      let file := file + Dirent.recLen buffer file
      if file < 0x400 then findInodeFromDirentries fresh buffer searchFor fuel file
      else some fs.invalidInode

/-- The first 0x400 bytes of the first block. -/
def dirBuffer (cnode : Inode) (junk : Buf) : Buf :=
  fs.atadriver.read (fs.blockIndex2addr (cnode.iBlock 0)) junk 0 0x400

/-- The loop from the component `i` on. The vector is passed by value. -/
def getInodePathFrom (junk : Junk) (fuel : Nat) : Nat → Inode → List KString → Option Inode
  | _, cnode, [] => some cnode
  | i, cnode, name :: path =>
    if !cnode.isDirectory then some fs.invalidInode
    else
      match fs.findInodeFromDirentries getInode (junk.fileName i)
          (fs.dirBuffer cnode (junk.buffer i)) (name.copy (junk.path i)) fuel 0 with
      | none => none
      | some cnode =>
        if !cnode.isValid then some fs.invalidInode
        else getInodePathFrom junk fuel (i + 1) cnode path

def getInodePath (junk : Junk) (fuel : Nat) (path : List KString) : Option Inode :=
  fs.getInodePathFrom getInode junk fuel 0 fs.rootInode path

/-! ## What a path means -/

end Ext2

/-- A directory entry. -/
structure Entry where
  inode : UInt32
  name : List UInt8

/-- The entries of a chain in a block of `bs` bytes, from the offset `o` on. -/
def entriesFrom (b : Buf) (bs : Nat) : Nat → Nat → List Entry
  | 0, _ => []
  | n + 1, o =>
    if o < bs then
      ⟨Dirent.inode b o, Dirent.nameBytes b o⟩ :: entriesFrom b bs n (o + Dirent.recLen b o)
    else []

/-- A chain of entries that fills the block. -/
inductive Fills (b : Buf) (bs : Nat) : Nat → Prop
  | done : Fills b bs bs
  | entry {o : Nat} : o < bs → 8 + Dirent.nameLen b o ≤ Dirent.recLen b o →
      Fills b bs (o + Dirent.recLen b o) → Fills b bs o

namespace Ext2

variable (fs : Ext2) (getInode : UInt32 → Inode)

/-- The block `b` of a directory. -/
def blockData (d : Inode) (b : Nat) : Buf := fun k => fs.fileByte d (b * fs.blockSize.toNat + k)

/-- The entries of a directory, block after block. -/
def dirEntries (d : Inode) : List Entry :=
  (List.range (d.iSize.toNat / fs.blockSize.toNat)).flatMap fun b =>
    entriesFrom (fs.blockData d b) fs.blockSize.toNat fs.blockSize.toNat 0

/-- The inode number of the live entry named `m`. -/
def lookup (d : Inode) (m : Name) : Option UInt32 :=
  if d.type = 4 then
    ((fs.dirEntries d).find? fun e => e.inode != 0 && e.name == m.1).map Entry.inode
  else none

def resolveFrom : Inode → List Name → Option Inode
  | d, [] => some d
  | d, m :: names => (fs.lookup d m).bind fun n => resolveFrom (getInode n) names

/-- The inode that the names lead to from the root. -/
def resolve (names : List Name) : Option Inode := fs.resolveFrom getInode fs.rootInode names

/-- A well-formed directory tree: what a path reaches is an inode in use, and each directory is a
file without holes whose blocks are full of entries. -/
structure WellFormed : Prop where
  blockSize : fs.BlockSizeOk
  root : fs.rootInode.type = 4
  valid : ∀ names d, fs.resolve getInode names = some d → d.isValid
  noHoles : ∀ names d, fs.resolve getInode names = some d → d.type = 4 → fs.NoHoles d
  blocks : ∀ names d, fs.resolve getInode names = some d → d.type = 4 →
    d.iSize.toNat % fs.blockSize.toNat = 0 ∧
      ∀ b < d.iSize.toNat / fs.blockSize.toNat, Fills (fs.blockData d b) fs.blockSize.toNat 0

end Ext2

end OwnOS.Disk
