import OwnOS.Disk.Blocks

/-!
# Where the inodes are (`Ext2.cpp:3-19`, `Ext2.cpp:165-174`)

The volume starts at `first_blockaddr`. Its superblock is at the byte 1024, the table of the group
descriptors begins with the next block, and the descriptor of a group names the first block of its
inode table. `get_inode` looks for the descriptor of a group 0x800 bytes behind the start of that
group, where it expects the descriptor of the group itself, and takes `sizeof(ext2_inode)` for the
size of an inode: `inode_size` is read from the superblock and never used.

* `Ext2.getInode`, `Ext2.mount`: the code.
* `Volume.inode`: the inode as ext2 stores it.
* `getInode_iff`: which inodes are read from the right place (`Plain`). For the others some image of
  the same layout (`marked`) shows the difference.
-/

namespace OwnOS.Disk

open Lib

/-- `ext2_super_block`: the fields that the code reads, and the counts that say which inodes there
are. -/
structure SuperBlock where
  sInodesCount : UInt32
  sBlocksCount : UInt32
  sLogBlockSize : UInt32
  sBlocksPerGroup : UInt32
  sInodesPerGroup : UInt32
  sInodeSize : UInt16

/-- The layout of `ext2_super_block` (`Ext2.h:165-230`). -/
def SuperBlock.ofBytes (b : Buf) : SuperBlock where
  sInodesCount := b.le32 0
  sBlocksCount := b.le32 4
  sLogBlockSize := b.le32 24
  sBlocksPerGroup := b.le32 32
  sInodesPerGroup := b.le32 40
  sInodeSize := b.le16 88

/-- `block_size`. -/
def SuperBlock.blockSize (sb : SuperBlock) : UInt32 := 1024 <<< sb.sLogBlockSize

/-- The layout of `ext2_inode` (`Ext2.h:94-150`). -/
def Inode.ofBytes (b : Buf) : Inode where
  iMode := b.le16 0
  iSize := b.le32 4
  iBlock i := b.le32 (40 + 4 * i.val)

/-- `bg_inode_table` of `ext2_group_desc`. -/
def bgInodeTable (b : Buf) : UInt32 := b.le32 8

def groupDescOffset : UInt32 := 0x800

namespace Ext2

/-- `get_inode`. The buffers are overwritten where they are read (`fresh`). -/
def getInode (fs : Ext2) (sb : SuperBlock) (fresh : Buf) (inodeIndex : UInt32) : Inode :=
  let blockGroupOfInode := (inodeIndex - 1) / sb.sInodesPerGroup
  let indexInBgroup := (inodeIndex - 1) % sb.sInodesPerGroup
  let addrBgroupDesc :=
    (firstBlockaddr + blockGroupOfInode * sb.sBlocksPerGroup * fs.blockSize) + groupDescOffset
  let bgroup := fs.atadriver.read addrBgroupDesc fresh 0 32
  let inode := fs.atadriver.read
    (fs.blockIndex2addr (bgInodeTable bgroup) + indexInBgroup * 128) fresh 0 128
  Inode.ofBytes inode

/-- The superblock that the constructor reads. -/
def superBlock (ata : Ata) (fresh : Buf) : SuperBlock :=
  SuperBlock.ofBytes (ata.read (firstBlockaddr + 0x400) fresh 0 1024)

/-- The constructor. `fresh` is also what `invalid_inode` has beside its mode. -/
def mount (ata : Ata) (fresh : Buf) : Ext2 :=
  let sb := superBlock ata fresh
  let invalid : Inode := { Inode.ofBytes fresh with iMode := 0 }
  let fs : Ext2 := ⟨ata, sb.blockSize, invalid, invalid, rfl⟩
  { fs with rootInode := fs.getInode sb fresh 2 }

end Ext2

/-! ## The ext2 layout -/

namespace Volume

/-- The bytes of the volume. -/
def bytes (ata : Ata) : Buf := fun p => ata.byte (firstBlockaddr.toNat + p)

/-- The bytes of the volume from `p` on. -/
def behind (ata : Ata) (p : Nat) : Buf := fun k => bytes ata (p + k)

def superBlock (ata : Ata) : SuperBlock := SuperBlock.ofBytes (behind ata 1024)

/-- The block size. -/
def bs (ata : Ata) : Nat := 1024 * 2 ^ (superBlock ata).sLogBlockSize.toNat

/-- The block that holds the superblock is block 1 for blocks of 1024 bytes, else block 0; the
descriptors start in the next one. -/
def descriptors (ata : Ata) : Nat := if bs ata = 1024 then 2048 else bs ata

/-- `bg_inode_table` of the group `g`. -/
def inodeTable (ata : Ata) (g : Nat) : Nat :=
  (bgInodeTable (behind ata (descriptors ata + 32 * g))).toNat

def group (ata : Ata) (i : UInt32) : Nat := (i.toNat - 1) / (superBlock ata).sInodesPerGroup.toNat

def index (ata : Ata) (i : UInt32) : Nat := (i.toNat - 1) % (superBlock ata).sInodesPerGroup.toNat

/-- **The inode `i` as it is stored.** -/
def inode (ata : Ata) (i : UInt32) : Inode :=
  Inode.ofBytes (behind ata (inodeTable ata (group ata i) * bs ata
    + index ata i * (superBlock ata).sInodeSize.toNat))

def size (ata : Ata) : Nat := (superBlock ata).sBlocksCount.toNat * bs ata

/-- `s_first_data_block`: the block of the superblock. -/
def firstDataBlock (ata : Ata) : Nat := if bs ata = 1024 then 1 else 0

def nrGroups (ata : Ata) : Nat :=
  ((superBlock ata).sBlocksCount.toNat - firstDataBlock ata
    + ((superBlock ata).sBlocksPerGroup.toNat - 1)) / (superBlock ata).sBlocksPerGroup.toNat

/-- An ext2 image below 2 GiB. -/
structure WellFormed (ata : Ata) : Prop where
  blockSize : (superBlock ata).sLogBlockSize.toNat ≤ 2
  blocksPerGroup : 0 < (superBlock ata).sBlocksPerGroup.toNat
  inodesPerGroup : 0 < (superBlock ata).sInodesPerGroup.toNat
  inodeSize : 128 ≤ (superBlock ata).sInodeSize.toNat
  below : firstBlockaddr.toNat + size ata ≤ 2147483648
  onDisk : firstBlockaddr.toNat + size ata ≤ ata.size
  inodesCount : (superBlock ata).sInodesCount.toNat
    = nrGroups ata * (superBlock ata).sInodesPerGroup.toNat
  /-- The descriptors lie in the first group. -/
  firstGroup : descriptors ata + 32 * nrGroups ata
    ≤ (firstDataBlock ata + (superBlock ata).sBlocksPerGroup.toNat) * bs ata
  /-- The inode tables lie in the volume, behind the descriptors. -/
  tables : ∀ g < nrGroups ata,
    descriptors ata + 32 * nrGroups ata ≤ inodeTable ata g * bs ata ∧
      inodeTable ata g * bs ata
        + (superBlock ata).sInodesPerGroup.toNat * (superBlock ata).sInodeSize.toNat ≤ size ata

/-- The number of an inode of the volume. -/
structure IsInode (ata : Ata) (i : UInt32) : Prop where
  pos : 1 ≤ i.toNat
  le : i.toNat ≤ (superBlock ata).sInodesCount.toNat

/-- 0x800 bytes behind the start of the group. -/
def descLookedAt (ata : Ata) (g : Nat) : Nat :=
  g * (superBlock ata).sBlocksPerGroup.toNat * bs ata + 0x800

/-- The position on the disk where `get_inode` looks for the inode. The block number that it finds
behind the start of the group may be anything. -/
def inodeLookedAt (ata : Ata) (i : UInt32) : Nat :=
  (firstBlockaddr.toNat
    + (bgInodeTable (behind ata (descLookedAt ata (group ata i)))).toNat * bs ata
    + index ata i * 128) % 4294967296

/-- In the first group, with a block size up to 2048, and first in the group unless the inodes have
128 bytes. -/
structure Plain (ata : Ata) (i : UInt32) : Prop where
  group : group ata i = 0
  blockSize : bs ata ≤ 2048
  inodeSize : index ata i = 0 ∨ (superBlock ata).sInodeSize.toNat = 128

/-- The disk happens to hold the same inode where `get_inode` looks. -/
def Coincides (ata : Ata) (i : UInt32) : Prop :=
  Inode.ofBytes (fun k => ata.byte (inodeLookedAt ata i + k)) = inode ata i

end Volume

theorem Inode.ofBytes_congr {b b' : Buf} (h : ∀ k < 128, b k = b' k) :
    Inode.ofBytes b = Inode.ofBytes b' := by
  unfold Inode.ofBytes
  congr 1
  · exact Buf.le16_congr fun k hk => h (0 + k) (by omega)
  · exact Buf.le32_congr fun k hk => h (4 + k) (by omega)
  · funext i
    exact Buf.le32_congr fun k hk => h (40 + 4 * i.val + k) (by omega)

theorem SuperBlock.ofBytes_congr {b b' : Buf} (h : ∀ k < 1024, b k = b' k) :
    SuperBlock.ofBytes b = SuperBlock.ofBytes b' := by
  unfold SuperBlock.ofBytes
  congr 1
  · exact Buf.le32_congr fun k hk => h (0 + k) (by omega)
  · exact Buf.le32_congr fun k hk => h (4 + k) (by omega)
  · exact Buf.le32_congr fun k hk => h (24 + k) (by omega)
  · exact Buf.le32_congr fun k hk => h (32 + k) (by omega)
  · exact Buf.le32_congr fun k hk => h (40 + k) (by omega)
  · exact Buf.le16_congr fun k hk => h (88 + k) (by omega)

namespace Volume

variable {ata : Ata} {i : UInt32} {fresh fresh' : Buf}

/-- The constructor reads the superblock of the volume. -/
theorem superBlock_eq (ata : Ata) (fresh : Buf) : Ext2.superBlock ata fresh = superBlock ata := by
  refine SuperBlock.ofBytes_congr fun k hk => ?_
  rw [Ata.read, Buf.put_zero_apply (show k < (1024 : UInt32).toNat from hk), behind, bytes,
    ← Nat.add_assoc]
  rfl

theorem mount_blockSize (ata : Ata) (fresh : Buf) :
    (Ext2.mount ata fresh).blockSize = (superBlock ata).blockSize := by
  rw [← superBlock_eq ata fresh]
  rfl

theorem WellFormed.toNat_blockSize (h : WellFormed ata) :
    (superBlock ata).blockSize.toNat = bs ata := by
  have hk := h.blockSize
  have hshift : (superBlock ata).blockSize.toNat
      = 1024 <<< ((superBlock ata).sLogBlockSize.toNat % 32) % 2 ^ 32 := UInt32.toNat_shiftLeft _ _
  have hpow := Nat.pow_le_pow_right (n := 2) (by omega) hk
  have hmod : (superBlock ata).sLogBlockSize.toNat % 32 = (superBlock ata).sLogBlockSize.toNat :=
    Nat.mod_eq_of_lt (by omega)
  rw [hshift, hmod, Nat.shiftLeft_eq, bs]
  exact Nat.mod_eq_of_lt (by omega)

theorem WellFormed.bs_cases (h : WellFormed ata) :
    bs ata = 1024 ∨ bs ata = 2048 ∨ bs ata = 4096 := by
  have hk := h.blockSize
  unfold bs
  generalize (superBlock ata).sLogBlockSize.toNat = k at hk
  obtain rfl | rfl | rfl : k = 0 ∨ k = 1 ∨ k = 2 := by omega
  · exact .inl rfl
  · exact .inr (.inl rfl)
  · exact .inr (.inr rfl)

theorem toNat_group (hi : IsInode ata i) :
    ((i - 1) / (superBlock ata).sInodesPerGroup).toNat = group ata i ∧
      ((i - 1) % (superBlock ata).sInodesPerGroup).toNat = index ata i := by
  have h1 : (i - 1).toNat = i.toNat - 1 := Word.toNat_sub_of_le hi.pos
  constructor
  · rw [UInt32.toNat_div, h1]
    rfl
  · rw [UInt32.toNat_mod, h1]
    rfl

theorem WellFormed.group_lt (h : WellFormed ata) (hi : IsInode ata i) :
    group ata i < nrGroups ata := by
  have hle := hi.le
  have hpos := hi.pos
  rw [h.inodesCount] at hle
  exact (Nat.div_lt_iff_lt_mul h.inodesPerGroup).mpr (by omega)

/-- The group starts in the volume. -/
theorem WellFormed.group_start (h : WellFormed ata) (hi : IsInode ata i) :
    group ata i * (superBlock ata).sBlocksPerGroup.toNat * bs ata < size ata := by
  have hpos : 0 < bs ata := by
    rcases h.bs_cases with hb | hb | hb <;> omega
  refine Nat.mul_lt_mul_of_pos_right ?_ hpos
  have hlt := h.group_lt hi
  have hbpg := h.blocksPerGroup
  unfold nrGroups at hlt
  have := (Nat.lt_div_iff_mul_lt hbpg).mp hlt
  omega

/-- `addr_bgroup_desc`. -/
theorem WellFormed.toNat_addr (h : WellFormed ata) (hi : IsInode ata i) :
    (firstBlockaddr + (i - 1) / (superBlock ata).sInodesPerGroup * (superBlock ata).sBlocksPerGroup
        * (superBlock ata).blockSize + groupDescOffset).toNat
      = firstBlockaddr.toNat + descLookedAt ata (group ata i) := by
  have hlt := h.group_start hi
  have hbelow := h.below
  have hgroup := (toNat_group hi).1
  have hbs := h.toNat_blockSize
  have hpos : 0 < bs ata := by
    rcases h.bs_cases with hb | hb | hb <;> omega
  have hle := Nat.le_mul_of_pos_right
    (group ata i * (superBlock ata).sBlocksPerGroup.toNat) hpos
  have h1 : ((i - 1) / (superBlock ata).sInodesPerGroup * (superBlock ata).sBlocksPerGroup).toNat
      = group ata i * (superBlock ata).sBlocksPerGroup.toNat := by
    rw [Word.toNat_mul_of_lt (by rw [hgroup]; omega), hgroup]
  have h2 : ((i - 1) / (superBlock ata).sInodesPerGroup * (superBlock ata).sBlocksPerGroup
      * (superBlock ata).blockSize).toNat
      = group ata i * (superBlock ata).sBlocksPerGroup.toNat * bs ata := by
    rw [Word.toNat_mul_of_lt (by rw [h1, hbs]; omega), h1, hbs]
  have hfirst : firstBlockaddr.toNat = 32256 := rfl
  have hoff : groupDescOffset.toNat = 2048 := rfl
  rw [Word.toNat_add_of_lt (by rw [Word.toNat_add_of_lt (by omega)]; omega),
    Word.toNat_add_of_lt (by omega), h2, hoff, descLookedAt, Nat.add_assoc]

/-- **What `get_inode` reads.** -/
theorem getInode_eq (h : WellFormed ata) (hi : IsInode ata i) :
    (Ext2.mount ata fresh).getInode (Ext2.superBlock ata fresh) fresh' i
      = Inode.ofBytes fun k => ata.byte (inodeLookedAt ata i + k) := by
  obtain ⟨-, hindex⟩ := toNat_group hi
  have hbs := h.toNat_blockSize
  have htable (b : Buf) (hb : ∀ k < 32, b k = behind ata (descLookedAt ata (group ata i)) k) :
      bgInodeTable b = bgInodeTable (behind ata (descLookedAt ata (group ata i))) :=
    Buf.le32_congr fun k hk => hb (8 + k) (by omega)
  have hata : (Ext2.mount ata fresh).atadriver = ata := rfl
  rw [superBlock_eq, Ext2.getInode, mount_blockSize, hata, htable _ fun k hk => ?_]
  · refine Inode.ofBytes_congr fun k hk => ?_
    rw [Ata.read, Buf.put_zero_apply (show k < (128 : UInt32).toNat from hk), inodeLookedAt]
    refine congrArg (fun p => ata.byte (p + k)) ?_
    rw [Ext2.blockIndex2addr, mount_blockSize, UInt32.toNat_add, UInt32.toNat_add, UInt32.toNat_mul,
      UInt32.toNat_mul, hindex, hbs, show (128 : UInt32).toNat = 128 from rfl]
    omega
  · rw [Ata.read, Buf.put_zero_apply (show k < (32 : UInt32).toNat from hk), h.toNat_addr hi,
      behind, bytes, Nat.add_assoc]

/-- The descriptor is looked for in its place in the first group only, where the blocks have at most
2048 bytes. -/
theorem WellFormed.descLookedAt_iff (h : WellFormed ata) (g : Nat) :
    descLookedAt ata g = descriptors ata + 32 * g ↔ g = 0 ∧ bs ata ≤ 2048 := by
  have hpos := h.blocksPerGroup
  have hle : g * 1 ≤ g * (superBlock ata).sBlocksPerGroup.toNat := Nat.mul_le_mul_left g hpos
  have hzero : g = 0 → g * (superBlock ata).sBlocksPerGroup.toNat = 0 := by
    rintro rfl
    exact Nat.zero_mul _
  unfold descLookedAt descriptors
  rcases h.bs_cases with hb | hb | hb
  · rw [hb, if_pos rfl]
    omega
  · rw [hb, if_neg (by omega)]
    omega
  · rw [hb, if_neg (by omega)]
    omega

theorem index_iff (ata : Ata) (i : UInt32) :
    index ata i * 128 = index ata i * (superBlock ata).sInodeSize.toNat ↔
      index ata i = 0 ∨ (superBlock ata).sInodeSize.toNat = 128 := by
  rw [mul_eq_mul_left_iff, eq_comm, or_comm]

/-- A plain inode is read from its place. -/
theorem Plain.coincides (hp : Plain ata i) (h : WellFormed ata) (hi : IsInode ata i) :
    Coincides ata i := by
  have hdesc := (h.descLookedAt_iff (Volume.group ata i)).mpr ⟨hp.group, hp.blockSize⟩
  have hidx := (index_iff ata i).mpr hp.inodeSize
  have htab := (h.tables _ (h.group_lt hi)).2
  have hbelow := h.below
  have hlt : index ata i < (superBlock ata).sInodesPerGroup.toNat :=
    Nat.mod_lt _ h.inodesPerGroup
  have hmul := Nat.mul_le_mul_right (superBlock ata).sInodeSize.toNat hlt.le
  have hpos : inodeLookedAt ata i = firstBlockaddr.toNat
      + (inodeTable ata (Volume.group ata i) * bs ata
        + index ata i * (superBlock ata).sInodeSize.toNat) := by
    rw [inodeLookedAt, hdesc, hidx, ← inodeTable, Nat.mod_eq_of_lt (by omega), Nat.add_assoc]
  unfold Coincides inode
  refine Inode.ofBytes_congr fun k _ => ?_
  rw [hpos, behind, bytes, Nat.add_assoc]

/-! ## Images of one layout -/

/-- The superblock and the descriptors. -/
def Kept (ata : Ata) (p : Nat) : Prop :=
  (1024 ≤ p ∧ p < 2048) ∨ (descriptors ata ≤ p ∧ p < descriptors ata + 32 * nrGroups ata)

instance decidableKept (ata : Ata) (p : Nat) : Decidable (Kept ata p) := by
  unfold Kept
  infer_instance

/-- The two images have the same superblock and the same descriptors. -/
structure SameLayout (ata ata' : Ata) : Prop where
  size : ata'.size = ata.size
  bytes : ∀ p, Kept ata p → bytes ata' p = bytes ata p

section SameLayout

variable {ata' : Ata} (hs : SameLayout ata ata')

include hs

theorem SameLayout.superBlock : superBlock ata' = superBlock ata :=
  SuperBlock.ofBytes_congr fun k hk => hs.bytes (1024 + k) (.inl ⟨by omega, by omega⟩)

theorem SameLayout.bs : bs ata' = bs ata := by rw [Volume.bs, hs.superBlock, Volume.bs]

theorem SameLayout.descriptors : descriptors ata' = descriptors ata := by
  rw [Volume.descriptors, hs.bs, Volume.descriptors]

theorem SameLayout.nrGroups : nrGroups ata' = nrGroups ata := by
  rw [Volume.nrGroups, hs.superBlock, firstDataBlock, hs.bs, Volume.nrGroups, firstDataBlock]

theorem SameLayout.group (i : UInt32) : group ata' i = group ata i := by
  rw [Volume.group, hs.superBlock, Volume.group]

theorem SameLayout.index (i : UInt32) : index ata' i = index ata i := by
  rw [Volume.index, hs.superBlock, Volume.index]

theorem SameLayout.inodeTable {g : Nat} (hg : g < Volume.nrGroups ata) :
    inodeTable ata' g = inodeTable ata g := by
  refine congrArg UInt32.toNat (Buf.le32_congr fun k hk => ?_)
  rw [hs.descriptors]
  exact hs.bytes _ (.inr ⟨by omega, by omega⟩)

theorem SameLayout.descLookedAt (g : Nat) : descLookedAt ata' g = descLookedAt ata g := by
  rw [Volume.descLookedAt, hs.superBlock, hs.bs, Volume.descLookedAt]

theorem SameLayout.wellFormed (h : WellFormed ata) : WellFormed ata' where
  blockSize := hs.superBlock ▸ h.blockSize
  blocksPerGroup := hs.superBlock ▸ h.blocksPerGroup
  inodesPerGroup := hs.superBlock ▸ h.inodesPerGroup
  inodeSize := hs.superBlock ▸ h.inodeSize
  below := by
    rw [Volume.size, hs.superBlock, hs.bs]
    exact h.below
  onDisk := by
    rw [Volume.size, hs.superBlock, hs.bs, hs.size]
    exact h.onDisk
  inodesCount := by
    rw [hs.superBlock, hs.nrGroups]
    exact h.inodesCount
  firstGroup := by
    rw [hs.descriptors, hs.nrGroups, firstDataBlock, hs.bs, hs.superBlock]
    exact h.firstGroup
  tables g hg := by
    rw [hs.nrGroups] at hg
    rw [hs.descriptors, hs.nrGroups, hs.inodeTable hg, hs.bs, hs.superBlock, Volume.size,
      hs.superBlock, hs.bs]
    exact h.tables g hg

theorem SameLayout.isInode (hi : IsInode ata i) : IsInode ata' i :=
  ⟨hi.pos, hs.superBlock ▸ hi.le⟩

theorem SameLayout.plain (hp : Plain ata i) : Plain ata' i where
  group := hs.group i ▸ hp.group
  blockSize := hs.bs ▸ hp.blockSize
  inodeSize := by
    rw [hs.index, hs.superBlock]
    exact hp.inodeSize

end SameLayout

/-! ## An image that shows where `get_inode` looks -/

/-- The image of the same layout with the byte `v` at `q`, and zeros elsewhere. -/
def marked (ata : Ata) (q : Nat) (v : UInt8) : Ata where
  size := ata.size
  byte p := if Kept ata (p - firstBlockaddr.toNat) then ata.byte p
    else if p = firstBlockaddr.toNat + q then v else 0

theorem bytes_marked (ata : Ata) (q : Nat) (v : UInt8) (p : Nat) :
    bytes (marked ata q v) p = if Kept ata p then bytes ata p else if p = q then v else 0 := by
  unfold bytes marked
  simp only [Nat.add_sub_cancel_left, Nat.add_left_cancel_iff]

theorem marked_sameLayout (ata : Ata) (q : Nat) (v : UInt8) : SameLayout ata (marked ata q v) where
  size := by rw [marked]
  bytes p hp := (bytes_marked ata q v p).trans (if_pos hp)

theorem le32_zero {b : Buf} {p : Nat} (h : ∀ k < 4, b (p + k) = 0) : b.le32 p = 0 :=
  (Buf.le32_congr h : b.le32 p = Buf.le32 (fun _ => 0) 0)

/-- The first bytes of `i_size` and of `i_block`. -/
theorem ofBytes_inj {b b' : Buf} (h : Inode.ofBytes b = Inode.ofBytes b') :
    b 4 = b' 4 ∧ b 40 = b' 40 :=
  ⟨Buf.le32_inj (congrArg Inode.iSize h), Buf.le32_inj (congrFun (congrArg Inode.iBlock h) 0)⟩

/-- Where the inode `i` is stored, from the start of the volume. -/
def inodeAt (ata : Ata) (i : UInt32) : Nat :=
  inodeTable ata (group ata i) * bs ata + index ata i * (superBlock ata).sInodeSize.toNat

theorem WellFormed.inodeAt_le (h : WellFormed ata) (hi : IsInode ata i) :
    inodeTable ata (group ata i) * bs ata + index ata i * 128 ≤ inodeAt ata i ∧
      inodeAt ata i ≤ size ata := by
  have hlt : index ata i < (superBlock ata).sInodesPerGroup.toNat :=
    Nat.mod_lt _ h.inodesPerGroup
  have h1 := Nat.mul_le_mul_left (index ata i) h.inodeSize
  have h2 := Nat.mul_le_mul_right (superBlock ata).sInodeSize.toNat hlt.le
  have h3 := (h.tables _ (h.group_lt hi)).2
  unfold inodeAt
  omega

/-- The volume behind the descriptors is not kept. -/
theorem not_kept {p : Nat} (hp : descriptors ata + 32 * nrGroups ata ≤ p)
    (hd : 2048 ≤ descriptors ata) : ¬ Kept ata p := by
  unfold Kept
  omega

theorem WellFormed.descriptors_ge (h : WellFormed ata) : 2048 ≤ descriptors ata := by
  unfold descriptors
  rcases h.bs_cases with hb | hb | hb
  · rw [if_pos hb]
  · rw [if_neg (by omega), hb]
  · rw [if_neg (by omega), hb]
    omega

/-- Where `get_inode` looks for the descriptor in vain, there is none. -/
theorem WellFormed.lookedAt_not_kept (h : WellFormed ata) {g p : Nat}
    (hne : ¬ (g = 0 ∧ bs ata ≤ 2048)) (hp : descLookedAt ata g + 8 ≤ p)
    (hp' : p < descLookedAt ata g + 12) : ¬ Kept ata p := by
  have hfirst := h.firstGroup
  unfold descLookedAt at hp hp'
  by_cases hg : g = 0
  · have hb : bs ata = 4096 := by
      rcases h.bs_cases with hb | hb | hb <;> omega
    have hd : descriptors ata = 4096 := by rw [descriptors, if_neg (by omega), hb]
    rw [hg, Nat.zero_mul, Nat.zero_mul] at hp hp'
    unfold Kept
    omega
  · refine not_kept ?_ h.descriptors_ge
    have hmul : (superBlock ata).sBlocksPerGroup.toNat * bs ata
        ≤ g * (superBlock ata).sBlocksPerGroup.toNat * bs ata :=
      Nat.mul_le_mul_right _ (Nat.le_mul_of_pos_left _ (Nat.pos_of_ne_zero hg))
    have hfb : firstDataBlock ata * bs ata ≤ 1024 := by
      unfold firstDataBlock
      split
      · omega
      · omega
    rw [Nat.add_mul] at hfirst
    omega

/-- The inode in a marked image starts with what `get_inode` reads only where they are one. -/
theorem WellFormed.marked_ne (h : WellFormed ata) (hi : IsInode ata i) {f A : Nat} {v : UInt8}
    (hf : f = 4 ∨ f = 40) (hA : A < inodeAt ata i)
    (hlook : inodeLookedAt (marked ata (inodeAt ata i + f) v) i = firstBlockaddr.toNat + A)
    (hv : v ≠ if Kept ata (A + f) then bytes ata (A + f) else 0) :
    ¬ Coincides (marked ata (inodeAt ata i + f) v) i := by
  intro hc
  have hs := marked_sameLayout ata (inodeAt ata i + f) v
  have hle := (h.inodeAt_le hi).1
  have hbehind := (h.tables _ (h.group_lt hi)).1
  have hsame : inodeAt (marked ata (inodeAt ata i + f) v) i = inodeAt ata i := by
    have hg := hs.inodeTable (h.group_lt hi)
    unfold inodeAt at *
    rw [hs.group, hg, hs.bs, hs.index, hs.superBlock]
  unfold Coincides inode at hc
  rw [← inodeAt, hsame, hlook] at hc
  have hbyte : bytes (marked ata (inodeAt ata i + f) v) (A + f)
      = bytes (marked ata (inodeAt ata i + f) v) (inodeAt ata i + f) := by
    have := ofBytes_inj hc
    unfold bytes
    rcases hf with rfl | rfl
    · rw [← Nat.add_assoc]
      exact this.1
    · rw [← Nat.add_assoc]
      exact this.2
  have hmark : bytes (marked ata (inodeAt ata i + f) v) (inodeAt ata i + f) = v := by
    rw [bytes_marked, if_neg (not_kept (by omega) h.descriptors_ge), if_pos rfl]
  have hclear : bytes (marked ata (inodeAt ata i + f) v) (A + f)
      = if Kept ata (A + f) then bytes ata (A + f) else 0 := by
    rw [bytes_marked, if_neg (show A + f ≠ inodeAt ata i + f by omega)]
  exact hv (hmark.symm.trans (hbyte.symm.trans hclear))

/-- **Where `get_inode` looks in the wrong place**, some image of the layout shows it. -/
theorem WellFormed.exists_marked (h : WellFormed ata) (hi : IsInode ata i) (hp : ¬ Plain ata i) :
    ∃ ata', SameLayout ata ata' ∧ ¬ Coincides ata' i := by
  obtain ⟨hle, hend⟩ := h.inodeAt_le hi
  have hbelow := h.below
  have hbehind := (h.tables _ (h.group_lt hi)).1
  have hge := h.descriptors_ge
  by_cases hdesc : group ata i = 0 ∧ bs ata ≤ 2048
  · -- the right descriptor, the wrong size
    have hlt : index ata i * 128 < index ata i * (superBlock ata).sInodeSize.toNat := by
      have hne : ¬ (index ata i = 0 ∨ (superBlock ata).sInodeSize.toNat = 128) := fun hz =>
        hp ⟨hdesc.1, hdesc.2, hz⟩
      have hsz := h.inodeSize
      exact Nat.mul_lt_mul_of_pos_left (by omega) (by omega)
    have hA : inodeTable ata (group ata i) * bs ata + index ata i * 128 < inodeAt ata i := by
      unfold inodeAt
      omega
    have hs := marked_sameLayout ata (inodeAt ata i + 4) 1
    refine ⟨_, hs, h.marked_ne hi (.inl rfl) hA ?_ ?_⟩
    · have hlook := (h.descLookedAt_iff (Volume.group ata i)).mpr hdesc
      rw [inodeLookedAt, hs.descLookedAt, hs.group, hs.bs, hs.index, hlook, ← hs.descriptors,
        ← inodeTable, hs.inodeTable (h.group_lt hi), Nat.mod_eq_of_lt (by omega), Nat.add_assoc]
    · rw [if_neg (not_kept (by omega) hge)]
      decide
  · -- no descriptor: the block number found is 0
    obtain ⟨f, hf, hout⟩ : ∃ f, (f = 4 ∨ f = 40) ∧
        ∀ k < 4, descLookedAt ata (group ata i) + 8 + k ≠ inodeAt ata i + f := by
      by_cases hin : inodeAt ata i + 4 < descLookedAt ata (group ata i) + 8 ∨
          descLookedAt ata (group ata i) + 12 ≤ inodeAt ata i + 4
      · exact ⟨4, .inl rfl, fun k hk => by omega⟩
      · exact ⟨40, .inr rfl, fun k hk => by omega⟩
    have htab : 0 < inodeTable ata (group ata i) * bs ata := by omega
    set c := if Kept ata (index ata i * 128 + f) then bytes ata (index ata i * 128 + f)
      else 0 with hc
    have hs := marked_sameLayout ata (inodeAt ata i + f) (c + 1)
    refine ⟨_, hs, h.marked_ne hi hf (A := index ata i * 128) (by omega) ?_ ?_⟩
    · have hzero : bgInodeTable (behind (marked ata (inodeAt ata i + f) (c + 1))
          (descLookedAt ata (group ata i))) = 0 := by
        refine le32_zero fun k hk => ?_
        rw [behind, bytes_marked, if_neg (h.lookedAt_not_kept hdesc (by omega) (by omega)),
          if_neg (by rw [← Nat.add_assoc]; exact hout k hk)]
      rw [inodeLookedAt, hs.descLookedAt, hs.group, hs.bs, hs.index, hzero,
        show (0 : UInt32).toNat = 0 from rfl, Nat.zero_mul, Nat.add_zero,
        Nat.mod_eq_of_lt (by omega)]
    · rw [← hc]
      exact fun he => absurd he (by simp)

/-- **Inode location.** -/
theorem getInode_iff (ata : Ata) (h : WellFormed ata) (i : UInt32) (hi : IsInode ata i)
    (fresh fresh' : Buf) :
    ((Ext2.mount ata fresh).getInode (Ext2.superBlock ata fresh) fresh' i = inode ata i ↔
        Plain ata i ∨ ¬ Plain ata i ∧ Coincides ata i) ∧
      ((∀ ata', SameLayout ata ata' →
        (Ext2.mount ata' fresh).getInode (Ext2.superBlock ata' fresh) fresh' i = inode ata' i) ↔
          Plain ata i) := by
  constructor
  · rw [getInode_eq h hi]
    constructor
    · intro hc
      by_cases hp : Plain ata i
      · exact .inl hp
      · exact .inr ⟨hp, hc⟩
    · rintro (hp | ⟨-, hc⟩)
      · exact hp.coincides h hi
      · exact hc
  · constructor
    · intro hall
      by_contra hp
      obtain ⟨ata', hs, hne⟩ := h.exists_marked hi hp
      have := hall ata' hs
      rw [getInode_eq (hs.wellFormed h) (hs.isInode hi)] at this
      exact hne this
    · intro hp ata' hs
      rw [getInode_eq (hs.wellFormed h) (hs.isInode hi)]
      exact (hs.plain hp).coincides (hs.wellFormed h) (hs.isInode hi)

/-- An image of 64 blocks of 1024 bytes: one group of eight inodes, the inode table in block 5. The
size of an inode has the bytes `lo` and `hi`; the byte 5380 is set. -/
def smallImage (lo hi : UInt8) : Ata where
  size := 97792
  byte p :=
    if p = 33280 then 8 else if p = 33284 then 64 else if p = 33312 then 64
    else if p = 33320 then 8 else if p = 33368 then lo else if p = 33369 then hi
    else if p = 34312 then 5 else if p = 37636 then 1 else 0

theorem smallImage_wellFormed {lo hi : UInt8} (h : (lo = 128 ∧ hi = 0) ∨ (lo = 0 ∧ hi = 1)) :
    WellFormed (smallImage lo hi) := by
  rcases h with ⟨rfl, rfl⟩ | ⟨rfl, rfl⟩
  · exact ⟨by decide +kernel, by decide +kernel, by decide +kernel, by decide +kernel,
      by decide +kernel, by decide +kernel, by decide +kernel, by decide +kernel, by decide +kernel⟩
  · exact ⟨by decide +kernel, by decide +kernel, by decide +kernel, by decide +kernel,
      by decide +kernel, by decide +kernel, by decide +kernel, by decide +kernel, by decide +kernel⟩

/-- With inodes of 256 bytes, the inode 2 is read from the middle of the inode 1. -/
theorem getInode_wrong : ¬ ∀ ata : Ata, WellFormed ata → ∀ i, IsInode ata i → ∀ fresh fresh' : Buf,
    (Ext2.mount ata fresh).getInode (Ext2.superBlock ata fresh) fresh' i = inode ata i := by
  intro h
  have := congrArg Inode.iSize (h (smallImage 0 1) (smallImage_wellFormed (.inr ⟨rfl, rfl⟩)) 2
    ⟨by decide +kernel, by decide +kernel⟩ (fun _ => 0) fun _ => 0)
  revert this
  decide +kernel

/-- With inodes of 128 bytes it is read from its place, on every volume of this layout. -/
theorem getInode_smallImage :
    (Ext2.mount (smallImage 128 0) (fun _ => 0)).getInode
        (Ext2.superBlock (smallImage 128 0) fun _ => 0) (fun _ => 0) 2 =
          inode (smallImage 128 0) 2 ∧
      ∀ ata', SameLayout (smallImage 128 0) ata' →
        (Ext2.mount ata' fun _ => 0).getInode (Ext2.superBlock ata' fun _ => 0) (fun _ => 0) 2
          = inode ata' 2 := by
  have h := getInode_iff _ (smallImage_wellFormed (.inl ⟨rfl, rfl⟩)) 2
    ⟨by decide +kernel, by decide +kernel⟩ (fun _ => 0) fun _ => 0
  have hplain : Plain (smallImage 128 0) 2 :=
    ⟨by decide +kernel, by decide +kernel, .inr (by decide +kernel)⟩
  exact ⟨h.1.mpr (.inl hplain), h.2.mpr hplain⟩

end Volume

end OwnOS.Disk
