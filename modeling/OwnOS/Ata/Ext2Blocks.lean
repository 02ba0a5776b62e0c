import OwnOS.Ata.Ranges
import OwnOS.Disk.Resolve

/-!
# The disk of the file system is the drive

`Disk.Ata.read` is what the file system is proved about. `Ata::read` does the same on a drive with
the same bytes, as far as `Ata::read` reads right.

* `read_refines`: a range of `ReadsRight` is read as `Disk.Ata.read` reads it.
* `readBlock_iff`: **the blocks of an ext2 file system that can be read**. A block larger than 64
  KiB cannot, and neither can the last block of a file system that ends with the drive, because of
  the sector behind it.
-/

namespace OwnOS.Ata

open Lib

namespace Ide

variable {s : Ide} {fuel : Nat} {d : Fin 4} {ataDrive : UInt8} {pos sizee : UInt32} {ata : Disk.Ata}
  {fs : Disk.Ext2} {index : UInt32}

theorem read_refines (hs : s.Ok fuel) (hm : s.Mounted ataDrive d)
    (hbyte : ata.byte = (s.drive d).byte) (h : FitsInt pos sizee) (hr : s.ReadsRight d pos sizee)
    (junkErr : UInt8) (junk buffer : Buf) (o : Nat) :
    ∃ s', s.read fuel junkErr ataDrive junk pos buffer o sizee
        = .ok (sizee, s', ata.read pos buffer o sizee) ∧ Next fuel s s' ∧ s'.media = s.media := by
  rw [Disk.Ata.read, hbyte]
  exact read_right hs hm h hr junkErr junk buffer o

/-- The block lies below 2 GiB. -/
def BlockFits (fs : Disk.Ext2) (index : UInt32) : Prop :=
  fs.blockStart index + fs.blockSize.toNat < 2147483648

instance : Decidable (BlockFits fs index) := inferInstanceAs (Decidable (_ < _))

theorem toNat_blockIndex2addr (h : BlockFits fs index) :
    (fs.blockIndex2addr index).toNat = fs.blockStart index := by
  unfold BlockFits Disk.Ext2.blockStart at h
  unfold Disk.Ext2.blockIndex2addr Disk.Ext2.blockStart
  have hm : (index * fs.blockSize).toNat = index.toNat * fs.blockSize.toNat :=
    Word.toNat_mul_of_lt (by omega)
  rw [Word.toNat_add_of_lt (by omega), hm]

/-- Blocks start and end at sector boundaries. -/
theorem block_aligned (hbs : fs.BlockSizeOk) (index : UInt32) :
    fs.blockStart index % 512 = 0 ∧ fs.blockSize.toNat % 512 = 0 := by
  obtain ⟨k, hk, hb⟩ := hbs
  have hdvd : 512 ∣ fs.blockSize.toNat := by
    rw [hb]
    exact pow_dvd_pow 2 (m := 9) (by omega)
  refine ⟨Nat.mod_eq_zero_of_dvd (Nat.dvd_add (by decide) (Dvd.dvd.mul_left hdvd _)),
    Nat.mod_eq_zero_of_dvd hdvd⟩

/-- Among the powers of two, 255 sectors are as good a bound as 128. -/
theorem blockSize_le_iff (hbs : fs.BlockSizeOk) :
    fs.blockSize.toNat / 512 < 255 ↔ fs.blockSize.toNat ≤ 65536 := by
  obtain ⟨k, -, hb⟩ := hbs
  rw [hb]
  rcases Nat.lt_or_ge 16 k with hk | hk
  · have hle : 2 ^ 17 ≤ 2 ^ k := Nat.pow_le_pow_right (by omega) hk
    omega
  · have hle : 2 ^ k ≤ 2 ^ 16 := Nat.pow_le_pow_right (by omega) hk
    omega

/-- Every sector of the block is good. -/
def GoodBlock (s : Ide) (d : Fin 4) (fs : Disk.Ext2) (index : UInt32) : Prop :=
  ∀ k < fs.blockSize.toNat / 512, (s.drive d).faultAt (fs.blockStart index / 512 + k) = none

theorem goodRange_block_iff (hbs : fs.BlockSizeOk) (h : BlockFits fs index) :
    s.GoodRange d (fs.blockIndex2addr index) fs.blockSize ↔ s.GoodBlock d fs index := by
  obtain ⟨ha, hb⟩ := block_aligned hbs index
  unfold GoodRange GoodBlock blBegin
  rw [toNat_blockIndex2addr h]
  constructor
  · intro hg k hk
    exact hg _ (Nat.le_add_right _ _) (by omega)
  · intro hg k hk hlt
    obtain ⟨j, rfl⟩ := Nat.exists_eq_add_of_le hk
    exact hg j (by omega)

/-- **Reading a block of the file system** does what `read_block` is proved about, exactly when the
block is no larger than 64 KiB, its sectors are good and the drive goes on behind it. -/
theorem readBlock_iff (hs : s.Ok fuel) (hm : s.Mounted ataDrive d)
    (hbyte : fs.atadriver.byte = (s.drive d).byte) (hbs : fs.BlockSizeOk) (h : BlockFits fs index) :
    (∀ junkErr junk buffer o, ∃ s',
        s.read fuel junkErr ataDrive junk (fs.blockIndex2addr index) buffer o fs.blockSize
          = .ok (fs.blockSize, s', fs.readBlock index buffer o)) ↔
      fs.blockSize.toNat ≤ 65536 ∧
        fs.blockStart index + fs.blockSize.toNat < 512 * (s.ideDevices d).size.toNat ∧
        s.GoodBlock d fs index := by
  have haddr := toNat_blockIndex2addr h
  have hf : FitsInt (fs.blockIndex2addr index) fs.blockSize := by
    unfold FitsInt
    rw [haddr]
    exact h
  have hread (buffer : Buf) (o : Nat) : fs.readBlock index buffer o =
      buffer.put o fs.blockSize.toNat fun k => (s.drive d).byte
        ((fs.blockIndex2addr index).toNat + k) := by
    rw [Disk.Ext2.readBlock, Disk.Ata.read, hbyte]
  simp only [hread]
  rw [read_right_iff hs hm hf, ReadsRight, goodRange_block_iff hbs h]
  have h0 : fs.blockSize ≠ 0 := fun h0 => by
    have := hbs.pos
    rw [h0] at this
    exact absurd this (by decide)
  obtain ⟨ha, hb⟩ := block_aligned hbs index
  rw [or_iff_right h0]
  unfold blEnd blBegin
  rw [haddr]
  have hpow := blockSize_le_iff hbs
  constructor
  · rintro ⟨h255, hend, hgood⟩
    exact ⟨hpow.mp (by omega), by omega, hgood⟩
  · rintro ⟨hle, hend, hgood⟩
    have h255 := hpow.mpr hle
    exact ⟨by omega, by omega, hgood⟩

/-- The file system with blocks of 1024 bytes on the first disk. -/
def onFirstDisk : Disk.Ext2 :=
  { Disk.Ext2.flatRoot 1 with atadriver := ⟨51200, (fourDisks.drive 0).byte⟩ }

/-- The block 1 of 1024 bytes. -/
theorem readBlock_one : ∃ s',
    fourDisks.read 1 0x55 0 (fun _ => 0xaa) (onFirstDisk.blockIndex2addr 1) (fun _ => 0) 0
        onFirstDisk.blockSize
      = .ok (onFirstDisk.blockSize, s', onFirstDisk.readBlock 1 (fun _ => 0) 0) :=
  (readBlock_iff fourDisks_ok fourDisks_mounted rfl ⟨10, by decide, by decide⟩
    (by decide : BlockFits onFirstDisk 1)).mpr
    ⟨by decide, by decide, fun k hk => if_pos (show 65 + k < 100 by
      have hk : k < 2 := hk
      omega)⟩ 0x55 (fun _ => 0xaa) (fun _ => 0) 0

end Ide

end OwnOS.Ata
