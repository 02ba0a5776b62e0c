import OwnOS.Disk.FileRead

/-!
# The block map without overflow (`Ext2.cpp:73-117`)

`read_block_pos` computes the bounds of the four index ranges in `int`, all of them at every call.
An overflow of `int` has no defined result: in `readBlockPosInt` each operation answers `none` then.
The block numbers go through an `int`, which keeps their bits.

* `readBlockPosInt_eq`: for blocks up to 4096 bytes no operation overflows.
* `readBlockPos_map`: the buffer holds the block of the file if and only if every block on the way
  ends at or below 4 GiB, or the bytes at the addresses mod 2^32 happen to be the same (`Reaches`).
-/

namespace OwnOS.Disk

open Lib

namespace Ext2

variable (fs : Ext2)

/-- `int block_index = ((u32_t *)buffer)[i]`, and the block of that number. -/
def follow (buffer : Buf) (o : Nat) (i : Int32) : Buf :=
  let index := (entry buffer o i).toInt32
  fs.readBlock index.toUInt32 buffer o

/-- `read_block_pos`, none when an `int` overflows. -/
def readBlockPosInt (pos : UInt32) (buffer : Buf) (o : Nat) (inode : Inode) :
    Option (Bool × Buf) := do
  let accessblock ← CInt.ofWord (pos / fs.blockSize)
  if pos + fs.blockSize > inode.iSize then some (false, buffer)
  else do
    let nrEntry ← CInt.ofWord (fs.blockSize / 4)
    let maxnrDirBlock : Int32 := 12
    let maxnrIndBlock ← CInt.add 12 nrEntry
    let square ← CInt.mul nrEntry nrEntry
    let maxnrDindBlock ← CInt.add maxnrIndBlock square
    let cube ← CInt.mul square nrEntry
    let maxnrTindBlock ← CInt.add maxnrDindBlock cube
    if accessblock < maxnrDirBlock then
      some (true, fs.readBlock (inode.block accessblock) buffer o)
    else if accessblock < maxnrIndBlock then do
      let b := fs.readBlock (inode.block 12) buffer o
      let b := fs.follow b o (← CInt.sub accessblock maxnrDirBlock)
      some (true, b)
    else if accessblock < maxnrDindBlock then do
      let b := fs.readBlock (inode.block 13) buffer o
      let i ← CInt.sub accessblock maxnrIndBlock
      let b := fs.follow b o (← CInt.div i nrEntry)
      let b := fs.follow b o (← CInt.mod i nrEntry)
      some (true, b)
    else if accessblock < maxnrTindBlock then do
      let b := fs.readBlock (inode.block 14) buffer o
      let i ← CInt.sub accessblock maxnrDindBlock
      let b := fs.follow b o (← CInt.div i square)
      let b := fs.follow b o (← CInt.mod (← CInt.div i nrEntry) nrEntry)
      let b := fs.follow b o (← CInt.mod i nrEntry)
      some (true, b)
    else some (true, buffer)

end Ext2

/-- The four index ranges of a tree with `n` pointers to a block. -/
inductive IndexRange where
  | direct
  | single
  | double
  | triple
  deriving DecidableEq

/-- The blocks of a range. -/
def IndexRange.Has (n b : Nat) : IndexRange → Prop
  | .direct => b < 12
  | .single => 12 ≤ b ∧ b < 12 + n
  | .double => 12 + n ≤ b ∧ b < 12 + n + n * n
  | .triple => 12 + n + n * n ≤ b ∧ b < 12 + n + n * n + n * n * n

/-- The ranges do not overlap. -/
theorem IndexRange.Has.unique {n b : Nat} {r r' : IndexRange} (h : r.Has n b) (h' : r'.Has n b) :
    r = r' := by
  cases r <;> cases r' <;> simp only [IndexRange.Has] at h h' <;> first | rfl | omega

theorem IndexRange.exists_has {n b : Nat} (h : b < 12 + n + n * n + n * n * n) :
    ∃ r : IndexRange, r.Has n b := by
  by_cases h0 : b < 12
  · exact ⟨.direct, h0⟩
  by_cases h1 : b < 12 + n
  · exact ⟨.single, by omega, h1⟩
  by_cases h2 : b < 12 + n + n * n
  · exact ⟨.double, by omega, h2⟩
  · exact ⟨.triple, by omega, h⟩

namespace Ext2

variable {fs : Ext2} {no : UInt32} {buffer : Buf} {o : Nat}

theorem follow_eq (buffer : Buf) (o : Nat) (i : Int32) :
    fs.follow buffer o i = fs.readBlock (entry buffer o i) buffer o := by
  rw [follow, UInt32.toUInt32_toInt32]

/-- No `int` overflows when the blocks have at most 4096 bytes. -/
theorem readBlockPosInt_eq {pos : UInt32} {inode : Inode} (hbs : fs.BlockSizeOk)
    (hle : fs.blockSize.toNat ≤ 4096) (hexc : ¬ pos + fs.blockSize > inode.iSize) :
    fs.readBlockPosInt pos buffer o inode = some (fs.readBlockPos pos buffer o inode) := by
  have h4 := hbs.four_mul
  have hge := hbs.le
  have hbB := block_le hbs pos
  set b := pos.toNat / fs.blockSize.toNat with hbdef
  set n := fs.nrPointers with hndef
  have hn : n ≤ 1024 := by omega
  have hn256 : 256 ≤ n := by omega
  have hpos' : 0 < n := by omega
  have hsq : n * n ≤ 1024 * 1024 := Nat.mul_le_mul hn hn
  have hcu : n * n * n ≤ 1024 * 1024 * 1024 := Nat.mul_le_mul hsq hn
  have hacc : IsNat (pos / fs.blockSize).toInt32 b := isNat_accessblock hbs
  have hnr : IsNat (fs.blockSize / 4).toInt32 n := isNat_nrEntry fs
  have hdir : IsNat (12 : Int32) 12 := rfl
  have hind := hdir.add hnr (by omega)
  have hnn := hnr.mul hnr (by omega)
  have hdind := hind.add hnn (by omega)
  have hnnn := hnn.mul hnr (by omega)
  have htind := hdind.add hnnn (by omega)
  have hblt : (pos / fs.blockSize).toNat < 2147483648 := by
    have he : (pos / fs.blockSize).toNat = b := UInt32.toNat_div _ _
    have := Nat.mul_le_mul_left (b + 1) hge
    omega
  have hnlt : (fs.blockSize / 4).toNat < 2147483648 := by
    have he : (fs.blockSize / 4).toNat = n := UInt32.toNat_div _ _
    omega
  unfold readBlockPosInt readBlockPos
  rw [CInt.ofWord_eq hblt, Option.bind_eq_bind, Option.bind_some, if_neg hexc, if_neg hexc,
    CInt.ofWord_eq hnlt, Option.bind_some]
  dsimp only
  simp only [CInt.add_eq hdir hnr (by omega), CInt.mul_eq hnr hnr (by omega),
    CInt.add_eq hind hnn (by omega), CInt.mul_eq hnn hnr (by omega),
    CInt.add_eq hdind hnnn (by omega), Option.bind_some]
  by_cases h0 : b < 12
  · rw [if_pos ((hacc.lt_iff hdir).mpr h0), if_pos ((hacc.lt_iff hdir).mpr h0)]
  rw [if_neg fun h => h0 ((hacc.lt_iff hdir).mp h), if_neg fun h => h0 ((hacc.lt_iff hdir).mp h)]
  by_cases h1 : b < 12 + n
  · rw [if_pos ((hacc.lt_iff hind).mpr h1), if_pos ((hacc.lt_iff hind).mpr h1),
      CInt.sub_eq hacc hdir (by omega), Option.bind_some, follow_eq]
  rw [if_neg fun h => h1 ((hacc.lt_iff hind).mp h), if_neg fun h => h1 ((hacc.lt_iff hind).mp h)]
  by_cases h2 : b < 12 + n + n * n
  · have hq := hacc.sub hind (by omega)
    rw [if_pos ((hacc.lt_iff hdind).mpr h2), if_pos ((hacc.lt_iff hdind).mpr h2),
      CInt.sub_eq hacc hind (by omega), Option.bind_some, CInt.div_eq hq hnr hpos',
      Option.bind_some, CInt.mod_eq hq hnr hpos', Option.bind_some, follow_eq, follow_eq]
  rw [if_neg fun h => h2 ((hacc.lt_iff hdind).mp h), if_neg fun h => h2 ((hacc.lt_iff hdind).mp h)]
  have h3 := lt_cube hn256 (h4 ▸ hbB)
  have hq := hacc.sub hdind (by omega)
  rw [if_pos ((hacc.lt_iff htind).mpr (by omega)), if_pos ((hacc.lt_iff htind).mpr (by omega)),
    CInt.sub_eq hacc hdind (by omega), Option.bind_some,
    CInt.div_eq hq hnn (Nat.mul_pos hpos' hpos'), Option.bind_some, CInt.div_eq hq hnr hpos',
    Option.bind_some, CInt.mod_eq (hq.div hnr) hnr hpos', Option.bind_some,
    CInt.mod_eq hq hnr hpos', Option.bind_some, follow_eq, follow_eq, follow_eq]

/-- The pointers lead to the block `b` of the file, though the address of each block on the way is
taken mod 2^32. -/
def Reaches (fs : Ext2) (inode : Inode) (b : Nat) : Prop :=
  ∀ k < fs.blockSize.toNat,
    fs.rawContent (fs.rawBlock inode b) k = fs.content (fs.dataBlock inode b) k

/-- Where every block on the way ends at or below 4 GiB. -/
theorem Reaches.of_addressed {inode : Inode} {b : Nat} (hbs : fs.BlockSizeOk)
    (h : ∀ no ∈ fs.blockWay inode b, fs.Addressed no) : fs.Reaches inode b :=
  fun k _ => congrFun (rawContent_rawBlock hbs h) k

/-- **Block map correctness.** -/
theorem readBlockPos_map (fs : Ext2) (k : Nat) (hk : k ≤ 2)
    (hbs : fs.blockSize.toNat = 1024 * 2 ^ k) (inode : Inode) (pos : UInt32)
    (hpos : pos.toNat + fs.blockSize.toNat ≤ inode.iSize.toNat) (buffer : Buf) (o : Nat) :
    (fs.readBlockPos pos buffer o inode = (true, buffer.put o fs.blockSize.toNat
          (fs.content (fs.dataBlock inode (pos.toNat / fs.blockSize.toNat)))) ∧
        fs.readBlockPosInt pos buffer o inode = some (fs.readBlockPos pos buffer o inode) ∧
        ∃! r : IndexRange, r.Has fs.nrPointers (pos.toNat / fs.blockSize.toNat)) ↔
      (∀ no ∈ fs.blockWay inode (pos.toNat / fs.blockSize.toNat), fs.Addressed no) ∨
        fs.Reaches inode (pos.toNat / fs.blockSize.toNat) := by
  have hok : fs.BlockSizeOk := ⟨10 + k, by omega, by rw [hbs, Nat.pow_add]⟩
  have hpow : 2 ^ k ≤ 2 ^ 2 := Nat.pow_le_pow_right (by omega) hk
  have hexc := not_exceeds hpos
  have h4 := hok.four_mul
  have hge := hok.le
  have hcube : pos.toNat / fs.blockSize.toNat < fs.nrPointers * fs.nrPointers * fs.nrPointers :=
    lt_cube (by omega) (by
      rw [h4]
      exact block_le hok pos)
  obtain ⟨r, hr⟩ := IndexRange.exists_has (n := fs.nrPointers)
    (b := pos.toNat / fs.blockSize.toNat) (by omega)
  rw [readBlockPosInt_eq hok (by omega) hexc, readBlockPos_raw hok hexc]
  constructor
  · rintro ⟨hput, -⟩
    refine Or.inr fun j hj => ?_
    have := congrFun (congrArg Prod.snd hput) (o + j)
    dsimp only at this
    rwa [Buf.put_add hj, Buf.put_add hj] at this
  · intro hway
    have h : fs.Reaches inode (pos.toNat / fs.blockSize.toNat) :=
      hway.elim (Reaches.of_addressed hok) id
    exact ⟨congrArg (Prod.mk true) (Buf.put_congr h), rfl, r, hr, fun r' hr' => hr'.unique hr⟩

/-- The second block of a file of two blocks. -/
theorem readBlockPos_twoBlocks :
    File.twoBlocks.fs.rootFs.readBlockPos 1024 (fun _ => 0) 0 File.twoBlocks.inode = (true,
        Buf.put (fun _ => 0) 0 1024 (File.twoBlocks.fs.rootFs.content
          (File.twoBlocks.fs.rootFs.dataBlock File.twoBlocks.inode 1))) ∧
      File.twoBlocks.fs.rootFs.readBlockPosInt 1024 (fun _ => 0) 0 File.twoBlocks.inode
        = some (File.twoBlocks.fs.rootFs.readBlockPos 1024 (fun _ => 0) 0 File.twoBlocks.inode) ∧
      ∃! r : IndexRange, r.Has File.twoBlocks.fs.rootFs.nrPointers 1 := by
  refine (readBlockPos_map File.twoBlocks.fs.rootFs 0 (by omega) rfl File.twoBlocks.inode 1024
    (by decide) (fun _ => 0) 0).mpr (Or.inl fun no hno => ?_)
  have hr : File.twoBlocks.fs.rootFs.blockWay File.twoBlocks.inode 1 = [2] := by decide +kernel
  obtain rfl : no = 2 := List.mem_singleton.mp (hr ▸ hno)
  decide

/-- A file of one block of 1024 bytes on a disk of 5 GiB. The block lies behind 4 GiB, where every
byte is 2; the bytes before are 1. -/
def farBlock : File where
  fs.rootFs.atadriver :=
    { size := 5368709120, byte := fun p => if p < 4294967296 then 1 else 2 }
  fs.rootFs.blockSize := 1024
  fs.rootFs.rootInode := ⟨0x4000, 0, fun _ => 0⟩
  fs.rootFs.invalidInode := ⟨0, 0, fun _ => 0⟩
  fs.rootFs.invalid_mode := zeroInode_mode
  inode := ⟨0x8000, 1024, fun _ => 0x400000⟩

theorem farBlock_noHoles : farBlock.fs.rootFs.NoHoles farBlock.inode := by
  intro b hb no hno
  obtain rfl : b = 0 := by
    have : (b + 1) * 1024 ≤ 1024 := hb
    omega
  obtain rfl : no = 0x400000 := List.mem_singleton.mp hno
  exact ⟨by decide, by decide⟩

/-- The address of the block wraps, and the block 0 of the volume is read. -/
theorem readBlockPos_wrong : ¬ ∀ (fs : Ext2) (k : Nat), k ≤ 2 →
    fs.blockSize.toNat = 1024 * 2 ^ k → ∀ inode, fs.NoHoles inode → ∀ pos : UInt32,
    pos.toNat + fs.blockSize.toNat ≤ inode.iSize.toNat → ∀ buffer o,
    fs.readBlockPos pos buffer o inode = (true, buffer.put o fs.blockSize.toNat
      (fs.content (fs.dataBlock inode (pos.toNat / fs.blockSize.toNat)))) := by
  intro h
  have := congrFun (congrArg Prod.snd (h farBlock.fs.rootFs 0 (by omega) rfl farBlock.inode
    farBlock_noHoles 0 (by decide) (fun _ => 0) 0)) 0
  revert this
  decide +kernel

end Ext2

end OwnOS.Disk
