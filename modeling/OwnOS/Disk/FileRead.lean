import OwnOS.Disk.Blocks

/-!
# `File::read` byte by byte

`File::read` cuts a range longer than a block into an edge, whole blocks and a remainder, none of
which crosses a block boundary (`readBlock_inside`). A shorter range goes to `File::read_block` as
it is, which reads two blocks when the range crosses a boundary. The second of them is at
`addr&~block_mask+block_size`, that is `addr & 0`: always the first block of the file
(`readBlock_crossing`).

* `read_long`, `read_huge`: a range longer than a block, whose part behind the edge is an `int` or
  is not.
* `read_exact_iff`: the ranges that are read right, on a disk of any size. What is read is what the
  pointers lead to (`rawByte`), which is the file where the blocks end at or below 4 GiB
  (`Solid.of_addressed`).
-/

namespace OwnOS.Disk

open Lib

variable {f : File} {addr size : UInt32}

namespace File

/-- The byte `p` of the file. -/
def byte (f : File) (p : Nat) : UInt8 := f.fs.rootFs.fileByte f.inode p

/-- The block size as a number. -/
def bs (f : File) : Nat := f.fs.rootFs.blockSize.toNat

theorem blockSize_toNat (f : File) : f.fs.blockSize.toNat = f.bs := rfl

/-- What the pointers lead to for the byte `p`. -/
def rawByte (f : File) (p : Nat) : UInt8 :=
  f.fs.rootFs.rawContent (f.fs.rootFs.rawBlock f.inode (p / f.bs)) (p % f.bs)

/-- The size check lets the block pass: it ends inside the file, or at 4 GiB, where its end is 0. -/
def Passes (f : File) (b : Nat) : Prop :=
  (b + 1) * f.bs ≤ f.inode.iSize.toNat ∨ (b + 1) * f.bs = 4294967296

/-- The pointers lead to the byte of the file: to its block, or in a hole, to a byte 0. -/
def Solid (f : File) (p : Nat) : Prop := f.rawByte p = f.byte p

/-- Without a hole on the way, and below 4 GiB. -/
theorem Solid.of_addressed (hbs : f.fs.rootFs.BlockSizeOk) {p : Nat}
    (h : ∀ no ∈ f.fs.rootFs.blockWay f.inode (p / f.bs), no ≠ 0 ∧ f.fs.rootFs.Addressed no) :
    f.Solid p := by
  rw [Solid, rawByte, Ext2.rawContent_rawBlock hbs fun no hno => (h no hno).2]
  exact (if_neg fun h0 => (h 0 h0).1 rfl).symm

theorem passes_iff (hbs : f.fs.rootFs.BlockSizeOk) {b : Nat} {pos : UInt32}
    (hpos : pos.toNat = b * f.bs) :
    ¬ pos + f.fs.rootFs.blockSize > f.inode.iSize ↔ f.Passes b := by
  have hp := hbs.pos
  have hb : f.bs = f.fs.rootFs.blockSize.toNat := rfl
  have hsize := Word.toNat_lt f.inode.iSize
  have hle := Ext2.block_le hbs pos
  have hdiv : pos.toNat / f.bs = b := by
    rw [hpos]
    exact Nat.mul_div_cancel _ hp
  rw [← hb, hdiv, Nat.succ_mul] at hle
  unfold Passes
  rw [gt_iff_lt, UInt32.lt_iff_toNat_lt, UInt32.toNat_add, ← hb, hpos, Nat.succ_mul]
  omega

/-- A block that passes the check. -/
theorem fsReadBlock_raw (hbs : f.fs.rootFs.BlockSizeOk) {b : Nat} {pos : UInt32}
    (hpos : pos.toNat = b * f.bs) (h : f.Passes b) (buffer : Buf) (o : Nat) :
    (f.fs.readBlock pos buffer o f.inode).2
      = buffer.put o f.bs (f.fs.rootFs.rawContent (f.fs.rootFs.rawBlock f.inode b)) := by
  have hb : pos.toNat / f.bs = b := by
    rw [hpos]
    exact Nat.mul_div_cancel _ hbs.pos
  rw [FileSystem.readBlock, Ext2.readBlockPos_raw hbs ((passes_iff hbs hpos).mpr h)]
  exact congrArg (fun b => buffer.put o f.bs
    (f.fs.rootFs.rawContent (f.fs.rootFs.rawBlock f.inode b)))
    hb

/-- A block that does not: the buffer keeps what was in it. -/
theorem fsReadBlock_fail (hbs : f.fs.rootFs.BlockSizeOk) {b : Nat} {pos : UInt32}
    (hpos : pos.toNat = b * f.bs) (h : ¬ f.Passes b) (buffer : Buf) (o : Nat) :
    (f.fs.readBlock pos buffer o f.inode).2 = buffer := by
  rw [FileSystem.readBlock,
    Ext2.readBlockPos_fail (not_not.mp fun hn => h ((passes_iff hbs hpos).mp hn))]

/-- `k` bytes further in the same block. -/
theorem same_block {p n k : Nat} (h : p % n + k < n) :
    (p + k) / n = p / n ∧ (p + k) % n = p % n + k := by
  have hn : 0 < n := by omega
  have hp : p + k = n * (p / n) + (p % n + k) := by
    rw [← Nat.add_assoc, Nat.div_add_mod]
  constructor
  · rw [hp, Nat.mul_add_div hn, Nat.div_eq_of_lt h, Nat.add_zero]
  · rw [hp, Nat.mul_add_mod, Nat.mod_eq_of_lt h]

/-- The blocks up to one that starts before the end of the whole blocks. -/
theorem block_end {p n s : Nat} (h : p < s / n * n) : (p / n + 1) * n ≤ s := by
  have hn : 0 < n := Nat.pos_of_ne_zero fun h0 => by simp [h0] at h
  have hlt : p / n < s / n := (Nat.div_lt_iff_lt_mul hn).mpr h
  exact le_trans (Nat.mul_le_mul_right n hlt) (Nat.div_mul_le_self s n)

theorem mask_toNat (hbs : f.fs.rootFs.BlockSizeOk) (addr : UInt32) :
    (addr &&& (f.fs.blockSize - 1)).toNat = addr.toNat % f.bs ∧
      (addr &&& ~~~(f.fs.blockSize - 1)).toNat = addr.toNat / f.bs * f.bs := by
  obtain ⟨k, -, hk⟩ := hbs
  exact ⟨Word.toNat_and_sub_one hk, Word.toNat_and_not_sub_one hk⟩

theorem not_too_large (h : size.toNat ≤ f.bs) : ¬ size > f.fs.blockSize := by
  rw [gt_iff_lt, UInt32.lt_iff_toNat_lt, blockSize_toNat]
  omega

/-- Whether the range crosses a boundary. -/
theorem crosses_iff (hbs : f.fs.rootFs.BlockSizeOk) (hle : size.toNat ≤ f.bs) :
    (addr &&& (f.fs.blockSize - 1)) + size > f.fs.blockSize ↔
      f.bs < addr.toNat % f.bs + size.toNat := by
  have hmask := (mask_toNat hbs addr).1
  have hmod := Nat.mod_lt addr.toNat (show f.bs > 0 from hbs.pos)
  have hsmall : f.bs ≤ 2147483648 := hbs.le_half
  have hsum : ((addr &&& (f.fs.blockSize - 1)) + size).toNat = addr.toNat % f.bs + size.toNat := by
    rw [Word.toNat_add_of_lt (by omega), hmask]
  rw [gt_iff_lt, UInt32.lt_iff_toNat_lt, blockSize_toNat, hsum]

/-- Inside a block that passes the check, `read_block` copies what the pointers lead to. -/
theorem readBlock_raw (hbs : f.fs.rootFs.BlockSizeOk)
    (hin : addr.toNat % f.bs + size.toNat ≤ f.bs) (hp : f.Passes (addr.toNat / f.bs))
    (junk dbuffer : Buf) (o : Nat) :
    f.readBlock junk addr size dbuffer o
      = (true, dbuffer.put o size.toNat fun k => f.rawByte (addr.toNat + k)) := by
  obtain ⟨hmask, halign⟩ := mask_toNat hbs addr
  have hle : size.toNat ≤ f.bs := by omega
  unfold File.readBlock
  rw [if_neg (not_too_large hle), if_neg fun h => absurd ((crosses_iff hbs hle).mp h) (by omega),
    fsReadBlock_raw hbs halign hp, hmask]
  refine congrArg (Prod.mk true) (Buf.put_congr fun k hk => ?_)
  obtain ⟨hd, hm⟩ := same_block (p := addr.toNat) (n := f.bs) (k := k) (by omega)
  rw [Buf.put_zero_apply (by omega), rawByte, hd, hm]

/-- Inside a block that does not pass, it copies what was in its buffer, and answers true. -/
theorem readBlock_junk (hbs : f.fs.rootFs.BlockSizeOk)
    (hin : addr.toNat % f.bs + size.toNat ≤ f.bs) (hp : ¬ f.Passes (addr.toNat / f.bs))
    (junk dbuffer : Buf) (o : Nat) :
    f.readBlock junk addr size dbuffer o
      = (true, dbuffer.put o size.toNat fun k => junk (addr.toNat % f.bs + k)) := by
  obtain ⟨hmask, halign⟩ := mask_toNat hbs addr
  have hle : size.toNat ≤ f.bs := by omega
  unfold File.readBlock
  rw [if_neg (not_too_large hle), if_neg fun h => absurd ((crosses_iff hbs hle).mp h) (by omega),
    fsReadBlock_fail hbs halign hp, hmask]

/-- **Inside a block** that ends in the file. -/
theorem readBlock_inside (hbs : f.fs.rootFs.BlockSizeOk)
    (hin : addr.toNat % f.bs + size.toNat ≤ f.bs)
    (hend : (addr.toNat / f.bs + 1) * f.bs ≤ f.inode.iSize.toNat) (junk dbuffer : Buf) (o : Nat) :
    f.readBlock junk addr size dbuffer o
      = (true, dbuffer.put o size.toNat fun k => f.rawByte (addr.toNat + k)) :=
  readBlock_raw hbs hin (.inl hend) junk dbuffer o

/-- `addr&~block_mask+block_size` is 0. -/
theorem second_pos (hbs : f.fs.rootFs.BlockSizeOk) (addr : UInt32) :
    (addr &&& (~~~(f.fs.blockSize - 1) + f.fs.blockSize)).toNat = 0 := by
  have hpos := hbs.pos
  have hlt := Word.toNat_lt f.fs.blockSize
  have h1 : (f.fs.blockSize - 1).toNat = f.fs.blockSize.toNat - 1 :=
    Word.toNat_sub_of_le (show 1 ≤ f.fs.rootFs.blockSize.toNat by omega)
  have h0 : (~~~(f.fs.blockSize - 1) + f.fs.blockSize).toNat = 0 := by
    rw [UInt32.toNat_add, UInt32.toNat_not, h1]
    have : f.fs.blockSize.toNat = f.fs.rootFs.blockSize.toNat := rfl
    have : UInt32.size = 4294967296 := rfl
    omega
  rw [UInt32.toNat_and, h0, Nat.and_zero]

/-- **Across a boundary**, `read_block` goes on with the first block of the file. -/
theorem readBlock_crossing (hbs : f.fs.rootFs.BlockSizeOk) (hle : size.toNat ≤ f.bs)
    (hover : f.bs < addr.toNat % f.bs + size.toNat)
    (hend : (addr.toNat / f.bs + 1) * f.bs ≤ f.inode.iSize.toNat) (junk dbuffer : Buf) (o : Nat) :
    f.readBlock junk addr size dbuffer o = (true, dbuffer.put o size.toNat fun k =>
      if addr.toNat % f.bs + k < f.bs then f.rawByte (addr.toNat + k)
      else f.rawByte (addr.toNat % f.bs + k - f.bs)) := by
  obtain ⟨hmask, halign⟩ := mask_toNat hbs addr
  have hmod := Nat.mod_lt addr.toNat (show f.bs > 0 from hbs.pos)
  have hfirst : (0 + 1) * f.bs ≤ f.inode.iSize.toNat :=
    le_trans (Nat.mul_le_mul_right _ (Nat.succ_le_succ (Nat.zero_le _))) hend
  have hzero : (addr &&& (~~~(f.fs.blockSize - 1) + f.fs.blockSize)).toNat = 0 * f.bs := by
    rw [second_pos hbs, Nat.zero_mul]
  unfold File.readBlock
  rw [if_neg (not_too_large hle), if_pos ((crosses_iff hbs hle).mpr hover)]
  dsimp only
  rw [fsReadBlock_raw hbs halign (.inl hend), fsReadBlock_raw hbs hzero (.inl hfirst), hmask]
  refine congrArg (Prod.mk true) (Buf.put_congr fun k hk => ?_)
  split
  · rename_i hk'
    obtain ⟨hd, hm⟩ := same_block (p := addr.toNat) (n := f.bs) (k := k) hk'
    rw [Buf.put_of_lt (by rwa [blockSize_toNat]), Buf.put_zero_apply hk', rawByte, hd, hm]
  · rename_i hk'
    have hlt : addr.toNat % f.bs + k - f.bs < f.bs := by omega
    rw [Buf.put_of_mem (by rw [blockSize_toNat]; omega) (by rw [blockSize_toNat]; omega), rawByte,
      Nat.div_eq_of_lt hlt, Nat.mod_eq_of_lt hlt, blockSize_toNat]

/-! ## Ranges longer than a block -/

/-- The whole blocks of the range, one round each. -/
theorem readBlocks_eq (hbs : f.fs.rootFs.BlockSizeOk)
    (junk : Nat → Buf) (n i : Nat) {src dest : UInt32} (d : Buf) (ha : src.toNat % f.bs = 0)
    (hend : src.toNat + n * f.bs ≤ f.inode.iSize.toNat / f.bs * f.bs)
    (hdest : dest.toNat + n * f.bs < 4294967296) :
    ∃ src' dest', f.readBlocks junk f.fs.blockSize.toInt32 n i src dest d
        = (src', dest', d.put dest.toNat (n * f.bs) fun k => f.rawByte (src.toNat + k)) ∧
      src'.toNat = src.toNat + n * f.bs ∧ dest'.toNat = dest.toNat + n * f.bs := by
  induction n generalizing i src dest d with
  | zero =>
    refine ⟨src, dest, ?_, by simp, by simp⟩
    rw [Nat.zero_mul, Buf.put_nil]
    rfl
  | succ n ih =>
    have hpos := hbs.pos
    have hb : f.bs = f.fs.rootFs.blockSize.toNat := rfl
    have hdiv := Nat.div_mul_le_self f.inode.iSize.toNat f.bs
    have hsize := Word.toNat_lt f.inode.iSize
    rw [Nat.succ_mul] at hend hdest
    have hsrc : (src + f.fs.blockSize).toNat = src.toNat + f.bs := Word.toNat_add_of_lt (by
      rw [blockSize_toNat]
      omega)
    have hdst : (dest + f.fs.blockSize).toNat = dest.toNat + f.bs := Word.toNat_add_of_lt (by
      rw [blockSize_toNat]
      omega)
    have hread := readBlock_inside hbs
      (show src.toNat % f.bs + f.fs.blockSize.toNat ≤
        f.bs by rw [ha, Nat.zero_add, blockSize_toNat])
      (block_end (show src.toNat < _ by omega)) (junk i) d dest.toNat
    obtain ⟨src', dest', he, hs', hd'⟩ := ih (i + 1)
      (d.put dest.toNat f.bs fun k => f.rawByte (src.toNat + k))
      (show (src + f.fs.blockSize).toNat % f.bs = 0 by rw [hsrc, Nat.add_mod_right, ha]) (by omega)
      (show (dest + f.fs.blockSize).toNat + n * f.bs < 4294967296 by omega)
    refine ⟨src', dest', ?_, by rw [Nat.succ_mul]; omega, by rw [Nat.succ_mul]; omega⟩
    rw [readBlocks, UInt32.toUInt32_toInt32, hread, blockSize_toNat]
    dsimp only
    rw [he, hsrc, hdst, show (n + 1) * f.bs = f.bs + n * f.bs by ring, ← Buf.put_append]
    simp only [Nat.add_assoc]

/-- The bytes up to the first block boundary behind `addr`. -/
def edge (f : File) (addr : UInt32) : Nat := f.bs - addr.toNat % f.bs

theorem edge_pos (hp : 0 < f.bs) (addr : UInt32) :
    0 < f.edge addr ∧ f.edge addr ≤ f.bs := by
  have := Nat.mod_lt addr.toNat hp
  unfold edge
  omega

/-- The next block starts where the edge ends. -/
theorem edge_aligned (hp : 0 < f.bs) (addr : UInt32) :
    (addr.toNat + f.edge addr) % f.bs = 0 := by
  have hmod := Nat.mod_lt addr.toNat hp
  have h : addr.toNat + f.edge addr = f.bs * (addr.toNat / f.bs + 1) := by
    have := Nat.div_add_mod addr.toNat f.bs
    rw [Nat.mul_add, Nat.mul_one]
    unfold edge
    omega
  rw [h, Nat.mul_mod_right]

/-- `edge_size`. -/
theorem toNat_edge (hp : 0 < f.bs) (addr : UInt32) :
    (f.fs.blockSize - addr % f.fs.blockSize).toNat = f.edge addr := by
  have hmod := Nat.mod_lt addr.toNat hp
  have hm : (addr % f.fs.blockSize).toNat = addr.toNat % f.bs := UInt32.toNat_mod _ _
  rw [Word.toNat_sub_of_le (by rw [hm, blockSize_toNat]; omega), hm, blockSize_toNat, edge]

/-- A range of at most a block. -/
theorem read_short (h : size.toNat ≤ f.bs) (junk : Nat → Buf) (dbuffer : Buf) :
    f.read junk addr size dbuffer = (f.readBlock (junk 0) addr size dbuffer 0).2 := by
  have hle : ¬ size > f.fs.blockSize := by
    rw [gt_iff_lt, UInt32.lt_iff_toNat_lt, blockSize_toNat]
    omega
  unfold File.read
  simp only [UInt32.toUInt32_toInt32]
  rw [if_neg hle]

/-- The block of the edge ends inside the file. -/
theorem edge_block_le (hlong : f.bs < size.toNat)
    (hend : addr.toNat + size.toNat ≤ f.inode.iSize.toNat) :
    (addr.toNat / f.bs + 1) * f.bs ≤ f.inode.iSize.toNat := by
  have := Nat.div_mul_le_self addr.toNat f.bs
  rw [Nat.succ_mul]
  omega

/-- The edge is read first, and is the part of the file up to the boundary. -/
theorem read_edge (hbs : f.fs.rootFs.BlockSizeOk)
    (hlong : f.bs < size.toNat) (hend : addr.toNat + size.toNat ≤ f.inode.iSize.toNat)
    (junk : Nat → Buf) (dbuffer : Buf) :
    f.read junk addr size dbuffer =
      let e := f.fs.blockSize - addr % f.fs.blockSize
      let remainSize := (size - e).toInt32
      let bsize := f.fs.blockSize.toInt32
      let nr := (remainSize / bsize).toNatClampNeg
      let (src, dest, d) := f.readBlocks junk bsize nr 1 (addr + e) e
        (dbuffer.put 0 (f.edge addr) fun k => f.rawByte (addr.toNat + k))
      if remainSize % bsize ≠ 0 then
        (f.readBlock (junk (nr + 1)) src (remainSize % bsize).toUInt32 d dest.toNat).2
      else d := by
  obtain ⟨he0, hele⟩ := edge_pos hbs.pos addr
  have he := toNat_edge hbs.pos addr
  have hne : (f.fs.blockSize - addr % f.fs.blockSize).toInt32 ≠ 0 := by
    intro h0
    have h1 := congrArg (fun x : Int32 => x.toUInt32.toNat) h0
    rw [UInt32.toUInt32_toInt32, he] at h1
    have h2 : ((0 : Int32).toUInt32).toNat = 0 := rfl
    omega
  have hin : addr.toNat % f.bs + (f.fs.blockSize - addr % f.fs.blockSize).toNat ≤ f.bs := by
    have := Nat.mod_lt addr.toNat (show f.bs > 0 from hbs.pos)
    rw [he, edge]
    omega
  have hread := readBlock_inside hbs hin (edge_block_le hlong hend) (junk 0) dbuffer 0
  have hgt : size > f.fs.blockSize := by
    rw [gt_iff_lt, UInt32.lt_iff_toNat_lt, blockSize_toNat]
    exact hlong
  unfold File.read
  simp only [UInt32.toUInt32_toInt32]
  rw [if_pos hgt, if_pos hne, hread, he]

/-- Division by the block size as an `int`, which is negative for blocks of 2 GiB. -/
theorem int_split (hbs : f.fs.rootFs.BlockSizeOk) {a : Int32} {r : Nat} (hr : IsNat a r) :
    (a / f.fs.blockSize.toInt32).toNatClampNeg = r / f.bs ∧
      IsNat (a % f.fs.blockSize.toInt32) (r % f.bs) := by
  have hle : f.bs ≤ 2147483648 := hbs.le_half
  by_cases hlt : f.bs < 2147483648
  · have hb : IsNat f.fs.blockSize.toInt32 f.bs := IsNat.ofWord (by rwa [blockSize_toNat])
    exact ⟨(hr.div hb).toNat, hr.mod hb⟩
  · have hb : f.fs.blockSize.toInt32.toInt = -2147483648 := by
      rw [IsNat.toInt_toInt32, blockSize_toNat, show f.bs = 2147483648 by omega]
      rfl
    have hrlt := hr.lt
    obtain ⟨hd, hm⟩ := hr.div_of_min hb
    rw [Nat.div_eq_of_lt (by omega), Nat.mod_eq_of_lt (by omega)]
    exact ⟨hd, hm⟩

/-- **A range longer than a block**, when the part behind the edge is an `int`: the edge and the
whole blocks are read, and the rest of less than a block is left. -/
theorem read_middle (hbs : f.fs.rootFs.BlockSizeOk)
    (hlong : f.bs < size.toNat) (hint : size.toNat - f.edge addr < 2147483648)
    (hend : addr.toNat + size.toNat ≤ f.inode.iSize.toNat) (junk : Nat → Buf) (dbuffer : Buf) :
    ∃ (src dest rest : UInt32) (i : Nat),
      rest.toNat = (size.toNat - f.edge addr) % f.bs ∧
      dest.toNat + rest.toNat = size.toNat ∧
      src.toNat + rest.toNat = addr.toNat + size.toNat ∧ src.toNat % f.bs = 0 ∧
      f.read junk addr size dbuffer =
        let d := dbuffer.put 0 dest.toNat fun k => f.rawByte (addr.toNat + k)
        if rest.toNat ≠ 0 then (f.readBlock (junk i) src rest d dest.toNat).2 else d := by
  obtain ⟨he0, hele⟩ := edge_pos hbs.pos addr
  have he := toNat_edge hbs.pos addr
  have hsize := Word.toNat_lt f.inode.iSize
  have hdvd : f.bs ∣ addr.toNat + f.edge addr := Nat.dvd_of_mod_eq_zero (edge_aligned hbs.pos addr)
  rw [read_edge hbs hlong hend]
  set e := f.fs.blockSize - addr % f.fs.blockSize
  have hr : (size - e).toNat = size.toNat - f.edge addr := by
    rw [Word.toNat_sub_of_le (by omega), he]
  set r := size.toNat - f.edge addr with hrdef
  have hrem : IsNat (size - e).toInt32 r := hr ▸ IsNat.ofWord (by omega)
  obtain ⟨hq, hm⟩ := int_split hbs hrem
  have hsrc : (addr + e).toNat = addr.toNat + f.edge addr := by
    rw [Word.toNat_add_of_lt (by omega), he]
  have hqr := Nat.div_mul_le_self r f.bs
  have hqm := Nat.div_add_mod' r f.bs
  -- the whole blocks end before the end of the file
  have hwhole : addr.toNat + f.edge addr + r / f.bs * f.bs
      ≤ f.inode.iSize.toNat / f.bs * f.bs := by
    obtain ⟨c, hc⟩ := Nat.dvd_add hdvd (Nat.dvd_mul_left f.bs (r / f.bs))
    rw [hc, Nat.mul_comm]
    refine Nat.mul_le_mul_right _ ((Nat.le_div_iff_mul_le hbs.pos).mpr ?_)
    show c * f.bs ≤ _
    rw [Nat.mul_comm, ← hc]
    omega
  obtain ⟨src, dest, hl, hs, hd⟩ := readBlocks_eq hbs junk (r / f.bs) 1
    (dbuffer.put 0 (f.edge addr) fun k => f.rawByte (addr.toNat + k))
    (show (addr + e).toNat % f.bs = 0 by rw [hsrc]; exact edge_aligned hbs.pos addr) (by omega)
    (show e.toNat + r / f.bs * f.bs < 4294967296 by omega)
  have hrest := hm.toUInt32
  have hput : (dbuffer.put 0 (f.edge addr) fun k => f.rawByte (addr.toNat + k)).put e.toNat
      (r / f.bs * f.bs) (fun k => f.rawByte ((addr + e).toNat + k))
      = dbuffer.put 0 (f.edge addr + r / f.bs * f.bs) fun k => f.rawByte (addr.toNat + k) := by
    have := Buf.put_append dbuffer 0 (f.edge addr) (r / f.bs * f.bs) fun k =>
      f.rawByte (addr.toNat + k)
    rw [Nat.zero_add] at this
    simp only [he, hsrc, Nat.add_assoc, this]
  refine ⟨src, dest, ((size - e).toInt32 % f.fs.blockSize.toInt32).toUInt32, r / f.bs + 1, hrest,
    by omega, by omega, ?_, ?_⟩
  · rw [hs, hsrc, Nat.add_mul_mod_self_right]
    exact edge_aligned hbs.pos addr
  · dsimp only
    rw [hq, hl]
    dsimp only
    rw [hput, hd, he, hrest]
    by_cases hz : r % f.bs = 0
    · rw [if_neg fun h => h (hm.eq_zero_iff.mpr hz), if_neg (not_not.mpr hz)]
    · rw [if_pos fun h => hz (hm.eq_zero_iff.mp h), if_pos hz]

/-- A range longer than a block, when the part behind the edge is an `int` and ends in a whole
block. -/
theorem read_long (hbs : f.fs.rootFs.BlockSizeOk)
    (hlong : f.bs < size.toNat) (hint : size.toNat - f.edge addr < 2147483648)
    (hend : addr.toNat + size.toNat ≤ f.inode.iSize.toNat / f.bs * f.bs) (junk : Nat → Buf)
    (dbuffer : Buf) :
    f.read junk addr size dbuffer
      = dbuffer.put 0 size.toNat fun k => f.rawByte (addr.toNat + k) := by
  have hdiv := Nat.div_mul_le_self f.inode.iSize.toNat f.bs
  obtain ⟨src, dest, rest, i, hrest, hdest, hsrc, hal, he⟩ :=
    read_middle hbs hlong hint (hend.trans hdiv) junk dbuffer
  rw [he]
  dsimp only
  split
  · have hlt := Nat.mod_lt (size.toNat - f.edge addr) (show f.bs > 0 from hbs.pos)
    rw [readBlock_inside hbs (by omega) (block_end (show src.toNat < _ by omega))]
    dsimp only
    have := Buf.put_append dbuffer 0 dest.toNat rest.toNat fun k => f.rawByte (addr.toNat + k)
    rw [Nat.zero_add, hdest] at this
    rw [← this]
    simp only [show addr.toNat + dest.toNat = src.toNat by omega, ← Nat.add_assoc]
  · rw [show dest.toNat = size.toNat by omega]

/-- **A range whose part behind the edge is no `int`**: nothing but the edge is read. -/
theorem read_huge (hbs : f.fs.rootFs.BlockSizeOk)
    (hlong : f.bs < size.toNat) (hint : 2147483648 ≤ size.toNat - f.edge addr)
    (hend : addr.toNat + size.toNat ≤ f.inode.iSize.toNat) (junk : Nat → Buf) (dbuffer : Buf) :
    f.read junk addr size dbuffer
      = dbuffer.put 0 (f.edge addr) fun k => f.rawByte (addr.toNat + k) := by
  have he := toNat_edge hbs.pos addr
  have hb31 : f.bs < 2147483648 := by
    have hle : f.bs ≤ 2147483648 := hbs.le_half
    have hsize := Word.toNat_lt f.inode.iSize
    unfold edge at hint
    by_contra hge
    rw [show f.bs = 2147483648 by omega] at hint hlong
    omega
  have hbi : IsNat f.fs.blockSize.toInt32 f.bs := IsNat.ofWord (by rwa [blockSize_toNat])
  rw [read_edge hbs hlong hend]
  set e := f.fs.blockSize - addr % f.fs.blockSize
  have hr : (size - e).toNat = size.toNat - f.edge addr := by
    rw [Word.toNat_sub_of_le (by omega), he]
  have hneg : (size - e).toInt32.toInt < 0 := IsNat.neg_ofWord (by omega)
  obtain ⟨hle, hgt⟩ := IsNat.mod_of_neg hneg hbi hbs.pos
  dsimp only
  rw [IsNat.div_of_neg hneg hbi, readBlocks]
  dsimp only
  split
  · rename_i hne
    have hlt : ((size - e).toInt32 % f.fs.blockSize.toInt32).toInt < 0 :=
      lt_of_le_of_ne hle fun h0 => hne (Int32.toInt_inj.mp h0)
    have hw := IsNat.toUInt32_of_neg hlt
    rw [File.readBlock, if_pos]
    rw [gt_iff_lt, UInt32.lt_iff_toNat_lt, blockSize_toNat]
    omega
  · rfl

/-! ## Which ranges are read right -/

/-- The bytes of a range of at most a block, in whole blocks. -/
theorem read_short_apply (hbs : f.fs.rootFs.BlockSizeOk) (hle : size.toNat ≤ f.bs)
    (hend : addr.toNat + size.toNat ≤ f.inode.iSize.toNat / f.bs * f.bs) (junk : Nat → Buf)
    (dst : Buf) {k : Nat} (hk : k < size.toNat) :
    f.read junk addr size dst k =
      if addr.toNat % f.bs + k < f.bs then f.rawByte (addr.toNat + k)
      else f.rawByte (addr.toNat % f.bs + k - f.bs) := by
  have hblock := block_end (show addr.toNat < f.inode.iSize.toNat / f.bs * f.bs by omega)
  rw [read_short hle]
  by_cases hover : f.bs < addr.toNat % f.bs + size.toNat
  · rw [readBlock_crossing hbs hle hover hblock]
    dsimp only
    rw [Buf.put_zero_apply hk]
  · rw [readBlock_inside hbs (by omega) hblock, if_pos (by omega)]
    dsimp only
    rw [Buf.put_zero_apply hk]

/-- **Exactness of `File::read`** on the whole blocks of a file. -/
theorem read_exact_iff (f : File) (hbs : f.fs.rootFs.BlockSizeOk) (addr size : UInt32)
    (hend : addr.toNat + size.toNat ≤ f.inode.iSize.toNat / f.bs * f.bs) :
    (∀ junk dst, ∀ k < size.toNat, f.read junk addr size dst k = f.byte (addr.toNat + k)) ↔
      (f.bs < size.toNat → size.toNat - f.edge addr < 2147483648) ∧
      (∀ k < size.toNat, f.bs < size.toNat ∨ addr.toNat % f.bs + k < f.bs →
        f.Solid (addr.toNat + k)) ∧
      (size.toNat ≤ f.bs → ∀ k < size.toNat, f.bs ≤ addr.toNat % f.bs + k →
        f.rawByte (addr.toNat % f.bs + k - f.bs) = f.byte (addr.toNat + k)) := by
  have hin : addr.toNat + size.toNat ≤ f.inode.iSize.toNat :=
    hend.trans (Nat.div_mul_le_self _ _)
  by_cases hle : size.toNat ≤ f.bs
  · constructor
    · intro h
      refine ⟨fun hlong => absurd hle (by omega), fun k hk hsame => ?_, fun _ k hk hover => ?_⟩
      · have := h (fun _ _ => 0) (fun _ => 0) k hk
        rwa [read_short_apply hbs hle hend _ _ hk, if_pos (by omega)] at this
      · have := h (fun _ _ => 0) (fun _ => 0) k hk
        rwa [read_short_apply hbs hle hend _ _ hk, if_neg (by omega)] at this
    · rintro ⟨-, hsolid, hfirst⟩ junk dst k hk
      rw [read_short_apply hbs hle hend _ _ hk]
      split
      · rename_i hsame
        exact hsolid k hk (.inr hsame)
      · rename_i hover
        exact hfirst hle k hk (Nat.not_lt.mp hover)
  · have hlong : f.bs < size.toNat := Nat.lt_of_not_le hle
    have hraw (hint : size.toNat - f.edge addr < 2147483648) (junk : Nat → Buf) (dst : Buf)
        {k : Nat} (hk : k < size.toNat) :
        f.read junk addr size dst k = f.rawByte (addr.toNat + k) := by
      rw [read_long hbs hlong hint hend]
      exact Buf.put_zero_apply hk
    constructor
    · intro h
      have hint : size.toNat - f.edge addr < 2147483648 := by
        by_contra hint
        obtain ⟨he0, hele⟩ := edge_pos hbs.pos addr
        -- a destination that differs from the file behind the edge
        have := h (fun _ _ => 0) (fun _ => f.byte (addr.toNat + f.edge addr) + 1) (f.edge addr)
          (by omega)
        rw [read_huge hbs hlong (by omega) hin, Buf.put_of_le (by omega)] at this
        simp at this
      refine ⟨fun _ => hint, fun k hk _ => ?_, fun h' => absurd h' hle⟩
      exact (hraw hint (fun _ _ => 0) (fun _ => 0) hk).symm.trans (h _ _ k hk)
    · rintro ⟨hint, hsolid, -⟩ junk dst k hk
      exact (hraw (hint hlong) junk dst hk).trans (hsolid k hk (.inl hlong))

/-- A file of two blocks of 1024 bytes, all ones and all twos, in the blocks 1 and 2 of the disk. -/
def twoBlocks : File where
  fs.rootFs.atadriver :=
    { size := 35328, byte := fun p => if p < 34304 then 1 else 2 }
  fs.rootFs.blockSize := 1024
  fs.rootFs.rootInode := ⟨0x4000, 0, fun _ => 0⟩
  fs.rootFs.invalidInode := ⟨0, 0, fun _ => 0⟩
  fs.rootFs.invalid_mode := zeroInode_mode
  inode := ⟨0x8000, 2048, fun i => UInt32.ofNat (i + 1)⟩

theorem twoBlocks_blockSize : twoBlocks.fs.rootFs.BlockSizeOk := ⟨10, by decide, by decide⟩

theorem twoBlocks_noHoles : twoBlocks.fs.rootFs.NoHoles twoBlocks.inode := by
  intro b hb no hno
  have hb2 : b < 2 := by
    have : (b + 1) * 1024 ≤ 2048 := hb
    omega
  have hr : route twoBlocks.fs.rootFs.nrPointers b = (Fin.ofNat 15 b, []) := route_direct (by omega)
  simp only [Ext2.blockWay, hr, Ext2.way, List.mem_singleton] at hno
  subst hno
  obtain rfl | rfl : b = 0 ∨ b = 1 := by omega
  · exact ⟨by decide, by decide⟩
  · exact ⟨by decide, by decide⟩

/-- Two bytes across the boundary: the second is the first byte of the file. -/
theorem read_straddling_wrong : ¬ ∀ f : File, f.fs.rootFs.BlockSizeOk →
    f.fs.rootFs.NoHoles f.inode → ∀ addr size : UInt32, 1 ≤ size.toNat →
    addr.toNat + size.toNat ≤ f.inode.iSize.toNat / f.bs * f.bs →
    ∀ junk dst, ∀ k < size.toNat, f.read junk addr size dst k = f.byte (addr.toNat + k) := by
  intro h
  have := h twoBlocks twoBlocks_blockSize twoBlocks_noHoles 1023 2 (by decide) (by decide)
    (fun _ _ => 0) (fun _ => 0) 1 (by decide)
  revert this
  decide +kernel

theorem twoBlocks_solid {p : Nat} (hp : p < 2048) : twoBlocks.Solid p := by
  refine Solid.of_addressed twoBlocks_blockSize fun no hno => ?_
  have hdiv : p / twoBlocks.bs < 2 := Nat.div_lt_of_lt_mul (show p < twoBlocks.bs * 2 from hp)
  generalize p / twoBlocks.bs = b at hno hdiv
  have hr : route twoBlocks.fs.rootFs.nrPointers b = (Fin.ofNat 15 b, []) :=
    route_direct (by omega)
  simp only [Ext2.blockWay, hr, Ext2.way, List.mem_singleton] at hno
  subst hno
  obtain rfl | rfl : b = 0 ∨ b = 1 := by omega
  · exact ⟨by decide, by decide⟩
  · exact ⟨by decide, by decide⟩

/-- Across the boundary with more than a block: the edge, and one whole block. -/
theorem read_exact_twoBlocks : twoBlocks.bs < 1048 ∧ ∀ junk dst, ∀ k < 1048,
    twoBlocks.read junk 1000 1048 dst k = twoBlocks.byte (1000 + k) :=
  ⟨by decide, (read_exact_iff twoBlocks twoBlocks_blockSize 1000 1048 (by decide)).mpr
    ⟨fun _ => by decide, fun k hk _ => twoBlocks_solid (show 1000 + k < 2048 by
      have : k < 1048 := hk
      omega), fun h => absurd h (by decide)⟩⟩

end File

end OwnOS.Disk
