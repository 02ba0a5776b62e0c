import OwnOS.Disk.FileRead

/-!
# Reading at the end of a file (`FileSystem.cpp:61-147`)

`read_block_pos` refuses a block that does not end inside the file, also the last one, whose first
bytes are part of it. `FileSystem::read_block` answers true all the same, and `File::read_block`
copies what was in its buffer, which is fresh from `new`. Only a block that ends at 4 GiB passes the
check whatever the size of the file, since its end is 0 as a word.

* `readBlock_true_iff`: when a read of at most a block fails or is right, for every file.
* `readTail_iff`: when a range that reaches into the last, partial block is read right, on a disk of
  any size.
-/

namespace OwnOS.Disk

open Lib

namespace File

variable {f : File} {addr size : UInt32}

/-! ## What a successful `read_block` promises -/

/-- A range that is not in the file is refused; what is copied is the file. -/
def TrueRead (f : File) (addr size : UInt32) : Prop :=
  ∀ junk dbuffer o,
    ((∃ k < size.toNat, f.inode.iSize.toNat ≤ addr.toNat + k) →
      f.readBlock junk addr size dbuffer o = (false, dbuffer)) ∧
    ((f.readBlock junk addr size dbuffer o).1 = true → ∀ k < size.toNat,
      (f.readBlock junk addr size dbuffer o).2 (o + k) = f.byte (addr.toNat + k))

/-- The range lies in the file. Inside one block, that block passes the size check; across a
boundary, the bytes behind it are those at the beginning of the file. -/
structure Readable (f : File) (addr size : UInt32) : Prop where
  le : addr.toNat + size.toNat ≤ f.inode.iSize.toNat
  inside : addr.toNat % f.bs + size.toNat ≤ f.bs →
    f.Passes (addr.toNat / f.bs) ∧ ∀ k < size.toNat, f.Solid (addr.toNat + k)
  across : f.bs < addr.toNat % f.bs + size.toNat → ∀ k < size.toNat,
    (addr.toNat % f.bs + k < f.bs → f.Solid (addr.toNat + k)) ∧
    (f.bs ≤ addr.toNat % f.bs + k →
      f.rawByte (addr.toNat % f.bs + k - f.bs) = f.byte (addr.toNat + k))

/-- At most a block is never refused. -/
theorem readBlock_fst (f : File) (addr : UInt32) (hle : size.toNat ≤ f.bs) (junk dbuffer : Buf)
    (o : Nat) :
    (f.readBlock junk addr size dbuffer o).1 = true := by
  unfold File.readBlock
  rw [if_neg (not_too_large hle)]

/-- Before a boundary that the range crosses, the block ends inside the file. -/
theorem crossed_block_le (hend : addr.toNat + size.toNat ≤ f.inode.iSize.toNat)
    (hover : f.bs < addr.toNat % f.bs + size.toNat) :
    (addr.toNat / f.bs + 1) * f.bs ≤ f.inode.iSize.toNat := by
  have := Nat.div_add_mod' addr.toNat f.bs
  rw [Nat.succ_mul]
  omega

section Bytes

variable {k : Nat} (hbs : f.fs.rootFs.BlockSizeOk) (hk : k < size.toNat)
  (junk dbuffer : Buf) (o : Nat)

include hbs hk

theorem readBlock_raw_apply (hin : addr.toNat % f.bs + size.toNat ≤ f.bs)
    (hp : f.Passes (addr.toNat / f.bs)) :
    (f.readBlock junk addr size dbuffer o).2 (o + k) = f.rawByte (addr.toNat + k) := by
  rw [readBlock_raw hbs hin hp]
  dsimp only
  rw [Buf.put_add hk]

theorem readBlock_junk_apply (hin : addr.toNat % f.bs + size.toNat ≤ f.bs)
    (hp : ¬ f.Passes (addr.toNat / f.bs)) :
    (f.readBlock junk addr size dbuffer o).2 (o + k) = junk (addr.toNat % f.bs + k) := by
  rw [readBlock_junk hbs hin hp]
  dsimp only
  rw [Buf.put_add hk]

theorem readBlock_crossing_apply (hle : size.toNat ≤ f.bs)
    (hover : f.bs < addr.toNat % f.bs + size.toNat)
    (hend : addr.toNat + size.toNat ≤ f.inode.iSize.toNat) :
    (f.readBlock junk addr size dbuffer o).2 (o + k) =
      if addr.toNat % f.bs + k < f.bs then f.rawByte (addr.toNat + k)
      else f.rawByte (addr.toNat % f.bs + k - f.bs) := by
  rw [readBlock_crossing hbs hle hover (crossed_block_le hend hover)]
  dsimp only
  rw [Buf.put_add hk]

end Bytes

/-- **A successful read is a true read.** -/
theorem readBlock_true_iff (f : File) (hbs : f.fs.rootFs.BlockSizeOk) (addr size : UInt32)
    (hle : size.toNat ≤ f.bs) : f.TrueRead addr size ↔ size.toNat = 0 ∨ f.Readable addr size := by
  constructor
  · intro h
    by_cases h0 : size.toNat = 0
    · exact .inl h0
    have hend : addr.toNat + size.toNat ≤ f.inode.iSize.toNat := by
      by_contra hgt
      have := (h (fun _ => 0) (fun _ => 0) 0).1 ⟨size.toNat - 1, by omega, by omega⟩
      have htrue := readBlock_fst f addr hle (fun _ => 0) (fun _ => 0) 0
      rw [this] at htrue
      exact absurd htrue (by simp)
    refine .inr ⟨hend, fun hin => ?_, fun hover k hk => ?_⟩
    · have hp : f.Passes (addr.toNat / f.bs) := by
        by_contra hp
        -- a buffer that differs from the file
        have := (h (fun _ => f.byte addr.toNat + 1) (fun _ => 0) 0).2
          (readBlock_fst f addr hle _ _ _) 0 (by omega)
        rw [readBlock_junk_apply hbs (by omega) _ _ _ hin hp, Nat.add_zero] at this
        simp at this
      refine ⟨hp, fun k hk => ?_⟩
      have := (h (fun _ => 0) (fun _ => 0) 0).2 (readBlock_fst f addr hle _ _ _) k hk
      rwa [readBlock_raw_apply hbs hk _ _ _ hin hp] at this
    · have := (h (fun _ => 0) (fun _ => 0) 0).2 (readBlock_fst f addr hle _ _ _) k hk
      rw [readBlock_crossing_apply hbs hk _ _ _ hle hover hend] at this
      constructor
      · intro hlt
        rwa [if_pos hlt] at this
      · intro hge
        rwa [if_neg (Nat.not_lt.mpr hge)] at this
  · rintro (h0 | h) junk dbuffer o
    · exact ⟨fun ⟨k, hk, _⟩ => absurd hk (by omega), fun _ k hk => absurd hk (by omega)⟩
    · refine ⟨fun ⟨k, hk, hge⟩ => absurd h.le (by omega), fun _ k hk => ?_⟩
      by_cases hin : addr.toNat % f.bs + size.toNat ≤ f.bs
      · rw [readBlock_raw_apply hbs hk _ _ _ hin (h.inside hin).1]
        exact (h.inside hin).2 k hk
      · have hover := Nat.lt_of_not_le hin
        rw [readBlock_crossing_apply hbs hk _ _ _ hle hover h.le]
        split
        · rename_i hlt
          exact (h.across hover k hk).1 hlt
        · rename_i hge
          exact (h.across hover k hk).2 (Nat.not_lt.mp hge)

/-- The second block of a file of two blocks. -/
theorem readBlock_true_twoBlocks : twoBlocks.TrueRead 1024 1024 := by
  refine (readBlock_true_iff twoBlocks twoBlocks_blockSize 1024 1024 (by decide)).mpr (.inr ?_)
  refine ⟨by decide, fun _ => ⟨.inl (by decide), fun k hk => twoBlocks_solid ?_⟩, fun h => ?_⟩
  · have hk' : k < 1024 := hk
    have h1 : (1024 : UInt32).toNat = 1024 := rfl
    omega
  · exact absurd h (by decide)

/-- Behind the end of a file of two blocks. -/
theorem readBlock_behind_end : ¬ ∀ f : File, f.fs.rootFs.BlockSizeOk → ∀ addr size : UInt32,
    size.toNat ≤ f.bs → f.TrueRead addr size := by
  intro h
  have := (h twoBlocks twoBlocks_blockSize 2048 1 (by decide) (fun _ => 0) (fun _ => 0) 0).1
    ⟨0, by decide, by decide⟩
  have htrue := readBlock_fst twoBlocks 2048 (show (1 : UInt32).toNat ≤ twoBlocks.bs by decide)
    (fun _ => 0) (fun _ => 0) 0
  rw [this] at htrue
  exact absurd htrue (by simp)

/-! ## The last, partial block -/

/-- The file has no hole, and its blocks lie on the disk. -/
def Allocated (f : File) : Prop :=
  ∀ b, b * f.bs < f.inode.iSize.toNat → ∀ no ∈ f.fs.rootFs.blockWay f.inode b, f.fs.rootFs.OnDisk no

/-- The number of the partial block. -/
def lastBlock (f : File) : Nat := f.inode.iSize.toNat / f.bs

/-- The partial block passes the size check only at 4 GiB. -/
theorem passes_lastBlock (hbs : f.fs.rootFs.BlockSizeOk) :
    f.Passes f.lastBlock ↔ (f.lastBlock + 1) * f.bs = 4294967296 := by
  have hlt : f.inode.iSize.toNat < (f.lastBlock + 1) * f.bs := by
    have := Nat.lt_mul_div_succ f.inode.iSize.toNat hbs.pos
    rwa [Nat.mul_comm] at this
  unfold Passes
  omega

/-- Positions from the start of the partial block on. -/
theorem div_eq_lastBlock {p : Nat} (hbs : f.fs.rootFs.BlockSizeOk) (h : f.lastBlock * f.bs ≤ p)
    (h' : p < f.inode.iSize.toNat) : p / f.bs = f.lastBlock := by
  have hp : 0 < f.bs := hbs.pos
  refine le_antisymm (Nat.div_le_div_right h'.le) ((Nat.le_div_iff_mul_le hp).mpr h)

section Tail

variable (hbs : f.fs.rootFs.BlockSizeOk)
  (hend : addr.toNat + size.toNat ≤ f.inode.iSize.toNat)

include hbs hend

/-- A range inside the partial block. -/
theorem readTail_inside (hpos : 1 ≤ size.toNat)
    (hreach : f.lastBlock * f.bs < addr.toNat + size.toNat)
    (hin : addr.toNat % f.bs + size.toNat ≤ f.bs) :
    (∀ junk dst, ∀ k < size.toNat, f.read junk addr size dst k = f.byte (addr.toNat + k)) ↔
      (f.lastBlock + 1) * f.bs = 4294967296 ∧ ∀ k < size.toNat, f.Solid (addr.toNat + k) := by
  have hle : size.toNat ≤ f.bs := by omega
  have hmod := Nat.div_add_mod' addr.toNat f.bs
  have hb : addr.toNat / f.bs = f.lastBlock := by
    refine div_eq_lastBlock hbs ?_ (by omega)
    have hlt : f.lastBlock < addr.toNat / f.bs + 1 := by
      refine Nat.lt_of_mul_lt_mul_right (a := f.bs) ?_
      rw [Nat.succ_mul]
      omega
    exact le_trans (Nat.mul_le_mul_right _ (Nat.lt_succ_iff.mp hlt)) (Nat.div_mul_le_self _ _)
  rw [← passes_lastBlock hbs, ← hb]
  have hraw (hp : f.Passes (addr.toNat / f.bs)) (junk : Nat → Buf) (dst : Buf) {k : Nat}
      (hk : k < size.toNat) : f.read junk addr size dst k = f.rawByte (addr.toNat + k) := by
    have := readBlock_raw_apply hbs hk (junk 0) dst 0 hin hp
    rw [Nat.zero_add] at this
    rw [read_short hle, this]
  constructor
  · intro h
    have hp : f.Passes (addr.toNat / f.bs) := by
      by_contra hp
      -- a buffer that differs from the file
      have := h (fun _ _ => f.byte addr.toNat + 1) (fun _ => 0) 0 (by omega)
      rw [read_short hle, ← Nat.zero_add 0, readBlock_junk_apply hbs (by omega) _ _ _ hin hp]
        at this
      simp at this
    exact ⟨hp, fun k hk => (hraw hp (fun _ _ => 0) (fun _ => 0) hk).symm.trans (h _ _ k hk)⟩
  · rintro ⟨hp, hsolid⟩ junk dst k hk
    exact (hraw hp junk dst hk).trans (hsolid k hk)

/-- A range of at most a block across the start of the partial block. -/
theorem readTail_across (hle : size.toNat ≤ f.bs) (hover : f.bs < addr.toNat % f.bs + size.toNat) :
    (∀ junk dst, ∀ k < size.toNat, f.read junk addr size dst k = f.byte (addr.toNat + k)) ↔
      ∀ k < size.toNat, (addr.toNat % f.bs + k < f.bs → f.Solid (addr.toNat + k)) ∧
        (f.bs ≤ addr.toNat % f.bs + k →
          f.rawByte (addr.toNat % f.bs + k - f.bs) = f.byte (addr.toNat + k)) := by
  have hread (junk : Nat → Buf) (dst : Buf) {k : Nat} (hk : k < size.toNat) :
      f.read junk addr size dst k = if addr.toNat % f.bs + k < f.bs then f.rawByte (addr.toNat + k)
        else f.rawByte (addr.toNat % f.bs + k - f.bs) := by
    have := readBlock_crossing_apply hbs hk (junk 0) dst 0 hle hover hend
    rw [Nat.zero_add] at this
    rw [read_short hle, this]
  constructor
  · intro h k hk
    have := h (fun _ _ => 0) (fun _ => 0) k hk
    rw [hread _ _ hk] at this
    refine ⟨fun hlt => ?_, fun hge => ?_⟩
    · rwa [if_pos hlt] at this
    · rwa [if_neg (Nat.not_lt.mpr hge)] at this
  · intro h junk dst k hk
    rw [hread _ _ hk]
    split
    · rename_i hlt
      exact (h k hk).1 hlt
    · rename_i hge
      exact (h k hk).2 (Nat.not_lt.mp hge)

omit hbs hend in
/-- Where a range longer than a block goes on behind its whole blocks: the partial block. -/
theorem rest_lastBlock (hb : 0 < f.bs) {src rest : UInt32}
    (hreach : f.lastBlock * f.bs < addr.toNat + size.toNat)
    (hsrc : src.toNat + rest.toNat = addr.toNat + size.toNat)
    (hend : addr.toNat + size.toNat ≤ f.inode.iSize.toNat) (hlt : rest.toNat < f.bs)
    (hal : src.toNat % f.bs = 0) : src.toNat = f.lastBlock * f.bs := by
  obtain ⟨c, hc⟩ := Nat.dvd_of_mod_eq_zero hal
  have h1 : c ≤ f.lastBlock := (Nat.le_div_iff_mul_le hb).mpr (by rw [Nat.mul_comm, ← hc]; omega)
  have h2 : f.lastBlock < c + 1 := by
    refine Nat.lt_of_mul_lt_mul_right (a := f.bs) ?_
    rw [Nat.succ_mul, Nat.mul_comm c, ← hc]
    omega
  rw [hc, Nat.mul_comm, show c = f.lastBlock by omega]

/-- A range longer than a block: what stands in front of the partial block, and its beginning. -/
theorem read_tail_middle (hreach : f.lastBlock * f.bs < addr.toNat + size.toNat)
    (hlong : f.bs < size.toNat) (hint : size.toNat - f.edge addr < 2147483648)
    (junk : Nat → Buf) (dst : Buf) : ∃ (src dest rest : UInt32) (i : Nat),
      src.toNat = f.lastBlock * f.bs ∧ 0 < rest.toNat ∧ rest.toNat ≤ f.bs ∧
      dest.toNat + rest.toNat = size.toNat ∧ src.toNat + rest.toNat = addr.toNat + size.toNat ∧
      f.read junk addr size dst = (f.readBlock (junk i) src rest
        (dst.put 0 dest.toNat fun k => f.rawByte (addr.toNat + k)) dest.toNat).2 := by
  obtain ⟨src, dest, rest, i, hrest, hdest, hsrc, hal, he⟩ :=
    read_middle hbs hlong hint hend junk dst
  have hb : 0 < f.bs := hbs.pos
  have hlt : rest.toNat < f.bs := by
    rw [hrest]
    exact Nat.mod_lt _ hb
  have hs := rest_lastBlock hb hreach hsrc hend hlt hal
  refine ⟨src, dest, rest, i, hs, by omega, hlt.le, hdest, hsrc, ?_⟩
  rw [he]
  exact if_pos (by omega)

/-- A range longer than a block. -/
theorem readTail_long (hreach : f.lastBlock * f.bs < addr.toNat + size.toNat)
    (hlong : f.bs < size.toNat) :
    (∀ junk dst, ∀ k < size.toNat, f.read junk addr size dst k = f.byte (addr.toNat + k)) ↔
      (f.lastBlock + 1) * f.bs = 4294967296 ∧ size.toNat - f.edge addr < 2147483648 ∧
        ∀ k < size.toNat, f.Solid (addr.toNat + k) := by
  have hhuge :
      (∀ junk dst, ∀ k < size.toNat, f.read junk addr size dst k = f.byte (addr.toNat + k)) →
      size.toNat - f.edge addr < 2147483648 := by
    intro h
    by_contra hint
    obtain ⟨he0, hele⟩ := edge_pos hbs.pos addr
    -- a destination that differs from the file behind the edge
    have := h (fun _ _ => 0) (fun _ => f.byte (addr.toNat + f.edge addr) + 1) (f.edge addr)
      (by omega)
    rw [read_huge hbs hlong (by omega) hend, Buf.put_of_le (by omega)] at this
    simp at this
  have hb : 0 < f.bs := hbs.pos
  have hblock {src : UInt32} (hs : src.toNat = f.lastBlock * f.bs) :
      src.toNat / f.bs = f.lastBlock ∧ src.toNat % f.bs = 0 := by
    rw [hs]
    exact ⟨Nat.mul_div_cancel _ hb, Nat.mul_mod_left _ _⟩
  rw [← passes_lastBlock hbs]
  have hraw (hp : f.Passes f.lastBlock) (hint : size.toNat - f.edge addr < 2147483648)
      (junk : Nat → Buf) (dst : Buf) {k : Nat} (hk : k < size.toNat) :
      f.read junk addr size dst k = f.rawByte (addr.toNat + k) := by
    obtain ⟨src, dest, rest, i, hs, h0, hle, hdest, hsrc, he⟩ :=
      read_tail_middle hbs hend hreach hlong hint junk dst
    obtain ⟨hdiv, hmod⟩ := hblock hs
    rw [he, readBlock_raw hbs (by rw [hmod]; omega) (by rwa [hdiv])]
    dsimp only
    by_cases hlt : k < dest.toNat
    · rw [Buf.put_of_lt hlt, Buf.put_zero_apply hlt]
    · rw [Buf.put_of_mem (Nat.not_lt.mp hlt) (by omega),
        show src.toNat + (k - dest.toNat) = addr.toNat + k by omega]
  constructor
  · intro h
    have hint := hhuge h
    have hp : f.Passes f.lastBlock := by
      by_contra hp
      set x : UInt8 := f.byte (f.lastBlock * f.bs) + 1 with hx
      obtain ⟨src, dest, rest, i, hs, h0, hle, hdest, hsrc, he⟩ :=
        read_tail_middle hbs hend hreach hlong hint (fun _ _ => x) fun _ => 0
      obtain ⟨hdiv, hmod⟩ := hblock hs
      have := h (fun _ _ => x) (fun _ => 0) dest.toNat (by omega)
      have hjunk := readBlock_junk_apply hbs (show 0 < rest.toNat by omega) (fun _ => x)
        (Buf.put (fun _ => 0) 0 dest.toNat fun k => f.rawByte (addr.toNat + k)) dest.toNat
        (show src.toNat % f.bs + rest.toNat ≤ f.bs by rw [hmod]; omega) (by rwa [hdiv])
      rw [Nat.add_zero] at hjunk
      rw [he, hjunk, show addr.toNat + dest.toNat = f.lastBlock * f.bs by omega, hx] at this
      simp at this
    exact ⟨hp, hint, fun k hk =>
      (hraw hp hint (fun _ _ => 0) (fun _ => 0) hk).symm.trans (h _ _ k hk)⟩
  · rintro ⟨hp, hint, hsolid⟩ junk dst k hk
    exact (hraw hp hint junk dst hk).trans (hsolid k hk)

end Tail

/-- **The tail of a file.** -/
theorem readTail_iff (f : File) (hbs : f.fs.rootFs.BlockSizeOk) (addr size : UInt32)
    (hpos : 1 ≤ size.toNat) (hend : addr.toNat + size.toNat ≤ f.inode.iSize.toNat)
    (hreach : f.lastBlock * f.bs < addr.toNat + size.toNat) :
    (∀ junk dst, ∀ k < size.toNat, f.read junk addr size dst k = f.byte (addr.toNat + k)) ↔
      if size.toNat ≤ f.bs ∧ f.bs < addr.toNat % f.bs + size.toNat then
        ∀ k < size.toNat, (addr.toNat % f.bs + k < f.bs → f.Solid (addr.toNat + k)) ∧
          (f.bs ≤ addr.toNat % f.bs + k →
            f.rawByte (addr.toNat % f.bs + k - f.bs) = f.byte (addr.toNat + k))
      else (f.lastBlock + 1) * f.bs = 4294967296 ∧
        (f.bs < size.toNat → size.toNat - f.edge addr < 2147483648) ∧
        ∀ k < size.toNat, f.Solid (addr.toNat + k) := by
  by_cases hle : size.toNat ≤ f.bs
  · by_cases hover : f.bs < addr.toNat % f.bs + size.toNat
    · rw [if_pos ⟨hle, hover⟩]
      exact readTail_across hbs hend hle hover
    · rw [if_neg fun h => hover h.2, readTail_inside hbs hend hpos hreach (by omega)]
      exact and_congr_right fun _ => (and_iff_right fun h => absurd h (by omega)).symm
  · have hlong := Nat.lt_of_not_le hle
    rw [if_neg fun h => hle h.1, readTail_long hbs hend hreach hlong]
    exact and_congr_right fun _ => and_congr_left fun _ => ⟨fun h _ => h, fun h => h hlong⟩

/-- A file of at most 1025 bytes, all ones: both blocks are block 1. -/
def allOnes (size : UInt32) : File where
  fs := twoBlocks.fs
  inode := ⟨0x8000, size, fun _ => 1⟩

theorem allOnes_allocated {size : UInt32} (h : size.toNat ≤ 1025) : (allOnes size).Allocated := by
  intro b hb no hno
  have h1024 : (allOnes size).bs = 1024 := rfl
  have h1 : (allOnes size).inode.iSize.toNat = size.toNat := rfl
  have hb2 : b < 12 := by
    rw [h1024, h1] at hb
    omega
  have hr : route (allOnes size).fs.rootFs.nrPointers b = (Fin.ofNat 15 b, []) := route_direct hb2
  simp only [Ext2.blockWay, hr, Ext2.way, List.mem_singleton] at hno
  obtain rfl : no = 1 := hno
  have hone : twoBlocks.fs.rootFs.OnDisk 1 := ⟨by decide, by decide⟩
  exact hone

/-- Across the boundary of the two equal blocks. -/
theorem readTail_allOnes :
    (allOnes 1025).read (fun _ _ => 0) 1023 2 (fun _ => 0) 0 = (allOnes 1025).byte 1023 ∧
      (allOnes 1025).read (fun _ _ => 0) 1023 2 (fun _ => 0) 1 = (allOnes 1025).byte 1024 := by
  have h := (readTail_iff (allOnes 1025) twoBlocks_blockSize 1023 2 (by decide) (by decide)
    (by decide)).mpr (by
      rw [if_pos (by decide)]
      intro k hk
      obtain rfl | rfl : k = 0 ∨ k = 1 := by
        have : k < 2 := hk
        omega
      · have hsolid : (allOnes 1025).rawByte 1023 = (allOnes 1025).byte 1023 := by decide +kernel
        exact ⟨fun _ => hsolid, fun h => absurd h (by decide)⟩
      · have hfirst : (allOnes 1025).rawByte 0 = (allOnes 1025).byte 1024 := by decide +kernel
        exact ⟨fun h => absurd h (by decide), fun _ => hfirst⟩)
  exact ⟨h (fun _ _ => 0) (fun _ => 0) 0 (by decide), h (fun _ _ => 0) (fun _ => 0) 1 (by decide)⟩

/-- The byte of a file of one byte is not read. -/
theorem readTail_wrong : ¬ ∀ f : File, f.fs.rootFs.BlockSizeOk → f.Allocated →
    f.inode.iSize.toNat % f.bs ≠ 0 → ∀ addr size : UInt32, 1 ≤ size.toNat →
    addr.toNat + size.toNat ≤ f.inode.iSize.toNat →
    f.lastBlock * f.bs < addr.toNat + size.toNat →
    ∀ junk dst, ∀ k < size.toNat, f.read junk addr size dst k = f.byte (addr.toNat + k) := by
  intro h
  have := h (allOnes 1) twoBlocks_blockSize (allOnes_allocated (by decide)) (by decide) 0 1
    (by decide) (by decide) (by decide) (fun _ _ => 0) (fun _ => 0) 0 (by decide)
  revert this
  decide +kernel

end File

end OwnOS.Disk
