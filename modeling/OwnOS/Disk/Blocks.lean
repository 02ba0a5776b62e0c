import OwnOS.Lib.Signed
import OwnOS.Disk.Model

/-!
# The block map of a file

An ext2 file of `n` pointers to a block reaches its blocks through a tree: twelve pointers of the
inode name data blocks, the next three a block of pointers, two levels and three levels of them
(`route`). `Ext2.fileByte` is the content of a file that this tree defines, with zero bytes for a
hole.

* `readBlockPos_raw`: for every position that passes the size check, `read_block_pos` leaves in the
  buffer what the pointers lead to, whichever level of the tree the block hangs from. The `int` sums
  and products of the bounds may overflow for large blocks, but only those of levels that a file up
  to 4 GiB does not have (`Sizes`).
* `rawContent_rawBlock`: where every block on the way ends at or below 4 GiB of the disk
  (`Addressed`), that is the block of the file. The address of a block further behind is taken mod
  2^32.
-/

namespace OwnOS.Disk

open Lib

/-- The pointer of the inode on the way to the block `b`, and the index taken in each block of `n`
pointers below it. -/
def route (n b : Nat) : Fin 15 × List Nat :=
  if b < 12 then (Fin.ofNat 15 b, [])
  else if b < 12 + n then (12, [b - 12])
  else if b < 12 + n + n * n then (13, [(b - (12 + n)) / n, (b - (12 + n)) % n])
  else
    (14, [(b - (12 + n + n * n)) / (n * n), (b - (12 + n + n * n)) / n % n,
      (b - (12 + n + n * n)) % n])

section Route

variable {n b : Nat}

theorem route_direct (h : b < 12) : route n b = (Fin.ofNat 15 b, []) := if_pos h

theorem route_single (h0 : ¬ b < 12) (h1 : b < 12 + n) : route n b = (12, [b - 12]) := by
  rw [route, if_neg h0, if_pos h1]

theorem route_double (h1 : ¬ b < 12 + n) (h2 : b < 12 + n + n * n) :
    route n b = (13, [(b - (12 + n)) / n, (b - (12 + n)) % n]) := by
  rw [route, if_neg (by omega), if_neg h1, if_pos h2]

theorem route_triple (h2 : ¬ b < 12 + n + n * n) :
    route n b = (14, [(b - (12 + n + n * n)) / (n * n), (b - (12 + n + n * n)) / n % n,
      (b - (12 + n + n * n)) % n]) := by
  rw [route, if_neg (by omega), if_neg (by omega), if_neg h2]

end Route

namespace Ext2

variable (fs : Ext2)

/-- Where the block starts on the disk. -/
def blockStart (no : UInt32) : Nat := firstBlockaddr.toNat + no.toNat * fs.blockSize.toNat

def content (no : UInt32) : Buf := fun k => fs.atadriver.byte (fs.blockStart no + k)

/-- The pointer `j` of a block of pointers. -/
def pointer (no : UInt32) (j : Nat) : UInt32 := (fs.content no).le32 (4 * j)

/-- The blocks that the indices lead through. -/
def way (no : UInt32) : List Nat → List UInt32
  | [] => [no]
  | j :: js => no :: way (fs.pointer no j) js

def nrPointers : Nat := fs.blockSize.toNat / 4

/-- The blocks read for the block `b` of the file, the block itself last. -/
def blockWay (inode : Inode) (b : Nat) : List UInt32 :=
  fs.way (inode.iBlock (route fs.nrPointers b).1) (route fs.nrPointers b).2

/-- The block `b` of the file. -/
def dataBlock (inode : Inode) (b : Nat) : UInt32 :=
  (route fs.nrPointers b).2.foldl fs.pointer (inode.iBlock (route fs.nrPointers b).1)

/-- The byte `p` of the file. A pointer 0 is a hole. -/
def fileByte (inode : Inode) (p : Nat) : UInt8 :=
  if 0 ∈ fs.blockWay inode (p / fs.blockSize.toNat) then 0
  else fs.content (fs.dataBlock inode (p / fs.blockSize.toNat)) (p % fs.blockSize.toNat)

/-- The block lies on the disk. -/
def OnDisk (no : UInt32) : Prop :=
  no ≠ 0 ∧ fs.blockStart no + fs.blockSize.toNat ≤ fs.atadriver.size

/-- The block ends at or below 4 GiB, so that its address is a word. -/
def Addressed (no : UInt32) : Prop := fs.blockStart no + fs.blockSize.toNat ≤ 4294967296

instance decidableAddressed (no : UInt32) : Decidable (fs.Addressed no) := Nat.decLe _ _

/-- The file has no hole in its whole blocks, and its blocks lie on the disk. -/
def NoHoles (inode : Inode) : Prop :=
  ∀ b, (b + 1) * fs.blockSize.toNat ≤ inode.iSize.toNat → ∀ no ∈ fs.blockWay inode b, fs.OnDisk no

/-- A power of two, at least 1024. -/
def BlockSizeOk : Prop := ∃ k, 10 ≤ k ∧ fs.blockSize.toNat = 2 ^ k

/-- What `read_block` reads, for any block number. -/
def rawContent (no : UInt32) : Buf := fun k => fs.atadriver.byte ((fs.blockIndex2addr no).toNat + k)

def rawPointer (no : UInt32) (j : Nat) : UInt32 := (fs.rawContent no).le32 (4 * j)

/-- Where the pointers lead for the block `b`, a pointer 0 followed like any other. -/
def rawBlock (inode : Inode) (b : Nat) : UInt32 :=
  (route fs.nrPointers b).2.foldl fs.rawPointer (inode.iBlock (route fs.nrPointers b).1)

variable {fs} {no no' : UInt32} {buffer : Buf} {o : Nat}

theorem BlockSizeOk.le (h : fs.BlockSizeOk) : 1024 ≤ fs.blockSize.toNat := by
  obtain ⟨k, hk, hb⟩ := h
  rw [hb]
  exact Nat.pow_le_pow_right (n := 2) (by omega) hk

theorem BlockSizeOk.pos (h : fs.BlockSizeOk) : 0 < fs.blockSize.toNat :=
  lt_of_lt_of_le (by omega) h.le

theorem BlockSizeOk.le_half (h : fs.BlockSizeOk) : fs.blockSize.toNat ≤ 2147483648 := by
  obtain ⟨k, -, hb⟩ := h
  have hlt := Word.toNat_lt fs.blockSize
  have hk : k < 32 := (Nat.pow_lt_pow_iff_right (a := 2) (by omega)).mp (by omega)
  rw [hb]
  exact Nat.pow_le_pow_right (n := 2) (j := 31) (by omega) (by omega)

theorem BlockSizeOk.four_mul (h : fs.BlockSizeOk) : 4 * fs.nrPointers = fs.blockSize.toNat := by
  obtain ⟨k, hk, hb⟩ := h
  refine Nat.mul_div_cancel' ?_
  rw [hb]
  exact pow_dvd_pow 2 (m := 2) (by omega)

theorem Addressed.toNat_addr (h : fs.Addressed no) (hbs : fs.BlockSizeOk) :
    (fs.blockIndex2addr no).toNat = fs.blockStart no := by
  have hp := hbs.pos
  unfold Addressed blockStart at h
  unfold blockIndex2addr blockStart
  have hm : (no * fs.blockSize).toNat = no.toNat * fs.blockSize.toNat :=
    Word.toNat_mul_of_lt (by omega)
  rw [Word.toNat_add_of_lt (by omega), hm]

theorem Addressed.rawContent (h : fs.Addressed no) (hbs : fs.BlockSizeOk) :
    fs.rawContent no = fs.content no := by
  funext k
  rw [Ext2.rawContent, h.toNat_addr hbs, content]

theorem Addressed.rawPointer (h : fs.Addressed no) (hbs : fs.BlockSizeOk) (j : Nat) :
    fs.rawPointer no j = fs.pointer no j := by
  rw [Ext2.rawPointer, h.rawContent hbs, pointer]

/-- Along blocks below 4 GiB. -/
theorem foldl_rawPointer (hbs : fs.BlockSizeOk) (js : List Nat)
    (h : ∀ no' ∈ fs.way no js, fs.Addressed no') :
    js.foldl fs.rawPointer no = js.foldl fs.pointer no := by
  induction js generalizing no with
  | nil => rfl
  | cons j js ih =>
    simp only [way, List.mem_cons, forall_eq_or_imp] at h
    rw [List.foldl_cons, List.foldl_cons, h.1.rawPointer hbs, ih h.2]

theorem addressed_foldl {js : List Nat} (h : ∀ no' ∈ fs.way no js, fs.Addressed no') :
    fs.Addressed (js.foldl fs.pointer no) := by
  induction js generalizing no with
  | nil => exact h no (List.mem_singleton_self no)
  | cons j js ih =>
    simp only [way, List.mem_cons, forall_eq_or_imp] at h
    exact ih h.2

/-- A block whose way stays below 4 GiB. -/
theorem rawContent_rawBlock {inode : Inode} {b : Nat} (hbs : fs.BlockSizeOk)
    (h : ∀ no ∈ fs.blockWay inode b, fs.Addressed no) :
    fs.rawContent (fs.rawBlock inode b) = fs.content (fs.dataBlock inode b) := by
  rw [rawBlock, foldl_rawPointer hbs _ h]
  exact (addressed_foldl h).rawContent hbs

theorem readBlock_eq (no : UInt32) (buffer : Buf) (o : Nat) :
    fs.readBlock no buffer o = buffer.put o fs.blockSize.toNat (fs.rawContent no) := rfl

/-- The blocks of pointers leave no trace in the buffer. -/
theorem readBlock_readBlock (no no' : UInt32) (buffer : Buf) (o : Nat) :
    fs.readBlock no' (fs.readBlock no buffer o) o = fs.readBlock no' buffer o := by
  unfold Ext2.readBlock Ata.read
  exact Buf.put_put _ _ _ _ _

theorem entry_readBlock {i : Int32} {j : Nat} (hbs : fs.BlockSizeOk) (hi : IsNat i j)
    (hj : j < fs.nrPointers) (no : UInt32) (buffer : Buf) (o : Nat) :
    entry (fs.readBlock no buffer o) o i = fs.rawPointer no j := by
  have h4 := hbs.four_mul
  rw [Ext2.entry, hi.toNat, readBlock_eq, rawPointer]
  refine Buf.le32_congr fun k hk => ?_
  rw [Nat.add_assoc, Buf.put_add (by omega)]

/-- One level of the tree: a block of pointers is read, and the block that its pointer names. -/
theorem readBlock_step {i : Int32} {j : Nat} (hbs : fs.BlockSizeOk) (hi : IsNat i j)
    (hj : j < fs.nrPointers) (no : UInt32) (buffer : Buf) (o : Nat) :
    fs.readBlock (Ext2.entry (fs.readBlock no buffer o) o i) (fs.readBlock no buffer o) o
      = fs.readBlock (fs.rawPointer no j) buffer o := by
  rw [entry_readBlock hbs hi hj, readBlock_readBlock]

/-! ## Which levels a file up to 4 GiB has -/

section Sizes

variable {n b : Nat}

/-- Where a block of pointers is used, the first block of the triple level is an `int`. -/
theorem dind_lt (hn : 256 ≤ n) (hb : (b + 1) * (4 * n) ≤ 4294967296) (h : 12 + n ≤ b) :
    12 + n + n * n < 1073741824 := by
  have hm : (12 + n) * (4 * n) ≤ b * (4 * n) := Nat.mul_le_mul_right _ h
  have h1 : (12 + n) * (4 * n) = 48 * n + 4 * (n * n) := by ring
  rw [Nat.add_mul] at hb
  omega

/-- Where the triple level is used, its end is an `int`. -/
theorem tind_lt (hn : 256 ≤ n) (hb : (b + 1) * (4 * n) ≤ 4294967296) (h : 12 + n + n * n ≤ b) :
    12 + n + n * n + n * n * n < 1073741824 := by
  have hm : (12 + n + n * n) * (4 * n) ≤ b * (4 * n) := Nat.mul_le_mul_right _ h
  have h1 : (12 + n + n * n) * (4 * n) = 48 * n + 4 * (n * n) + 4 * (n * n * n) := by ring
  rw [Nat.add_mul] at hb
  omega

/-- The triple level reaches every block. -/
theorem lt_cube (hn : 256 ≤ n) (hb : (b + 1) * (4 * n) ≤ 4294967296) : b < n * n * n := by
  have hc : 256 * 256 * 256 ≤ n * n * n := Nat.mul_le_mul (Nat.mul_le_mul hn hn) hn
  have hm : (b + 1) * (4 * 256) ≤ (b + 1) * (4 * n) := Nat.mul_le_mul_left _ (by omega)
  omega

end Sizes

/-! ## Reading the block of a position -/

/-- `accessblock`. -/
theorem isNat_accessblock {pos : UInt32} (hbs : fs.BlockSizeOk) :
    IsNat (pos / fs.blockSize).toInt32 (pos.toNat / fs.blockSize.toNat) := by
  have hpos := Word.toNat_lt pos
  have hle : pos.toNat / fs.blockSize.toNat ≤ pos.toNat / 1024 :=
    Nat.div_le_div_left hbs.le (by omega)
  have he : (pos / fs.blockSize).toNat = pos.toNat / fs.blockSize.toNat := UInt32.toNat_div _ _
  have := IsNat.ofWord (x := pos / fs.blockSize) (by omega)
  rwa [he] at this

/-- `nr_entry`. -/
theorem isNat_nrEntry (fs : Ext2) : IsNat (fs.blockSize / 4).toInt32 fs.nrPointers := by
  have hlt := Word.toNat_lt fs.blockSize
  have he : (fs.blockSize / 4).toNat = fs.blockSize.toNat / 4 := UInt32.toNat_div _ _
  have := IsNat.ofWord (x := fs.blockSize / 4) (by omega)
  rwa [he] at this

/-- The size check. -/
theorem readBlockPos_fail {pos : UInt32} {inode : Inode} (h : pos + fs.blockSize > inode.iSize) :
    fs.readBlockPos pos buffer o inode = (false, buffer) := if_pos h

/-- The block of a position ends at 4 GiB at the latest. -/
theorem block_le (hbs : fs.BlockSizeOk) (pos : UInt32) :
    (pos.toNat / fs.blockSize.toNat + 1) * fs.blockSize.toNat ≤ 4294967296 := by
  have hlt := Word.toNat_lt fs.blockSize
  have hpos := Word.toNat_lt pos
  have hdvd : fs.blockSize.toNat ∣ 4294967296 := by
    obtain ⟨k, -, hk⟩ := hbs
    have : k < 32 := (Nat.pow_lt_pow_iff_right (a := 2) (by omega)).mp (by omega)
    rw [hk]
    exact pow_dvd_pow 2 (n := 32) (by omega)
  obtain ⟨c, hc⟩ := hdvd
  have hq : pos.toNat / fs.blockSize.toNat < c := Nat.div_lt_of_lt_mul (by omega)
  rw [hc, Nat.mul_comm fs.blockSize.toNat]
  exact Nat.mul_le_mul_right _ hq

/-- **Block map**: what the pointers lead to. -/
theorem readBlockPos_raw {pos : UInt32} {inode : Inode} (hbs : fs.BlockSizeOk)
    (hexc : ¬ pos + fs.blockSize > inode.iSize) :
    fs.readBlockPos pos buffer o inode = (true, buffer.put o fs.blockSize.toNat
      (fs.rawContent (fs.rawBlock inode (pos.toNat / fs.blockSize.toNat)))) := by
  have h4 := hbs.four_mul
  have hle := hbs.le
  have hbB := block_le hbs pos
  set b := pos.toNat / fs.blockSize.toNat with hbdef
  have hn : 256 ≤ fs.nrPointers := by omega
  set n := fs.nrPointers with hndef
  rw [← h4] at hbB
  have hacc : IsNat (pos / fs.blockSize).toInt32 b := isNat_accessblock hbs
  have hnr : IsNat (fs.blockSize / 4).toInt32 n := isNat_nrEntry fs
  have hdir : IsNat (12 : Int32) 12 := rfl
  have hn30 : n < 1073741824 := by
    have := Word.toNat_lt fs.blockSize
    omega
  have hind : IsNat (12 + (fs.blockSize / 4).toInt32) (12 + n) := hdir.add hnr (by omega)
  have h12 : inode.block 12 = inode.iBlock 12 := rfl
  have h13 : inode.block 13 = inode.iBlock 13 := rfl
  have h14 : inode.block 14 = inode.iBlock 14 := rfl
  have hpos' : 0 < n := by omega
  unfold readBlockPos
  rw [if_neg hexc]
  dsimp only
  by_cases h0 : b < 12
  · rw [if_pos ((hacc.lt_iff hdir).mpr h0), Inode.block, hacc.toNat, readBlock_eq, rawBlock,
      ← hndef, route_direct h0]
    rfl
  rw [if_neg fun h => h0 ((hacc.lt_iff hdir).mp h)]
  by_cases h1 : b < 12 + n
  · have hj : b - 12 < fs.nrPointers := by omega
    rw [if_pos ((hacc.lt_iff hind).mpr h1), h12, readBlock_step hbs (hacc.sub hdir (by omega)) hj,
      readBlock_eq, rawBlock, ← hndef, route_single h0 h1]
    rfl
  rw [if_neg fun h => h1 ((hacc.lt_iff hind).mp h)]
  have hsq := dind_lt hn hbB (by omega)
  have hnn := hnr.mul hnr (by omega)
  have hdind := hind.add hnn (by omega)
  by_cases h2 : b < 12 + n + n * n
  · have hq := hacc.sub hind (by omega)
    have hj1 : (b - (12 + n)) / n < n := Nat.div_lt_of_lt_mul (by omega)
    have hj2 : (b - (12 + n)) % n < n := Nat.mod_lt _ hpos'
    rw [if_pos ((hacc.lt_iff hdind).mpr h2), h13, readBlock_step hbs (hq.div hnr) hj1,
      readBlock_step hbs (hq.mod hnr) hj2, readBlock_eq, rawBlock, ← hndef, route_double h1 h2]
    rfl
  rw [if_neg fun h => h2 ((hacc.lt_iff hdind).mp h)]
  have hcu := tind_lt hn hbB (by omega)
  have htind := hdind.add (hnn.mul hnr (by omega)) (by omega)
  have h3 := lt_cube hn hbB
  have hq := hacc.sub hdind (by omega)
  have hj1 : (b - (12 + n + n * n)) / (n * n) < n := Nat.div_lt_of_lt_mul (by omega)
  have hj2 : (b - (12 + n + n * n)) / n % n < n := Nat.mod_lt _ hpos'
  have hj3 : (b - (12 + n + n * n)) % n < n := Nat.mod_lt _ hpos'
  rw [if_pos ((hacc.lt_iff htind).mpr (by omega)), h14, readBlock_step hbs (hq.div hnn) hj1,
    readBlock_step hbs ((hq.div hnr).mod hnr) hj2, readBlock_step hbs (hq.mod hnr) hj3,
    readBlock_eq, rawBlock, ← hndef, route_triple h2]
  rfl

/-- A block inside the file passes the test of the position. -/
theorem not_exceeds {pos : UInt32} {inode : Inode}
    (hpos : pos.toNat + fs.blockSize.toNat ≤ inode.iSize.toNat) :
    ¬ pos + fs.blockSize > inode.iSize := by
  have hsize := Word.toNat_lt inode.iSize
  have hadd : (pos + fs.blockSize).toNat = pos.toNat + fs.blockSize.toNat :=
    Word.toNat_add_of_lt (by omega)
  rw [gt_iff_lt, UInt32.lt_iff_toNat_lt, hadd]
  omega

end Ext2

end OwnOS.Disk
