import OwnOS.Disk.FileRead
import OwnOS.Lib.Tiling

/-!
# The calls of `File::read` (`FileSystem.cpp:114-147`)

`File::read` of more than a block is a sequence of calls of `read_block`: the edge, whole blocks,
and what is left. `readCalls` is that sequence, and `read_eq_issue` says that issuing it is all that
`File::read` does.

* `blockCalls_spec`: the calls of the loop, from any block on.
* `read_calls_exact`: **the calls go through the range from its start to its end**, each inside one
  block and to the place in the destination that its bytes have in the range.
-/

namespace OwnOS.Disk

open Lib

/-- A call of `read_block`: its arguments, with `dest` counted from `dbuffer`, and which buffer it
gets. -/
structure ReadCall where
  no : Nat
  addr : UInt32
  size : UInt32
  dest : UInt32
  deriving DecidableEq

namespace File

/-- The calls of the loop over whole blocks, and where `src` and `dest` are after it. -/
def blockCalls (blockSize : Int32) : Nat → Nat → UInt32 → UInt32 → UInt32 × UInt32 × List ReadCall
  | 0, _, src, dest => (src, dest, [])
  | n + 1, i, src, dest =>
    let (src', dest', cs) :=
      blockCalls blockSize n (i + 1) (src + blockSize.toUInt32) (dest + blockSize.toUInt32)
    (src', dest', ⟨i, src, blockSize.toUInt32, dest⟩ :: cs)

variable (f : File)

/-- The calls of `File::read`, in their order. -/
def readCalls (addr size : UInt32) : List ReadCall :=
  let blockSize := f.fs.blockSize.toInt32
  if size > blockSize.toUInt32 then
    let edgeSize := (blockSize.toUInt32 - addr % blockSize.toUInt32).toInt32
    let remainSize := (size - edgeSize.toUInt32).toInt32
    let nrBlocks := remainSize / blockSize
    let edge := if edgeSize ≠ 0 then [⟨0, addr, edgeSize.toUInt32, 0⟩] else []
    let (src, dest, blocks) :=
      blockCalls blockSize nrBlocks.toNatClampNeg 1 (addr + edgeSize.toUInt32) edgeSize.toUInt32
    let remainSize := remainSize % blockSize
    let rest :=
      if remainSize ≠ 0 then [⟨nrBlocks.toNatClampNeg + 1, src, remainSize.toUInt32, dest⟩] else []
    edge ++ blocks ++ rest
  else [⟨0, addr, size, 0⟩]

/-- What a call does to the destination. -/
def issue (junk : Nat → Buf) (d : Buf) (c : ReadCall) : Buf :=
  (f.readBlock (junk c.no) c.addr c.size d c.dest.toNat).2

variable {f} {addr size : UInt32}

/-! ## The calls are what `File::read` does -/

theorem readBlocks_eq_issue (junk : Nat → Buf) (blockSize : Int32) (n i : Nat) (src dest : UInt32)
    (d : Buf) :
    f.readBlocks junk blockSize n i src dest d = ((blockCalls blockSize n i src dest).1,
      (blockCalls blockSize n i src dest).2.1,
      (blockCalls blockSize n i src dest).2.2.foldl (f.issue junk) d) := by
  induction n generalizing i src dest d with
  | zero => rfl
  | succ n ih =>
    rw [readBlocks, ih]
    rfl

/-- **Issuing the calls one after the other is `File::read`.** -/
theorem read_eq_issue (junk : Nat → Buf) (addr size : UInt32) (d : Buf) :
    f.read junk addr size d = (f.readCalls addr size).foldl (f.issue junk) d := by
  unfold File.read readCalls
  dsimp only
  split
  · rw [readBlocks_eq_issue, List.foldl_append, List.foldl_append]
    dsimp only
    split <;> split <;> rfl
  · rfl

/-! ## Where the calls lie -/

/-- A call inside one block, to the place of its bytes in the range from `addr` on. -/
structure Piece (f : File) (addr : UInt32) (c : ReadCall) : Prop where
  dest : c.addr.toNat = addr.toNat + c.dest.toNat
  pos : 1 ≤ c.size.toNat
  le : c.size.toNat ≤ f.bs
  inside : c.addr.toNat % f.bs + c.size.toNat ≤ f.bs

/-- The calls `cs` lie end to end from `a` to `e`. -/
abbrev CallsTile (a : Nat) (cs : List ReadCall) (e : Nat) : Prop :=
  Tiles (fun c : ReadCall => c.addr.toNat) (fun c => c.size.toNat) a cs e

/-- **The calls of the loop** are whole blocks end to end. -/
theorem blockCalls_spec (hp : 0 < f.bs) (n i : Nat) {src dest : UInt32} (hal : src.toNat % f.bs = 0)
    (hdest : src.toNat = addr.toNat + dest.toNat) (hend : src.toNat + n * f.bs < 4294967296) :
    ∃ src' dest' cs, blockCalls f.fs.blockSize.toInt32 n i src dest = (src', dest', cs) ∧
      src'.toNat = src.toNat + n * f.bs ∧ src'.toNat = addr.toNat + dest'.toNat ∧
      CallsTile src.toNat cs src'.toNat ∧ ∀ c ∈ cs, Piece f addr c := by
  induction n generalizing i src dest with
  | zero => exact ⟨src, dest, [], rfl, by simp, hdest, rfl, by simp⟩
  | succ n ih =>
    rw [Nat.succ_mul] at hend
    have hbs := f.blockSize_toNat
    have hsrc : (src + f.fs.blockSize).toNat = src.toNat + f.bs := Word.toNat_add_of_lt (by omega)
    have hdst : (dest + f.fs.blockSize).toNat = dest.toNat + f.bs := Word.toNat_add_of_lt (by omega)
    obtain ⟨src', dest', cs, hcalls, hs, hd, htile, hpiece⟩ := ih (i + 1)
      (show (src + f.fs.blockSize).toNat % f.bs = 0 by rw [hsrc, Nat.add_mod_right, hal])
      (show (src + f.fs.blockSize).toNat = addr.toNat + (dest + f.fs.blockSize).toNat by omega)
        (by omega)
    refine ⟨src', dest', ⟨i, src, f.fs.blockSize, dest⟩ :: cs,
      ?_, by rw [Nat.succ_mul]; omega, hd, ?_, ?_⟩
    · rw [blockCalls, UInt32.toUInt32_toInt32, hcalls]
    · refine ⟨rfl, ?_⟩
      dsimp only
      rwa [hbs, ← hsrc]
    · refine List.forall_mem_cons.mpr ⟨⟨hdest, hp, le_rfl, ?_⟩, hpiece⟩
      dsimp only
      rw [hal, hbs, Nat.zero_add]

/-- **The calls for more than a block**: the edge, the loop and the rest. -/
theorem readCalls_long (hp : 0 < f.bs) (hlong : f.bs < size.toNat) (hsize : size.toNat < 2147483648)
    (hend : addr.toNat + size.toNat < 4294967296) :
    CallsTile addr.toNat (f.readCalls addr size) (addr.toNat + size.toNat) ∧
      ∀ c ∈ f.readCalls addr size, Piece f addr c := by
  obtain ⟨he0, hele⟩ := edge_pos hp addr
  have he := toNat_edge hp addr
  have hbs := f.blockSize_toNat
  have hb : IsNat f.fs.blockSize.toInt32 f.bs := IsNat.ofWord (by omega)
  unfold readCalls
  simp only [UInt32.toUInt32_toInt32]
  set e := f.fs.blockSize - addr % f.fs.blockSize
  have hgt : size > f.fs.blockSize := by
    rw [gt_iff_lt, UInt32.lt_iff_toNat_lt]
    omega
  have hne : e.toInt32 ≠ 0 := fun h0 => by
    have := (IsNat.ofWord (x := e) (by omega)).eq_zero_iff.mp h0
    omega
  have hr : (size - e).toNat = size.toNat - f.edge addr := by
    rw [Word.toNat_sub_of_le (by omega), he]
  have hrem : IsNat (size - e).toInt32 (size.toNat - f.edge addr) := hr ▸ IsNat.ofWord (by omega)
  generalize hrest : size.toNat - f.edge addr = r at hrem
  have hq := (hrem.div hb).toNat
  have hm := hrem.mod hb
  have hqm := Nat.div_add_mod' r f.bs
  have hmod := Nat.mod_lt r hp
  have hsrc : (addr + e).toNat = addr.toNat + f.edge addr := by
    rw [Word.toNat_add_of_lt (by omega), he]
  have hstart : (addr + e).toNat % f.bs = 0 := by
    rw [hsrc]
    exact edge_aligned hp addr
  have hdest : (addr + e).toNat = addr.toNat + e.toNat := by omega
  obtain ⟨src, dest, blocks, hcalls, hs, hd, htile, hpiece⟩ :=
    blockCalls_spec hp (r / f.bs) 1 hstart hdest (by omega)
  have hal : src.toNat % f.bs = 0 := by
    rw [hs, Nat.add_mul_mod_self_right, hstart]
  have hzero : (0 : UInt32).toNat = 0 := rfl
  have hword := hm.toUInt32
  rw [if_pos hgt, if_pos hne, hq, hcalls]
  dsimp only
  constructor
  · refine tiles_append.mpr ⟨src.toNat, ?_, ?_⟩
    · refine ⟨rfl, ?_⟩
      dsimp only
      rwa [he, ← hsrc]
    · split
      · refine ⟨rfl, ?_⟩
        rw [tiles_nil]
        dsimp only
        omega
      · rename_i h0
        have := hm.eq_zero_iff.mp (not_not.mp h0)
        rw [tiles_nil]
        omega
  · refine List.forall_mem_append.mpr ⟨List.forall_mem_cons.mpr ⟨?_, hpiece⟩, ?_⟩
    · have hin : addr.toNat % f.bs + f.edge addr = f.bs := by
        have := Nat.mod_lt addr.toNat hp
        unfold edge
        omega
      exact ⟨by simp [hzero], by dsimp only; omega, by dsimp only; omega, by dsimp only; omega⟩
    · split
      · rename_i h0
        have hpos : r % f.bs ≠ 0 := fun h => h0 (hm.eq_zero_iff.mpr h)
        refine List.forall_mem_singleton.mpr ⟨hd, ?_, ?_, ?_⟩ <;> dsimp only <;> omega
      · simp

/-- **The calls of `File::read`**: one after the other they are the range, each in one block and to
its place in the destination. -/
theorem read_calls_exact {k : Nat} (hbs : f.bs = 2 ^ k) (hlong : f.bs < size.toNat)
    (hsize : size.toNat < 2147483648) (hend : addr.toNat + size.toNat < 4294967296) :
    (∀ junk d, f.read junk addr size d = (f.readCalls addr size).foldl (f.issue junk) d) ∧
    ((f.readCalls addr size).flatMap fun c => List.range' c.addr.toNat c.size.toNat) =
      List.range' addr.toNat size.toNat ∧
    ∀ c ∈ f.readCalls addr size, Piece f addr c := by
  have hp : 0 < f.bs := hbs ▸ Nat.two_pow_pos k
  obtain ⟨htile, hpiece⟩ := readCalls_long hp hlong hsize hend
  refine ⟨fun junk d => read_eq_issue junk addr size d, ?_, hpiece⟩
  rw [htile.flatMap_range', Nat.add_sub_cancel_left]

theorem read_calls_exact_twoBlocks :
    (twoBlocks.readCalls 1000 1048).map (fun c => (c.addr, c.size, c.dest)) =
      [(1000, 24, 0), (1024, 1024, 24)] ∧
    ∀ c ∈ twoBlocks.readCalls 1000 1048, Piece twoBlocks 1000 c :=
  ⟨by decide +kernel,
    (read_calls_exact (f := twoBlocks) (k := 10) (by decide) (by decide) (by decide)
    (by decide)).2.2⟩

end File

end OwnOS.Disk
