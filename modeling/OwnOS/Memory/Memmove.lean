import OwnOS.Halt
import OwnOS.Lib.ByteMemory
import OwnOS.Lib.Loop
import OwnOS.Lib.MoveAll

/-!
# Copying bytes (`string.cpp:149-176`)

`memmove` has three loops. Ranges that do not overlap go to `memcpy`, from the first byte to the
last; an overlapping range that is copied down goes the same way, and one that is copied up goes
from the last byte to the first. Each loop is a list of moves (`copies`), and which list it is
decides whether a byte of the source is overwritten before its turn.

The cases are told apart by comparing the ends `to + n` and `from + n`, so these have to be
addresses, too: a range without wrap-around is one with `to ≤ to + n`.

* `memcpy_eq`, `copyUp_eq`, `copyDown_eq`: the moves of the three loops.
* `memmove_moves`: **`memmove` returns, and has copied the bytes as they were before the call.**
-/

namespace OwnOS.Memory

open Lib Lib.Word

/-- `memcpy`. The loop counts up to `n`, and the result is always NULL. -/
def memcpy (mem : ByteMem) (s1 s2 n : UInt32) : Res (ByteMem × UInt32) := do
  let mem ← loop (fun i mem =>
    .ok (Function.update mem (s1 + UInt32.ofNat i) (mem (s2 + UInt32.ofNat i)))) n.toNat mem
  .ok (mem, 0)

/-- `do *out++ = *in++; while (--n > 0);` -/
def copyUp : Nat → ByteMem → UInt32 → UInt32 → UInt32 → Res ByteMem
  | 0, _, _, _, _ => .error .hang
  | fuel + 1, mem, out, in_, n =>
    let mem := Function.update mem out (mem in_)
    let n := n - 1
    if n > 0 then copyUp fuel mem (out + 1) (in_ + 1) n else .ok mem

/-- `do *--out = *--in; while(--n > 0);` -/
def copyDown : Nat → ByteMem → UInt32 → UInt32 → UInt32 → Res ByteMem
  | 0, _, _, _, _ => .error .hang
  | fuel + 1, mem, out, in_, n =>
    let out := out - 1
    let in_ := in_ - 1
    let mem := Function.update mem out (mem in_)
    let n := n - 1
    if n > 0 then copyDown fuel mem out in_ n else .ok mem

/-- A `size_t` counts down to zero in fewer turns. -/
def turns : Nat := 4294967296

/-- `memmove`: the memory, and the pointer it returns. -/
def memmove (mem : ByteMem) (to_ from_ n : UInt32) : Res (ByteMem × UInt32) :=
  let out := to_
  let in_ := from_
  if n ≤ 0 then .ok (mem, to_)
  else if in_ + n ≤ out ∨ out + n ≤ in_ then memcpy mem to_ from_ n
  else if out < in_ then do
    let mem ← copyUp turns mem out in_ n
    .ok (mem, to_)
  else do
    let mem ← copyDown turns mem (out + n) (in_ + n) n
    .ok (mem, to_)

/-- **The range at `from_` is copied to `to_`**: each byte of `[to_, to_ + n)` holds what the byte
of the other range held, and no other byte changes. -/
structure Moved (to_ from_ n : UInt32) (mem mem' : ByteMem) : Prop where
  copied : ∀ k < n, mem' (to_ + k) = mem (from_ + k)
  kept : ∀ a : UInt32, a.toNat < to_.toNat ∨ to_.toNat + n.toNat ≤ a.toNat → mem' a = mem a

/-- The moves of the bytes with the numbers `ks`. -/
def copies (to_ from_ : UInt32) (ks : List Nat) : List (UInt32 × UInt32) :=
  ks.map fun k => (to_ + UInt32.ofNat k, from_ + UInt32.ofNat k)

variable {mem mem' : ByteMem} {to_ from_ n : UInt32} {ks : List Nat} {k fuel : Nat}

/-! ## The loops as lists of moves -/

theorem copies_cons : copies to_ from_ (k :: ks) =
    (to_ + UInt32.ofNat k, from_ + UInt32.ofNat k) :: copies to_ from_ ks := rfl

theorem copies_snoc : copies to_ from_ (ks ++ [k]) =
    copies to_ from_ ks ++ [(to_ + UInt32.ofNat k, from_ + UInt32.ofNat k)] := List.map_append

theorem memcpy_eq :
    memcpy mem to_ from_ n = .ok (moveAll (copies to_ from_ (List.range n.toNat)) mem, 0) := by
  have hloop : loop (fun i mem => (.ok (Function.update mem (to_ + UInt32.ofNat i)
      (mem (from_ + UInt32.ofNat i))) : Res ByteMem)) n.toNat mem =
      .ok (moveAll (copies to_ from_ (List.range n.toNat)) mem) := by
    refine loop_eq (fun i => moveAll (copies to_ from_ (List.range i)) mem) fun i _ => ?_
    rw [List.range_succ, copies_snoc, moveAll_append]
    rfl
  unfold memcpy
  rw [hloop]
  rfl

/-- The count after a turn, and whether there is another one. -/
theorem count_pred {r : Nat} (hn : n.toNat = r + 1) : (n - 1).toNat = r ∧ (n - 1 > 0 ↔ 0 < r) := by
  have h1 : (1 : UInt32).toNat = 1 := rfl
  have h0 : (0 : UInt32).toNat = 0 := rfl
  have hpred : (n - 1).toNat = r := by
    rw [toNat_sub_of_le (by omega), h1, hn]
    omega
  exact ⟨hpred, by rw [gt_iff_lt, UInt32.lt_iff_toNat_lt, hpred, h0]⟩

theorem ofNat_succ : UInt32.ofNat (k + 1) = UInt32.ofNat k + 1 := UInt32.ofNat_add k 1

/-- From byte `k` on, to the end. -/
theorem copyUp_eq {r : Nat} (hn : n.toNat = r + 1) (hf : r < fuel) :
    copyUp fuel mem (to_ + UInt32.ofNat k) (from_ + UInt32.ofNat k) n =
      .ok (moveAll (copies to_ from_ (List.range' k (r + 1))) mem) := by
  induction fuel generalizing mem n k r with
  | zero => omega
  | succ fuel ih =>
    obtain ⟨hpred, hmore⟩ := count_pred hn
    unfold copyUp
    simp only
    rw [List.range'_succ, copies_cons, moveAll_cons]
    cases r with
    | zero =>
      rw [if_neg fun h => absurd (hmore.mp h) (by omega)]
      rfl
    | succ r =>
      rw [if_pos (hmore.mpr (by omega)), UInt32.add_assoc, UInt32.add_assoc, ← ofNat_succ]
      exact ih hpred (by omega)

/-- The last `r + 1` bytes that are left, from the last to the first. -/
theorem copyDown_eq {r : Nat} (hn : n.toNat = r + 1) (hf : r < fuel) :
    copyDown fuel mem (to_ + n) (from_ + n) n =
      .ok (moveAll (copies to_ from_ (List.range (r + 1)).reverse) mem) := by
  induction fuel generalizing mem n r with
  | zero => omega
  | succ fuel ih =>
    obtain ⟨hpred, hmore⟩ := count_pred hn
    have hlast : n - 1 = UInt32.ofNat r := by
      rw [← hpred, UInt32.ofNat_toNat]
    have hpointer : ∀ p : UInt32, p + n - 1 = p + (n - 1) := fun p => by
      rw [UInt32.sub_eq_add_neg, UInt32.sub_eq_add_neg, UInt32.add_assoc]
    unfold copyDown
    simp only
    rw [hpointer, hpointer, List.range_succ, List.reverse_append, List.reverse_singleton,
      List.singleton_append, copies_cons, moveAll_cons, hlast]
    cases r with
    | zero =>
      rw [← hlast, if_neg fun h => absurd (hmore.mp h) (by omega)]
      rfl
    | succ r =>
      rw [← hlast, if_pos (hmore.mpr (by omega))]
      exact ih hpred (by omega)

/-! ## The order of the moves -/

/-- Byte `k` of a range. -/
theorem byte_toNat (h : to_.toNat + n.toNat < 4294967296) (hk : k < n.toNat) :
    (to_ + UInt32.ofNat k).toNat = to_.toNat + k := by
  have hword : (UInt32.ofNat k).toNat = k :=
    UInt32.toNat_ofNat_of_lt' (by change k < 4294967296; omega)
  rw [toNat_add_of_lt (by omega), hword]

/-- A range without wrap-around ends at an address. -/
theorem end_toNat (h : to_ ≤ to_ + n) : to_.toNat + n.toNat < 4294967296 := by
  have hle := UInt32.le_iff_toNat_le.mp h
  have hlt := toNat_lt n
  rw [UInt32.toNat_add] at hle
  omega

/-- **All the bytes, in an order** in which none is overwritten before its turn, are copied. -/
theorem moved_of_order (hto : to_.toNat + n.toNat < 4294967296)
    (hfrom : from_.toNat + n.toNat < 4294967296) (hks : ∀ k, k ∈ ks ↔ k < n.toNat)
    (horder : ks.Pairwise fun i j => i < n.toNat → j < n.toNat → i ≠ j ∧
    to_.toNat + i ≠ from_.toNat + j) :
    Moved to_ from_ n mem (moveAll (copies to_ from_ ks) mem) := by
  have hsafe : Untouched (copies to_ from_ ks) := by
    refine List.pairwise_map.mpr (horder.imp_of_mem ?_)
    intro i j hi hj hij
    have hi := (hks i).mp hi
    have hj := (hks j).mp hj
    obtain ⟨hne, hsrc⟩ := hij hi hj
    constructor
    · intro he
      have := congrArg UInt32.toNat he
      rw [byte_toNat hto hi, byte_toNat hto hj] at this
      omega
    · intro he
      have := congrArg UInt32.toNat he
      rw [byte_toNat hto hi, byte_toNat hfrom hj] at this
      exact hsrc this
  refine ⟨fun k hk => ?_, fun a ha => ?_⟩
  · have hk' := UInt32.lt_iff_toNat_lt.mp hk
    refine moveAll_of_mem hsafe (List.mem_map.mpr ⟨k.toNat, (hks _).mpr hk', ?_⟩)
    rw [UInt32.ofNat_toNat]
  · refine moveAll_of_ne fun p hp he => ?_
    obtain ⟨k, hk, rfl⟩ := List.mem_map.mp hp
    rw [← he, byte_toNat hto ((hks k).mp hk)] at ha
    have := (hks k).mp hk
    omega

/-- From the first byte on: the destination begins before the source, or lies behind it. -/
theorem moved_up (hto : to_.toNat + n.toNat < 4294967296)
    (hfrom : from_.toNat + n.toNat < 4294967296)
    (h : to_.toNat ≤ from_.toNat ∨ from_.toNat + n.toNat ≤ to_.toNat) :
    Moved to_ from_ n mem (moveAll (copies to_ from_ (List.range n.toNat)) mem) := by
  refine moved_of_order hto hfrom (fun k => List.mem_range) ?_
  refine List.pairwise_lt_range.imp fun {i j} hij _ hj => ⟨by omega, ?_⟩
  -- byte `j` of the source lies behind byte `i` of the destination, or before all of it
  omega

/-- From the last byte on: the destination begins behind the beginning of the source. -/
theorem moved_down (hto : to_.toNat + n.toNat < 4294967296)
    (hfrom : from_.toNat + n.toNat < 4294967296) (h : from_.toNat ≤ to_.toNat) :
    Moved to_ from_ n mem (moveAll (copies to_ from_ (List.range n.toNat).reverse) mem) := by
  refine moved_of_order hto hfrom (fun k => List.mem_reverse.trans List.mem_range) ?_
  refine List.pairwise_reverse.mpr (List.pairwise_lt_range.imp fun {j i} hij _ _ => ⟨by omega, ?_⟩)
  omega

/-- **`memmove` handles every overlap.** -/
theorem memmove_moves (mem : ByteMem) (hto : to_ ≤ to_ + n) (hfrom : from_ ≤ from_ + n) :
    ∃ mem' p, memmove mem to_ from_ n = .ok (mem', p) ∧ Moved to_ from_ n mem mem' := by
  have hto := end_toNat hto
  have hfrom := end_toNat hfrom
  have h0 : (0 : UInt32).toNat = 0 := rfl
  have htoEnd : (to_ + n).toNat = to_.toNat + n.toNat := toNat_add_of_lt (by omega)
  have hfromEnd : (from_ + n).toNat = from_.toNat + n.toNat := toNat_add_of_lt (by omega)
  unfold memmove
  simp only [UInt32.le_iff_toNat_le, UInt32.lt_iff_toNat_lt, htoEnd, hfromEnd, h0]
  by_cases hn : n.toNat ≤ 0
  · rw [if_pos hn]
    refine ⟨mem, to_, rfl, fun k hk => ?_, fun _ _ => rfl⟩
    have := UInt32.lt_iff_toNat_lt.mp hk
    omega
  obtain ⟨r, hr⟩ : ∃ r, n.toNat = r + 1 := ⟨n.toNat - 1, by omega⟩
  have hturns : r < turns := by
    have := toNat_lt n
    unfold turns
    omega
  rw [if_neg hn]
  by_cases hapart : from_.toNat + n.toNat ≤ to_.toNat ∨ to_.toNat + n.toNat ≤ from_.toNat
  · rw [if_pos hapart]
    exact ⟨_, _, memcpy_eq, moved_up hto hfrom (by omega)⟩
  rw [if_neg hapart]
  by_cases hdir : to_.toNat < from_.toNat
  · have hup : copyUp turns mem (to_ + UInt32.ofNat 0) (from_ + UInt32.ofNat 0) n = _ :=
      copyUp_eq hr hturns
    have hzero : ∀ p : UInt32, p + UInt32.ofNat 0 = p := fun p => UInt32.add_zero p
    rw [hzero, hzero, ← List.range_eq_range', ← hr] at hup
    rw [if_pos hdir, hup, Res.ok_bind]
    exact ⟨_, _, rfl, moved_up hto hfrom (by omega)⟩
  · rw [if_neg hdir, copyDown_eq hr hturns, ← hr, Res.ok_bind]
    exact ⟨_, _, rfl, moved_down hto hfrom (by omega)⟩

/-- Three bytes, one address up. -/
theorem memmove_moves_overlap :
    ∃ mem' p, memmove (fun a => a.toUInt8) 0x1001 0x1000 3 = .ok (mem', p) ∧
    Moved 0x1001 0x1000 3 (fun a => a.toUInt8) mem' :=
  memmove_moves _ (by decide) (by decide)

end OwnOS.Memory
