import Mathlib

/-!
# Byte buffers

A buffer is the memory from an address on. `put b o n src` copies `n` bytes to the offset `o`,
`le16` and `le32` read a little-endian word. Copies to adjacent ranges are one copy (`put_append`).
Nothing here names a program.
-/

namespace OwnOS.Lib

/-- The memory from an address on. -/
abbrev Buf := Nat → UInt8

namespace Buf

/-- `memcpy(b + o, src, n)`. -/
def put (b : Buf) (o n : Nat) (src : Buf) : Buf :=
  fun i => if o ≤ i ∧ i < o + n then src (i - o) else b i

/-- The two bytes at `i`, low byte first. -/
def le16 (b : Buf) (i : Nat) : UInt16 :=
  (b i).toUInt16 ||| ((b (i + 1)).toUInt16 <<< 8)

/-- The four bytes at `i`, low byte first. -/
def le32 (b : Buf) (i : Nat) : UInt32 :=
  (b i).toUInt32 ||| ((b (i + 1)).toUInt32 <<< 8) ||| ((b (i + 2)).toUInt32 <<< 16) |||
    ((b (i + 3)).toUInt32 <<< 24)

/-- The first `n` bytes. -/
def bytes (b : Buf) (n : Nat) : List UInt8 := (List.range n).map b

variable {b b' src src' : Buf} {o n i k : Nat}

theorem put_of_mem (h : o ≤ i) (h' : i < o + n) : b.put o n src i = src (i - o) := if_pos ⟨h, h'⟩

theorem put_add (h : k < n) : b.put o n src (o + k) = src k := by
  rw [put_of_mem (Nat.le_add_right o k) (Nat.add_lt_add_left h o), Nat.add_sub_cancel_left]

theorem put_zero_apply (h : k < n) : b.put 0 n src k = src k :=
  put_of_mem (Nat.zero_le k) (by omega)

theorem put_of_lt (h : i < o) : b.put o n src i = b i := if_neg fun hi => Nat.not_lt.mpr hi.1 h

theorem put_of_le (h : o + n ≤ i) : b.put o n src i = b i :=
  if_neg fun hi => Nat.not_lt.mpr h hi.2

theorem put_congr (h : ∀ k < n, src k = src' k) : b.put o n src = b.put o n src' := by
  funext i
  unfold put
  split
  · rename_i hi
    exact h _ (by omega)
  · rfl

theorem put_nil (b : Buf) (o : Nat) (src : Buf) : b.put o 0 src = b := by
  funext i
  exact if_neg fun hi => by omega

/-- The second copy to a range is the one that stays. -/
theorem put_put (b : Buf) (o n : Nat) (src src' : Buf) :
    (b.put o n src).put o n src' = b.put o n src' := by
  funext i
  unfold put
  split <;> rfl

/-- Two copies of adjacent ranges are one copy. -/
theorem put_append (b : Buf) (o n n' : Nat) (src : Buf) :
    (b.put o n src).put (o + n) n' (fun k => src (n + k)) = b.put o (n + n') src := by
  funext i
  by_cases h1 : i < o + n
  · rw [put_of_lt h1]
    by_cases h0 : o ≤ i
    · rw [put_of_mem h0 h1, put_of_mem h0 (by omega)]
    · rw [put_of_lt (by omega), put_of_lt (by omega)]
  · by_cases h2 : i < o + n + n'
    · rw [put_of_mem (by omega) h2, put_of_mem (by omega) (by omega)]
      exact congrArg src (by omega)
    · rw [put_of_le (by omega), put_of_le (by omega), put_of_le (by omega)]

theorem le16_congr (h : ∀ k < 2, b (i + k) = b' (o + k)) : b.le16 i = b'.le16 o := by
  unfold le16
  rw [show b i = b' o from h 0 (by omega), h 1 (by omega)]

theorem le32_congr (h : ∀ k < 4, b (i + k) = b' (o + k)) : b.le32 i = b'.le32 o := by
  unfold le32
  rw [show b i = b' o from h 0 (by omega), h 1 (by omega), h 2 (by omega), h 3 (by omega)]

/-- Equal words have equal low bytes. -/
theorem le32_inj (h : b.le32 i = b'.le32 o) : b i = b' o := by
  have hlow (x y z w : UInt8) : (x.toUInt32 ||| (y.toUInt32 <<< 8) ||| (z.toUInt32 <<< 16) |||
      (w.toUInt32 <<< 24)).toUInt8 = x := by
    apply UInt8.eq_of_toBitVec_eq
    apply BitVec.eq_of_getLsbD_eq
    intro i hi
    simp
  rw [← hlow (b i) (b (i + 1)) (b (i + 2)) (b (i + 3))]
  exact (congrArg UInt32.toUInt8 h).trans (hlow _ _ _ _)

theorem bytes_congr (h : ∀ i < n, b i = b' i) : b.bytes n = b'.bytes n :=
  List.map_congr_left fun i hi => h i (List.mem_range.mp hi)

theorem eq_bytes_iff {xs : List UInt8} :
    xs = b.bytes n ↔ xs.length = n ∧ ∀ i (h : i < xs.length), b i = xs[i] := by
  constructor
  · rintro rfl
    refine ⟨by simp [bytes], fun i h => ?_⟩
    simp [bytes]
  · rintro ⟨rfl, h⟩
    refine List.ext_getElem (by simp [bytes]) fun i h1 h2 => ?_
    rw [← h i h1]
    simp [bytes]

end Buf

end OwnOS.Lib
