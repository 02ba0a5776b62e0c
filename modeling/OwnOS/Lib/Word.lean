import Mathlib

/-!
# 32-bit words

Arithmetic of `UInt32` read through `toNat`: the operations without wrap-around, and the two masks
that split a word at a power of two, `x & (2^k - 1)` (the offset) and `x & ~(2^k - 1)` (the rounded
word). Nothing here names a program.
-/

namespace OwnOS.Lib.Word

theorem toNat_lt (x : UInt32) : x.toNat < 4294967296 := x.toNat_lt_size

theorem toNat_add_of_lt {x y : UInt32} (h : x.toNat + y.toNat < 4294967296) :
    (x + y).toNat = x.toNat + y.toNat := by
  rw [UInt32.toNat_add]
  exact Nat.mod_eq_of_lt h

theorem toNat_sub_of_le {x y : UInt32} (h : y.toNat ≤ x.toNat) :
    (x - y).toNat = x.toNat - y.toNat :=
  UInt32.toNat_sub_of_le _ _ (UInt32.le_iff_toNat_le.mpr h)

theorem toNat_mul_of_lt {x y : UInt32} (h : x.toNat * y.toNat < 4294967296) :
    (x * y).toNat = x.toNat * y.toNat := by
  rw [UInt32.toNat_mul]
  exact Nat.mod_eq_of_lt h

/-- A word is its part below `2^k` plus its part above. -/
theorem and_not_low (n k : Nat) (hk : k ≤ 32) (hn : n < 4294967296) :
    n &&& (4294967296 - 1 - (2 ^ k - 1)) = n / 2 ^ k * 2 ^ k := by
  apply Nat.eq_of_testBit_eq
  intro i
  have hm : 4294967296 - 1 - (2 ^ k - 1) = 2 ^ 32 - ((2 ^ k - 1) + 1) := by omega
  have hlt : 2 ^ k - 1 < 2 ^ 32 := by
    have : 2 ^ k ≤ 2 ^ 32 := Nat.pow_le_pow_right (by omega) hk
    omega
  rw [Nat.testBit_and, hm, Nat.testBit_two_pow_sub_succ hlt, Nat.testBit_mul_two_pow,
    Nat.testBit_div_two_pow, Nat.testBit_two_pow_sub_one]
  by_cases hik : k ≤ i
  · rw [Nat.sub_add_cancel hik]
    by_cases hi : i < 32
    · simp [hi, hik]
    · have : n.testBit i = false := Nat.testBit_lt_two_pow (lt_of_lt_of_le hn
        (show (4294967296 : Nat) ≤ 2 ^ i from
          le_trans (by norm_num) (Nat.pow_le_pow_right (n := 2) (by omega) (show 32 ≤ i by omega))))
      simp [this]
  · have : i < k := by omega
    simp [this, hik]

/-- `x & ~(y - 1)` for `y = 2^k`: `x` rounded down to a multiple of `y`. -/
theorem toNat_and_not_sub_one {x y : UInt32} {k : Nat} (hy : y.toNat = 2 ^ k) :
    (x &&& ~~~(y - 1)).toNat = x.toNat / y.toNat * y.toNat := by
  have hk : k ≤ 32 := by
    by_contra h
    have := toNat_lt y
    have : 2 ^ 32 ≤ 2 ^ k := Nat.pow_le_pow_right (by omega) (by omega)
    omega
  have hpos : 0 < 2 ^ k := Nat.two_pow_pos k
  have h1 : (1 : UInt32).toNat = 1 := rfl
  rw [UInt32.toNat_and, UInt32.toNat_not, toNat_sub_of_le (by omega), hy, h1]
  exact and_not_low _ k hk (toNat_lt x)

/-- `x & (y - 1)` for `y = 2^k`: the offset of `x` in its block of `y`. -/
theorem toNat_and_sub_one {x y : UInt32} {k : Nat} (hy : y.toNat = 2 ^ k) :
    (x &&& (y - 1)).toNat = x.toNat % y.toNat := by
  have hpos : 0 < 2 ^ k := Nat.two_pow_pos k
  have h1 : (1 : UInt32).toNat = 1 := rfl
  rw [UInt32.toNat_and, toNat_sub_of_le (by omega), hy, h1, Nat.and_two_pow_sub_one_eq_mod]

end OwnOS.Lib.Word
