import OwnOS.Lib.Word

/-!
# Signed 32-bit words that hold a count

C code keeps counts in `int`. `IsNat a n` says that `a` holds the count `n`; each operation on
counts is the operation on `Nat` as long as its result is below `2^31`. The operations of `CInt`
have no result where they overflow. Nothing here names a program.
-/

namespace OwnOS.Lib

/-- The signed word `a` holds the count `n`. -/
def IsNat (a : Int32) (n : Nat) : Prop := a.toInt = n

theorem isNat_zero : IsNat 0 0 := rfl

namespace IsNat

variable {a b : Int32} {m n : Nat} {x : UInt32}

theorem lt (h : IsNat a n) : n < 2147483648 := by
  have := a.toInt_lt
  rw [h] at this
  omega

theorem toNat (h : IsNat a n) : a.toNatClampNeg = n := by
  rw [← Int32.toNat_toInt, h, Int.toNat_natCast]

theorem toInt_toInt32 (x : UInt32) : x.toInt32.toInt = (x.toNat : Int).bmod 4294967296 := by
  have : x.toInt32.toInt = x.toBitVec.toInt := rfl
  rw [this, BitVec.toInt_eq_toNat_bmod]
  rfl

theorem bmod {i : Int} (h0 : 0 ≤ i) (h : i < 2147483648) : i.bmod 4294967296 = i :=
  Int.bmod_eq_of_le (by omega) (by omega)

theorem ofWord (h : x.toNat < 2147483648) : IsNat x.toInt32 x.toNat := by
  rw [IsNat, toInt_toInt32, bmod (by omega) (by omega)]

theorem toUInt32 (h : IsNat a n) : a.toUInt32.toNat = n := by
  have hx : a = a.toUInt32.toInt32 := rfl
  have hb : (a.toUInt32.toNat : Int).bmod 4294967296 = n := by
    rw [← toInt_toInt32, ← hx]
    exact h
  have := a.toUInt32.toNat_lt_size
  have := h.lt
  have hs : UInt32.size = 4294967296 := rfl
  rw [Int.bmod_def] at hb
  split at hb <;> omega

/-- A negative word, read as unsigned. -/
theorem toUInt32_of_neg (h : a.toInt < 0) : (a.toUInt32.toNat : Int) = a.toInt + 4294967296 := by
  have hb : (a.toUInt32.toNat : Int).bmod 4294967296 = a.toInt := (toInt_toInt32 a.toUInt32).symm
  have := a.toUInt32.toNat_lt_size
  have hs : UInt32.size = 4294967296 := rfl
  rw [Int.bmod_def] at hb
  split at hb <;> omega

/-- A word from `2^31` on is negative as an `int`. -/
theorem neg_ofWord (h : 2147483648 ≤ x.toNat) : x.toInt32.toInt < 0 := by
  have := x.toNat_lt_size
  have hs : UInt32.size = 4294967296 := rfl
  rw [toInt_toInt32, Int.bmod_def]
  split <;> omega

/-- A negative word, by its absolute value. -/
theorem exists_neg (h : a.toInt < 0) :
    ∃ c : Nat, 0 < c ∧ c ≤ 2147483648 ∧ a.toInt = -(c : Int) := by
  have := a.le_toInt
  exact ⟨a.toInt.natAbs, by omega, by omega, by omega⟩

/-- Division rounds towards 0, and a loop up to a negative bound is not entered. -/
theorem div_of_neg (h : a.toInt < 0) (hb : IsNat b n) : (a / b).toNatClampNeg = 0 := by
  obtain ⟨c, hc0, hc, ha⟩ := exists_neg h
  have hle : c / n ≤ c := Nat.div_le_self c n
  have hd : (-(c : Int)).tdiv n = -((c / n : Nat) : Int) := Int.neg_tdiv _ _
  generalize c / n = q at hle hd
  have hm : (-(q : Int)).bmod 4294967296 = -(q : Int) := Int.bmod_eq_of_le (by omega) (by omega)
  have he : (a / b).toInt = -(q : Int) := by
    rw [Int32.toInt_div, ha, hb, hd]
    exact hm
  rw [← Int32.toNat_toInt, he]
  exact Int.toNat_eq_zero.mpr (by omega)

/-- The remainder has the sign of the dividend. -/
theorem mod_of_neg (h : a.toInt < 0) (hb : IsNat b n) (hn : 0 < n) :
    (a % b).toInt ≤ 0 ∧ -(n : Int) < (a % b).toInt := by
  obtain ⟨c, hc0, hc, ha⟩ := exists_neg h
  have hlt : c % n < n := Nat.mod_lt c hn
  have hd : (-(c : Int)).tmod n = -((c % n : Nat) : Int) := Int.neg_tmod _ _
  rw [Int32.toInt_mod, ha, hb, hd]
  omega

theorem add (ha : IsNat a m) (hb : IsNat b n) (h : m + n < 2147483648) : IsNat (a + b) (m + n) := by
  rw [IsNat, Int32.toInt_add, ha, hb, bmod (by omega) (by omega)]
  rfl

theorem mul (ha : IsNat a m) (hb : IsNat b n) (h : m * n < 2147483648) : IsNat (a * b) (m * n) := by
  have hc : (m : Int) * n = ((m * n : Nat) : Int) := by push_cast; rfl
  rw [IsNat, Int32.toInt_mul, ha, hb, hc, bmod (by omega) (by omega)]

theorem sub (ha : IsNat a m) (hb : IsNat b n) (h : n ≤ m) : IsNat (a - b) (m - n) := by
  have := ha.lt
  rw [IsNat, Int32.toInt_sub, ha, hb, bmod (by omega) (by omega)]
  omega

theorem div (ha : IsNat a m) (hb : IsNat b n) : IsNat (a / b) (m / n) := by
  have := ha.lt
  have hle : m / n ≤ m := Nat.div_le_self m n
  have hd : (m : Int).tdiv n = ((m / n : Nat) : Int) := rfl
  rw [IsNat, Int32.toInt_div, ha, hb, hd]
  exact bmod (Int.natCast_nonneg _) (Int.ofNat_lt.mpr (lt_of_le_of_lt hle this))

theorem mod (ha : IsNat a m) (hb : IsNat b n) : IsNat (a % b) (m % n) := by
  rw [IsNat, Int32.toInt_mod, ha, hb]
  rfl

/-- A divisor of absolute value `2^31` is larger than every count. -/
theorem div_of_min (ha : IsNat a m) (hb : b.toInt = -2147483648) :
    (a / b).toNatClampNeg = 0 ∧ IsNat (a % b) m := by
  have := ha.lt
  have hq : (m : Int).tdiv (-2147483648) = 0 := by
    rw [Int.tdiv_neg, Int.tdiv_eq_zero_of_lt (by omega) (by omega), Int.neg_zero]
  have hr : (m : Int).tmod (-2147483648) = m := by
    rw [Int.tmod_neg]
    exact Int.tmod_eq_of_lt (by omega) (by omega)
  refine ⟨?_, ?_⟩
  · rw [← Int32.toNat_toInt, Int32.toInt_div, ha, hb, hq]
    rfl
  · rw [IsNat, Int32.toInt_mod, ha, hb, hr]

theorem lt_iff (ha : IsNat a m) (hb : IsNat b n) : a < b ↔ m < n := by
  rw [Int32.lt_iff_toInt_lt, ha, hb]
  exact Int.ofNat_lt

theorem eq_zero_iff (ha : IsNat a m) : a = 0 ↔ m = 0 := by
  rw [← Int32.toInt_inj, ha, show (0 : Int32).toInt = 0 from rfl]
  exact Int.natCast_eq_zero

end IsNat

/-! ## `int` arithmetic of C, without a result where it overflows -/

namespace CInt

/-- The `int` of a value. -/
def ofInt (i : Int) : Option Int32 :=
  if -2147483648 ≤ i ∧ i < 2147483648 then some (Int32.ofInt i) else none

def ofWord (x : UInt32) : Option Int32 := ofInt x.toNat

def add (a b : Int32) : Option Int32 := ofInt (a.toInt + b.toInt)

def sub (a b : Int32) : Option Int32 := ofInt (a.toInt - b.toInt)

def mul (a b : Int32) : Option Int32 := ofInt (a.toInt * b.toInt)

def div (a b : Int32) : Option Int32 := if b = 0 then none else ofInt (a.toInt.tdiv b.toInt)

def mod (a b : Int32) : Option Int32 := if b = 0 then none else ofInt (a.toInt.tmod b.toInt)

variable {a b : Int32} {x : UInt32} {m n : Nat}

theorem ofInt_natCast {c : Int32} (hc : IsNat c n) : ofInt n = some c := by
  have := hc.lt
  rw [ofInt, if_pos (by omega)]
  refine congrArg some (Int32.toInt_inj.mp ?_)
  rw [Int32.toInt_ofInt, IsNat.bmod (by omega) (by omega), hc]

theorem ofWord_eq (h : x.toNat < 2147483648) : ofWord x = some x.toInt32 :=
  ofInt_natCast (IsNat.ofWord h)

theorem add_eq (ha : IsNat a m) (hb : IsNat b n) (h : m + n < 2147483648) :
    add a b = some (a + b) := by
  rw [add, ha, hb, ← Int.natCast_add]
  exact ofInt_natCast (ha.add hb h)

theorem mul_eq (ha : IsNat a m) (hb : IsNat b n) (h : m * n < 2147483648) :
    mul a b = some (a * b) := by
  rw [mul, ha, hb, ← Int.natCast_mul]
  exact ofInt_natCast (ha.mul hb h)

theorem sub_eq (ha : IsNat a m) (hb : IsNat b n) (h : n ≤ m) : sub a b = some (a - b) := by
  rw [sub, ha, hb, ← Int.natCast_sub h]
  exact ofInt_natCast (ha.sub hb h)

theorem div_eq (ha : IsNat a m) (hb : IsNat b n) (h : 0 < n) : div a b = some (a / b) := by
  rw [div, if_neg fun h0 => absurd (hb.eq_zero_iff.mp h0) (by omega), ha, hb,
    show (m : Int).tdiv n = ((m / n : Nat) : Int) from rfl]
  exact ofInt_natCast (ha.div hb)

theorem mod_eq (ha : IsNat a m) (hb : IsNat b n) (h : 0 < n) : mod a b = some (a % b) := by
  rw [mod, if_neg fun h0 => absurd (hb.eq_zero_iff.mp h0) (by omega), ha, hb,
    show (m : Int).tmod n = ((m % n : Nat) : Int) from rfl]
  exact ofInt_natCast (ha.mod hb)

end CInt

end OwnOS.Lib
