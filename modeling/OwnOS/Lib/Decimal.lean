import Mathlib

/-!
# Decimal strings

`decimal n` is the ASCII string of an integer: `Nat.digits` of its absolute value, the highest
first, behind a minus sign if it is negative, and a single zero for 0. `read_decimal`: reading it
back gives the integer.

A program that divides by falling powers of the base produces `topDigits`; `topDigits_eq` says that
these are the digits. Nothing here names a program.
-/

namespace OwnOS.Lib

/-! ## Digits from the top -/

/-- The `k` lowest digits of `n`, the highest first, by dividing by falling powers of the base. -/
def topDigits (b : Nat) : Nat → Nat → List Nat
  | 0, _ => []
  | k + 1, n => n / b ^ k :: topDigits b k (n % b ^ k)

variable {b k n : Nat}

@[simp] theorem topDigits_length : (topDigits b k n).length = k := by
  induction k generalizing n with
  | zero => rfl
  | succ k ih => rw [topDigits, List.length_cons, ih]

/-- The lowest digit, split off at the end. -/
theorem topDigits_snoc (b k n : Nat) :
    topDigits b (k + 2) n = topDigits b (k + 1) (n / b) ++ [n % b] := by
  induction k generalizing n with
  | zero => simp [topDigits]
  | succ k ih =>
    have hhigh : n / b ^ (k + 2) = n / b / b ^ (k + 1) := by
      rw [Nat.div_div_eq_div_mul, ← pow_succ']
    have hmid : n % b ^ (k + 2) / b = n / b % b ^ (k + 1) := by
      rw [pow_succ' b (k + 1), Nat.mod_mul_right_div_self]
    have hlow : n % b ^ (k + 2) % b = n % b := Nat.mod_mod_of_dvd n (dvd_pow_self b (by omega))
    calc topDigits b (k + 3) n = n / b ^ (k + 2) :: topDigits b (k + 2) (n % b ^ (k + 2)) := rfl
      _ = n / b / b ^ (k + 1) :: (topDigits b (k + 1) (n / b % b ^ (k + 1)) ++ [n % b]) := by
        rw [ih, hmid, hlow, hhigh]
      _ = topDigits b (k + 2) (n / b) ++ [n % b] := rfl

/-- **As many as the number has digits are its digits.** -/
theorem topDigits_eq (hb : 1 < b) (hn : 0 < n) (hk : (Nat.digits b n).length = k) :
    topDigits b k n = (Nat.digits b n).reverse := by
  induction k generalizing n with
  | zero =>
    rw [List.length_eq_zero_iff, Nat.digits_eq_nil_iff_eq_zero] at hk
    omega
  | succ k ih =>
    rw [Nat.digits_def' hb hn] at hk ⊢
    rw [List.length_cons, Nat.add_right_cancel_iff] at hk
    cases k with
    | zero =>
      have hdiv : n / b = 0 := by
        rwa [List.length_eq_zero_iff, Nat.digits_eq_nil_iff_eq_zero] at hk
      have hlt : n < b := (Nat.div_eq_zero_iff_lt (by omega)).mp hdiv
      simp [topDigits, hdiv, Nat.mod_eq_of_lt hlt]
    | succ k =>
      have hpos : 0 < n / b := by
        rw [Nat.pos_iff_ne_zero]
        intro h0
        simp [h0] at hk
      rw [topDigits_snoc, ih hpos hk, List.reverse_cons]

/-! ## Strings -/

/-- `'0' + d`. -/
def digitChar (d : Nat) : UInt8 := UInt8.ofNat (48 + d)

def minus : UInt8 := 45

/-- The digits of a natural number. -/
def decimalNat (n : Nat) : List UInt8 :=
  if n = 0 then [digitChar 0] else (Nat.digits 10 n).reverse.map digitChar

/-- **The decimal string of an integer.** -/
def decimal (n : Int) : List UInt8 :=
  if n < 0 then minus :: decimalNat n.natAbs else decimalNat n.natAbs

/-- The value of a string of digits. -/
def readNat (xs : List UInt8) : Nat := Nat.ofDigits 10 (xs.reverse.map fun c => c.toNat - 48)

/-- The value of a string of digits that may have a sign. -/
def read : List UInt8 → Int
  | c :: xs => if c = minus then -(readNat xs : Int) else readNat (c :: xs)
  | [] => 0

theorem digitChar_toNat {d : Nat} (hd : d < 10) : (digitChar d).toNat = 48 + d := by
  rw [digitChar, UInt8.toNat_ofNat']
  omega

theorem digit_lt {d : Nat} (hd : d ∈ Nat.digits 10 n) : d < 10 := Nat.digits_lt_base (by omega) hd

/-- The bytes of a number are digits. -/
theorem mem_decimalNat {c : UInt8} (hc : c ∈ decimalNat n) : ∃ d < 10, c = digitChar d := by
  unfold decimalNat at hc
  split at hc
  · exact ⟨0, by omega, List.mem_singleton.mp hc⟩
  · obtain ⟨d, hd, rfl⟩ := List.mem_map.mp hc
    exact ⟨d, digit_lt (List.mem_reverse.mp hd), rfl⟩

theorem readNat_decimalNat (n : Nat) : readNat (decimalNat n) = n := by
  unfold decimalNat
  split
  · rename_i hn
    subst hn
    rfl
  · have hdigits : (Nat.digits 10 n).map (fun d => (digitChar d).toNat - 48) = Nat.digits 10 n := by
      refine (List.map_congr_left fun d hd => ?_).trans (List.map_id _)
      rw [digitChar_toNat (digit_lt hd), Nat.add_sub_cancel_left]
      rfl
    rw [readNat, ← List.map_reverse, List.reverse_reverse, List.map_map]
    exact (congrArg (Nat.ofDigits 10) hdigits).trans (Nat.ofDigits_digits 10 n)

theorem digitChar_ne_minus {d : Nat} (hd : d < 10) : digitChar d ≠ minus := by
  intro h
  have := congrArg UInt8.toNat h
  rw [digitChar_toNat hd] at this
  have h45 : minus.toNat = 45 := rfl
  omega

/-- **Reading the decimal string of an integer gives the integer.** -/
theorem read_decimal (n : Int) : read (decimal n) = n := by
  unfold decimal
  split
  · simp only [read, if_true, readNat_decimalNat]
    omega
  · have hread := readNat_decimalNat n.natAbs
    cases hd : decimalNat n.natAbs with
    | nil =>
      rw [hd] at hread
      have h0 : readNat [] = 0 := rfl
      simp only [read]
      omega
    | cons c xs =>
      obtain ⟨d, hlt, rfl⟩ := mem_decimalNat (n := n.natAbs) (c := c) (by simp [hd])
      rw [read, if_neg (digitChar_ne_minus hlt), ← hd, hread]
      omega

end OwnOS.Lib
