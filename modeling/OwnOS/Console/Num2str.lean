import OwnOS.Disk.KString
import OwnOS.Halt
import OwnOS.Lib.Decimal
import OwnOS.Lib.Signed

/-!
# Printing a number (`string.cpp:89-125`)

`num2str` grows the power of ten `fig` one step past the number, divides it by ten and takes the
digits from the top. `fig` is a `u32_t`, and the tenth power of ten is not one: a number of ten
digits is printed with the digits of the number 141006540, nine of them and none of them right. For
the least `int` the absolute value is the number itself, and the recursion does not end.

* `figLoop_toNat`: what the first loop computes, modulo `2^32`.
* `digitLoop_pow`: from a power of ten the second loop writes the digits from the top.
* `num2str_prints_iff`: **`num2str` prints exactly the numbers of absolute value below `10^9`.**
-/

namespace OwnOS.Console

open Lib Disk

/-- `ABS`; the least `int` is its own negative. -/
def abs (x : Int32) : Int32 := if x > 0 then x else -x

/-- The string `"0"`. -/
def zeroStr : Buf := fun i => if i = 0 then 48 else 0

/-- The first loop: `fig` grows with the digits of `tmp`. -/
def figLoop : Nat → Int32 → UInt32 → Res UInt32
  | 0, _, _ => .error .hang
  | fuel + 1, tmp, fig => if tmp ≠ 0 then figLoop fuel (tmp / 10) (fig * 10) else .ok fig

/-- The second loop on the string at `o`. `num / fig` and `num % fig` are unsigned. -/
def digitLoop (o : Nat) : Nat → Int32 → UInt32 → Buf → Nat → Res (Buf × Nat)
  | 0, _, _, _, _ => .error .hang
  | fuel + 1, num, fig, str, i =>
    if fig ≠ 0 then
      let str := Function.update str (o + i) (48 + num.toUInt32 / fig).toUInt8
      digitLoop o fuel (num.toUInt32 % fig).toInt32 (fig / 10) str (i + 1)
    else .ok (str, i)

/-- `num2str(num, str + o)`: the memory from `str` on when it returns. -/
def num2str : Nat → Int32 → Buf → Nat → Res Buf
  | 0, _, _, _ => .error .hang
  | fuel + 1, num, str, o =>
    if num < 0 then num2str fuel (abs num) (Function.update str o minus) (o + 1)
    else if num = 0 then .ok (str.put o (strlen zeroStr + 1) zeroStr)
    else do
      let fig ← figLoop fuel num 1
      let (str, i) ← digitLoop o fuel num (fig / 10) str 0
      .ok (Function.update str (o + i) 0)

/-- The bytes from `p` on are `xs`. -/
def Shows (str : Buf) : Nat → List UInt8 → Prop
  | _, [] => True
  | p, c :: xs => str p = c ∧ Shows str (p + 1) xs

/-- `num2str(n, str + o)` returns, and has written the zero-terminated decimal string of `n`. -/
def Prints (n : Int32) (str : Buf) (o : Nat) : Prop :=
  ∃ fuel str' xs, num2str fuel n str o = .ok str' ∧ Shows str' o (xs ++ [0]) ∧
    xs = decimal n.toInt ∧ read xs = n.toInt

variable {str str' : Buf} {o p i j fuel m k : Nat} {xs ys : List UInt8}
  {num tmp : Int32} {fig r : UInt32}

/-! ## Strings in memory -/

theorem shows_append : Shows str p (xs ++ ys) ↔ Shows str p xs ∧ Shows str (p + xs.length) ys := by
  induction xs generalizing p with
  | nil => simp [Shows]
  | cons c xs ih =>
    rw [List.cons_append, Shows, Shows, ih, List.length_cons, and_assoc, Nat.add_assoc p,
      Nat.add_comm 1]

theorem Shows.congr (h : Shows str p xs) (heq : ∀ j < p + xs.length, str' j = str j) :
    Shows str' p xs := by
  induction xs generalizing p with
  | nil => trivial
  | cons c xs ih =>
    rw [List.length_cons] at heq
    exact ⟨(heq p (by omega)).trans h.1, ih h.2 fun j hj => heq j (by omega)⟩

/-- A zero written behind a string. -/
theorem Shows.terminate (h : Shows str p xs) :
    Shows (Function.update str (p + xs.length) 0) p (xs ++ [0]) :=
  shows_append.mpr ⟨h.congr fun j hj => Function.update_of_ne (by omega) _ _,
    Function.update_self _ _ _, trivial⟩

/-! ## The first loop -/

theorem isNat_ten : IsNat 10 10 := rfl

theorem figLoop_toNat (h : IsNat tmp m) (hr : figLoop fuel tmp fig = .ok r) :
    r.toNat = fig.toNat * 10 ^ (Nat.digits 10 m).length % 4294967296 := by
  induction fuel generalizing tmp m fig with
  | zero => exact absurd hr (by simp [figLoop])
  | succ fuel ih =>
    unfold figLoop at hr
    split at hr
    · rename_i hne
      have hm : 0 < m := Nat.pos_of_ne_zero fun h0 => hne (h.eq_zero_iff.mpr h0)
      have hten : (10 : UInt32).toNat = 10 := rfl
      rw [ih (h.div isNat_ten) hr, Nat.digits_def' (by omega) hm,
        List.length_cons, UInt32.toNat_mul, hten, Nat.mod_mul_mod, Nat.mul_assoc, ← pow_succ']
    · rename_i h0
      obtain rfl := Except.ok.inj hr
      obtain rfl := h.eq_zero_iff.mp (not_not.mp h0)
      have := fig.toNat_lt
      simp only [Nat.digits_zero, List.length_nil, pow_zero, Nat.mul_one]
      omega

theorem figLoop_returns (h : IsNat tmp m) (hfuel : (Nat.digits 10 m).length < fuel) :
    ∃ r, figLoop fuel tmp fig = .ok r := by
  induction fuel generalizing tmp m fig with
  | zero => omega
  | succ fuel ih =>
    unfold figLoop
    split
    · rename_i hne
      have hm : 0 < m := Nat.pos_of_ne_zero fun h0 => hne (h.eq_zero_iff.mpr h0)
      rw [Nat.digits_def' (by omega) hm, List.length_cons] at hfuel
      exact ih (h.div isNat_ten) (by omega)
    · exact ⟨fig, rfl⟩

/-! ## The second loop -/

/-- Every round of the second loop writes one byte and drops one digit of `fig`. -/
theorem digitLoop_length (hr : digitLoop o fuel num fig str i = .ok (str', j)) :
    j = i + (Nat.digits 10 fig.toNat).length := by
  induction fuel generalizing num fig str i with
  | zero => exact absurd hr (by simp [digitLoop])
  | succ fuel ih =>
    unfold digitLoop at hr
    split at hr
    · rename_i hne
      have hpos : 0 < fig.toNat := Nat.pos_of_ne_zero fun h0 => hne (UInt32.toNat_inj.mp h0)
      have hdiv : (fig / 10).toNat = fig.toNat / 10 := UInt32.toNat_div fig 10
      rw [ih hr, hdiv, Nat.digits_def' (by omega) hpos, List.length_cons]
      omega
    · rename_i h0
      obtain rfl := congrArg Prod.snd (Except.ok.inj hr)
      rw [not_not.mp h0]
      simp

/-- The digit that is written for a number below `10 * fig`. -/
theorem digit_byte (h : IsNat num m) (hlt : m / fig.toNat < 10) :
    (48 + num.toUInt32 / fig).toUInt8 = digitChar (m / fig.toNat) := by
  apply UInt8.toNat_inj.mp
  have h48 : (48 : UInt32).toNat = 48 := rfl
  rw [digitChar_toNat hlt, UInt32.toNat_toUInt8, UInt32.toNat_add,
    UInt32.toNat_div, h.toUInt32, h48]
  generalize m / fig.toNat = d at hlt
  omega

/-- **From a power of ten the loop writes the digits from the top**, and nothing before them. -/
theorem digitLoop_pow (str : Buf) (h : IsNat num m) (hfig : fig.toNat = 10 ^ k)
    (hm : m < 10 ^ (k + 1)) (hfuel : k + 1 < fuel) :
    ∃ str', digitLoop o fuel num fig str i = .ok (str', i + (k + 1)) ∧
      (∀ j < o + i, str' j = str j) ∧
      Shows str' (o + i) ((topDigits 10 (k + 1) m).map digitChar) := by
  induction k generalizing fuel num m fig str i with
  | zero =>
    obtain ⟨fuel, rfl⟩ := Nat.exists_eq_add_of_le' hfuel
    have hone : fig = 1 := UInt32.toNat_inj.mp hfig
    have hlt : m / fig.toNat < 10 := by
      rw [hfig]
      simpa using hm
    have hbyte := digit_byte h hlt
    refine ⟨Function.update str (o + i) (48 + num.toUInt32 / fig).toUInt8, ?_,
      fun j hj => ?_, ?_, trivial⟩
    · subst hone
      rfl
    · exact Function.update_of_ne (by omega) _ _
    · rw [Function.update_self, hbyte, hfig]
  | succ k ih =>
    obtain ⟨fuel, rfl⟩ := Nat.exists_eq_add_of_lt hfuel
    have hne : fig ≠ 0 := by
      rintro rfl
      exact absurd hfig.symm (Nat.pos_iff_ne_zero.mp (by positivity))
    have hdiv : (fig / 10).toNat = 10 ^ k := by
      have hten : (10 : UInt32).toNat = 10 := rfl
      rw [UInt32.toNat_div, hfig, hten, pow_succ, Nat.mul_div_cancel _ (by omega)]
    have hmod : (num.toUInt32 % fig).toNat = m % 10 ^ (k + 1) := by
      rw [UInt32.toNat_mod, h.toUInt32, hfig]
    have hrest : IsNat (num.toUInt32 % fig).toInt32 (m % 10 ^ (k + 1)) := by
      rw [← hmod]
      exact IsNat.ofWord (by have := h.lt; have := Nat.mod_le m (10 ^ (k + 1)); omega)
    have hlt : m / fig.toNat < 10 := by
      rw [hfig, Nat.div_lt_iff_lt_mul (by positivity), ← pow_succ']
      exact hm
    have hbyte := digit_byte h hlt
    obtain ⟨str', hloop, hframe, hshows⟩ := ih (i := i + 1)
      (Function.update str (o + i) (48 + num.toUInt32 / fig).toUInt8) hrest hdiv
      (Nat.mod_lt _ (by positivity)) (show k + 1 < k + 1 + 1 + fuel by omega)
    refine ⟨str', ?_, fun j hj => ?_, ?_, hshows⟩
    · rw [digitLoop, if_pos hne]
      simp only [hloop]
      congr 2
      omega
    · rw [hframe j (by omega), Function.update_of_ne (by omega)]
    · rw [hframe (o + i) (by omega), Function.update_self, hbyte, hfig]

/-! ## Numbers of at most nine digits -/

/-- `num` is not negative: no sign is written. -/
theorem not_neg (h : IsNat num m) : ¬ num < 0 := by
  rw [h.lt_iff isNat_zero]
  omega

theorem num2str_zero (h : IsNat num 0) :
    num2str (fuel + 1) num str o = .ok (str.put o 2 zeroStr) := by
  have hlen : strlen zeroStr = 1 := strlen_eq (by decide) (fun j hj => by simp [zeroStr]; omega) rfl
  rw [num2str, if_neg (not_neg h), if_pos (h.eq_zero_iff.mpr rfl), hlen]

theorem decimalNat_of_pos (hm : 0 < m) :
    decimalNat m = (topDigits 10 (Nat.digits 10 m).length m).map digitChar := by
  rw [decimalNat, if_neg (by omega), topDigits_eq (by omega) hm rfl]

/-- **A number below `10^9`**: its string and nothing else is written. -/
theorem num2str_nat (str : Buf) (o : Nat) (h : IsNat num m) (hm : m < 1000000000) :
    ∃ str', num2str 12 num str o = .ok str' ∧ Shows str' o (decimalNat m ++ [0]) ∧
      ∀ j < o, str' j = str j := by
  by_cases h0 : m = 0
  · subst h0
    refine ⟨_, num2str_zero h, ⟨?_, ?_, trivial⟩, fun j hj => Buf.put_of_lt hj⟩
    · exact Buf.put_add (k := 0) (by omega)
    · exact Buf.put_add (k := 1) (by omega)
  · have hpos : 0 < m := Nat.pos_of_ne_zero h0
    obtain ⟨k, hk⟩ : ∃ k, (Nat.digits 10 m).length = k + 1 := by
      rw [Nat.digits_def' (by omega) hpos]
      exact ⟨_, List.length_cons⟩
    have hk9 : k + 1 ≤ 9 := by
      rw [← hk, Nat.digits_length_le_iff (by omega)]
      exact hm
    have hlt : m < 10 ^ (k + 1) := hk ▸ Nat.lt_base_pow_length_digits (by omega)
    obtain ⟨r, hr⟩ : ∃ r, figLoop 11 num 1 = .ok r := figLoop_returns h (by omega)
    have hfig : (r / 10).toNat = 10 ^ k := by
      have hone : (1 : UInt32).toNat = 1 := rfl
      have hten : (10 : UInt32).toNat = 10 := rfl
      have hsmall : 10 ^ (k + 1) ≤ 10 ^ 9 := Nat.pow_le_pow_right (by omega) hk9
      rw [UInt32.toNat_div, figLoop_toNat h hr, hk, hone, hten, Nat.one_mul,
        Nat.mod_eq_of_lt (by omega), pow_succ, Nat.mul_div_cancel _ (by omega)]
    obtain ⟨str', hloop, hframe, hshows⟩ := digitLoop_pow (o := o) (i := 0) str h hfig hlt
      (show k + 1 < 11 by omega)
    refine ⟨Function.update str' (o + (0 + (k + 1))) 0, ?_, ?_, fun j hj => ?_⟩
    · rw [num2str, if_neg (not_neg h), if_neg fun e => h0 (h.eq_zero_iff.mp e), hr]
      simp only [Res.ok_bind, hloop]
    · rw [decimalNat_of_pos hpos, hk]
      have hterm := hshows.terminate
      rw [List.length_map, topDigits_length] at hterm
      rwa [Nat.zero_add]
    · rw [Function.update_of_ne (by omega), hframe j (by omega)]

/-! ## Numbers of ten digits -/

theorem Shows.getElem (h : Shows str p xs) (hi : i < xs.length) : str (p + i) = xs[i] := by
  induction xs generalizing p i with
  | nil => exact absurd hi (by simp)
  | cons c xs ih =>
    cases i with
    | zero => exact h.1
    | succ i =>
      rw [List.getElem_cons_succ, ← ih h.2 (by simpa using hi)]
      congr 1
      omega

/-- The string ends after nine bytes. -/
theorem num2str_long (h : IsNat num m) (hm : 1000000000 ≤ m)
    (hr : num2str fuel num str o = .ok str') :
    str' (o + 9) = 0 := by
  cases fuel with
  | zero => exact absurd hr (by simp [num2str])
  | succ fuel =>
    rw [num2str, if_neg (not_neg h), if_neg fun e => by have := h.eq_zero_iff.mp e; omega] at hr
    obtain ⟨fig, hfig, hr⟩ := Res.bind_eq_ok.mp hr
    obtain ⟨⟨str1, i⟩, hloop, hr⟩ := Res.bind_eq_ok.mp hr
    obtain rfl := Except.ok.inj hr
    have hlen : (Nat.digits 10 m).length = 10 := by
      have := h.lt
      have hle : (Nat.digits 10 m).length ≤ 10 :=
        (Nat.digits_length_le_iff (by omega) m).mpr (by omega)
      have hgt : 9 < (Nat.digits 10 m).length := (Nat.lt_digits_length_iff (by omega) m).mpr hm
      omega
    have htenth : (fig / 10).toNat = 141006540 := by
      rw [UInt32.toNat_div, figLoop_toNat h hfig, hlen]
      rfl
    have hi : i = 9 := by
      rw [digitLoop_length hloop, htenth]
      norm_num
    rw [hi]
    exact Function.update_self _ _ _

/-- The ninth byte after the first of a number of ten digits is a digit. -/
theorem not_shows (hm : 1000000000 ≤ m) (h0 : str (p + 9) = 0) :
    ¬ Shows str p (decimalNat m ++ [0]) := by
  intro hshows
  have hlen : 9 < (decimalNat m).length := by
    rw [decimalNat, if_neg (by omega), List.length_map, List.length_reverse,
      Nat.lt_digits_length_iff (by omega)]
    exact hm
  have hbyte := (shows_append.mp hshows).1.getElem hlen
  obtain ⟨d, hd, hc⟩ := mem_decimalNat (List.getElem_mem hlen)
  rw [h0, hc] at hbyte
  have hval := congrArg UInt8.toNat hbyte
  rw [digitChar_toNat hd] at hval
  have hzero : (0 : UInt8).toNat = 0 := rfl
  omega

/-! ## Negative numbers -/

/-- The absolute value, except of the least `int`. -/
theorem isNat_abs (h : num.toInt = -(m : Int)) (hm : m < 2147483648) : IsNat (abs num) m := by
  have hle : ¬ num > 0 := by
    rw [gt_iff_lt, Int32.lt_iff_toInt_lt, h, show (0 : Int32).toInt = 0 from rfl]
    omega
  rw [abs, if_neg hle, IsNat, Int32.toInt_neg, h, neg_neg]
  exact IsNat.bmod (by omega) (by omega)

theorem num2str_neg (h : num.toInt < 0) : num2str (fuel + 1) num str o =
    num2str fuel (abs num) (Function.update str o minus) (o + 1) := by
  rw [num2str, if_pos]
  exact Int32.lt_iff_toInt_lt.mpr h

/-- **The least `int` is its own absolute value**: `num2str` calls itself for ever. -/
theorem num2str_min (fuel : Nat) (str : Buf) (o : Nat) :
    num2str fuel (-2147483648) str o = .error .hang := by
  induction fuel generalizing str o with
  | zero => rfl
  | succ fuel ih => exact (num2str_neg (by decide)).trans (ih _ _)

/-! ## Which numbers are printed -/

theorem decimal_natCast (m : Nat) : decimal m = decimalNat m := by
  rw [decimal, if_neg (by omega), Int.natAbs_natCast]

theorem decimal_neg (hm : 0 < m) : decimal (-(m : Int)) = minus :: decimalNat m := by
  rw [decimal, if_pos (by omega), Int.natAbs_neg, Int.natAbs_natCast]

theorem prints_nat (h : IsNat num m) (str : Buf) (o : Nat) : Prints num str o ↔ m < 1000000000 := by
  have hdec : decimal num.toInt = decimalNat m := by rw [h, decimal_natCast]
  constructor
  · rintro ⟨fuel, str', xs, hr, hshows, rfl, -⟩
    by_contra hm
    rw [hdec] at hshows
    exact not_shows (by omega) (num2str_long h (by omega) hr) hshows
  · intro hm
    obtain ⟨str', hr, hshows, -⟩ := num2str_nat str o h hm
    exact ⟨12, str', _, hr, hdec ▸ hshows, rfl, read_decimal _⟩

theorem prints_neg (h : num.toInt = -(m : Int)) (hm : 0 < m) (str : Buf) (o : Nat) :
    Prints num str o ↔ m < 1000000000 := by
  have hneg : num.toInt < 0 := by omega
  have hdec : decimal num.toInt = minus :: decimalNat m := by rw [h, decimal_neg hm]
  constructor
  · rintro ⟨fuel, str', xs, hr, hshows, rfl, -⟩
    by_contra hlarge
    have hle := num.le_toInt
    by_cases hmin : m = 2147483648
    · obtain rfl : num = -2147483648 := Int32.toInt_inj.mp (by rw [h, hmin]; rfl)
      rw [num2str_min] at hr
      cases hr
    · cases fuel with
      | zero => exact absurd hr (by simp [num2str])
      | succ fuel =>
        rw [num2str_neg hneg] at hr
        rw [hdec] at hshows
        exact not_shows (by omega) (num2str_long (isNat_abs h (by omega)) (by omega) hr) hshows.2
  · intro hlt
    obtain ⟨str', hr, hshows, hframe⟩ := num2str_nat (Function.update str o minus) (o + 1)
      (isNat_abs h (by omega)) hlt
    refine ⟨13, str', _, (num2str_neg hneg).trans hr, ?_, rfl, read_decimal _⟩
    rw [hdec]
    refine ⟨?_, hshows⟩
    rw [hframe o (by omega), Function.update_self]

/-- **When `num2str` prints a number**: its absolute value is below `10^9`. -/
theorem num2str_prints_iff (n : Int32) (str : Buf) (o : Nat) :
    Prints n str o ↔ -1000000000 < n.toInt ∧ n.toInt < 1000000000 := by
  rcases Int.lt_or_le n.toInt 0 with hneg | hpos
  · obtain ⟨m, hm, -, h⟩ := IsNat.exists_neg hneg
    rw [prints_neg h hm]
    omega
  · have h : IsNat n n.toInt.toNat := (Int.toNat_of_nonneg hpos).symm
    rw [prints_nat h]
    omega

/-- A thousand million is printed as `709186972`. -/
theorem num2str_billion : (num2str 13 1000000000 (fun _ => 7) 0).map (Buf.bytes · 10) =
      .ok [55, 48, 57, 49, 56, 54, 57, 55, 50, 0] ∧
    ¬ Prints 1000000000 (fun _ => 7) 0 ∧ ∀ fuel, num2str fuel (-2147483648) (fun _ => 7) 0 =
        .error .hang := by
  refine ⟨by decide +kernel, ?_, fun fuel => num2str_min fuel _ _⟩
  have hword : IsNat 1000000000 1000000000 := rfl
  rw [prints_nat hword]
  omega

end OwnOS.Console
