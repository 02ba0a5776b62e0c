import OwnOS.Lib.Bytes

/-!
# Strings (`string.cpp`, `Utilclass.hpp`)

`kstring` keeps a length beside its zero-terminated bytes. `strlen` gives up after `STRLEN_MAX`
bytes, `strncpy` copies the terminator too, and `new char[]` hands out arbitrary memory (`fresh`).

* `Holds`: the string holds a name, a list of bytes without a zero. It survives a copy
  (`Holds.copy`).
* `Holds.eq_make_iff`: comparing a string that holds a name with one made from `len < 256` bytes of
  a buffer finds exactly the equal bytes, zero bytes in the buffer included.
-/

namespace OwnOS.Disk

open Lib

/-- `STRLEN_MAX`. -/
def strlenMax : Nat := 0x400

/-- The loop of `strlen` from `i` on, for `n` more rounds. -/
def strlenFrom (str : Buf) : Nat → Nat → Nat
  | 0, i => i
  | n + 1, i => if str i = 0 then i else strlenFrom str n (i + 1)

def strlen (str : Buf) : Nat := strlenFrom str strlenMax 0

def strncpy (d s : Buf) (len : Nat) : Buf := d.put 0 (min (strlen s) len + 1) s

def strcmp (s1 s2 : Buf) (num : Nat) : UInt16 :=
  if strlen s1 ≠ strlen s2 then 1
  else if (List.range (min num (strlen s1))).any fun i => s1 i != s2 i then 1
  else 0

structure KString where
  pstring : Buf
  len : Nat

namespace KString

/-- `kstring(const char *str)`. -/
def ofStr (fresh str : Buf) : KString := ⟨fresh.put 0 (strlen str + 1) str, strlen str⟩

/-- `kstring(const char *str, int len)`. -/
def make (fresh str : Buf) (len : Nat) : KString :=
  ⟨(strncpy fresh str len).put len 1 fun _ => 0, len⟩

/-- The copy constructor. -/
def copy (fresh : Buf) (copied : KString) : KString :=
  ⟨strncpy fresh copied.pstring copied.len, copied.len⟩

/-- `operator==`. -/
def eq (a rh : KString) : Bool :=
  if rh.len ≠ a.len then false else strcmp a.pstring rh.pstring a.len == 0

end KString

/-! ## `strlen` -/

variable {s d : Buf} {k : Nat}

theorem strlenFrom_eq (n i : Nat) (hk : i ≤ k) (hn : k < i + n) (hne : ∀ j, i ≤ j → j < k → s j ≠ 0)
    (h0 : s k = 0) : strlenFrom s n i = k := by
  induction n generalizing i with
  | zero => omega
  | succ n ih =>
    rw [strlenFrom]
    split
    · rename_i hz
      by_contra hik
      exact hne i le_rfl (by omega) hz
    · rename_i hz
      have hik : i ≠ k := fun e => hz (e ▸ h0)
      exact ih (i + 1) (by omega) (by omega) fun j hj => hne j (by omega)

/-- The position of the first zero. -/
theorem strlen_eq (hk : k < strlenMax) (hne : ∀ j < k, s j ≠ 0) (h0 : s k = 0) : strlen s = k :=
  strlenFrom_eq strlenMax 0 (Nat.zero_le k) (by omega) (fun j _ => hne j) h0

theorem le_strlenFrom (n i : Nat) (hk : k ≤ i + n) (hne : ∀ j, i ≤ j → j < k → s j ≠ 0) :
    k ≤ strlenFrom s n i := by
  induction n generalizing i with
  | zero => exact hk
  | succ n ih =>
    rw [strlenFrom]
    split
    · rename_i hz
      by_contra hik
      exact hne i le_rfl (by omega) hz
    · exact ih (i + 1) (by omega) fun j hj => hne j (by omega)

theorem le_strlen (hk : k ≤ strlenMax) (hne : ∀ j < k, s j ≠ 0) : k ≤ strlen s :=
  le_strlenFrom strlenMax 0 (by omega) fun j _ => hne j

/-- The first zero below `k`, when there is one. -/
theorem exists_first_zero (h : ∃ j < k, s j = 0) : ∃ j < k, s j = 0 ∧ ∀ i < j, s i ≠ 0 := by
  induction k with
  | zero => simp at h
  | succ k ih =>
    by_cases hk : ∃ j < k, s j = 0
    · obtain ⟨j, hj, h0, hne⟩ := ih hk
      exact ⟨j, by omega, h0, hne⟩
    · obtain ⟨j, hj, h0⟩ := h
      refine ⟨j, hj, h0, fun i hi hz => hk ⟨i, by omega, hz⟩⟩

/-! ## Names -/

/-- The bytes of a file name. -/
abbrev Name := {xs : List UInt8 // 0 ∉ xs}

theorem name_ne_zero (m : Name) {i : Nat} (hi : i < m.1.length) : m.1[i] ≠ 0 := by
  intro h0
  have := List.getElem_mem hi
  rw [h0] at this
  exact m.2 this

namespace KString

/-- The string holds the name. Beyond `STRLEN_MAX` a copy does not keep the bytes. -/
structure Holds (a : KString) (m : Name) : Prop where
  len : a.len = m.1.length
  byte : ∀ i (h : i < m.1.length), i < strlenMax → a.pstring i = m.1[i]
  fin : m.1.length < strlenMax → a.pstring m.1.length = 0

variable {a : KString} {m : Name}

theorem Holds.ne_zero (h : a.Holds m) {i : Nat} (hi : i < m.1.length) (hs : i < strlenMax) :
    a.pstring i ≠ 0 := by
  rw [h.byte i hi hs]
  exact name_ne_zero m hi

theorem Holds.strlen_eq (h : a.Holds m) (hs : m.1.length < strlenMax) :
    strlen a.pstring = m.1.length :=
  Disk.strlen_eq hs (fun _ hj => h.ne_zero hj (hj.trans hs)) (h.fin hs)

@[simp] theorem copy_pstring (fresh : Buf) (a : KString) :
    (a.copy fresh).pstring = strncpy fresh a.pstring a.len := rfl

@[simp] theorem make_pstring (fresh str : Buf) (len : Nat) :
    (make fresh str len).pstring = (strncpy fresh str len).put len 1 fun _ => 0 := rfl

/-- **A copy holds the name.** -/
theorem Holds.copy (h : a.Holds m) (fresh : Buf) : (a.copy fresh).Holds m := by
  refine ⟨h.len, fun i hi hs => ?_, fun hs => ?_⟩
  · have hle : i + 1 ≤ strlen a.pstring :=
      le_strlen (by omega) fun j hj => h.ne_zero (by omega) (by omega)
    have hl := h.len
    rw [copy_pstring, strncpy, Buf.put_zero_apply (by omega), h.byte i hi hs]
  · have hl := h.len
    rw [copy_pstring, strncpy, h.strlen_eq hs, Buf.put_zero_apply (by omega), h.fin hs]

/-- A string made of bytes without a zero. -/
theorem make_byte {fresh str : Buf} {len i : Nat} (hlen : len < strlenMax)
    (hne : ∀ j < len, str j ≠ 0) (hi : i < len) : (make fresh str len).pstring i = str i := by
  have hle : len ≤ strlen str := le_strlen hlen.le hne
  rw [make_pstring, Buf.put_of_lt hi, strncpy, Buf.put_zero_apply (by omega)]

theorem make_fin (fresh str : Buf) (len : Nat) : (make fresh str len).pstring len = 0 := by
  rw [make_pstring, Buf.put_of_mem le_rfl (by omega)]

/-- A string made of the bytes of a name holds the name. -/
theorem make_holds {fresh str : Buf} (hm : m.1.length < strlenMax)
    (h : ∀ i (hi : i < m.1.length), str i = m.1[i]) : (make fresh str m.1.length).Holds m where
  len := rfl
  byte i hi _ := by
    rw [make_byte hm (fun j hj => ?_) hi, h i hi]
    rw [h j hj]
    exact name_ne_zero m hj
  fin _ := make_fin fresh str _

theorem make_strlen {fresh str : Buf} {len : Nat} (hlen : len < strlenMax) :
    strlen (make fresh str len).pstring = len ↔ ∀ j < len, str j ≠ 0 := by
  constructor
  · intro h
    by_contra hz
    push Not at hz
    obtain ⟨j, hj, h0, hne⟩ := exists_first_zero hz
    have hs : strlen str = j := strlen_eq (by omega) hne h0
    have hm : ∀ i ≤ j, (make fresh str len).pstring i = str i := fun i hi => by
      rw [make_pstring, Buf.put_of_lt (by omega), strncpy, Buf.put_zero_apply (by omega)]
    have : strlen (make fresh str len).pstring = j :=
      strlen_eq (by omega) (fun i hi => by rw [hm i hi.le]; exact hne i hi)
        (by rw [hm j le_rfl, h0])
    omega
  · intro hne
    exact strlen_eq hlen (fun j hj => by rw [make_byte hlen hne hj]; exact hne j hj)
      (make_fin fresh str len)

/-- **Names of every length match exactly.** -/
theorem Holds.eq_make_iff (h : a.Holds m) {fresh str : Buf} {len : Nat} (hlen : len < strlenMax) :
    a.eq (make fresh str len) = true ↔ m.1 = str.bytes len := by
  rw [Buf.eq_bytes_iff, KString.eq, show (make fresh str len).len = len from rfl, h.len]
  by_cases hl : m.1.length = len
  · subst hl
    rw [if_neg (by simp), strcmp, h.strlen_eq hlen, min_self]
    have hmake := @make_strlen fresh str _ hlen
    by_cases hz : ∀ j < m.1.length, str j ≠ 0
    · have hany : ((List.range m.1.length).any fun i =>
          a.pstring i != (make fresh str m.1.length).pstring i) = false ↔
          ∀ i (h : i < m.1.length), str i = m.1[i] := by
        rw [List.any_eq_false]
        constructor
        · intro hall i hi
          have := hall i (List.mem_range.mpr hi)
          rw [bne_iff_ne, not_not, h.byte i hi (hi.trans hlen), make_byte hlen hz hi] at this
          exact this.symm
        · intro hall i hi
          have hi := List.mem_range.mp hi
          rw [bne_iff_ne, not_not, h.byte i hi (hi.trans hlen), make_byte hlen hz hi]
          exact (hall i hi).symm
      rw [hmake.mpr hz, if_neg (by simp), ← hany]
      cases (List.range m.1.length).any fun i =>
        a.pstring i != (make fresh str m.1.length).pstring i <;> simp
    · rw [if_pos fun e => hz (hmake.mp e.symm)]
      refine iff_of_false (by simp) fun hall => hz fun j hj => ?_
      rw [hall.2 j hj, ← h.byte j hj (hj.trans hlen)]
      exact h.ne_zero hj (hj.trans hlen)
  · rw [if_pos (Ne.symm hl)]
    simp [hl]

end KString

end OwnOS.Disk
