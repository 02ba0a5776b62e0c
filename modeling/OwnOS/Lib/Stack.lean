import Mathlib

/-!
# Words in memory and a stack that grows downwards

`words` reads a block of words, `setWords` writes one, and `pushes` puts words on a stack: the last
one is at the lowest address.

* `words_setWords`: what was written is read back.
* `words_setWords_of_disjoint`: a block that shares no word with the one that was written is as
  before.
* `pushes_eq`: pushing words writes them as a block, in the opposite order.
-/

namespace OwnOS.Lib

/-- Words of 32 bits by their address. Addresses that are used are a multiple of four apart. -/
abbrev WordMem := UInt32 → UInt32

namespace WordMem

variable {m : WordMem} {a b x v : UInt32} {n i : Nat} {ws : List UInt32}

/-- The address of the word `i` of a block. -/
def at_ (a : UInt32) (i : Nat) : UInt32 := a + UInt32.ofNat (4 * i)

theorem at_zero (a : UInt32) : at_ a 0 = a := UInt32.add_zero a

theorem at_succ (a : UInt32) (i : Nat) : at_ a (i + 1) = at_ (a + 4) i := by
  have h : UInt32.ofNat (4 * (i + 1)) = 4 + UInt32.ofNat (4 * i) := by
    rw [Nat.mul_succ, Nat.add_comm, UInt32.ofNat_add]
    rfl
  rw [at_, at_, h, UInt32.add_assoc]

theorem at_inj {i j : Nat} (hi : i < 2 ^ 30) (hj : j < 2 ^ 30) (h : at_ a i = at_ a j) : i = j := by
  have h := congrArg UInt32.toNat ((UInt32.add_right_inj a).mp h)
  rw [UInt32.toNat_ofNat', UInt32.toNat_ofNat', Nat.mod_eq_of_lt (by omega),
    Nat.mod_eq_of_lt (by omega)] at h
  omega

/-! ## Blocks -/

/-- The `n` words from `a` on. -/
def words (m : WordMem) (a : UInt32) : Nat → List UInt32
  | 0 => []
  | n + 1 => m a :: words m (a + 4) n

/-- Writes words from `a` on. -/
def setWords (m : WordMem) (a : UInt32) : List UInt32 → WordMem
  | [] => m
  | w :: ws => setWords (Function.update m a w) (a + 4) ws

theorem length_words (m : WordMem) (a : UInt32) (n : Nat) : (words m a n).length = n := by
  induction n generalizing a with
  | zero => rfl
  | succ n ih => rw [words, List.length_cons, ih]

theorem words_congr {m' : WordMem} (h : ∀ i < n, m' (at_ a i) = m (at_ a i)) :
    words m' a n = words m a n := by
  induction n generalizing a with
  | zero => rfl
  | succ n ih =>
    have h0 := h 0 (Nat.zero_lt_succ n)
    rw [at_zero] at h0
    rw [words, words, h0, ih fun i hi => ?_]
    rw [← at_succ]
    exact h (i + 1) (Nat.succ_lt_succ hi)

theorem words_getElem? (m : WordMem) (a : UInt32) (hi : i < n) :
    (words m a n)[i]? = some (m (at_ a i)) := by
  induction n generalizing a i with
  | zero => exact absurd hi (Nat.not_lt_zero i)
  | succ n ih =>
    cases i with
    | zero => rw [words, at_zero, List.getElem?_cons_zero]
    | succ i => rw [words, List.getElem?_cons_succ, ih _ (Nat.lt_of_succ_lt_succ hi), at_succ]

theorem setWords_of_ne (h : ∀ i < ws.length, x ≠ at_ a i) : setWords m a ws x = m x := by
  induction ws generalizing m a with
  | nil => rfl
  | cons w ws ih =>
    have h0 : x ≠ a := by
      rw [← at_zero a]
      exact h 0 (Nat.zero_lt_succ _)
    rw [setWords, ih fun i hi => ?_, Function.update_of_ne h0]
    rw [← at_succ]
    exact h (i + 1) (Nat.succ_lt_succ hi)

/-- **What was written is read.** -/
theorem words_setWords (h : ws.length < 2 ^ 30) : words (setWords m a ws) a ws.length = ws := by
  induction ws generalizing m a with
  | nil => rfl
  | cons w ws ih =>
    have hlt : ws.length < 2 ^ 30 := Nat.lt_of_succ_lt h
    have hhead : setWords (Function.update m a w) (a + 4) ws a = w := by
      rw [setWords_of_ne fun i hi he => ?_, Function.update_self]
      rw [← at_succ] at he
      have h0 : at_ a 0 = at_ a (i + 1) := (at_zero a).trans he
      have hi' : i + 1 < 2 ^ 30 := (Nat.succ_lt_succ hi).trans h
      exact absurd (at_inj (by omega) hi' h0) (by omega)
    rw [List.length_cons, words, setWords, hhead, ih hlt]

/-- The blocks share no word. -/
def Apart (a : UInt32) (n : Nat) (b : UInt32) (k : Nat) : Prop :=
  ∀ i < n, ∀ j < k, at_ a i ≠ at_ b j

theorem words_setWords_of_disjoint (h : Apart a n b ws.length) :
    words (setWords m b ws) a n = words m a n :=
  words_congr fun i hi => setWords_of_ne fun j hj => h i hi j hj

/-- One word of a block. -/
theorem words_update (h : n < 2 ^ 30) (hi : i < n) :
    words (Function.update m (at_ a i) v) a n = (words m a n).set i v := by
  refine List.ext_getElem? fun j => ?_
  by_cases hj : j < n
  · rw [words_getElem? _ _ hj, List.getElem?_set, length_words]
    by_cases hij : i = j
    · rw [if_pos hij, if_pos (hij ▸ hi), hij, Function.update_self]
    · rw [if_neg hij, words_getElem? _ _ hj, Function.update_of_ne fun he => hij ?_]
      exact (at_inj (by omega) (by omega) he).symm
  · rw [List.getElem?_eq_none (by rw [length_words]; omega),
      List.getElem?_eq_none (by rw [List.length_set, length_words]; omega)]

theorem words_update_of_apart (h : Apart a n b (i + 1)) :
    words (Function.update m (at_ b i) v) a n = words m a n :=
  words_congr fun j hj => Function.update_of_ne (h j hj i (Nat.lt_succ_self i)) ..

/-! ## The stack -/

/-- Pushes words one after the other: the memory and the stack pointer. -/
def pushes (m : WordMem) (sp : UInt32) : List UInt32 → WordMem × UInt32
  | [] => (m, sp)
  | w :: ws => pushes (Function.update m (sp - 4) w) (sp - 4) ws

theorem pushes_append (sp : UInt32) {ws' : List UInt32} :
    pushes m sp (ws ++ ws') = pushes (pushes m sp ws).1 (pushes m sp ws).2 ws' := by
  induction ws generalizing m sp with
  | nil => rfl
  | cons w ws ih => exact ih _

theorem setWords_append {ws' : List UInt32} :
    setWords m a (ws ++ ws') = setWords (setWords m a ws) (at_ a ws.length) ws' := by
  induction ws generalizing m a with
  | nil => rw [List.nil_append, setWords, List.length_nil, at_zero]
  | cons w ws ih => rw [List.cons_append, setWords, setWords, ih, List.length_cons, at_succ]

theorem setWords_comm (h : ∀ i < ws.length, b ≠ at_ a i) :
    setWords (Function.update m b v) a ws = Function.update (setWords m a ws) b v := by
  induction ws generalizing m a with
  | nil => rfl
  | cons w ws ih =>
    have h0 : b ≠ a := by
      rw [← at_zero a]
      exact h 0 (Nat.zero_lt_succ _)
    rw [setWords, setWords, Function.update_comm h0, ih fun i hi => ?_]
    rw [← at_succ]
    exact h (i + 1) (Nat.succ_lt_succ hi)

theorem at_sub (sp : UInt32) (n : Nat) : at_ (sp - UInt32.ofNat (4 * n)) n = sp := by
  rw [at_, UInt32.sub_add_cancel]

/-- **Pushed words are a block**, the last one first. -/
theorem pushes_eq (sp : UInt32) (h : ws.length < 2 ^ 30) :
    pushes m sp ws = (setWords m (sp - UInt32.ofNat (4 * ws.length)) ws.reverse,
      sp - UInt32.ofNat (4 * ws.length)) := by
  induction ws generalizing m sp with
  | nil =>
    rw [pushes, List.length_nil, List.reverse_nil, setWords, Nat.mul_zero]
    exact congrArg (m, ·) (UInt32.sub_zero sp).symm
  | cons w ws ih =>
    have hlt : ws.length < 2 ^ 30 := Nat.lt_of_succ_lt h
    have hsp : sp - 4 - UInt32.ofNat (4 * ws.length) = sp - UInt32.ofNat (4 * (ws.length + 1)) := by
      have h4 : UInt32.ofNat (4 * (ws.length + 1)) = 4 + UInt32.ofNat (4 * ws.length) := by
        rw [Nat.mul_succ, Nat.add_comm, UInt32.ofNat_add]
        rfl
      rw [h4, UInt32.sub_eq_add_neg, UInt32.sub_eq_add_neg, UInt32.sub_eq_add_neg, UInt32.neg_add,
        UInt32.sub_eq_add_neg, UInt32.add_assoc]
    have hlast : at_ (sp - UInt32.ofNat (4 * (ws.length + 1))) ws.length = sp - 4 := by
      rw [← hsp]
      exact at_sub ..
    rw [pushes, ih _ hlt, hsp, List.length_cons, List.reverse_cons, setWords_append,
      List.length_reverse, hlast, setWords, setWords, setWords_comm fun i hi he => ?_]
    rw [List.length_reverse] at hi
    rw [← hlast] at he
    exact absurd (at_inj (by omega) (by omega) he) (by omega)

end WordMem

end OwnOS.Lib
