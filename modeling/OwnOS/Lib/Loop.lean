import Mathlib

/-!
# Counted loops

`loop f n s` is the C loop `for (i = 0; i < n; i++)` with the body `f i`, from the state `s`, for
bodies that may stop with an error. Four rules: the state after the loop when each turn is known
exactly (`loop_eq`), an invariant when the loop returned (`loop_invariant`), an invariant that
makes it return (`loop_total`), and one under which it can only stop with one error (`loop_or`).
`fill_succ` is the turn of a loop that fills an array slot by slot.
-/

namespace OwnOS.Lib

variable {σ ε : Type}

/-- `for (i = 0; i < n; i++)`. -/
def loop (f : Nat → σ → Except ε σ) : Nat → σ → Except ε σ
  | 0, s => .ok s
  | n + 1, s =>
    match loop f n s with
    | .ok s => f n s
    | .error e => .error e

variable {f : Nat → σ → Except ε σ} {n : Nat} {s s' : σ}

theorem loop_eq (g : Nat → σ) (h : ∀ i < n, f i (g i) = .ok (g (i + 1))) :
    loop f n (g 0) = .ok (g n) := by
  induction n with
  | zero => rfl
  | succ n ih =>
    rw [loop, ih fun i hi => h i (Nat.lt_succ_of_lt hi)]
    exact h n (Nat.lt_succ_self n)

/-- **Loop invariant**, for a loop that returned. -/
theorem loop_invariant {I : Nat → σ → Prop} (h0 : I 0 s)
    (hstep : ∀ i < n, ∀ s s', I i s → f i s = .ok s' → I (i + 1) s') (hr : loop f n s = .ok s') :
    I n s' := by
  induction n generalizing s' with
  | zero =>
    obtain rfl := Except.ok.inj hr
    exact h0
  | succ n ih =>
    rw [loop] at hr
    split at hr
    · rename_i t ht
      exact hstep n (Nat.lt_succ_self n) t s'
        (ih (fun i hi => hstep i (Nat.lt_succ_of_lt hi)) ht) hr
    · exact absurd hr (by simp)

/-- **Loop invariant** that makes the loop return. -/
theorem loop_total {I : Nat → σ → Prop} (h0 : I 0 s)
    (hstep : ∀ i < n, ∀ s, I i s → ∃ s', f i s = .ok s' ∧ I (i + 1) s') :
    ∃ s', loop f n s = .ok s' ∧ I n s' := by
  induction n with
  | zero => exact ⟨s, rfl, h0⟩
  | succ n ih =>
    obtain ⟨t, ht, hI⟩ := ih fun i hi => hstep i (Nat.lt_succ_of_lt hi)
    obtain ⟨s', hs', hI'⟩ := hstep n (Nat.lt_succ_self n) t hI
    exact ⟨s', by rw [loop, ht]; exact hs', hI'⟩

/-- **Loop invariant** under which every turn returns or stops with the error `e`. -/
theorem loop_or {I : Nat → σ → Prop} {e : ε} (h0 : I 0 s)
    (hstep : ∀ i < n, ∀ s, I i s → f i s = .error e ∨ ∃ s', f i s = .ok s' ∧ I (i + 1) s') :
    loop f n s = .error e ∨ ∃ s', loop f n s = .ok s' ∧ I n s' := by
  induction n with
  | zero => exact Or.inr ⟨s, rfl, h0⟩
  | succ n ih =>
    rcases ih fun i hi => hstep i (Nat.lt_succ_of_lt hi) with he | ⟨t, ht, hI⟩
    · left
      rw [loop, he]
    · rw [loop, ht]
      exact hstep n (Nat.lt_succ_self n) t hI

/-! ## A loop that fills the slots of an array -/

section Fill

variable {α : Type} {N k : Nat}

theorem fill_zero (g h : Fin N → α) : (fun j : Fin N => if j.val < 0 then g j else h j) = h := by
  funext j
  exact if_neg (Nat.not_lt_zero _)

theorem fill_all (g h : Fin N → α) : (fun j : Fin N => if j.val < N then g j else h j) = g := by
  funext j
  exact if_pos j.isLt

/-- One turn: the slots below `k` are filled, and slot `k` is written. -/
theorem fill_succ (hk : k < N) (g h : Fin N → α) :
    Function.update (fun j => if j.val < k then g j else h j) ⟨k, hk⟩ (g ⟨k, hk⟩) =
      fun j : Fin N => if j.val < k + 1 then g j else h j := by
  funext j
  by_cases hj : j = ⟨k, hk⟩
  · subst hj
    simp
  · have hne : j.val ≠ k := fun e => hj (Fin.ext e)
    rw [Function.update_of_ne hj]
    by_cases hlt : j.val < k
    · rw [if_pos hlt, if_pos (by omega)]
    · rw [if_neg hlt, if_neg (by omega)]

end Fill

end OwnOS.Lib
