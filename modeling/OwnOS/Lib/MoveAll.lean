import Mathlib

/-!
# Moves one after the other

A move `(d, s)` gives the cell `d` what the cell `s` holds. `moveAll l` carries out the moves of a
list in their order, as a copy loop does. If no move writes a cell that a later one reads or writes
(`Untouched`), every destination ends up with what its source held at first: the moves might as well
be done all at once. Nothing here names a program.
-/

namespace OwnOS.Lib

variable {α β : Type} [DecidableEq α]

/-- One move after the other. -/
def moveAll (l : List (α × α)) (m : α → β) : α → β :=
  l.foldl (fun m p => Function.update m p.1 (m p.2)) m

/-- No move writes a cell that a later one reads or writes. -/
def Untouched (l : List (α × α)) : Prop := l.Pairwise fun p q => p.1 ≠ q.1 ∧ p.1 ≠ q.2

variable {l : List (α × α)} {m : α → β} {a d s : α}

@[simp] theorem moveAll_nil : moveAll [] m = m := rfl

@[simp] theorem moveAll_cons {p : α × α} :
    moveAll (p :: l) m = moveAll l (Function.update m p.1 (m p.2)) := rfl

theorem moveAll_append {l' : List (α × α)} : moveAll (l ++ l') m = moveAll l' (moveAll l m) :=
  List.foldl_append

/-- **Frame**: a cell that is no destination keeps what it holds. -/
theorem moveAll_of_ne (h : ∀ p ∈ l, p.1 ≠ a) : moveAll l m a = m a := by
  induction l generalizing m with
  | nil => rfl
  | cons p l ih =>
    have hp : p.1 ≠ a := h p List.mem_cons_self
    rw [moveAll_cons, ih fun q hq => h q (List.mem_cons_of_mem _ hq), Function.update_of_ne hp.symm]

/-- **All at once**: a destination gets what its source held before the first move. -/
theorem moveAll_of_mem (hl : Untouched l) (h : (d, s) ∈ l) : moveAll l m d = m s := by
  induction l generalizing m with
  | nil => exact absurd h List.not_mem_nil
  | cons p l ih =>
    obtain ⟨hp, hl⟩ := List.pairwise_cons.mp hl
    rw [moveAll_cons]
    rcases List.mem_cons.mp h with rfl | h
    · -- its own turn is the last one that writes it
      rw [moveAll_of_ne fun q hq => (hp q hq).1.symm, Function.update_self]
    · -- its source is still there after the first move
      rw [ih hl h, Function.update_of_ne (hp _ h).2.symm]

end OwnOS.Lib
