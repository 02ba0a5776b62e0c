import Mathlib

/-!
# How kernel code fails to return

`panic` (`kerror.cpp:11-14`) prints its argument and spins; nothing after the call runs. A pointer
that is NULL or not mapped stops the kernel in an exception handler (`irq.cpp:16-75`, each of them
spins too). A loop over a damaged list never ends. A routine of the model returns `Except Halt`:
`ok` with its result, or the way it failed to return.
-/

namespace OwnOS

/-- The ways a kernel routine does not return. -/
inductive Halt where
  /-- `panic(msg)`. -/
  | panic (msg : String)
  /-- A NULL or unmapped pointer was followed. -/
  | fault
  /-- A loop that does not end. -/
  | hang
  deriving DecidableEq, Repr

/-- The result of a kernel routine. -/
abbrev Res := Except Halt

namespace Res

variable {α β : Type} {x : Res α} {f : α → Res β} {b : β}

/-- A sequence returns when its first part does and the rest does after it. -/
theorem bind_eq_ok : (x >>= f) = .ok b ↔ ∃ a, x = .ok a ∧ f a = .ok b := by
  cases x with
  | error e => simp [bind, Except.bind]
  | ok a => simp [bind, Except.bind]

theorem of_toOption {a : α} (h : x.toOption = some a) : x = .ok a := by
  cases x with
  | error e => exact absurd h (by simp [Except.toOption])
  | ok b => exact congrArg Except.ok (Option.some.inj h)

@[simp] theorem ok_bind (a : α) : ((.ok a : Res α) >>= f) = f a := rfl

@[simp] theorem error_bind (e : Halt) : ((.error e : Res α) >>= f) = .error e := rfl

@[simp] theorem pure_eq (a : α) : (pure a : Res α) = .ok a := rfl

end Res

end OwnOS
