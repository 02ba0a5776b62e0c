import Mathlib

/-!
# Runs of a machine whose steps may stop

A machine is a step function `σ → ο → Except ε σ` over operations `ο`; `legal` says which
operations the environment may ask for in a state. `Run` is a finite run of legal operations that
all returned, and `Run.invariant` is the induction over it. `play` computes a run, so that a
concrete one can be exhibited by evaluation (`run_of_play`).
-/

namespace OwnOS.Lib

variable {σ ο ε : Type}

section

variable (step : σ → ο → Except ε σ) (legal : σ → ο → Prop)

/-- A run: every operation is legal in the state it is applied to, and returns. -/
inductive Run : σ → List ο → σ → Prop
  | nil (s : σ) : Run s [] s
  | cons {s s' s'' : σ} {o : ο} {os : List ο} (hl : legal s o) (hs : step s o = .ok s')
      (hr : Run s' os s'') : Run s (o :: os) s''

/-- The run of `os` from `s`, if every operation is legal and returns. -/
def play [∀ s o, Decidable (legal s o)] : σ → List ο → Option σ
  | s, [] => some s
  | s, o :: os =>
    if legal s o then
      match step s o with
      | .ok s' => play s' os
      | .error _ => none
    else none

end

variable {step : σ → ο → Except ε σ} {legal legal' : σ → ο → Prop} {s s' : σ} {os : List ο}

/-- **Invariants hold along runs**: what a legal step preserves holds in every state reached. -/
theorem Run.invariant {I : σ → Prop}
    (hstep : ∀ s o s', I s → legal s o → step s o = .ok s' → I s')
    (hr : Run step legal s os s') (hi : I s) : I s' := by
  induction hr with
  | nil s => exact hi
  | cons hl hs _ ih => exact ih (hstep _ _ _ hi hl hs)

/-- Invariants that speak of the operations done so far. -/
theorem Run.invariant_ops {I : List ο → σ → Prop}
    (hstep : ∀ os s o s', I os s → legal s o → step s o = .ok s' → I (os ++ [o]) s')
    (hr : Run step legal s os s') {done : List ο} (hi : I done s) : I (done ++ os) s' := by
  induction hr generalizing done with
  | nil s => rwa [List.append_nil]
  | cons hl hs _ ih =>
    have := ih (hstep _ _ _ _ hi hl hs)
    rwa [List.append_assoc] at this

/-- Asking for less of the environment leaves more runs. -/
theorem Run.mono (h : ∀ s o, legal s o → legal' s o) (hr : Run step legal s os s') :
    Run step legal' s os s' := by
  induction hr with
  | nil s => exact Run.nil s
  | cons hl hs _ ih => exact Run.cons (h _ _ hl) hs ih

/-- One run after another. -/
theorem Run.append {s'' : σ} {os' : List ο} (hr : Run step legal s os s')
    (hr' : Run step legal s' os' s'') : Run step legal s (os ++ os') s'' := by
  induction hr with
  | nil s => exact hr'
  | cons hl hs _ ih => exact Run.cons hl hs (ih hr')

/-- **Forward simulation**: where every legal step of a machine can be followed by another machine,
so can every run. -/
theorem Run.simulates {τ : Type} {step' : τ → ο → Except ε τ} {R : σ → τ → Prop}
    (hstep : ∀ s t o s', R s t → legal s o → step s o = .ok s' → ∃ t', step' t o = .ok t' ∧ R s' t')
    (hr : Run step legal s os s') {t : τ} (h : R s t) :
    ∃ t', Run step' (fun _ _ => True) t os t' ∧ R s' t' := by
  induction hr generalizing t with
  | nil s => exact ⟨t, Run.nil t, h⟩
  | cons hl hs _ ih =>
    obtain ⟨t₁, ht₁, h₁⟩ := hstep _ _ _ _ h hl hs
    obtain ⟨t₂, ht₂, h₂⟩ := ih h₁
    exact ⟨t₂, Run.cons trivial ht₁ ht₂, h₂⟩

theorem run_of_play [∀ s o, Decidable (legal s o)] (h : play step legal s os = some s') :
    Run step legal s os s' := by
  induction os generalizing s with
  | nil =>
    obtain rfl : s = s' := by simpa [play] using h
    exact Run.nil s
  | cons o os ih =>
    unfold play at h
    split at h
    · rename_i hl
      split at h
      · rename_i t ht
        exact Run.cons hl ht (ih h)
      · exact absurd h (by simp)
    · exact absurd h (by simp)

theorem ok_of_toOption {α : Type} {x : Except ε α} {y : α} (h : x.toOption = some y) :
    x = .ok y := by
  cases x with
  | ok z => exact congrArg _ (Option.some.inj h)
  | error e => exact absurd h (by simp [Except.toOption])

end OwnOS.Lib
