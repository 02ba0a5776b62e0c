import Mathlib

/-!
# Calls that answer like a specification

A machine takes calls one after the other (`replay`), each with an answer, and may stop with an
error. A specification takes the same calls on an abstract state and always answers (`expected`).
When every call of the machine answers as the specification does and leaves a state that stands for
the specified one, so does every sequence of calls (`replay_refines`). Nothing here names a program.
-/

namespace OwnOS.Lib

variable {σ δ κ α ε : Type}

/-- The calls one after the other, with their answers. -/
def replay (step : σ → κ → Except ε (α × σ)) : σ → List κ → Except ε (List α × σ)
  | s, [] => .ok ([], s)
  | s, k :: ks =>
    match step s k with
    | .error e => .error e
    | .ok (a, s) =>
      match replay step s ks with
      | .error e => .error e
      | .ok (as, s) => .ok (a :: as, s)

/-- What the specification answers. -/
def expected (spec : δ → κ → α × δ) : δ → List κ → List α × δ
  | t, [] => ([], t)
  | t, k :: ks =>
    let (a, t) := spec t k
    let (as, t) := expected spec t ks
    (a :: as, t)

/-- **Every sequence of calls** answers as specified, when every call does. -/
theorem replay_refines (step : σ → κ → Except ε (α × σ)) (spec : δ → κ → α × δ) (abs : σ → δ)
    (I : σ → Prop) (ok : κ → Prop) {s : σ} {ks : List κ}
    (hstep : ∀ s k, I s → ok k → ∃ a s', step s k = .ok (a, s') ∧ I s' ∧
    spec (abs s) k = (a, abs s'))
    (hi : I s) (hok : ∀ k ∈ ks, ok k) :
    ∃ s', replay step s ks = .ok ((expected spec (abs s) ks).1, s') ∧ I s' ∧
      (expected spec (abs s) ks).2 = abs s' := by
  induction ks generalizing s with
  | nil => exact ⟨s, rfl, hi, rfl⟩
  | cons k ks ih =>
    obtain ⟨a, s', hs, hi', hspec⟩ := hstep s k hi (hok k List.mem_cons_self)
    obtain ⟨s'', hr, hi'', habs⟩ := ih hi' fun k hk => hok k (List.mem_cons_of_mem _ hk)
    refine ⟨s'', ?_, hi'', ?_⟩
    · rw [replay, hs, expected, hspec]
      dsimp only
      rw [hr]
    · rw [expected, hspec]
      exact habs

end OwnOS.Lib
