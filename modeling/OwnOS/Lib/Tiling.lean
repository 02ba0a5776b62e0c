import Mathlib

/-!
# Blocks that tile an interval

Blocks of any type with an address and a size. `Tiles addr size a l e` says that the blocks `l` lie
end to end from `a` to `e`: each begins where the one before it ends. This is the geometry of an
arena cut into blocks; it says nothing of where the blocks are recorded.

The rules: tilings compose (`tiles_append`), the blocks of one lie in order and apart
(`Tiles.pairwise`), their sizes add up (`Tiles.sum`), and they go through the interval from its
start to its end (`Tiles.flatMap_range'`).
-/

namespace OwnOS.Lib

variable {β : Type} {addr size : β → Nat}

/-- The blocks `l` lie end to end from `a` to `e`. -/
def Tiles (addr size : β → Nat) : Nat → List β → Nat → Prop
  | a, [], e => a = e
  | a, b :: l, e => addr b = a ∧ Tiles addr size (a + size b) l e

variable {a e : Nat} {l l₁ l₂ : List β} {b : β}

@[simp] theorem tiles_nil : Tiles addr size a [] e ↔ a = e := Iff.rfl

@[simp] theorem tiles_cons :
    Tiles addr size a (b :: l) e ↔ addr b = a ∧ Tiles addr size (a + size b) l e := Iff.rfl

theorem tiles_append :
    Tiles addr size a (l₁ ++ l₂) e ↔ ∃ m, Tiles addr size a l₁ m ∧ Tiles addr size m l₂ e := by
  induction l₁ generalizing a with
  | nil => simp
  | cons b l₁ ih =>
    simp only [List.cons_append, tiles_cons, ih]
    constructor
    · rintro ⟨h, m, h1, h2⟩
      exact ⟨m, ⟨h, h1⟩, h2⟩
    · rintro ⟨m, ⟨h, h1⟩, h2⟩
      exact ⟨h, m, h1, h2⟩

namespace Tiles

theorem sum (h : Tiles addr size a l e) : a + (l.map size).sum = e := by
  induction l generalizing a with
  | nil => exact h
  | cons b l ih =>
    rw [List.map_cons, List.sum_cons, ← Nat.add_assoc]
    exact ih h.2

theorem le (h : Tiles addr size a l e) : a ≤ e := by
  have := h.sum
  omega

/-- A block lies inside the interval. -/
theorem bounds (h : Tiles addr size a l e) (hb : b ∈ l) : a ≤ addr b ∧ addr b + size b ≤ e := by
  induction l generalizing a with
  | nil => exact absurd hb List.not_mem_nil
  | cons c l ih =>
    obtain ⟨hc, hl⟩ := h
    rcases List.mem_cons.mp hb with rfl | hb
    · exact ⟨Nat.le_of_eq hc.symm, by rw [hc]; exact hl.le⟩
    · obtain ⟨h1, h2⟩ := ih hl hb
      exact ⟨by omega, h2⟩

/-- **The blocks lie in order and apart.** -/
theorem pairwise (h : Tiles addr size a l e) :
    l.Pairwise fun b c => addr b + size b ≤ addr c := by
  induction l generalizing a with
  | nil => exact List.Pairwise.nil
  | cons b l ih =>
    refine List.pairwise_cons.mpr ⟨fun c hc => ?_, ih h.2⟩
    rw [h.1]
    exact (h.2.bounds hc).1

/-- **One after the other the blocks are the interval.** -/
theorem flatMap_range' (h : Tiles addr size a l e) :
    l.flatMap (fun b => List.range' (addr b) (size b)) = List.range' a (e - a) := by
  induction l generalizing a with
  | nil =>
    obtain rfl : a = e := h
    rw [Nat.sub_self]
    rfl
  | cons b l ih =>
    have hle := h.2.le
    rw [List.flatMap_cons, ih h.2, h.1, List.range'_append_1]
    congr 1
    omega

/-- Any other block lies before or behind a given one. -/
theorem apart (h : Tiles addr size a (l₁ ++ b :: l₂) e) :
    (∀ c ∈ l₁, addr c + size c ≤ addr b) ∧ ∀ c ∈ l₂, addr b + size b ≤ addr c := by
  have hp := List.pairwise_append.mp h.pairwise
  exact ⟨fun c hc => hp.2.2 c hc b List.mem_cons_self, (List.pairwise_cons.mp hp.2.1).1⟩

end Tiles

end OwnOS.Lib
