import Mathlib

/-!
# Growing a partial map by fresh values

A partial map that a program builds up: entries are added and never changed, and each new one gets a
value that nothing uses yet. `Extends used ws f f' used'` says that `f'` is `f` with new entries at
exactly the points `ws` that had none. The values in use are `used` before and `used'` after.

The rules: nothing to add (`Extends.refl`), one entry (`Extends.update`), one step after another
(`Extends.trans`), and part of the map (`Extends.comp`). So a loop over the points extends the map
at all of them, and the new values are different from each other and from all old ones.
-/

namespace OwnOS.Lib

variable {α β : Type}

/-- `f'` extends `f` at the points `ws` by values that were not in use. -/
structure Extends (used : Set β) (ws : Set α) (f f' : α → Option β) (used' : Set β) : Prop where
  keeps : ∀ x y, f x = some y → f' x = some y
  defined : ∀ x ∈ ws, ∃ y, f' x = some y
  only : ∀ x y, f x = none → f' x = some y → x ∈ ws
  fresh : ∀ x y, f x = none → f' x = some y → y ∉ used ∧ y ∈ used'
  inj : ∀ x x' y, f x = none → f x' = none → f' x = some y → f' x' = some y → x = x'
  grows : used ⊆ used'

variable {used used' used'' : Set β} {ws ws' : Set α} {f f' f'' : α → Option β} {x z : α} {y v : β}

/-- A new entry keeps the others. -/
theorem update_some [DecidableEq α] (hx : f x = none) (hz : f z = some v) :
    Function.update f x (some y) z = some v := by
  rw [Function.update_of_ne ?_, hz]
  rintro rfl
  rw [hx] at hz
  exact absurd hz (by simp)

/-- What is new is the new entry. -/
theorem eq_of_update [DecidableEq α] (hz : f z = none)
    (hv : Function.update f x (some y) z = some v) :
    z = x ∧ v = y := by
  by_cases he : z = x
  · subst he
    rw [Function.update_self] at hv
    exact ⟨rfl, (Option.some.inj hv).symm⟩
  · rw [Function.update_of_ne he, hz] at hv
    exact absurd hv (by simp)

namespace Extends

/-- A point the map has, or not. -/
theorem cases (h : Extends used ws f f' used') (hx : f' x = some y) :
    f x = some y ∨ f x = none := by
  cases hf : f x with
  | none => exact Or.inr rfl
  | some z =>
    left
    rw [← hx, h.keeps x z hf]

/-- There is nothing to add. -/
theorem refl (hw : ∀ x ∈ ws, ∃ y, f x = some y) : Extends used ws f f used where
  keeps _ _ h := h
  defined := hw
  only x y h h' := by
    rw [h] at h'
    exact absurd h' (by simp)
  fresh x y h h' := by
    rw [h] at h'
    exact absurd h' (by simp)
  inj x x' y h _ h' _ := by
    rw [h] at h'
    exact absurd h' (by simp)
  grows := subset_rfl

/-- **One entry after another.** -/
theorem trans (h : Extends used ws f f' used') (h' : Extends used' ws' f' f'' used'') :
    Extends used (ws ∪ ws') f f'' used'' where
  keeps x y hx := h'.keeps x y (h.keeps x y hx)
  defined x hx := by
    rcases hx with hx | hx
    · obtain ⟨y, hy⟩ := h.defined x hx
      exact ⟨y, h'.keeps x y hy⟩
    · exact h'.defined x hx
  only x y hx hx'' := by
    rcases h'.cases hx'' with hx' | hx'
    · exact Or.inl (h.only x y hx hx')
    · exact Or.inr (h'.only x y hx' hx'')
  fresh x y hx hx'' := by
    rcases h'.cases hx'' with hx' | hx'
    · obtain ⟨h1, h2⟩ := h.fresh x y hx hx'
      exact ⟨h1, h'.grows h2⟩
    · obtain ⟨h1, h2⟩ := h'.fresh x y hx' hx''
      exact ⟨fun hy => h1 (h.grows hy), h2⟩
  inj x x' y hx hx' hy hy' := by
    -- a value of the first step is in use when the second begins
    rcases h'.cases hy with hm | hm
    · rcases h'.cases hy' with hm' | hm'
      · exact h.inj x x' y hx hx' hm hm'
      · exact absurd (h.fresh x y hx hm).2 (h'.fresh x' y hm' hy').1
    · rcases h'.cases hy' with hm' | hm'
      · exact absurd (h.fresh x' y hx' hm').2 (h'.fresh x y hm hy).1
      · exact h'.inj x x' y hm hm' hy hy'
  grows := h.grows.trans h'.grows

/-- **Part of the map**: the points that an injective function names. -/
theorem comp {γ : Type} {g : γ → α} (h : Extends used ws f f' used') (hg : Function.Injective g) :
    Extends used (Set.preimage g ws) (fun x => f (g x)) (fun x => f' (g x)) used' where
  keeps x y hx := h.keeps (g x) y hx
  defined x hx := h.defined (g x) hx
  only x y hx hx' := h.only (g x) y hx hx'
  fresh x y hx hx' := h.fresh (g x) y hx hx'
  inj x x' y hx hx' hy hy' := hg (h.inj (g x) (g x') y hx hx' hy hy')
  grows := h.grows

/-- **One entry** with a new value. -/
theorem update [DecidableEq α] (hx : f x = none) (hy : y ∉ used) (hy' : y ∈ used')
    (hu : used ⊆ used') :
    Extends used {x} f (Function.update f x (some y)) used' := by
  refine ⟨fun _ _ hz => update_some hx hz, ?_, fun _ _ hz hv => (eq_of_update hz hv).1, ?_, ?_, hu⟩
  · rintro z rfl
    exact ⟨y, Function.update_self _ _ _⟩
  · intro z v hz hv
    obtain ⟨-, rfl⟩ := eq_of_update hz hv
    exact ⟨hy, hy'⟩
  · intro z z' v hz hz' hv hv'
    rw [(eq_of_update hz hv).1, (eq_of_update hz' hv').1]

end Extends

end OwnOS.Lib
