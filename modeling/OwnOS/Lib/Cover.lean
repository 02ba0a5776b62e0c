import Mathlib

/-!
# Lists that cover a set without overlap

`Covers f N P`: the sets `f x` of the items `x` of the list `N` are pairwise disjoint, and together
they are `P`. The rules change the list and keep the set: reordering, joining two items, splitting
one, dropping an empty one.
-/

namespace OwnOS.Lib

variable {α β : Type}

/-- The sets of the items are pairwise disjoint and make up `P`. -/
structure Covers (f : α → Set β) (N : List α) (P : Set β) : Prop where
  disjoint : N.Pairwise fun x y => Disjoint (f x) (f y)
  union : ∀ p, p ∈ P ↔ ∃ x ∈ N, p ∈ f x

namespace Covers

variable {f : α → Set β} {N N' : List α} {P : Set β} {c m s : α}

theorem nil : Covers f [] ∅ := ⟨List.Pairwise.nil, by simp⟩

theorem perm (h : Covers f N P) (hp : N.Perm N') : Covers f N' P where
  disjoint := (hp.pairwise_iff fun hd => hd.symm).mp h.disjoint
  union p := by
    rw [h.union p]
    exact exists_congr fun x => and_congr_left fun _ => hp.mem_iff

/-- No element lies in the sets of two items. -/
theorem eq_of_mem (h : Covers f N P) {x y : α} (hx : x ∈ N) (hy : y ∈ N) {p : β} (hpx : p ∈ f x)
    (hpy : p ∈ f y) : x = y := by
  by_contra hne
  have : Std.Symm fun x y => Disjoint (f x) (f y) := ⟨fun _ _ hd => hd.symm⟩
  exact Set.disjoint_left.mp (h.disjoint.forall hx hy hne) hpx hpy

/-- An item whose set is new joins the list and the set. -/
theorem cons (h : Covers f N P) (hd : Disjoint (f s) P) : Covers f (s :: N) (f s ∪ P) where
  disjoint := by
    refine List.pairwise_cons.mpr ⟨fun x hx => hd.mono_right fun p hp => ?_, h.disjoint⟩
    exact (h.union p).mpr ⟨x, hx, hp⟩
  union p := by
    simp only [Set.mem_union, h.union p, List.mem_cons, exists_eq_or_imp]

/-- Two items are joined to one. -/
theorem merge (h : Covers f (c :: s :: N) P) (hm : f m = f c ∪ f s) : Covers f (m :: N) P where
  disjoint := by
    obtain ⟨h1, h2⟩ := List.pairwise_cons.mp h.disjoint
    obtain ⟨h3, h4⟩ := List.pairwise_cons.mp h2
    refine List.pairwise_cons.mpr ⟨fun x hx => ?_, h4⟩
    rw [hm, Set.disjoint_union_left]
    exact ⟨h1 x (List.mem_cons_of_mem _ hx), h3 x hx⟩
  union p := by
    rw [h.union p]
    simp only [List.mem_cons, exists_eq_or_imp, hm, Set.mem_union]
    tauto

/-- One item is split in two. -/
theorem split (h : Covers f (m :: N) P) (hm : f m = f c ∪ f s) (hd : Disjoint (f c) (f s)) :
    Covers f (c :: s :: N) P where
  disjoint := by
    obtain ⟨h1, h2⟩ := List.pairwise_cons.mp h.disjoint
    have hx : ∀ x ∈ N, Disjoint (f c) (f x) ∧ Disjoint (f s) (f x) := fun x hx => by
      have := h1 x hx
      rwa [hm, Set.disjoint_union_left] at this
    refine List.pairwise_cons.mpr
      ⟨fun x hxm => ?_, List.pairwise_cons.mpr ⟨fun x hxm => (hx x hxm).2, h2⟩⟩
    rcases List.mem_cons.mp hxm with rfl | hxm
    · exact hd
    · exact (hx x hxm).1
  union p := by
    rw [h.union p]
    simp only [List.mem_cons, exists_eq_or_imp, hm, Set.mem_union]
    tauto

/-- Another item with the same set takes the place of one. -/
theorem replace (h : Covers f (c :: N) P) (hm : f m = f c) : Covers f (m :: N) P where
  disjoint := by
    obtain ⟨h1, h2⟩ := List.pairwise_cons.mp h.disjoint
    exact List.pairwise_cons.mpr ⟨fun x hx => hm ▸ h1 x hx, h2⟩
  union p := by
    rw [h.union p]
    simp only [List.mem_cons, exists_eq_or_imp, hm]

end Covers

end OwnOS.Lib
