import Mathlib

/-!
# Doubly linked lists

Nodes of type `ι` carry a `next` and a `prev` pointer each. `DLinks.Chain L l` says that neighbours
in `l` point at each other, and `DLinks.join` is the pair of stores that makes two nodes neighbours:
every edit of a doubly linked list is a `join` or two.

* `Chain.splice`: joining the last node of a chain to the first node of another gives one chain.
* `Chain.unlink`, `Chain.insert`: taking a node out, and putting one in.
* `Chain.follows_next`, `Chain.follows_prev`: a walk along `next` visits the nodes of a chain in
  order, a walk along `prev` in the opposite order.
-/

namespace OwnOS.Lib

variable {ι : Type}

/-- The pointers of a doubly linked list. -/
structure DLinks (ι : Type) where
  next : ι → Option ι
  prev : ι → Option ι

/-- Following `f` from `x` visits the nodes `l`, in this order. -/
def Follows (f : ι → Option ι) : ι → List ι → Prop
  | _, [] => True
  | x, y :: l => f x = some y ∧ Follows f y l

namespace DLinks

/-- `x` and `y` are neighbours. -/
def Joined (L : DLinks ι) (x y : ι) : Prop := L.next x = some y ∧ L.prev y = some x

/-- Consecutive nodes of `l` point at each other. -/
def Chain (L : DLinks ι) (l : List ι) : Prop := l.IsChain L.Joined

variable {L L' : DLinks ι} {l l₁ l₂ : List ι} {x y a : ι}

theorem chain_append : L.Chain (l₁ ++ x :: l₂) ↔ L.Chain (l₁ ++ [x]) ∧ L.Chain (x :: l₂) :=
  List.isChain_split

/-- The seam of two chains. -/
theorem chain_append_cons : L.Chain (l₁ ++ x :: y :: l₂) ↔
    L.Chain (l₁ ++ [x]) ∧ L.Joined x y ∧ L.Chain (y :: l₂) :=
  List.isChain_append_cons_cons

/-- A chain reads the `next` of all its nodes but the last, and the `prev` of all but the first. -/
theorem Chain.congr (h : L.Chain l) (hn : ∀ z ∈ l.dropLast, L'.next z = L.next z)
    (hp : ∀ z ∈ l.tail, L'.prev z = L.prev z) : L'.Chain l := by
  refine List.isChain_iff_forall_rel_of_append_cons_cons.mpr ?_
  rintro z w l₁ l₂ rfl
  obtain ⟨hz, hw⟩ := (chain_append_cons.mp h).2.1
  refine ⟨(hn z ?_).trans hz, (hp w ?_).trans hw⟩
  · rw [List.dropLast_append_of_ne_nil (by simp)]
    exact List.mem_append_right _ (by simp)
  · cases l₁ with
    | nil => exact List.mem_cons_self
    | cons v l₁ => exact List.mem_append_right _ (by simp)

/-! ## Walks -/

theorem Chain.follows_next (h : L.Chain (x :: l)) : Follows L.next x l := by
  induction l generalizing x with
  | nil => exact trivial
  | cons y l ih =>
    obtain ⟨hxy, hl⟩ := List.isChain_cons_cons.mp h
    exact ⟨hxy.1, ih hl⟩

theorem Chain.follows_prev (h : L.Chain (l ++ [x])) : Follows L.prev x l.reverse := by
  induction l using List.reverseRecOn generalizing x with
  | nil => exact trivial
  | append_singleton l y ih =>
    rw [List.append_assoc, List.singleton_append] at h
    obtain ⟨hl, hyx, -⟩ := chain_append_cons.mp h
    rw [List.reverse_append]
    exact ⟨hyx.2, ih hl⟩

/-! ## Edits -/

variable [DecidableEq ι]

/-- `x->next = y; y->prev = x;` -/
def join (L : DLinks ι) (x y : ι) : DLinks ι where
  next := Function.update L.next x (some y)
  prev := Function.update L.prev y (some x)

theorem joined_join : (L.join x y).Joined x y :=
  ⟨Function.update_self .., Function.update_self ..⟩

/-- A chain that `x` only ends and `y` only begins does not notice `join x y`. -/
theorem Chain.join (h : L.Chain l) (hx : x ∉ l.dropLast) (hy : y ∉ l.tail) :
    (L.join x y).Chain l := by
  refine h.congr ?_ ?_
  · intro z hz
    exact Function.update_of_ne (fun e : z = x => hx (e ▸ hz)) _ _
  · intro z hz
    exact Function.update_of_ne (fun e : z = y => hy (e ▸ hz)) _ _

/-- **Splicing**: `join` makes one chain of two. -/
theorem Chain.splice (h₁ : L.Chain (l₁ ++ [x])) (h₂ : L.Chain (y :: l₂))
    (hnd : (l₁ ++ x :: y :: l₂).Nodup) : (L.join x y).Chain (l₁ ++ x :: y :: l₂) := by
  obtain ⟨-, hnd₂, hdisj⟩ := List.nodup_append.mp hnd
  obtain ⟨hx, hnd₂⟩ := List.nodup_cons.mp hnd₂
  obtain ⟨hy, -⟩ := List.nodup_cons.mp hnd₂
  refine chain_append_cons.mpr ⟨h₁.join ?_ ?_, joined_join, h₂.join ?_ hy⟩
  · rw [List.dropLast_concat]
    exact fun hm => hdisj x hm x List.mem_cons_self rfl
  · intro hm
    rcases List.mem_append.mp (List.mem_of_mem_tail hm) with hm | hm
    · exact hdisj y hm y (List.mem_cons_of_mem _ List.mem_cons_self) rfl
    · exact hx (by simp [List.mem_singleton.mp hm])
  · exact fun hm => hx ((List.dropLast_subset _) hm)

/-- A node is taken out by joining its neighbours. -/
theorem Chain.unlink (h : L.Chain (l₁ ++ x :: a :: y :: l₂))
    (hnd : (l₁ ++ x :: a :: y :: l₂).Nodup) :
    (L.join x y).Chain (l₁ ++ x :: y :: l₂) := by
  obtain ⟨h₁, -, h₂⟩ := chain_append_cons.mp h
  refine h₁.splice (List.isChain_cons_cons.mp h₂).2 (hnd.sublist ?_)
  exact List.Sublist.append_left (List.Sublist.cons_cons _ (List.sublist_cons_self _ _)) _

/-- A node is put between two neighbours by joining it to both. -/
theorem Chain.insert (h : L.Chain (l₁ ++ x :: y :: l₂)) (hnd : (l₁ ++ x :: a :: y :: l₂).Nodup) :
    ((L.join a y).join x a).Chain (l₁ ++ x :: a :: y :: l₂) := by
  obtain ⟨h₁, -, h₂⟩ := chain_append_cons.mp h
  obtain ⟨-, hnd₂, hdisj⟩ := List.nodup_append.mp hnd
  obtain ⟨hx, hnd₂⟩ := List.nodup_cons.mp hnd₂
  have h₁' : (L.join a y).Chain (l₁ ++ [x]) := by
    refine h₁.join ?_ ?_
    · rw [List.dropLast_concat]
      exact fun hm => hdisj a hm a (by simp) rfl
    · intro hm
      rcases List.mem_append.mp (List.mem_of_mem_tail hm) with hm | hm
      · exact hdisj y hm y (by simp) rfl
      · exact hx (by simp [List.mem_singleton.mp hm])
  have h₂' : (L.join a y).Chain ([] ++ a :: y :: l₂) :=
    Chain.splice (List.isChain_singleton a) h₂ hnd₂
  exact h₁'.splice h₂' hnd

end DLinks

end OwnOS.Lib
