import Mathlib

/-!
# Intrusive lists walked through pointers to pointers

Nodes of type `ι` carry one `next` pointer each, and a number of list heads `κ` point at them. A
C routine that walks such a list with a pointer to a pointer (`T **pp = &head; pp = &(*pp)->next`)
has a location `Loc` in hand: a head, or the `next` field of a node.

* `Links.Path L c l p`: from the location `c` the pointers lead through exactly the nodes `l`, and
  the pointer after the last of them is `p`. A NULL-terminated list is a path to `none`.
* `Loc.after c l`: the location the walk has in hand once it has passed the nodes `l`.

The rules: paths compose (`path_append`), a store outside a path's locations leaves it alone
(`Path.set_of_not_mem`), a store at a location of the path splices (`Path.splice`), so that a node
is put in (`Path.link`) or taken out (`Path.unlink`), the nodes of a NULL-terminated list are
determined by its start and distinct (`Path.unique`, `Path.nodup`).

`Links.Lists L Q` says that the heads hold the disjoint NULL-terminated lists `Q`; `Lists.link` puts
a node into one of them and `Lists.unlink` takes one out, each with the one store a C routine does
it by.
-/

namespace OwnOS.Lib

variable {κ ι : Type}

/-- The head and `next` pointers of a set of lists. -/
structure Links (κ ι : Type) where
  head : κ → Option ι
  next : ι → Option ι

/-- A pointer to a pointer: the address of a list head, or of a node's `next` field. -/
inductive Loc (κ ι : Type) where
  | head (k : κ)
  | next (i : ι)
  deriving DecidableEq

/-- The location in hand after walking past the nodes `l`. -/
def Loc.after (c : Loc κ ι) : List ι → Loc κ ι
  | [] => c
  | i :: l => Loc.after (.next i) l

@[simp] theorem Loc.after_nil (c : Loc κ ι) : c.after [] = c := rfl

@[simp] theorem Loc.after_cons (c : Loc κ ι) (i : ι) (l : List ι) :
    c.after (i :: l) = Loc.after (.next i) l := rfl

theorem Loc.after_append (c : Loc κ ι) (l₁ l₂ : List ι) :
    c.after (l₁ ++ l₂) = (c.after l₁).after l₂ := by
  induction l₁ generalizing c with
  | nil => rfl
  | cons i l₁ ih => exact ih _

/-- The location is the start, or the `next` field of a node that was passed. -/
theorem Loc.after_mem (c : Loc κ ι) (l : List ι) :
    c.after l = c ∨ ∃ i ∈ l, c.after l = .next i := by
  induction l generalizing c with
  | nil => exact Or.inl rfl
  | cons i l ih =>
    rcases ih (.next i) with h | ⟨j, hj, h⟩
    · exact Or.inr ⟨i, List.mem_cons_self, h⟩
    · exact Or.inr ⟨j, List.mem_cons_of_mem _ hj, h⟩

/-- The location past `pre` is not the `next` field of a node behind it, or of a node of no list. -/
theorem Loc.next_ne_after {k : κ} {i : ι} {pre : List ι} (hi : i ∉ pre) :
    (.next i : Loc κ ι) ≠ (Loc.head k).after pre := by
  intro e
  rcases Loc.after_mem (Loc.head k : Loc κ ι) pre with e' | ⟨j, hj, e'⟩
  · rw [e'] at e
    exact absurd e (by simp)
  · rw [e', Loc.next.injEq] at e
    exact hi (e ▸ hj)

namespace Links

/-- The pointer stored at a location. -/
def get (L : Links κ ι) : Loc κ ι → Option ι
  | .head k => L.head k
  | .next i => L.next i

/-- Store a pointer at a location. -/
def set [DecidableEq κ] [DecidableEq ι] (L : Links κ ι) (c : Loc κ ι) (p : Option ι) : Links κ ι :=
  match c with
  | .head k => { L with head := Function.update L.head k p }
  | .next i => { L with next := Function.update L.next i p }

/-- From the location `c` the pointers lead through exactly `l`, and then to `p`. -/
def Path (L : Links κ ι) (c : Loc κ ι) : List ι → Option ι → Prop
  | [], p => L.get c = p
  | i :: l, p => L.get c = some i ∧ Path L (.next i) l p

variable {L L' : Links κ ι} {c d : Loc κ ι} {l l₁ l₂ : List ι} {p q : Option ι}

@[simp] theorem path_nil : L.Path c [] p ↔ L.get c = p := Iff.rfl

@[simp] theorem path_cons {i : ι} : L.Path c (i :: l) p ↔ L.get c = some i ∧ L.Path (.next i) l p :=
  Iff.rfl

theorem path_append : L.Path c (l₁ ++ l₂) p ↔
    L.Path c l₁ (L.get (c.after l₁)) ∧ L.Path (c.after l₁) l₂ p := by
  induction l₁ generalizing c with
  | nil => simp
  | cons i l₁ ih =>
    simp only [List.cons_append, path_cons, Loc.after_cons, ih]
    tauto

/-- The pointer at the location a walk ends with. -/
theorem Path.get_after (h : L.Path c l p) : L.get (c.after l) = p := by
  induction l generalizing c with
  | nil => exact h
  | cons i l ih => exact ih h.2

/-- A path survives in any links that agree with it on its locations. -/
theorem Path.congr (h : L.Path c l p) (hc : L'.get c = L.get c)
    (hl : ∀ i ∈ l, L'.next i = L.next i) : L'.Path c l p := by
  induction l generalizing c with
  | nil => exact hc.trans h
  | cons i l ih =>
    refine ⟨hc.trans h.1, ih h.2 (hl i List.mem_cons_self) fun j hj => ?_⟩
    exact hl j (List.mem_cons_of_mem _ hj)

/-- Two NULL-terminated walks from one location pass the same nodes. -/
theorem Path.unique (h₁ : L.Path c l₁ none) (h₂ : L.Path c l₂ none) : l₁ = l₂ := by
  induction l₁ generalizing c l₂ with
  | nil =>
    cases l₂ with
    | nil => rfl
    | cons i l₂ => exact absurd (h₁.symm.trans h₂.1) (by simp)
  | cons i l₁ ih =>
    cases l₂ with
    | nil => exact absurd (h₂.symm.trans h₁.1) (by simp)
    | cons j l₂ =>
      obtain rfl : i = j := Option.some.inj (h₁.1.symm.trans h₂.1)
      rw [ih h₁.2 h₂.2]

/-- A NULL-terminated list has no cycle. -/
theorem Path.nodup (h : L.Path c l none) : l.Nodup := by
  induction l generalizing c with
  | nil => exact List.nodup_nil
  | cons i l ih =>
    refine List.nodup_cons.mpr ⟨fun hi => ?_, ih h.2⟩
    -- a second visit of `i` would leave two walks from its `next` field, of different lengths
    obtain ⟨a, b, rfl⟩ := List.append_of_mem hi
    have h2 := (path_append.mp h.2).2
    have := congrArg List.length (Path.unique h.2 h2.2)
    simp only [List.length_append, List.length_cons] at this
    omega

variable [DecidableEq κ] [DecidableEq ι]

@[simp] theorem get_set_self : (L.set c p).get c = p := by
  cases c <;> simp [set, get]

theorem get_set_of_ne (h : d ≠ c) : (L.set c p).get d = L.get d := by
  cases c <;> cases d <;> simp_all [set, get]

theorem next_set_of_ne {i : ι} (h : (.next i : Loc κ ι) ≠ c) : (L.set c p).next i = L.next i :=
  get_set_of_ne (L := L) h

/-- A store outside the locations of a path leaves it alone. -/
theorem Path.set_of_not_mem (h : L.Path c l p) (hc : c ≠ d) (hl : ∀ i ∈ l, (.next i) ≠ d) :
    (L.set d q).Path c l p :=
  h.congr (get_set_of_ne hc) fun i hi => next_set_of_ne (hl i hi)

/-- **Splicing**: after a store at the location reached past `l₁`, the list is `l₁` followed by
whatever the stored pointer leads to. -/
theorem Path.splice (h : L.Path c l₁ q) (hc : ∀ i ∈ l₁, c ≠ .next i) (hnd : l₁.Nodup)
    (h₂ : (L.set (c.after l₁) p).Path (c.after l₁) l₂ none) :
    (L.set (c.after l₁) p).Path c (l₁ ++ l₂) none := by
  induction l₁ generalizing c with
  | nil => exact h₂
  | cons i l₁ ih =>
    rw [List.nodup_cons] at hnd
    have hi : c ≠ Loc.after (.next i) l₁ := by
      rcases Loc.after_mem (.next i : Loc κ ι) l₁ with e | ⟨j, hj, e⟩
      · rw [e]; exact hc i List.mem_cons_self
      · rw [e]; exact hc j (List.mem_cons_of_mem _ hj)
    refine ⟨?_, ih h.2 (fun j hj e => ?_) hnd.2 h₂⟩
    · rw [Loc.after_cons, get_set_of_ne hi]
      exact h.1
    · rw [Loc.next.injEq] at e
      exact hnd.1 (e ▸ hj)

omit [DecidableEq κ] [DecidableEq ι] in
/-- The location past the front of a list belongs to no node of the rest. -/
theorem Path.ne_after {k : κ} {j : ι} (h : L.Path (.head k) (l₁ ++ l₂) none) (hj : j ∈ l₂) :
    (.next j : Loc κ ι) ≠ (Loc.head k).after l₁ :=
  Loc.next_ne_after fun hm => (List.nodup_append.mp h.nodup).2.2 j hm j hj rfl

/-- **Linking** a node in past `l₁`: it already points where the location there does. -/
theorem Path.link {k : κ} {i : ι} (h : L.Path (.head k) (l₁ ++ l₂) none) (hi : i ∉ l₁)
    (hnext : L.next i = L.get ((Loc.head k).after l₁)) :
    (L.set ((Loc.head k).after l₁) (some i)).Path (.head k) (l₁ ++ i :: l₂) none := by
  obtain ⟨hpre, hpost⟩ := path_append.mp h
  have hne : (.next i : Loc κ ι) ≠ (Loc.head k).after l₁ := Loc.next_ne_after hi
  refine hpre.splice (fun _ _ => by simp) (List.nodup_append.mp h.nodup).1 ⟨get_set_self, ?_⟩
  -- past the node the walk goes on where the location used to point
  cases l₂ with
  | nil => exact (get_set_of_ne hne).trans (hnext.trans hpost)
  | cons m l₂ =>
    refine ⟨(get_set_of_ne hne).trans (hnext.trans hpost.1), ?_⟩
    exact hpost.2.set_of_not_mem (h.ne_after List.mem_cons_self)
      fun j hj => h.ne_after (List.mem_cons_of_mem _ hj)

/-- **Unlinking** a node: the location before it takes its `next`. -/
theorem Path.unlink {k : κ} {i : ι} (h : L.Path (.head k) (l₁ ++ i :: l₂) none) :
    (L.set ((Loc.head k).after l₁) (L.next i)).Path (.head k) (l₁ ++ l₂) none := by
  obtain ⟨hpre, -, hpost⟩ := path_append.mp h
  have hne : ∀ j ∈ l₂, (.next j : Loc κ ι) ≠ (Loc.head k).after l₁ :=
    fun j hj => h.ne_after (List.mem_cons_of_mem _ hj)
  refine hpre.splice (fun _ _ => by simp) (List.nodup_append.mp h.nodup).1 ?_
  cases l₂ with
  | nil => exact get_set_self.trans hpost
  | cons m l₂ =>
    refine ⟨get_set_self.trans hpost.1, ?_⟩
    exact hpost.2.set_of_not_mem (hne m List.mem_cons_self)
      fun j hj => hne j (List.mem_cons_of_mem _ hj)

/-! ## All lists at once -/

/-- Each head `k` holds the NULL-terminated list `Q k`, and no node is in two of them. -/
structure Lists (L : Links κ ι) (Q : κ → List ι) : Prop where
  path : ∀ k, L.Path (.head k) (Q k) none
  disjoint : ∀ {k k' : κ} {i : ι}, i ∈ Q k → i ∈ Q k' → k = k'

namespace Lists

variable {Q : κ → List ι} {k k' : κ} {i : ι} {pre post : List ι}

omit [DecidableEq κ] [DecidableEq ι] in
theorem nodup (h : L.Lists Q) (k : κ) : (Q k).Nodup := (h.path k).nodup

/-- A store to the `next` field of a node that is in no list. -/
theorem set_next (h : L.Lists Q) (hi : ∀ k, i ∉ Q k) : (L.set (.next i) p).Lists Q where
  path k := by
    refine (h.path k).set_of_not_mem (by simp) ?_
    intro j hj e
    rw [Loc.next.injEq] at e
    exact hi k (e ▸ hj)
  disjoint := h.disjoint

/-- A store at a location of the list of `k` leaves the other lists alone. -/
theorem path_set_of_ne (h : L.Lists Q) (hQ : Q k = pre ++ post) (hk : k' ≠ k) :
    (L.set ((Loc.head k).after pre) p).Path (.head k') (Q k') none := by
  have hpre : ∀ j ∈ pre, j ∈ Q k := by
    intro j hj
    rw [hQ]
    exact List.mem_append_left _ hj
  refine (h.path k').set_of_not_mem ?_ ?_
  · intro e
    rcases Loc.after_mem (Loc.head k : Loc κ ι) pre with e' | ⟨j, -, e'⟩
    · rw [e', Loc.head.injEq] at e
      exact hk e
    · rw [e'] at e
      exact absurd e (by simp)
  · intro j hj
    exact Loc.next_ne_after fun hm => hk (h.disjoint hj (hpre j hm))

omit [DecidableEq ι] in
/-- Changing one list keeps them disjoint if every node it gets is in no other. -/
theorem disjoint_update (h : L.Lists Q) {l : List ι} (hl : ∀ j ∈ l, ∀ k', j ∈ Q k' → k' = k)
    {a b : κ} {j : ι} (ha : j ∈ Function.update Q k l a) (hb : j ∈ Function.update Q k l b) :
    a = b := by
  by_cases hak : a = k <;> by_cases hbk : b = k
  · rw [hak, hbk]
  · subst hak
    rw [Function.update_self] at ha
    rw [Function.update_of_ne hbk] at hb
    exact (hl j ha b hb).symm
  · subst hbk
    rw [Function.update_self] at hb
    rw [Function.update_of_ne hak] at ha
    exact hl j hb a ha
  · rw [Function.update_of_ne hak] at ha
    rw [Function.update_of_ne hbk] at hb
    exact h.disjoint ha hb

/-- **Linking** a node in at the location past `pre`: it already points where the location does. -/
theorem link (h : L.Lists Q) (hQ : Q k = pre ++ post) (hi : ∀ k, i ∉ Q k)
    (hnext : L.next i = L.get ((Loc.head k).after pre)) :
    (L.set ((Loc.head k).after pre) (some i)).Lists (Function.update Q k (pre ++ i :: post)) where
  path k' := by
    by_cases hk : k' = k
    · subst hk
      have hpath := h.path k'
      rw [hQ] at hpath
      rw [Function.update_self]
      refine hpath.link (fun hm => hi k' ?_) hnext
      rw [hQ]
      exact List.mem_append_left _ hm
    · rw [Function.update_of_ne hk]
      exact h.path_set_of_ne hQ hk
  disjoint := by
    refine h.disjoint_update ?_
    intro j hj k' hk'
    rcases List.mem_append.mp hj with hj | hj
    · refine h.disjoint hk' ?_
      rw [hQ]
      exact List.mem_append_left _ hj
    · rcases List.mem_cons.mp hj with rfl | hj
      · exact absurd hk' (hi k')
      · refine h.disjoint hk' ?_
        rw [hQ]
        exact List.mem_append_right _ hj

/-- **Unlinking** a node: the location before it takes its `next`. -/
theorem unlink (h : L.Lists Q) (hQ : Q k = pre ++ i :: post) :
    (L.set ((Loc.head k).after pre) (L.next i)).Lists (Function.update Q k (pre ++ post)) where
  path k' := by
    by_cases hk : k' = k
    · subst hk
      have hpath := h.path k'
      rw [hQ] at hpath
      rw [Function.update_self]
      exact hpath.unlink
    · rw [Function.update_of_ne hk]
      exact h.path_set_of_ne hQ hk
  disjoint := by
    refine h.disjoint_update ?_
    intro j hj k' hk'
    refine h.disjoint hk' ?_
    rw [hQ]
    rcases List.mem_append.mp hj with hj | hj
    · exact List.mem_append_left _ hj
    · exact List.mem_append_right _ (List.mem_cons_of_mem _ hj)

end Lists

end Links

end OwnOS.Lib
