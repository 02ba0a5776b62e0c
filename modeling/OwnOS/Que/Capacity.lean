import OwnOS.Que.Refine

/-!
# The capacity of `Que` (`KType.hpp:112-190`)

The pool has `N + 2` entries, two of which are the sentinels, so it is used up when the queue holds
`N` elements. The test of `enque` is `num > N`: it lets the next element through, `get` returns
NULL, and `enque` writes through it.

* `enque_safe_iff_room`: **a sequence of calls is safe if and only if it never puts an element into
  a queue that holds `N`.**
* `Rep.enque_full`: what happens otherwise, the fault.
-/

namespace OwnOS.Que

variable {T : Type} {N : Nat}

/-! ## What is asked of `enque` -/

/-- If `enque` passes its test then there is a free entry, and if the queue is full then `enque`
leaves it alone. -/
structure RejectsSafely (q : Que T N) (t : T) : Prop where
  free : ¬ q.num > N → q.get.2 ≠ none
  full : q.num = N → q.enque t = .ok q

/-- The queue never holds more than `N` elements, and every `enque` on the way rejects safely. -/
def SafeRun (eq : T → T → Bool) (q : Que T N) : List (Op T) → Prop
  | [] => q.num ≤ N
  | o :: os => q.num ≤ N ∧ (∀ t, o = .enque t → RejectsSafely q t) ∧
    ∀ r q', q.step eq o = .ok (r, q') → SafeRun eq q' os

/-! ## The pool -/

variable {q : Que T N} {h t : Ptr N} {ids : List (Ptr N)} {x : T}

/-- The entries of the list and the sentinels are distinct entries of the pool. -/
theorem Rep.length_le (hr : Rep q h t ids) : ids.length ≤ N := by
  have hle := hr.nodup.length_le_card
  simp only [List.length_cons, List.length_append, List.length_nil, Fintype.card_fin] at hle
  omega

/-- With `N` elements no entry is free. -/
theorem Rep.get_full (hr : Rep q h t ids) (hfull : ids.length = N) : q.get = (q, none) := by
  have hall : ∀ i, i ∈ h :: (ids ++ [t]) := by
    intro i
    by_contra hi
    have hle := (List.nodup_cons.mpr ⟨hi, hr.nodup⟩).length_le_card
    simp only [List.length_cons, List.length_append, List.length_nil, Fintype.card_fin] at hle
    omega
  have hnone : (List.finRange (N + 2)).find? q.isFree = none := by
    rw [List.find?_eq_none]
    intro i _
    simp [(hr.isFree i).mpr (hall i)]
  simp [Que.get, hnone]

/-- There is a free entry exactly while fewer than `N` elements are held. -/
theorem Rep.get_ne_none_iff (hr : Rep q h t ids) : q.get.2 ≠ none ↔ ids.length < N := by
  constructor
  · intro hget
    refine Nat.lt_of_le_of_ne hr.length_le ?_
    intro hfull
    rw [hr.get_full hfull] at hget
    exact hget rfl
  · intro hlt
    obtain ⟨i, -, hget⟩ := hr.get hlt
    simp [hget]

/-- **`enque` on a full queue writes through NULL.** -/
theorem Rep.enque_full (hr : Rep q h t ids) (hfull : ids.length = N) :
    q.enque x = .error .fault := by
  have hnum : ¬ q.num > N := by
    rw [hr.num]
    omega
  unfold Que.enque
  rw [if_neg hnum]
  simp only [hr.head, follow_some, Res.ok_bind, hr.get_full hfull]
  rfl

/-- `enque` rejects safely where there is room, and only there. -/
theorem Rep.rejectsSafely_iff (hr : Rep q h t ids) : RejectsSafely q x ↔ ids.length < N := by
  constructor
  · intro hsafe
    refine hr.get_ne_none_iff.mp (hsafe.free ?_)
    rw [hr.num]
    exact Nat.not_lt.mpr hr.length_le
  · intro hlt
    refine ⟨fun _ => hr.get_ne_none_iff.mpr hlt, ?_⟩
    intro hnum
    rw [hr.num] at hnum
    omega

/-! ## Sequences of calls -/

/-- The equivalence, from any represented queue. -/
theorem Rep.safeRun_iff (eq : T → T → Bool) :
    ∀ {os : List (Op T)} {q : Que T N} {ids : List (Ptr N)},
    Rep q h t ids → (SafeRun eq q os ↔ Room N eq q.invalid (ids.map q.content) os)
  | [], q, ids, hr => by
    simp only [SafeRun, Room, iff_true, hr.num]
    exact hr.length_le
  | o :: os, q, ids, hr => by
    have hroom : (∀ x, o = .enque x → RejectsSafely q x) ↔
        ∀ x, o = .enque x → (ids.map q.content).length < N := by
      simp only [hr.rejectsSafely_iff, List.length_map]
    simp only [SafeRun, Room, hroom]
    constructor
    · rintro ⟨-, hlt, hrest⟩
      obtain ⟨q', ids', hq', hr', hids, hinv⟩ := hr.step eq o hlt
      have hsafe := hrest _ _ hq'
      rw [Rep.safeRun_iff eq hr', hinv, hids] at hsafe
      exact ⟨hlt, hsafe⟩
    · rintro ⟨hlt, hrest⟩
      obtain ⟨q₁, ids₁, hq₁, hr₁, hids, hinv⟩ := hr.step eq o hlt
      refine ⟨hr.num ▸ hr.length_le, hlt, ?_⟩
      intro r q' hq'
      obtain ⟨-, rfl⟩ := Prod.mk.inj (Except.ok.inj (hq₁.symm.trans hq'))
      rw [Rep.safeRun_iff eq hr₁, hinv, hids]
      exact hrest

/-- **A full queue is safe exactly as long as nothing is put into it.** -/
theorem enque_safe_iff_room (eq : T → T → Bool) (invalid : T) (prev : Ptr N → Option (Ptr N))
    (content : Ptr N → T) (os : List (Op T)) :
    ∃ q₀, Que.init invalid prev content = .ok q₀ ∧
    (SafeRun eq q₀ os ↔ Room N eq invalid [] os) := by
  obtain ⟨q₀, hq₀, hr₀, rfl⟩ := init_rep invalid prev content
  exact ⟨q₀, hq₀, hr₀.safeRun_iff eq⟩

/-- A queue for one element, and two elements. -/
theorem enque_second_faults :
    ∃ q₀ q₁ : Que Nat 1, Que.init 0 (fun _ => none) (fun _ => 0) = .ok q₀ ∧
    q₀.enque 7 = .ok q₁ ∧ q₁.num = 1 ∧ q₁.get.2 = none ∧ q₁.enque 8 = .error .fault ∧
    ¬ SafeRun (· == ·) q₀ [.enque 7, .enque 8] := by
  obtain ⟨q₀, hq₀, hr₀, -⟩ := init_rep 0 (fun _ => none) (fun _ => 0)
  obtain ⟨i, q₁, hq₁, hr₁, -⟩ := hr₀.enque (x := 7) Nat.zero_lt_one
  refine ⟨q₀, q₁, hq₀, hq₁, hr₁.num, by rw [hr₁.get_full rfl], hr₁.enque_full rfl, ?_⟩
  rw [hr₀.safeRun_iff]
  simp [Room, listStep]

end OwnOS.Que
