import Mathlib

/-!
# Multilevel feedback queues

Queues `Q k` at the levels `k : Fin (n + 1)`. A turn takes the first element of the first queue that
is not empty and puts it at the end of the queue one level down; from the last level it goes back to
the end of that level (`Turn`). `Turns` are turns one after the other, with the elements they took.

* `Turn.weighed`: what a turn does to a sum over all the queued elements. Weighed with `n - k` an
  element has the turns it still gets on its way down; with weights 1 nothing is lost
  (`Turns.perm`).
* `Turns.works`: while something is above the last level, every turn takes one from the work that is
  left, and one from the credit of the element it takes.
* `Turns.getElem?_of_settled`: once all are in the last level, the turns go round in its order.
-/

namespace OwnOS.Lib.Feedback

variable {n : ℕ} {α : Type} {Q Q' Q'' : Fin (n + 1) → List α} {a b : α}
  {k : Fin (n + 1)} {as bs : List α}

/-- The level below; the last is its own. -/
def lower (k : Fin (n + 1)) : Fin (n + 1) := if h : k.val + 1 < n + 1 then ⟨k.val + 1, h⟩ else k

/-- Put an element at the end of a queue. -/
def push (Q : Fin (n + 1) → List α) (k : Fin (n + 1)) (a : α) : Fin (n + 1) → List α :=
  Function.update Q k (Q k ++ [a])

/-- **One turn**: `a` leaves level `k`, the first that is not empty, for the level below. -/
inductive Turn (Q : Fin (n + 1) → List α) : α → (Fin (n + 1) → List α) → Prop
  | mk (k : Fin (n + 1)) (a : α) (l : List α) (hk : Q k = a :: l) (hfirst : ∀ j < k, Q j = []) :
      Turn Q a (push (Function.update Q k l) (lower k) a)

/-- Turns one after the other, and the elements they took. -/
inductive Turns : (Fin (n + 1) → List α) → List α → (Fin (n + 1) → List α) → Prop
  | nil (Q : Fin (n + 1) → List α) : Turns Q [] Q
  | cons {Q Q' Q'' : Fin (n + 1) → List α} {a : α} {as : List α} (hturn : Turn Q a Q')
      (hrest : Turns Q' as Q'') : Turns Q (a :: as) Q''

theorem lower_of_lt (h : k.val < n) : (lower k).val = k.val + 1 := by
  rw [lower, dif_pos (Nat.succ_lt_succ h)]

theorem lower_last : lower (Fin.last n) = Fin.last n :=
  dif_neg (Nat.lt_irrefl _)

/-! ## Turns are determined, and there is always one -/

theorem Turn.unique (h : Turn Q a Q') (h' : Turn Q b Q'') : a = b ∧ Q' = Q'' := by
  obtain ⟨k, a, l, hk, hfirst⟩ := h
  obtain ⟨k', b, l', hk', hfirst'⟩ := h'
  have hkk : k = k' := by
    rcases lt_trichotomy k k' with hlt | heq | hlt
    · exact absurd (hk.symm.trans (hfirst' k hlt)) (by simp)
    · exact heq
    · exact absurd (hk'.symm.trans (hfirst k' hlt)) (by simp)
  subst hkk
  obtain ⟨rfl, rfl⟩ := List.cons.inj (hk.symm.trans hk')
  exact ⟨rfl, rfl⟩

theorem exists_turn (h : ∃ k, Q k ≠ []) : ∃ a Q', Turn Q a Q' := by
  classical
  let k := Fin.find (fun k => Q k ≠ []) h
  obtain ⟨a, l, hk⟩ := List.exists_cons_of_ne_nil (Fin.find_spec h)
  refine ⟨a, _, Turn.mk k a l hk fun j hj => ?_⟩
  exact not_not.mp (Fin.find_min h hj)

theorem Turn.ne_nil (h : Turn Q a Q') : ∃ k, Q' k ≠ [] := by
  obtain ⟨k, a, l, hk, hfirst⟩ := h
  exact ⟨lower k, by simp [push]⟩

theorem Turns.unique (h : Turns Q as Q') (h' : Turns Q bs Q'') (hlen : as.length = bs.length) :
    as = bs ∧ Q' = Q'' := by
  induction h generalizing bs with
  | nil Q =>
    obtain rfl := List.eq_nil_of_length_eq_zero hlen.symm
    cases h'
    exact ⟨rfl, rfl⟩
  | cons hturn hrest ih =>
    cases h' with
    | nil => exact absurd hlen (by simp)
    | cons hturn' hrest' =>
      obtain ⟨rfl, rfl⟩ := hturn.unique hturn'
      obtain ⟨rfl, rfl⟩ := ih hrest' (Nat.succ.inj hlen)
      exact ⟨rfl, rfl⟩

theorem exists_turns (h : ∃ k, Q k ≠ []) (m : ℕ) : ∃ as Q', as.length = m ∧ Turns Q as Q' := by
  induction m generalizing Q with
  | zero => exact ⟨[], Q, rfl, .nil Q⟩
  | succ m ih =>
    obtain ⟨a, Q', hturn⟩ := exists_turn h
    obtain ⟨as, Q'', hlen, hrest⟩ := ih hturn.ne_nil
    exact ⟨a :: as, Q'', congrArg Nat.succ hlen, .cons hturn hrest⟩

theorem Turns.split {bs : List α} (h : Turns Q (as ++ bs) Q'') :
    ∃ Q', Turns Q as Q' ∧ Turns Q' bs Q'' := by
  induction as generalizing Q with
  | nil => exact ⟨Q, .nil Q, h⟩
  | cons a as ih =>
    cases h with
    | cons hturn hrest =>
      obtain ⟨Q', has, hbs⟩ := ih hrest
      exact ⟨Q', .cons hturn has, hbs⟩

/-! ## Sums over the queued elements -/

/-- The elements that `p` holds of, each with the weight of its level. -/
def weigh (w : Fin (n + 1) → ℕ) (p : α → Bool) (Q : Fin (n + 1) → List α) : ℕ :=
  ∑ k, w k * (Q k).countP p

theorem weigh_update (w : Fin (n + 1) → ℕ) (p : α → Bool) (Q : Fin (n + 1) → List α)
    (k : Fin (n + 1)) (l : List α) : weigh w p (Function.update Q k l) + w k * (Q k).countP p =
      weigh w p Q + w k * l.countP p := by
  have hrest : ∑ j ∈ Finset.univ.erase k, w j * (Function.update Q k l j).countP p =
      ∑ j ∈ Finset.univ.erase k, w j * (Q j).countP p := by
    refine Finset.sum_congr rfl fun j hj => ?_
    rw [Function.update_of_ne (Finset.ne_of_mem_erase hj)]
  unfold weigh
  rw [← Finset.add_sum_erase _ _ (Finset.mem_univ k), hrest, Function.update_self,
    ← Finset.add_sum_erase Finset.univ (fun j => w j * (Q j).countP p) (Finset.mem_univ k)]
  omega

/-- **A turn moves one element, and its weight, one level down.** -/
theorem Turn.weighed (h : Turn Q a Q') (w : Fin (n + 1) → ℕ) (p : α → Bool) :
    ∃ k, a ∈ Q k ∧ (∀ j < k, Q j = []) ∧
      weigh w p Q' + w k * [a].countP p = weigh w p Q + w (lower k) * [a].countP p := by
  obtain ⟨k, a, l, hk, hfirst⟩ := h
  refine ⟨k, by simp [hk], hfirst, ?_⟩
  have hpop := weigh_update w p Q k l
  have hpush := weigh_update w p (Function.update Q k l) (lower k)
    (Function.update Q k l (lower k) ++ [a])
  have hcons : (a :: l).countP p = [a].countP p + l.countP p := by
    rw [← List.countP_append, List.singleton_append]
  rw [hk, hcons, Nat.mul_add] at hpop
  rw [List.countP_append, Nat.mul_add] at hpush
  unfold push
  omega

/-- All the queued elements. -/
def all (Q : Fin (n + 1) → List α) : List α := (List.finRange (n + 1)).flatMap Q

theorem mem_all : a ∈ all Q ↔ ∃ k, a ∈ Q k := by
  simp [all]

theorem all_of_settled (h : ∀ k ≠ Fin.last n, Q k = []) : all Q = Q (Fin.last n) := by
  have hnil : ∀ k : Fin n, Q k.castSucc = [] := fun k => h _ (Fin.castSucc_lt_last k).ne
  simp [all, List.finRange_succ_last, List.flatMap_map, hnil]

theorem countP_all (p : α → Bool) : (all Q).countP p = weigh (fun _ => 1) p Q := by
  simp only [all, List.countP_flatMap, weigh, one_mul, Fin.sum_univ_def]
  rfl

section

variable [DecidableEq α]

theorem Turn.perm (h : Turn Q a Q') : (all Q').Perm (all Q) := by
  refine List.perm_iff_count.mpr fun b => ?_
  obtain ⟨k, -, -, hsum⟩ := h.weighed (fun _ => 1) (· == b)
  have hcount : ∀ R : Fin (n + 1) → List α, (all R).count b = weigh (fun _ => 1) (· == b) R :=
    fun R => countP_all _
  rw [hcount, hcount]
  omega

/-- **Nothing is lost.** -/
theorem Turns.perm (h : Turns Q as Q') : (all Q').Perm (all Q) := by
  induction h with
  | nil Q => exact .refl _
  | cons hturn _ ih => exact ih.trans hturn.perm

/-! ## The way down -/

/-- How often `b` is taken on its way to the last level. -/
def credit (Q : Fin (n + 1) → List α) (b : α) : ℕ := weigh (fun k => n - k.val) (· == b) Q

omit [DecidableEq α] in
/-- How many turns there are until all are in the last level. -/
def work (Q : Fin (n + 1) → List α) : ℕ := weigh (fun k => n - k.val) (fun _ => true) Q

omit [DecidableEq α] in
theorem work_eq_zero : work Q = 0 ↔ ∀ k ≠ Fin.last n, Q k = [] := by
  simp only [work, weigh, List.countP_true, Finset.sum_eq_zero_iff, Finset.mem_univ, true_imp_iff,
    Nat.mul_eq_zero, List.length_eq_zero_iff]
  refine forall_congr' fun k => ?_
  have hk : n - k.val = 0 ↔ k = Fin.last n := by
    rw [Fin.ext_iff, Fin.val_last]
    omega
  rw [hk]
  tauto

/-- While there is work left, a turn does some of it. -/
theorem Turn.works (h : Turn Q a Q') (hwork : work Q ≠ 0) :
    work Q' + 1 = work Q ∧ ∀ b, credit Q' b + [a].count b = credit Q b := by
  -- the turn is on a level above the last, because not all is there
  have hlevel : ∀ k, a ∈ Q k → (∀ j < k, Q j = []) → k.val < n := by
    intro k ha hfirst
    by_contra hk
    refine hwork (work_eq_zero.mpr fun j hj => hfirst j ?_)
    have : j.val ≠ n := fun e => hj (Fin.ext e)
    have := j.isLt
    rw [Fin.lt_def]
    omega
  have hweigh : ∀ p, weigh (fun k => n - k.val) p Q' + [a].countP p =
      weigh (fun k => n - k.val) p Q := by
    intro p
    obtain ⟨k, ha, hfirst, hsum⟩ := h.weighed (fun k => n - k.val) p
    have hk := hlevel k ha hfirst
    have hw : n - k.val = n - (lower k).val + 1 := by
      rw [lower_of_lt hk]
      omega
    simp only [hw, Nat.add_mul, one_mul] at hsum
    omega
  exact ⟨hweigh fun _ => true, fun b => hweigh (· == b)⟩

/-- **The way down**: as many turns as there is work are work, and each is on the credit of the
element it takes. -/
theorem Turns.works (h : Turns Q as Q') (hlen : as.length ≤ work Q) :
    work Q' + as.length = work Q ∧ ∀ b, credit Q' b + as.count b = credit Q b := by
  induction h with
  | nil Q => simp
  | @cons Q Q₁ Q' a as hturn _ ih =>
    rw [List.length_cons] at hlen ⊢
    obtain ⟨hwork, hcredit⟩ := hturn.works (Nat.ne_of_gt (Nat.lt_of_lt_of_le (Nat.succ_pos _) hlen))
    obtain ⟨hwork', hcredit'⟩ := ih (by omega)
    refine ⟨by omega, fun b => ?_⟩
    have hcons : (a :: as).count b = [a].count b + as.count b := by
      rw [← List.count_append, List.singleton_append]
    have := hcredit b
    have := hcredit' b
    omega

theorem credit_eq_zero (h : work Q = 0) (b : α) : credit Q b = 0 := by
  rw [credit, weigh, Finset.sum_eq_zero_iff]
  intro k _
  by_cases hk : k = Fin.last n
  · simp [hk]
  · simp [work_eq_zero.mp h k hk]

/-- An element that is queued once has the credit of its level. -/
theorem credit_of_mem (h : (all Q).Nodup) (hk : a ∈ Q k) : credit Q a = n - k.val := by
  obtain ⟨hnodup, hpair⟩ := List.nodup_flatMap.mp h
  have hone : (Q k).count a = 1 := List.count_eq_one_of_mem (hnodup k (List.mem_finRange k)) hk
  have hothers : ∀ j ≠ k, (Q j).count a = 0 := by
    intro j hj
    refine List.count_eq_zero_of_not_mem fun hm => ?_
    have hsymm : Std.Symm (Function.onFun List.Disjoint Q) := ⟨fun _ _ h => h.symm⟩
    exact hpair.forall (List.mem_finRange j) (List.mem_finRange k) hj hm hk
  calc credit Q a = (n - k.val) * (Q k).count a := by
        refine Finset.sum_eq_single_of_mem k (Finset.mem_univ k) fun j _ hj => ?_
        rw [← List.count, hothers j hj, Nat.mul_zero]
    _ = n - k.val := by rw [hone, Nat.mul_one]

end

/-! ## Going round -/

/-- A turn when all are in the last level. -/
theorem Turn.of_settled (h : Turn Q a Q') (hQ : ∀ k ≠ Fin.last n, Q k = []) :
    (∀ k ≠ Fin.last n, Q' k = []) ∧ ∃ l, Q (Fin.last n) = a :: l ∧ Q' (Fin.last n) = l ++ [a] := by
  obtain ⟨k, a, l, hk, -⟩ := h
  obtain rfl : k = Fin.last n := by
    by_contra hne
    exact absurd (hk.symm.trans (hQ k hne)) (by simp)
  rw [lower_last]
  refine ⟨fun j hj => ?_, l, hk, by simp [push]⟩
  rw [push, Function.update_of_ne hj, Function.update_of_ne hj]
  exact hQ j hj

/-- **Going round**: the last level is taken in its order, over and over. -/
theorem Turns.getElem?_of_settled (h : Turns Q as Q') (hQ : ∀ k ≠ Fin.last n, Q k = []) :
    (∀ k ≠ Fin.last n, Q' k = []) ∧ Q' (Fin.last n) = (Q (Fin.last n)).rotate as.length ∧
    ∀ i < as.length, as[i]? = (Q (Fin.last n))[i % (Q (Fin.last n)).length]? := by
  induction h with
  | nil Q => exact ⟨hQ, by simp, fun i hi => absurd hi (Nat.not_lt_zero i)⟩
  | @cons Q Q₁ Q' a as hturn _ ih =>
    obtain ⟨hQ₁, l, hl, hl₁⟩ := hturn.of_settled hQ
    obtain ⟨hQ', hrotate, hget⟩ := ih hQ₁
    have hone : Q₁ (Fin.last n) = (Q (Fin.last n)).rotate 1 := by
      rw [hl, hl₁, List.rotate_cons_succ, List.rotate_zero]
    rw [hone] at hrotate hget
    refine ⟨hQ', ?_, ?_⟩
    · rw [hrotate, List.rotate_rotate, List.length_cons, Nat.add_comm]
    · intro i hi
      cases i with
      | zero => simp [hl]
      | succ i =>
        have hpos : 0 < (Q (Fin.last n)).length := by simp [hl]
        rw [List.getElem?_cons_succ, hget i (Nat.lt_of_succ_lt_succ hi), List.length_rotate,
          List.getElem?_rotate (Nat.mod_lt _ hpos), Nat.mod_add_mod]

/-- Every stretch as long as the round is the round, from some place on. -/
theorem take_drop_eq_rotate {l : List α} {m d : ℕ} (h : ∀ i < m, as[d + i]? = l[i % l.length]?)
    {i : ℕ} (hi : i + l.length ≤ m) : (as.drop (d + i)).take l.length = l.rotate i := by
  refine List.ext_getElem? fun j => ?_
  by_cases hj : j < l.length
  · rw [List.getElem?_take_of_lt hj, List.getElem?_drop, List.getElem?_rotate hj, Nat.add_assoc,
      h (i + j) (by omega), Nat.add_comm j]
  · rw [List.getElem?_eq_none (by simp; omega), List.getElem?_eq_none (by simp; omega)]

end OwnOS.Lib.Feedback
