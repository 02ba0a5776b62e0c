import OwnOS.Halt
import OwnOS.Lib.Run
import OwnOS.Timer.Model

/-!
# Timers fire once and on time

Runs of `set`, `reset_quantum` and `timerHandler` in any order. `alarms` are the calls of a run that
make an entry, numbered in order. `Alarm.due` is the tick at which an alarm has to be handled: the
`c`-th after its `set` (the next one for `c = 0`).

* `Record`: what the timer remembers of a run is what its calls say. The alarms that were cancelled
  are those of a quantum that a later `reset_quantum` replaced before its time (`Removed`).
* `timers_onTime`: after every run the list is ordered and has at most one `TaskSwitch` entry, and
  the next call of `timerHandler` handles exactly the alarms of the run that are due in this tick
  and were not removed, in order of their clocks, ties in order of insertion. It sets
  `quantum_exceeded` for a `TaskSwitch` among them and calls `wakeup` for each `Wakeup` (`OnTime`).
-/

namespace OwnOS.Timer

open OwnOS.Lib

/-- The calls of a run. -/
inductive Op where
  | set (clocks : Int) (kind : Kind) (prId : Int)
  | resetQuantum (clocks : Int) (prId : Int)
  | tick
  deriving DecidableEq

/-- One call. -/
def step (t : Timer) : Op → Res Timer
  | .set clocks kind prId => .ok (t.set clocks kind prId)
  | .resetQuantum clocks prId => .ok (t.resetQuantum clocks prId)
  | .tick => .ok t.handler.1

/-- Clocks are not negative, and only `reset_quantum` makes `TaskSwitch` entries. -/
def Legal (_ : Timer) : Op → Prop
  | .set clocks kind _ => 0 ≤ clocks ∧ kind ≠ .taskSwitch
  | .resetQuantum clocks _ => 0 ≤ clocks
  | .tick => True

instance (t : Timer) : DecidablePred (Legal t)
  | .set clocks kind _ => inferInstanceAs (Decidable (0 ≤ clocks ∧ kind ≠ .taskSwitch))
  | .resetQuantum clocks _ => inferInstanceAs (Decidable (0 ≤ clocks))
  | .tick => isTrue trivial

/-- The tick that has to handle the alarm. -/
def Alarm.due (a : Alarm) : Nat := a.born + max a.clocks.toNat 1

/-- The clocks the alarm has left at tick `n`. -/
def Alarm.left (a : Alarm) (n : Nat) : Int := a.clocks - (n - a.born)

/-- Earlier clocks first, ties in order of insertion. -/
def Before (x y : Entry) : Prop :=
  x.clocks < y.clocks ∨ x.clocks = y.clocks ∧ x.alarm.serial < y.alarm.serial

/-- The order in which alarms are handled. -/
def HandledBefore (x y : Nat × Alarm) : Prop :=
  x.1 < y.1 ∨ x.1 = y.1 ∧
    (x.2.left x.1 < y.2.left y.1 ∨ x.2.left x.1 = y.2.left y.1 ∧ x.2.serial < y.2.serial)

/-! ## What the calls of a run ask for -/

/-- The ticks of a run. -/
def nrTicks (ops : List Op) : Nat := ops.count .tick

/-- The alarms that calls make, in order: the first is number `serial`, after `n` ticks. -/
def alarmsFrom : Nat → Nat → List Op → List Alarm
  | _, _, [] => []
  | serial, n, .set clocks kind prId :: ops =>
    ⟨kind, prId, clocks, serial, n⟩ :: alarmsFrom (serial + 1) n ops
  | serial, n, .resetQuantum clocks prId :: ops =>
    ⟨.taskSwitch, prId, clocks, serial, n⟩ :: alarmsFrom (serial + 1) n ops
  | serial, n, .tick :: ops => alarmsFrom serial (n + 1) ops

def alarms (ops : List Op) : List Alarm := alarmsFrom 0 0 ops

/-- A later `reset_quantum` came before the quantum was over. -/
def Removed (ops : List Op) (a : Alarm) : Prop :=
  a.kind = .taskSwitch ∧
    ∃ b ∈ alarms ops, b.kind = .taskSwitch ∧ a.serial < b.serial ∧ b.born < a.due

/-- The alarm is to be handled in the tick that comes next. -/
def DueNext (ops : List Op) (a : Alarm) : Prop :=
  a ∈ alarms ops ∧ a.due = nrTicks ops + 1 ∧ ¬ Removed ops a

/-- **What the timers promise** after the calls `ops`: the order of the list, and what the next call
of `timerHandler` does, whatever `quantum_exceeded` was before. -/
structure OnTime (ops : List Op) (t : Timer) : Prop where
  ordered : t.head.Pairwise fun x y => x.clocks ≤ y.clocks
  oneSwitch : (t.head.filter (·.alarm.kind = .taskSwitch)).length ≤ 1
  handled : ∀ a, a ∈ t.handler.2.map (·.alarm) ↔ DueNext ops a
  inOrder : (t.handler.2.map fun e => (nrTicks ops + 1, e.alarm)).Pairwise HandledBefore
  quantum : ∀ q, ({ t with quantumExceeded := q }).handler.1.quantumExceeded = true ↔
    q = true ∨ ∃ a, DueNext ops a ∧ a.kind = .taskSwitch
  woken : ∀ p, p ∈ wakeups t.handler.2 ↔ ∃ a, DueNext ops a ∧ a.kind = .wakeup ∧ a.prId = p

/-- What a run keeps. -/
structure Inv (t : Timer) : Prop where
  left : ∀ e ∈ t.head, e.clocks = e.alarm.left t.ticks ∧ t.ticks < e.alarm.due
  order : t.head.Pairwise Before
  oneSwitch : (t.head.filter (·.alarm.kind = .taskSwitch)).length ≤ 1
  account : t.made.Perm (t.head.map (·.alarm) ++ (t.fired.map (·.2) ++ t.cancelled))
  fresh : ∀ a ∈ t.made, a.serial < t.serial ∧ a.born ≤ t.ticks ∧ 0 ≤ a.clocks
  serials : (t.made.map (·.serial)).Nodup
  onTime : ∀ x ∈ t.fired, x.1 = x.2.due ∧ x.1 ≤ t.ticks
  handled : t.fired.Pairwise HandledBefore
  cancelled : ∀ a ∈ t.cancelled, a.kind = .taskSwitch

variable {t t' : Timer} {l : List Entry} {e : Entry} {o : Op} {clocks : Int}
  {kind : Kind} {prId : Int}

/-! ## The loops -/

theorem insert_perm (e : Entry) (l : List Entry) : (insert e l).Perm (e :: l) := by
  induction l with
  | nil => exact List.Perm.refl _
  | cons x l ih =>
    unfold insert
    split
    · exact List.Perm.refl _
    · exact (ih.cons x).trans (List.Perm.swap e x l)

/-- An entry newer than those of an ordered list goes to its place. -/
theorem insert_order (h : l.Pairwise Before) (hnew : ∀ x ∈ l, x.alarm.serial < e.alarm.serial) :
    (insert e l).Pairwise Before := by
  induction l with
  | nil => exact List.pairwise_singleton _ _
  | cons x l ih =>
    have hx := (List.pairwise_cons.mp h).1
    unfold insert
    split
    · rename_i hlt
      refine List.pairwise_cons.mpr ⟨?_, h⟩
      intro y hy
      rcases List.mem_cons.mp hy with rfl | hy
      · exact Or.inl hlt
      · rcases hx y hy with hxy | ⟨hxy, -⟩
        · exact Or.inl (Int.lt_trans hlt hxy)
        · exact Or.inl (hxy ▸ hlt)
    · rename_i hle
      refine List.pairwise_cons.mpr
        ⟨?_, ih h.of_cons fun y hy => hnew y (List.mem_cons_of_mem _ hy)⟩
      intro y hy
      rcases List.mem_cons.mp ((insert_perm e l).mem_iff.mp hy) with rfl | hy
      · rcases Int.lt_or_eq_of_le (Int.not_lt.mp hle) with hlt | heq
        · exact Or.inl hlt
        · exact Or.inr ⟨heq, hnew x List.mem_cons_self⟩
      · exact hx y hy

/-- The loop of the handler splits the list. -/
theorem expire_append (l : List Entry) : (expire l).1 ++ (expire l).2 = l := by
  induction l with
  | nil => rfl
  | cons e l ih =>
    unfold expire
    split
    · rfl
    · exact congrArg (e :: ·) ih

theorem expire_due (l : List Entry) : ∀ e ∈ (expire l).1, e.clocks ≤ 0 := by
  induction l with
  | nil => simp [expire]
  | cons e l ih =>
    unfold expire
    split
    · simp
    · rename_i hle
      intro x hx
      rcases List.mem_cons.mp hx with rfl | hx
      · exact Int.not_lt.mp hle
      · exact ih x hx

/-- What is behind the first entry that is not due is not due. -/
theorem expire_rest (h : l.Pairwise Before) : ∀ e ∈ (expire l).2, 0 < e.clocks := by
  induction l with
  | nil => simp [expire]
  | cons e l ih =>
    have he := (List.pairwise_cons.mp h).1
    unfold expire
    split
    · rename_i hpos
      intro x hx
      rcases List.mem_cons.mp hx with rfl | hx
      · exact hpos
      · rcases he x hx with hlt | ⟨heq, -⟩
        · exact Int.lt_trans hpos hlt
        · exact heq ▸ hpos
    · exact ih h.of_cons

theorem passClocks_order (h : l.Pairwise Before) (n : Int) : (passClocks n l).Pairwise Before := by
  unfold passClocks
  rw [List.pairwise_map]
  refine h.imp ?_
  rintro x y (hlt | ⟨heq, hs⟩)
  · exact Or.inl (Int.sub_lt_sub_right hlt n)
  · exact Or.inr ⟨by simp only [heq], hs⟩

/-! ## The steps -/

theorem init_inv : Inv Timer.init := by
  constructor <;> simp [Timer.init]

/-- `set` with clocks that are not negative, and no second `TaskSwitch` entry. -/
theorem Inv.set (h : Inv t) (hc : 0 ≤ clocks)
    (hk : kind ≠ .taskSwitch ∨ ∀ e ∈ t.head, e.alarm.kind ≠ .taskSwitch) :
    Inv (t.set clocks kind prId) := by
  have hperm : (t.set clocks kind prId).head.Perm
      (⟨clocks, ⟨kind, prId, clocks, t.serial, t.ticks⟩⟩ :: t.head) := insert_perm _ _
  have hmade : ∀ e ∈ t.head, e.alarm ∈ t.made := by
    intro e he
    exact h.account.mem_iff.mpr (List.mem_append_left _ (List.mem_map_of_mem he))
  constructor
  · intro e he
    rcases List.mem_cons.mp (hperm.mem_iff.mp he) with rfl | he
    · simp only [Timer.set, Alarm.left, Alarm.due]
      omega
    · exact h.left e he
  · exact insert_order h.order fun x hx => (h.fresh _ (hmade x hx)).1
  · rw [(hperm.filter _).length_eq, List.filter_cons]
    split
    · rename_i hsw
      have hsw : kind = .taskSwitch := of_decide_eq_true hsw
      have hnone : t.head.filter (·.alarm.kind = .taskSwitch) = [] := by
        rw [List.filter_eq_nil_iff]
        intro e he
        simpa using hk.resolve_left (fun hne => hne hsw) e he
      rw [hnone]
      exact Nat.le_refl _
    · exact h.oneSwitch
  · exact (h.account.cons _).trans ((hperm.map (·.alarm)).append_right _).symm
  · intro a ha
    rcases List.mem_cons.mp ha with rfl | ha
    · exact ⟨Nat.lt_succ_self _, Nat.le_refl _, hc⟩
    · obtain ⟨h₁, h₂, h₃⟩ := h.fresh a ha
      exact ⟨Nat.lt_succ_of_lt h₁, h₂, h₃⟩
  · refine List.nodup_cons.mpr ⟨?_, h.serials⟩
    intro hm
    obtain ⟨a, ha, heq⟩ := List.mem_map.mp hm
    exact absurd heq (Nat.ne_of_lt (h.fresh a ha).1)
  · exact h.onTime
  · exact h.handled
  · exact h.cancelled

/-- The first part of `reset_quantum`: the `TaskSwitch` entries go. -/
theorem Inv.dropSwitch (h : Inv t) : Inv { t with
    head := t.head.filter (·.alarm.kind ≠ .taskSwitch)
    cancelled := (t.head.filter (·.alarm.kind = .taskSwitch)).map (·.alarm) ++ t.cancelled } := by
  have hsub : (t.head.filter (·.alarm.kind ≠ .taskSwitch)).Sublist t.head := List.filter_sublist
  constructor
  · intro e he
    exact h.left e (hsub.subset he)
  · exact h.order.sublist hsub
  · refine Nat.le_trans ?_ h.oneSwitch
    exact (hsub.filter _).length_le
  · refine h.account.trans ?_
    have hsplit : (t.head.map (·.alarm)).Perm
      ((t.head.filter (·.alarm.kind ≠ .taskSwitch)).map (·.alarm) ++
        (t.head.filter (·.alarm.kind = .taskSwitch)).map (·.alarm)) := by
      rw [← List.map_append]
      refine List.Perm.map _ ?_
      have := List.filter_append_perm (fun e : Entry => decide (e.alarm.kind ≠ .taskSwitch)) t.head
      simpa using this.symm
    refine (hsplit.append_right _).trans ?_
    rw [List.append_assoc]
    refine List.Perm.append_left _ ?_
    rw [← List.append_assoc, ← List.append_assoc]
    exact List.Perm.append_right _ List.perm_append_comm
  · exact h.fresh
  · exact h.serials
  · exact h.onTime
  · exact h.handled
  · intro a ha
    rcases List.mem_append.mp ha with ha | ha
    · obtain ⟨e, he, rfl⟩ := List.mem_map.mp ha
      simpa using (List.mem_filter.mp he).2
    · exact h.cancelled a ha

theorem Inv.resetQuantum (h : Inv t) (hc : 0 ≤ clocks) : Inv (t.resetQuantum clocks prId) := by
  refine h.dropSwitch.set hc (Or.inr ?_)
  intro e he
  simpa using (List.mem_filter.mp he).2

/-- The alarms a tick handles are the ones that are due. -/
theorem Inv.due (h : Inv t) : ∀ e ∈ (expire (passClocks 1 t.head)).1,
    e.clocks = e.alarm.left (t.ticks + 1) ∧ t.ticks + 1 = e.alarm.due := by
  intro e he
  have hle := expire_due _ e he
  have hmem : e ∈ passClocks 1 t.head := by
    rw [← expire_append (passClocks 1 t.head)]
    exact List.mem_append_left _ he
  obtain ⟨x, hx, rfl⟩ := List.mem_map.mp hmem
  obtain ⟨hleft, hlt⟩ := h.left x hx
  have hmade := h.account.mem_iff.mpr (List.mem_append_left _ (List.mem_map_of_mem hx))
  obtain ⟨-, hborn, hpos⟩ := h.fresh _ hmade
  simp only [Alarm.left, Alarm.due] at *
  omega

/-- Those it leaves are not due. -/
theorem Inv.rest (h : Inv t) : ∀ e ∈ (expire (passClocks 1 t.head)).2,
    e.clocks = e.alarm.left (t.ticks + 1) ∧ t.ticks + 1 < e.alarm.due := by
  intro e he
  have hpos := expire_rest (passClocks_order h.order 1) e he
  have hmem : e ∈ passClocks 1 t.head := by
    rw [← expire_append (passClocks 1 t.head)]
    exact List.mem_append_right _ he
  obtain ⟨x, hx, rfl⟩ := List.mem_map.mp hmem
  obtain ⟨hleft, hlt⟩ := h.left x hx
  simp only [Alarm.left, Alarm.due] at *
  omega

/-- The `TaskSwitch` entries of a list, counted by their alarms. -/
theorem switches_length (l : List Entry) : (l.filter (·.alarm.kind = .taskSwitch)).length =
    ((l.map (·.alarm)).filter (·.kind = .taskSwitch)).length := by
  rw [List.filter_map, List.length_map]
  rfl

theorem Inv.handler (h : Inv t) : Inv t.handler.1 := by
  have hsplit := expire_append (passClocks 1 t.head)
  have hdue : (expire (passClocks 1 t.head)).1.Sublist (passClocks 1 t.head) := by
    have := List.sublist_append_left (expire (passClocks 1 t.head)).1
      (expire (passClocks 1 t.head)).2
    rwa [hsplit] at this
  have hrest : (expire (passClocks 1 t.head)).2.Sublist (passClocks 1 t.head) := by
    have := List.sublist_append_right (expire (passClocks 1 t.head)).1
      (expire (passClocks 1 t.head)).2
    rwa [hsplit] at this
  have horder := passClocks_order h.order 1
  have halarms : (passClocks 1 t.head).map (·.alarm) = t.head.map (·.alarm) := by
    unfold passClocks
    rw [List.map_map]
    rfl
  have hfired : t.handler.1.fired =
      t.fired ++ (expire (passClocks 1 t.head)).1.map fun e => (t.ticks + 1, e.alarm) := rfl
  constructor
  · exact h.rest
  · exact horder.sublist hrest
  · have hle := h.oneSwitch
    rw [switches_length, ← halarms, ← switches_length] at hle
    exact Nat.le_trans (hrest.filter _).length_le hle
  · have hold := h.account
    rw [← halarms, ← hsplit, List.map_append] at hold
    refine hold.trans ?_
    rw [hfired, List.map_append, List.map_map, List.append_assoc, List.append_assoc]
    exact List.perm_append_comm_assoc _ _ _ |>.trans
      (List.Perm.append_left _ (List.perm_append_comm_assoc _ _ _))
  · intro a ha
    obtain ⟨h₁, h₂, h₃⟩ := h.fresh a ha
    exact ⟨h₁, Nat.le_succ_of_le h₂, h₃⟩
  · exact h.serials
  · intro x hx
    rw [hfired] at hx
    rcases List.mem_append.mp hx with hx | hx
    · obtain ⟨h₁, h₂⟩ := h.onTime x hx
      exact ⟨h₁, Nat.le_succ_of_le h₂⟩
    · obtain ⟨e, he, rfl⟩ := List.mem_map.mp hx
      exact ⟨(h.due e he).2, Nat.le_refl _⟩
  · rw [hfired]
    refine List.pairwise_append.mpr ⟨h.handled, ?_, ?_⟩
    · rw [List.pairwise_map]
      refine (horder.sublist hdue).imp_of_mem ?_
      rintro x y hx hy hxy
      refine Or.inr ⟨rfl, ?_⟩
      rw [← (h.due x hx).1, ← (h.due y hy).1]
      exact hxy
    · intro x hx y hy
      obtain ⟨e, -, rfl⟩ := List.mem_map.mp hy
      exact Or.inl (Nat.lt_succ_of_le (h.onTime x hx).2)
  · exact h.cancelled

/-- **One call keeps the invariant.** -/
theorem Inv.step (h : Inv t) (hl : Legal t o) (hs : Timer.step t o = .ok t') : Inv t' := by
  cases o with
  | set clocks kind prId =>
    obtain rfl := Except.ok.inj hs
    exact h.set hl.1 (Or.inl hl.2)
  | resetQuantum clocks prId =>
    obtain rfl := Except.ok.inj hs
    exact h.resetQuantum hl
  | tick =>
    obtain rfl := Except.ok.inj hs
    exact h.handler

/-! ## What the timer remembers -/

theorem alarmsFrom_append (ops' : List Op) : ∀ (serial n : Nat) (ops : List Op),
    alarmsFrom serial n (ops ++ ops') = alarmsFrom serial n ops ++
      alarmsFrom (serial + (alarmsFrom serial n ops).length) (n + nrTicks ops) ops'
  | serial, n, [] => rfl
  | serial, n, .set clocks kind prId :: ops => by
    have hticks : nrTicks (.set clocks kind prId :: ops) = nrTicks ops :=
      List.count_cons_of_ne (by simp)
    simp only [List.cons_append, alarmsFrom, alarmsFrom_append ops' (serial + 1) n ops, hticks,
      List.length_cons, Nat.add_assoc, Nat.add_comm 1]
  | serial, n, .resetQuantum clocks prId :: ops => by
    have hticks : nrTicks (.resetQuantum clocks prId :: ops) = nrTicks ops :=
      List.count_cons_of_ne (by simp)
    simp only [List.cons_append, alarmsFrom, alarmsFrom_append ops' (serial + 1) n ops, hticks,
      List.length_cons, Nat.add_assoc, Nat.add_comm 1]
  | serial, n, .tick :: ops => by
    have hticks : nrTicks (.tick :: ops) = nrTicks ops + 1 := List.count_cons_self
    simp only [List.cons_append, alarmsFrom, alarmsFrom_append ops' serial (n + 1) ops, hticks,
      Nat.add_assoc, Nat.add_comm 1]

section Calls

variable {ops ops' : List Op} {a b : Alarm}

theorem alarms_set (ops : List Op) (clocks : Int) (kind : Kind) (prId : Int) :
    alarms (ops ++ [.set clocks kind prId])
      = alarms ops ++ [⟨kind, prId, clocks, (alarms ops).length, nrTicks ops⟩] := by
  unfold alarms
  rw [alarmsFrom_append, Nat.zero_add, Nat.zero_add]
  rfl

theorem alarms_resetQuantum (ops : List Op) (clocks prId : Int) :
    alarms (ops ++ [.resetQuantum clocks prId])
      = alarms ops ++ [⟨.taskSwitch, prId, clocks, (alarms ops).length, nrTicks ops⟩] := by
  unfold alarms
  rw [alarmsFrom_append, Nat.zero_add, Nat.zero_add]
  rfl

theorem alarms_tick (ops : List Op) : alarms (ops ++ [.tick]) = alarms ops := by
  unfold alarms
  rw [alarmsFrom_append]
  exact List.append_nil _

theorem nrTicks_tick (ops : List Op) : nrTicks (ops ++ [.tick]) = nrTicks ops + 1 := by
  unfold nrTicks
  rw [List.count_append]
  rfl

theorem nrTicks_other (ops : List Op) {o : Op} (ho : o ≠ .tick) :
    nrTicks (ops ++ [o]) = nrTicks ops := by
  unfold nrTicks
  rw [List.count_append, List.count_singleton, if_neg (by simpa using ho), Nat.add_zero]

/-- One more alarm removes the quantum it replaces. -/
theorem removed_append (h : alarms ops' = alarms ops ++ [b]) : Removed ops' a ↔ Removed ops a ∨
    a.kind = .taskSwitch ∧ b.kind = .taskSwitch ∧ a.serial < b.serial ∧ b.born < a.due := by
  unfold Removed
  rw [h]
  constructor
  · rintro ⟨hk, x, hx, hrest⟩
    rcases List.mem_append.mp hx with hx | hx
    · exact .inl ⟨hk, x, hx, hrest⟩
    · obtain rfl := List.mem_singleton.mp hx
      exact .inr ⟨hk, hrest⟩
  · rintro (⟨hk, x, hx, hrest⟩ | ⟨hk, hrest⟩)
    · exact ⟨hk, x, List.mem_append_left _ hx, hrest⟩
    · exact ⟨hk, b, List.mem_append_right _ (List.mem_singleton_self b), hrest⟩

/-- Without a further alarm nothing is removed. -/
theorem removed_congr (h : alarms ops' = alarms ops) : Removed ops' a ↔ Removed ops a := by
  unfold Removed
  rw [h]

end Calls

/-- The state after the calls `ops`: what it remembers is what the calls say. -/
structure Record (ops : List Op) (t : Timer) : Prop where
  inv : Inv t
  made : t.made = (alarms ops).reverse
  serial : t.serial = (alarms ops).length
  ticks : t.ticks = nrTicks ops
  cancelled : ∀ a, a ∈ t.cancelled ↔ a ∈ alarms ops ∧ Removed ops a

namespace Record

variable {ops : List Op} {a : Alarm}

theorem init : Record [] Timer.init where
  inv := init_inv
  made := rfl
  serial := rfl
  ticks := rfl
  cancelled a := by simp [Timer.init, alarms, alarmsFrom]

theorem mem_made (h : Record ops t) : a ∈ t.made ↔ a ∈ alarms ops := by
  rw [h.made, List.mem_reverse]

/-- An alarm whose tick is still to come is in the list, unless it was cancelled. -/
theorem head_or_cancelled (h : Record ops t) (ha : a ∈ alarms ops) (hlt : t.ticks < a.due) :
    a ∈ t.head.map (·.alarm) ∨ a ∈ t.cancelled := by
  rcases List.mem_append.mp (h.inv.account.mem_iff.mp (h.mem_made.mpr ha)) with hm | hm
  · exact .inl hm
  · rcases List.mem_append.mp hm with hm | hm
    · obtain ⟨x, hx, rfl⟩ := List.mem_map.mp hm
      obtain ⟨heq, hle⟩ := h.inv.onTime x hx
      omega
    · exact .inr hm

theorem set (h : Record ops t) (hc : 0 ≤ clocks) (hk : kind ≠ .taskSwitch) :
    Record (ops ++ [.set clocks kind prId]) (t.set clocks kind prId) where
  inv := h.inv.set hc (.inl hk)
  made := by
    rw [alarms_set, List.reverse_append, ← h.made, ← h.serial, ← h.ticks]
    rfl
  serial := by
    rw [alarms_set, List.length_append, ← h.serial]
    rfl
  ticks := h.ticks.trans (nrTicks_other ops (o := .set clocks kind prId) (by simp)).symm
  cancelled a := by
    have happ := alarms_set ops clocks kind prId
    refine (h.cancelled a).trans ?_
    rw [removed_append happ, happ]
    constructor
    · rintro ⟨ha, hr⟩
      exact ⟨List.mem_append_left _ ha, .inl hr⟩
    · rintro ⟨ha, hr | ⟨-, hb, -⟩⟩
      · rcases List.mem_append.mp ha with ha | ha
        · exact ⟨ha, hr⟩
        · obtain rfl := List.mem_singleton.mp ha
          exact absurd hr.1 hk
      · exact absurd hb hk

theorem resetQuantum (h : Record ops t) (hc : 0 ≤ clocks) :
    Record (ops ++ [.resetQuantum clocks prId]) (t.resetQuantum clocks prId) where
  inv := h.inv.resetQuantum hc
  made := by
    rw [alarms_resetQuantum, List.reverse_append, ← h.made, ← h.serial, ← h.ticks]
    rfl
  serial := by
    rw [alarms_resetQuantum, List.length_append, ← h.serial]
    rfl
  ticks := h.ticks.trans (nrTicks_other ops (o := .resetQuantum clocks prId) (by simp)).symm
  cancelled a := by
    have happ := alarms_resetQuantum ops clocks prId
    have hfresh (x : Alarm) (hx : x ∈ alarms ops) : x.serial < (alarms ops).length :=
      h.serial ▸ (h.inv.fresh x (h.mem_made.mpr hx)).1
    show a ∈ (t.head.filter (·.alarm.kind = .taskSwitch)).map (·.alarm) ++ t.cancelled ↔ _
    rw [removed_append happ, happ]
    constructor
    · intro ha
      rcases List.mem_append.mp ha with ha | ha
      · -- the quantum that is replaced
        obtain ⟨e, he, rfl⟩ := List.mem_map.mp ha
        obtain ⟨he, hk⟩ := List.mem_filter.mp he
        have hmade : e.alarm ∈ alarms ops := h.mem_made.mp
          (h.inv.account.mem_iff.mpr (List.mem_append_left _ (List.mem_map_of_mem he)))
        exact ⟨List.mem_append_left _ hmade, .inr ⟨of_decide_eq_true hk, rfl, hfresh _ hmade,
          h.ticks ▸ (h.inv.left e he).2⟩⟩
      · obtain ⟨ha, hr⟩ := (h.cancelled a).mp ha
        exact ⟨List.mem_append_left _ ha, .inl hr⟩
    · rintro ⟨ha, hr | ⟨hk, -, hlt, hborn⟩⟩
      · refine List.mem_append_right _ ((h.cancelled a).mpr ⟨?_, hr⟩)
        rcases List.mem_append.mp ha with ha | ha
        · exact ha
        · obtain rfl := List.mem_singleton.mp ha
          obtain ⟨-, x, hx, -, hlt, -⟩ := hr
          exact absurd hlt (Nat.not_lt.mpr (hfresh x hx).le)
      · rcases List.mem_append.mp ha with ha | ha
        · rcases h.head_or_cancelled ha (h.ticks ▸ hborn) with hm | hm
          · obtain ⟨e, he, rfl⟩ := List.mem_map.mp hm
            exact List.mem_append_left _
              (List.mem_map_of_mem (List.mem_filter.mpr ⟨he, decide_eq_true hk⟩))
          · exact List.mem_append_right _ hm
        · obtain rfl := List.mem_singleton.mp ha
          exact absurd hlt (Nat.lt_irrefl _)

theorem tick (h : Record ops t) : Record (ops ++ [.tick]) t.handler.1 where
  inv := h.inv.handler
  made := (alarms_tick ops).symm ▸ h.made
  serial := (alarms_tick ops).symm ▸ h.serial
  ticks := (congrArg (· + 1) h.ticks).trans (nrTicks_tick ops).symm
  cancelled a := by
    rw [removed_congr (alarms_tick ops), alarms_tick]
    exact h.cancelled a

/-- **One call keeps the record.** -/
theorem step (h : Record ops t) (hl : Legal t o) (hs : Timer.step t o = .ok t') :
    Record (ops ++ [o]) t' := by
  cases o with
  | set clocks kind prId =>
    obtain rfl := Except.ok.inj hs
    exact h.set hl.1 hl.2
  | resetQuantum clocks prId =>
    obtain rfl := Except.ok.inj hs
    exact h.resetQuantum hl
  | tick =>
    obtain rfl := Except.ok.inj hs
    exact h.tick

/-! ## What the next tick does -/

/-- No alarm is in two places. -/
theorem nodup (h : Record ops t) :
    (t.head.map (·.alarm) ++ (t.fired.map (·.2) ++ t.cancelled)).Nodup :=
  h.inv.account.nodup_iff.mp (List.Nodup.of_map _ h.inv.serials)

theorem mem_due_iff (h : Record ops t) (a : Alarm) :
    a ∈ t.handler.2.map (·.alarm) ↔ DueNext ops a := by
  have hsplit := expire_append (passClocks 1 t.head)
  have halarms : (passClocks 1 t.head).map (·.alarm) = t.head.map (·.alarm) := by
    unfold passClocks
    rw [List.map_map]
    rfl
  show a ∈ (expire (passClocks 1 t.head)).1.map (·.alarm) ↔ _
  constructor
  · intro ha
    obtain ⟨e, he, rfl⟩ := List.mem_map.mp ha
    have hhead : e.alarm ∈ t.head.map (·.alarm) := by
      rw [← halarms, ← hsplit, List.map_append]
      exact List.mem_append_left _ ha
    have hmade : e.alarm ∈ alarms ops :=
      h.mem_made.mp (h.inv.account.mem_iff.mpr (List.mem_append_left _ hhead))
    refine ⟨hmade, h.ticks ▸ (h.inv.due e he).2.symm, fun hr => ?_⟩
    have hc := (h.cancelled e.alarm).mpr ⟨hmade, hr⟩
    exact (List.nodup_append.mp h.nodup).2.2 _ hhead _ (List.mem_append_right _ hc) rfl
  · rintro ⟨ha, hdue, hr⟩
    rw [← h.ticks] at hdue
    have hhead : a ∈ (passClocks 1 t.head).map (·.alarm) := by
      rw [halarms]
      exact (h.head_or_cancelled ha (by omega)).resolve_right fun hc => hr ((h.cancelled a).mp hc).2
    rw [← hsplit, List.map_append] at hhead
    refine (List.mem_append.mp hhead).resolve_right fun hrest => ?_
    obtain ⟨e, he, rfl⟩ := List.mem_map.mp hrest
    have := (h.inv.rest e he).2
    omega

theorem due_inOrder (h : Record ops t) :
    (t.handler.2.map fun e => (nrTicks ops + 1, e.alarm)).Pairwise HandledBefore := by
  have hsub : (expire (passClocks 1 t.head)).1.Sublist (passClocks 1 t.head) := by
    have := List.sublist_append_left (expire (passClocks 1 t.head)).1
      (expire (passClocks 1 t.head)).2
    rwa [expire_append] at this
  rw [List.pairwise_map]
  refine ((passClocks_order h.inv.order 1).sublist hsub).imp_of_mem ?_
  intro x y hx hy hxy
  refine Or.inr ⟨rfl, ?_⟩
  rw [← h.ticks, ← (h.inv.due x hx).1, ← (h.inv.due y hy).1]
  exact hxy

theorem quantum_iff (h : Record ops t) (q : Bool) :
    ({ t with quantumExceeded := q }).handler.1.quantumExceeded = true ↔
      q = true ∨ ∃ a, DueNext ops a ∧ a.kind = .taskSwitch := by
  show (q || t.handler.2.any (·.alarm.kind = .taskSwitch)) = true ↔ _
  rw [Bool.or_eq_true, List.any_eq_true]
  refine or_congr_right ⟨?_, ?_⟩
  · rintro ⟨e, he, hk⟩
    exact ⟨e.alarm, (h.mem_due_iff _).mp (List.mem_map_of_mem he), of_decide_eq_true hk⟩
  · rintro ⟨a, ha, hk⟩
    obtain ⟨e, he, rfl⟩ := List.mem_map.mp ((h.mem_due_iff a).mpr ha)
    exact ⟨e, he, decide_eq_true hk⟩

theorem mem_wakeups_iff (h : Record ops t) (p : Int) :
    p ∈ wakeups t.handler.2 ↔ ∃ a, DueNext ops a ∧ a.kind = .wakeup ∧ a.prId = p := by
  constructor
  · intro hp
    obtain ⟨e, he, rfl⟩ := List.mem_map.mp hp
    obtain ⟨he, hk⟩ := List.mem_filter.mp he
    exact ⟨e.alarm, (h.mem_due_iff _).mp (List.mem_map_of_mem he), of_decide_eq_true hk, rfl⟩
  · rintro ⟨a, ha, hk, rfl⟩
    obtain ⟨e, he, rfl⟩ := List.mem_map.mp ((h.mem_due_iff a).mpr ha)
    exact List.mem_map_of_mem (f := fun e : Entry => e.alarm.prId)
      (List.mem_filter.mpr ⟨he, decide_eq_true hk⟩)

theorem result (h : Record ops t) : OnTime ops t where
  ordered := h.inv.order.imp fun hxy => hxy.elim Int.le_of_lt fun heq => Int.le_of_eq heq.1
  oneSwitch := h.inv.oneSwitch
  handled := h.mem_due_iff
  inOrder := h.due_inOrder
  quantum := h.quantum_iff
  woken := h.mem_wakeups_iff

end Record

/-- **Timers fire exactly once and on time**, after every run. -/
theorem timers_onTime {ops : List Op} (hr : Run Timer.step Legal Timer.init ops t) :
    OnTime ops t :=
  (hr.invariant_ops (I := Record) (fun _ _ _ _ hi hl hs => hi.step hl hs) Record.init).result

/-- Two sleepers that are due in the next tick, and a quantum that is reset to end there. -/
def twoSleepers : List Op :=
  [.set 2 .wakeup 101, .resetQuantum 3 101, .tick, .set 1 .wakeup 102, .resetQuantum 1 102]

/-- The next tick handles both sleepers and the second quantum. -/
theorem timers_onTime_twoSleepers : ∃ t, Run Timer.step Legal Timer.init twoSleepers t ∧
    wakeups t.handler.2 = [101, 102] ∧ t.handler.1.quantumExceeded = true ∧
    OnTime twoSleepers t := by
  have hplay : (play Timer.step Legal Timer.init twoSleepers).map (fun t =>
      (wakeups t.handler.2, t.handler.1.quantumExceeded)) = some ([101, 102], true) := by
    decide +kernel
  obtain ⟨t, ht, hf⟩ := Option.map_eq_some_iff.mp hplay
  obtain ⟨hw, hq⟩ := Prod.mk.inj hf
  exact ⟨t, run_of_play ht, hw, hq, timers_onTime (run_of_play ht)⟩

end OwnOS.Timer
