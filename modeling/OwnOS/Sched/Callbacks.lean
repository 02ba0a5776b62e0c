import OwnOS.Sched.Calls

/-!
# Callbacks of sleeping processes

`sleep(callback)` stores the callback in `ret_from`. `schedule` calls what it finds there, and puts
the default back, only when the process it selects is not the current one.

* `CalledOnce s c`: the callback of the sleep `c` was called at the first selection of its process
  since, and at no other.
* `callbacks_once`: this holds for every sleep of every run in which no process goes to sleep with a
  callback while an earlier one of its is stored, and no `schedule` selects the current process
  while a callback of it is stored.
-/

namespace OwnOS.Sched

open Lib

variable {s s' t : Sched} {p q : ProcPtr} {pid : Int} {o : Op} {c : Sleep}

/-- The selection called the callback of the sleep with this number. -/
def Selection.Calls (x : Selection) (serial : Nat) : Prop := ∃ f, x.func = some (.callback f serial)

/-- The process has not been selected since it went to sleep. -/
def Pending (sel : List Selection) (c : Sleep) : Prop := ∀ x ∈ sel.drop c.since, x.proc ≠ c.proc

/-- **The callback is called at the first selection of its process since the sleep, and at no
other.** -/
def CalledOnce (sel : List Selection) (c : Sleep) : Prop :=
  ∀ i x, sel[i]? = some x →
    (x.Calls c.serial ↔ c.since ≤ i ∧ x.proc = c.proc ∧ Pending (sel.take i) c)

/-- No callback is stored for the process. -/
def Idle (s : Sched) (p : ProcPtr) : Prop := (s.room p).retFrom = .kernel2user

instance : Decidable (s.Idle p) := inferInstanceAs (Decidable (_ = _))

/-- `sleep(callback)` finds no earlier callback stored, and `schedule` does not select the current
process while a callback of it is stored. -/
def Prompt (s : Sched) : Op → Prop
  | .sleepCallback _ => ∀ p, s.pCurrent = some p → s.Idle p
  | .schedule => s.Requested → ∀ k p, s.firstHead = some (k, p) → s.pCurrent = some p → s.Idle p
  | _ => True

instance : DecidablePred s.Prompt
  | .sleepCallback _ => inferInstanceAs (Decidable (∀ p, s.pCurrent = some p → s.Idle p))
  | .schedule => inferInstanceAs
      (Decidable (s.Requested → ∀ k p, s.firstHead = some (k, p) → s.pCurrent = some p → s.Idle p))
  | .initTasks => isTrue trivial
  | .fork => isTrue trivial
  | .sleep _ _ => isTrue trivial
  | .wakeup _ => isTrue trivial
  | .waitInterrupt _ => isTrue trivial
  | .notify _ => isTrue trivial
  | .tick => isTrue trivial

/-! ## One more selection -/

section

variable {sel : List Selection} {x : Selection}

theorem pending_append (hc : c.since ≤ sel.length) :
    Pending (sel ++ [x]) c ↔ Pending sel c ∧ x.proc ≠ c.proc := by
  unfold Pending
  rw [List.drop_append_of_le_length hc]
  simp [or_imp, forall_and]

/-- What a selection has to call. -/
theorem CalledOnce.append (h : CalledOnce sel c) (hc : c.since ≤ sel.length)
    (hx : x.Calls c.serial ↔ x.proc = c.proc ∧ Pending sel c) : CalledOnce (sel ++ [x]) c := by
  intro i y hy
  rcases Nat.lt_trichotomy i sel.length with hi | rfl | hi
  · rw [List.getElem?_append_left hi] at hy
    rw [List.take_append_of_le_length (Nat.le_of_lt hi)]
    exact h i y hy
  · rw [List.getElem?_concat_length] at hy
    obtain rfl := Option.some.inj hy
    rw [List.take_left, hx]
    exact ⟨fun h => ⟨hc, h⟩, fun h => h.2⟩
  · have hlen : (sel ++ [x]).length ≤ i := by
      rw [List.length_append]
      exact hi
    rw [List.getElem?_eq_none hlen] at hy
    exact absurd hy (by simp)

end

/-! ## The invariant -/

/-- The callbacks that are stored are those of the sleeps that are pending. -/
structure Paired (s : Sched) : Prop where
  inv : Inv s
  current : ∀ p, s.pCurrent = some p → s.isFree p = false
  used : ∀ c ∈ s.sleeps, s.isFree c.proc = false
  since : ∀ c ∈ s.sleeps, c.since ≤ s.selected.length
  serial : ∀ c ∈ s.sleeps, c.serial < s.sleeps.length
  unique : ∀ c ∈ s.sleeps, ∀ c' ∈ s.sleeps, c.serial = c'.serial → c = c'
  called : ∀ x ∈ s.selected, ∀ n, x.Calls n → n < s.sleeps.length
  stored : ∀ p f n, (s.room p).retFrom = .callback f n →
    ∃ c ∈ s.sleeps, c.serial = n ∧ c.proc = p ∧ Pending s.selected c
  pending : ∀ c ∈ s.sleeps, Pending s.selected c → ∃ f, (s.room c.proc).retFrom =
    .callback f c.serial
  once : ∀ c ∈ s.sleeps, CalledOnce s.selected c

theorem boot_paired (irqQue : Que Entry 64) : Paired (boot irqQue) where
  inv := boot_inv irqQue
  current _ h := absurd h (by simp [boot])
  used _ h := absurd h List.not_mem_nil
  since _ h := absurd h List.not_mem_nil
  serial _ h := absurd h List.not_mem_nil
  unique _ h := absurd h List.not_mem_nil
  called _ h := absurd h List.not_mem_nil
  stored _ _ _ h := absurd h (by simp [boot, Proc.init])
  pending _ h := absurd h List.not_mem_nil
  once _ h := absurd h List.not_mem_nil

/-- A call that selects nobody, stores no callback, and writes `ret_from` of new processes only. -/
structure Quiet (s s' : Sched) : Prop where
  selected : s'.selected = s.selected
  sleeps : s'.sleeps = s.sleeps
  isFree : ∀ p, s.isFree p = false → s'.isFree p = false
  current : ∀ p, s'.pCurrent = some p → s'.isFree p = false
  retFrom : ∀ p, (s'.room p).retFrom = (s.room p).retFrom ∨
    s.isFree p = true ∧ ∀ f n, (s'.room p).retFrom ≠ .callback f n

theorem Paired.quiet (h : Paired s) (hq : Quiet s s') (hinv : Inv s') : Paired s' where
  inv := hinv
  current := hq.current
  used c hc := hq.isFree _ (h.used c (hq.sleeps ▸ hc))
  since c hc := by
    rw [hq.selected]
    exact h.since c (hq.sleeps ▸ hc)
  serial c hc := by
    rw [hq.sleeps] at hc ⊢
    exact h.serial c hc
  unique c hc c' hc' := h.unique c (hq.sleeps ▸ hc) c' (hq.sleeps ▸ hc')
  called x hx := by
    rw [hq.sleeps]
    exact h.called x (hq.selected ▸ hx)
  stored p f n hp := by
    rw [hq.sleeps, hq.selected]
    rcases hq.retFrom p with heq | ⟨-, hne⟩
    · exact h.stored p f n (heq ▸ hp)
    · exact absurd hp (hne f n)
  pending c hc hpend := by
    rw [hq.sleeps] at hc
    rw [hq.selected] at hpend
    obtain ⟨f, hf⟩ := h.pending c hc hpend
    rcases hq.retFrom c.proc with heq | ⟨hfree, -⟩
    · exact ⟨f, heq.trans hf⟩
    · exact absurd ((h.used c hc).symm.trans hfree) (by simp)
  once c hc := by
    rw [hq.selected]
    exact h.once c (hq.sleeps ▸ hc)

theorem Quiet.trans {s'' : Sched} (h : Quiet s s') (h' : Quiet s' s'') : Quiet s s'' where
  selected := h'.selected.trans h.selected
  sleeps := h'.sleeps.trans h.sleeps
  isFree p hp := h'.isFree p (h.isFree p hp)
  current := h'.current
  retFrom p := by
    rcases h'.retFrom p with heq | ⟨hfree, hne⟩
    · rw [heq]
      exact h.retFrom p
    · refine Or.inr ⟨?_, hne⟩
      by_contra hused
      rw [Bool.not_eq_true] at hused
      exact absurd ((h.isFree p hused).symm.trans hfree) (by simp)

/-- Queues, statuses, timers, flags and the log of wake-ups do not matter. -/
theorem Put.quiet {st : Status} (h : Put s t p st)
    (hcur : ∀ p, s.pCurrent = some p → s.isFree p = false) (hsel : s'.selected = t.selected)
    (hsl : s'.sleeps = t.sleeps) (hf : s'.isFree = t.isFree) (hc : s'.pCurrent = t.pCurrent)
    (hr : s'.room = t.room) : Quiet s s' := by
  have hfree : s'.isFree = s.isFree := by
    rw [hf, h.moves.same]
  constructor
  · rw [hsel, h.moves.same]
  · rw [hsl, h.moves.same]
  · intro p hp
    rw [hfree]
    exact hp
  · intro p hp
    rw [hc, h.moves.pCurrent] at hp
    rw [hfree]
    exact hcur p hp
  · intro p
    rw [hr]
    exact Or.inl (h.moves.retFrom p)

theorem Paired.wakeup (h : Paired s) (hs : s.wakeup pid = .ok s') : Paired s' := by
  obtain ⟨p, t, -, hput, rfl, hinv⟩ := wakeup_inv h.inv hs
  exact h.quiet (hput.quiet h.current rfl rfl rfl rfl rfl) hinv

theorem Paired.sleep {millisec : Int} (h : Paired s) (hs : s.sleep pid millisec = .ok s') :
    Paired s' := by
  obtain ⟨p, t, -, hput, rfl, hinv⟩ := sleep_inv h.inv hs
  exact h.quiet (hput.quiet h.current rfl rfl rfl rfl rfl) hinv

/-- A new process whose `ret_from` is no callback. -/
theorem Quiet.withProc {x : Proc} (hfree : s.isFree p = true)
    (hx : ∀ f n, x.retFrom ≠ .callback f n) (hcur : ∀ p, s.pCurrent = some p → s.isFree p = false) :
    Quiet s (s.withProc p x) where
  selected := rfl
  sleeps := rfl
  isFree q hq := by
    have hne : q ≠ p := by
      rintro rfl
      exact absurd (hq.symm.trans hfree) (by simp)
    exact (Function.update_of_ne hne _ _).trans hq
  current q hq := by
    by_cases hne : q = p
    · subst hne
      exact Function.update_self ..
    · exact (Function.update_of_ne hne _ _).trans (hcur q hq)
  retFrom q := by
    by_cases hne : q = p
    · subst hne
      refine Or.inr ⟨hfree, ?_⟩
      simpa [Sched.withProc] using hx
    · exact Or.inl (by simp [Sched.withProc, hne])

/-- `sleep(callback)` by a process that has none stored. -/
theorem Paired.withCallback {callback : Nat} (h : Paired s) (hp : s.pCurrent = some p)
    (hidle : s.Idle p) :
    Paired (s.withCallback p callback) := by
  have hroom : ∀ q ≠ p, (s.withCallback p callback).room q = s.room q :=
    fun q hq => setProc_of_ne _ hq
  have hself : ((s.withCallback p callback).room p).retFrom =
      .callback callback s.sleeps.length := by
    simp [Sched.withCallback]
  have hnew : Pending s.selected ⟨p, s.sleeps.length, s.selected.length⟩ := by
    intro x hx
    simp at hx
  -- a pending sleep is not one of `p`, which has nothing stored
  have hother : ∀ c ∈ s.sleeps, Pending s.selected c → c.proc ≠ p := by
    rintro c hc hpend rfl
    obtain ⟨f, hf⟩ := h.pending c hc hpend
    exact absurd (hidle.symm.trans hf) (by simp)
  constructor
  · exact h.inv.withCallback p callback
  · exact h.current
  · intro c hc
    rcases List.mem_cons.mp hc with rfl | hc
    · exact h.current p hp
    · exact h.used c hc
  · intro c hc
    rcases List.mem_cons.mp hc with rfl | hc
    · exact Nat.le_refl _
    · exact h.since c hc
  · intro c hc
    rcases List.mem_cons.mp hc with rfl | hc
    · exact Nat.lt_succ_self _
    · exact Nat.lt_succ_of_lt (h.serial c hc)
  · intro c hc c' hc' heq
    rcases List.mem_cons.mp hc with rfl | hc <;> rcases List.mem_cons.mp hc' with rfl | hc'
    · rfl
    · exact absurd heq.symm (Nat.ne_of_lt (h.serial c' hc'))
    · exact absurd heq (Nat.ne_of_lt (h.serial c hc))
    · exact h.unique c hc c' hc' heq
  · intro x hx n hn
    exact Nat.lt_succ_of_lt (h.called x hx n hn)
  · intro q f n hq
    by_cases hqp : q = p
    · subst hqp
      obtain ⟨-, rfl⟩ := RetFrom.callback.inj (hself.symm.trans hq)
      exact ⟨_, List.mem_cons_self, rfl, rfl, hnew⟩
    · rw [hroom q hqp] at hq
      obtain ⟨c, hc, hrest⟩ := h.stored q f n hq
      exact ⟨c, List.mem_cons_of_mem _ hc, hrest⟩
  · intro c hc hpend
    rcases List.mem_cons.mp hc with rfl | hc
    · exact ⟨callback, hself⟩
    · rw [hroom _ (hother c hc hpend)]
      exact h.pending c hc hpend
  · intro c hc
    rcases List.mem_cons.mp hc with rfl | hc
    · intro i x hx
      obtain ⟨hi, -⟩ := List.getElem?_eq_some_iff.mp hx
      constructor
      · intro hcall
        exact absurd (h.called x (List.mem_of_getElem? hx) _ hcall) (Nat.lt_irrefl _)
      · rintro ⟨hle, -⟩
        exact absurd hi (Nat.not_lt.mpr hle)
    · exact h.once c hc

/-- A selection that calls what is stored and clears it. -/
theorem Paired.select (h : Paired s) (hinv : Inv s') (hp : s.isFree p = false)
    (func : Option RetFrom) (hsel : s'.selected = s.selected ++ [⟨p, func⟩])
    (hsl : s'.sleeps = s.sleeps) (hf : s'.isFree = s.isFree) (hcur : s'.pCurrent = some p)
    (hclear : s'.Idle p) (hothers : ∀ q ≠ p, (s'.room q).retFrom = (s.room q).retFrom)
    (hfunc : ∀ f n, func = some (.callback f n) ↔ (s.room p).retFrom = .callback f n) :
    Paired s' := by
  -- what is called is the callback of the pending sleep of `p`
  have hcall : ∀ c ∈ s.sleeps,
      (⟨p, func⟩ : Selection).Calls c.serial ↔ p = c.proc ∧ Pending s.selected c := by
    intro c hc
    constructor
    · rintro ⟨f, hf⟩
      obtain ⟨c', hc', hser, hproc, hpend⟩ := h.stored p f _ ((hfunc f _).mp hf)
      obtain rfl := h.unique c' hc' c hc hser
      exact ⟨hproc.symm, hpend⟩
    · rintro ⟨rfl, hpend⟩
      obtain ⟨f, hf⟩ := h.pending c hc hpend
      exact ⟨f, (hfunc f _).mpr hf⟩
  have hpend : ∀ c ∈ s.sleeps, Pending s'.selected c ↔ Pending s.selected c ∧ p ≠ c.proc := by
    intro c hc
    rw [hsel]
    exact pending_append (h.since c hc)
  constructor
  · exact hinv
  · intro q hq
    obtain rfl := Option.some.inj (hcur.symm.trans hq)
    rw [hf]
    exact hp
  · intro c hc
    rw [hf]
    exact h.used c (hsl ▸ hc)
  · intro c hc
    rw [hsel, List.length_append]
    exact Nat.le_add_right_of_le (h.since c (hsl ▸ hc))
  · intro c hc
    rw [hsl] at hc ⊢
    exact h.serial c hc
  · intro c hc c' hc'
    exact h.unique c (hsl ▸ hc) c' (hsl ▸ hc')
  · intro x hx n hn
    rw [hsl]
    rw [hsel] at hx
    rcases List.mem_append.mp hx with hx | hx
    · exact h.called x hx n hn
    · obtain rfl := List.mem_singleton.mp hx
      obtain ⟨f, hf⟩ := hn
      obtain ⟨c, hc, rfl, -⟩ := h.stored p f n ((hfunc f n).mp hf)
      exact h.serial c hc
  · intro q f n hq
    have hqp : q ≠ p := by
      rintro rfl
      exact absurd (hclear.symm.trans hq) (by simp)
    rw [hothers q hqp] at hq
    obtain ⟨c, hc, hser, rfl, hc'⟩ := h.stored q f n hq
    exact ⟨c, hsl ▸ hc, hser, rfl, (hpend c hc).mpr ⟨hc', Ne.symm hqp⟩⟩
  · intro c hc hc'
    rw [hsl] at hc
    obtain ⟨hc', hne⟩ := (hpend c hc).mp hc'
    rw [hothers _ (Ne.symm hne)]
    exact h.pending c hc hc'
  · intro c hc
    rw [hsl] at hc
    rw [hsel]
    exact (h.once c hc).append (h.since c hc) (hcall c hc)

theorem Paired.schedule (h : Paired s) (hl : s.Prompt .schedule) (hs : s.schedule = .ok s') :
    Paired s' := by
  have hinv : Inv s' := h.inv.step (o := .schedule) hs
  rcases schedule_inv h.inv hs with ⟨-, rfl⟩ | ⟨-, -, rfl⟩ |
    ⟨hreq, k, p, t, hhead, hrun, hput, -, rfl⟩
  · exact h
  · exact h.quiet ⟨rfl, rfl, fun _ hp => hp, h.current, fun _ => Or.inl rfl⟩ hinv
  · have hused : s.isFree p = false := by
      by_contra hfree
      rw [Bool.not_eq_false] at hfree
      exact absurd ((h.inv.free p hfree).symm.trans hrun) (by simp)
    have hret : ∀ q, (t.room q).retFrom = (s.room q).retFrom := hput.moves.retFrom
    have hcurt : t.pCurrent = s.pCurrent := hput.moves.pCurrent
    have hselt : t.selected = s.selected := by
      rw [hput.moves.same]
      rfl
    have hslt : t.sleeps = s.sleeps := by
      rw [hput.moves.same]
      rfl
    have hft : t.isFree = s.isFree := by
      rw [hput.moves.same]
      rfl
    by_cases hcur : s.pCurrent = some p
    · -- the current process goes on, and has nothing stored
      have hidle := hl hreq k p hhead hcur
      have heq : (s.requeued t k p).switchTo p =
          { s.requeued t k p with selected := t.selected ++ [⟨p, none⟩] } :=
        if_pos (hcurt.trans hcur)
      rw [heq] at hinv ⊢
      refine h.select hinv hused none (congrArg (· ++ _) hselt) hslt hft (hcurt.trans hcur) ?_ ?_ ?_
      · exact (hret p).trans hidle
      · intro q _
        exact hret q
      · intro f n
        rw [show (s.room p).retFrom = .kernel2user from hidle]
        simp
    · have heq : (s.requeued t k p).switchTo p =
          { (s.requeued t k p).setProc p { t.room p with retFrom := .kernel2user } with
            pCurrent := some p, selected := t.selected ++ [⟨p, some (t.room p).retFrom⟩] } :=
        if_neg (hcurt ▸ hcur)
      rw [heq] at hinv ⊢
      refine h.select hinv hused (some (t.room p).retFrom) (congrArg (· ++ _) hselt)
        hslt hft rfl ?_ ?_ ?_
      · exact congrArg Proc.retFrom (setProc_self _)
      · intro q hq
        exact (congrArg Proc.retFrom (setProc_of_ne _ hq)).trans (hret q)
      · intro f n
        rw [hret p, Option.some.injEq]

theorem Paired.step (h : Paired s) (hl : s.Prompt o) (hs : Sched.step s o = .ok s') :
    Paired s' := by
  cases o with
  | initTasks =>
    obtain ⟨pinit, pkernel, t, hf₁, hf₂, hne, hput, rfl, hinv⟩ := initTasks_inv h.inv hs
    have hq₁ : Quiet s (s.withProc pinit procInit) :=
      Quiet.withProc hf₁ (by simp [procInit]) h.current
    have hq₂ : Quiet _ ((s.withProc pinit procInit).withProc pkernel procKernel) :=
      Quiet.withProc ((Function.update_of_ne hne.symm _ _).trans hf₂)
        (by simp [procKernel]) hq₁.current
    have hq := (hq₁.trans hq₂).trans (hput.quiet hq₂.current rfl rfl rfl rfl rfl)
    refine h.quiet ⟨hq.selected, hq.sleeps, hq.isFree, ?_, hq.retFrom⟩ hinv
    rintro p hp
    obtain rfl := Option.some.inj hp
    have hfree : t.isFree = ((s.withProc pinit procInit).withProc pkernel procKernel).isFree := by
      rw [hput.moves.same]
    change t.isFree pinit = false
    rw [hfree]
    simp [Sched.withProc, Function.update_of_ne hne]
  | fork =>
    obtain ⟨current, clone, -, hfree, hinv, hs⟩ := fork_inv h.inv hs
    have hq : Quiet s (s.withProc clone (s.cloneOf current)) :=
      Quiet.withProc hfree (by simp [cloneOf]) h.current
    have hpaired : Paired { s.withProc clone (s.cloneOf current) with pidGen := s.pidGen + 1 } :=
      h.quiet ⟨hq.selected, hq.sleeps, hq.isFree, hq.current, hq.retFrom⟩ hinv
    exact hpaired.wakeup hs
  | sleep pid millisec => exact h.sleep hs
  | sleepCallback callback =>
    obtain ⟨p, hp, -, hs⟩ := sleepCallback_inv h.inv hs
    have hpaired : Paired (s.withCallback p callback) := h.withCallback hp (hl p hp)
    exact hpaired.sleep hs
  | wakeup pid => exact h.wakeup hs
  | waitInterrupt irq =>
    obtain ⟨p, irqQue, -, hinv, hs⟩ := waitInterrupt_inv h.inv hs
    have hpaired : Paired { s with irqQue := irqQue } :=
      h.quiet ⟨rfl, rfl, fun _ hp => hp, h.current, fun _ => Or.inl rfl⟩ hinv
    exact hpaired.sleep hs
  | notify irq =>
    obtain ⟨e, irqQue, -, hinv, hcase⟩ := notify_inv h.inv hs
    have hpaired : Paired { s with irqQue := irqQue } :=
      h.quiet ⟨rfl, rfl, fun _ hp => hp, h.current, fun _ => Or.inl rfl⟩ hinv
    rcases hcase with ⟨-, rfl⟩ | ⟨-, hs⟩
    · exact hpaired
    · exact hpaired.wakeup hs
  | tick =>
    have hpaired : Paired { s with timer := s.timer.handler.1 } :=
      h.quiet ⟨rfl, rfl, fun _ hp => hp, h.current, fun _ => Or.inl rfl⟩
        (h.inv.congr rfl rfl fun _ => rfl)
    exact wakeDue_induction (l := s.timer.handler.2) (fun _ h => h.inv)
      (fun _ _ _ h hs => h.wakeup hs) hpaired hs
  | schedule => exact h.schedule hl hs

/-- **When callbacks are called once**: in every run in which no process goes to sleep with a
callback while an earlier one is stored, and no `schedule` selects the current process while a
callback of it is stored, every callback is called at the first selection of its process since the
sleep, and at no other. -/
theorem callbacks_once {irqQue : Que Entry 64} {os : List Op}
    (hr : Run step Prompt (boot irqQue) os s) :
    ∀ c ∈ s.sleeps, CalledOnce s.selected c :=
  (hr.invariant (I := Paired) (fun _ _ _ hi hl hs => hi.step hl hs) (boot_paired irqQue)).once

/-- A process sleeps with a callback while another one runs, and is woken. -/
def handOver : List Op :=
  [.initTasks, .fork, .sleepCallback 7, .schedule, .wakeup 1, .tick, .tick, .schedule]

theorem callbacks_once_handOver : ∃ s, Run step Prompt (boot irqQueInit) handOver s ∧
    s.sleeps = [⟨0, 0, 0⟩] ∧ s.selected = [⟨2, some .retFromFork⟩, ⟨0, some (.callback 7 0)⟩] ∧
    CalledOnce s.selected ⟨0, 0, 0⟩ := by
  have hplay : (play step Prompt (boot irqQueInit) handOver).map (fun s => (s.sleeps, s.selected)) =
      some ([⟨0, 0, 0⟩], [⟨2, some .retFromFork⟩, ⟨0, some (.callback 7 0)⟩]) := by
    decide +kernel
  obtain ⟨s, hs, heq⟩ := Option.map_eq_some_iff.mp hplay
  obtain ⟨hsl, hsel⟩ := Prod.mk.inj heq
  refine ⟨s, run_of_play hs, hsl, hsel, callbacks_once (run_of_play hs) ⟨0, 0, 0⟩ ?_⟩
  rw [hsl]
  exact List.mem_singleton_self _

/-- The only process sleeps with a callback and is woken at once; later another one runs. -/
def selfWake : List Op :=
  [.initTasks, .sleepCallback 7, .wakeup 1, .schedule, .fork, .schedule, .tick, .tick, .schedule]

/-- The first selection calls nothing; a later one calls the callback. -/
theorem selfWake_late : ∃ s, Run step Any (boot irqQueInit) selfWake s ∧ ⟨0, 0, 0⟩ ∈ s.sleeps ∧
    s.selected = [⟨0, none⟩, ⟨2, some .retFromFork⟩, ⟨0, some (.callback 7 0)⟩] ∧
    ¬CalledOnce s.selected ⟨0, 0, 0⟩ := by
  have hplay : (play step Any (boot irqQueInit) selfWake).map (fun s => (s.sleeps, s.selected)) =
      some ([⟨0, 0, 0⟩], [⟨0, none⟩, ⟨2, some .retFromFork⟩, ⟨0, some (.callback 7 0)⟩]) := by
    decide +kernel
  obtain ⟨s, hs, heq⟩ := Option.map_eq_some_iff.mp hplay
  obtain ⟨hsl, hsel⟩ := Prod.mk.inj heq
  refine ⟨s, run_of_play hs, by simp [hsl], hsel, ?_⟩
  intro honce
  rw [hsel] at honce
  obtain ⟨f, hf⟩ := (honce 0 ⟨0, none⟩ rfl).mpr ⟨Nat.le_refl 0, rfl, by simp [Pending]⟩
  exact absurd hf (by simp)

end OwnOS.Sched
