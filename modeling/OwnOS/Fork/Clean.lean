import OwnOS.Fork.Model
import OwnOS.Sched.Calls

/-!
# Does `fork` fail cleanly?

`allocProc` returns NULL when no slot of the table is free, and `fork` writes the new pid through
the pointer at once. Slots are never given back, so every run of forks comes to this.

* `fork_ok`: what a `fork` that returned did: one `fork` of the scheduler, one of the address
  spaces.
* `fork_clean_iff`: after any run of forks, the next one is clean exactly when there were fewer than
  the table had free slots at the start.
-/

namespace OwnOS.Kernel

open Lib VarMem

variable {k k' j j' : Kernel} {pid : Int} {n : ℕ} {clone current : Sched.ProcPtr}

/-- The processes of the table are those of the machine, slot by slot. -/
structure InStep (k : Kernel) : Prop where
  slots : ∀ p : Sched.ProcPtr, k.sched.isFree p = false ↔ p.val < k.vm.procs.length
  current : k.vm.pCurrent = k.sched.pCurrent.map Fin.val

/-- No slot of the table is free. -/
def TableFull (k : Kernel) : Prop := ∀ p, k.sched.isFree p = false

/-- The number of free slots. -/
def freeSlots (k : Kernel) : ℕ := (Finset.univ.filter fun p => k.sched.isFree p = true).card

/-- `fork` fails cleanly: it uses no NULL `Proc`, and with a full table it returns an error, with
the run queues, the table, the pids, the page frames and the heap as they were. -/
structure CleanFork (k : Kernel) : Prop where
  notNull : k.fork ≠ .error .nullProc
  error : k.TableFull → ∃ pid k', k.fork = .ok (pid, k') ∧ pid < 0 ∧
    k'.sched.links = k.sched.links ∧ k'.sched.room = k.sched.room ∧
    k'.sched.isFree = k.sched.isFree ∧ k'.sched.pidGen = k.sched.pidGen ∧ k'.vm = k.vm ∧
    k'.heap = k.heap ∧ k'.pfa = k.pfa

/-- What lies between two forks: other processes run, sleep and wake and use memory, but the table
stays. -/
structure Between (k j : Kernel) : Prop where
  table : j.sched.isFree = k.sched.isFree
  running : j.sched.pCurrent ≠ none

/-- A run of `n` forks, by any processes. -/
inductive Forks : Kernel → ℕ → Kernel → Prop
  | nil (k : Kernel) : Forks k 0 k
  | fork {k k' j j' : Kernel} {n : ℕ} {pid : Int} (hrun : Forks k n k') (hbetween : Between k' j)
      (hfork : j.fork = .ok (pid, j')) : Forks k (n + 1) j'

theorem lift_eq_ok {α : Type} {x : Res α} {a : α} : lift x = .ok a ↔ x = .ok a := by
  cases x <;> simp [lift, Except.mapError]

@[simp] theorem lift_ok {α : Type} (a : α) : lift (.ok a) = .ok a := rfl

theorem ok_bind {α β : Type} (a : α) (f : α → Except Stop β) : (Except.ok a >>= f) = f a := rfl

theorem lift_ne_nullProc {α : Type} (x : Res α) : lift x ≠ .error .nullProc := by
  cases x <;> simp [lift, Except.mapError]

theorem bind_eq_ok {α β : Type} {x : Except Stop α} {f : α → Except Stop β} {b : β} :
    (x >>= f) = .ok b ↔ ∃ a, x = .ok a ∧ f a = .ok b := by
  cases x with
  | error e => simp [bind, Except.bind]
  | ok a => simp [bind, Except.bind]

/-- A sequence stops at a NULL `Proc` only where one of its parts does. -/
theorem bind_ne_nullProc {α β : Type} {x : Except Stop α} {f : α → Except Stop β}
    (hx : x ≠ .error .nullProc) (hf : ∀ a, f a ≠ .error .nullProc) :
    x >>= f ≠ .error .nullProc := by
  cases x with
  | error e => simpa [bind, Except.bind] using hx
  | ok a => exact hf a

/-! ## A full table -/

theorem tableFull_iff : k.TableFull ↔ k.freeSlots = 0 := by
  simp [TableFull, freeSlots, Finset.card_eq_zero, Finset.filter_eq_empty_iff]

theorem allocProc_full (h : k.TableFull) : k.sched.allocProc = (k.sched, none) := by
  unfold Sched.allocProc
  rw [List.find?_eq_none.mpr fun p _ => by simp [h p]]

/-- The first free slot is taken. -/
theorem allocProc_free (h : ¬ k.TableFull) : ∃ clone, k.sched.isFree clone = true ∧
    (∀ p < clone, k.sched.isFree p = false) ∧ k.sched.allocProc =
      ({ k.sched with isFree := Function.update k.sched.isFree clone false }, some clone) := by
  obtain ⟨p, hp⟩ := not_forall.mp h
  rw [Bool.not_eq_false] at hp
  cases hfind : (List.finRange Sched.nrProc).find? k.sched.isFree with
  | none => exact absurd hp (List.find?_eq_none.mp hfind p (List.mem_finRange p))
  | some clone =>
    obtain ⟨hclone, before, after, hsplit, hbefore⟩ := List.find?_eq_some_iff_append.mp hfind
    refine ⟨clone, hclone, fun p hp => by simpa using hbefore p (Sched.mem_before hsplit hp), ?_⟩
    unfold Sched.allocProc
    rw [hfind]

/-- **With a full table `fork` uses NULL.** -/
theorem fork_full (h : k.TableFull) : k.fork = .error .nullProc := by
  unfold fork
  rw [allocProc_full h]

/-- `fork` with a free slot. -/
theorem fork_eq (halloc : k.sched.allocProc =
      ({ k.sched with isFree := Function.update k.sched.isFree clone false }, some clone))
    (hcur : k.sched.pCurrent = some current) : k.fork = (do
      let src ← lift (Que.follow k.vm.procs[current.val]?)
      let s ← lift (copyProcess (answeredBy k.vm k.pfa onePage) k.heap src)
      let t ← lift (setupStack s.1.1 src)
      let pfa ← lift (taken k.pfa onePage k.vm t.1)
      let sched ← lift (({ k.sched.withProc clone (k.sched.cloneOf current) with
        pidGen := k.sched.pidGen + 1 } : Sched).wakeup k.sched.pidGen)
      .ok (k.sched.pidGen,
        ⟨sched, { t.1 with procs := t.1.procs ++ [⟨s.2, src.regions, t.2⟩] }, s.1.2, pfa⟩)) := by
  obtain ⟨⟨room, isFree, links, pCurrent, pidGen, schedReq, timer, irqQue, sleeps, selected, woken⟩,
    vm, heap, pfa⟩ := k
  obtain rfl := hcur
  unfold fork
  rw [halloc]
  rfl

/-- With a free slot, and a process that calls it, `fork` uses no NULL `Proc`. -/
theorem fork_ne_nullProc (h : ¬ k.TableFull) (hcur : k.sched.pCurrent ≠ none) :
    k.fork ≠ .error .nullProc := by
  obtain ⟨clone, -, -, halloc⟩ := allocProc_free h
  obtain ⟨current, hcur⟩ := Option.ne_none_iff_exists'.mp hcur
  rw [fork_eq halloc hcur]
  refine bind_ne_nullProc (lift_ne_nullProc _) fun src => ?_
  refine bind_ne_nullProc (lift_ne_nullProc _) fun s => ?_
  refine bind_ne_nullProc (lift_ne_nullProc _) fun t => ?_
  refine bind_ne_nullProc (lift_ne_nullProc _) fun pfa => ?_
  exact bind_ne_nullProc (lift_ne_nullProc _) fun sched => by simp

/-- **`fork` fails cleanly exactly when it need not fail.** -/
theorem cleanFork_iff (hcur : k.sched.pCurrent ≠ none) : CleanFork k ↔ ¬ k.TableFull := by
  constructor
  · intro h hfull
    exact h.notNull (fork_full hfull)
  · intro h
    exact ⟨fork_ne_nullProc h hcur, fun hfull => absurd hfull h⟩

/-! ## A fork that returned -/

/-- The machine's part of the regions of `clone_mm`. -/
theorem addRegions_vm {cr3 : UInt32} : ∀ {l : List Region} {s t : Machine × Kmalloc},
    l.foldlM (addRegion cr3) s = .ok t → l.foldlM (fun m p => m.cloneRegion p cr3) s.1 = .ok t.1
  | [], s, t, h => by
    obtain rfl := Except.ok.inj h
    rfl
  | p :: l, s, t, h => by
    obtain ⟨s', hs', h⟩ := Res.bind_eq_ok.mp h
    obtain ⟨⟨heap, a⟩, -, hs'⟩ := Res.bind_eq_ok.mp hs'
    obtain ⟨vm, hvm, hs'⟩ := Res.bind_eq_ok.mp hs'
    obtain rfl := Except.ok.inj hs'
    rw [List.foldlM_cons, hvm, Res.ok_bind]
    exact addRegions_vm h

/-- The parts of a `fork` that returned. -/
theorem fork_parts (hr : k.fork = .ok (pid, k')) : ∃ clone current src s t,
    k.sched.isFree clone = true ∧ (∀ p < clone, k.sched.isFree p = false) ∧
    k.sched.pCurrent = some current ∧ k.vm.procs[current.val]? = some src ∧
    copyProcess (answeredBy k.vm k.pfa onePage) k.heap src = .ok s ∧ setupStack s.1.1 src = .ok t ∧
    taken k.pfa onePage k.vm t.1 = .ok k'.pfa ∧
    ({ k.sched.withProc clone (k.sched.cloneOf current) with pidGen := k.sched.pidGen + 1 } :
      Sched).wakeup k.sched.pidGen = .ok k'.sched ∧
    k'.vm = { t.1 with procs := t.1.procs ++ [⟨s.2, src.regions, t.2⟩] } ∧
        pid = k.sched.pidGen := by
  have hfree : ¬ k.TableFull := by
    intro hfull
    rw [fork_full hfull] at hr
    exact absurd hr (by simp)
  obtain ⟨clone, hclone, hfirst, halloc⟩ := allocProc_free hfree
  cases hcur : k.sched.pCurrent with
  | none =>
    unfold fork at hr
    rw [halloc] at hr
    simp only [hcur] at hr
    exact absurd hr (by simp)
  | some current =>
    rw [fork_eq halloc hcur] at hr
    obtain ⟨src, hsrc, hr⟩ := bind_eq_ok.mp hr
    obtain ⟨s, hs, hr⟩ := bind_eq_ok.mp hr
    obtain ⟨t, ht, hr⟩ := bind_eq_ok.mp hr
    obtain ⟨pfa, hpfa, hr⟩ := bind_eq_ok.mp hr
    obtain ⟨sched, hwake, hr⟩ := bind_eq_ok.mp hr
    obtain ⟨rfl, rfl⟩ := Prod.mk.inj (Except.ok.inj hr)
    exact ⟨clone, current, src, s, t, hclone, hfirst, rfl, Sched.follow_eq_ok (lift_eq_ok.mp hsrc),
      lift_eq_ok.mp hs, lift_eq_ok.mp ht, lift_eq_ok.mp hpfa, lift_eq_ok.mp hwake, rfl, rfl⟩

/-- **A `fork` that returned** is one of the scheduler and one of the address spaces, for which the
allocator has the chunks. -/
theorem fork_ok (h : InStep k) (hr : k.fork = .ok (pid, k')) :
    k.sched.fork = .ok k'.sched ∧ (answeredBy k.vm k.pfa onePage).fork = .ok k'.vm ∧
      taken k.pfa onePage k.vm k'.vm = .ok k'.pfa ∧ pid = k.sched.pidGen := by
  obtain ⟨clone, current, src, s, t, hclone, hfirst, hcur, hsrc, hs, ht, hpfa, hwake, hvm, rfl⟩ :=
    fork_parts hr
  have hfree : ¬ k.TableFull := fun hfull => absurd (hclone.symm.trans (hfull clone)) (by simp)
  refine ⟨?_, ?_, by rw [hvm]; exact hpfa, rfl⟩
  · obtain ⟨clone', hclone', hfirst', halloc⟩ := allocProc_free hfree
    obtain rfl : clone' = clone := by
      rcases lt_trichotomy clone' clone with hlt | heq | hlt
      · exact absurd (hclone'.symm.trans (hfirst clone' hlt)) (by simp)
      · exact heq
      · exact absurd (hclone.symm.trans (hfirst' clone hlt)) (by simp)
    have hfollow : Que.follow k.sched.pCurrent = .ok current := by
      rw [hcur]
      rfl
    unfold Sched.fork
    rw [hfollow, Res.ok_bind, halloc]
    exact hwake
  · obtain ⟨heap₁, -, hs⟩ := Res.bind_eq_ok.mp hs
    obtain ⟨⟨vm₁, pdir⟩, h₁, hs⟩ := Res.bind_eq_ok.mp hs
    obtain ⟨vm₂, h₂, hs⟩ := Res.bind_eq_ok.mp hs
    obtain ⟨s₃, h₃, hs⟩ := Res.bind_eq_ok.mp hs
    obtain rfl := Except.ok.inj hs
    obtain ⟨⟨vm₄, stack⟩, h₄, ht⟩ := Res.bind_eq_ok.mp ht
    obtain ⟨vm₅, h₅, ht⟩ := Res.bind_eq_ok.mp ht
    obtain rfl := Except.ok.inj ht
    -- the new process has the first free slot, so the table of the machine is not full either
    have hlen : k.vm.procs.length ≤ clone.val := by
      by_contra hlt
      have := (h.slots clone).mpr (not_le.mp hlt)
      exact absurd (hclone.symm.trans this) (by simp)
    have hlt : ¬ k.vm.procs.length ≥ Machine.nrProc := by
      have hc : clone.val < 32 := clone.isLt
      have hn : Machine.nrProc = 32 := rfl
      omega
    have hbind : ((answeredBy k.vm k.pfa onePage).pCurrent.bind
        fun i => (answeredBy k.vm k.pfa onePage).procs[i]?) = some src := by
      show (k.vm.pCurrent.bind fun i => k.vm.procs[i]?) = some src
      rw [h.current, hcur]
      exact hsrc
    have h₃' := addRegions_vm h₃
    unfold Machine.fork
    rw [hbind, hvm]
    simp only
    rw [if_neg (show ¬ (answeredBy k.vm k.pfa onePage).procs.length ≥ Machine.nrProc from hlt), h₁,
      Res.ok_bind]
    simp only at h₂ ⊢
    rw [h₂, Res.ok_bind, h₃', Res.ok_bind]
    simp only at h₄ ⊢
    rw [h₄, Res.ok_bind]
    simp only at h₅ ⊢
    rw [h₅, Res.ok_bind]

/-- `wakeup` takes no slot. -/
theorem wakeup_isFree {s s' : Sched} {id : Int} (h : s.wakeup id = .ok s') :
    s'.isFree = s.isFree := by
  have henque : ∀ {s s' : Sched} {p : Sched.ProcPtr}, s.enque p 0 = .ok s' →
      s'.isFree = s.isFree := by
    intro s s' p h
    unfold Sched.enque at h
    split at h
    · obtain ⟨pp, -, h⟩ := Res.bind_eq_ok.mp h
      obtain rfl := Except.ok.inj h
      rfl
    · obtain rfl := Except.ok.inj h
      rfl
    · exact absurd h (by simp)
  unfold Sched.wakeup at h
  split at h
  · obtain ⟨t, ht, h⟩ := Res.bind_eq_ok.mp h
    obtain rfl := Except.ok.inj h
    exact (henque ht : t.isFree = _)
  · exact absurd h (by simp)

/-- **A `fork` uses up a slot.** -/
theorem fork_freeSlots (hr : k.fork = .ok (pid, k')) : k'.freeSlots + 1 = k.freeSlots := by
  obtain ⟨clone, current, src, s, t, hclone, -, -, -, -, -, -, hwake, -⟩ := fork_parts hr
  have hfree : k'.sched.isFree = Function.update k.sched.isFree clone false := wakeup_isFree hwake
  have hmem : clone ∈ Finset.univ.filter fun p => k.sched.isFree p = true := by simp [hclone]
  have herase : (Finset.univ.filter fun p => k'.sched.isFree p = true) =
      (Finset.univ.filter fun p => k.sched.isFree p = true).erase clone := by
    ext p
    rw [hfree]
    by_cases hp : p = clone
    · simp [hp]
    · simp [hp]
  unfold freeSlots
  rw [herase]
  exact Finset.card_erase_add_one hmem

/-! ## Runs of forks -/

theorem Between.freeSlots (h : Between k j) : j.freeSlots = k.freeSlots := by
  unfold Kernel.freeSlots
  rw [h.table]

/-- **A run of forks uses up one slot for each.** -/
theorem Forks.freeSlots (h : Forks k n k') : k'.freeSlots + n = k.freeSlots := by
  induction h with
  | nil => rfl
  | fork hrun hbetween hfork ih =>
    have hone := fork_freeSlots hfork
    have := hbetween.freeSlots
    omega

/-- **`fork` fails cleanly exactly when** fewer forks went before than the table had free slots. -/
theorem fork_clean_iff (h : Forks k n k') (hbetween : Between k' j) :
    CleanFork j ↔ n < k.freeSlots := by
  rw [cleanFork_iff hbetween.running, tableFull_iff]
  have := h.freeSlots
  have := hbetween.freeSlots
  omega

end OwnOS.Kernel
