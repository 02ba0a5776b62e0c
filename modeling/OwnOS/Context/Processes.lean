import OwnOS.Context.Idle
import OwnOS.Context.Stacks
import OwnOS.Lib.Run

/-!
# Every process has a processor of its own

One step of the machine is one step of `Cpus`: a handler writes to the frame what it answers, and
`schedule` and the trap's end put the frame of the process that runs next into the processor.

* `contexts_refine`: **every run of the kernel from `init_tasks` on is a run of processes with a
  processor each**. Whatever the others do in between, a process finds its registers as it left
  them, but for the results of its own calls.
-/

namespace OwnOS.Context

open Lib WordMem Sched

variable {m m' : Machine} {a a' : Cpus} {p q cur clone : ProcPtr} {r r' : Cpu} {page base : UInt32}
  {i : Nat} {w : UInt32} {s s' : Sched} {irq : Irq} {e : Env}

/-! ## Reading and writing a frame -/

theorem Frame.field {mem : WordMem} (h : Frame mem base r) {v : UInt32} (hi : i < frameSize)
    (hv : ∀ st, (frameWords r st)[i]? = some v) : mem (at_ base i) = v := by
  obtain ⟨st, hw⟩ := h
  have := words_getElem? mem base hi
  rw [hw, hv st] at this
  exact (Option.some.inj this).symm

/-- The frame of the process that runs. -/
theorem Saved.frame (h : Saved m a cur) : Frame m.core.mem (m.frame cur) (a.cpu cur) :=
  (holds_iff h.returned).mp (h.frames cur h.context)

/-- A field of the frame of the process that runs. -/
theorem Saved.setField (h : Saved m { a with cpu := Function.update a.cpu cur r } cur) (i : Nat)
    (w : UInt32) (r' : Cpu) (hi : i < frameSize)
    (hset : ∀ st, (frameWords r st).set i w = frameWords r' st) (hl : rpl r'.cs ≠ 0) :
    Saved (m.setField (m.frame cur) i w) { a with cpu := Function.update a.cpu cur r' } cur := by
  have hc : Common (m.setField (m.frame cur) i w)
      { a with cpu := Function.update a.cpu cur r' } cur := by
    have := (h.toCommon.withCore
      ⟨m.core.cpu, Function.update m.core.mem (at_ (m.frame cur) i) w⟩).setCpu hl
    dsimp only at this
    rwa [Function.update_idem] at this
  refine ⟨hc, h.esp, h.kernel, fun p hp => ?_⟩
  by_cases hpc : p = cur
  · obtain ⟨st, hw⟩ := h.frame
    dsimp only at hw ⊢
    rw [Function.update_self] at hw
    rw [hpc, Function.update_self, holds_iff hc.returned]
    refine ⟨st, ?_⟩
    rw [← hset st, ← hw]
    exact words_update (by decide) hi
  · have hp' := h.frames p hp
    dsimp only at hp' ⊢
    rw [Function.update_of_ne hpc] at hp' ⊢
    refine hp'.congr rfl rfl (words_update_of_apart fun j hj k hk => ?_)
    exact h.pages.apart hp.1 h.used hpc j hj k (by omega)

/-- The first field that a handler writes. -/
theorem Saved.setField_cpu (h : Saved m a cur) (i : Nat) (w : UInt32) (r' : Cpu)
    (hi : i < frameSize) (hset : ∀ st, (frameWords (a.cpu cur) st).set i w = frameWords r' st)
    (hl : rpl r'.cs ≠ 0) :
    Saved (m.setField (m.frame cur) i w) { a with cpu := Function.update a.cpu cur r' } cur := by
  refine Saved.setField (r := a.cpu cur) ?_ i w r' hi hset hl
  rwa [Function.update_eq_self]

/-! ## The handlers -/

/-- A call of the scheduler that only changes queues. -/
theorem Saved.quiet (h : Saved m a cur) (hq : Quiet m.sched s) (hinv : Inv s) :
    Saved { m with sched := s } { a with sched := s } cur := by
  refine ⟨⟨hinv, rfl, ⟨fun p hp => ?_, fun p q hp hq' => ?_⟩, ?_, fun p hp => ?_, ?_, ?_,
    fun hr => ?_, h.tss⟩, h.esp, h.kernel, fun p hp => ?_⟩
  · exact h.pages.page p (hq.isFree ▸ hp)
  · exact h.pages.distinct p q (hq.isFree ▸ hp) (hq.isFree ▸ hq')
  · exact hq.pidGen ▸ h.pidGen
  · exact h.level p (hq.hasContext.mp hp)
  · exact hq.pCurrent.trans h.current
  · exact hq.hasContext.mpr h.context
  · exact h.returned (hq.new cur hr)
  · have hp' := h.frames p (hq.hasContext.mp hp)
    by_cases hpc : p = cur
    · subst hpc
      have hr : (s.room p).retFrom ≠ .retFromFork := fun hr => h.returned (hq.new p hr)
      exact (holds_iff (m := { m with sched := s }) hr).mpr ((holds_iff h.returned).mp hp')
    · refine hp'.congr rfl (hq.others p ?_) rfl
      rw [h.current]
      exact fun he => hpc (Option.some.inj he).symm

theorem Saved.execFile (h : Saved m a cur) (hm : m.execFile e = .ok m') :
    m'.frame cur = m.frame cur ∧
    Saved m'
      { a with
        cpu := Function.update a.cpu cur { a.cpu cur with eip := e.entry.getD (a.cpu cur).eip } }
      cur := by
  unfold Machine.execFile at hm
  cases he : e.entry with
  | none =>
    rw [he] at hm
    rw [← Except.ok.inj hm]
    refine ⟨rfl, ?_⟩
    rwa [Option.getD_none, Function.update_eq_self]
  | some pc =>
    simp only [he, Machine.afterExec, h.current] at hm
    rw [← Except.ok.inj hm]
    exact ⟨rfl, h.setField_cpu PC pc _ (by decide) (fun _ => rfl) (h.level cur h.context)⟩

theorem Saved.toUser (h : Saved m { a with cpu := Function.update a.cpu cur r } cur)
    (hl : rpl r.cs ≠ 0) :
    let ud := UDSeg ||| 3
    Saved (m.toUser (m.frame cur)) { a with cpu := Function.update a.cpu cur { r with
      gs := ud, fs := ud, es := ud, ds := ud, ss := ud, cs := UCSeg ||| 3,
      esp := userStackEnd - 0x10 } } cur := by
  intro ud
  have hlevel : rpl (UCSeg ||| 3) ≠ 0 := by decide
  have h1 := h.setField SS ud.toUInt32 { r with ss := ud } (by decide) (fun _ => rfl) hl
  have h2 := h1.setField DS ud.toUInt32 { r with ss := ud, ds := ud } (by decide) (fun _ => rfl) hl
  have h3 := h2.setField ES ud.toUInt32 { r with ss := ud, ds := ud, es := ud } (by decide)
    (fun _ => rfl) hl
  have h4 := h3.setField FS ud.toUInt32 { r with ss := ud, ds := ud, es := ud, fs := ud }
    (by decide) (fun _ => rfl) hl
  have h5 := h4.setField GS ud.toUInt32 { r with ss := ud, ds := ud, es := ud, fs := ud, gs := ud }
    (by decide) (fun _ => rfl) hl
  have h6 := h5.setField CS (UCSeg ||| 3).toUInt32 { r with
    ss := ud, ds := ud, es := ud, fs := ud, gs := ud, cs := UCSeg ||| 3 }
    (by decide) (fun _ => rfl) hlevel
  exact h6.setField SP _ _ (by decide) (fun _ => rfl) hlevel

/-- `exec` answers in the frame. -/
theorem Saved.exec (h : Saved m a cur) (hm : m.exec (m.frame cur) e = .ok m') :
    Saved m' { a with cpu := Function.update a.cpu cur (execRegs (a.cpu cur) e) } cur := by
  have hpri : m.field (m.frame cur) CX = (a.cpu cur).ecx := h.frame.field (by decide) fun _ => rfl
  have hl := h.level cur h.context
  obtain ⟨m1, hm1, hm⟩ := Res.bind_eq_ok.mp hm
  obtain ⟨hframe, h1⟩ := h.execFile hm1
  rw [← Except.ok.inj hm, hpri, ← hframe]
  unfold execRegs
  by_cases hu : (a.cpu cur).ecx = privUser
  · simp only [if_pos hu]
    exact (h1.toUser hl).setField AX _ _ (by decide) (fun _ => rfl)
      (by decide : rpl (UCSeg ||| 3) ≠ 0)
  · simp only [if_neg hu]
    exact h1.setField AX _ _ (by decide) (fun _ => rfl) hl

/-- A process with a page of its own for the kernel stack. -/
theorem Stacks.add (h : Stacks m) (hpage : page.toNat % 4096 = 0)
    (hnew : ∀ p, m.sched.isFree p = false → (m.kernelInfo p).stackTop ≠ stackTopOf page)
    (hclone : (m'.kernelInfo clone).stackTop = stackTopOf page)
    (hinfo : ∀ p, p ≠ clone → m'.kernelInfo p = m.kernelInfo p)
    (hused : ∀ p, p ≠ clone → m'.sched.isFree p = false → m.sched.isFree p = false) :
    Stacks m' := by
  refine ⟨fun p hp => ?_, fun p q hp hq hpq => ?_⟩
  · by_cases hpc : p = clone
    · exact ⟨page, hpage, hpc ▸ hclone⟩
    · rw [hinfo p hpc]
      exact h.page p (hused p hpc hp)
  · by_cases hpc : p = clone
    · rw [hpc, hclone, hinfo q (hpc ▸ hpq.symm)]
      exact (hnew q (hused q (hpc ▸ hpq.symm) hq)).symm
    · rw [hinfo p hpc]
      by_cases hqc : q = clone
      · rw [hqc, hclone]
        exact hnew p (hused p hpc hp)
      · rw [hinfo q hqc]
        exact h.distinct p q (hused p hpc hp) (hused q hqc hq) hpq

/-- The new process has the frame of its parent. -/
theorem Saved.fork {pid : UInt32} (h : Saved m a cur) (hpage : page.toNat % 4096 = 0)
    (hnew : ∀ p, m.sched.isFree p = false → (m.kernelInfo p).stackTop ≠ stackTopOf page)
    (hm : m.fork page = .ok (m', pid)) :
    pid = UInt32.ofInt m.sched.pidGen ∧ m'.core.cpu = m.core.cpu ∧ m'.frame cur = m.frame cur ∧
      m.sched.fork = .ok m'.sched ∧ ∃ clone, m.sched.allocProc.2 = some clone ∧ cur ≠ clone ∧
        Saved m' ⟨Function.update a.cpu clone { a.cpu cur with eax := 0 }, m'.sched⟩ cur := by
  obtain ⟨s, hs, hm⟩ := Res.bind_eq_ok.mp hm
  obtain ⟨current, clone, hcur, halloc, hforked, hinv⟩ := fork_forked h.inv hs
  obtain rfl : cur = current := Option.some.inj (h.current.symm.trans hcur)
  simp only [hcur, halloc] at hm
  obtain ⟨rfl, rfl⟩ := Prod.mk.inj (Except.ok.inj hm)
  have hfree := hforked.free
  have hne : cur ≠ clone := by
    rintro rfl
    exact absurd (hfree.symm.trans h.used) (by simp)
  have hused {p : ProcPtr} (hp : p ≠ clone) (hpu : s.isFree p = false) :
        m.sched.isFree p = false := by
    rwa [hforked.isFree, Function.update_of_ne hp] at hpu
  have hctx {p : ProcPtr} (hp : p ≠ clone) (hpc : HasContext s p) : HasContext m.sched p :=
    ⟨hused hp hpc.1, (hforked.others p hp).1 ▸ hpc.2⟩
  let m' : Machine := { m.setupStack page cur clone with sched := s }
  have hinfo {p : ProcPtr} (hp : p ≠ clone) : m'.kernelInfo p = m.kernelInfo p :=
    Function.update_of_ne hp ..
  have hclone : (m'.kernelInfo clone).stackTop = stackTopOf page := by
    change (Function.update m.kernelInfo clone _ clone).stackTop = _
    rw [Function.update_self]
  have hpages : Stacks m' :=
    h.pages.add hpage hnew hclone (fun _ => hinfo) fun _ => hused
  have hcloneUsed : s.isFree clone = false := by
    rw [hforked.isFree, Function.update_self]
  have hlen : (words m.core.mem (m.frame cur) frameSize).length = frameSize := length_words ..
  have hframe : m'.frame cur = m.frame cur :=
    congrArg frameBase (congrArg KernelInfo.stackTop (hinfo hne))
  refine ⟨rfl, rfl, hframe, hs, clone, halloc, hne, ?_⟩
  refine ⟨⟨hinv, rfl, hpages, ?_, fun p hp => ?_, ?_, ?_, ?_, ?_⟩, ?_, h.kernel, fun p hp => ?_⟩
  · have := h.pidGen
    have := hforked.pidGen
    change 0 ≤ s.pidGen
    omega
  · dsimp only
    by_cases hpc : p = clone
    · rw [hpc, Function.update_self]
      exact h.level cur h.context
    · rw [Function.update_of_ne hpc]
      exact h.level p (hctx hpc hp)
  · exact hforked.pCurrent.trans hcur
  · refine ⟨?_, ?_⟩
    · change s.isFree cur = false
      rw [hforked.isFree, Function.update_of_ne hne]
      exact h.used
    · change (s.room cur).id ≠ -1
      rw [(hforked.others cur hne).1]
      exact h.context.2
  · change (s.room cur).retFrom ≠ .retFromFork
    rw [(hforked.others cur hne).2]
    exact h.returned
  · exact h.tss.trans (congrArg KernelInfo.stackTop (hinfo hne)).symm
  · exact h.esp.trans (congrArg frameBase (congrArg KernelInfo.stackTop (hinfo hne))).symm
  · have hmem : m'.core.mem =
        setWords m.core.mem (m'.frame clone) (words m.core.mem (m.frame cur) frameSize) := by
      rw [Machine.frame, hclone]
      exact rfl
    by_cases hpc : p = clone
    · subst hpc
      obtain ⟨st, hw⟩ := h.frame
      have hret : (m'.sched.room p).retFrom = .retFromFork := hforked.retFrom
      dsimp only
      rw [Function.update_self]
      refine (if_pos hret).mpr ⟨rfl, (a.cpu cur).eax, st, ?_⟩
      rw [hmem]
      have hread := @words_setWords m.core.mem (m'.frame p)
        (words m.core.mem (m.frame cur) frameSize) (by rw [hlen]; decide)
      rw [hlen] at hread
      exact hread.trans hw
    · dsimp only
      rw [Function.update_of_ne hpc]
      refine (h.frames p (hctx hpc hp)).congr
        (congrArg frameBase (congrArg KernelInfo.stackTop (hinfo hpc)))
        (hforked.others p hpc).2 ?_
      change words m'.core.mem _ _ = _
      rw [hmem]
      refine words_setWords_of_disjoint ?_
      rw [hlen]
      have hap := hpages.apart hp.1 hcloneUsed hpc
      rwa [show m'.frame p =
        m.frame p from congrArg frameBase (congrArg KernelInfo.stackTop (hinfo hpc))] at hap

/-- What a trap may ask of the environment. -/
structure Calm (m : Machine) (e : Env) : Prop where
  calls : ∀ op ∈ e.ops, IpcCall op
  page : e.page.toNat % 4096 = 0
  new : ∀ p, m.sched.isFree p = false → (m.kernelInfo p).stackTop ≠ stackTopOf e.page

/-- A call of the kernel. -/
theorem Saved.kernelCall (h : Saved m a cur) (he : Calm m e) (hm : m.kernelCall e = .ok m') :
    handled a.sched .call (a.cpu cur).eax e = .ok m'.sched ∧
    Saved m' ⟨a.results cur .call e, m'.sched⟩ cur := by
  have hnr : m.field (m.frame cur) AX = (a.cpu cur).eax := h.frame.field (by decide) fun _ => rfl
  unfold Machine.kernelCall at hm
  simp only [h.esp, hnr] at hm
  rw [h.sched]
  unfold handled Cpus.results
  by_cases h0 : (a.cpu cur).eax = NR_K_EXEC
  · simp only [if_pos h0, true_and] at hm ⊢
    have hs := h.exec hm
    have hsched : a.sched = m'.sched := hs.sched
    exact ⟨congrArg Except.ok (h.sched.symm.trans hsched), hsched ▸ hs⟩
  by_cases h12 : (a.cpu cur).eax = NR_K_SEND ∨ (a.cpu cur).eax = NR_K_RECV
  · have h3 : (a.cpu cur).eax ≠ NR_K_FORK := by
      rcases h12 with h1 | h2
      · rw [h1]
        decide
      · rw [h2]
        decide
    simp only [if_pos h12, h0, h3, and_false, if_false] at hm ⊢
    obtain ⟨s, hs, hm⟩ := Res.bind_eq_ok.mp hm
    obtain ⟨hq, hinv⟩ := quiet_calls h.inv he.calls hs
    rw [← Except.ok.inj hm]
    exact ⟨hs, h.quiet hq hinv⟩
  by_cases h3 : (a.cpu cur).eax = NR_K_FORK
  · simp only [if_neg h12, if_pos h3, h0, and_false, true_and, if_false] at hm ⊢
    obtain ⟨⟨m1, pid⟩, hm1, hm⟩ := Res.bind_eq_ok.mp hm
    obtain ⟨hpid, hcpu, hframe, hs, clone, halloc, hne, hsaved⟩ := h.fork he.page he.new hm1
    dsimp only at hm
    rw [← h.sched] at halloc hpid
    rw [← Except.ok.inj hm, ← hframe, halloc, ← hpid]
    refine ⟨hs, ?_⟩
    have hcur : Function.update a.cpu clone { a.cpu cur with eax := 0 } cur = a.cpu cur :=
      Function.update_of_ne hne ..
    refine hsaved.setField_cpu AX pid _ (by decide) (fun st => ?_) (h.level cur h.context)
    dsimp only
    rw [hcur]
    rfl
  · simp only [if_neg h12, h0, h3, and_false, if_false] at hm ⊢
    rw [← Except.ok.inj hm, ← h.sched]
    exact ⟨rfl, h⟩

/-- **A handler answers the process that runs.** -/
theorem Saved.intrFunc (h : Saved m a cur) (he : Calm m e) (hm : m.intrFunc irq e = .ok m') :
    handled a.sched irq (a.cpu cur).eax e = .ok m'.sched ∧
    Saved m' ⟨a.results cur irq e, m'.sched⟩ cur := by
  cases irq with
  | timer =>
    obtain ⟨s, hs, hm⟩ := Res.bind_eq_ok.mp hm
    obtain ⟨hq, hinv⟩ := quiet_tick h.inv hs
    rw [← Except.ok.inj hm]
    exact ⟨h.sched ▸ hs, h.quiet hq hinv⟩
  | keyboard =>
    obtain ⟨s, hs, hm⟩ := Res.bind_eq_ok.mp hm
    obtain ⟨hq, hinv⟩ := quiet_notify h.inv hs
    rw [← Except.ok.inj hm]
    exact ⟨h.sched ▸ hs, h.quiet hq hinv⟩
  | call => exact h.kernelCall he hm

/-! ## `schedule` -/

/-- What the switch to a process has to leave. -/
theorem Saved.switch (h : Saved m a cur) (hinv : Inv m'.sched) (hsw : Switched m.sched m'.sched p)
    (hctx : HasContext m.sched p)
    (htop : ∀ q, (m'.kernelInfo q).stackTop = (m.kernelInfo q).stackTop)
    (htss : m'.tss.esp0 = (m.kernelInfo p).stackTop) (hesp : m'.core.cpu.esp = m.frame p)
    (hcs : m'.core.cpu.cs = m.core.cpu.cs) (hself : Frame m'.core.mem (m.frame p) (a.cpu p))
    (hrest : ∀ q, HasContext m.sched q → q ≠ p → words m'.core.mem (m.frame q) frameSize =
    words m.core.mem (m.frame q) frameSize) :
    Saved m' { a with sched := m'.sched } p := by
  have hframe (q : ProcPtr) : m'.frame q = m.frame q := congrArg frameBase (htop q)
  have hctx' {q : ProcPtr} : HasContext m'.sched q ↔ HasContext m.sched q := by
    rw [HasContext, HasContext, hsw.isFree, hsw.id]
  have hret : (m'.sched.room p).retFrom ≠ .retFromFork := by
    by_cases hpc : m.sched.pCurrent = some p
    · rw [hsw.self hpc]
      obtain rfl : cur = p := Option.some.inj (h.current.symm.trans hpc)
      exact h.returned
    · rw [hsw.switched hpc]
      simp
  refine ⟨⟨hinv, rfl, ⟨fun q hq => ?_, fun q q' hq hq' => ?_⟩, hsw.pidGen ▸ h.pidGen, fun q hq =>
    h.level q (hctx'.mp hq), hsw.pCurrent, hctx'.mpr hctx, hret, htss.trans (htop p).symm⟩,
    hesp.trans (hframe p).symm,
    (congrArg rpl hcs).trans h.kernel, fun q hq => ?_⟩
  · rw [htop]
    exact h.pages.page q (hsw.isFree ▸ hq)
  · rw [htop, htop]
    exact h.pages.distinct q q' (hsw.isFree ▸ hq) (hsw.isFree ▸ hq')
  · by_cases hqp : q = p
    · rw [hqp, holds_iff hret, hframe]
      exact hself
    · exact (h.frames q (hctx'.mp hq)).congr (hframe q) (hsw.others q hqp)
        (hrest q (hctx'.mp hq) hqp)

/-- The result of `fork` in the new process. -/
theorem Holds.retFrom (h : Holds m p r) :
    Frame (m.retFrom p (m.sched.room p).retFrom).core.mem (m.frame p) r := by
  by_cases hret : (m.sched.room p).retFrom = .retFromFork
  · rw [Holds, if_pos hret] at h
    obtain ⟨hax, eax, st, hw⟩ := h
    rw [hret]
    refine ⟨st, (words_update (by decide) (by decide)).trans ?_⟩
    rw [hw, ← hax]
    rfl
  · rw [holds_iff hret] at h
    cases hf : (m.sched.room p).retFrom with
    | retFromFork => exact absurd hf hret
    | kernel2user => exact h
    | callback f serial => exact h

theorem words_retFrom (h : Apart base frameSize (m.frame p) frameSize) (func : RetFrom) :
    words (m.retFrom p func).core.mem base frameSize = words m.core.mem base frameSize := by
  cases func with
  | retFromFork => exact words_update_of_apart fun j hj k hk => h j hj k (lt_trans hk (by decide))
  | kernel2user => rfl
  | callback f serial => rfl

theorem retFrom_kept (m : Machine) (p : ProcPtr) (func : RetFrom) :
    (m.retFrom p func).kernelInfo = m.kernelInfo ∧
    (m.retFrom p func).sched = m.sched ∧ (m.retFrom p func).tss = m.tss ∧
    (m.retFrom p func).core.cpu = m.core.cpu := by
  cases func <;> exact ⟨rfl, rfl, rfl, rfl⟩

theorem retFrom_mem (m m' : Machine) (hmem : m'.core.mem = m.core.mem) (hf : m'.frame p = m.frame p)
    (func : RetFrom) :
    (m'.retFrom p func).core.mem = (m.retFrom p func).core.mem := by
  cases func with
  | retFromFork =>
    change Function.update m'.core.mem (at_ (m'.frame p) AX) 0 =
      Function.update m.core.mem (at_ (m.frame p) AX) 0
    rw [hmem, hf]
  | kernel2user => exact hmem
  | callback f serial => exact hmem

/-- `swap_esp` changes the `sp` that nothing reads. -/
theorem swapEsp_stackTop (m : Machine) (prev q : ProcPtr) :
    ((m.swapEsp prev).kernelInfo q).stackTop = (m.kernelInfo q).stackTop := by
  change (Function.update m.kernelInfo prev _ q).stackTop = _
  by_cases hq : q = prev
  · rw [hq, Function.update_self]
  · rw [Function.update_of_ne hq]

/-- **`schedule` leaves the registers of all the processes.** -/
theorem Saved.schedule (h : Saved m a cur) (hidle : Idle m.sched) (hm : m.schedule = .ok m') :
    a.sched.schedule = .ok m'.sched ∧ ∃ p, Saved m' { a with sched := m'.sched } p := by
  obtain ⟨s, hs, hm⟩ := Res.bind_eq_ok.mp hm
  have hinv : Inv s := h.inv.step (o := .schedule) hs
  rw [h.sched]
  obtain ⟨hsel, hq⟩ | ⟨p, hsel, hrun, hused, hsw⟩ := schedule_switched h.inv hs
  · simp only [hsel] at hm
    rw [← Except.ok.inj hm]
    exact ⟨hs, cur, h.quiet hq hinv⟩
  have hctx : HasContext m.sched p :=
    ⟨hused, fun hid => absurd ((hidle.asleep p hused hid).symm.trans hrun) (by simp)⟩
  simp only [hsel, h.current] at hm
  by_cases hpc : p = cur
  · rw [if_pos hpc] at hm
    rw [← Except.ok.inj hm, hpc]
    rw [hpc] at hsw
    refine ⟨hs, cur, h.switch ?_ ?_ h.context (fun _ => rfl) h.tss rfl rfl h.frame fun _ _ _ => rfl⟩
    · exact hinv
    · exact hsw
  · rw [if_neg hpc] at hm
    let m₁ := ({ m with sched := s }.setFrame2TSS (m.kernelInfo p)).swapEsp cur
    have htop (q : ProcPtr) : (m₁.kernelInfo q).stackTop = (m.kernelInfo q).stackTop :=
      swapEsp_stackTop _ cur q
    have hframe : m₁.frame p = m.frame p := congrArg frameBase (htop p)
    obtain ⟨hinfo, hsched, htss, hcpu⟩ := retFrom_kept m₁ p (m.sched.room p).retFrom
    have hmem := retFrom_mem m m₁ rfl hframe (m.sched.room p).retFrom
    obtain rfl := Except.ok.inj hm
    have hs' : m.sched.schedule = .ok (m₁.retFrom p (m.sched.room p).retFrom).sched :=
      hs.trans (congrArg _ hsched.symm)
    refine ⟨hs', p, h.switch ?_ ?_ hctx (fun q => ?_) ?_ ?_ ?_ ?_ fun q hq hqp => ?_⟩
    · exact hsched ▸ hinv
    · exact hsched ▸ hsw
    · exact (congrArg (fun f => (f q).stackTop) hinfo).trans (htop q)
    · exact congrArg TSS32.esp0 htss
    · exact congrArg frameBase ((congrArg (fun f => (f p).stackTop) hinfo).trans (htop p))
    · change (m₁.retFrom p (m.sched.room p).retFrom).core.cpu.cs = _
      rw [hcpu]
      rfl
    · exact hmem ▸ (h.frames p hctx).retFrom
    · refine (congrArg (words · _ _) hmem).trans (words_retFrom (h.pages.apart hq.1 hused hqp) _)

/-! ## Steps -/

/-- **A trap of the machine is a trap of the processes.** -/
theorem Running.trap (h : Running m a cur) (hidle : Idle m.sched) (hl : Legal m (.trap irq e))
    (hm : m.trap irq e = .ok m') :
    Idle m'.sched ∧ ∃ a' p, a.step (.trap irq e) = .ok a' ∧ Running m' a' p := by
  obtain ⟨hops, hpage, hnew⟩ := hl
  obtain ⟨m₁, hm₁, hm⟩ := Res.bind_eq_ok.mp hm
  obtain ⟨m₂, hm₂, hm⟩ := Res.bind_eq_ok.mp hm
  have henter := (h.enter e.offset).scribble e.junk
  obtain ⟨hhandled, hsaved⟩ := henter.intrFunc ⟨hops, hpage, hnew⟩ hm₁
  have hidle₁ : Idle m₁.sched := (h.sched.symm ▸ hidle : Idle a.sched).handled hops hhandled
  have hend := ((hsaved.clobber e.regs).endOfInterrupt irq).clobber e.regs'
  have hsched : ((m₁.withCore (m₁.core.clobber e.regs)).endOfInterrupt irq).sched = m₁.sched := by
    cases irq <;> rfl
  obtain ⟨hs, p, hp⟩ := hend.schedule (hsched ▸ hidle₁) hm₂
  have hm' : m₂.withCore m₂.core.load.iret = m' := Except.ok.inj hm
  refine ⟨hm' ▸ hidle₁.schedule hs, ⟨a.results cur irq e, m₂.sched⟩, p, ?_, hm' ▸ hp.leave⟩
  unfold Cpus.step
  rw [h.sched, h.current, ← h.sched]
  exact Res.bind_eq_ok.mpr ⟨m₁.sched, hhandled, Res.bind_eq_ok.mpr ⟨m₂.sched, hs, rfl⟩⟩

/-- **A step of the machine is a step of the processes.** -/
theorem Running.step {ev : Event} (h : Running m a cur) (hidle : Idle m.sched) (hl : Legal m ev)
    (hm : m.step ev = .ok m') : Idle m'.sched ∧ ∃ a' p, a.step ev = .ok a' ∧ Running m' a' p := by
  cases ev with
  | user r junk =>
    obtain rfl := Except.ok.inj hm
    refine ⟨hidle, { a with cpu := Function.update a.cpu cur r }, cur, ?_,
      (h.scribble junk).compute hl⟩
    unfold Cpus.step
    rw [h.sched, h.current]
  | trap irq e => exact h.trap hidle hl hm

end OwnOS.Context
