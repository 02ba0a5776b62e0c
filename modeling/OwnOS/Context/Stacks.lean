import OwnOS.Context.Frame
import OwnOS.Context.Quiet

/-!
# The kernel stacks

Each process has a page for its kernel stack, with the frame at the top of it. Frames of two
processes share no word (`Stacks.apart`), so that only the code that writes to a frame changes it.

`Saved` is the state inside a trap: the frame of every process holds the registers of the process,
the one that runs included. `Running` is the state outside: they are in the processor for the one
that runs. A process that has not returned from `fork` yet has another value in place of its result.
-/

namespace OwnOS.Context

open Lib WordMem Sched

variable {m m' : Machine} {a a' : Cpus} {p q cur : ProcPtr} {r r' : Cpu} {page base : UInt32}
  {i : Nat} {w : UInt32}

/-- The pages of the kernel stacks. -/
structure Stacks (m : Machine) : Prop where
  page : ∀ p, m.sched.isFree p = false → ∃ page : UInt32, page.toNat % 4096 = 0 ∧
    (m.kernelInfo p).stackTop = stackTopOf page
  distinct : ∀ p q, m.sched.isFree p = false → m.sched.isFree q = false → p ≠ q →
    (m.kernelInfo p).stackTop ≠ (m.kernelInfo q).stackTop

/-! ## Addresses -/

theorem frameBase_stackTopOf (page : UInt32) : frameBase (stackTopOf page) = page + 4024 := by
  have h := page.toNat_lt
  refine UInt32.toNat.inj ?_
  simp only [frameBase, stackTopOf, UInt32.toNat_sub, UInt32.toNat_add, UInt32.reduceToNat]
  omega

theorem toNat_frame (hp : page.toNat % 4096 = 0) (hi : i < frameSize) :
    (at_ (frameBase (stackTopOf page)) i).toNat = page.toNat + 4024 + 4 * i := by
  have h := page.toNat_lt
  unfold frameSize at hi
  rw [frameBase_stackTopOf, at_, UInt32.toNat_add, UInt32.toNat_add, UInt32.toNat_ofNat',
    show (4024 : UInt32).toNat = 4024 from rfl]
  omega

/-- Frames of two pages share no word. -/
theorem frames_apart {page' : UInt32} (hp : page.toNat % 4096 = 0) (hp' : page'.toNat % 4096 = 0)
    (hne : stackTopOf page ≠ stackTopOf page') :
    Apart (frameBase (stackTopOf page)) frameSize (frameBase (stackTopOf page')) frameSize := by
  intro i hi j hj he
  have hlt := congrArg UInt32.toNat he
  rw [toNat_frame hp hi, toNat_frame hp' hj] at hlt
  unfold frameSize at hi hj
  refine hne (congrArg stackTopOf (UInt32.toNat.inj ?_))
  omega

theorem Stacks.apart (h : Stacks m) (hp : m.sched.isFree p = false) (hq : m.sched.isFree q = false)
    (hne : p ≠ q) :
    Apart (m.frame p) frameSize (m.frame q) frameSize := by
  obtain ⟨page, hpage, hp'⟩ := h.page p hp
  obtain ⟨page', hpage', hq'⟩ := h.page q hq
  have hd := h.distinct p q hp hq hne
  rw [hp', hq'] at hd
  rw [Machine.frame, Machine.frame, hp', hq']
  exact frames_apart hpage hpage' hd

theorem inFrame_frame (hp : m.sched.isFree p = false) (hi : i < frameSize) :
    m.InFrame (at_ (m.frame p) i) := by
  refine ⟨p, hp, ?_⟩
  unfold frameSize at hi
  have hsub : at_ (m.frame p) i - frameBase (m.kernelInfo p).stackTop = UInt32.ofNat (4 * i) := by
    rw [Machine.frame, at_, UInt32.add_comm]
    exact UInt32.add_sub_cancel ..
  rw [hsub, UInt32.lt_iff_toNat_lt, UInt32.toNat_ofNat', Nat.mod_eq_of_lt (by omega)]
  change 4 * i < 68
  omega

/-- Changing the rest of the memory leaves the frames. -/
theorem words_scribble (hp : m.sched.isFree p = false) (junk : WordMem) :
    words (m.scribble junk).core.mem (m.frame p) frameSize =
      words m.core.mem (m.frame p) frameSize :=
  words_congr fun _ hi => if_pos (inFrame_frame hp hi)

/-! ## Frames that hold registers -/

/-- The frame of the process holds the registers, but for the result of `fork` before the process
runs. -/
def Holds (m : Machine) (p : ProcPtr) (r : Cpu) : Prop :=
  if (m.sched.room p).retFrom = .retFromFork then r.eax = 0 ∧ ∃ eax,
    Frame m.core.mem (m.frame p) { r with eax }
  else Frame m.core.mem (m.frame p) r

/-- A frame depends on its own words. -/
theorem Holds.congr (h : Holds m p r) (hf : m'.frame p = m.frame p)
    (hret : (m'.sched.room p).retFrom = (m.sched.room p).retFrom)
    (hw : words m'.core.mem (m.frame p) frameSize = words m.core.mem (m.frame p) frameSize) :
    Holds m' p r := by
  unfold Holds Frame at *
  rw [hret, hf, hw]
  exact h

theorem holds_iff (hret : (m.sched.room p).retFrom ≠ .retFromFork) :
    Holds m p r ↔ Frame m.core.mem (m.frame p) r := by
  rw [Holds, if_neg hret]

/-- A process that can run. -/
def HasContext (s : Sched) (p : ProcPtr) : Prop := s.isFree p = false ∧ (s.room p).id ≠ -1

theorem Quiet.hasContext {s s' : Sched} (h : Quiet s s') : HasContext s' p ↔ HasContext s p := by
  rw [HasContext, HasContext, h.isFree, h.id]

/-! ## The two relations -/

/-- The machine and the processes, in and outside of a trap. -/
structure Common (m : Machine) (a : Cpus) (cur : ProcPtr) : Prop where
  inv : Inv m.sched
  sched : a.sched = m.sched
  pages : Stacks m
  pidGen : 0 ≤ m.sched.pidGen
  level : ∀ p, HasContext m.sched p → rpl (a.cpu p).cs ≠ 0
  current : m.sched.pCurrent = some cur
  context : HasContext m.sched cur
  returned : (m.sched.room cur).retFrom ≠ .retFromFork
  tss : m.tss.esp0 = (m.kernelInfo cur).stackTop

/-- Inside a trap. -/
structure Saved (m : Machine) (a : Cpus) (cur : ProcPtr) : Prop extends Common m a cur where
  esp : m.core.cpu.esp = m.frame cur
  kernel : rpl m.core.cpu.cs = 0
  frames : ∀ p, HasContext m.sched p → Holds m p (a.cpu p)

/-- Outside. -/
structure Running (m : Machine) (a : Cpus) (cur : ProcPtr) : Prop extends Common m a cur where
  cpu : m.core.cpu = a.cpu cur
  frames : ∀ p, HasContext m.sched p → p ≠ cur → Holds m p (a.cpu p)

theorem Common.used (h : Common m a cur) : m.sched.isFree cur = false := h.context.1

/-! ## Into the kernel and out of it -/

theorem Common.withCore (h : Common m a cur) (c : Core) : Common (m.withCore c) a cur :=
  ⟨h.inv, h.sched, ⟨h.pages.page, h.pages.distinct⟩, h.pidGen, h.level, h.current,
    h.context, h.returned, h.tss⟩

/-- **A trap saves the registers of the process that runs.** -/
theorem Running.enter (h : Running m a cur) (offset : UInt32) :
    Saved (m.withCore (m.core.interrupt m.tss KCSeg offset).save) a cur := by
  have hlevel : rpl m.core.cpu.cs ≠ 0 := by
    rw [h.cpu]
    exact h.level cur h.context
  obtain ⟨hesp, hcs, hframe, hrest⟩ := trap_saves hlevel m.tss KCSeg offset
  have hbase : frameBase m.tss.esp0 = m.frame cur := congrArg frameBase h.tss
  rw [hbase] at hesp hframe hrest
  refine ⟨h.toCommon.withCore _, hesp, ?_, fun p hp => ?_⟩
  · rw [Machine.withCore, hcs]
    rfl
  · by_cases hpc : p = cur
    · rw [hpc]
      have hret : ((m.withCore (m.core.interrupt m.tss KCSeg offset).save).sched.room cur).retFrom ≠
          .retFromFork :=
        h.returned
      rw [holds_iff hret, ← h.cpu]
      exact hframe
    · exact (h.frames p hp hpc).congr rfl rfl (hrest _ _ (h.pages.apart hp.1 h.used hpc))

/-- The rest of the memory and of the registers do not matter. -/
theorem Saved.scribble (h : Saved m a cur) (junk : WordMem) : Saved (m.scribble junk) a cur :=
  ⟨h.toCommon.withCore _, h.esp, h.kernel, fun p hp => (h.frames p hp).congr rfl rfl
    (words_scribble (m := m) hp.1 junk)⟩

theorem Running.scribble (h : Running m a cur) (junk : WordMem) : Running (m.scribble junk) a cur :=
  ⟨h.toCommon.withCore _, h.cpu, fun p hp hpc => (h.frames p hp hpc).congr rfl rfl
    (words_scribble (m := m) hp.1 junk)⟩

theorem Saved.withCpu (h : Saved m a cur) {c : Cpu} (hesp : c.esp = m.core.cpu.esp)
    (hcs : c.cs = m.core.cpu.cs) :
    Saved (m.withCore ⟨c, m.core.mem⟩) a cur :=
  ⟨h.toCommon.withCore _, hesp.trans h.esp, (congrArg rpl hcs).trans h.kernel, h.frames⟩

theorem Saved.clobber (h : Saved m a cur) (r : Cpu) :
    Saved (m.withCore (m.core.clobber r)) a cur := h.withCpu rfl rfl

theorem Saved.endOfInterrupt (h : Saved m a cur) (irq : Irq) :
    Saved (m.endOfInterrupt irq) a cur := by
  cases irq with
  | timer => exact h.withCpu rfl rfl
  | keyboard => exact h.withCpu rfl rfl
  | call => exact h

/-- **Leaving the kernel gives back the registers of the process that runs then.** -/
theorem Saved.leave (h : Saved m a cur) : Running (m.withCore m.core.load.iret) a cur := by
  have hframe : Frame m.core.mem m.core.cpu.esp (a.cpu cur) := by
    rw [h.esp]
    exact (holds_iff h.returned).mp (h.frames cur h.context)
  rw [load_iret_eq hframe h.kernel (h.level cur h.context)]
  exact ⟨h.toCommon.withCore _, rfl, fun p hp _ => h.frames p hp⟩

/-- Other registers for the process that runs. -/
theorem Common.setCpu (h : Common m a cur) (hr : rpl r.cs ≠ 0) :
    Common m { a with cpu := Function.update a.cpu cur r } cur := by
  refine ⟨h.inv, h.sched, h.pages, h.pidGen, fun p hp => ?_, h.current,
    h.context, h.returned, h.tss⟩
  dsimp only
  by_cases hpc : p = cur
  · rw [hpc, Function.update_self]
    exact hr
  · rw [Function.update_of_ne hpc]
    exact h.level p hp

/-- The process that runs computes. -/
theorem Running.compute (h : Running m a cur) (hr : rpl r.cs ≠ 0) :
    Running (m.withCore ⟨r, m.core.mem⟩) { a with cpu := Function.update a.cpu cur r } cur := by
  refine ⟨(h.toCommon.withCore _).setCpu hr, ?_, fun p hp hpc => ?_⟩
  · dsimp only
    rw [Function.update_self]
    rfl
  · dsimp only
    rw [Function.update_of_ne hpc]
    exact h.frames p hp hpc

end OwnOS.Context
