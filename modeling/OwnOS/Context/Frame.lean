import OwnOS.Context.Model

/-!
# The frame on the kernel stack (`stack_frame_s`)

What the processor and `save` push is a `stack_frame_s` that ends where the stack of the TSS starts,
and `load` and `iret` read it back.

* `trap_saves`: the interrupt of code that is not the kernel leaves its registers in the frame.
* `load_iret_eq`: `load` and `iret` make the registers of the frame the registers of the processor,
  whatever they were.
* `irqSlave_returns_iff`: `irq_slave` does not: it gives back `eax` and `edx` with the low bits that
  it used itself.
-/

namespace OwnOS.Context

open Lib WordMem

/-- The frame at the address holds the registers. -/
def Frame (m : WordMem) (base : UInt32) (r : Cpu) : Prop :=
  ∃ st, words m base frameSize = frameWords r st

/-! ## Pushing -/

namespace Core

variable {c : Core} {r : Cpu}

theorem pushAll_eq (c : Core) (ws : List UInt32) : c.pushAll ws =
    ⟨{ c.cpu with esp := (pushes c.mem c.cpu.esp ws).2 }, (pushes c.mem c.cpu.esp ws).1⟩ := by
  induction ws generalizing c with
  | nil => rfl
  | cons w ws ih => exact ih _

/-- What the processor and `save` push, in this order. -/
def pushed (r : Cpu) (st : UInt32) : List UInt32 :=
  [r.ss.toUInt32, r.esp] ++
    ([r.eflags, r.cs.toUInt32, r.eip] ++ ([r.eax, r.ecx, r.edx, r.ebx, st, r.ebp, r.esi,
    r.edi] ++ [r.ds.toUInt32, r.es.toUInt32, r.fs.toUInt32, r.gs.toUInt32]))

theorem reverse_pushed (r : Cpu) (st : UInt32) : (pushed r st).reverse = frameWords r st := rfl

theorem length_pushed (r : Cpu) (st : UInt32) : (pushed r st).length = frameSize := rfl

theorem save_interrupt (h : rpl c.cpu.cs ≠ 0) (tss : TSS32) (selector : UInt16) (offset : UInt32) :
    ∃ st,
    ((c.interrupt tss selector offset).save).mem = (pushes c.mem tss.esp0 (pushed c.cpu st)).1 ∧
      ((c.interrupt tss selector offset).save).cpu.esp =
        (pushes c.mem tss.esp0 (pushed c.cpu st)).2 ∧
      ((c.interrupt tss selector offset).save).cpu.cs = selector := by
  simp only [interrupt, if_pos h, save, pushad, pushAll_eq, pushed, pushes_append]
  exact ⟨_, rfl, rfl, trivial⟩

end Core

variable {c : Core} {base : UInt32} {r : Cpu}

/-- **The registers are in the frame.** -/
theorem trap_saves (h : rpl c.cpu.cs ≠ 0) (tss : TSS32) (selector : UInt16) (offset : UInt32) :
    let c' := (c.interrupt tss selector offset).save
    c'.cpu.esp = frameBase tss.esp0 ∧ c'.cpu.cs = selector ∧
    Frame c'.mem (frameBase tss.esp0) c.cpu ∧
      ∀ a n, Apart a n (frameBase tss.esp0) frameSize → words c'.mem a n = words c.mem a n := by
  intro c'
  obtain ⟨st, hmem, hesp, hcs⟩ := Core.save_interrupt h tss selector offset
  rw [pushes_eq tss.esp0 (by rw [Core.length_pushed]; decide)] at hesp hmem
  rw [Core.reverse_pushed] at hmem
  refine ⟨hesp, hcs, ⟨st, ?_⟩, fun a n ha => ?_⟩
  · rw [hmem]
    exact words_setWords (show (frameWords c.cpu st).length < 2 ^ 30 from by simp [frameWords])
  · rw [hmem]
    exact words_setWords_of_disjoint ha

/-! ## Loading -/

/-- The part of the frame that `load` reads. -/
theorem load_eq (hf : Frame c.mem c.cpu.esp r) : c.load =
    ⟨{ r with
      esp := at_ c.cpu.esp 12, eip := c.cpu.eip, eflags := c.cpu.eflags, cs := c.cpu.cs,
      ss := c.cpu.ss }, c.mem⟩ := by
  obtain ⟨st, hf⟩ := hf
  simp only [frameSize, words, frameWords, List.cons.injEq, and_true] at hf
  obtain ⟨h0, h1, h2, h3, h4, h5, h6, -, h8, h9, h10, h11, -⟩ := hf
  simp only [Core.load, Core.popad, Core.drop, Core.top, h0, h1, h2, h3, h4, h5, h6, h8, h9, h10,
    h11, at_succ, at_zero, UInt16.toUInt16_toUInt32]

/-- What `iret` reads. -/
theorem iret_words {eip eflags esp : UInt32} {cs ss : UInt16}
    (hw : words c.mem c.cpu.esp 5 = [eip, cs.toUInt32, eflags, esp, ss.toUInt32])
    (hk : rpl c.cpu.cs = 0) (hr : rpl cs ≠ 0) :
    c.iret = ⟨{ c.cpu with eip, cs, eflags, esp, ss }, c.mem⟩ := by
  simp only [words, List.cons.injEq, and_true] at hw
  obtain ⟨h0, h1, h2, h3, h4⟩ := hw
  have hgt : rpl cs > 0 := by
    rw [gt_iff_lt, UInt16.lt_iff_toNat_lt]
    exact Nat.pos_of_ne_zero fun h => hr (UInt16.toNat.inj h)
  simp only [Core.iret, Core.drop, Core.top, h0, h1, h2, h3, h4, UInt16.toUInt16_toUInt32,
    hk, if_pos hgt]

/-- The part of the frame that `iret` reads. -/
theorem iret_eq (hf : Frame c.mem base r) (hesp : c.cpu.esp = at_ base 12) (hk : rpl c.cpu.cs = 0)
    (hr : rpl r.cs ≠ 0) :
    c.iret = ⟨{ c.cpu with eip := r.eip, cs := r.cs, eflags := r.eflags, esp := r.esp, ss := r.ss },
      c.mem⟩ := by
  obtain ⟨st, hf⟩ := hf
  simp only [frameSize, words, frameWords, List.cons.injEq, and_true] at hf
  obtain ⟨-, -, -, -, -, -, -, -, -, -, -, -, h12, h13, h14, h15, h16⟩ := hf
  simp only [at_succ, at_zero] at hesp
  refine iret_words ?_ hk hr
  simp only [words, hesp, h12, h13, h14, h15, h16]

/-- **The registers are the ones of the frame.** -/
theorem load_iret_eq (hf : Frame c.mem c.cpu.esp r) (hk : rpl c.cpu.cs = 0) (hr : rpl r.cs ≠ 0) :
    c.load.iret = ⟨r, c.mem⟩ := by
  rw [load_eq hf]
  exact iret_eq hf rfl hk hr

/-! ## The end of `irq_slave` -/

theorem and_or_distrib (x A B : UInt32) : x &&& (A ||| B) = (x &&& A) ||| (x &&& B) :=
  UInt32.toBitVec_inj.mp BitVec.and_or_distrib_left

/-- Two masks that split a word, and a part `w` below the second. -/
theorem or_eq_self_iff {x A B w : UInt32} (hor : A ||| B = 0xFFFFFFFF) (hand : B &&& A = 0)
    (hw : B &&& w = w) :
    (x &&& A) ||| w = x ↔ x &&& B = w := by
  constructor
  · intro h
    have h' : B &&& (x &&& A ||| w) = B &&& x := congrArg (B &&& ·) h
    rw [and_or_distrib, UInt32.and_comm x, ← UInt32.and_assoc, hand, UInt32.zero_and,
      UInt32.zero_or, hw] at h'
    rw [UInt32.and_comm, h']
  · intro h
    rw [← h, ← and_or_distrib, hor]
    exact UInt32.and_neg_one

/-- The first of two writes to the low part. -/
theorem or_and_or {x A v w : UInt32} (hA : A &&& A = A) (hv : A &&& v = 0) :
    ((x &&& A ||| v) &&& A) ||| w = (x &&& A) ||| w := by
  rw [UInt32.and_comm (x &&& A ||| v), and_or_distrib, hv, UInt32.or_zero, UInt32.and_comm x,
    ← UInt32.and_assoc, hA]

theorem and_byte (v : UInt8) : (0xFFFFFF00 : UInt32) &&& v.toUInt32 = 0 := by
  have h : ∀ k < 256, (0xFFFFFF00 : UInt32) &&& UInt32.ofNat k = 0 := by decide +kernel
  rw [← UInt8.ofNat_toNat (x := v), UInt8.toUInt32_ofNat' v.toNat_lt]
  exact h v.toNat v.toNat_lt

theorem irqSlaveEnd_eq (hf : Frame c.mem c.cpu.esp r) (hk : rpl c.cpu.cs = 0) (hr : rpl r.cs ≠ 0)
    (n : UInt8) :
    c.irqSlaveEnd n = ⟨{ r with
      edx := (r.edx &&& 0xFFFF0000) ||| 0x20, eax := (r.eax &&& 0xFFFFFF00) ||| 0x62 }, c.mem⟩ := by
  rw [Core.irqSlaveEnd, load_eq hf]
  refine Eq.trans (iret_eq hf rfl hk hr) ?_
  dsimp only [Core.outRegs, Core.setLow, Core.setByte]
  rw [or_and_or rfl (and_byte _), or_and_or rfl rfl]
  rfl

/-- **`irq_slave` gives back other registers** unless they hold what it used last: the port in `dx`
and the value in `al`. -/
theorem irqSlave_returns_iff (hf : Frame c.mem c.cpu.esp r) (hk : rpl c.cpu.cs = 0)
    (hr : rpl r.cs ≠ 0) (n : UInt8) :
    (c.irqSlaveEnd n).cpu = r ↔ r.edx &&& 0xFFFF = 0x20 ∧ r.eax &&& 0xFF = 0x62 := by
  rw [irqSlaveEnd_eq hf hk hr, ← or_eq_self_iff (A := 0xFFFF0000) rfl rfl rfl,
    ← or_eq_self_iff (A := 0xFFFFFF00) rfl rfl rfl]
  constructor
  · intro h
    exact ⟨congrArg Cpu.edx h, congrArg Cpu.eax h⟩
  · rintro ⟨hd, ha⟩
    dsimp only
    rw [hd, ha]

/-- A process that the second IDE disk interrupts. -/
def cpuUser : Cpu :=
  ⟨1, 2, 3, 4, 0x3FFFFF00, 5, 6, 7, 0x100020, 0x202, TCSeg ||| 1, TDSeg ||| 1, 8, 9, 10, 11⟩

def coreHandler : Core :=
  ⟨{ cpuUser with esp := 0x5000, cs := KCSeg }, setWords (fun _ => 0) 0x5000 (frameWords cpuUser 0)⟩

theorem irqSlave_returns_iff_handler : (coreHandler.irqSlaveEnd 14).cpu ≠ cpuUser := by
  have hframe : Frame coreHandler.mem coreHandler.cpu.esp cpuUser :=
    ⟨0, words_setWords (show (frameWords cpuUser 0).length < 2 ^ 30 from by decide)⟩
  intro h
  have hiff := irqSlave_returns_iff hframe (by decide) (by decide) 14
  exact absurd (hiff.mp h).1 (by decide)

end OwnOS.Context
