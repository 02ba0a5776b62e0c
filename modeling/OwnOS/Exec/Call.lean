import OwnOS.Disk.Fopen
import OwnOS.VarMem.Fork
import OwnOS.VarMem.NewDir

/-!
# The `NR_K_EXEC` call (`irq.cpp:92-113`, `exec.cpp`)

The call opens the file, loads it, sets the saved segment registers and stack pointer when the
caller asked for `priv_user`, and puts what `exec` left behind into `ax`. The saved registers are
the `stack_frame_s` on top of the kernel stack, where `after_exec` writes `pc` too.

What the source does not fix is in `ExecEnv`: `exec` has no return statement, the file of a path
that was not resolved has no file system, and the path is the format of a `kprintf`.

* `execCall_clean_iff`: when a call that loads nothing changes nothing, and what a call that loads a
  program reports.
-/

namespace OwnOS

open Lib Disk VarMem VarMem.Machine

/-! ## The saved registers -/

/-- The members of `stack_frame_s`. -/
inductive Reg where
  | gs | fs | es | ds | di | si | bp | st | bx | dx | cx | ax | pc | cs | psw | sp | ss
  deriving DecidableEq

/-- The position in `stack_frame_s`. -/
def Reg.num : Reg → Nat
  | .gs => 0
  | .fs => 1
  | .es => 2
  | .ds => 3
  | .di => 4
  | .si => 5
  | .bp => 6
  | .st => 7
  | .bx => 8
  | .dx => 9
  | .cx => 10
  | .ax => 11
  | .pc => 12
  | .cs => 13
  | .psw => 14
  | .sp => 15
  | .ss => 16

/-- `&regs->r`. -/
def regAddr (p : Proc) (r : Reg) : UInt32 := entryAddr (p.stackTop - 4 * 17) r.num

/-- `regs->r = v`. -/
def setReg (m : Machine) (p : Proc) (r : Reg) (v : UInt32) : Res Machine := m.store (regAddr p r) v

/-- `priv_user`. -/
def privUser : UInt32 := 1

/-- `Desc::UCSeg`. -/
def ucSeg : UInt32 := 0x28

/-- `Desc::UDSeg`. -/
def udSeg : UInt32 := 0x30

/-- `VarMem::user_stack_end`. -/
def userStackEnd : UInt32 := 0x80000000

/-- What `kernelCall` writes for `priv_user`, in this order (`irq.cpp:105-109`). -/
def userRegs : List (Reg × UInt32) :=
  [(.ss, udSeg ||| 3), (.ds, udSeg ||| 3), (.es, udSeg ||| 3),
    (.fs, udSeg ||| 3), (.gs, udSeg ||| 3), (.cs, ucSeg ||| 3), (.sp, userStackEnd - 0x10)]

/-! ## The call -/

/-- What surrounds the call. -/
structure ExecEnv where
  fs : FileSystem
  getInode : UInt32 → Inode
  junk : Junk
  fjunk : FopenJunk
  fuel : Nat
  fresh : Buf
  /-- `kprintf` with the path as its format. -/
  kprintf : Buf → Res Unit
  /-- What the loader reads of an open file. -/
  elf : Disk.File → ElfFile
  /-- What it reads of the file that `fopen` returns for a path it cannot resolve. -/
  invalid : Res ElfFile
  /-- What `exec` returns after `load_elf_executable` returned this. -/
  left : Bool → UInt32

namespace ExecEnv

variable (x : ExecEnv)

/-- `fs->fopen(kstring(filepath))`. -/
def fopen (filepath : Buf) : Res (Option Disk.File) :=
  x.fs.fopen x.getInode x.junk x.fjunk x.fuel (.ofStr x.fresh filepath)

/-- What the loader reads. -/
def image (filepath : Buf) : Res ElfFile := do
  match ← x.fopen filepath with
  | some file => .ok (x.elf file)
  | none => x.invalid

/-- `exec` (`exec.cpp:6-9`). -/
def exec (m : Machine) (file : ElfFile) : Res (Machine × UInt32) := do
  let (m, ok) ← m.loadElfExecutable file
  .ok (m, x.left ok)

/-- `case NR_K_EXEC` (`irq.cpp:92-110`), with `success`. -/
def execBody (m : Machine) (p : Proc) (filepath : Buf) (pri : UInt32) : Res (Machine × Bool) := do
  x.kprintf filepath
  let file ← x.image filepath
  let (m, ret) ← x.exec m file
  let success := ret != 0
  if pri = privUser then do
    let m ← userRegs.foldlM (fun m r => setReg m p r.1 r.2) m
    .ok (m, success)
  else .ok (m, success)

/-- The whole call: `regs->ax = success`. -/
def execCall (m : Machine) (p : Proc) (filepath : Buf) (pri : UInt32) : Res Machine := do
  let (m, success) ← x.execBody m p filepath pri
  setReg m p .ax (if success then 1 else 0)

/-! ## What should hold of it -/

/-- The path leads to no file, or to one that the header checks reject. -/
def Fails (filepath : Buf) : Prop :=
  ∀ file, x.fopen filepath = .ok (some file) → (x.elf file).valid = false

/-- A call that changes `ax` and nothing else. -/
def Clean (m : Machine) (p : Proc) (filepath : Buf) (pri : UInt32) : Prop :=
  ∃ m', setReg m p .ax 0 = .ok m' ∧ x.execCall m p filepath pri = .ok m'

/-- The registers hold already what `kernelCall` writes for `priv_user`. -/
def Settled (m : Machine) (p : Proc) (pri : UInt32) : Prop :=
  pri = privUser → ∀ r ∈ userRegs, m.load (regAddr p r.1) = .ok r.2

end ExecEnv

/-! ## The kernel stack -/

/-- **The process runs, and the kernel addresses its kernel stack at `s` directly**, through words
`K` that are not on it. -/
structure KernelStack (m : Machine) (p : Proc) (s : UInt32) (K : Set (Nat × Fin 1024))
    (S : Set UInt32) :
    Prop where
  current : (m.pCurrent.bind fun i => m.procs[i]?) = some p
  top : p.stackTop = s + 0x1000 - 4
  reaches : Reaches m K S id
  reached : Reached S s
  free : ∀ i, (frameOf s, i) ∉ K

theorem Reg.num_lt (r : Reg) : r.num < 17 := by
  cases r <;> decide

/-- The word of the stack's frame that holds the register. -/
def Reg.word (r : Reg) : Fin 1024 := ⟨1006 + r.num, by have := r.num_lt; omega⟩

theorem Reg.word_inj {r r' : Reg} (h : r.word = r'.word) : r = r' := by
  have hnum : r.num = r'.num := Nat.add_left_cancel (Fin.mk.inj h)
  cases r <;> cases r' <;> first | rfl | exact absurd hnum (by decide)

/-- Registers written one after the other, in the stack's frame. -/
def setRegs (m : Machine) (f : Nat) (l : List (Reg × UInt32)) : Machine :=
  l.foldl (fun m r => m.setWord f r.1.word r.2) m

section Words

variable {m : Machine} {f : Nat} {l : List (Reg × UInt32)} {r : Reg × UInt32} {i : Fin 1024}

/-- Registers that hold the values already stay as they are. -/
theorem setRegs_same (h : ∀ r ∈ l, m.phys f r.1.word = r.2) : setRegs m f l = m := by
  induction l with
  | nil => rfl
  | cons r l ih =>
    rw [setRegs, List.foldl_cons, setWord_same (h r List.mem_cons_self)]
    exact ih fun r' hr' => h r' (List.mem_cons_of_mem r hr')

theorem setRegs_of_notMem {r' : Reg} (h : ∀ r ∈ l, r.1 ≠ r') :
    (setRegs m f l).phys f r'.word = m.phys f r'.word := by
  induction l generalizing m with
  | nil => rfl
  | cons r l ih =>
    have hne : r'.word ≠ r.1.word := fun e => h r List.mem_cons_self (Reg.word_inj e).symm
    rw [setRegs, List.foldl_cons]
    exact (ih fun q hq => h q (List.mem_cons_of_mem r hq)).trans (setWord_phys_index hne)

/-- Each register has the value written to it. -/
theorem setRegs_read (hnd : (l.map Prod.fst).Nodup) (hr : r ∈ l) :
    (setRegs m f l).phys f r.1.word = r.2 := by
  induction l generalizing m with
  | nil => exact absurd hr List.not_mem_nil
  | cons q l ih =>
    rw [List.map_cons, List.nodup_cons] at hnd
    rw [setRegs, List.foldl_cons]
    rcases List.mem_cons.mp hr with rfl | hr
    · refine (setRegs_of_notMem fun q hq he => hnd.1 ?_).trans setWord_phys_self
      exact he ▸ List.mem_map_of_mem hq
    · exact ih hnd.2 hr

end Words

namespace KernelStack

variable {m : Machine} {p : Proc} {s w : UInt32} {K : Set (Nat × Fin 1024)} {S : Set UInt32}

theorem regAddr_eq (h : KernelStack m p s K S) (r : Reg) :
    regAddr p r = entryAddr s (1006 + r.num) := by
  rw [regAddr, h.top, entryAddr, entryAddr, UInt32.ofNat_add]
  have h1006 : (4 : UInt32) * UInt32.ofNat 1006 = 0x1000 - 4 - 4 * 17 := by decide
  rw [mul_add, h1006]
  grind

theorem load (h : KernelStack m p s K S) (r : Reg) :
    m.load (regAddr p r) = .ok (m.phys (frameOf s) r.word) := by
  rw [h.regAddr_eq]
  exact h.reached.holds.load h.reaches r.word.isLt

theorem setReg (h : KernelStack m p s K S) (r : Reg) (v : UInt32) :
    setReg m p r v = .ok (m.setWord (frameOf s) r.word v) := by
  rw [OwnOS.setReg, h.regAddr_eq]
  exact h.reached.holds.store h.reaches r.word.isLt

theorem setWord (h : KernelStack m p s K S) (i : Fin 1024) (v : UInt32) :
    KernelStack (m.setWord (frameOf s) i v) p s K S :=
  ⟨h.current, h.top, h.reaches.of_agree (agree_setWord (h.free i)), h.reached, h.free⟩

theorem foldlM (h : KernelStack m p s K S) (l : List (Reg × UInt32)) :
    l.foldlM (fun m r => OwnOS.setReg m p r.1 r.2) m = .ok (setRegs m (frameOf s) l) := by
  induction l generalizing m with
  | nil => rfl
  | cons r l ih =>
    rw [List.foldlM_cons, h.setReg, Res.ok_bind]
    exact ih (h.setWord _ _)

theorem setRegs (h : KernelStack m p s K S) (l : List (Reg × UInt32)) :
    KernelStack (setRegs m (frameOf s) l) p s K S := by
  induction l generalizing m with
  | nil => exact h
  | cons r l ih => exact ih (h.setWord _ _)

end KernelStack

/-- The kernel stacks of processes are like that. -/
theorem Spaces.kernelStack {m : Machine} {b : UInt32} {role : Roles} {A : Nat → List UInt32}
    {p : Proc} (h : Spaces m b role A) (hp : (m.pCurrent.bind fun i => m.procs[i]?) = some p) :
    ∃ s c, m.cr3 = some c ∧ KernelStack m p s (lowWords c b) low ∧
    role (frameOf s) = some .stack := by
  obtain ⟨i, -, hi⟩ := Option.bind_eq_some_iff.mp hp
  obtain ⟨s, hsa, hlow, htop, hrole⟩ := h.stack p (List.mem_of_getElem? hi)
  obtain ⟨c, hcr3, hreach, hc⟩ := h.owned.reaches
  have hframe : frameOf s < 1024 := by
    unfold frameOf
    omega
  refine ⟨s, c, hcr3, ⟨hp, htop, hreach, ⟨hsa, (Owned.holds_frame hsa hframe).mem⟩, fun i => ?_⟩,
    hrole⟩
  refine h.owned.not_lowWords hc ?_ ?_ ?_
  · rw [hrole]
    simp
  · rw [hrole]
    simp
  · rw [hrole]
    simp

/-! ## What the call does -/

namespace ExecEnv

variable {x : ExecEnv} {m : Machine} {p : Proc} {s : UInt32} {K : Set (Nat × Fin 1024)}
  {S : Set UInt32} {filepath : Buf} {pri : UInt32} {file : ElfFile}

/-- The image of an open file. -/
theorem image_some {file : Disk.File} (h : x.fopen filepath = .ok (some file)) :
    x.image filepath = .ok (x.elf file) := by
  rw [image, h]
  rfl

/-- A file that is rejected leaves the machine as it is. -/
theorem exec_rejected (hv : file.valid = false) : x.exec m file = .ok (m, x.left false) := by
  rw [exec, loadElfExecutable, hv]
  rfl

/-- The call when the image is rejected. -/
theorem execCall_rejected (h : KernelStack m p s K S) (hk : x.kprintf filepath = .ok ())
    (hi : x.image filepath = .ok file) (hv : file.valid = false) :
    x.execCall m p filepath pri =
      .ok ((if pri = privUser then setRegs m (frameOf s) userRegs else m).setWord
        (frameOf s) Reg.ax.word (if x.left false ≠ 0 then 1 else 0)) := by
  rw [execCall, execBody, hk, Res.ok_bind, hi, Res.ok_bind, exec_rejected hv, Res.ok_bind]
  by_cases hp : pri = privUser
  · simp only [hp, if_true, h.foldlM, Res.ok_bind, (h.setRegs userRegs).setReg, bne_iff_ne]
  · simp only [hp, if_false, Res.ok_bind, h.setReg, bne_iff_ne]

theorem settled_iff (h : KernelStack m p s K S) :
    Settled m p pri ↔ (pri = privUser → ∀ r ∈ userRegs, m.phys (frameOf s) r.1.word = r.2) := by
  simp only [Settled, h.load, Except.ok.injEq]

theorem userRegs_nodup : (userRegs.map Prod.fst).Nodup := by decide

theorem userRegs_ne_ax : ∀ r ∈ userRegs, r.1 ≠ .ax := by decide

/-- **A rejected image**: the call is clean when `exec` leaves 0 and no register changes. -/
theorem clean_rejected_iff (h : KernelStack m p s K S) (hk : x.kprintf filepath = .ok ())
    (hi : x.image filepath = .ok file) (hv : file.valid = false) :
    x.Clean m p filepath pri ↔ x.left false = 0 ∧ Settled m p pri := by
  simp only [Clean, execCall_rejected h hk hi hv, h.setReg, Except.ok.injEq,
    exists_eq_left', settled_iff h]
  constructor
  · intro he
    have hword : ∀ i, _ := fun i => congrArg (fun m => m.phys (frameOf s) i) he
    constructor
    · by_contra hne
      have hax := hword Reg.ax.word
      simp only [setWord_phys_self, ne_eq, hne, not_false_eq_true, if_true] at hax
      exact absurd hax (by decide)
    · rintro hp r hr
      have hax : r.1.word ≠ Reg.ax.word := fun e => userRegs_ne_ax r hr (Reg.word_inj e)
      have hrw := hword r.1.word
      simp only [setWord_phys_index hax, hp, if_true] at hrw
      rw [← hrw, setRegs_read userRegs_nodup hr]
  · rintro ⟨hl, hset⟩
    simp only [hl, ne_eq, not_true_eq_false, if_false]
    by_cases hp : pri = privUser
    · rw [if_pos hp, setRegs_same (hset hp)]
    · rw [if_neg hp]

/-- A clean call has printed the path and read an image. -/
theorem Clean.reads (h : x.Clean m p filepath pri) :
    x.kprintf filepath = .ok () ∧ ∃ file, x.image filepath = .ok file := by
  obtain ⟨m', -, hc⟩ := h
  rw [execCall] at hc
  obtain ⟨r, hb, -⟩ := Res.bind_eq_ok.mp hc
  rw [execBody] at hb
  obtain ⟨u, hk, hb⟩ := Res.bind_eq_ok.mp hb
  obtain ⟨file, hi, -⟩ := Res.bind_eq_ok.mp hb
  exact ⟨hk, file, hi⟩

/-- `success` of a call that loads a program. -/
theorem execBody_loaded {m' : Machine} {success : Bool} (hi : x.image filepath = .ok file)
    (hv : file.valid = true) (hr : x.execBody m p filepath pri = .ok (m', success)) :
    success = (x.left true != 0) := by
  rw [execBody] at hr
  obtain ⟨u, -, hr⟩ := Res.bind_eq_ok.mp hr
  rw [hi, Res.ok_bind] at hr
  obtain ⟨⟨m₁, ret⟩, he, hr⟩ := Res.bind_eq_ok.mp hr
  have hret : ret = x.left true := by
    rw [exec] at he
    obtain ⟨⟨m₂, ok⟩, hl, he⟩ := Res.bind_eq_ok.mp he
    obtain ⟨-, rfl⟩ := Prod.mk.inj (Except.ok.inj he)
    rw [loadElfExecutable, if_pos hv] at hl
    split at hl
    · exact absurd hl (by rintro ⟨⟩)
    · obtain ⟨m₃, -, hl⟩ := Res.bind_eq_ok.mp hl
      obtain ⟨m₄, -, hl⟩ := Res.bind_eq_ok.mp hl
      rw [← (Prod.mk.inj (Except.ok.inj hl)).2]
  subst hret
  simp only at hr
  split at hr
  · obtain ⟨m₃, -, hr⟩ := Res.bind_eq_ok.mp hr
    exact (Prod.mk.inj (Except.ok.inj hr)).2.symm
  · exact (Prod.mk.inj (Except.ok.inj hr)).2.symm

/-- **When an `exec` that fails changes nothing.** What the loader reads of a path that was not
resolved may be anything; where it passes the checks, nothing is said. -/
theorem execCall_clean_iff (x : ExecEnv) (m : Machine) (p : Proc) (s : UInt32)
    (K : Set (Nat × Fin 1024)) (S : Set UInt32) (filepath : Buf) (pri : UInt32)
    (h : KernelStack m p s K S) :
    (x.Fails filepath →
      (x.kprintf filepath = .ok () ∧ (∃ file, x.image filepath = .ok file ∧ file.valid = false) ∧
        x.left false = 0 ∧ Settled m p pri → x.Clean m p filepath pri) ∧
      (x.Clean m p filepath pri → x.kprintf filepath = .ok () ∧
        ∃ file, x.image filepath = .ok file ∧
          (file.valid = false → x.left false = 0 ∧ Settled m p pri))) ∧
      ∀ file, x.fopen filepath = .ok (some file) → (x.elf file).valid = true → ∀ m' success,
        x.execBody m p filepath pri = .ok (m', success) → (success = true ↔ x.left true ≠ 0) := by
  refine ⟨fun _ => ⟨?_, fun hc => ?_⟩, ?_⟩
  · rintro ⟨hk, ⟨file, hi, hv⟩, hrest⟩
    exact (clean_rejected_iff h hk hi hv).mpr hrest
  · obtain ⟨hk, file, hi⟩ := hc.reads
    exact ⟨hk, file, hi, fun hv => (clean_rejected_iff h hk hi hv).mp hc⟩
  · intro file ho hv m' success hr
    rw [execBody_loaded (image_some ho) hv hr, bne_iff_ne]

/-! ## A caller in user mode -/

/-- A text file. -/
def textFile : ElfFile := ⟨[], 0, 0, 0, [], fun _ _ => 0⟩

/-- Every file is a text file, the console prints everything, and `exec` leaves what the loader
returned. -/
def textDisk : ExecEnv where
  fs := ⟨Ext2.flatRoot 1⟩
  getInode := Ext2.regular
  junk := Ext2.noJunk
  fjunk := noFopenJunk
  fuel := 0
  fresh _ := 0
  kprintf _ := .ok ()
  elf _ := textFile
  invalid := .ok textFile
  left ok := if ok then 1 else 0

/-- The string `"a"`. -/
def relative : Buf := fun i => if i = 0 then 97 else 0

theorem textDisk_fopen : textDisk.fopen relative = .ok none := by
  rw [fopen, FileSystem.fopen, fopenPath, if_neg]
  · rfl
  · have h0 : (KString.ofStr textDisk.fresh relative).pstring 0 = relative 0 :=
      Buf.put_zero_apply (b := textDisk.fresh) (Nat.succ_pos (strlen relative))
    rw [h0]
    decide

theorem textDisk_image : textDisk.image relative = .ok textFile := by
  rw [image, textDisk_fopen]
  rfl

theorem textDisk_fails : textDisk.Fails relative := fun _ _ => rfl

/-- A process that has been started, with the saved stack pointer 0. -/
theorem exists_kernelStack : ∃ m p s K S, KernelStack m p s K S ∧
    m.phys (frameOf s) Reg.sp.word = 0 := by
  obtain ⟨-, m, p, b, role, -, -, hs, -, -, hcur, hprocs, -⟩ := bumpMachine_run
  have hp : (m.pCurrent.bind fun i => m.procs[i]?) = some p := by
    rw [hcur, hprocs]
    rfl
  obtain ⟨s, c, -, h, -⟩ := Spaces.kernelStack hs hp
  exact ⟨_, p, s, _, _, h.setWord Reg.sp.word 0, setWord_phys_self⟩

/-- A path that is not resolved, and the caller gets another stack pointer. -/
theorem exec_fails_unclean : ∃ m p s K S, KernelStack m p s K S ∧
    textDisk.fopen relative = .ok none ∧ textDisk.image relative = .ok textFile ∧
    textDisk.Fails relative ∧ ¬ textDisk.Clean m p relative privUser := by
  obtain ⟨m, p, s, K, S, h, h0⟩ := exists_kernelStack
  refine ⟨m, p, s, K, S, h, textDisk_fopen, textDisk_image, textDisk_fails, fun hc => ?_⟩
  obtain ⟨-, hset⟩ := (clean_rejected_iff h rfl textDisk_image rfl).mp hc
  have hsp := (settled_iff h).mp hset rfl (.sp, userStackEnd - 0x10) (by decide)
  rw [h0] at hsp
  exact absurd hsp (by decide)

/-- Asking for `priv_system` is safe there. -/
theorem exec_clean_system : ∃ m p, textDisk.Fails relative ∧ textDisk.Clean m p relative 0 := by
  obtain ⟨m, p, s, K, S, h, -⟩ := exists_kernelStack
  refine ⟨m, p, textDisk_fails,
    ((execCall_clean_iff textDisk m p s K S relative 0 h).1 textDisk_fails).1 ?_⟩
  exact ⟨rfl, ⟨textFile, textDisk_image, rfl⟩, rfl, fun he => absurd he (by decide)⟩

end ExecEnv

end OwnOS
