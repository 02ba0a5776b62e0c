import OwnOS.VarMem.MakeSysProc
import OwnOS.VarMem.Owned
import OwnOS.Lib.Run

/-!
# Address-space isolation

Runs of the kernel's operations on address spaces (`makeSysProc`, `fork`, the `enableSpace` of
`exec` and the switch to another process, in any order) after `initPaging`. `Isolated` is what they
are for: no frame is open to two processes, and none that the kernel keeps its own structures in is
open to any. `spaces_isolated` proves it for every run in which the frames the kernel uses through
pointers lie below 4 MiB. Above, the straight map is an alias of the first 4 MiB and the kernel
writes a directory or table to the wrong frame (`isolation_fails`).
-/

namespace OwnOS.VarMem

open Lib Lib.Word Machine

/-- The operations. -/
inductive Op where
  | makeSysProc
  | fork
  | exec (pVaddr pMemsz : UInt32)
  | run (i : Nat)
  deriving DecidableEq

/-- One operation. -/
def step (m : Machine) : Op → Res Machine
  | .makeSysProc => m.makeSysProc
  | .fork => m.fork
  | .exec pVaddr pMemsz => m.exec pVaddr pMemsz
  | .run i => m.run i

/-- A user access through the directory at `d` can reach frame `f`: the entries of the directory and
of the table are present and have the U/S bit. -/
def UserAcc (m : Machine) (d : UInt32) (f : Nat) : Prop :=
  ∃ i j, isEntryExist (m.phys (frameOf d) i) = true ∧ isUser (m.phys (frameOf d) i) = true ∧
    isEntryExist (m.phys (frameOf (m.phys (frameOf d) i)) j) = true ∧
    isUser (m.phys (frameOf (m.phys (frameOf d) i)) j) = true ∧
    frameOf (m.phys (frameOf (m.phys (frameOf d) i)) j) = f

/-- The chunks the kernel keeps its own structures in. -/
def Use.kernel : Use → Bool
  | .pageDir => true
  | .pageTable => true
  | .kernelTable => true
  | .vramTable => true
  | .kernelStack => true
  | _ => false

/-- **Isolation** of the address spaces. -/
structure Isolated (m : Machine) : Prop where
  apart : ∀ (i j : Nat) (p q : Proc), m.procs[i]? = some p → m.procs[j]? = some q → i ≠ j →
    ∀ f, UserAcc m p.cr3 f → ¬ UserAcc m q.cr3 f
  kernel : ∀ p ∈ m.procs, ∀ f, UserAcc m p.cr3 f → ∀ g ∈ m.handed, g.use.kernel = true →
    f ∉ g.frames

/-! ## The parts of an operation -/

/-- The parts of a `makeSysProc` that returned. -/
theorem makeSysProc_parts {m m' : Machine} (hr : m.makeSysProc = .ok m') : ∃ m₁ pdir m₂ m₃ m₄ stack,
    m.allocChunk .pageDir 1 = .ok (m₁, pdir) ∧ m₁.copyKernelDir pdir = .ok m₂ ∧
    stackRegions.foldlM (fun m r => m.enableSpace r.begin r.size pdir userpage .data) m₂ = .ok m₃ ∧
    m₃.allocChunk .kernelStack 1 = .ok (m₄, stack) ∧
    m' = { m₄ with procs := m₄.procs ++ [⟨pdir, stackRegions, stack + 0x1000 - 4⟩] } := by
  unfold Machine.makeSysProc at hr
  split at hr
  · exact absurd hr (by rintro ⟨⟩)
  · obtain ⟨⟨m₁, pdir⟩, h₁, hr⟩ := Res.bind_eq_ok.mp hr
    obtain ⟨m₂, h₂, hr⟩ := Res.bind_eq_ok.mp hr
    obtain ⟨m₃, h₃, hr⟩ := Res.bind_eq_ok.mp hr
    obtain ⟨⟨m₄, stack⟩, h₄, hr⟩ := Res.bind_eq_ok.mp hr
    exact ⟨m₁, pdir, m₂, m₃, m₄, stack, h₁, h₂, h₃, h₄, (Except.ok.inj hr).symm⟩

/-- A `fork` that returned has a process that runs. -/
theorem fork_current {m m' : Machine} (hr : m.fork = .ok m') :
    ∃ i p, m.pCurrent = some i ∧ m.procs[i]? = some p := by
  unfold Machine.fork at hr
  split at hr
  · exact absurd hr (by rintro ⟨⟩)
  · rename_i p hbind
    obtain ⟨i, hi, hp⟩ := Option.bind_eq_some_iff.mp hbind
    exact ⟨i, p, hi, hp⟩

/-- The parts of a `fork` that returned. -/
theorem fork_parts {m m' : Machine} {i : Nat} {p : Proc} (hcur : m.pCurrent = some i)
    (hp : m.procs[i]? = some p) (hr : m.fork = .ok m') : ∃ m₁ pdir m₂ m₃ m₄ stack m₅,
    m.allocChunk .pageDir 1 = .ok (m₁, pdir) ∧ m₁.copyKernelDir pdir = .ok m₂ ∧
    p.regions.foldlM (fun m r => m.cloneRegion r pdir) m₂ = .ok m₃ ∧
    m₃.allocChunk .kernelStack 1 = .ok (m₄, stack) ∧
    m₄.memcpy (stack + 0x1000 - 4 - 4 * 17) (p.stackTop - 4 * 17) Machine.frameWords = .ok m₅ ∧
    m' = { m₅ with procs := m₅.procs ++ [⟨pdir, p.regions, stack + 0x1000 - 4⟩] } := by
  have hbind : (m.pCurrent.bind fun i => m.procs[i]?) = some p := by
    rw [hcur]
    exact hp
  unfold Machine.fork at hr
  rw [hbind] at hr
  simp only at hr
  split at hr
  · exact absurd hr (by rintro ⟨⟩)
  · obtain ⟨⟨m₁, pdir⟩, h₁, hr⟩ := Res.bind_eq_ok.mp hr
    obtain ⟨m₂, h₂, hr⟩ := Res.bind_eq_ok.mp hr
    obtain ⟨m₃, h₃, hr⟩ := Res.bind_eq_ok.mp hr
    obtain ⟨⟨m₄, stack⟩, h₄, hr⟩ := Res.bind_eq_ok.mp hr
    obtain ⟨m₅, h₅, hr⟩ := Res.bind_eq_ok.mp hr
    exact ⟨m₁, pdir, m₂, m₃, m₄, stack, m₅, h₁, h₂, h₃, h₄, h₅, (Except.ok.inj hr).symm⟩

namespace Owned

variable {m m' m₁ : Machine} {b a w pdir : UInt32} {role : Roles} {f d : Nat} {r : Role} {use : Use}

/-- A frame that a process can reach is a page of data of its own. -/
theorem userAcc {p : Proc} (h : Owned m b role) (hp : p ∈ m.procs) (hf : UserAcc m p.cr3 f) :
    role f = some (.data (frameOf p.cr3)) := by
  obtain ⟨-, hd, -⟩ := h.procs p hp
  obtain ⟨i, j, h1, h2, h3, -, rfl⟩ := hf
  rcases h.tables.dirs _ hd i h1 with ⟨hu, -, -⟩ | ht
  · rw [hu] at h2
    exact absurd h2 (by simp)
  · exact h.tables.tables _ _ ht j h3

/-- Two processes do not share a directory. -/
theorem dir_inj {i j : Nat} {p q : Proc} (h : Owned m b role) (hi : m.procs[i]? = some p)
    (hj : m.procs[j]? = some q) (he : frameOf p.cr3 = frameOf q.cr3) : i = j := by
  have hmap : (m.procs.map fun p => frameOf p.cr3)[i]? =
      (m.procs.map fun p => frameOf p.cr3)[j]? := by
    rw [List.getElem?_map, List.getElem?_map, hi, hj]
    simp [he]
  have hlt : i < (m.procs.map fun p => frameOf p.cr3).length := by
    rw [List.length_map]
    exact (List.getElem?_eq_some_iff.mp hi).1
  exact (List.getElem?_inj hlt h.nodup).mp hmap

/-- **The invariant gives isolation.** -/
theorem isolated (h : Owned m b role) : Isolated m where
  apart i j p q hi hj hne f hp hq := by
    have h1 := h.userAcc (List.mem_of_getElem? hi) hp
    have h2 := h.userAcc (List.mem_of_getElem? hj) hq
    rw [h1] at h2
    exact hne (h.dir_inj hi hj (Role.data.inj (Option.some.inj h2)))
  kernel p hp f hf g hg hu hfg := by
    obtain ⟨g', hg', hs, hf'⟩ := h.grant f _ (h.userAcc hp hf)
    obtain rfl := h.fresh.unique hg hg' hfg hf'
    revert hu hs
    cases g.use <;> simp [Role.serves, Use.kernel]

/-- **`copyKernelDir`** into a new chunk returns. -/
theorem copyKernelDir (h : Owned m b role) (hp : m.answers .pageDir m.handed.length = pdir)
    (hnew : Grant.New ⟨.pageDir, pdir, 1⟩ m.handed) :
    (m.granted .pageDir pdir 1).copyKernelDir pdir = .ok ((m.setPage (frameOf pdir)
      (kernelSlots m.nrValidPages (m.phys (frameOf m.kPdir)))).granted .pageDir pdir 1) := by
  have hnone := h.role_new hnew (by omega)
  have hlow : pdir.toNat < 0x400000 := hp ▸ h.lowFrames.touched .pageDir _ rfl
  obtain ⟨c, -, hreach, hcr⟩ := h.reaches
  have hreach₁ : Reaches (m.granted .pageDir pdir 1) (lowWords c b) low id :=
    hreach.of_agree ⟨rfl, fun _ _ => rfl⟩
  have hKd : ∀ i, (frameOf pdir, i) ∉ lowWords c b := by
    intro i
    refine h.not_lowWords hcr ?_ ?_ ?_
    · simp [hnone]
    · simp [hnone]
    · simp [hnone]
  have hkd := holds_frame h.dir_aligned (h.lt h.tables.kdir (by simp))
  have hne : frameOf pdir ≠ frameOf m.kPdir := by
    intro e
    rw [e, h.tables.kdir] at hnone
    exact absurd hnone (by simp)
  exact hkd.copyKernelDir (holds_low hnew.1 hlow) hreach₁ hKd hne rfl

/-- `allocChunk` and `copyKernelDir`: a frame without a role gets the kernel's slots. -/
theorem newDir_eq (h : Owned m b role) (ha : m.allocChunk .pageDir 1 = .ok (m₁, pdir))
    (hc : m₁.copyKernelDir pdir = .ok m') :
    m.answers .pageDir m.handed.length = pdir ∧ Grant.New ⟨.pageDir, pdir, 1⟩ m.handed ∧
      m' = (m.setPage (frameOf pdir)
        (kernelSlots m.nrValidPages (m.phys (frameOf m.kPdir)))).granted .pageDir pdir 1 := by
  obtain ⟨hnew, he⟩ := allocChunk_eq_ok.mp ha
  obtain ⟨rfl, hp⟩ := Prod.mk.inj he
  rw [← hp] at hnew hc
  exact ⟨hp.symm, hnew, Except.ok.inj (hc.symm.trans (h.copyKernelDir hp.symm hnew))⟩

/-- A new process directory. -/
theorem newDir (h : Owned m b role) (ha : m.allocChunk .pageDir 1 = .ok (m₁, pdir))
    (hc : m₁.copyKernelDir pdir = .ok m') :
    role (frameOf pdir) = none ∧ Aligned pdir ∧ pdir ≠ 0 ∧
      Owned m' b (role.assign (frameOf pdir) .dir) ∧
      m' = { m with phys := m'.phys, handed := m'.handed } := by
  obtain ⟨hp, hnew, heq⟩ := h.newDir_eq ha hc
  have hnone := h.role_new hnew (by omega)
  have hne0 : pdir ≠ 0 := hp ▸ h.lowFrames.dirs _
  have hne : ∀ x r, role x = some r → x ≠ frameOf pdir := fun _ _ => Roles.ne_of_none hnone
  have hne' : frameOf pdir ≠ frameOf m.kPdir := (hne _ _ h.tables.kdir).symm
  -- the directory is filled while its frame has no role
  have h₀ : Owned (m.setPage (frameOf pdir) (kernelSlots m.nrValidPages (m.phys (frameOf m.kPdir))))
    b
      role := h.scratch rfl fun x r hx _ => setPage_phys_of_ne (hne x r hx)
  refine ⟨hnone, hnew.1, hne0, ?_, ?_⟩
  · rw [heq]
    refine h₀.give hp hnew rfl (by simp)
      (Tables.assign (h₀.tables.congr rfl rfl fun _ _ _ _ => rfl) hnone ?_ ?_ ?_)
    · rintro - i
      rw [granted_phys, setPage_phys_self]
      show (i.val < m.nrValidPages → _ = (m.setPage _ _).phys (frameOf m.kPdir) i) ∧ _
      rw [setPage_phys_of_ne hne'.symm]
      unfold kernelSlots
      by_cases hi : i.val < m.nrValidPages ∨ i.val = 0x380
      · rw [if_pos hi]
        exact ⟨fun _ => rfl, fun _ =>
          ⟨(h.tables.kernel_slot hi).1, (h.tables.kernel_slot hi).2, hi⟩⟩
      · rw [if_neg hi]
        exact ⟨fun hi' => absurd (Or.inl hi') hi, fun h0 => absurd h0 (by decide)⟩
    · exact fun _ e => absurd e (by simp)
    · exact fun _ e => absurd e (by simp)
  · rw [heq]
    rfl

/-- A new directory holds the kernel's slots, and every frame in use stays. -/
theorem newDir_phys (h : Owned m b role) (ha : m.allocChunk .pageDir 1 = .ok (m₁, pdir))
    (hc : m₁.copyKernelDir pdir = .ok m') : (∀ f r, role f = some r → m'.phys f = m.phys f) ∧
      m'.phys (frameOf pdir) = kernelSlots m.nrValidPages (m.phys (frameOf m.kPdir)) := by
  obtain ⟨-, hnew, heq⟩ := h.newDir_eq ha hc
  have hnone := h.role_new hnew (by omega)
  constructor
  · intro f r hf
    rw [heq, granted_phys, setPage_phys_of_ne (Roles.ne_of_none hnone hf)]
  · rw [heq, granted_phys, setPage_phys_self]

/-- `allocChunk` for a kernel stack. -/
theorem newStack (h : Owned m b role) (ha : m.allocChunk .kernelStack 1 = .ok (m₁, a)) :
    role (frameOf a) = none ∧ Aligned a ∧ a.toNat < 0x400000 ∧
      Owned m₁ b (role.assign (frameOf a) .stack) ∧ m₁ = { m with handed := m₁.handed } := by
  obtain ⟨hnew, he⟩ := allocChunk_eq_ok.mp ha
  obtain ⟨rfl, hs⟩ := Prod.mk.inj he
  rw [← hs] at hnew ⊢
  have hnone := h.role_new hnew (by omega)
  refine ⟨hnone, hnew.1, hs ▸ h.lowFrames.touched .kernelStack _ rfl, ?_, rfl⟩
  refine h.give hs.symm hnew rfl (by simp)
    (Tables.assign (h.tables.congr rfl rfl fun _ _ _ _ => rfl) hnone ?_ ?_ ?_)
  · exact fun e => absurd e (by simp)
  · exact fun _ e => absurd e (by simp)
  · exact fun _ e => absurd e (by simp)

/-- A new process with a directory of its own. -/
theorem addProc {p : Proc} (h : Owned m b role) (ha : Aligned p.cr3)
    (hd : role (frameOf p.cr3) = some .dir) (hregs : p.regions = stackRegions)
    (hnot : ∀ q ∈ m.procs, frameOf q.cr3 ≠ frameOf p.cr3) :
    Owned { m with procs := m.procs ++ [p] } b role := by
  refine ⟨h.tables.congr rfl rfl fun _ _ _ _ => rfl, h.fresh, h.grant, h.answered, h.straightTables,
    h.lowFrames.congr rfl, h.dir_aligned, h.pos, ?_, ?_, ?_⟩
  · intro q hq
    rcases List.mem_append.mp hq with hq | hq
    · exact h.procs q hq
    · obtain rfl := List.mem_singleton.mp hq
      exact ⟨ha, hd, hregs⟩
  · show ((m.procs ++ [p]).map fun p => frameOf p.cr3).Nodup
    rw [List.map_append]
    refine List.nodup_append.mpr ⟨h.nodup, by simp, ?_⟩
    intro x hx y hy
    obtain ⟨q, hq, rfl⟩ := List.mem_map.mp hx
    obtain rfl : y = frameOf p.cr3 := by simpa using hy
    exact hnot q hq
  · rcases h.running with hrun | ⟨i, q, hi, hq, hc⟩
    · exact Or.inl hrun
    · refine Or.inr ⟨i, q, hi, ?_, hc⟩
      show (m.procs ++ [p])[i]? = some q
      rw [List.getElem?_append_left (List.getElem?_eq_some_iff.mp hq).1]
      exact hq

/-- The loop over the stacks of `makeSysProc`. -/
theorem enableStacks {l : List Region} (h : Owned m b role) (ha : Aligned pdir)
    (hd : role (frameOf pdir) = some .dir)
    (hr : l.foldlM (fun m r => m.enableSpace r.begin r.size pdir userpage .data) m = .ok m') :
    ∃ role', Owned m' b role' ∧ Grown .data (frameOf pdir) m role m' role' := by
  induction l generalizing m role with
  | nil =>
    obtain rfl := Except.ok.inj hr
    exact ⟨role, h, Grown.refl⟩
  | cons r l ih =>
    rw [List.foldlM_cons] at hr
    obtain ⟨m₁, h₁, hr⟩ := Res.bind_eq_ok.mp hr
    obtain ⟨role₁, ho₁, hg₁, -⟩ := h.enableSpace ha hd (Or.inl rfl) h₁
    obtain ⟨role₂, ho₂, hg₂⟩ := ih ho₁ (hg₁.le _ _ hd) hr
    exact ⟨role₂, ho₂, hg₁.trans hg₂⟩

/-- The directory of a new process is not one of the processes before. -/
theorem cr3_ne (h : Owned m b role) (hnone : role (frameOf pdir) = none) :
    ∀ q ∈ m.procs, frameOf q.cr3 ≠ frameOf pdir := by
  intro q hq
  exact Roles.ne_of_none hnone (h.procs q hq).2.1

/-- A new directory leaves the frames that hold entries, and has the kernel's VRAM slot. -/
theorem newDir_grown (h : Owned m b role) (ha : m.allocChunk .pageDir 1 = .ok (m₁, pdir))
    (hc : m₁.copyKernelDir pdir = .ok m') :
    Grown .data d m role m' (role.assign (frameOf pdir) .dir) ∧
      m'.phys (frameOf pdir) 0x380 = m.phys (frameOf m.kPdir) 0x380 := by
  obtain ⟨hnone, -, -, -, hs⟩ := h.newDir ha hc
  obtain ⟨hold, hself⟩ := h.newDir_phys ha hc
  refine ⟨Grown.of_phys (Roles.le_assign hnone) hs fun f r hf _ => hold f r hf, ?_⟩
  rw [hself, kernelSlots_vram]

/-- **A process is added**: `m'` is a machine that only grew, with one more process, and its
directory has the VRAM slot of the kernel's. -/
structure Spawned (m : Machine) (role : Roles) (m' : Machine) (role' : Roles) (p : Proc) :
    Prop where
  procs : m'.procs = m.procs ++ [p]
  grown : Grown .data (frameOf p.cr3) m role { m' with procs := m.procs } role'
  slot : isEntryExist (m.phys (frameOf m.kPdir) 0x380) = true →
    m'.phys (frameOf p.cr3) 0x380 = m.phys (frameOf m.kPdir) 0x380

/-- A new directory, filled and given to a new process. -/
theorem spawn {m₂ : Machine} {role' : Roles} {p : Proc} (h : Owned m b role)
    (ha : m.allocChunk .pageDir 1 = .ok (m₁, p.cr3)) (hc : m₁.copyKernelDir p.cr3 = .ok m₂)
    (hg : Grown .data (frameOf p.cr3) m₂ (role.assign (frameOf p.cr3) .dir) m' role')
    (ho : Owned m' b role') (hregs : p.regions = stackRegions) :
    Owned { m' with procs := m'.procs ++ [p] } b role' ∧
      Spawned m role { m' with procs := m'.procs ++ [p] } role' p := by
  obtain ⟨hnone, hal, -, -, -⟩ := h.newDir ha hc
  obtain ⟨hg₂, hslot⟩ := h.newDir_grown (d := frameOf p.cr3) ha hc
  have hgrown := hg₂.trans hg
  have hprocs : m'.procs = m.procs := by rw [hgrown.same]
  refine ⟨ho.addProc hal (hg.le _ _ Roles.assign_self) hregs ?_, ?_, ?_, fun hp => ?_⟩
  · rw [hprocs]
    exact h.cr3_ne hnone
  · exact congrArg (· ++ [p]) hprocs
  · have he : { m' with procs := m.procs } = m' := by rw [← hprocs]
    show Grown _ _ _ _ { m' with procs := m.procs } _
    rw [he]
    exact hgrown
  · rw [← hslot] at hp ⊢
    exact hg.stable _ _ Roles.assign_self rfl _ hp

/-- **`makeSysProc`** keeps the invariant and adds a process. -/
theorem makeSysProc (h : Owned m b role) (hr : m.makeSysProc = .ok m') :
    ∃ role' p, Owned m' b role' ∧ Spawned m role m' role' p := by
  obtain ⟨m₁, pdir, m₂, m₃, m₄, stack, h₁, h₂, h₃, h₄, rfl⟩ := makeSysProc_parts hr
  obtain ⟨-, ha, -, ho₂, -⟩ := h.newDir h₁ h₂
  obtain ⟨role₃, ho₃, hg₃⟩ := ho₂.enableStacks ha Roles.assign_self h₃
  obtain ⟨hnone₄, -, -, ho₄, hs₄⟩ := ho₃.newStack h₄
  have hg₄ : Grown .data (frameOf pdir) m₃ role₃ m₄ (role₃.assign (frameOf stack) .stack) :=
    Grown.of_phys (Roles.le_assign hnone₄) (by rw [hs₄]) fun _ _ _ _ => by rw [hs₄]
  exact ⟨_, _, h.spawn (p := ⟨pdir, stackRegions, stack + 0x1000 - 4⟩) h₁ h₂
    (hg₃.trans hg₄) ho₄ rfl⟩

/-- **`exec`** keeps the invariant. -/
theorem exec {pVaddr pMemsz : UInt32} (h : Owned m b role) (hr : m.exec pVaddr pMemsz = .ok m') :
    ∃ role', Owned m' b role' := by
  unfold Machine.exec at hr
  split at hr
  · exact absurd hr (by rintro ⟨⟩)
  · rename_i p hp
    obtain ⟨i, -, hi⟩ := Option.bind_eq_some_iff.mp hp
    obtain ⟨ha, hd, -⟩ := h.procs p (List.mem_of_getElem? hi)
    obtain ⟨role', ho, -, -⟩ := h.enableSpace ha hd (Or.inl rfl) hr
    exact ⟨role', ho⟩

/-- The switch to another process keeps the invariant. -/
theorem run {i : Nat} (h : Owned m b role) (hr : m.run i = .ok m') : Owned m' b role := by
  unfold Machine.run at hr
  split at hr
  · exact absurd hr (by rintro ⟨⟩)
  · rename_i p hp
    obtain rfl := Except.ok.inj hr
    exact ⟨h.tables.congr rfl rfl fun _ _ _ _ => rfl, h.fresh, h.grant,
      h.answered, h.straightTables, h.lowFrames.congr rfl, h.dir_aligned, h.pos, h.procs, h.nodup,
      Or.inr ⟨i, p, rfl, hp, rfl⟩⟩

/-! ## `fork` -/

/-- A copy into a frame without entries changes nothing else. -/
theorem memcpy_scratch {dest src : UInt32} {n F : Nat} (h : Owned m b role)
    (hdest : ∀ i < n, (entryAddr dest i).toNat < 0x400000 ∧ frameOf (entryAddr dest i) = F)
    (hF : ∀ r, role F = some r → r.structural = false) (hr : m.memcpy dest src n = .ok m') :
    Owned m' b role ∧ ∃ pg, m' = m.setPage F pg := by
  have hpage : ∀ pg, Owned (m.setPage F pg) b role := by
    intro pg
    refine h.scratch rfl fun x r hx hs => setPage_phys_of_ne ?_
    rintro rfl
    rw [hF r hx] at hs
    exact absurd hs (by simp)
  have hex : ∃ pg, m' = m.setPage F pg := by
    unfold memcpy at hr
    refine loop_invariant (I := fun _ s => ∃ pg, s = m.setPage F pg)
      ⟨m.phys F, by simp [setPage]⟩ ?_ hr
    rintro i hi s s' ⟨pg, rfl⟩ hs
    obtain ⟨w, -, hs⟩ := Res.bind_eq_ok.mp hs
    obtain ⟨c, -, hreach, -⟩ := (hpage pg).reaches
    rw [hreach.store (hdest i hi).1] at hs
    refine ⟨Function.update pg (indexOf (entryAddr dest i)) w, ?_⟩
    rw [← Except.ok.inj hs, ← setPage_setWord]
    show (m.setPage F pg).setWord (frameOf (entryAddr dest i)) _ _ = _
    rw [(hdest i hi).2]
    rfl
  obtain ⟨pg, rfl⟩ := hex
  exact ⟨hpage pg, pg, rfl⟩

/-- A page of the straight map is copied onto itself. -/
theorem memcpy_self {v phy : UInt32} {p : Proc} (h : Owned m b role) (hcr3 : m.cr3 = some p.cr3)
    (hp : role (frameOf p.cr3) = some .dir) (hv : Aligned v)
    (hslot : (dirIndex v).val < m.nrValidPages) (hphy : phy.toNat = v.toNat % 0x400000) :
    m.memcpy phy v 1024 = .ok m := by
  have hpa : Aligned phy := by
    unfold Aligned at hv ⊢
    omega
  obtain ⟨c, -, hreach, -⟩ := h.reaches
  have hdest := holds_low hpa (by omega)
  unfold memcpy
  suffices hloop : ∃ s, loop (fun i m => do
      let w ← m.load (entryAddr v i)
      m.store (entryAddr phy i) w) 1024 m = .ok s ∧ s = m by
    obtain ⟨s, hs, rfl⟩ := hloop
    exact hs
  refine loop_total (I := fun _ s => s = m) rfl ?_
  rintro k hk s rfl
  have hvk := entryAddr_toNat hv hk
  have hpk := entryAddr_toNat hpa hk
  have hvlt := toNat_lt v
  unfold Aligned at hv
  have hdi : dirIndex (entryAddr v k) = dirIndex v := by
    refine Fin.ext ?_
    show (entryAddr v k).toNat / 0x400000 = v.toNat / 0x400000
    omega
  have hD : s.phys (frameOf p.cr3) (dirIndex (entryAddr v k)) =
      entryWord (b + 0x1000 * UInt32.ofNat (dirIndex v).val) systempage := by
    rw [hdi, h.tables.shared _ hp _ hslot]
    exact h.tables.slots _ (dirIndex v).isLt hslot
  have hT : s.phys (frameOf (b + 0x1000 * UInt32.ofNat (dirIndex v).val))
    (tableIndex (entryAddr v k)) =
      entryWord (UInt32.ofNat (tableIndex (entryAddr v k)) * 0x1000) systempage := by
    rw [(chunk_frame h.tables.aligned h.tables.bound hslot).2]
    exact (h.tables.straight _ hslot).2 _
  have hsrc : UInt32.ofNat ((entryAddr v k).toNat % 0x400000) = entryAddr phy k := by
    rw [← UInt32.toNat_inj, UInt32.toNat_ofNat', Nat.mod_eq_of_lt (by omega)]
    omega
  have hload : s.load (entryAddr v k) = .ok (s.phys (frameOf phy) ⟨k, hk⟩) := by
    unfold load addr
    simp only [hcr3, translate_straight hD hT, Res.ok_bind, hsrc]
    unfold peek
    rw [frameOf_entryAddr hpa hk, indexOf_entryAddr hpa hk]
  refine ⟨s, ?_, rfl⟩
  rw [hload, Res.ok_bind, hdest.store hreach hk]
  simp [setWord]

/-- The pages of the directory in frame `D` lie below 4 MiB. -/
def LowPages (role : Roles) (D : Nat) : Prop := ∀ f, role f = some (.data D) → f < 1024

/-- A new directory has no pages yet. -/
theorem lowPages_new (h : Owned m b role) (hnone : role (frameOf pdir) = none) :
    LowPages (role.assign (frameOf pdir) .dir) (frameOf pdir) := by
  intro f hf
  by_cases he : f = frameOf pdir
  · subst he
    rw [Roles.assign_self] at hf
    exact absurd hf (by simp)
  · rw [Roles.assign_of_ne he] at hf
    exact absurd rfl (Roles.ne_of_none hnone (h.tables.owner f _ (Or.inr hf)))

/-- Where `clone_mm` copies a page to: the frame behind it in the new directory. -/
theorem clone_vir2phy {v : UInt32} (h : Owned m b role) (ha : Aligned pdir) (h0 : pdir ≠ 0)
    (hd : role (frameOf pdir) = some .dir) (hm : Mapped m (frameOf pdir) v) (hv : Aligned v) :
    m.vir2phy v pdir =
      .ok (caddrEntry (m.phys (frameOf (m.phys (frameOf pdir) (dirIndex v))) (tableIndex v))) := by
  obtain ⟨c, -, hreach, -⟩ := h.reaches
  have hz : v &&& 0xfff = 0 := by
    unfold Aligned at hv
    rw [← UInt32.toNat_inj, and_fff, hv]
    rfl
  rw [vir2phy_eq hreach (holds_frame ha (h.lt hd (by simp))) h0 hm.1
    (h.holds_table hd hm.1) hm.2, hz, UInt32.add_zero]

theorem clone_dest {v phy : UInt32} (h : Owned m b role) (ha : Aligned pdir) (h0 : pdir ≠ 0)
    (hd : role (frameOf pdir) = some .dir) (hm : Mapped m (frameOf pdir) v) (hv : Aligned v)
    (hphy : m.vir2phy v pdir = .ok phy) :
    phy = caddrEntry (m.phys (frameOf (m.phys (frameOf pdir) (dirIndex v))) (tableIndex v)) :=
  Except.ok.inj (hphy.symm.trans (h.clone_vir2phy ha h0 hd hm hv))

/-- A page of the straight map is not changed by `clone_mm`. -/
theorem clonePage_self {v phy : UInt32} {p : Proc} (h : Owned m b role) (hcr3 : m.cr3 = some p.cr3)
    (hp : role (frameOf p.cr3) = some .dir) (ha : Aligned pdir) (h0 : pdir ≠ 0)
    (hd : role (frameOf pdir) = some .dir) (hm : Mapped m (frameOf pdir) v) (hv : Aligned v)
    (hslot : (dirIndex v).val < m.nrValidPages) (hphy : m.vir2phy v pdir = .ok phy) :
    m.memcpy phy v 1024 = .ok m := by
  obtain rfl := h.clone_dest ha h0 hd hm hv hphy
  have hD : m.phys (frameOf pdir) (dirIndex v) =
      entryWord (b + 0x1000 * UInt32.ofNat (dirIndex v).val) systempage := by
    rw [h.tables.shared _ hd _ hslot]
    exact h.tables.slots _ (dirIndex v).isLt hslot
  have hE : m.phys (frameOf (m.phys (frameOf pdir) (dirIndex v))) (tableIndex v) =
      entryWord (UInt32.ofNat (tableIndex v) * 0x1000) systempage := by
    rw [hD, frameOf_entryWord, (chunk_frame h.tables.aligned h.tables.bound hslot).2]
    exact (h.tables.straight _ hslot).2 _
  have hz : v &&& 0xfff = 0 := by
    unfold Aligned at hv
    rw [← UInt32.toNat_inj, and_fff, hv]
    rfl
  have hst := straight_toNat v
  rw [hz, UInt32.add_zero, ← hE] at hst
  exact h.memcpy_self hcr3 hp hv hslot hst

/-- One page of `clone_mm`: the copy goes to a page of the new directory, or onto itself. -/
theorem clonePage {v phy : UInt32} {p : Proc} (h : Owned m b role) (hcr3 : m.cr3 = some p.cr3)
    (hp : role (frameOf p.cr3) = some .dir) (ha : Aligned pdir) (h0 : pdir ≠ 0)
    (hd : role (frameOf pdir) = some .dir) (hlow : LowPages role (frameOf pdir))
    (hm : Mapped m (frameOf pdir) v) (hv : Aligned v) (hslot : (dirIndex v).val ≠ 0x380)
    (hphy : m.vir2phy v pdir = .ok phy) (hr : m.memcpy phy v 1024 = .ok m') :
    Owned m' b role ∧ Grown .copied (frameOf pdir) m role m' role := by
  rcases h.tables.dirs _ hd _ hm.1 with ⟨-, -, hi⟩ | ht
  · have hself := h.clonePage_self hcr3 hp ha h0 hd hm hv (hi.resolve_right hslot) hphy
    obtain rfl := Except.ok.inj (hself.symm.trans hr)
    exact ⟨h, Grown.refl⟩
  · obtain rfl := h.clone_dest ha h0 hd hm hv hphy
    have hF := h.tables.tables _ _ ht _ hm.2
    have hFlt := hlow _ hF
    have hca :=
      aligned_caddrEntry (m.phys (frameOf (m.phys (frameOf pdir) (dirIndex v))) (tableIndex v))
    obtain ⟨ho, pg, rfl⟩ := h.memcpy_scratch
      (F := frameOf (m.phys (frameOf (m.phys (frameOf pdir) (dirIndex v))) (tableIndex v)))
      (fun i hi => by
        constructor
        · have := (holds_frame hca (by rw [frameOf_caddrEntry]; exact hFlt)).mem i hi
          exact this
        · rw [frameOf_entryAddr hca hi, frameOf_caddrEntry])
      (fun r hr => by rw [hF] at hr; obtain rfl := Option.some.inj hr; rfl) hr
    refine ⟨ho, Roles.Le.refl role, rfl, ?_, fun _ f hf => Or.inl hf⟩
    intro f r hf hs i _
    refine congrFun (setPage_phys_of_ne ?_) i
    rintro rfl
    rw [hF] at hf
    obtain rfl := Option.some.inj hf
    exact absurd hs (by simp [Role.structural])

/-- The stacks are two whole pages each, outside the VRAM slot. -/
theorem stackRegion_facts {reg : Region} (hreg : reg ∈ stackRegions) :
    rangePages reg.begin reg.size = [reg.begin, reg.begin + 0x1000] ∧
      floor4k reg.begin = reg.begin ∧
      ((ceil4k (reg.begin + reg.size) - floor4k reg.begin) / 0x1000).toNat = 2 ∧
      reg.begin.toNat % 4096 = 0 ∧ (reg.begin + 0x1000).toNat % 4096 = 0 ∧
      (dirIndex reg.begin).val ≠ 0x380 ∧ (dirIndex (reg.begin + 0x1000)).val ≠ 0x380 := by
  simp only [stackRegions, List.mem_cons, List.not_mem_nil, or_false] at hreg
  rcases hreg with rfl | rfl
  · decide
  · decide

/-- A stack is enabled for the user, and copied in two turns of the loop. -/
theorem cloneRegion_eq {reg : Region} (hreg : reg ∈ stackRegions) :
    m.cloneRegion reg pdir = (do
      let m ← m.enableSpace reg.begin reg.size pdir userpage .copied
      let phy ← m.vir2phy reg.begin pdir
      let m ← m.memcpy phy reg.begin 1024
      let phy ← m.vir2phy (reg.begin + 0x1000) pdir
      m.memcpy phy (reg.begin + 0x1000) 1024) := by
  have hturns : reg.flags &&& regionSystem = 0 ∧ reg.begin ≤ reg.begin + reg.size - 0x1000 ∧
      reg.begin + 0x1000 ≤ reg.begin + reg.size - 0x1000 ∧
      ¬ reg.begin + 0x1000 + 0x1000 ≤ reg.begin + reg.size - 0x1000 := by
    simp only [stackRegions, List.mem_cons, List.not_mem_nil, or_false] at hreg
    rcases hreg with rfl | rfl
    · decide
    · decide
  obtain ⟨hflag, hle₁, hle₂, hle₃⟩ := hturns
  have hfuel : 1048576 = 1048573 + 1 + 1 + 1 := rfl
  unfold Machine.cloneRegion
  simp only [hflag, ne_eq, not_true_eq_false, if_false]
  refine bind_congr fun m₁ => ?_
  rw [hfuel, copyPages, if_pos hle₁]
  refine bind_congr fun phy₁ => bind_congr fun m₂ => ?_
  rw [copyPages, if_pos hle₂]
  refine bind_congr fun phy₂ => (bind_congr fun m₃ => ?_).trans (bind_pure _)
  rw [copyPages, if_neg hle₃]
  rfl

/-- Both pages of a stack that was enabled are mapped. -/
theorem enableStack_mapped {reg : Region} (h : Owned m b role) (ha : Aligned pdir)
    (hd : role (frameOf pdir) = some .dir) (hreg : reg ∈ stackRegions)
    (hr : m.enableSpace reg.begin reg.size pdir userpage .copied = .ok m') :
    Mapped m' (frameOf pdir) reg.begin ∧ Mapped m' (frameOf pdir) (reg.begin + 0x1000) := by
  obtain ⟨-, hfloor, hnum, -⟩ := stackRegion_facts hreg
  obtain ⟨-, -, -, hm⟩ := h.enableSpace ha hd (Or.inr rfl) hr
  rw [hnum, hfloor] at hm
  exact ⟨by simpa using hm rfl 0 (by omega), by simpa using hm rfl 1 (by omega)⟩

/-- **One region of `clone_mm`**, a stack of two pages. -/
theorem cloneRegion {p : Proc} {reg : Region} (h : Owned m b role) (hcr3 : m.cr3 = some p.cr3)
    (hp : role (frameOf p.cr3) = some .dir) (ha : Aligned pdir) (h0 : pdir ≠ 0)
    (hd : role (frameOf pdir) = some .dir) (hlow : LowPages role (frameOf pdir))
    (hreg : reg ∈ stackRegions) (hr : m.cloneRegion reg pdir = .ok m') :
    ∃ role', Owned m' b role' ∧ Grown .copied (frameOf pdir) m role m' role' := by
  obtain ⟨-, -, -, hal₁, hal₂, hs₁, hs₂⟩ := stackRegion_facts hreg
  rw [cloneRegion_eq hreg] at hr
  obtain ⟨m₁, h₁, hr⟩ := Res.bind_eq_ok.mp hr
  obtain ⟨role₁, ho₁, hg₁, -⟩ := h.enableSpace ha hd (Or.inr rfl) h₁
  obtain ⟨hmap₁, hmap₂⟩ := h.enableStack_mapped ha hd hreg h₁
  have hd₁ := hg₁.le _ _ hd
  have hp₁ := hg₁.le _ _ hp
  have hcr₁ : m₁.cr3 = some p.cr3 := by rw [hg₁.same]; exact hcr3
  have hlow₁ : LowPages role₁ (frameOf pdir) := by
    intro f hf
    rcases hg₁.pages rfl f hf with hf | hf
    · exact hlow f hf
    · exact hf
  obtain ⟨phy₁, hphy₁, hr⟩ := Res.bind_eq_ok.mp hr
  obtain ⟨m₂, h₂, hr⟩ := Res.bind_eq_ok.mp hr
  obtain ⟨ho₂, hg₂⟩ := ho₁.clonePage hcr₁ hp₁ ha h0 hd₁ hlow₁ hmap₁ hal₁ hs₁ hphy₁ h₂
  have hcr₂ : m₂.cr3 = some p.cr3 := by rw [hg₂.same]; exact hcr₁
  obtain ⟨phy₂, hphy₂, h₃⟩ := Res.bind_eq_ok.mp hr
  obtain ⟨ho₃, hg₃⟩ := ho₂.clonePage hcr₂ hp₁ ha h0 hd₁ hlow₁ (hg₂.mapped ho₁ hd₁ hmap₂) hal₂
    hs₂ hphy₂ h₃
  exact ⟨role₁, ho₃, hg₁.trans (hg₂.trans hg₃)⟩

/-- The loop of `clone_mm` over the regions. -/
theorem cloneRegions {p : Proc} {l : List Region} (h : Owned m b role) (hcr3 : m.cr3 = some p.cr3)
    (hp : role (frameOf p.cr3) = some .dir) (ha : Aligned pdir) (h0 : pdir ≠ 0)
    (hd : role (frameOf pdir) = some .dir) (hlow : LowPages role (frameOf pdir))
    (hl : ∀ r ∈ l, r ∈ stackRegions)
    (hr : l.foldlM (fun m r => m.cloneRegion r pdir) m = .ok m') :
    ∃ role', Owned m' b role' ∧ Grown .copied (frameOf pdir) m role m' role' := by
  induction l generalizing m role with
  | nil =>
    obtain rfl := Except.ok.inj hr
    exact ⟨role, h, Grown.refl⟩
  | cons r l ih =>
    rw [List.foldlM_cons] at hr
    obtain ⟨m₁, h₁, hr⟩ := Res.bind_eq_ok.mp hr
    obtain ⟨role₁, ho₁, hg₁⟩ := h.cloneRegion hcr3 hp ha h0 hd hlow (hl r List.mem_cons_self) h₁
    have hcr₁ : m₁.cr3 = some p.cr3 := by rw [hg₁.same]; exact hcr3
    have hlow₁ : LowPages role₁ (frameOf pdir) := fun f hf =>
      (hg₁.pages rfl f hf).elim (hlow f) id
    obtain ⟨role₂, ho₂, hg₂⟩ := ih ho₁ hcr₁ (hg₁.le _ _ hp) (hg₁.le _ _ hd) hlow₁
      (fun x hx => hl x (List.mem_cons_of_mem _ hx)) hr
    exact ⟨role₂, ho₂, hg₁.trans hg₂⟩

/-- The frame that `setup_stack` copies lies inside the new kernel stack. -/
theorem stack_words {stack : UInt32} (ha : Aligned stack) (hlow : stack.toNat < 0x400000) {i : Nat}
    (hi : i < frameWords) : (entryAddr (stack + 0x1000 - 4 - 4 * 17) i).toNat < 0x400000 ∧
      frameOf (entryAddr (stack + 0x1000 - 4 - 4 * 17) i) = frameOf stack := by
  have h1 : (0x1000 : UInt32).toNat = 4096 := rfl
  have h4 : (4 : UInt32).toNat = 4 := rfl
  have h68 : (4 * 17 : UInt32).toNat = 68 := rfl
  have hi' : i < 17 := hi
  have e1 : (stack + 0x1000).toNat = stack.toNat + 4096 := by
    rw [toNat_add_of_lt (by rw [h1]; omega), h1]
  have e2 : (stack + 0x1000 - 4).toNat = stack.toNat + 4096 - 4 := by
    rw [toNat_sub_of_le (by rw [e1, h4]; omega), e1, h4]
  have e3 : (stack + 0x1000 - 4 - 4 * 17).toNat = stack.toNat + 4096 - 4 - 68 := by
    rw [toNat_sub_of_le (by rw [e2, h68]; omega), e2, h68]
  have hofNat : (UInt32.ofNat i).toNat = i := by
    rw [UInt32.toNat_ofNat']
    exact Nat.mod_eq_of_lt (by omega)
  have e4 : (4 * UInt32.ofNat i).toNat = 4 * i := by
    rw [toNat_mul_of_lt (by rw [h4, hofNat]; omega), h4, hofNat]
  have e5 : (entryAddr (stack + 0x1000 - 4 - 4 * 17) i).toNat =
      stack.toNat + 4096 - 4 - 68 + 4 * i := by
    unfold entryAddr
    rw [toNat_add_of_lt (by rw [e3, e4]; omega), e3, e4]
  unfold Aligned at ha
  unfold frameOf
  omega

/-- **`fork`** keeps the invariant and adds a process. -/
theorem fork (h : Owned m b role) (hr : m.fork = .ok m') :
    ∃ role' p, Owned m' b role' ∧ Spawned m role m' role' p := by
  obtain ⟨i, p, hi, hp⟩ := fork_current hr
  have hcr3 := h.cr3_of_current hi hp
  obtain ⟨-, hpd, hpr⟩ := h.procs p (List.mem_of_getElem? hp)
  obtain ⟨m₁, pdir, m₂, m₃, m₄, stack, m₅, h₁, h₂, h₃, h₄, h₅, rfl⟩ := fork_parts hi hp hr
  obtain ⟨hnone, ha, h0, ho₂, hs₂⟩ := h.newDir h₁ h₂
  have hle₂ : role.Le (role.assign (frameOf pdir) .dir) := Roles.le_assign hnone
  have hcr₂ : m₂.cr3 = some p.cr3 := by rw [hs₂]; exact hcr3
  have hlow₂ := h.lowPages_new hnone
  obtain ⟨role₃, ho₃, hg₃⟩ := ho₂.cloneRegions hcr₂ (hle₂ _ _ hpd) ha h0 Roles.assign_self hlow₂
    (fun r hr => hpr ▸ hr) h₃
  obtain ⟨hnone₄, hsa, hsl, ho₄, hs₄⟩ := ho₃.newStack h₄
  have hstack : ∀ r, role₃.assign (frameOf stack) .stack (frameOf stack) = some r →
      r.structural = false := by
    intro r hr
    rw [Roles.assign_self] at hr
    obtain rfl := Option.some.inj hr
    rfl
  obtain ⟨ho₅, pg, hs₅⟩ := ho₄.memcpy_scratch (fun i hi => stack_words hsa hsl hi) hstack h₅
  have hg₅ : Grown .data (frameOf pdir) m₃ role₃ m₅ (role₃.assign (frameOf stack) .stack) := by
    refine Grown.of_phys (Roles.le_assign hnone₄) (by rw [hs₅, hs₄]; rfl) fun f r hf _ => ?_
    rw [hs₅, setPage_phys_of_ne (Roles.ne_of_none hnone₄ hf), hs₄]
  exact ⟨_, _, h.spawn (p := ⟨pdir, p.regions, stack + 0x1000 - 4⟩) h₁ h₂
    (hg₃.data.trans hg₅) ho₅ hpr⟩

/-- **One operation** keeps the invariant. -/
theorem step {op : Op} (h : Owned m b role) (hr : step m op = .ok m') :
    ∃ role', Owned m' b role' := by
  cases op with
  | makeSysProc =>
    obtain ⟨role', -, ho, -⟩ := h.makeSysProc hr
    exact ⟨role', ho⟩
  | fork =>
    obtain ⟨role', -, ho, -⟩ := h.fork hr
    exact ⟨role', ho⟩
  | exec pVaddr pMemsz => exact h.exec hr
  | run i => exact ⟨role, h.run hr⟩

/-- The roles `initPaging` leaves. -/
def bootRoles (m : Machine) (b : UInt32) : Roles := fun f =>
  if f = frameOf m.kPdir then some .kernelDir
  else if frameOf b ≤ f ∧ f < frameOf b + m.nrValidPages ∨
      f = frameOf (m.phys (frameOf m.kPdir) 0x380) then
    some .kernelTable
  else none

theorem bootRoles_cases (hf : bootRoles m b f = some r) : f = frameOf m.kPdir ∧ r = .kernelDir ∨
    (frameOf b ≤ f ∧ f < frameOf b + m.nrValidPages ∨
      f = frameOf (m.phys (frameOf m.kPdir) 0x380)) ∧
      r = .kernelTable := by
  unfold bootRoles at hf
  split at hf
  · rename_i he
    exact Or.inl ⟨he, (Option.some.inj hf).symm⟩
  · split at hf
    · rename_i he
      exact Or.inr ⟨he, (Option.some.inj hf).symm⟩
    · exact absurd hf (by simp)

/-- **`initPaging`** establishes the invariant, if its tables came from below 4 MiB. -/
theorem boot {m₀ : Machine} (hb : Booted m₀ m b) (hfresh : Fresh m₀.handed)
    (hother : ∀ g ∈ m₀.handed, g.use = .other) (hprocs : m₀.procs = []) (hcur : m₀.pCurrent = none)
    (hstraight : ∀ g ∈ m.handed, g.use = .kernelTable → ∀ f ∈ g.frames, f < 1024)
    (hlow : LowAnswers m₀) : Owned m b (bootRoles m b) := by
  have hf := hb.fresh hfresh
  obtain ⟨t, hvram, g, hg, hu, hfg⟩ := hb.map.vram
  have hframe : frameOf (m.phys (frameOf m.kPdir) 0x380) = frameOf t := by
    rw [hvram, frameOf_entryWord]
  -- the chunk a table of the kernel comes from
  have htable : ∀ x, (frameOf b ≤ x ∧ x < frameOf b + m.nrValidPages ∨
      x = frameOf (m.phys (frameOf m.kPdir) 0x380)) →
      ∃ g ∈ m.handed, (g.use = .kernelTable ∨ g.use = .vramTable) ∧ x ∈ g.frames := by
    rintro x (hx | rfl)
    · exact ⟨_, hb.map.tableGrant, Or.inl rfl, hx⟩
    · exact ⟨g, hg, hu, hframe ▸ hfg⟩
  have hrole : ∀ x, (frameOf b ≤ x ∧ x < frameOf b + m.nrValidPages ∨
      x = frameOf (m.phys (frameOf m.kPdir) 0x380)) → bootRoles m b x = some .kernelTable := by
    intro x hx
    unfold bootRoles
    rw [if_neg ?_, if_pos hx]
    rintro rfl
    obtain ⟨g, hg, hu, hfg⟩ := htable _ hx
    obtain rfl := hf.unique hg hb.map.dirGrant hfg (frame_mem (by omega))
    exact absurd hu (by simp)
  have hnot : ∀ x r, bootRoles m b x = some r → r = .kernelDir ∨ r = .kernelTable := by
    intro x r hx
    rcases bootRoles_cases hx with ⟨-, hr⟩ | ⟨-, hr⟩
    · exact Or.inl hr
    · exact Or.inr hr
  have hsys : isUser systempage = false := rfl
  refine ⟨⟨hb.aligned, hb.bound, ?_, ?_, hb.map.dir, ?_, ?_, ?_, ?_, ?_⟩, hf, ?_, ?_, hstraight, ?_,
    hb.dir_aligned, hb.pos, ?_, ?_, ?_⟩
  · unfold bootRoles
    rw [if_pos rfl]
  · intro i hi
    exact ⟨hrole _ (Or.inl ⟨by omega, by omega⟩), hb.map.tables i hi⟩
  · refine ⟨?_, hrole _ (Or.inr rfl)⟩
    rw [hvram, isUser_entryWord]
    exact hsys
  · intro d hd
    exact absurd (hnot _ _ hd) (by simp)
  · intro d hd
    exact absurd (hnot _ _ hd) (by simp)
  · intro d t ht
    exact absurd (hnot _ _ ht) (by simp)
  · rintro f d (hd | hd)
    · exact absurd (hnot _ _ hd) (by simp)
    · exact absurd (hnot _ _ hd) (by simp)
  · intro x r hx
    rcases bootRoles_cases hx with ⟨rfl, rfl⟩ | ⟨hcase, rfl⟩
    · exact ⟨_, hb.map.dirGrant, rfl, frame_mem (by omega)⟩
    · obtain ⟨g, hg, hu, hfg⟩ := htable x hcase
      refine ⟨g, hg, ?_, hfg⟩
      rcases hu with hu | hu
      · rw [hu]
        rfl
      · rw [hu]
        rfl
  · intro g hg
    rcases hb.answered g hg with hg | hg
    · exact Or.inl (hother g hg)
    · exact Or.inr hg
  · exact hlow.congr (by rw [hb.same])
  · rw [hb.same]
    show ∀ p ∈ m₀.procs, _
    rw [hprocs]
    exact fun p hp => absurd hp List.not_mem_nil
  · rw [hb.same]
    show (m₀.procs.map _).Nodup
    rw [hprocs]
    exact List.nodup_nil
  · refine Or.inl ⟨?_, ?_⟩
    · rw [hb.same]
      exact hcur
    · rw [hb.same]

/-- **`initPaging`** establishes the invariant where every answer is a low frame. -/
theorem init {m₀ : Machine} (hb : Booted m₀ m b) (hfresh : Fresh m₀.handed)
    (hother : ∀ g ∈ m₀.handed, g.use = .other) (hprocs : m₀.procs = []) (hcur : m₀.pCurrent = none)
    (hlow : LowFrames m₀) : Owned m b (bootRoles m b) := by
  refine Owned.boot hb hfresh hother hprocs hcur (fun g hg hu f hf => ?_) hlow.answers
  obtain ⟨h1, h2⟩ := hf
  unfold frameOf at h1 h2
  rcases hb.answered g hg with hg | ⟨⟨k, -, hk⟩, hn⟩
  · rw [hother g hg] at hu
    exact absurd hu (by simp)
  · have hsame : m.answers = m₀.answers ∧ m.nrValidPages = m₀.nrValidPages := by
      rw [hb.same]
      exact ⟨rfl, rfl⟩
    have hle := hlow.tables k
    rw [← hsame.1, ← hsame.2, ← hu, hk] at hle
    have hpos := hb.pos
    rcases hn with hn | ⟨-, hn⟩
    · omega
    · omega

end Owned

/-- **Isolation holds along every run** of `makeSysProc`, `fork`, `exec` and switches after
`initPaging`, in any order, if the frames the kernel uses through pointers lie below 4 MiB. Chunks
handed out before `initPaging` are for other things. -/
theorem spaces_isolated {m₀ m₁ m : Machine} {ops : List Op} (hoff : m₀.cr3 = none)
    (hprocs : m₀.procs = []) (hcur : m₀.pCurrent = none) (hfresh : Fresh m₀.handed)
    (hother : ∀ g ∈ m₀.handed, g.use = .other) (hlow : LowFrames m₀)
    (hinit : m₀.initPaging = .ok m₁) (hrun : Run step (fun _ _ => True) m₁ ops m) : Isolated m := by
  obtain ⟨b, hb⟩ := initPaging_spec hoff hinit
  have h₁ := Owned.init hb hfresh hother hprocs hcur hlow
  obtain ⟨role, h⟩ := hrun.invariant (I := fun m => ∃ role, Owned m b role)
    (fun s o s' ⟨role, hs⟩ _ hst => hs.step hst) ⟨_, h₁⟩
  exact h.isolated

/-! ## Two runs -/

/-- A machine whose allocator gives the directory of the first process the chunk at `pdir`. -/
def procMachine (memSize pdir : UInt32) (phys : Nat → Page) : Machine where
  phys := phys
  cr3 := none
  answers
    | .pageDir, k => if k = 0 then 0x1000 else pdir
    | .other, _ => 0x2000
    | .kernelTable, _ => 0x3000
    | .vramTable, _ => 0x5000
    | .pageTable, k => if k = 5 then 0x7000 else 0x8000
    | .kernelStack, _ => 0x9000
    | .copied, _ => 0xa000
    | .data, k => 0x300000 + 0x1000 * UInt32.ofNat k
  handed := []
  memSize := memSize
  kPdir := 0
  procs := []
  pCurrent := none

/-- The chunks of `initPaging`. -/
def bootChunks (n : Nat) : List Grant :=
  [⟨.vramTable, 0x5000, 1⟩, ⟨.kernelTable, 0x3000, n⟩, ⟨.other, 0x2000, 1⟩, ⟨.pageDir, 0x1000, 1⟩]

/-- `initPaging` and `makeSysProc` return; the frame behind the pointer to the process directory is
`pdir` modulo 4 MiB. -/
theorem procMachine_run (memSize pdir : UInt32) (phys : Nat → Page) (n : Nat)
    (hn : (procMachine memSize pdir phys).nrValidPages = n) (hpos : 1 ≤ n) (hle : n ≤ 2)
    (ha : Aligned pdir) (hlt : pdir.toNat < n * 0x400000)
    (hfree : frameOf pdir % 1024 ∉ [1, 3, 4, 7, 8])
    (hbnew : Grant.New ⟨.kernelTable, 0x3000, n⟩ [⟨.other, 0x2000, 1⟩, ⟨.pageDir, 0x1000, 1⟩])
    (hvnew : Grant.New ⟨.vramTable, 0x5000, 1⟩ (bootChunks n).tail)
    (hdnew : Grant.New ⟨.pageDir, pdir, 1⟩ (bootChunks n))
    (hans₁ : StackAnswers (procMachine memSize pdir phys) (⟨.pageDir, pdir, 1⟩ :: bootChunks n)
      0x7000 0x306000 0x307000)
    (hans₂ : StackAnswers (procMachine memSize pdir phys)
      (stackChunks 0x7000 0x306000 0x307000 (⟨.pageDir, pdir, 1⟩ :: bootChunks n))
      0x8000 0x309000 0x30a000)
    (hst : Grant.New ⟨.kernelStack, 0x9000, 1⟩
      (procChunks pdir 0x7000 0x306000 0x307000 0x8000 0x309000 0x30a000 (bootChunks n))) :
    ∃ m₁ m, (procMachine memSize pdir phys).initPaging = .ok m₁ ∧ m₁.makeSysProc = .ok m ∧
      m.procs = [⟨pdir, stackRegions, 0x9000 + 0x1000 - 4⟩] ∧ ⟨.pageDir, 0x1000, 1⟩ ∈ m.handed ∧
      ∀ f, 0x20 < f → f ≠ frameOf pdir % 1024 → m.phys f = phys f := by
  obtain ⟨m₁, h₁⟩ := initPaging_total (m := procMachine memSize pdir phys) rfl rfl
    rfl rfl rfl (hn ▸ hpos) (show Grant.New ⟨.pageDir, 0x1000, 1⟩ [] by decide)
    (show Grant.New ⟨.other, 0x2000, 1⟩ [⟨.pageDir, 0x1000, 1⟩] by decide) (hn ▸ hbnew) (hn ▸ hvnew)
  obtain ⟨b, hb⟩ := initPaging_spec rfl h₁
  have hb' : b = 0x3000 := hb.tables_eq.symm
  have hk : m₁.kPdir = 0x1000 := hb.dir_eq.symm
  have hn₁ : m₁.nrValidPages = n := by rw [← hn, hb.same]; rfl
  have hh₁ : m₁.handed = bootChunks n := by
    rw [hb.handed (by omega), hn₁, hb', hk]
    rfl
  have hans : m₁.answers = (procMachine memSize pdir phys).answers := by rw [hb.same]
  have hp₁ : m₁.procs = [] := by rw [hb.same]; rfl
  have hcr3 : m₁.cr3 = some m₁.kPdir := by rw [hb.same]
  have hreach := kernelMap_alias hb.map hcr3 hb.aligned hb.bound
  rw [hn₁] at hreach
  -- the words of the map are in the frames 1, 3 and 4
  have hK : ∀ f, f ∉ [1, 3, 4] → ∀ i, (f, i) ∉ mapWords m₁ b := by
    intro f hf i hi
    simp only [List.mem_cons, List.not_mem_nil, or_false, not_or] at hf
    have h3 : frameOf 0x3000 = 3 := rfl
    have h1 : frameOf 0x1000 = 1 := rfl
    rcases hi with ⟨hi, -⟩ | ⟨k, hk', hi⟩
    · rw [hk, h1] at hi
      exact hf.1 hi
    · rw [hb', h3] at hi
      simp only at hi
      omega
  have hfree' := hfree
  simp only [List.mem_cons, List.not_mem_nil, or_false, not_or] at hfree'
  have hkd : Holds {v | v.toNat < n * 0x400000} (fun v => UInt32.ofNat (v.toNat % 0x400000))
      m₁.kPdir 1 := by
    rw [hk]
    exact holds_alias (by unfold Aligned; decide)
      (lt_of_lt_of_le (by decide) (Nat.mul_le_mul_right _ hpos))
  have ht₁ : Holds {v | v.toNat < n * 0x400000}
      (fun v => UInt32.ofNat (v.toNat % 0x400000)) 0x7000 7 :=
    holds_alias (by unfold Aligned; decide)
      (lt_of_lt_of_le (by decide) (Nat.mul_le_mul_right _ hpos))
  have ht₂ : Holds {v | v.toNat < n * 0x400000}
      (fun v => UInt32.ofNat (v.toNat % 0x400000)) 0x8000 8 :=
    holds_alias (by unfold Aligned; decide)
      (lt_of_lt_of_le (by decide) (Nat.mul_le_mul_right _ hpos))
  obtain ⟨m, hm, hprocs, hhanded, hframe⟩ := makeSysProc_total (m := m₁) (by rw [hp₁]; decide)
    (by omega) hreach hkd (holds_alias ha hlt) (hK _ (by simp; omega)) hfree'.1
    (by rw [hans, hh₁]; rfl) (by rw [hh₁]; exact hdnew) ht₁ (hK 7 (by decide))
      (Ne.symm hfree'.2.2.2.1)
    (by rw [hh₁]; unfold StackAnswers; rw [hans]; exact hans₁) ht₂ (hK 8 (by decide))
    (Ne.symm hfree'.2.2.2.2) (by rw [hh₁]; unfold StackAnswers; rw [hans]; exact hans₂)
    (by rw [hans]) (by rw [hh₁]; exact hst)
  refine ⟨m₁, m, h₁, hm, ?_, ?_, ?_⟩
  · rw [hprocs, hp₁]
    rfl
  · rw [hhanded, hh₁]
    simp [procChunks, stackChunks, bootChunks]
  · intro f hf hfd
    rw [hframe f hfd (by omega) (by omega), hb.frame f ?_]
    · rfl
    · rw [hh₁]
      intro g hg hfg
      simp only [bootChunks, List.mem_cons, List.not_mem_nil, or_false] at hg
      have h5 : frameOf 0x5000 = 5 := rfl
      have h3 : frameOf 0x3000 = 3 := rfl
      have h2 : frameOf 0x2000 = 2 := rfl
      have h1 : frameOf 0x1000 = 1 := rfl
      obtain ⟨-, hfg⟩ := hfg
      rcases hg with rfl | rfl | rfl | rfl
      · simp only [h5] at hfg
        omega
      · simp only [h3] at hfg
        omega
      · simp only [h2] at hfg
        omega
      · simp only [h1] at hfg
        omega

theorem procMachine_lowFrames : LowFrames (procMachine 0x400000 0x6000 fun _ _ => 0) := by
  refine ⟨fun k => ?_, fun use k hu => ?_, fun k => ?_⟩
  · show (0x3000 : UInt32).toNat + (0x400000 / dirEntrySize).toNat * 4096 ≤ 0x400000
    decide
  · cases use with
    | pageDir =>
      show (if k = 0 then (0x1000 : UInt32) else 0x6000).toNat < 0x400000
      split <;> decide
    | pageTable =>
      show (if k = 5 then (0x7000 : UInt32) else 0x8000).toNat < 0x400000
      split <;> decide
    | vramTable => show (0x5000 : UInt32).toNat < 0x400000; decide
    | kernelStack => show (0x9000 : UInt32).toNat < 0x400000; decide
    | copied => show (0xa000 : UInt32).toNat < 0x400000; decide
    | _ => exact absurd hu (by decide)
  · show (if k = 0 then (0x1000 : UInt32) else 0x6000) ≠ 0
    split <;> decide

/-- What the memory happens to hold at power-on: the frame at `0x410000` looks like a directory
whose slot `0x100` opens the frame at `0x1000` to the user. -/
def powerOnMemory : Nat → Page := fun f i =>
  if f = 0x410 ∧ i.val = 0x100 then 0x00411007 else if f = 0x411 ∧ i.val = 0 then 0x00001007 else 0

/-- **With 8 MiB isolation fails**: the directory of the first process lies at `0x410000`, the
kernel clears and fills frame `0x10` in its place, and what the frame held before opens the kernel's
own directory to the process. -/
theorem isolation_fails :
    ∃ m₁ m, (procMachine 0x800000 0x410000 powerOnMemory).initPaging = .ok m₁ ∧
    Run step (fun _ _ => True) m₁ [.makeSysProc] m ∧ (∃ p ∈ m.procs, UserAcc m p.cr3 1) ∧
    ⟨.pageDir, 0x1000, 1⟩ ∈ m.handed ∧ ¬ Isolated m := by
  obtain ⟨m₁, m, h₁, h₂, hprocs, hdir, hframe⟩ := procMachine_run 0x800000 0x410000 powerOnMemory 2
    (by decide) (by decide) (by decide) (by unfold Aligned; decide) (by decide)
      (by decide) (by decide)
    (by decide) (by decide) (by unfold StackAnswers; decide)
      (by unfold StackAnswers; decide) (by decide)
  have hp : (⟨0x410000, stackRegions, 0x9000 + 0x1000 - 4⟩ : Proc) ∈ m.procs := by
    rw [hprocs]
    exact List.mem_singleton_self _
  have hD : m.phys 0x410 = powerOnMemory 0x410 := hframe _ (by decide) (by decide)
  have hT : m.phys 0x411 = powerOnMemory 0x411 := hframe _ (by decide) (by decide)
  have hacc : UserAcc m 0x410000 1 := by
    have hd : frameOf 0x410000 = 0x410 := rfl
    have hslot : m.phys 0x410 0x100 = 0x00411007 := by rw [hD]; rfl
    have ht : frameOf 0x00411007 = 0x411 := rfl
    have hent : m.phys 0x411 0 = 0x00001007 := by rw [hT]; rfl
    refine ⟨0x100, 0, ?_⟩
    rw [hd, hslot, ht, hent]
    decide
  refine ⟨m₁, m, h₁, Run.cons trivial h₂ (Run.nil m), ⟨_, hp, hacc⟩, hdir, fun h => ?_⟩
  exact h.kernel _ hp 1 hacc _ hdir rfl ⟨by decide, by decide⟩

end OwnOS.VarMem
