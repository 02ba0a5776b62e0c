import OwnOS.VarMem.Locality
import OwnOS.VarMem.Fork

/-!
# The kernel stays mapped in every process

Runs of `makeSysProc`, `fork`, `enableSpace` on any process directory with any range and type, and
switches between processes, in any order after `initPaging`. A kernel address lies in the straight
map or in the 2 MiB of the VRAM. Its entry in the kernel's directory and the one in the table were
present when `initPaging` returned, and an entry that is present is never written again
(`Grown.stable`); a new directory gets the kernel's slots (`Owned.Spawned`). So every process sees
the kernel where `initPaging` put it, and its slots are system pages.

* `Kept`: what an operation leaves; `Kept.trans`, `Owned.spaceStep_kept`: over runs.
* `kernel_stays`: **`vir2phy` of a kernel address is the same in every process, and no process can
  reach it.**
* `kernel_lost`: with 8 MiB a directory at `0x410000` is not what the kernel wrote.
-/

namespace OwnOS.VarMem

open Lib Lib.Word Machine

/-- The operations. -/
inductive SpaceOp where
  | makeSysProc
  | fork
  | enableSpace (i : Nat) (virAddr size type : UInt32)
  | run (i : Nat)
  deriving DecidableEq

/-- One operation. -/
def spaceStep (m : Machine) : SpaceOp → Res Machine
  | .makeSysProc => m.makeSysProc
  | .fork => m.fork
  | .enableSpace i virAddr size type =>
    match m.procs[i]? with
    | none => .error .fault
    | some p => m.enableSpace virAddr size p.cr3 type .data
  | .run i => m.run i

/-- The addresses of the kernel: the straight map, and the window of the VRAM. -/
def KernelAddr (m : Machine) (a : UInt32) : Prop :=
  a.toNat < m.nrValidPages * 0x400000 ∨ 0xe0000000 ≤ a.toNat ∧ a.toNat < 0xe0200000

/-- **The kernel is mapped** in every process of `m` as it was in its own directory in `m₁`, and not
open to the user. -/
structure KernelStays (m₁ m : Machine) : Prop where
  mapped : ∀ p ∈ m.procs, ∀ a, KernelAddr m₁ a →
    ∃ x, m₁.vir2phy a m₁.kPdir = .ok x ∧ m.vir2phy a p.cr3 = .ok x
  hidden : ∀ p ∈ m.procs, ∀ a, KernelAddr m₁ a → m.userMapped p.cr3 a = false

/-- What an operation leaves: the entries that are present, and the kernel's VRAM slot in every new
process. -/
structure Kept (m : Machine) (role : Roles) (m' : Machine) (role' : Roles) : Prop where
  le : role.Le role'
  dir : m'.kPdir = m.kPdir
  size : m'.memSize = m.memSize
  stable : ∀ f r, role f = some r → r.structural = true → ∀ i, isEntryExist (m.phys f i) = true →
    m'.phys f i = m.phys f i
  vram : ∀ p ∈ m'.procs, p ∈ m.procs ∨ m'.phys (frameOf p.cr3) 0x380 =
    m.phys (frameOf m.kPdir) 0x380

variable {m m' m'' m₁ : Machine} {b a : UInt32} {role role' role'' role₁ : Roles} {d : Nat}
  {use : Use} {p : Proc}

/-! ## One operation -/

namespace Kept

theorem refl : Kept m role m role :=
  ⟨Roles.Le.refl role, rfl, rfl, fun _ _ _ _ _ _ => rfl, fun _ hp => Or.inl hp⟩

/-- **One operation after another.** -/
theorem trans (hk : Kept m role m' role') (hk' : Kept m' role' m'' role'') (h : Owned m b role)
    (h' : Owned m' b role') (hp : isEntryExist (m.phys (frameOf m.kPdir) 0x380) = true) :
    Kept m role m'' role'' := by
  have hslot := hk.stable _ _ h.tables.kdir rfl _ hp
  refine ⟨hk.le.trans hk'.le, hk'.dir.trans hk.dir, hk'.size.trans hk.size, ?_, fun p hpm => ?_⟩
  · intro f r hf hr i hi
    have he := hk.stable f r hf hr i hi
    rw [hk'.stable f r (hk.le f r hf) hr i (by rw [he]; exact hi), he]
  · rcases hk'.vram p hpm with hpm' | he
    · rcases hk.vram p hpm' with hpm₀ | he
      · exact Or.inl hpm₀
      · -- the slot stays in a process that was new
        obtain ⟨-, hd, -⟩ := h'.procs p hpm'
        refine Or.inr ?_
        rw [hk'.stable _ _ hd rfl _ (by rw [he]; exact hp), he]
    · refine Or.inr ?_
      rw [he, hk.dir, hslot]

end Kept

namespace Owned

theorem Grown.kept (hg : Grown use d m role m' role') : Kept m role m' role' := by
  refine ⟨hg.le, by rw [hg.same], by rw [hg.same], hg.stable, fun p hp => Or.inl ?_⟩
  rw [hg.same] at hp
  exact hp

theorem Spawned.kept (hs : Spawned m role m' role' p)
    (hp : isEntryExist (m.phys (frameOf m.kPdir) 0x380) = true) : Kept m role m' role' := by
  have hg := hs.grown.kept
  refine ⟨hg.le, hg.dir, hg.size, hg.stable, fun q hq => ?_⟩
  rw [hs.procs, List.mem_append, List.mem_singleton] at hq
  rcases hq with hq | rfl
  · exact Or.inl hq
  · exact Or.inr (hs.slot hp)

/-- **Every operation** keeps the invariant and the kernel's entries. -/
theorem spaceStep_kept {op : SpaceOp} (h : Owned m b role)
    (hp : isEntryExist (m.phys (frameOf m.kPdir) 0x380) = true) (hr : spaceStep m op = .ok m') :
    ∃ role', Owned m' b role' ∧ Kept m role m' role' := by
  cases op with
  | makeSysProc =>
    obtain ⟨role', p, ho, hs⟩ := h.makeSysProc hr
    exact ⟨role', ho, hs.kept hp⟩
  | fork =>
    obtain ⟨role', p, ho, hs⟩ := h.fork hr
    exact ⟨role', ho, hs.kept hp⟩
  | enableSpace i virAddr size type =>
    unfold spaceStep at hr
    simp only at hr
    split at hr
    · exact absurd hr (by rintro ⟨⟩)
    · rename_i p hpi
      obtain ⟨ha, hd, -⟩ := h.procs p (List.mem_of_getElem? hpi)
      obtain ⟨role', ho, hg, -⟩ := h.enableSpace ha hd (Or.inl rfl) hr
      exact ⟨role', ho, hg.kept⟩
  | run i =>
    refine ⟨role, h.run hr, ?_⟩
    unfold spaceStep Machine.run at hr
    simp only at hr
    split at hr
    · exact absurd hr (by rintro ⟨⟩)
    · obtain rfl := Except.ok.inj hr
      exact ⟨Roles.Le.refl role, rfl, rfl, fun _ _ _ _ _ _ => rfl, fun _ hp => Or.inl hp⟩

/-! ## The kernel in a process -/

/-- A kernel address lies in a slot that every process has from the kernel. -/
theorem kernelSlot_of_addr (ha : KernelAddr m a) : KernelSlot m a := by
  unfold KernelAddr at ha
  unfold KernelSlot
  show a.toNat / 0x400000 < m.nrValidPages ∨ a.toNat / 0x400000 = 0x380
  omega

/-- The kernel's directory after `initPaging` has both entries for a kernel address, and the table
is one of the kernel's. -/
theorem kernel_entries {m₀ : Machine} (h₁ : Owned m₁ b role₁) (hoff : m₀.cr3 = none)
    (hmem : m₀.memSize.toNat < 0xe0000000) (hinit : m₀.initPaging = .ok m₁) (ha : KernelAddr m₁ a) :
    isEntryExist (m₁.phys (frameOf m₁.kPdir) (dirIndex a)) = true ∧
      role₁ (frameOf (m₁.phys (frameOf m₁.kPdir) (dirIndex a))) = some .kernelTable ∧
      isEntryExist (m₁.phys (frameOf (m₁.phys (frameOf m₁.kPdir) (dirIndex a))) (tableIndex a)) =
        true := by
  obtain ⟨b', hb⟩ := initPaging_spec hoff hinit
  have hT := (h₁.tables.kernel_slot (kernelSlot_of_addr ha)).2
  by_cases hn : (dirIndex a).val < m₁.nrValidPages
  · have hD := h₁.tables.slots _ (dirIndex a).isLt hn
    refine ⟨?_, hT, ?_⟩
    · rw [hD]
      exact isEntryExist_entryWord systempage_odd
    · rw [hD, frameOf_entryWord, (chunk_frame h₁.tables.aligned h₁.tables.bound hn).2,
        (h₁.tables.straight _ hn).2]
      exact isEntryExist_entryWord systempage_odd
  · have hwindow : 0xe0000000 ≤ a.toNat ∧ a.toNat < 0xe0200000 := by
      refine ha.resolve_left fun hlt => hn ?_
      show a.toNat / 0x400000 < m₁.nrValidPages
      omega
    have hdi : dirIndex a = 0x380 := by
      refine Fin.ext ?_
      show a.toNat / 0x400000 = 0x380
      omega
    have htj : (tableIndex a).val < 512 := by
      show a.toNat % 0x400000 / 0x1000 < 512
      omega
    obtain ⟨t, hvram, -⟩ := hb.map.vram
    have hnr : m₀.nrValidPages ≤ 0x380 := by
      rw [nrValidPages_eq]
      omega
    rw [hdi] at hT ⊢
    refine ⟨?_, hT, initPaging_window hoff hinit hnr htj⟩
    rw [hvram]
    exact isEntryExist_entryWord systempage_odd

/-- **A process has the entries of the kernel's directory** for a kernel address. -/
theorem kernel_slot_eq (h₁ : Owned m₁ b role₁) (h : Owned m b role) (hk : Kept m₁ role₁ m role)
    (hprocs : m₁.procs = []) (hp : p ∈ m.procs) (ha : KernelAddr m₁ a) :
    m.phys (frameOf p.cr3) (dirIndex a) = m₁.phys (frameOf m₁.kPdir) (dirIndex a) := by
  obtain ⟨-, hd, -⟩ := h.procs p hp
  have hn : m.nrValidPages = m₁.nrValidPages := by
    unfold nrValidPages
    rw [hk.size]
  rcases kernelSlot_of_addr ha with hi | hi
  · have hi' : (dirIndex a).val < m.nrValidPages := by rw [hn]; exact hi
    rw [h.tables.shared _ hd _ hi', h.tables.slots _ (dirIndex a).isLt hi',
      h₁.tables.slots _ (dirIndex a).isLt hi]
  · have hdi : dirIndex a = 0x380 := Fin.ext hi
    rw [hdi]
    refine (hk.vram p hp).resolve_left fun hp₁ => ?_
    rw [hprocs] at hp₁
    exact absurd hp₁ List.not_mem_nil

/-- A state that the operations kept has the kernel mapped. -/
theorem kernelStays {m₀ : Machine} (h₁ : Owned m₁ b role₁) (h : Owned m b role)
    (hk : Kept m₁ role₁ m role) (hoff : m₀.cr3 = none) (hprocs : m₁.procs = [])
    (hmem : m₀.memSize.toNat < 0xe0000000) (hinit : m₀.initPaging = .ok m₁) : KernelStays m₁ m where
  mapped p hp a ha := by
    obtain ⟨hal, hd, -⟩ := h.procs p hp
    obtain ⟨-, hT, hpresent⟩ := h₁.kernel_entries hoff hmem hinit ha
    have hslot := h₁.kernel_slot_eq h hk hprocs hp ha
    refine ⟨look m₁ (frameOf m₁.kPdir) a, ?_, ?_⟩
    · exact h₁.vir2phy_of_lt h₁.dir_aligned (Or.inl rfl) fun _ => h₁.lt hT (by simp)
    · rw [h.vir2phy_of_lt hal (Or.inr hd) fun _ => ?_]
      · unfold look
        rw [hslot, hk.stable _ _ hT rfl _ hpresent]
      · rw [hslot]
        exact h₁.lt hT (by simp)
  hidden p hp a ha := by
    unfold userMapped
    simp only [h₁.kernel_slot_eq h hk hprocs hp ha,
      (h₁.tables.kernel_slot (kernelSlot_of_addr ha)).1,
      Bool.and_false, Bool.false_and]

end Owned

/-- **The kernel stays mapped in every process**, where `initPaging` put it and closed to the user,
along every run of `makeSysProc`, `fork`, `enableSpace` on process directories and switches. The
chunks the kernel uses through pointers lie below 4 MiB, and no directory is at NULL. -/
theorem kernel_stays {m₀ : Machine} {ops : List SpaceOp} (hoff : m₀.cr3 = none)
    (hprocs : m₀.procs = []) (hcur : m₀.pCurrent = none) (hfresh : Fresh m₀.handed)
    (hother : ∀ g ∈ m₀.handed, g.use = .other) (hlow : LowFrames m₀)
    (hmem : m₀.memSize.toNat < 0xe0000000) (hinit : m₀.initPaging = .ok m₁)
    (hrun : Run spaceStep (fun _ _ => True) m₁ ops m) : KernelStays m₁ m := by
  obtain ⟨b, hb⟩ := initPaging_spec hoff hinit
  have h₁ := Owned.init hb hfresh hother hprocs hcur hlow
  have hprocs₁ : m₁.procs = [] := by rw [hb.same]; exact hprocs
  have hvram : isEntryExist (m₁.phys (frameOf m₁.kPdir) 0x380) = true := by
    obtain ⟨t, ht, -⟩ := hb.map.vram
    rw [ht]
    exact isEntryExist_entryWord systempage_odd
  obtain ⟨role, h, hk⟩ :=
    hrun.invariant (I := fun m => ∃ role, Owned m b role ∧ Kept m₁ (Owned.bootRoles m₁ b) m role)
    (fun s o s' ⟨role, hs, hks⟩ _ hst => by
      have hp : isEntryExist (s.phys (frameOf s.kPdir) 0x380) = true := by
        rw [hks.dir, hks.stable _ _ h₁.tables.kdir rfl _ hvram]
        exact hvram
      obtain ⟨role', hs', hk'⟩ := hs.spaceStep_kept hp hst
      exact ⟨role', hs', hks.trans hk' h₁ hs hvram⟩) ⟨_, h₁, Kept.refl⟩
  exact h₁.kernelStays h hk hoff hprocs₁ hmem hinit

/-! ## Two runs -/

/-- With 4 MiB two processes and a child of the first see the kernel. -/
theorem kernel_stays_forked : ∃ m₁ m, bumpMachine.initPaging = .ok m₁ ∧
    Run spaceStep (fun _ _ => True) m₁ [.makeSysProc, .makeSysProc, .run 0, .fork] m ∧
    m.procs.length = 3 ∧ KernelStays m₁ m := by
  obtain ⟨m₁, m₂, m₃, m₄, m, -, -, h₁, h₂, h₃, h₄, hm, -, hlen, -⟩ := bumpMachine_forked
  have hrun : Run spaceStep (fun _ _ => True) m₁ [.makeSysProc, .makeSysProc, .run 0, .fork] m :=
    Run.cons trivial h₂
      (Run.cons trivial h₃ (Run.cons trivial h₄ (Run.cons trivial hm (Run.nil m))))
  refine ⟨m₁, m, h₁, hrun, hlen, ?_⟩
  exact @kernel_stays m m₁ bumpMachine [.makeSysProc, .makeSysProc, .run 0, .fork] rfl
    rfl rfl trivial (fun g hg => absurd hg List.not_mem_nil)
    (bumpChunk_lowFrames bumpMachine_nrValidPages fun _ _ => rfl) (by decide) h₁ hrun

/-- What the memory happens to hold at power-on: the frame at `0x410000` looks like a directory
whose slot 0 opens the frame at `0x1000` to the user. -/
def staleMemory : Nat → Page := fun f i =>
  if f = 0x410 ∧ i.val = 0 then 0x00411007 else if f = 0x411 ∧ i.val = 0 then 0x00001007 else 0

/-- **With 8 MiB the kernel is not mapped**: the directory of the first process lies at `0x410000`,
the kernel fills frame `0x10` in its place, and what the frame held before opens address 0 to the
process. When it runs, `vir2phy` faults. -/
theorem kernel_lost : ∃ m₁ m m' p, (procMachine 0x800000 0x410000 staleMemory).initPaging = .ok m₁ ∧
    Run spaceStep (fun _ _ => True) m₁ [.makeSysProc] m ∧ m.procs = [p] ∧
    spaceStep m (.run 0) = .ok m' ∧ KernelAddr m₁ 0 ∧ m.userMapped p.cr3 0 = true ∧
    m'.vir2phy 0 p.cr3 = .error .fault ∧
    ¬ KernelStays m₁ m ∧ ¬ KernelStays m₁ m' := by
  obtain ⟨m₁, m, h₁, h₂, hprocs, -, hframe⟩ := procMachine_run 0x800000 0x410000 staleMemory 2
    (by decide) (by decide) (by decide) (by unfold Aligned; decide) (by decide)
      (by decide) (by decide)
    (by decide) (by decide) (by unfold StackAnswers; decide)
      (by unfold StackAnswers; decide) (by decide)
  obtain ⟨b, hb⟩ := initPaging_spec rfl h₁
  have hD : m.phys 0x410 = staleMemory 0x410 := hframe _ (by decide) (by decide)
  have hT : m.phys 0x411 = staleMemory 0x411 := hframe _ (by decide) (by decide)
  have hd : frameOf 0x410000 = 0x410 := rfl
  have haddr : KernelAddr m₁ 0 := by
    have hpos := hb.pos
    have h0 : (0 : UInt32).toNat = 0 := rfl
    unfold KernelAddr
    omega
  have huser : m.userMapped 0x410000 0 = true := by
    have hslot : m.phys 0x410 (dirIndex 0) = 0x00411007 := by rw [hD]; rfl
    have ht : frameOf 0x00411007 = 0x411 := rfl
    have hent : m.phys 0x411 (tableIndex 0) = 0x00001007 := by rw [hT]; rfl
    unfold userMapped
    simp only [hd, hslot, ht, hent]
    decide
  have hfault : ({ m with pCurrent := some 0, cr3 := some 0x410000 } : Machine).vir2phy 0 0x410000 =
      .error .fault := by
    have hslot : m.phys 0x410 (dirIndex (entryAddr 0x410000 (dirIndex 0).val)) =
      0 := by rw [hD]; rfl
    have hz : isEntryExist 0 = false := rfl
    have hne : (0x410000 : UInt32) ≠ 0 := by decide
    unfold vir2phy load addr Machine.translate
    simp only [if_neg hne, Res.ok_bind, hd, hslot, hz, Bool.false_eq_true, if_false, Res.error_bind]
  refine ⟨m₁, m, _, ⟨0x410000, stackRegions, 0x9000 + 0x1000 - 4⟩, h₁, Run.cons trivial h₂
    (Run.nil m), hprocs, by unfold spaceStep Machine.run; rw [hprocs]; rfl, haddr, huser, hfault,
    fun h => ?_, fun h => ?_⟩
  · have hno := h.hidden ⟨0x410000, stackRegions, 0x9000 + 0x1000 - 4⟩
      (by rw [hprocs]; exact List.mem_cons_self) 0 haddr
    rw [huser] at hno
    exact absurd hno (by simp)
  · obtain ⟨x, -, hx⟩ := h.mapped ⟨0x410000, stackRegions, 0x9000 + 0x1000 - 4⟩
      (by show _ ∈ m.procs; rw [hprocs]; exact List.mem_cons_self) 0 haddr
    rw [hfault] at hx
    exact absurd hx (by rintro ⟨⟩)

end OwnOS.VarMem
