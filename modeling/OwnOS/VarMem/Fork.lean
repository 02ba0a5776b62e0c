import OwnOS.VarMem.ForkReturns

/-!
# Does `fork` copy the user address space?

Along every run a process has mapped its two stacks and the pages of the programs it loaded
(`Spaces.runs`), and a child gets the stacks. `fork_copies_iff`: the whole user address space is
copied exactly when no program the parent loaded has a page outside the stacks.
-/

namespace OwnOS.VarMem

open Lib Lib.Word Machine

variable {m m' : Machine} {b v w : UInt32} {role : Roles} {A : Nat → List UInt32}

namespace Spaces

/-- **One operation**: the pages of a program go to the process that loads it. -/
theorem step {o : ProcOp} (h : Spaces m b role A) (hl : o.Apart m) (hr : procStep m o = .ok m') :
    ∃ role', Spaces m' b role' (fun i => A i ++ loads i m.pCurrent [o]) ∧
      ∀ i os, loads i m.pCurrent (o :: os) = loads i m.pCurrent [o] ++ loads i m'.pCurrent os := by
  cases o with
  | makeSysProc =>
    obtain ⟨role', h', hc⟩ := h.makeSysProc hr
    refine ⟨role', ?_, fun i os => ?_⟩
    · simp only [loads, List.append_nil]
      exact h'
    · rw [hc]
      rfl
  | fork =>
    obtain ⟨role', -, -, -, h', -, -, -, hc, -⟩ := h.fork hr
    refine ⟨role', ?_, fun i os => ?_⟩
    · simp only [loads, List.append_nil]
      exact h'
    · rw [hc]
      rfl
  | exec file =>
    obtain ⟨⟨m₁, ok⟩, h₁, hr⟩ := Res.bind_eq_ok.mp hr
    obtain rfl := Except.ok.inj hr
    cases hcur : m.pCurrent with
    | none =>
      -- without a running process only a file that is refused returns
      have hrefused : m₁ = m := by
        unfold loadElfExecutable at h₁
        simp only [hcur, Option.bind_none] at h₁
        split at h₁
        · exact absurd h₁ (by simp)
        · exact (Prod.mk.inj (Except.ok.inj h₁)).1.symm
      rw [hrefused]
      refine ⟨role, ?_, fun i os => ?_⟩
      · simp only [loads, List.append_nil, reduceCtorEq, if_false]
        exact h
      · rw [hcur]
        simp [loads]
    | some j =>
      obtain ⟨role', h', he⟩ := h.exec hcur hl h₁
      refine ⟨role', ?_, fun i os => ?_⟩
      · have hA : (fun i => A i ++ loads i (some j) [.exec file]) =
            Function.update A j (A j ++ file.pages) := by
          funext i
          by_cases hij : i = j
          · subst hij
            simp [loads]
          · rw [Function.update_of_ne hij]
            simp [loads, Ne.symm hij]
        rw [hA]
        exact h'
      · have hc : m₁.pCurrent = some j := by rw [he]; exact hcur
        rw [hc]
        simp [loads]
  | run j =>
    obtain ⟨h', hc⟩ := h.run hr
    refine ⟨role, ?_, fun i os => ?_⟩
    · simp only [loads, List.append_nil]
      exact h'
    · rw [hc]
      rfl
  | userStore v x =>
    obtain ⟨h', he⟩ := h.userStore hr
    refine ⟨role, ?_, fun i os => ?_⟩
    · simp only [loads, List.append_nil]
      exact h'
    · have hc : m'.pCurrent = m.pCurrent := by rw [he]
      rw [hc]
      rfl

/-- **Along a run**, every process has its stacks and the pages of the programs it loaded. -/
theorem runs {os : List ProcOp} (hrun : Run procStep (fun m o => o.Apart m) m os m')
    (h : Spaces m b role A) :
    ∃ role', Spaces m' b role' (fun i => A i ++ loads i m.pCurrent os) := by
  induction hrun generalizing role A with
  | nil s =>
    refine ⟨role, ?_⟩
    simp only [loads, List.append_nil]
    exact h
  | @cons s s' _ o os hl hs _ ih =>
    obtain ⟨role₁, h₁, hloads⟩ := h.step hl hs
    obtain ⟨role', h'⟩ := ih h₁
    have hA : (fun i => A i ++ loads i s.pCurrent (o :: os)) =
        fun i => A i ++ loads i s.pCurrent [o] ++ loads i s'.pCurrent os := by
      funext i
      rw [hloads, List.append_assoc]
    rw [hA]
    exact ⟨role', h'⟩

/-- `initPaging` leaves no process. -/
theorem boot {m₀ : Machine} (hb : Booted m₀ m b) (hprocs : m₀.procs = [])
    (ho : Owned m b (Owned.bootRoles m b)) :
    Spaces m b (Owned.bootRoles m b) (fun _ => stackPages) := by
  have hnot : ∀ f, ¬ Holder (Owned.bootRoles m b) f := by
    rintro f (hf | ⟨d, hf⟩)
    · rcases Owned.bootRoles_cases hf with ⟨-, hr⟩ | ⟨-, hr⟩ <;> simp at hr
    · rcases Owned.bootRoles_cases hf with ⟨-, hr⟩ | ⟨-, hr⟩ <;> simp at hr
  have hp : m.procs = [] := by rw [hb.same]; exact hprocs
  obtain ⟨t, hvram, -⟩ := hb.map.vram
  refine ⟨ho, ⟨?_, ?_, ?_, ?_, ?_⟩, ?_, ?_, fun _ _ hw => hw, fun _ _ => rfl⟩
  · rw [hvram]
    exact isEntryExist_entryWord systempage_odd
  · exact fun d hd => absurd (Or.inl hd) (hnot d)
  · exact fun d hd => absurd (Or.inl hd) (hnot d)
  · exact fun d t ht => absurd (Or.inr ⟨d, ht⟩) (hnot t)
  · exact fun f _ _ _ hf => absurd hf (hnot f)
  · rw [hp]
    exact fun p hp => absurd hp List.not_mem_nil
  · rw [hp]
    exact fun i p hi => absurd hi (by simp)

theorem init {m₀ : Machine} (hb : Booted m₀ m b) (hfresh : Fresh m₀.handed)
    (hother : ∀ g ∈ m₀.handed, g.use = .other) (hprocs : m₀.procs = []) (hcur : m₀.pCurrent = none)
    (hlow : LowFrames m₀) : Spaces m b (Owned.bootRoles m b) (fun _ => stackPages) :=
  boot hb hprocs (Owned.init hb hfresh hother hprocs hcur hlow)

end Spaces

/-! ## The whole user address space -/

theorem SamePage.eq_of_aligned (h : SamePage v w) (hv : Aligned v) (hw : Aligned w) : v = w := by
  have h1 : v.toNat / 0x400000 = w.toNat / 0x400000 := congrArg Fin.val h.1
  have h2 : v.toNat % 0x400000 / 0x1000 = w.toNat % 0x400000 / 0x1000 := congrArg Fin.val h.2
  unfold Aligned at hv hw
  rw [← UInt32.toNat_inj]
  omega

theorem stackPages_aligned (h : w ∈ stackPages) : Aligned w := by
  obtain ⟨r, -, hw⟩ := List.mem_flatMap.mp h
  exact rangePages_aligned hw

theorem loads_aligned {i : Nat} {cur : Option Nat} {os : List ProcOp} (h : w ∈ loads i cur os) :
    Aligned w := by
  induction os generalizing cur with
  | nil => exact absurd h List.not_mem_nil
  | cons o os ih =>
    cases o with
    | exec file =>
      rcases List.mem_append.mp h with h | h
      · split at h
        · unfold ElfFile.pages at h
          split at h
          · obtain ⟨phdr, -, hw⟩ := List.mem_flatMap.mp h
            exact rangePages_aligned hw
          · exact absurd h List.not_mem_nil
        · exact absurd h List.not_mem_nil
      · exact ih h
    | _ => exact ih h

/-- A page with the same words in a frame of the child's own is copied, byte by byte. -/
theorem Same.copied {p q : UInt32} (hs : Same m (frameOf p) (frameOf q) v) (h : Owned m b role)
    (hp : role (frameOf p) = some .dir) (hq : role (frameOf q) = some .dir)
    (hne : frameOf p ≠ frameOf q) (hk : ¬ KernelSlot m v) :
    ∃ a c, m.translate p v = some a ∧ m.translate q v = some c ∧
      frameOf a ≠ frameOf c ∧ m.byteAt a = m.byteAt c := by
  obtain ⟨hmp, hmq, he⟩ := hs
  obtain ⟨a, ha⟩ := translate_of_mapped hmp
  obtain ⟨c, hc⟩ := translate_of_mapped hmq
  obtain ⟨-, hfa, hia, hoa⟩ := translate_eq_some ha
  obtain ⟨-, hfc, hic, hoc⟩ := translate_eq_some hc
  refine ⟨a, c, ha, hc, ?_, ?_⟩
  · rw [hfa, hfc]
    intro hf
    have hrole := h.data_frame hp hmp hk
    rw [hf, h.data_frame hq hmq hk] at hrole
    exact hne (Role.data.inj (Option.some.inj hrole)).symm
  · unfold byteAt peek
    rw [hfa, hfc, hia, hic, hoa, hoc, he]

/-- **A call of `fork`** copies everything exactly when the parent has no page outside the
stacks. -/
theorem Spaces.copied_iff {i : Nat} {p q : Proc} (h : Spaces m b role A) (hA : ∀ w ∈ A i, Aligned w)
    (hcur : m.pCurrent = some i) (hp : m.procs[i]? = some p) (hr : m.fork = .ok m')
    (hq : m'.procs = m.procs ++ [q]) :
    CopiedTo m' p.cr3 q.cr3 ↔ ∀ w ∈ A i, KernelSlot m w ∨ w ∈ stackPages := by
  obtain ⟨role', i', p', q', h', hi', hp', hq', -, hn, hne, hsame⟩ := h.fork hr
  obtain rfl : i = i' := Option.some.inj (hcur.symm.trans hi')
  obtain rfl : p = p' := Option.some.inj (hp.symm.trans hp')
  obtain rfl : q = q' := by
    have := hq.symm.trans hq'
    simpa using this
  have hk : ∀ {v}, KernelSlot m' v ↔ KernelSlot m v := by
    intro v
    unfold KernelSlot
    rw [hn]
  have hlt : i < m.procs.length := (List.getElem?_eq_some_iff.mp hp).1
  have hpi : m'.procs[i]? = some p := by rw [hq, List.getElem?_append_left hlt, hp]
  have hqi : m'.procs[m.procs.length]? = some q := by simp [hq]
  obtain ⟨-, hdp, -⟩ := h'.owned.procs p (List.mem_of_getElem? hpi)
  obtain ⟨-, hdq, -⟩ := h'.owned.procs q (List.mem_of_getElem? hqi)
  -- the child has the stacks only
  have hlater := h.later m.procs.length (Nat.le_refl _)
  constructor
  · intro hcopied w hw
    by_cases hkw : KernelSlot m w
    · exact Or.inl hkw
    · right
      have hkw' : ¬ KernelSlot m' w := fun hc => hkw (hk.mp hc)
      have hmp : Owned.Mapped m' (frameOf p.cr3) w :=
        (h'.pages i p hpi w hkw').mpr ⟨w, hw, rfl, rfl⟩
      have hmq := (hcopied w ((h'.view.userMapped_iff h'.owned hdp).mpr ⟨hkw', hmp⟩)).1
      have hmq' := ((h'.view.userMapped_iff h'.owned hdq).mp hmq).2
      rw [h'.pages _ q hqi w hkw'] at hmq'
      obtain ⟨s, hs, hpage⟩ := hmq'
      rw [hlater] at hs
      rw [hpage.eq_of_aligned (hA w hw) (stackPages_aligned hs)]
      exact hs
  · intro hcond v huser
    obtain ⟨hkv', hmp⟩ := (h'.view.userMapped_iff h'.owned hdp).mp huser
    have hkv : ¬ KernelSlot m v := fun hc => hkv' (hk.mpr hc)
    obtain ⟨w, hw, hpage⟩ := (h'.pages i p hpi v hkv').mp hmp
    have hstack : ∃ w ∈ stackPages, SamePage v w := by
      rcases hcond w hw with hkw | hws
      · exact absurd (hpage.kernelSlot.mpr hkw) hkv
      · exact ⟨w, hws, hpage⟩
    have hs := hsame v hkv hstack
    exact ⟨(h'.view.userMapped_iff h'.owned hdq).mpr ⟨hkv', hs.2.1⟩,
      hs.copied h'.owned hdp hdq hne hkv'⟩

/-- **`fork` copies the whole user address space exactly when** no program that the parent has
loaded has a page outside the two stacks (and the slots of the kernel, which are not the user's);
for every run of `makeSysProc`, `fork`, `exec`, switches and stores before, in which no program was
loaded over the kernel. The frames the kernel uses through pointers lie below 4 MiB. -/
theorem fork_copies_iff {m₀ m₁ m m' : Machine} {os : List ProcOp} {i : Nat} {p q : Proc}
    (hoff : m₀.cr3 = none) (hprocs : m₀.procs = []) (hcur₀ : m₀.pCurrent = none)
    (hfresh : Fresh m₀.handed) (hother : ∀ g ∈ m₀.handed, g.use = .other) (hlow : LowFrames m₀)
    (hinit : m₀.initPaging = .ok m₁) (hrun : Run procStep (fun m o => o.Apart m) m₁ os m)
    (hcur : m.pCurrent = some i) (hp : m.procs[i]? = some p) (hr : m.fork = .ok m')
    (hq : m'.procs = m.procs ++ [q]) :
    CopiedTo m' p.cr3 q.cr3 ↔ ∀ w ∈ loads i none os, KernelSlot m w ∨ w ∈ stackPages := by
  obtain ⟨b, hb⟩ := initPaging_spec hoff hinit
  obtain ⟨role, h⟩ := (Spaces.init hb hfresh hother hprocs hcur₀ hlow).runs hrun
  have hnone : m₁.pCurrent = none := by rw [hb.same]; exact hcur₀
  rw [hnone] at h
  rw [h.copied_iff (fun w hw => (List.mem_append.mp hw).elim stackPages_aligned loads_aligned)
    hcur hp hr hq]
  constructor
  · exact fun hall w hw => hall w (List.mem_append_right _ hw)
  · intro hall w hw
    rcases List.mem_append.mp hw with hw | hw
    · exact Or.inr hw
    · exact hall w hw

/-! ## Two runs -/

/-- 4 MiB, and an allocator that hands out the frames in turn. -/
def bumpMachine : Machine where
  phys _ _ := 0
  cr3 := none
  answers _ k := bumpChunk k
  handed := []
  memSize := 0x400000
  kPdir := 0
  procs := []
  pCurrent := none

theorem bumpMachine_nrValidPages : bumpMachine.nrValidPages = 1 := by
  show (0x400000 / dirEntrySize).toNat = 1
  decide

/-- `initPaging`. -/
theorem bumpMachine_boot : ∃ m₁ b, bumpMachine.initPaging = .ok m₁ ∧
    Spaces m₁ b (Owned.bootRoles m₁ b) (fun _ => stackPages) ∧ Bump m₁ ∧ m₁.handed.length = 4 ∧
    m₁.procs = [] ∧ m₁.nrValidPages = 1 := by
  have hlow : LowFrames bumpMachine := bumpChunk_lowFrames bumpMachine_nrValidPages fun _ _ => rfl
  obtain ⟨m₁, h₁⟩ := initPaging_total (m := bumpMachine) rfl rfl rfl rfl rfl
    (by rw [bumpMachine_nrValidPages]) (show Grant.New ⟨.pageDir, 0x1000, 1⟩ [] by decide)
    (show Grant.New ⟨.other, 0x2000, 1⟩ [⟨.pageDir, 0x1000, 1⟩] by decide)
    (show Grant.New ⟨.kernelTable, 0x3000, 1⟩ _ by decide)
    (show Grant.New ⟨.vramTable, 0x4000, 1⟩ (bootChunks 1).tail by decide)
  obtain ⟨b, hb⟩ := initPaging_spec rfl h₁
  have hn₁ : m₁.nrValidPages = 1 := by
    rw [hb.same]
    exact bumpMachine_nrValidPages
  have hhanded := hb.handed (by omega)
  have hk : frameOf m₁.kPdir = 1 := by rw [← hb.dir_eq]; rfl
  have hbf : frameOf b = 3 := by rw [← hb.tables_eq]; rfl
  refine ⟨m₁, b, h₁, Spaces.init hb trivial (fun g hg => absurd hg List.not_mem_nil) rfl rfl hlow,
    ⟨fun use k => by rw [hb.same]; rfl, fun g hg => ?_⟩,
    by rw [hhanded]; rfl, by rw [hb.same]; rfl, hn₁⟩
  rw [hhanded] at hg ⊢
  simp only [List.mem_cons] at hg
  show g.num = 1 ∧ frameOf g.addr ≤ 4
  rcases hg with rfl | rfl | rfl | rfl | hg
  · exact ⟨rfl, by decide⟩
  · exact ⟨hn₁, by simp only [hbf]; omega⟩
  · exact ⟨rfl, by decide⟩
  · exact ⟨rfl, by simp only [hk]; omega⟩
  · exact absurd hg List.not_mem_nil

/-- `initPaging`, one process, and the switch to it. -/
theorem bumpMachine_run : ∃ m₁ m p b role, bumpMachine.initPaging = .ok m₁ ∧
    Run procStep (fun m o => o.Apart m) m₁ [.makeSysProc, .run 0] m ∧
    Spaces m b role (fun _ => stackPages) ∧ Bump m ∧ m.handed.length ≤ 14 ∧ m.pCurrent = some 0 ∧
    m.procs = [p] ∧ m.nrValidPages = 1 := by
  obtain ⟨m₁, b, h₁, hs₁, hbump₁, hl₁, hp₁, hn₁⟩ := bumpMachine_boot
  obtain ⟨m₂, p, h₂, hbump₂, hl₂, hp₂, hn₂⟩ := hbump₁.makeSysProc hs₁.owned (by omega)
    (by rw [hp₁]; decide)
  obtain ⟨role₂, hs₂, -⟩ := hs₁.makeSysProc h₂
  rw [hp₁, List.nil_append] at hp₂
  obtain ⟨m, hm⟩ : ∃ m, m = { m₂ with pCurrent := some 0, cr3 := some p.cr3 } := ⟨_, rfl⟩
  have h₃ : m₂.run 0 = .ok m := by
    have hp₀ : m₂.procs[0]? = some p := by rw [hp₂]; rfl
    unfold Machine.run
    simp only [hp₀, hm]
  refine ⟨m₁, m, p, b, role₂, h₁, Run.cons trivial h₂ (Run.cons trivial h₃ (Run.nil m)),
    (hs₂.run h₃).1, ?_, ?_, ?_, ?_, ?_⟩
  · rw [hm]
    exact hbump₂.congr rfl rfl
  · rw [hm]
    show m₂.handed.length ≤ 14
    omega
  · rw [hm]
  · rw [hm]
    exact hp₂
  · rw [hm]
    exact hn₂.trans hn₁

/-- The stacks do not lie in the kernel's slots. -/
theorem stackPages_apart (hn : m.nrValidPages = 1) : ∀ w ∈ stackPages, ¬ KernelSlot m w := by
  unfold KernelSlot
  rw [hn]
  have hall : stackPages.all
      (fun w => !decide ((dirIndex w).val < 1 ∨ (dirIndex w).val = 0x380)) := by
    decide
  intro w hw
  simpa using List.all_eq_true.mp hall w hw

/-- The lower stack of a process is open to it. -/
theorem Spaces.userMapped_stack {p : Proc} (h : Spaces m b role A) (hn : m.nrValidPages = 1)
    (hp : p ∈ m.procs) : m.userMapped p.cr3 0x3fffe000 = true := by
  obtain ⟨i, hi⟩ := List.mem_iff_getElem?.mp hp
  obtain ⟨-, hd, -⟩ := h.owned.procs p hp
  have hw : (0x3fffe000 : UInt32) ∈ stackPages := by decide
  have hk : ¬ KernelSlot m 0x3fffe000 := stackPages_apart hn _ hw
  exact (h.view.userMapped_iff h.owned hd).mpr
    ⟨hk, (h.pages i p hi _ hk).mpr ⟨_, h.base i _ hw, rfl, rfl⟩⟩

theorem UserAcc.of_userMapped {c : UInt32} (h : m.userMapped c v = true) : ∃ f, UserAcc m c f := by
  unfold Machine.userMapped at h
  simp only [Bool.and_eq_true] at h
  obtain ⟨⟨⟨hd, hud⟩, ht⟩, hut⟩ := h
  exact ⟨_, dirIndex v, tableIndex v, hd, hud, ht, hut, rfl⟩

/-- `initPaging`, two processes, the switch to the first and its `fork`. -/
theorem bumpMachine_forked : ∃ m₁ m₂ m₃ m₄ m b role, bumpMachine.initPaging = .ok m₁ ∧
    m₁.makeSysProc = .ok m₂ ∧ m₂.makeSysProc = .ok m₃ ∧ m₃.run 0 = .ok m₄ ∧ m₄.fork = .ok m ∧
    Spaces m b role (fun _ => stackPages) ∧ m.procs.length = 3 ∧ m.nrValidPages = 1 := by
  obtain ⟨m₁, b, h₁, hs₁, hb₁, hl₁, hp₁, hn₁⟩ := bumpMachine_boot
  obtain ⟨m₂, p, h₂, hb₂, hl₂, hp₂, hn₂⟩ := hb₁.makeSysProc hs₁.owned (by omega)
    (by rw [hp₁]; decide)
  obtain ⟨role₂, hs₂, -⟩ := hs₁.makeSysProc h₂
  rw [hp₁, List.nil_append] at hp₂
  obtain ⟨m₃, q, h₃, hb₃, hl₃, hp₃, hn₃⟩ := hb₂.makeSysProc hs₂.owned (by omega)
    (by rw [hp₂]; show 1 < nrProc; decide)
  obtain ⟨role₃, hs₃, -⟩ := hs₂.makeSysProc h₃
  rw [hp₂] at hp₃
  -- the first process runs
  have hp₀ : m₃.procs[0]? = some p := by rw [hp₃]; rfl
  obtain ⟨m₄, hm₄⟩ : ∃ m₄, m₄ = { m₃ with pCurrent := some 0, cr3 := some p.cr3 } := ⟨_, rfl⟩
  have h₄ : m₃.run 0 = .ok m₄ := by
    unfold Machine.run
    simp only [hp₀, hm₄]
  obtain ⟨hs₄, hcur⟩ := hs₃.run h₄
  have hb₄ : Bump m₄ := hb₃.congr (by rw [hm₄]) (by rw [hm₄])
  have hl₄ : m₄.handed.length ≤ 24 := by
    rw [hm₄]
    show m₃.handed.length ≤ 24
    omega
  have hp₄ : m₄.procs = [p, q] := by rw [hm₄]; exact hp₃
  have hn₄ : m₄.nrValidPages = 1 := by rw [hm₄]; exact hn₃.trans (hn₂.trans hn₁)
  obtain ⟨m, hm, -⟩ := hb₄.fork hs₄ (by omega) (by rw [hp₄]; show 2 < nrProc; decide) hcur
    (by rw [hp₄]; rfl) (stackPages_apart hn₄)
  obtain ⟨role, -, -, c, hs, -, -, hp, -, hn, -⟩ := hs₄.fork hm
  exact ⟨m₁, m₂, m₃, m₄, m, b, role, h₁, h₂, h₃, h₄, hm, hs, by rw [hp, hp₄]; rfl, hn.trans hn₄⟩

/-- **Two processes and a child of the first are isolated**, and each has pages of its own. -/
theorem spaces_isolated_forked : ∃ m₁ m, bumpMachine.initPaging = .ok m₁ ∧
    Run VarMem.step (fun _ _ => True) m₁ [.makeSysProc, .makeSysProc, .run 0, .fork] m ∧
    m.procs.length = 3 ∧ Isolated m ∧ ∀ p ∈ m.procs, ∃ f, UserAcc m p.cr3 f := by
  obtain ⟨m₁, m₂, m₃, m₄, m, b, role, h₁, h₂, h₃, h₄, hm, hs, hlen, hn⟩ := bumpMachine_forked
  have hrun : Run VarMem.step (fun _ _ => True) m₁ [.makeSysProc, .makeSysProc, .run 0, .fork] m :=
    Run.cons trivial h₂
      (Run.cons trivial h₃ (Run.cons trivial h₄ (Run.cons trivial hm (Run.nil m))))
  refine ⟨m₁, m, h₁, hrun, hlen, ?_, fun p hp => UserAcc.of_userMapped (hs.userMapped_stack hn hp)⟩
  exact @spaces_isolated bumpMachine m₁ m [.makeSysProc, .makeSysProc, .run 0, .fork] rfl rfl rfl
    trivial (fun g hg => absurd hg List.not_mem_nil)
    (bumpChunk_lowFrames bumpMachine_nrValidPages fun _ _ => rfl) h₁ hrun

/-- A process that has loaded no program is copied. -/
theorem fork_copies_4MiB : ∃ m₁ m m' p q, bumpMachine.initPaging = .ok m₁ ∧
    Run procStep (fun m o => o.Apart m) m₁ [.makeSysProc, .run 0] m ∧ m.fork = .ok m' ∧
    m'.procs = [p, q] ∧ CopiedTo m' p.cr3 q.cr3 := by
  obtain ⟨m₁, m, p, b, role, h₁, hrun, hs, hbump, hlen, hcur, hprocs, hn⟩ := bumpMachine_run
  have hp : m.procs[0]? = some p := by rw [hprocs]; rfl
  obtain ⟨m', hm', -⟩ := hbump.fork hs (by omega) (by rw [hprocs]; show 1 < nrProc; decide) hcur hp
    (stackPages_apart hn)
  obtain ⟨-, -, -, q, -, -, -, hq, -⟩ := hs.fork hm'
  refine ⟨m₁, m, m', p, q, h₁, hrun, hm', by rw [hq, hprocs]; rfl, ?_⟩
  exact (@fork_copies_iff bumpMachine m₁ m m' [.makeSysProc, .run 0] 0 p q rfl rfl rfl trivial
    (fun g hg => absurd hg List.not_mem_nil)
    (bumpChunk_lowFrames bumpMachine_nrValidPages fun _ _ => rfl) h₁ hrun hcur hp hm' hq).mpr
    fun w hw => absurd hw List.not_mem_nil

/-- An executable with one byte at `0x50000000`. -/
def oneByte : ElfFile where
  eIdent := xhIdent
  eType := etExec
  eMachine := em386
  eEntry := 0x50000000
  phdrs := [⟨ptLoad, 0x1000, 0x50000000, 1⟩]
  read _ _ := 0x90

theorem oneByte_apart (hn : m.nrValidPages = 1) : ProcOp.Apart m (.exec oneByte) := by
  intro _ phdr hphdr _ k hk
  obtain rfl := List.mem_singleton.mp hphdr
  obtain rfl : k = 0 := by
    have h1 : (1 : UInt32).toNat = 1 := rfl
    simp only [h1] at hk
    omega
  unfold KernelSlot
  rw [hn]
  decide

/-- `exec` of it returns. -/
theorem oneByte_exec {p : Proc} (hs : Spaces m b role A) (hb : Bump m) (hlen : m.handed.length ≤ 14)
    (hcur : m.pCurrent = some 0) (hp : m.procs[0]? = some p) (hn : m.nrValidPages = 1) :
    ∃ m', m.loadElfExecutable oneByte = .ok (m', true) ∧ Bump m' ∧ m'.handed.length ≤ 16 ∧
      m' = { m with phys := m'.phys, handed := m'.handed } := by
  have hbind : (m.pCurrent.bind fun i => m.procs[i]?) = some p := by rw [hcur]; exact hp
  obtain ⟨-, -, -, hcr3, ha, hd⟩ := hs.current hbind
  have hnum : pageNum 0x50000000 1 = 1 := by decide
  -- the page, its byte, and the entry point on the kernel stack
  obtain ⟨m₁, h₁, hb₁, hl₁, -⟩ := hb.enableSpace 0x50000000 1 hs.owned (by rw [hnum]; omega) ha hd
    (Or.inl rfl : Use.data = .data ∨ _)
  obtain ⟨-, -, -, hmapped⟩ := hs.owned.enableSpace ha hd (Or.inl rfl) h₁
  obtain ⟨role₁, hs₁, hle₁, he₁⟩ := hs.enableSpace hp h₁
  have hmap : Owned.Mapped m₁ (frameOf p.cr3) 0x50000000 := hmapped rfl 0 (by decide)
  have hcr₁ : m₁.cr3 = some p.cr3 := by rw [he₁]; exact hcr3
  obtain ⟨m₂, h₂⟩ := storeByte_returns (x := 0x90) hcr₁ hmap
  have hk : ¬ KernelSlot m₁ 0x50000000 := by
    have hn₁ : m₁.nrValidPages = 1 := by rw [he₁]; exact hn
    unfold KernelSlot
    rw [hn₁]
    decide
  obtain ⟨hs₂, he₂⟩ := hs₁.storeByte hcr₁ (hle₁ _ _ hd) hk h₂
  have hp₂ : p ∈ m₂.procs := by
    rw [he₂, he₁]
    exact List.mem_of_getElem? hp
  obtain ⟨m₃, h₃, he₃⟩ := hs₂.afterExec_returns (e := 0x50000000) hp₂
  have hread : m₁.readFile (oneByte.read 0x1000) (1 : UInt32).toNat 0x50000000 = .ok m₂ := by
    have h1 : (1 : UInt32).toNat = 0 + 1 := rfl
    have h0 : (0x50000000 : UInt32) + UInt32.ofNat 0 = 0x50000000 := by decide
    unfold Machine.readFile
    rw [h1, loop, loop]
    simp only [h0]
    exact h₂
  refine ⟨m₃, ?_, ?_, ?_, ?_⟩
  · have hvalid : oneByte.valid = true := by decide
    unfold loadElfExecutable
    rw [if_pos hvalid, hbind]
    show (do
      let m ← [(⟨ptLoad, 0x1000, 0x50000000, 1⟩ : Phdr)].foldlM
        (fun (m : Machine) phdr => m.loadSegment oneByte p.cr3 phdr) m
      let m ← m.afterExec p.stackTop 0x50000000
      (.ok (m, true) : Res (Machine × Bool))) = .ok (m₃, true)
    rw [List.foldlM_cons]
    unfold loadSegment
    rw [if_pos rfl]
    simp only
    rw [h₁, Res.ok_bind, hread, Res.ok_bind, List.foldlM_nil, Res.pure_eq,
      Res.ok_bind, h₃, Res.ok_bind]
  · exact hb₁.congr (by rw [he₃, he₂]) (by rw [he₃, he₂])
  · rw [he₃, he₂]
    show m₁.handed.length ≤ 16
    omega
  · rw [he₃, he₂, he₁]

/-- **A loaded program is not copied**: the page at `0x50000000` is open to the parent and not to
the child. -/
theorem fork_forgets : ∃ m₁ m m' p q, bumpMachine.initPaging = .ok m₁ ∧
    Run procStep (fun m o => o.Apart m) m₁ [.makeSysProc, .run 0, .exec oneByte] m ∧
    m.fork = .ok m' ∧ m'.procs = [p, q] ∧ m'.userMapped p.cr3 0x50000000 = true ∧
    m'.userMapped q.cr3 0x50000000 = false ∧ ¬ CopiedTo m' p.cr3 q.cr3 := by
  obtain ⟨m₁, m₂, p, b, role, h₁, hrun, hs, hbump, hlen, hcur, hprocs, hn⟩ := bumpMachine_run
  have hp : m₂.procs[0]? = some p := by rw [hprocs]; rfl
  obtain ⟨m, hm, hbump', hlen', he⟩ := oneByte_exec hs hbump hlen hcur hp hn
  obtain ⟨role', hs', -⟩ := hs.exec hcur (oneByte_apart hn) hm
  have hcur' : m.pCurrent = some 0 := by rw [he]; exact hcur
  have hprocs' : m.procs = [p] := by rw [he]; exact hprocs
  have hp' : m.procs[0]? = some p := by rw [hprocs']; rfl
  have hn' : m.nrValidPages = 1 := by rw [he]; exact hn
  obtain ⟨m', hm', -⟩ :=
    hbump'.fork hs' (by omega) (by rw [hprocs']; show 1 < nrProc; decide) hcur' hp'
    (stackPages_apart hn')
  obtain ⟨role'', -, -, q, h'', -, -, hq, -, hn'', -⟩ := hs'.fork hm'
  rw [hprocs'] at hq
  have hrun' : Run procStep (fun m o => o.Apart m) m₁ [.makeSysProc, .run 0, .exec oneByte] m := by
    have hexec : procStep m₂ (.exec oneByte) = .ok m := by
      unfold procStep
      simp only [hm, Res.ok_bind]
    exact hrun.append (Run.cons (oneByte_apart hn) hexec (Run.nil m))
  have hk : ¬ KernelSlot m' 0x50000000 := by
    unfold KernelSlot
    rw [hn'', hn']
    decide
  have hpi : m'.procs[0]? = some p := by rw [hq]; rfl
  have hqi : m'.procs[1]? = some q := by rw [hq]; rfl
  obtain ⟨-, hdp, -⟩ := h''.owned.procs p (List.mem_of_getElem? hpi)
  obtain ⟨-, hdq, -⟩ := h''.owned.procs q (List.mem_of_getElem? hqi)
  have hparent : m'.userMapped p.cr3 0x50000000 = true := by
    refine (h''.view.userMapped_iff h''.owned hdp).mpr ⟨hk, (h''.pages 0 p hpi _ hk).mpr ?_⟩
    exact ⟨0x50000000, by decide, rfl, rfl⟩
  have hchild : m'.userMapped q.cr3 0x50000000 = false := by
    rw [← Bool.not_eq_true, h''.view.userMapped_iff h''.owned hdq, h''.pages 1 q hqi _ hk]
    rintro ⟨-, w, hw, hpage⟩
    have hall : stackPages.all (fun w => dirIndex 0x50000000 != dirIndex w) := by decide
    exact bne_iff_ne.mp (List.all_eq_true.mp hall w hw) hpage.1
  refine ⟨m₁, m, m', p, q, h₁, hrun', hm', hq, hparent, hchild, fun hcopied => ?_⟩
  rw [(hcopied _ hparent).1] at hchild
  exact absurd hchild (by simp)

end OwnOS.VarMem
