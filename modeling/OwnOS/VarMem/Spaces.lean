import OwnOS.VarMem.View

/-!
# The address spaces along a run

`Spaces m b role A`: `Owned` and `View`, every process has a kernel stack of its own, and outside
the kernel's slots process `i` has mapped the pages `A i`, no more and no less. The stacks are among
them; what an `exec` adds are the pages of the program's segments. One lemma for each operation but
`fork`.
-/

namespace OwnOS.VarMem

open Lib Lib.Word Machine

variable {m m' m₁ : Machine} {b a c v w pdir : UInt32} {role role' : Roles} {f d x : Nat} {r : Role}
  {use : Use} {A : Nat → List UInt32}

/-- The frame behind an address. -/
def frameAt (m : Machine) (d : Nat) (v : UInt32) : Nat :=
  frameOf (m.phys (frameOf (m.phys d (dirIndex v))) (tableIndex v))

/-- The kernel stack of a process. -/
def HasStack (role : Roles) (p : Proc) : Prop :=
  ∃ s, Aligned s ∧ s.toNat < 0x400000 ∧ p.stackTop = s + 0x1000 - 4 ∧ role (frameOf s) = some .stack

/-- The invariant. -/
structure Spaces (m : Machine) (b : UInt32) (role : Roles) (A : Nat → List UInt32) : Prop where
  owned : Owned m b role
  view : View m role
  stack : ∀ p ∈ m.procs, HasStack role p
  pages : ∀ i p, m.procs[i]? = some p → ∀ v, ¬ KernelSlot m v →
    (Owned.Mapped m (frameOf p.cr3) v ↔ ∃ w ∈ A i, SamePage v w)
  base : ∀ i, ∀ w ∈ stackPages, w ∈ A i
  later : ∀ i, m.procs.length ≤ i → A i = stackPages

/-! ## Accesses through a process directory -/

/-- An address and its page offset. -/
theorem offset_toNat (e v : UInt32) :
    (caddrEntry e + (v &&& 0xfff)).toNat = e.toNat / 4096 * 4096 + v.toNat % 4096 := by
  have he := toNat_lt e
  rw [toNat_add_of_lt (by rw [caddrEntry_toNat, and_fff]; omega), caddrEntry_toNat, and_fff]

/-- What the paging unit does with an address. -/
theorem translate_eq_some (h : m.translate c v = some a) :
    Owned.Mapped m (frameOf c) v ∧ frameOf a = frameAt m (frameOf c) v ∧ indexOf a = indexOf v ∧
      a.toNat % 4 = v.toNat % 4 := by
  unfold Machine.translate at h
  simp only at h
  split at h
  · rename_i hD
    split at h
    · rename_i hT
      obtain rfl := Option.some.inj h
      refine ⟨⟨hD, hT⟩, ?_, ?_, ?_⟩
      · unfold frameAt
        show (caddrEntry _ + (v &&& 0xfff)).toNat / 4096 = _
        rw [offset_toNat]
        unfold frameOf
        omega
      · refine Fin.ext ?_
        show (caddrEntry _ + (v &&& 0xfff)).toNat % 4096 / 4 = v.toNat % 4096 / 4
        rw [offset_toNat]
        omega
      · rw [offset_toNat]
        omega
    · exact absurd h (by simp)
  · exact absurd h (by simp)

theorem translate_of_mapped (h : Owned.Mapped m (frameOf c) v) : ∃ a, m.translate c v = some a := by
  unfold Machine.translate
  simp only [h.1, h.2, if_true]
  exact ⟨_, rfl⟩

namespace Owned

/-- Behind a mapped address outside the kernel's slots is a page of data of the process. -/
theorem data_frame (h : Owned m b role) (hd : role d = some .dir) (hm : Mapped m d v)
    (hk : ¬ KernelSlot m v) : role (frameAt m d v) = some (.data d) :=
  h.tables.tables d _ (h.own_table hd hm.1 hk) _ hm.2

/-- A byte written outside the kernel's slots goes to a page of data of the running process. -/
theorem storeByte {x : UInt8} (h : Owned m b role) (hc : m.cr3 = some c)
    (hd : role (frameOf c) = some .dir) (hk : ¬ KernelSlot m v) (hr : m.storeByte v x = .ok m') :
    ∃ F i w, m' = m.setWord F i w ∧ role F = some (.data (frameOf c)) := by
  unfold Machine.storeByte at hr
  obtain ⟨p, hp, hr⟩ := Res.bind_eq_ok.mp hr
  obtain rfl := Except.ok.inj hr
  unfold addr at hp
  simp only [hc] at hp
  split at hp
  · rename_i q hq
    obtain rfl := Except.ok.inj hp
    obtain ⟨hm, hf, -⟩ := translate_eq_some hq
    exact ⟨_, _, _, rfl, by rw [hf]; exact h.data_frame hd hm hk⟩
  · exact absurd hp (by simp)

end Owned

namespace Spaces

/-- A store outside the directories and tables. -/
theorem scratch (h : Spaces m b role A) (hs : m' = { m with phys := m'.phys })
    (hp : ∀ f r, role f = some r → r.structural = true → m'.phys f = m.phys f) :
    Spaces m' b role A := by
  have hprocs : m'.procs = m.procs := by rw [hs]
  have hn : m'.nrValidPages = m.nrValidPages := by rw [hs]; rfl
  refine ⟨h.owned.scratch hs hp, h.view.congr h.owned (by rw [hs]) hp, ?_, ?_, h.base, ?_⟩
  · rw [hprocs]
    exact h.stack
  · intro i p hi v hk
    rw [hprocs] at hi
    have hk' : ¬ KernelSlot m v := by
      unfold KernelSlot at hk ⊢
      rwa [hn] at hk
    obtain ⟨-, hd, -⟩ := h.owned.procs p (List.mem_of_getElem? hi)
    rw [← h.pages i p hi v hk']
    refine Owned.Mapped.congr (by rw [hp _ _ hd rfl]) fun hpres => ?_
    rw [hp _ _ (h.owned.own_table hd hpres hk') rfl]
  · rw [hprocs]
    exact h.later

/-- The running process. -/
theorem current {p : Proc} (h : Spaces m b role A)
    (hp : (m.pCurrent.bind fun i => m.procs[i]?) = some p) :
    ∃ i, m.pCurrent = some i ∧ m.procs[i]? = some p ∧ m.cr3 = some p.cr3 ∧ Aligned p.cr3 ∧
      role (frameOf p.cr3) = some .dir := by
  obtain ⟨i, hi, hp⟩ := Option.bind_eq_some_iff.mp hp
  obtain ⟨ha, hd, -⟩ := h.owned.procs p (List.mem_of_getElem? hp)
  exact ⟨i, hi, hp, h.owned.cr3_of_current hi hp, ha, hd⟩

/-- A byte written outside the kernel's slots. -/
theorem storeByte {x : UInt8} (h : Spaces m b role A) (hc : m.cr3 = some c)
    (hd : role (frameOf c) = some .dir) (hk : ¬ KernelSlot m v) (hr : m.storeByte v x = .ok m') :
    Spaces m' b role A ∧ m' = { m with phys := m'.phys } := by
  obtain ⟨F, i, w, rfl, hF⟩ := h.owned.storeByte hc hd hk hr
  refine ⟨h.scratch rfl fun f r hf hs => setWord_phys_of_ne ?_, rfl⟩
  rintro rfl
  rw [hF] at hf
  obtain rfl := Option.some.inj hf
  exact absurd hs (by simp [Role.structural])

/-- A store of the running process. -/
theorem userStore {x : UInt8} (h : Spaces m b role A) (hr : m.userStore v x = .ok m') :
    Spaces m' b role A ∧ m' = { m with phys := m'.phys } := by
  unfold Machine.userStore at hr
  split at hr
  · exact absurd hr (by rintro ⟨⟩)
  · rename_i p hp
    obtain ⟨i, -, -, hc, -, hd⟩ := h.current hp
    split at hr
    · rename_i hu
      exact h.storeByte hc hd ((h.view.userMapped_iff h.owned hd).mp hu).1 hr
    · exact absurd hr (by simp)

/-- `file->read` to addresses outside the kernel's slots. -/
theorem readFile {bytes : Nat → UInt8} {n : Nat} {dest : UInt32} (h : Spaces m b role A)
    (hc : m.cr3 = some c) (hd : role (frameOf c) = some .dir)
    (hk : ∀ k < n, ¬ KernelSlot m (dest + UInt32.ofNat k)) (hr : m.readFile bytes n dest = .ok m') :
    Spaces m' b role A ∧ m' = { m with phys := m'.phys } := by
  unfold Machine.readFile at hr
  refine loop_invariant (I := fun _ s => Spaces s b role A ∧ s = { m with phys := s.phys })
    ⟨h, rfl⟩ ?_ hr
  rintro k hkn s s' ⟨hs, he⟩ hst
  have hk' : ¬ KernelSlot s (dest + UInt32.ofNat k) := by
    have hn : s.nrValidPages = m.nrValidPages := by rw [he]; rfl
    unfold KernelSlot
    rw [hn]
    exact hk k hkn
  obtain ⟨hs', he'⟩ := hs.storeByte (by rw [he]; exact hc) hd hk' hst
  exact ⟨hs', by rw [he', he]⟩

/-- `enableSpace` on the running process adds the pages of its range. -/
theorem enableSpace {virAddr size : UInt32} {p : Proc} {i : Nat} (h : Spaces m b role A)
    (hi : m.procs[i]? = some p) (hr : m.enableSpace virAddr size p.cr3 userpage .data = .ok m') :
    ∃ role', Spaces m' b role' (Function.update A i (A i ++ rangePages virAddr size)) ∧
    role.Le role' ∧
      m' = { m with phys := m'.phys, handed := m'.handed } := by
  obtain ⟨ha, hd, -⟩ := h.owned.procs p (List.mem_of_getElem? hi)
  obtain ⟨role', ho, hv, hg, hop⟩ := h.owned.enableSpace_opened h.view ha hd (Or.inl rfl) hr
  have hprocs : m'.procs = m.procs := by rw [hg.same]
  have hn : m'.nrValidPages = m.nrValidPages := by rw [hg.same]; rfl
  refine ⟨role', ⟨ho, hv, ?_, ?_, ?_, ?_⟩, hg.le, hg.same⟩
  · rw [hprocs]
    intro q hq
    obtain ⟨s, h1, h2, h3, h4⟩ := h.stack q hq
    exact ⟨s, h1, h2, h3, hg.le _ _ h4⟩
  · intro j q hj v hk
    rw [hprocs] at hj
    have hk' : ¬ KernelSlot m v := by
      unfold KernelSlot at hk ⊢
      rwa [hn] at hk
    obtain ⟨-, hdq, -⟩ := h.owned.procs q (List.mem_of_getElem? hj)
    rw [hop.mapped _ hdq v hk', h.pages j q hj v hk']
    by_cases hij : j = i
    · subst hij
      obtain rfl : q = p := Option.some.inj (hj.symm.trans hi)
      rw [Function.update_self]
      simp only [true_and, List.mem_append, or_and_right, exists_or]
    · rw [Function.update_of_ne hij]
      have hne : frameOf q.cr3 ≠ frameOf p.cr3 := fun he => hij (h.owned.dir_inj hj hi he)
      simp only [hne, false_and, or_false]
  · intro j w hw
    by_cases hij : j = i
    · subst hij
      rw [Function.update_self]
      exact List.mem_append_left _ (h.base j w hw)
    · rw [Function.update_of_ne hij]
      exact h.base j w hw
  · intro j hj
    rw [hprocs] at hj
    have hij : j ≠ i := by
      rintro rfl
      have := (List.getElem?_eq_some_iff.mp hi).1
      omega
    rw [Function.update_of_ne hij]
    exact h.later j hj

/-- The pages of the segments of a list of program headers. -/
def segmentPages (phdrs : List Phdr) : List UInt32 :=
  (phdrs.filter fun phdr => phdr.pType = ptLoad).flatMap fun phdr => rangePages
    phdr.pVaddr phdr.pMemsz

/-- **The loop over the program headers** adds the pages of the segments. -/
theorem loadSegments {file : ElfFile} {p : Proc} {i : Nat} {phdrs : List Phdr}
    (h : Spaces m b role A) (hi : m.procs[i]? = some p) (hc : m.cr3 = some p.cr3)
    (hk : ∀ phdr ∈ phdrs, phdr.pType = ptLoad → ∀ k < phdr.pMemsz.toNat,
    ¬ KernelSlot m (phdr.pVaddr + UInt32.ofNat k))
    (hr : phdrs.foldlM (fun m phdr => m.loadSegment file p.cr3 phdr) m = .ok m') :
    ∃ role', Spaces m' b role' (Function.update A i (A i ++ segmentPages phdrs)) ∧
      m' = { m with phys := m'.phys, handed := m'.handed } := by
  induction phdrs generalizing m role A with
  | nil =>
    obtain rfl := Except.ok.inj hr
    refine ⟨role, ?_, rfl⟩
    have he : Function.update A i (A i ++ segmentPages []) = A := by
      unfold segmentPages
      simp
    rw [he]
    exact h
  | cons phdr phdrs ih =>
    rw [List.foldlM_cons] at hr
    obtain ⟨m₁, h₁, hr⟩ := Res.bind_eq_ok.mp hr
    unfold Machine.loadSegment at h₁
    split at h₁
    · rename_i htype
      obtain ⟨m₂, h₂, h₁⟩ := Res.bind_eq_ok.mp h₁
      obtain ⟨role₂, hs₂, hle₂, he₂⟩ := h.enableSpace hi h₂
      have hslot : ∀ s : Machine, s.nrValidPages = m.nrValidPages →
          ∀ {v}, ¬ KernelSlot m v → ¬ KernelSlot s v := by
        intro s hn v hv
        unfold KernelSlot
        rwa [hn]
      obtain ⟨-, hd, -⟩ := h.owned.procs p (List.mem_of_getElem? hi)
      obtain ⟨hs₁, he₁⟩ := hs₂.readFile (by rw [he₂]; exact hc) (hle₂ _ _ hd)
        (fun k hkn => hslot m₂ (by rw [he₂]; rfl) (hk phdr List.mem_cons_self htype k hkn)) h₁
      obtain ⟨role', hs', he'⟩ := ih hs₁ (by rw [he₁, he₂]; exact hi) (by rw [he₁, he₂]; exact hc)
        (fun q hq hqt k hkn => hslot m₁ (by rw [he₁, he₂]; rfl)
          (hk q (List.mem_cons_of_mem _ hq) hqt k hkn)) hr
      refine ⟨role', ?_, by rw [he', he₁, he₂]⟩
      rw [Function.update_idem, Function.update_self, List.append_assoc] at hs'
      unfold segmentPages
      rw [List.filter_cons_of_pos (by simpa using htype), List.flatMap_cons]
      exact hs'
    · rename_i htype
      obtain rfl := Except.ok.inj h₁
      obtain ⟨role', hs', he'⟩ := ih h hi hc
        (fun q hq hqt k hkn => hk q (List.mem_cons_of_mem _ hq) hqt k hkn) hr
      refine ⟨role', ?_, he'⟩
      unfold segmentPages at hs' ⊢
      rw [List.filter_cons_of_neg (by simpa using htype)]
      exact hs'

/-- **`exec`** adds the pages of the program to the running process. -/
theorem exec {file : ElfFile} {i : Nat} {ok : Bool} (h : Spaces m b role A)
    (hcur : m.pCurrent = some i) (hk : ProcOp.Apart m (.exec file))
    (hr : m.loadElfExecutable file = .ok (m', ok)) :
    ∃ role', Spaces m' b role' (Function.update A i (A i ++ file.pages)) ∧
      m' = { m with phys := m'.phys, handed := m'.handed } := by
  unfold loadElfExecutable at hr
  unfold ElfFile.pages
  split at hr
  · rename_i hvalid
    rw [if_pos hvalid]
    split at hr
    · exact absurd hr (by rintro ⟨⟩)
    · rename_i p hp
      obtain ⟨j, hj, hi, hc, -, -⟩ := h.current hp
      obtain rfl : i = j := Option.some.inj (hcur.symm.trans hj)
      obtain ⟨m₁, h₁, hr⟩ := Res.bind_eq_ok.mp hr
      obtain ⟨m₂, h₂, hr⟩ := Res.bind_eq_ok.mp hr
      obtain ⟨rfl, -⟩ := Prod.mk.inj (Except.ok.inj hr)
      obtain ⟨role₁, hs₁, he₁⟩ := h.loadSegments hi hc (hk hvalid) h₁
      -- `after_exec` writes to the kernel stack
      obtain ⟨s, hsa, hslow, htop, hsr⟩ := hs₁.stack p (by rw [he₁]; exact List.mem_of_getElem? hi)
      obtain ⟨c, -, hreach, -⟩ := hs₁.owned.reaches
      have hword := Owned.stack_words hsa hslow (i := 12) (by decide)
      unfold afterExec at h₂
      rw [htop, hreach.store hword.1] at h₂
      obtain rfl := Except.ok.inj h₂
      refine ⟨role₁, hs₁.scratch rfl fun f r hf hst => setWord_phys_of_ne ?_, by rw [he₁]; rfl⟩
      show f ≠ frameOf (entryAddr (s + 0x1000 - 4 - 4 * 17) 12)
      rw [hword.2]
      rintro rfl
      rw [hsr] at hf
      obtain rfl := Option.some.inj hf
      exact absurd hst (by simp [Role.structural])
  · rename_i hvalid
    rw [if_neg hvalid]
    obtain ⟨rfl, -⟩ := Prod.mk.inj (Except.ok.inj hr)
    refine ⟨role, ?_, rfl⟩
    rw [List.append_nil, Function.update_eq_self]
    exact h

end Spaces

/-! ## New processes -/

/-- A kernel stack holds no entries. -/
theorem View.assign_stack (hv : View m role) (hnone : role x = none) :
    View m (role.assign x .stack) := by
  have hle : role.Le (role.assign x .stack) := Roles.le_assign hnone
  have holder : ∀ {f}, Holder (role.assign x .stack) f → Holder role f ∧ f ≠ x :=
    fun hf => hf.of_assign ⟨by simp, by simp⟩
  have hback : ∀ {f r'}, role.assign x .stack f = some r' → r' ≠ .stack → role f = some r' := by
    intro f r' hf hr
    by_cases he : f = x
    · rw [he, Roles.assign_self] at hf
      exact absurd (Option.some.inj hf).symm hr
    · rwa [Roles.assign_of_ne he] at hf
  refine ⟨hv.kernel, ?_, ?_, ?_, ?_⟩
  · intro d hd
    obtain ⟨h1, h2⟩ := hv.system d (hback hd (by simp))
    exact ⟨h1, hle _ _ h2⟩
  · intro d hd i hi ht
    exact hv.slots d (hback hd (by simp)) i hi (hback ht (by simp))
  · intro d t ht
    exact hv.entries d t (hback ht (by simp))
  · intro f f' i i' hf hf' hi hi' he hne
    refine hv.unique f f' i i' (holder hf).1 (holder hf').1 hi hi' he fun hk => hne (hle _ _ hk)

/-- **A new directory** has the kernel's slots only, and nothing else changes. -/
theorem View.newDir (hv : View m role) (h : Owned m b role)
    (h₁ : m.allocChunk .pageDir 1 = .ok (m₁, pdir)) (h₂ : m₁.copyKernelDir pdir = .ok m') :
    View m' (role.assign (frameOf pdir) .dir) ∧ (∀ f r, role f = some r → m'.phys f = m.phys f) ∧
      ∀ v, ¬ KernelSlot m v → ¬ Owned.Mapped m' (frameOf pdir) v := by
  obtain ⟨hnone, -, -, -, hsame⟩ := h.newDir h₁ h₂
  obtain ⟨hold, hself⟩ := h.newDir_phys h₁ h₂
  have hle : role.Le (role.assign (frameOf pdir) .dir) := Roles.le_assign hnone
  have hz : isEntryExist 0 = false := rfl
  -- a present slot of the new directory is a slot of the kernel
  have hslot : ∀ i, isEntryExist (m'.phys (frameOf pdir) i) = true →
      (i.val < m.nrValidPages ∨ i.val = 0x380) ∧ role (frameOf (m'.phys (frameOf pdir) i)) =
        some .kernelTable := by
    intro i hi
    rw [hself] at hi ⊢
    unfold kernelSlots at hi ⊢
    by_cases hk : i.val < m.nrValidPages ∨ i.val = 0x380
    · rw [if_pos hk]
      exact ⟨hk, (h.tables.kernel_slot hk).2⟩
    · rw [if_neg hk, hz] at hi
      exact absurd hi (by simp)
  have hcases : ∀ f, Holder (role.assign (frameOf pdir) .dir) f →
      f = frameOf pdir ∨ Holder role f := by
    intro f hf
    by_cases he : f = frameOf pdir
    · exact Or.inl he
    · unfold Holder at hf ⊢
      rw [Roles.assign_of_ne he] at hf
      exact Or.inr hf
  have holder : ∀ f, Holder role f → m'.phys f = m.phys f := by
    rintro f (hf | ⟨d, hf⟩)
    · exact hold f _ hf
    · exact hold f _ hf
  have hkp : m'.kPdir = m.kPdir := by rw [hsame]
  refine ⟨⟨?_, ?_, ?_, ?_, ?_⟩, hold, fun v hk hm => ?_⟩
  · rw [hkp, hold _ _ h.tables.kdir]
    exact hv.kernel
  · intro d hd
    rcases hcases d (Or.inl hd) with rfl | hd'
    · have hp : isEntryExist (m'.phys (frameOf pdir) 0x380) = true := by
        rw [hself, kernelSlots_vram]
        exact hv.kernel
      exact ⟨hp, hle _ _ (hslot _ hp).2⟩
    · by_cases he : d = frameOf pdir
      · subst he
        rcases hd' with hd' | ⟨_, hd'⟩
        · exact absurd rfl (Roles.ne_of_none hnone hd')
        · exact absurd rfl (Roles.ne_of_none hnone hd')
      · rw [Roles.assign_of_ne he] at hd
        rw [hold d _ hd]
        exact ⟨(hv.system d hd).1, hle _ _ (hv.system d hd).2⟩
  · intro d hd i hi ht
    by_cases he : d = frameOf pdir
    · subst he
      rw [hle _ _ (hslot i hi).2] at ht
      exact absurd ht (by simp)
    · rw [Roles.assign_of_ne he] at hd
      rw [hold d _ hd] at hi ht ⊢
      obtain ⟨r, hr⟩ := h.target (Or.inl hd) hi
      rw [hle _ _ hr] at ht
      exact hv.slots d hd i hi (hr.trans ht)
  · intro d t ht j hj
    by_cases he : t = frameOf pdir
    · rw [he, Roles.assign_self] at ht
      exact absurd ht (by simp)
    · rw [Roles.assign_of_ne he] at ht
      rw [hold t _ ht] at hj ⊢
      exact hv.entries d t ht j hj
  · intro f f' i i' hf hf' hi hi' heq' hne
    rcases hcases f hf with rfl | hf₁
    · exact absurd (hle _ _ (hslot i hi).2) hne
    · rcases hcases f' hf' with rfl | hf₁'
      · rw [heq'] at hne
        exact absurd (hle _ _ (hslot i' hi').2) hne
      · rw [holder f hf₁] at hi heq' hne
        rw [holder f' hf₁'] at hi' heq'
        exact hv.unique f f' i i' hf₁ hf₁' hi hi' heq' fun hk => hne (hle _ _ hk)
  · exact hk (hslot _ hm.1).1

/-- The loop over the stacks of `makeSysProc` opens their pages. -/
theorem Owned.enableStacks_opened {l : List Region} (h : Owned m b role) (hv : View m role)
    (ha : Aligned pdir) (hd : role (frameOf pdir) = some .dir)
    (hr : l.foldlM (fun m r => m.enableSpace r.begin r.size pdir userpage .data) m = .ok m') :
    ∃ role', Owned m' b role' ∧ View m' role' ∧ Owned.Grown .data (frameOf pdir) m role m' role' ∧
      Opened (frameOf pdir) (l.flatMap fun r => rangePages r.begin r.size) m role m' role' := by
  induction l generalizing m role with
  | nil =>
    obtain rfl := Except.ok.inj hr
    exact ⟨role, h, hv, Owned.Grown.refl, Opened.refl⟩
  | cons r l ih =>
    rw [List.foldlM_cons] at hr
    obtain ⟨m₁, h₁, hr⟩ := Res.bind_eq_ok.mp hr
    obtain ⟨role₁, ho₁, hv₁, hg₁, hop₁⟩ := h.enableSpace_opened hv ha hd (Or.inl rfl) h₁
    obtain ⟨role₂, ho₂, hv₂, hg₂, hop₂⟩ := ih ho₁ hv₁ (hg₁.le _ _ hd) hr
    refine ⟨role₂, ho₂, hv₂, hg₁.trans hg₂, ?_⟩
    rw [List.flatMap_cons]
    exact hop₁.trans hop₂ hg₁.le (by rw [hg₁.same]; rfl)

namespace Spaces

/-- A new process that has the stacks mapped and nothing else, while the others keep their pages. -/
theorem addProc {q : Proc} (h : Spaces m b role A) (ho : Owned m' b role') (hv : View m' role')
    (hle : role.Le role') (hprocs : m'.procs = m.procs ++ [q])
    (hn : m'.nrValidPages = m.nrValidPages)
    (hold : ∀ x, role x = some .dir → ∀ v, ¬ KernelSlot m v →
    (Owned.Mapped m' x v ↔ Owned.Mapped m x v))
    (hnew : ∀ v, ¬ KernelSlot m v →
    (Owned.Mapped m' (frameOf q.cr3) v ↔ ∃ w ∈ stackPages, SamePage v w))
    (hst : HasStack role' q) : Spaces m' b role' A := by
  refine ⟨ho, hv, ?_, ?_, h.base, ?_⟩
  · intro p hp
    rw [hprocs] at hp
    rcases List.mem_append.mp hp with hp | hp
    · obtain ⟨s, h1, h2, h3, h4⟩ := h.stack p hp
      exact ⟨s, h1, h2, h3, hle _ _ h4⟩
    · obtain rfl := List.mem_singleton.mp hp
      exact hst
  · intro i p hi v hk
    have hk' : ¬ KernelSlot m v := by
      unfold KernelSlot at hk ⊢
      rwa [hn] at hk
    rw [hprocs] at hi
    by_cases hlt : i < m.procs.length
    · rw [List.getElem?_append_left hlt] at hi
      obtain ⟨-, hd, -⟩ := h.owned.procs p (List.mem_of_getElem? hi)
      rw [hold _ hd v hk']
      exact h.pages i p hi v hk'
    · rw [List.getElem?_append_right (by omega)] at hi
      obtain rfl := List.mem_singleton.mp (List.mem_of_getElem? hi)
      rw [h.later i (by omega)]
      exact hnew v hk'
  · intro i hi
    rw [hprocs, List.length_append] at hi
    exact h.later i (by omega)

/-- **`makeSysProc`** makes a process with its two stacks. -/
theorem makeSysProc (h : Spaces m b role A) (hr : m.makeSysProc = .ok m') :
    ∃ role', Spaces m' b role' A ∧ m'.pCurrent = m.pCurrent := by
  obtain ⟨m₁, pdir, m₂, m₃, m₄, stack, h₁, h₂, h₃, h₄, rfl⟩ := makeSysProc_parts hr
  obtain ⟨hnone, ha, -, ho₂, hs₂⟩ := h.owned.newDir h₁ h₂
  obtain ⟨hv₂, hold₂, hnew₂⟩ := h.view.newDir h.owned h₁ h₂
  have hle₂ : role.Le (role.assign (frameOf pdir) .dir) := Roles.le_assign hnone
  obtain ⟨role₃, ho₃, hv₃, hg₃, hop₃⟩ := ho₂.enableStacks_opened hv₂ ha Roles.assign_self h₃
  obtain ⟨hnone₄, hsa, hsl, ho₄, hs₄⟩ := ho₃.newStack h₄
  have hle₄ : role₃.Le (role₃.assign (frameOf stack) .stack) := Roles.le_assign hnone₄
  have hprocs : m₄.procs = m.procs := by rw [hs₄, hg₃.same, hs₂]
  have hphys : m₄.phys = m₃.phys := by rw [hs₄]
  have hn₂ : m₂.nrValidPages = m.nrValidPages := by rw [hs₂]; rfl
  have hn₄ : m₄.nrValidPages = m.nrValidPages := by rw [hs₄, hg₃.same, hs₂]; rfl
  have hst := hv₃.assign_stack hnone₄
  have hv₄ : View m₄ (role₃.assign (frameOf stack) .stack) := by
    rw [hs₄]
    exact ⟨hst.kernel, hst.system, hst.slots, hst.entries, hst.unique⟩
  have hk₂ : ∀ {v}, ¬ KernelSlot m v → ¬ KernelSlot m₂ v := by
    intro v hv
    unfold KernelSlot
    rwa [hn₂]
  have hmapped : ∀ x v, Owned.Mapped m₄ x v ↔ Owned.Mapped m₃ x v := by
    intro x v
    unfold Owned.Mapped
    rw [hphys]
  refine ⟨_, h.addProc (q := ⟨pdir, stackRegions, stack + 0x1000 - 4⟩)
    (ho₄.addProc ha ?_ rfl ?_) ?_ (hle₂.trans (hg₃.le.trans hle₄)) ?_ hn₄ ?_ ?_ ?_, ?_⟩
  · exact hle₄ _ _ (hg₃.le _ _ Roles.assign_self)
  · rw [hprocs]
    exact h.owned.cr3_ne hnone
  · exact ⟨hv₄.kernel, hv₄.system, hv₄.slots, hv₄.entries, hv₄.unique⟩
  · show m₄.procs ++ _ = _
    rw [hprocs]
  · intro x hx v hk
    show Owned.Mapped m₄ x v ↔ _
    have hne : x ≠ frameOf pdir := Roles.ne_of_none hnone hx
    rw [hmapped, hop₃.mapped x (hle₂ _ _ hx) v (hk₂ hk)]
    simp only [hne, false_and, or_false]
    refine Owned.Mapped.congr (by rw [hold₂ x _ hx]) fun hp => ?_
    rw [hold₂ _ _ (h.owned.own_table hx hp hk)]
  · intro v hk
    show Owned.Mapped m₄ (frameOf pdir) v ↔ _
    rw [hmapped, hop₃.mapped _ Roles.assign_self v (hk₂ hk)]
    simp only [hnew₂ v hk, true_and, false_or]
    rfl
  · exact ⟨stack, hsa, hsl, rfl, Roles.assign_self⟩
  · show m₄.pCurrent = _
    rw [hs₄, hg₃.same, hs₂]

/-- The switch to another process. -/
theorem run {i : Nat} (h : Spaces m b role A) (hr : m.run i = .ok m') :
    Spaces m' b role A ∧ m'.pCurrent = some i := by
  have ho := h.owned.run hr
  unfold Machine.run at hr
  split at hr
  · exact absurd hr (by rintro ⟨⟩)
  · obtain rfl := Except.ok.inj hr
    exact ⟨⟨ho, ⟨h.view.kernel, h.view.system, h.view.slots, h.view.entries, h.view.unique⟩,
      h.stack, h.pages, h.base, h.later⟩, rfl⟩

end Spaces

end OwnOS.VarMem
