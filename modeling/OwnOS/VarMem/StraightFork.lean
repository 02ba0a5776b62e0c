import OwnOS.VarMem.Fork

/-!
# Processes on a machine with 2 GiB

The straight map has a slot for every 4 MiB of memory, so from 2 GiB on both stacks of a process
(`0x3fffe000` and `0x7fffe000`) lie in slots of the kernel. `enableSpace` finds their pages mapped,
`clone_mm` copies them onto themselves, and a process takes two chunks: its directory and its kernel
stack.

* `Rising m s n`: the next `n` answers of the allocator are the frames from `s` on.
* `Rising.makeSysProc`, `Rising.fork`: the operations return, and take two of them.
-/

namespace OwnOS.VarMem

open Lib Lib.Word Machine

variable {m m' : Machine} {b w pdir : UInt32} {role : Roles} {use : Use} {A : Nat → List UInt32}
  {s n : Nat}

/-- Other answers from now on. The ones that were given stay. -/
theorem Spaces.reanswer {answers : Use → Nat → UInt32} (h : Spaces m b role A)
    (hold : ∀ use, ∀ k < m.handed.length, answers use k = m.answers use k)
    (hlow : LowAnswers { m with answers }) : Spaces { m with answers } b role A := by
  have ho := h.owned
  refine ⟨⟨ho.tables.congr rfl rfl fun _ _ _ _ => rfl, ho.fresh, ho.grant, fun g hg => ?_,
    ho.straightTables, hlow, ho.dir_aligned, ho.pos, ho.procs, ho.nodup, ho.running⟩,
    ⟨h.view.kernel, h.view.system, h.view.slots, h.view.entries, h.view.unique⟩, h.stack, h.pages,
    h.base, h.later⟩
  rcases ho.answered g hg with hu | ⟨⟨k, hk, he⟩, hn⟩
  · exact Or.inl hu
  · exact Or.inr ⟨⟨k, hk, (hold g.use k hk).trans he⟩, hn⟩

/-! ## Pages in the slots of the kernel -/

namespace Owned

/-- A page of the straight map is mapped in every directory. -/
theorem straight_mapped (h : Owned m b role) (hd : role (frameOf pdir) = some .dir)
    (hslot : (dirIndex w).val < m.nrValidPages) : Mapped m (frameOf pdir) w := by
  have hD : m.phys (frameOf pdir) (dirIndex w) =
      entryWord (b + 0x1000 * UInt32.ofNat (dirIndex w).val) systempage := by
    rw [h.tables.shared _ hd _ hslot]
    exact h.tables.slots _ (dirIndex w).isLt hslot
  unfold Mapped
  rw [hD, frameOf_entryWord, (chunk_frame h.tables.aligned h.tables.bound hslot).2,
    (h.tables.straight _ hslot).2 (tableIndex w)]
  exact ⟨isEntryExist_entryWord systempage_odd, isEntryExist_entryWord systempage_odd⟩

/-- `enableSpace` changes nothing there. -/
theorem enableSpace_straight {virAddr size : UInt32} (type : UInt32) (use : Use)
    (h : Owned m b role) (ha : Aligned pdir) (hd : role (frameOf pdir) = some .dir)
    (hslot : ∀ w ∈ rangePages virAddr size, (dirIndex w).val < m.nrValidPages) :
    m.enableSpace virAddr size pdir type use = .ok m := by
  obtain ⟨c, -, hreach, -⟩ := h.reaches
  rw [enableSpace_eq]
  obtain ⟨m', hm', rfl⟩ := loop_total (I := fun _ t => t = m) (n := pageNum virAddr size) (s := m)
    (f := fun i m => m.enablePage (pageAt virAddr i) pdir type use) rfl (by
      rintro i hi t rfl
      have hmem : pageAt virAddr i ∈ rangePages virAddr size :=
        List.mem_map.mpr ⟨i, List.mem_range.mpr hi, rfl⟩
      obtain ⟨heD, heT⟩ := h.straight_mapped hd (hslot _ hmem)
      exact ⟨t, (holds_frame ha (h.lt hd (by simp))).enablePage_mapped hreach heD
        (h.holds_table hd heD) heT, rfl⟩)
  exact hm'

/-- One page of `clone_mm`. -/
theorem clonePage_straight {p : Proc} (h : Owned m b role) (hcr3 : m.cr3 = some p.cr3)
    (hp : role (frameOf p.cr3) = some .dir) (ha : Aligned pdir) (h0 : pdir ≠ 0)
    (hd : role (frameOf pdir) = some .dir) (hw : Aligned w)
    (hslot : (dirIndex w).val < m.nrValidPages) :
    ∃ phy, m.vir2phy w pdir = .ok phy ∧ m.memcpy phy w 1024 = .ok m := by
  have hm := h.straight_mapped hd hslot
  have hphy := h.clone_vir2phy ha h0 hd hm hw
  exact ⟨_, hphy, h.clonePage_self hcr3 hp ha h0 hd hm hw hslot hphy⟩

/-- A stack is cloned without a change. -/
theorem cloneRegion_straight {p : Proc} {reg : Region} (h : Owned m b role)
    (hcr3 : m.cr3 = some p.cr3) (hp : role (frameOf p.cr3) = some .dir) (ha : Aligned pdir)
    (h0 : pdir ≠ 0) (hd : role (frameOf pdir) = some .dir) (hreg : reg ∈ stackRegions)
    (hslot : ∀ w ∈ rangePages reg.begin reg.size, (dirIndex w).val < m.nrValidPages) :
    m.cloneRegion reg pdir = .ok m := by
  obtain ⟨hpages, -, -, hal₁, hal₂, -, -⟩ := stackRegion_facts hreg
  have hspace := Owned.enableSpace_straight userpage .copied h ha hd hslot
  rw [hpages] at hslot
  obtain ⟨phy₁, hphy₁, h₁⟩ := h.clonePage_straight hcr3 hp ha h0 hd hal₁ (hslot _ (by simp))
  obtain ⟨phy₂, hphy₂, h₂⟩ := h.clonePage_straight hcr3 hp ha h0 hd hal₂ (hslot _ (by simp))
  rw [cloneRegion_eq hreg, hspace, Res.ok_bind, hphy₁, Res.ok_bind, h₁, Res.ok_bind, hphy₂,
    Res.ok_bind, h₂]

end Owned

/-- Both stacks lie in the straight map from 2 GiB on. -/
theorem stackPages_straight (hn : 512 ≤ m.nrValidPages) :
    ∀ reg ∈ stackRegions, ∀ w ∈ rangePages reg.begin reg.size, (dirIndex w).val <
      m.nrValidPages := by
  have hall : stackPages.all (fun w => decide ((dirIndex w).val < 512)) = true := by decide
  intro reg hreg w hw
  have hw' : w ∈ stackPages := List.mem_flatMap.mpr ⟨reg, hreg, hw⟩
  have := of_decide_eq_true (List.all_eq_true.mp hall w hw')
  omega

/-- A loop whose turns change nothing. -/
theorem foldlM_same {α : Type} {f : Machine → α → Res Machine} :
    ∀ {l : List α}, (∀ x ∈ l, f m x = .ok m) → l.foldlM f m = .ok m
  | [], _ => rfl
  | x :: l, h => by
    rw [List.foldlM_cons, h x List.mem_cons_self, Res.ok_bind]
    exact foldlM_same fun y hy => h y (List.mem_cons_of_mem _ hy)

/-! ## The allocator -/

/-- Frame `f`. -/
def frameAddr (f : Nat) : UInt32 := UInt32.ofNat (0x1000 * f)

theorem frameAddr_toNat {f : Nat} (h : f < 0x100000) : (frameAddr f).toNat = 0x1000 * f := by
  unfold frameAddr
  rw [UInt32.toNat_ofNat']
  exact Nat.mod_eq_of_lt (by omega)

/-- The next `n` answers of the allocator are the frames from `s` on, which lie above all that were
handed out. -/
structure Rising (m : Machine) (s n : Nat) : Prop where
  next : ∀ use, ∀ i < n, m.answers use (m.handed.length + i) = frameAddr (s + i)
  below : ∀ g ∈ m.handed, g.addr.toNat / 4096 + g.num ≤ s
  bound : s + n ≤ 1024

namespace Rising

/-- The next chunk is new. -/
theorem new (h : Rising m s (n + 1)) (use : Use) : Grant.New ⟨use, frameAddr s, 1⟩ m.handed := by
  have hb := h.bound
  have hs := frameAddr_toNat (f := s) (by omega)
  refine ⟨?_, ?_, fun g hg => Or.inr ?_⟩
  · simp only [hs]
    omega
  · simp only [hs]
    omega
  · have := h.below g hg
    simp only [hs]
    omega

theorem answer (h : Rising m s (n + 1)) (use : Use) :
    m.answers use m.handed.length = frameAddr s := h.next use 0 (Nat.succ_pos n)

theorem congr (h : Rising m s n) (ha : m'.answers = m.answers) (hh : m'.handed = m.handed) :
    Rising m' s n := by
  refine ⟨?_, ?_, h.bound⟩
  · rw [ha, hh]
    exact h.next
  · rw [hh]
    exact h.below

theorem granted (h : Rising m s (n + 1)) (use : Use) :
    Rising (m.granted use (frameAddr s) 1) (s + 1) n := by
  have hb := h.bound
  refine ⟨fun use' i hi => ?_, fun g hg => ?_, by omega⟩
  · have := h.next use' (i + 1) (by omega)
    rw [show m.handed.length + (i + 1) = m.handed.length + 1 + i by omega,
      show s + (i + 1) = s + 1 + i by omega] at this
    exact this
  · rcases List.mem_cons.mp hg with rfl | hg
    · show (frameAddr s).toNat / 4096 + 1 ≤ s + 1
      rw [frameAddr_toNat (by omega)]
      omega
    · have := h.below g hg
      omega

/-- `allocChunk` returns. -/
theorem alloc (h : Rising m s (n + 1)) (use : Use) :
    m.allocChunk use 1 = .ok (m.granted use (frameAddr s) 1, frameAddr s) :=
  allocChunk_granted (h.answer use) (h.new use)

/-- A new directory takes one chunk. -/
theorem newDir (hr : Rising m s (n + 1)) (h : Owned m b role) :
    ∃ m₁ pdir m₂, m.allocChunk .pageDir 1 = .ok (m₁, pdir) ∧ m₁.copyKernelDir pdir = .ok m₂ ∧
      Rising m₂ (s + 1) n ∧ m₂.handed.length = m.handed.length + 1 := by
  refine ⟨_, _, _, hr.alloc .pageDir, h.copyKernelDir (hr.answer _) (hr.new _), ?_, rfl⟩
  exact (hr.granted .pageDir).congr rfl rfl

/-- **`makeSysProc` takes two chunks** from 2 GiB on. -/
theorem makeSysProc (hr : Rising m s (n + 2)) (h : Owned m b role) (hn : 512 ≤ m.nrValidPages)
    (hprocs : m.procs.length < nrProc) :
    ∃ m' q, m.makeSysProc = .ok m' ∧ Rising m' (s + 2) n ∧ m'.handed.length = m.handed.length + 2 ∧
      m'.procs = m.procs ++ [q] ∧ m'.nrValidPages = m.nrValidPages ∧ m'.answers = m.answers := by
  obtain ⟨m₁, pdir, m₂, h₁, h₂, hr₂, hl₂⟩ := hr.newDir h
  obtain ⟨-, ha, -, ho₂, hs₂⟩ := h.newDir h₁ h₂
  have hn₂ : m₂.nrValidPages = m.nrValidPages := by rw [hs₂]; rfl
  have h₃ : stackRegions.foldlM (fun m r => m.enableSpace r.begin r.size pdir userpage .data) m₂ =
      .ok m₂ :=
    foldlM_same fun reg hreg => Owned.enableSpace_straight userpage .data ho₂ ha Roles.assign_self
      (stackPages_straight (by rw [hn₂]; exact hn) reg hreg)
  have h₄ := hr₂.alloc .kernelStack
  refine ⟨{ m₂.granted .kernelStack (frameAddr (s + 1)) 1 with procs := m₂.procs ++
    [⟨pdir, stackRegions, frameAddr (s + 1) + 0x1000 - 4⟩] },
    ⟨pdir, stackRegions, frameAddr (s + 1) + 0x1000 - 4⟩, ?_,
    (hr₂.granted .kernelStack).congr rfl rfl, ?_, ?_, hn₂, ?_⟩
  · unfold Machine.makeSysProc
    rw [if_neg (by omega), h₁, Res.ok_bind]
    simp only
    rw [h₂, Res.ok_bind, h₃, Res.ok_bind, h₄, Res.ok_bind]
    rfl
  · show m₂.handed.length + 1 = _
    omega
  · show m₂.procs ++ _ = _
    rw [hs₂]
  · show m₂.answers = _
    rw [hs₂]

/-- **`fork` takes two chunks** from 2 GiB on. -/
theorem fork {i : Nat} {p : Proc} (hr : Rising m s (n + 2)) (h : Spaces m b role A)
    (hn : 512 ≤ m.nrValidPages) (hprocs : m.procs.length < nrProc) (hcur : m.pCurrent = some i)
    (hp : m.procs[i]? = some p) :
    ∃ m', m.fork = .ok m' ∧ Rising m' (s + 2) n ∧ m'.handed.length = m.handed.length + 2 ∧
      m'.answers = m.answers := by
  have hbind : (m.pCurrent.bind fun i => m.procs[i]?) = some p := by
    rw [hcur]
    exact hp
  obtain ⟨j, hj, -, hcr3, -, hpd⟩ := h.current hbind
  have hmem := List.mem_of_getElem? hp
  obtain ⟨-, -, hpr⟩ := h.owned.procs p hmem
  obtain ⟨m₁, pdir, m₂, h₁, h₂, hr₂, hl₂⟩ := hr.newDir h.owned
  obtain ⟨hnone, ha, h0, ho₂, hs₂⟩ := h.owned.newDir h₁ h₂
  have hn₂ : m₂.nrValidPages = m.nrValidPages := by rw [hs₂]; rfl
  have h₃ : p.regions.foldlM (fun m r => m.cloneRegion r pdir) m₂ = .ok m₂ := by
    rw [hpr]
    exact foldlM_same fun reg hreg => ho₂.cloneRegion_straight (p := p) (by rw [hs₂]; exact hcr3)
      (Roles.le_assign hnone _ _ hpd) ha h0 Roles.assign_self hreg
      (stackPages_straight (by rw [hn₂]; exact hn) reg hreg)
  have h₄ := hr₂.alloc .kernelStack
  obtain ⟨hnone₄, hsa, hsl, ho₄, hs₄⟩ := ho₂.newStack h₄
  -- the frame of the parent's stack
  obtain ⟨t, hsa', hsl', htop, -⟩ := h.stack p hmem
  obtain ⟨m₅, h₅⟩ := Owned.memcpy_returns (n := frameWords)
    (frameAddr (s + 1) + 0x1000 - 4 - 4 * 17) (p.stackTop - 4 * 17) ho₄
    (fun k hk => Owned.stack_words hsa hsl hk)
    (fun k hk => by
      rw [htop]
      exact (Owned.stack_words hsa' hsl' hk).1)
    (fun r hr => by rw [Roles.assign_self] at hr; obtain rfl := Option.some.inj hr; rfl)
  obtain ⟨-, pg, hs₅⟩ := ho₄.memcpy_scratch (fun k hk => Owned.stack_words hsa hsl hk)
    (fun r hr => by rw [Roles.assign_self] at hr; obtain rfl := Option.some.inj hr; rfl) h₅
  have hh₅ : m₅.handed = (m₂.granted .kernelStack (frameAddr (s + 1)) 1).handed := by rw [hs₅]; rfl
  have ha₅ : m₅.answers = m₂.answers := by rw [hs₅]; rfl
  refine ⟨{ m₅ with procs := m₅.procs ++ [⟨pdir, p.regions, frameAddr (s + 1) + 0x1000 - 4⟩] }, ?_,
    (hr₂.granted .kernelStack).congr ha₅ hh₅, ?_, ?_⟩
  · unfold Machine.fork
    rw [hbind]
    simp only
    rw [if_neg (by omega), h₁, Res.ok_bind]
    simp only
    rw [h₂, Res.ok_bind, h₃, Res.ok_bind, h₄, Res.ok_bind]
    simp only
    rw [h₅, Res.ok_bind]
  · show m₅.handed.length = _
    rw [hh₅]
    show m₂.handed.length + 1 = _
    omega
  · show m₅.answers = _
    rw [ha₅, hs₂]

end Rising

end OwnOS.VarMem
