import OwnOS.VarMem.ForkCopy

/-!
# The operations return while the allocator has chunks

`Bump m`: the allocator answers with the frames 1, 2, 3, … in turn. Under it every operation on the
address spaces returns as long as the frames below 4 MiB last: one lemma for each operation, with
the number of chunks it takes at most.
-/

namespace OwnOS.VarMem

open Lib Lib.Word Machine

variable {m m' : Machine} {b v w pdir : UInt32} {role : Roles} {use : Use} {A : Nat → List UInt32}

/-- Frame `k + 1`, for the first 1023 chunks. -/
def bumpChunk (k : Nat) : UInt32 := UInt32.ofNat (0x1000 * (k % 1023 + 1))

/-- The allocator hands out the frames from 1 on. -/
structure Bump (m : Machine) : Prop where
  answers : ∀ use k, m.answers use k = bumpChunk k
  chunks : ∀ g ∈ m.handed, g.num = 1 ∧ frameOf g.addr ≤ m.handed.length

theorem bumpChunk_toNat (k : Nat) : (bumpChunk k).toNat = 0x1000 * (k % 1023 + 1) := by
  unfold bumpChunk
  rw [UInt32.toNat_ofNat']
  exact Nat.mod_eq_of_lt (by omega)

theorem frameOf_bumpChunk (k : Nat) : frameOf (bumpChunk k) = k % 1023 + 1 := by
  unfold frameOf
  rw [bumpChunk_toNat]
  omega

theorem bumpChunk_lowFrames (hm : m.nrValidPages = 1) (h : ∀ use k, m.answers use k = bumpChunk k) :
    LowFrames m := by
  refine ⟨fun k => ?_, fun use k _ => ?_, fun k => ?_⟩
  · rw [h, bumpChunk_toNat, hm]
    omega
  · rw [h, bumpChunk_toNat]
    omega
  · rw [h]
    intro e
    have := congrArg UInt32.toNat e
    rw [bumpChunk_toNat] at this
    exact absurd this (by simp)

namespace Bump

/-- The next chunk is new. -/
theorem new (h : Bump m) (use : Use) (hlt : m.handed.length < 1023) :
    Grant.New ⟨use, bumpChunk m.handed.length, 1⟩ m.handed := by
  have hn := bumpChunk_toNat m.handed.length
  rw [Nat.mod_eq_of_lt hlt] at hn
  refine ⟨?_, ?_, fun g hg => Or.inr ?_⟩
  · simp only [hn]
    omega
  · simp only [hn]
    omega
  · obtain ⟨hnum, hle⟩ := h.chunks g hg
    unfold frameOf at hle
    simp only [hn, hnum]
    omega

theorem congr (h : Bump m) (ha : m'.answers = m.answers) (hh : m'.handed = m.handed) : Bump m' := by
  refine ⟨?_, ?_⟩
  · rw [ha]
    exact h.answers
  · rw [hh]
    exact h.chunks

theorem granted (h : Bump m) (use : Use) (hlt : m.handed.length < 1023) :
    Bump (m.granted use (bumpChunk m.handed.length) 1) := by
  refine ⟨h.answers, fun g hg => ?_⟩
  show g.num = 1 ∧ frameOf g.addr ≤ m.handed.length + 1
  rcases List.mem_cons.mp hg with rfl | hg
  · refine ⟨rfl, ?_⟩
    show frameOf (bumpChunk m.handed.length) ≤ _
    rw [frameOf_bumpChunk]
    omega
  · obtain ⟨h1, h2⟩ := h.chunks g hg
    exact ⟨h1, by omega⟩

/-- `allocChunk` returns. -/
theorem alloc (h : Bump m) (use : Use) (hlt : m.handed.length < 1023) :
    m.allocChunk use 1 =
      .ok (m.granted use (bumpChunk m.handed.length) 1, bumpChunk m.handed.length) :=
  allocChunk_granted (h.answers use _) (h.new use hlt)

/-- A turn of `enableSpace` takes two chunks at most. -/
theorem enablePage {type : UInt32} (hb : Bump m) (h : Owned m b role)
    (hlen : m.handed.length + 2 ≤ 1023) (ha : Aligned pdir) (hd : role (frameOf pdir) = some .dir)
    (w : UInt32) (use : Use) :
    ∃ m', m.enablePage w pdir type use = .ok m' ∧ Bump m' ∧
    m'.handed.length ≤ m.handed.length + 2 := by
  obtain ⟨c, -, hreach, -⟩ := h.reaches
  cases heD : isEntryExist (m.phys (frameOf pdir) (dirIndex w)) with
  | true =>
    cases heT :
        isEntryExist (m.phys (frameOf (m.phys (frameOf pdir) (dirIndex w))) (tableIndex w)) with
    | true =>
      refine ⟨m, ?_, hb, by omega⟩
      exact (Owned.holds_frame ha (h.lt hd (by simp))).enablePage_mapped hreach heD
        (h.holds_table hd heD) heT
    | false =>
      refine ⟨_, h.enablePage_page ha hd heD heT (hb.answers use _) (hb.new use (by omega)), ?_, ?_⟩
      · exact (hb.granted use (by omega)).congr rfl rfl
      · exact Nat.le_succ_of_le (Nat.le_refl _)
  | false =>
    have hb₁ := hb.granted .pageTable (by omega)
    refine ⟨_, h.enablePage_table ha hd heD (hb.answers _ _) (hb.new .pageTable (by omega))
      (hb.answers use _) ?_, ?_, ?_⟩
    · exact hb₁.new use (show m.handed.length + 1 < 1023 by omega)
    · exact (hb₁.granted use (show m.handed.length + 1 < 1023 by omega)).congr rfl rfl
    · exact Nat.le_refl _

/-- `enableSpace` takes two chunks for each page at most. -/
theorem enableSpace {type : UInt32} (hb : Bump m) (virAddr size : UInt32) (h : Owned m b role)
    (hlen : m.handed.length + 2 * pageNum virAddr size ≤ 1023) (ha : Aligned pdir)
    (hd : role (frameOf pdir) = some .dir) (hu : use = .data ∨ use = .copied) :
    ∃ m', m.enableSpace virAddr size pdir type use = .ok m' ∧ Bump m' ∧
      m'.handed.length ≤ m.handed.length + 2 * pageNum virAddr size ∧
      ∃ role', Owned m' b role' ∧ role' (frameOf pdir) = some .dir := by
  rw [enableSpace_eq]
  obtain ⟨m', hm', role', ho', hd', hb', hl'⟩ := loop_total
    (I := fun n s => ∃ role', Owned s b role' ∧ role' (frameOf pdir) = some .dir ∧ Bump s ∧
      s.handed.length ≤ m.handed.length + 2 * n)
    (f := fun i m => m.enablePage (pageAt virAddr i) pdir type use)
      (n := pageNum virAddr size) (s := m)
    ⟨role, h, hd, hb, by omega⟩ (by
      rintro n hn s ⟨role', h', hd', hb', hl'⟩
      obtain ⟨s', hs', hb'', hl''⟩ := hb'.enablePage h' (by omega) ha hd' (pageAt virAddr n) use
      obtain ⟨role'', h'', hg, -⟩ := h'.enablePage ha hd' hu hs'
      exact ⟨s', hs', role'', h'', hg.le _ _ hd', hb'', by omega⟩)
  exact ⟨m', hm', hb', hl', role', ho', hd'⟩

/-- A new directory takes one chunk. -/
theorem newDir (hb : Bump m) (h : Owned m b role) (hlen : m.handed.length < 1023) :
    ∃ m₁ pdir m₂, m.allocChunk .pageDir 1 = .ok (m₁, pdir) ∧
    m₁.copyKernelDir pdir = .ok m₂ ∧ Bump m₂ ∧
      m₂.handed.length = m.handed.length + 1 := by
  refine ⟨_, _, _, hb.alloc .pageDir hlen, h.copyKernelDir (hb.answers _ _)
    (hb.new _ hlen), ?_, rfl⟩
  exact (hb.granted .pageDir hlen).congr rfl rfl

theorem stackRegion_pageNum {reg : Region} (hreg : reg ∈ stackRegions) :
    pageNum reg.begin reg.size = 2 := (Owned.stackRegion_facts hreg).2.2.1

/-- The loop over the stacks of `makeSysProc`. -/
theorem enableStacks {l : List Region} (hl : ∀ r ∈ l, r ∈ stackRegions) (hb : Bump m)
    (h : Owned m b role) (hlen : m.handed.length + 4 * l.length ≤ 1023) (ha : Aligned pdir)
    (hd : role (frameOf pdir) = some .dir) :
    ∃ m', l.foldlM (fun m r => m.enableSpace r.begin r.size pdir userpage .data) m =
      .ok m' ∧ Bump m' ∧ m'.handed.length ≤ m.handed.length + 4 * l.length := by
  induction l generalizing m role with
  | nil => exact ⟨m, rfl, hb, by omega⟩
  | cons r l ih =>
    have hnum := stackRegion_pageNum (hl r List.mem_cons_self)
    rw [List.length_cons] at hlen ⊢
    obtain ⟨m₁, h₁, hb₁, hl₁, -⟩ := hb.enableSpace _ _ h (by rw [hnum]; omega) ha hd (Or.inl rfl)
    obtain ⟨role₁, ho₁, hg₁, -⟩ := h.enableSpace ha hd (Or.inl rfl) h₁
    rw [hnum] at hl₁
    obtain ⟨m', hm', hb', hl'⟩ :=
      ih (fun x hx => hl x (List.mem_cons_of_mem _ hx)) hb₁ ho₁ (by omega)
      (hg₁.le _ _ hd)
    refine ⟨m', ?_, hb', by omega⟩
    rw [List.foldlM_cons, h₁, Res.ok_bind, hm']

/-- `makeSysProc` takes ten chunks at most. -/
theorem makeSysProc (hb : Bump m) (h : Owned m b role) (hlen : m.handed.length + 10 ≤ 1023)
    (hprocs : m.procs.length < nrProc) :
    ∃ m' q, m.makeSysProc = .ok m' ∧ Bump m' ∧ m'.handed.length ≤ m.handed.length + 10 ∧
      m'.procs = m.procs ++ [q] ∧ m'.nrValidPages = m.nrValidPages := by
  have htwo : stackRegions.length = 2 := rfl
  obtain ⟨m₁, pdir, m₂, h₁, h₂, hb₂, hl₂⟩ := hb.newDir h (by omega)
  obtain ⟨-, ha, -, ho₂, hs₂⟩ := h.newDir h₁ h₂
  obtain ⟨m₃, h₃, hb₃, hl₃⟩ := hb₂.enableStacks (fun _ hr => hr) ho₂ (by rw [htwo]; omega)
    ha Roles.assign_self
  obtain ⟨role₃, ho₃, hg₃⟩ := ho₂.enableStacks ha Roles.assign_self h₃
  rw [htwo] at hl₃
  have h₄ := hb₃.alloc .kernelStack (by omega)
  have hp₃ : m₃.procs = m.procs := by rw [hg₃.same, hs₂]
  refine ⟨{ m₃.granted .kernelStack (bumpChunk m₃.handed.length) 1 with procs := m₃.procs ++
    [⟨pdir, stackRegions, bumpChunk m₃.handed.length + 0x1000 - 4⟩] },
    ⟨pdir, stackRegions, bumpChunk m₃.handed.length + 0x1000 - 4⟩, ?_,
    (hb₃.granted .kernelStack (by omega)).congr rfl rfl, ?_, ?_, ?_⟩
  · unfold Machine.makeSysProc
    rw [if_neg (by omega), h₁, Res.ok_bind]
    simp only
    rw [h₂, Res.ok_bind, h₃, Res.ok_bind, h₄, Res.ok_bind]
    rfl
  · show m₃.handed.length + 1 ≤ _
    omega
  · show m₃.procs ++ _ = _
    rw [hp₃]
  · show m₃.nrValidPages = _
    rw [hg₃.same, hs₂]
    rfl

end Bump

/-! ## Copies -/

/-- A copy between frames below 4 MiB that hold no entries returns. -/
theorem Owned.memcpy_returns (dest src : UInt32) {n F : Nat} (h : Owned m b role)
    (hdest : ∀ i < n, (entryAddr dest i).toNat < 0x400000 ∧ frameOf (entryAddr dest i) = F)
    (hsrc : ∀ i < n, (entryAddr src i).toNat < 0x400000)
    (hF : ∀ r, role F = some r → r.structural = false) : ∃ m', m.memcpy dest src n = .ok m' := by
  unfold Machine.memcpy
  obtain ⟨m', hm', -⟩ := loop_total (I := fun _ s => Owned s b role) (n := n) (s := m)
    (f := fun i m => do
      let w ← m.load (entryAddr src i)
      m.store (entryAddr dest i) w) h (by
      intro i hi s hs
      obtain ⟨c, -, hreach, -⟩ := hs.reaches
      rw [hreach.load (hsrc i hi), Res.ok_bind, hreach.store (hdest i hi).1]
      refine ⟨_, rfl, hs.scratch rfl fun f r hf hst => setWord_phys_of_ne ?_⟩
      show f ≠ frameOf (entryAddr dest i)
      rw [(hdest i hi).2]
      rintro rfl
      rw [hF r hf] at hst
      exact absurd hst (by simp))
  exact ⟨m', hm'⟩

/-- One page of `clone_mm` returns. -/
theorem Owned.clonePage_returns {p : Proc} (h : Owned m b role) (hcr3 : m.cr3 = some p.cr3)
    (hp : role (frameOf p.cr3) = some .dir) (ha : Aligned pdir) (h0 : pdir ≠ 0)
    (hd : role (frameOf pdir) = some .dir) (hlow : LowPages role (frameOf pdir))
    (hm : Mapped m (frameOf pdir) v) (hmp : Mapped m (frameOf p.cr3) v) (hv : Aligned v)
    (hk : ¬ KernelSlot m v) :
    ∃ phy pg, m.vir2phy v pdir = .ok phy ∧
      m.memcpy phy v 1024 = .ok (m.setPage (frameAt m (frameOf pdir) v) pg) :=
  ⟨_, _, h.clone_vir2phy ha h0 hd hm hv, h.clone_memcpy hcr3 hp hd hlow hm hmp hv hk⟩

namespace Bump

/-- A region of `clone_mm` takes four chunks at most. -/
theorem cloneRegion {p : Proc} {reg : Region} (hb : Bump m) (h : Owned m b role)
    (hlen : m.handed.length + 4 ≤ 1023) (hcr3 : m.cr3 = some p.cr3)
    (hp : role (frameOf p.cr3) = some .dir) (ha : Aligned pdir) (h0 : pdir ≠ 0)
    (hd : role (frameOf pdir) = some .dir) (hlow : Owned.LowPages role (frameOf pdir))
    (hreg : reg ∈ stackRegions) (hk : ∀ w ∈ rangePages reg.begin reg.size, ¬ KernelSlot m w)
    (hmp : ∀ w ∈ rangePages reg.begin reg.size, Owned.Mapped m (frameOf p.cr3) w) :
    ∃ m', m.cloneRegion reg pdir = .ok m' ∧ Bump m' ∧ m'.handed.length ≤ m.handed.length + 4 := by
  obtain ⟨hpages, -, -, hal₁, hal₂, hs₁, -⟩ := Owned.stackRegion_facts hreg
  rw [hpages] at hk hmp
  obtain ⟨m₁, h₁, hb₁, hl₁, -⟩ := hb.enableSpace _ _ h (by rw [stackRegion_pageNum hreg]; omega) ha
    hd (Or.inr rfl)
  have h₁ : m.enableSpace reg.begin reg.size pdir userpage .copied = .ok m₁ := h₁
  obtain ⟨role₁, ho₁, hg₁, -⟩ := h.enableSpace ha hd (Or.inr rfl) h₁
  rw [stackRegion_pageNum hreg] at hl₁
  obtain ⟨hmap₁, hmap₂⟩ := h.enableStack_mapped ha hd hreg h₁
  have hd₁ := hg₁.le _ _ hd
  have hp₁ := hg₁.le _ _ hp
  have hcr₁ : m₁.cr3 = some p.cr3 := by rw [hg₁.same]; exact hcr3
  have hlow₁ : Owned.LowPages role₁ (frameOf pdir) :=
    fun f hf => (hg₁.pages rfl f hf).elim (hlow f) id
  have hn₁ : m₁.nrValidPages = m.nrValidPages := by rw [hg₁.same]; rfl
  have hk₁ : ∀ w ∈ [reg.begin, reg.begin + 0x1000], ¬ KernelSlot m₁ w := by
    intro w hw
    unfold KernelSlot
    rw [hn₁]
    exact hk w hw
  obtain ⟨phy₁, pg₁, hphy₁, h₂⟩ := ho₁.clonePage_returns hcr₁ hp₁ ha h0 hd₁ hlow₁ hmap₁
    (hg₁.mapped h hp (hmp _ (by simp))) hal₁ (hk₁ _ (by simp))
  obtain ⟨ho₂, hg₂⟩ := ho₁.clonePage hcr₁ hp₁ ha h0 hd₁ hlow₁ hmap₁ hal₁ hs₁ hphy₁ h₂
  obtain ⟨phy₂, pg₂, hphy₂, h₃⟩ := ho₂.clonePage_returns (p := p) (v := reg.begin + 0x1000) hcr₁
    hp₁ ha h0 hd₁ hlow₁ (hg₂.mapped ho₁ hd₁ hmap₂)
    (hg₂.mapped ho₁ hp₁ (hg₁.mapped h hp (hmp _ (by simp)))) hal₂
    (hk₁ _ (by simp))
  refine ⟨(m₁.setPage (frameAt m₁ (frameOf pdir) reg.begin) pg₁).setPage (frameAt (m₁.setPage
    (frameAt m₁ (frameOf pdir) reg.begin) pg₁) (frameOf pdir) (reg.begin + 0x1000)) pg₂, ?_,
    hb₁.congr rfl rfl, ?_⟩
  · rw [Owned.cloneRegion_eq hreg, h₁, Res.ok_bind, hphy₁, Res.ok_bind, h₂, Res.ok_bind, hphy₂,
      Res.ok_bind, h₃]
  · show m₁.handed.length ≤ _
    omega

/-- The loop of `clone_mm` over the regions. -/
theorem cloneRegions {p : Proc} {l : List Region} (hl : ∀ r ∈ l, r ∈ stackRegions) (hb : Bump m)
    (h : Owned m b role) (hlen : m.handed.length + 4 * l.length ≤ 1023) (hcr3 : m.cr3 = some p.cr3)
    (hp : role (frameOf p.cr3) = some .dir) (ha : Aligned pdir) (h0 : pdir ≠ 0)
    (hd : role (frameOf pdir) = some .dir) (hlow : Owned.LowPages role (frameOf pdir))
    (hk : ∀ r ∈ l, ∀ w ∈ rangePages r.begin r.size, ¬ KernelSlot m w)
    (hmp : ∀ r ∈ l, ∀ w ∈ rangePages r.begin r.size, Owned.Mapped m (frameOf p.cr3) w) :
    ∃ m', l.foldlM (fun m r => m.cloneRegion r pdir) m = .ok m' ∧ Bump m' ∧
      m'.handed.length ≤ m.handed.length + 4 * l.length := by
  induction l generalizing m role with
  | nil => exact ⟨m, rfl, hb, by omega⟩
  | cons r l ih =>
    rw [List.length_cons] at hlen ⊢
    have hr := hl r List.mem_cons_self
    obtain ⟨m₁, h₁, hb₁, hl₁⟩ := hb.cloneRegion h (by omega) hcr3 hp ha h0 hd hlow hr
      (hk r List.mem_cons_self) (hmp r List.mem_cons_self)
    obtain ⟨role₁, ho₁, hg₁⟩ := h.cloneRegion hcr3 hp ha h0 hd hlow hr h₁
    have hn₁ : m₁.nrValidPages = m.nrValidPages := by rw [hg₁.same]; rfl
    obtain ⟨m', hm', hb', hl'⟩ :=
      ih (fun x hx => hl x (List.mem_cons_of_mem _ hx)) hb₁ ho₁ (by omega)
      (by rw [hg₁.same]; exact hcr3) (hg₁.le _ _ hp) (hg₁.le _ _ hd)
      (fun f hf => (hg₁.pages rfl f hf).elim (hlow f) id)
      (fun x hx w hw => by
        unfold KernelSlot
        rw [hn₁]
        exact hk x (List.mem_cons_of_mem _ hx) w hw)
      (fun x hx w hw => hg₁.mapped h hp (hmp x (List.mem_cons_of_mem _ hx) w hw))
    refine ⟨m', ?_, hb', by omega⟩
    rw [List.foldlM_cons, h₁, Res.ok_bind, hm']

/-- **`fork` returns**, and takes ten chunks at most, where the stacks lie outside the straight
map. -/
theorem fork {i : Nat} {p : Proc} (hb : Bump m) (h : Spaces m b role A)
    (hlen : m.handed.length + 10 ≤ 1023) (hprocs : m.procs.length < nrProc)
    (hcur : m.pCurrent = some i) (hp : m.procs[i]? = some p)
    (hk : ∀ w ∈ stackPages, ¬ KernelSlot m w) :
    ∃ m', m.fork = .ok m' ∧ Bump m' ∧ m'.handed.length ≤ m.handed.length + 10 := by
  have htwo : stackRegions.length = 2 := rfl
  have hbind : (m.pCurrent.bind fun i => m.procs[i]?) = some p := by
    rw [hcur]
    exact hp
  obtain ⟨j, hj, -, hcr3, -, hpd⟩ := h.current hbind
  obtain rfl : i = j := Option.some.inj (hcur.symm.trans hj)
  have hmem := List.mem_of_getElem? hp
  obtain ⟨-, -, hpr⟩ := h.owned.procs p hmem
  obtain ⟨m₁, pdir, m₂, h₁, h₂, hb₂, hl₂⟩ := hb.newDir h.owned (by omega)
  obtain ⟨hnone, ha, h0, ho₂, hs₂⟩ := h.owned.newDir h₁ h₂
  obtain ⟨-, hold₂, -⟩ := h.view.newDir h.owned h₁ h₂
  have hle₂ : role.Le (role.assign (frameOf pdir) .dir) := Roles.le_assign hnone
  have hn₂ : m₂.nrValidPages = m.nrValidPages := by rw [hs₂]; rfl
  have hlow₂ := h.owned.lowPages_new hnone
  have hstack : ∀ r ∈ stackRegions, ∀ w ∈ rangePages r.begin r.size, w ∈ stackPages :=
    fun r hr w hw => List.mem_flatMap.mpr ⟨r, hr, hw⟩
  obtain ⟨m₃, h₃, hb₃, hl₃⟩ := hb₂.cloneRegions (p := p) (l := stackRegions) (fun _ hr => hr) ho₂
    (by rw [htwo]; omega) (by rw [hs₂]; exact hcr3) (hle₂ _ _ hpd) ha h0 Roles.assign_self
    hlow₂
    (fun r hr w hw => by
      unfold KernelSlot
      rw [hn₂]
      exact hk w (hstack r hr w hw))
    (fun r hr w hw => by
      have hkw := hk w (hstack r hr w hw)
      rw [h.owned.mapped_congr hpd hkw hold₂, h.pages i p hp w hkw]
      exact ⟨w, h.base i w (hstack r hr w hw), rfl, rfl⟩)
  obtain ⟨role₃, ho₃, hg₃⟩ := ho₂.cloneRegions (p := p) (by rw [hs₂]; exact hcr3)
    (hle₂ _ _ hpd) ha h0 Roles.assign_self hlow₂ (fun _ hr => hr) h₃
  rw [htwo] at hl₃
  have h₄ := hb₃.alloc .kernelStack (by omega)
  obtain ⟨hnone₄, hsa, hsl, ho₄, hs₄⟩ := ho₃.newStack h₄
  -- the frame of the parent's stack
  obtain ⟨s, hsa', hsl', htop, -⟩ := h.stack p hmem
  obtain ⟨m₅, h₅⟩ := Owned.memcpy_returns (n := frameWords)
    (bumpChunk m₃.handed.length + 0x1000 - 4 - 4 * 17) (p.stackTop - 4 * 17) ho₄
    (fun k hk => Owned.stack_words hsa hsl hk)
    (fun k hk => by
      rw [htop]
      exact (Owned.stack_words hsa' hsl' hk).1)
    (fun r hr => by rw [Roles.assign_self] at hr; obtain rfl := Option.some.inj hr; rfl)
  obtain ⟨-, pg, hs₅⟩ := ho₄.memcpy_scratch (fun k hk => Owned.stack_words hsa hsl hk)
    (fun r hr => by rw [Roles.assign_self] at hr; obtain rfl := Option.some.inj hr; rfl) h₅
  refine ⟨{ m₅ with procs := m₅.procs ++
    [⟨pdir, p.regions, bumpChunk m₃.handed.length + 0x1000 - 4⟩] }, ?_, ?_, ?_⟩
  · unfold Machine.fork
    rw [hbind]
    simp only
    rw [if_neg (by omega), h₁, Res.ok_bind]
    simp only
    rw [h₂, Res.ok_bind, hpr, h₃, Res.ok_bind, h₄, Res.ok_bind]
    simp only
    rw [h₅, Res.ok_bind]
  · refine (hb₃.granted .kernelStack (by omega)).congr ?_ ?_
    · show m₅.answers = _
      rw [hs₅]
      rfl
    · show m₅.handed = _
      rw [hs₅]
      rfl
  · show m₅.handed.length ≤ _
    rw [hs₅]
    show m₃.handed.length + 1 ≤ _
    omega

end Bump

/-! ## Loading -/

/-- A byte goes to a mapped address. -/
theorem storeByte_returns {c : UInt32} {x : UInt8} (hc : m.cr3 = some c)
    (hm : Owned.Mapped m (frameOf c) v) : ∃ m', m.storeByte v x = .ok m' := by
  obtain ⟨a, ha⟩ := translate_of_mapped hm
  refine ⟨m.setWord (frameOf a) (indexOf a) (setByte (m.peek a) (a.toNat % 4) x), ?_⟩
  unfold Machine.storeByte addr
  simp only [hc, ha, Res.ok_bind]

/-- `after_exec` writes to the kernel stack. -/
theorem Spaces.afterExec_returns {p : Proc} {e : UInt32} (h : Spaces m b role A)
    (hp : p ∈ m.procs) :
    ∃ m', m.afterExec p.stackTop e = .ok m' ∧ m' = { m with phys := m'.phys } := by
  obtain ⟨s, hsa, hsl, htop, -⟩ := h.stack p hp
  obtain ⟨c, -, hreach, -⟩ := h.owned.reaches
  unfold afterExec
  rw [htop, hreach.store (Owned.stack_words hsa hsl (i := 12) (by decide)).1]
  exact ⟨_, rfl, rfl⟩

end OwnOS.VarMem
