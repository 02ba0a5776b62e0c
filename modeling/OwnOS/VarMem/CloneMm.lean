import OwnOS.VarMem.Fork
import OwnOS.VarMem.Space

/-!
# `clone_mm` duplicates the regions

`clone_mm` makes a directory, and for every region of the source it adds the region to the new list,
enables its pages and copies them through their physical addresses. The new directory grows by
chunks that are not in use (`Cloning`), so neither the source nor what was copied before is written
to.

* `fork_eq`: `fork` runs it.
* `cloneMm_copies`: what it leaves behind, for any list of regions.
* `cloneMm_straight`, `cloneMm_null`: where it falls short. The straight map of the source shows
  every frame, and `vir2phy` takes a directory at NULL for the one that runs.
-/

namespace OwnOS.VarMem

open Lib Lib.Word Machine

/-- `mm_struct`: the directory and the list of regions. -/
structure MmStruct where
  cr3 : UInt32
  regions : List Region
  deriving DecidableEq

namespace MmStruct

/-- `init` (`Process.cpp:12-15`) makes an empty list; `cr3` keeps what the memory held. -/
def init (cr3 : UInt32) : MmStruct := ⟨cr3, []⟩

/-- `add_region` (`Process.cpp:28-37`): at the end of the list. -/
def addRegion (mm : MmStruct) (region : Region) : MmStruct :=
  { mm with regions := mm.regions ++ [region] }

end MmStruct

/-- `clone_mm` (`task.cpp:127-150`). -/
def Machine.cloneMm (m : Machine) (srcMm destMm : MmStruct) : Res (Machine × MmStruct) := do
  let (m, pdir) ← m.allocChunk .pageDir 1
  let destMm := { destMm with cr3 := pdir }
  let m ← m.copyKernelDir pdir
  srcMm.regions.foldlM (fun (m, destMm) p => do
    let destMm := destMm.addRegion p
    let m ← m.cloneRegion p destMm.cr3
    .ok (m, destMm)) (m, destMm)

/-- The address lies in the region. -/
def Region.Mem (r : Region) (a : UInt32) : Prop :=
  r.begin.toNat ≤ a.toNat ∧ a.toNat < r.begin.toNat + r.size.toNat

/-- **What is cloned**: page-aligned regions below `0xfffff000` and outside the kernel's slots,
mapped in the address space at `c`, which runs; its tables and pages are in use. -/
structure Source (m : Machine) (c : UInt32) (rs : List Region) : Prop where
  cr3 : m.cr3 = some c
  aligned : ∀ r ∈ rs, Aligned r.begin ∧ Aligned r.size ∧ 0 < r.size.toNat
  below : ∀ r ∈ rs, r.begin.toNat + r.size.toNat ≤ 0xfffff000
  outside : ∀ r ∈ rs, ∀ a, r.Mem a → ¬ KernelSlot m a
  mapped : ∀ r ∈ rs, ∀ a, r.Mem a → ∃ p, m.translate c a = some p
  dir : frameOf c ∈ inUse m
  used : ∀ (n : Node) f, n.slot ∈ freeSlots m → layout m (frameOf c) n = some f → f ∈ inUse m

/-- **A kernel that can clone the regions**: it addresses its directory and the chunks it is given
directly. -/
structure Clonable (m : Machine) (K : Set (Nat × Fin 1024)) (R : Set UInt32) (c : UInt32)
    (rs : List Region) : Prop where
  kernel : KernelReady m K R
  source : Source m c rs
  dirs : Gives m .pageDir R
  tables : Gives m .pageTable R
  pages : Gives m .copied R

/-- **A duplicate**: the same regions, and every byte of them mapped in the new directory to a frame
that the source does not map at the addresses `V`, with the source's byte. At `V` the source is as
it was. -/
structure Duplicate (m m' : Machine) (c : UInt32) (V : Set UInt32) (srcMm destMm : MmStruct) :
    Prop where
  regions : destMm.regions = srcMm.regions
  copied : ∀ r ∈ srcMm.regions, ∀ a, r.Mem a → ∃ p q, m.translate c a = some p ∧
    m'.translate destMm.cr3 a = some q ∧ m'.byteAt q = m.byteAt p ∧
    ∀ v x, v ∈ V → m.translate c v = some x → frameOf x ≠ frameOf q
  source : ∀ v p, v ∈ V → m.translate c v = some p → m'.translate c v = some p ∧
    m'.byteAt p = m.byteAt p
  memory : ∀ f ∈ inUse m, m'.phys f = m.phys f
  same : m' = { m with phys := m'.phys, handed := m'.handed }

/-- The addresses outside the kernel's slots. -/
def ownAddrs (m : Machine) : Set UInt32 := {v | ¬ KernelSlot m v}

/-- The page of `w` under `D` holds what the page of `w` under `c` held in `m₀`. -/
def PageCopied (m₀ m : Machine) (c D : Nat) (w : UInt32) : Prop :=
  ∃ f f', layout m D (.page (dirIndex w) (tableIndex w)) = some f ∧
    layout m₀ c (.page (dirIndex w) (tableIndex w)) = some f' ∧ m.phys f = m₀.phys f'

/-- **A clone in progress**: outside the kernel's slots the new directory names only chunks that
were not in use before; what was in use is as it was. -/
structure Cloning (m₀ m : Machine) (K : Set (Nat × Fin 1024)) (R : Set UInt32) (pdir : UInt32) :
    Prop where
  same : m = { m₀ with phys := m.phys, handed := m.handed }
  space : Space m K R pdir (freeSlots m₀)
  new : frameOf pdir ∉ inUse m₀
  grows : inUse m₀ ⊆ inUse m
  untouched : ∀ f ∈ inUse m₀, m.phys f = m₀.phys f
  fresh : ∀ (n : Node) f, n.slot ∈ freeSlots m₀ → layout m (frameOf pdir) n = some f → f ∉ inUse m₀
  pages : ∀ i j e, i ∈ freeSlots m₀ → entry m (frameOf pdir) (.page i j) = some e →
    Reached R (caddrEntry e)

/-- What a step of the clone keeps: the pages of the new directory and those that were copied. -/
structure Keeps (m₀ m m' : Machine) (c : Nat) (pdir : UInt32) : Prop where
  layout : ∀ (n : Node) f, n.slot ∈ freeSlots m₀ → VarMem.layout m (frameOf pdir) n = some f →
    VarMem.layout m' (frameOf pdir) n = some f
  copied : ∀ w, dirIndex w ∈ freeSlots m₀ → PageCopied m₀ m c (frameOf pdir) w →
    PageCopied m₀ m' c (frameOf pdir) w

variable {m m₀ m₁ m' : Machine} {K : Set (Nat × Fin 1024)} {R : Set UInt32}
  {pdir type a e v w p : UInt32} {c d f : Nat} {use : Use} {ws : Set Node} {i j : Fin 1024}

/-- The list grows region by region. -/
theorem cloneMm_eq (srcMm destMm : MmStruct) : m.cloneMm srcMm destMm = (do
    let (m, pdir) ← m.allocChunk .pageDir 1
    let m ← m.copyKernelDir pdir
    let m ← srcMm.regions.foldlM (fun m p => m.cloneRegion p pdir) m
    .ok (m, ⟨pdir, destMm.regions ++ srcMm.regions⟩)) := by
  have hfold : ∀ (l : List Region) (m : Machine) (mm : MmStruct),
      l.foldlM (fun (m, destMm) p => do
        let destMm := destMm.addRegion p
        let m ← m.cloneRegion p destMm.cr3
        .ok (m, destMm)) (m, mm) = (do
        let m ← l.foldlM (fun m p => m.cloneRegion p mm.cr3) m
        .ok (m, (⟨mm.cr3, mm.regions ++ l⟩ : MmStruct)) : Res (Machine × MmStruct)) := by
    intro l
    induction l with
    | nil =>
      intro m mm
      rw [List.append_nil]
      rfl
    | cons r l ih =>
      intro m mm
      rw [List.foldlM_cons, List.foldlM_cons]
      cases hr : m.cloneRegion r mm.cr3 with
      | error e =>
        have hr' : m.cloneRegion r (mm.addRegion r).cr3 = .error e := hr
        simp only [hr', Res.error_bind]
      | ok m₁ =>
        have hr' : m.cloneRegion r (mm.addRegion r).cr3 = .ok m₁ := hr
        simp only [hr', Res.ok_bind, ih]
        simp [MmStruct.addRegion]
  unfold Machine.cloneMm
  cases ha : m.allocChunk .pageDir 1 with
  | error e => simp only [Res.error_bind]
  | ok x =>
    obtain ⟨m₁, pdir⟩ := x
    simp only [Res.ok_bind]
    cases hc : m₁.copyKernelDir pdir with
    | error e => simp only [Res.error_bind]
    | ok m₂ =>
      simp only [Res.ok_bind, hfold]

/-- The parts of a run. -/
theorem cloneMm_of_parts {srcMm : MmStruct} {m₂ : Machine} (x : UInt32)
    (ha : m.allocChunk .pageDir 1 = .ok (m₁, pdir)) (hc : m₁.copyKernelDir pdir = .ok m₂)
    (hf : srcMm.regions.foldlM (fun m p => m.cloneRegion p pdir) m₂ = .ok m') :
    m.cloneMm srcMm (MmStruct.init x) = .ok (m', ⟨pdir, srcMm.regions⟩) := by
  rw [cloneMm_eq, ha, Res.ok_bind]
  simp only [hc, Res.ok_bind, hf, MmStruct.init, List.nil_append]

/-- `fork` makes the address space of the child with `clone_mm`. -/
theorem fork_eq (cr3 : UInt32) : m.fork = (match m.pCurrent.bind fun i => m.procs[i]? with
    | none => .error .fault
    | some current =>
      if m.procs.length ≥ nrProc then .error .fault
      else do
        let (m, mm) ← m.cloneMm ⟨current.cr3, current.regions⟩ (MmStruct.init cr3)
        let (m, stack) ← m.allocChunk .kernelStack 1
        let stackTop := stack + 0x1000 - 4
        let m ← m.memcpy (stackTop - 4 * 17) (current.stackTop - 4 * 17) frameWords
        .ok { m with procs := m.procs ++ [⟨mm.cr3, mm.regions, stackTop⟩] }) := by
  unfold Machine.fork
  cases m.pCurrent.bind fun i => m.procs[i]? with
  | none => rfl
  | some current =>
    by_cases hl : m.procs.length ≥ nrProc
    · simp only [hl, if_true]
    · simp only [hl, if_false, cloneMm_eq]
      cases ha : m.allocChunk .pageDir 1 with
      | error e => simp only [Res.error_bind]
      | ok x =>
        obtain ⟨m₁, pdir⟩ := x
        simp only [Res.ok_bind]
        cases hc : m₁.copyKernelDir pdir with
        | error e => simp only [Res.error_bind]
        | ok m₂ =>
          simp only [Res.ok_bind]
          cases current.regions.foldlM (fun m p => m.cloneRegion p pdir) m₂ with
          | error e => simp only [Res.error_bind]
          | ok m₃ => simp only [Res.ok_bind, MmStruct.init, List.nil_append]

/-! ## One page -/

namespace Cloning

/-- A new directory. -/
theorem start (hn : NewDir m K R pdir) (ha : Added m₀ m pdir) : Cloning m₀ m K R pdir := by
  have hslots : freeSlots m = freeSlots m₀ := by rw [ha.same]; rfl
  have hnone : ∀ n : Node, n.slot ∈ freeSlots m₀ → layout m (frameOf pdir) n = none :=
    fun n hs => layout_eq_none.mpr (hn.empty n (hslots ▸ hs))
  have hnot : ∀ (n : Node) f, n.slot ∈ freeSlots m₀ → layout m (frameOf pdir) n ≠ some f := by
    intro n f hs hf
    rw [hnone n hs] at hf
    exact absurd hf (by simp)
  refine ⟨ha.same, ⟨hn.direct, hslots ▸ hn.dir, fun n f hs hf => absurd hf (hnot n f hs),
    fun n n' f hs _ hf => absurd hf (hnot n f hs), fun i j f hi hf => absurd hf
      (hnot (.page i j) f hi)⟩,
    ha.fresh, ha.grows, fun f hf => ?_, fun n f hs hf => absurd hf (hnot n f hs),
      fun i j e hi he => ?_⟩
  · exact ha.frames f fun e => ha.fresh (e ▸ hf)
  · rw [hn.empty (.page i j) (hslots ▸ hi)] at he
    exact absurd he (by simp)

/-- **`enableSpace`** on the new directory. -/
theorem enabled (h : Cloning m₀ m K R pdir) (he : Enabled .copied (frameOf pdir) type ws m m')
    (hws : ∀ n ∈ ws, n.slot ∈ freeSlots m₀) (htab : Gives m₀ .pageTable R)
    (hdata : Gives m₀ .copied R) :
    Cloning m₀ m' K R pdir ∧ Keeps m₀ m m' c pdir := by
  have htab' : Gives m .pageTable R := by
    rw [h.same]
    exact htab
  have hfresh : ∀ (n : Node) f, n.slot ∈ freeSlots m₀ → layout m' (frameOf pdir) n = some f →
      f ∉ inUse m₀ := by
    intro n f hs hf
    rcases he.extends_.cases hf with hm | hm
    · exact h.fresh n f hs hm
    · exact fun hu => (he.extends_.fresh n f hm hf).1 (h.grows hu)
  refine ⟨⟨?_, h.space.enabled he htab', h.new, h.grows.trans he.extends_.grows, ?_, hfresh, ?_⟩,
    fun n f _ hf => he.extends_.keeps n f hf, ?_⟩
  · rw [he.same, h.same]
  · intro f hf
    rcases he.frames f with hp | rfl | ⟨k, hk, hp⟩
    · rw [hp, h.untouched f hf]
    · exact absurd hf h.new
    · exact absurd hf (hfresh _ f (hws _ hk) hp)
  · intro i j e hi hn
    cases hm : entry m (frameOf pdir) (.page i j) with
    | some x =>
      obtain rfl : x = e := Option.some.inj ((he.kept _ x hm).symm.trans hn)
      exact h.pages i j x hi hm
    | none =>
      obtain ⟨k, hk⟩ := he.given _ e hm hn
      refine ⟨aligned_caddrEntry e, fun l hl => ?_⟩
      rw [hk, h.same]
      exact hdata k l hl
  · rintro w hw ⟨f, f', hf, hf', hp⟩
    exact ⟨f, f', he.extends_.keeps _ f hf, hf', (h.space.page_phys he hws hw hf).trans hp⟩

/-- A store into a page of the new directory. -/
theorem setPage (pg : Page) (h : Cloning m₀ m K R pdir) (hi : i ∈ freeSlots m₀)
    (hf : layout m (frameOf pdir) (.page i j) = some f) :
    Cloning m₀ (m.setPage f pg) K R pdir ∧ ∀ n : Node, n.slot ∈ freeSlots m₀ →
      entry (m.setPage f pg) (frameOf pdir) n = entry m (frameOf pdir) n := by
  obtain ⟨hsp, hentry⟩ := h.space.write hi hf (rfl : m.setPage f pg = _) fun y hy =>
    setPage_phys_of_ne hy
  refine ⟨⟨?_, hsp, h.new, h.grows, ?_, ?_, ?_⟩, hentry⟩
  · have hs := h.same
    rw [hs]
    rfl
  · intro x hx
    have hne : x ≠ f := fun e => h.fresh (.page i j) f hi hf (e ▸ hx)
    rw [setPage_phys_of_ne hne]
    exact h.untouched x hx
  · intro n x hn hx
    unfold layout at hx
    rw [hentry n hn] at hx
    exact h.fresh n x hn hx
  · intro k l e hk he
    rw [hentry (.page k l) hk] at he
    exact h.pages k l e hk he

/-- The copy of a page keeps the pages that were copied. -/
theorem keeps_setPage {f' : Nat} (h : Cloning m₀ m K R pdir) (hw : dirIndex w ∈ freeSlots m₀)
    (hf : layout m (frameOf pdir) (.page (dirIndex w) (tableIndex w)) = some f)
    (hf' : layout m₀ c (.page (dirIndex w) (tableIndex w)) = some f') :
    Keeps m₀ m (m.setPage f (m₀.phys f')) c pdir ∧
      PageCopied m₀ (m.setPage f (m₀.phys f')) c (frameOf pdir) w := by
  obtain ⟨-, hentry⟩ := h.setPage (m₀.phys f') hw hf
  have hlay : ∀ n : Node, n.slot ∈ freeSlots m₀ →
      layout (m.setPage f (m₀.phys f')) (frameOf pdir) n = layout m (frameOf pdir) n := by
    intro n hn
    unfold layout
    rw [hentry n hn]
  have hpage : ∀ u, dirIndex u ∈ freeSlots m₀ → layout (m.setPage f (m₀.phys f')) (frameOf pdir)
      (.page (dirIndex u) (tableIndex u)) =
        layout m (frameOf pdir) (.page (dirIndex u) (tableIndex u)) :=
    fun u hu => hlay (.page (dirIndex u) (tableIndex u)) hu
  refine ⟨⟨fun n x hn hx => (hlay n hn).trans hx, ?_⟩, f, f', (hpage w hw).trans hf,
    hf', setPage_phys_self⟩
  rintro u hu ⟨x, x', hx, hx', hp⟩
  refine ⟨x, x', (hpage u hu).trans hx, hx', ?_⟩
  by_cases hxf : x = f
  · -- the same frame is the same page
    subst hxf
    obtain ⟨hi, hj⟩ := Node.page.inj (h.space.inj (.page (dirIndex u) (tableIndex u))
      (.page (dirIndex w) (tableIndex w)) x hu hw hx hf)
    rw [hi, hj, hf'] at hx'
    obtain rfl := Option.some.inj hx'
    exact setPage_phys_self
  · rw [setPage_phys_of_ne hxf, hp]

/-- **One turn of the copy loop.** -/
theorem copyPage {c : UInt32} {rs : List Region} {f' : Nat} (h : Cloning m₀ m K R pdir)
    (h0 : pdir ≠ 0) (hs : Source m₀ c rs) (hal : Aligned w) (hw : dirIndex w ∈ freeSlots m₀)
    (hf : layout m (frameOf pdir) (.page (dirIndex w) (tableIndex w)) = some f)
    (hf' : layout m₀ (frameOf c) (.page (dirIndex w) (tableIndex w)) = some f') :
    ∃ phy, m.vir2phy w pdir = .ok phy ∧ m.memcpy phy w 1024 = .ok (m.setPage f (m₀.phys f')) := by
  obtain ⟨e, he, rfl⟩ := layout_eq_some.mp hf
  obtain ⟨h1, h2, rfl⟩ := entry_page.mp he
  obtain ⟨e', he', rfl⟩ := layout_eq_some.mp hf'
  obtain ⟨h1', h2', rfl⟩ := entry_page.mp he'
  have hreach := h.space.direct.reaches
  -- the new page, through its physical address
  have hdest : Holds R id _ _ := (h.pages _ _ _ hw he).holds
  rw [frameOf_caddrEntry] at hdest
  have hoff : w &&& 0xfff = 0 := UInt32.toNat_inj.mp ((and_fff w).trans hal)
  have hphy := vir2phy_eq hreach h.space.dir.reached.holds h0 h1 (h.space.dir.holds_table hw h1) h2
  rw [hoff, UInt32.add_zero] at hphy
  have hnew := h.fresh (.page (dirIndex w) (tableIndex w)) _ hw hf
  -- the page of the source, through the running directory
  have htab : frameOf (m₀.phys (frameOf c) (dirIndex w)) ∈ inUse m₀ :=
    hs.used (.table (dirIndex w)) _ hw (layout_eq_some.mpr ⟨_, entry_table.mpr ⟨h1', rfl⟩, rfl⟩)
  have hpage := hs.used (.page (dirIndex w) (tableIndex w)) _ hw hf'
  have hcD := h.untouched _ hs.dir
  have hcT := h.untouched _ htab
  have hmapped : Owned.Mapped m (frameOf c) w := by
    unfold Owned.Mapped
    rw [hcD, hcT]
    exact ⟨h1', h2'⟩
  have hcr : m.cr3 = some c := by
    rw [h.same]
    exact hs.cr3
  have hK' : ∀ i,
    (frameOf (m.phys (frameOf (m.phys (frameOf pdir) (dirIndex w))) (tableIndex w)), i) ∉
      pageWords m c w := by
    rintro i (hx | hx)
    · have hfr := (Prod.mk.inj hx).1
      rw [hfr] at hnew
      exact hnew hs.dir
    · have hfr := (Prod.mk.inj hx).1
      rw [hcD] at hfr
      rw [hfr] at hnew
      exact hnew htab
  refine ⟨_, hphy, ?_⟩
  rw [hdest.memcpy hreach (h.space.apart _ _ _ hw hf) (holds_page _ hal)
    (reaches_page hcr hmapped hal) hK', hcD, hcT, h.untouched _ hpage]

end Cloning

/-! ## The loops -/

theorem Keeps.refl : Keeps m₀ m m c pdir := ⟨fun _ _ _ h => h, fun _ _ h => h⟩

theorem Keeps.trans {m'' : Machine} (h : Keeps m₀ m m' c pdir) (h' : Keeps m₀ m' m'' c pdir) :
    Keeps m₀ m m'' c pdir :=
  ⟨fun n f hn hf => h'.layout n f hn (h.layout n f hn hf), fun w hw hc => h'.copied w
    hw (h.copied w hw hc)⟩

/-- The page of an address decides whether it is copied. -/
theorem PageCopied.congr {u : UInt32} {D : Nat} (h : PageCopied m₀ m c D w) (hp : SamePage u w) :
    PageCopied m₀ m c D u := by
  unfold PageCopied
  rw [hp.1, hp.2]
  exact h

/-- A region of whole pages has the pages of its range. -/
theorem Region.covers_iff {r : Region} (hb : Aligned r.begin) (hs : Aligned r.size) :
    Covers r.begin r.size a ↔ r.Mem a := by
  unfold Aligned at hb hs
  unfold Covers Region.Mem
  omega

/-- The pages of a region are those of its addresses. -/
theorem Region.page_iff {r : Region} (hb : Aligned r.begin) (hs : Aligned r.size)
    (hpos : 0 < r.size.toNat) (hbelow : r.begin.toNat + r.size.toNat ≤ 0xfffff000) :
    (∃ w ∈ rangePages r.begin r.size, SamePage a w) ↔ r.Mem a := by
  rw [← Region.covers_iff hb hs]
  unfold Aligned at hb hs
  exact mem_rangePages (by omega) (by omega)

namespace Cloning

/-- **The copy loop** copies the pages from `addr` on; `n` of them are left before `stop`. -/
theorem copyPages {c last : UInt32} {rs : List Region} {stop : Nat} (n fuel : Nat) (addr : UInt32)
    (h0 : pdir ≠ 0) (hs : Source m₀ c rs) (hlast : last.toNat + 4096 = stop)
    (hstop : stop ≤ 0xfffff000) (hfuel : n < fuel) (haddr : addr.toNat + 4096 * n = stop)
    (hal : Aligned addr) (h : Cloning m₀ m K R pdir)
    (hdst : ∀ u : UInt32, addr.toNat ≤ u.toNat → u.toNat < stop → dirIndex u ∈ freeSlots m₀ ∧
    (∃ f, layout m (frameOf pdir) (.page (dirIndex u) (tableIndex u)) = some f) ∧
    ∃ f, layout m₀ (frameOf c) (.page (dirIndex u) (tableIndex u)) = some f) :
    ∃ m', Machine.copyPages fuel m addr last pdir = .ok m' ∧ Cloning m₀ m' K R pdir ∧
      Keeps m₀ m m' (frameOf c) pdir ∧ ∀ u : UInt32, addr.toNat ≤ u.toNat → u.toNat < stop →
        PageCopied m₀ m' (frameOf c) (frameOf pdir) u := by
  induction n generalizing m addr fuel with
  | zero =>
    obtain ⟨fuel, rfl⟩ : ∃ k, fuel = k + 1 := ⟨fuel - 1, by omega⟩
    refine ⟨m, ?_, h, Keeps.refl, fun u h1 h2 => absurd h2 (by omega)⟩
    have hgt : ¬ addr ≤ last := by
      rw [UInt32.le_iff_toNat_le]
      omega
    rw [Machine.copyPages, if_neg hgt]
  | succ n ih =>
    obtain ⟨fuel, rfl⟩ : ∃ k, fuel = k + 1 := ⟨fuel - 1, by omega⟩
    have hle : addr ≤ last := by
      rw [UInt32.le_iff_toNat_le]
      omega
    have h4 : (0x1000 : UInt32).toNat = 4096 := rfl
    have hnext : (addr + 0x1000).toNat = addr.toNat + 4096 := by
      rw [toNat_add_of_lt (by omega), h4]
    obtain ⟨hfree, ⟨f, hf⟩, f', hf'⟩ := hdst addr le_rfl (by omega)
    obtain ⟨phy, hphy, hcopy⟩ := h.copyPage h0 hs hal hfree hf hf'
    obtain ⟨hk, hc⟩ := h.keeps_setPage hfree hf hf'
    obtain ⟨m', hm', hcl', hk', hc'⟩ := ih fuel (addr + 0x1000) (by omega) (by omega)
      (by unfold Aligned at hal ⊢; omega) (h.setPage (m₀.phys f') hfree hf).1 (fun u h1 h2 => by
        obtain ⟨hu, ⟨x, hx⟩, hx'⟩ := hdst u (by omega) h2
        exact ⟨hu, ⟨x, hk.layout (.page (dirIndex u) (tableIndex u)) x hu hx⟩, hx'⟩)
    refine ⟨m', ?_, hcl', hk.trans hk', fun u h1 h2 => ?_⟩
    · rw [Machine.copyPages, if_pos hle, hphy, Res.ok_bind, hcopy, Res.ok_bind, hm']
    · by_cases hu : (addr + 0x1000).toNat ≤ u.toNat
      · exact hc' u hu h2
      · -- the page that was copied in this turn
        refine (hk'.copied addr hfree hc).congr (samePage_iff.mpr ?_)
        unfold Aligned at hal
        omega

/-- **One region.** -/
theorem cloneRegion {c : UInt32} {rs : List Region} {r : Region} (h0 : pdir ≠ 0)
    (hs : Source m₀ c rs) (htab : Gives m₀ .pageTable R) (hdata : Gives m₀ .copied R) (hr : r ∈ rs)
    (h : Cloning m₀ m K R pdir) :
    m.cloneRegion r pdir = .error (.panic "PFAallocator::cannot allocate segment") ∨
      ∃ m', m.cloneRegion r pdir = .ok m' ∧ Cloning m₀ m' K R pdir ∧
      Keeps m₀ m m' (frameOf c) pdir ∧
        ∀ a, r.Mem a → PageCopied m₀ m' (frameOf c) (frameOf pdir) a := by
  obtain ⟨hb, hsz, hpos⟩ := hs.aligned r hr
  have hbelow := hs.below r hr
  have hrange : ∀ a, (∃ w ∈ rangePages r.begin r.size, SamePage a w) ↔ r.Mem a :=
    fun a => Region.page_iff hb hsz hpos hbelow
  unfold Aligned at hb hsz
  have hfree : ∀ a, r.Mem a → dirIndex a ∈ freeSlots m₀ := fun a ha => hs.outside r hr a ha
  have hpages : ∀ w ∈ rangePages r.begin r.size, dirIndex w ∈ freeSlots m₀ :=
    fun w hw => hfree w ((hrange w).mp ⟨w, hw, rfl, rfl⟩)
  have hnodes : ∀ n ∈ nodesOf (rangePages r.begin r.size), n.slot ∈ freeSlots m₀ := by
    rintro n ⟨w, hw, rfl | rfl⟩
    · exact hpages w hw
    · exact hpages w hw
  have htab' : Gives m .pageTable R := by
    rw [h.same]
    exact htab
  have htype : (if r.flags &&& regionSystem ≠ 0 then systempage else userpage).toNat % 2 = 1 := by
    split <;> rfl
  unfold Machine.cloneRegion
  simp only
  generalize (if r.flags &&& regionSystem ≠ 0 then systempage else userpage) = type at htype ⊢
  rcases h.space.dir.enableSpace h.space.direct hpages htab' htype with herr | ⟨m₁, hm₁, he⟩
  · left
    rw [herr, Res.error_bind]
  obtain ⟨h₁, hk₁⟩ := h.enabled (c := frameOf c) he hnodes htab hdata
  have h4 : (0x1000 : UInt32).toNat = 4096 := rfl
  have hend : (r.begin + r.size).toNat = r.begin.toNat + r.size.toNat := toNat_add_of_lt (by omega)
  have hlast : (r.begin + r.size - 0x1000).toNat + 4096 = r.begin.toNat + r.size.toNat := by
    rw [toNat_sub_of_le (by rw [h4, hend]; omega), hend, h4]
    omega
  obtain ⟨m', hm', h', hk', hc'⟩ := copyPages (r.size.toNat / 4096) 1048576 r.begin h0 hs hlast
      hbelow (by omega) (by omega) hb h₁ fun u h1 h2 => by
      refine ⟨hfree u ⟨h1, h2⟩, ?_, ?_⟩
      · exact he.extends_.defined _ (page_mem_nodesOf.mpr ((hrange u).mpr ⟨h1, h2⟩))
      · obtain ⟨p, hp⟩ := hs.mapped r hr u ⟨h1, h2⟩
        obtain ⟨f, hf, -⟩ := translate_iff.mp hp
        exact ⟨f, hf⟩
  refine Or.inr ⟨m', ?_, h', hk₁.trans hk', fun a ha => hc' a ha.1 ha.2⟩
  rw [hm₁, Res.ok_bind, hm']

/-- **All regions.** -/
theorem cloneRegions {c : UInt32} {rs l : List Region} (h0 : pdir ≠ 0)
    (hs : Source m₀ c rs) (htab : Gives m₀ .pageTable R) (hdata : Gives m₀ .copied R)
    (hl : ∀ r ∈ l, r ∈ rs) (h : Cloning m₀ m K R pdir) :
    l.foldlM (fun m r => m.cloneRegion r pdir) m =
      .error (.panic "PFAallocator::cannot allocate segment") ∨
      ∃ m', l.foldlM (fun m r => m.cloneRegion r pdir) m = .ok m' ∧ Cloning m₀ m' K R pdir ∧
        Keeps m₀ m m' (frameOf c) pdir ∧
        ∀ r ∈ l, ∀ a, r.Mem a → PageCopied m₀ m' (frameOf c) (frameOf pdir) a := by
  induction l generalizing m with
  | nil => exact Or.inr ⟨m, rfl, h, Keeps.refl, fun r hr => absurd hr List.not_mem_nil⟩
  | cons r l ih =>
    rw [List.foldlM_cons]
    have hr := hl r List.mem_cons_self
    rcases h.cloneRegion h0 hs htab hdata hr with herr | ⟨m₁, hm₁, h₁, hk₁, hc₁⟩
    · left
      rw [herr, Res.error_bind]
    · rw [hm₁, Res.ok_bind]
      rcases ih (fun x hx => hl x (List.mem_cons_of_mem _ hx)) h₁ with herr |
        ⟨m', hm', h', hk', hc'⟩
      · exact Or.inl herr
      · refine Or.inr ⟨m', hm', h', hk₁.trans hk', fun x hx a ha => ?_⟩
        rcases List.mem_cons.mp hx with rfl | hx
        · exact hk'.copied a (hs.outside x hr a ha) (hc₁ a ha)
        · exact hc' x hx a ha

end Cloning

/-- The new directory, with the pages copied, or the allocator has no chunk left. -/
theorem cloneMm_cloning {c : UInt32} (srcMm : MmStruct) (x : UInt32)
    (h : Clonable m K R c srcMm.regions) (hne : ∀ k, m.answers .pageDir k ≠ 0) :
    m.cloneMm srcMm (MmStruct.init x) = .error (.panic "PFAallocator::cannot allocate segment") ∨
      ∃ m' pdir, m.cloneMm srcMm (MmStruct.init x) = .ok (m', ⟨pdir, srcMm.regions⟩) ∧
        Cloning m m' K R pdir ∧ ∀ r ∈ srcMm.regions, ∀ a, r.Mem a →
          PageCopied m m' (frameOf c) (frameOf pdir) a := by
  by_cases hnew : Grant.New ⟨.pageDir, m.answers .pageDir m.handed.length, 1⟩ m.handed
  swap
  · left
    rw [cloneMm_eq, allocChunk_panics hnew, Res.error_bind]
  have ha := allocChunk_granted rfl hnew
  generalize hpd : m.answers .pageDir m.handed.length = pdir at ha hnew
  have hreached : Reached R pdir := ⟨hnew.1, fun i hi => hpd ▸ h.dirs _ i hi⟩
  have h0 : pdir ≠ 0 := hpd ▸ hne _
  obtain ⟨-, hc⟩ := h.kernel.newDir_eq hreached ha
  obtain ⟨hnd, hadd⟩ := h.kernel.newDir hreached ha hc
  rcases (Cloning.start hnd hadd).cloneRegions h0 h.source h.tables h.pages fun _ hr => hr with
    herr | ⟨m', hm', h', -, hcopied⟩
  · left
    rw [cloneMm_eq, ha, Res.ok_bind]
    simp only [hc, Res.ok_bind, herr, Res.error_bind]
  · exact Or.inr ⟨m', pdir, cloneMm_of_parts x ha hc hm', h', hcopied⟩

/-- A copied page is mapped, to a frame of its own. -/
theorem PageCopied.byteAt {c p : UInt32} (h : PageCopied m₀ m (frameOf c) (frameOf pdir) a)
    (hp : m₀.translate c a = some p) : ∃ q, m.translate pdir a = some q ∧ m.byteAt q = m₀.byteAt p ∧
      layout m (frameOf pdir) (.page (dirIndex a) (tableIndex a)) = some (frameOf q) := by
  obtain ⟨f, f', hf, hf', hphys⟩ := h
  obtain ⟨x, hx, hpv⟩ := translate_iff.mp hp
  rw [hf'] at hx
  obtain rfl := Option.some.inj hx
  obtain ⟨q, hq, hqv⟩ := translate_of_layout hf
  obtain ⟨hfq, -, -⟩ := place_of_toNat hqv
  exact ⟨q, hq, by rw [byteAt_eq hqv, byteAt_eq hpv, hphys], hfq ▸ hf⟩

/-- **`clone_mm` duplicates the recorded regions**, or the allocator has no chunk left. -/
theorem cloneMm_copies {c : UInt32} (srcMm : MmStruct) (x : UInt32)
    (h : Clonable m K R c srcMm.regions) (hne : ∀ k, m.answers .pageDir k ≠ 0) :
    m.cloneMm srcMm (MmStruct.init x) = .error (.panic "PFAallocator::cannot allocate segment") ∨
      ∃ m' destMm, m.cloneMm srcMm (MmStruct.init x) = .ok (m', destMm) ∧
        Duplicate m m' c (ownAddrs m) srcMm destMm := by
  have hs := h.source
  rcases cloneMm_cloning srcMm x h hne with herr | ⟨m', pdir, hm', h', hcopied⟩
  · exact Or.inl herr
  refine Or.inr ⟨m', ⟨pdir, srcMm.regions⟩, hm', rfl, ?_, ?_, h'.untouched, h'.same⟩
  · intro r hr a har
    obtain ⟨p, hp⟩ := hs.mapped r hr a har
    obtain ⟨q, hq, hb, hl⟩ := (hcopied r hr a har).byteAt hp
    refine ⟨p, q, hp, hq, hb, fun v x hk hv hfx => ?_⟩
    obtain ⟨z, hz, hxv⟩ := translate_iff.mp hv
    obtain ⟨hfz, -, -⟩ := place_of_toNat hxv
    -- a page of the source is in use
    have hu := hs.used (.page (dirIndex v) (tableIndex v)) z hk hz
    rw [← hfz, hfx] at hu
    exact h'.fresh (.page (dirIndex a) (tableIndex a)) _ (hs.outside r hr a har) hl hu
  · intro v p hk hv
    obtain ⟨f, hf, hpv⟩ := translate_iff.mp hv
    obtain ⟨e, he, rfl⟩ := layout_eq_some.mp hf
    obtain ⟨h1, h2, rfl⟩ := entry_page.mp he
    have hD := h'.untouched _ hs.dir
    have hT := h'.untouched _ (hs.used (.table (dirIndex v)) _ hk
      (layout_eq_some.mpr ⟨_, entry_table.mpr ⟨h1, rfl⟩, rfl⟩))
    have hP := h'.untouched _ (hs.used (.page (dirIndex v) (tableIndex v)) _ hk hf)
    refine ⟨?_, ?_⟩
    · rw [← hv]
      unfold Machine.translate
      simp only [hD, hT]
    · rw [byteAt_eq hpv, byteAt_eq hpv, hP]

/-! ## The stacks of a process -/

/-- The two stacks are regions as `clone_mm` wants them. -/
theorem stackRegions_pages {r : Region} (hr : r ∈ stackRegions) :
    (Aligned r.begin ∧ Aligned r.size ∧ 0 < r.size.toNat) ∧
      r.begin.toNat + r.size.toNat ≤ 0xfffff000 ∧ ∀ w ∈ rangePages r.begin r.size,
        w ∈ stackPages := by
  refine ⟨?_, ?_, fun w hw => List.mem_flatMap.mpr ⟨r, hr, hw⟩⟩
  · unfold Aligned
    simp only [stackRegions, List.mem_cons, List.not_mem_nil, or_false] at hr
    rcases hr with rfl | rfl
    · decide
    · decide
  · simp only [stackRegions, List.mem_cons, List.not_mem_nil, or_false] at hr
    rcases hr with rfl | rfl
    · decide
    · decide

/-- **Every process** can be cloned. -/
theorem Spaces.source {b : UInt32} {role : Roles} {A : Nat → List UInt32} {q : Proc}
    (h : Spaces m b role A) (hq : (m.pCurrent.bind fun i => m.procs[i]?) = some q)
    (hk : ∀ w ∈ stackPages, ¬ KernelSlot m w) :
    Source m q.cr3 stackRegions := by
  obtain ⟨hc, hsp⟩ := h.space hq
  obtain ⟨i, -, hi, -⟩ := h.current hq
  have hpage : ∀ r ∈ stackRegions, ∀ a, r.Mem a → ∃ w ∈ stackPages, SamePage a w := by
    intro r hr a ha
    obtain ⟨⟨h1, h2, h3⟩, h4, h5⟩ := stackRegions_pages hr
    obtain ⟨w, hw, hp⟩ := (Region.page_iff h1 h2 h3 h4).mpr ha
    exact ⟨w, h5 w hw, hp⟩
  have hout : ∀ r ∈ stackRegions, ∀ a, r.Mem a → ¬ KernelSlot m a := by
    intro r hr a ha hka
    obtain ⟨w, hw, hp⟩ := hpage r hr a ha
    exact hk w hw (hp.kernelSlot.mp hka)
  refine ⟨hc, fun r hr => (stackRegions_pages hr).1, fun r hr =>
    (stackRegions_pages hr).2.1, hout, ?_, hsp.dir.used, fun n f hn hf => (hsp.used n f hn hf).1⟩
  intro r hr a ha
  obtain ⟨w, hw, hp⟩ := hpage r hr a ha
  exact translate_of_mapped ((h.pages i q hi a (hout r hr a ha)).mpr ⟨w, h.base i w hw, hp⟩)

/-- A process that has been started is cloned. -/
theorem bump_cloneMm : ∃ m c b m' mm, Clonable m (lowWords c b) low c stackRegions ∧
    (∀ k, m.answers .pageDir k ≠ 0) ∧ m.cloneMm ⟨c, stackRegions⟩ (MmStruct.init 0) =
      .ok (m', mm) := by
  obtain ⟨-, m, p, b, role, -, -, hs, hb, hlen, hcur, hprocs, hn⟩ := bumpMachine_run
  have hp : m.procs[0]? = some p := by rw [hprocs]; rfl
  have hbind : (m.pCurrent.bind fun i => m.procs[i]?) = some p := by rw [hcur]; exact hp
  obtain ⟨hc, -⟩ := hs.space hbind
  obtain ⟨c, hc', hready⟩ := hs.owned.kernelReady
  obtain rfl : p.cr3 = c := Option.some.inj (hc.symm.trans hc')
  have hregions := (hs.owned.procs p (List.mem_of_getElem? hp)).2.2
  obtain ⟨m', hm', -⟩ := hb.fork hs (by omega) (by rw [hprocs]; show 1 < nrProc; decide) hcur hp
    (stackPages_apart hn)
  obtain ⟨m₁, pdir, m₂, m₃, -, -, -, h₁, h₂, h₃, -⟩ := fork_parts hcur hp hm'
  rw [hregions] at h₃
  refine ⟨m, p.cr3, b, m₃, ⟨pdir, stackRegions⟩,
    ⟨hready, hs.source hbind (stackPages_apart hn), hb.gives _,
    hb.gives _, hb.gives _⟩, hs.owned.lowFrames.dirs, cloneMm_of_parts 0 h₁ h₂ h₃⟩

/-- It is a duplicate. -/
theorem cloneMm_copies_stacks : ∃ (m : Machine) (c : UInt32) (m' : Machine) (mm : MmStruct),
    m.cloneMm ⟨c, stackRegions⟩ (MmStruct.init 0) = .ok (m', mm) ∧
      Duplicate m m' c (ownAddrs m) ⟨c, stackRegions⟩ mm := by
  obtain ⟨m, c, b, m', mm, h, hne, hm'⟩ := bump_cloneMm
  rcases cloneMm_copies ⟨c, stackRegions⟩ 0 h hne with herr | ⟨m₁, mm₁, hm₁, hd⟩
  · rw [hm'] at herr
    exact absurd herr (by simp)
  · exact ⟨m, c, m₁, mm₁, hm₁, hd⟩

/-- The straight map of the source shows the frames of the copy. -/
theorem cloneMm_straight : ∃ m c b m' mm, Clonable m (lowWords c b) low c stackRegions ∧
    (∀ k, m.answers .pageDir k ≠ 0) ∧
    m.cloneMm ⟨c, stackRegions⟩ (MmStruct.init 0) = .ok (m', mm) ∧
    ¬ Duplicate m m' c Set.univ ⟨c, stackRegions⟩ mm := by
  obtain ⟨m, c, b, m', mm, h, hne, hm'⟩ := bump_cloneMm
  refine ⟨m, c, b, m', mm, h, hne, hm', fun hd => ?_⟩
  rcases cloneMm_cloning ⟨c, stackRegions⟩ 0 h hne with herr | ⟨m₁, pdir, hm₁, h₁, -⟩
  · rw [hm'] at herr
    exact absurd herr (by simp)
  obtain ⟨rfl, rfl⟩ := Prod.mk.inj (Except.ok.inj (hm'.symm.trans hm₁))
  have hmem : Region.Mem ⟨0x40000000 - 0x2000, 0x2000, 0x6⟩ 0x3fffe000 := ⟨by decide, by decide⟩
  have hr : (⟨0x40000000 - 0x2000, 0x2000, 0x6⟩ : Region) ∈ stackRegions := List.mem_cons_self
  obtain ⟨p, q, -, hq, -, hsep⟩ := hd.copied _ hr _ hmem
  -- the frame of the copy lies below 4 MiB, where the source maps it straight
  obtain ⟨f, hf, hqv⟩ := translate_iff.mp hq
  obtain ⟨e, he, rfl⟩ := layout_eq_some.mp hf
  have hlow := (h₁.pages _ _ e (h.source.outside _ hr _ hmem) he).mem 0 (by decide)
  have hq' : m.addr (caddrEntry e) = .ok (caddrEntry e) := by
    have := h.kernel.direct.reaches m Agree.refl (entryAddr (caddrEntry e) 0) hlow
    simpa [entryAddr] using this
  have htr : m.translate c (caddrEntry e) = some (caddrEntry e) := by
    unfold Machine.addr at hq'
    simp only [h.source.cr3] at hq'
    split at hq'
    · rename_i x hx
      rw [hx, Except.ok.inj hq']
    · exact absurd hq' (by simp)
  refine hsep _ _ trivial htr ?_
  rw [frameOf_caddrEntry, (place_of_toNat hqv).1]

/-! ## A directory at NULL -/

/-- The region of one page. -/
def nullRegion : Region := ⟨0x40000000, 0x1000, 0x6⟩

/-- The chunks of an allocator that gives frame 0 for a directory. -/
def nullAnswer : Use → UInt32
  | .pageDir => 0
  | .pageTable => 0x8000
  | .copied => 0xa000
  | _ => 0xb000

/-- 4 MiB, a process with its directory in frame 4 and a page in frame 5. -/
def nullMachine : Machine where
  phys f i :=
    if f = 1 then if i = 0 then entryWord 0x2000 systempage else 0
    else if f = 2 then entryWord (UInt32.ofNat i * 0x1000) systempage
    else if f = 3 then if i = 0 then entryWord 0x5000 userpage else 0
    else if f = 4 then
      if i = 0 then entryWord 0x2000 systempage
      else if i = 0x100 then entryWord 0x3000 userpage else 0
    else if f = 5 then if i = 0 then 1 else 0
    else 0
  cr3 := some 0x4000
  answers use _ := nullAnswer use
  handed := []
  memSize := 0x400000
  kPdir := 0x1000
  procs := [⟨0x4000, [nullRegion], 0⟩]
  pCurrent := some 0

theorem nullMachine_inUse (h0 : 0 < f) (hf : f < 8) : f ∈ inUse nullMachine := by
  refine Or.inr fun use k _ => ?_
  have hne : frameOf (nullAnswer use) = 0 ∨ 8 ≤ frameOf (nullAnswer use) := by
    cases use <;> decide
  show frameOf (nullAnswer use) ≠ f
  omega

theorem nullMachine_gives (use : Use) : Gives nullMachine use low := by
  have ha : Aligned (nullAnswer use) := by
    unfold Aligned
    cases use <;> decide
  have hf : frameOf (nullAnswer use) < 1024 := by
    cases use <;> decide
  exact fun _ i hi => (Owned.holds_frame ha hf).mem i hi

theorem nullMachine_kernelSlot {i : Fin 1024} :
    IsKernelSlot nullMachine i ↔ i.val = 0 ∨ i.val = 0x380 := by
  have hn : nullMachine.nrValidPages = 1 := by decide
  unfold IsKernelSlot
  rw [hn]
  omega

theorem nullMachine_kernelReady : KernelReady nullMachine (lowWords 0x4000 0x2000) low := by
  have hslot : nullMachine.phys (frameOf 0x4000) 0 = entryWord 0x2000 systempage := rfl
  have htab : ∀ j : Fin 1024,
      nullMachine.phys (frameOf 0x2000) j = entryWord (UInt32.ofNat j * 0x1000) systempage :=
        fun _ => rfl
  refine ⟨⟨reaches_low rfl hslot htab, ?_, ?_⟩, ⟨by unfold Aligned; decide, ?_⟩,
    nullMachine_inUse (by decide) (by decide), ?_⟩
  · rintro ⟨f, i⟩ (hx | rfl)
    · obtain ⟨rfl, rfl⟩ := Prod.mk.inj hx
      exact isEntryExist_entryWord systempage_odd
    · exact isEntryExist_entryWord systempage_odd
  · rintro ⟨f, i⟩ (hx | rfl)
    · obtain ⟨rfl, -⟩ := Prod.mk.inj hx
      exact nullMachine_inUse (f := frameOf 0x4000) (by decide) (by decide)
    · exact nullMachine_inUse (f := frameOf 0x2000) (by decide) (by decide)
  · exact (Owned.holds_frame (by unfold Aligned; decide) (by decide)).mem
  · intro i _ hi
    have hphys : nullMachine.phys (frameOf nullMachine.kPdir) i =
        if i = 0 then entryWord 0x2000 systempage else 0 := rfl
    rw [hphys] at hi ⊢
    split
    · rw [frameOf_entryWord]
      exact nullMachine_inUse (by decide) (by decide)
    · rename_i hne
      rw [if_neg hne] at hi
      exact absurd hi (by decide)

/-- The directory outside the kernel's slots. -/
theorem nullMachine_slot {i : Fin 1024} (h0 : i ≠ 0) : nullMachine.phys (frameOf 0x4000) i =
    if i = 0x100 then entryWord 0x3000 userpage else 0 := by
  show (if i = 0 then entryWord 0x2000 systempage
    else if i = 0x100 then entryWord 0x3000 userpage else 0) = _
  rw [if_neg h0]

theorem nullMachine_page : layout nullMachine (frameOf 0x4000) (.page 0x100 0) = some 5 := by
  have h1 : nullMachine.phys (frameOf 0x4000) 0x100 = entryWord 0x3000 userpage := rfl
  refine layout_eq_some.mpr
    ⟨entryWord 0x5000 userpage, entry_page.mpr ⟨?_, ?_⟩, frameOf_entryWord _ _⟩
  · rw [h1]
    exact isEntryExist_entryWord rfl
  · rw [h1, frameOf_entryWord]
    exact ⟨isEntryExist_entryWord rfl, rfl⟩

theorem nullRegion_mem {r : Region} (hr : r ∈ [nullRegion]) (ha : r.Mem a) :
    dirIndex a = 0x100 ∧ tableIndex a = 0 := by
  obtain rfl := List.mem_singleton.mp hr
  obtain ⟨h1, h2⟩ := ha
  have hb : nullRegion.begin.toNat = 1073741824 := rfl
  have hs : nullRegion.size.toNat = 4096 := rfl
  rw [hb] at h1 h2
  rw [hs] at h2
  refine ⟨Fin.ext ?_, Fin.ext ?_⟩
  · show a.toNat / 0x400000 = 256
    omega
  · show a.toNat % 0x400000 / 0x1000 = 0
    omega

theorem nullMachine_source : Source nullMachine 0x4000 [nullRegion] where
  cr3 := rfl
  aligned r hr := by
    obtain rfl := List.mem_singleton.mp hr
    unfold Aligned
    decide
  below r hr := by
    obtain rfl := List.mem_singleton.mp hr
    decide
  outside r hr a ha hk := by
    obtain ⟨hd, -⟩ := nullRegion_mem hr ha
    have hk' : IsKernelSlot nullMachine (dirIndex a) := hk
    rw [hd, nullMachine_kernelSlot] at hk'
    exact absurd hk' (by decide)
  mapped r hr a ha := by
    obtain ⟨hd, ht⟩ := nullRegion_mem hr ha
    obtain ⟨p, hp, -⟩ := translate_of_layout (m := nullMachine) (c := 0x4000) (a := a) (f := 5)
      (by rw [hd, ht]; exact nullMachine_page)
    exact ⟨p, hp⟩
  dir := nullMachine_inUse (by decide) (by decide)
  used n f hn hf := by
    have htable : ∀ i e, i ∈ freeSlots nullMachine →
      entry nullMachine (frameOf 0x4000) (.table i) = some e →
        i = 0x100 ∧ frameOf e = 3 := by
      intro i e hi he
      obtain ⟨h1, rfl⟩ := entry_table.mp he
      have h0 : i ≠ 0 := by
        rintro rfl
        exact hi (nullMachine_kernelSlot.mpr (Or.inl rfl))
      rw [nullMachine_slot h0] at h1 ⊢
      split at h1
      · rename_i h100
        exact ⟨h100, by rw [if_pos h100]; exact frameOf_entryWord _ _⟩
      · exact absurd h1 (by decide)
    obtain ⟨e, he, rfl⟩ := layout_eq_some.mp hf
    cases n with
    | table i =>
      rw [(htable i e hn he).2]
      exact nullMachine_inUse (by decide) (by decide)
    | page i j =>
      obtain ⟨h1, h2, rfl⟩ := entry_page.mp he
      rw [(htable i _ hn (entry_table.mpr ⟨h1, rfl⟩)).2] at h2 ⊢
      have h3 : nullMachine.phys 3 j = if j = 0 then entryWord 0x5000 userpage else 0 := rfl
      rw [h3] at h2 ⊢
      split at h2
      · rename_i hj
        rw [if_pos hj, frameOf_entryWord]
        exact nullMachine_inUse (by decide) (by decide)
      · exact absurd h2 (by decide)

theorem nullMachine_clonable :
    Clonable nullMachine (lowWords 0x4000 0x2000) low 0x4000 [nullRegion] :=
  ⟨nullMachine_kernelReady, nullMachine_source, nullMachine_gives _, nullMachine_gives _,
    nullMachine_gives _⟩

/-- NULL stands for the directory of the running process. -/
theorem vir2phy_null {q : Proc} (hq : (m.pCurrent.bind fun i => m.procs[i]?) = some q)
    (h0 : q.cr3 ≠ 0) :
    m.vir2phy v 0 = m.vir2phy v q.cr3 := by
  unfold Machine.vir2phy
  simp only [if_true, if_neg h0, hq]

/-- **With a directory at NULL** the page of the source is copied onto itself. -/
theorem nullMachine_copyPages (fuel : Nat)
    (h : Cloning nullMachine m (lowWords 0x4000 0x2000) low 0) :
    Machine.copyPages (fuel + 2) m 0x40000000 0x40000000 0 = .ok m := by
  have hframe : ∀ f, 0 < f → f < 8 → m.phys f = nullMachine.phys f :=
    fun f h0 hf => h.untouched f (nullMachine_inUse h0 hf)
  have hreach := h.space.direct.reaches
  have h4 : m.phys (frameOf 0x4000) 0x100 = entryWord 0x3000 userpage := by
    rw [hframe _ (by decide) (by decide)]
    rfl
  have h3 : m.phys 3 0 = entryWord 0x5000 userpage := by
    rw [hframe _ (by decide) (by decide)]
    rfl
  have hd : dirIndex 0x40000000 = 0x100 := by decide
  have ht : tableIndex 0x40000000 = 0 := by decide
  have hf3 : frameOf (entryWord 0x3000 userpage) = 3 := frameOf_entryWord _ _
  have hdir : Holds low id 0x4000 (frameOf 0x4000) :=
    Owned.holds_frame (by unfold Aligned; decide) (by decide)
  have hcur : (m.pCurrent.bind fun i => m.procs[i]?) = some ⟨0x4000, [nullRegion], 0⟩ := by
    rw [h.same]
    rfl
  have hcr3 : m.cr3 = some 0x4000 := by
    rw [h.same]
    rfl
  have hmapped : Owned.Mapped m (frameOf 0x4000) 0x40000000 := by
    unfold Owned.Mapped
    rw [hd, ht, h4, hf3, h3]
    exact ⟨isEntryExist_entryWord rfl, isEntryExist_entryWord rfl⟩
  have htab : Holds low id (caddrEntry (m.phys (frameOf 0x4000) (dirIndex 0x40000000))) 3 := by
    rw [hd, h4, caddrEntry_entryWord (by unfold Aligned; decide)]
    exact Owned.holds_frame (by unfold Aligned; decide) (by decide)
  have hphy : m.vir2phy 0x40000000 0 = .ok 0x5000 := by
    have h2 := hmapped.2
    rw [hd, h4, hf3] at h2
    rw [vir2phy_null hcur (by decide), vir2phy_eq hreach hdir (by decide) hmapped.1 htab h2, ht, h3,
      caddrEntry_entryWord (by unfold Aligned; decide)]
    rfl
  have hal : Aligned 0x40000000 := by
    unfold Aligned
    decide
  have hpage : frameOf (m.phys (frameOf (m.phys (frameOf 0x4000) (dirIndex 0x40000000)))
      (tableIndex 0x40000000)) = 5 := by
    rw [hd, ht, h4, hf3, h3]
    exact frameOf_entryWord _ _
  have hcopy : m.memcpy 0x5000 0x40000000 1024 = .ok m := by
    have hdest : Holds low id 0x5000 5 := Owned.holds_frame (by unfold Aligned; decide) (by decide)
    rw [hdest.memcpy hreach ?_ (holds_page _ hal) (reaches_page hcr3 hmapped hal) ?_, hpage]
    · simp [Machine.setPage]
    · rintro i (hx | hx)
      · exact absurd (Prod.mk.inj hx).1 (by decide)
      · exact absurd (show 5 = frameOf 0x2000 from hx) (by decide)
    · rintro i (hx | hx)
      · exact absurd (Prod.mk.inj hx).1 (by decide)
      · rw [hd, h4, hf3] at hx
        exact absurd (Prod.mk.inj hx).1 (by decide)
  rw [Machine.copyPages, if_pos (by decide), hphy, Res.ok_bind, hcopy,
    Res.ok_bind, Machine.copyPages, if_neg (by decide)]

/-- The page of the copy keeps what its frame held. -/
theorem nullMachine_cloneMm : ∃ m',
    nullMachine.cloneMm ⟨0x4000, [nullRegion]⟩ (MmStruct.init 0) = .ok (m', ⟨0, [nullRegion]⟩) ∧
      layout m' (frameOf 0) (.page 0x100 0) = some 10 ∧ m'.phys 10 = fun _ => 0 := by
  have hready := nullMachine_kernelReady
  have ha : nullMachine.allocChunk .pageDir 1 = .ok (nullMachine.granted .pageDir 0 1, 0) :=
    allocChunk_granted rfl (by decide)
  have hreached : Reached low 0 := ⟨rfl, nullMachine_gives .pageDir 0⟩
  obtain ⟨-, hc⟩ := hready.newDir_eq hreached ha
  obtain ⟨hnd, hadd⟩ := hready.newDir hreached ha hc
  have hcl := Cloning.start hnd hadd
  generalize hm₂ : (nullMachine.granted .pageDir 0 1).setPage (frameOf 0)
    (kernelSlots nullMachine.nrValidPages (nullMachine.phys (frameOf nullMachine.kPdir))) =
      m₂ at hc hnd hadd hcl
  have hd : dirIndex 0x40000000 = 0x100 := by decide
  have ht : tableIndex 0x40000000 = 0 := by decide
  have hfree : (0x100 : Fin 1024) ∈ freeSlots nullMachine := by
    intro hk
    exact absurd (nullMachine_kernelSlot.mp hk) (by decide)
  have habs : isEntryExist (m₂.phys (frameOf 0) (dirIndex 0x40000000)) = false := by
    rw [← hm₂, setPage_phys_self]
    decide
  have hanswers : m₂.answers = nullMachine.answers := by rw [← hm₂]; rfl
  have hhanded : m₂.handed = [⟨.pageDir, 0, 1⟩] := by rw [← hm₂]; rfl
  have htnew : Grant.New ⟨.pageTable, 0x8000, 1⟩ m₂.handed := by
    rw [hhanded]
    decide
  have hsnew : Grant.New ⟨.copied, 0xa000, 1⟩ (⟨.pageTable, 0x8000, 1⟩ :: m₂.handed) := by
    rw [hhanded]
    decide
  have hta : m₂.answers .pageTable m₂.handed.length = 0x8000 := by rw [hanswers]; rfl
  have hsa : m₂.answers .copied (m₂.handed.length + 1) = 0xa000 := by rw [hanswers]; rfl
  have hfresh := not_inUse_of_new hta htnew (by omega)
  have htab : Holds low id 0x8000 (frameOf 0x8000) :=
    Owned.holds_frame (by unfold Aligned; decide) (by decide)
  obtain ⟨m₃, hm₃⟩ : ∃ m₃, m₃ =
    m₂.mapNew (frameOf 0) (frameOf 0x8000) 0x40000000 0x8000 0xa000 userpage .copied := ⟨_, rfl⟩
  have hpage : m₂.enablePage 0x40000000 0 userpage .copied = .ok m₃ := by
    rw [hm₃]
    exact hreached.holds.enablePage_new hnd.direct.reaches habs
      (hnd.direct.not_mem_of_absent habs) hta htnew
      htab (hnd.direct.not_mem_of_new hfresh) hsa hsnew
  have he : Enabled .copied (frameOf 0) userpage (nodes 0x40000000) m₂ m₃ := by
    rw [hm₃]
    exact hnd.dir.enabled_new rfl habs hta htnew hsa hsnew
  have hcl' := (hcl.enabled (c := 0) he (by
    rintro n (rfl | rfl)
    · exact hd ▸ hfree
    · exact hd ▸ hfree) (nullMachine_gives _) (nullMachine_gives _)).1
  have hspace : m₂.enableSpace nullRegion.begin nullRegion.size 0 userpage .copied = .ok m₃ := by
    have hnum : pageNum nullRegion.begin nullRegion.size = 1 := by decide
    have hat : pageAt nullRegion.begin 0 = 0x40000000 := by decide
    rw [enableSpace_eq, hnum, loop, loop]
    simp only [hat]
    exact hpage
  have hregion : m₂.cloneRegion nullRegion 0 = .ok m₃ := by
    have htype : (if nullRegion.flags &&& regionSystem ≠ 0 then systempage else userpage) =
        userpage := by
      decide
    have hlast : nullRegion.begin + nullRegion.size - 0x1000 = 0x40000000 := by decide
    unfold Machine.cloneRegion
    simp only [htype, hlast, hspace, Res.ok_bind]
    exact nullMachine_copyPages 1048574 hcl'
  refine ⟨m₃, ?_, ?_, ?_⟩
  · refine cloneMm_of_parts 0 ha hc ?_
    rw [List.foldlM_cons, hregion, Res.ok_bind, List.foldlM_nil, Res.pure_eq]
  · have hslot : m₃.phys (frameOf 0) 0x100 = entryWord 0x8000 userpage := by
      rw [hm₃, Machine.mapNew, setPage_phys_of_ne (by decide), granted_phys, hd]
      exact setWord_phys_self
    have hent : m₃.phys (frameOf 0x8000) 0 = entryWord 0xa000 userpage := by
      rw [hm₃, Machine.mapNew, setPage_phys_self, ht, Function.update_self]
    refine layout_eq_some.mpr
      ⟨entryWord 0xa000 userpage, entry_page.mpr ⟨?_, ?_⟩, frameOf_entryWord _ _⟩
    · rw [hslot]
      exact isEntryExist_entryWord rfl
    · rw [hslot, frameOf_entryWord, hent]
      exact ⟨isEntryExist_entryWord rfl, rfl⟩
  · have hne : (10 : Nat) ≠ frameOf 0 := by decide
    have h10 : m₃.phys 10 = m₂.phys 10 := by
      rw [hm₃, Machine.mapNew, setPage_phys_of_ne (by decide), granted_phys, setWord_phys_of_ne hne,
        granted_phys]
    rw [h10, hadd.frames 10 (by decide)]
    rfl

/-- **Where `clone_mm` makes no duplicate**: the straight map of the source shows the frames of the
copy; and with a directory at NULL nothing is copied. -/
theorem cloneMm_not_duplicate :
    (∃ m c b m' mm, Clonable m (lowWords c b) low c stackRegions ∧ (∀ k, m.answers .pageDir k ≠ 0) ∧
      m.cloneMm ⟨c, stackRegions⟩ (MmStruct.init 0) = .ok (m', mm) ∧
      ¬ Duplicate m m' c Set.univ ⟨c, stackRegions⟩ mm) ∧
    ∃ m c b m' mm, Clonable m (lowWords c b) low c [nullRegion] ∧
      m.cloneMm ⟨c, [nullRegion]⟩ (MmStruct.init 0) = .ok (m', mm) ∧
      ¬ Duplicate m m' c (ownAddrs m) ⟨c, [nullRegion]⟩ mm := by
  refine ⟨cloneMm_straight, ?_⟩
  obtain ⟨m', hm', hl, h10⟩ := nullMachine_cloneMm
  refine ⟨nullMachine, 0x4000, 0x2000, m', _, nullMachine_clonable, hm', fun hd => ?_⟩
  obtain ⟨p, q, hp, hq, hb, -⟩ := hd.copied nullRegion (List.mem_singleton_self _) 0x40000000
    ⟨by decide, by decide⟩
  obtain ⟨f, hf, hpv⟩ := translate_iff.mp hp
  obtain ⟨g, hg, hqv⟩ := translate_iff.mp hq
  obtain rfl : 5 = f := Option.some.inj (nullMachine_page.symm.trans hf)
  obtain rfl : 10 = g := Option.some.inj (hl.symm.trans hg)
  rw [byteAt_eq hqv, byteAt_eq hpv, h10] at hb
  exact absurd hb (by decide)

end OwnOS.VarMem
