import OwnOS.VarMem.InitPaging

/-!
# The straight map

The comment on `initPaging` wants physical and virtual addresses to coincide from the begin of the
memory up to its end. Entry `j` of every table is frame `j`, so what the map does is
`v ↦ v % 4 MiB` (`KernelMap.translate`): the first 4 MiB are mapped straight and every further 4 MiB
are an alias of them. The identity holds exactly on machines with less than 8 MiB whose directory
and first table lie below 4 MiB (`straightMap_iff`).

* `reaches_low`: what is left of the straight map under any directory that keeps slot 0.
* `initPaging_total`: `initPaging` returns when the allocator has its chunks.
-/

namespace OwnOS.VarMem

open Lib Lib.Word

/-- The addresses below 4 MiB. -/
def low : Set UInt32 := {v | v.toNat < 0x400000}

/-- The words that map the addresses below 4 MiB: slot 0 of the directory `c` and the table `b`. -/
def lowWords (c b : UInt32) : Set (Nat × Fin 1024) := {x | x = (frameOf c, 0) ∨ x.1 = frameOf b}

/-- The address a straight table gives. -/
theorem straight_toNat (v : UInt32) :
    (caddrEntry (entryWord (UInt32.ofNat (tableIndex v) * 0x1000) systempage) +
      (v &&& 0xfff)).toNat = v.toNat % 0x400000 := by
  have hj : (tableIndex v).val = v.toNat % 0x400000 / 0x1000 := rfl
  have hj' : (UInt32.ofNat (tableIndex v)).toNat = (tableIndex v).val := by
    rw [UInt32.toNat_ofNat']
    exact Nat.mod_eq_of_lt (by omega)
  have h1 : (0x1000 : UInt32).toNat = 4096 := rfl
  have hs : systempage.toNat = 19 := rfl
  have hm : (UInt32.ofNat (tableIndex v) * 0x1000).toNat = (tableIndex v).val * 4096 := by
    rw [toNat_mul_of_lt (by rw [h1, hj']; omega), h1, hj']
  have hc : (caddrEntry (entryWord (UInt32.ofNat (tableIndex v) * 0x1000) systempage)).toNat =
      (tableIndex v).val * 4096 := by
    rw [caddrEntry_toNat, entryWord_toNat, hm, hs]
    omega
  rw [toNat_add_of_lt (by rw [hc, and_fff]; omega), hc, and_fff]
  omega

namespace Machine

variable {m m' : Machine} {K : Set (Nat × Fin 1024)} {S : Set UInt32} {g : UInt32 → UInt32}
  {b c v : UInt32}

/-- A directory slot with a straight table maps onto the first 4 MiB. -/
theorem translate_straight {t : UInt32}
    (hd : m.phys (frameOf c) (dirIndex v) = entryWord t systempage)
    (ht : m.phys (frameOf t) (tableIndex v) =
    entryWord (UInt32.ofNat (tableIndex v) * 0x1000) systempage) :
    m.translate c v = some (UInt32.ofNat (v.toNat % 0x400000)) := by
  unfold translate
  simp only [hd, isEntryExist_entryWord systempage_odd, if_true, frameOf_entryWord, ht]
  congr 1
  rw [← UInt32.toNat_inj, straight_toNat, UInt32.toNat_ofNat']
  exact (Nat.mod_eq_of_lt (by omega)).symm

/-- The first 4 MiB are reached straight as long as slot 0 and its table stay. -/
theorem reaches_low (hc : m.cr3 = some c) (hslot : m.phys (frameOf c) 0 = entryWord b systempage)
    (htab : ∀ j : Fin 1024, m.phys (frameOf b) j = entryWord (UInt32.ofNat j * 0x1000) systempage) :
    Reaches m (lowWords c b) low id := by
  intro m' ha v hv
  have hv' : v.toNat < 0x400000 := hv
  have hdi : dirIndex v = 0 := Fin.ext (Nat.div_eq_of_lt hv')
  have hslot' : m'.phys (frameOf c) (dirIndex v) = entryWord b systempage := by
    rw [hdi, ← hslot]
    exact ha.2 (frameOf c, 0) (Or.inl rfl)
  have hent : m'.phys (frameOf b) (tableIndex v) =
      entryWord (UInt32.ofNat (tableIndex v) * 0x1000) systempage := by
    rw [← htab]
    exact ha.2 (frameOf b, tableIndex v) (Or.inr rfl)
  unfold addr
  rw [ha.1, hc]
  simp only [translate_straight hslot' hent]
  rw [Nat.mod_eq_of_lt hv', UInt32.ofNat_toNat]
  rfl

theorem holds_low {a : UInt32} (h : Aligned a) (hlt : a.toNat < 0x400000) :
    Holds low id a (frameOf a) where
  aligned := h
  mem i hi := by
    show (entryAddr a i).toNat < 0x400000
    rw [entryAddr_toNat h hi]
    unfold Aligned at h
    omega
  frame _ hi := frameOf_entryAddr h hi
  index _ hi := indexOf_entryAddr h hi

/-- **`vir2phy`** of an address that is mapped. -/
theorem vir2phy_eq {d : UInt32} {fd ft : Nat} (hr : Reaches m K S g) (hd : Holds S g d fd)
    (hd0 : d ≠ 0) (heD : isEntryExist (m.phys fd (dirIndex v)) = true)
    (ht : Holds S g (caddrEntry (m.phys fd (dirIndex v))) ft)
    (heT : isEntryExist (m.phys ft (tableIndex v)) = true) :
    m.vir2phy v d = .ok (caddrEntry (m.phys ft (tableIndex v)) + (v &&& 0xfff)) := by
  unfold vir2phy
  simp only [if_neg hd0, Res.ok_bind, hd.load hr (dirIndex v).isLt, Fin.eta, heD, Bool.not_true,
    Bool.false_eq_true, if_false, ht.load hr (tableIndex v).isLt, heT]

/-! ## What the kernel map does -/

/-- **The kernel map** takes `v` to `v % 4 MiB`. -/
theorem kernelMap_translate (hmap : KernelMap m b) (hb : Aligned b)
    (hbound : b.toNat + m.nrValidPages * 4096 ≤ 4294967296)
    (hv : v.toNat < m.nrValidPages * 0x400000) :
    m.translate m.kPdir v = some (UInt32.ofNat (v.toNat % 0x400000)) := by
  have hi : (dirIndex v).val < m.nrValidPages := Nat.div_lt_of_lt_mul (by omega)
  have hd := hmap.dir (dirIndex v).val (dirIndex v).isLt hi
  refine translate_straight hd ?_
  rw [(chunk_frame hb hbound hi).2]
  exact hmap.tables _ hi _

/-- Between the straight map and the VRAM nothing is mapped. -/
theorem kernelMap_fault (hmap : KernelMap m b) (hcr3 : m.cr3 = some m.kPdir)
    (hlo : m.nrValidPages * 0x400000 ≤ v.toNat) (hhi : v.toNat < 0xe0000000) :
    m.load v = .error .fault := by
  have h1 : m.nrValidPages ≤ (dirIndex v).val := (Nat.le_div_iff_mul_le (by omega)).mpr hlo
  have h2 : (dirIndex v).val < 0x380 := Nat.div_lt_of_lt_mul (by omega)
  have hzero := hmap.gap (dirIndex v).val (dirIndex v).isLt h1 h2
  have hz : isEntryExist 0 = false := rfl
  unfold load addr translate
  simp only [hcr3, Fin.eta] at hzero ⊢
  simp only [hzero, hz, Bool.false_eq_true, if_false, Res.error_bind]

/-- Under the kernel's directory the first 4 MiB are reached straight. -/
theorem kernelMap_reaches (hmap : KernelMap m b) (hcr3 : m.cr3 = some m.kPdir)
    (hnr : 1 ≤ m.nrValidPages) : Reaches m (lowWords m.kPdir b) low id := by
  refine reaches_low hcr3 ?_ (hmap.tables 0 hnr)
  have h0 := hmap.dir 0 (by omega) hnr
  have hb : b + 0x1000 * UInt32.ofNat 0 = b := by simp
  rwa [hb] at h0

/-- The words of the kernel's directory and tables that map the memory. -/
def mapWords (m : Machine) (b : UInt32) : Set (Nat × Fin 1024) :=
  {x | x.1 = frameOf m.kPdir ∧ x.2.val < m.nrValidPages ∨ ∃ i < m.nrValidPages, x.1 = frameOf b + i}

/-- The whole map: every 4 MiB are an alias of the first. -/
theorem kernelMap_alias (hmap : KernelMap m b) (hcr3 : m.cr3 = some m.kPdir) (hb : Aligned b)
    (hbound : b.toNat + m.nrValidPages * 4096 ≤ 4294967296) :
    Reaches m (mapWords m b) {v | v.toNat < m.nrValidPages * 0x400000}
      fun v => UInt32.ofNat (v.toNat % 0x400000) := by
  intro m' ha v hv
  have hi : (dirIndex v).val < m.nrValidPages := Nat.div_lt_of_lt_mul (by
    have hv' : v.toNat < m.nrValidPages * 0x400000 := hv
    omega)
  have hframe := (chunk_frame hb hbound hi).2
  have hd : m'.phys (frameOf m.kPdir) (dirIndex v) =
      entryWord (b + 0x1000 * UInt32.ofNat (dirIndex v).val) systempage :=
    (ha.2 (frameOf m.kPdir, dirIndex v) (Or.inl ⟨rfl, hi⟩)).trans (hmap.dir _ (dirIndex v).isLt hi)
  have ht : m'.phys (frameOf (b + 0x1000 * UInt32.ofNat (dirIndex v).val)) (tableIndex v) =
      entryWord (UInt32.ofNat (tableIndex v) * 0x1000) systempage := by
    rw [hframe]
    exact (ha.2 (frameOf b + (dirIndex v).val, tableIndex v) (Or.inr ⟨_, hi, rfl⟩)).trans
      (hmap.tables _ hi _)
  unfold addr
  rw [ha.1, hcr3]
  simp only [translate_straight hd ht]

/-- A frame seen through the alias. -/
theorem holds_alias {a : UInt32} {n : Nat} (h : Aligned a) (hlt : a.toNat < n * 0x400000) :
    Holds {v | v.toNat < n * 0x400000} (fun v => UInt32.ofNat (v.toNat % 0x400000)) a
      (frameOf a % 1024) := by
  have hword : ∀ i < 1024, (UInt32.ofNat ((entryAddr a i).toNat % 0x400000)).toNat =
      a.toNat % 0x400000 + 4 * i := by
    intro i hi
    rw [UInt32.toNat_ofNat', Nat.mod_eq_of_lt (by omega), entryAddr_toNat h hi]
    unfold Aligned at h
    omega
  refine ⟨h, ?_, ?_, ?_⟩
  · intro i hi
    show (entryAddr a i).toNat < n * 0x400000
    rw [entryAddr_toNat h hi]
    unfold Aligned at h
    omega
  · intro i hi
    unfold frameOf
    rw [hword i hi]
    unfold Aligned at h
    omega
  · intro i hi
    refine Fin.ext ?_
    show (UInt32.ofNat ((entryAddr a i).toNat % 0x400000)).toNat % 4096 / 4 = i
    rw [hword i hi]
    unfold Aligned at h
    omega

/-- Building the map ends, if there is a chunk for the VRAM's table and there are 4 MiB to map. -/
theorem buildMap_total {m₀ : Machine} {pt : UInt32} (hc : Chunks m₀ pt b) (hoff : m₀.cr3 = none)
    (hdir : ⟨.pageDir, m₀.kPdir, 1⟩ ∈ m₀.handed)
    (htab : ⟨.kernelTable, b, m₀.nrValidPages⟩ ∈ m₀.handed) (hnr : 1 ≤ m₀.nrValidPages)
    (hnew : Grant.New ⟨.vramTable, m₀.answers .vramTable m₀.handed.length, 1⟩ m₀.handed) :
    ∃ m', m₀.buildMap pt b = .ok m' := by
  obtain ⟨m₃, hbuilt, heq⟩ := buildMap_eq hc hoff
  obtain ⟨m₄, h₄⟩ := mappingPmem_total hc hoff hbuilt hdir hnew
  have hlast : 0x3ff < 1024 := by omega
  obtain ⟨hmap, hsame⟩ := hbuilt.kernelMap (c := some m₀.kPdir) hc hoff hdir htab h₄ hlast
  obtain ⟨m₅, hm₅⟩ : ∃ m₅, m₅ = ({ m₄.setWord (frameOf m₀.kPdir) ⟨0x3ff, hlast⟩
    (entryWord v2ptable systempage) with cr3 := some m₀.kPdir } : Machine) := ⟨_, rfl⟩
  rw [← hm₅] at hmap
  have hoff₄ : m₄.cr3 = none := by rw [hsame]; exact hoff
  have hk : m₅.kPdir = m₀.kPdir := by rw [hm₅]; show m₄.kPdir = _; rw [hsame]
  have hn : m₅.nrValidPages = m₀.nrValidPages := by
    rw [hm₅]
    show m₄.nrValidPages = _
    rw [hsame]
    rfl
  -- the kernel's own code is mapped
  have h1 : (0x00100000 : UInt32).toNat = 0x100000 := rfl
  have hfetch := kernelMap_translate (v := 0x00100000) hmap hc.tables (by rw [hn]; exact hc.bound)
    (by rw [hn, h1]; omega)
  rw [heq, h₄, Res.ok_bind, (holds_off hc.dir).editEntry (reaches_off hoff₄) hlast
    (Set.notMem_empty _), Res.ok_bind]
  unfold pagingOn
  rw [← hm₅]
  refine ⟨m₅, ?_⟩
  have hcr3 : m₅.cr3 = some m₀.kPdir := by rw [hm₅]
  rw [hk] at hfetch
  unfold addr
  simp only [hcr3, hfetch]
  rfl

/-- `initPaging` returns, if the allocator has the four chunks and there are 4 MiB to map. -/
theorem initPaging_total {d pt t : UInt32} (hoff : m.cr3 = none)
    (hd : m.answers .pageDir m.handed.length = d)
    (hpt : m.answers .other (m.handed.length + 1) = pt)
    (hb : m.answers .kernelTable (m.handed.length + 2) = b)
    (ht : m.answers .vramTable (m.handed.length + 3) = t) (hnr : 1 ≤ m.nrValidPages)
    (hdnew : Grant.New ⟨.pageDir, d, 1⟩ m.handed)
    (hpnew : Grant.New ⟨.other, pt, 1⟩ (⟨.pageDir, d, 1⟩ :: m.handed))
    (hbnew : Grant.New ⟨.kernelTable, b, m.nrValidPages⟩
    (⟨.other, pt, 1⟩ :: ⟨.pageDir, d, 1⟩ :: m.handed))
    (htnew : Grant.New ⟨.vramTable, t, 1⟩
    (⟨.kernelTable, b, m.nrValidPages⟩ :: ⟨.other, pt, 1⟩ :: ⟨.pageDir, d, 1⟩ :: m.handed)) :
    ∃ m', m.initPaging = .ok m' := by
  have hc := chunks_of_new (l := ⟨.kernelTable, b, m.nrValidPages⟩ :: ⟨.other, pt, 1⟩ ::
    ⟨.pageDir, d, 1⟩ :: m.handed) hdnew hpnew hbnew
  subst hd hpt hb ht
  obtain ⟨m', hm'⟩ := buildMap_total hc hoff (by simp) List.mem_cons_self hnr htnew
  refine ⟨m', ?_⟩
  unfold initPaging
  rw [allocChunk_eq_ok.mpr ⟨hdnew, rfl⟩, Res.ok_bind]
  simp only
  rw [allocChunk_eq_ok.mpr ⟨hpnew, rfl⟩, Res.ok_bind]
  simp only
  rw [allocChunk_eq_ok.mpr ⟨hbnew, rfl⟩, Res.ok_bind]
  exact hm'

/-! ## The identity -/

/-- Virtual and physical addresses coincide below `mem_size / 4 MiB * 4 MiB`, for the paging unit
and for `vir2phy`. -/
def StraightMap (m : Machine) : Prop :=
  ∀ v : UInt32, v.toNat < m.nrValidPages * 0x400000 → m.addr v = .ok v ∧ m.vir2phy v m.kPdir = .ok v

/-- Less than 8 MiB of memory, and a directory that is not at NULL and a table below 4 MiB. -/
def LowMemory (m : Machine) : Prop :=
  m.memSize.toNat < 0x800000 ∧ m.answers .pageDir m.handed.length ≠ 0 ∧
    (m.answers .pageDir m.handed.length).toNat < 0x400000 ∧
    (m.answers .kernelTable (m.handed.length + 2)).toNat < 0x400000

theorem nrValidPages_eq (m : Machine) : m.nrValidPages = m.memSize.toNat / 0x400000 := by
  have h4 : dirEntrySize.toNat = 0x400000 := rfl
  unfold nrValidPages
  rw [UInt32.toNat_div, h4]

/-- An entry of a table above the straight map is not read: `vir2phy` faults. -/
theorem kernelMap_load_high (hmap : KernelMap m b) (hcr3 : m.cr3 = some m.kPdir)
    (hnr : m.nrValidPages ≤ 1) {a : UInt32} (ha : Aligned a) (hlo : 0x400000 ≤ a.toNat)
    (hhi : a.toNat < 0x800000) (i : Fin 1024) : m.load (entryAddr a i) = .error .fault := by
  have he := entryAddr_toNat ha i.isLt
  unfold Aligned at ha
  refine kernelMap_fault hmap hcr3 ?_ ?_
  · rw [he]
    omega
  · rw [he]
    omega

/-- **The straight map is the identity exactly in low memory.** The allocator hands out frames of
the memory, and no process exists yet. -/
theorem straightMap_iff (hoff : m.cr3 = none) (hcur : m.pCurrent = none)
    (hdir : m.answers .pageDir m.handed.length < m.memSize)
    (htab : m.answers .kernelTable (m.handed.length + 2) < m.memSize) (hr : m.initPaging = .ok m') :
    StraightMap m' ↔ LowMemory m := by
  obtain ⟨b, hb, hk, hmap, hka, hba, hnr, hbound, hsame, -, -, -, -⟩ := initPaging_spec hoff hr
  have hcr3 : m'.cr3 = some m'.kPdir := by rw [hsame]
  have hmem : m'.memSize = m.memSize := by rw [hsame]
  have hcur' : m'.pCurrent = none := by rw [hsame]; exact hcur
  have hn := nrValidPages_eq m'
  rw [hmem] at hn
  rw [hk, UInt32.lt_iff_toNat_lt] at hdir
  rw [hb, UInt32.lt_iff_toNat_lt] at htab
  have hreach := kernelMap_reaches hmap hcr3 hnr
  have hslot : m'.phys (frameOf m'.kPdir) ⟨0, by omega⟩ = entryWord b systempage := by
    have hb0 : b + 0x1000 * UInt32.ofNat 0 = b := by simp
    have h0 := hmap.dir 0 (by omega) hnr
    rwa [hb0] at h0
  have hcb : caddrEntry (entryWord b systempage) = b := caddrEntry_entryWord hba
  unfold LowMemory
  rw [hk, hb]
  constructor
  · intro hs
    -- address 4 MiB is mapped to 0
    have hone : m'.nrValidPages = 1 := by
      by_contra h
      have h4 : (0x400000 : UInt32).toNat = 0x400000 := rfl
      have hv : (0x400000 : UInt32).toNat < m'.nrValidPages * 0x400000 := by rw [h4]; omega
      have h0 := (hs 0x400000 hv).1
      unfold addr at h0
      simp only [hcr3, kernelMap_translate hmap hba hbound hv] at h0
      exact absurd (Except.ok.inj h0) (by decide)
    obtain ⟨-, hv2p⟩ := hs 0 (by rw [hone]; decide)
    have hne : m'.kPdir ≠ 0 := by
      intro h0
      unfold vir2phy at hv2p
      simp only [h0, if_true, hcur', Option.bind_none, Res.error_bind] at hv2p
      exact absurd hv2p (by rintro ⟨⟩)
    have hkl : m'.kPdir.toNat < 0x400000 := by
      by_contra hge
      unfold vir2phy at hv2p
      simp only [if_neg hne, Res.ok_bind, kernelMap_load_high hmap hcr3 hone.le hka (by omega)
        (by omega), Res.error_bind] at hv2p
      exact absurd hv2p (by rintro ⟨⟩)
    refine ⟨by omega, hne, hkl, ?_⟩
    by_contra hge
    have hD := (holds_low hka hkl).load hreach (i := 0) (by omega)
    have hz : dirIndex 0 = ⟨0, by omega⟩ := rfl
    unfold vir2phy at hv2p
    simp only [if_neg hne, Res.ok_bind, hz, hD, hslot, isEntryExist_entryWord systempage_odd,
      Bool.not_true, Bool.false_eq_true, if_false, hcb, kernelMap_load_high hmap hcr3 hone.le hba
      (show 0x400000 ≤ b.toNat by omega) (show b.toNat < 0x800000 by omega), Res.error_bind] at hv2p
    exact absurd hv2p (by rintro ⟨⟩)
  · rintro ⟨hms, hne, hkl, hbl⟩ v hv
    have hone : m'.nrValidPages = 1 := by omega
    have hv' : v.toNat < 0x400000 := by omega
    have hdi : dirIndex v = ⟨0, by omega⟩ := Fin.ext (Nat.div_eq_of_lt hv')
    refine ⟨hreach m' Agree.refl v hv', ?_⟩
    have hD : m'.phys (frameOf m'.kPdir) (dirIndex v) = entryWord b systempage := by rw [hdi, hslot]
    have hT : m'.phys (frameOf b) (tableIndex v) =
        entryWord (UInt32.ofNat (tableIndex v) * 0x1000) systempage := hmap.tables 0 hnr _
    have htable : Holds low id (caddrEntry (m'.phys (frameOf m'.kPdir) (dirIndex v)))
        (frameOf b) := by
      rw [hD, hcb]
      exact holds_low hba hbl
    rw [vir2phy_eq hreach (holds_low hka hkl) hne
      (by rw [hD]; exact isEntryExist_entryWord systempage_odd)
      htable (by rw [hT]; exact isEntryExist_entryWord systempage_odd), hT]
    congr 1
    rw [← UInt32.toNat_inj, straight_toNat, Nat.mod_eq_of_lt hv']

end Machine

open Machine

/-- A machine with cleared memory whose allocator answers with the first pages. -/
def bootMachine (memSize : UInt32) : Machine where
  phys _ _ := 0
  cr3 := none
  answers
    | .pageDir, _ => 0x1000
    | .other, _ => 0x2000
    | .kernelTable, _ => 0x3000
    | _, _ => 0x5000
  handed := []
  memSize := memSize
  kPdir := 0
  procs := []
  pCurrent := none

/-- With 4 MiB the map is straight. -/
theorem straightMap_4MiB : ∃ m', (bootMachine 0x400000).initPaging = .ok m' ∧ StraightMap m' := by
  obtain ⟨m', hr⟩ := initPaging_total (m := bootMachine 0x400000) rfl rfl rfl rfl rfl (by decide)
    (by decide) (by decide) (by decide) (by decide)
  refine ⟨m', hr, (straightMap_iff rfl rfl (by decide) (by decide) hr).mpr ?_⟩
  unfold LowMemory
  decide

/-- With 8 MiB the address 4 MiB is an alias of address 0. -/
theorem straightMap_fails : ∃ m', (bootMachine 0x800000).initPaging = .ok m' ∧
    (0x400000 : UInt32).toNat < m'.nrValidPages * 0x400000 ∧ m'.addr 0x400000 = .ok 0 ∧
    m'.vir2phy 0x400000 m'.kPdir = .ok 0 ∧ ¬ StraightMap m' := by
  obtain ⟨m', hr⟩ := initPaging_total (m := bootMachine 0x800000) rfl rfl rfl rfl rfl (by decide)
    (by decide) (by decide) (by decide) (by decide)
  obtain ⟨b, hb, hk, hmap, hka, hba, hnr, hbound, hsame, -, -, -, -⟩ := initPaging_spec rfl hr
  have hcr3 : m'.cr3 = some m'.kPdir := by rw [hsame]
  have hn : m'.nrValidPages = 2 := by
    rw [nrValidPages_eq, hsame]
    show (0x800000 : UInt32).toNat / 0x400000 = 2
    decide
  have hb' : b = 0x3000 := hb.symm
  have hk' : m'.kPdir = 0x1000 := hk.symm
  have hv : (0x400000 : UInt32).toNat < m'.nrValidPages * 0x400000 := by rw [hn]; decide
  have haddr : m'.addr 0x400000 = .ok 0 := by
    unfold addr
    simp only [hcr3, kernelMap_translate hmap hba hbound hv]
    rfl
  have hD : m'.phys (frameOf m'.kPdir) (dirIndex 0x400000) = entryWord 0x4000 systempage := by
    have h1 := hmap.dir 1 (by omega) (by omega)
    rw [hb'] at h1
    exact h1
  have hT : m'.phys (frameOf 0x4000) (tableIndex 0x400000) = entryWord 0 systempage := by
    have h1 := hmap.tables 1 (by omega) (tableIndex 0x400000)
    rw [hb'] at h1
    exact h1
  have htable : Holds low id (caddrEntry (m'.phys (frameOf m'.kPdir) (dirIndex 0x400000)))
      (frameOf 0x4000) := by
    have ha : Aligned 0x4000 := by unfold Aligned; decide
    rw [hD, caddrEntry_entryWord ha]
    exact holds_low ha (by decide)
  refine ⟨m', hr, hv, haddr, ?_, fun hs => ?_⟩
  · rw [vir2phy_eq (kernelMap_reaches hmap hcr3 hnr) (holds_low hka (by rw [hk']; decide))
      (by rw [hk']; decide) (by rw [hD]; rfl) htable (by rw [hT]; rfl), hT]
    rfl
  · have h := (hs 0x400000 hv).1
    rw [haddr] at h
    exact absurd (Except.ok.inj h) (by decide)

end OwnOS.VarMem
