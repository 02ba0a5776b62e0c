import OwnOS.VarMem.Access

/-!
# `initPaging`: the map the kernel builds

`KernelMap m b` says what `initPaging` leaves in the kernel's directory: slot `i` below
`mem_size / 4 MiB` points at the `i`-th of the tables from `b` on, the slots above are empty up to
the one for the VRAM, and every entry is a system page. Entry `j` of *each* table is the frame `j`:
the inner loop (`VarMem.cpp:54-56`) writes `j*0x1000` without the base of the table.
-/

namespace OwnOS.VarMem

open Lib Lib.Word

/-- The frames of an answer of `allocChunk`. -/
def Grant.frames (g : Grant) : Set Nat := Set.Ico (frameOf g.addr) (frameOf g.addr + g.num)

/-- Every chunk was new when it was handed out. -/
def Fresh : List Grant → Prop
  | [] => True
  | g :: l => g.New l ∧ Fresh l

/-- What `initPaging` leaves. -/
structure KernelMap (m : Machine) (b : UInt32) : Prop where
  dir : ∀ i (hi : i < 1024), i < m.nrValidPages →
    m.phys (frameOf m.kPdir) ⟨i, hi⟩ = entryWord (b + 0x1000 * UInt32.ofNat i) systempage
  gap : ∀ i (hi : i < 1024), m.nrValidPages ≤ i → i < 0x380 → m.phys (frameOf m.kPdir) ⟨i, hi⟩ = 0
  high : ∀ i (hi : i < 1024), m.nrValidPages ≤ i → 0x380 < i → i < 0x3ff →
    m.phys (frameOf m.kPdir) ⟨i, hi⟩ = 0
  last : m.phys (frameOf m.kPdir) 0x3ff = entryWord v2ptable systempage
  vram : ∃ t, m.phys (frameOf m.kPdir) 0x380 = entryWord t systempage ∧
    ∃ g ∈ m.handed, (g.use = .kernelTable ∨ g.use = .vramTable) ∧ frameOf t ∈ g.frames
  vramEnd : m.nrValidPages ≤ 0x380 → ∀ j : Fin 1024, 512 ≤ j.val →
    m.phys (frameOf (m.phys (frameOf m.kPdir) 0x380)) j = 0
  tables : ∀ i < m.nrValidPages, ∀ j : Fin 1024,
    m.phys (frameOf b + i) j = entryWord (UInt32.ofNat j * 0x1000) systempage
  dirGrant : ⟨.pageDir, m.kPdir, 1⟩ ∈ m.handed
  tableGrant : ⟨.kernelTable, b, m.nrValidPages⟩ ∈ m.handed

/-- A chunk that is an answer the allocator gave, as large as the kernel asks for. -/
def Machine.Answered (m : Machine) (g : Grant) : Prop :=
  (∃ k < m.handed.length, m.answers g.use k = g.addr) ∧
    (g.num = 1 ∨ g.use = .kernelTable ∧ g.num = m.nrValidPages)

theorem Grant.Apart.not_mem {g g' : Grant} (h : g.Apart g') {f : Nat} (hf : f ∈ g.frames) :
    f ∉ g'.frames := by
  rintro ⟨h1, h2⟩
  obtain ⟨h3, h4⟩ := hf
  unfold frameOf at h1 h2 h3 h4
  rcases h with h | h
  · omega
  · omega

theorem frame_mem {use : Use} {a : UInt32} {n : Nat} (h : 0 < n) :
    frameOf a ∈ Grant.frames ⟨use, a, n⟩ := ⟨Nat.le_refl _, Nat.lt_add_of_pos_right h⟩

theorem nrValidPages_lt (m : Machine) : m.nrValidPages < 1024 := by
  have h := toNat_lt m.memSize
  have h4 : dirEntrySize.toNat = 0x400000 := rfl
  unfold Machine.nrValidPages
  rw [UInt32.toNat_div, h4]
  omega

/-- The `i`-th frame of a chunk. -/
theorem chunk_frame {b : UInt32} {n i : Nat} (hb : Aligned b)
    (hbound : b.toNat + n * 4096 ≤ 4294967296) (hi : i < n) :
    Aligned (b + 0x1000 * UInt32.ofNat i) ∧
      frameOf (b + 0x1000 * UInt32.ofNat i) = frameOf b + i := by
  have h1 : (0x1000 : UInt32).toNat = 4096 := rfl
  have hi' : (UInt32.ofNat i).toNat = i := by
    rw [UInt32.toNat_ofNat']
    exact Nat.mod_eq_of_lt (by omega)
  have hm : (0x1000 * UInt32.ofNat i).toNat = 4096 * i := by
    rw [toNat_mul_of_lt (by rw [h1, hi']; omega), h1, hi']
  have hs : (b + 0x1000 * UInt32.ofNat i).toNat = b.toNat + 4096 * i := by
    rw [toNat_add_of_lt (by rw [hm]; omega), hm]
  unfold Aligned at hb ⊢
  unfold frameOf
  rw [hs]
  omega

namespace Machine

variable {m m' : Machine} {K : Set (Nat × Fin 1024)} {S : Set UInt32} {g : UInt32 → UInt32}

/-! ## `tableOf` -/

theorem Holds.tableOf_present {pdir type : UInt32} {use : Use} {fd i : Nat} (hh : Holds S g pdir fd)
    (h : Reaches m K S g) (hi : i < 1024) (he : isEntryExist (m.phys fd ⟨i, hi⟩) = true) :
    m.tableOf (entryAddr pdir i) type use = .ok (m, caddrEntry (m.phys fd ⟨i, hi⟩)) := by
  unfold tableOf
  simp only [hh.load h hi, Res.ok_bind, he, Bool.not_true, Bool.false_eq_true, if_false]

/-- `allocChunk` returns a new chunk, and changes nothing but the record. -/
theorem allocChunk_eq_ok {use : Use} {num : Nat} {r : Machine × UInt32} :
    m.allocChunk use num = .ok r ↔
      Grant.New ⟨use, m.answers use m.handed.length, num⟩ m.handed ∧
      r = ({ m with handed := ⟨use, m.answers use m.handed.length, num⟩ :: m.handed },
        m.answers use m.handed.length) := by
  unfold allocChunk
  simp only
  split
  · rename_i hnew
    constructor
    · intro h
      exact ⟨hnew, (Except.ok.inj h).symm⟩
    · rintro ⟨-, rfl⟩
      rfl
  · rename_i hnew
    constructor
    · intro h
      exact absurd h (by simp)
    · rintro ⟨h, -⟩
      exact absurd h hnew

/-- The machine after `allocChunk` handed out `a`. -/
def granted (m : Machine) (use : Use) (a : UInt32) (num : Nat) : Machine :=
  { m with handed := ⟨use, a, num⟩ :: m.handed }

theorem Holds.tableOf_absent {pdir type t : UInt32} {use : Use} {fd ft i : Nat}
    (hh : Holds S g pdir fd) (h : Reaches m K S g) (hi : i < 1024)
    (he : isEntryExist (m.phys fd ⟨i, hi⟩) = false) (hans : m.answers use m.handed.length = t)
    (hnew : Grant.New ⟨use, t, 1⟩ m.handed) (ht : Holds S g t ft) (hKd : (fd, ⟨i, hi⟩) ∉ K)
    (hKt : ∀ j, (ft, j) ∉ K) :
    m.tableOf (entryAddr pdir i) type use =
      .ok (((m.granted use t 1).setWord fd ⟨i, hi⟩ (entryWord t type)).setPage ft
        fun _ => 0, t) := by
  have h1 : Reaches (m.granted use t 1) K S g := h.of_agree ⟨rfl, fun _ _ => rfl⟩
  have h2 := h1.of_agree (agree_setWord (w := entryWord t type) hKd)
  have halloc : m.allocChunk use 1 = .ok (m.granted use t 1, t) :=
    allocChunk_eq_ok.mpr ⟨by rw [hans]; exact hnew, by rw [hans]; rfl⟩
  unfold tableOf
  simp only [hh.load h hi, Res.ok_bind, he, Bool.not_false, if_true, halloc]
  rw [hh.editEntry h1 hi hKd, Res.ok_bind, ht.disableAllEntry h2 hKt, Res.ok_bind]

/-! ## A turn of `mapping_pmem` -/

section Turn

variable {pdir type phy v w p t : UInt32} {fd ft k : Nat}

/-- The table is there: an entry is written unless the page has one. -/
theorem Holds.mapPmemPage_table (hd : Holds S g pdir fd) (hr : Reaches m K S g)
    (hw : v + UInt32.ofNat k * 0x1000 = w) (hp : phy + UInt32.ofNat k * 0x1000 = p)
    (heD : isEntryExist (m.phys fd (dirIndex w)) = true)
    (ht : Holds S g (caddrEntry (m.phys fd (dirIndex w))) ft)
    (hK : isEntryExist (m.phys ft (tableIndex w)) = false → (ft, tableIndex w) ∉ K) :
    mapPmemPage phy v pdir type k m = .ok (if isEntryExist (m.phys ft (tableIndex w)) then m
      else m.setWord ft (tableIndex w) (entryWord p type)) := by
  unfold mapPmemPage
  simp only [hw, hp]
  rw [hd.tableOf_present hr (dirIndex w).isLt heD, Res.ok_bind]
  simp only [Fin.eta]
  rw [ht.load hr (tableIndex w).isLt, Res.ok_bind]
  simp only [Fin.eta]
  cases heT : isEntryExist (m.phys ft (tableIndex w)) with
  | true => simp only [Bool.not_true, Bool.false_eq_true, if_false, if_true]
  | false =>
    simp only [Bool.not_false, if_true, Bool.false_eq_true, if_false]
    exact ht.editEntry hr (tableIndex w).isLt (hK heT) p type

/-- The machine after a turn that made a table. -/
def pmemNew (m : Machine) (fd ft : Nat) (w t p type : UInt32) : Machine :=
  ((m.granted .vramTable t 1).setWord fd (dirIndex w) (entryWord t type)).setPage ft
    (Function.update (fun _ => 0) (tableIndex w) (entryWord p type))

/-- The table is new. -/
theorem Holds.mapPmemPage_new (hd : Holds S g pdir fd) (hr : Reaches m K S g)
    (hw : v + UInt32.ofNat k * 0x1000 = w) (hp : phy + UInt32.ofNat k * 0x1000 = p)
    (heD : isEntryExist (m.phys fd (dirIndex w)) = false) (hKd : (fd, dirIndex w) ∉ K)
    (ht : m.answers .vramTable m.handed.length = t) (htnew : Grant.New ⟨.vramTable, t, 1⟩ m.handed)
    (hh : Holds S g t ft) (hKt : ∀ j, (ft, j) ∉ K) :
    mapPmemPage phy v pdir type k m = .ok (m.pmemNew fd ft w t p type) := by
  have hr₁ :
      Reaches (((m.granted .vramTable t 1).setWord fd (dirIndex w) (entryWord t type)).setPage ft
      fun _ => 0) K S g := by
    have h1 : Reaches (m.granted .vramTable t 1) K S g := hr.of_agree ⟨rfl, fun _ _ => rfl⟩
    exact (h1.of_agree (agree_setWord hKd)).of_agree (agree_setPage hKt)
  have hz : isEntryExist 0 = false := rfl
  unfold mapPmemPage
  simp only [hw, hp]
  rw [hd.tableOf_absent hr (dirIndex w).isLt heD ht htnew hh hKd hKt, Res.ok_bind]
  simp only [Fin.eta]
  rw [hh.load hr₁ (tableIndex w).isLt, Res.ok_bind, setPage_phys_self]
  simp only [hz, Bool.not_false, if_true]
  rw [hh.editEntry hr₁ (tableIndex w).isLt (hKt _), setPage_setWord]
  rfl

end Turn

/-! ## Paging off -/

/-- With paging off every pointer is a physical address. -/
theorem reaches_off (h : m.cr3 = none) : Reaches m ∅ Set.univ id := by
  intro m' ha v _
  unfold addr
  rw [ha.1, h]
  rfl

theorem holds_off {a : UInt32} (h : Aligned a) : Holds Set.univ id a (frameOf a) where
  aligned := h
  mem _ _ := Set.mem_univ _
  frame _ hi := frameOf_entryAddr h hi
  index _ hi := indexOf_entryAddr h hi

/-- The chunks `initPaging` works on: the directory, the array of table addresses `pt` and the
tables from `b` on. -/
structure Chunks (m₀ : Machine) (pt b : UInt32) : Prop where
  dir : Aligned m₀.kPdir
  array : Aligned pt
  tables : Aligned b
  bound : b.toNat + m₀.nrValidPages * 4096 ≤ 4294967296
  dir_ne_array : frameOf m₀.kPdir ≠ frameOf pt
  dir_ne : ∀ i < m₀.nrValidPages, frameOf m₀.kPdir ≠ frameOf b + i
  array_ne : ∀ i < m₀.nrValidPages, frameOf pt ≠ frameOf b + i

/-- The machine while `initPaging` fills the tables: only the memory has changed, and the first `n`
slots and tables are done. -/
structure Building (m₀ m : Machine) (pt b : UInt32) (n : Nat) : Prop where
  same : m = { m₀ with phys := m.phys }
  array : ∀ i (hi : i < 1024), i < m₀.nrValidPages →
    m.phys (frameOf pt) ⟨i, hi⟩ = b + 0x1000 * UInt32.ofNat i
  dir : ∀ i (hi : i < 1024), i < n →
    m.phys (frameOf m₀.kPdir) ⟨i, hi⟩ = entryWord (b + 0x1000 * UInt32.ofNat i) systempage
  rest : ∀ i (hi : i < 1024), n ≤ i → m.phys (frameOf m₀.kPdir) ⟨i, hi⟩ = 0
  tables : ∀ i < n, ∀ j : Fin 1024,
    m.phys (frameOf b + i) j = entryWord (UInt32.ofNat j * 0x1000) systempage
  frame : ∀ f, f ≠ frameOf m₀.kPdir → f ≠ frameOf pt → (∀ i < m₀.nrValidPages, f ≠ frameOf b + i) →
    m.phys f = m₀.phys f

variable {m₀ : Machine} {pt b : UInt32} {n : Nat}

/-- The inner loop fills the cleared table `t`, whose address is read from the array each time. -/
theorem fillTable_eq {t : UInt32} (hoff : m.cr3 = none) (hpt : Aligned pt) (ht : Aligned t)
    (hn : n < 1024) (harr : m.phys (frameOf pt) ⟨n, hn⟩ = t) (hne : frameOf pt ≠ frameOf t) :
    fillTable pt n (m.setPage (frameOf t) fun _ => 0) =
      .ok (m.setPage (frameOf t) fun j => entryWord (UInt32.ofNat j * 0x1000) systempage) := by
  have hfirst : (m.setPage (frameOf t) fun _ => 0) = m.setPage (frameOf t) fun j =>
      if j.val < 0 then entryWord (UInt32.ofNat j * 0x1000) systempage else 0 :=
    congrArg (m.setPage (frameOf t)) (fill_zero _ _).symm
  have hlast : (m.setPage (frameOf t) fun j => entryWord (UInt32.ofNat j * 0x1000) systempage) =
      m.setPage (frameOf t) fun j =>
        if j.val < 1024 then entryWord (UInt32.ofNat j * 0x1000) systempage else 0 :=
    congrArg (m.setPage (frameOf t)) (fill_all _ _).symm
  unfold fillTable
  rw [hfirst, hlast]
  refine loop_eq (fun k => m.setPage (frameOf t) fun j =>
    if j.val < k then entryWord (UInt32.ofNat j * 0x1000) systempage else 0) ?_
  intro k hk
  have hr : Reaches (m.setPage (frameOf t) fun j =>
      if j.val < k then entryWord (UInt32.ofNat j * 0x1000) systempage else 0) ∅ Set.univ id :=
    reaches_off hoff
  rw [(holds_off hpt).load hr hn, Res.ok_bind, setPage_phys_of_ne hne, harr,
    (holds_off ht).editEntry hr hk (Set.notMem_empty _), setPage_setWord]
  exact congrArg (fun pg => Except.ok (m.setPage (frameOf t) pg)) (fill_succ hk _ _)

/-- One turn of the loop over the tables. -/
theorem Building.step (hc : Chunks m₀ pt b) (hoff : m₀.cr3 = none) (h : Building m₀ m pt b n)
    (hn : n < m₀.nrValidPages) :
    ∃ m', mapTable pt m₀.kPdir n m = .ok m' ∧ Building m₀ m' pt b (n + 1) := by
  have hn' : n < 1024 := hn.trans (nrValidPages_lt m₀)
  have hcr3 : m.cr3 = none := by rw [h.same]; exact hoff
  obtain ⟨hta, htf⟩ := chunk_frame hc.tables hc.bound hn
  obtain ⟨t, ht⟩ : ∃ t, t = b + 0x1000 * UInt32.ofNat n := ⟨_, rfl⟩
  rw [← ht] at hta htf
  have harr : m.phys (frameOf pt) ⟨n, hn'⟩ = t := by rw [ht]; exact h.array n hn' hn
  have hpt : frameOf pt ≠ frameOf t := by rw [htf]; exact hc.array_ne n hn
  have hdt : frameOf m₀.kPdir ≠ frameOf t := by rw [htf]; exact hc.dir_ne n hn
  have hr0 : Reaches m ∅ Set.univ id := reaches_off hcr3
  have hr1 : Reaches (m.setPage (frameOf t) fun _ => 0) ∅ Set.univ id := reaches_off hcr3
  -- the directory entry is written after the table was cleared; the two stores commute
  have hswap : (m.setPage (frameOf t) fun _ => 0).setWord (frameOf m₀.kPdir) ⟨n, hn'⟩
      (entryWord t systempage) =
      (m.setWord (frameOf m₀.kPdir) ⟨n, hn'⟩ (entryWord t systempage)).setPage (frameOf t)
        fun _ => 0 := by
    unfold setWord setPage
    simp only [Function.update_of_ne hdt]
    rw [Function.update_comm hdt]
  refine ⟨(m.setWord (frameOf m₀.kPdir) ⟨n, hn'⟩ (entryWord t systempage)).setPage (frameOf t)
    fun j => entryWord (UInt32.ofNat j * 0x1000) systempage, ?_, ?_⟩
  · unfold mapTable
    rw [(holds_off hc.array).load hr0 hn', Res.ok_bind, harr,
      (holds_off hta).disableAllEntry hr0 (fun _ => Set.notMem_empty _), Res.ok_bind,
      (holds_off hc.array).load hr1 hn', Res.ok_bind, setPage_phys_of_ne hpt, harr,
      (holds_off hc.dir).editEntry hr1 hn' (Set.notMem_empty _), Res.ok_bind, hswap]
    refine fillTable_eq ?_ hc.array hta hn' ?_ hpt
    · exact hcr3
    · rw [setWord_phys_of_ne hc.dir_ne_array.symm]
      exact harr
  · refine ⟨?_, ?_, ?_, ?_, ?_, ?_⟩
    · rw [h.same]
      rfl
    · intro i hi hin
      rw [setPage_phys_of_ne hpt, setWord_phys_of_ne hc.dir_ne_array.symm]
      exact h.array i hi hin
    · intro i hi hin
      rw [setPage_phys_of_ne hdt]
      by_cases he : i = n
      · subst he
        rw [setWord_phys_self, ht]
      · simp only [setWord, Function.update_self]
        rw [Function.update_of_ne (by simpa using he)]
        exact h.dir i hi (by omega)
    · intro i hi hin
      rw [setPage_phys_of_ne hdt]
      simp only [setWord, Function.update_self]
      rw [Function.update_of_ne (by simp; omega)]
      exact h.rest i hi (by omega)
    · intro i hin j
      by_cases he : i = n
      · subst he
        rw [← htf, setPage_phys_self]
      · rw [setPage_phys_of_ne (by omega), setWord_phys_of_ne (hc.dir_ne i (by omega)).symm]
        exact h.tables i (by omega) j
    · intro f hfd hfp hft
      rw [setPage_phys_of_ne (by rw [htf]; exact hft n hn), setWord_phys_of_ne hfd]
      exact h.frame f hfd hfp hft

/-! ## The VRAM -/

/-- The pages of the VRAM lie in slot `0x380`, one entry after the other. -/
theorem vram_index {i : Nat} (hi : i < 512) :
    (dirIndex (0xe0000000 + UInt32.ofNat i * 0x1000)).val = 0x380 ∧
      (tableIndex (0xe0000000 + UInt32.ofNat i * 0x1000)).val = i := by
  have h1 : (0x1000 : UInt32).toNat = 4096 := rfl
  have h2 : (0xe0000000 : UInt32).toNat = 3758096384 := rfl
  have hi' : (UInt32.ofNat i).toNat = i := by
    rw [UInt32.toNat_ofNat']
    exact Nat.mod_eq_of_lt (by omega)
  have hm : (UInt32.ofNat i * 0x1000).toNat = i * 4096 := by
    rw [toNat_mul_of_lt (by rw [h1, hi']; omega), h1, hi']
  have hs : (0xe0000000 + UInt32.ofNat i * 0x1000).toNat = 3758096384 + i * 4096 := by
    rw [toNat_add_of_lt (by rw [hm, h2]; omega), hm, h2]
  constructor
  · show (0xe0000000 + UInt32.ofNat i * 0x1000).toNat / 0x400000 = 0x380
    rw [hs]
    omega
  · show (0xe0000000 + UInt32.ofNat i * 0x1000).toNat % 0x400000 / 0x1000 = i
    rw [hs]
    omega

theorem systempage_odd : systempage.toNat % 2 = 1 := rfl

/-- One turn of `mapping_pmem` where slot `0x380` points at the frame of `t`: the entry is there, or
it is written. -/
theorem mapPmemPage_eq {d t : UInt32} {i : Nat} (hi : i < 512) (hi' : i < 1024)
    (hoff : m.cr3 = none) (hd : Aligned d)
    (hslot : m.phys (frameOf d) 0x380 = entryWord t systempage) :
    mapPmemPage 0xe0000000 0xe0000000 d systempage i m =
      if isEntryExist (m.phys (frameOf t) ⟨i, hi'⟩) then .ok m
      else .ok (m.setWord (frameOf t) ⟨i, hi'⟩
        (entryWord (0xe0000000 + UInt32.ofNat i * 0x1000) systempage)) := by
  obtain ⟨hdi, hti⟩ := vram_index hi
  have hdi : dirIndex (0xe0000000 + UInt32.ofNat i * 0x1000) = 0x380 := Fin.ext hdi
  have hti : tableIndex (0xe0000000 + UInt32.ofNat i * 0x1000) = ⟨i, hi'⟩ := Fin.ext hti
  have hpres : isEntryExist (m.phys (frameOf d) 0x380) = true := by
    rw [hslot]
    exact isEntryExist_entryWord systempage_odd
  have hf : frameOf (caddrEntry (m.phys (frameOf d) 0x380)) = frameOf t := by
    rw [frameOf_caddrEntry, hslot, frameOf_entryWord]
  have htab : Holds Set.univ id (caddrEntry (m.phys (frameOf d) 0x380)) (frameOf t) :=
    hf ▸ holds_off (aligned_caddrEntry _)
  have hturn : mapPmemPage 0xe0000000 0xe0000000 d systempage i m = _ :=
    (holds_off hd).mapPmemPage_table (reaches_off hoff) rfl rfl (by rw [hdi]; exact hpres)
      (by rw [hdi]; exact htab) fun _ => Set.notMem_empty _
  rw [hturn, hti]
  split
  · rfl
  · rfl

/-- The table of the VRAM after `n` turns. -/
structure VramFilled (pg : Page) (n : Nat) : Prop where
  present : ∀ j : Fin 1024, j.val < n → isEntryExist (pg j) = true
  empty : ∀ j : Fin 1024, n ≤ j.val → pg j = 0

/-- One more entry. -/
theorem VramFilled.update {pg : Page} {e : UInt32} {i : Fin 1024} (h : VramFilled pg i.val)
    (he : isEntryExist e = true) : VramFilled (Function.update pg i e) (i.val + 1) := by
  refine ⟨fun j hj => ?_, fun j hj => ?_⟩
  · by_cases hji : j = i
    · subst hji
      rwa [Function.update_self]
    · have hne : j.val ≠ i.val := fun e => hji (Fin.ext e)
      rw [Function.update_of_ne hji]
      exact h.present j (by omega)
  · have hji : j ≠ i := by
      rintro rfl
      omega
    rw [Function.update_of_ne hji]
    exact h.empty j (by omega)

/-- The first turn of `mapping_pmem` makes the table, if there is a chunk for it. -/
theorem first_vram_eq {t : UInt32} (hc : Chunks m₀ pt b) (hoff : m₀.cr3 = none)
    (h : Building m₀ m pt b m₀.nrValidPages) (hnr : m₀.nrValidPages ≤ 0x380)
    (ht : m₀.answers .vramTable m₀.handed.length = t)
    (hnew : Grant.New ⟨.vramTable, t, 1⟩ m₀.handed) :
    ∃ pg : Page, VramFilled pg 1 ∧
      mapPmemPage 0xe0000000 0xe0000000 m₀.kPdir systempage 0 m =
      .ok (((m.granted .vramTable t 1).setWord (frameOf m₀.kPdir) 0x380
        (entryWord t systempage)).setPage (frameOf t) pg) := by
  have hcr3 : m.cr3 = none := by rw [h.same]; exact hoff
  have hhand : m.handed = m₀.handed := by rw [h.same]
  have hans : m.answers .vramTable m.handed.length = t := by rw [h.same]; exact ht
  obtain ⟨hdi, hti⟩ := vram_index (i := 0) (by omega)
  have hdi : dirIndex (0xe0000000 + UInt32.ofNat 0 * 0x1000) = 0x380 := Fin.ext hdi
  have hti : tableIndex (0xe0000000 + UInt32.ofNat 0 * 0x1000) = 0 := Fin.ext hti
  have habs : isEntryExist (m.phys (frameOf m₀.kPdir) 0x380) = false := by
    have h0 : m.phys (frameOf m₀.kPdir) 0x380 = 0 := h.rest 0x380 (by omega) hnr
    rw [h0]
    rfl
  have hturn : mapPmemPage 0xe0000000 0xe0000000 m₀.kPdir systempage 0 m = _ :=
    (holds_off hc.dir).mapPmemPage_new (reaches_off hcr3) rfl rfl (by rw [hdi]; exact habs)
      (Set.notMem_empty _) hans (hhand ▸ hnew) (holds_off hnew.1) fun _ => Set.notMem_empty _
  rw [pmemNew, hdi, hti] at hturn
  refine ⟨_, ?_, hturn⟩
  have h0 : VramFilled (fun _ => 0) 0 := ⟨fun j hj => absurd hj (Nat.not_lt_zero _), fun _ _ => rfl⟩
  exact VramFilled.update (i := 0) h0 (isEntryExist_entryWord systempage_odd)

/-- The first turn of `mapping_pmem` returns only with a new chunk. -/
theorem first_vram_new (hc : Chunks m₀ pt b) (hoff : m₀.cr3 = none)
    (h : Building m₀ m pt b m₀.nrValidPages) (hnr : m₀.nrValidPages ≤ 0x380)
    (hr : mapPmemPage 0xe0000000 0xe0000000 m₀.kPdir systempage 0 m = .ok m') :
    Grant.New ⟨.vramTable, m₀.answers .vramTable m₀.handed.length, 1⟩ m₀.handed := by
  have hcr3 : m.cr3 = none := by rw [h.same]; exact hoff
  obtain ⟨hdi, -⟩ := vram_index (i := 0) (by omega)
  have hlt : 0x380 < 1024 := by omega
  have habs : isEntryExist (m.phys (frameOf m₀.kPdir) ⟨0x380, hlt⟩) = false := by
    rw [h.rest 0x380 hlt hnr]
    rfl
  unfold mapPmemPage at hr
  simp only [hdi] at hr
  obtain ⟨⟨m₁, t⟩, htab, -⟩ := Res.bind_eq_ok.mp hr
  unfold tableOf at htab
  simp only [(holds_off hc.dir).load (reaches_off hcr3) hlt, Res.ok_bind, habs, Bool.not_false,
    if_true] at htab
  obtain ⟨r, halloc, -⟩ := Res.bind_eq_ok.mp htab
  have hnew := (allocChunk_eq_ok.mp halloc).1
  rw [h.same] at hnew
  exact hnew

/-- **The VRAM mapping** after the tables are filled: nothing to do if slot `0x380` belongs to the
straight map, else a new table under that slot. -/
theorem mappingPmem_spec (hc : Chunks m₀ pt b) (hoff : m₀.cr3 = none)
    (h : Building m₀ m pt b m₀.nrValidPages) (hdir : ⟨.pageDir, m₀.kPdir, 1⟩ ∈ m₀.handed)
    (hr : m.mappingPmem 0xe0000000 0xe0000000 0x200000 m₀.kPdir systempage = .ok m') :
    0x380 < m₀.nrValidPages ∧ m' = m ∨
      m₀.nrValidPages ≤ 0x380 ∧ ∃ t pg, m₀.answers .vramTable m₀.handed.length = t ∧
        Grant.New ⟨.vramTable, t, 1⟩ m₀.handed ∧ VramFilled pg 512 ∧
        m' = ((m.granted .vramTable t 1).setWord (frameOf m₀.kPdir) 0x380
          (entryWord t systempage)).setPage (frameOf t) pg := by
  have hcr3 : m.cr3 = none := by rw [h.same]; exact hoff
  have hhand : m.handed = m₀.handed := by rw [h.same]
  have hturns : (ceil4k 0x200000 / 0x1000).toNat = 512 := rfl
  unfold mappingPmem at hr
  rw [hturns] at hr
  by_cases hnr : 0x380 < m₀.nrValidPages
  · refine Or.inl ⟨hnr, ?_⟩
    obtain ⟨-, hbf⟩ := chunk_frame hc.tables hc.bound hnr
    refine loop_invariant (I := fun _ s => s = m) rfl ?_ hr
    rintro i hi s s' rfl hs
    -- every entry of a straight table is there
    have hent : isEntryExist (s.phys (frameOf (b + 0x1000 * UInt32.ofNat 0x380)) ⟨i, by omega⟩) =
        true := by
      rw [hbf, h.tables 0x380 hnr]
      exact isEntryExist_entryWord systempage_odd
    rw [mapPmemPage_eq hi (by omega) hcr3 hc.dir (h.dir 0x380 (by omega) hnr), if_pos hent] at hs
    exact (Except.ok.inj hs).symm
  · refine Or.inr ⟨by omega, ?_⟩
    have hinv := loop_invariant (I := fun i s => i = 0 ∧ s = m ∨ 0 < i ∧
      ∃ t pg, m₀.answers .vramTable m₀.handed.length = t ∧ Grant.New ⟨.vramTable, t, 1⟩ m₀.handed ∧
        VramFilled pg i ∧ s = ((m.granted .vramTable t 1).setWord (frameOf m₀.kPdir) 0x380
          (entryWord t systempage)).setPage (frameOf t) pg) (Or.inl ⟨rfl, rfl⟩) ?_ hr
    · rcases hinv with ⟨h0, -⟩ | ⟨-, h1⟩
      · exact absurd h0 (by decide)
      · exact h1
    · rintro i hi s s' (⟨rfl, rfl⟩ | ⟨hpos, t, pg, ht, hnew, hz, rfl⟩) hs
      · refine Or.inr ⟨by omega, ?_⟩
        have hnew := first_vram_new hc hoff h (by omega) hs
        obtain ⟨pg, hz, he⟩ := first_vram_eq hc hoff h (by omega) rfl hnew
        exact ⟨_, pg, rfl, hnew, hz, Except.ok.inj (hs.symm.trans he)⟩
      · refine Or.inr ⟨by omega, t, ?_⟩
        have hne : frameOf m₀.kPdir ≠ frameOf t := fun e =>
          (hnew.2.2 _ hdir).not_mem (frame_mem (by omega)) (e ▸ frame_mem (by omega))
        have hslot : (((m.granted .vramTable t 1).setWord (frameOf m₀.kPdir) 0x380
            (entryWord t systempage)).setPage (frameOf t) pg).phys (frameOf m₀.kPdir) 0x380 =
            entryWord t systempage := by
          rw [setPage_phys_of_ne hne, setWord_phys_self]
        have hlt : i < 1024 := by omega
        have hfree : pg ⟨i, hlt⟩ = 0 := hz.empty ⟨i, hlt⟩ (Nat.le_refl _)
        have habs : ¬ isEntryExist ((((m.granted .vramTable t 1).setWord (frameOf m₀.kPdir) 0x380
            (entryWord t systempage)).setPage (frameOf t) pg).phys (frameOf t)
              ⟨i, hlt⟩) = true := by
          rw [setPage_phys_self, hfree]
          decide
        rw [mapPmemPage_eq hi hlt (by exact hcr3) hc.dir hslot, if_neg habs] at hs
        exact ⟨_, ht, hnew, VramFilled.update (i := ⟨i, hlt⟩) hz
          (isEntryExist_entryWord systempage_odd), (Except.ok.inj hs).symm.trans setPage_setWord⟩

/-- The VRAM mapping returns, if there is a chunk for the table it may need. -/
theorem mappingPmem_total (hc : Chunks m₀ pt b) (hoff : m₀.cr3 = none)
    (h : Building m₀ m pt b m₀.nrValidPages) (hdir : ⟨.pageDir, m₀.kPdir, 1⟩ ∈ m₀.handed)
    (hnew : Grant.New ⟨.vramTable, m₀.answers .vramTable m₀.handed.length, 1⟩ m₀.handed) :
    ∃ m', m.mappingPmem 0xe0000000 0xe0000000 0x200000 m₀.kPdir systempage = .ok m' := by
  have hcr3 : m.cr3 = none := by rw [h.same]; exact hoff
  have hturns : (ceil4k 0x200000 / 0x1000).toNat = 512 := rfl
  have hnext : ∀ i < 512, ∀ s : Machine, s.cr3 = none → ∀ t, frameOf m₀.kPdir ≠ frameOf t →
      s.phys (frameOf m₀.kPdir) 0x380 = entryWord t systempage →
      ∃ s', mapPmemPage 0xe0000000 0xe0000000 m₀.kPdir systempage i s = .ok s' ∧ s'.cr3 = none ∧
        s'.phys (frameOf m₀.kPdir) 0x380 = entryWord t systempage := by
    intro i hi s hs t hne hslot
    rw [mapPmemPage_eq hi (by omega) hs hc.dir hslot]
    split
    · exact ⟨s, rfl, hs, hslot⟩
    · exact ⟨_, rfl, hs, by rw [setWord_phys_of_ne hne]; exact hslot⟩
  unfold mappingPmem
  rw [hturns]
  refine (loop_total (I := fun i s => i = 0 ∧ s = m ∨ 0 < i ∧ s.cr3 = none ∧ ∃ t,
    frameOf m₀.kPdir ≠ frameOf t ∧ s.phys (frameOf m₀.kPdir) 0x380 = entryWord t systempage)
    (Or.inl ⟨rfl, rfl⟩) ?_).imp fun _ h => h.1
  rintro i hi s (⟨rfl, rfl⟩ | ⟨hpos, hs, t, hne, hslot⟩)
  · by_cases hnr : m₀.nrValidPages ≤ 0x380
    · obtain ⟨pg, -, he⟩ := first_vram_eq hc hoff h hnr rfl hnew
      have hne : frameOf m₀.kPdir ≠ frameOf (m₀.answers .vramTable m₀.handed.length) := fun e =>
        (hnew.2.2 _ hdir).not_mem (frame_mem (by omega)) (e ▸ frame_mem (by omega))
      refine ⟨_, he, Or.inr ⟨by omega, hcr3, _, hne, ?_⟩⟩
      rw [setPage_phys_of_ne hne, setWord_phys_self]
    · have hnr' : 0x380 < m₀.nrValidPages := by omega
      have hne : frameOf m₀.kPdir ≠ frameOf (b + 0x1000 * UInt32.ofNat 0x380) := by
        rw [(chunk_frame hc.tables hc.bound hnr').2]
        exact hc.dir_ne _ hnr'
      obtain ⟨s', he, hs', hslot'⟩ := hnext 0 hi s hcr3 _ hne (h.dir 0x380 (by omega) hnr')
      exact ⟨s', he, Or.inr ⟨by omega, hs', _, hne, hslot'⟩⟩
  · obtain ⟨s', he, hs', hslot'⟩ := hnext i hi s hs t hne hslot
    exact ⟨s', he, Or.inr ⟨by omega, hs', t, hne, hslot'⟩⟩

/-! ## The whole of `initPaging` -/

/-- The loop that writes the array of table addresses. -/
theorem writeArray (hoff : m.cr3 = none) (hpt : Aligned pt) (hn : n ≤ 1024) :
    loop (fun i m => m.store (entryAddr pt i) (b + 0x1000 * UInt32.ofNat i)) n m =
      .ok (m.setPage (frameOf pt) fun j =>
        if j.val < n then b + 0x1000 * UInt32.ofNat j else m.phys (frameOf pt) j) := by
  have hfirst : m = m.setPage (frameOf pt) fun j =>
      if j.val < 0 then b + 0x1000 * UInt32.ofNat j else m.phys (frameOf pt) j := by
    simp [setPage]
  conv_lhs => rw [hfirst]
  refine loop_eq (fun n => m.setPage (frameOf pt) fun j =>
    if j.val < n then b + 0x1000 * UInt32.ofNat j else m.phys (frameOf pt) j) ?_
  intro k hk
  have hk' : k < 1024 := by omega
  have hr : Reaches (m.setPage (frameOf pt) fun j =>
      if j.val < k then b + 0x1000 * UInt32.ofNat j else m.phys (frameOf pt) j) ∅ Set.univ id :=
    reaches_off hoff
  rw [(holds_off hpt).store hr hk', setPage_setWord]
  exact congrArg (fun pg => Except.ok (m.setPage (frameOf pt) pg)) (fill_succ hk' _ _)

/-- A word of the directory below slot `0x3ff`, once that slot is written. -/
theorem setLast_phys (s : Machine) {f : Nat} {w : UInt32} (hlast : 0x3ff < 1024) {i : Fin 1024}
    (hi : i.val < 0x3ff) : (s.setWord f ⟨0x3ff, hlast⟩ w).phys f i = s.phys f i := by
  have hne : i ≠ ⟨0x3ff, hlast⟩ := fun e => by
    have := congrArg Fin.val e
    simp only at this
    omega
  simp only [setWord, Function.update_self]
  exact Function.update_of_ne hne _ _

/-- The map when the VRAM lies in the straight map, and slot `0x3ff` is written. -/
theorem Building.kernelMap_inside {c : Option UInt32} (hc : Chunks m₀ pt b)
    (h : Building m₀ m pt b m₀.nrValidPages) (hdir : ⟨.pageDir, m₀.kPdir, 1⟩ ∈ m₀.handed)
    (htab : ⟨.kernelTable, b, m₀.nrValidPages⟩ ∈ m₀.handed) (hnr : 0x380 < m₀.nrValidPages)
    (hlast : 0x3ff < 1024) :
    KernelMap { m.setWord (frameOf m₀.kPdir) ⟨0x3ff, hlast⟩ (entryWord v2ptable systempage) with
      cr3 := c } b := by
  have hmem : m.nrValidPages = m₀.nrValidPages := by rw [h.same]; rfl
  have hk : m.kPdir = m₀.kPdir := by rw [h.same]
  have hhand : m.handed = m₀.handed := by rw [h.same]
  refine ⟨?_, ?_, ?_, ?_, ?_, ?_, ?_, ?_, ?_⟩
  · intro i hi hin
    have hlt := nrValidPages_lt m₀
    have hin' : i < m₀.nrValidPages := hmem ▸ hin
    show (m.setWord _ _ _).phys (frameOf m.kPdir) _ = _
    rw [hk, setLast_phys m hlast (show i < 0x3ff by omega)]
    exact h.dir i hi hin'
  · intro i hi hin hlt'
    have hin' : m₀.nrValidPages ≤ i := hmem ▸ hin
    omega
  · intro i hi hin _ hlt'
    have hin' : m₀.nrValidPages ≤ i := hmem ▸ hin
    show (m.setWord _ _ _).phys (frameOf m.kPdir) _ = _
    rw [hk, setLast_phys m hlast hlt']
    exact h.rest i hi hin'
  · show (m.setWord _ _ _).phys (frameOf m.kPdir) _ = _
    rw [hk]
    exact setWord_phys_self
  · refine ⟨b + 0x1000 * UInt32.ofNat 0x380, ?_, _, hhand ▸ htab, Or.inl rfl, ?_⟩
    · show (m.setWord _ _ _).phys (frameOf m.kPdir) _ = _
      rw [hk, setLast_phys m hlast (by decide)]
      exact h.dir 0x380 (by omega) hnr
    · rw [(chunk_frame hc.tables hc.bound hnr).2]
      exact ⟨Nat.le_add_right _ _, Nat.add_lt_add_left hnr _⟩
  · intro hle
    have hle' : m₀.nrValidPages ≤ 0x380 := hmem ▸ hle
    omega
  · intro i hin j
    have hin' : i < m₀.nrValidPages := hmem ▸ hin
    show (m.setWord _ _ _).phys _ _ = _
    rw [setWord_phys_of_ne (hc.dir_ne i hin').symm]
    exact h.tables i hin' j
  · show (⟨.pageDir, m.kPdir, 1⟩ : Grant) ∈ m.handed
    rw [hk, hhand]
    exact hdir
  · show (⟨.kernelTable, b, m.nrValidPages⟩ : Grant) ∈ m.handed
    rw [hmem, hhand]
    exact htab

/-- The map when the VRAM needs a table `t` of its own, and slot `0x3ff` is written. -/
theorem Building.kernelMap_vram {c : Option UInt32} {t : UInt32} {pg : Page} (hc : Chunks m₀ pt b)
    (h : Building m₀ m pt b m₀.nrValidPages) (hdir : ⟨.pageDir, m₀.kPdir, 1⟩ ∈ m₀.handed)
    (htab : ⟨.kernelTable, b, m₀.nrValidPages⟩ ∈ m₀.handed) (hnr : m₀.nrValidPages ≤ 0x380)
    (hnew : Grant.New ⟨.vramTable, t, 1⟩ m₀.handed) (hz : ∀ j : Fin 1024, 512 ≤ j.val → pg j = 0)
    (hlast : 0x3ff < 1024) :
    KernelMap { (((m.granted .vramTable t 1).setWord (frameOf m₀.kPdir) 0x380
        (entryWord t systempage)).setPage (frameOf t) pg).setWord (frameOf m₀.kPdir)
          ⟨0x3ff, hlast⟩ (entryWord v2ptable systempage) with cr3 := c } b := by
  have hmem : m.nrValidPages = m₀.nrValidPages := by rw [h.same]; rfl
  have hk : m.kPdir = m₀.kPdir := by rw [h.same]
  have hhand : m.handed = m₀.handed := by rw [h.same]
  have hdt : frameOf m₀.kPdir ≠ frameOf t := fun e =>
    (hnew.2.2 _ hdir).not_mem (frame_mem (by omega)) (e ▸ frame_mem (by omega))
  have hbt : ∀ i < m₀.nrValidPages, frameOf b + i ≠ frameOf t := fun i hi e =>
    (hnew.2.2 _ htab).not_mem (frame_mem (by omega))
      ⟨by simp only; omega, by simp only; omega⟩
  -- the other words of the directory
  have hslot : ∀ i : Fin 1024, i.val ≠ 0x380 →
      (((m.granted .vramTable t 1).setWord (frameOf m₀.kPdir) 0x380
        (entryWord t systempage)).setPage (frameOf t) pg).phys (frameOf m₀.kPdir) i =
        m.phys (frameOf m₀.kPdir) i := by
    intro i hi
    have hne : i ≠ 0x380 := fun e => hi (by rw [e]; rfl)
    rw [setPage_phys_of_ne hdt]
    simp only [setWord, Function.update_self]
    exact Function.update_of_ne hne _ _
  refine ⟨?_, ?_, ?_, ?_, ?_, ?_, ?_, ?_, ?_⟩
  · intro i hi hin
    have hin' : i < m₀.nrValidPages := hmem ▸ hin
    show (setWord _ _ _ _).phys (frameOf m.kPdir) _ = _
    rw [hk, setLast_phys _ hlast (show i < 0x3ff by omega), hslot ⟨i, hi⟩ (by simp only; omega)]
    exact h.dir i hi hin'
  · intro i hi hin hlt'
    have hin' : m₀.nrValidPages ≤ i := hmem ▸ hin
    show (setWord _ _ _ _).phys (frameOf m.kPdir) _ = _
    rw [hk, setLast_phys _ hlast (show i < 0x3ff by omega), hslot ⟨i, hi⟩ (by simp only; omega)]
    exact h.rest i hi hin'
  · intro i hi hin hgt hlt'
    have hin' : m₀.nrValidPages ≤ i := hmem ▸ hin
    show (setWord _ _ _ _).phys (frameOf m.kPdir) _ = _
    rw [hk, setLast_phys _ hlast hlt', hslot ⟨i, hi⟩ (by simp only; omega)]
    exact h.rest i hi hin'
  · show (setWord _ _ _ _).phys (frameOf m.kPdir) _ = _
    rw [hk]
    exact setWord_phys_self
  · refine ⟨t, ?_, _, List.mem_cons_self, Or.inr rfl, frame_mem (by omega)⟩
    show (setWord _ _ _ _).phys (frameOf m.kPdir) _ = _
    rw [hk, setLast_phys _ hlast (by decide), setPage_phys_of_ne hdt, setWord_phys_self]
  · intro _ j hj
    show (setWord _ _ _ _).phys (frameOf ((setWord _ _ _ _).phys (frameOf m.kPdir) _)) j = 0
    rw [hk, setLast_phys _ hlast (by decide), setPage_phys_of_ne hdt, setWord_phys_self,
      frameOf_entryWord, setWord_phys_of_ne hdt.symm, setPage_phys_self]
    exact hz j hj
  · intro i hin j
    have hin' : i < m₀.nrValidPages := hmem ▸ hin
    show (setWord _ _ _ _).phys _ _ = _
    rw [setWord_phys_of_ne (hc.dir_ne i hin').symm, setPage_phys_of_ne (hbt i hin'),
      setWord_phys_of_ne (hc.dir_ne i hin').symm]
    exact h.tables i hin' j
  · show (⟨.pageDir, m.kPdir, 1⟩ : Grant) ∈ _ :: m.handed
    rw [hk, hhand]
    exact List.mem_cons_of_mem _ hdir
  · show (⟨.kernelTable, b, m.nrValidPages⟩ : Grant) ∈ _ :: m.handed
    rw [hmem, hhand]
    exact List.mem_cons_of_mem _ htab

/-- The map after the VRAM was mapped and slot `0x3ff` written, whatever `cr3`. -/
theorem Building.kernelMap {c : Option UInt32} (hc : Chunks m₀ pt b)
    (hoff : m₀.cr3 = none) (h : Building m₀ m pt b m₀.nrValidPages)
    (hdir : ⟨.pageDir, m₀.kPdir, 1⟩ ∈ m₀.handed)
    (htab : ⟨.kernelTable, b, m₀.nrValidPages⟩ ∈ m₀.handed)
    (hr : m.mappingPmem 0xe0000000 0xe0000000 0x200000 m₀.kPdir systempage = .ok m')
    (hlast : 0x3ff < 1024) :
    KernelMap { m'.setWord (frameOf m₀.kPdir) ⟨0x3ff, hlast⟩ (entryWord v2ptable systempage) with
      cr3 := c } b ∧ m' = { m₀ with phys := m'.phys, handed := m'.handed } := by
  have hhand : m.handed = m₀.handed := by rw [h.same]
  rcases mappingPmem_spec hc hoff h hdir hr with ⟨hnr, rfl⟩ | ⟨hnr, t, pg, -, hnew, hz, rfl⟩
  · exact ⟨h.kernelMap_inside hc hdir htab hnr hlast, by rw [h.same]⟩
  · refine ⟨h.kernelMap_vram hc hdir htab hnr hnew hz.empty hlast, ?_⟩
    conv_lhs => rw [h.same]
    simp only [granted, setWord, setPage, hhand]

/-- The chunk the VRAM mapping may take, and the frames the whole build writes to. -/
theorem Building.handed (hc : Chunks m₀ pt b) (hoff : m₀.cr3 = none)
    (h : Building m₀ m pt b m₀.nrValidPages) (hdir : ⟨.pageDir, m₀.kPdir, 1⟩ ∈ m₀.handed)
    (hpt : ⟨.other, pt, 1⟩ ∈ m₀.handed) (htab : ⟨.kernelTable, b, m₀.nrValidPages⟩ ∈ m₀.handed)
    (hr : m.mappingPmem 0xe0000000 0xe0000000 0x200000 m₀.kPdir systempage = .ok m') :
    (m'.handed = m₀.handed ∨
      Grant.New ⟨.vramTable, m₀.answers .vramTable m₀.handed.length, 1⟩ m₀.handed ∧
      m'.handed = ⟨.vramTable, m₀.answers .vramTable m₀.handed.length, 1⟩ :: m₀.handed) ∧
      (m₀.nrValidPages ≤ 0x380 → m'.handed ≠ m₀.handed) ∧
      ∀ f, (∀ g ∈ m'.handed, f ∉ g.frames) → m'.phys f = m₀.phys f := by
  have hhand : m.handed = m₀.handed := by rw [h.same]
  have hold : ∀ f, (∀ g ∈ m₀.handed, f ∉ g.frames) → f ≠ frameOf m₀.kPdir ∧
      m.phys f = m₀.phys f := by
    intro f hf
    have hfd : f ≠ frameOf m₀.kPdir := by
      rintro rfl
      exact hf _ hdir (frame_mem (by omega))
    refine ⟨hfd, h.frame f hfd ?_ ?_⟩
    · rintro rfl
      exact hf _ hpt (frame_mem (by omega))
    · rintro i hi rfl
      exact hf _ htab ⟨Nat.le_add_right _ _, Nat.add_lt_add_left hi _⟩
  rcases mappingPmem_spec hc hoff h hdir hr with ⟨hnr, rfl⟩ | ⟨hnr, t, pg, rfl, hnew, -, rfl⟩
  · refine ⟨Or.inl hhand, fun hle => by omega, fun f hf => (hold f fun g hg => hf g (hhand ▸ hg)).2⟩
  · have hcons : (((m.granted .vramTable (m₀.answers .vramTable m₀.handed.length) 1).setWord
        (frameOf m₀.kPdir) 0x380
          (entryWord (m₀.answers .vramTable m₀.handed.length) systempage)).setPage
        (frameOf (m₀.answers .vramTable m₀.handed.length)) pg).handed =
        ⟨.vramTable, m₀.answers .vramTable m₀.handed.length, 1⟩ :: m₀.handed := by
      show _ :: m.handed = _
      rw [hhand]
    rw [hcons]
    refine ⟨Or.inr ⟨hnew, rfl⟩, fun _ => List.cons_ne_self _ _, fun f hf => ?_⟩
    obtain ⟨hfd, hfm⟩ := hold f fun g hg => hf g (List.mem_cons_of_mem _ hg)
    have hft : f ≠ frameOf (m₀.answers .vramTable m₀.handed.length) := by
      rintro rfl
      exact hf _ List.mem_cons_self (frame_mem (by omega))
    rw [setPage_phys_of_ne hft, setWord_phys_of_ne hfd]
    exact hfm

/-- The straight map is built from the three chunks without fail; what can stop `initPaging` comes
after it. -/
theorem buildMap_eq (hc : Chunks m₀ pt b) (hoff : m₀.cr3 = none) :
    ∃ m, Building m₀ m pt b m₀.nrValidPages ∧ m₀.buildMap pt b =
      (m.mappingPmem 0xe0000000 0xe0000000 0x200000 m₀.kPdir systempage >>= fun m =>
        m.editEntry (entryAddr m₀.kPdir 0x3ff) v2ptable systempage >>= fun m =>
          m.pagingOn m₀.kPdir) := by
  have hlt := nrValidPages_lt m₀
  obtain ⟨m₁, hm₁⟩ : ∃ m₁, m₁ = m₀.setPage (frameOf pt) fun j =>
    if j.val < m₀.nrValidPages then b + 0x1000 * UInt32.ofNat j
    else m₀.phys (frameOf pt) j := ⟨_, rfl⟩
  have hoff₁ : m₁.cr3 = none := by rw [hm₁]; exact hoff
  have hstart : Building m₀ (m₁.setPage (frameOf m₀.kPdir) fun _ => 0) pt b 0 := by
    refine ⟨by rw [hm₁]; rfl, fun i hi hin => ?_, fun i _ hi => absurd hi (Nat.not_lt_zero _),
      fun i hi _ => by rw [setPage_phys_self], fun i hi => absurd hi (Nat.not_lt_zero _), ?_⟩
    · rw [setPage_phys_of_ne hc.dir_ne_array.symm, hm₁, setPage_phys_self, if_pos hin]
    · intro f hfd hfp _
      rw [setPage_phys_of_ne hfd, hm₁, setPage_phys_of_ne hfp]
  obtain ⟨m₃, h₃, hbuilt⟩ := loop_total (I := fun i s => Building m₀ s pt b i) hstart
    fun i hi s hs => hs.step hc hoff hi
  refine ⟨m₃, hbuilt, ?_⟩
  unfold buildMap
  simp only
  rw [writeArray hoff hc.array hlt.le, Res.ok_bind, ← hm₁,
    (holds_off hc.dir).disableAllEntry (reaches_off hoff₁) (fun _ => Set.notMem_empty _),
    Res.ok_bind, h₃, Res.ok_bind]

/-- **Building the map** from the three chunks. -/
theorem buildMap_spec (hc : Chunks m₀ pt b) (hoff : m₀.cr3 = none)
    (hdir : ⟨.pageDir, m₀.kPdir, 1⟩ ∈ m₀.handed) (hpt : ⟨.other, pt, 1⟩ ∈ m₀.handed)
    (htab : ⟨.kernelTable, b, m₀.nrValidPages⟩ ∈ m₀.handed) (hr : m₀.buildMap pt b = .ok m') :
    KernelMap m' b ∧ 1 ≤ m₀.nrValidPages ∧
      m' = { m₀ with phys := m'.phys, handed := m'.handed, cr3 := some m₀.kPdir } ∧
      (m'.handed = m₀.handed ∨
        Grant.New ⟨.vramTable, m₀.answers .vramTable m₀.handed.length, 1⟩ m₀.handed ∧
        m'.handed = ⟨.vramTable, m₀.answers .vramTable m₀.handed.length, 1⟩ :: m₀.handed) ∧
      (m₀.nrValidPages ≤ 0x380 → m'.handed ≠ m₀.handed) ∧
      ∀ f, (∀ g ∈ m'.handed, f ∉ g.frames) → m'.phys f = m₀.phys f := by
  obtain ⟨m₃, hbuilt, heq⟩ := buildMap_eq hc hoff
  rw [heq] at hr
  obtain ⟨m₄, h₄, hr⟩ := Res.bind_eq_ok.mp hr
  have hlast : 0x3ff < 1024 := by omega
  obtain ⟨hmap, hsame⟩ := hbuilt.kernelMap (c := some m₀.kPdir) hc hoff hdir htab h₄ hlast
  obtain ⟨hhanded, hvram, hframe⟩ := hbuilt.handed hc hoff hdir hpt htab h₄
  have hoff₄ : m₄.cr3 = none := by rw [hsame]; exact hoff
  have hk : m₄.kPdir = m₀.kPdir := by rw [hsame]
  rw [(holds_off hc.dir).editEntry (reaches_off hoff₄) hlast (Set.notMem_empty _),
    Res.ok_bind] at hr
  obtain ⟨p, hp, hr⟩ := Res.bind_eq_ok.mp hr
  obtain rfl := Except.ok.inj hr
  refine ⟨hmap, ?_, ?_, hhanded, hvram, ?_⟩
  · -- with no straight map the next instruction is not mapped
    by_contra h0
    have hzero := hmap.gap 0 (by omega) (by
      have : m₄.nrValidPages = m₀.nrValidPages := by rw [hsame]; rfl
      show m₄.nrValidPages ≤ 0
      omega) (by omega)
    have hdx : dirIndex 0x00100000 = ⟨0, by omega⟩ := rfl
    have hzero' :
        (m₄.setWord (frameOf m₀.kPdir) ⟨0x3ff, hlast⟩ (entryWord v2ptable systempage)).phys
        (frameOf m₀.kPdir) ⟨0, by omega⟩ = 0 := by
      rw [← hk] at hzero ⊢
      exact hzero
    unfold addr translate at hp
    simp only [hdx, hzero'] at hp
    exact absurd hp (by rintro ⟨⟩)
  · conv_lhs => rw [hsame]
    simp only [setWord]
  · intro f hf
    have hfd : f ≠ frameOf m₀.kPdir := by
      rintro rfl
      exact hf _ (hk ▸ hmap.dirGrant) (frame_mem (by omega))
    show (m₄.setWord _ _ _).phys f = _
    rw [setWord_phys_of_ne hfd]
    exact hframe f hf

/-- The table of the VRAM has an entry for each of its pages. -/
theorem buildMap_window (hc : Chunks m₀ pt b) (hoff : m₀.cr3 = none)
    (hdir : ⟨.pageDir, m₀.kPdir, 1⟩ ∈ m₀.handed) (hr : m₀.buildMap pt b = .ok m')
    (hnr : m₀.nrValidPages ≤ 0x380) {j : Fin 1024} (hj : j.val < 512) :
    isEntryExist (m'.phys (frameOf (m'.phys (frameOf m₀.kPdir) 0x380)) j) = true := by
  obtain ⟨m₃, hbuilt, heq⟩ := buildMap_eq hc hoff
  rw [heq] at hr
  obtain ⟨m₄, h₄, hr⟩ := Res.bind_eq_ok.mp hr
  have hlast : 0x3ff < 1024 := by omega
  have hoff₃ : m₃.cr3 = none := by rw [hbuilt.same]; exact hoff
  rcases mappingPmem_spec hc hoff hbuilt hdir h₄ with ⟨hgt, -⟩ | ⟨-, t, pg, -, hnew, hz, rfl⟩
  · omega
  have hdt : frameOf m₀.kPdir ≠ frameOf t := fun e =>
    (hnew.2.2 _ hdir).not_mem (frame_mem (by omega)) (e ▸ frame_mem (by omega))
  have hreach : Reaches (((m₃.granted .vramTable t 1).setWord (frameOf m₀.kPdir) 0x380
      (entryWord t systempage)).setPage (frameOf t) pg) ∅ Set.univ id := reaches_off hoff₃
  rw [(holds_off hc.dir).editEntry hreach hlast (Set.notMem_empty _), Res.ok_bind] at hr
  obtain ⟨p, -, hr⟩ := Res.bind_eq_ok.mp hr
  obtain rfl := Except.ok.inj hr
  show isEntryExist ((setWord _ _ _ _).phys (frameOf ((setWord _ _ _ _).phys _ _)) j) = true
  rw [setLast_phys _ hlast (by decide), setPage_phys_of_ne hdt,
    setWord_phys_self, frameOf_entryWord, setWord_phys_of_ne hdt.symm, setPage_phys_self]
  exact hz.present j hj

/-- The three chunks `initPaging` asks for. -/
theorem chunks_of_new {d : UInt32} {l : List Grant} (hdnew : Grant.New ⟨.pageDir, d, 1⟩ m.handed)
    (hpnew : Grant.New ⟨.other, pt, 1⟩ (⟨.pageDir, d, 1⟩ :: m.handed))
    (hbnew : Grant.New ⟨.kernelTable, b, m.nrValidPages⟩
      (⟨.other, pt, 1⟩ :: ⟨.pageDir, d, 1⟩ :: m.handed)) :
    Chunks { m with handed := l, kPdir := d } pt b := by
  refine ⟨hdnew.1, hpnew.1, hbnew.1, hbnew.2.1, ?_, ?_, ?_⟩
  · intro e
    exact (hpnew.2.2 ⟨.pageDir, d, 1⟩ (by simp)).not_mem (frame_mem (by omega))
      (e ▸ frame_mem (by omega))
  · intro i hi e
    refine (hbnew.2.2 ⟨.pageDir, d, 1⟩ (by simp)).not_mem (f := frameOf b + i) ?_
      (e ▸ frame_mem (by omega))
    exact ⟨Nat.le_add_right _ _, Nat.add_lt_add_left hi _⟩
  · intro i hi e
    refine (hbnew.2.2 ⟨.other, pt, 1⟩ (by simp)).not_mem (f := frameOf b + i) ?_
      (e ▸ frame_mem (by omega))
    exact ⟨Nat.le_add_right _ _, Nat.add_lt_add_left hi _⟩

/-- What `initPaging` did when it returned: the kernel map, under which the machine now runs. -/
structure Booted (m m' : Machine) (b : UInt32) : Prop where
  tables_eq : m.answers .kernelTable (m.handed.length + 2) = b
  dir_eq : m.answers .pageDir m.handed.length = m'.kPdir
  map : KernelMap m' b
  dir_aligned : Aligned m'.kPdir
  aligned : Aligned b
  pos : 1 ≤ m'.nrValidPages
  bound : b.toNat + m'.nrValidPages * 4096 ≤ 4294967296
  same : m' =
    { m with phys := m'.phys, handed := m'.handed, kPdir := m'.kPdir, cr3 := some m'.kPdir }
  fresh : Fresh m.handed → Fresh m'.handed
  answered : ∀ g ∈ m'.handed, g ∈ m.handed ∨ m'.Answered g
  handed : m'.nrValidPages ≤ 0x380 →
    m'.handed = ⟨.vramTable, m.answers .vramTable (m.handed.length + 3), 1⟩ ::
      ⟨.kernelTable, b, m'.nrValidPages⟩ :: ⟨.other, m.answers .other (m.handed.length + 1), 1⟩ ::
      ⟨.pageDir, m'.kPdir, 1⟩ :: m.handed
  frame : ∀ f, (∀ g ∈ m'.handed, f ∉ g.frames) → m'.phys f = m.phys f

/-- The chunks of `initPaging`, and the map built from them. -/
theorem initPaging_parts (hr : m.initPaging = .ok m') : ∃ d pt b,
    m.answers .pageDir m.handed.length = d ∧ m.answers .other (m.handed.length + 1) = pt ∧
      m.answers .kernelTable (m.handed.length + 2) = b ∧ Grant.New ⟨.pageDir, d, 1⟩ m.handed ∧
      Grant.New ⟨.other, pt, 1⟩ (⟨.pageDir, d, 1⟩ :: m.handed) ∧
      Grant.New ⟨.kernelTable, b, m.nrValidPages⟩
        (⟨.other, pt, 1⟩ :: ⟨.pageDir, d, 1⟩ :: m.handed) ∧
      buildMap { m with
        handed := ⟨.kernelTable, b, m.nrValidPages⟩ :: ⟨.other, pt, 1⟩ ::
          ⟨.pageDir, d, 1⟩ :: m.handed,
        kPdir := d } pt b = .ok m' := by
  unfold initPaging at hr
  obtain ⟨r, hd, hr⟩ := Res.bind_eq_ok.mp hr
  obtain ⟨hdnew, rfl⟩ := allocChunk_eq_ok.mp hd
  obtain ⟨r, hp, hr⟩ := Res.bind_eq_ok.mp hr
  obtain ⟨hpnew, rfl⟩ := allocChunk_eq_ok.mp hp
  obtain ⟨r, hb, hr⟩ := Res.bind_eq_ok.mp hr
  obtain ⟨hbnew, rfl⟩ := allocChunk_eq_ok.mp hb
  exact ⟨_, _, _, rfl, rfl, rfl, hdnew, hpnew, hbnew, hr⟩

/-- **`initPaging`**, when it returns. -/
theorem initPaging_spec (hoff : m.cr3 = none) (hr : m.initPaging = .ok m') :
    ∃ b, Booted m m' b := by
  obtain ⟨d, pt, b, hdans, hpans, hbans, hdnew, hpnew, hbnew, hr⟩ := initPaging_parts hr
  have hc := chunks_of_new (l := ⟨.kernelTable, b, m.nrValidPages⟩ :: ⟨.other, pt, 1⟩ ::
    ⟨.pageDir, d, 1⟩ :: m.handed) hdnew hpnew hbnew
  obtain ⟨hmap, hnr, hsame, hhanded, hvram, hframe⟩ :=
    buildMap_spec hc hoff (by simp) (by simp) List.mem_cons_self hr
  have hk : m'.kPdir = d := by rw [hsame]
  have hn : m'.nrValidPages = m.nrValidPages := by rw [hsame]; rfl
  have ha : m'.answers = m.answers := by rw [hsame]
  refine ⟨b, hbans, hdans.trans hk.symm, hmap, ?_, hbnew.1, ?_, ?_, ?_, ?_, ?_, ?_, hframe⟩
  · rw [hk]
    exact hdnew.1
  · rw [hn]
    exact hnr
  · rw [hn]
    exact hbnew.2.1
  · rw [hk]
    exact hsame
  · intro hf
    rcases hhanded with he | ⟨hnew, he⟩
    · rw [he]
      exact ⟨hbnew, hpnew, hdnew, hf⟩
    · rw [he]
      exact ⟨hnew, hbnew, hpnew, hdnew, hf⟩
  · intro g hg
    have hlen : m.handed.length + 3 ≤ m'.handed.length := by
      rcases hhanded with he | ⟨-, he⟩
      · rw [he]
        exact Nat.le_refl _
      · rw [he]
        exact Nat.le_succ _
    have hg' : (g = ⟨.vramTable, m.answers .vramTable (m.handed.length + 3), 1⟩ ∧
          m.handed.length + 3 < m'.handed.length) ∨
        g = ⟨.kernelTable, b, m.nrValidPages⟩ ∨ g = ⟨.other, pt, 1⟩ ∨ g = ⟨.pageDir, d, 1⟩ ∨
        g ∈ m.handed := by
      rcases hhanded with he | ⟨-, he⟩
      · rw [he] at hg
        simp only [List.mem_cons] at hg
        exact Or.inr hg
      · rw [he] at hg ⊢
        simp only [List.mem_cons] at hg
        exact hg.imp_left fun hv => ⟨hv, Nat.lt_succ_self _⟩
    unfold Answered
    rw [ha, hn]
    rcases hg' with ⟨rfl, hlt⟩ | rfl | rfl | rfl | hg
    · exact Or.inr ⟨⟨_, hlt, rfl⟩, Or.inl rfl⟩
    · exact Or.inr ⟨⟨_, by omega, hbans⟩, Or.inr ⟨rfl, rfl⟩⟩
    · exact Or.inr ⟨⟨_, by omega, hpans⟩, Or.inl rfl⟩
    · exact Or.inr ⟨⟨_, by omega, hdans⟩, Or.inl rfl⟩
    · exact Or.inl hg
  · intro hle
    rw [hn, hk, hpans]
    rcases hhanded with he | ⟨-, he⟩
    · exact absurd he (hvram (hn ▸ hle))
    · exact he

/-- The pages of the VRAM are mapped from then on. -/
theorem initPaging_window (hoff : m.cr3 = none) (hr : m.initPaging = .ok m')
    (hnr : m.nrValidPages ≤ 0x380) {j : Fin 1024} (hj : j.val < 512) :
    isEntryExist (m'.phys (frameOf (m'.phys (frameOf m'.kPdir) 0x380)) j) = true := by
  obtain ⟨d, pt, b, -, -, -, hdnew, hpnew, hbnew, hr⟩ := initPaging_parts hr
  have hc := chunks_of_new (l := ⟨.kernelTable, b, m.nrValidPages⟩ :: ⟨.other, pt, 1⟩ ::
    ⟨.pageDir, d, 1⟩ :: m.handed) hdnew hpnew hbnew
  obtain ⟨-, -, hsame, -⟩ := buildMap_spec hc hoff (by simp) (by simp) List.mem_cons_self hr
  have hk : m'.kPdir = d := by rw [hsame]
  rw [hk]
  exact buildMap_window hc hoff (by simp) hr hnr hj

end Machine

end OwnOS.VarMem
