import OwnOS.VarMem.StraightMap

/-!
# What `enableSpace` and `copyKernelDir` write

One turn of `enableSpace` takes one of three ways: the page is there and nothing happens; the table
is there and gets an entry for a new frame; or the directory gets a new, cleared table first. Each
is an equation, under whatever map the kernel runs with (`Reaches`, `Holds`). `copyKernelDir` makes
the directory `kernelSlots`: the slots of the straight map and of the VRAM, and nothing else.
-/

namespace OwnOS.VarMem

open Lib Lib.Word

/-- The pages of a range. -/
def pageNum (virAddr size : UInt32) : Nat :=
  ((Machine.ceil4k (virAddr + size) - Machine.floor4k virAddr) / 0x1000).toNat

/-- Page `i` of a range. -/
def pageAt (virAddr : UInt32) (i : Nat) : UInt32 :=
  Machine.floor4k virAddr + UInt32.ofNat i * 0x1000

/-- The pages that `enableSpace` opens. -/
def rangePages (virAddr size : UInt32) : List UInt32 :=
  (List.range (pageNum virAddr size)).map (pageAt virAddr)

theorem aligned_pageAt (v : UInt32) (i : Nat) : Aligned (pageAt v i) := by
  have h1 : (0x1000 : UInt32).toNat = 4096 := rfl
  unfold Aligned pageAt Machine.floor4k
  rw [UInt32.toNat_add, UInt32.toNat_mul, h1, toNat_and_not_sub_one (k := 12) (by rfl), h1]
  omega

theorem rangePages_aligned {virAddr size w : UInt32} (h : w ∈ rangePages virAddr size) :
    Aligned w := by
  obtain ⟨i, -, rfl⟩ := List.mem_map.mp h
  exact aligned_pageAt virAddr i

namespace Machine

variable {m m' : Machine} {K : Set (Nat × Fin 1024)} {S : Set UInt32} {g : UInt32 → UInt32}
  {pdir type w s t : UInt32} {use : Use} {fd ft : Nat}

theorem enableSpace_eq {virAddr size : UInt32} : m.enableSpace virAddr size pdir type use =
    loop (fun i m => m.enablePage (pageAt virAddr i) pdir type use) (pageNum virAddr size) m := rfl

@[simp] theorem granted_phys {a : UInt32} {n : Nat} : (m.granted use a n).phys = m.phys := rfl

theorem allocChunk_granted {a : UInt32} {n : Nat} (ha : m.answers use m.handed.length = a)
    (hnew : Grant.New ⟨use, a, n⟩ m.handed) : m.allocChunk use n = .ok (m.granted use a n, a) :=
  allocChunk_eq_ok.mpr ⟨by rw [ha]; exact hnew, by rw [ha]; rfl⟩

/-- The table is there, and so is the page. -/
theorem Holds.enablePage_mapped (hd : Holds S g pdir fd) (hr : Reaches m K S g)
    (heD : isEntryExist (m.phys fd (dirIndex w)) = true)
    (ht : Holds S g (caddrEntry (m.phys fd (dirIndex w))) ft)
    (heT : isEntryExist (m.phys ft (tableIndex w)) = true) :
    m.enablePage w pdir type use = .ok m := by
  unfold enablePage
  rw [hd.tableOf_present hr (dirIndex w).isLt heD, Res.ok_bind]
  simp only [Fin.eta]
  rw [ht.load hr (tableIndex w).isLt, Res.ok_bind]
  simp only [Fin.eta, heT, Bool.not_true, Bool.false_eq_true, if_false]

/-- The table is there; the page is new. -/
theorem Holds.enablePage_page (hd : Holds S g pdir fd) (hr : Reaches m K S g)
    (heD : isEntryExist (m.phys fd (dirIndex w)) = true)
    (ht : Holds S g (caddrEntry (m.phys fd (dirIndex w))) ft)
    (heT : isEntryExist (m.phys ft (tableIndex w)) = false) (hK : (ft, tableIndex w) ∉ K)
    (hs : m.answers use m.handed.length = s) (hnew : Grant.New ⟨use, s, 1⟩ m.handed) :
    m.enablePage w pdir type use =
      .ok ((m.granted use s 1).setWord ft (tableIndex w) (entryWord s type)) := by
  have hr' : Reaches (m.granted use s 1) K S g := hr.of_agree ⟨rfl, fun _ _ => rfl⟩
  unfold enablePage
  rw [hd.tableOf_present hr (dirIndex w).isLt heD, Res.ok_bind]
  simp only [Fin.eta]
  rw [ht.load hr (tableIndex w).isLt, Res.ok_bind]
  simp only [Fin.eta, heT, Bool.not_false, if_true, allocChunk_granted hs hnew, Res.ok_bind]
  exact ht.editEntry hr' (tableIndex w).isLt hK s type

/-- The machine after a turn that made a table for the new page. -/
def mapNew (m : Machine) (fd ft : Nat) (w t s type : UInt32) (use : Use) : Machine :=
  ((((m.granted .pageTable t 1).setWord fd (dirIndex w) (entryWord t type)).granted use s 1).setPage
    ft (Function.update (fun _ => 0) (tableIndex w) (entryWord s type)))

/-- Table and page are new. -/
theorem Holds.enablePage_new (hd : Holds S g pdir fd) (hr : Reaches m K S g)
    (heD : isEntryExist (m.phys fd (dirIndex w)) = false) (hKd : (fd, dirIndex w) ∉ K)
    (ht : m.answers .pageTable m.handed.length = t) (htnew : Grant.New ⟨.pageTable, t, 1⟩ m.handed)
    (hh : Holds S g t ft) (hKt : ∀ j, (ft, j) ∉ K) (hs : m.answers use (m.handed.length + 1) = s)
    (hsnew : Grant.New ⟨use, s, 1⟩ (⟨.pageTable, t, 1⟩ :: m.handed)) :
    m.enablePage w pdir type use = .ok (m.mapNew fd ft w t s type use) := by
  have hr₁ :
      Reaches (((m.granted .pageTable t 1).setWord fd (dirIndex w) (entryWord t type)).setPage ft
      fun _ => 0) K S g := by
    have h1 : Reaches (m.granted .pageTable t 1) K S g := hr.of_agree ⟨rfl, fun _ _ => rfl⟩
    exact (h1.of_agree (agree_setWord hKd)).of_agree (agree_setPage hKt)
  have hr₂ : Reaches
    ((((m.granted .pageTable t 1).setWord fd (dirIndex w) (entryWord t type)).granted use s
      1).setPage ft fun _ => 0) K S g := hr₁.of_agree ⟨rfl, fun _ _ => rfl⟩
  have hz : isEntryExist 0 = false := rfl
  unfold enablePage
  rw [hd.tableOf_absent hr (dirIndex w).isLt heD ht htnew hh hKd hKt, Res.ok_bind]
  simp only [Fin.eta]
  rw [hh.load hr₁ (tableIndex w).isLt, Res.ok_bind, setPage_phys_self]
  simp only [hz, Bool.not_false, if_true]
  rw [allocChunk_granted hs hsnew, Res.ok_bind]
  simp only
  refine (hh.editEntry hr₂ (tableIndex w).isLt (hKt _) s type).trans ?_
  rw [setPage_setWord]
  rfl

/-- An entry is written into a table only with a new chunk. -/
theorem Holds.enablePage_page_new (hd : Holds S g pdir fd) (hr : Reaches m K S g)
    (heD : isEntryExist (m.phys fd (dirIndex w)) = true)
    (ht : Holds S g (caddrEntry (m.phys fd (dirIndex w))) ft)
    (heT : isEntryExist (m.phys ft (tableIndex w)) = false)
    (h : m.enablePage w pdir type use = .ok m') :
    Grant.New ⟨use, m.answers use m.handed.length, 1⟩ m.handed := by
  unfold enablePage at h
  rw [hd.tableOf_present hr (dirIndex w).isLt heD, Res.ok_bind] at h
  simp only [Fin.eta] at h
  rw [ht.load hr (tableIndex w).isLt, Res.ok_bind] at h
  simp only [Fin.eta, heT, Bool.not_false, if_true] at h
  obtain ⟨r, halloc, -⟩ := Res.bind_eq_ok.mp h
  exact (allocChunk_eq_ok.mp halloc).1

/-- A table is made only out of a new chunk. -/
theorem Holds.enablePage_table_new (hd : Holds S g pdir fd) (hr : Reaches m K S g)
    (heD : isEntryExist (m.phys fd (dirIndex w)) = false)
    (h : m.enablePage w pdir type use = .ok m') :
    Grant.New ⟨.pageTable, m.answers .pageTable m.handed.length, 1⟩ m.handed := by
  unfold enablePage at h
  obtain ⟨⟨m₁, t⟩, htab, -⟩ := Res.bind_eq_ok.mp h
  unfold tableOf at htab
  rw [hd.load hr (dirIndex w).isLt, Res.ok_bind] at htab
  simp only [Fin.eta, heD, Bool.not_false, if_true] at htab
  obtain ⟨r, halloc, -⟩ := Res.bind_eq_ok.mp htab
  exact (allocChunk_eq_ok.mp halloc).1

/-- The first page under a new table is new, too. -/
theorem Holds.enablePage_data_new (hd : Holds S g pdir fd) (hr : Reaches m K S g)
    (heD : isEntryExist (m.phys fd (dirIndex w)) = false) (hKd : (fd, dirIndex w) ∉ K)
    (ht : m.answers .pageTable m.handed.length = t) (htnew : Grant.New ⟨.pageTable, t, 1⟩ m.handed)
    (hh : Holds S g t ft) (hKt : ∀ j, (ft, j) ∉ K) (h : m.enablePage w pdir type use = .ok m') :
    Grant.New ⟨use, m.answers use (m.handed.length + 1), 1⟩ (⟨.pageTable, t, 1⟩ :: m.handed) := by
  have hr₁ :
      Reaches (((m.granted .pageTable t 1).setWord fd (dirIndex w) (entryWord t type)).setPage ft
      fun _ => 0) K S g := by
    have h1 : Reaches (m.granted .pageTable t 1) K S g := hr.of_agree ⟨rfl, fun _ _ => rfl⟩
    exact (h1.of_agree (agree_setWord hKd)).of_agree (agree_setPage hKt)
  have hz : isEntryExist 0 = false := rfl
  unfold enablePage at h
  rw [hd.tableOf_absent hr (dirIndex w).isLt heD ht htnew hh hKd hKt, Res.ok_bind] at h
  simp only [Fin.eta] at h
  rw [hh.load hr₁ (tableIndex w).isLt, Res.ok_bind, setPage_phys_self] at h
  simp only [hz, Bool.not_false, if_true] at h
  obtain ⟨r, halloc, -⟩ := Res.bind_eq_ok.mp h
  exact (allocChunk_eq_ok.mp halloc).1

/-! ## `copyKernelDir` -/

/-- The directory `copyKernelDir` makes out of the kernel's. -/
def kernelSlots (n : Nat) (k : Page) : Page := fun i => if i.val < n ∨ i.val = 0x380 then k i else 0

@[simp] theorem kernelSlots_vram (n : Nat) (k : Page) :
    kernelSlots n k 0x380 = k 0x380 := if_pos (Or.inr rfl)

/-- A loop that copies `n` words from slot `a` on. -/
theorem Holds.copySlots {k : UInt32} {fk a n : Nat} {q : Page} (hk : Holds S g k fk)
    (hd : Holds S g pdir fd) (hr : Reaches m K S g) (hKd : ∀ i, (fd, i) ∉ K) (hne : fd ≠ fk)
    (hn : a + n ≤ 1024) (hkp : m.kPdir = k) :
    loop (fun i m => do
      let w ← m.load (entryAddr m.kPdir (a + i))
      m.store (entryAddr pdir (a + i)) w) n (m.setPage fd q) =
      .ok (m.setPage fd fun i => if a ≤ i.val ∧ i.val < a + n then m.phys fk i else q i) := by
  have hfirst : m.setPage fd q = m.setPage fd fun i =>
      if a ≤ i.val ∧ i.val < a + 0 then m.phys fk i else q i := by
    congr 1
    funext i
    rw [if_neg (by omega)]
  rw [hfirst]
  refine loop_eq (fun n => m.setPage fd fun i =>
    if a ≤ i.val ∧ i.val < a + n then m.phys fk i else q i) ?_
  intro j hj
  have hlt : a + j < 1024 := by omega
  have hr' : Reaches (m.setPage fd fun i =>
      if a ≤ i.val ∧ i.val < a + j then m.phys fk i else q i) K S g :=
        hr.of_agree (agree_setPage hKd)
  have hkp' : (m.setPage fd fun i =>
      if a ≤ i.val ∧ i.val < a + j then m.phys fk i else q i).kPdir = k := hkp
  rw [hkp', hk.load hr' hlt, Res.ok_bind, hd.store hr' hlt, setPage_setWord,
    setPage_phys_of_ne hne.symm]
  congr 2
  funext i
  by_cases hi : i = ⟨a + j, hlt⟩
  · subst hi
    rw [Function.update_self, if_pos (by simp only; omega)]
  · have hne' : i.val ≠ a + j := fun e => hi (Fin.ext e)
    rw [Function.update_of_ne hi]
    by_cases hin : a ≤ i.val ∧ i.val < a + j
    · rw [if_pos hin, if_pos (by omega)]
    · rw [if_neg hin, if_neg (by omega)]

/-- **`copyKernelDir`** makes the kernel's slots. -/
theorem Holds.copyKernelDir {k : UInt32} {fk : Nat} (hk : Holds S g k fk) (hd : Holds S g pdir fd)
    (hr : Reaches m K S g) (hKd : ∀ i, (fd, i) ∉ K) (hne : fd ≠ fk) (hkp : m.kPdir = k) :
    m.copyKernelDir pdir = .ok (m.setPage fd (kernelSlots m.nrValidPages (m.phys fk))) := by
  have hlt := nrValidPages_lt m
  have hbeg : (0xe0000000 / dirEntrySize).toNat = 0x380 := rfl
  have hend : (0xe0200000 / dirEntrySize).toNat = 0x380 := rfl
  have hfirst := hk.copySlots (a := 0) (n := m.nrValidPages) (q := fun _ => 0) hd hr hKd hne
    (by omega) hkp
  simp only [Nat.zero_add] at hfirst
  unfold Machine.copyKernelDir
  rw [hd.disableAllEntry hr hKd, Res.ok_bind]
  simp only [hbeg, hend, Nat.add_sub_cancel_left]
  have hnr : (m.setPage fd fun _ => 0).nrValidPages = m.nrValidPages := rfl
  rw [hnr, hfirst, Res.ok_bind, hk.copySlots hd hr hKd hne (by omega) hkp]
  congr 2
  funext i
  unfold kernelSlots
  by_cases h1 : i.val < m.nrValidPages
  · by_cases h2 : 0x380 ≤ i.val ∧ i.val < 0x380 + 1
    · rw [if_pos h2, if_pos (Or.inl h1)]
    · rw [if_neg h2, if_pos ⟨Nat.zero_le _, h1⟩, if_pos (Or.inl h1)]
  · by_cases h2 : 0x380 ≤ i.val ∧ i.val < 0x380 + 1
    · rw [if_pos h2, if_pos (Or.inr (by omega))]
    · rw [if_neg h2, if_neg (fun h => h1 h.2), if_neg (by omega)]

end Machine

end OwnOS.VarMem
