import OwnOS.VarMem.Layout
import OwnOS.VarMem.Locality
import OwnOS.VarMem.View

/-!
# `enableSpace` maps exactly the requested pages

The range is rounded to pages on both ends, and `vir2phy` reads the map of a directory (`look_eq`).
So what a call adds to that map (`Enabled`) is what it adds to the answers of `vir2phy`: the pages
of the range and no others, each with a frame of its own.

* `mem_rangePages`: the pages of a range.
* `enableSpace_exact`: the answers after a call.
* `enableSpace_not_exact`: an entry for frame 0 is no page to `vir2phy`, and a directory that is one
  of its own tables shows its new tables as pages.
-/

namespace OwnOS.VarMem

open Lib Lib.Word Machine

/-- The slots of a range. -/
def rangeSlots (v size : UInt32) : Set (Fin 1024) := {i | ∃ w ∈ rangePages v size, dirIndex w = i}

/-- The page of `a` is in the map of the directory at `pdir`, with frame 0. -/
def MapsNull (m : Machine) (pdir a : UInt32) : Prop :=
  layout m (frameOf pdir) (.page (dirIndex a) (tableIndex a)) = some 0

/-- `a` was not mapped, and is mapped to `p` now. -/
def NewlyMapped (m m' : Machine) (pdir a p : UInt32) : Prop :=
  m.vir2phy a pdir = .ok 0 ∧ m'.vir2phy a pdir = .ok p ∧ p ≠ 0

/-- **The pages of `[v, v + size)` are mapped, exactly**: the addresses of the range have an answer,
the answers from before stay, those outside the rounded range stay whatever they are, and new pages
have a frame each that is no table and was not in use. -/
structure ExactlyMapped (m m' : Machine) (pdir v size : UInt32) : Prop where
  mapped : ∀ a : UInt32, v.toNat ≤ a.toNat → a.toNat < v.toNat + size.toNat →
    ∃ p, m'.vir2phy a pdir = .ok p ∧ p.toNat % 4096 = a.toNat % 4096 ∧ (p = 0 → MapsNull m pdir a)
  kept : ∀ a p, m.vir2phy a pdir = .ok p → p ≠ 0 → m'.vir2phy a pdir = .ok p
  outside : ∀ a : UInt32, a.toNat < (floor4k v).toNat ∨ (ceil4k (v + size)).toNat ≤ a.toNat →
    m'.vir2phy a pdir = m.vir2phy a pdir
  apart : ∀ a a' p p', NewlyMapped m m' pdir a p → NewlyMapped m m' pdir a' p' →
    frameOf p = frameOf p' → SamePage a a'
  tables : ∀ a p i, NewlyMapped m m' pdir a p → isEntryExist (m'.phys (frameOf pdir) i) = true →
    frameOf (m'.phys (frameOf pdir) i) ≠ frameOf p
  fresh : ∀ a p, NewlyMapped m m' pdir a p → frameOf p ∉ inUse m

variable {m m' : Machine} {K : Set (Nat × Fin 1024)} {R : Set UInt32}
  {pdir type v size a w p x : UInt32} {slots : Set (Fin 1024)} {d f : Nat} {use : Use}

/-! ## The pages of a range -/

theorem floor4k_toNat (x : UInt32) : (floor4k x).toNat = x.toNat / 4096 * 4096 := caddrEntry_toNat x

theorem ceil4k_toNat (x : UInt32) :
    (ceil4k x).toNat = (x.toNat + 4095) % 4294967296 / 4096 * 4096 := by
  have h1 : (0x1000 : UInt32).toNat = 4096 := rfl
  have h2 : (1 : UInt32).toNat = 1 := rfl
  have hlt := toNat_lt x
  have hsum : (x + 0x1000 - 1).toNat = (x.toNat + 4095) % 4294967296 := by
    have hadd : (x + 0x1000).toNat = (x.toNat + 4096) % 4294967296 := by
      rw [UInt32.toNat_add, h1]
    rw [UInt32.toNat_sub, hadd, h2]
    omega
  have hceil : (ceil4k x).toNat = (x + 0x1000 - 1).toNat / 4096 * 4096 := caddrEntry_toNat _
  rw [hceil, hsum]

theorem samePage_iff : SamePage a w ↔ a.toNat / 4096 = w.toNat / 4096 := by
  unfold SamePage dirIndex tableIndex
  simp only [Fin.mk.injEq]
  omega

/-- The page of `a` has a byte of `[v, v + size)`. -/
def Covers (v size a : UInt32) : Prop :=
  v.toNat / 4096 ≤ a.toNat / 4096 ∧ a.toNat / 4096 * 4096 < v.toNat + size.toNat

theorem pageNum_eq (hall : (v.toNat + size.toNat + 4095) / 4096 - v.toNat / 4096 < 1048576) :
    pageNum v size = (v.toNat + size.toNat + 4095) / 4096 - v.toNat / 4096 := by
  have h1 : (0x1000 : UInt32).toNat = 4096 := rfl
  have hadd : (v + size).toNat = (v.toNat + size.toNat) % 4294967296 := UInt32.toNat_add v size
  have hceil := ceil4k_toNat (v + size)
  have hfloor := floor4k_toNat v
  have hv := toNat_lt v
  unfold pageNum
  rw [UInt32.toNat_div, UInt32.toNat_sub, hceil, hfloor, hadd, h1]
  omega

section
variable (hend : v.toNat + size.toNat ≤ 4294967296)
  (hall : (v.toNat + size.toNat + 4095) / 4096 - v.toNat / 4096 < 1048576)
include hend hall

theorem pageAt_toNat {k : Nat} (hk : k < pageNum v size) :
    (pageAt v k).toNat = (v.toNat / 4096 + k) * 4096 := by
  have h1 : (0x1000 : UInt32).toNat = 4096 := rfl
  rw [pageNum_eq hall] at hk
  have hk' : (UInt32.ofNat k).toNat = k :=
    UInt32.toNat_ofNat_of_lt' (by change k < 4294967296; omega)
  have hmul : (UInt32.ofNat k * 0x1000).toNat = k * 4096 := by
    rw [toNat_mul_of_lt (by rw [hk', h1]; omega), hk', h1]
  unfold pageAt
  rw [toNat_add_of_lt (by rw [hmul, floor4k_toNat]; omega), hmul, floor4k_toNat]
  omega

/-- **The pages of a range** are those that have a byte of it. -/
theorem mem_rangePages : (∃ w ∈ rangePages v size, SamePage a w) ↔ Covers v size a := by
  have hnum := pageNum_eq hall
  unfold rangePages Covers
  simp only [List.mem_map, List.mem_range, exists_exists_and_eq_and, samePage_iff]
  constructor
  · rintro ⟨k, hk, he⟩
    rw [pageAt_toNat hend hall hk] at he
    omega
  · rintro ⟨h1, h2⟩
    have hk : a.toNat / 4096 - v.toNat / 4096 < pageNum v size := by omega
    refine ⟨_, hk, ?_⟩
    rw [pageAt_toNat hend hall hk]
    omega

end

/-! ## `vir2phy` reads the map -/

/-- The answer for an address whose page is in the map. -/
theorem look_of_some (h : layout m d (.page (dirIndex a) (tableIndex a)) = some f) :
    (look m d a).toNat = f * 4096 + a.toNat % 4096 := by
  obtain ⟨e, he, rfl⟩ := layout_eq_some.mp h
  obtain ⟨h1, h2, rfl⟩ := entry_page.mp he
  unfold look
  rw [if_pos h1, if_pos h2]
  have hlt := toNat_lt (m.phys (frameOf (m.phys d (dirIndex a))) (tableIndex a))
  rw [toNat_add_of_lt (by rw [caddrEntry_toNat, and_fff]; omega), caddrEntry_toNat, and_fff]
  rfl

theorem look_of_none (h : layout m d (.page (dirIndex a) (tableIndex a)) = none) :
    look m d a = 0 := by
  have hn := layout_eq_none.mp h
  unfold look
  split
  · rename_i h1
    split
    · rename_i h2
      rw [entry_page.mpr ⟨h1, h2, rfl⟩] at hn
      exact absurd hn (by simp)
    · rfl
  · rfl

/-- The same entries give the same answer. -/
theorem look_eq_of_layout (h : layout m' d (.page (dirIndex a) (tableIndex a)) =
    layout m d (.page (dirIndex a) (tableIndex a))) : look m' d a = look m d a := by
  cases hm : layout m d (.page (dirIndex a) (tableIndex a)) with
  | none => rw [look_of_none hm, look_of_none (h.trans hm)]
  | some f => exact UInt32.toNat_inj.mp ((look_of_some (h.trans hm)).trans (look_of_some hm).symm)

/-- The page of an answer. -/
theorem layout_of_look (h : look m d a = p) (h0 : p ≠ 0) :
    layout m d (.page (dirIndex a) (tableIndex a)) = some (frameOf p) := by
  cases hm : layout m d (.page (dirIndex a) (tableIndex a)) with
  | none =>
    rw [look_of_none hm] at h
    exact absurd h.symm h0
  | some f =>
    have hp := look_of_some hm
    rw [h] at hp
    congr 1
    unfold frameOf
    omega

/-- `vir2phy` reads the tables the kernel addresses directly. -/
theorem PageDir.vir2phy (hp : PageDir m R pdir slots) (hd : Direct m K R) (h0 : pdir ≠ 0)
    (hv : ∀ e, entry m (frameOf pdir) (.table (dirIndex a)) = some e → Reached R (caddrEntry e)) :
    m.vir2phy a pdir = .ok (look m (frameOf pdir) a) := by
  refine vir2phy_eq_look hd.reaches hp.reached.holds h0 fun hi => ?_
  have h := (hv _ (entry_table.mpr ⟨hi, rfl⟩)).holds
  rwa [frameOf_caddrEntry] at h

/-- The page of `a` is one of the pages. -/
theorem page_mem_nodesOf {ws : List UInt32} :
    .page (dirIndex a) (tableIndex a) ∈ nodesOf ws ↔ ∃ w ∈ ws, SamePage a w := by
  simp [nodesOf, nodes, SamePage]

namespace Enabled

variable {ws : Set Node}

/-- A page of the map stays. -/
theorem look_kept (he : Enabled use d type ws m m')
    (h : layout m d (.page (dirIndex a) (tableIndex a)) = some f) : look m' d a = look m d a :=
  look_eq_of_layout ((he.extends_.keeps _ f h).trans h.symm)

/-- A page that is not asked for stays as it is. -/
theorem look_outside (he : Enabled use d type ws m m')
    (h : .page (dirIndex a) (tableIndex a) ∉ ws) :
    look m' d a = look m d a := by
  cases hm : layout m d (.page (dirIndex a) (tableIndex a)) with
  | some f => exact he.look_kept hm
  | none =>
    cases hm' : layout m' d (.page (dirIndex a) (tableIndex a)) with
    | none => rw [look_of_none hm, look_of_none hm']
    | some f => exact absurd (he.extends_.only _ f hm hm') h

/-- A page that has an answer it did not have is new in the map. -/
theorem look_new (he : Enabled use d type ws m m') (h : look m d a = 0) (h' : look m' d a = p)
    (h0 : p ≠ 0) : layout m d (.page (dirIndex a) (tableIndex a)) = none ∧
      layout m' d (.page (dirIndex a) (tableIndex a)) = some (frameOf p) := by
  refine ⟨?_, layout_of_look h' h0⟩
  cases hm : layout m d (.page (dirIndex a) (tableIndex a)) with
  | none => rfl
  | some f =>
    rw [he.look_kept hm, h] at h'
    exact absurd h'.symm h0

end Enabled

/-- **`enableSpace` maps exactly the requested pages**, or the allocator has no chunk left. -/
theorem enableSpace_exact (hp : PageDir m R pdir (rangeSlots v size)) (hd : Direct m K R)
    (hv : ∀ i e, entry m (frameOf pdir) (.table i) = some e → Reached R (caddrEntry e))
    (hg : Gives m .pageTable R) (hne : ∀ k, m.answers use k ≠ 0) (h0 : pdir ≠ 0)
    (htype : isEntryExist type = true)
    (hend : v.toNat + size.toNat ≤ 4294963200) :
    m.enableSpace v size pdir type use = .error (.panic "PFAallocator::cannot allocate segment") ∨
      ∃ m', m.enableSpace v size pdir type use = .ok m' ∧ ExactlyMapped m m' pdir v size := by
  rcases hp.enableSpace hd (fun w hw => ⟨w, hw, rfl⟩) hg (isEntryExist_iff.mp htype) with herr |
    ⟨m', hr, he⟩
  · exact Or.inl herr
  refine Or.inr ⟨m', hr, ?_⟩
  have hlook : ∀ a, m.vir2phy a pdir = .ok (look m (frameOf pdir) a) :=
    fun a => hp.vir2phy hd h0 (hv _)
  have hlook' : ∀ a, m'.vir2phy a pdir = .ok (look m' (frameOf pdir) a) :=
    fun a => (he.pageDir hp hg).vir2phy (he.direct hd) h0 fun _ hn => he.reached hg (hv _) hn
  have hrange : ∀ a, .page (dirIndex a) (tableIndex a) ∈ nodesOf (rangePages v size) ↔
      Covers v size a :=
    fun a => page_mem_nodesOf.trans (mem_rangePages (by omega) (by omega))
  have hadd : (v + size).toNat = v.toNat + size.toNat := toNat_add_of_lt (by omega)
  have hceil := ceil4k_toNat (v + size)
  have hfloor := floor4k_toNat v
  -- a new answer is a new place of the map
  have hnewly : ∀ a p, NewlyMapped m m' pdir a p →
      layout m (frameOf pdir) (.page (dirIndex a) (tableIndex a)) = none ∧
        layout m' (frameOf pdir) (.page (dirIndex a) (tableIndex a)) = some (frameOf p) := by
    rintro a p ⟨h1, h2, h3⟩
    rw [hlook] at h1
    rw [hlook'] at h2
    exact he.look_new (Except.ok.inj h1) (Except.ok.inj h2) h3
  refine ⟨?_, ?_, ?_, ?_, ?_, ?_⟩
  · intro a h1 h2
    obtain ⟨f, hf⟩ := he.extends_.defined _ ((hrange a).mpr ⟨by omega, by omega⟩)
    have hval := look_of_some hf
    refine ⟨_, hlook' a, by omega, fun h0 => ?_⟩
    have hz : (0 : UInt32).toNat = 0 := rfl
    rw [h0, hz] at hval
    obtain rfl : f = 0 := by omega
    rcases he.extends_.cases hf with hm | hm
    · exact hm
    · -- a new page has an address that the allocator answered with
      obtain ⟨e, hent, hef⟩ := layout_eq_some.mp hf
      obtain ⟨k, hk⟩ := he.given _ e (layout_eq_none.mp hm) hent
      refine absurd (hk.symm.trans (UInt32.toNat_inj.mp ?_)) (hne k)
      have he0 : e.toNat / 4096 = 0 := hef
      rw [caddrEntry_toNat, he0, hz]
  · intro a p h h0
    rw [hlook] at h
    have hlay := layout_of_look (Except.ok.inj h) h0
    rw [hlook', he.look_kept hlay]
    exact h
  · intro a ha
    rw [hlook, hlook', he.look_outside ?_]
    rw [hrange]
    unfold Covers
    omega
  · intro a a' p p' h h' hf
    obtain ⟨h1, h2⟩ := hnewly a p h
    obtain ⟨h1', h2'⟩ := hnewly a' p' h'
    rw [← hf] at h2'
    obtain ⟨hi, hj⟩ := Node.page.inj (he.extends_.inj _ _ _ h1 h1' h2 h2')
    exact ⟨hi, hj⟩
  · intro a p i h hi hf
    obtain ⟨h1, h2⟩ := hnewly a p h
    have hi' : layout m' (frameOf pdir) (.table i) = some (frameOf p) :=
      layout_eq_some.mpr ⟨_, entry_table.mpr ⟨hi, rfl⟩, hf⟩
    rcases he.extends_.cases hi' with hm | hm
    · obtain ⟨e, hent, hef⟩ := layout_eq_some.mp hm
      exact (he.extends_.fresh _ _ h1 h2).1 (hef ▸ (hp.table i e hent).1)
    · exact absurd (he.extends_.inj _ _ _ hm h1 hi' h2) (by simp)
  · intro a p h
    obtain ⟨h1, h2⟩ := hnewly a p h
    exact (he.extends_.fresh _ _ h1 h2).1

/-! ## A directory without paging -/

/-- Without paging every address is its own. -/
theorem direct_off (h : m.cr3 = none) : Direct m ∅ Set.univ :=
  ⟨reaches_off h, fun _ hx => absurd hx (by simp), fun _ hx => absurd hx (by simp)⟩

theorem reached_univ (h : Aligned a) : Reached Set.univ a := ⟨h, fun _ _ => trivial⟩

/-- A directory in frame 1 and a table in frame 2, before paging. -/
def dirMachine (dir table : Page) : Machine where
  phys f := if f = 1 then dir else if f = 2 then table else fun _ => 0
  cr3 := none
  answers _ k := UInt32.ofNat (0x1000 * (k % 8 + 1))
  handed := [⟨.pageTable, 0x2000, 1⟩, ⟨.pageDir, 0x1000, 1⟩]
  memSize := 0
  kPdir := 0x1000
  procs := []
  pCurrent := none

theorem dirMachine_ne (dir table : Page) (use : Use) (k : Nat) :
    (dirMachine dir table).answers use k ≠ 0 := by
  have hval : (dirMachine dir table).answers use k = UInt32.ofNat (0x1000 * (k % 8 + 1)) := rfl
  intro hk
  have hk' := congrArg UInt32.toNat (hval.symm.trans hk)
  rw [UInt32.toNat_ofNat_of_lt' (by change _ < 4294967296; omega)] at hk'
  have hz : (0 : UInt32).toNat = 0 := rfl
  omega

theorem dirMachine_pageDir {dir table : Page}
    (h : ∀ i, isEntryExist (dir i) = true → i = 0x100 ∧ frameOf (dir i) = 2) :
    PageDir (dirMachine dir table) Set.univ 0x1000 slots := by
  have hslot : ∀ i e, entry (dirMachine dir table) 1 (.table i) = some e →
      i = 0x100 ∧ frameOf e = 2 := by
    intro i e he
    obtain ⟨h1, rfl⟩ := entry_table.mp he
    exact h i h1
  refine ⟨reached_univ rfl, ?_, ?_, fun _ _ _ _ => reached_univ (aligned_caddrEntry _), ?_⟩
  · have h1 : 1 ∈ Grant.frames ⟨.pageDir, 0x1000, 1⟩ := frame_mem (by decide)
    exact Or.inl ⟨_, by simp [dirMachine], h1⟩
  · intro i e he
    obtain ⟨-, hf⟩ := hslot i e he
    rw [hf]
    refine ⟨?_, by decide⟩
    have h2 : 2 ∈ Grant.frames ⟨.pageTable, 0x2000, 1⟩ := frame_mem (by decide)
    exact Or.inl ⟨_, by simp [dirMachine], h2⟩
  · intro i _ j f hi hj
    obtain ⟨e, he, -⟩ := layout_eq_some.mp hi
    obtain ⟨e', he', -⟩ := layout_eq_some.mp hj
    rw [(hslot i e he).1, (hslot j e' he').1]

/-- A table under slot `0x100`. -/
def oneTable : Page := fun i => if i = 0x100 then 0x2017 else 0

theorem oneTable_slot (i : Fin 1024) (h : isEntryExist (oneTable i) = true) :
    i = 0x100 ∧ frameOf (oneTable i) = 2 := by
  by_cases hi : i = 0x100
  · subst hi
    exact ⟨rfl, by decide⟩
  · unfold oneTable at h
    rw [if_neg hi] at h
    exact absurd h (by decide)

/-- One byte more than a page, from the middle of a page. -/
theorem enableSpace_exact_two : ∃ m',
    (dirMachine oneTable fun _ => 0).enableSpace 0x40000800 0x1001 0x1000 userpage .data = .ok m' ∧
      ExactlyMapped (dirMachine oneTable fun _ => 0) m' 0x1000 0x40000800 0x1001 := by
  obtain ⟨m', hm⟩ : ∃ m', (dirMachine oneTable fun _ => 0).enableSpace 0x40000800
    0x1001 0x1000 userpage .data = .ok m' := ⟨_, rfl⟩
  have h : _ ∨ _ :=
    enableSpace_exact (v := 0x40000800) (dirMachine_pageDir oneTable_slot) (direct_off rfl)
    (fun _ _ _ => reached_univ (aligned_caddrEntry _)) (fun _ _ _ => trivial)
      (dirMachine_ne oneTable (fun _ => 0) .data) (by decide)
    (by decide : isEntryExist userpage = true)
    (by decide : (0x40000800 : UInt32).toNat + (0x1001 : UInt32).toNat ≤ 4294963200)
  rcases h with he | h
  · rw [hm] at he
    exact absurd he (by simp)
  · exact h

/-- A table whose first page is frame 0. -/
def nullTable : Page := fun i => if i = 0 then 0x17 else 0

/-- A directory that is the table of its last slot. -/
def selfDir : Page := fun i => if i = 0x3ff then 0x1017 else 0

/-- Outside those directories the promise fails: a page that was mapped to frame 0 stays NULL, a
directory that is its own table shows a new table at an address outside the range, and `vir2phy`
takes a directory at NULL for that of the running process. -/
theorem enableSpace_not_exact :
    (PageDir (dirMachine oneTable nullTable) Set.univ 0x1000 (rangeSlots 0x40000000 0x1000) ∧
      (∀ k, (dirMachine oneTable nullTable).answers .data k ≠ 0) ∧
      ∃ m', (dirMachine oneTable nullTable).enableSpace 0x40000000 0x1000 0x1000
        userpage .data = .ok m' ∧ m'.vir2phy 0x40000000 0x1000 = .ok 0) ∧
    (rangeSlots 0x40000000 0x1000 = {0x100} ∧ isEntryExist (selfDir 0x100) = false ∧
      (∀ k, (dirMachine selfDir fun _ => 0).answers .data k ≠ 0) ∧
      (dirMachine selfDir fun _ => 0).vir2phy 0xffd00000 0x1000 = .ok 0 ∧
      ∃ m', (dirMachine selfDir fun _ => 0).enableSpace 0x40000000 0x1000 0x1000
        userpage .data = .ok m' ∧ m'.vir2phy 0xffd00000 0x1000 = .ok 0x3000) ∧
    (isEntryExist ((dirMachine selfDir fun _ => 0).phys 0 0x100) = false ∧
      (∀ k, (dirMachine selfDir fun _ => 0).answers .data k ≠ 0) ∧
      ∃ m', (dirMachine selfDir fun _ => 0).enableSpace 0x40000000 0x1000 0
        userpage .data = .ok m' ∧ m'.vir2phy 0x40000000 0 = .error .fault) := by
  have hnum : pageNum 0x40000000 0x1000 = 1 := by decide
  have hoff : (dirMachine selfDir fun _ => 0).cr3 = none := rfl
  refine ⟨⟨dirMachine_pageDir oneTable_slot, dirMachine_ne _ _ _, _, rfl, by decide⟩,
    ⟨?_, by decide, dirMachine_ne _ _ _, by decide, ?_⟩, by decide, dirMachine_ne _ _ _, ?_⟩
  · have hpages : rangePages 0x40000000 0x1000 = [0x40000000] := by decide
    ext i
    simp only [rangeSlots, hpages, List.mem_singleton, exists_eq_left, Set.mem_ofPred_eq,
      Set.mem_singleton_iff]
    exact eq_comm
  · have hturn : (dirMachine selfDir fun _ => 0).enablePage 0x40000000 0x1000 userpage .data =
        .ok ((dirMachine selfDir fun _ => 0).mapNew 1 3 0x40000000 0x3000 0x4000 userpage .data) :=
      (holds_off (rfl : Aligned 0x1000)).enablePage_new (reaches_off hoff) (by decide) (by simp) rfl
        (by decide) (holds_off (rfl : Aligned 0x3000)) (by simp) rfl (by decide)
    have hr : (dirMachine selfDir fun _ => 0).enableSpace 0x40000000 0x1000 0x1000 userpage .data =
        .ok ((dirMachine selfDir fun _ => 0).mapNew 1 3 0x40000000 0x3000 0x4000 userpage .data) :=
      (enableSpace_one hnum).trans hturn
    refine ⟨_, hr, ?_⟩
    rw [vir2phy_eq_look (reaches_off rfl) (holds_off (a := 0x1000) rfl) (by decide) fun _ => ?_]
    · decide
    · exact holds_off (aligned_caddrEntry 0x1017)
  · have hturn : (dirMachine selfDir fun _ => 0).enablePage 0x40000000 0 userpage .data =
        .ok ((dirMachine selfDir fun _ => 0).mapNew 0 3 0x40000000 0x3000 0x4000 userpage .data) :=
      (holds_off (rfl : Aligned 0)).enablePage_new (reaches_off hoff) (by decide) (by simp) rfl
        (by decide) (holds_off (rfl : Aligned 0x3000)) (by simp) rfl (by decide)
    exact ⟨_, (enableSpace_one hnum).trans hturn, rfl⟩

end OwnOS.VarMem
