import OwnOS.VarMem.ElfLoader
import OwnOS.VarMem.Isolation

/-!
# What `enableSpace` changes outside its directory

Runs of `copyKernelDir` into new directories, `enableSpace` on any of them with any range and type,
and switches between them, after `initPaging`. Every directory shares the tables of the straight map
and the VRAM table by pointer. The straight tables are full, so `enableSpace` never writes them; the
VRAM table covers 4 MiB and `initPaging` fills only the first half. A page of the range that falls
into the other half is written into that table, and with it into every address space. `local_iff` is
the exact condition.
-/

namespace OwnOS.VarMem

open Lib Lib.Word Machine

/-- The operations on directories. -/
inductive DirOp where
  | newDir
  | enableSpace (i : Nat) (virAddr size type : UInt32)
  | run (i : Nat)
  deriving DecidableEq

/-- A new directory, made as `makeSysProc` and `fork` make theirs (`Process.cpp:160-161`,
`task.cpp:129-130`). -/
def Machine.newDir (m : Machine) : Res Machine := do
  let (m, pdir) ← m.allocChunk .pageDir 1
  let m ← m.copyKernelDir pdir
  .ok { m with procs := m.procs ++ [⟨pdir, stackRegions, 0⟩] }

/-- One operation. -/
def dirStep (m : Machine) : DirOp → Res Machine
  | .newDir => m.newDir
  | .enableSpace i virAddr size type =>
    match m.procs[i]? with
    | none => .error .fault
    | some p => m.enableSpace virAddr size p.cr3 type .data
  | .run i => m.run i

/-- The page lies in the 4 MiB of the VRAM's directory slot, and the table there has no entry for
it. -/
def InSharedGap (m : Machine) (w : UInt32) : Prop :=
  (dirIndex w).val = 0x380 ∧
    isEntryExist (m.phys (frameOf (m.phys (frameOf m.kPdir) 0x380)) (tableIndex w)) = false

/-- Some page of the range is not mapped and falls into the shared VRAM table. -/
def Spills (m : Machine) (virAddr size : UInt32) : Prop :=
  ∃ i < pageNum virAddr size, InSharedGap m (pageAt virAddr i)

/-- The directories: the kernel's and those made from it. -/
def IsDir (m : Machine) (q : UInt32) : Prop := q = m.kPdir ∨ ∃ p ∈ m.procs, p.cr3 = q

/-- **Locality**: the answers of `vir2phy` are the same under every directory but `pdir`. -/
def LocalTo (pdir : UInt32) (m m' : Machine) : Prop :=
  ∀ q, IsDir m q → q ≠ pdir → ∀ a, m'.vir2phy a q = m.vir2phy a q

/-! ## `vir2phy` reads two words -/

/-- The answer of `vir2phy` for the directory in frame `d`. -/
def look (m : Machine) (d : Nat) (v : UInt32) : UInt32 :=
  if isEntryExist (m.phys d (dirIndex v)) then
    if isEntryExist (m.phys (frameOf (m.phys d (dirIndex v))) (tableIndex v)) then
      caddrEntry (m.phys (frameOf (m.phys d (dirIndex v))) (tableIndex v)) + (v &&& 0xfff)
    else 0
  else 0

theorem vir2phy_eq_look {m : Machine} {K : Set (Nat × Fin 1024)} {S : Set UInt32}
    {g : UInt32 → UInt32} {v d : UInt32} {fd : Nat} (hr : Reaches m K S g) (hd : Holds S g d fd)
    (hd0 : d ≠ 0)
    (ht : isEntryExist (m.phys fd (dirIndex v)) = true →
    Holds S g (caddrEntry (m.phys fd (dirIndex v))) (frameOf (m.phys fd (dirIndex v)))) :
    m.vir2phy v d = .ok (look m fd v) := by
  unfold vir2phy look
  simp only [if_neg hd0, Res.ok_bind, hd.load hr (dirIndex v).isLt, Fin.eta]
  cases heD : isEntryExist (m.phys fd (dirIndex v)) with
  | false => simp only [Bool.not_false, if_true, Bool.false_eq_true, if_false]
  | true =>
    simp only [Bool.not_true, Bool.false_eq_true, if_false, if_true,
      (ht heD).load hr (tableIndex v).isLt, Res.ok_bind, Fin.eta]
    cases heT : isEntryExist (m.phys (frameOf (m.phys fd (dirIndex v))) (tableIndex v)) with
    | false => simp only [Bool.not_false, if_true, Bool.false_eq_true, if_false]
    | true => simp only [Bool.not_true, Bool.false_eq_true, if_false, if_true]

theorem isEntryExist_entryWord_even {p t : UInt32} (h : t.toNat % 2 = 0) :
    isEntryExist (entryWord p t) = false := by
  rw [← Bool.not_eq_true, isEntryExist_iff, entryWord_toNat]
  omega

/-- Two tables that differ only in entries that are not present give the same answers. -/
theorem look_congr {m m' : Machine} {d : Nat} {v : UInt32} (hd : m'.phys d = m.phys d)
    (ht : isEntryExist (m.phys d (dirIndex v)) = true →
      m'.phys (frameOf (m.phys d (dirIndex v))) (tableIndex v) =
          m.phys (frameOf (m.phys d (dirIndex v))) (tableIndex v) ∨
        isEntryExist (m'.phys (frameOf (m.phys d (dirIndex v))) (tableIndex v)) = false ∧
          isEntryExist (m.phys (frameOf (m.phys d (dirIndex v))) (tableIndex v)) = false) :
    look m' d v = look m d v := by
  unfold look
  rw [hd]
  cases heD : isEntryExist (m.phys d (dirIndex v)) with
  | false => rfl
  | true =>
    rcases ht heD with he | ⟨he', he⟩
    · rw [he]
    · rw [he', he]
      rfl

/-! ## What the directories share -/

/-- The VRAM slot is the same in all directories, the kernel's own directory has no table but those
of the straight map, the VRAM's and, through slot `0x3ff`, frame 0, and no table is made at NULL. -/
structure Shared (m : Machine) (role : Roles) : Prop where
  present : isEntryExist (m.phys (frameOf m.kPdir) 0x380) = true
  vram : ∀ d, role d = some .dir → m.phys d 0x380 = m.phys (frameOf m.kPdir) 0x380
  slots : ∀ i : Fin 1024, isEntryExist (m.phys (frameOf m.kPdir) i) = true →
    (i.val < m.nrValidPages ∨ i.val = 0x380) ∨ frameOf (m.phys (frameOf m.kPdir) i) = 0
  tables_ne : ∀ k, m.answers .pageTable k ≠ 0

/-- A chunk that was handed out is page-aligned. -/
theorem Fresh.aligned {g : Grant} :
    ∀ {l : List Grant}, Fresh l → g ∈ l → g.addr.toNat % 4096 = 0 := by
  intro l
  induction l with
  | nil => exact fun _ hg => absurd hg List.not_mem_nil
  | cons x l ih =>
    rintro ⟨hx, hl⟩ hg
    rcases List.mem_cons.mp hg with rfl | hg
    · exact hx.1
    · exact ih hl hg

namespace Owned

variable {m m' : Machine} {b w q pdir type : UInt32} {role role' : Roles} {d x : Nat} {use : Use}

/-- The chunk of frame 0 is the answer NULL. -/
theorem grant_zero {r : Role} (h : Owned m b role) (hr : role 0 = some r) :
    ∃ use, r.serves use = true ∧ (use = .other ∨ ∃ k, m.answers use k = 0) := by
  obtain ⟨g, hg, hserves, hf⟩ := h.grant 0 r hr
  have haddr : g.addr = 0 := by
    have hal : g.addr.toNat % 4096 = 0 := h.fresh.aligned hg
    have h0 : frameOf g.addr = 0 := Nat.le_zero.mp hf.1
    unfold frameOf at h0
    rw [← UInt32.toNat_inj]
    show g.addr.toNat = 0
    omega
  refine ⟨g.use, hserves, ?_⟩
  rcases h.answered g hg with hu | ⟨⟨k, -, hk⟩, -⟩
  · exact Or.inl hu
  · exact Or.inr ⟨k, hk.trans haddr⟩

/-- Frame 0 is no directory. -/
theorem role_zero_dir {r : Role} (h : Owned m b role) (hr : role 0 = some r) :
    r ≠ .kernelDir ∧ r ≠ .dir := by
  obtain ⟨use, hserves, hu⟩ := h.grant_zero hr
  have hne : use ≠ .pageDir := by
    rintro rfl
    rcases hu with hu | ⟨k, hk⟩
    · exact absurd hu (by decide)
    · exact h.lowFrames.dirs k hk
  revert hserves hne
  cases r <;> cases use <;> simp [Role.serves]

/-- Frame 0 is no directory and no table of a process. -/
theorem role_zero {r : Role} (h : Owned m b role) (hs : Shared m role) (hr : role 0 = some r) :
    r ≠ .kernelDir ∧ r ≠ .dir ∧ ∀ d, r ≠ .table d := by
  obtain ⟨hk, hd⟩ := h.role_zero_dir hr
  refine ⟨hk, hd, ?_⟩
  rintro d rfl
  obtain ⟨use, hserves, hu⟩ := h.grant_zero hr
  have htable : use = .pageTable := by
    revert hserves
    cases use <;> simp [Role.serves]
  rcases hu with hu | ⟨k, hk⟩
  · exact absurd (htable.symm.trans hu) (by decide)
  · rw [htable] at hk
    exact hs.tables_ne k hk

/-- The frame of a directory. -/
def DirFrame (m : Machine) (role : Roles) (d : Nat) : Prop :=
  d = frameOf m.kPdir ∨ role d = some .dir

/-- The directories are not at NULL. -/
theorem dir_ne_zero (h : Owned m b role) (hq : DirFrame m role (frameOf q)) : q ≠ 0 := by
  rintro rfl
  have h0 : frameOf 0 = 0 := rfl
  rcases hq with hk | hd
  · have hk' := h.tables.kdir
    rw [← hk] at hk'
    exact (h.role_zero_dir hk').1 rfl
  · exact (h.role_zero_dir hd).2 rfl

/-- A directory lies below 4 MiB. -/
theorem dir_lt (h : Owned m b role) (hd : DirFrame m role d) : d < 1024 := by
  rcases hd with rfl | hd
  · exact h.lt h.tables.kdir (by simp)
  · exact h.lt hd (by simp)

/-- The table under a present slot of a directory: one of the kernel's, one of its own, or frame
0. -/
theorem table_cases {i : Fin 1024} (h : Owned m b role) (hs : Shared m role)
    (hd : DirFrame m role d) (hi : isEntryExist (m.phys d i) = true) :
    role (frameOf (m.phys d i)) = some .kernelTable ∨
      (role d = some .dir ∧ role (frameOf (m.phys d i)) = some (.table d)) ∨
      frameOf (m.phys d i) = 0 := by
  rcases hd with rfl | hd
  · rcases hs.slots i hi with hk | h0
    · exact Or.inl (h.tables.kernel_slot hk).2
    · exact Or.inr (Or.inr h0)
  · rcases h.tables.dirs d hd i hi with ⟨-, ht, -⟩ | ht
    · exact Or.inl ht
    · exact Or.inr (Or.inl ⟨hd, ht⟩)

/-- `vir2phy` on a directory reads the table under the slot, if that lies below 4 MiB. -/
theorem vir2phy_of_lt {v : UInt32} (h : Owned m b role) (ha : Aligned q)
    (hq : DirFrame m role (frameOf q))
    (ht : isEntryExist (m.phys (frameOf q) (dirIndex v)) = true →
    frameOf (m.phys (frameOf q) (dirIndex v)) < 1024) :
    m.vir2phy v q = .ok (look m (frameOf q) v) := by
  obtain ⟨c, -, hreach, -⟩ := h.reaches
  refine vir2phy_eq_look hreach (holds_frame ha (h.dir_lt hq)) (h.dir_ne_zero hq) fun hi => ?_
  have htab := holds_frame (aligned_caddrEntry (m.phys (frameOf q) (dirIndex v)))
    (by rw [frameOf_caddrEntry]; exact ht hi)
  rwa [frameOf_caddrEntry] at htab

/-- **`vir2phy`** never faults on a directory, and answers what its two words say. -/
theorem vir2phy (h : Owned m b role) (hs : Shared m role) (ha : Aligned q)
    (hq : DirFrame m role (frameOf q)) (v : UInt32) :
    m.vir2phy v q = .ok (look m (frameOf q) v) := by
  refine h.vir2phy_of_lt ha hq fun hi => ?_
  rcases h.table_cases hs hq hi with ht | ⟨-, ht⟩ | h0
  · exact h.lt ht (by simp)
  · exact h.lt ht (by simp)
  · omega

/-! ## One turn -/

/-- Only a page in the gap of the VRAM table makes a turn write into a table of the kernel. -/
theorem gap_of_kernelTable (h : Owned m b role) (hs : Shared m role) (hd : role d = some .dir)
    (hslot : isEntryExist (m.phys d (dirIndex w)) = true)
    (hT : role (frameOf (m.phys d (dirIndex w))) = some .kernelTable)
    (habs : isEntryExist (m.phys (frameOf (m.phys d (dirIndex w))) (tableIndex w)) = false) :
    InSharedGap m w := by
  have hcase : (dirIndex w).val < m.nrValidPages ∨ (dirIndex w).val = 0x380 := by
    rcases h.tables.dirs d hd _ hslot with ⟨-, -, hi⟩ | ht
    · exact hi
    · rw [hT] at ht
      exact absurd ht (by simp)
  rcases hcase with hi | hi
  · -- the straight tables are full
    rw [h.tables.shared d hd _ hi, h.tables.slots _ (dirIndex w).isLt hi, frameOf_entryWord,
      (chunk_frame h.tables.aligned h.tables.bound hi).2, (h.tables.straight _ hi).2,
      isEntryExist_entryWord systempage_odd] at habs
    exact absurd habs (by simp)
  · have he : dirIndex w = 0x380 := Fin.ext hi
    rw [he, hs.vram d hd] at habs
    exact ⟨hi, habs⟩

/-- A turn leaves the other directories as they are. -/
theorem Wrote.dir_eq (hw : Wrote d w type m role m' role') (h : Owned m b role)
    (hle : role.Le role') (hx : DirFrame m role x) (hne : x ≠ d) :
    m'.phys x = m.phys x := by
  have hrole : ∃ r, role x = some r ∧ (r = .kernelDir ∨ r = .dir) := by
    rcases hx with rfl | hx
    · exact ⟨_, h.tables.kdir, Or.inl rfl⟩
    · exact ⟨_, hx, Or.inr rfl⟩
  obtain ⟨r, hr, hcases⟩ := hrole
  rcases hw.frames x with he | he | he | ⟨hT, -⟩
  · exact he
  · exact absurd he hne
  · rw [hle x r hr] at he
    rcases hcases with rfl | rfl <;> simp at he
  · rw [hr] at hT
    rcases hcases with rfl | rfl <;> simp at hT

/-- A turn on a process directory keeps what the directories share. -/
theorem Wrote.shared (hw : Wrote d w type m role m' role') (hg : Grown use d m role m' role')
    (h : Owned m b role) (hs : Shared m role) (hd : role d = some .dir) : Shared m' role' := by
  have hk : m'.kPdir = m.kPdir := by rw [hg.same]
  have hn : m'.nrValidPages = m.nrValidPages := by rw [hg.same]; rfl
  have hans : m'.answers = m.answers := by rw [hg.same]
  have hkd : m'.phys (frameOf m.kPdir) = m.phys (frameOf m.kPdir) := by
    refine hw.dir_eq h hg.le (Or.inl rfl) ?_
    rintro rfl
    rw [h.tables.kdir] at hd
    exact absurd hd (by simp)
  refine ⟨?_, ?_, ?_, ?_⟩
  · rw [hk, hkd]
    exact hs.present
  · intro x hx
    have hx' := hw.dirs x hx
    have hp : isEntryExist (m.phys x 0x380) = true := by
      rw [hs.vram x hx']
      exact hs.present
    rw [hg.stable x _ hx' rfl _ hp, hk, hkd]
    exact hs.vram x hx'
  · rw [hk, hkd, hn]
    exact hs.slots
  · rw [hans]
    exact hs.tables_ne

/-- **One turn** changes no answer under another directory, unless it writes a present entry into
the gap of the VRAM table. -/
theorem Wrote.look_eq (hw : Wrote d w type m role m' role') (hg : Grown use d m role m' role')
    (h : Owned m b role) (h' : Owned m' b role') (hs : Shared m role) (hd : role d = some .dir)
    (hx : DirFrame m role x) (hne : x ≠ d) (hgap : type.toNat % 2 = 0 ∨ ¬ InSharedGap m w)
    (v : UInt32) : look m' x v = look m x v := by
  refine look_congr (hw.dir_eq h hg.le hx hne) fun hi => ?_
  have hs' := hw.shared hg h hs hd
  -- the table is neither the directory of the turn nor a table of that directory
  have hself : frameOf (m.phys x (dirIndex v)) ≠ d := by
    intro e
    rcases h.table_cases hs hx hi with ht | ⟨-, ht⟩ | h0
    · rw [e, hd] at ht
      exact absurd ht (by simp)
    · rw [e, hd] at ht
      exact absurd ht (by simp)
    · rw [← e, h0] at hd
      exact (h.role_zero hs hd).2.1 rfl
  have hown : role' (frameOf (m.phys x (dirIndex v))) ≠ some (.table d) := by
    intro e
    rcases h.table_cases hs hx hi with ht | ⟨-, ht⟩ | h0
    · rw [hg.le _ _ ht] at e
      exact absurd e (by simp)
    · rw [hg.le _ _ ht] at e
      exact hne (Role.table.inj (Option.some.inj e))
    · rw [h0] at e
      exact (h'.role_zero hs' e).2.2 d rfl
  rcases hw.frames (frameOf (m.phys x (dirIndex v))) with he | he | he |
    ⟨hT, hslot, hf, habs, a, he⟩
  · exact Or.inl (by rw [he])
  · exact absurd he hself
  · exact absurd he hown
  · rw [hf] at hT habs
    rcases hgap with heven | hgap
    · by_cases hv : tableIndex v = tableIndex w
      · refine Or.inr ⟨?_, ?_⟩
        · rw [he, hv, Function.update_self]
          exact isEntryExist_entryWord_even heven
        · rw [hv, hf]
          exact habs
      · exact Or.inl (by rw [he, Function.update_of_ne hv])
    · exact absurd (h.gap_of_kernelTable hs hd hslot hT habs) hgap

/-! ## A call -/

/-- The gap of the VRAM table only shrinks. -/
theorem Grown.gap (hg : Grown use d m role m' role') (h : Owned m b role)
    (hk : m'.phys (frameOf m.kPdir) = m.phys (frameOf m.kPdir)) (hgap : InSharedGap m' w) :
    InSharedGap m w := by
  have hkp : m'.kPdir = m.kPdir := by rw [hg.same]
  obtain ⟨hi, habs⟩ := hgap
  rw [hkp, hk] at habs
  refine ⟨hi, ?_⟩
  by_contra hp
  rw [Bool.not_eq_false] at hp
  rw [hg.stable _ _ h.tables.vram.2 rfl _ hp] at habs
  rw [hp] at habs
  exact absurd habs (by simp)

/-- **`enableSpace`** with any type on a process directory: the invariants, the pages it maps when
the type has the present bit, and what stays under the other directories. -/
theorem enableSpace_shared {virAddr size : UInt32} (h : Owned m b role) (hs : Shared m role)
    (ha : Aligned pdir) (hd : role (frameOf pdir) = some .dir)
    (hr : m.enableSpace virAddr size pdir type .data = .ok m') :
    ∃ role', Owned m' b role' ∧ Grown .data (frameOf pdir) m role m' role' ∧ Shared m' role' ∧
      m'.phys (frameOf m.kPdir) = m.phys (frameOf m.kPdir) ∧
      (type.toNat % 2 = 1 → ∀ i < pageNum virAddr size,
        Mapped m' (frameOf pdir) (pageAt virAddr i)) ∧
      (type.toNat % 2 = 0 ∨ ¬ Spills m virAddr size → ∀ x, DirFrame m role x → x ≠ frameOf pdir →
        ∀ v, look m' x v = look m x v) := by
  have hk : frameOf m.kPdir ≠ frameOf pdir := by
    intro e
    rw [← e, h.tables.kdir] at hd
    exact absurd hd (by simp)
  unfold Machine.enableSpace at hr
  -- the pages so far are mapped; the other directories answer as at the begin
  refine loop_invariant (n := pageNum virAddr size) (I := fun n s => n ≤ pageNum virAddr size →
    ∃ role', Owned s b role' ∧ Grown .data (frameOf pdir) m role s role' ∧ Shared s role' ∧
      s.phys (frameOf m.kPdir) = m.phys (frameOf m.kPdir) ∧
      (type.toNat % 2 = 1 → ∀ i < n, Mapped s (frameOf pdir) (pageAt virAddr i)) ∧
      (type.toNat % 2 = 0 ∨ ¬ Spills m virAddr size → ∀ x, DirFrame m role x → x ≠ frameOf pdir →
        ∀ v, look s x v = look m x v)) ?_ ?_ hr (Nat.le_refl _)
  · exact fun _ => ⟨role, h, Grown.refl, hs, rfl, fun _ i hi => absurd hi (Nat.not_lt_zero _),
      fun _ _ _ _ _ => rfl⟩
  · rintro n hn s s' hI hstep -
    obtain ⟨role₁, h₁, hg₁, hs₁, hk₁, hm₁, hl₁⟩ := hI (Nat.le_of_lt hn)
    have hd₁ := hg₁.le _ _ hd
    have hkp : s.kPdir = m.kPdir := by rw [hg₁.same]
    obtain ⟨role₂, h₂, hg₂, hm₂, hw⟩ := h₁.enablePage ha hd₁ (Or.inl rfl) hstep
    refine ⟨role₂, h₂, hg₁.trans hg₂, hw.shared hg₂ h₁ hs₁ hd₁, ?_, fun hodd i hi => ?_,
      fun hcond x hx hne v => ?_⟩
    · rw [← hk₁]
      exact hw.dir_eq h₁ hg₂.le (Or.inl (by rw [hkp])) hk
    · rcases Nat.lt_succ_iff_lt_or_eq.mp hi with hi | rfl
      · exact hg₂.mapped h₁ hd₁ (hm₁ hodd i hi)
      · exact hm₂ hodd
    · have hx₁ : DirFrame s role₁ x := by
        rcases hx with hx | hx
        · exact Or.inl (by rw [hkp]; exact hx)
        · exact Or.inr (hg₁.le _ _ hx)
      have hgap : type.toNat % 2 = 0 ∨ ¬ InSharedGap s (pageAt virAddr n) := by
        rcases hcond with heven | hno
        · exact Or.inl heven
        · exact Or.inr fun hgap => hno ⟨n, hn, hg₁.gap h hk₁ hgap⟩
      rw [hw.look_eq hg₂ h₁ h₂ hs₁ hd₁ hx₁ hne hgap v]
      exact hl₁ hcond x hx hne v

/-- A page that spilled with the present bit is mapped in the kernel's own directory afterwards. -/
theorem spilled_look (hs : Shared m role) (hs' : Shared m' role')
    (hd : role' (frameOf pdir) = some .dir) (hkp : m'.kPdir = m.kPdir)
    (hk : m'.phys (frameOf m.kPdir) = m.phys (frameOf m.kPdir)) (hw : Aligned w)
    (hgap : InSharedGap m w) (hm : Mapped m' (frameOf pdir) w) :
    look m' (frameOf m.kPdir) (w + 1) ≠ look m (frameOf m.kPdir) (w + 1) := by
  have hlt := toNat_lt w
  unfold Aligned at hw
  have h1 : (1 : UInt32).toNat = 1 := rfl
  have hw1 : (w + 1).toNat = w.toNat + 1 := by
    rw [toNat_add_of_lt (by rw [h1]; omega), h1]
  have hdw : dirIndex w = 0x380 := Fin.ext hgap.1
  have hdi : dirIndex (w + 1) = 0x380 := by
    rw [← hdw]
    refine Fin.ext ?_
    show (w + 1).toNat / 0x400000 = w.toNat / 0x400000
    omega
  have hti : tableIndex (w + 1) = tableIndex w := by
    refine Fin.ext ?_
    show (w + 1).toNat % 0x400000 / 0x1000 = w.toNat % 0x400000 / 0x1000
    omega
  have hbefore : look m (frameOf m.kPdir) (w + 1) = 0 := by
    unfold look
    rw [hdi, hti, hs.present, hgap.2]
    rfl
  -- the slot is the one every directory has
  have hent : isEntryExist (m'.phys (frameOf (m.phys (frameOf m.kPdir) 0x380)) (tableIndex w)) =
      true := by
    have := hm.2
    rw [hdw, hs'.vram _ hd, hkp, hk] at this
    exact this
  have hafter : look m' (frameOf m.kPdir) (w + 1) =
      caddrEntry (m'.phys (frameOf (m.phys (frameOf m.kPdir) 0x380)) (tableIndex w)) +
        ((w + 1) &&& 0xfff) := by
    unfold look
    rw [hdi, hti, hk, hs.present, if_pos rfl, if_pos hent]
  rw [hbefore, hafter]
  have hoff : ((w + 1) &&& 0xfff).toNat = 1 := by
    rw [and_fff, hw1]
    omega
  have hc := aligned_caddrEntry (m'.phys (frameOf (m.phys (frameOf m.kPdir) 0x380)) (tableIndex w))
  have hclt :=
    toNat_lt (caddrEntry (m'.phys (frameOf (m.phys (frameOf m.kPdir) 0x380)) (tableIndex w)))
  unfold Aligned at hc
  intro e
  rw [← UInt32.toNat_inj, toNat_add_of_lt (by rw [hoff]; omega), hoff] at e
  exact absurd e (by simp)

/-- **A call of `enableSpace`** is local exactly when it writes no present entry into the gap of the
VRAM table. -/
theorem local_iff {virAddr size : UInt32} {p : Proc} (h : Owned m b role) (hs : Shared m role)
    (hp : p ∈ m.procs) (hr : m.enableSpace virAddr size p.cr3 type .data = .ok m') :
    LocalTo p.cr3 m m' ↔ type.toNat % 2 = 0 ∨ ¬ Spills m virAddr size := by
  obtain ⟨ha, hd, -⟩ := h.procs p hp
  obtain ⟨role', h', hg, hs', hk, hmapped, hlook⟩ := h.enableSpace_shared hs ha hd hr
  have hkp : m'.kPdir = m.kPdir := by rw [hg.same]
  have hlocal : ∀ q, Aligned q → DirFrame m role (frameOf q) → ∀ v,
      (m'.vir2phy v q = m.vir2phy v q ↔ look m' (frameOf q) v = look m (frameOf q) v) := by
    intro q hq hdq v
    have hdq' : DirFrame m' role' (frameOf q) := by
      rcases hdq with hdq | hdq
      · exact Or.inl (by rw [hkp]; exact hdq)
      · exact Or.inr (hg.le _ _ hdq)
    rw [h.vir2phy hs hq hdq, h'.vir2phy hs' hq hdq']
    exact ⟨Except.ok.inj, congrArg Except.ok⟩
  constructor
  · intro hloc
    by_contra hcon
    rw [not_or, not_not] at hcon
    obtain ⟨hodd, i, hi, hgap⟩ := hcon
    have hne : m.kPdir ≠ p.cr3 := by
      intro e
      rw [← e, h.tables.kdir] at hd
      exact absurd hd (by simp)
    have hm := hmapped (by omega) i hi
    refine spilled_look hs hs' (hg.le _ _ hd) hkp hk (aligned_pageAt virAddr i) hgap hm ?_
    exact (hlocal m.kPdir h.dir_aligned (Or.inl rfl) _).mp (hloc m.kPdir (Or.inl rfl) hne _)
  · intro hcond q hq hne v
    have hq' : Aligned q ∧ DirFrame m role (frameOf q) := by
      rcases hq with rfl | ⟨p', hp', rfl⟩
      · exact ⟨h.dir_aligned, Or.inl rfl⟩
      · exact ⟨(h.procs p' hp').1, Or.inr (h.procs p' hp').2.1⟩
    have hframe : frameOf q ≠ frameOf p.cr3 := by
      intro e
      refine hne ?_
      have hqa := hq'.1
      unfold Aligned at hqa ha
      unfold frameOf at e
      rw [← UInt32.toNat_inj]
      omega
    exact (hlocal q hq'.1 hq'.2 v).mpr (hlook hcond _ hq'.2 hframe v)

/-! ## Runs -/

/-- **A new directory** shares the VRAM slot. -/
theorem newDir_shared (h : Owned m b role) (hs : Shared m role) (hr : m.newDir = .ok m') :
    ∃ role', Owned m' b role' ∧ Shared m' role' := by
  unfold Machine.newDir at hr
  obtain ⟨⟨m₁, pdir⟩, h₁, hr⟩ := Res.bind_eq_ok.mp hr
  obtain ⟨m₂, h₂, hr⟩ := Res.bind_eq_ok.mp hr
  obtain rfl := Except.ok.inj hr
  obtain ⟨hold, hself⟩ := h.newDir_phys h₁ h₂
  obtain ⟨hnone, ha, -, ho, hsame⟩ := h.newDir h₁ h₂
  have hprocs : m₂.procs = m.procs := by rw [hsame]
  refine ⟨_, ho.addProc ha Roles.assign_self rfl (by rw [hprocs]; exact h.cr3_ne hnone), ?_⟩
  have hkp : m₂.kPdir = m.kPdir := by rw [hsame]
  have hk : m₂.phys (frameOf m.kPdir) = m.phys (frameOf m.kPdir) := hold _ _ h.tables.kdir
  refine ⟨?_, ?_, ?_, ?_⟩
  · show isEntryExist (m₂.phys (frameOf m₂.kPdir) 0x380) = true
    rw [hkp, hk]
    exact hs.present
  · intro d hd
    show m₂.phys d 0x380 = m₂.phys (frameOf m₂.kPdir) 0x380
    rw [hkp, hk]
    by_cases he : d = frameOf pdir
    · subst he
      rw [hself, kernelSlots_vram]
    · rw [Roles.assign_of_ne he] at hd
      rw [hold d _ hd]
      exact hs.vram d hd
  · show ∀ i, isEntryExist (m₂.phys (frameOf m₂.kPdir) i) = true →
      (i.val < m₂.nrValidPages ∨ _) ∨ frameOf (m₂.phys (frameOf m₂.kPdir) i) = 0
    have hn : m₂.nrValidPages = m.nrValidPages := by rw [hsame]; rfl
    rw [hkp, hk, hn]
    exact hs.slots
  · show ∀ k, m₂.answers .pageTable k ≠ 0
    rw [hsame]
    exact hs.tables_ne

/-- **One operation** keeps what the directories share. -/
theorem dirStep_shared {op : DirOp} (h : Owned m b role) (hs : Shared m role)
    (hr : dirStep m op = .ok m') : ∃ role', Owned m' b role' ∧ Shared m' role' := by
  cases op with
  | newDir => exact h.newDir_shared hs hr
  | enableSpace i virAddr size type =>
    unfold dirStep at hr
    simp only at hr
    split at hr
    · exact absurd hr (by rintro ⟨⟩)
    · rename_i p hp
      obtain ⟨ha, hd, -⟩ := h.procs p (List.mem_of_getElem? hp)
      obtain ⟨role', h', -, hs', -⟩ := h.enableSpace_shared hs ha hd hr
      exact ⟨role', h', hs'⟩
  | run i =>
    have h' := h.run hr
    refine ⟨role, h', ?_⟩
    unfold dirStep Machine.run at hr
    simp only at hr
    split at hr
    · exact absurd hr (by rintro ⟨⟩)
    · obtain rfl := Except.ok.inj hr
      exact ⟨hs.present, hs.vram, hs.slots, hs.tables_ne⟩

/-- `initPaging` leaves the VRAM slot and slot `0x3ff`. -/
theorem init_shared {m₀ : Machine} (hb : Booted m₀ m b) (hne : ∀ k, m₀.answers .pageTable k ≠ 0) :
    Shared m (bootRoles m b) := by
  obtain ⟨t, hvram, -⟩ := hb.map.vram
  have hz : isEntryExist 0 = false := rfl
  refine ⟨?_, ?_, ?_, ?_⟩
  · rw [hvram]
    exact isEntryExist_entryWord systempage_odd
  · intro d hd
    rcases bootRoles_cases hd with ⟨-, hr⟩ | ⟨-, hr⟩ <;> simp at hr
  · intro i hi
    by_cases hn : i.val < m.nrValidPages
    · exact Or.inl (Or.inl hn)
    · rcases lt_trichotomy i.val 0x380 with hlt | heq | hgt
      · rw [hb.map.gap i.val i.isLt (by omega) hlt, hz] at hi
        exact absurd hi (by simp)
      · exact Or.inl (Or.inr heq)
      · by_cases hlast : i.val = 0x3ff
        · obtain rfl : i = 0x3ff := Fin.ext hlast
          right
          rw [hb.map.last, frameOf_entryWord]
          rfl
        · rw [hb.map.high i.val i.isLt (by omega) hgt (by omega), hz] at hi
          exact absurd hi (by simp)
  · rw [hb.same]
    exact hne

end Owned

/-- **`enableSpace` is local to its directory exactly when** its type has no present bit or no page
of the range that lies in the 4 MiB at `0xe0000000` is missing from the VRAM table; for every number
of directories and every run before the call. The chunks the kernel uses through pointers lie below
4 MiB, and none of them is NULL. -/
theorem enableSpace_local_iff {m₀ m₁ m m' : Machine} {ops : List DirOp} {p : Proc}
    {virAddr size type : UInt32} (hoff : m₀.cr3 = none) (hprocs : m₀.procs = [])
    (hcur : m₀.pCurrent = none) (hfresh : Fresh m₀.handed)
    (hother : ∀ g ∈ m₀.handed, g.use = .other) (hlow : LowFrames m₀)
    (hne : ∀ k, m₀.answers .pageTable k ≠ 0) (hinit : m₀.initPaging = .ok m₁)
    (hrun : Run dirStep (fun _ _ => True) m₁ ops m) (hp : p ∈ m.procs)
    (hr : m.enableSpace virAddr size p.cr3 type .data = .ok m') :
    LocalTo p.cr3 m m' ↔ type.toNat % 2 = 0 ∨ ¬ Spills m virAddr size := by
  obtain ⟨b, hb⟩ := initPaging_spec hoff hinit
  have h₁ := Owned.init hb hfresh hother hprocs hcur hlow
  obtain ⟨role, h, hs⟩ := hrun.invariant (I := fun m => ∃ role, Owned m b role ∧ Shared m role)
    (fun s o s' ⟨role, ho, hs⟩ _ hst => ho.dirStep_shared hs hst) ⟨_, h₁, Owned.init_shared hb hne⟩
  exact h.local_iff hs hp hr

/-! ## Two calls -/

/-- With 4 MiB, `initPaging` and one new directory. -/
theorem localMachine_run :
    ∃ m₁ m role, (procMachine 0x400000 0x6000 fun _ _ => 0).initPaging = .ok m₁ ∧
    Run dirStep (fun _ _ => True) m₁ [.newDir] m ∧ Owned m 0x3000 role ∧ Shared m role ∧
    m.procs = [⟨0x6000, stackRegions, 0⟩] ∧ m.kPdir = 0x1000 ∧
    m.handed = ⟨.pageDir, 0x6000, 1⟩ :: bootChunks 1 ∧
    m.answers = (procMachine 0x400000 0x6000 fun _ _ => 0).answers ∧
    (∀ i : Fin 1024, 1 ≤ i.val → i.val ≠ 0x380 → m.phys 6 i = 0) ∧
    ∀ j : Fin 1024, 512 ≤ j.val → m.phys (frameOf (m.phys 1 0x380)) j = 0 := by
  obtain ⟨m₁, h₁⟩ := initPaging_total (m := procMachine 0x400000 0x6000 fun _ _ => 0) rfl
    rfl rfl rfl rfl (by decide) (show Grant.New ⟨.pageDir, 0x1000, 1⟩ [] by decide)
    (show Grant.New ⟨.other, 0x2000, 1⟩ [⟨.pageDir, 0x1000, 1⟩] by decide)
    (show Grant.New ⟨.kernelTable, 0x3000, 1⟩ _ by decide)
    (show Grant.New ⟨.vramTable, 0x5000, 1⟩ (bootChunks 1).tail by decide)
  obtain ⟨b, hb⟩ := initPaging_spec rfl h₁
  obtain rfl : b = 0x3000 := hb.tables_eq.symm
  have hk : m₁.kPdir = 0x1000 := hb.dir_eq.symm
  have hn : m₁.nrValidPages = 1 := by
    rw [hb.same]
    show (0x400000 / dirEntrySize).toNat = 1
    decide
  have hh : m₁.handed = bootChunks 1 := by
    rw [hb.handed (by omega), hn, hk]
    rfl
  have hans : m₁.answers = (procMachine 0x400000 0x6000 fun _ _ => 0).answers := by rw [hb.same]
  have hp₁ : m₁.procs = [] := by rw [hb.same]; rfl
  have ho := Owned.init hb trivial (fun g hg => absurd hg List.not_mem_nil) rfl rfl
    procMachine_lowFrames
  have hs := Owned.init_shared hb fun k => by
    show (if k = 5 then (0x7000 : UInt32) else 0x8000) ≠ 0
    split <;> decide
  have hda : m₁.answers .pageDir m₁.handed.length = 0x6000 := by rw [hans, hh]; rfl
  have hdn : Grant.New ⟨.pageDir, 0x6000, 1⟩ m₁.handed := by rw [hh]; decide
  have h1 : frameOf 0x1000 = 1 := rfl
  have h6 : frameOf 0x6000 = 6 := rfl
  have hcopy := ho.copyKernelDir hda hdn
  rw [hn, hk, h1, h6] at hcopy
  obtain ⟨m, hm⟩ : ∃ m,
      m = { (m₁.setPage 6 (kernelSlots 1 (m₁.phys 1))).granted .pageDir 0x6000 1 with
    procs := [⟨0x6000, stackRegions, 0⟩] } := ⟨_, rfl⟩
  have hnew : m₁.newDir = .ok m := by
    unfold Machine.newDir
    rw [allocChunk_granted hda hdn, Res.ok_bind]
    simp only
    have hp₂ : ((m₁.setPage 6 (kernelSlots 1 (m₁.phys 1))).granted .pageDir 0x6000 1).procs = [] :=
      hp₁
    rw [hcopy, Res.ok_bind, hm, hp₂]
    rfl
  obtain ⟨role, ho', hs'⟩ := ho.newDir_shared hs hnew
  have hphys : m.phys = Function.update m₁.phys 6 (kernelSlots 1 (m₁.phys 1)) := by rw [hm]; rfl
  have hslot := hb.map.vram
  rw [hk, h1] at hslot
  refine ⟨m₁, m, role, h₁, Run.cons trivial hnew (Run.nil m), ho',
    hs', by rw [hm], ?_, ?_, ?_, ?_, ?_⟩
  · rw [hm]
    exact hk
  · rw [hm]
    show _ :: m₁.handed = _
    rw [hh]
  · rw [hm]
    exact hans
  · intro i hi hi'
    rw [hphys, Function.update_self]
    exact if_neg (by omega)
  · intro j hj
    obtain ⟨t, ht, g, hg, hu, hf⟩ := hslot
    have hend := hb.map.vramEnd (by omega) j hj
    rw [hk, h1] at hend
    -- the table is not the frame of the new directory
    have hne : frameOf (m₁.phys 1 0x380) ≠ 6 := by
      rw [ht, frameOf_entryWord]
      intro e
      rw [hh] at hg
      rw [e] at hf
      simp only [bootChunks, List.mem_cons, List.not_mem_nil, or_false] at hg
      rcases hg with rfl | rfl | rfl | rfl
      · exact absurd hf.2 (by decide)
      · exact absurd hf.2 (by decide)
      · exact absurd hu (by decide)
      · exact absurd hu (by decide)
    have hone : m.phys 1 = m₁.phys 1 := by
      rw [hphys]
      exact Function.update_of_ne (by decide) _ _
    rw [hone, hphys, Function.update_of_ne hne]
    exact hend

/-- A range of one page. -/
theorem enableSpace_one {m : Machine} {virAddr size pdir type : UInt32} {use : Use}
    (h : pageNum virAddr size = 1) :
    m.enableSpace virAddr size pdir type use = m.enablePage (pageAt virAddr 0) pdir type use := by
  unfold Machine.enableSpace
  have h' : ((ceil4k (virAddr + size) - floor4k virAddr) / 0x1000).toNat = 0 + 1 := h
  simp only [h']
  rfl

/-- A page at `0x40000000` is local to its directory. -/
theorem enableSpace_local_4MiB :
    ∃ m₁ m m', (procMachine 0x400000 0x6000 fun _ _ => 0).initPaging = .ok m₁ ∧
    Run dirStep (fun _ _ => True) m₁ [.newDir] m ∧ m.procs = [⟨0x6000, stackRegions, 0⟩] ∧
    m.enableSpace 0x40000000 0x1000 0x6000 userpage .data = .ok m' ∧ LocalTo 0x6000 m m' := by
  obtain ⟨m₁, m, role, h₁, hrun, ho, hs, hprocs, hk, hh, hans, hempty, -⟩ := localMachine_run
  have hp : (⟨0x6000, stackRegions, 0⟩ : Proc) ∈ m.procs := by
    rw [hprocs]
    exact List.mem_singleton_self _
  obtain ⟨ha, hd, -⟩ := ho.procs _ hp
  obtain ⟨c, -, hreach, hcr⟩ := ho.reaches
  have hta : m.answers .pageTable m.handed.length = 0x7000 := by rw [hans, hh]; rfl
  have htn : Grant.New ⟨.pageTable, 0x7000, 1⟩ m.handed := by rw [hh]; decide
  have hsa : m.answers .data (m.handed.length + 1) = 0x306000 := by rw [hans, hh]; rfl
  have hsn : Grant.New ⟨.data, 0x306000, 1⟩
    (⟨.pageTable, 0x7000, 1⟩ :: m.handed) := by rw [hh]; decide
  have hnone := ho.role_new htn (by omega)
  have heD : isEntryExist (m.phys (frameOf 0x6000) (dirIndex 0x40000000)) = false := by
    have h6 : frameOf 0x6000 = 6 := rfl
    have hz : isEntryExist 0 = false := rfl
    rw [h6, hempty _ (by decide) (by decide)]
    exact hz
  have hr : m.enableSpace 0x40000000 0x1000 0x6000 userpage .data =
      .ok (m.mapNew (frameOf 0x6000) (frameOf 0x7000) 0x40000000 0x7000 0x306000
        userpage .data) := by
    rw [enableSpace_one (by decide)]
    have hpage : pageAt 0x40000000 0 = 0x40000000 := by decide
    rw [hpage]
    refine (Owned.holds_frame ha (ho.lt hd (by simp))).enablePage_new hreach heD ?_ hta htn
      (holds_low htn.1 (by decide)) ?_ hsa hsn
    · refine ho.not_lowWords hcr ?_ (fun _ => heD) (fun _ => heD)
      rw [hd]
      simp
    · intro j
      refine ho.not_lowWords hcr ?_ ?_ ?_
      · simp [hnone]
      · simp [hnone]
      · simp [hnone]
  refine ⟨m₁, m, _, h₁, hrun, hprocs, hr, ?_⟩
  refine (@enableSpace_local_iff (procMachine 0x400000 0x6000 fun _ _ => 0) m₁ m _ [.newDir]
    ⟨0x6000, stackRegions, 0⟩ 0x40000000 0x1000 userpage rfl rfl rfl trivial
    (fun g hg => absurd hg List.not_mem_nil) procMachine_lowFrames (fun k => ?_) h₁ hrun hp hr).mpr
    (Or.inr ?_)
  · show (if k = 5 then (0x7000 : UInt32) else 0x8000) ≠ 0
    split <;> decide
  · rintro ⟨i, hi, hgap, -⟩
    have hone : pageNum 0x40000000 0x1000 = 1 := by decide
    obtain rfl : i = 0 := by omega
    exact absurd hgap (by decide)

/-- **The second half of the VRAM slot is not local**: one page at `0xe0200000` for one directory
appears in the kernel's own. -/
theorem enableSpace_spills :
    ∃ m₁ m m', (procMachine 0x400000 0x6000 fun _ _ => 0).initPaging = .ok m₁ ∧
    Run dirStep (fun _ _ => True) m₁ [.newDir] m ∧ m.procs = [⟨0x6000, stackRegions, 0⟩] ∧
    m.enableSpace 0xe0200000 0x1000 0x6000 userpage .data = .ok m' ∧ m.kPdir = 0x1000 ∧
    m.vir2phy 0xe0200000 0x1000 = .ok 0 ∧ m'.vir2phy 0xe0200000 0x1000 = .ok 0x305000 ∧
    ¬ LocalTo 0x6000 m m' := by
  obtain ⟨m₁, m, role, h₁, hrun, ho, hs, hprocs, hk, hh, hans, -, hend⟩ := localMachine_run
  have hp : (⟨0x6000, stackRegions, 0⟩ : Proc) ∈ m.procs := by
    rw [hprocs]
    exact List.mem_singleton_self _
  obtain ⟨ha, hd, -⟩ := ho.procs _ hp
  obtain ⟨c, -, hreach, hcr⟩ := ho.reaches
  have h1 : frameOf 0x1000 = 1 := rfl
  have hT := ho.tables.vram.2
  have hpresent := hs.present
  have hslot := hs.vram _ hd
  rw [hk, h1] at hT hpresent hslot
  have hsa : m.answers .data m.handed.length = 0x305000 := by rw [hans, hh]; rfl
  have hsn : Grant.New ⟨.data, 0x305000, 1⟩ m.handed := by rw [hh]; decide
  have hdi : dirIndex 0xe0200000 = 0x380 := by decide
  have hti : tableIndex 0xe0200000 = 512 := by decide
  have hz : isEntryExist 0 = false := rfl
  have habs : isEntryExist (m.phys (frameOf (m.phys 1 0x380)) (tableIndex 0xe0200000)) = false := by
    rw [hend _ (by rw [hti]; decide)]
    exact hz
  have htab : Holds low id (caddrEntry (m.phys (frameOf 0x6000) (dirIndex 0xe0200000)))
      (frameOf (m.phys 1 0x380)) := by
    have ht := Owned.holds_frame (aligned_caddrEntry (m.phys 1 0x380))
      (by rw [frameOf_caddrEntry]; exact ho.lt hT (by simp))
    rw [frameOf_caddrEntry] at ht
    rw [hdi, hslot]
    exact ht
  have hr : m.enableSpace 0xe0200000 0x1000 0x6000 userpage .data =
    .ok ((m.granted .data 0x305000 1).setWord
      (frameOf (m.phys 1 0x380)) (tableIndex 0xe0200000) (entryWord 0x305000 userpage)) := by
    rw [enableSpace_one (by decide)]
    have hpage : pageAt 0xe0200000 0 = 0xe0200000 := by decide
    rw [hpage]
    refine (Owned.holds_frame ha (ho.lt hd (by simp))).enablePage_page hreach ?_
      htab habs ?_ hsa hsn
    · rw [hdi, hslot]
      exact hpresent
    · refine ho.not_lowWords hcr ?_ ?_ (fun _ => habs)
      · simp [hT]
      · simp [hT]
  obtain ⟨m', hm'⟩ : ∃ m', m' = (m.granted .data 0x305000 1).setWord (frameOf (m.phys 1 0x380))
    (tableIndex 0xe0200000) (entryWord 0x305000 userpage) := ⟨_, rfl⟩
  rw [← hm'] at hr
  obtain ⟨role', ho', hg, hs', hkd, -, -⟩ := ho.enableSpace_shared hs ha hd hr
  rw [hk, h1] at hkd
  have hkp : m'.kPdir = 0x1000 := by rw [hm']; exact hk
  have hbefore : m.vir2phy 0xe0200000 0x1000 = .ok 0 := by
    rw [ho.vir2phy hs (hk ▸ ho.dir_aligned) (Or.inl (by rw [hk])), h1]
    unfold look
    rw [hdi, hpresent, if_pos rfl, habs]
    rfl
  have hafter : m'.vir2phy 0xe0200000 0x1000 = .ok 0x305000 := by
    rw [ho'.vir2phy hs' (hk ▸ ho.dir_aligned) (Or.inl (by rw [hkp])), h1]
    unfold look
    rw [hdi, hkd, hpresent, if_pos rfl, hm', setWord_phys_self]
    decide
  refine ⟨m₁, m, m', h₁, hrun, hprocs, hr, hk, hbefore, hafter, fun hloc => ?_⟩
  have he := hloc 0x1000 (Or.inl hk.symm) (by decide) 0xe0200000
  rw [hbefore, hafter] at he
  exact absurd he (by decide)

end OwnOS.VarMem
