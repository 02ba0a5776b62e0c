import OwnOS.VarMem.Roles

/-!
# The invariant of the address spaces

`Owned m b role`: the directories and tables are as `Tables` says, every role stands on a chunk of
the right kind, the processes have directories of their own, and the running directory is the
kernel's or that of the current process. It is kept by a turn of `enableSpace` on a process
directory (`Owned.enablePage`), as long as the frames the kernel itself follows pointers into lie
below 4 MiB (`LowFrames`): only there the map is straight.
-/

namespace OwnOS.VarMem

open Lib Lib.Word

/-- The chunks the kernel reads and writes through pointers after `initPaging`. -/
def Use.touched : Use → Bool
  | .pageDir => true
  | .pageTable => true
  | .vramTable => true
  | .kernelStack => true
  | .copied => true
  | _ => false

/-- The allocator answers with frames below 4 MiB where the kernel will use them through pointers,
and not with NULL for a directory. -/
structure LowFrames (m : Machine) : Prop where
  tables : ∀ k, (m.answers .kernelTable k).toNat + m.nrValidPages * 4096 ≤ 0x400000
  touched : ∀ use k, use.touched = true → (m.answers use k).toNat < 0x400000
  dirs : ∀ k, m.answers .pageDir k ≠ 0

/-- The answers after `initPaging`, which has the tables of the straight map. -/
structure LowAnswers (m : Machine) : Prop where
  touched : ∀ use k, use.touched = true → (m.answers use k).toNat < 0x400000
  dirs : ∀ k, m.answers .pageDir k ≠ 0

theorem LowFrames.answers {m : Machine} (h : LowFrames m) : LowAnswers m := ⟨h.touched, h.dirs⟩

theorem LowAnswers.congr {m m' : Machine} (h : LowAnswers m) (ha : m'.answers = m.answers) :
    LowAnswers m' := by
  refine ⟨?_, ?_⟩
  · rw [ha]
    exact h.touched
  · rw [ha]
    exact h.dirs

/-- The invariant. -/
structure Owned (m : Machine) (b : UInt32) (role : Roles) : Prop where
  tables : Tables m b role
  fresh : Fresh m.handed
  grant : ∀ f r, role f = some r → ∃ g ∈ m.handed, r.serves g.use = true ∧ f ∈ g.frames
  answered : ∀ g ∈ m.handed, g.use = .other ∨ m.Answered g
  straightTables : ∀ g ∈ m.handed, g.use = .kernelTable → ∀ f ∈ g.frames, f < 1024
  lowFrames : LowAnswers m
  dir_aligned : Aligned m.kPdir
  pos : 1 ≤ m.nrValidPages
  procs : ∀ p ∈ m.procs, Aligned p.cr3 ∧ role (frameOf p.cr3) = some .dir ∧
    p.regions = Machine.stackRegions
  nodup : (m.procs.map fun p => frameOf p.cr3).Nodup
  running : m.pCurrent = none ∧ m.cr3 = some m.kPdir ∨
    ∃ i p, m.pCurrent = some i ∧ m.procs[i]? = some p ∧ m.cr3 = some p.cr3

/-- No frame is in two chunks. -/
theorem Fresh.unique {g g' : Grant} {f : Nat} : ∀ {l : List Grant}, Fresh l → g ∈ l → g' ∈ l →
    f ∈ g.frames → f ∈ g'.frames → g = g' := by
  intro l
  induction l with
  | nil => exact fun _ hg => absurd hg List.not_mem_nil
  | cons x l ih =>
    rintro ⟨hx, hl⟩ hg hg' hf hf'
    rcases List.mem_cons.mp hg with rfl | hgl
    · rcases List.mem_cons.mp hg' with rfl | hgl'
      · rfl
      · exact absurd hf' ((hx.2.2 g' hgl').not_mem hf)
    · rcases List.mem_cons.mp hg' with rfl | hgl'
      · exact absurd hf ((hx.2.2 g hgl).not_mem hf')
      · exact ih hl hgl hgl' hf hf'

namespace Owned

open Machine

variable {m m' : Machine} {b a c w pdir : UInt32} {role : Roles} {f d : Nat} {r : Role} {use : Use}

/-- A chunk the kernel follows pointers into lies below 4 MiB. -/
theorem grant_lt (h : Owned m b role) {g : Grant} (hg : g ∈ m.handed)
    (hu : g.use.touched = true ∨ g.use = .kernelTable) (hf : f ∈ g.frames) : f < 1024 := by
  rcases hu with hu | hu
  · obtain ⟨h1, h2⟩ := hf
    unfold frameOf at h1 h2
    rcases h.answered g hg with he | ⟨⟨k, -, hk⟩, hn⟩
    · rw [he] at hu
      exact absurd hu (by simp [Use.touched])
    · have hlt := h.lowFrames.touched g.use k hu
      rw [hk] at hlt
      rcases hn with hn | ⟨hn, -⟩
      · omega
      · rw [hn] at hu
        exact absurd hu (by simp [Use.touched])
  · exact h.straightTables g hg hu f hf

/-- Everything but the pages of data lies below 4 MiB. -/
theorem lt (h : Owned m b role) (hf : role f = some r) (hr : ∀ d, r ≠ .data d) : f < 1024 := by
  obtain ⟨g, hg, hs, hfg⟩ := h.grant f r hf
  refine h.grant_lt hg ?_ hfg
  cases r with
  | data d => exact absurd rfl (hr d)
  | _ => cases hu : g.use <;> simp_all [Role.serves, Use.touched]

/-- A frame of a new chunk has no role. -/
theorem role_new {n : Nat} (h : Owned m b role) (hnew : Grant.New ⟨use, a, n⟩ m.handed)
    (hn : 0 < n) :
    role (frameOf a) = none := by
  cases hr : role (frameOf a) with
  | none => rfl
  | some r =>
    obtain ⟨g, hg, -, hf⟩ := h.grant _ r hr
    exact absurd hf ((hnew.2.2 g hg).not_mem (frame_mem hn))

/-- A store that keeps the tables keeps the invariant. -/
theorem of_tables (h : Owned m b role) (hs : m' = { m with phys := m'.phys })
    (ht : Tables m' b role) :
    Owned m' b role := by
  have hn : m'.nrValidPages = m.nrValidPages := by rw [hs]; rfl
  refine ⟨ht, ?_, ?_, ?_, ?_, ?_, ?_, ?_, ?_, ?_, ?_⟩
  · rw [hs]
    exact h.fresh
  · rw [hs]
    exact h.grant
  · rw [hs]
    exact h.answered
  · rw [hs]
    exact h.straightTables
  · exact h.lowFrames.congr (by rw [hs])
  · rw [hs]
    exact h.dir_aligned
  · rw [hn]
    exact h.pos
  · rw [hs]
    exact h.procs
  · rw [hs]
    exact h.nodup
  · rw [hs]
    exact h.running

/-- A new chunk, and the role of its frame. -/
theorem give (h : Owned m b role) (ha : m.answers use m.handed.length = a)
    (hnew : Grant.New ⟨use, a, 1⟩ m.handed) (hs : r.serves use = true) (hk : use ≠ .kernelTable)
    (ht : Tables (m.granted use a 1) b (role.assign (frameOf a) r)) :
    Owned (m.granted use a 1) b (role.assign (frameOf a) r) := by
  have hle : role.Le (role.assign (frameOf a) r) := Roles.le_assign (h.role_new hnew (by omega))
  refine ⟨ht, ⟨hnew, h.fresh⟩, ?_, ?_, ?_, h.lowFrames.congr rfl, h.dir_aligned, h.pos, ?_, h.nodup,
    h.running⟩
  · intro x r' hx
    by_cases he : x = frameOf a
    · subst he
      rw [Roles.assign_self] at hx
      obtain rfl := Option.some.inj hx
      exact ⟨_, List.mem_cons_self, hs, frame_mem (by omega)⟩
    · rw [Roles.assign_of_ne he] at hx
      obtain ⟨g, hg, hs', hf⟩ := h.grant x r' hx
      exact ⟨g, List.mem_cons_of_mem _ hg, hs', hf⟩
  · intro g hg
    rcases List.mem_cons.mp hg with rfl | hg
    · exact Or.inr ⟨⟨_, Nat.lt_succ_self _, ha⟩, Or.inl rfl⟩
    · exact (h.answered g hg).imp_right fun ⟨⟨k, hlt, hk⟩, hn⟩ =>
        ⟨⟨k, Nat.lt_succ_of_lt hlt, hk⟩, hn⟩
  · intro g hg hu
    rcases List.mem_cons.mp hg with rfl | hg
    · exact absurd hu hk
    · exact h.straightTables g hg hu
  · intro p hp
    obtain ⟨h1, h2, h3⟩ := h.procs p hp
    exact ⟨h1, hle _ _ h2, h3⟩

/-- Frames without entries may hold anything. -/
theorem scratch (h : Owned m b role) (hs : m' = { m with phys := m'.phys })
    (hp : ∀ x r, role x = some r → r.structural = true → m'.phys x = m.phys x) : Owned m' b role :=
  h.of_tables hs (h.tables.congr (by rw [hs]) (by rw [hs]) hp)

/-- The running directory is that of the process that runs. -/
theorem cr3_of_current {i : Nat} {p : Proc} (h : Owned m b role) (hi : m.pCurrent = some i)
    (hp : m.procs[i]? = some p) : m.cr3 = some p.cr3 := by
  rcases h.running with ⟨hnone, -⟩ | ⟨j, q, hj, hq, hc⟩
  · rw [hnone] at hi
    exact absurd hi (by simp)
  · obtain rfl : i = j := Option.some.inj (hi.symm.trans hj)
    obtain rfl : p = q := Option.some.inj (hp.symm.trans hq)
    exact hc

/-- **The running directory** maps the first 4 MiB straight. -/
theorem reaches (h : Owned m b role) : ∃ c, m.cr3 = some c ∧ Reaches m (lowWords c b) low id ∧
    (role (frameOf c) = some .kernelDir ∨ role (frameOf c) = some .dir) := by
  have hzero : m.phys (frameOf m.kPdir) 0 = entryWord b systempage := by
    have h0 := h.tables.slots 0 (by omega) h.pos
    have hb : b + 0x1000 * UInt32.ofNat 0 = b := by simp
    rwa [hb] at h0
  have htab := (h.tables.straight 0 h.pos).2
  rcases h.running with ⟨-, hc⟩ | ⟨i, p, -, hp, hc⟩
  · exact ⟨m.kPdir, hc, reaches_low hc hzero htab, Or.inl h.tables.kdir⟩
  · obtain ⟨-, hrole, -⟩ := h.procs p (List.mem_of_getElem? hp)
    refine ⟨p.cr3, hc, reaches_low hc ?_ htab, Or.inr hrole⟩
    rw [h.tables.shared _ hrole 0 h.pos]
    exact hzero

/-- The words of the straight map are in the kernel's table and in slot 0 of a directory. -/
theorem not_lowWords {i : Fin 1024} (h : Owned m b role)
    (hc : role (frameOf c) = some .kernelDir ∨ role (frameOf c) = some .dir)
    (hdir : role f ≠ some .kernelDir)
    (hslot : role f = some .dir → isEntryExist (m.phys f i) = false)
    (htab : role f = some .kernelTable → isEntryExist (m.phys f i) = false) :
    (f, i) ∉ lowWords c b := by
  rintro (he | he)
  · obtain ⟨rfl, rfl⟩ := Prod.mk.inj he
    rcases hc with hc | hc
    · exact hdir hc
    · have habs := hslot hc
      rw [h.tables.shared _ hc 0 h.pos] at habs
      have h0 := h.tables.slots 0 (by omega) h.pos
      have h0' : m.phys (frameOf m.kPdir) 0 = entryWord (b + 0x1000 * UInt32.ofNat 0) systempage :=
        h0
      rw [h0', isEntryExist_entryWord systempage_odd] at habs
      exact absurd habs (by simp)
  · obtain rfl : f = frameOf b := he
    obtain ⟨hr, hj⟩ := h.tables.straight 0 h.pos
    have habs := htab hr
    have hji := hj i
    rw [Nat.add_zero] at hji
    rw [hji, isEntryExist_entryWord systempage_odd] at habs
    exact absurd habs (by simp)

/-! ## `enableSpace` -/

/-- What `enableSpace` and the copies of `fork` do to the machine and its roles: chunks and roles
are added, and entries that are present stay. `D` is the directory that gets the pages, `use` what
they are for. -/
structure Grown (use : Use) (D : Nat) (m : Machine) (role : Roles) (m' : Machine) (role' : Roles) :
    Prop where
  le : role.Le role'
  same : m' = { m with phys := m'.phys, handed := m'.handed }
  stable : ∀ f r, role f = some r → r.structural = true → ∀ i, isEntryExist (m.phys f i) = true →
    m'.phys f i = m.phys f i
  pages : use = .copied → ∀ f, role' f = some (.data D) → role f = some (.data D) ∨ f < 1024

theorem Grown.refl : Grown use d m role m role :=
  ⟨Roles.Le.refl role, rfl, fun _ _ _ _ _ _ => rfl, fun _ _ hf => Or.inl hf⟩

theorem Grown.trans {m'' : Machine} {role' role'' : Roles} (h : Grown use d m role m' role')
    (h' : Grown use d m' role' m'' role'') : Grown use d m role m'' role'' := by
  refine ⟨h.le.trans h'.le, ?_, ?_, ?_⟩
  · rw [h'.same, h.same]
  · intro f r hf hr i hi
    have h1 := h.stable f r hf hr i hi
    rw [h'.stable f r (h.le f r hf) hr i (by rw [h1]; exact hi), h1]
  · intro hu f hf
    rcases h'.pages hu f hf with hf | hf
    · exact h.pages hu f hf
    · exact Or.inr hf

/-- What the pages are for does not matter. -/
theorem Grown.data {role' : Roles} (h : Grown use d m role m' role') :
    Grown .data d m role m' role' :=
  ⟨h.le, h.same, h.stable, fun e => absurd e (by simp)⟩

/-- Roles are added, and the frames that hold entries stay. -/
theorem Grown.of_phys {role' : Roles} (hle : role.Le role')
    (hs : m' = { m with phys := m'.phys, handed := m'.handed })
    (hp : ∀ f r, role f = some r → r.structural = true → m'.phys f = m.phys f) :
    Grown .data d m role m' role' :=
  ⟨hle, hs, fun f r hf hr i _ => congrFun (hp f r hf hr) i, fun e => absurd e (by simp)⟩

/-- The page of `w` is mapped by the directory in frame `d`. -/
def Mapped (m : Machine) (d : Nat) (w : UInt32) : Prop :=
  isEntryExist (m.phys d (dirIndex w)) = true ∧
    isEntryExist (m.phys (frameOf (m.phys d (dirIndex w))) (tableIndex w)) = true

/-- The table under a present slot of a process directory. -/
theorem table_role (h : Owned m b role) (hd : role d = some .dir) {i : Fin 1024}
    (hi : isEntryExist (m.phys d i) = true) : ∃ r, role (frameOf (m.phys d i)) = some r ∧
      (r = .kernelTable ∨ r = .table d) := by
  rcases h.tables.dirs d hd i hi with ⟨-, hr, -⟩ | hr
  · exact ⟨_, hr, Or.inl rfl⟩
  · exact ⟨_, hr, Or.inr rfl⟩

/-- A mapped page stays mapped. -/
theorem Grown.mapped {role' : Roles} {x : Nat} (hg : Grown use d m role m' role')
    (h : Owned m b role) (hx : role x = some .dir) (hm : Mapped m x w) : Mapped m' x w := by
  obtain ⟨r, hr, hcases⟩ := h.table_role hx hm.1
  have h1 := hg.stable x _ hx rfl _ hm.1
  have hs : r.structural = true := by
    rcases hcases with rfl | rfl
    · rfl
    · rfl
  have h2 := hg.stable _ r hr hs _ hm.2
  unfold Mapped
  rw [h1, h2]
  exact hm

/-- A pointer to a frame below 4 MiB. -/
theorem holds_frame (ha : Aligned a) (hf : frameOf a < 1024) : Holds low id a (frameOf a) := by
  refine holds_low ha ?_
  unfold frameOf at hf
  omega

/-- A table of the kernel or of the process gets an entry for a new page. -/
theorem mapPage {T : Nat} {j : Fin 1024} (h : Owned m b role) (type : UInt32)
    (hd : role d = some .dir) (hT : role T = some r) (hr : r = .kernelTable ∨ r = .table d)
    (habs : isEntryExist (m.phys T j) = false) (ha : m.answers use m.handed.length = a)
    (hnew : Grant.New ⟨use, a, 1⟩ m.handed) (hs : use = .data ∨ use = .copied) :
    Owned ((m.granted use a 1).setWord T j (entryWord a type)) b
      (role.assign (frameOf a) (.data d)) ∧
    Grown use d m role ((m.granted use a 1).setWord T j (entryWord a type))
        (role.assign (frameOf a) (.data d)) := by
  have hnone := h.role_new hnew (by omega)
  have hle : role.Le (role.assign (frameOf a) (.data d)) := Roles.le_assign hnone
  have hserves : (Role.data d).serves use = true := by
    rcases hs with rfl | rfl
    · rfl
    · rfl
  have hgranted : Tables (m.granted use a 1) b role := h.tables.congr rfl rfl fun _ _ _ _ => rfl
  have h₁ := h.give ha hnew hserves (by rcases hs with rfl | rfl <;> simp)
    (hgranted.assign hnone (fun e => absurd e (by simp))
    (fun _ e => absurd e (by simp)) (fun x e => by obtain rfl := Role.data.inj e; exact hd))
  have hw : role.assign (frameOf a) (.data d) (frameOf (entryWord a type)) = some (.data d) := by
    rw [frameOf_entryWord, Roles.assign_self]
  constructor
  · refine h₁.of_tables rfl (h₁.tables.setWord (hle _ _ hT) ?_ (fun _ => habs) ?_ ?_)
    · rcases hr with rfl | rfl
      · simp
      · simp
    · rcases hr with rfl | rfl
      · exact fun e => absurd e (by simp)
      · exact fun e => absurd e (by simp)
    · intro x e
      rcases hr with rfl | rfl
      · exact absurd e (by simp)
      · obtain rfl := Role.table.inj e
        exact hw
  · refine ⟨hle, rfl, ?_, ?_⟩
    · intro f r' _ _ i hi
      rcases Tables.setWord_cases (m := m.granted use a 1) (f := T) (i := j)
        (w := entryWord a type) f i with ⟨rfl, rfl, -⟩ | he
      · rw [habs] at hi
        exact absurd hi (by simp)
      · exact he
    · rintro rfl f hf
      by_cases he : f = frameOf a
      · subst he
        exact Or.inr (h₁.grant_lt List.mem_cons_self (Or.inl rfl) (frame_mem (by omega)))
      · rw [Roles.assign_of_ne he] at hf
        exact Or.inl hf

/-- A process directory gets a new, cleared table. -/
theorem newTable {i : Fin 1024} (h : Owned m b role) (use : Use) (type : UInt32)
    (hd : role d = some .dir) (habs : isEntryExist (m.phys d i) = false)
    (ha : m.answers .pageTable m.handed.length = a) (hnew : Grant.New ⟨.pageTable, a, 1⟩ m.handed) :
    Owned (((m.setPage (frameOf a) fun _ => 0).granted .pageTable a 1).setWord d i
      (entryWord a type)) b
        (role.assign (frameOf a) (.table d)) ∧
      Grown use d m role
        (((m.setPage (frameOf a) fun _ => 0).granted .pageTable a 1).setWord d i (entryWord a type))
        (role.assign (frameOf a) (.table d)) := by
  have hnone := h.role_new hnew (by omega)
  have hle : role.Le (role.assign (frameOf a) (.table d)) := Roles.le_assign hnone
  have hne : ∀ x r, role x = some r → x ≠ frameOf a := fun _ _ => Roles.ne_of_none hnone
  have hz : isEntryExist 0 = false := rfl
  -- the frame is cleared while it has no role
  have h₀ : Owned (m.setPage (frameOf a) fun _ => 0) b role :=
    h.scratch rfl fun x r hx _ => setPage_phys_of_ne (hne x r hx)
  have hgranted : Tables ((m.setPage (frameOf a) fun _ => 0).granted .pageTable a 1) b role :=
    h₀.tables.congr rfl rfl fun _ _ _ _ => rfl
  have h₁ := h₀.give ha hnew rfl (by simp)
    (hgranted.assign hnone (fun e => absurd e (by simp : Role.table d ≠ .dir))
    (fun x e => by
      obtain rfl := Role.table.inj e
      refine ⟨hd, fun j => ?_⟩
      rw [granted_phys, setPage_phys_self]
      exact hz)
    (fun _ e => absurd e (by simp)))
  have habs₁ : isEntryExist (((m.setPage (frameOf a) fun _ => 0).granted .pageTable a 1).phys d i) =
      false := by
    rw [granted_phys, setPage_phys_of_ne (hne d _ hd)]
    exact habs
  have hw : role.assign (frameOf a) (.table d) (frameOf (entryWord a type)) = some (.table d) := by
    rw [frameOf_entryWord, Roles.assign_self]
  constructor
  · refine h₁.of_tables rfl (h₁.tables.setWord (hle _ _ hd) ?_ ?_ (fun _ => ⟨habs₁, hw⟩) ?_)
    · simp
    · exact fun e => absurd e (by simp)
    · exact fun _ e => absurd e (by simp)
  · refine ⟨hle, rfl, ?_, ?_⟩
    · intro f r hf _ k hk
      rcases Tables.setWord_cases
        (m := (m.setPage (frameOf a) fun _ => 0).granted .pageTable a 1) (f := d)
        (i := i) (w := entryWord a type) f k with ⟨rfl, rfl, -⟩ | he
      · rw [habs] at hk
        exact absurd hk (by simp)
      · rw [he, granted_phys, setPage_phys_of_ne (hne f r hf)]
    · intro _ f hf
      by_cases he : f = frameOf a
      · subst he
        rw [Roles.assign_self] at hf
        exact absurd hf (by simp)
      · rw [Roles.assign_of_ne he] at hf
        exact Or.inl hf

/-- The two stores of a turn that makes a table, in the order of `newTable` and `mapPage`. -/
theorem mapNew_eq {T : Nat} {s t type : UInt32} (hne : d ≠ T) :
    m.mapNew d T w t s type use =
      ((((m.setPage T fun _ => 0).granted .pageTable t 1).setWord d (dirIndex w)
      (entryWord t type)).granted use s 1).setWord T (tableIndex w) (entryWord s type) := by
  unfold mapNew granted setWord setPage
  simp only [Function.update_of_ne hne, Function.update_of_ne hne.symm, Function.update_self]
  rw [Function.update_comm hne.symm, Function.update_idem]

/-- **Everything one turn of `enableSpace`** for the page of `w` can do with the directory in frame
`D`: find the page mapped, write an entry for a new page into the table that is there, or make a
table first. -/
inductive Turn (use : Use) (D : Nat) (w type : UInt32) (m : Machine) (role : Roles) :
    Machine → Roles → Prop
  | mapped (h : Mapped m D w) : Turn use D w type m role m role
  | page {a : UInt32} {r : Role} (hslot : isEntryExist (m.phys D (dirIndex w)) = true)
      (hT : role (frameOf (m.phys D (dirIndex w))) = some r) (hr : r = .kernelTable ∨ r = .table D)
      (habs : isEntryExist (m.phys (frameOf (m.phys D (dirIndex w))) (tableIndex w)) = false)
      (ha : m.answers use m.handed.length = a) (hnew : Grant.New ⟨use, a, 1⟩ m.handed) :
      Turn use D w type m role
        ((m.granted use a 1).setWord (frameOf (m.phys D (dirIndex w)))
          (tableIndex w) (entryWord a type))
        (role.assign (frameOf a) (.data D))
  | table {s t : UInt32} (hslot : isEntryExist (m.phys D (dirIndex w)) = false)
      (ht : m.answers .pageTable m.handed.length = t)
        (htnew : Grant.New ⟨.pageTable, t, 1⟩ m.handed)
      (hs : m.answers use (m.handed.length + 1) = s)
      (hsnew : Grant.New ⟨use, s, 1⟩ (⟨.pageTable, t, 1⟩ :: m.handed)) :
      Turn use D w type m role
        (((((m.setPage (frameOf t) fun _ => 0).granted .pageTable t 1).setWord D (dirIndex w)
          (entryWord t type)).granted use s 1).setWord (frameOf t)
            (tableIndex w) (entryWord s type))
        ((role.assign (frameOf t) (.table D)).assign (frameOf s) (.data D))

/-- The table under a present slot, through its pointer. -/
theorem holds_table (h : Owned m b role) (hd : role d = some .dir) {i : Fin 1024}
    (hi : isEntryExist (m.phys d i) = true) :
    Holds low id (caddrEntry (m.phys d i)) (frameOf (m.phys d i)) := by
  obtain ⟨r, hT, hcases⟩ := h.table_role hd hi
  have hlt := h.lt hT (by rcases hcases with rfl | rfl <;> simp)
  have ht := holds_frame (aligned_caddrEntry (m.phys d i)) (by rw [frameOf_caddrEntry]; exact hlt)
  rwa [frameOf_caddrEntry] at ht

/-- The turn that writes an entry into the table that is there. -/
theorem enablePage_page {type : UInt32} (h : Owned m b role) (ha : Aligned pdir)
    (hd : role (frameOf pdir) = some .dir)
    (heD : isEntryExist (m.phys (frameOf pdir) (dirIndex w)) = true)
    (heT : isEntryExist (m.phys (frameOf (m.phys (frameOf pdir) (dirIndex w))) (tableIndex w)) =
    false)
    (hs : m.answers use m.handed.length = a) (hnew : Grant.New ⟨use, a, 1⟩ m.handed) :
    m.enablePage w pdir type use = .ok ((m.granted use a 1).setWord
      (frameOf (m.phys (frameOf pdir) (dirIndex w))) (tableIndex w) (entryWord a type)) := by
  obtain ⟨c, -, hreach, hc⟩ := h.reaches
  obtain ⟨r, hT, hcases⟩ := h.table_role hd heD
  have hK : (frameOf (m.phys (frameOf pdir) (dirIndex w)), tableIndex w) ∉ lowWords c b := by
    refine h.not_lowWords hc ?_ ?_ ?_
    · rw [hT]
      rcases hcases with rfl | rfl <;> simp
    · rw [hT]
      rcases hcases with rfl | rfl <;> simp
    · exact fun _ => heT
  exact (holds_frame ha (h.lt hd (by simp))).enablePage_page hreach heD (h.holds_table hd heD)
    heT hK hs hnew

/-- What the turn that makes a table needs to be true of the words of the straight map. -/
theorem table_apart {t : UInt32} (h : Owned m b role)
    (hc : role (frameOf c) = some .kernelDir ∨ role (frameOf c) = some .dir)
    (hd : role (frameOf pdir) = some .dir)
    (heD : isEntryExist (m.phys (frameOf pdir) (dirIndex w)) = false)
    (hnone : role (frameOf t) = none) :
    (frameOf pdir, dirIndex w) ∉ lowWords c b ∧ ∀ j, (frameOf t, j) ∉ lowWords c b := by
  refine ⟨h.not_lowWords hc ?_ (fun _ => heD) (fun _ => heD), fun j => h.not_lowWords hc ?_ ?_ ?_⟩
  · rw [hd]
    simp
  · simp [hnone]
  · simp [hnone]
  · simp [hnone]

/-- The turn that makes a table for the new page. -/
theorem enablePage_table {s t type : UInt32} (h : Owned m b role) (ha : Aligned pdir)
    (hd : role (frameOf pdir) = some .dir)
    (heD : isEntryExist (m.phys (frameOf pdir) (dirIndex w)) = false)
    (ht : m.answers .pageTable m.handed.length = t) (htnew : Grant.New ⟨.pageTable, t, 1⟩ m.handed)
    (hs : m.answers use (m.handed.length + 1) = s)
    (hsnew : Grant.New ⟨use, s, 1⟩ (⟨.pageTable, t, 1⟩ :: m.handed)) :
    m.enablePage w pdir type use = .ok (((((m.setPage (frameOf t) fun _ => 0).granted .pageTable t
      1).setWord (frameOf pdir) (dirIndex w) (entryWord t type)).granted use s
        1).setWord (frameOf t)
      (tableIndex w) (entryWord s type)) := by
  obtain ⟨c, -, hreach, hc⟩ := h.reaches
  have hnone := h.role_new htnew (by omega)
  have hlow : t.toNat < 0x400000 := ht ▸ h.lowFrames.touched .pageTable _ rfl
  obtain ⟨hKd, hKt⟩ := h.table_apart hc hd heD hnone
  have hne : frameOf pdir ≠ frameOf t := by
    intro e
    rw [← e, hd] at hnone
    exact absurd hnone (by simp)
  rw [(holds_frame ha (h.lt hd (by simp))).enablePage_new hreach heD hKd ht htnew
    (holds_low htnew.1 hlow) hKt hs hsnew, mapNew_eq hne]

/-- A turn that returned is one of these. -/
theorem enablePage_turn {type : UInt32} (h : Owned m b role) (ha : Aligned pdir)
    (hd : role (frameOf pdir) = some .dir) (hr : m.enablePage w pdir type use = .ok m') :
    ∃ role', Turn use (frameOf pdir) w type m role m' role' := by
  obtain ⟨c, -, hreach, hc⟩ := h.reaches
  have hdir := holds_frame ha (h.lt hd (by simp))
  cases heD : isEntryExist (m.phys (frameOf pdir) (dirIndex w)) with
  | true =>
    have htab := h.holds_table hd heD
    cases heT :
        isEntryExist (m.phys (frameOf (m.phys (frameOf pdir) (dirIndex w))) (tableIndex w)) with
    | true =>
      rw [hdir.enablePage_mapped hreach heD htab heT] at hr
      obtain rfl := Except.ok.inj hr
      exact ⟨role, Turn.mapped ⟨heD, heT⟩⟩
    | false =>
      have hnew := hdir.enablePage_page_new hreach heD htab heT hr
      rw [h.enablePage_page ha hd heD heT rfl hnew] at hr
      obtain rfl := Except.ok.inj hr
      obtain ⟨r, hT, hcases⟩ := h.table_role hd heD
      exact ⟨_, Turn.page heD hT hcases heT rfl hnew⟩
  | false =>
    have htnew := hdir.enablePage_table_new hreach heD hr
    obtain ⟨t, ht⟩ : ∃ t, m.answers .pageTable m.handed.length = t := ⟨_, rfl⟩
    rw [ht] at htnew
    have hlow : t.toNat < 0x400000 := ht ▸ h.lowFrames.touched .pageTable _ rfl
    obtain ⟨hKd, hKt⟩ := h.table_apart hc hd heD (h.role_new htnew (by omega))
    have hsnew := hdir.enablePage_data_new hreach heD hKd ht htnew (holds_low htnew.1 hlow) hKt hr
    obtain ⟨s, hs⟩ : ∃ s, m.answers use (m.handed.length + 1) = s := ⟨_, rfl⟩
    rw [hs] at hsnew
    rw [h.enablePage_table ha hd heD ht htnew hs hsnew] at hr
    obtain rfl := Except.ok.inj hr
    exact ⟨_, Turn.table heD ht htnew hs hsnew⟩

/-- What one turn of `enableSpace` for the page of `w` writes: the directory in frame `D`, tables of
its own, and, where the page falls into a table of the kernel that has no entry for it, that entry.
No directory is made. -/
structure Wrote (D : Nat) (w type : UInt32) (m : Machine) (role : Roles) (m' : Machine)
    (role' : Roles) :
    Prop where
  dirs : ∀ x, role' x = some .dir → role x = some .dir
  frames : ∀ f, m'.phys f = m.phys f ∨ f = D ∨ role' f = some (.table D) ∨
    (role f = some .kernelTable ∧ isEntryExist (m.phys D (dirIndex w)) = true ∧
      f = frameOf (m.phys D (dirIndex w)) ∧ isEntryExist (m.phys f (tableIndex w)) = false ∧
      ∃ a, m'.phys f = Function.update (m.phys f) (tableIndex w) (entryWord a type))

/-- A turn that finds the page mapped. -/
theorem Wrote.refl {type : UInt32} : Wrote d w type m role m role :=
  ⟨fun _ hx => hx, fun _ => Or.inl rfl⟩

/-- A turn that writes an entry for a new page into a table that is there. -/
theorem Wrote.page {type : UInt32} (hslot : isEntryExist (m.phys d (dirIndex w)) = true)
    (hT : role (frameOf (m.phys d (dirIndex w))) = some r) (hr : r = .kernelTable ∨ r = .table d)
    (habs : isEntryExist (m.phys (frameOf (m.phys d (dirIndex w))) (tableIndex w)) = false)
    (hnone : role (frameOf a) = none) :
    Wrote d w type m role
      ((m.granted use a 1).setWord (frameOf (m.phys d (dirIndex w))) (tableIndex w)
      (entryWord a type)) (role.assign (frameOf a) (.data d)) := by
  refine ⟨fun x hx => ?_, fun f => ?_⟩
  · by_cases he : x = frameOf a
    · subst he
      rw [Roles.assign_self] at hx
      exact absurd hx (by simp)
    · rwa [Roles.assign_of_ne he] at hx
  by_cases hf : f = frameOf (m.phys d (dirIndex w))
  · subst hf
    rcases hr with rfl | rfl
    · refine Or.inr (Or.inr (Or.inr ⟨hT, hslot, rfl, habs, a, ?_⟩))
      simp only [setWord, Function.update_self]
      rfl
    · exact Or.inr (Or.inr (Or.inl (Roles.le_assign hnone _ _ hT)))
  · exact Or.inl (setWord_phys_of_ne hf)

/-- A turn that makes a table for the new page. -/
theorem Wrote.table {s t type : UInt32}
    (hnone : (role.assign (frameOf t) (.table d)) (frameOf s) = none) :
    Wrote d w type m role (m.mapNew d (frameOf t) w t s type use)
      ((role.assign (frameOf t) (.table d)).assign (frameOf s) (.data d)) := by
  refine ⟨fun x hx => ?_, fun f => ?_⟩
  · by_cases hs : x = frameOf s
    · subst hs
      rw [Roles.assign_self] at hx
      exact absurd hx (by simp)
    · rw [Roles.assign_of_ne hs] at hx
      by_cases ht : x = frameOf t
      · subst ht
        rw [Roles.assign_self] at hx
        exact absurd hx (by simp)
      · rwa [Roles.assign_of_ne ht] at hx
  · by_cases hft : f = frameOf t
    · subst hft
      exact Or.inr (Or.inr (Or.inl (Roles.le_assign hnone _ _ Roles.assign_self)))
    · by_cases hfd : f = d
      · exact Or.inr (Or.inl hfd)
      · refine Or.inl ?_
        unfold mapNew
        rw [setPage_phys_of_ne hft, granted_phys, setWord_phys_of_ne hfd]
        rfl

/-- A turn keeps the invariant; with a type that has the present bit it maps the page. -/
theorem Turn.owned {type : UInt32} {role' : Roles} (ht : Turn use d w type m role m' role')
    (h : Owned m b role) (hd : role d = some .dir) (hu : use = .data ∨ use = .copied) :
    Owned m' b role' ∧ Grown use d m role m' role' ∧ (type.toNat % 2 = 1 → Mapped m' d w) ∧
      Wrote d w type m role m' role' := by
  cases ht with
  | mapped hm => exact ⟨h, Grown.refl, fun _ => hm, Wrote.refl⟩
  | page hslot hT hr habs ha hnew =>
    obtain ⟨h₁, hg⟩ := h.mapPage type hd hT hr habs ha hnew hu
    have hstay := hg.stable _ _ hd rfl _ hslot
    refine ⟨h₁, hg, fun hodd => ⟨?_, ?_⟩, Wrote.page hslot hT hr habs (h.role_new hnew (by omega))⟩
    · rw [hstay]
      exact hslot
    · rw [hstay, setWord_phys_self]
      exact isEntryExist_entryWord hodd
  | @table s t hslot ht htnew hs hsnew =>
    have hnone := h.role_new htnew (by omega)
    have hne : d ≠ frameOf t := by
      rintro rfl
      rw [hd] at hnone
      exact absurd hnone (by simp)
    obtain ⟨h₁, hg₁⟩ := h.newTable use type hd hslot ht htnew
    have habs : isEntryExist ((((m.setPage (frameOf t) fun _ => 0).granted .pageTable t 1).setWord d
        (dirIndex w) (entryWord t type)).phys (frameOf t) (tableIndex w)) = false := by
      rw [setWord_phys_of_ne hne.symm, granted_phys, setPage_phys_self]
      rfl
    obtain ⟨h₂, hg₂⟩ := h₁.mapPage type (hg₁.le _ _ hd) Roles.assign_self
      (Or.inr rfl) habs hs hsnew hu
    have hwrote : Wrote d w type m role (m.mapNew d (frameOf t) w t s type use) _ :=
      Wrote.table (h₁.role_new hsnew (by omega))
    rw [mapNew_eq hne] at hwrote
    refine ⟨h₂, hg₁.trans hg₂, fun hodd => ?_, hwrote⟩
    have hslot' := hg₂.stable _ _ (hg₁.le _ _ hd) rfl (dirIndex w)
      (by rw [setWord_phys_self]; exact isEntryExist_entryWord hodd)
    rw [setWord_phys_self] at hslot'
    constructor
    · rw [hslot']
      exact isEntryExist_entryWord hodd
    · rw [hslot', frameOf_entryWord, setWord_phys_self]
      exact isEntryExist_entryWord hodd

/-- **One turn of `enableSpace`** on a process directory keeps the invariant; with a type that has
the present bit it maps the page. -/
theorem enablePage {type : UInt32} (h : Owned m b role) (ha : Aligned pdir)
    (hd : role (frameOf pdir) = some .dir) (hu : use = .data ∨ use = .copied)
    (hr : m.enablePage w pdir type use = .ok m') :
    ∃ role', Owned m' b role' ∧ Grown use (frameOf pdir) m role m' role' ∧
      (type.toNat % 2 = 1 → Mapped m' (frameOf pdir) w) ∧
      Wrote (frameOf pdir) w type m role m' role' := by
  obtain ⟨role', ht⟩ := h.enablePage_turn ha hd hr
  exact ⟨role', ht.owned h hd hu⟩

/-- **`enableSpace`** on a process directory keeps the invariant; with a type that has the present
bit it maps every page of the range. -/
theorem enableSpace {virAddr size type : UInt32} (h : Owned m b role) (ha : Aligned pdir)
    (hd : role (frameOf pdir) = some .dir) (hu : use = .data ∨ use = .copied)
    (hr : m.enableSpace virAddr size pdir type use = .ok m') :
    ∃ role', Owned m' b role' ∧ Grown use (frameOf pdir) m role m' role' ∧
      (type.toNat % 2 = 1 → ∀ i < ((ceil4k (virAddr + size) - floor4k virAddr) / 0x1000).toNat,
        Mapped m' (frameOf pdir) (floor4k virAddr + UInt32.ofNat i * 0x1000)) := by
  unfold Machine.enableSpace at hr
  refine loop_invariant (I := fun n s => ∃ role', Owned s b role' ∧
    Grown use (frameOf pdir) m role s role' ∧ (type.toNat % 2 = 1 →
      ∀ i < n, Mapped s (frameOf pdir) (floor4k virAddr + UInt32.ofNat i * 0x1000))) ?_ ?_ hr
  · exact ⟨role, h, Grown.refl, fun _ i hi => absurd hi (Nat.not_lt_zero _)⟩
  · rintro n - s s' ⟨role₁, h₁, hg₁, hm₁⟩ hs
    have hd₁ := hg₁.le _ _ hd
    obtain ⟨role₂, h₂, hg₂, hm₂, -⟩ := h₁.enablePage ha hd₁ hu hs
    refine ⟨role₂, h₂, hg₁.trans hg₂, fun hodd i hi => ?_⟩
    rcases Nat.lt_succ_iff_lt_or_eq.mp hi with hi | rfl
    · exact hg₂.mapped h₁ hd₁ (hm₁ hodd i hi)
    · exact hm₂ hodd

end Owned

end OwnOS.VarMem
