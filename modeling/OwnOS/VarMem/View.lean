import OwnOS.VarMem.ElfLoader
import OwnOS.VarMem.Isolation

/-!
# What a process sees of its memory

`View`: the tables of a process and their entries are open to the user, the kernel's slots are not,
and every table or page of a process is named by one entry only. Together with `Owned` this makes
the addresses open to the user exactly those mapped outside the kernel's slots
(`View.userMapped_iff`). It is kept by the two kinds of entries `enableSpace` writes
(`View.newTable`, `View.mapPage`). `Opened` says what a call of `enableSpace` does to all views at
once: the pages of the range appear in one of them, and no page of data changes.
-/

namespace OwnOS.VarMem

open Lib Lib.Word Machine

/-- The frames that hold the entries of processes. -/
def Holder (role : Roles) (f : Nat) : Prop := role f = some .dir ∨ ∃ d, role f = some (.table d)

/-- The entries of processes: user and system, one for each table and page. -/
structure View (m : Machine) (role : Roles) : Prop where
  kernel : isEntryExist (m.phys (frameOf m.kPdir) 0x380) = true
  system : ∀ d, role d = some .dir → isEntryExist (m.phys d 0x380) = true ∧
    role (frameOf (m.phys d 0x380)) = some .kernelTable
  slots : ∀ d, role d = some .dir → ∀ i, isEntryExist (m.phys d i) = true →
    role (frameOf (m.phys d i)) = some (.table d) → isUser (m.phys d i) = true
  entries : ∀ d t, role t = some (.table d) → ∀ j, isEntryExist (m.phys t j) = true →
    isUser (m.phys t j) = true
  unique : ∀ f f' i i', Holder role f → Holder role f' → isEntryExist (m.phys f i) = true →
    isEntryExist (m.phys f' i') = true → frameOf (m.phys f i) = frameOf (m.phys f' i') →
    role (frameOf (m.phys f i)) ≠ some .kernelTable → f = f' ∧ i = i'

/-- A frame with a new role of another kind holds the entries it held before. -/
theorem Holder.of_assign {role : Roles} {f x : Nat} {r : Role} (h : Holder (role.assign x r) f)
    (hr : r ≠ .dir ∧ ∀ d, r ≠ .table d) : Holder role f ∧ f ≠ x := by
  have hne : f ≠ x := by
    rintro rfl
    rcases h with h | ⟨d, h⟩
    · rw [Roles.assign_self] at h
      exact hr.1 (Option.some.inj h)
    · rw [Roles.assign_self] at h
      exact hr.2 d (Option.some.inj h)
  unfold Holder at h ⊢
  rw [Roles.assign_of_ne hne] at h
  exact ⟨h, hne⟩

variable {m m' : Machine} {b a w pdir : UInt32} {role role' : Roles}
  {f d T x : Nat} {i j : Fin 1024} {r : Role} {use : Use}

namespace Owned

/-- An entry of a process names a frame in use. -/
theorem target (h : Owned m b role) (hf : Holder role f) (hi : isEntryExist (m.phys f i) = true) :
    ∃ r, role (frameOf (m.phys f i)) = some r := by
  rcases hf with hf | ⟨d, hf⟩
  · obtain ⟨r, hr, -⟩ := h.table_role hf hi
    exact ⟨r, hr⟩
  · exact ⟨_, h.tables.tables d f hf i hi⟩

/-- No entry of a process names a frame without a role. -/
theorem target_ne (h : Owned m b role) (hnone : role x = none) (hf : Holder role f)
    (hi : isEntryExist (m.phys f i) = true) : frameOf (m.phys f i) ≠ x := by
  obtain ⟨r, hr⟩ := h.target hf hi
  exact Roles.ne_of_none hnone hr

/-- Outside the kernel's slots a directory has tables of its own. -/
theorem own_table (h : Owned m b role) (hd : role d = some .dir) {v : UInt32}
    (hi : isEntryExist (m.phys d (dirIndex v)) = true) (hk : ¬ KernelSlot m v) :
    role (frameOf (m.phys d (dirIndex v))) = some (.table d) := by
  rcases h.tables.dirs d hd _ hi with ⟨-, -, hs⟩ | ht
  · exact absurd hs hk
  · exact ht

end Owned

namespace View

/-- **The addresses open to the user** are those mapped outside the kernel's slots. -/
theorem userMapped_iff {c v : UInt32} (hv : View m role) (h : Owned m b role)
    (hd : role (frameOf c) = some .dir) :
    m.userMapped c v = true ↔ ¬ KernelSlot m v ∧ Owned.Mapped m (frameOf c) v := by
  unfold Machine.userMapped
  simp only [Bool.and_eq_true]
  constructor
  · rintro ⟨⟨⟨h1, h2⟩, h3⟩, -⟩
    refine ⟨?_, h1, h3⟩
    -- the kernel's slots are system entries
    rintro (hk | hk)
    · have hsys := (h.tables.kernel_slot (Or.inl hk)).1
      rw [h.tables.shared _ hd _ hk, hsys] at h2
      exact absurd h2 (by simp)
    · obtain he : dirIndex v = 0x380 := Fin.ext hk
      rw [he] at h1 h2
      have hrole := (hv.system _ hd).2
      rcases h.tables.dirs _ hd _ h1 with ⟨hs, -, -⟩ | ht
      · rw [hs] at h2
        exact absurd h2 (by simp)
      · rw [hrole] at ht
        exact absurd ht (by simp)
  · rintro ⟨hk, h1, h3⟩
    have ht := h.own_table hd h1 hk
    exact ⟨⟨⟨h1, hv.slots _ hd _ h1 ht⟩, h3⟩, hv.entries _ _ ht _ h3⟩

/-- A store outside the directories and tables. -/
theorem congr (hv : View m role) (h : Owned m b role) (hk : m'.kPdir = m.kPdir)
    (hp : ∀ f r, role f = some r → r.structural = true → m'.phys f = m.phys f) : View m' role := by
  have hholder : ∀ f, Holder role f → m'.phys f = m.phys f := by
    rintro f (hf | ⟨d, hf⟩)
    · exact hp f _ hf rfl
    · exact hp f _ hf rfl
  refine ⟨?_, ?_, ?_, ?_, ?_⟩
  · rw [hk, hp _ _ h.tables.kdir rfl]
    exact hv.kernel
  · intro d hd
    rw [hp d _ hd rfl]
    exact hv.system d hd
  · intro d hd
    rw [hp d _ hd rfl]
    exact hv.slots d hd
  · intro d t ht
    rw [hp t _ ht rfl]
    exact hv.entries d t ht
  · intro f f' i i' hf hf'
    rw [hholder f hf, hholder f' hf']
    exact hv.unique f f' i i' hf hf'

/-- A table of the kernel or of the process gets an entry for a new page. -/
theorem mapPage (hv : View m role) (h : Owned m b role) (hT : role T = some r)
    (hr : r = .kernelTable ∨ r = .table d) (hnew : Grant.New ⟨use, a, 1⟩ m.handed) :
    View ((m.granted use a 1).setWord T j (entryWord a userpage))
      (role.assign (frameOf a) (.data d)) := by
  have hnone := h.role_new hnew (by omega)
  have hle : role.Le (role.assign (frameOf a) (.data d)) := Roles.le_assign hnone
  have hTdir : ∀ {x}, role x = some .dir ∨ role x = some .kernelDir → x ≠ T := by
    rintro x hx rfl
    rw [hT] at hx
    rcases hr with rfl | rfl <;> simp at hx
  have hdirs : ∀ {x}, role x = some .dir ∨ role x = some .kernelDir →
      ((m.granted use a 1).setWord T j (entryWord a userpage)).phys x = m.phys x :=
    fun hx => setWord_phys_of_ne (hTdir hx)
  have holder : ∀ {x}, Holder (role.assign (frameOf a) (.data d)) x → Holder role x :=
    fun hx => (hx.of_assign ⟨by simp, by simp⟩).1
  have hrole : ∀ {x}, x ≠ frameOf a → role.assign (frameOf a) (.data d) x = role x :=
    fun hx => Roles.assign_of_ne hx
  -- a word is the new one, which names the new frame, or an old one, which does not
  have hword : ∀ x k, Holder role x →
      isEntryExist (((m.granted use a 1).setWord T j (entryWord a userpage)).phys x k) = true →
      (x = T ∧ k = j ∧
        ((m.granted use a 1).setWord T j (entryWord a userpage)).phys x k = entryWord a userpage) ∨
      (((m.granted use a 1).setWord T j (entryWord a userpage)).phys x k = m.phys x k ∧
        isEntryExist (m.phys x k) = true ∧ frameOf (m.phys x k) ≠ frameOf a) := by
    intro x k hx hp
    rcases Tables.setWord_cases (m := m.granted use a 1) (f := T) (i := j)
      (w := entryWord a userpage) x k with ⟨rfl, rfl, he⟩ | he
    · exact Or.inl ⟨rfl, rfl, he⟩
    · rw [he] at hp
      exact Or.inr ⟨he, hp, h.target_ne hnone hx hp⟩
  refine ⟨?_, ?_, ?_, ?_, ?_⟩
  · show isEntryExist (((m.granted use a 1).setWord T j _).phys (frameOf m.kPdir) 0x380) = true
    rw [hdirs (Or.inr h.tables.kdir)]
    exact hv.kernel
  · intro x hx
    have hx' : role x = some .dir := by
      rwa [hrole (Holder.of_assign (Or.inl hx) ⟨by simp, by simp⟩).2] at hx
    obtain ⟨h1, h2⟩ := hv.system x hx'
    rw [hdirs (Or.inl hx')]
    exact ⟨h1, hle _ _ h2⟩
  · intro x hx k hk ht
    have hx' : role x = some .dir := by
      rwa [hrole (Holder.of_assign (Or.inl hx) ⟨by simp, by simp⟩).2] at hx
    rw [hdirs (Or.inl hx')] at hk ht ⊢
    rw [hrole (h.target_ne hnone (Or.inl hx') hk)] at ht
    exact hv.slots x hx' k hk ht
  · intro y t ht k hk
    have ht' : role t = some (.table y) := by
      rwa [hrole (Holder.of_assign (Or.inr ⟨y, ht⟩) ⟨by simp, by simp⟩).2] at ht
    rcases hword t k (Or.inr ⟨y, ht'⟩) hk with ⟨-, -, he⟩ | ⟨he, hp, -⟩
    · rw [he, isUser_entryWord]
      rfl
    · rw [he]
      exact hv.entries y t ht' k hp
  · intro x x' k k' hx hx' hk hk' heq hne
    have hx₁ := holder hx
    have hx₁' := holder hx'
    rcases hword x k hx₁ hk with ⟨rfl, rfl, he⟩ | ⟨he, hp, hfr⟩
    · rcases hword x' k' hx₁' hk' with ⟨rfl, rfl, -⟩ | ⟨he', -, hfr'⟩
      · exact ⟨rfl, rfl⟩
      · rw [he, he', frameOf_entryWord] at heq
        exact absurd heq.symm hfr'
    · rcases hword x' k' hx₁' hk' with ⟨rfl, rfl, he'⟩ | ⟨he', hp', -⟩
      · rw [he, he', frameOf_entryWord] at heq
        exact absurd heq hfr
      · rw [he, he'] at heq
        rw [he, hrole hfr] at hne
        exact hv.unique x x' k k' hx₁ hx₁' hp hp' heq hne

/-- A process directory gets a new, cleared table. -/
theorem newTable (hv : View m role) (h : Owned m b role) (hd : role d = some .dir)
    (habs : isEntryExist (m.phys d i) = false) (hnew : Grant.New ⟨.pageTable, a, 1⟩ m.handed) :
    View (((m.setPage (frameOf a) fun _ => 0).granted .pageTable a 1).setWord d i
      (entryWord a userpage)) (role.assign (frameOf a) (.table d)) := by
  have hnone := h.role_new hnew (by omega)
  have hle : role.Le (role.assign (frameOf a) (.table d)) := Roles.le_assign hnone
  have hne : ∀ x r, role x = some r → x ≠ frameOf a := fun _ _ => Roles.ne_of_none hnone
  have hz : isEntryExist 0 = false := rfl
  have hrole : ∀ {x}, x ≠ frameOf a → role.assign (frameOf a) (.table d) x = role x :=
    fun hx => Roles.assign_of_ne hx
  generalize hm' : ((m.setPage (frameOf a) fun _ => 0).granted .pageTable a 1).setWord d i
    (entryWord a userpage) = m'
  have hcases : ∀ x k, (x = d ∧ k = i ∧ m'.phys x k = entryWord a userpage) ∨
      m'.phys x k = (m.setPage (frameOf a) fun _ => 0).phys x k := by
    intro x k
    rw [← hm']
    exact Tables.setWord_cases (m := (m.setPage (frameOf a) fun _ => 0).granted .pageTable a 1) x k
  -- a word is the new one, or an old one; the new table has none
  have hword : ∀ x k, Holder (role.assign (frameOf a) (.table d)) x →
    isEntryExist (m'.phys x k) = true →
      (x = d ∧ k = i ∧ m'.phys x k = entryWord a userpage) ∨
      (x ≠ frameOf a ∧ Holder role x ∧ m'.phys x k = m.phys x k ∧ isEntryExist (m.phys x k) = true ∧
        frameOf (m.phys x k) ≠ frameOf a) := by
    intro x k hx hp
    rcases hcases x k with hc | he
    · exact Or.inl hc
    · by_cases hxa : x = frameOf a
      · rw [he, hxa, setPage_phys_self, hz] at hp
        exact absurd hp (by simp)
      · have hx' : Holder role x := by
          unfold Holder at hx ⊢
          rwa [hrole hxa] at hx
        rw [setPage_phys_of_ne hxa] at he
        rw [he] at hp
        exact Or.inr ⟨hxa, hx', he, hp, h.target_ne hnone hx' hp⟩
  have hvram : ∀ x r, role x = some r → isEntryExist (m.phys x 0x380) = true →
      m'.phys x 0x380 = m.phys x 0x380 := by
    intro x r hx hp
    rcases hcases x 0x380 with ⟨rfl, rfl, -⟩ | he
    · rw [habs] at hp
      exact absurd hp (by simp)
    · rw [he, setPage_phys_of_ne (hne x r hx)]
  have hkp : m'.kPdir = m.kPdir := by rw [← hm']; rfl
  refine ⟨?_, ?_, ?_, ?_, ?_⟩
  · rw [hkp, hvram _ _ h.tables.kdir hv.kernel]
    exact hv.kernel
  · intro x hx
    have hxa : x ≠ frameOf a := by
      rintro rfl
      rw [Roles.assign_self] at hx
      exact absurd hx (by simp)
    rw [hrole hxa] at hx
    obtain ⟨h1, h2⟩ := hv.system x hx
    rw [hvram x _ hx h1]
    exact ⟨h1, hle _ _ h2⟩
  · intro x hx k hk ht
    rcases hword x k (Or.inl hx) hk with ⟨-, -, he⟩ | ⟨hxa, -, he, hp, hfr⟩
    · rw [he, isUser_entryWord]
      rfl
    · rw [hrole hxa] at hx
      rw [he, hrole hfr] at ht
      rw [he]
      exact hv.slots x hx k hp ht
  · intro y t ht k hk
    rcases hword t k (Or.inr ⟨y, ht⟩) hk with ⟨-, -, he⟩ | ⟨hta, -, he, hp, -⟩
    · rw [he, isUser_entryWord]
      rfl
    · rw [hrole hta] at ht
      rw [he]
      exact hv.entries y t ht k hp
  · intro x x' k k' hx hx' hk hk' heq htarget
    rcases hword x k hx hk with ⟨rfl, rfl, he⟩ | ⟨-, hx₁, he, hp, hfr⟩
    · rcases hword x' k' hx' hk' with ⟨rfl, rfl, -⟩ | ⟨-, -, he', -, hfr'⟩
      · exact ⟨rfl, rfl⟩
      · rw [he, he', frameOf_entryWord] at heq
        exact absurd heq.symm hfr'
    · rcases hword x' k' hx' hk' with ⟨rfl, rfl, he'⟩ | ⟨-, hx₁', he', hp', -⟩
      · rw [he, he', frameOf_entryWord] at heq
        exact absurd heq hfr
      · rw [he, he'] at heq
        rw [he, hrole hfr] at htarget
        exact hv.unique x x' k k' hx₁ hx₁' hp hp' heq htarget

end View

/-! ## What is opened -/

/-- Two addresses of one page. -/
def SamePage (v w : UInt32) : Prop := dirIndex v = dirIndex w ∧ tableIndex v = tableIndex w

/-- `enableSpace` opens the pages `ws` in the directory in frame `D`: outside the kernel's slots
these pages become mapped there, all else is mapped as before, and no page of data changes. -/
structure Opened (D : Nat) (ws : List UInt32) (m : Machine) (role : Roles) (m' : Machine)
    (role' : Roles) :
    Prop where
  dirs : ∀ x, role' x = some .dir → role x = some .dir
  mapped : ∀ x, role x = some .dir → ∀ v, ¬ KernelSlot m v →
    (Owned.Mapped m' x v ↔ Owned.Mapped m x v ∨ x = D ∧ ∃ w ∈ ws, SamePage v w)
  data : ∀ f y, role f = some (.data y) → m'.phys f = m.phys f

theorem Opened.refl : Opened d [] m role m role :=
  ⟨fun _ hx => hx, fun _ _ _ _ => by simp, fun _ _ _ => rfl⟩

theorem Opened.trans {m'' : Machine} {role'' : Roles} {ws ws' : List UInt32}
    (h : Opened d ws m role m' role') (h' : Opened d ws' m' role' m'' role'')
    (hle : role.Le role') (hn : m'.nrValidPages = m.nrValidPages) :
    Opened d (ws ++ ws') m role m'' role'' := by
  refine ⟨fun x hx => h.dirs x (h'.dirs x hx), fun x hx v hk => ?_, fun f y hf => ?_⟩
  · have hk' : ¬ KernelSlot m' v := by
      unfold KernelSlot
      rwa [hn]
    rw [h'.mapped x (hle _ _ hx) v hk', h.mapped x hx v hk]
    simp only [List.mem_append, or_and_right, exists_or, and_or_left, or_assoc]
  · rw [h'.data f y (hle _ _ hf), h.data f y hf]

/-- The words of a directory and its table decide what is mapped. -/
theorem Owned.Mapped.congr {v : UInt32} (hd : m'.phys x (dirIndex v) = m.phys x (dirIndex v))
    (ht : isEntryExist (m.phys x (dirIndex v)) = true →
      m'.phys (frameOf (m.phys x (dirIndex v))) (tableIndex v) =
        m.phys (frameOf (m.phys x (dirIndex v))) (tableIndex v)) :
    Owned.Mapped m' x v ↔ Owned.Mapped m x v := by
  unfold Owned.Mapped
  rw [hd]
  constructor
  · rintro ⟨h1, h2⟩
    rw [ht h1] at h2
    exact ⟨h1, h2⟩
  · rintro ⟨h1, h2⟩
    rw [ht h1]
    exact ⟨h1, h2⟩

/-- A new table maps nothing yet. -/
theorem Opened.newTable (h : Owned m b role) (hd : role d = some .dir)
    (habs : isEntryExist (m.phys d i) = false) (hnew : Grant.New ⟨.pageTable, a, 1⟩ m.handed) :
    Opened d [] m role
      (((m.setPage (frameOf a) fun _ => 0).granted .pageTable a 1).setWord d i
        (entryWord a userpage))
      (role.assign (frameOf a) (.table d)) := by
  have hnone := h.role_new hnew (by omega)
  have hne : ∀ x r, role x = some r → x ≠ frameOf a := fun _ _ => Roles.ne_of_none hnone
  generalize hm' : ((m.setPage (frameOf a) fun _ => 0).granted .pageTable a 1).setWord d i
    (entryWord a userpage) = m'
  have hother : ∀ x r, role x = some r → x ≠ d → m'.phys x = m.phys x := by
    intro x r hx hxd
    rw [← hm', setWord_phys_of_ne hxd, granted_phys, setPage_phys_of_ne (hne x r hx)]
  refine ⟨fun x hx => ?_, fun x hx v hk => ?_, fun f y hf => ?_⟩
  · by_cases hxa : x = frameOf a
    · rw [hxa, Roles.assign_self] at hx
      exact absurd hx (by simp)
    · rwa [Roles.assign_of_ne hxa] at hx
  · simp only [List.not_mem_nil, false_and, exists_false, and_false, or_false]
    by_cases hslot : x = d ∧ dirIndex v = i
    · obtain ⟨rfl, rfl⟩ := hslot
      constructor
      · rintro ⟨-, h2⟩
        rw [← hm', setWord_phys_self, frameOf_entryWord, setWord_phys_of_ne (hne _ _ hd).symm,
          granted_phys, setPage_phys_self] at h2
        exact absurd h2 (by decide)
      · rintro ⟨h1, -⟩
        rw [habs] at h1
        exact absurd h1 (by simp)
    · have hword : m'.phys x (dirIndex v) = m.phys x (dirIndex v) := by
        rw [← hm']
        rcases Tables.setWord_cases
          (m := (m.setPage (frameOf a) fun _ => 0).granted .pageTable a 1) (f := d)
          (i := i) (w := entryWord a userpage) x (dirIndex v) with ⟨hxd, hvi, -⟩ | he
        · exact absurd ⟨hxd, hvi⟩ hslot
        · rw [he, granted_phys, setPage_phys_of_ne (hne x _ hx)]
      refine Owned.Mapped.congr hword fun hp => ?_
      have ht := h.own_table hx hp hk
      rw [hother _ _ ht ?_]
      rintro he
      rw [he, hd] at ht
      exact absurd ht (by simp)
  · refine hother f _ hf ?_
    rintro rfl
    rw [hd] at hf
    exact absurd hf (by simp)

/-- An entry for a new page maps that page, in that directory. -/
theorem Opened.mapPage (use : Use) (h : Owned m b role) (hv : View m role) (hd : role d = some .dir)
    (hslot : isEntryExist (m.phys d (dirIndex w)) = true)
    (hT : role (frameOf (m.phys d (dirIndex w))) = some r) (hr : r = .kernelTable ∨ r = .table d) :
    Opened d [w] m role
      ((m.granted use a 1).setWord (frameOf (m.phys d (dirIndex w))) (tableIndex w)
      (entryWord a userpage)) (role.assign (frameOf a) (.data d)) := by
  generalize hTe : frameOf (m.phys d (dirIndex w)) = T at hT
  generalize hm' : (m.granted use a 1).setWord T (tableIndex w) (entryWord a userpage) = m'
  have hother : ∀ x r', role x = some r' → r' ≠ r → m'.phys x = m.phys x := by
    intro x r' hx hne
    rw [← hm']
    refine setWord_phys_of_ne ?_
    rintro rfl
    rw [hx] at hT
    exact hne (Option.some.inj hT)
  refine ⟨fun x hx => ?_, fun x hx v hk => ?_, fun f y hf => ?_⟩
  · by_cases hxa : x = frameOf a
    · rw [hxa, Roles.assign_self] at hx
      exact absurd hx (by simp)
    · rwa [Roles.assign_of_ne hxa] at hx
  · simp only [List.mem_singleton, exists_eq_left]
    have hdir : m'.phys x = m.phys x := hother x _ hx (by rcases hr with rfl | rfl <;> simp)
    by_cases hpage : x = d ∧ SamePage v w
    · obtain ⟨rfl, hvd, hvt⟩ := hpage
      have hm : Owned.Mapped m' x v := by
        refine ⟨?_, ?_⟩
        · rw [hdir, hvd]
          exact hslot
        · rw [hdir, hvd, hvt, hTe, ← hm', setWord_phys_self]
          exact isEntryExist_entryWord rfl
      exact ⟨fun _ => Or.inr ⟨rfl, hvd, hvt⟩, fun _ => hm⟩
    · have hcongr : Owned.Mapped m' x v ↔ Owned.Mapped m x v := by
        refine Owned.Mapped.congr (by rw [hdir]) fun hp => ?_
        have ht := h.own_table hx hp hk
        rw [← hm']
        rcases Tables.setWord_cases (m := m.granted use a 1) (f := T) (i := tableIndex w)
          (w := entryWord a userpage) (frameOf (m.phys x (dirIndex v))) (tableIndex v) with
            ⟨he, hvt, -⟩ | he
        · -- the table has one slot only
          rw [he, hT] at ht
          obtain rfl := Option.some.inj ht
          have hxd : x = d := by simpa using hr
          subst hxd
          have hvd := (hv.unique x x (dirIndex v) (dirIndex w) (Or.inl hd) (Or.inl hd) hp hslot
            (he.trans hTe.symm) (by rw [he, hT]; simp)).2
          exact absurd ⟨rfl, hvd, hvt⟩ hpage
        · exact he
      rw [hcongr]
      exact ⟨Or.inl, fun hc => hc.resolve_right hpage⟩
  · exact hother f _ hf (by rcases hr with rfl | rfl <;> simp)

/-- **One turn of `enableSpace`** opens its page. -/
theorem Owned.Turn.opened (ht : Owned.Turn use d w userpage m role m' role') (h : Owned m b role)
    (hv : View m role) (hd : role d = some .dir) :
    View m' role' ∧ Opened d [w] m role m' role' := by
  cases ht with
  | mapped hm =>
    refine ⟨hv, fun _ hx => hx, fun x hx v hk => ?_, fun _ _ _ => rfl⟩
    simp only [List.mem_singleton, exists_eq_left]
    constructor
    · exact Or.inl
    · rintro (hx | ⟨rfl, hvd, hvt⟩)
      · exact hx
      · unfold Owned.Mapped
        rw [hvd, hvt]
        exact hm
  | page hslot hT hr habs ha hnew =>
    exact ⟨hv.mapPage h hT hr hnew, Opened.mapPage use h hv hd hslot hT hr⟩
  | @table s t hslot ht htnew hs hsnew =>
    have hnone := h.role_new htnew (by omega)
    obtain ⟨h₁, hg₁⟩ := h.newTable use userpage hd hslot ht htnew
    have hv₁ := hv.newTable h hd hslot htnew
    have ho₁ := Opened.newTable h hd hslot htnew
    have hd₁ := hg₁.le _ _ hd
    have hword : (((m.setPage (frameOf t) fun _ => 0).granted .pageTable t 1).setWord d (dirIndex w)
        (entryWord t userpage)).phys d (dirIndex w) = entryWord t userpage := setWord_phys_self
    have hT : role.assign (frameOf t) (.table d)
      (frameOf ((((m.setPage (frameOf t) fun _ => 0).granted
        .pageTable t 1).setWord d (dirIndex w) (entryWord t userpage)).phys d (dirIndex w))) =
        some (.table d) := by
      rw [hword, frameOf_entryWord, Roles.assign_self]
    have ho₂ := Opened.mapPage (a := s) use h₁ hv₁ hd₁
      (by rw [hword]; exact isEntryExist_entryWord rfl) hT (Or.inr rfl)
    rw [hword, frameOf_entryWord] at ho₂
    refine ⟨hv₁.mapPage h₁ Roles.assign_self (Or.inr rfl) hsnew, ?_⟩
    exact ho₁.trans ho₂ hg₁.le rfl

/-- **`enableSpace`** opens the pages of its range. -/
theorem Owned.enableSpace_opened {virAddr size : UInt32} (h : Owned m b role) (hv : View m role)
    (ha : Aligned pdir) (hd : role (frameOf pdir) = some .dir) (hu : use = .data ∨ use = .copied)
    (hr : m.enableSpace virAddr size pdir userpage use = .ok m') :
    ∃ role', Owned m' b role' ∧ View m' role' ∧ Owned.Grown use (frameOf pdir) m role m' role' ∧
      Opened (frameOf pdir) (rangePages virAddr size) m role m' role' := by
  rw [enableSpace_eq] at hr
  refine loop_invariant (I := fun n s => ∃ role', Owned s b role' ∧ View s role' ∧
    Owned.Grown use (frameOf pdir) m role s role' ∧
    Opened (frameOf pdir) ((List.range n).map (pageAt virAddr)) m role s role') ?_ ?_ hr
  · exact ⟨role, h, hv, Owned.Grown.refl, Opened.refl⟩
  · rintro n - s s' ⟨role₁, h₁, hv₁, hg₁, ho₁⟩ hs
    have hd₁ := hg₁.le _ _ hd
    obtain ⟨role₂, ht⟩ := h₁.enablePage_turn ha hd₁ hs
    obtain ⟨h₂, hg₂, -, -⟩ := ht.owned h₁ hd₁ hu
    obtain ⟨hv₂, ho₂⟩ := ht.opened h₁ hv₁ hd₁
    have hn : s.nrValidPages = m.nrValidPages := by rw [hg₁.same]; rfl
    refine ⟨role₂, h₂, hv₂, hg₁.trans hg₂, ?_⟩
    rw [List.range_succ, List.map_append]
    exact ho₁.trans ho₂ hg₁.le hn

end OwnOS.VarMem
