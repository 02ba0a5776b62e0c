import OwnOS.VarMem.EnableSpace

/-!
# `makeSysProc` returns

Under any map that reaches the kernel's directory and the new directory and tables, `makeSysProc`
returns once the allocator has its eight chunks: a directory, and for each of the two stacks a table
and two pages, and the kernel stack. It writes to three frames only, the ones behind the pointers to
the directory and the two tables.
-/

namespace OwnOS.VarMem

open Lib Lib.Word

namespace Machine

variable {m m' : Machine} {K : Set (Nat × Fin 1024)} {S : Set UInt32} {g : UInt32 → UInt32}
  {pdir t s₁ s₂ : UInt32} {fd ft : Nat}

/-- The chunks of one stack: a table and two pages, and what there was before. -/
def stackChunks (t s₁ s₂ : UInt32) (l : List Grant) : List Grant :=
  ⟨.data, s₂, 1⟩ :: ⟨.data, s₁, 1⟩ :: ⟨.pageTable, t, 1⟩ :: l

/-- The allocator answers `t`, `s₁` and `s₂` for a stack when `l` is handed out, and all are new. -/
def StackAnswers (m : Machine) (l : List Grant) (t s₁ s₂ : UInt32) : Prop :=
  m.answers .pageTable l.length = t ∧ m.answers .data (l.length + 1) = s₁ ∧
    m.answers .data (l.length + 2) = s₂ ∧ Grant.New ⟨.pageTable, t, 1⟩ l ∧
    Grant.New ⟨.data, s₁, 1⟩ (⟨.pageTable, t, 1⟩ :: l) ∧
    Grant.New ⟨.data, s₂, 1⟩ (⟨.data, s₁, 1⟩ :: ⟨.pageTable, t, 1⟩ :: l)

/-- **A stack** of two pages under an empty slot of the directory. -/
theorem Holds.enableStack {reg : Region} (hreg : reg ∈ stackRegions) (hd : Holds S g pdir fd)
    (hr : Reaches m K S g) (hKd : ∀ i, (fd, i) ∉ K)
    (habs : isEntryExist (m.phys fd (dirIndex reg.begin)) = false) (ht : Holds S g t ft)
    (hKt : ∀ j, (ft, j) ∉ K) (hne : ft ≠ fd) (hans : StackAnswers m m.handed t s₁ s₂) :
    ∃ m', m.enableSpace reg.begin reg.size pdir userpage .data = .ok m' ∧
      m' = { m with phys := m'.phys, handed := stackChunks t s₁ s₂ m.handed } ∧
      (∀ f, f ≠ fd → f ≠ ft → m'.phys f = m.phys f) ∧
      ∀ i, i ≠ dirIndex reg.begin → m'.phys fd i = m.phys fd i := by
  have hfacts : floor4k reg.begin = reg.begin ∧
      ((ceil4k (reg.begin + reg.size) - floor4k reg.begin) / 0x1000).toNat = 2 ∧
      dirIndex (reg.begin + 0x1000) = dirIndex reg.begin ∧
      tableIndex (reg.begin + 0x1000) ≠ tableIndex reg.begin := by
    simp only [stackRegions, List.mem_cons, List.not_mem_nil, or_false] at hreg
    rcases hreg with rfl | rfl
    · decide
    · decide
  obtain ⟨hfloor, hnum, hdi, hti⟩ := hfacts
  obtain ⟨hat, ha₁, ha₂, hnt, hn₁, hn₂⟩ := hans
  have hodd : userpage.toNat % 2 = 1 := rfl
  have hz : reg.begin + UInt32.ofNat 0 * 0x1000 = reg.begin := by simp
  have hone : reg.begin + UInt32.ofNat 1 * 0x1000 = reg.begin + 0x1000 := by simp
  have h₁ : m.enablePage reg.begin pdir userpage .data =
      .ok (m.mapNew fd ft reg.begin t s₁ userpage .data) :=
    hd.enablePage_new hr habs (hKd _) hat hnt ht hKt ha₁ hn₁
  obtain ⟨m₁, hm₁⟩ : ∃ m₁, m₁ = m.mapNew fd ft reg.begin t s₁ userpage .data := ⟨_, rfl⟩
  have hr₁ : Reaches m₁ K S g := by
    refine hr.of_agree ⟨by rw [hm₁]; rfl, fun x hx => ?_⟩
    have h1 : x.1 ≠ ft := by rintro rfl; exact hKt x.2 hx
    have h2 : x.1 ≠ fd := by rintro rfl; exact hKd x.2 hx
    rw [hm₁]
    unfold mapNew
    rw [setPage_phys_of_ne h1, granted_phys, setWord_phys_of_ne h2, granted_phys]
  have hslot : m₁.phys fd (dirIndex (reg.begin + 0x1000)) = entryWord t userpage := by
    rw [hm₁, hdi]
    unfold mapNew
    rw [setPage_phys_of_ne hne.symm, granted_phys, setWord_phys_self]
  have hexD : isEntryExist (m₁.phys fd (dirIndex (reg.begin + 0x1000))) = true := by
    rw [hslot]
    exact isEntryExist_entryWord hodd
  have htab : Holds S g (caddrEntry (m₁.phys fd (dirIndex (reg.begin + 0x1000)))) ft := by
    rw [hslot, caddrEntry_entryWord ht.aligned]
    exact ht
  have hexT : isEntryExist (m₁.phys ft (tableIndex (reg.begin + 0x1000))) = false := by
    rw [hm₁]
    unfold mapNew
    rw [setPage_phys_self, Function.update_of_ne hti]
    rfl
  have hlen : m₁.handed = ⟨.data, s₁, 1⟩ :: ⟨.pageTable, t, 1⟩ :: m.handed := by rw [hm₁]; rfl
  have hans₁ : m₁.answers = m.answers := by rw [hm₁]; rfl
  have h₂ : m₁.enablePage (reg.begin + 0x1000) pdir userpage .data =
      .ok ((m₁.granted .data s₂ 1).setWord ft (tableIndex (reg.begin + 0x1000))
        (entryWord s₂ userpage)) := by
    refine hd.enablePage_page hr₁ hexD htab hexT (hKt _) ?_ ?_
    · rw [hans₁, hlen]
      exact ha₂
    · rw [hlen]
      exact hn₂
  refine ⟨(m₁.granted .data s₂ 1).setWord ft (tableIndex (reg.begin + 0x1000))
    (entryWord s₂ userpage), ?_, ?_, ?_, ?_⟩
  · have htwo : 2 = 0 + 1 + 1 := rfl
    unfold enableSpace
    simp only
    rw [hnum, hfloor, htwo, loop, loop, loop]
    simp only [hz, hone, h₁, ← hm₁, h₂]
  · rw [hm₁]
    rfl
  · intro f hf hf'
    rw [setWord_phys_of_ne hf', granted_phys, hm₁]
    unfold mapNew
    rw [setPage_phys_of_ne hf', granted_phys, setWord_phys_of_ne hf, granted_phys]
  · intro i hi
    rw [setWord_phys_of_ne hne.symm, granted_phys, hm₁]
    unfold mapNew
    rw [setPage_phys_of_ne hne.symm, granted_phys]
    simp only [setWord, Function.update_self]
    exact Function.update_of_ne hi _ _

/-- The chunks of a process, the kernel stack apart. -/
def procChunks (d t₁ s₁ s₂ t₂ s₃ s₄ : UInt32) (l : List Grant) : List Grant :=
  stackChunks t₂ s₃ s₄ (stackChunks t₁ s₁ s₂ (⟨.pageDir, d, 1⟩ :: l))

/-- **`makeSysProc` returns** when the allocator has the chunks, and writes to the frames behind the
pointers to the directory and the tables only. -/
theorem makeSysProc_total {t₁ t₂ s₃ s₄ stack : UInt32} {fk f₁ f₂ : Nat}
    (hlen : m.procs.length < nrProc) (hnr : m.nrValidPages ≤ 0xff) (hr : Reaches m K S g)
    (hk : Holds S g m.kPdir fk) (hd : Holds S g pdir fd) (hKd : ∀ i, (fd, i) ∉ K) (hne : fd ≠ fk)
    (hda : m.answers .pageDir m.handed.length = pdir) (hdn : Grant.New ⟨.pageDir, pdir, 1⟩ m.handed)
    (ht₁ : Holds S g t₁ f₁) (hK₁ : ∀ i, (f₁, i) ∉ K) (hne₁ : f₁ ≠ fd)
    (hans₁ : StackAnswers m (⟨.pageDir, pdir, 1⟩ :: m.handed) t₁ s₁ s₂) (ht₂ : Holds S g t₂ f₂)
    (hK₂ : ∀ i, (f₂, i) ∉ K) (hne₂ : f₂ ≠ fd)
    (hans₂ : StackAnswers m (stackChunks t₁ s₁ s₂ (⟨.pageDir, pdir, 1⟩ :: m.handed)) t₂ s₃ s₄)
    (hst : m.answers .kernelStack (m.handed.length + 7) = stack)
    (hstn : Grant.New ⟨.kernelStack, stack, 1⟩ (procChunks pdir t₁ s₁ s₂ t₂ s₃ s₄ m.handed)) :
    ∃ m', m.makeSysProc = .ok m' ∧
    m'.procs = m.procs ++ [⟨pdir, stackRegions, stack + 0x1000 - 4⟩] ∧
      m'.handed = ⟨.kernelStack, stack, 1⟩ :: procChunks pdir t₁ s₁ s₂ t₂ s₃ s₄ m.handed ∧
      ∀ f, f ≠ fd → f ≠ f₁ → f ≠ f₂ → m'.phys f = m.phys f := by
  have hr₁ : Reaches (m.granted .pageDir pdir 1) K S g := hr.of_agree ⟨rfl, fun _ _ => rfl⟩
  have hcopy := hk.copyKernelDir hd hr₁ hKd hne rfl
  obtain ⟨m₂, hm₂⟩ : ∃ m₂, m₂ = (m.granted .pageDir pdir 1).setPage fd
    (kernelSlots m.nrValidPages (m.phys fk)) := ⟨_, rfl⟩
  have hcopy' : (m.granted .pageDir pdir 1).copyKernelDir pdir = .ok m₂ := by rw [hm₂]; exact hcopy
  have hr₂ : Reaches m₂ K S g := by rw [hm₂]; exact hr₁.of_agree (agree_setPage hKd)
  have hh₂ : m₂.handed = ⟨.pageDir, pdir, 1⟩ :: m.handed := by rw [hm₂]; rfl
  -- the slots of the stacks are empty
  have hempty : ∀ i : Fin 1024, m.nrValidPages ≤ i.val → i.val ≠ 0x380 → m₂.phys fd i = 0 := by
    intro i hi hi'
    rw [hm₂, setPage_phys_self]
    unfold kernelSlots
    rw [if_neg (by omega)]
  have hz : isEntryExist 0 = false := rfl
  have hreg₁ : (⟨0x40000000 - 0x2000, 0x2000, 0x6⟩ : Region) ∈ stackRegions := by decide
  have hreg₂ : (⟨0x80000000 - 0x2000, 0x2000, 0x6⟩ : Region) ∈ stackRegions := by decide
  have hans₁' : StackAnswers m₂ m₂.handed t₁ s₁ s₂ := by rw [hh₂, hm₂]; exact hans₁
  obtain ⟨m₃, h₃, hs₃, hf₃, hd₃⟩ := hd.enableStack hreg₁ hr₂ hKd
    (by rw [hempty _ (le_trans hnr (by decide)) (by decide)]; exact hz) ht₁ hK₁ hne₁ hans₁'
  have hr₃ : Reaches m₃ K S g := by
    refine hr₂.of_agree ⟨by rw [hs₃], fun x hx => ?_⟩
    rw [hf₃ x.1 (by rintro rfl; exact hKd x.2 hx) (by rintro rfl; exact hK₁ x.2 hx)]
  have hh₃ : m₃.handed = stackChunks t₁ s₁ s₂ (⟨.pageDir, pdir, 1⟩ :: m.handed) := by rw [hs₃, hh₂]
  have hans₂' : StackAnswers m₃ m₃.handed t₂ s₃ s₄ := by rw [hh₃, hs₃, hm₂]; exact hans₂
  obtain ⟨m₄, h₄, hs₄, hf₄, -⟩ := hd.enableStack hreg₂ hr₃ hKd
    (by
      rw [hd₃ _ (by decide), hempty _ (le_trans hnr (by decide)) (by decide)]
      exact hz) ht₂ hK₂ hne₂ hans₂'
  have hh₄ : m₄.handed = procChunks pdir t₁ s₁ s₂ t₂ s₃ s₄ m.handed := by rw [hs₄, hh₃]; rfl
  have ha₄ : m₄.answers = m.answers := by rw [hs₄, hs₃, hm₂]; rfl
  have hp₄ : m₄.procs = m.procs := by rw [hs₄, hs₃, hm₂]; rfl
  have halloc : m₄.allocChunk .kernelStack 1 = .ok (m₄.granted .kernelStack stack 1, stack) := by
    refine allocChunk_granted ?_ ?_
    · rw [ha₄, hh₄]
      exact hst
    · rw [hh₄]
      exact hstn
  refine ⟨{ m₄.granted .kernelStack stack 1 with
    procs := m₄.procs ++ [⟨pdir, stackRegions, stack + 0x1000 - 4⟩] }, ?_, ?_, ?_, ?_⟩
  · unfold makeSysProc
    rw [if_neg (by omega), allocChunk_granted hda hdn, Res.ok_bind]
    simp only
    rw [hcopy', Res.ok_bind]
    unfold stackRegions
    rw [List.foldlM_cons, h₃, Res.ok_bind, List.foldlM_cons, h₄, Res.ok_bind, List.foldlM_nil,
      Res.pure_eq, Res.ok_bind, halloc, Res.ok_bind]
    rfl
  · rw [hp₄]
  · show _ :: m₄.handed = _
    rw [hh₄]
  · intro f hfd hf₁ hf₂
    show m₄.phys f = m.phys f
    rw [hf₄ f hfd hf₂, hf₃ f hfd hf₁, hm₂, setPage_phys_of_ne hfd, granted_phys]

end Machine

end OwnOS.VarMem
