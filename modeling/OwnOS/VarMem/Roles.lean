import OwnOS.VarMem.EnableSpace

/-!
# Who owns a frame

`Role` says what a frame in use is for, and to which process directory a table or a page of data
belongs. `Tables m b role` is what the directories and tables look like under an assignment of
roles: every present entry of a process directory is a system page of the kernel or a table of its
own, and every present entry of such a table is a page of its own. Each kind of store the kernel
makes keeps it (`Tables.congr`, `Tables.setWord`), and so does giving a role to a frame that had
none (`Tables.assign`).
-/

namespace OwnOS.VarMem

open Lib

/-- What a frame is for. A table and a page of data belong to the directory in frame `d`. -/
inductive Role where
  | kernelDir
  | kernelTable
  | dir
  | table (d : Nat)
  | data (d : Nat)
  | stack
  deriving DecidableEq

namespace Role

/-- The frames that hold entries. -/
def structural : Role → Bool
  | .data _ => false
  | .stack => false
  | _ => true

/-- The chunks a frame of this role comes from. -/
def serves : Role → Use → Bool
  | .kernelDir, .pageDir => true
  | .kernelTable, .kernelTable => true
  | .kernelTable, .vramTable => true
  | .dir, .pageDir => true
  | .table _, .pageTable => true
  | .data _, .data => true
  | .data _, .copied => true
  | .stack, .kernelStack => true
  | _, _ => false

end Role

/-- The roles of the frames in use. -/
abbrev Roles := Nat → Option Role

/-- Roles are only added. -/
def Roles.Le (role role' : Roles) : Prop := ∀ f r, role f = some r → role' f = some r

/-- Give a role to a frame. -/
def Roles.assign (role : Roles) (f : Nat) (r : Role) : Roles := Function.update role f (some r)

theorem Roles.Le.refl (role : Roles) : role.Le role := fun _ _ h => h

theorem Roles.Le.trans {r₁ r₂ r₃ : Roles} (h : r₁.Le r₂) (h' : r₂.Le r₃) : r₁.Le r₃ :=
  fun f r hr => h' f r (h f r hr)

/-- A frame without a role is none of those that have one. -/
theorem Roles.ne_of_none {role : Roles} {x f : Nat} {r : Role} (hf : role f = none)
    (hx : role x = some r) :
    x ≠ f := by
  rintro rfl
  rw [hf] at hx
  exact absurd hx (by simp)

theorem Roles.le_assign {role : Roles} {f : Nat} {r : Role} (hf : role f = none) :
    role.Le (role.assign f r) := by
  intro x r' hx
  have hne := Roles.ne_of_none hf hx
  unfold Roles.assign
  rw [Function.update_of_ne hne]
  exact hx

@[simp] theorem Roles.assign_self {role : Roles} {f : Nat} {r : Role} :
    role.assign f r f = some r :=
  Function.update_self _ _ _

theorem Roles.assign_of_ne {role : Roles} {f x : Nat} {r : Role} (h : x ≠ f) :
    role.assign f r x = role x := Function.update_of_ne h _ _

/-- The entries of the kernel's and the processes' directories and tables. -/
structure Tables (m : Machine) (b : UInt32) (role : Roles) : Prop where
  aligned : Aligned b
  bound : b.toNat + m.nrValidPages * 4096 ≤ 4294967296
  kdir : role (frameOf m.kPdir) = some .kernelDir
  straight : ∀ i < m.nrValidPages, role (frameOf b + i) = some .kernelTable ∧
    ∀ j : Fin 1024, m.phys (frameOf b + i) j = entryWord (UInt32.ofNat j * 0x1000) systempage
  slots : ∀ i (hi : i < 1024), i < m.nrValidPages →
    m.phys (frameOf m.kPdir) ⟨i, hi⟩ = entryWord (b + 0x1000 * UInt32.ofNat i) systempage
  vram : isUser (m.phys (frameOf m.kPdir) 0x380) = false ∧
    role (frameOf (m.phys (frameOf m.kPdir) 0x380)) = some .kernelTable
  shared : ∀ d, role d = some .dir → ∀ i : Fin 1024, i.val < m.nrValidPages →
    m.phys d i = m.phys (frameOf m.kPdir) i
  dirs : ∀ d, role d = some .dir → ∀ i, isEntryExist (m.phys d i) = true →
    (isUser (m.phys d i) = false ∧ role (frameOf (m.phys d i)) = some .kernelTable ∧
      (i.val < m.nrValidPages ∨ i.val = 0x380)) ∨ role (frameOf (m.phys d i)) = some (.table d)
  tables : ∀ d t, role t = some (.table d) → ∀ j, isEntryExist (m.phys t j) = true →
    role (frameOf (m.phys t j)) = some (.data d)
  owner : ∀ f d, role f = some (.table d) ∨ role f = some (.data d) → role d = some .dir

namespace Tables

variable {m m' : Machine} {b w : UInt32} {role : Roles} {f : Nat} {i : Fin 1024} {r : Role}

/-- A store outside the directories and tables. -/
theorem congr (h : Tables m b role) (hk : m'.kPdir = m.kPdir) (hs : m'.memSize = m.memSize)
    (hp : ∀ f r, role f = some r → r.structural = true → m'.phys f = m.phys f) :
    Tables m' b role := by
  have hn : m'.nrValidPages = m.nrValidPages := by
    unfold Machine.nrValidPages
    rw [hs]
  have hkd : m'.phys (frameOf m.kPdir) = m.phys (frameOf m.kPdir) := hp _ _ h.kdir rfl
  refine ⟨h.aligned, ?_, ?_, ?_, ?_, ?_, ?_, ?_, ?_, h.owner⟩
  · rw [hn]
    exact h.bound
  · rw [hk]
    exact h.kdir
  · intro i hi
    obtain ⟨hr, hj⟩ := h.straight i (hn ▸ hi)
    refine ⟨hr, fun j => ?_⟩
    rw [hp _ _ hr rfl]
    exact hj j
  · intro i hi hin
    rw [hk, hkd]
    exact h.slots i hi (hn ▸ hin)
  · rw [hk, hkd]
    exact h.vram
  · intro d hd i hin
    rw [hk, hkd, hp d _ hd rfl]
    exact h.shared d hd i (hn ▸ hin)
  · intro d hd i
    rw [hp d _ hd rfl, hn]
    exact h.dirs d hd i
  · intro d t ht j
    rw [hp t _ ht rfl]
    exact h.tables d t ht j

/-- Giving a role to a frame that has none: a directory comes with the kernel's slots, a table comes
empty. -/
theorem assign (h : Tables m b role) (hf : role f = none)
    (hdir : r = .dir → ∀ i : Fin 1024,
    (i.val < m.nrValidPages → m.phys f i = m.phys (frameOf m.kPdir) i) ∧
    (isEntryExist (m.phys f i) = true → isUser (m.phys f i) = false ∧ role (frameOf (m.phys f i)) =
      some .kernelTable ∧ (i.val < m.nrValidPages ∨ i.val = 0x380)))
    (htab : ∀ d, r = .table d → role d = some .dir ∧ ∀ j, isEntryExist (m.phys f j) = false)
    (hdata : ∀ d, r = .data d → role d = some .dir) : Tables m b (role.assign f r) := by
  have hle : role.Le (role.assign f r) := Roles.le_assign hf
  -- a frame has the new role only if it is the new frame
  have hcases : ∀ x r', role.assign f r x = some r' → x = f ∧ r' = r ∨ role x = some r' := by
    intro x r' hx
    by_cases he : x = f
    · subst he
      rw [Roles.assign_self] at hx
      exact Or.inl ⟨rfl, (Option.some.inj hx).symm⟩
    · rw [Roles.assign_of_ne he] at hx
      exact Or.inr hx
  refine ⟨h.aligned, h.bound, hle _ _ h.kdir, ?_, h.slots, ⟨h.vram.1, hle _ _ h.vram.2⟩,
    ?_, ?_, ?_, ?_⟩
  · intro i hi
    exact ⟨hle _ _ (h.straight i hi).1, (h.straight i hi).2⟩
  · intro d hd i hin
    rcases hcases d _ hd with ⟨rfl, hr⟩ | hd
    · exact (hdir hr.symm i).1 hin
    · exact h.shared d hd i hin
  · intro d hd i hi
    rcases hcases d _ hd with ⟨rfl, hr⟩ | hd
    · obtain ⟨h1, h2, h3⟩ := (hdir hr.symm i).2 hi
      exact Or.inl ⟨h1, hle _ _ h2, h3⟩
    · rcases h.dirs d hd i hi with ⟨h1, h2, h3⟩ | h1
      · exact Or.inl ⟨h1, hle _ _ h2, h3⟩
      · exact Or.inr (hle _ _ h1)
  · intro d t ht j hj
    rcases hcases t _ ht with ⟨rfl, hr⟩ | ht
    · rw [(htab d hr.symm).2 j] at hj
      exact absurd hj (by simp)
    · exact hle _ _ (h.tables d t ht j hj)
  · rintro x d (hx | hx)
    · rcases hcases x _ hx with ⟨-, hr⟩ | hx
      · exact hle _ _ (htab d hr.symm).1
      · exact hle _ _ (h.owner x d (Or.inl hx))
    · rcases hcases x _ hx with ⟨-, hr⟩ | hx
      · exact hle _ _ (hdata d hr.symm)
      · exact hle _ _ (h.owner x d (Or.inr hx))

/-- Every word but the one written. -/
theorem setWord_cases (x : Nat) (y : Fin 1024) :
    (x = f ∧ y = i ∧ (m.setWord f i w).phys x y = w) ∨ (m.setWord f i w).phys x y = m.phys x y := by
  by_cases hx : x = f
  · subst hx
    by_cases hy : y = i
    · subst hy
      exact Or.inl ⟨rfl, rfl, Machine.setWord_phys_self⟩
    · right
      simp only [Machine.setWord, Function.update_self]
      exact Function.update_of_ne hy _ _
  · exact Or.inr (congrFun (Machine.setWord_phys_of_ne hx) y)

/-- **Writing an entry**: into a table of the kernel where it has none (so it is the VRAM's, since
the straight tables are full), into a process directory for a table of its own, or into a table of a
process for a page of its own. -/
theorem setWord (h : Tables m b role) (hf : role f = some r) (hr : r ≠ .kernelDir)
    (hkernel : r = .kernelTable → isEntryExist (m.phys f i) = false)
    (hdir : r = .dir → isEntryExist (m.phys f i) = false ∧ role (frameOf w) = some (.table f))
    (htab : ∀ d, r = .table d → role (frameOf w) = some (.data d)) :
    Tables (m.setWord f i w) b role := by
  have hrole : ∀ {r'}, role f = some r' → r = r' := fun h' => Option.some.inj (hf.symm.trans h')
  have hk : (m.setWord f i w).phys (frameOf m.kPdir) = m.phys (frameOf m.kPdir) := by
    refine Machine.setWord_phys_of_ne ?_
    intro e
    exact hr (hrole (e ▸ h.kdir))
  refine ⟨h.aligned, h.bound, h.kdir, ?_, ?_, ?_, ?_, ?_, ?_, h.owner⟩
  · intro k hk
    obtain ⟨hk', hj⟩ := h.straight k hk
    refine ⟨hk', fun j => ?_⟩
    rcases setWord_cases (m := m) (f := f) (i := i) (w := w) (frameOf b + k) j with
      ⟨hb, rfl, -⟩ | he
    · have habs := hkernel (hrole (hb ▸ hk'))
      rw [← hb, hj j, isEntryExist_entryWord Machine.systempage_odd] at habs
      exact absurd habs (by simp)
    · rw [he]
      exact hj j
  · intro k hk' hkn
    show (m.setWord f i w).phys (frameOf m.kPdir) _ = _
    rw [hk]
    exact h.slots k hk' hkn
  · show isUser ((m.setWord f i w).phys (frameOf m.kPdir) 0x380) = false ∧
      role (frameOf ((m.setWord f i w).phys (frameOf m.kPdir) 0x380)) = _
    rw [hk]
    exact h.vram
  · intro d hd k hkn
    show (m.setWord f i w).phys d k = (m.setWord f i w).phys (frameOf m.kPdir) k
    rw [hk]
    rcases setWord_cases (m := m) (f := f) (i := i) (w := w) d k with ⟨rfl, rfl, -⟩ | he
    · -- the slots of the straight map are all present
      have habs := (hdir (hrole hd)).1
      rw [h.shared d hd k hkn, h.slots k.val k.isLt hkn,
        isEntryExist_entryWord Machine.systempage_odd] at habs
      exact absurd habs (by simp)
    · rw [he]
      exact h.shared d hd k hkn
  · intro d hd k hk'
    rcases setWord_cases (m := m) (f := f) (i := i) (w := w) d k with ⟨rfl, rfl, he⟩ | he
    · rw [he]
      exact Or.inr (hdir (hrole hd)).2
    · rw [he] at hk' ⊢
      exact h.dirs d hd k hk'
  · intro d t ht j hj
    rcases setWord_cases (m := m) (f := f) (i := i) (w := w) t j with ⟨rfl, rfl, he⟩ | he
    · rw [he]
      exact htab d (hrole ht)
    · rw [he] at hj ⊢
      exact h.tables d t ht j hj

/-- The slots that processes share are system pages, over tables of the kernel. -/
theorem kernel_slot (h : Tables m b role) (hi : i.val < m.nrValidPages ∨ i.val = 0x380) :
    isUser (m.phys (frameOf m.kPdir) i) = false ∧
      role (frameOf (m.phys (frameOf m.kPdir) i)) = some .kernelTable := by
  have hs : isUser systempage = false := rfl
  rcases hi with hi | hi
  · rw [h.slots i.val i.isLt hi, isUser_entryWord, frameOf_entryWord,
      (chunk_frame h.aligned h.bound hi).2]
    exact ⟨hs, (h.straight i.val hi).1⟩
  · obtain rfl : i = 0x380 := Fin.ext hi
    exact h.vram

end Tables

end OwnOS.VarMem
