import OwnOS.VarMem.ExactSpace

/-!
# A new directory

`makeSysProc` and `clone_mm` begin alike: `allocChunk` for a directory and `copyKernelDir`. What
they need is a kernel that addresses its own directory and the new one directly (`KernelReady`).
What they get is a directory with nothing outside the kernel's slots (`NewDir`), on which
`enableSpace` can work.
-/

namespace OwnOS.VarMem

open Lib Lib.Word Machine

/-- A directory slot of the kernel. -/
def IsKernelSlot (m : Machine) (i : Fin 1024) : Prop := i.val < m.nrValidPages ∨ i.val = 0x380

/-- The other slots. -/
def freeSlots (m : Machine) : Set (Fin 1024) := {i | ¬ IsKernelSlot m i}

/-- The slot of a place. -/
def Node.slot : Node → Fin 1024
  | .table i => i
  | .page i _ => i

/-- **A kernel that can make directories**: its own is addressed directly, with the tables of its
slots in use. -/
structure KernelReady (m : Machine) (K : Set (Nat × Fin 1024)) (R : Set UInt32) : Prop where
  direct : Direct m K R
  kdir : Reached R m.kPdir
  used : frameOf m.kPdir ∈ inUse m
  tables : ∀ i, IsKernelSlot m i → isEntryExist (m.phys (frameOf m.kPdir) i) = true →
    frameOf (m.phys (frameOf m.kPdir) i) ∈ inUse m

/-- **A new directory**: no table and no page outside the kernel's slots. -/
structure NewDir (m : Machine) (K : Set (Nat × Fin 1024)) (R : Set UInt32) (pdir : UInt32) :
    Prop where
  direct : Direct m K R
  dir : PageDir m R pdir (freeSlots m)
  empty : ∀ n : Node, n.slot ∈ freeSlots m → entry m (frameOf pdir) n = none

/-- What making a directory changes: the frame that was handed out for it. -/
structure Added (m m' : Machine) (pdir : UInt32) : Prop where
  same : m' = { m with phys := m'.phys, handed := m'.handed }
  fresh : frameOf pdir ∉ inUse m
  frames : ∀ f, f ≠ frameOf pdir → m'.phys f = m.phys f
  grows : inUse m ⊆ inUse m'

variable {m m₁ m' : Machine} {K : Set (Nat × Fin 1024)} {R : Set UInt32} {pdir : UInt32}

/-- What `allocChunk` and `copyKernelDir` change. -/
theorem KernelReady.newDir_eq (h : KernelReady m K R) (hpd : Reached R pdir)
    (ha : m.allocChunk .pageDir 1 = .ok (m₁, pdir)) : frameOf pdir ∉ inUse m ∧
      m₁.copyKernelDir pdir = .ok ((m.granted .pageDir pdir 1).setPage (frameOf pdir)
        (kernelSlots m.nrValidPages (m.phys (frameOf m.kPdir)))) := by
  obtain ⟨hnew, he⟩ := allocChunk_eq_ok.mp ha
  obtain ⟨rfl, hp⟩ := Prod.mk.inj he
  rw [← hp] at hnew ⊢
  have hfresh := not_inUse_of_new hp.symm hnew (by omega)
  refine ⟨hfresh, ?_⟩
  have hreach : Reaches (m.granted .pageDir pdir 1) K R id :=
    h.direct.reaches.of_agree ⟨rfl, fun _ _ => rfl⟩
  exact h.kdir.holds.copyKernelDir hpd.holds hreach (h.direct.not_mem_of_new hfresh)
    (fun e => hfresh (e ▸ h.used)) rfl

/-- **`allocChunk` and `copyKernelDir`** make a new directory. -/
theorem KernelReady.newDir (h : KernelReady m K R) (hpd : Reached R pdir)
    (ha : m.allocChunk .pageDir 1 = .ok (m₁, pdir)) (hc : m₁.copyKernelDir pdir = .ok m') :
    NewDir m' K R pdir ∧ Added m m' pdir := by
  obtain ⟨hfresh, heq⟩ := h.newDir_eq hpd ha
  obtain rfl := Except.ok.inj (heq.symm.trans hc)
  have hframes : ∀ f, f ≠ frameOf pdir → ((m.granted .pageDir pdir 1).setPage (frameOf pdir)
      (kernelSlots m.nrValidPages (m.phys (frameOf m.kPdir)))).phys f = m.phys f :=
    fun f hf => setPage_phys_of_ne hf
  have hgrows : inUse m ⊆ inUse ((m.granted .pageDir pdir 1).setPage (frameOf pdir)
      (kernelSlots m.nrValidPages (m.phys (frameOf m.kPdir)))) := fun f hf => inUse_granted hf
  -- a present entry is one of the kernel's
  have hkernel : ∀ i,
    isEntryExist (kernelSlots m.nrValidPages (m.phys (frameOf m.kPdir)) i) = true →
      IsKernelSlot m i ∧ kernelSlots m.nrValidPages (m.phys (frameOf m.kPdir)) i =
        m.phys (frameOf m.kPdir) i := by
    intro i hi
    unfold kernelSlots at hi ⊢
    by_cases hs : i.val < m.nrValidPages ∨ i.val = 0x380
    · rw [if_pos hs]
      exact ⟨hs, rfl⟩
    · rw [if_neg hs] at hi
      exact absurd hi (by decide)
  have hentry : ∀ i e, entry ((m.granted .pageDir pdir 1).setPage (frameOf pdir)
      (kernelSlots m.nrValidPages (m.phys (frameOf m.kPdir)))) (frameOf pdir) (.table i) = some e →
      IsKernelSlot m i ∧ frameOf e ∈ inUse m := by
    intro i e he
    obtain ⟨h1, rfl⟩ := entry_table.mp he
    rw [setPage_phys_self] at h1 ⊢
    obtain ⟨hs, hw⟩ := hkernel i h1
    rw [hw] at h1 ⊢
    exact ⟨hs, h.tables i hs h1⟩
  have hnone : ∀ i, ¬ IsKernelSlot m i → entry ((m.granted .pageDir pdir 1).setPage (frameOf pdir)
      (kernelSlots m.nrValidPages (m.phys (frameOf m.kPdir)))) (frameOf pdir)
        (.table i) = none := by
    intro i hi
    refine Option.eq_none_iff_forall_ne_some.mpr fun e he => hi (hentry i e he).1
  refine ⟨⟨?_, ⟨hpd, ?_, ?_, ?_, ?_⟩, ?_⟩, rfl, hfresh, hframes, hgrows⟩
  · refine h.direct.mono rfl hgrows fun f hf i _ => ?_
    rw [hframes f fun e => hfresh (e ▸ hf)]
  · exact mem_inUse_granted (by omega)
  · intro i e he
    obtain ⟨-, hu⟩ := hentry i e he
    exact ⟨hgrows hu, fun e' => hfresh (e' ▸ hu)⟩
  · intro i hi e he
    exact absurd (hentry i e he).1 hi
  · intro i hi j f hf
    rw [layout_eq_none.mpr (hnone i hi)] at hf
    exact absurd hf (by simp)
  · intro n hn
    cases n with
    | table i => exact hnone i hn
    | page i j =>
      have hi := hnone i hn
      simp only [entry] at hi ⊢
      rw [hi, Option.bind_none]

/-- **The kernel after `initPaging`** can make directories, whatever process runs. -/
theorem Owned.kernelReady {b : UInt32} {role : Roles} (h : Owned m b role) :
    ∃ c, m.cr3 = some c ∧ KernelReady m (lowWords c b) low := by
  have huse : ∀ f r, role f = some r → f ∈ inUse m := by
    intro f r hf
    obtain ⟨g, hg, -, hfg⟩ := h.grant f r hf
    exact Or.inl ⟨g, hg, hfg⟩
  have hzero : m.phys (frameOf m.kPdir) 0 = entryWord b systempage := by
    have h0 : m.phys (frameOf m.kPdir) 0 = _ := h.tables.slots 0 (by omega) h.pos
    rw [h0]
    simp
  obtain ⟨htab, hstraight⟩ := h.tables.straight 0 h.pos
  have hrunning : ∃ c r, m.cr3 = some c ∧ role (frameOf c) = some r ∧
      m.phys (frameOf c) 0 = entryWord b systempage := by
    rcases h.running with ⟨-, hc⟩ | ⟨i, p, -, hp, hc⟩
    · exact ⟨_, _, hc, h.tables.kdir, hzero⟩
    · obtain ⟨-, hrole, -⟩ := h.procs p (List.mem_of_getElem? hp)
      exact ⟨_, _, hc, hrole, (h.tables.shared _ hrole 0 h.pos).trans hzero⟩
  obtain ⟨c, r, hc, hrole, hslot⟩ := hrunning
  refine ⟨c, hc, ⟨reaches_low hc hslot hstraight, ?_, ?_⟩, ?_, huse _ _ h.tables.kdir, ?_⟩
  · rintro ⟨f, i⟩ (he | rfl)
    · obtain ⟨rfl, rfl⟩ := Prod.mk.inj he
      change isEntryExist (m.phys (frameOf c) 0) = true
      rw [hslot]
      exact isEntryExist_entryWord systempage_odd
    · have hi := hstraight i
      rw [Nat.add_zero] at hi
      change isEntryExist (m.phys (frameOf b) i) = true
      rw [hi]
      exact isEntryExist_entryWord systempage_odd
  · rintro ⟨f, i⟩ (he | rfl)
    · obtain ⟨rfl, rfl⟩ := Prod.mk.inj he
      exact huse _ r hrole
    · rw [Nat.add_zero] at htab
      exact huse _ _ htab
  · have hk := h.lt h.tables.kdir (by simp)
    exact ⟨h.dir_aligned, (holds_frame h.dir_aligned hk).mem⟩
  · intro i hi _
    exact huse _ _ (h.tables.kernel_slot hi).2

end OwnOS.VarMem
