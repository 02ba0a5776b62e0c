import OwnOS.VarMem.Spaces

/-!
# What `fork` copies

`clone_mm` walks the list of regions, which for every process is its two stacks: `register_stack`
fills it and `load_elf_executable` adds nothing to it. So the child has the stacks, with the bytes
of the parent in frames of its own (`Same`), and nothing else (`Spaces.fork`).
-/

namespace OwnOS.VarMem

open Lib Lib.Word Machine

variable {m m' m₁ : Machine} {b a c u v w pdir : UInt32} {role role' : Roles} {f d x P C : Nat}
  {A : Nat → List UInt32}

/-- The page of `v` is mapped in both directories and holds the same words. -/
def Same (m : Machine) (P C : Nat) (v : UInt32) : Prop :=
  Owned.Mapped m P v ∧ Owned.Mapped m C v ∧ m.phys (frameAt m C v) = m.phys (frameAt m P v)

/-- Structural frames that stay give the same translations. -/
theorem view_congr {s : Machine} (hd : s.phys x = m.phys x)
    (ht : isEntryExist (m.phys x (dirIndex v)) = true →
      s.phys (frameOf (m.phys x (dirIndex v))) = m.phys (frameOf (m.phys x (dirIndex v)))) :
    (Owned.Mapped s x v ↔ Owned.Mapped m x v) ∧
      (Owned.Mapped m x v → frameAt s x v = frameAt m x v) := by
  refine ⟨Owned.Mapped.congr (by rw [hd]) fun hp => by rw [ht hp], fun hm => ?_⟩
  unfold frameAt
  rw [hd, ht hm.1]

theorem SamePage.mapped (h : SamePage u v) (hm : Owned.Mapped m x v) : Owned.Mapped m x u := by
  unfold Owned.Mapped
  rw [h.1, h.2]
  exact hm

theorem SamePage.frameAt_eq (h : SamePage u v) : frameAt m x u = frameAt m x v := by
  unfold frameAt
  rw [h.1, h.2]

theorem SamePage.kernelSlot (h : SamePage u v) : KernelSlot m u ↔ KernelSlot m v := by
  unfold KernelSlot
  rw [h.1]

theorem samePage_entryAddr {i : Nat} (hv : Aligned v) (hi : i < 1024) :
    SamePage (entryAddr v i) v := by
  have h := entryAddr_toNat hv hi
  unfold Aligned at hv
  constructor
  · refine Fin.ext ?_
    show (entryAddr v i).toNat / 0x400000 = v.toNat / 0x400000
    omega
  · refine Fin.ext ?_
    show (entryAddr v i).toNat % 0x400000 / 0x1000 = v.toNat % 0x400000 / 0x1000
    omega

/-- The words of a page, and the entries that translate them. -/
def pageAddrs (v : UInt32) : Set UInt32 := {a | ∃ i < 1024, a = entryAddr v i}

def pageWords (m : Machine) (c v : UInt32) : Set (Nat × Fin 1024) :=
  {(frameOf c, dirIndex v), (frameOf (m.phys (frameOf c) (dirIndex v)), tableIndex v)}

/-- **A mapped page** is read and written in its frame. -/
theorem reaches_page (hc : m.cr3 = some c) (hm : Owned.Mapped m (frameOf c) v) (hv : Aligned v) :
    Reaches m (pageWords m c v) (pageAddrs v) fun a =>
      caddrEntry (m.phys (frameOf (m.phys (frameOf c) (dirIndex v))) (tableIndex v)) +
          (a &&& 0xfff) := by
  rintro s ⟨hcs, hw⟩ a ⟨i, hi, rfl⟩
  obtain ⟨hd, ht⟩ := samePage_entryAddr hv hi
  have h1 : s.phys (frameOf c) (dirIndex v) = _ := hw (frameOf c, dirIndex v) (Or.inl rfl)
  have h2 : s.phys (frameOf (m.phys (frameOf c) (dirIndex v))) (tableIndex v) = _ :=
    hw (frameOf (m.phys (frameOf c) (dirIndex v)), tableIndex v) (Or.inr rfl)
  unfold addr Machine.translate
  simp only [hcs, hc, hd, ht, h1, h2, hm.1, hm.2, if_true]

theorem holds_page (e : UInt32) (hv : Aligned v) :
    Holds (pageAddrs v) (fun a => caddrEntry e + (a &&& 0xfff)) v (frameOf e) where
  aligned := hv
  mem i hi := ⟨i, hi, rfl⟩
  frame i hi := by
    have h := entryAddr_toNat hv hi
    unfold Aligned at hv
    unfold frameOf
    rw [offset_toNat, h]
    omega
  index i hi := by
    have h := entryAddr_toNat hv hi
    unfold Aligned at hv
    refine Fin.ext ?_
    show (caddrEntry e + (entryAddr v i &&& 0xfff)).toNat % 4096 / 4 = i
    rw [offset_toNat, h]
    omega

/-- Pages that were the same stay so while tables and other pages are added. -/
theorem Same.grown (hs : Same m P C v) (h : Owned m b role) {use : Use} {D : Nat} {ws : List UInt32}
    (hg : Owned.Grown use D m role m' role') (ho : Opened D ws m role m' role')
    (hP : role P = some .dir) (hC : role C = some .dir) (hk : ¬ KernelSlot m v) :
    Same m' P C v := by
  have hframe : ∀ X, role X = some .dir → Owned.Mapped m X v →
      Owned.Mapped m' X v ∧ frameAt m' X v = frameAt m X v ∧ m'.phys (frameAt m X v) =
        m.phys (frameAt m X v) := by
    intro X hX hm
    have ht := h.own_table hX hm.1 hk
    have h1 := hg.stable X _ hX rfl _ hm.1
    have h2 := hg.stable _ _ ht rfl _ hm.2
    refine ⟨hg.mapped h hX hm, ?_, ho.data _ _ (h.data_frame hX hm hk)⟩
    unfold frameAt
    rw [h1, h2]
  obtain ⟨hmP, hmC, he⟩ := hs
  obtain ⟨hP1, hP2, hP3⟩ := hframe P hP hmP
  obtain ⟨hC1, hC2, hC3⟩ := hframe C hC hmC
  exact ⟨hP1, hC1, by rw [hC2, hP2, hC3, hP3, he]⟩

/-! ## The copy of a page -/

namespace Owned

/-- The frame behind a page of a process is not a directory or table. -/
theorem data_ne_structural {r : Role} (h : Owned m b role) (hd : role d = some .dir)
    (hm : Mapped m d v) (hk : ¬ KernelSlot m v) (hf : role f = some r) (hs : r.structural = true) :
    f ≠ frameAt m d v := by
  rintro rfl
  rw [h.data_frame hd hm hk] at hf
  obtain rfl := Option.some.inj hf
  exact absurd hs (by simp [Role.structural])

/-- **One page of `clone_mm`**: the frame of the child gets the words of the parent's. -/
theorem clone_memcpy {p : Proc} (h : Owned m b role) (hcr3 : m.cr3 = some p.cr3)
    (hp : role (frameOf p.cr3) = some .dir) (hd : role (frameOf pdir) = some .dir)
    (hlow : LowPages role (frameOf pdir)) (hm : Mapped m (frameOf pdir) v)
    (hmp : Mapped m (frameOf p.cr3) v) (hv : Aligned v) (hk : ¬ KernelSlot m v) :
    m.memcpy (caddrEntry (m.phys (frameOf (m.phys (frameOf pdir) (dirIndex v))) (tableIndex v))) v
      1024 = .ok (m.setPage (frameAt m (frameOf pdir) v)
      (m.phys (frameAt m (frameOf p.cr3) v))) := by
  generalize hFc : frameAt m (frameOf pdir) v = Fc
  generalize hFp : frameAt m (frameOf p.cr3) v = Fp
  have hFc' : role Fc = some (.data (frameOf pdir)) := hFc ▸ h.data_frame hd hm hk
  have hstruct : ∀ f r, role f = some r → r.structural = true → f ≠ Fc :=
    fun f r hf hs => hFc ▸ h.data_ne_structural hd hm hk hf hs
  have hdest : Holds low id
    (caddrEntry (m.phys (frameOf (m.phys (frameOf pdir) (dirIndex v))) (tableIndex v)))
      Fc := by
    have hlt := hlow _ hFc'
    rw [← hFc] at hlt ⊢
    have := holds_frame (aligned_caddrEntry (m.phys (frameOf (m.phys (frameOf pdir) (dirIndex v)))
      (tableIndex v))) (by rw [frameOf_caddrEntry]; exact hlt)
    rwa [frameOf_caddrEntry] at this
  obtain ⟨c, -, hreach, hcr⟩ := h.reaches
  have hK : ∀ i, (Fc, i) ∉ lowWords c b := by
    intro i
    refine h.not_lowWords hcr ?_ ?_ ?_
    · simp [hFc']
    · simp [hFc']
    · simp [hFc']
  -- the page of data is none of the frames that translate the parent's
  have hK' : ∀ i, (Fc, i) ∉ pageWords m p.cr3 v := by
    rintro i (he | he)
    · exact hstruct _ _ hp rfl (Prod.mk.inj he).1.symm
    · exact hstruct _ _ (h.own_table hp hmp.1 hk) rfl (Prod.mk.inj he).1.symm
  rw [hdest.memcpy hreach hK (holds_page _ hv) (reaches_page hcr3 hmp hv) hK', ← hFp]
  rfl

/-- What the copy of the page of `v` does to the views of parent and child. -/
theorem same_copy (h : Owned m b role) (hv : View m role) (hP : role P = some .dir)
    (hC : role C = some .dir) (hne : P ≠ C) (hm : Mapped m C v) (hmp : Mapped m P v)
    (hk : ¬ KernelSlot m v) (hu : ¬ KernelSlot m u) (hs : Same m P C u ∨ SamePage u v) :
    Same (m.setPage (frameAt m C v) (m.phys (frameAt m P v))) P C u := by
  have hmapped : Mapped m P u ∧ Mapped m C u := by
    rcases hs with ⟨h1, h2, -⟩ | hs
    · exact ⟨h1, h2⟩
    · exact ⟨hs.mapped hmp, hs.mapped hm⟩
  obtain ⟨hPu, hCu⟩ := hmapped
  have hstruct : ∀ f r, role f = some r → r.structural = true → f ≠ frameAt m C v :=
    fun f r hf hsr => h.data_ne_structural hC hm hk hf hsr
  have hview : ∀ X, role X = some .dir → Mapped m X u →
      Mapped (m.setPage (frameAt m C v) (m.phys (frameAt m P v))) X u ∧
        frameAt (m.setPage (frameAt m C v) (m.phys (frameAt m P v))) X u = frameAt m X u := by
    intro X hX hmX
    obtain ⟨h1, h2⟩ := view_congr (m := m) (s := m.setPage (frameAt m C v) (m.phys (frameAt m P v)))
      (x := X) (v := u) (setPage_phys_of_ne (hstruct X _ hX rfl))
      (fun hp => setPage_phys_of_ne (hstruct _ _ (h.own_table hX hp hu) rfl))
    exact ⟨h1.mpr hmX, h2 hmX⟩
  obtain ⟨hP1, hP2⟩ := hview P hP hPu
  obtain ⟨hC1, hC2⟩ := hview C hC hCu
  -- the frame of the parent is not the one written
  have hPne : frameAt m P u ≠ frameAt m C v := by
    intro he
    have hroleP := h.data_frame hP hPu hu
    rw [he, h.data_frame hC hm hk] at hroleP
    exact hne (Role.data.inj (Option.some.inj hroleP)).symm
  refine ⟨hP1, hC1, ?_⟩
  rw [hC2, hP2, setPage_phys_of_ne hPne]
  by_cases hpage : SamePage u v
  · rw [hpage.frameAt_eq (x := C), hpage.frameAt_eq (x := P), setPage_phys_self]
  · -- another page of the child has another frame
    have hCne : frameAt m C u ≠ frameAt m C v := by
      intro he
      have htu := h.own_table hC hCu.1 hu
      have htv := h.own_table hC hm.1 hk
      obtain ⟨ht, hj⟩ := hv.unique _ _ _ _ (Or.inr ⟨C, htu⟩) (Or.inr ⟨C, htv⟩) hCu.2 hm.2 he
        (by
          have hrole := h.data_frame hC hCu hu
          unfold frameAt at hrole
          rw [hrole]
          simp)
      obtain ⟨-, hi⟩ := hv.unique C C _ _ (Or.inl hC) (Or.inl hC) hCu.1 hm.1 ht (by rw [htu]; simp)
      exact hpage ⟨hi, hj⟩
    rw [setPage_phys_of_ne hCne]
    rcases hs with ⟨-, -, he⟩ | hs
    · exact he
    · exact absurd hs hpage

end Owned

/-- `clone_mm` so far: the child has the pages `ws`, and they hold what the parent's hold. -/
structure Cloned (P C : Nat) (ws : List UInt32) (m : Machine) (role : Roles) (m' : Machine)
    (role' : Roles) :
    Prop where
  mapped : ∀ x, role x = some .dir → ∀ v, ¬ KernelSlot m v →
    (Owned.Mapped m' x v ↔ Owned.Mapped m x v ∨ x = C ∧ ∃ w ∈ ws, SamePage v w)
  same : ∀ v, ¬ KernelSlot m v → Same m P C v ∨ (∃ w ∈ ws, SamePage v w) → Same m' P C v

theorem Cloned.refl : Cloned P C [] m role m role :=
  ⟨fun _ _ _ _ => by simp, fun _ _ hs => by simpa using hs⟩

theorem Cloned.trans {m'' : Machine} {role'' : Roles} {ws ws' : List UInt32}
    (h : Cloned P C ws m role m' role') (h' : Cloned P C ws' m' role' m'' role'')
    (hle : role.Le role') (hn : m'.nrValidPages = m.nrValidPages) :
    Cloned P C (ws ++ ws') m role m'' role'' := by
  have hk' : ∀ {v}, ¬ KernelSlot m v → ¬ KernelSlot m' v := by
    intro v hk
    unfold KernelSlot
    rwa [hn]
  refine ⟨fun x hx v hk => ?_, fun v hk hs => ?_⟩
  · rw [h'.mapped x (hle _ _ hx) v (hk' hk), h.mapped x hx v hk]
    simp only [List.mem_append, or_and_right, exists_or, and_or_left, or_assoc]
  · refine h'.same v (hk' hk) ?_
    simp only [List.mem_append, or_and_right, exists_or] at hs
    rcases hs with hs | hs | hs
    · exact Or.inl (h.same v hk (Or.inl hs))
    · exact Or.inl (h.same v hk (Or.inr hs))
    · exact Or.inr hs

namespace Owned

/-- One page of `clone_mm`, in the straight map or not. -/
theorem clonePage_cloned {phy : UInt32} {p : Proc} (h : Owned m b role) (hv : View m role)
    (hcr3 : m.cr3 = some p.cr3) (hp : role (frameOf p.cr3) = some .dir) (ha : Aligned pdir)
    (h0 : pdir ≠ 0) (hd : role (frameOf pdir) = some .dir) (hne : frameOf p.cr3 ≠ frameOf pdir)
    (hlow : LowPages role (frameOf pdir)) (hm : Mapped m (frameOf pdir) v) (hal : Aligned v)
    (hslot : (dirIndex v).val ≠ 0x380) (hmp : ¬ KernelSlot m v → Mapped m (frameOf p.cr3) v)
    (hphy : m.vir2phy v pdir = .ok phy) (hr : m.memcpy phy v 1024 = .ok m') :
    Owned m' b role ∧ View m' role ∧ Grown .copied (frameOf pdir) m role m' role ∧
      (∀ x, role x = some .dir → ∀ u, ¬ KernelSlot m u → (Mapped m' x u ↔ Mapped m x u)) ∧
      ∀ u, ¬ KernelSlot m u → Same m (frameOf p.cr3) (frameOf pdir) u ∨ SamePage u v →
        Same m' (frameOf p.cr3) (frameOf pdir) u := by
  obtain ⟨ho, hg⟩ := h.clonePage hcr3 hp ha h0 hd hlow hm hal hslot hphy hr
  by_cases hk : KernelSlot m v
  · have hself := h.clonePage_self hcr3 hp ha h0 hd hm hal (hk.resolve_right hslot) hphy
    obtain rfl := Except.ok.inj (hself.symm.trans hr)
    refine ⟨ho, hv, hg, fun _ _ _ _ => Iff.rfl, fun u hu hs => ?_⟩
    rcases hs with hs | hs
    · exact hs
    · exact absurd (hs.kernelSlot.mpr hk) hu
  · obtain rfl := h.clone_dest ha h0 hd hm hal hphy
    have heq := Except.ok.inj (hr.symm.trans (h.clone_memcpy hcr3 hp hd hlow hm (hmp hk) hal hk))
    have hframes : ∀ f r, role f = some r → r.structural = true → m'.phys f = m.phys f := by
      intro f r hf hs
      rw [heq, setPage_phys_of_ne (h.data_ne_structural hd hm hk hf hs)]
    refine ⟨ho, hv.congr h (by rw [heq]; rfl) hframes, hg, fun x hx u hu => ?_, fun u hu hs => ?_⟩
    · exact (view_congr (hframes x _ hx rfl) fun hpres =>
        hframes _ _ (h.own_table hx hpres hu) rfl).1
    · rw [heq]
      exact h.same_copy hv hp hd hne hm (hmp hk) hk hu hs

/-- **One region of `clone_mm`**: the child has its two pages, and they hold what the parent's
hold. -/
theorem cloneRegion_cloned {p : Proc} {reg : Region} (h : Owned m b role) (hv : View m role)
    (hcr3 : m.cr3 = some p.cr3) (hp : role (frameOf p.cr3) = some .dir) (ha : Aligned pdir)
    (h0 : pdir ≠ 0) (hd : role (frameOf pdir) = some .dir) (hne : frameOf p.cr3 ≠ frameOf pdir)
    (hlow : LowPages role (frameOf pdir)) (hreg : reg ∈ stackRegions)
    (hmp : ∀ w ∈ rangePages reg.begin reg.size, ¬ KernelSlot m w → Mapped m (frameOf p.cr3) w)
    (hr : m.cloneRegion reg pdir = .ok m') :
    ∃ role', Owned m' b role' ∧ View m' role' ∧ Grown .copied (frameOf pdir) m role m' role' ∧
      Cloned (frameOf p.cr3) (frameOf pdir) (rangePages reg.begin reg.size) m role m' role' := by
  obtain ⟨hpages, -, -, hal₁, hal₂, hs₁, hs₂⟩ := stackRegion_facts hreg
  rw [hpages] at hmp ⊢
  rw [cloneRegion_eq hreg] at hr
  obtain ⟨m₁, h₁, hr⟩ := Res.bind_eq_ok.mp hr
  obtain ⟨role₁, ho₁, hv₁, hg₁, hop₁⟩ := h.enableSpace_opened hv ha hd (Or.inr rfl) h₁
  rw [hpages] at hop₁
  obtain ⟨hmap₁, hmap₂⟩ := h.enableStack_mapped ha hd hreg h₁
  have hd₁ := hg₁.le _ _ hd
  have hp₁ := hg₁.le _ _ hp
  have hcr₁ : m₁.cr3 = some p.cr3 := by rw [hg₁.same]; exact hcr3
  have hlow₁ : LowPages role₁ (frameOf pdir) := fun f hf => (hg₁.pages rfl f hf).elim (hlow f) id
  have hk₁ : ∀ {v}, KernelSlot m₁ v ↔ KernelSlot m v := by
    intro v
    have hn : m₁.nrValidPages = m.nrValidPages := by rw [hg₁.same]; rfl
    unfold KernelSlot
    rw [hn]
  obtain ⟨phy₁, hphy₁, hr⟩ := Res.bind_eq_ok.mp hr
  obtain ⟨m₂, h₂, hr⟩ := Res.bind_eq_ok.mp hr
  obtain ⟨ho₂, hv₂, hg₂, hmapped₂, hsame₂⟩ := ho₁.clonePage_cloned hv₁ hcr₁ hp₁ ha
    h0 hd₁ hne hlow₁ hmap₁ hal₁ hs₁
    (fun hk => hg₁.mapped h hp (hmp _ (by simp) fun hk' => hk (hk₁.mpr hk'))) hphy₁ h₂
  have hcr₂ : m₂.cr3 = some p.cr3 := by rw [hg₂.same]; exact hcr₁
  have hk₂ : ∀ {v}, KernelSlot m₂ v ↔ KernelSlot m₁ v := by
    intro v
    have hn : m₂.nrValidPages = m₁.nrValidPages := by rw [hg₂.same]; rfl
    unfold KernelSlot
    rw [hn]
  obtain ⟨phy₂, hphy₂, h₃⟩ := Res.bind_eq_ok.mp hr
  obtain ⟨ho₃, hv₃, hg₃, hmapped₃, hsame₃⟩ := ho₂.clonePage_cloned hv₂ hcr₂ hp₁ ha h0 hd₁ hne hlow₁
    (hg₂.mapped ho₁ hd₁ hmap₂) hal₂ hs₂
    (fun hk => hg₂.mapped ho₁ hp₁ (hg₁.mapped h hp (hmp _ (by simp) fun hk' =>
      hk (hk₂.mpr (hk₁.mpr hk'))))) hphy₂ h₃
  refine ⟨role₁, ho₃, hv₃, hg₁.trans (hg₂.trans hg₃), fun x hx v hk => ?_, fun v hk hs => ?_⟩
  · have hkv₁ : ¬ KernelSlot m₁ v := fun hc => hk (hk₁.mp hc)
    have hkv₂ : ¬ KernelSlot m₂ v := fun hc => hkv₁ (hk₂.mp hc)
    rw [hmapped₃ x (hg₁.le _ _ hx) v hkv₂, hmapped₂ x (hg₁.le _ _ hx) v hkv₁]
    exact hop₁.mapped x hx v hk
  · have hkv₁ : ¬ KernelSlot m₁ v := fun hc => hk (hk₁.mp hc)
    have hkv₂ : ¬ KernelSlot m₂ v := fun hc => hkv₁ (hk₂.mp hc)
    simp only [List.mem_cons, List.not_mem_nil, or_false, exists_eq_or_imp, exists_eq_left] at hs
    rcases hs with hs | hs | hs
    · exact hsame₃ v hkv₂ (Or.inl (hsame₂ v hkv₁ (Or.inl (hs.grown h hg₁ hop₁ hp hd hk))))
    · exact hsame₃ v hkv₂ (Or.inl (hsame₂ v hkv₁ (Or.inr hs)))
    · exact hsame₃ v hkv₂ (Or.inr hs)

/-- The loop of `clone_mm` over the regions. -/
theorem cloneRegions_cloned {p : Proc} {l : List Region} (h : Owned m b role) (hv : View m role)
    (hcr3 : m.cr3 = some p.cr3) (hp : role (frameOf p.cr3) = some .dir) (ha : Aligned pdir)
    (h0 : pdir ≠ 0) (hd : role (frameOf pdir) = some .dir) (hne : frameOf p.cr3 ≠ frameOf pdir)
    (hlow : LowPages role (frameOf pdir)) (hl : ∀ r ∈ l, r ∈ stackRegions)
    (hmp : ∀ r ∈ l, ∀ w ∈ rangePages r.begin r.size, ¬ KernelSlot m w → Mapped m (frameOf p.cr3) w)
    (hr : l.foldlM (fun m r => m.cloneRegion r pdir) m = .ok m') :
    ∃ role', Owned m' b role' ∧ View m' role' ∧ Grown .copied (frameOf pdir) m role m' role' ∧
      Cloned (frameOf p.cr3) (frameOf pdir) (l.flatMap fun r => rangePages r.begin r.size)
        m role m' role' := by
  induction l generalizing m role with
  | nil =>
    obtain rfl := Except.ok.inj hr
    exact ⟨role, h, hv, Grown.refl, Cloned.refl⟩
  | cons r l ih =>
    rw [List.foldlM_cons] at hr
    obtain ⟨m₁, h₁, hr⟩ := Res.bind_eq_ok.mp hr
    obtain ⟨role₁, ho₁, hv₁, hg₁, hc₁⟩ := h.cloneRegion_cloned hv hcr3 hp ha h0 hd hne hlow
      (hl r List.mem_cons_self) (hmp r List.mem_cons_self) h₁
    have hcr₁ : m₁.cr3 = some p.cr3 := by rw [hg₁.same]; exact hcr3
    have hn : m₁.nrValidPages = m.nrValidPages := by rw [hg₁.same]; rfl
    have hlow₁ : LowPages role₁ (frameOf pdir) := fun f hf => (hg₁.pages rfl f hf).elim (hlow f) id
    obtain ⟨role₂, ho₂, hv₂, hg₂, hc₂⟩ := ih ho₁ hv₁ hcr₁ (hg₁.le _ _ hp) (hg₁.le _ _ hd) hlow₁
      (fun x hx => hl x (List.mem_cons_of_mem _ hx))
      (fun x hx w hw hk => hg₁.mapped h hp (hmp x (List.mem_cons_of_mem _ hx) w hw (by
        unfold KernelSlot at hk ⊢
        rwa [hn] at hk))) hr
    refine ⟨role₂, ho₂, hv₂, hg₁.trans hg₂, ?_⟩
    rw [List.flatMap_cons]
    exact hc₁.trans hc₂ hg₁.le hn

end Owned

/-- Views depend on the frames in use only. -/
theorem Owned.mapped_congr (h : Owned m b role) (hx : role x = some .dir) (hk : ¬ KernelSlot m v)
    (hf : ∀ f r, role f = some r → m'.phys f = m.phys f) :
    Owned.Mapped m' x v ↔ Owned.Mapped m x v :=
  (view_congr (hf x _ hx) fun hp => hf _ _ (h.own_table hx hp hk)).1

theorem Same.congr (hs : Same m P C v) (h : Owned m b role) (hP : role P = some .dir)
    (hC : role C = some .dir) (hk : ¬ KernelSlot m v)
    (hf : ∀ f r, role f = some r → m'.phys f = m.phys f) : Same m' P C v := by
  obtain ⟨hmP, hmC, he⟩ := hs
  obtain ⟨hP1, hP2⟩ := view_congr (hf P _ hP) fun hp => hf _ _ (h.own_table hP hp hk)
  obtain ⟨hC1, hC2⟩ := view_congr (hf C _ hC) fun hp => hf _ _ (h.own_table hC hp hk)
  refine ⟨hP1.mpr hmP, hC1.mpr hmC, ?_⟩
  rw [hC2 hmC, hP2 hmP, hf _ _ (h.data_frame hC hmC hk), hf _ _ (h.data_frame hP hmP hk), he]

/-! ## `fork` -/

/-- What the kernel stack of the child changes: the frame behind it, which had no use before. -/
structure StackAdded (m m' : Machine) (b : UInt32) (role : Roles) (stack : UInt32) : Prop where
  fresh : role (frameOf stack) = none
  aligned : Aligned stack
  low : stack.toNat < 0x400000
  owned : Owned m' b (role.assign (frameOf stack) .stack)
  view : View m' (role.assign (frameOf stack) .stack)
  frames : ∀ f r, role f = some r → m'.phys f = m.phys f
  procs : m'.procs = m.procs
  pCurrent : m'.pCurrent = m.pCurrent
  nrValidPages : m'.nrValidPages = m.nrValidPages

/-- `setup_stack`: a new stack, and the frame of the parent copied onto it. -/
theorem Owned.stackAdded {stack src : UInt32} (h : Owned m b role) (hv : View m role)
    (h₁ : m.allocChunk .kernelStack 1 = .ok (m₁, stack))
    (h₂ : m₁.memcpy (stack + 0x1000 - 4 - 4 * 17) src frameWords = .ok m') :
    StackAdded m m' b role stack := by
  obtain ⟨hnone, hsa, hsl, ho₁, hs₁⟩ := h.newStack h₁
  obtain ⟨ho₂, pg, hs₂⟩ := ho₁.memcpy_scratch (fun k hk => Owned.stack_words hsa hsl hk)
    (fun r hr => by rw [Roles.assign_self] at hr; obtain rfl := Option.some.inj hr; rfl) h₂
  have hst := hv.assign_stack hnone
  have hv₁ : View m₁ (role.assign (frameOf stack) .stack) := by
    rw [hs₁]
    exact ⟨hst.kernel, hst.system, hst.slots, hst.entries, hst.unique⟩
  refine ⟨hnone, hsa, hsl, ho₂, ?_, fun f r hf => ?_, ?_, ?_, ?_⟩
  · refine hv₁.congr ho₁ (by rw [hs₂]; rfl) fun f r hf hs => ?_
    rw [hs₂, setPage_phys_of_ne]
    rintro rfl
    rw [Roles.assign_self] at hf
    obtain rfl := Option.some.inj hf
    exact absurd hs (by simp [Role.structural])
  · have hphys : m₁.phys = m.phys := by rw [hs₁]
    rw [hs₂, setPage_phys_of_ne (Roles.ne_of_none hnone hf), hphys]
  · rw [hs₂, hs₁]
    rfl
  · rw [hs₂, hs₁]
    rfl
  · rw [hs₂, hs₁]
    rfl

namespace Spaces

/-- **`fork`** makes a process that has the stacks of its parent, with the same bytes, and nothing
else. -/
theorem fork (h : Spaces m b role A) (hr : m.fork = .ok m') :
    ∃ role' i p q, Spaces m' b role' A ∧ m.pCurrent = some i ∧ m.procs[i]? = some p ∧
      m'.procs = m.procs ++ [q] ∧ m'.pCurrent = m.pCurrent ∧ m'.nrValidPages = m.nrValidPages ∧
      frameOf p.cr3 ≠ frameOf q.cr3 ∧
      ∀ v, ¬ KernelSlot m v → (∃ w ∈ stackPages, SamePage v w) →
        Same m' (frameOf p.cr3) (frameOf q.cr3) v := by
  obtain ⟨i, p, hi, hp⟩ := fork_current hr
  have hcr3 := h.owned.cr3_of_current hi hp
  obtain ⟨-, hpd, hpr⟩ := h.owned.procs p (List.mem_of_getElem? hp)
  obtain ⟨m₁, pdir, m₂, m₃, m₄, stack, m₅, h₁, h₂, h₃, h₄, h₅, rfl⟩ := fork_parts hi hp hr
  -- the new directory
  obtain ⟨hnone, ha, h0, ho₂, hs₂⟩ := h.owned.newDir h₁ h₂
  obtain ⟨hv₂, hold₂, hnew₂⟩ := h.view.newDir h.owned h₁ h₂
  have hle₂ : role.Le (role.assign (frameOf pdir) .dir) := Roles.le_assign hnone
  have hcr₂ : m₂.cr3 = some p.cr3 := by rw [hs₂]; exact hcr3
  have hn₂ : m₂.nrValidPages = m.nrValidPages := by rw [hs₂]; rfl
  have hk₂ : ∀ {v}, KernelSlot m₂ v ↔ KernelSlot m v := by
    intro v
    unfold KernelSlot
    rw [hn₂]
  have hne : frameOf p.cr3 ≠ frameOf pdir := h.owned.cr3_ne hnone p (List.mem_of_getElem? hp)
  have hlow₂ := h.owned.lowPages_new hnone
  -- the regions; the parent has all of its stacks
  rw [hpr] at h₃
  obtain ⟨role₃, ho₃, hv₃, hg₃, hc₃⟩ := ho₂.cloneRegions_cloned hv₂ hcr₂ (hle₂ _ _ hpd) ha h0
    Roles.assign_self hne hlow₂ (fun _ hr => hr) (fun r hr w hw hk => by
      have hk' : ¬ KernelSlot m w := fun hc => hk (hk₂.mpr hc)
      rw [h.owned.mapped_congr hpd hk' hold₂, h.pages i p hp w hk']
      exact ⟨w, h.base i w (List.mem_flatMap.mpr ⟨r, hr, hw⟩), rfl, rfl⟩) h₃
  -- the kernel stack
  have hst := ho₃.stackAdded hv₃ h₄ h₅
  have hle₄ : role₃.Le (role₃.assign (frameOf stack) .stack) := Roles.le_assign hst.fresh
  have hprocs : m₅.procs = m.procs := by rw [hst.procs, hg₃.same, hs₂]
  have hn₅ : m₅.nrValidPages = m.nrValidPages := by
    rw [hst.nrValidPages, hg₃.same, hs₂]
    rfl
  have hn₃ : m₃.nrValidPages = m₂.nrValidPages := by rw [hg₃.same]; rfl
  have hk₃ : ∀ {v}, ¬ KernelSlot m v → ¬ KernelSlot m₃ v := by
    intro v hk
    unfold KernelSlot
    rw [hn₃, hn₂]
    exact hk
  have hcur₅ : m₅.pCurrent = m.pCurrent := by rw [hst.pCurrent, hg₃.same, hs₂]
  have hdir₃ : role₃ (frameOf pdir) = some .dir := hg₃.le _ _ Roles.assign_self
  refine ⟨_, i, p, ⟨pdir, p.regions, stack + 0x1000 - 4⟩,
    h.addProc (q := ⟨pdir, p.regions, stack + 0x1000 - 4⟩)
      (hst.owned.addProc ha (hle₄ _ _ hdir₃) hpr ?_) ?_ (hle₂.trans (hg₃.le.trans hle₄)) ?_
      hn₅ ?_ ?_ ?_,
    hi, hp, ?_, hcur₅, hn₅, hne, ?_⟩
  · rw [hprocs]
    exact h.owned.cr3_ne hnone
  · exact ⟨hst.view.kernel, hst.view.system, hst.view.slots, hst.view.entries, hst.view.unique⟩
  · show m₅.procs ++ _ = _
    rw [hprocs]
  · intro x hx v hk
    show Owned.Mapped m₅ x v ↔ _
    have hxne : x ≠ frameOf pdir := Roles.ne_of_none hnone hx
    rw [ho₃.mapped_congr (hg₃.le _ _ (hle₂ _ _ hx)) (hk₃ hk) hst.frames,
      hc₃.mapped x (hle₂ _ _ hx) v (fun hc => hk (hk₂.mp hc))]
    simp only [hxne, false_and, or_false]
    exact h.owned.mapped_congr hx hk hold₂
  · intro v hk
    show Owned.Mapped m₅ (frameOf pdir) v ↔ _
    rw [ho₃.mapped_congr hdir₃ (hk₃ hk) hst.frames,
      hc₃.mapped _ Roles.assign_self v (fun hc => hk (hk₂.mp hc))]
    simp only [hnew₂ v hk, true_and, false_or]
    rfl
  · exact ⟨stack, hst.aligned, hst.low, rfl, Roles.assign_self⟩
  · show m₅.procs ++ _ = _
    rw [hprocs]
  · intro v hk hw
    have hsame := hc₃.same v (fun hc => hk (hk₂.mp hc)) (Or.inr hw)
    exact hsame.congr ho₃ (hg₃.le _ _ (hle₂ _ _ hpd)) hdir₃ (hk₃ hk) hst.frames

end Spaces

end OwnOS.VarMem
