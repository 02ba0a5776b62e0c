import OwnOS.VarMem.ForkReturns
import OwnOS.VarMem.NewDir

/-!
# An address space and its bytes

`Space`: under some slots of a directory every table and every page has a frame of its own. Then
`enableSpace` adds pages and keeps the bytes of those that are there (`Space.enabled`,
`Space.page_phys`), and a byte written at one address is read at that address and no other
(`Space.storeByte_eq`, `byteOf_setByte`).
-/

namespace OwnOS.VarMem

open Lib Lib.Word Machine

/-- **The directory's tables and pages under `slots`** are in use, each at one place, and no page is
a part of the map through which the kernel addresses `R`. -/
structure Space (m : Machine) (K : Set (Nat × Fin 1024)) (R : Set UInt32) (pdir : UInt32)
    (slots : Set (Fin 1024)) : Prop where
  direct : Direct m K R
  dir : PageDir m R pdir slots
  used : ∀ (n : Node) f, n.slot ∈ slots → layout m (frameOf pdir) n = some f →
    f ∈ inUse m ∧ f ≠ frameOf pdir
  inj : ∀ (n n' : Node) f, n.slot ∈ slots → n'.slot ∈ slots → layout m (frameOf pdir) n = some f →
    layout m (frameOf pdir) n' = some f → n = n'
  apart : ∀ i j f, i ∈ slots → layout m (frameOf pdir) (.page i j) = some f → ∀ k, (f, k) ∉ K

/-- The byte at a virtual address. -/
def Machine.byteOf (m : Machine) (c v : UInt32) : Option UInt8 := (m.translate c v).map m.byteAt

variable {m m' m'' : Machine} {K : Set (Nat × Fin 1024)} {R : Set UInt32}
  {pdir type a c u v w : UInt32} {slots : Set (Fin 1024)} {d f : Nat} {use : Use} {ws : Set Node}
  {i j : Fin 1024} {x : UInt8}

/-- An entry depends on the directory and on one table. -/
theorem entry_page_congr (hd : m'.phys d = m.phys d)
    (ht : ∀ f, layout m d (.table i) = some f → m'.phys f = m.phys f) :
    entry m' d (.page i j) = entry m d (.page i j) := by
  simp only [entry, hd]
  cases hi : present (m.phys d i) with
  | none => rfl
  | some e => simp only [Option.bind_some, ht _ (layout_eq_some.mpr ⟨e, hi, rfl⟩)]

namespace Space

/-- A store into a page keeps the map. -/
theorem write (h : Space m K R pdir slots) (hi : i ∈ slots)
    (hf : layout m (frameOf pdir) (.page i j) = some f) (hs : m' = { m with phys := m'.phys })
    (hp : ∀ x, x ≠ f → m'.phys x = m.phys x) :
    Space m' K R pdir slots ∧
      ∀ n : Node, n.slot ∈ slots → entry m' (frameOf pdir) n = entry m (frameOf pdir) n := by
  have hdir : m'.phys (frameOf pdir) = m.phys (frameOf pdir) :=
    hp _ (h.used (.page i j) f hi hf).2.symm
  have htable : ∀ k, entry m' (frameOf pdir) (.table k) = entry m (frameOf pdir) (.table k) := by
    intro k
    simp only [entry, hdir]
  have hentry : ∀ n : Node, n.slot ∈ slots →
      entry m' (frameOf pdir) n = entry m (frameOf pdir) n := by
    intro n hn
    cases n with
    | table k => exact htable k
    | page k l =>
      refine entry_page_congr hdir fun g hg => hp g ?_
      rintro rfl
      exact absurd (h.inj (.page i j) (.table k) g hi hn hf hg) (by simp)
  have hlay : ∀ n : Node, n.slot ∈ slots →
      layout m' (frameOf pdir) n = layout m (frameOf pdir) n := by
    intro n hn
    unfold layout
    rw [hentry n hn]
  have hu : inUse m' = inUse m := by
    rw [hs]
    rfl
  have hK : ∀ x ∈ K, m'.phys x.1 x.2 = m.phys x.1 x.2 := by
    rintro ⟨g, k⟩ hx
    have hg : g ≠ f := by
      rintro rfl
      exact h.apart i j g hi hf k hx
    rw [hp g hg]
  refine ⟨⟨h.direct.congr (by rw [hs]) hu.ge hK, ⟨h.dir.reached, ?_, ?_, ?_, ?_⟩, ?_, ?_, ?_⟩,
    hentry⟩
  · rw [hu]
    exact h.dir.used
  · intro k e he
    rw [hu]
    rw [htable k] at he
    exact h.dir.table k e he
  · intro k hk e he
    rw [htable k] at he
    exact h.dir.visible k hk e he
  · intro k hk l g hg hg'
    unfold layout at hg hg'
    rw [htable] at hg hg'
    exact h.dir.priv k hk l g hg hg'
  · intro n g hn hg
    rw [hu]
    rw [hlay n hn] at hg
    exact h.used n g hn hg
  · intro n n' g hn hn' hg hg'
    rw [hlay n hn] at hg
    rw [hlay n' hn'] at hg'
    exact h.inj n n' g hn hn' hg hg'
  · intro k l g hk hg
    rw [hlay (.page k l) hk] at hg
    exact h.apart k l g hk hg

/-- **`enableSpace`** adds pages with frames of their own. -/
theorem enabled (h : Space m K R pdir slots) (he : Enabled use (frameOf pdir) type ws m m')
    (htab : Gives m .pageTable R) : Space m' K R pdir slots := by
  have hold : ∀ (n : Node) f, layout m (frameOf pdir) n = none →
    layout m' (frameOf pdir) n = some f →
      f ∉ inUse m ∧ f ∈ inUse m' := he.extends_.fresh
  refine ⟨he.direct h.direct, he.pageDir h.dir htab, ?_, ?_, ?_⟩
  · intro n f hs hf
    rcases he.extends_.cases hf with hm | hm
    · obtain ⟨h1, h2⟩ := h.used n f hs hm
      exact ⟨he.extends_.grows h1, h2⟩
    · obtain ⟨h1, h2⟩ := hold n f hm hf
      exact ⟨h2, fun e => h1 (e ▸ h.dir.used)⟩
  · intro n n' f hs hs' hf hf'
    rcases he.extends_.cases hf with hm | hm
    · rcases he.extends_.cases hf' with hm' | hm'
      · exact h.inj n n' f hs hs' hm hm'
      · exact absurd (h.used n f hs hm).1 (hold n' f hm' hf').1
    · rcases he.extends_.cases hf' with hm' | hm'
      · exact absurd (h.used n' f hs' hm').1 (hold n f hm hf).1
      · exact he.extends_.inj n n' f hm hm' hf hf'
  · intro i j f hi hf
    rcases he.extends_.cases hf with hm | hm
    · exact h.apart i j f hi hm
    · exact h.direct.not_mem_of_new (hold _ f hm hf).1

/-- The pages that are there are not written to. -/
theorem page_phys (h : Space m K R pdir slots) (he : Enabled use (frameOf pdir) type ws m m')
    (hws : ∀ n ∈ ws, n.slot ∈ slots) (hi : i ∈ slots)
    (hf : layout m (frameOf pdir) (.page i j) = some f) : m'.phys f = m.phys f := by
  obtain ⟨hu, hne⟩ := h.used (.page i j) f hi hf
  rcases he.frames f with hp | hp | ⟨k, hk, hp⟩
  · exact hp
  · exact absurd hp hne
  · -- a table has a frame of its own
    rcases he.extends_.cases hp with hm | hm
    · exact absurd (h.inj (.page i j) (.table k) f hi (hws _ hk) hf hm) (by simp)
    · exact absurd hu (he.extends_.fresh _ f hm hp).1

end Space

/-! ## Bytes of a word -/

/-- The mask that leaves out a byte. -/
theorem getLsbD_mask {n k : Nat} (hn : n < 32) (hk : k < 4) :
    (~~~((0xff : UInt32) <<< UInt32.ofNat (8 * k))).toBitVec.getLsbD n = decide (n / 8 ≠ k) := by
  have h : ∀ k < 4, ∀ n < 32,
      (~~~((0xff : UInt32) <<< UInt32.ofNat (8 * k))).toBitVec.getLsbD n =
        decide (n / 8 ≠ k) := by decide
  exact h k hk n hn

/-- A byte at its place. -/
theorem getLsbD_place {n k : Nat} (hn : n < 32) (hk : k < 4) :
    (x.toUInt32 <<< UInt32.ofNat (8 * k)).toBitVec.getLsbD n =
      (decide (n / 8 = k) && x.toBitVec.getLsbD (n % 8)) := by
  have hshift : (x.toUInt32 <<< UInt32.ofNat (8 * k)).toBitVec.getLsbD n =
      (!decide (n < 8 * k) && x.toBitVec.getLsbD (n - 8 * k)) := by
    interval_cases k <;> simp [hn]
  rw [hshift]
  by_cases hlt : n < 8 * k
  · rw [decide_eq_true hlt, decide_eq_false (by omega : ¬ n / 8 = k)]
    rfl
  · rw [decide_eq_false hlt]
    by_cases hd : n / 8 = k
    · rw [decide_eq_true hd, show n - 8 * k = n % 8 by omega]
      rfl
    · rw [decide_eq_false hd, BitVec.getLsbD_of_ge _ _ (by omega : 8 ≤ n - 8 * k)]
      rfl

theorem getLsbD_getByte {w : UInt32} {i j : Nat} (hi : i < 8) (hj : j < 4) :
    (getByte w j).toBitVec.getLsbD i = w.toBitVec.getLsbD (8 * j + i) := by
  interval_cases j <;> simp [getByte, hi]

theorem getLsbD_setByte {w : UInt32} {n k : Nat} (hn : n < 32) (hk : k < 4) :
    (setByte w k x).toBitVec.getLsbD n =
      if n / 8 = k then x.toBitVec.getLsbD (n % 8) else w.toBitVec.getLsbD n := by
  rw [setByte, UInt32.toBitVec_or, UInt32.toBitVec_and, BitVec.getLsbD_or, BitVec.getLsbD_and,
    getLsbD_mask hn hk, getLsbD_place hn hk]
  by_cases hd : n / 8 = k
  · simp [hd]
  · simp [hd]

/-- **A byte that is replaced**, and the others. -/
theorem getByte_setByte {w : UInt32} {j k : Nat} (hj : j < 4) (hk : k < 4) :
    getByte (setByte w k x) j = if j = k then x else getByte w j := by
  refine UInt8.eq_of_toBitVec_eq (BitVec.eq_of_getLsbD_eq fun i hi => ?_)
  rw [getLsbD_getByte hi hj, getLsbD_setByte (by omega) hk]
  by_cases he : j = k
  · rw [if_pos (by omega), if_pos he, show (8 * j + i) % 8 = i by omega]
  · rw [if_neg (by omega), if_neg he, getLsbD_getByte hi hj]

/-! ## Bytes of an address space -/

/-- What the paging unit does, in terms of the map. -/
theorem translate_iff {p : UInt32} : m.translate c a = some p ↔
    ∃ f, layout m (frameOf c) (.page (dirIndex a) (tableIndex a)) = some f ∧
      p.toNat = f * 4096 + a.toNat % 4096 := by
  constructor
  · intro h
    obtain ⟨hm, -, -⟩ := translate_eq_some h
    refine ⟨_, layout_eq_some.mpr ⟨_, entry_page.mpr ⟨hm.1, hm.2, rfl⟩, rfl⟩, ?_⟩
    unfold Machine.translate at h
    simp only [hm.1, hm.2, if_true] at h
    rw [← Option.some.inj h, offset_toNat]
    rfl
  · rintro ⟨f, hf, hp⟩
    obtain ⟨e, he, rfl⟩ := layout_eq_some.mp hf
    obtain ⟨h1, h2, rfl⟩ := entry_page.mp he
    unfold Machine.translate
    simp only [h1, h2, if_true]
    refine congrArg some (UInt32.toNat_inj.mp ?_)
    rw [offset_toNat, hp]
    rfl

/-- The frame and the word of an address in a page. -/
theorem place_of_toNat {p : UInt32} (hp : p.toNat = f * 4096 + a.toNat % 4096) :
    frameOf p = f ∧ indexOf p = indexOf a ∧ p.toNat % 4 = a.toNat % 4 := by
  refine ⟨?_, Fin.ext ?_, by omega⟩
  · unfold frameOf
    omega
  · show p.toNat % 4096 / 4 = a.toNat % 4096 / 4
    omega

/-- A byte of a page, in its frame. -/
theorem byteAt_eq {p : UInt32} (hp : p.toNat = f * 4096 + a.toNat % 4096) :
    m.byteAt p = getByte (m.phys f (indexOf a)) (a.toNat % 4) := by
  obtain ⟨hf, hi, ho⟩ := place_of_toNat hp
  unfold Machine.byteAt Machine.peek
  rw [hf, hi, ho]

theorem translate_of_layout
    (h : layout m (frameOf c) (.page (dirIndex a) (tableIndex a)) = some f) :
    ∃ p, m.translate c a = some p ∧ p.toNat = f * 4096 + a.toNat % 4096 := by
  obtain ⟨e, he, rfl⟩ := layout_eq_some.mp h
  obtain ⟨h1, h2, rfl⟩ := entry_page.mp he
  obtain ⟨p, hp⟩ := translate_of_mapped (c := c) ⟨h1, h2⟩
  obtain ⟨g, hg, hpv⟩ := translate_iff.mp hp
  rw [h] at hg
  exact ⟨p, hp, Option.some.inj hg ▸ hpv⟩

/-- **The byte at an address**, in the frame of its page. -/
theorem byteOf_eq : m.byteOf c v = (layout m (frameOf c) (.page (dirIndex v) (tableIndex v))).map
    fun f => getByte (m.phys f (indexOf v)) (v.toNat % 4) := by
  cases h : layout m (frameOf c) (.page (dirIndex v) (tableIndex v)) with
  | some f =>
    obtain ⟨p, hp, hpv⟩ := translate_of_layout h
    rw [Machine.byteOf, hp, Option.map_some, Option.map_some, byteAt_eq hpv]
  | none =>
    have hnone : m.translate c v = none := by
      rw [Option.eq_none_iff_forall_ne_some]
      intro p hp
      obtain ⟨f, hf, -⟩ := translate_iff.mp hp
      rw [h] at hf
      exact absurd hf (by simp)
    rw [Machine.byteOf, hnone]
    rfl

/-- Bytes of the same word in the same frame. -/
theorem byteOf_congr
    (h : layout m' (frameOf c) (.page (dirIndex v) (tableIndex v)) =
      layout m (frameOf c) (.page (dirIndex v) (tableIndex v)))
    (hp : ∀ f, layout m (frameOf c) (.page (dirIndex v) (tableIndex v)) = some f →
      m'.phys f = m.phys f) : m'.byteOf c v = m.byteOf c v := by
  rw [byteOf_eq, byteOf_eq, h]
  cases hf : layout m (frameOf c) (.page (dirIndex v) (tableIndex v)) with
  | none => rfl
  | some f => simp only [Option.map_some, hp f hf]

namespace Space

/-- `enableSpace` keeps the bytes. -/
theorem byteOf_enabled (h : Space m K R pdir slots) (he : Enabled use (frameOf pdir) type ws m m')
    (hws : ∀ n ∈ ws, n.slot ∈ slots) (hv : dirIndex v ∈ slots) (hx : m.byteOf pdir v = some x) :
    m'.byteOf pdir v = some x := by
  rw [← hx]
  rw [byteOf_eq, Option.map_eq_some_iff] at hx
  obtain ⟨f, hf, -⟩ := hx
  refine byteOf_congr ((he.extends_.keeps _ f hf).trans hf.symm) fun g hg => ?_
  exact h.page_phys he hws hv hg

/-- **A byte is stored** in the frame of its page. -/
theorem storeByte_eq (hc : m.cr3 = some c)
    (hf : layout m (frameOf c) (.page (dirIndex v) (tableIndex v)) = some f) :
    m.storeByte v x =
      .ok (m.setWord f (indexOf v) (setByte (m.phys f (indexOf v)) (v.toNat % 4) x)) := by
  obtain ⟨p, hp, hpv⟩ := translate_of_layout hf
  obtain ⟨h1, h2, h3⟩ := place_of_toNat hpv
  have haddr : m.addr v = .ok p := by
    unfold Machine.addr
    simp only [hc, hp]
  unfold Machine.storeByte
  rw [haddr, Res.ok_bind]
  unfold Machine.peek
  rw [h1, h2, h3]

/-- It is read there, and the other addresses keep theirs. -/
theorem byteOf_setByte (h : Space m K R pdir slots) (hv : dirIndex v ∈ slots)
    (hf : layout m (frameOf pdir) (.page (dirIndex v) (tableIndex v)) = some f)
    (hu : dirIndex u ∈ slots) :
    (m.setWord f (indexOf v) (setByte (m.phys f (indexOf v)) (v.toNat % 4) x)).byteOf pdir u =
      if u = v then some x else m.byteOf pdir u := by
  have hlay : ∀ n : Node, n.slot ∈ slots →
      layout (m.setWord f (indexOf v) (setByte (m.phys f (indexOf v)) (v.toNat % 4) x))
        (frameOf pdir) n = layout m (frameOf pdir) n := by
    intro n hn
    unfold layout
    rw [(h.write hv hf rfl fun y hy => setWord_phys_of_ne hy).2 n hn]
  rw [byteOf_eq, hlay (.page (dirIndex u) (tableIndex u)) hu]
  by_cases huv : u = v
  · subst huv
    rw [hf, if_pos rfl, Option.map_some, setWord_phys_self, getByte_setByte (by omega)
      (by omega), if_pos rfl]
  · rw [if_neg huv, byteOf_eq]
    cases hg : layout m (frameOf pdir) (.page (dirIndex u) (tableIndex u)) with
    | none => rfl
    | some g =>
      simp only [Option.map_some, Option.some.injEq]
      by_cases hgf : g = f
      · -- the same page: another word, or another byte of the word
        subst hgf
        obtain ⟨hi, hj⟩ := Node.page.inj (h.inj (.page (dirIndex u) (tableIndex u))
          (.page (dirIndex v) (tableIndex v)) g hu hv hg hf)
        have hpage : u.toNat / 4096 = v.toNat / 4096 := samePage_iff.mp ⟨hi, hj⟩
        by_cases hw : indexOf u = indexOf v
        · have hidx : u.toNat % 4096 / 4 = v.toNat % 4096 / 4 := Fin.mk.inj hw
          have hne : u.toNat % 4 ≠ v.toNat % 4 := fun e => huv (UInt32.toNat_inj.mp (by omega))
          rw [hw, setWord_phys_self, getByte_setByte (by omega) (by omega), if_neg hne]
        · rw [setWord_phys_index hw]
      · rw [setWord_phys_of_ne hgf]

end Space

/-! ## The address spaces of processes -/

namespace Spaces

variable {b : UInt32} {role : Roles} {A : Nat → List UInt32} {e : UInt32} {p : Proc}

/-- A table outside the kernel's slots. -/
theorem node_table (h : Spaces m b role A) (hd : role d = some .dir) (hi : i ∈ freeSlots m)
    (he : entry m d (.table i) = some e) :
    isEntryExist (m.phys d i) = true ∧ m.phys d i = e ∧ role (frameOf e) = some (.table d) := by
  obtain ⟨h1, rfl⟩ := entry_table.mp he
  rcases h.owned.tables.dirs d hd i h1 with ⟨-, -, hk⟩ | ht
  · exact absurd hk hi
  · exact ⟨h1, rfl, ht⟩

/-- A page outside the kernel's slots. -/
theorem node_page (h : Spaces m b role A) (hd : role d = some .dir) (hi : i ∈ freeSlots m)
    (he : entry m d (.page i j) = some e) :
    entry m d (.table i) = some (m.phys d i) ∧
    isEntryExist (m.phys (frameOf (m.phys d i)) j) = true ∧
      m.phys (frameOf (m.phys d i)) j = e ∧ role (frameOf e) = some (.data d) := by
  obtain ⟨h1, h2, rfl⟩ := entry_page.mp he
  have ht := entry_table.mpr ⟨h1, rfl⟩
  exact ⟨ht, h2, rfl, h.owned.tables.tables d _ (h.node_table hd hi ht).2.2 j h2⟩

/-- The role of a frame in the map. -/
theorem node_role (h : Spaces m b role A) (hd : role d = some .dir) (n : Node)
    (hn : n.slot ∈ freeSlots m) (hf : layout m d n = some f) :
    role f = some (.table d) ∨ role f = some (.data d) := by
  obtain ⟨e, he, rfl⟩ := layout_eq_some.mp hf
  cases n with
  | table i => exact Or.inl (h.node_table hd hn he).2.2
  | page i j => exact Or.inr (h.node_page hd hn he).2.2.2

/-- **The running process has an address space of its own.** -/
theorem space (h : Spaces m b role A) (hp : (m.pCurrent.bind fun i => m.procs[i]?) = some p) :
    m.cr3 = some p.cr3 ∧ Space m (lowWords p.cr3 b) low p.cr3 (freeSlots m) := by
  obtain ⟨i, -, -, hc, ha, hd⟩ := h.current hp
  obtain ⟨c, hc', hready⟩ := h.owned.kernelReady
  obtain rfl : p.cr3 = c := Option.some.inj (hc.symm.trans hc')
  have huse : ∀ f r, role f = some r → f ∈ inUse m := by
    intro f r hf
    obtain ⟨g, hg, -, hfg⟩ := h.owned.grant f r hf
    exact Or.inl ⟨g, hg, hfg⟩
  have hkt : ∀ f, role f = some (.table (frameOf p.cr3)) → role f ≠ some .kernelTable := by
    intro f hf
    rw [hf]
    simp
  refine ⟨hc, hready.direct,
    ⟨⟨ha, (Owned.holds_frame ha (h.owned.lt hd (by simp))).mem⟩, huse _ _ hd, ?_, ?_, ?_⟩,
    ?_, ?_, ?_⟩
  · intro i e he
    obtain ⟨h1, rfl⟩ := entry_table.mp he
    obtain ⟨r, hr, hcases⟩ := h.owned.table_role hd h1
    refine ⟨huse _ r hr, fun hf => ?_⟩
    rw [hf, hd] at hr
    rcases hcases with rfl | rfl
    · exact absurd hr (by simp)
    · exact absurd hr (by simp)
  · intro i hi e he
    have ht := (h.node_table hd hi he).2.2
    refine ⟨aligned_caddrEntry e, (Owned.holds_frame (aligned_caddrEntry e) ?_).mem⟩
    rw [frameOf_caddrEntry]
    exact h.owned.lt ht (by simp)
  · intro i hi j f hf hf'
    obtain ⟨e, he, rfl⟩ := layout_eq_some.mp hf
    obtain ⟨e', he', hee⟩ := layout_eq_some.mp hf'
    obtain ⟨h1, rfl, ht⟩ := h.node_table hd hi he
    obtain ⟨h1', rfl⟩ := entry_table.mp he'
    exact (h.view.unique _ _ i j (Or.inl hd) (Or.inl hd) h1 h1' hee.symm (hkt _ ht)).2
  · intro n f hn hf
    rcases h.node_role hd n hn hf with hr | hr
    · refine ⟨huse f _ hr, ?_⟩
      rintro rfl
      rw [hd] at hr
      exact absurd hr (by simp)
    · refine ⟨huse f _ hr, ?_⟩
      rintro rfl
      rw [hd] at hr
      exact absurd hr (by simp)
  · -- a frame is named once
    intro n n' f hn hn' hf hf'
    obtain ⟨e, he, rfl⟩ := layout_eq_some.mp hf
    obtain ⟨e', he', hee⟩ := layout_eq_some.mp hf'
    cases n with
    | table i =>
      obtain ⟨h1, rfl, ht⟩ := h.node_table hd hn he
      cases n' with
      | table i' =>
        obtain ⟨h1', rfl, -⟩ := h.node_table hd hn' he'
        rw [(h.view.unique _ _ i i' (Or.inl hd) (Or.inl hd) h1 h1' hee.symm (hkt _ ht)).2]
      | page i' j' =>
        rw [← hee, (h.node_page hd hn' he').2.2.2] at ht
        exact absurd ht (by simp)
    | page i j =>
      obtain ⟨ht, h2, rfl, hr⟩ := h.node_page hd hn he
      obtain ⟨h1, -, htr⟩ := h.node_table hd hn ht
      cases n' with
      | table i' =>
        rw [← hee, (h.node_table hd hn' he').2.2] at hr
        exact absurd hr (by simp)
      | page i' j' =>
        obtain ⟨ht', h2', rfl, -⟩ := h.node_page hd hn' he'
        obtain ⟨h1', -, htr'⟩ := h.node_table hd hn' ht'
        obtain ⟨htt, rfl⟩ := h.view.unique _ _ j j' (Or.inr ⟨_, htr⟩) (Or.inr ⟨_, htr'⟩) h2 h2'
          hee.symm (by rw [hr]; simp)
        rw [(h.view.unique _ _ i i' (Or.inl hd) (Or.inl hd) h1 h1' htt (hkt _ htr)).2]
  · intro i j f hi hf k
    have hr : role f = some (.data (frameOf p.cr3)) := by
      obtain ⟨e, he, rfl⟩ := layout_eq_some.mp hf
      exact (h.node_page hd hi he).2.2.2
    refine h.owned.not_lowWords (Or.inr hd) ?_ ?_ ?_
    · rw [hr]
      simp
    · rw [hr]
      simp
    · rw [hr]
      simp

end Spaces

/-- The chunks of the counting allocator lie below 4 MiB. -/
theorem Bump.gives (h : Bump m) (use : Use) : Gives m use low := by
  intro k i hi
  have ha : (bumpChunk k).toNat = 0x1000 * (k % 1023 + 1) := bumpChunk_toNat k
  rw [h.answers]
  show (entryAddr (bumpChunk k) i).toNat < 0x400000
  rw [entryAddr_toNat (by unfold Aligned; omega) hi, ha]
  omega

end OwnOS.VarMem
