import OwnOS.VarMem.ExactSpace
import OwnOS.VarMem.Space

/-!
# `mapping_pmem` is a translation (`VarMem.cpp:194-226`)

The loop maps the pages of a range of addresses one after the other to the frames of a range of
physical memory, and makes a table where there is none. In the map of a directory (`layout`) that is
a window: page `v + k` shows frame `phy + k`, and the pages outside show what they showed
(`Windowed`). The tables grow as they do in `enableSpace`.

* `PageDir.mapPmemPage`, `PageDir.mappingPmem`: one turn, and a call.
* `mappingPmem_translates`: **`vir2phy(vir + o) = phy + o` in the range, and outside everything as
  before.**
* `mappingPmem_not_translation`: a directory that is one of its own tables shows the new table, too;
  `vir2phy` takes a directory at NULL for another one; and a directory that is not mapped is a
  fault.
-/

namespace OwnOS.VarMem

open Lib Lib.Word Machine

/-- The slots of `[v, v + size)`. -/
def spanSlots (v size : UInt32) : Set (Fin 1024) :=
  {i | ∃ a : UInt32, v.toNat ≤ a.toNat ∧ a.toNat < v.toNat + size.toNat ∧ dirIndex a = i}

/-- No page of `[v, v + size)` is mapped. -/
def Unmapped (m : Machine) (pdir v size : UInt32) : Prop :=
  ∀ a : UInt32, v.toNat ≤ a.toNat → a.toNat < v.toNat + size.toNat → m.translate pdir a = none

/-- **The range is translated**: `vir2phy` adds `phy - v` there, and answers what it answered
outside the pages of the range. -/
structure Translated (m m' : Machine) (pdir phy v size : UInt32) : Prop where
  inside : ∀ o < size, m'.vir2phy (v + o) pdir = .ok (phy + o)
  outside : ∀ a : UInt32, a.toNat < v.toNat ∨ v.toNat + (ceil4k size).toNat ≤ a.toNat →
    m'.vir2phy a pdir = m.vir2phy a pdir

/-- The frames that the first `n` pages from `v` on show: those from `phy` on. -/
def window (phy v : UInt32) (n : Nat) (i j : Fin 1024) : Option Nat :=
  if v.toNat / 4096 ≤ i.val * 1024 + j.val ∧ i.val * 1024 + j.val < v.toNat / 4096 + n then
    some (phy.toNat / 4096 + (i.val * 1024 + j.val - v.toNat / 4096))
  else none

/-- **A window in the directory** in frame `d`: the pages of `win` show its frames, whatever was
there, and new tables under the slots `ws` have fresh frames. No other present entry of a frame in
use changes. -/
structure Windowed (d : Nat) (ws : Set (Fin 1024)) (win : Fin 1024 → Fin 1024 → Option Nat)
    (m m' : Machine) : Prop where
  same : m' = { m with phys := m'.phys, handed := m'.handed }
  tables : Extends (inUse m) ws (fun i => layout m d (.table i))
    (fun i => layout m' d (.table i)) (inUse m')
  kept : ∀ i e, entry m d (.table i) = some e → entry m' d (.table i) = some e
  given : ∀ i e, entry m d (.table i) = none → entry m' d (.table i) = some e →
    ∃ k, caddrEntry e = m.answers .vramTable k
  stable : ∀ f ∈ inUse m, ∀ i, isEntryExist (m.phys f i) = true → m'.phys f i = m.phys f i
  pages : ∀ i j, layout m' d (.page i j) = (win i j).or (layout m d (.page i j))

variable {m m' m'' : Machine} {K : Set (Nat × Fin 1024)} {R S : Set UInt32} {g : UInt32 → UInt32}
  {pdir type phy v size a w p t : UInt32} {slots ws ws' : Set (Fin 1024)} {d fd ft n k x : Nat}
  {win win' : Fin 1024 → Fin 1024 → Option Nat} {i j : Fin 1024}

/-! ## Windows -/

namespace Windowed

/-- Nothing is mapped. -/
theorem refl : Windowed d ∅ (fun _ _ => none) m m where
  same := rfl
  tables := Extends.refl fun _ h => absurd h (Set.notMem_empty _)
  kept _ _ h := h
  given i e h h' := by
    rw [h] at h'
    exact absurd h' (by simp)
  stable _ _ _ _ := rfl
  pages _ _ := rfl

/-- **One window after another.** -/
theorem trans (h : Windowed d ws win m m') (h' : Windowed d ws' win' m' m'') :
    Windowed d (ws ∪ ws') (fun i j => (win' i j).or (win i j)) m m'' where
  same := by rw [h'.same, h.same]
  tables := h.tables.trans h'.tables
  kept i e hn := h'.kept i e (h.kept i e hn)
  given i e hn hn'' := by
    cases hm : entry m' d (.table i) with
    | none =>
      obtain ⟨k, hk⟩ := h'.given i e hm hn''
      rw [h.same] at hk
      exact ⟨k, hk⟩
    | some x =>
      obtain rfl : x = e := Option.some.inj ((h'.kept i x hm).symm.trans hn'')
      exact h.given i x hn hm
  stable f hf i hi := by
    have h1 := h.stable f hf i hi
    rw [h'.stable f (h.tables.grows hf) i (by rw [h1]; exact hi), h1]
  pages i j := by rw [h'.pages, h.pages, Option.or_assoc]

theorem direct (h : Windowed d ws win m m') (hd : Direct m K R) : Direct m' K R :=
  hd.mono (by rw [h.same]) h.tables.grows h.stable

theorem gives (h : Windowed d ws win m m') (hg : Gives m .vramTable R) : Gives m' .vramTable R := by
  rw [h.same]
  exact hg

/-- The kernel addresses all tables directly. -/
theorem reached {e : UInt32} (h : Windowed d ws win m m') (hg : Gives m .vramTable R)
    (hold : ∀ x, entry m d (.table i) = some x → Reached R (caddrEntry x))
    (hn : entry m' d (.table i) = some e) : Reached R (caddrEntry e) := by
  cases hm : entry m d (.table i) with
  | some x =>
    obtain rfl : x = e := Option.some.inj ((h.kept _ x hm).symm.trans hn)
    exact hold x hm
  | none =>
    obtain ⟨k, hk⟩ := h.given _ e hm hn
    exact ⟨aligned_caddrEntry e, hk ▸ hg k⟩

theorem pageDir (h : Windowed (frameOf pdir) ws win m m') (hp : PageDir m R pdir slots)
    (hg : Gives m .vramTable R) : PageDir m' R pdir slots :=
  hp.grow h.tables h.kept fun _ _ hm hn =>
    h.reached hg (fun x hx => absurd (hm.symm.trans hx) (by simp)) hn

end Windowed

/-! ## One turn -/

/-- The window of one page. -/
def onePage (w : UInt32) (x : Nat) (i j : Fin 1024) : Option Nat :=
  if i = dirIndex w ∧ j = tableIndex w then some x else none

/-- The pages after an entry for one of them. -/
theorem page_update {f : Node → Option Nat} :
    Function.update f (.page (dirIndex w) (tableIndex w)) (some x) (.page i j) =
      (onePage w x i j).or (f (.page i j)) := by
  unfold onePage
  by_cases h : i = dirIndex w ∧ j = tableIndex w
  · obtain ⟨rfl, rfl⟩ := h
    rw [Function.update_self, if_pos ⟨rfl, rfl⟩, Option.some_or]
  · rw [Function.update_of_ne (by simpa using h), if_neg h, Option.none_or]

namespace PageDir

/-- An entry in the table that is there. -/
theorem windowed_page (hp : PageDir m R pdir slots) (hs : dirIndex w ∈ slots)
    (htype : type.toNat % 2 = 1) (hi : isEntryExist (m.phys (frameOf pdir) (dirIndex w)) = true)
    (hj : isEntryExist (m.phys (frameOf (m.phys (frameOf pdir) (dirIndex w))) (tableIndex w)) =
    false) :
    Windowed (frameOf pdir) {dirIndex w} (onePage w (frameOf p)) m
      (m.setWord (frameOf (m.phys (frameOf pdir) (dirIndex w))) (tableIndex w)
        (entryWord p type)) := by
  have hent : entry (m.setWord (frameOf (m.phys (frameOf pdir) (dirIndex w))) (tableIndex w)
      (entryWord p type)) (frameOf pdir) = _ :=
    hp.entry_page .vramTable 0 (j := tableIndex w) hs hi (isEntryExist_entryWord (p := p) htype)
  have hlay := layout_update hent
  rw [frameOf_entryWord] at hlay
  refine ⟨rfl, ?_, ?_, ?_, ?_, ?_⟩
  · have htables :
      (fun k => layout (m.setWord (frameOf (m.phys (frameOf pdir) (dirIndex w))) (tableIndex w)
        (entryWord p type)) (frameOf pdir) (.table k)) = fun k =>
          layout m (frameOf pdir) (.table k) := by
      funext k
      rw [hlay, Function.update_of_ne (by simp)]
    rw [htables]
    refine Extends.refl ?_
    rintro k rfl
    exact ⟨_, layout_eq_some.mpr ⟨_, entry_table.mpr ⟨hi, rfl⟩, rfl⟩⟩
  · intro k e hn
    rw [hent, Function.update_of_ne (by simp)]
    exact hn
  · intro k e hn hn'
    rw [hent, Function.update_of_ne (by simp), hn] at hn'
    exact absurd hn' (by simp)
  · intro f _ k hpres
    by_cases hf : f = frameOf (m.phys (frameOf pdir) (dirIndex w))
    · subst hf
      have hk : k ≠ tableIndex w := by
        rintro rfl
        rw [hj] at hpres
        exact absurd hpres (by simp)
      simp only [setWord, Function.update_self, Function.update_of_ne hk]
    · exact congrFun (setWord_phys_of_ne hf) k
  · intro k l
    rw [hlay, page_update]

/-- An entry in a new table. -/
theorem windowed_new (hp : PageDir m R pdir slots) (htype : type.toNat % 2 = 1)
    (hi : isEntryExist (m.phys (frameOf pdir) (dirIndex w)) = false)
    (hta : m.answers .vramTable m.handed.length = t)
    (htnew : Grant.New ⟨.vramTable, t, 1⟩ m.handed) :
    Windowed (frameOf pdir) {dirIndex w} (onePage w (frameOf p)) m
      (m.pmemNew (frameOf pdir) (frameOf t) w t p type) := by
  have ht := not_inUse_of_new hta htnew (by omega)
  have hent : entry (m.pmemNew (frameOf pdir) (frameOf t) w t p type) (frameOf pdir) = _ :=
    hp.entry_new .vramTable p hi ht htype
  have hlay := layout_update₂ hent
  rw [frameOf_entryWord, frameOf_entryWord] at hlay
  have hnone : entry m (frameOf pdir) (.table (dirIndex w)) = none := present_eq_none.mpr hi
  have hlnone := layout_eq_none.mpr hnone
  refine ⟨rfl, ?_, ?_, ?_, ?_, ?_⟩
  · have htables : (fun k => layout (m.pmemNew (frameOf pdir) (frameOf t) w t p type) (frameOf pdir)
        (.table k)) = Function.update (fun k => layout m (frameOf pdir) (.table k)) (dirIndex w)
          (some (frameOf t)) := by
      funext k
      rw [hlay, Function.update_of_ne (by simp)]
      by_cases hk : k = dirIndex w
      · subst hk
        rw [Function.update_self, Function.update_self]
      · rw [Function.update_of_ne (by simpa using hk), Function.update_of_ne hk]
    rw [htables]
    exact Extends.update hlnone ht (mem_inUse_granted (by omega)) fun f hf => inUse_granted hf
  · intro k e hn
    rw [hent, Function.update_of_ne (by simp)]
    exact update_some hnone hn
  · intro k e hn hn'
    rw [hent, Function.update_of_ne (by simp)] at hn'
    obtain ⟨-, rfl⟩ := eq_of_update hn hn'
    exact ⟨_, (caddrEntry_entryWord htnew.1).trans hta.symm⟩
  · intro f hf k hpres
    have hft : f ≠ frameOf t := fun he => ht (he ▸ hf)
    unfold pmemNew
    rw [setPage_phys_of_ne hft]
    by_cases hd : f = frameOf pdir
    · subst hd
      have hk : k ≠ dirIndex w := by
        rintro rfl
        rw [hi] at hpres
        exact absurd hpres (by simp)
      simp only [setWord, Function.update_self, Function.update_of_ne hk]
      rfl
    · rw [setWord_phys_of_ne hd]
      rfl
  · intro k l
    rw [hlay, page_update, Function.update_of_ne (by simp)]

/-- **One turn of `mapping_pmem`** maps its page, or the allocator has no chunk left. -/
theorem mapPmemPage (hp : PageDir m R pdir slots) (hd : Direct m K R) (hs : dirIndex w ∈ slots)
    (hg : Gives m .vramTable R) (htype : type.toNat % 2 = 1)
    (hw : v + UInt32.ofNat k * 0x1000 = w) (hphy : phy + UInt32.ofNat k * 0x1000 = p)
    (hnone : layout m (frameOf pdir) (.page (dirIndex w) (tableIndex w)) = none) :
    mapPmemPage phy v pdir type k m = .error (.panic "PFAallocator::cannot allocate segment") ∨
      ∃ m', mapPmemPage phy v pdir type k m = .ok m' ∧
        Windowed (frameOf pdir) {dirIndex w} (onePage w (frameOf p)) m m' := by
  have hdir := hp.reached.holds
  cases hi : isEntryExist (m.phys (frameOf pdir) (dirIndex w)) with
  | true =>
    have hj : isEntryExist (m.phys (frameOf (m.phys (frameOf pdir) (dirIndex w))) (tableIndex w)) =
        false := by
      by_contra h
      rw [Bool.not_eq_false] at h
      have := layout_eq_none.mp hnone
      rw [OwnOS.VarMem.entry_page.mpr ⟨hi, h, rfl⟩] at this
      exact absurd this (by simp)
    have hturn : Machine.mapPmemPage phy v pdir type k m = _ :=
      hdir.mapPmemPage_table hd.reaches hw hphy hi (hp.holds_table hs hi)
        fun h => hd.not_mem_of_absent h
    rw [hj, if_neg Bool.false_ne_true] at hturn
    exact Or.inr ⟨_, hturn, hp.windowed_page hs htype hi hj⟩
  | false =>
    by_cases hnew : Grant.New ⟨.vramTable, m.answers .vramTable m.handed.length, 1⟩ m.handed
    · have hfresh := not_inUse_of_new rfl hnew (by omega)
      have htab := (Reached.mk hnew.1 (hg _)).holds
      exact Or.inr
        ⟨_, hdir.mapPmemPage_new hd.reaches hw hphy hi (hd.not_mem_of_absent hi) rfl hnew htab
        (fun j => hd.not_mem_of_new hfresh j), hp.windowed_new htype hi rfl hnew⟩
    · left
      unfold Machine.mapPmemPage Machine.tableOf
      simp only [hw]
      rw [hdir.load hd.reaches (dirIndex w).isLt, Res.ok_bind]
      simp only [Fin.eta, hi, Bool.not_false, if_true, allocChunk_panics hnew, Res.error_bind]

end PageDir

/-! ## A call -/

/-- The number of a page. -/
theorem page_iff : i = dirIndex a ∧ j = tableIndex a ↔ i.val * 1024 + j.val = a.toNat / 4096 := by
  unfold dirIndex tableIndex
  rw [Fin.ext_iff, Fin.ext_iff]
  simp only
  omega

theorem window_page (a : UInt32) : window phy v n (dirIndex a) (tableIndex a) =
    if v.toNat / 4096 ≤ a.toNat / 4096 ∧ a.toNat / 4096 < v.toNat / 4096 + n then
      some (phy.toNat / 4096 + (a.toNat / 4096 - v.toNat / 4096))
    else none := by
  unfold window
  rw [page_iff.mp ⟨rfl, rfl⟩]

/-- **One page more** in the window. -/
theorem window_succ (hphy : Aligned phy) (hvir : Aligned v) (hw : w.toNat = v.toNat + k * 4096)
    (hp : p.toNat = phy.toNat + k * 4096) :
    (fun i j => (onePage w (frameOf p) i j).or (window phy v k i j)) = window phy v (k + 1) := by
  unfold Aligned at hphy hvir
  have hframe : frameOf p = phy.toNat / 4096 + k := by
    unfold frameOf
    omega
  funext i j
  unfold onePage window
  by_cases h : i = dirIndex w ∧ j = tableIndex w
  · have hno := page_iff.mp h
    rw [if_pos h, Option.some_or, if_pos (by omega), hframe]
    congr 1
    omega
  · have hno : i.val * 1024 + j.val ≠ w.toNat / 4096 := fun e => h (page_iff.mpr e)
    rw [if_neg h, Option.none_or]
    by_cases hin : v.toNat / 4096 ≤ i.val * 1024 + j.val ∧ i.val * 1024 + j.val < v.toNat / 4096 + k
    · rw [if_pos hin, if_pos (by omega)]
    · rw [if_neg hin, if_neg (by omega)]

/-- The number of turns. -/
theorem turns_eq (hend : v.toNat + size.toNat ≤ 4294963200) :
    (ceil4k size / 0x1000).toNat = (size.toNat + 4095) / 4096 := by
  have h1 : (0x1000 : UInt32).toNat = 4096 := rfl
  rw [UInt32.toNat_div, ceil4k_toNat, h1]
  omega

/-- Page `k` behind `v`. -/
theorem turn_toNat (hend : v.toNat + size.toNat ≤ 4294963200)
    (hk : k < (size.toNat + 4095) / 4096) :
    (v + UInt32.ofNat k * 0x1000).toNat = v.toNat + k * 4096 := by
  have h1 : (0x1000 : UInt32).toNat = 4096 := rfl
  have hk' : (UInt32.ofNat k).toNat = k :=
    UInt32.toNat_ofNat_of_lt' (by change k < 4294967296; omega)
  have hmul : (UInt32.ofNat k * 0x1000).toNat = k * 4096 := by
    rw [toNat_mul_of_lt (by rw [hk', h1]; omega), hk', h1]
  rw [toNat_add_of_lt (by omega), hmul]

theorem layout_of_translate (h : m.translate pdir a = none) :
    layout m (frameOf pdir) (.page (dirIndex a) (tableIndex a)) = none := by
  cases hm : layout m (frameOf pdir) (.page (dirIndex a) (tableIndex a)) with
  | none => rfl
  | some f =>
    obtain ⟨p, hp, -⟩ := translate_of_layout hm
    exact absurd (h.symm.trans hp) (by simp)

/-- **`mapping_pmem`** makes its window, or the allocator has no chunk left. -/
theorem PageDir.mappingPmem (hp : PageDir m R pdir (spanSlots v size)) (hd : Direct m K R)
    (hg : Gives m .vramTable R) (htype : type.toNat % 2 = 1) (hphy : Aligned phy) (hvir : Aligned v)
    (hpend : phy.toNat + size.toNat ≤ 4294963200) (hend : v.toNat + size.toNat ≤ 4294963200)
    (hun : Unmapped m pdir v size) :
    m.mappingPmem phy v size pdir type = .error (.panic "PFAallocator::cannot allocate segment") ∨
      ∃ m', m.mappingPmem phy v size pdir type = .ok m' ∧
        ∃ ws, Windowed (frameOf pdir) ws (window phy v ((size.toNat + 4095) / 4096)) m m' := by
  unfold Machine.mappingPmem
  rw [turns_eq hend]
  refine loop_or (I := fun n s => ∃ ws, Windowed (frameOf pdir) ws (window phy v n) m s) ?_ ?_
  · have hnone : window phy v 0 = fun _ _ => none := by
      funext i j
      exact if_neg (by omega)
    exact ⟨∅, hnone ▸ Windowed.refl⟩
  · rintro k hk s ⟨ws, hs⟩
    obtain ⟨w, hw⟩ : ∃ w, v + UInt32.ofNat k * 0x1000 = w := ⟨_, rfl⟩
    obtain ⟨p, hpw⟩ : ∃ p, phy + UInt32.ofNat k * 0x1000 = p := ⟨_, rfl⟩
    have hwv : w.toNat = v.toNat + k * 4096 := hw ▸ turn_toNat hend hk
    have hpv : p.toNat = phy.toNat + k * 4096 := hpw ▸ turn_toNat hpend hk
    -- the page is in the range, and not in the window yet
    have hnone : layout s (frameOf pdir) (.page (dirIndex w) (tableIndex w)) = none := by
      rw [hs.pages, window_page, if_neg (by omega), Option.none_or]
      exact layout_of_translate (hun w (by omega) (by omega))
    have hslot : dirIndex w ∈ spanSlots v size := ⟨w, by omega, by omega, rfl⟩
    rcases (hs.pageDir hp hg).mapPmemPage (hs.direct hd) hslot (hs.gives hg) htype hw hpw hnone with
      herr | ⟨s', hr, hs'⟩
    · exact Or.inl herr
    · exact Or.inr ⟨s', hr, _, window_succ hphy hvir hwv hpv ▸ hs.trans hs'⟩

/-- **`mapping_pmem` is a translation**, or the allocator has no chunk left. -/
theorem mappingPmem_translates (hp : PageDir m R pdir (spanSlots v size)) (hd : Direct m K R)
    (hv : ∀ i e, entry m (frameOf pdir) (.table i) = some e → Reached R (caddrEntry e))
    (hg : Gives m .vramTable R) (h0 : pdir ≠ 0) (htype : isEntryExist type = true)
    (hphy : Aligned phy) (hvir : Aligned v) (hpend : phy.toNat + size.toNat ≤ 4294963200)
    (hend : v.toNat + size.toNat ≤ 4294963200) (hun : Unmapped m pdir v size) :
    m.mappingPmem phy v size pdir type = .error (.panic "PFAallocator::cannot allocate segment") ∨
      ∃ m', m.mappingPmem phy v size pdir type = .ok m' ∧ Translated m m' pdir phy v size := by
  rcases hp.mappingPmem hd hg (isEntryExist_iff.mp htype) hphy hvir hpend hend hun with
    herr | ⟨m', hr, ws, hm⟩
  · exact Or.inl herr
  refine Or.inr ⟨m', hr, ?_⟩
  have hlook : ∀ a, m.vir2phy a pdir = .ok (look m (frameOf pdir) a) :=
    fun a => hp.vir2phy hd h0 (hv _)
  have hlook' : ∀ a, m'.vir2phy a pdir = .ok (look m' (frameOf pdir) a) :=
    fun a => (hm.pageDir hp hg).vir2phy (hm.direct hd) h0 fun _ hn => hm.reached hg (hv _) hn
  have hceil := ceil4k_toNat size
  unfold Aligned at hphy hvir
  constructor
  · intro o ho
    have ho := UInt32.lt_iff_toNat_lt.mp ho
    have ha : (v + o).toNat = v.toNat + o.toNat := toNat_add_of_lt (by omega)
    have hlay : layout m' (frameOf pdir) (.page (dirIndex (v + o)) (tableIndex (v + o))) =
        some (phy.toNat / 4096 + ((v + o).toNat / 4096 - v.toNat / 4096)) := by
      rw [hm.pages, window_page, if_pos (by omega), Option.some_or]
    rw [hlook']
    refine congrArg Except.ok (UInt32.toNat_inj.mp ?_)
    have hval := look_of_some hlay
    rw [ha] at hval
    rw [hval, toNat_add_of_lt (by omega)]
    omega
  · intro a ha
    rw [hlook, hlook']
    refine congrArg Except.ok (look_eq_of_layout ?_)
    rw [hm.pages, window_page, if_neg (by omega), Option.none_or]

theorem oneTable_unmapped : Unmapped (dirMachine oneTable fun _ => 0) 0x1000 v size := by
  intro a _ _
  rw [Option.eq_none_iff_forall_ne_some]
  intro p hp
  obtain ⟨f, hf, -⟩ := translate_iff.mp hp
  obtain ⟨e, he, -⟩ := layout_eq_some.mp hf
  obtain ⟨h1, h2, -⟩ := entry_page.mp he
  have h1 : isEntryExist (oneTable (dirIndex a)) = true := h1
  have h2 : isEntryExist ((dirMachine oneTable fun _ => 0).phys (frameOf (oneTable (dirIndex a)))
    (tableIndex a)) = true := h2
  rw [(oneTable_slot _ h1).2] at h2
  have hz : isEntryExist 0 = true := h2
  exact absurd hz (by decide)

/-- One byte more than a page of the VRAM. -/
theorem mappingPmem_translates_two : ∃ m',
    (dirMachine oneTable fun _ => 0).mappingPmem 0xe0000000 0x40000000 0x1001 0x1000
      systempage = .ok m' ∧ Translated (dirMachine oneTable fun _ => 0) m' 0x1000 0xe0000000
      0x40000000 0x1001 := by
  obtain ⟨m', hm⟩ : ∃ m', (dirMachine oneTable fun _ => 0).mappingPmem 0xe0000000
    0x40000000 0x1001 0x1000 systempage = .ok m' := ⟨_, rfl⟩
  have h : (dirMachine oneTable fun _ => 0).mappingPmem 0xe0000000 0x40000000 0x1001
    0x1000 systempage = _ ∨
      _ :=
    mappingPmem_translates (dirMachine_pageDir oneTable_slot) (direct_off rfl)
      (fun _ _ _ => reached_univ (aligned_caddrEntry _)) (fun _ _ _ => trivial)
        (by decide) (by decide) rfl rfl
      (by decide) (by decide) oneTable_unmapped
  rcases h with he | h
  · rw [hm] at he
    exact absurd he (by simp)
  · exact h

/-- The machine before paging with an empty directory at NULL. -/
def nullDir : Machine := { dirMachine (fun _ => 0) fun _ => 0 with handed := [⟨.pageDir, 0, 1⟩] }

/-- The machine that runs on a directory which does not map itself. -/
def unreached : Machine := { dirMachine oneTable fun _ => 0 with cr3 := some 0x1000 }

/-- A page in a slot without a table is not mapped. -/
theorem translate_of_absent (h : isEntryExist (m.phys (frameOf pdir) (dirIndex a)) = false) :
    m.translate pdir a = none := by
  unfold Machine.translate
  simp only [h, Bool.false_eq_true, if_false]

/-- One page behind the beginning of a slot. -/
theorem span_one : spanSlots 0x40000000 0x1000 = {0x100} := by
  have hv : (0x40000000 : UInt32).toNat = 1073741824 := rfl
  have hsize : (0x1000 : UInt32).toNat = 4096 := rfl
  ext i
  constructor
  · rintro ⟨a, h1, h2, rfl⟩
    refine Fin.ext ?_
    show a.toNat / 0x400000 = 256
    omega
  · rintro rfl
    exact ⟨0x40000000, by omega, by omega, by decide⟩

/-- Outside those directories a page may not be translated to its frame: a directory that is its own
table shows the new table at an address outside the range, `vir2phy` takes a directory at NULL for
that of the running process, and a directory that is not mapped is a fault. -/
theorem mappingPmem_not_translation :
    (spanSlots 0x40000000 0x1000 = {0x100} ∧ isEntryExist (selfDir 0x100) = false ∧
      Unmapped (dirMachine selfDir fun _ => 0) 0x1000 0x40000000 0x1000 ∧
      ∃ m', (dirMachine selfDir fun _ => 0).mappingPmem 0xe0000000 0x40000000 0x1000 0x1000
        systempage = .ok m' ∧ ¬ Translated (dirMachine selfDir fun _ => 0) m' 0x1000 0xe0000000
        0x40000000 0x1000) ∧
    (Unmapped nullDir 0 0x40000000 0x1000 ∧
      ∃ m', nullDir.mappingPmem 0xe0000000 0x40000000 0x1000 0 systempage = .ok m' ∧
        ¬ Translated nullDir m' 0 0xe0000000 0x40000000 0x1000) ∧
    (Unmapped unreached 0x1000 0x40000000 0x1000 ∧
      unreached.mappingPmem 0xe0000000 0x40000000 0x1000 0x1000 systempage = .error .fault) := by
  have habsent : ∀ {m : Machine} {pdir : UInt32},
    isEntryExist (m.phys (frameOf pdir) 0x100) = false →
      Unmapped m pdir 0x40000000 0x1000 := by
    intro m pdir h a h1 h2
    have hslot : dirIndex a ∈ spanSlots 0x40000000 0x1000 := ⟨a, h1, h2, rfl⟩
    rw [span_one] at hslot
    refine translate_of_absent ?_
    rw [Set.mem_singleton_iff.mp hslot]
    exact h
  refine ⟨⟨span_one, by decide, habsent (by decide), ?_⟩, ⟨habsent (by decide), ?_⟩, ?_, rfl⟩
  · have hr : (dirMachine selfDir fun _ => 0).mappingPmem 0xe0000000 0x40000000
      0x1000 0x1000 systempage =
        .ok ((dirMachine selfDir fun _ => 0).pmemNew 1 3 0x40000000 0x3000 0xe0000000 systempage) :=
      (holds_off (rfl : Aligned 0x1000)).mapPmemPage_new (k := 0) (reaches_off rfl)
        (by decide) (by decide) (by decide) (by simp) rfl (by decide)
        (holds_off (rfl : Aligned 0x3000)) (by simp)
    refine ⟨_, hr, fun h => ?_⟩
    have hout := h.outside 0xffd00000 (Or.inr (by decide))
    rw [vir2phy_eq_look (reaches_off rfl) (holds_off (a := 0x1000) rfl) (by decide)
        fun _ => holds_off (aligned_caddrEntry 0x1017),
      vir2phy_eq_look (reaches_off rfl) (holds_off (a := 0x1000) rfl) (by decide)
        fun _ => holds_off (aligned_caddrEntry 0x1017)] at hout
    exact absurd (Except.ok.inj hout) (by decide)
  · have hr : nullDir.mappingPmem 0xe0000000 0x40000000 0x1000 0 systempage =
        .ok (nullDir.pmemNew 0 2 0x40000000 0x2000 0xe0000000 systempage) :=
      (holds_off (rfl : Aligned 0)).mapPmemPage_new (k := 0) (reaches_off rfl)
        (by decide) (by decide) (by decide) (by simp) rfl (by decide)
        (holds_off (rfl : Aligned 0x2000)) (by simp)
    refine ⟨_, hr, fun h => ?_⟩
    have hin := h.inside 0 (by decide)
    have hfault : (nullDir.pmemNew 0 2 0x40000000 0x2000 0xe0000000 systempage).vir2phy
      (0x40000000 + 0) 0 = .error .fault := rfl
    rw [hfault] at hin
    exact absurd hin (by simp)
  · intro a h1 h2
    exact oneTable_unmapped a h1 h2

end OwnOS.VarMem
