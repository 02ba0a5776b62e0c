import OwnOS.VarMem.EnableSpace
import OwnOS.Lib.Extend

/-!
# What a page directory maps

A directory is a partial map from places (its slots, and the entries of the tables under them) to
frames: `layout`. For the rest of the kernel `enableSpace` makes that map grow by fresh frames
(`Enabled`), whatever directory it gets, as long as the tables of the slots it works on are private
to the directory (`PageDir`). That the kernel finds directory and tables at their physical addresses
is `Direct`: the words `K` that make it so are present entries of frames in use, which no call
changes.

* `PageDir.enablePage`, `PageDir.enableSpace`: one turn, and a call.
-/

namespace OwnOS.VarMem

open Lib Lib.Word

/-- A place of a directory: slot `i`, or entry `j` of the table in slot `i`. -/
inductive Node where
  | table (i : Fin 1024)
  | page (i j : Fin 1024)
  deriving DecidableEq

/-- The entry, if it is present. -/
def present (e : UInt32) : Option UInt32 := if isEntryExist e then some e else none

/-- The present entry at a place of the directory in frame `d`. -/
def entry (m : Machine) (d : Nat) : Node → Option UInt32
  | .table i => present (m.phys d i)
  | .page i j => (present (m.phys d i)).bind fun e => present (m.phys (frameOf e) j)

/-- The frame at a place. -/
def layout (m : Machine) (d : Nat) (n : Node) : Option Nat := (entry m d n).map frameOf

/-- The frames that no new chunk has: they were handed out, or the allocator never answers with
them. -/
def inUse (m : Machine) : Set Nat :=
  {f | (∃ g ∈ m.handed, f ∈ g.frames) ∨
    ∀ use k, Aligned (m.answers use k) → frameOf (m.answers use k) ≠ f}

/-- The frame at `a` is read and written through the addresses `R`. -/
structure Reached (R : Set UInt32) (a : UInt32) : Prop where
  aligned : Aligned a
  mem : ∀ i < 1024, entryAddr a i ∈ R

/-- **The kernel addresses `R` directly**, through the words `K`. -/
structure Direct (m : Machine) (K : Set (Nat × Fin 1024)) (R : Set UInt32) : Prop where
  reaches : Machine.Reaches m K R id
  present : ∀ x ∈ K, isEntryExist (m.phys x.1 x.2) = true
  used : ∀ x ∈ K, x.1 ∈ inUse m

/-- **A page directory** that is no table of its own. Its tables under `slots` are private, under
one slot each, and the kernel addresses them directly. -/
structure PageDir (m : Machine) (R : Set UInt32) (pdir : UInt32) (slots : Set (Fin 1024)) :
    Prop where
  reached : Reached R pdir
  used : frameOf pdir ∈ inUse m
  table : ∀ i e, entry m (frameOf pdir) (.table i) = some e →
    frameOf e ∈ inUse m ∧ frameOf e ≠ frameOf pdir
  visible : ∀ i ∈ slots, ∀ e, entry m (frameOf pdir) (.table i) = some e → Reached R (caddrEntry e)
  priv : ∀ i ∈ slots, ∀ j f, layout m (frameOf pdir) (.table i) = some f →
    layout m (frameOf pdir) (.table j) = some f → i = j

/-- The kernel addresses the chunks directly that it asks for. -/
def Gives (m : Machine) (use : Use) (R : Set UInt32) : Prop :=
  ∀ k, ∀ i < 1024, entryAddr (m.answers use k) i ∈ R

/-- The places of a page. -/
def nodes (w : UInt32) : Set Node := {.table (dirIndex w), .page (dirIndex w) (tableIndex w)}

/-- The places of some pages. -/
def nodesOf (ws : List UInt32) : Set Node := {n | ∃ w ∈ ws, n ∈ nodes w}

/-- What the allocator is asked for at a place. -/
def Node.use (use : Use) : Node → Use
  | .table _ => .pageTable
  | .page _ _ => use

/-- **Enabling the pages** at the places `ws` of the directory in frame `d`: they get fresh frames
unless they have one, with `type` in the new entries; nothing but the directory and its tables there
changes, and no present entry of a frame in use does. -/
structure Enabled (use : Use) (d : Nat) (type : UInt32) (ws : Set Node) (m m' : Machine) :
    Prop where
  same : m' = { m with phys := m'.phys, handed := m'.handed }
  extends_ : Extends (inUse m) ws (layout m d) (layout m' d) (inUse m')
  kept : ∀ n e, entry m d n = some e → entry m' d n = some e
  typed : ∀ n e, entry m d n = none → entry m' d n = some e → e.toNat % 4096 = type.toNat % 4096
  given : ∀ n e, entry m d n = none → entry m' d n = some e →
    ∃ k, caddrEntry e = m.answers (n.use use) k
  stable : ∀ f ∈ inUse m, ∀ i, isEntryExist (m.phys f i) = true → m'.phys f i = m.phys f i
  frames : ∀ f, m'.phys f = m.phys f ∨ f = d ∨ ∃ i, .table i ∈ ws ∧ layout m' d (.table i) = some f

variable {m m' m'' : Machine} {K : Set (Nat × Fin 1024)} {R : Set UInt32}
  {pdir type w a s t e : UInt32} {slots : Set (Fin 1024)} {d f : Nat} {use : Use}
  {ws ws' : Set Node} {i j : Fin 1024}

theorem present_eq_some : present e = some a ↔ isEntryExist e = true ∧ e = a := by
  unfold present
  split <;> simp_all

theorem present_eq_none : present e = none ↔ isEntryExist e = false := by
  unfold present
  split <;> simp_all

theorem entry_table :
    entry m d (.table i) = some e ↔ isEntryExist (m.phys d i) = true ∧ m.phys d i = e :=
  present_eq_some

theorem entry_page : entry m d (.page i j) = some e ↔ isEntryExist (m.phys d i) = true ∧
    isEntryExist (m.phys (frameOf (m.phys d i)) j) = true ∧
    m.phys (frameOf (m.phys d i)) j = e := by
  simp only [entry, Option.bind_eq_some_iff, present_eq_some]
  constructor
  · rintro ⟨x, ⟨h1, rfl⟩, h2, h3⟩
    exact ⟨h1, h2, h3⟩
  · rintro ⟨h1, h2, h3⟩
    exact ⟨_, ⟨h1, rfl⟩, h2, h3⟩

theorem layout_eq_some {n : Node} :
    layout m d n = some f ↔ ∃ e, entry m d n = some e ∧ frameOf e = f :=
  Option.map_eq_some_iff

theorem layout_eq_none {n : Node} :
    layout m d n = none ↔ entry m d n = none := Option.map_eq_none_iff

theorem Reached.holds (h : Reached R a) : Machine.Holds R id a (frameOf a) where
  aligned := h.aligned
  mem := h.mem
  frame _ hi := frameOf_entryAddr h.aligned hi
  index _ hi := indexOf_entryAddr h.aligned hi

theorem inUse_granted {n : Nat} (hf : f ∈ inUse m) : f ∈ inUse (m.granted use a n) := by
  rcases hf with ⟨g, hg, hfg⟩ | hf
  · exact Or.inl ⟨g, List.mem_cons_of_mem _ hg, hfg⟩
  · exact Or.inr hf

theorem mem_inUse_granted {n : Nat} (hn : 0 < n) : frameOf a ∈ inUse (m.granted use a n) :=
  Or.inl ⟨⟨use, a, n⟩, List.mem_cons_self, frame_mem hn⟩

/-- A new chunk is not in use. -/
theorem not_inUse_of_new {k n : Nat} (ha : m.answers use k = a)
    (hnew : Grant.New ⟨use, a, n⟩ m.handed) (hn : 0 < n) : frameOf a ∉ inUse m := by
  subst ha
  rintro (⟨g, hg, hf⟩ | hf)
  · exact (hnew.2.2 g hg).not_mem (frame_mem hn) hf
  · exact hf use k hnew.1 rfl

namespace Direct

/-- The kernel's addresses depend on nothing but the words `K`. -/
theorem congr (h : Direct m K R) (hc : m'.cr3 = m.cr3) (hu : inUse m ⊆ inUse m')
    (hK : ∀ x ∈ K, m'.phys x.1 x.2 = m.phys x.1 x.2) : Direct m' K R := by
  refine ⟨h.reaches.of_agree ⟨hc, hK⟩, fun x hx => ?_, fun x hx => hu (h.used x hx)⟩
  rw [hK x hx]
  exact h.present x hx

/-- Whatever keeps the present entries of the frames in use keeps the kernel's addresses. -/
theorem mono (h : Direct m K R) (hc : m'.cr3 = m.cr3) (hu : inUse m ⊆ inUse m')
    (hs : ∀ f ∈ inUse m, ∀ i, isEntryExist (m.phys f i) = true → m'.phys f i = m.phys f i) :
    Direct m' K R :=
  h.congr hc hu fun x hx => hs x.1 (h.used x hx) x.2 (h.present x hx)

/-- A word that is not present is not one of the kernel's. -/
theorem not_mem_of_absent (h : Direct m K R) (ha : isEntryExist (m.phys f i) = false) :
    (f, i) ∉ K := by
  intro hx
  have := h.present _ hx
  rw [ha] at this
  exact absurd this (by simp)

theorem not_mem_of_new (h : Direct m K R) (hf : f ∉ inUse m) (i : Fin 1024) : (f, i) ∉ K :=
  fun hx => hf (h.used _ hx)

end Direct

/-! ## One turn -/

namespace PageDir

/-- The table in a slot, at its pointer. -/
theorem holds_table (hp : PageDir m R pdir slots) (hs : i ∈ slots)
    (hi : isEntryExist (m.phys (frameOf pdir) i) = true) :
    Machine.Holds R id (caddrEntry (m.phys (frameOf pdir) i))
      (frameOf (m.phys (frameOf pdir) i)) := by
  have h := (hp.visible i hs _ (entry_table.mpr ⟨hi, rfl⟩)).holds
  rwa [frameOf_caddrEntry] at h

theorem table_used (hp : PageDir m R pdir slots)
    (hi : isEntryExist (m.phys (frameOf pdir) i) = true) :
    frameOf (m.phys (frameOf pdir) i) ∈ inUse m ∧
    frameOf (m.phys (frameOf pdir) i) ≠ frameOf pdir :=
  hp.table i _ (entry_table.mpr ⟨hi, rfl⟩)

/-- The table of a private slot is under no other slot. -/
theorem table_inj (hp : PageDir m R pdir slots) (hs : i ∈ slots)
    (hi : isEntryExist (m.phys (frameOf pdir) i) = true)
    (hj : isEntryExist (m.phys (frameOf pdir) j) = true)
    (he : frameOf (m.phys (frameOf pdir) j) = frameOf (m.phys (frameOf pdir) i)) : j = i :=
  (hp.priv i hs j _ (layout_eq_some.mpr ⟨_, entry_table.mpr ⟨hi, rfl⟩, rfl⟩)
    (layout_eq_some.mpr ⟨_, entry_table.mpr ⟨hj, rfl⟩, he⟩)).symm

/-- The map after an entry for a new page is written into the table that is there. -/
theorem entry_page (use : Use) (s : UInt32) (hp : PageDir m R pdir slots) (hs : i ∈ slots)
    (hi : isEntryExist (m.phys (frameOf pdir) i) = true) (he : isEntryExist e = true) :
    entry ((m.granted use s 1).setWord (frameOf (m.phys (frameOf pdir) i)) j e) (frameOf pdir) =
      Function.update (entry m (frameOf pdir)) (.page i j) (some e) := by
  have hne := (hp.table_used hi).2
  have hdir : ((m.granted use s 1).setWord (frameOf (m.phys (frameOf pdir) i)) j e).phys
    (frameOf pdir) =
      m.phys (frameOf pdir) := Machine.setWord_phys_of_ne hne.symm
  funext n
  cases n with
  | table k =>
    rw [Function.update_of_ne (by simp)]
    simp only [entry, hdir]
  | page k l =>
    simp only [entry, hdir]
    cases hk : isEntryExist (m.phys (frameOf pdir) k) with
    | false =>
      have hki : k ≠ i := by
        rintro rfl
        rw [hi] at hk
        exact absurd hk (by simp)
      rw [Function.update_of_ne (by simp [hki])]
      simp only [entry, present_eq_none.mpr hk, Option.bind_none]
    | true =>
      simp only [present_eq_some.mpr ⟨hk, rfl⟩, Option.bind_some]
      by_cases hkl : k = i ∧ l = j
      · obtain ⟨rfl, rfl⟩ := hkl
        rw [Function.update_self, Machine.setWord_phys_self]
        exact present_eq_some.mpr ⟨he, rfl⟩
      · rw [Function.update_of_ne (by simpa using hkl)]
        simp only [entry, present_eq_some.mpr ⟨hk, rfl⟩, Option.bind_some]
        congr 1
        by_cases hT : frameOf (m.phys (frameOf pdir) k) = frameOf (m.phys (frameOf pdir) i)
        · obtain rfl := hp.table_inj hs hi hk hT
          have hl : l ≠ j := fun hl => hkl ⟨rfl, hl⟩
          simp only [Machine.setWord, Function.update_self, Function.update_of_ne hl]
          rfl
        · exact congrFun (Machine.setWord_phys_of_ne hT) l

/-- The map after a new table for the page. -/
theorem entry_new (use : Use) (s : UInt32) (hp : PageDir m R pdir slots)
    (hi : isEntryExist (m.phys (frameOf pdir) (dirIndex w)) = false) (ht : frameOf t ∉ inUse m)
    (htype : type.toNat % 2 = 1) :
    entry (m.mapNew (frameOf pdir) (frameOf t) w t s type use) (frameOf pdir) =
      Function.update (Function.update (entry m (frameOf pdir)) (.table (dirIndex w))
        (some (entryWord t type))) (.page (dirIndex w) (tableIndex w))
          (some (entryWord s type)) := by
  have hne : frameOf pdir ≠ frameOf t := fun he => ht (he ▸ hp.used)
  have hdir : ∀ k, (m.mapNew (frameOf pdir) (frameOf t) w t s type use).phys (frameOf pdir) k =
      Function.update (m.phys (frameOf pdir)) (dirIndex w) (entryWord t type) k := by
    intro k
    unfold Machine.mapNew
    rw [Machine.setPage_phys_of_ne hne]
    simp only [Machine.setWord, Machine.granted_phys, Function.update_self]
  have htab : (m.mapNew (frameOf pdir) (frameOf t) w t s type use).phys (frameOf t) =
      Function.update (fun _ => 0) (tableIndex w) (entryWord s type) := Machine.setPage_phys_self
  have hz : isEntryExist 0 = false := rfl
  funext n
  cases n with
  | table k =>
    rw [Function.update_of_ne (by simp)]
    simp only [entry, hdir]
    by_cases hk : k = dirIndex w
    · subst hk
      rw [Function.update_self, Function.update_self]
      exact present_eq_some.mpr ⟨isEntryExist_entryWord htype, rfl⟩
    · rw [Function.update_of_ne hk, Function.update_of_ne (by simpa using hk)]
      rfl
  | page k l =>
    simp only [entry, hdir]
    by_cases hk : k = dirIndex w
    · subst hk
      simp only [Function.update_self, present_eq_some.mpr ⟨isEntryExist_entryWord htype, rfl⟩,
        Option.bind_some, frameOf_entryWord, htab]
      by_cases hl : l = tableIndex w
      · subst hl
        rw [Function.update_self, Function.update_self]
        exact present_eq_some.mpr ⟨isEntryExist_entryWord htype, rfl⟩
      · rw [Function.update_of_ne hl, Function.update_of_ne (by simpa using hl),
          Function.update_of_ne (by simp)]
        simp only [entry, present_eq_none.mpr hi, present_eq_none.mpr hz, Option.bind_none]
    · rw [Function.update_of_ne hk, Function.update_of_ne (by simp [hk]),
        Function.update_of_ne (by simp)]
      simp only [entry]
      cases hp' : isEntryExist (m.phys (frameOf pdir) k) with
      | false => simp only [present_eq_none.mpr hp', Option.bind_none]
      | true =>
        obtain ⟨hu, hd⟩ := hp.table_used hp'
        have hkt : frameOf (m.phys (frameOf pdir) k) ≠ frameOf t := fun he => ht (he ▸ hu)
        simp only [present_eq_some.mpr ⟨hp', rfl⟩, Option.bind_some]
        unfold Machine.mapNew
        rw [Machine.setPage_phys_of_ne hkt, Machine.granted_phys, Machine.setWord_phys_of_ne hd]
        rfl

end PageDir

theorem layout_update {n : Node} (h : entry m' d = Function.update (entry m d) n (some e)) :
    layout m' d = Function.update (layout m d) n (some (frameOf e)) := by
  show Option.map frameOf ∘ entry m' d = _
  rw [h, Function.comp_update]
  rfl

/-- Two new entries. -/
theorem layout_update₂ {n n' : Node} {e' : UInt32}
    (h : entry m' d = Function.update (Function.update (entry m d) n (some e)) n' (some e')) :
    layout m' d = Function.update (Function.update (layout m d) n (some (frameOf e))) n'
      (some (frameOf e')) := by
  show Option.map frameOf ∘ entry m' d = _
  rw [h, Function.comp_update, Function.comp_update]
  rfl

theorem entryWord_type : (entryWord a type).toNat % 4096 = type.toNat % 4096 := by
  rw [entryWord_toNat]
  omega

theorem nodes_eq (w : UInt32) :
    nodes w = {.table (dirIndex w)} ∪ {.page (dirIndex w) (tableIndex w)} :=
  Set.insert_eq _ _

namespace Enabled

/-- The page is there. -/
theorem refl (h : ∀ n ∈ ws, ∃ f, layout m d n = some f) : Enabled use d type ws m m where
  same := rfl
  extends_ := Extends.refl h
  kept _ _ h := h
  typed n e h h' := by
    rw [h] at h'
    exact absurd h' (by simp)
  given n e h h' := by
    rw [h] at h'
    exact absurd h' (by simp)
  stable _ _ _ _ := rfl
  frames _ := Or.inl rfl

/-- **One page after another.** -/
theorem trans (h : Enabled use d type ws m m') (h' : Enabled use d type ws' m' m'') :
    Enabled use d type (ws ∪ ws') m m'' where
  same := by rw [h'.same, h.same]
  extends_ := h.extends_.trans h'.extends_
  kept n e hn := h'.kept n e (h.kept n e hn)
  typed n e hn hn'' := by
    cases hm : entry m' d n with
    | none => exact h'.typed n e hm hn''
    | some x =>
      obtain rfl : x = e := Option.some.inj ((h'.kept n x hm).symm.trans hn'')
      exact h.typed n x hn hm
  given n e hn hn'' := by
    cases hm : entry m' d n with
    | none =>
      obtain ⟨k, hk⟩ := h'.given n e hm hn''
      rw [h.same] at hk
      exact ⟨k, hk⟩
    | some x =>
      obtain rfl : x = e := Option.some.inj ((h'.kept n x hm).symm.trans hn'')
      exact h.given n x hn hm
  stable f hf i hi := by
    have h1 := h.stable f hf i hi
    rw [h'.stable f (h.extends_.grows hf) i (by rw [h1]; exact hi), h1]
  frames f := by
    rcases h'.frames f with hf' | hf' | ⟨i, hi, hf'⟩
    · rcases h.frames f with hf | hf | ⟨i, hi, hf⟩
      · exact Or.inl (hf'.trans hf)
      · exact Or.inr (Or.inl hf)
      · exact Or.inr (Or.inr ⟨i, Or.inl hi, h'.extends_.keeps _ _ hf⟩)
    · exact Or.inr (Or.inl hf')
    · exact Or.inr (Or.inr ⟨i, Or.inr hi, hf'⟩)

end Enabled

namespace PageDir

/-- An entry for a new page in the table that is there. -/
theorem enabled_page (hp : PageDir m R pdir slots) (hs : dirIndex w ∈ slots)
    (htype : type.toNat % 2 = 1) (hi : isEntryExist (m.phys (frameOf pdir) (dirIndex w)) = true)
    (hj : isEntryExist (m.phys (frameOf (m.phys (frameOf pdir) (dirIndex w))) (tableIndex w)) =
    false)
    (ha : m.answers use m.handed.length = s) (hnew : Grant.New ⟨use, s, 1⟩ m.handed) :
    Enabled use (frameOf pdir) type (nodes w) m ((m.granted use s 1).setWord
      (frameOf (m.phys (frameOf pdir) (dirIndex w))) (tableIndex w) (entryWord s type)) := by
  have hent := hp.entry_page use s (j := tableIndex w) hs hi (isEntryExist_entryWord (p := s) htype)
  have hlay := layout_update hent
  rw [frameOf_entryWord] at hlay
  have hnone : entry m (frameOf pdir) (.page (dirIndex w) (tableIndex w)) = none := by
    simp only [entry, present_eq_some.mpr ⟨hi, rfl⟩, Option.bind_some, present_eq_none.mpr hj]
  have hslot : layout m (frameOf pdir) (.table (dirIndex w)) =
      some (frameOf (m.phys (frameOf pdir) (dirIndex w))) :=
    layout_eq_some.mpr ⟨_, entry_table.mpr ⟨hi, rfl⟩, rfl⟩
  have hlnone := layout_eq_none.mpr hnone
  refine ⟨rfl, ?_, ?_, ?_, ?_, ?_, ?_⟩
  · rw [nodes_eq, hlay]
    refine (Extends.refl ?_).trans (Extends.update hlnone (not_inUse_of_new ha hnew (by omega))
      (mem_inUse_granted (by omega)) fun f hf => inUse_granted hf)
    rintro n rfl
    exact ⟨_, hslot⟩
  · intro n e hn
    rw [hent]
    exact update_some hnone hn
  · intro n e hn hn'
    rw [hent] at hn'
    obtain ⟨-, rfl⟩ := eq_of_update hn hn'
    exact entryWord_type
  · intro n e hn hn'
    rw [hent] at hn'
    obtain ⟨rfl, rfl⟩ := eq_of_update hn hn'
    exact ⟨_, (caddrEntry_entryWord hnew.1).trans ha.symm⟩
  · intro f _ i hpres
    by_cases hf : f = frameOf (m.phys (frameOf pdir) (dirIndex w))
    · subst hf
      by_cases hij : i = tableIndex w
      · subst hij
        rw [hj] at hpres
        exact absurd hpres (by simp)
      · simp only [Machine.setWord, Function.update_self, Function.update_of_ne hij]
        rfl
    · exact congrFun (Machine.setWord_phys_of_ne hf) i
  · intro f
    by_cases hf : f = frameOf (m.phys (frameOf pdir) (dirIndex w))
    · refine Or.inr (Or.inr ⟨dirIndex w, Or.inl rfl, ?_⟩)
      rw [hf, hlay]
      exact update_some hlnone hslot
    · exact Or.inl (Machine.setWord_phys_of_ne hf)

/-- A new table with an entry for a new page. -/
theorem enabled_new (hp : PageDir m R pdir slots) (htype : type.toNat % 2 = 1)
    (hi : isEntryExist (m.phys (frameOf pdir) (dirIndex w)) = false)
    (hta : m.answers .pageTable m.handed.length = t)
    (htnew : Grant.New ⟨.pageTable, t, 1⟩ m.handed)
    (hsa : m.answers use (m.handed.length + 1) = s)
    (hsnew : Grant.New ⟨use, s, 1⟩ (⟨.pageTable, t, 1⟩ :: m.handed)) :
    Enabled use (frameOf pdir) type (nodes w) m
      (m.mapNew (frameOf pdir) (frameOf t) w t s type use) := by
  have ht := not_inUse_of_new hta htnew (by omega)
  have hs : frameOf s ∉ inUse (m.granted .pageTable t 1) := not_inUse_of_new hsa hsnew (by omega)
  have hne : frameOf pdir ≠ frameOf t := fun he => ht (he ▸ hp.used)
  have hent := hp.entry_new use s hi ht htype
  have hnone : entry m (frameOf pdir) (.table (dirIndex w)) = none := present_eq_none.mpr hi
  have hnone' : Function.update (entry m (frameOf pdir)) (.table (dirIndex w))
    (some (entryWord t type))
      (.page (dirIndex w) (tableIndex w)) = none := by
    rw [Function.update_of_ne (by simp)]
    simp only [entry, present_eq_none.mpr hi, Option.bind_none]
  have hlay : layout (m.mapNew (frameOf pdir) (frameOf t) w t s type use) (frameOf pdir) =
      Function.update
        (Function.update (layout m (frameOf pdir)) (.table (dirIndex w)) (some (frameOf t)))
        (.page (dirIndex w) (tableIndex w)) (some (frameOf s)) := by
    rw [layout_update₂ hent, frameOf_entryWord, frameOf_entryWord]
  have hlnone := layout_eq_none.mpr hnone
  have hlnone' : Function.update (layout m (frameOf pdir)) (.table (dirIndex w)) (some (frameOf t))
      (.page (dirIndex w) (tableIndex w)) = none := by
    rw [Function.update_of_ne (by simp)]
    refine layout_eq_none.mpr ?_
    simp only [entry, present_eq_none.mpr hi, Option.bind_none]
  -- the new entries, one after the other
  have hcases : ∀ n e, entry m (frameOf pdir) n = none →
      entry (m.mapNew (frameOf pdir) (frameOf t) w t s type use) (frameOf pdir) n = some e →
      n = .table (dirIndex w) ∧ e = entryWord t type ∨
        n = .page (dirIndex w) (tableIndex w) ∧ e = entryWord s type := by
    intro n e hn hn'
    rw [hent] at hn'
    by_cases hnt : n = .table (dirIndex w)
    · subst hnt
      rw [Function.update_of_ne (by simp), Function.update_self] at hn'
      exact Or.inl ⟨rfl, (Option.some.inj hn').symm⟩
    · refine Or.inr (eq_of_update ?_ hn')
      rw [Function.update_of_ne hnt]
      exact hn
  refine ⟨rfl, ?_, ?_, ?_, ?_, ?_, ?_⟩
  · rw [nodes_eq, hlay]
    have hfirst : frameOf t ∈ inUse (m.granted .pageTable t 1) := mem_inUse_granted (by omega)
    refine (Extends.update hlnone ht hfirst fun f hf => inUse_granted hf).trans
      (Extends.update hlnone' hs (mem_inUse_granted (by omega)) fun f hf => inUse_granted hf)
  · intro n e hn
    rw [hent]
    exact update_some hnone' (update_some hnone hn)
  · intro n e hn hn'
    rcases hcases n e hn hn' with ⟨-, rfl⟩ | ⟨-, rfl⟩
    · exact entryWord_type
    · exact entryWord_type
  · intro n e hn hn'
    rcases hcases n e hn hn' with ⟨rfl, rfl⟩ | ⟨rfl, rfl⟩
    · exact ⟨_, (caddrEntry_entryWord htnew.1).trans hta.symm⟩
    · exact ⟨_, (caddrEntry_entryWord hsnew.1).trans hsa.symm⟩
  · intro f hf i hpres
    have hft : f ≠ frameOf t := fun he => ht (he ▸ hf)
    unfold Machine.mapNew
    rw [Machine.setPage_phys_of_ne hft, Machine.granted_phys]
    by_cases hd : f = frameOf pdir
    · subst hd
      have hik : i ≠ dirIndex w := by
        rintro rfl
        rw [hi] at hpres
        exact absurd hpres (by simp)
      simp only [Machine.setWord, Function.update_self, Function.update_of_ne hik]
      rfl
    · rw [Machine.setWord_phys_of_ne hd]
      rfl
  · intro f
    by_cases hft : f = frameOf t
    · refine Or.inr (Or.inr ⟨dirIndex w, Or.inl rfl, ?_⟩)
      rw [hft, hlay]
      exact update_some hlnone' (Function.update_self _ _ _)
    · by_cases hd : f = frameOf pdir
      · exact Or.inr (Or.inl hd)
      · left
        unfold Machine.mapNew
        rw [Machine.setPage_phys_of_ne hft, Machine.granted_phys, Machine.setWord_phys_of_ne hd]
        rfl

end PageDir

/-! ## A call -/

/-- **New tables** in frames that were not in use: the directory stays one, and they are its own. -/
theorem PageDir.grow {ws : Set (Fin 1024)} (hp : PageDir m R pdir slots)
    (he : Extends (inUse m) ws (fun i => layout m (frameOf pdir) (.table i))
    (fun i => layout m' (frameOf pdir) (.table i)) (inUse m'))
    (hkept : ∀ i e, entry m (frameOf pdir) (.table i) = some e →
    entry m' (frameOf pdir) (.table i) = some e)
    (hnew : ∀ i e, entry m (frameOf pdir) (.table i) = none → entry m' (frameOf pdir) (.table i) =
    some e → Reached R (caddrEntry e)) :
    PageDir m' R pdir slots := by
  refine ⟨hp.reached, he.grows hp.used, ?_, ?_, ?_⟩
  · intro i e hn
    cases hm : entry m (frameOf pdir) (.table i) with
    | some x =>
      obtain rfl : x = e := Option.some.inj ((hkept i x hm).symm.trans hn)
      obtain ⟨h1, h2⟩ := hp.table i x hm
      exact ⟨he.grows h1, h2⟩
    | none =>
      obtain ⟨h1, h2⟩ := he.fresh i _ (layout_eq_none.mpr hm) (layout_eq_some.mpr ⟨e, hn, rfl⟩)
      exact ⟨h2, fun hf => h1 (hf ▸ hp.used)⟩
  · intro i hi e hn
    cases hm : entry m (frameOf pdir) (.table i) with
    | some x =>
      obtain rfl : x = e := Option.some.inj ((hkept i x hm).symm.trans hn)
      exact hp.visible i hi x hm
    | none => exact hnew i e hm hn
  · -- an old table is in use, a new one is not
    have hold : ∀ k f, layout m (frameOf pdir) (.table k) = some f → f ∈ inUse m := by
      intro k f hf
      obtain ⟨e, he', rfl⟩ := layout_eq_some.mp hf
      exact (hp.table k e he').1
    intro i hi j f hfi hfj
    rcases he.cases hfi with hmi | hmi
    · rcases he.cases hfj with hmj | hmj
      · exact hp.priv i hi j f hmi hmj
      · exact absurd (hold i f hmi) (he.fresh j f hmj hfj).1
    · rcases he.cases hfj with hmj | hmj
      · exact absurd (hold j f hmj) (he.fresh i f hmi hfi).1
      · exact he.inj i j f hmi hmj hfi hfj

namespace Enabled

/-- The kernel's addresses stay. -/
theorem direct (he : Enabled use d type ws m m') (hd : Direct m K R) : Direct m' K R :=
  hd.mono (by rw [he.same]) he.extends_.grows he.stable

theorem gives {u : Use} (he : Enabled use d type ws m m') (hg : Gives m u R) : Gives m' u R := by
  rw [he.same]
  exact hg

/-- The kernel addresses a new table directly. -/
theorem reached (he : Enabled use d type ws m m') (hg : Gives m .pageTable R)
    (h : ∀ x, entry m d (.table i) = some x → Reached R (caddrEntry x))
    (hn : entry m' d (.table i) = some e) : Reached R (caddrEntry e) := by
  cases hm : entry m d (.table i) with
  | some x =>
    obtain rfl : x = e := Option.some.inj ((he.kept _ x hm).symm.trans hn)
    exact h x hm
  | none =>
    obtain ⟨k, hk⟩ := he.given _ e hm hn
    exact ⟨aligned_caddrEntry e, hk ▸ hg k⟩

/-- The directory stays one, and new tables are its own. -/
theorem pageDir (he : Enabled use (frameOf pdir) type ws m m') (hp : PageDir m R pdir slots)
    (hg : Gives m .pageTable R) : PageDir m' R pdir slots := by
  refine hp.grow (he.extends_.comp fun _ _ => Node.table.inj) (fun i => he.kept _)
    fun i e hm hn => ?_
  obtain ⟨k, hk⟩ := he.given _ e hm hn
  exact ⟨aligned_caddrEntry e, hk ▸ hg k⟩

end Enabled

/-- Without a new chunk `allocChunk` panics. -/
theorem allocChunk_panics (h : ¬ Grant.New ⟨use, m.answers use m.handed.length, 1⟩ m.handed) :
    m.allocChunk use 1 = .error (.panic "PFAallocator::cannot allocate segment") := by
  unfold Machine.allocChunk
  simp only [h, if_false]

/-- A turn that gets a table and then no page. -/
theorem Machine.Holds.enablePage_panics {S : Set UInt32} {g : UInt32 → UInt32} {fd ft : Nat}
    (hd : Machine.Holds S g pdir fd) (hr : Machine.Reaches m K S g)
    (heD : isEntryExist (m.phys fd (dirIndex w)) = false) (hKd : (fd, dirIndex w) ∉ K)
    (ht : m.answers .pageTable m.handed.length = t) (htnew : Grant.New ⟨.pageTable, t, 1⟩ m.handed)
    (hh : Machine.Holds S g t ft) (hKt : ∀ j, (ft, j) ∉ K)
    (hs : ¬ Grant.New ⟨use, m.answers use (m.handed.length + 1), 1⟩
    (⟨.pageTable, t, 1⟩ :: m.handed)) :
    m.enablePage w pdir type use = .error (.panic "PFAallocator::cannot allocate segment") := by
  have hr₁ : Machine.Reaches
    (((m.granted .pageTable t 1).setWord fd (dirIndex w) (entryWord t type)).setPage
      ft fun _ => 0) K S g := by
    have h1 : Machine.Reaches (m.granted .pageTable t 1) K S g := hr.of_agree ⟨rfl, fun _ _ => rfl⟩
    exact (h1.of_agree (Machine.agree_setWord hKd)).of_agree (Machine.agree_setPage hKt)
  have hz : isEntryExist 0 = false := rfl
  unfold Machine.enablePage
  rw [hd.tableOf_absent hr (dirIndex w).isLt heD ht htnew hh hKd hKt, Res.ok_bind]
  simp only [Fin.eta]
  rw [hh.load hr₁ (tableIndex w).isLt, Res.ok_bind, Machine.setPage_phys_self]
  simp only [hz, Bool.not_false, if_true]
  rw [allocChunk_panics hs, Res.error_bind]

/-- **One turn of `enableSpace`** enables its page, or the allocator has no chunk left. -/
theorem PageDir.enablePage (hp : PageDir m R pdir slots) (hd : Direct m K R)
    (hs : dirIndex w ∈ slots) (hg : Gives m .pageTable R) (htype : type.toNat % 2 = 1) :
    m.enablePage w pdir type use = .error (.panic "PFAallocator::cannot allocate segment") ∨
      ∃ m', m.enablePage w pdir type use = .ok m' ∧
        Enabled use (frameOf pdir) type (nodes w) m m' := by
  have hdir := hp.reached.holds
  cases hi : isEntryExist (m.phys (frameOf pdir) (dirIndex w)) with
  | true =>
    have htab := hp.holds_table hs hi
    cases hj :
        isEntryExist (m.phys (frameOf (m.phys (frameOf pdir) (dirIndex w))) (tableIndex w)) with
    | true =>
      refine Or.inr ⟨m, hdir.enablePage_mapped hd.reaches hi htab hj, Enabled.refl ?_⟩
      rintro n (rfl | rfl)
      · exact ⟨_, layout_eq_some.mpr ⟨_, entry_table.mpr ⟨hi, rfl⟩, rfl⟩⟩
      · exact ⟨_, layout_eq_some.mpr ⟨_, OwnOS.VarMem.entry_page.mpr ⟨hi, hj, rfl⟩, rfl⟩⟩
    | false =>
      by_cases hnew : Grant.New ⟨use, m.answers use m.handed.length, 1⟩ m.handed
      · exact Or.inr
          ⟨_, hdir.enablePage_page hd.reaches hi htab hj (hd.not_mem_of_absent hj) rfl hnew,
          hp.enabled_page hs htype hi hj rfl hnew⟩
      · left
        unfold Machine.enablePage
        rw [hdir.tableOf_present hd.reaches (dirIndex w).isLt hi, Res.ok_bind]
        simp only [Fin.eta]
        rw [htab.load hd.reaches (tableIndex w).isLt, Res.ok_bind]
        simp only [Fin.eta, hj, Bool.not_false, if_true, allocChunk_panics hnew, Res.error_bind]
  | false =>
    by_cases htnew : Grant.New ⟨.pageTable, m.answers .pageTable m.handed.length, 1⟩ m.handed
    · have hfresh := not_inUse_of_new rfl htnew (by omega)
      have htab := (Reached.mk htnew.1 (hg _)).holds
      have hKd := hd.not_mem_of_absent hi
      have hKt := fun j => hd.not_mem_of_new hfresh j
      by_cases hsnew : Grant.New ⟨use, m.answers use (m.handed.length + 1), 1⟩
          (⟨.pageTable, m.answers .pageTable m.handed.length, 1⟩ :: m.handed)
      · exact Or.inr ⟨_, hdir.enablePage_new hd.reaches hi hKd rfl htnew htab hKt rfl hsnew,
          hp.enabled_new htype hi rfl htnew rfl hsnew⟩
      · exact Or.inl (hdir.enablePage_panics hd.reaches hi hKd rfl htnew htab hKt hsnew)
    · left
      unfold Machine.enablePage Machine.tableOf
      rw [hdir.load hd.reaches (dirIndex w).isLt, Res.ok_bind]
      simp only [Fin.eta, hi, Bool.not_false, if_true, allocChunk_panics htnew, Res.error_bind]

theorem nodesOf_append (ws ws' : List UInt32) : nodesOf (ws ++ ws') = nodesOf ws ∪ nodesOf ws' := by
  ext n
  simp only [nodesOf, List.mem_append, or_and_right, exists_or, Set.mem_ofPred_eq, Set.mem_union]

theorem nodesOf_singleton (w : UInt32) : nodesOf [w] = nodes w := by
  ext n
  simp only [nodesOf, List.mem_singleton, exists_eq_left, Set.mem_ofPred_eq]

/-- **`enableSpace`** enables the pages of its range, or the allocator has no chunk left. -/
theorem PageDir.enableSpace {v size : UInt32} (hp : PageDir m R pdir slots) (hd : Direct m K R)
    (hs : ∀ w ∈ rangePages v size, dirIndex w ∈ slots) (hg : Gives m .pageTable R)
    (htype : type.toNat % 2 = 1) :
    m.enableSpace v size pdir type use = .error (.panic "PFAallocator::cannot allocate segment") ∨
      ∃ m', m.enableSpace v size pdir type use = .ok m' ∧
        Enabled use (frameOf pdir) type (nodesOf (rangePages v size)) m m' := by
  rw [Machine.enableSpace_eq]
  refine loop_or (I := fun n s => Enabled use (frameOf pdir) type
    (nodesOf ((List.range n).map (pageAt v))) m s) (Enabled.refl ?_) ?_
  · rintro n ⟨w, hw, -⟩
    exact absurd hw (by simp)
  · intro k hk s he
    have hw : pageAt v k ∈ rangePages v size := List.mem_map.mpr ⟨k, List.mem_range.mpr hk, rfl⟩
    rcases (he.pageDir hp hg).enablePage (he.direct hd) (hs _ hw) (he.gives hg) htype with
      herr | ⟨s', hr, he'⟩
    · exact Or.inl herr
    · refine Or.inr ⟨s', hr, ?_⟩
      rw [List.range_succ, List.map_append, nodesOf_append, List.map_singleton, nodesOf_singleton]
      exact he.trans he'

end OwnOS.VarMem
