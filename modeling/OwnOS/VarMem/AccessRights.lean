import OwnOS.VarMem.Fork
import OwnOS.VarMem.NewDir

/-!
# The access a page is enabled with

A page is open to the user when both of its entries say so, and the directory entry is written once
for 1024 pages, by the first call that touches its 4 MiB. So after some calls on a new directory
every place has the type of the first call that touches it (`Typed`), and a page for the user is
open to the user iff the first call in its 4 MiB is one for the user, too.

* `Typed.enableCalls`: the types after a list of calls.
* `access_iff`: when all pages have the access they were enabled with.
* `access_fails`: a page for the user in the 4 MiB of a page for the system.
-/

namespace OwnOS.VarMem

open Lib Lib.Word Machine

/-- The R/W bit. -/
def isWritable (entry : UInt32) : Bool := entry &&& 0x02 = 0x02

/-- A call of `enableSpace` with `userpage` or `systempage`. -/
structure Call where
  virAddr : UInt32
  size : UInt32
  user : Bool
  deriving DecidableEq

namespace Call

/-- The type of the call. -/
def type (c : Call) : UInt32 := if c.user then userpage else systempage

/-- The page of `a` has a byte of the call's range. -/
def Covers (c : Call) (a : UInt32) : Prop := VarMem.Covers c.virAddr c.size a

/-- The call enables a page at the place. -/
def touches (c : Call) (n : Node) : Bool :=
  (rangePages c.virAddr c.size).any fun w =>
    n = .table (dirIndex w) ∨ n = .page (dirIndex w) (tableIndex w)

end Call

/-- A list of calls on one directory. -/
def Machine.enableCalls (m : Machine) (pdir : UInt32) (use : Use) (cs : List Call) : Res Machine :=
  cs.foldlM (fun m c => m.enableSpace c.virAddr c.size pdir c.type use) m

/-- The first call that touches a place. -/
def first (cs : List Call) (n : Node) : Option Call := cs.find? fun c => c.touches n

/-- The calls are for ranges outside the kernel's slots, and no two for the same page. -/
structure WellPlaced (m : Machine) (cs : List Call) : Prop where
  range : ∀ c ∈ cs, c.virAddr.toNat + c.size.toNat ≤ 4294967296
  outside : ∀ c ∈ cs, ∀ a, c.Covers a → ¬ KernelSlot m a
  disjoint : cs.Pairwise fun c c' => ∀ a, c.Covers a → ¬ c'.Covers a

/-- The page of `a` is present and open to the user, for reading and writing. -/
def UserPage (m : Machine) (pdir a : UInt32) : Prop :=
  m.userMapped pdir a = true ∧ isWritable (m.phys (frameOf pdir) (dirIndex a)) = true ∧
    isWritable (m.phys (frameOf (m.phys (frameOf pdir) (dirIndex a))) (tableIndex a)) = true

/-- The page of `a` is present and not open to the user. -/
def SystemPage (m : Machine) (pdir a : UInt32) : Prop :=
  Owned.Mapped m (frameOf pdir) a ∧ m.userMapped pdir a = false

/-- **All pages have the access they were enabled with.** -/
def Granted (m : Machine) (pdir : UInt32) (cs : List Call) : Prop :=
  ∀ c ∈ cs, ∀ a, c.Covers a → if c.user then UserPage m pdir a else SystemPage m pdir a

/-- In the 4 MiB of every page for the user the first call is one for the user. -/
def UserFirst (cs : List Call) : Prop :=
  ∀ c ∈ cs, c.user = true → ∀ a, c.Covers a →
    ∃ c', first cs (.table (dirIndex a)) = some c' ∧ c'.user = true

/-- The type bits of the entry at a place. -/
def typeAt (m : Machine) (d : Nat) (n : Node) : Option Nat := (entry m d n).map (·.toNat % 4096)

/-- Outside the kernel's slots every place has the type of the first call that touches it. -/
def Typed (m : Machine) (d : Nat) (cs : List Call) : Prop :=
  ∀ n : Node, n.slot ∈ freeSlots m → typeAt m d n = (first cs n).map (·.type.toNat % 4096)

variable {m m₀ m₁ m' : Machine} {K : Set (Nat × Fin 1024)} {R : Set UInt32} {pdir type a e : UInt32}
  {d : Nat} {use : Use} {c : Call} {cs cs' : List Call} {n : Node}

theorem Call.touches_iff : c.touches n = true ↔ n ∈ nodesOf (rangePages c.virAddr c.size) := by
  simp [touches, nodesOf, nodes]

theorem first_append :
    first (cs ++ [c]) n = (first cs n).or (if c.touches n then some c else none) := by
  unfold first
  rw [List.find?_append, List.find?_singleton]

/-- **One call** gives its type to the places that have none. -/
theorem Typed.enabled (h : Typed m d cs)
    (he : Enabled use d c.type (nodesOf (rangePages c.virAddr c.size)) m m') :
    Typed m' d (cs ++ [c]) := by
  intro n hn
  have hslots : freeSlots m' = freeSlots m := by rw [he.same]; rfl
  have hold := h n (hslots ▸ hn)
  rw [first_append]
  unfold typeAt at hold ⊢
  cases hm : entry m d n with
  | some e =>
    rw [hm, Option.map_some] at hold
    obtain ⟨c₀, hc₀, ht⟩ := Option.map_eq_some_iff.mp hold.symm
    rw [he.kept n e hm, hc₀, Option.some_or, Option.map_some, Option.map_some, ht]
  | none =>
    rw [hm, Option.map_none] at hold
    rw [Option.map_eq_none_iff.mp hold.symm, Option.none_or]
    by_cases ht : c.touches n = true
    · obtain ⟨f, hf⟩ := he.extends_.defined n (Call.touches_iff.mp ht)
      obtain ⟨e, hent, -⟩ := layout_eq_some.mp hf
      rw [if_pos ht, hent, Option.map_some, Option.map_some, he.typed n e hm hent]
    · rw [if_neg ht, Option.map_none, Option.map_eq_none_iff]
      refine Option.eq_none_iff_forall_ne_some.mpr fun e hent => ht (Call.touches_iff.mpr ?_)
      exact he.extends_.only n _ (layout_eq_none.mpr hm) (layout_eq_some.mpr ⟨e, hent, rfl⟩)

theorem Call.type_odd (c : Call) : c.type.toNat % 2 = 1 := by
  unfold Call.type
  cases c.user <;> rfl

/-- **The types after a list of calls**, unless the allocator has no chunk left. -/
theorem Typed.enableCalls (hd : Direct m K R) (hp : PageDir m R pdir (freeSlots m))
    (hg : Gives m .pageTable R) (ht : Typed m (frameOf pdir) cs)
    (hcs : ∀ c ∈ cs', ∀ w ∈ rangePages c.virAddr c.size, dirIndex w ∈ freeSlots m) :
    m.enableCalls pdir use cs' = .error (.panic "PFAallocator::cannot allocate segment") ∨
      ∃ m', m.enableCalls pdir use cs' = .ok m' ∧ freeSlots m' = freeSlots m ∧
        Typed m' (frameOf pdir) (cs ++ cs') := by
  induction cs' generalizing m cs with
  | nil =>
    rw [List.append_nil]
    exact Or.inr ⟨m, rfl, rfl, ht⟩
  | cons c cs' ih =>
    unfold Machine.enableCalls
    rw [List.foldlM_cons]
    rcases hp.enableSpace hd (hcs c List.mem_cons_self) hg c.type_odd with herr | ⟨m₁, hr, he⟩
    · left
      rw [herr, Res.error_bind]
    · rw [hr, Res.ok_bind]
      have hslots : freeSlots m₁ = freeSlots m := by rw [he.same]; rfl
      have ht₁ := ht.enabled he
      have hp₁ := he.pageDir hp hg
      rw [← hslots] at hp₁
      rcases ih (he.direct hd) hp₁ (he.gives hg) ht₁ fun c' hc' w hw => by
        rw [hslots]
        exact hcs c' (List.mem_cons_of_mem _ hc') w hw with herr | ⟨m', hr', hs', ht'⟩
      · exact Or.inl herr
      · rw [List.append_assoc, List.singleton_append] at ht'
        exact Or.inr ⟨m', hr', hs'.trans hslots, ht'⟩

/-! ## What the types say -/

theorem isWritable_iff : isWritable e = true ↔ e.toNat / 2 % 2 = 1 := by
  have hm : (e &&& 0x02).toNat = e.toNat / 2 % 2 * 2 := by
    have h2 : (0x02 : UInt32).toNat = 2 ^ 1 := rfl
    rw [UInt32.toNat_and, h2, Nat.and_two_pow]
    have hb : e.toNat.testBit 1 = decide (e.toNat / 2 ^ 1 % 2 = 1) :=
      Nat.testBit_eq_decide_div_mod_eq
    rw [hb]
    rcases Nat.mod_two_eq_zero_or_one (e.toNat / 2) with h | h <;> simp [h]
  have h2 : (0x02 : UInt32).toNat = 2 := rfl
  unfold isWritable
  rw [decide_eq_true_iff, ← UInt32.toNat_inj, hm, h2]
  omega

/-- An entry of the call's type. -/
theorem Call.bits (h : e.toNat % 4096 = c.type.toNat % 4096) :
    isUser e = c.user ∧ isWritable e = true := by
  have hs : systempage.toNat = 0x13 := rfl
  have hu : userpage.toNat = 0x17 := rfl
  rw [Bool.eq_iff_iff, isUser_iff, isWritable_iff]
  unfold Call.type at h
  cases hc : c.user with
  | false =>
    rw [hc, if_neg (by simp), hs] at h
    simp only [Bool.false_eq_true, iff_false]
    omega
  | true =>
    rw [hc, if_pos rfl, hu] at h
    simp only [iff_true]
    omega

/-- The access to a page, from the types at its two places. -/
theorem access_of_types {c₀ : Call}
    (hD : typeAt m (frameOf pdir) (.table (dirIndex a)) = some (c₀.type.toNat % 4096))
    (hT : typeAt m (frameOf pdir) (.page (dirIndex a) (tableIndex a)) =
    some (c.type.toNat % 4096)) :
    (if c.user then UserPage m pdir a else SystemPage m pdir a) ↔
    (c.user = true → c₀.user = true) := by
  obtain ⟨eD, hD, hDt⟩ := Option.map_eq_some_iff.mp hD
  obtain ⟨eT, hT, hTt⟩ := Option.map_eq_some_iff.mp hT
  obtain ⟨h1, rfl⟩ := entry_table.mp hD
  obtain ⟨-, h2, rfl⟩ := entry_page.mp hT
  obtain ⟨huD, hwD⟩ := Call.bits hDt
  obtain ⟨huT, hwT⟩ := Call.bits hTt
  have hmap : m.userMapped pdir a = (c₀.user && c.user) := by
    unfold userMapped
    simp only [h1, huD, h2, huT, Bool.true_and, Bool.and_true]
  cases hc : c.user with
  | true =>
    rw [hc] at hmap
    simp only [if_true, UserPage, hmap, hwD, hwT, Bool.and_true, and_true, true_imp_iff]
  | false =>
    rw [hc] at hmap
    simp only [Bool.false_eq_true, if_false, SystemPage, hmap, Bool.and_false,
      and_true, false_imp_iff, iff_true]
    exact ⟨h1, h2⟩

namespace WellPlaced

/-- The range of a call is not the whole address space. -/
theorem not_all (h : WellPlaced m cs) (hc : c ∈ cs) :
    (c.virAddr.toNat + c.size.toNat + 4095) / 4096 - c.virAddr.toNat / 4096 < 1048576 := by
  by_contra hall
  have hr := h.range c hc
  have hv : (0xe0000000 : UInt32).toNat = 0xe0000000 := rfl
  -- it would have the VRAM
  refine h.outside c hc 0xe0000000 ⟨?_, ?_⟩ (Or.inr rfl)
  · rw [hv]
    omega
  · rw [hv]
    omega

theorem touches_page (h : WellPlaced m cs) (hc : c ∈ cs) :
    c.touches (.page (dirIndex a) (tableIndex a)) = true ↔ c.Covers a :=
  Call.touches_iff.trans (page_mem_nodesOf.trans (mem_rangePages (h.range c hc) (h.not_all hc)))

/-- A call is the first, and only one, for its pages. -/
theorem first_page (h : WellPlaced m cs) (hc : c ∈ cs) (ha : c.Covers a) :
    first cs (.page (dirIndex a) (tableIndex a)) = some c := by
  cases hf : first cs (.page (dirIndex a) (tableIndex a)) with
  | none =>
    exact absurd ((h.touches_page hc).mpr ha) (List.find?_eq_none.mp hf c hc)
  | some c' =>
    have hc' : c' ∈ cs := List.mem_of_find?_eq_some hf
    have ht := List.find?_some hf
    have ha' := (h.touches_page hc').mp ht
    have : Std.Symm fun x y : Call => ∀ a, x.Covers a → ¬ y.Covers a :=
      ⟨fun x y hxy a hy hx => hxy a hx hy⟩
    by_contra hne
    have hne' : c' ≠ c := by
      rintro rfl
      exact hne rfl
    exact h.disjoint.forall hc' hc hne' a ha' ha

/-- The pages of the calls are outside the kernel's slots. -/
theorem pages (h : WellPlaced m cs) (hc : c ∈ cs) {w : UInt32}
    (hw : w ∈ rangePages c.virAddr c.size) :
    dirIndex w ∈ freeSlots m :=
  h.outside c hc w ((mem_rangePages (h.range c hc) (h.not_all hc)).mp ⟨w, hw, rfl, rfl⟩)

end WellPlaced

/-- **The access of the pages** after well-placed calls. -/
theorem Typed.granted_iff (ht : Typed m' (frameOf pdir) cs) (hs : freeSlots m' = freeSlots m)
    (h : WellPlaced m cs) : Granted m' pdir cs ↔ UserFirst cs := by
  -- both levels of a page, by the first calls that touch them
  have hpage : ∀ c ∈ cs, ∀ a, c.Covers a → ∃ c₀, first cs (.table (dirIndex a)) = some c₀ ∧
      ((if c.user then UserPage m' pdir a else SystemPage m' pdir a) ↔
        (c.user = true → c₀.user = true)) := by
    intro c hc a ha
    have hfree : dirIndex a ∈ freeSlots m' := hs ▸ h.outside c hc a ha
    have hT := ht (.page (dirIndex a) (tableIndex a)) hfree
    have hD := ht (.table (dirIndex a)) hfree
    rw [h.first_page hc ha] at hT
    cases hf : first cs (.table (dirIndex a)) with
    | none =>
      refine absurd ?_ (List.find?_eq_none.mp hf c hc)
      obtain ⟨w, hw, hwa⟩ := (mem_rangePages (h.range c hc) (h.not_all hc)).mpr ha
      exact Call.touches_iff.mpr ⟨w, hw, Or.inl (congrArg Node.table hwa.1)⟩
    | some c₀ =>
      rw [hf] at hD
      exact ⟨c₀, rfl, access_of_types hD hT⟩
  constructor
  · intro hg c hc hu a ha
    obtain ⟨c₀, hf, hiff⟩ := hpage c hc a ha
    exact ⟨c₀, hf, hiff.mp (hg c hc a ha) hu⟩
  · intro hu c hc a ha
    obtain ⟨c₀, hf, hiff⟩ := hpage c hc a ha
    refine hiff.mpr fun huser => ?_
    obtain ⟨c', hf', hu'⟩ := hu c hc huser a ha
    rw [hf] at hf'
    obtain rfl := Option.some.inj hf'
    exact hu'

/-- The types after well-placed calls on a new directory. -/
theorem KernelReady.typed (h : KernelReady m₀ K R) (hpd : Reached R pdir)
    (hg : Gives m₀ .pageTable R) (ha : m₀.allocChunk .pageDir 1 = .ok (m₁, pdir))
    (hc : m₁.copyKernelDir pdir = .ok m) (hcs : WellPlaced m cs) :
    m.enableCalls pdir use cs = .error (.panic "PFAallocator::cannot allocate segment") ∨
      ∃ m', m.enableCalls pdir use cs = .ok m' ∧ freeSlots m' = freeSlots m ∧
        Typed m' (frameOf pdir) cs := by
  obtain ⟨hnew, hadd⟩ := h.newDir hpd ha hc
  have hg' : Gives m .pageTable R := by
    rw [hadd.same]
    exact hg
  have hempty : Typed m (frameOf pdir) [] := by
    intro n hn
    unfold typeAt
    rw [hnew.empty n hn]
    rfl
  exact hempty.enableCalls hnew.direct hnew.dir hg' fun c hc w hw => hcs.pages hc hw

/-- **Pages get the access they were enabled with** iff in the 4 MiB of every page for the user the
first call is one for the user. -/
theorem access_iff (h : KernelReady m₀ K R) (hpd : Reached R pdir) (hg : Gives m₀ .pageTable R)
    (ha : m₀.allocChunk .pageDir 1 = .ok (m₁, pdir)) (hc : m₁.copyKernelDir pdir = .ok m)
    (hcs : WellPlaced m cs) :
    m.enableCalls pdir use cs = .error (.panic "PFAallocator::cannot allocate segment") ∨
      ∃ m', m.enableCalls pdir use cs = .ok m' ∧ (Granted m' pdir cs ↔ UserFirst cs) := by
  rcases h.typed hpd hg ha hc hcs with herr | ⟨m', hr, hs, ht⟩
  · exact Or.inl herr
  · exact Or.inr ⟨m', hr, ht.granted_iff hs hcs⟩

/-! ## Two orders of two calls -/

/-- Calls return while the allocator has chunks. -/
theorem Bump.enableCalls {b : UInt32} {role : Roles} (hb : Bump m) (h : Owned m b role)
    (hlen : m.handed.length + (cs.map fun c => 2 * pageNum c.virAddr c.size).sum ≤ 1023)
    (ha : Aligned pdir) (hd : role (frameOf pdir) = some .dir) (hu : use = .data ∨ use = .copied) :
    ∃ m', m.enableCalls pdir use cs = .ok m' := by
  induction cs generalizing m role with
  | nil => exact ⟨m, rfl⟩
  | cons c cs ih =>
    rw [List.map_cons, List.sum_cons] at hlen
    obtain ⟨m₁, h₁, hb₁, hl₁, role₁, ho₁, hd₁⟩ := hb.enableSpace c.virAddr c.size
      h (by omega) ha hd hu
    obtain ⟨m', hm'⟩ := ih hb₁ ho₁ (by omega) hd₁
    refine ⟨m', ?_⟩
    unfold Machine.enableCalls
    rw [List.foldlM_cons, h₁, Res.ok_bind]
    exact hm'

/-- `initPaging` and a new directory. -/
theorem bumpMachine_newDir : ∃ m₁ m₂ pdir m b, bumpMachine.initPaging = .ok m₁ ∧
    m₁.allocChunk .pageDir 1 = .ok (m₂, pdir) ∧ m₂.copyKernelDir pdir = .ok m ∧
    Owned m₁ b (Owned.bootRoles m₁ b) ∧ Reached low pdir ∧ Gives m₁ .pageTable low ∧
    m.nrValidPages = 1 ∧
    ∀ cs : List Call, (cs.map fun c => 2 * pageNum c.virAddr c.size).sum ≤ 1000 →
      ∃ m', m.enableCalls pdir .data cs = .ok m' := by
  obtain ⟨m₁, b, h₁, hs, hb, hlen, -, hn⟩ := bumpMachine_boot
  have hreached : ∀ k, Reached low (bumpChunk k) := by
    intro k
    have ha : Aligned (bumpChunk k) := by
      unfold Aligned
      rw [bumpChunk_toNat]
      omega
    have hf : frameOf (bumpChunk k) < 1024 := by
      rw [frameOf_bumpChunk]
      omega
    exact ⟨ha, (Owned.holds_frame ha hf).mem⟩
  have hg : Gives m₁ .pageTable low := by
    intro k i hi
    rw [hb.answers]
    exact (hreached k).mem i hi
  obtain ⟨m₂, pdir, m, ha, hc, hb', hl'⟩ := hb.newDir hs.owned (by omega)
  obtain ⟨-, hal, -, ho, hsame⟩ := hs.owned.newDir ha hc
  have hpd : Reached low pdir := by
    obtain ⟨hp, -⟩ := hs.owned.newDir_eq ha hc
    rw [← hp, hb.answers]
    exact hreached _
  refine ⟨m₁, m₂, pdir, m, b, h₁, ha, hc, hs.owned, hpd, hg, by rw [hsame]; exact hn,
    fun cs hcs => ?_⟩
  exact hb'.enableCalls ho (by omega) hal Roles.assign_self (Or.inl rfl)

/-- Two pages of the 4 MiB at `0x40000000`. -/
def twoPages (user : Bool) : List Call := [⟨0x40000000, 0x1000, user⟩, ⟨0x40001000, 0x1000, !user⟩]

theorem twoPages_wellPlaced (hn : m.nrValidPages = 1) (user : Bool) :
    WellPlaced m (twoPages user) := by
  have h1 : (0x40000000 : UInt32).toNat = 0x40000000 := rfl
  have h2 : (0x40001000 : UInt32).toNat = 0x40001000 := rfl
  have h3 : (0x1000 : UInt32).toNat = 0x1000 := rfl
  have hcall : ∀ c ∈ twoPages user, c.size = 0x1000 ∧
      (c.virAddr = 0x40000000 ∨ c.virAddr = 0x40001000) := by
    intro c hc
    rcases List.mem_cons.mp hc with rfl | hc
    · exact ⟨rfl, Or.inl rfl⟩
    · rcases List.mem_singleton.mp hc with rfl
      exact ⟨rfl, Or.inr rfl⟩
  refine ⟨fun c hc => ?_, fun c hc a ha => ?_, ?_⟩
  · obtain ⟨hs, hv | hv⟩ := hcall c hc
    · rw [hs, hv]
      decide
    · rw [hs, hv]
      decide
  · obtain ⟨hs, hv⟩ := hcall c hc
    unfold Call.Covers Covers at ha
    unfold KernelSlot dirIndex
    rw [hs, h3] at ha
    rw [hn]
    simp only
    rcases hv with hv | hv
    · rw [hv, h1] at ha
      omega
    · rw [hv, h2] at ha
      omega
  · refine List.pairwise_pair.mpr fun a ha ha' => ?_
    unfold Call.Covers Covers at ha ha'
    simp only [h1, h2, h3] at ha ha'
    omega

theorem twoPages_slot {user : Bool} (hc : c ∈ twoPages user) (ha : c.Covers a) :
    dirIndex a = 0x100 := by
  have h1 : (0x40000000 : UInt32).toNat = 0x40000000 := rfl
  have h2 : (0x40001000 : UInt32).toNat = 0x40001000 := rfl
  have h3 : (0x1000 : UInt32).toNat = 0x1000 := rfl
  have h4 : (0x100 : Fin 1024).val = 0x100 := rfl
  refine Fin.ext ?_
  unfold Call.Covers Covers at ha
  rw [h4]
  unfold dirIndex
  simp only
  rcases List.mem_cons.mp hc with rfl | hc
  · simp only [h1, h3] at ha
    omega
  · rcases List.mem_singleton.mp hc with rfl
    simp only [h2, h3] at ha
    omega

/-- A page for the user, and then one for the system. -/
theorem access_userFirst : ∃ m₁ m₂ pdir m m', bumpMachine.initPaging = .ok m₁ ∧
    m₁.allocChunk .pageDir 1 = .ok (m₂, pdir) ∧ m₂.copyKernelDir pdir = .ok m ∧
    m.enableCalls pdir .data (twoPages true) = .ok m' ∧ Granted m' pdir (twoPages true) := by
  obtain ⟨m₁, m₂, pdir, m, b, h₁, ha, hc, ho, hpd, hg, hn, hcalls⟩ := bumpMachine_newDir
  obtain ⟨m', hm'⟩ := hcalls (twoPages true) (by decide)
  obtain ⟨c, -, hready⟩ := ho.kernelReady
  refine ⟨m₁, m₂, pdir, m, m', h₁, ha, hc, hm', ?_⟩
  have h : _ ∨ ∃ m', m.enableCalls pdir .data (twoPages true) = .ok m' ∧ _ :=
    access_iff hready hpd hg ha hc (twoPages_wellPlaced hn true)
  rcases h with he | ⟨m'', hm'', hiff⟩
  · rw [hm'] at he
    exact absurd he (by simp)
  · obtain rfl := Except.ok.inj (hm'.symm.trans hm'')
    refine hiff.mpr fun c hc hu a hcov => ⟨⟨0x40000000, 0x1000, true⟩, ?_, rfl⟩
    have hfirst : first (twoPages true) (.table 0x100) =
      some ⟨0x40000000, 0x1000, true⟩ := by decide
    rw [twoPages_slot hc hcov, hfirst]

/-- **A page for the system, and then one for the user**: the user cannot use it. -/
theorem access_fails : ∃ m₁ m₂ pdir m m', bumpMachine.initPaging = .ok m₁ ∧
    m₁.allocChunk .pageDir 1 = .ok (m₂, pdir) ∧ m₂.copyKernelDir pdir = .ok m ∧
    WellPlaced m (twoPages false) ∧ m.enableCalls pdir .data (twoPages false) = .ok m' ∧
    ¬ UserPage m' pdir 0x40001000 := by
  obtain ⟨m₁, m₂, pdir, m, b, h₁, ha, hc, ho, hpd, hg, hn, hcalls⟩ := bumpMachine_newDir
  obtain ⟨m', hm'⟩ := hcalls (twoPages false) (by decide)
  obtain ⟨c, -, hready⟩ := ho.kernelReady
  have hw := twoPages_wellPlaced hn false
  refine ⟨m₁, m₂, pdir, m, m', h₁, ha, hc, hw, hm', ?_⟩
  rcases hready.typed hpd hg ha hc hw with he | ⟨m'', hm'', hs, ht⟩
  · rw [hm'] at he
    exact absurd he (by simp)
  · obtain rfl := Except.ok.inj (hm'.symm.trans hm'')
    have hmem : (⟨0x40001000, 0x1000, true⟩ : Call) ∈ twoPages false := by decide
    have hcov : Call.Covers ⟨0x40001000, 0x1000, true⟩ 0x40001000 := ⟨by decide, by decide⟩
    have hfree : dirIndex 0x40001000 ∈ freeSlots m' := by
      rw [hs]
      exact hw.outside _ hmem _ hcov
    have hD := ht (.table (dirIndex 0x40001000)) hfree
    have hT := ht (.page (dirIndex 0x40001000) (tableIndex 0x40001000)) hfree
    have hfirst : first (twoPages false) (.table (dirIndex 0x40001000)) =
        some ⟨0x40000000, 0x1000, false⟩ := by decide
    rw [hfirst] at hD
    rw [hw.first_page hmem hcov] at hT
    exact fun hu => absurd ((access_of_types hD hT).mp hu rfl) (by decide)

end OwnOS.VarMem
