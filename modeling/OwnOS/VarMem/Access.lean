import OwnOS.Lib.Word
import OwnOS.VarMem.Model

/-!
# What the kernel's pointers reach

`Reaches m K S g`: in `m`, and in every machine with the same `cr3` that agrees with `m` on the
words `K`, an access at an address of `S` goes to the physical address `g` gives. With paging off
that is every address, at itself, and `K` is empty. Under a directory of the kernel it is the
straight map, and `K` are the words of the directory and the tables that realise it. The routines of
`VarMem.cpp` are then sequences of stores to frames outside `K`.
-/

namespace OwnOS.VarMem

open Lib Lib.Word

/-! ## Words -/

theorem and_fff000 (x : UInt32) : (x &&& 0xfffff000).toNat = x.toNat / 4096 * 4096 := by
  have h1 : (0xfffff000 : UInt32) = ~~~(0x1000 - 1) := rfl
  have h2 : (0x1000 : UInt32).toNat = 4096 := rfl
  rw [h1, toNat_and_not_sub_one (k := 12) (by rfl), h2]

theorem caddrEntry_toNat (x : UInt32) : (caddrEntry x).toNat = x.toNat / 4096 * 4096 := and_fff000 x

theorem and_fff (x : UInt32) : (x &&& 0xfff).toNat = x.toNat % 4096 := by
  have h1 : (0xfff : UInt32) = 0x1000 - 1 := rfl
  have h2 : (0x1000 : UInt32).toNat = 4096 := rfl
  rw [h1, toNat_and_sub_one (k := 12) (by rfl), h2]

theorem isEntryExist_iff {e : UInt32} : isEntryExist e = true ↔ e.toNat % 2 = 1 := by
  have h1 : (0x01 : UInt32) = 2 - 1 := rfl
  have h2 : (2 : UInt32).toNat = 2 := rfl
  have hm : (e &&& 0x01).toNat = e.toNat % 2 := by
    rw [h1, toNat_and_sub_one (k := 1) (by rfl), h2]
  unfold isEntryExist
  rw [decide_eq_true_iff, ← UInt32.toNat_inj, hm]
  exact Iff.rfl

theorem isUser_iff {e : UInt32} : isUser e = true ↔ e.toNat / 4 % 2 = 1 := by
  have hm : (e &&& 0x04).toNat = e.toNat / 4 % 2 * 4 := by
    have h4 : (0x04 : UInt32).toNat = 2 ^ 2 := rfl
    rw [UInt32.toNat_and, h4, Nat.and_two_pow]
    have hb : e.toNat.testBit 2 = decide (e.toNat / 2 ^ 2 % 2 = 1) :=
      Nat.testBit_eq_decide_div_mod_eq
    rw [hb]
    by_cases h : e.toNat / 2 ^ 2 % 2 = 1
    · rw [decide_eq_true h]
      have h' : e.toNat / 4 % 2 = 1 := h
      rw [h']
      rfl
    · rw [decide_eq_false h]
      have h' : e.toNat / 4 % 2 = 0 := by
        have : ¬ e.toNat / 4 % 2 = 1 := h
        omega
      rw [h']
      rfl
  unfold isUser
  rw [decide_eq_true_iff, ← UInt32.toNat_inj, hm]
  have h4 : (4 : UInt32).toNat = 4 := rfl
  rw [h4]
  omega

/-- The word `editEntry` leaves: the address of the frame with the type in the low bits. -/
def entryWord (pointer type : UInt32) : UInt32 := (pointer &&& 0xfffff000) ||| (type &&& 0x00000fff)

theorem entryWord_toNat (p t : UInt32) :
    (entryWord p t).toNat = p.toNat / 4096 * 4096 + t.toNat % 4096 := by
  rw [entryWord, UInt32.toNat_or, and_fff000, and_fff]
  have := Nat.two_pow_add_eq_or_of_lt (i := 12) (b := t.toNat % 4096) (by omega) (p.toNat / 4096)
  have hc : 2 ^ 12 * (p.toNat / 4096) = p.toNat / 4096 * 4096 := Nat.mul_comm _ _
  rw [hc] at this
  exact this.symm

theorem frameOf_entryWord (p t : UInt32) : frameOf (entryWord p t) = frameOf p := by
  unfold frameOf
  rw [entryWord_toNat]
  omega

theorem isEntryExist_entryWord {p t : UInt32} (h : t.toNat % 2 = 1) :
    isEntryExist (entryWord p t) = true := by
  rw [isEntryExist_iff, entryWord_toNat]
  omega

theorem isUser_entryWord (p t : UInt32) : isUser (entryWord p t) = isUser t := by
  rw [Bool.eq_iff_iff, isUser_iff, isUser_iff, entryWord_toNat]
  omega

/-- A pointer to the begin of a frame. -/
def Aligned (a : UInt32) : Prop := a.toNat % 4096 = 0

/-- Entry `i` of the table at a frame's begin is word `i` of the frame. -/
theorem entryAddr_toNat {a : UInt32} (h : Aligned a) {i : Nat} (hi : i < 1024) :
    (entryAddr a i).toNat = a.toNat + 4 * i := by
  have hlt := toNat_lt a
  unfold Aligned at h
  have hi' : (UInt32.ofNat i).toNat = i := by
    rw [UInt32.toNat_ofNat']
    exact Nat.mod_eq_of_lt (by omega)
  have h4 : (4 : UInt32).toNat = 4 := rfl
  have hm : (4 * UInt32.ofNat i).toNat = 4 * i := by
    rw [toNat_mul_of_lt (by rw [h4, hi']; omega), h4, hi']
  rw [entryAddr, toNat_add_of_lt (by rw [hm]; omega), hm]

theorem frameOf_entryAddr {a : UInt32} (h : Aligned a) {i : Nat} (hi : i < 1024) :
    frameOf (entryAddr a i) = frameOf a := by
  unfold frameOf
  rw [entryAddr_toNat h hi]
  unfold Aligned at h
  omega

theorem indexOf_entryAddr {a : UInt32} (h : Aligned a) {i : Nat} (hi : i < 1024) :
    indexOf (entryAddr a i) = ⟨i, hi⟩ := by
  refine Fin.ext ?_
  show (entryAddr a i).toNat % 4096 / 4 = i
  rw [entryAddr_toNat h hi]
  unfold Aligned at h
  omega

theorem aligned_caddrEntry (e : UInt32) : Aligned (caddrEntry e) := by
  unfold Aligned
  rw [caddrEntry_toNat]
  omega

theorem frameOf_caddrEntry (e : UInt32) : frameOf (caddrEntry e) = frameOf e := by
  unfold frameOf
  rw [caddrEntry_toNat]
  omega

theorem caddrEntry_entryWord {p t : UInt32} (h : Aligned p) : caddrEntry (entryWord p t) = p := by
  unfold Aligned at h
  rw [← UInt32.toNat_inj, caddrEntry_toNat, entryWord_toNat]
  omega

/-! ## Accesses -/

namespace Machine

variable {m m' : Machine} {K : Set (Nat × Fin 1024)} {S : Set UInt32} {g : UInt32 → UInt32}
  {a v w : UInt32} {f : Nat} {i : Fin 1024} {pg : Page}

/-- The machines agree on the words `K`, and on `cr3`. -/
def Agree (K : Set (Nat × Fin 1024)) (m m' : Machine) : Prop :=
  m'.cr3 = m.cr3 ∧ ∀ x ∈ K, m'.phys x.1 x.2 = m.phys x.1 x.2

/-- Accesses at `S` go where `g` says, as long as the words `K` stay. -/
def Reaches (m : Machine) (K : Set (Nat × Fin 1024)) (S : Set UInt32) (g : UInt32 → UInt32) :
    Prop :=
  ∀ m', Agree K m m' → ∀ v ∈ S, m'.addr v = .ok (g v)

theorem Agree.refl : Agree K m m := ⟨rfl, fun _ _ => rfl⟩

theorem Agree.trans {m'' : Machine} (h : Agree K m m') (h' : Agree K m' m'') : Agree K m m'' :=
  ⟨h'.1.trans h.1, fun x hx => (h'.2 x hx).trans (h.2 x hx)⟩

theorem Reaches.of_agree (h : Reaches m K S g) (ha : Agree K m m') : Reaches m' K S g :=
  fun m'' ha' v hv => h m'' (ha.trans ha') v hv

theorem agree_setWord (hf : (f, i) ∉ K) : Agree K m (m.setWord f i w) := by
  refine ⟨rfl, fun x hx => ?_⟩
  unfold setWord
  by_cases h1 : x.1 = f
  · have h2 : x.2 ≠ i := by
      rintro rfl
      exact hf (h1 ▸ hx)
    simp [h1, h2]
  · simp [h1]

theorem agree_setPage (hf : ∀ i, (f, i) ∉ K) : Agree K m (m.setPage f pg) := by
  refine ⟨rfl, fun x hx => ?_⟩
  unfold setPage
  have h1 : x.1 ≠ f := by
    rintro rfl
    exact hf x.2 hx
  simp [h1]

theorem Reaches.load (h : Reaches m K S g) (hv : v ∈ S) : m.load v = .ok (m.peek (g v)) := by
  unfold Machine.load
  rw [h m Agree.refl v hv, Res.ok_bind]

theorem Reaches.store (h : Reaches m K S g) (hv : v ∈ S) :
    m.store v w = .ok (m.setWord (frameOf (g v)) (indexOf (g v)) w) := by
  unfold Machine.store
  rw [h m Agree.refl v hv, Res.ok_bind]

@[simp] theorem setWord_setWord {w' : UInt32} :
    (m.setWord f i w).setWord f i w' = m.setWord f i w' := by
  simp [setWord]

@[simp] theorem setWord_phys_self : (m.setWord f i w).phys f i = w := by simp [setWord]

theorem setWord_phys_of_ne {f' : Nat} (h : f' ≠ f) : (m.setWord f i w).phys f' = m.phys f' := by
  simp [setWord, h]

theorem setWord_phys_index {j : Fin 1024} (h : j ≠ i) :
    (m.setWord f i w).phys f j = m.phys f j := by
  simp [setWord, h]

/-- A word written over itself. -/
theorem setWord_same (h : m.phys f i = w) : m.setWord f i w = m := by
  obtain ⟨phys, cr3, answers, handed, memSize, kPdir, procs, pCurrent⟩ := m
  subst h
  simp [setWord]

theorem setPage_phys_of_ne {f' : Nat} (h : f' ≠ f) : (m.setPage f pg).phys f' = m.phys f' := by
  simp [setPage, h]

@[simp] theorem setPage_phys_self : (m.setPage f pg).phys f = pg := by simp [setPage]

theorem setPage_setWord :
    (m.setPage f pg).setWord f i w = m.setPage f (Function.update pg i w) := by
  simp [setWord, setPage]

/-- The frame `f` stands at the pointer `a`. -/
structure Holds (S : Set UInt32) (g : UInt32 → UInt32) (a : UInt32) (f : Nat) : Prop where
  aligned : Aligned a
  mem : ∀ i < 1024, entryAddr a i ∈ S
  frame : ∀ i < 1024, frameOf (g (entryAddr a i)) = f
  index : ∀ i, (hi : i < 1024) → indexOf (g (entryAddr a i)) = ⟨i, hi⟩

theorem Holds.load (hh : Holds S g a f) (h : Reaches m K S g) {i : Nat} (hi : i < 1024) :
    m.load (entryAddr a i) = .ok (m.phys f ⟨i, hi⟩) := by
  rw [h.load (hh.mem i hi), peek, hh.frame i hi, hh.index i hi]

theorem Holds.store (hh : Holds S g a f) (h : Reaches m K S g) {i : Nat} (hi : i < 1024) :
    m.store (entryAddr a i) w = .ok (m.setWord f ⟨i, hi⟩ w) := by
  rw [h.store (hh.mem i hi), hh.frame i hi, hh.index i hi]

/-- **`editEntry`** writes one word. -/
theorem Holds.editEntry (hh : Holds S g a f) (h : Reaches m K S g) {i : Nat} (hi : i < 1024)
    (hK : (f, ⟨i, hi⟩) ∉ K) (p t : UInt32) :
    m.editEntry (entryAddr a i) p t = .ok (m.setWord f ⟨i, hi⟩ (entryWord p t)) := by
  unfold Machine.editEntry
  rw [hh.store h hi, Res.ok_bind]
  have h' := h.of_agree (agree_setWord (w := p &&& 0xfffff000) hK)
  rw [hh.load h' hi, Res.ok_bind, hh.store h' hi, setWord_setWord, setWord_phys_self]
  rfl

/-- **`disableAllEntry`** clears the frame. -/
theorem Holds.disableAllEntry (hh : Holds S g a f) (h : Reaches m K S g) (hK : ∀ i, (f, i) ∉ K) :
    m.disableAllEntry a = .ok (m.setPage f fun _ => 0) := by
  have hlast : m.setPage f (fun _ => 0) =
      m.setPage f fun j => if j.val < 1024 then 0 else m.phys f j :=
    congrArg (m.setPage f) (fill_all _ _).symm
  have hfirst : m = m.setPage f fun j => if j.val < 0 then 0 else m.phys f j := by
    simp [setPage]
  unfold Machine.disableAllEntry
  rw [hlast]
  conv_lhs => rw [hfirst]
  refine loop_eq (fun n => m.setPage f fun j => if j.val < n then 0 else m.phys f j) ?_
  intro n hn
  have h' : Reaches (m.setPage f fun j => if j.val < n then 0 else m.phys f j) K S g :=
    h.of_agree (agree_setPage hK)
  rw [hh.load h' hn, Res.ok_bind, hh.store h' hn, UInt32.and_zero, setPage_setWord]
  exact congrArg (fun pg => Except.ok (m.setPage f pg)) (fill_succ hn _ _)

/-- **`memcpy`** of a page, between frames that are reached in two ways. -/
theorem Holds.memcpy {K' : Set (Nat × Fin 1024)} {S' : Set UInt32} {g' : UInt32 → UInt32}
    {dest src : UInt32} {f' : Nat} (hd : Holds S g dest f) (h : Reaches m K S g)
    (hK : ∀ i, (f, i) ∉ K) (hs : Holds S' g' src f') (h' : Reaches m K' S' g')
    (hK' : ∀ i, (f, i) ∉ K') :
    m.memcpy dest src 1024 = .ok (m.setPage f (m.phys f')) := by
  have hlast : m.setPage f (m.phys f') =
      m.setPage f fun j => if j.val < 1024 then m.phys f' j else m.phys f j :=
    congrArg (m.setPage f) (fill_all _ _).symm
  have hfirst : m = m.setPage f fun j => if j.val < 0 then m.phys f' j else m.phys f j := by
    simp [setPage]
  unfold Machine.memcpy
  rw [hlast]
  conv_lhs => rw [hfirst]
  refine loop_eq (fun n => m.setPage f fun j => if j.val < n then m.phys f' j else m.phys f j) ?_
  intro n hn
  have hword : (m.setPage f fun j => if j.val < n then m.phys f' j else m.phys f j).phys
    f' ⟨n, hn⟩ =
      m.phys f' ⟨n, hn⟩ := by
    by_cases he : f' = f
    · subst he
      rw [setPage_phys_self, if_neg (by simp)]
    · rw [setPage_phys_of_ne he]
  rw [hs.load (h'.of_agree (agree_setPage hK')) hn, hword, Res.ok_bind,
    hd.store (h.of_agree (agree_setPage hK)) hn, setPage_setWord]
  exact congrArg (fun pg => Except.ok (m.setPage f pg)) (fill_succ hn _ _)

end Machine

end OwnOS.VarMem
