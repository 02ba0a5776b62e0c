import OwnOS.Disk.KString

/-!
# Comparing strings (`Utilclass.hpp:32-80`, `string.cpp:44-58,126-145`)

A `kstring` is compared with another one by their lengths and `strcmp`, and with a `const char *` by
`strncmp` over its own length. The second comparison does not look whether the other string ends
there.

* `Built.holds`: however a `kstring` was built from a name, it holds the name.
* `Holds.eq_iff`, `Holds.eqStr_iff`: the one comparison is equality, the other one is being a
  prefix.
* `comparisons_agree_iff`: **the two comparisons agree with equality unless the `kstring` is a
  proper prefix of the other string.**
-/

namespace OwnOS.Disk

open Lib

def strcpy (d s : Buf) : Buf := d.put 0 (strlen s + 1) s

def strncmp (s1 s2 : Buf) (num : Nat) : UInt16 :=
  if (List.range num).any fun i => s1 i != s2 i then 1 else 0

namespace KString

/-- `operator=(const kstring &)`; `copied` is another object. -/
def assign (_a : KString) (fresh : Buf) (copied : KString) : KString := copied.copy fresh

/-- `a = a`: `copied` is the object whose bytes were deleted and replaced by `fresh` ones. -/
def assignSelf (a : KString) (fresh : Buf) : KString := ⟨strncpy fresh fresh a.len, a.len⟩

/-- `operator=(const char *)`. -/
def assignStr (_a : KString) (fresh copied : Buf) : KString := ⟨strcpy fresh copied, strlen copied⟩

/-- `operator==(const char *)`. -/
def eqStr (a : KString) (str : Buf) : Bool := strncmp a.pstring str a.len == 0

end KString

/-! ## Building -/

/-- The zero-terminated string at `str` is the name. -/
structure Spells (str : Buf) (m : Name) : Prop where
  byte : ∀ i (h : i < m.1.length), str i = m.1[i]
  fin : str m.1.length = 0

variable {a b : KString} {s t m : Name} {str : Buf}

theorem Spells.strlen_eq (h : Spells str m) (hm : m.1.length < strlenMax) :
    strlen str = m.1.length := by
  refine Disk.strlen_eq hm (fun j hj => ?_) h.fin
  rw [h.byte j hj]
  exact name_ne_zero m hj

namespace KString

/-- The ways to build a string from a name. -/
inductive Built : KString → Name → Prop
  | ofStr {str : Buf} {m : Name} (fresh : Buf) (h : Spells str m) : Built (ofStr fresh str) m
  | make {str : Buf} {m : Name} (fresh : Buf) (h : ∀ i (hi : i < m.1.length), str i = m.1[i]) :
    Built (make fresh str m.1.length) m
  | copy {a : KString} {m : Name} (fresh : Buf) (h : Built a m) : Built (a.copy fresh) m
  | assign {a : KString} {m : Name} (old : KString) (fresh : Buf) (h : Built a m) :
    Built (old.assign fresh a) m
  | assignStr {str : Buf} {m : Name} (old : KString) (fresh : Buf) (h : Spells str m) :
    Built (old.assignStr fresh str) m

@[simp] theorem ofStr_pstring (fresh str : Buf) :
    (ofStr fresh str).pstring = fresh.put 0 (strlen str + 1) str := rfl

theorem ofStr_holds (h : Spells str m) (hm : m.1.length < strlenMax) (fresh : Buf) :
    (ofStr fresh str).Holds m where
  len := h.strlen_eq hm
  byte i hi _ := by
    rw [ofStr_pstring, h.strlen_eq hm, Buf.put_zero_apply (by omega)]
    exact h.byte i hi
  fin _ := by
    rw [ofStr_pstring, h.strlen_eq hm, Buf.put_zero_apply (by omega)]
    exact h.fin

/-- **However it was built, the string holds the name.** -/
theorem Built.holds (h : Built a m) (hm : m.1.length < strlenMax) : a.Holds m := by
  induction h with
  | ofStr fresh h => exact ofStr_holds h hm fresh
  | make fresh h => exact make_holds hm h
  | copy fresh _ ih => exact (ih hm).copy fresh
  | assign old fresh _ ih => exact (ih hm).copy fresh
  | assignStr old fresh h => exact ofStr_holds h hm fresh

/-- An assignment to itself keeps the length and loses the bytes. -/
theorem assignSelf_pstring (a : KString) (fresh : Buf) :
    (a.assignSelf fresh).pstring = fresh ∧ (a.assignSelf fresh).len = a.len := by
  refine ⟨?_, rfl⟩
  funext i
  simp only [assignSelf, strncpy, Buf.put]
  split
  · rw [Nat.sub_zero]
  · rfl

/-! ## Comparing -/

/-- No byte differs. -/
theorem any_ne_eq_false {x y : Buf} {n : Nat} :
    ((List.range n).any fun i => x i != y i) = false ↔ ∀ i < n, x i = y i := by
  simp

/-- **Comparing two strings is comparing the names.** -/
theorem Holds.eq_iff (ha : a.Holds s) (hb : b.Holds t) (hs : s.1.length < strlenMax)
    (ht : t.1.length < strlenMax) : a.eq b = true ↔ s = t := by
  rw [KString.eq, ha.len, hb.len]
  by_cases hl : t.1.length = s.1.length
  · have hbytes : (∀ i < s.1.length, a.pstring i = b.pstring i) ↔ s = t := by
      constructor
      · intro hall
        refine Subtype.ext (List.ext_getElem hl.symm fun i hi hi' => ?_)
        rw [← ha.byte i hi (hi.trans hs), hall i hi, hb.byte i hi' (hi'.trans ht)]
      · rintro rfl i hi
        rw [ha.byte i hi (hi.trans hs), hb.byte i hi (hi.trans hs)]
    rw [if_neg (not_not.mpr hl), strcmp, ha.strlen_eq hs, hb.strlen_eq ht,
      if_neg (not_not.mpr hl.symm), min_self, ← hbytes, ← any_ne_eq_false]
    cases (List.range s.1.length).any fun i => a.pstring i != b.pstring i <;> simp
  · rw [if_pos hl]
    refine iff_of_false (by simp) ?_
    rintro rfl
    exact hl rfl

/-- **Comparing with bytes is asking whether they begin with the name.** -/
theorem Holds.eqStr_iff (ha : a.Holds s) (hs : s.1.length < strlenMax) (hstr : Spells str t) :
    a.eqStr str = true ↔ s.1 <+: t.1 := by
  have hany : a.eqStr str = true ↔ ∀ i < s.1.length, a.pstring i = str i := by
    rw [eqStr, strncmp, ha.len, ← any_ne_eq_false]
    cases (List.range s.1.length).any fun i => a.pstring i != str i <;> simp
  rw [hany, List.prefix_iff_getElem]
  constructor
  · intro hall
    have hle : s.1.length ≤ t.1.length := by
      by_contra hlt
      -- the string ends in front of a byte of the name
      have hi : t.1.length < s.1.length := by omega
      have h0 := hall _ hi
      rw [hstr.fin] at h0
      exact ha.ne_zero hi (hi.trans hs) h0
    refine ⟨hle, fun i hi => ?_⟩
    rw [← ha.byte i hi (hi.trans hs), hall i hi, hstr.byte i (by omega)]
  · rintro ⟨hle, hall⟩ i hi
    rw [ha.byte i hi (hi.trans hs), hstr.byte i (by omega), hall i hi]

/-- **When the comparisons agree**: unless the first name is a proper prefix of the second one. -/
theorem comparisons_agree_iff (hs : s.1.length < strlenMax) (ht : t.1.length < strlenMax)
    (ha : Built a s) (hb : Built b t) (hstr : Spells str t) :
    [a.eq b = true, a.eqStr str = true, s = t].TFAE ↔ ¬(s.1 <+: t.1 ∧ s ≠ t) := by
  have heq := (ha.holds hs).eq_iff (hb.holds ht) hs ht
  have hstr := (ha.holds hs).eqStr_iff hs hstr
  constructor
  · rintro htfae ⟨hpre, hne⟩
    exact hne ((htfae.out 1 2).mp (hstr.mpr hpre))
  · intro hno
    tfae_have 1 ↔ 3 := heq
    tfae_have 2 → 3 := fun h => by
      by_contra hne
      exact hno ⟨hstr.mp h, hne⟩
    tfae_have 3 → 2 := by
      rintro rfl
      exact hstr.mpr (List.prefix_refl _)
    tfae_finish

end KString

/-- The name as a string, with 7s behind it. -/
def Name.chars (m : Name) : Buf := fun i => if i = m.1.length then 0 else m.1.getD i 7

theorem Name.spells (m : Name) : Spells (Name.chars m) m where
  byte i hi := by
    rw [Name.chars, if_neg (by omega), List.getD_eq_getElem _ _ hi]
  fin := if_pos rfl

/-- `"ab"` and `"abc"`. -/
def nameAb : Name := ⟨[97, 98], by decide⟩

def nameAbc : Name := ⟨[97, 98, 99], by decide⟩

/-- A copy of `kstring("abc", 3)`. -/
def copyAbc : KString := (KString.make (fun _ => 7) (Name.chars nameAbc) 3).copy fun _ => 8

theorem comparisons_agree_abc : [copyAbc.eq (KString.ofStr (fun _ => 9) (Name.chars nameAb)) = true,
    copyAbc.eqStr (Name.chars nameAb) = true, nameAbc = nameAb].TFAE := by
  have hbuilt : KString.Built copyAbc nameAbc :=
    (KString.Built.make (m := nameAbc) (fun _ => 7) (Name.spells nameAbc).byte).copy fun _ => 8
  exact (KString.comparisons_agree_iff (by decide) (by decide) hbuilt
    (.ofStr (fun _ => 9) (Name.spells nameAb)) (Name.spells nameAb)).mpr (by decide)

/-- `kstring("ab") == "abc"`. -/
theorem prefix_eqStr :
    (KString.ofStr (fun _ => 9) (Name.chars nameAb)).eqStr (Name.chars nameAbc) = true ∧
    ¬ [(KString.ofStr (fun _ => 9) (Name.chars nameAb)).eq
      (KString.ofStr (fun _ => 9) (Name.chars nameAbc)) =
        true, (KString.ofStr (fun _ => 9) (Name.chars nameAb)).eqStr (Name.chars nameAbc) = true,
        nameAb = nameAbc].TFAE := by
  have heq : (KString.ofStr (fun _ => 9) (Name.chars nameAb)).eqStr
      (Name.chars nameAbc) = true := by
    decide +kernel
  refine ⟨heq, fun htfae => ?_⟩
  exact absurd ((htfae.out 1 2).mp heq) (by decide)

end OwnOS.Disk
