import OwnOS.Halt
import OwnOS.Disk.Resolve

/-!
# Opening a file (`FileSystem.cpp:5-59`, `Utilclass.hpp:87-149`)

`fopen` cuts a path at its slashes and puts the components into a `kvector` of `MAX_FILE_NR`
strings. A vector starts out with as many elements as it has room for, `set_nr_elem` refuses the
full length, and an index beyond the room yields a reference to `NULL`.

* `split_names`: the scanner on a path of `m` names, when they fit.
* `split_full`: when they do not, the component number `MAX_FILE_NR` is stored through `NULL`.
* `fopen_splits_iff`: which paths are split as they should be.
-/

namespace OwnOS.Disk

open Lib

/-- `kvector`. `elems` has `max_elem` elements, the first `num_elem` count. -/
structure KVector (α : Type) where
  elems : List α
  numElem : Nat

namespace KVector

variable {α : Type} (v : KVector α)

/-- `kvector(max_elem)`. -/
def make (maxElem : Nat) (x : α) : KVector α := ⟨List.replicate maxElem x, maxElem⟩

/-- `v[i] = x`. -/
def put (i : Nat) (x : α) : Res (KVector α) :=
  if i < v.elems.length then .ok { v with elems := v.elems.set i x } else .error .fault

/-- `set_nr_elem`. -/
def setNrElem (n : Nat) : KVector α × Bool :=
  if n < v.elems.length then ({ v with numElem := n }, true) else (v, false)

/-- The elements up to `length()`. -/
def toList : List α := v.elems.take v.numElem

end KVector

/-- `MAX_FILE_NR`. -/
def maxFileNr : Nat := 20

/-- `'/'`. -/
def slash : UInt8 := 47

/-- Uninitialised memory in `fopen`: behind each `afile` and its copy in the vector, and what the
strings of a new vector point to. -/
structure FopenJunk where
  afile : Nat → Buf
  elem : Nat → Buf
  null : Buf

/-- The loop of `fopen` (`FileSystem.cpp:29-40`), for `n` rounds. -/
def splitFrom (junk : FopenJunk) (cname : Buf) (len : Nat) :
    Nat → Nat → Nat → Nat → KVector KString → Res (KVector KString × Nat)
  | 0, _, _, _, _ => .error .hang
  | n + 1, cpos, ppos, numFile, path =>
    if cpos = len ∨ cname cpos = slash then do
      let afile := KString.make (junk.afile numFile) (fun i => cname (ppos + 1 + i))
        (cpos - ppos - 1)
      let path ← path.put numFile (afile.copy (junk.elem numFile))
      if cpos = len then .ok (path, numFile + 1)
      else splitFrom junk cname len n (cpos + 1) cpos (numFile + 1) path
    else splitFrom junk cname len n (cpos + 1) ppos numFile path

/-- The vector that `fopen` passes to `get_inode_path`; none for a path without a slash in front. -/
def fopenPath (junk : FopenJunk) (pathname : KString) : Res (Option (KVector KString)) :=
  if pathname.pstring 0 = slash then do
    let (path, numFile) ← splitFrom junk pathname.pstring pathname.len pathname.len 1 0 0
      (.make maxFileNr ⟨junk.null, 0⟩)
    .ok (some (path.setNrElem numFile).1)
  else .ok none

/-- `fopen`. `none` is the invalid file. -/
def FileSystem.fopen (fs : FileSystem) (getInode : UInt32 → Inode) (junk : Junk)
    (fjunk : FopenJunk) (fuel : Nat) (pathname : KString) : Res (Option File) := do
  match ← fopenPath fjunk pathname with
  | none => .ok none
  | some path =>
    match fs.rootFs.getInodePath getInode junk fuel path.toList with
    | none => .error .hang
    | some inode => if inode.isValid then .ok (some ⟨fs, inode⟩) else .ok none

/-! ## Paths made of names -/

/-- A slash in front of each name. -/
def pathBytes (names : List Name) : List UInt8 := names.flatMap fun m => slash :: m.1

/-- A slash, and the names joined by slashes. -/
theorem pathBytes_eq {names : List Name} (h : names ≠ []) :
    pathBytes names = slash :: [slash].intercalate (names.map Subtype.val) := by
  induction names with
  | nil => exact absurd rfl h
  | cons m names ih =>
    cases names with
    | nil => simp [pathBytes]
    | cons m' names =>
      have := ih (by simp)
      simp only [pathBytes, List.flatMap_cons, List.map_cons] at this ⊢
      rw [List.intercalate_cons_cons, this]
      simp

theorem zero_notMem_pathBytes (names : List Name) : 0 ∉ pathBytes names := by
  simp only [pathBytes, List.mem_flatMap, not_exists, not_and]
  rintro m - h
  rcases List.mem_cons.mp h with h0 | hm
  · exact absurd h0 (by decide)
  · exact m.2 hm

/-- The path as a string without a NUL. -/
def pathName (names : List Name) : Name := ⟨pathBytes names, zero_notMem_pathBytes names⟩

/-- The vector holds exactly the names, in order. -/
def KVector.HoldsNames (path : KVector KString) (names : List Name) : Prop :=
  path.numElem = names.length ∧ List.Forall₂ KString.Holds path.toList names

/-! ## The scanner -/

section Scanner

variable {junk : FopenJunk} {cname : Buf} {len n k p cpos ppos num : Nat} {m : Name}
  {names : List Name} {path : KVector KString}

/-- Bytes between two slashes are passed over. -/
theorem splitFrom_add (h : ∀ i < k, cpos + i ≠ len ∧ cname (cpos + i) ≠ slash) :
    splitFrom junk cname len (n + k) cpos ppos num path
      = splitFrom junk cname len n (cpos + k) ppos num path := by
  induction k generalizing cpos with
  | zero => rfl
  | succ k ih =>
    have h0 : ¬ (cpos = len ∨ cname cpos = slash) := not_or.mpr (h 0 k.succ_pos)
    rw [← Nat.add_assoc, splitFrom, if_neg h0, ih fun i hi => ?_, Nat.add_assoc, Nat.add_comm 1 k]
    have := h (i + 1) (Nat.succ_lt_succ hi)
    rwa [Nat.add_comm i 1, ← Nat.add_assoc] at this

/-- The end of a component. -/
theorem splitFrom_store (h : cpos = len ∨ cname cpos = slash) :
    splitFrom junk cname len (n + 1) cpos ppos num path = (path.put num
        ((KString.make (junk.afile num) (fun i => cname (ppos + 1 + i)) (cpos - ppos - 1)).copy
          (junk.elem num))) >>= fun path =>
      if cpos = len then .ok (path, num + 1)
      else splitFrom junk cname len n (cpos + 1) cpos (num + 1) path :=
  if_pos h

/-- The bytes from `p` on are those of the names. -/
structure SpellsAt (cname : Buf) (len p : Nat) (names : List Name) : Prop where
  byte : ∀ i (h : i < (pathBytes names).length), cname (p + i) = (pathBytes names)[i]
  fin : p + (pathBytes names).length = len
  noSlash : ∀ m ∈ names, slash ∉ m.1
  short : len < strlenMax

theorem pathBytes_cons (m : Name) (names : List Name) :
    pathBytes (m :: names) = slash :: (m.1 ++ pathBytes names) := rfl

theorem length_pathBytes_cons (m : Name) (names : List Name) :
    (pathBytes (m :: names)).length = 1 + m.1.length + (pathBytes names).length := by
  rw [pathBytes_cons, List.length_cons, List.length_append]
  omega

variable (h : SpellsAt cname len p (m :: names))

include h

theorem SpellsAt.end_eq : p + 1 + m.1.length + (pathBytes names).length = len := by
  have := h.fin
  rw [length_pathBytes_cons] at this
  omega

/-- The bytes of the first name. -/
theorem SpellsAt.head_byte {i : Nat} (hi : i < m.1.length) : cname (p + 1 + i) = m.1[i] := by
  have hl := length_pathBytes_cons m names
  rw [Nat.add_assoc, h.byte (1 + i) (by omega)]
  simp only [pathBytes_cons, Nat.add_comm 1 i, List.getElem_cons_succ]
  exact List.getElem_append_left hi

theorem SpellsAt.tail : SpellsAt cname len (p + 1 + m.1.length) names where
  byte i hi := by
    have hl := length_pathBytes_cons m names
    rw [show p + 1 + m.1.length + i = p + (m.1.length + i + 1) by omega,
      h.byte (m.1.length + i + 1) (by omega)]
    simp only [pathBytes_cons, List.getElem_cons_succ]
    rw [List.getElem_append_right (Nat.le_add_right _ _)]
    simp only [Nat.add_sub_cancel_left]
  fin := h.end_eq
  noSlash m' hm' := h.noSlash m' (List.mem_cons_of_mem _ hm')
  short := h.short

/-- The first name is scanned and stored. -/
theorem splitFrom_name (hn : len - p ≤ n) :
    splitFrom junk cname len n (p + 1) p num path = (path.put num
        ((KString.make (junk.afile num) (fun i => cname (p + 1 + i)) m.1.length).copy
          (junk.elem num))) >>= fun path =>
      if names = [] then .ok (path, num + 1)
      else splitFrom junk cname len (n - m.1.length - 1) (p + 1 + m.1.length + 1)
        (p + 1 + m.1.length) (num + 1) path := by
  have hend := h.end_eq
  have hpass : ∀ i < m.1.length, p + 1 + i ≠ len ∧ cname (p + 1 + i) ≠ slash := by
    intro i hi
    refine ⟨by omega, fun hs => h.noSlash m List.mem_cons_self ?_⟩
    rw [h.head_byte hi] at hs
    exact hs ▸ List.getElem_mem hi
  have hstop : p + 1 + m.1.length = len ∨ cname (p + 1 + m.1.length) = slash := by
    cases names with
    | nil => exact .inl hend
    | cons m' names =>
      have hl := length_pathBytes_cons m' names
      exact .inr (h.tail.byte 0 (by omega))
  have hfin : p + 1 + m.1.length = len ↔ names = [] := by
    constructor
    · intro he
      cases names with
      | nil => rfl
      | cons m' names =>
        have hl := length_pathBytes_cons m' names
        omega
    · rintro rfl
      exact hend
  rw [show n = n - m.1.length - 1 + 1 + m.1.length by omega, splitFrom_add hpass,
    splitFrom_store hstop, show p + 1 + m.1.length - p - 1 = m.1.length by omega]
  simp only [hfin, show n - m.1.length - 1 + 1 + m.1.length - m.1.length - 1 = n - m.1.length - 1
    by omega]

omit h

theorem SpellsAt.head_holds (h : SpellsAt cname len p (m :: names)) (fresh fresh' : Buf) :
    ((KString.make fresh (fun i => cname (p + 1 + i)) m.1.length).copy fresh').Holds m := by
  have hend := h.end_eq
  have hshort := h.short
  exact (KString.make_holds (by omega) fun i hi => h.head_byte hi).copy fresh'

/-- **The names fit**: they are stored behind the elements that are there. -/
theorem split_names (junk : FopenJunk) (path : KVector KString) (num : Nat) (hne : names ≠ [])
    (h : SpellsAt cname len p names) (hn : len - p ≤ n)
    (hroom : num + names.length ≤ path.elems.length) :
    ∃ path' ss, splitFrom junk cname len n (p + 1) p num path = .ok (path', num + names.length) ∧
      path'.numElem = path.numElem ∧ path'.elems.length = path.elems.length ∧
      path'.elems.take (num + names.length) = path.elems.take num ++ ss ∧
      List.Forall₂ KString.Holds ss names := by
  induction names generalizing p n num path with
  | nil => exact absurd rfl hne
  | cons m names ih =>
    rw [List.length_cons] at hroom
    have hholds := h.head_holds (junk.afile num) (junk.elem num)
    rw [splitFrom_name h hn]
    set s := (KString.make (junk.afile num) (fun i => cname (p + 1 + i)) m.1.length).copy
      (junk.elem num)
    have hput : path.put num s = .ok { path with elems := path.elems.set num s } :=
      if_pos (by omega)
    have htake : (path.elems.set num s).take (num + 1) = path.elems.take num ++ [s] := by
      rw [List.take_add_one, List.take_set_of_le le_rfl,
        List.getElem?_set_self (by omega)]
      rfl
    rw [hput, Res.ok_bind]
    by_cases hnil : names = []
    · subst hnil
      rw [if_pos rfl]
      exact ⟨_, [s], rfl, rfl, List.length_set, htake, .cons hholds .nil⟩
    · rw [if_neg hnil]
      have hend := h.end_eq
      obtain ⟨path', ss, he, hnum, hlen, hss, hall⟩ := ih
        { path with elems := path.elems.set num s } (num + 1) hnil h.tail
        (show len - (p + 1 + m.1.length) ≤ n - m.1.length - 1 by omega)
        (by rw [List.length_set]; omega)
      refine ⟨path', s :: ss, ?_, hnum, hlen.trans List.length_set, ?_, .cons hholds hall⟩
      · rw [he, List.length_cons, Nat.add_assoc, Nat.add_comm 1]
      · rw [List.length_cons, show num + (names.length + 1) = num + 1 + names.length by omega, hss,
          htake, List.append_assoc]
        rfl

/-- **The names do not fit**: one of them is stored through `NULL`. -/
theorem split_full (junk : FopenJunk) (path : KVector KString) (num : Nat)
    (h : SpellsAt cname len p names) (hn : len - p ≤ n) (hnum : num ≤ path.elems.length)
    (hroom : path.elems.length < num + names.length) :
    splitFrom junk cname len n (p + 1) p num path = .error .fault := by
  induction names generalizing p n num path with
  | nil => exact absurd hroom (by simpa using hnum)
  | cons m names ih =>
    rw [List.length_cons] at hroom
    rw [splitFrom_name h hn]
    by_cases hfull : num = path.elems.length
    · rw [KVector.put, if_neg (by omega), Res.error_bind]
    · rw [KVector.put, if_pos (by omega), Res.ok_bind]
      have hnil : names ≠ [] := by
        rintro rfl
        rw [List.length_nil] at hroom
        omega
      have hend := h.end_eq
      rw [if_neg hnil]
      exact ih _ _ h.tail (by omega) (by rw [List.length_set]; omega)
        (by rw [List.length_set]; omega)

end Scanner

/-! ## `fopen` -/

section Fopen

variable {junk : FopenJunk} {pathname : KString} {names : List Name}

theorem spells (hp : pathname.Holds (pathName names)) (hs : ∀ m ∈ names, slash ∉ m.1)
    (hlen : (pathBytes names).length < strlenMax) :
    SpellsAt pathname.pstring pathname.len 0 names where
  byte i hi := by
    rw [Nat.zero_add]
    exact hp.byte i hi (hi.trans hlen)
  fin := by
    rw [Nat.zero_add]
    exact hp.len.symm
  noSlash := hs
  short := by
    rw [hp.len]
    exact hlen

theorem slash_first (h : SpellsAt pathname.pstring pathname.len 0 names) (hne : names ≠ []) :
    pathname.pstring 0 = slash := by
  cases names with
  | nil => exact absurd rfl hne
  | cons m names =>
    have hl := length_pathBytes_cons m names
    exact h.byte 0 (by omega)

/-- What `fopen` makes of the names, when the vector has room for them. -/
theorem fopenPath_eq (h : SpellsAt pathname.pstring pathname.len 0 names) (hne : names ≠ [])
    (hle : names.length ≤ maxFileNr) :
    ∃ path, fopenPath junk pathname = .ok (some path) ∧ path.HoldsNames names := by
  obtain ⟨path, ss, he, hnum, hlen, hss, hall⟩ := split_names junk
    (.make maxFileNr ⟨junk.null, 0⟩) 0 (n := pathname.len) hne h (by omega)
    (by rw [KVector.make, List.length_replicate]; omega)
  have h20 : path.elems.length = maxFileNr := hlen.trans List.length_replicate
  have hpath : fopenPath junk pathname = .ok (some (path.setNrElem names.length).1) := by
    rw [fopenPath, if_pos (slash_first h hne), Nat.zero_add] at *
    rw [he, Nat.zero_add]
    rfl
  refine ⟨_, hpath, ?_⟩
  rw [Nat.zero_add, List.take_zero, List.nil_append] at hss
  -- the length of a full vector is refused, and already right
  have hset : (path.setNrElem names.length).1.elems = path.elems ∧
      (path.setNrElem names.length).1.numElem = names.length := by
    unfold KVector.setNrElem
    split
    · exact ⟨rfl, rfl⟩
    · rename_i hge
      refine ⟨rfl, ?_⟩
      have : path.numElem = maxFileNr := hnum
      show path.numElem = names.length
      omega
  exact ⟨hset.2, by rw [KVector.toList, hset.1, hset.2, hss]; exact hall⟩

theorem fopenPath_full (h : SpellsAt pathname.pstring pathname.len 0 names) (hne : names ≠ [])
    (hlt : maxFileNr < names.length) : fopenPath junk pathname = .error .fault := by
  rw [fopenPath, if_pos (slash_first h hne)]
  have := split_full junk (.make maxFileNr ⟨junk.null, 0⟩) 0 (n := pathname.len) h
    (by omega) (Nat.zero_le _) (by rw [KVector.make, List.length_replicate]; omega)
  rw [Nat.zero_add] at this
  rw [this]
  rfl

/-- **Path splitting.** -/
theorem fopen_splits_iff (fs : FileSystem) (getInode : UInt32 → Inode) (junk : Junk)
    (fjunk : FopenJunk) (fuel : Nat) (names : List Name) (hne : names ≠ [])
    (hs : ∀ m ∈ names, slash ∉ m.1) (hlen : (pathBytes names).length < strlenMax)
    (pathname : KString) (hp : pathname.Holds (pathName names)) :
    (((names.length ≤ maxFileNr →
          ∃ path, fopenPath fjunk pathname = .ok (some path) ∧ path.HoldsNames names) ∧
        (maxFileNr < names.length →
          fs.fopen getInode junk fjunk fuel pathname = .ok none)) ↔ names.length ≤ maxFileNr) ∧
      ∀ other : KString, other.pstring 0 ≠ slash →
        fs.fopen getInode junk fjunk fuel other = .ok none := by
  have hsp := spells hp hs hlen
  refine ⟨⟨fun h => ?_, fun hle => ⟨fun _ => fopenPath_eq hsp hne hle, fun hlt => ?_⟩⟩, ?_⟩
  · by_contra hgt
    have := h.2 (Nat.lt_of_not_le hgt)
    rw [FileSystem.fopen, fopenPath_full hsp hne (Nat.lt_of_not_le hgt)] at this
    exact absurd this (by simp)
  · exact absurd hle (Nat.not_le.mpr hlt)
  · intro other ho
    rw [FileSystem.fopen, fopenPath, if_neg ho]
    rfl

/-- The string of a path. -/
def pathString (names : List Name) : KString :=
  ⟨fun i => (pathBytes names).getD i 0, (pathBytes names).length⟩

theorem pathString_holds (names : List Name) : (pathString names).Holds (pathName names) where
  len := rfl
  byte _ hi _ := List.getD_eq_getElem _ _ hi
  fin _ := List.getD_eq_default _ _ le_rfl

def noFopenJunk : FopenJunk := ⟨fun _ _ => 0, fun _ _ => 0, fun _ => 0⟩

/-- Twenty-one slashes: as many empty names, one more than the vector has room for. -/
theorem fopen_overflows : ¬ ∀ (fs : FileSystem) (getInode : UInt32 → Inode) (junk : Junk)
    (fjunk : FopenJunk) (fuel : Nat) (names : List Name), names ≠ [] →
    (∀ m ∈ names, slash ∉ m.1) → (pathBytes names).length < strlenMax →
    ∀ pathname : KString, pathname.Holds (pathName names) → maxFileNr < names.length →
    fs.fopen getInode junk fjunk fuel pathname = .ok none := by
  intro h
  set names : List Name := List.replicate 21 ⟨[], by simp⟩ with hnames
  have hs : ∀ m ∈ names, slash ∉ m.1 := by
    intro m hm
    rw [List.eq_of_mem_replicate hm]
    exact List.not_mem_nil
  have hlen : (pathBytes names).length < strlenMax := by decide
  have := h ⟨Ext2.flatRoot 1⟩ Ext2.regular Ext2.noJunk noFopenJunk 0 names (by simp [hnames]) hs
    hlen (pathString names) (pathString_holds names) (by decide)
  rw [FileSystem.fopen, fopenPath_full (spells (pathString_holds names) hs hlen) (by simp [hnames])
    (by decide)] at this
  exact absurd this (by simp)

/-- The names `b`, `a` and `usr`. -/
def threeNames : List Name :=
  [Ext2.letter 98 (by decide), Ext2.letter 97 (by decide), ⟨[117, 115, 114], by decide⟩]

/-- The path `/b/a/usr` is split into its three names; the string `b`, without a slash in front,
opens nothing. -/
theorem fopen_splits_threeNames :
    (∃ path, fopenPath noFopenJunk (pathString threeNames) = .ok (some path) ∧
        path.HoldsNames threeNames) ∧
      (FileSystem.mk (Ext2.flatRoot 1)).fopen Ext2.regular Ext2.noJunk noFopenJunk 0
        (Ext2.letterString 98) = .ok none := by
  have hs : ∀ m ∈ threeNames, slash ∉ m.1 := by
    rintro m (_ | ⟨_, _ | ⟨_, _ | ⟨_, ⟨⟩⟩⟩⟩)
    · decide
    · decide
    · decide
  have h := fopen_splits_iff ⟨Ext2.flatRoot 1⟩ Ext2.regular Ext2.noJunk noFopenJunk 0 threeNames
    (by simp [threeNames]) hs (by decide) (pathString threeNames) (pathString_holds _)
  have hle : threeNames.length ≤ maxFileNr := by decide
  exact ⟨(h.1.mpr hle).1 hle, h.2 (Ext2.letterString 98) (by decide)⟩

end Fopen

end OwnOS.Disk
