import OwnOS.Disk.Tree

/-!
# Which paths `get_inode_path` resolves right

The lookup reads the first 0x400 bytes of the first block and nothing else, counts deleted entries,
and treats every inode with the bit `FT_DIR` in its type as a directory (block devices and sockets
have it too). `FirstNamed` is the entry that it finds, `Leaves` says that the chain in the buffer
ends.

* `found_iff`: the walk over the buffer finds exactly that entry.
* `getInodePath_iff`: a path and all its prefixes resolve right iff at each component the entry in
  the buffer leads to the same inode as the lookup in the whole directory (`Finds`).
* `finds_oneBlock`: a directory of one block of 1024 bytes without deleted entries is always
  searched right.
-/

namespace OwnOS.Disk

open Lib

/-- The first entry named `m` of the chain in the buffer, from the offset `o` on, deleted or not,
has the inode number `n`. -/
inductive FirstNamed (b : Buf) (m : Name) : Nat → UInt32 → Prop
  | here {o : Nat} : Dirent.nameBytes b o = m.1 → FirstNamed b m o (Dirent.inode b o)
  | later {o : Nat} {n : UInt32} : Dirent.nameBytes b o ≠ m.1 → o + Dirent.recLen b o < 0x400 →
      FirstNamed b m (o + Dirent.recLen b o) n → FirstNamed b m o n

/-- The chain in the buffer runs past its 0x400 bytes. -/
inductive Leaves (b : Buf) : Nat → Prop
  | last {o : Nat} : 0x400 ≤ o + Dirent.recLen b o → Leaves b o
  | next {o : Nat} : o + Dirent.recLen b o < 0x400 → Leaves b (o + Dirent.recLen b o) → Leaves b o

theorem FirstNamed.unique {b : Buf} {m : Name} {o : Nat} {n n' : UInt32} (h : FirstNamed b m o n)
    (h' : FirstNamed b m o n') : n = n' := by
  induction h with
  | here hm =>
    cases h' with
    | here => rfl
    | later hne => exact absurd hm hne
  | later hne _ _ ih =>
    cases h' with
    | here hm => exact absurd hm hne
    | later _ _ h' => exact ih h'

namespace Ext2

variable {fs : Ext2} {getInode : UInt32 → Inode} {b : Buf} {a : KString} {m : Name}
  {fresh : Nat → Buf}

/-- What the lookup of `m` in the buffer answers. -/
def Found (fs : Ext2) (getInode : UInt32 → Inode) (b : Buf) (m : Name) (o : Nat) (c : Inode) :
    Prop :=
  (∃ n, FirstNamed b m o n ∧ c = getInode n) ∨
    (∀ n, ¬ FirstNamed b m o n) ∧ Leaves b o ∧ c = fs.invalidInode

theorem Found.unique {o : Nat} {c c' : Inode} (h : fs.Found getInode b m o c)
    (h' : fs.Found getInode b m o c') : c = c' := by
  rcases h with ⟨n, hn, rfl⟩ | ⟨hnone, -, rfl⟩
  · rcases h' with ⟨n', hn', rfl⟩ | ⟨hnone, -, -⟩
    · rw [hn.unique hn']
    · exact absurd hn (hnone n)
  · rcases h' with ⟨n', hn', -⟩ | ⟨-, -, rfl⟩
    · exact absurd hn' (hnone n')
    · rfl

/-- An entry of another name, with another entry behind it. -/
theorem found_next {o : Nat} {c : Inode} (hne : Dirent.nameBytes b o ≠ m.1)
    (hlt : o + Dirent.recLen b o < 0x400) :
    fs.Found getInode b m (o + Dirent.recLen b o) c ↔ fs.Found getInode b m o c := by
  have hn : ∀ n, FirstNamed b m (o + Dirent.recLen b o) n ↔ FirstNamed b m o n := by
    intro n
    constructor
    · exact fun h => .later hne hlt h
    · intro h
      cases h with
      | here hm => exact absurd hm hne
      | later _ _ h => exact h
  have hl : Leaves b (o + Dirent.recLen b o) ↔ Leaves b o := by
    constructor
    · exact fun h => .next hlt h
    · intro h
      cases h with
      | last hge => exact absurd hge (Nat.not_le.mpr hlt)
      | next _ h => exact h
  simp only [Found, hn, hl]

/-- The last entry, of another name. -/
theorem found_last {o : Nat} {c : Inode} (hne : Dirent.nameBytes b o ≠ m.1)
    (hge : ¬ o + Dirent.recLen b o < 0x400) :
    fs.Found getInode b m o c ↔ c = fs.invalidInode := by
  have hnone : ∀ n, ¬ FirstNamed b m o n := by
    intro n h
    cases h with
    | here hm => exact hne hm
    | later _ hlt _ => exact hge hlt
  constructor
  · rintro (⟨n, hn, -⟩ | ⟨-, -, rfl⟩)
    · exact absurd hn (hnone n)
    · rfl
  · rintro rfl
    exact .inr ⟨hnone, .last (Nat.not_lt.mp hge), rfl⟩

theorem eq_entry_iff (ha : a.Holds m) (o : Nat) :
    a.eq (KString.make (fresh o) (Dirent.name b o) (Dirent.nameLen b o)) = true ↔
      Dirent.nameBytes b o = m.1 := by
  have hlen : Dirent.nameLen b o < strlenMax := by
    have := (b (o + 6)).toNat_lt
    have h1 : strlenMax = 1024 := rfl
    rw [Dirent.nameLen]
    omega
  rw [ha.eq_make_iff hlen]
  exact eq_comm

theorem find_sound (ha : a.Holds m) {fuel o : Nat} {c : Inode}
    (h : fs.findInodeFromDirentries getInode fresh b a fuel o = some c) :
    fs.Found getInode b m o c := by
  induction fuel generalizing o with
  | zero => exact absurd h (by simp [findInodeFromDirentries])
  | succ fuel ih =>
    rw [findInodeFromDirentries] at h
    by_cases hm : Dirent.nameBytes b o = m.1
    · rw [if_pos ((eq_entry_iff ha o).mpr hm)] at h
      exact .inl ⟨_, .here hm, (Option.some.inj h).symm⟩
    · rw [if_neg fun e => hm ((eq_entry_iff ha o).mp e)] at h
      dsimp only at h
      split at h
      · rename_i hlt
        exact (found_next hm hlt).mp (ih h)
      · rename_i hge
        exact (found_last hm hge).mpr (Option.some.inj h).symm

theorem find_mono {fuel k o : Nat} {c : Inode}
    (h : fs.findInodeFromDirentries getInode fresh b a fuel o = some c) :
    fs.findInodeFromDirentries getInode fresh b a (fuel + k) o = some c := by
  induction fuel generalizing o with
  | zero => exact absurd h (by simp [findInodeFromDirentries])
  | succ fuel ih =>
    rw [Nat.succ_add, findInodeFromDirentries]
    rw [findInodeFromDirentries] at h
    dsimp only at h ⊢
    split
    · rename_i he
      rw [if_pos he] at h
      exact h
    · rename_i he
      rw [if_neg he] at h
      split
      · rename_i hlt
        rw [if_pos hlt] at h
        exact ih h
      · rename_i hge
        rw [if_neg hge] at h
        exact h

theorem find_named (ha : a.Holds m) {o : Nat} {n : UInt32} (h : FirstNamed b m o n) :
    ∃ fuel, fs.findInodeFromDirentries getInode fresh b a fuel o = some (getInode n) := by
  induction h with
  | here hm => exact ⟨1, by rw [findInodeFromDirentries, if_pos ((eq_entry_iff ha _).mpr hm)]⟩
  | later hne hlt _ ih =>
    obtain ⟨fuel, hf⟩ := ih
    refine ⟨fuel + 1, ?_⟩
    rw [findInodeFromDirentries, if_neg fun e => hne ((eq_entry_iff ha _).mp e)]
    dsimp only
    rw [if_pos hlt, hf]

theorem find_left (ha : a.Holds m) {o : Nat} (hl : Leaves b o) (hnone : ∀ n, ¬ FirstNamed b m o n) :
    ∃ fuel, fs.findInodeFromDirentries getInode fresh b a fuel o = some fs.invalidInode := by
  induction hl with
  | last hge =>
    have hne : Dirent.nameBytes b _ ≠ m.1 := fun hm => hnone _ (.here hm)
    refine ⟨1, ?_⟩
    rw [findInodeFromDirentries, if_neg fun e => hne ((eq_entry_iff ha _).mp e)]
    dsimp only
    rw [if_neg (Nat.not_lt.mpr hge)]
  | next hlt _ ih =>
    have hne : Dirent.nameBytes b _ ≠ m.1 := fun hm => hnone _ (.here hm)
    obtain ⟨fuel, hf⟩ := ih fun n hn => hnone n (.later hne hlt hn)
    refine ⟨fuel + 1, ?_⟩
    rw [findInodeFromDirentries, if_neg fun e => hne ((eq_entry_iff ha _).mp e)]
    dsimp only
    rw [if_pos hlt, hf]

/-- **The walk over the buffer.** -/
theorem found_iff (ha : a.Holds m) (c : Inode) :
    (∃ fuel, fs.findInodeFromDirentries getInode fresh b a fuel 0 = some c) ↔
      fs.Found getInode b m 0 c := by
  constructor
  · rintro ⟨fuel, hf⟩
    exact find_sound ha hf
  · rintro (⟨n, hn, rfl⟩ | ⟨hnone, hl, rfl⟩)
    · exact find_named ha hn
    · exact find_left ha hl hnone

/-! ## One component -/

variable {junk : Junk} {i : Nat} {d c r : Inode} {path : List KString} {names : List Name}

/-- The loop of `get_inode_path` returns `r`. -/
def Returns (fs : Ext2) (getInode : UInt32 → Inode) (junk : Junk) (i : Nat) (d : Inode)
    (path : List KString) (r : Inode) : Prop :=
  ∃ fuel, fs.getInodePathFrom getInode junk fuel i d path = some r

theorem path_mono {fuel k : Nat} (h : fs.getInodePathFrom getInode junk fuel i d path = some r) :
    fs.getInodePathFrom getInode junk (fuel + k) i d path = some r := by
  induction path generalizing i d with
  | nil => exact h
  | cons name path ih =>
    rw [getInodePathFrom] at h ⊢
    split
    · rename_i hd
      rw [if_pos hd] at h
      exact h
    · rename_i hd
      rw [if_neg hd] at h
      split at h
      · exact absurd h (by simp)
      · rename_i c hc
        rw [find_mono hc]
        dsimp only
        split
        · rename_i hv
          rw [if_pos hv] at h
          exact h
        · rename_i hv
          rw [if_neg hv] at h
          exact ih h

theorem invalidInode_type (fs : Ext2) : fs.invalidInode.type = 0 := by
  rw [Inode.type, fs.invalid_mode]
  rfl

theorem invalidInode_not_valid (fs : Ext2) : fs.invalidInode.isValid = false := by
  rw [Inode.isValid, invalidInode_type]
  rfl

theorem isDirectory_of_type (h : d.type = 4) : d.isDirectory = true := by
  rw [Inode.isDirectory, h]
  rfl

theorem returns_nil : fs.Returns getInode junk i d [] r ↔ r = d := by
  constructor
  · rintro ⟨_, h⟩
    exact (Option.some.inj h).symm
  · rintro rfl
    exact ⟨0, rfl⟩

theorem returns_noDirectory (hd : d.isDirectory = false) :
    fs.Returns getInode junk i d (a :: path) r ↔ r = fs.invalidInode := by
  have he (fuel : Nat) :
      fs.getInodePathFrom getInode junk fuel i d (a :: path) = some fs.invalidInode := by
    rw [getInodePathFrom, hd]
    rfl
  constructor
  · rintro ⟨fuel, h⟩
    rw [he] at h
    exact (Option.some.inj h).symm
  · rintro rfl
    exact ⟨0, he 0⟩

/-- One component below a directory. -/
theorem returns_cons (ha : a.Holds m) (hd : d.isDirectory = true) :
    fs.Returns getInode junk i d (a :: path) r ↔
      ∃ c, fs.Found getInode (fs.dirBuffer d (junk.buffer i)) m 0 c ∧
        (c.isValid = true → fs.Returns getInode junk (i + 1) c path r) ∧
        (c.isValid = false → r = fs.invalidInode) := by
  have hcopy := ha.copy (junk.path i)
  constructor
  · rintro ⟨fuel, h⟩
    rw [getInodePathFrom, hd] at h
    simp only [Bool.not_true, Bool.false_eq_true, if_false] at h
    split at h
    · exact absurd h (by simp)
    · rename_i c hc
      refine ⟨c, (found_iff hcopy c).mp ⟨fuel, hc⟩, fun hv => ?_, fun hv => ?_⟩
      · rw [hv] at h
        exact ⟨fuel, h⟩
      · rw [hv] at h
        exact (Option.some.inj h).symm
  · rintro ⟨c, hc, hval, hinv⟩
    obtain ⟨fuel, hf⟩ := (found_iff hcopy c).mpr hc
    cases hv : c.isValid with
    | false =>
      refine ⟨fuel, ?_⟩
      rw [getInodePathFrom, hd, hf, hinv hv]
      simp [hv]
    | true =>
      obtain ⟨fuel', hf'⟩ := hval hv
      refine ⟨fuel + fuel', ?_⟩
      rw [getInodePathFrom, hd, find_mono hf]
      simp only [Bool.not_true, Bool.false_eq_true, if_false, hv]
      rw [Nat.add_comm]
      exact path_mono hf'

/-! ## A path and its prefixes -/

/-- `r` is the inode of the path, and `invalid_inode` exactly when the path leads nowhere. -/
def Answers (fs : Ext2) (r : Inode) (reached : Option Inode) : Prop :=
  r = reached.getD fs.invalidInode ∧ (r = fs.invalidInode ↔ reached = none)

/-- What lies in the buffer when `m` is looked up in `d`. Where `d` has a live entry `m`, the first
entry of that name in the buffer leads to the same inode. Where it has none, or is no directory but
has the bit `FT_DIR` in its type, there is no such entry in the buffer either, or only one of an
invalid inode. -/
def Finds (fs : Ext2) (getInode : UInt32 → Inode) (junk : Buf) (d : Inode) (m : Name) : Prop :=
  d.isDirectory = true →
    match fs.lookup d m with
    | some n => ∃ n', FirstNamed (fs.dirBuffer d junk) m 0 n' ∧ getInode n' = getInode n
    | none => (∃ n, FirstNamed (fs.dirBuffer d junk) m 0 n ∧ (getInode n).isValid = false) ∨
        (∀ n, ¬ FirstNamed (fs.dirBuffer d junk) m 0 n) ∧ Leaves (fs.dirBuffer d junk) 0

theorem answers_some (hv : d.isValid = true) : fs.Answers r (some d) ↔ r = d := by
  constructor
  · exact fun h => h.1
  · rintro rfl
    refine ⟨rfl, fun h => ?_, fun h => absurd h (by simp)⟩
    rw [h, invalidInode_not_valid] at hv
    exact absurd hv (by simp)

theorem answers_none : fs.Answers r none ↔ r = fs.invalidInode := by
  constructor
  · exact fun h => h.1
  · exact fun h => ⟨h, fun _ => rfl, fun _ => h⟩

theorem lookup_isDirectory {n : UInt32} (h : fs.lookup d m = some n) : d.isDirectory = true := by
  rw [lookup] at h
  split at h
  · rename_i ht
    exact isDirectory_of_type ht
  · exact absurd h (by simp)

/-- A live entry, found. -/
theorem Finds.found {n : UInt32} {junk : Buf} (h : fs.Finds getInode junk d m)
    (hl : fs.lookup d m = some n) : fs.Found getInode (fs.dirBuffer d junk) m 0 (getInode n) := by
  have := h (lookup_isDirectory hl)
  rw [hl] at this
  obtain ⟨n', hn', he⟩ := this
  exact .inl ⟨n', hn', he.symm⟩

/-- No live entry: what is found is no valid inode. -/
theorem Finds.not_found {junk : Buf} (h : fs.Finds getInode junk d m) (hd : d.isDirectory = true)
    (hl : fs.lookup d m = none) :
    ∃ c, fs.Found getInode (fs.dirBuffer d junk) m 0 c ∧ c.isValid = false := by
  have := h hd
  rw [hl] at this
  rcases this with ⟨n, hn, hv⟩ | ⟨hnone, hleaves⟩
  · exact ⟨_, .inl ⟨n, hn, rfl⟩, hv⟩
  · exact ⟨_, .inr ⟨hnone, hleaves, rfl⟩, invalidInode_not_valid fs⟩

/-- The converse: a single component that resolves right. -/
theorem finds_of_answers (ha : a.Holds m)
    (hv : ∀ n, fs.lookup d m = some n → (getInode n).isValid = true)
    (h : ∃ r, fs.Returns getInode junk i d [a] r ∧ fs.Answers r ((fs.lookup d m).map getInode)) :
    fs.Finds getInode (junk.buffer i) d m := by
  intro hd
  obtain ⟨r, hr, hans⟩ := h
  obtain ⟨c, hc, hval, hinv⟩ := (returns_cons ha hd).mp hr
  cases hl : fs.lookup d m with
  | some n =>
    rw [hl, Option.map_some, answers_some (hv n hl)] at hans
    subst hans
    -- the lookup cannot have answered `invalid_inode`
    have hcv : c.isValid = true := by
      by_contra hcv
      have := hinv (by simpa using hcv)
      have hvn := hv n hl
      rw [this, invalidInode_not_valid] at hvn
      exact absurd hvn (by simp)
    have he := returns_nil.mp (hval hcv)
    rcases hc with ⟨n', hn', rfl⟩ | ⟨-, -, rfl⟩
    · exact ⟨n', hn', he.symm⟩
    · rw [invalidInode_not_valid] at hcv
      exact absurd hcv (by simp)
  | none =>
    rw [hl, Option.map_none, answers_none] at hans
    subst hans
    have hcv : c.isValid = false := by
      by_contra hcv
      have he := returns_nil.mp (hval (by simpa using hcv))
      rw [← he, invalidInode_not_valid] at hcv
      exact hcv rfl
    rcases hc with ⟨n, hn, rfl⟩ | ⟨hnone, hleaves, -⟩
    · exact .inl ⟨n, hn, hcv⟩
    · exact .inr ⟨hnone, hleaves⟩

theorem resolveFrom_cons (d : Inode) (m : Name) (names : List Name) :
    fs.resolveFrom getInode d (m :: names)
      = (fs.lookup d m).bind fun n => fs.resolveFrom getInode (getInode n) names := rfl

theorem resolveFrom_single (d : Inode) (m : Name) :
    fs.resolveFrom getInode d [m] = (fs.lookup d m).map getInode := by
  rw [resolveFrom_cons]
  cases fs.lookup d m <;> rfl

/-- A component that is found, and what follows it. -/
theorem answers_cons (ha : a.Holds m)
    (hv : ∀ n, fs.lookup d m = some n → (getInode n).isValid = true)
    (hf : fs.Finds getInode (junk.buffer i) d m) :
    (∃ r, fs.Returns getInode junk i d (a :: path) r ∧
        fs.Answers r (fs.resolveFrom getInode d (m :: names))) ↔
      ∀ n, fs.lookup d m = some n → ∃ r, fs.Returns getInode junk (i + 1) (getInode n) path r ∧
        fs.Answers r (fs.resolveFrom getInode (getInode n) names) := by
  rw [resolveFrom_cons]
  constructor
  · rintro ⟨r, hr, hans⟩ n hl
    obtain ⟨c, hc, hval, -⟩ := (returns_cons ha (lookup_isDirectory hl)).mp hr
    obtain rfl := hc.unique (hf.found hl)
    rw [hl] at hans
    exact ⟨r, hval (hv n hl), hans⟩
  · intro h
    cases hl : fs.lookup d m with
    | some n =>
      obtain ⟨r, hr, hans⟩ := h n hl
      refine ⟨r, (returns_cons ha (lookup_isDirectory hl)).mpr
        ⟨getInode n, hf.found hl, fun _ => hr, fun hinv => ?_⟩, hans⟩
      rw [hv n hl] at hinv
      exact absurd hinv (by simp)
    | none =>
      refine ⟨fs.invalidInode, ?_, answers_none.mpr rfl⟩
      cases hd : d.isDirectory with
      | false => exact (returns_noDirectory hd).mpr rfl
      | true =>
        obtain ⟨c, hc, hcv⟩ := hf.not_found hd hl
        refine (returns_cons ha hd).mpr ⟨c, hc, fun hval => ?_, fun _ => rfl⟩
        rw [hcv] at hval
        exact absurd hval (by simp)

/-- From any inode on: induction on the names, one component at a time. -/
theorem pathFrom_iff (junk : Junk) (i : Nat)
    (hv : ∀ ms e, fs.resolveFrom getInode d ms = some e → e.isValid = true)
    (hp : List.Forall₂ KString.Holds path names) :
    (∀ k ≤ names.length, ∃ r, fs.Returns getInode junk i d (path.take k) r ∧
        fs.Answers r (fs.resolveFrom getInode d (names.take k))) ↔
      ∀ k m e, names[k]? = some m → fs.resolveFrom getInode d (names.take k) = some e →
        fs.Finds getInode (junk.buffer (i + k)) e m := by
  induction hp generalizing d i with
  | nil =>
    refine ⟨fun _ k m e hm => absurd hm (by simp), fun _ k _ => ⟨d, ?_, ?_⟩⟩
    · rw [List.take_nil]
      exact returns_nil.mpr rfl
    · rw [List.take_nil]
      exact (answers_some (hv [] d rfl)).mpr rfl
  | @cons a m path names ha _ ih =>
    have hvm : ∀ n, fs.lookup d m = some n → (getInode n).isValid = true := fun n hl =>
      hv [m] (getInode n) (by rw [resolveFrom_single, hl]; rfl)
    have hvn : ∀ n, fs.lookup d m = some n → ∀ ms e,
        fs.resolveFrom getInode (getInode n) ms = some e → e.isValid = true := fun n hl ms e he =>
      hv (m :: ms) e (by rw [resolveFrom_cons, hl]; exact he)
    constructor
    · intro h
      have hf : fs.Finds getInode (junk.buffer i) d m := by
        refine finds_of_answers ha hvm ?_
        have := h 1 (by simp)
        rwa [List.take_succ_cons, List.take_succ_cons, List.take_zero, List.take_zero,
          resolveFrom_single] at this
      intro k m' e hm' he
      cases k with
      | zero =>
        obtain rfl := Option.some.inj hm'
        obtain rfl := Option.some.inj he
        exact hf
      | succ k =>
        rw [List.take_succ_cons, resolveFrom_cons] at he
        obtain ⟨n, hl, he⟩ := Option.bind_eq_some_iff.mp he
        have := (ih (i + 1) (hvn n hl)).mp (fun k hk => (answers_cons ha hvm hf).mp
          (h (k + 1) (Nat.succ_le_succ hk)) n hl) k m' e hm' he
        rwa [Nat.add_assoc, Nat.add_comm 1] at this
    · intro h k hk
      cases k with
      | zero => exact ⟨d, returns_nil.mpr rfl, (answers_some (hv [] d rfl)).mpr rfl⟩
      | succ k =>
        refine (answers_cons ha hvm (h 0 m d rfl rfl)).mpr fun n hl => ?_
        refine (ih (i + 1) (hvn n hl)).mpr (fun k m' e hm' he => ?_) k (Nat.le_of_succ_le_succ hk)
        have := h (k + 1) m' e hm' (by rw [List.take_succ_cons, resolveFrom_cons, hl]; exact he)
        rwa [Nat.add_assoc, Nat.add_comm 1]

/-- **Path resolution**: a path and each of its prefixes. -/
theorem getInodePath_iff (hwf : fs.WellFormed getInode) (junk : Junk)
    (hp : List.Forall₂ KString.Holds path names) :
    (∀ k ≤ names.length, ∃ fuel r, fs.getInodePath getInode junk fuel (path.take k) = some r ∧
        fs.Answers r (fs.resolve getInode (names.take k))) ↔
      ∀ k m d, names[k]? = some m → fs.resolve getInode (names.take k) = some d →
        fs.Finds getInode (junk.buffer k) d m := by
  have := pathFrom_iff junk 0 hwf.valid hp
  simp only [Nat.zero_add] at this
  refine Iff.trans ?_ this
  refine forall₂_congr fun k _ => ?_
  constructor
  · rintro ⟨fuel, r, hr, hans⟩
    exact ⟨r, ⟨fuel, hr⟩, hans⟩
  · rintro ⟨r, ⟨fuel, hr⟩, hans⟩
    exact ⟨fuel, r, hr, hans⟩

end Ext2

/-! ## Directories of one small block -/

section OneBlock

variable {data buf : Buf} {o : Nat} {m : Name}

/-- The entry lies inside the buffer, which holds the block. -/
theorem dirent_congr (hag : ∀ k < 0x400, buf k = data k)
    (hin : o + 8 + Dirent.nameLen data o ≤ 0x400) :
    Dirent.inode buf o = Dirent.inode data o ∧ Dirent.recLen buf o = Dirent.recLen data o ∧
      Dirent.nameBytes buf o = Dirent.nameBytes data o := by
  have hlen : Dirent.nameLen buf o = Dirent.nameLen data o := by
    rw [Dirent.nameLen, hag _ (by omega), Dirent.nameLen]
  refine ⟨Buf.le32_congr fun k hk => hag _ (by omega), ?_, ?_⟩
  · exact congrArg UInt16.toNat (Buf.le16_congr fun k hk => hag _ (by omega))
  · rw [Dirent.nameBytes, hlen, Dirent.nameBytes]
    exact Buf.bytes_congr fun i hi => hag _ (by omega)

theorem Fills.le {bs : Nat} (h : Fills data bs o) : o ≤ bs := by
  cases h with
  | done => exact le_rfl
  | entry hlt => exact hlt.le

/-- Where the buffer is the whole block, the walk finds the first entry of the block. -/
theorem Fills.firstNamed (hag : ∀ k < 0x400, buf k = data k) (hf : Fills data 0x400 o)
    (ho : o < 0x400) (n : Nat) (hn : 0x400 ≤ o + n) :
    match (entriesFrom data 0x400 n o).find? fun e => e.name == m.1 with
    | some e => FirstNamed buf m o e.inode
    | none => (∀ n', ¬ FirstNamed buf m o n') ∧ Leaves buf o := by
  induction hf generalizing n with
  | done => omega
  | @entry o hlt hrec hrest ih =>
    have hle := hrest.le
    obtain ⟨hino, hlen, hname⟩ :=
      dirent_congr hag (show o + 8 + Dirent.nameLen data o ≤ 0x400 by omega)
    obtain ⟨n, rfl⟩ : ∃ k, n = k + 1 := ⟨n - 1, by omega⟩
    rw [entriesFrom, if_pos ho, List.find?_cons]
    by_cases hm : Dirent.nameBytes data o = m.1
    · simp only [hm, beq_self_eq_true]
      rw [← hino]
      exact .here (hname.trans hm)
    · simp only [beq_eq_false_iff_ne.mpr hm]
      have hne : Dirent.nameBytes buf o ≠ m.1 := fun h => hm (hname.symm.trans h)
      by_cases hnext : o + Dirent.recLen data o < 0x400
      · have := ih hnext n (by omega)
        rw [← hlen] at this hnext
        split at this
        · rename_i e he
          rw [← hlen, he]
          exact .later hne hnext this
        · rename_i he
          rw [← hlen, he]
          refine ⟨fun n' h => ?_, .next hnext this.2⟩
          cases h with
          | here h => exact hne h
          | later _ _ h => exact this.1 n' h
      · have hend : entriesFrom data 0x400 n (o + Dirent.recLen data o) = [] := by
          cases n with
          | zero => rfl
          | succ n => exact if_neg hnext
        rw [hend, List.find?_nil]
        rw [← hlen] at hnext
        refine ⟨fun n' h => ?_, .last (Nat.not_lt.mp hnext)⟩
        cases h with
        | here h => exact hne h
        | later _ h _ => exact hnext h

end OneBlock

namespace Ext2

variable {fs : Ext2} {getInode : UInt32 → Inode} {d : Inode}

/-- The buffer of `get_inode_path` holds the beginning of the first block. -/
theorem dirBuffer_eq (hbs : fs.BlockSizeOk) (hno : fs.NoHoles d) (haddr : fs.Addressed (d.iBlock 0))
    (hsize : fs.blockSize.toNat ≤ d.iSize.toNat) (junk : Buf) {k : Nat} (hk : k < 0x400) :
    fs.dirBuffer d junk k = fs.blockData d 0 k := by
  have hw : fs.blockWay d 0 = [d.iBlock 0] := rfl
  have hon : ∀ no ∈ fs.blockWay d 0, fs.OnDisk no := hno 0 (by omega)
  have hle := hbs.le
  have hdiv : (0 * fs.blockSize.toNat + k) / fs.blockSize.toNat = 0 := by
    rw [Nat.zero_mul, Nat.zero_add]
    exact Nat.div_eq_of_lt (by omega)
  have hmod : (0 * fs.blockSize.toNat + k) % fs.blockSize.toNat = k := by
    rw [Nat.zero_mul, Nat.zero_add]
    exact Nat.mod_eq_of_lt (by omega)
  rw [dirBuffer, Ata.read, haddr.toNat_addr hbs, Buf.put_zero_apply
    (show k < (0x400 : UInt32).toNat from hk), blockData, fileByte, hdiv, hmod, if_neg
    fun hz => (hon 0 hz).1 rfl]
  rfl

/-- **One block of 1024 bytes, no deleted entry**: every name is looked up right. -/
theorem finds_oneBlock (hbs : fs.blockSize = 1024) (hno : fs.NoHoles d)
    (haddr : fs.Addressed (d.iBlock 0)) (hsize : d.iSize = 1024)
    (hf : Fills (fs.blockData d 0) 0x400 0) (hlive : ∀ e ∈ fs.dirEntries d, e.inode ≠ 0)
    (ht : d.type = 4) (junk : Buf) (m : Name) : fs.Finds getInode junk d m := by
  intro _
  have hbs' : fs.BlockSizeOk := ⟨10, le_rfl, by rw [hbs]; rfl⟩
  have hag : ∀ k < 0x400, fs.dirBuffer d junk k = fs.blockData d 0 k := fun k hk =>
    dirBuffer_eq hbs' hno haddr (by rw [hbs, hsize]) junk hk
  have hent : fs.dirEntries d = entriesFrom (fs.blockData d 0) 0x400 0x400 0 := by
    rw [dirEntries, hsize, hbs]
    exact List.append_nil _
  have hfind : (fs.dirEntries d).find? (fun e => e.inode != 0 && e.name == m.1)
      = (fs.dirEntries d).find? fun e => e.name == m.1 := by
    refine List.find?_congr fun e he => ?_
    rw [bne_iff_ne.mpr (hlive e he), Bool.true_and]
  have hl : fs.lookup d m = ((entriesFrom (fs.blockData d 0) 0x400 0x400 0).find? fun e =>
      e.name == m.1).map Entry.inode := by
    rw [lookup, if_pos ht, hfind, hent]
  have := hf.firstNamed (m := m) hag (by omega) 0x400 (by omega)
  rw [hl]
  split at this
  · rename_i e he
    rw [he]
    exact ⟨e.inode, this, rfl⟩
  · rename_i he
    rw [he]
    exact .inr this

/-! ## A root directory of one and of two blocks -/

/-- A root directory of `n` blocks of 1024 bytes, the blocks 1 and 2 of the disk. The first has the
entry `b` with inode 11, the second the entry `a` with inode 12, each over the whole block. -/
def flatRoot (n : UInt32) : Ext2 where
  atadriver :=
    { size := 35328
      byte := fun p =>
        if p = 33280 then 11 else if p = 34304 then 12
        else if p = 33285 ∨ p = 34309 then 4
        else if p = 33286 ∨ p = 34310 then 1
        else if p = 33288 then 98 else if p = 34312 then 97 else 0 }
  blockSize := 1024
  rootInode := ⟨0x4000, n * 1024, fun i => if i = 0 then 1 else if i = 1 then 2 else 0⟩
  invalidInode := ⟨0, 0, fun _ => 0⟩
  invalid_mode := zeroInode_mode

/-- Every inode but the root is a regular file. -/
def regular (n : UInt32) : Inode := ⟨0x8000, n, fun _ => 0⟩

theorem regular_type (n : UInt32) : (regular n).type = 8 := by
  show (0x8000 : UInt16) >>> 12 = 8
  decide

theorem flatRoot_resolve {n : UInt32} {names : List Name}
    (h : (flatRoot n).resolve regular names = some d) :
    d = (flatRoot n).rootInode ∨ d.type = 8 := by
  cases names with
  | nil => exact .inl (Option.some.inj h).symm
  | cons m names =>
    rw [resolve, resolveFrom_cons] at h
    obtain ⟨k, -, h⟩ := Option.bind_eq_some_iff.mp h
    cases names with
    | nil =>
      obtain rfl := Option.some.inj h
      exact .inr (regular_type k)
    | cons m' names =>
      have hl : (flatRoot n).lookup (regular k) m' = none := by
        rw [lookup, regular_type, if_neg (by decide)]
      rw [resolveFrom_cons, hl] at h
      exact absurd h (by simp)

theorem flatRoot_noHoles {n : UInt32} (hn : n = 1 ∨ n = 2) :
    (flatRoot n).NoHoles (flatRoot n).rootInode := by
  have hsize : (flatRoot n).rootInode.iSize.toNat ≤ 2048 := by
    rcases hn with rfl | rfl <;> decide
  intro b hb no hno
  have hb2 : b < 2 := by
    have h1 : (b + 1) * 1024 ≤ (flatRoot n).rootInode.iSize.toNat := hb
    omega
  have hr : route (flatRoot n).nrPointers b = (Fin.ofNat 15 b, []) := route_direct (by omega)
  simp only [blockWay, hr, way, List.mem_singleton] at hno
  subst hno
  obtain rfl | rfl : b = 0 ∨ b = 1 := by omega
  · rcases hn with rfl | rfl <;> exact ⟨by decide, by decide⟩
  · rcases hn with rfl | rfl <;> exact ⟨by decide, by decide⟩

/-- The two blocks are full. -/
theorem flatRoot_fills {n : UInt32} (hn : n = 1 ∨ n = 2) {b : Nat} (hb : b < n.toNat) :
    Fills ((flatRoot n).blockData (flatRoot n).rootInode b) 1024 0 := by
  rcases hn with rfl | rfl
  · obtain rfl : b = 0 := Nat.lt_one_iff.mp hb
    exact .entry (by decide) (by decide +kernel) .done
  · obtain rfl | rfl : b = 0 ∨ b = 1 := by
      have : b < 2 := hb
      omega
    · exact .entry (by decide) (by decide +kernel) .done
    · exact .entry (by decide) (by decide +kernel) .done

theorem flatRoot_wellFormed {n : UInt32} (hn : n = 1 ∨ n = 2) :
    (flatRoot n).WellFormed regular where
  blockSize := ⟨10, by decide, by rcases hn with rfl | rfl <;> decide⟩
  root := by rcases hn with rfl | rfl <;> decide
  valid := by
    intro names d h
    rcases flatRoot_resolve h with rfl | ht
    · rcases hn with rfl | rfl <;> decide
    · rw [Inode.isValid, ht]
      rfl
  noHoles := by
    intro names d h ht
    rcases flatRoot_resolve h with rfl | ht'
    · exact flatRoot_noHoles hn
    · rw [ht'] at ht
      exact absurd ht (by decide)
  blocks := by
    intro names d h ht
    rcases flatRoot_resolve h with rfl | ht'
    · have hdiv : (flatRoot n).rootInode.iSize.toNat / (flatRoot n).blockSize.toNat = n.toNat ∧
          (flatRoot n).rootInode.iSize.toNat % (flatRoot n).blockSize.toNat = 0 := by
        rcases hn with rfl | rfl <;> decide
      rw [hdiv.1]
      exact ⟨hdiv.2, fun b hb => flatRoot_fills hn hb⟩
    · rw [ht'] at ht
      exact absurd ht (by decide)

/-- A name of one letter, and a string that holds it. -/
def letter (x : UInt8) (hx : x ≠ 0) : Name := ⟨[x], by simpa using hx.symm⟩

def letterString (x : UInt8) : KString := ⟨fun i => if i = 0 then x else 0, 1⟩

theorem letterString_holds (x : UInt8) (hx : x ≠ 0) : (letterString x).Holds (letter x hx) := by
  refine ⟨rfl, fun i hi _ => ?_, fun _ => rfl⟩
  obtain rfl : i = 0 := Nat.lt_one_iff.mp hi
  rfl

def noJunk : Junk := ⟨fun _ _ => 0, fun _ _ _ => 0, fun _ _ => 0⟩

/-- The entry `a` in the second block is not found. -/
theorem getInodePath_wrong : ¬ ∀ (fs : Ext2) (getInode : UInt32 → Inode), fs.WellFormed getInode →
    ∀ (junk : Junk) (path : List KString) (names : List Name),
      List.Forall₂ KString.Holds path names →
      ∃ fuel r, fs.getInodePath getInode junk fuel path = some r ∧
        fs.Answers r (fs.resolve getInode names) := by
  intro h
  obtain ⟨fuel, r, hr, hans, -⟩ := h (flatRoot 2) regular (flatRoot_wellFormed (.inr rfl)) noJunk
    [letterString 97] [letter 97 (by decide)] (.cons (letterString_holds 97 (by decide)) .nil)
  have hcode : ((flatRoot 2).getInodePath regular noJunk 1 [letterString 97]).map Inode.iMode
      = some 0 := by
    decide +kernel
  have hspec : ((flatRoot 2).resolve regular [letter 97 (by decide)]).map Inode.iMode
      = some 0x8000 := by
    decide +kernel
  obtain ⟨r', hr', hmode⟩ := Option.map_eq_some_iff.mp hcode
  obtain ⟨d, hd, hmode'⟩ := Option.map_eq_some_iff.mp hspec
  -- both runs with the fuel of both
  have h1 := path_mono (k := fuel) hr'
  have h2 := path_mono (k := 1) hr
  rw [Nat.add_comm, h2] at h1
  rw [hd] at hans
  rw [← Option.some.inj h1, hans, Option.getD_some, hmode'] at hmode
  exact absurd hmode (by decide)

/-- The block 2 of the disk, as a directory. -/
def subDirectory : Inode := ⟨0x4000, 1024, fun i => if i = 0 then 2 else 0⟩

/-- The inode 11, which the root directory calls `b`, is the directory with the entry `a`. -/
def nested (n : UInt32) : Inode := if n = 11 then subDirectory else regular n

/-- The inodes of the tree below `flatRoot 1`. -/
def InNested (d : Inode) : Prop :=
  d = (flatRoot 1).rootInode ∨ d = subDirectory ∨ d.type = 8

theorem nested_inNested (n : UInt32) : InNested (nested n) := by
  unfold nested
  split
  · exact .inr (.inl rfl)
  · exact .inr (.inr (regular_type n))

theorem resolveFrom_inNested {names : List Name} {d d' : Inode} (hd : InNested d)
    (h : (flatRoot 1).resolveFrom nested d names = some d') : InNested d' := by
  induction names generalizing d with
  | nil =>
    obtain rfl := Option.some.inj h
    exact hd
  | cons m names ih =>
    rw [resolveFrom_cons] at h
    obtain ⟨k, -, h⟩ := Option.bind_eq_some_iff.mp h
    exact ih (nested_inNested k) h

theorem resolve_inNested {names : List Name} {d : Inode}
    (h : (flatRoot 1).resolve nested names = some d) : InNested d :=
  resolveFrom_inNested (.inl rfl) h

theorem subDirectory_noHoles : (flatRoot 1).NoHoles subDirectory := by
  intro b hb no hno
  obtain rfl : b = 0 := by
    have : (b + 1) * 1024 ≤ 1024 := hb
    omega
  obtain rfl : no = 2 := List.mem_singleton.mp hno
  exact ⟨by decide, by decide⟩

theorem subDirectory_fills : Fills ((flatRoot 1).blockData subDirectory 0) 1024 0 :=
  .entry (by decide) (by decide +kernel) .done

theorem nested_wellFormed : (flatRoot 1).WellFormed nested where
  blockSize := ⟨10, by decide, by decide⟩
  root := by decide
  valid := by
    intro names d h
    rcases resolve_inNested h with rfl | rfl | ht
    · decide
    · decide
    · rw [Inode.isValid, ht]
      rfl
  noHoles := by
    intro names d h ht
    rcases resolve_inNested h with rfl | rfl | ht'
    · exact flatRoot_noHoles (.inl rfl)
    · exact subDirectory_noHoles
    · rw [ht'] at ht
      exact absurd ht (by decide)
  blocks := by
    intro names d h ht
    rcases resolve_inNested h with rfl | rfl | ht'
    · refine ⟨by decide, fun b hb => ?_⟩
      exact flatRoot_fills (.inl rfl) hb
    · refine ⟨by decide, fun b hb => ?_⟩
      obtain rfl : b = 0 := by
        have : b < 1 := hb
        omega
      exact subDirectory_fills
    · rw [ht'] at ht
      exact absurd ht (by decide)

/-- The path `/b/a` through two directories of one block each. -/
theorem getInodePath_nested : ∃ fuel r,
    (flatRoot 1).getInodePath nested noJunk fuel [letterString 98, letterString 97] = some r ∧
      (flatRoot 1).Answers r
        ((flatRoot 1).resolve nested [letter 98 (by decide), letter 97 (by decide)]) := by
  refine (getInodePath_iff nested_wellFormed noJunk (.cons (letterString_holds 98 (by decide))
    (.cons (letterString_holds 97 (by decide)) .nil))).mpr (fun k m d hm hd => ?_) 2 le_rfl
  have hroot : ∀ e ∈ (flatRoot 1).dirEntries (flatRoot 1).rootInode, e.inode ≠ 0 := by
    decide +kernel
  have hsub : ∀ e ∈ (flatRoot 1).dirEntries subDirectory, e.inode ≠ 0 := by decide +kernel
  rcases resolve_inNested hd with rfl | rfl | ht
  · exact finds_oneBlock rfl (flatRoot_noHoles (.inl rfl)) (by decide) (by decide)
      (flatRoot_fills (.inl rfl) (by decide)) hroot (by decide) _ m
  · exact finds_oneBlock rfl subDirectory_noHoles (by decide) (by decide) subDirectory_fills hsub
      (by decide) _ m
  · -- what the first two names lead through are directories
    match k, hm, hd with
    | 0, _, hd =>
      obtain rfl := Option.some.inj hd
      exact absurd ht (by decide)
    | 1, _, hd =>
      have hdir : ((flatRoot 1).resolve nested [letter 98 (by decide)]).map Inode.type =
          some 4 := by
        decide +kernel
      have hd' : (flatRoot 1).resolve nested [letter 98 (by decide)] = some d := hd
      rw [hd', Option.map_some, ht] at hdir
      exact absurd hdir (by decide)
    | k + 2, hm, _ => exact absurd hm (by simp)

end Ext2

end OwnOS.Disk
