import OwnOS.Disk.Resolve

/-!
# Which directory blocks can be scanned (`Ext2.cpp:40-52`)

`find_inode_from_direntries` adds the `rec_len` of an entry to reach the next one and tests the new
offset only. A `rec_len` of 0 keeps the loop where it is, and an entry that starts in the buffer may
reach over its end.

* `LooksAt`: the entries that the loop looks at, that is, those it reads with some fuel
  (`looksAt_iff_reads`).
* `dirScan_iff`: the loop ends and stays inside the buffer iff no entry of the chain, up to the
  first one of the name, reaches over the end or keeps the loop where it is (`Scannable`).
-/

namespace OwnOS.Disk

open Lib

/-- Where the `n`-th entry of the chain starts. -/
def chainAt (b : Buf) : Nat → Nat
  | 0 => 0
  | n + 1 => chainAt b n + Dirent.recLen b (chainAt b n)

/-- The entry `n` is in the buffer, and none before it has the name. -/
structure Searched (b : Buf) (m : Name) (n : Nat) : Prop where
  lt : ∀ j ≤ n, chainAt b j < 0x400
  ne : ∀ j < n, Dirent.nameBytes b (chainAt b j) ≠ m.1

/-- Each entry up to the first one named `m` lies in the buffer with its header and its name, and
those before it lead on. -/
def Scannable (b : Buf) (m : Name) : Prop :=
  ∀ n, Searched b m n →
    chainAt b n + 8 + Dirent.nameLen b (chainAt b n) ≤ 0x400 ∧
      (Dirent.nameBytes b (chainAt b n) ≠ m.1 → Dirent.recLen b (chainAt b n) ≠ 0)

theorem searched_zero (b : Buf) (m : Name) : Searched b m 0 where
  lt j hj := by
    rw [Nat.le_zero.mp hj]
    exact Nat.zero_lt_succ _
  ne j hj := absurd hj (Nat.not_lt_zero j)

theorem Searched.succ {b : Buf} {m : Name} {n : Nat} (h : Searched b m n)
    (hne : Dirent.nameBytes b (chainAt b n) ≠ m.1)
    (hlt : chainAt b n + Dirent.recLen b (chainAt b n) < 0x400) : Searched b m (n + 1) where
  lt j hj := by
    rcases Nat.le_succ_iff.mp hj with hj | rfl
    · exact h.lt j hj
    · exact hlt
  ne j hj := by
    rcases Nat.lt_succ_iff_lt_or_eq.mp hj with hj | rfl
    · exact h.ne j hj
    · exact hne

theorem Searched.pred {b : Buf} {m : Name} {n : Nat} (h : Searched b m (n + 1)) :
    Searched b m n ∧ Dirent.nameBytes b (chainAt b n) ≠ m.1 ∧
      chainAt b n + Dirent.recLen b (chainAt b n) < 0x400 :=
  ⟨⟨fun j hj => h.lt j (by omega), fun j hj => h.ne j (by omega)⟩, h.ne n n.lt_succ_self,
    h.lt (n + 1) le_rfl⟩

namespace Ext2

/-- The entries whose header and name the loop reads. -/
inductive LooksAt (fresh : Nat → Buf) (buffer : Buf) (searchFor : KString) : Nat → Prop
  | first : LooksAt fresh buffer searchFor 0
  | next {file : Nat} : LooksAt fresh buffer searchFor file →
      searchFor.eq (KString.make (fresh file) (Dirent.name buffer file)
        (Dirent.nameLen buffer file)) = false →
      file + Dirent.recLen buffer file < 0x400 →
      LooksAt fresh buffer searchFor (file + Dirent.recLen buffer file)

/-- The loop ends. -/
def Ends (fs : Ext2) (getInode : UInt32 → Inode) (fresh : Nat → Buf) (buffer : Buf)
    (searchFor : KString) (file : Nat) : Prop :=
  ∃ fuel c, fs.findInodeFromDirentries getInode fresh buffer searchFor fuel file = some c

variable {fs : Ext2} {getInode : UInt32 → Inode} {fresh : Nat → Buf} {b : Buf} {a : KString}
  {m : Name} {o : Nat}

/-! ## The entries the loop reads -/

/-- `find_inode_from_direntries` with the offsets of the entries that it reads. -/
def findInodeReads (fs : Ext2) (getInode : UInt32 → Inode) (fresh : Nat → Buf) (buffer : Buf)
    (searchFor : KString) : Nat → Nat → Option Inode × List Nat
  | 0, _ => (none, [])
  | fuel + 1, file =>
    let fileName := KString.make (fresh file) (Dirent.name buffer file) (Dirent.nameLen buffer file)
    if searchFor.eq fileName then (some (getInode (Dirent.inode buffer file)), [file])
    else if file + Dirent.recLen buffer file < 0x400 then
      let (c, files) := findInodeReads fs getInode fresh buffer searchFor fuel
        (file + Dirent.recLen buffer file)
      (c, file :: files)
    else (some fs.invalidInode, [file])

theorem findInodeReads_fst (fuel o : Nat) :
    (fs.findInodeReads getInode fresh b a fuel o).1
      = fs.findInodeFromDirentries getInode fresh b a fuel o := by
  induction fuel generalizing o with
  | zero => rfl
  | succ fuel ih =>
    rw [findInodeReads, findInodeFromDirentries]
    dsimp only
    split
    · rfl
    · split
      · exact ih _
      · rfl

theorem findInodeReads_next (hne : a.eq (KString.make (fresh o) (Dirent.name b o)
      (Dirent.nameLen b o)) = false) (hlt : o + Dirent.recLen b o < 0x400) (fuel : Nat) :
    (fs.findInodeReads getInode fresh b a (fuel + 1) o).2
      = o :: (fs.findInodeReads getInode fresh b a fuel (o + Dirent.recLen b o)).2 := by
  rw [findInodeReads]
  dsimp only
  rw [if_neg (by rw [hne]; exact Bool.false_ne_true), if_pos hlt]

theorem mem_findInodeReads_one (o : Nat) :
    o ∈ (fs.findInodeReads getInode fresh b a 1 o).2 := by
  rw [findInodeReads]
  dsimp only
  split
  · exact List.mem_singleton_self o
  · split
    · exact List.mem_cons_self
    · exact List.mem_singleton_self o

theorem LooksAt.of_reads {fuel o' : Nat} (ho : LooksAt fresh b a o)
    (h : o' ∈ (fs.findInodeReads getInode fresh b a fuel o).2) : LooksAt fresh b a o' := by
  induction fuel generalizing o with
  | zero => exact absurd h (by simp [findInodeReads])
  | succ fuel ih =>
    rw [findInodeReads] at h
    dsimp only at h
    split at h
    · obtain rfl := List.mem_singleton.mp h
      exact ho
    · rename_i hne
      split at h
      · rename_i hlt
        rcases List.mem_cons.mp h with rfl | h
        · exact ho
        · exact ih (ho.next (Bool.not_eq_true _ ▸ hne) hlt) h
      · obtain rfl := List.mem_singleton.mp h
        exact ho

/-- The loop comes to an entry it looks at with the fuel that is left. -/
theorem LooksAt.reads (fs : Ext2) (getInode : UInt32 → Inode) (h : LooksAt fresh b a o) :
    ∃ k front, ∀ fuel,
      (fs.findInodeReads getInode fresh b a (k + fuel) 0).2
        = front ++ (fs.findInodeReads getInode fresh b a fuel o).2 := by
  induction h with
  | first => exact ⟨0, [], fun fuel => by rw [Nat.zero_add, List.nil_append]⟩
  | next _ hne hlt ih =>
    rename_i file _
    obtain ⟨k, front, ih⟩ := ih
    refine ⟨k + 1, front ++ [file], fun fuel => ?_⟩
    rw [Nat.add_assoc, Nat.add_comm 1, ih, findInodeReads_next hne hlt, List.append_assoc]
    rfl

/-- **What `LooksAt` says**: the offsets that the loop reads. -/
theorem looksAt_iff_reads (fs : Ext2) (getInode : UInt32 → Inode) (fresh : Nat → Buf) (b : Buf)
    (a : KString) (o : Nat) :
    LooksAt fresh b a o ↔ ∃ fuel, o ∈ (fs.findInodeReads getInode fresh b a fuel 0).2 := by
  constructor
  · intro h
    obtain ⟨k, front, hk⟩ := LooksAt.reads fs getInode h
    refine ⟨k + 1, ?_⟩
    rw [hk]
    exact List.mem_append_right _ (mem_findInodeReads_one o)
  · rintro ⟨fuel, h⟩
    exact LooksAt.first.of_reads h

/-! ## Which blocks can be scanned -/

theorem eq_entry_false (ha : a.Holds m) (o : Nat) :
    a.eq (KString.make (fresh o) (Dirent.name b o) (Dirent.nameLen b o)) = false ↔
      Dirent.nameBytes b o ≠ m.1 := by
  rw [← Bool.not_eq_true, eq_entry_iff ha o]

theorem ends_of_named (ha : a.Holds m) (hm : Dirent.nameBytes b o = m.1) :
    fs.Ends getInode fresh b a o := by
  refine ⟨1, getInode (Dirent.inode b o), ?_⟩
  rw [findInodeFromDirentries, if_pos ((eq_entry_iff ha o).mpr hm)]

theorem ends_of_left (ha : a.Holds m) (hne : Dirent.nameBytes b o ≠ m.1)
    (hge : 0x400 ≤ o + Dirent.recLen b o) : fs.Ends getInode fresh b a o := by
  refine ⟨1, fs.invalidInode, ?_⟩
  rw [findInodeFromDirentries, if_neg fun e => hne ((eq_entry_iff ha o).mp e)]
  exact if_neg (Nat.not_lt.mpr hge)

theorem ends_next (ha : a.Holds m) (hne : Dirent.nameBytes b o ≠ m.1)
    (hlt : o + Dirent.recLen b o < 0x400) :
    fs.Ends getInode fresh b a o ↔ fs.Ends getInode fresh b a (o + Dirent.recLen b o) := by
  have hstep (fuel : Nat) : fs.findInodeFromDirentries getInode fresh b a (fuel + 1) o
      = fs.findInodeFromDirentries getInode fresh b a fuel (o + Dirent.recLen b o) := by
    rw [findInodeFromDirentries, if_neg fun e => hne ((eq_entry_iff ha o).mp e)]
    exact if_pos hlt
  constructor
  · rintro ⟨fuel, c, h⟩
    cases fuel with
    | zero => exact absurd h (by simp [findInodeFromDirentries])
    | succ fuel => exact ⟨fuel, c, (hstep fuel).symm.trans h⟩
  · rintro ⟨fuel, c, h⟩
    exact ⟨fuel + 1, c, (hstep fuel).trans h⟩

/-- An entry of another name whose `rec_len` is 0 is looked at for ever. -/
theorem not_ends_of_recLen (ha : a.Holds m) (hne : Dirent.nameBytes b o ≠ m.1) (ho : o < 0x400)
    (hr : Dirent.recLen b o = 0) : ¬ fs.Ends getInode fresh b a o := by
  rintro ⟨fuel, c, h⟩
  induction fuel with
  | zero => exact absurd h (by simp [findInodeFromDirentries])
  | succ fuel ih =>
    rw [findInodeFromDirentries, if_neg fun e => hne ((eq_entry_iff ha o).mp e)] at h
    dsimp only at h
    rw [hr, Nat.add_zero, if_pos ho] at h
    exact ih h

/-- The loop looks at the entries of the chain up to the first one of the name. -/
theorem looksAt_iff (ha : a.Holds m) :
    LooksAt fresh b a o ↔ ∃ n, Searched b m n ∧ chainAt b n = o := by
  constructor
  · intro h
    induction h with
    | first => exact ⟨0, searched_zero b m, rfl⟩
    | next _ hne hlt ih =>
      obtain ⟨n, hn, rfl⟩ := ih
      exact ⟨n + 1, hn.succ ((eq_entry_false ha _).mp hne) hlt, rfl⟩
  · rintro ⟨n, hn, rfl⟩
    induction n with
    | zero => exact .first
    | succ n ih =>
      obtain ⟨hn, hne, hlt⟩ := hn.pred
      exact .next (ih hn) ((eq_entry_false ha _).mpr hne) hlt

/-- A loop that ends is still to end at each entry it looks at. -/
theorem ends_chainAt (ha : a.Holds m) {n : Nat} (hn : Searched b m n)
    (h : fs.Ends getInode fresh b a 0) : fs.Ends getInode fresh b a (chainAt b n) := by
  induction n with
  | zero => exact h
  | succ n ih =>
    obtain ⟨hn, hne, hlt⟩ := hn.pred
    exact (ends_next ha hne hlt).mp (ih hn)

/-- In a chain that can be scanned every step leads on. -/
theorem ends_of_scannable (ha : a.Holds m) (hs : Scannable b m) {n : Nat} (hn : Searched b m n) :
    fs.Ends getInode fresh b a (chainAt b n) := by
  -- on the bytes that are left
  induction hk : 0x400 - chainAt b n using Nat.strong_induction_on generalizing n with
  | _ k ih =>
    by_cases hm : Dirent.nameBytes b (chainAt b n) = m.1
    · exact ends_of_named ha hm
    · have hr := (hs n hn).2 hm
      by_cases hlt : chainAt b n + Dirent.recLen b (chainAt b n) < 0x400
      · have hnext := hn.succ hm hlt
        refine (ends_next ha hm hlt).mpr (ih (0x400 - chainAt b (n + 1)) ?_ hnext rfl)
        rw [chainAt]
        omega
      · exact ends_of_left ha hm (Nat.not_lt.mp hlt)

/-- **Scanning a directory block.** -/
theorem dirScan_iff (fs : Ext2) (getInode : UInt32 → Inode) (fresh : Nat → Buf) (b : Buf)
    (a : KString) (m : Name) (ha : a.Holds m) :
    (fs.Ends getInode fresh b a 0 ∧
        ∀ o, LooksAt fresh b a o → o + 8 + Dirent.nameLen b o ≤ 0x400) ↔ Scannable b m := by
  constructor
  · rintro ⟨hends, hin⟩ n hn
    refine ⟨hin _ ((looksAt_iff ha).mpr ⟨n, hn, rfl⟩), fun hne hr => ?_⟩
    exact not_ends_of_recLen ha hne (hn.lt n le_rfl) hr (ends_chainAt ha hn hends)
  · intro hs
    refine ⟨ends_of_scannable ha hs (searched_zero b m), fun o ho => ?_⟩
    obtain ⟨n, hn, rfl⟩ := (looksAt_iff ha).mp ho
    exact (hs n hn).1

/-- A block of zeros: the first entry has no name and leads to itself. -/
theorem dirScan_fails : ¬ ∀ (fs : Ext2) (getInode : UInt32 → Inode) (fresh : Nat → Buf) (b : Buf)
    (a : KString) (m : Name), a.Holds m → fs.Ends getInode fresh b a 0 ∧
      ∀ o, LooksAt fresh b a o → o + 8 + Dirent.nameLen b o ≤ 0x400 := by
  intro h
  refine not_ends_of_recLen (letterString_holds 97 (by decide)) ?_ (by decide) rfl
    (h (flatRoot 1) regular (fun _ _ => 0) (fun _ => 0)
      (letterString 97) _ (letterString_holds 97 (by decide))).1
  simp [Dirent.nameBytes, Dirent.nameLen, Buf.bytes, letter]

/-- One entry `b` that fills the block. -/
def entryB : Buf := fun i => if i = 5 then 4 else if i = 6 then 1 else if i = 8 then 98 else 0

/-- The name `a` is looked for in it. -/
theorem dirScan_entryB : (flatRoot 1).Ends regular (fun _ _ => 0) entryB (letterString 97) 0 ∧
    ∀ o, LooksAt (fun _ _ => 0) entryB (letterString 97) o →
      o + 8 + Dirent.nameLen entryB o ≤ 0x400 := by
  refine (dirScan_iff (flatRoot 1) _ _ entryB _ _ (letterString_holds 97 (by decide))).mpr
    fun n hn => ?_
  obtain rfl : n = 0 := by
    by_contra h0
    exact absurd (hn.lt 1 (Nat.pos_of_ne_zero h0)) (by decide)
  exact ⟨by decide, fun _ => by decide⟩

end Ext2

end OwnOS.Disk
