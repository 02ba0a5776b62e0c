import OwnOS.Kmalloc.FindsMemory

/-!
# What `kmalloc` returns (`kmalloc.cpp:19-42`)

The request is rounded up with its header in 32 bits, and a block is taken when it is at least that
large. Two requests get a pointer to less than they asked for:

* one close to `2^32`, whose rounded size wraps to 0, 4 or 8 and fits any block;
* one that fits a block exactly: the new header is the old one, and `next_free->size -= rsize` sets
  its size to 0.

* `carve_size`: what the header before the returned pointer says.
* `kmalloc_inside_iff`: **`kmalloc` panics or returns what was asked for, inside the arena and the
  block, exactly for the other requests.**
-/

namespace OwnOS.Kmalloc

open Lib Lib.Word

variable {h : Kmalloc} {l P Q M N : List Blk} {b c f : Blk} {size rsize p : UInt32}

/-! ## Aligned rings -/

/-- A ring in memory whose headers are aligned. -/
structure AlignedRing (h : Kmalloc) (l : List Blk) : Prop extends Ring h l where
  bound : (resetPtr h.base).toNat + 0x20000 ≤ 4294967296
  aligned : ∀ b ∈ l, b.addr.toNat % 4 = 0

/-- The pointer `p` to `size` bytes is aligned, and `[p, p + size)` lies inside the arena and inside
the block of the header before `p`. -/
structure Usable (h : Kmalloc) (p size : UInt32) : Prop where
  aligned : p.toNat % kmallocAlign.toNat = 0
  arena : Set.Ico p.toNat (p.toNat + size.toNat) ⊆
    Set.Ico (resetPtr h.base).toNat ((resetPtr h.base).toNat + 0x20000)
  block : Set.Ico p.toNat (p.toNat + size.toNat) ⊆
    Set.Ico (p - headerSize).toNat ((p - headerSize).toNat + (h.size (p - headerSize)).toNat)

/-- `kmalloc` panics, or returns as many bytes as it was asked for. -/
def Inside (h : Kmalloc) (size : UInt32) : Prop :=
  (∃ msg, h.kmalloc size = .error (.panic msg)) ∨
  ∃ h₂ p, h.kmalloc size = .ok (h₂, p) ∧ Usable h₂ p size

/-- The blocks the search comes to, from `next_free` on. -/
def searched (h : Kmalloc) (P : List Blk) (b : Blk) (Q : List Blk) : List Blk :=
  b :: (Q ++ if isUsed h.base then P else [])

namespace AlignedRing

/-- A block ends where an aligned header begins, or with the arena. -/
theorem end_aligned (h' : AlignedRing h (P ++ f :: Q)) : (f.addr.toNat + f.size.toNat) % 4 = 0 := by
  obtain ⟨m, -, hm, hQ⟩ := tiles_append.mp h'.tiles
  have hm : f.addr.toNat = m := hm
  cases Q with
  | nil =>
    have hend : m + f.size.toNat = (resetPtr h.base).toNat + 0x20000 := hQ
    have hbase : (resetPtr h.base).toNat % 4 = 0 := by
      cases P with
      | nil =>
        rw [h'.toRing.head_eq.1]
        exact h'.aligned f (by simp)
      | cons d P =>
        rw [(Ring.head_eq (l := P ++ [f]) h'.toRing).1]
        exact h'.aligned d (by simp)
    omega
  | cons n Q =>
    have hn : n.addr.toNat = m + f.size.toNat := hQ.1
    have := h'.aligned n (by simp)
    omega

theorem addr_bounds (h' : AlignedRing h l) (hf : f ∈ l) : (resetPtr h.base).toNat ≤ f.addr.toNat ∧
    f.addr.toNat + f.size.toNat ≤ (resetPtr h.base).toNat + 0x20000 :=
  h'.tiles.bounds hf

end AlignedRing

/-! ## Carving -/

/-- Where the new header goes. -/
theorem newHeader_toNat (hend : f.addr.toNat + f.size.toNat ≤ 4294967296) (hpos : 0 < rsize.toNat)
    (hfit : rsize ≤ f.size) :
    (f.addr + f.size - rsize).toNat = f.addr.toNat + f.size.toNat - rsize.toNat := by
  have hle := UInt32.le_iff_toNat_le.mp hfit
  rw [UInt32.toNat_sub, UInt32.toNat_add]
  omega

/-- **What the new header says**: the rounded size, unless the block is used up. -/
theorem carve_size (hf : f.req = none) (ha : f.addr.toNat % 4 = 0)
    (hs : (f.addr.toNat + f.size.toNat) % 4 = 0) (hend : f.addr.toNat + f.size.toNat ≤ 4294967296)
    (hmem : h.size f.ptr = f.size) (h8 : 8 ≤ rsize.toNat) (h4 : rsize.toNat % 4 = 0)
    (hfit : rsize ≤ f.size) :
    (h.carve f.ptr rsize).2 = f.addr + f.size - rsize + headerSize ∧
      (h.carve f.ptr rsize).1.size (f.addr + f.size - rsize) = if f.size = rsize then 0
      else rsize := by
  have hle := UInt32.le_iff_toNat_le.mp hfit
  have hnp := newHeader_toNat hend (by omega) hfit
  generalize hq : f.addr + f.size - rsize = q at hnp ⊢
  have hqe : q.toNat % 2 = 0 := by omega
  have hu : resetPtr (setUsed q true) = q := resetPtr_ptr (b := ⟨q, rsize, some 0⟩) hqe
  have hqr := resetPtr_of_even hqe
  have hfe : f.addr.toNat % 2 = 0 := by omega
  have hfp := ptr_of_free hfe hf
  have hreset := resetPtr_of_even hfe
  have hfour : (4 : UInt32).toNat = 4 := rfl
  have hf4 : (f.addr + 4).toNat = f.addr.toNat + 4 := toNat_add_of_lt (by rw [hfour]; omega)
  have hq4 : (q + 4).toNat = q.toNat + 4 := toNat_add_of_lt (by rw [hfour]; omega)
  rw [hfp] at hmem ⊢
  have hmem4 : h.mem (f.addr + 4) = f.size := by
    rw [← hmem, Kmalloc.size, hreset]
  have hp : setUsed (resetPtr f.addr + h.size f.addr - rsize) true = setUsed q true := by
    rw [hreset, hmem, hq]
  constructor
  · simp only [Kmalloc.carve, Kmalloc.size, hreset, hmem4, hq, hu]
  · by_cases hall : f.size = rsize
    · -- the new header lies on the old one
      obtain rfl : f.addr = q := UInt32.toNat_inj.mp (by rw [hnp, hall]; omega)
      have ne : f.addr ≠ f.addr + 4 := ne_of_toNat_lt (by omega)
      simp only [Kmalloc.carve, Kmalloc.size, next, setNext, setSize, store, hreset, hmem4, hq, hu,
        Function.update_of_ne ne.symm, Function.update_self, UInt32.sub_self, if_pos hall]
    · have hlt : rsize.toNat + 4 ≤ f.size.toNat := by
        have hne : f.size.toNat ≠ rsize.toNat := fun he => hall (UInt32.toNat_inj.mp he)
        omega
      have ne3 : f.addr ≠ q + 4 := ne_of_toNat_lt (by omega)
      have ne5 : f.addr + 4 ≠ q + 4 := ne_of_toNat_lt (by omega)
      simp only [Kmalloc.carve, Kmalloc.size, next, setNext, setSize, store,
        hreset, hqr, hmem4, hq, hu, Function.update_of_ne ne5.symm, Function.update_of_ne ne3.symm,
        Function.update_self,
        if_neg hall]

/-! ## What is returned -/

/-- Bytes inside an interval are not more than it has. -/
theorem le_of_inside {a e n m : Nat} (hn : 0 < n) (h : Set.Ico m (m + n) ⊆ Set.Ico a (a + e)) :
    a ≤ m ∧ m + n ≤ a + e := by
  obtain ⟨h1, -⟩ := h (show m ∈ Set.Ico m (m + n) from ⟨Nat.le_refl _, by omega⟩)
  obtain ⟨-, h2⟩ := h (show m + n - 1 ∈ Set.Ico m (m + n) from ⟨by omega, by omega⟩)
  exact ⟨h1, by omega⟩

/-- No bytes are inside any interval. -/
theorem ico_empty {n m : Nat} (hn : n = 0) (S : Set Nat) : Set.Ico m (m + n) ⊆ S := by
  rw [hn, Nat.add_zero, Set.Ico_self]
  exact Set.empty_subset S

theorem carve_base (h : Kmalloc) (p rsize : UInt32) : (h.carve p rsize).1.base = h.base := rfl

/-- **A block found**: what is returned is good unless the size wrapped or the block is used up. -/
theorem AlignedRing.usable_iff (h' : AlignedRing h (P ++ f :: Q)) (hfit : f.Fits (roundSize size)) :
    Usable (h.carve f.ptr (roundSize size)).1 (h.carve f.ptr (roundSize size)).2 size ↔
      size.toNat + 11 < 4294967296 ∧ (size = 0 ∨ f.size ≠ roundSize size) := by
  obtain ⟨hfree, hle⟩ := hfit
  by_cases hsmall : size.toNat + 11 < 4294967296
  · have hround := Inv.roundSize_toNat hsmall
    have hmem : f ∈ P ++ f :: Q := by simp
    obtain ⟨hlo, hhi⟩ := h'.addr_bounds hmem
    have hbound := h'.bound
    have hleN := UInt32.le_iff_toNat_le.mp hle
    have hnp := newHeader_toNat (f := f) (by omega) (by omega) hle
    obtain ⟨hret, hhead⟩ := carve_size hfree (h'.aligned f hmem) h'.end_aligned (by omega)
      h'.toRing.read.1 (by omega) (roundSize_mod size) hle
    have hmod := roundSize_mod size
    have hend := h'.end_aligned
    generalize f.addr + f.size - roundSize size = q at hnp hret hhead
    have h8 : headerSize.toNat = 8 := rfl
    have h4 : kmallocAlign.toNat = 4 := rfl
    have hpq : q + headerSize - headerSize = q := UInt32.add_sub_cancel q headerSize
    have hzero : size = 0 ↔ size.toNat = 0 := UInt32.toNat_inj.symm
    have hadd : size.toNat ≠ 0 → (q + headerSize).toNat = q.toNat + 8 := by
      intro hne
      rw [toNat_add_of_lt (by rw [h8]; omega), h8]
    rw [hret]
    constructor
    · intro hroom
      refine ⟨hsmall, ?_⟩
      by_contra hno
      obtain ⟨hne, hall⟩ := not_or.mp hno
      -- the header has size 0
      have hblock := hroom.block
      rw [hpq, hhead, if_pos (not_not.mp hall)] at hblock
      have := le_of_inside (by rw [hzero] at hne; omega) hblock
      rw [hadd (by rwa [hzero] at hne)] at this
      have h0 : (0 : UInt32).toNat = 0 := rfl
      omega
    · rintro ⟨-, hok⟩
      refine ⟨?_, ?_, ?_⟩
      · rw [UInt32.toNat_add, h8, h4]
        omega
      · rw [carve_base]
        by_cases hne : size.toNat = 0
        · exact ico_empty hne _
        · rw [hadd hne]
          exact Set.Ico_subset_Ico (by omega) (by omega)
      · by_cases hne : size.toNat = 0
        · exact ico_empty hne _
        · rw [hpq, hhead, if_neg (hok.resolve_left (hzero.not.mpr hne)), hadd hne]
          exact Set.Ico_subset_Ico (by omega) (by omega)
  · simp only [hsmall, false_and, iff_false]
    intro hroom
    have := le_of_inside (by omega) hroom.arena
    omega

theorem inside_of_found (hs : search pointers h (roundSize size) h.nextFree = .ok p) :
    Inside h size ↔ Usable (h.carve p (roundSize size)).1 (h.carve p (roundSize size)).2 size := by
  have hk : h.kmalloc size = .ok (h.carve p (roundSize size)) := by
    simp only [kmalloc, hs, Res.ok_bind]
  simp only [Inside, hk, Except.ok.injEq, reduceCtorEq, exists_false, false_or]
  constructor
  · rintro ⟨h₂, p, he, hroom⟩
    rw [he]
    exact hroom
  · exact fun hroom => ⟨_, _, rfl, hroom⟩

/-- **What `kmalloc` returns**: the ring is `P ++ b :: Q` from `base`, with `next_free` at `b`. -/
theorem kmalloc_inside_iff (h' : AlignedRing h (P ++ b :: Q)) (hb : b.req = none)
    (hnf : h.nextFree = b.addr) (size : UInt32) :
    Inside h size ↔
      match (searched h P b Q).find? fun c => decide (c.Fits (roundSize size)) with
      | none => isUsed h.base = false
      | some f => size.toNat + 11 < 4294967296 ∧ (size = 0 ∨ f.size ≠ roundSize size) := by
  have hptr := h'.toRing.nextFree_eq hb hnf
  cases hfind : (searched h P b Q).find? fun c => decide (c.Fits (roundSize size)) with
  | none =>
    have hno : ∀ c ∈ searched h P b Q, ¬ c.Fits (roundSize size) :=
      fun c hc => by simpa using List.find?_eq_none.mp hfind c hc
    cases hbase : isUsed h.base with
    | false =>
      simp only [iff_true]
      refine Or.inl ⟨_, h'.toRing.kmalloc_panics hb hnf hbase fun c hc => hno c ?_⟩
      simpa [searched, hbase] using hc
    | true =>
      have hhang := h'.toRing.kmalloc_hangs hb hnf hbase fun c hc => hno c (by
        simp only [searched, hbase, if_true, List.mem_cons, List.mem_append] at hc ⊢
        tauto)
      simp [Inside, hhang]
  | some f =>
    obtain ⟨hf, M, N, hsplit, hM⟩ := List.find?_eq_some_iff_append.mp hfind
    have hfit : f.Fits (roundSize size) := of_decide_eq_true hf
    have hM' : ∀ c ∈ M, ¬ c.Fits (roundSize size) := fun c hc => by simpa using hM c hc
    have hs : search pointers h (roundSize size) h.nextFree = .ok f.ptr := by
      rw [hptr]
      cases hbase : isUsed h.base with
      | false =>
        refine h'.toRing.search_takes hb hbase (M := M) (N := N) ?_ hM' hfit
        simpa [searched, hbase] using hsplit
      | true =>
        refine h'.toRing.search_takes_round hb hbase (M := M) (N := N) ?_ hM' hfit
        simpa [searched, hbase] using hsplit
    have hmem : f ∈ P ++ b :: Q := by
      have : f ∈ searched h P b Q := by simp [hsplit]
      simp only [searched, List.mem_cons, List.mem_append] at this ⊢
      split at this
      · tauto
      · simp only [List.not_mem_nil, or_false] at this
        tauto
    obtain ⟨P', Q', hsplit'⟩ := List.append_of_mem hmem
    rw [hsplit'] at h'
    exact (inside_of_found hs).trans (h'.usable_iff hfit)

/-- The heap after `init_kmalloc`: one block. -/
def arenaBlk : Blk := ⟨0x100000, 0x20000, none⟩

theorem bootHeap_ring : ∃ r, bootHeap = .ok r ∧ AlignedRing r.2.2 [arenaBlk] ∧
    r.2.2.nextFree = arenaBlk.addr ∧ isUsed r.2.2.base = false := by
  have hplay : (runFromBoot (fun s o => Legal s o) []).any (fun st =>
      Chain st.1.mem st.1.base [arenaBlk] st.1.base ∧ st.1.base = 0x100000 ∧
        st.1.nextFree = arenaBlk.addr) = true := by
    decide +kernel
  obtain ⟨st, hst, h⟩ := (Option.any_eq_true _ _).mp hplay
  obtain ⟨hch, hbase, hnf⟩ := of_decide_eq_true h
  obtain ⟨r, hr, hrun⟩ := runFromBoot_run hst
  cases hrun
  refine ⟨r, hr, ⟨⟨hch, ?_, ?_, ?_⟩, ?_, ?_⟩, hnf, ?_⟩
  · rw [hbase]
    exact ⟨rfl, rfl⟩
  · simp [arenaBlk]
  · simp [arenaBlk]
  · rw [hbase]
    decide
  · simp [arenaBlk]
  · rw [hbase]
    rfl

theorem kmalloc_inside_100 : ∃ r, bootHeap = .ok r ∧ Inside r.2.2 100 := by
  obtain ⟨r, hr, hring, hnf, hbase⟩ := bootHeap_ring
  refine ⟨r, hr, (kmalloc_inside_iff (P := []) hring rfl hnf 100).mpr ?_⟩
  have hfirst : (searched r.2.2 [] arenaBlk []).find? (fun c => decide (c.Fits (roundSize 100))) =
      some arenaBlk := by
    simp only [searched, hbase]
    decide
  rw [hfirst]
  exact ⟨by decide, Or.inr (by decide)⟩

/-- **A wrapped request**: `kmalloc(0xfffffff5)` on the fresh heap returns the end of the arena. -/
theorem kmalloc_short : ∃ r, bootHeap = .ok r ∧ AlignedRing r.2.2 [arenaBlk] ∧
    r.2.2.nextFree = arenaBlk.addr ∧ ¬ Inside r.2.2 0xfffffff5 := by
  obtain ⟨r, hr, hring, hnf, hbase⟩ := bootHeap_ring
  refine ⟨r, hr, hring, hnf, ?_⟩
  have hfit : arenaBlk.Fits (roundSize 0xfffffff5) := ⟨rfl, by decide⟩
  have hs : search pointers r.2.2 (roundSize 0xfffffff5) r.2.2.nextFree = .ok arenaBlk.ptr := by
    rw [hring.toRing.nextFree_eq (P := []) rfl hnf]
    exact hring.toRing.search_takes (P := []) rfl hbase (M := []) (N := []) rfl (by simp) hfit
  rw [inside_of_found hs, hring.usable_iff (P := []) hfit]
  decide

end OwnOS.Kmalloc
