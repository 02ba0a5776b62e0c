import OwnOS.PFAllocator.FirstFit
import OwnOS.PFAllocator.Remove

/-!
# When `removeChunk` removes exactly the range

`removeChunk(b, e)` should leave the pages of the free list that lie outside the range, in disjoint
segments that are not empty. In page numbers, with `[B, E)` for the rounded range and `[first,
last)` for a segment, it does so if every free segment is `Removable B E`:

* it begins at `E` or above, and is left alone;
* or it does not reach 4 GiB (where the end of a segment, computed in 32 bits, is 0), ends at `B` or
  above, and is not inside the range.

The other segments show the two slips of the loop (`PFAllocator.cpp:173-201`): a segment that ends
below `B` grows up to `B`, because only one side of the overlap is tested; a segment inside the
range stays on the list, because no branch unlinks it. **`removeChunk_exact_iff`**: the condition is
exact.
-/

namespace OwnOS.PFAllocator

open Lib Lib.Word

/-- The number of the first page. -/
def Seg.first (s : Seg) : Nat := s.begin.toNat / 4096

/-- The number of the page behind the last one. -/
def Seg.last (s : Seg) : Nat := s.begin.toNat / 4096 + s.blocks.toNat

/-- A segment that `removeChunk` treats rightly, for the pages `[B, E)`. -/
def Removable (B E : Nat) (s : Seg) : Prop :=
  E ≤ s.first ∨ s.last < 1048576 ∧ B ≤ s.last ∧ ¬(B ≤ s.first ∧ s.last ≤ E)

/-- The free list of `a'` has the pages of `F` outside `[b, e)`, in disjoint segments with pages. -/
def RemovedExactly (a : PFAllocator) (F : List SegPtr) (b e : UInt32) (a' : PFAllocator) : Prop :=
  ∃ F', a'.links.Path (.head .segFree) F' none ∧
    a'.pagesIn F' = a.pagesIn F \ Set.Ico (b.toNat / 4096) ((e.toNat + 4095) / 4096) ∧
    (F'.Pairwise fun i j => Disjoint (a'.segs i).pages (a'.segs j).pages) ∧
    ∀ i ∈ F', 0 < (a'.segs i).blocks.toNat

variable {a : PFAllocator} {F F' : List Node} {n : Node} {b e : UInt32} {B E p : Nat} {i : SegPtr}

/-! ## A cut in page numbers -/

/-- The pages `[f, l)` after the cut, as the branches of the code have them. -/
def CutPage (B E f l p : Nat) : Prop :=
  if E < f then f ≤ p ∧ p < l
  else if f < B then f ≤ p ∧ p < B ∨ l < 1048576 ∧ E ≤ p ∧ p < l
  else if l < 1048576 ∧ E < l then E ≤ p ∧ p < l
  else f ≤ p ∧ p < l

/-- The first page of a node. -/
def Node.first (n : Node) : Nat := n.begin.toNat / 4096

/-- The page behind the last one of a node. -/
def Node.last (n : Node) : Nat := n.begin.toNat / 4096 + n.blocks.toNat

theorem Chunk.first_eq (hc : Chunk n.begin n.blocks) : n.begin.toNat = n.first * 4096 := by
  have := hc.aligned
  unfold Node.first
  omega

theorem Chunk.last_le (hc : Chunk n.begin n.blocks) : n.first < n.last ∧ n.last ≤ 1048576 := by
  have := hc.aligned
  have := hc.bound
  have := hc.pos
  unfold Node.first Node.last
  omega

/-- The end of a segment as the code computes it: 0 at 4 GiB. -/
theorem Chunk.fin_toNat (hc : Chunk n.begin n.blocks) :
    n.fin.toNat = if n.last < 1048576 then n.last * 4096 else 0 := by
  have ha := hc.aligned
  have hb := hc.bound
  have htop : n.begin.toNat + n.blocks.toNat * 4096 = n.last * 4096 := by
    unfold Node.last
    omega
  have hfin : n.fin.toNat = (n.begin.toNat + n.blocks.toNat * 4096) % 4294967296 := by
    show (n.begin + n.blocks * chunkSize).toNat = _
    rw [UInt32.toNat_add, UInt32.toNat_mul, chunkSize_toNat]
    exact Nat.add_mod_mod _ _ _
  rw [hfin, htop]
  split
  · omega
  · have := hc.last_le
    omega

theorem Chunk.fin_aligned (hc : Chunk n.begin n.blocks) : n.fin.toNat % 4096 = 0 := by
  rw [hc.fin_toNat]
  split
  · exact Nat.mul_mod_left _ _
  · rfl

theorem mem_pages_iff : p ∈ n.pages ↔ n.first ≤ p ∧ p < n.last := Iff.rfl

/-- **The parts of a segment in page numbers.** -/
theorem mem_cutNode_iff (hr : Range b e) (hc : Chunk n.begin n.blocks) (hB : b.toNat = B * 4096)
    (hE : e.toNat = E * 4096) :
    (∃ m ∈ cutNode b e i n, p ∈ m.pages) ↔ CutPage B E n.first n.last p := by
  have hf := hc.first_eq
  obtain ⟨hfl, hl⟩ := hc.last_le
  have hfin := hc.fin_toNat
  have h1 : e < n.begin ↔ E < n.first := by
    rw [UInt32.lt_iff_toNat_lt, hE, hf]
    omega
  have h2 : n.begin < b ↔ n.first < B := by
    rw [UInt32.lt_iff_toNat_lt, hB, hf]
    omega
  have h3 : e < n.fin ↔ n.last < 1048576 ∧ E < n.last := by
    rw [UInt32.lt_iff_toNat_lt, hE, hfin]
    split
    · omega
    · omega
  have hdivB : b.toNat / 4096 = B := by omega
  have hdivE : e.toNat / 4096 = E := by omega
  have hleft : n.begin < b → ∀ j, Node.pages ⟨j, n.begin, (b - n.begin) / chunkSize⟩ =
      Set.Ico n.first B := by
    intro hb j
    rw [(left_pages hr hc.aligned hb j).2, hdivB]
    rfl
  have hright : e < n.fin → ∀ j, Node.pages ⟨j, e, (n.fin - e) / chunkSize⟩ = Set.Ico E n.last := by
    intro he j
    rw [(right_pages hr hc.fin_aligned he j).2, hdivE, hfin, if_pos (h3.mp he).1,
      Nat.mul_div_cancel _ (by omega)]
  unfold cutNode CutPage
  by_cases he : e < n.begin
  · rw [if_pos he, if_pos (h1.mp he)]
    simp only [List.mem_singleton, exists_eq_left]
    exact mem_pages_iff
  · rw [if_neg he, if_neg (mt h1.mpr he)]
    by_cases hb : n.begin < b
    · rw [if_pos hb, if_pos (h2.mp hb)]
      by_cases hlt : e < n.fin
      · rw [if_pos hlt]
        have := h3.mp hlt
        simp only [List.mem_cons, List.not_mem_nil, or_false, exists_eq_or_imp, exists_eq_left]
        rw [hleft hb, hright hlt]
        simp only [Set.mem_Ico]
        omega
      · rw [if_neg hlt]
        have := mt h3.mpr hlt
        simp only [List.mem_singleton, exists_eq_left]
        rw [hleft hb]
        simp only [Set.mem_Ico]
        omega
    · rw [if_neg hb, if_neg (mt h2.mpr hb)]
      by_cases hlt : e < n.fin
      · rw [if_pos hlt, if_pos (h3.mp hlt)]
        simp only [List.mem_singleton, exists_eq_left]
        rw [hright hlt]
        rfl
      · rw [if_neg hlt, if_neg (mt h3.mpr hlt)]
        simp only [List.mem_singleton, exists_eq_left]
        exact mem_pages_iff

/-- The parts of a segment are not empty and do not overlap. -/
theorem cutNode_parts (hr : Range b e) (hc : Chunk n.begin n.blocks) :
    (∀ m ∈ cutNode b e i n, 0 < m.blocks.toNat) ∧
      (cutNode b e i n).Pairwise fun x y => Disjoint x.pages y.pages := by
  have hpos : ∀ {x y : UInt32}, x.toNat % 4096 = 0 → y.toNat % 4096 = 0 → x < y →
      0 < ((y - x) / chunkSize).toNat := by
    intro x y hx hy hxy
    have hlt := UInt32.lt_iff_toNat_lt.mp hxy
    rw [(span_fits hx hy hlt.le n.id).1]
    omega
  unfold cutNode
  by_cases he : e < n.begin
  · rw [if_pos he]
    exact ⟨by simpa using hc.pos, List.pairwise_singleton _ _⟩
  · rw [if_neg he]
    by_cases hb : n.begin < b
    · have hleft := hpos hc.aligned hr.begin_aligned hb
      rw [if_pos hb]
      by_cases hlt : e < n.fin
      · rw [if_pos hlt]
        refine ⟨?_, ?_⟩
        · simp only [List.mem_cons, List.not_mem_nil, or_false]
          rintro m (rfl | rfl)
          · exact hleft
          · exact hpos hr.end_aligned hc.fin_aligned hlt
        · rw [List.pairwise_pair, (left_pages hr hc.aligned hb _).2,
            (right_pages hr hc.fin_aligned hlt _).2]
          refine Set.disjoint_left.mpr fun x hx hy => ?_
          exact absurd (lt_of_lt_of_le hx.2 (Nat.div_le_div_right hr.le)) (Nat.not_lt.mpr hy.1)
      · rw [if_neg hlt]
        exact ⟨by simpa using hleft, List.pairwise_singleton _ _⟩
    · rw [if_neg hb]
      by_cases hlt : e < n.fin
      · rw [if_pos hlt]
        exact ⟨by simpa using hpos hr.end_aligned hc.fin_aligned hlt, List.pairwise_singleton _ _⟩
      · rw [if_neg hlt]
        exact ⟨by simpa using hc.pos, List.pairwise_singleton _ _⟩

/-! ## The cuts of a list -/

section

variable (hr : Range b e) (hB : b.toNat = B * 4096) (hE : e.toNat = E * 4096)

include hr hB hE

theorem Cuts.mem_iff (h : Cuts b e F F') (hF : ∀ n ∈ F, Chunk n.begin n.blocks) (p : Nat) :
    (∃ m ∈ F', p ∈ m.pages) ↔ ∃ n ∈ F, CutPage B E n.first n.last p := by
  induction h with
  | nil => simp
  | cons i h ih =>
    have hrec := ih fun x hx => hF x (List.mem_cons_of_mem _ hx)
    have hhead := mem_cutNode_iff (i := i) (p := p) hr (hF _ List.mem_cons_self) hB hE
    simp only [List.mem_append, List.mem_cons, or_and_right, exists_or, exists_eq_left]
    rw [hhead, hrec]

omit hB hE in
theorem Cuts.pos (h : Cuts b e F F') (hF : ∀ n ∈ F, Chunk n.begin n.blocks) :
    ∀ m ∈ F', 0 < m.blocks.toNat := by
  induction h with
  | nil => simp
  | cons i h ih =>
    intro m hm
    rcases List.mem_append.mp hm with hm | hm
    · exact (cutNode_parts hr (hF _ List.mem_cons_self)).1 m hm
    · exact ih (fun x hx => hF x (List.mem_cons_of_mem _ hx)) m hm

/-- The parts do not overlap exactly if no page falls to two segments. -/
theorem Cuts.disjoint_iff (h : Cuts b e F F') (hF : ∀ n ∈ F, Chunk n.begin n.blocks) :
    (F'.Pairwise fun x y => Disjoint x.pages y.pages) ↔
      F.Pairwise fun x y => ∀ p,
        ¬(CutPage B E x.first x.last p ∧ CutPage B E y.first y.last p) := by
  induction h with
  | nil => simp
  | @cons n F F' i h ih =>
    have hrest : ∀ x ∈ F, Chunk x.begin x.blocks := fun x hx => hF x (List.mem_cons_of_mem _ hx)
    have hc := hF n List.mem_cons_self
    have hparts := (cutNode_parts (i := i) hr hc).2
    rw [List.pairwise_append, List.pairwise_cons, ih hrest]
    have hcross : (∀ x ∈ cutNode b e i n, ∀ y ∈ F', Disjoint x.pages y.pages) ↔
        ∀ y ∈ F, ∀ p, ¬(CutPage B E n.first n.last p ∧ CutPage B E y.first y.last p) := by
      constructor
      · rintro hd y hy p ⟨hp, hpy⟩
        obtain ⟨m, hm, hpm⟩ := (mem_cutNode_iff (i := i) hr hc hB hE).mpr hp
        obtain ⟨m', hm', hpm'⟩ := (h.mem_iff hr hB hE hrest p).mpr ⟨y, hy, hpy⟩
        exact Set.disjoint_left.mp (hd m hm m' hm') hpm hpm'
      · intro hd x hx y hy
        refine Set.disjoint_left.mpr fun p hpx hpy => ?_
        obtain ⟨z, hz, hpz⟩ := (h.mem_iff hr hB hE hrest p).mp ⟨y, hy, hpy⟩
        exact hd z hz p ⟨(mem_cutNode_iff (i := i) hr hc hB hE).mp ⟨x, hx, hpx⟩, hpz⟩
    rw [hcross]
    tauto

end

/-! ## Exactness -/

/-- The condition in the page numbers of a node. -/
def Node.Removable (B E : Nat) (n : Node) : Prop :=
  E ≤ n.first ∨ n.last < 1048576 ∧ B ≤ n.last ∧ ¬(B ≤ n.first ∧ n.last ≤ E)

/-- The pages after the cuts are the pages outside the range, each once. -/
structure Exact (B E : Nat) (F : List Node) : Prop where
  pages : ∀ p, (∃ n ∈ F, CutPage B E n.first n.last p) ↔
    (∃ n ∈ F, n.first ≤ p ∧ p < n.last) ∧ ¬(B ≤ p ∧ p < E)
  apart : F.Pairwise fun x y => ∀ p, ¬(CutPage B E x.first x.last p ∧ CutPage B E y.first y.last p)

theorem Node.Removable.cutPage_iff (h : n.Removable B E) (hn : n.first < n.last) (hBE : B ≤ E)
    (p : Nat) :
    CutPage B E n.first n.last p ↔ (n.first ≤ p ∧ p < n.last) ∧ ¬(B ≤ p ∧ p < E) := by
  unfold Node.Removable at h
  unfold CutPage
  split_ifs
  · omega
  · omega
  · omega
  · omega

/-- A cut gives no page that the segment did not have, but for those below the range. -/
theorem CutPage.mem {f l : Nat} (h : CutPage B E f l p) : f ≤ p ∧ p < l ∨ p < B := by
  unfold CutPage at h
  split_ifs at h
  · omega
  · omega
  · omega
  · omega

section

variable (hBE : B ≤ E) (hE : E < 1048576) (hF : ∀ n ∈ F, n.first < n.last ∧ n.last ≤ 1048576)
  (hd : F.Pairwise fun x y => Disjoint x.pages y.pages)

include hd in
theorem eq_of_page {m : Node} (hn : n ∈ F) (hm : m ∈ F) (hpn : n.first ≤ p ∧ p < n.last)
    (hpm : m.first ≤ p ∧ p < m.last) : n = m := by
  by_contra hne
  have : Std.Symm fun x y : Node => Disjoint x.pages y.pages := ⟨fun _ _ hxy => hxy.symm⟩
  exact Set.disjoint_left.mp (hd.forall hn hm hne) hpn hpm

include hBE hF hd in
theorem exact_of_removable (h : ∀ n ∈ F, n.Removable B E) : Exact B E F where
  pages p := by
    constructor
    · rintro ⟨n, hn, hp⟩
      obtain ⟨hin, hout⟩ := ((h n hn).cutPage_iff (hF n hn).1 hBE p).mp hp
      exact ⟨⟨n, hn, hin⟩, hout⟩
    · rintro ⟨⟨n, hn, hin⟩, hout⟩
      exact ⟨n, hn, ((h n hn).cutPage_iff (hF n hn).1 hBE p).mpr ⟨hin, hout⟩⟩
  apart := by
    refine hd.imp_of_mem ?_
    rintro x y hx hy hxy p ⟨hpx, hpy⟩
    have hx' := ((h x hx).cutPage_iff (hF x hx).1 hBE p).mp hpx
    have hy' := ((h y hy).cutPage_iff (hF y hy).1 hBE p).mp hpy
    exact Set.disjoint_left.mp hxy hx'.1 hy'.1

include hBE hE hF hd in
/-- Each segment that is not removable spoils the result. -/
theorem Exact.removable (h : Exact B E F) (hn : n ∈ F) : n.Removable B E := by
  obtain ⟨hlt, hle⟩ := hF n hn
  by_contra hno
  unfold Node.Removable at hno
  by_cases hB : B ≤ n.first
  · -- the segment is left as it is, and its first page lies in the range
    have hcut : CutPage B E n.first n.last n.first := by
      unfold CutPage
      rw [if_neg (by omega), if_neg (by omega), if_neg (by omega)]
      exact ⟨le_refl _, hlt⟩
    have := ((h.pages n.first).mp ⟨n, hn, hcut⟩).2
    omega
  · by_cases hlast : n.last < 1048576
    · -- the segment grows over the page behind it, which is new or belongs to another segment
      have hcut : CutPage B E n.first n.last n.last := by
        unfold CutPage
        rw [if_neg (by omega), if_pos (by omega)]
        exact Or.inl ⟨hlt.le, by omega⟩
      obtain ⟨m, hm, hpm⟩ := ((h.pages n.last).mp ⟨n, hn, hcut⟩).1
      have hcut' : CutPage B E m.first m.last n.last := by
        unfold CutPage
        rw [if_neg (by omega), if_pos (by omega)]
        exact Or.inl ⟨hpm.1, by omega⟩
      have hne : n ≠ m := by
        rintro rfl
        omega
      have : Std.Symm fun x y : Node =>
          ∀ p, ¬(CutPage B E x.first x.last p ∧ CutPage B E y.first y.last p) :=
        ⟨fun _ _ hxy p hp => hxy p hp.symm⟩
      exact h.apart.forall hn hm hne n.last ⟨hcut, hcut'⟩
    · -- the part above the range is lost: nobody has the last page of the address space
      have hold : n.first ≤ 1048575 ∧ 1048575 < n.last := by omega
      obtain ⟨m, hm, hcut⟩ := (h.pages 1048575).mpr ⟨⟨n, hn, hold⟩, by omega⟩
      have hpm := hcut.mem.resolve_right (by omega)
      obtain rfl := eq_of_page hd hn hm hold hpm
      unfold CutPage at hcut
      rw [if_neg (by omega), if_pos (by omega)] at hcut
      omega

end

/-- Two segments without a common page do not both split. -/
theorem countP_splits (hr : Range b e) (hF : ∀ n ∈ F, Chunk n.begin n.blocks)
    (hd : F.Pairwise fun x y => Disjoint x.pages y.pages) : F.countP (Splits b e ·) ≤ 1 := by
  have hmem : ∀ n ∈ F, Splits b e n → b.toNat / 4096 ∈ n.pages := by
    rintro n hn ⟨-, hb, hfin⟩
    have hc := hF n hn
    have hb' := UInt32.lt_iff_toNat_lt.mp hb
    have hfin' := UInt32.lt_iff_toNat_lt.mp hfin
    have hle := hr.le
    rw [hc.fin_toNat] at hfin'
    have hf := hc.first_eq
    refine mem_pages_iff.mpr ⟨by omega, ?_⟩
    split at hfin'
    · omega
    · omega
  induction F with
  | nil => simp
  | cons n F ih =>
    obtain ⟨hn, hd⟩ := List.pairwise_cons.mp hd
    have hrec := ih (fun m hm => hF m (List.mem_cons_of_mem _ hm)) hd
      (fun m hm => hmem m (List.mem_cons_of_mem _ hm))
    by_cases hs : Splits b e n
    · have hzero : F.countP (Splits b e ·) = 0 := by
        rw [List.countP_eq_zero]
        intro m hm hs'
        exact Set.disjoint_left.mp (hn m hm) (hmem n List.mem_cons_self hs)
          (hmem m (List.mem_cons_of_mem _ hm) (by simpa using hs'))
      rw [List.countP_cons_of_pos (by simpa using hs), hzero]
    · rw [List.countP_cons_of_neg (by simpa using hs)]
      exact hrec

/-! ## The used list plays no part -/

/-- The allocator with another used list. -/
def withUsed (a : PFAllocator) (u : Option SegPtr) : PFAllocator := { a with segUsed := u }

theorem getSeg_withUsed (u : Option SegPtr) :
    (a.withUsed u).getSeg = a.getSeg.map fun r => (r.1.withUsed u, r.2) := by
  unfold getSeg withUsed
  cases (List.finRange maxNumSeg).find? fun i => (a.segs i).free with
  | some i => rfl
  | none => rfl

theorem removeFrom_withUsed (i : SegPtr) (u : Option SegPtr) :
    (a.withUsed u).removeFrom i b e = (a.removeFrom i b e).map (·.withUsed u) := by
  have hsegs : (a.withUsed u).segs = a.segs := rfl
  unfold removeFrom
  rw [hsegs, getSeg_withUsed]
  cases a.getSeg with
  | error err =>
    dsimp only
    split_ifs <;> rfl
  | ok r =>
    dsimp only
    split_ifs <;> rfl

theorem removeChunkLoop_withUsed (u : Option SegPtr) {fuel : Nat} {c : SegLoc}
    (hc : c ≠ .head .segUsed) :
    removeChunkLoop fuel (a.withUsed u) b e c =
      (removeChunkLoop fuel a b e c).map (·.withUsed u) := by
  induction fuel generalizing a c with
  | zero => rfl
  | succ fuel ih =>
    have hd : (a.withUsed u).deref c = a.deref c := by
      rcases c with k | j
      · cases k
        · rfl
        · exact absurd rfl hc
      · rfl
    unfold removeChunkLoop
    rw [hd]
    split
    · rfl
    · rename_i j hj
      rw [removeFrom_withUsed]
      cases a.removeFrom j b e with
      | error err => rfl
      | ok a₁ => exact ih (by simp)

/-- The descriptors in use that are not on the list `G`. -/
def others (a : PFAllocator) (G : List SegPtr) : List SegPtr :=
  (List.finRange maxNumSeg).filter fun i => !(a.segs i).free && !G.contains i

/-- A free list, whatever the used list is: the other descriptors in use count as detached. -/
theorem rep_withUsed {G : List SegPtr} (hG : a.links.Path (.head .segFree) G none)
    (hmarked : ∀ i ∈ G, (a.segs i).free = false) :
    Rep (a.withUsed none) (a.listsAt G []) (a.nodesAt (a.others G)) where
  path k := by
    cases k with
    | segFree =>
      show (a.withUsed none).links.Path _ (ids (a.nodesAt G)) none
      rw [ids_nodesAt]
      exact hG.congr rfl fun _ _ => rfl
    | segUsed => rfl
  owns := by
    have hids : ids (all (a.listsAt G []) (a.nodesAt (a.others G))) = G ++ a.others G := by
      simp only [all, ids_append, ids_nodesAt]
      exact congrArg₂ (· ++ ·) ids_nodesAt rfl
    have hothers : ∀ i, i ∈ a.others G ↔ (a.segs i).free = false ∧ i ∉ G := by
      intro i
      simp [others]
    refine ⟨?_, ?_, ?_⟩
    · rw [hids, List.nodup_append]
      refine ⟨hG.nodup, (List.nodup_finRange _).filter _, ?_⟩
      rintro i hi j hj rfl
      exact ((hothers i).mp hj).2 hi
    · intro m hm
      rcases mem_all.mp hm with ⟨k, hm⟩ | hm
      · rw [mem_listsAt hm]
        exact ⟨rfl, rfl⟩
      · obtain ⟨j, -, rfl⟩ := List.mem_map.mp hm
        exact ⟨rfl, rfl⟩
    · intro i
      rw [hids, List.mem_append, hothers]
      constructor
      · intro hi
        by_cases hiG : i ∈ G
        · exact Or.inl hiG
        · exact Or.inr ⟨hi, hiG⟩
      · rintro (hi | ⟨hi, -⟩)
        · exact hmarked i hi
        · exact hi

/-- The result of the cuts, read off the allocator. -/
theorem Cuts.removedExactly_iff {G : List SegPtr} {a₁ : PFAllocator} {L : Head → List Node}
    {D : List Node} (hcuts : Cuts (removeBegin b) (removeEnd e) (a.nodesAt G) (L .segFree))
    (hrep : Rep a₁ L D) (hF : ∀ n ∈ a.nodesAt G, Chunk n.begin n.blocks) (hle : b ≤ e)
    (hround : e.toNat + 4095 < 4294967296) (u : Option SegPtr) :
    RemovedExactly a G b e (a₁.withUsed u) ↔
      Exact (b.toNat / 4096) ((e.toNat + 4095) / 4096) (a.nodesAt G) := by
  have hr := rounded_range (UInt32.le_iff_toNat_le.mp hle) hround
  have hB := removeBegin_toNat b
  have hE := removeEnd_toNat hround
  have hview : ∀ m ∈ L .segFree, (a₁.segs m.id).pages = m.pages := fun m hm =>
    hrep.pages_eq (mem_all.mpr (Or.inl ⟨_, hm⟩))
  have hpages : ∀ p, p ∈ (a₁.withUsed u).pagesIn (ids (L .segFree)) ↔
      ∃ n ∈ a.nodesAt G, CutPage (b.toNat / 4096) ((e.toNat + 4095) / 4096) n.first n.last p := by
    intro p
    rw [← hcuts.mem_iff hr hB hE hF p]
    have : a₁.pagesIn (ids (L .segFree)) = _ := hrep.pagesIn_eq .segFree
    exact Set.ext_iff.mp this p
  have hpages₀ : ∀ p, p ∈ a.pagesIn G ↔ ∃ n ∈ a.nodesAt G, n.first ≤ p ∧ p < n.last := by
    intro p
    constructor
    · rintro ⟨i, hi, hp⟩
      exact ⟨a.nodeAt i, List.mem_map_of_mem hi, hp⟩
    · rintro ⟨n, hn, hp⟩
      obtain ⟨i, hi, rfl⟩ := List.mem_map.mp hn
      exact ⟨i, hi, hp⟩
  have hdisj :
      ((ids (L .segFree)).Pairwise fun i j => Disjoint (a₁.segs i).pages (a₁.segs j).pages) ↔
      (L .segFree).Pairwise fun x y => Disjoint x.pages y.pages := by
    rw [ids, List.pairwise_map]
    refine List.Pairwise.iff_of_mem ?_
    intro x y hx hy
    rw [hview x hx, hview y hy]
  constructor
  · rintro ⟨F', hpath, hp, hd, -⟩
    obtain rfl : F' = ids (L .segFree) := by
      refine hpath.unique ?_
      exact (hrep.path .segFree).congr rfl fun _ _ => rfl
    refine ⟨fun p => ?_, (hcuts.disjoint_iff hr hB hE hF).mp (hdisj.mp hd)⟩
    rw [← hpages p, hp, ← hpages₀ p]
    exact Iff.rfl
  · rintro ⟨hp, hd⟩
    refine ⟨ids (L .segFree), (hrep.path .segFree).congr rfl fun _ _ => rfl, ?_, ?_, ?_⟩
    · ext p
      rw [hpages p, hp p, ← hpages₀ p]
      exact Iff.rfl
    · exact hdisj.mpr ((hcuts.disjoint_iff hr hB hE hF).mpr hd)
    · intro i hi
      obtain ⟨m, hm, rfl⟩ := List.mem_map.mp hi
      have hl : (a₁.segs m.id).blocks = m.blocks := (hrep.owns_of_mem hm).2
      show 0 < (a₁.segs m.id).blocks.toNat
      rw [hl]
      exact hcuts.pos hr hF m hm

section

variable {G : List SegPtr} (hG : a.links.Path (.head .segFree) G none)
  (hmarked : ∀ i ∈ G, (a.segs i).free = false) (hspare : ∃ i, (a.segs i).free = true)
  (hchunk : ∀ i ∈ G, Chunk (a.segs i).begin (a.segs i).blocks)
  (hd : G.Pairwise fun i j => Disjoint (a.segs i).pages (a.segs j).pages) (hle : b ≤ e)
  (hround : e.toNat + 4095 < 4294967296)

include hchunk in
theorem chunk_nodesAt : ∀ n ∈ a.nodesAt G, Chunk n.begin n.blocks := by
  intro n hn
  obtain ⟨i, hi, rfl⟩ := List.mem_map.mp hn
  exact hchunk i hi

include hd in
theorem disjoint_nodesAt : (a.nodesAt G).Pairwise fun x y => Disjoint x.pages y.pages := by
  rw [nodesAt, List.pairwise_map]
  exact hd

include hG hmarked hspare hchunk hd hle hround

/-- `removeChunk` returns with the cuts of the segments: at most one of them splits. -/
theorem removeChunk_cuts : ∃ a', a.removeChunk b e = .ok a' ∧ (RemovedExactly a G b e a' ↔
    Exact (b.toNat / 4096) ((e.toNat + 4095) / 4096) (a.nodesAt G)) := by
  have hr := rounded_range (UInt32.le_iff_toNat_le.mp hle) hround
  have hrep := rep_withUsed hG hmarked
  have hspace : (all (a.listsAt G []) (a.nodesAt (a.others G))).length < maxNumSeg := by
    refine lt_of_le_of_ne hrep.owns.length_le fun heq => ?_
    obtain ⟨i, hi⟩ := hspare
    exact absurd (hi.symm.trans (hrep.owns.none_free heq i)) (by simp)
  have hL : a.listsAt G [] .segFree = [] ++ a.nodesAt G := rfl
  have hremove : a.removeChunk b e =
      (removeChunkLoop (maxNumSeg + 1) (a.withUsed none) (removeBegin b) (removeEnd e)
        (.head .segFree)).map (·.withUsed a.segUsed) := by
    rw [← removeChunkLoop_withUsed _ (by simp)]
    rfl
  rcases removeChunkLoop_cuts (UInt32.le_iff_toNat_le.mpr hr.le) hrep hL rfl with
    ⟨hfull, -⟩ | ⟨a₁, F', he, hrep', hcuts⟩
  · have := countP_splits hr (chunk_nodesAt hchunk) (disjoint_nodesAt hd)
    omega
  · rw [ids_nil, Loc.after_nil] at he
    rw [he] at hremove
    rw [List.nil_append] at hrep'
    refine ⟨a₁.withUsed a.segUsed, hremove, ?_⟩
    have hcuts' : Cuts (removeBegin b) (removeEnd e) (a.nodesAt G)
        (Function.update (a.listsAt G []) .segFree F' .segFree) := by
      rw [Function.update_self]
      exact hcuts
    exact hcuts'.removedExactly_iff hrep' (chunk_nodesAt hchunk) hle hround _

omit hG hmarked hspare in
theorem exact_nodesAt_iff :
    Exact (b.toNat / 4096) ((e.toNat + 4095) / 4096) (a.nodesAt G) ↔
      ∀ i ∈ G, Removable (b.toNat / 4096) ((e.toNat + 4095) / 4096) (a.segs i) := by
  have hBE : b.toNat / 4096 ≤ (e.toNat + 4095) / 4096 := by
    have := UInt32.le_iff_toNat_le.mp hle
    omega
  have hnodes : ∀ n ∈ a.nodesAt G, n.first < n.last ∧ n.last ≤ 1048576 :=
    fun n hn => (chunk_nodesAt hchunk n hn).last_le
  constructor
  · intro hexact i hi
    exact hexact.removable hBE (by omega) hnodes (disjoint_nodesAt hd) (n := a.nodeAt i)
      (List.mem_map_of_mem hi)
  · intro hall
    refine exact_of_removable hBE hnodes (disjoint_nodesAt hd) fun n hn => ?_
    obtain ⟨i, hi, rfl⟩ := List.mem_map.mp hn
    exact hall i hi

/-- **`removeChunk` removes exactly the range** if and only if every free segment is removable. -/
theorem removeChunk_exact_iff : ∃ a', a.removeChunk b e = .ok a' ∧ (RemovedExactly a G b e a' ↔
    ∀ i ∈ G, Removable (b.toNat / 4096) ((e.toNat + 4095) / 4096) (a.segs i)) := by
  obtain ⟨a', he, hiff⟩ := removeChunk_cuts hG hmarked hspare hchunk hd hle hround
  exact ⟨a', he, hiff.trans (exact_nodesAt_iff hchunk hd hle hround)⟩

end

/-- The free list of one region. -/
theorem oneRegion {x y : UInt32} (hx : x.toNat % 4096 = 0) (hy : y.toNat % 4096 = 0) (hxy : x < y)
    {a : PFAllocator} (ha : (init fun _ => ⟨true, 0, 0, none⟩).addChunk x y = .ok a) :
    ∃ i, a.links.Path (.head .segFree) [i] none ∧ (a.segs i).free = false ∧
      (∃ j, (a.segs j).free = true) ∧ Chunk (a.segs i).begin (a.segs i).blocks ∧
      (a.segs i).first = x.toNat / 4096 ∧ (a.segs i).last = y.toNat / 4096 := by
  obtain ⟨i, h⟩ := (inv_init _).addChunk hx hy hxy (Set.disjoint_empty _) ha
  have hlt := UInt32.lt_iff_toNat_lt.mp hxy
  have hF : Function.update (fun _ => []) Head.segFree (insertFree (rounded i x y) []) .segFree =
      [rounded i x y] := Function.update_self _ _ _
  have hmem : rounded i x y ∈ Function.update (fun _ => []) Head.segFree
    (insertFree (rounded i x y) [])
      .segFree := by
    rw [hF]
    exact List.mem_singleton_self _
  obtain ⟨hb, hl⟩ : (a.segs i).begin = (rounded i x y).begin ∧
      (a.segs i).blocks = (rounded i x y).blocks :=
    h.rep.owns_of_mem hmem
  have heq := rounded_eq hx hy i
  refine ⟨i, ?_, ?_, ?_, ?_, ?_, ?_⟩
  · have := h.rep.path .segFree
    rwa [hF] at this
  · rw [h.rep.owns.flag]
    exact mem_ids_of_mem (mem_all.mpr (Or.inl ⟨_, hmem⟩))
  · refine h.rep.owns.exists_free ?_
    rw [all_length, hF, Function.update_of_ne (by decide)]
    exact (show 1 < 128 by decide)
  · have hok := (h.ok _ (mem_all.mpr (Or.inl ⟨_, hmem⟩))).chunk
    rwa [← hb, ← hl] at hok
  · show (a.segs i).begin.toNat / 4096 = _
    rw [hb, heq]
  · show (a.segs i).begin.toNat / 4096 + (a.segs i).blocks.toNat = _
    rw [hb, hl, heq, (span_fits hx hy hlt.le i).1]
    exact Nat.add_sub_cancel' (Nat.div_le_div_right hlt.le)

/-- Eight pages, of which two in the middle are removed. -/
theorem removeChunk_exact_middle : ∃ a G a',
    (init fun _ => ⟨true, 0, 0, none⟩).addChunk 0x1000 0x9000 = .ok a ∧
      a.links.Path (.head .segFree) G none ∧ a.removeChunk 0x3001 0x4001 = .ok a' ∧
      RemovedExactly a G 0x3001 0x4001 a' := by
  obtain ⟨a, ha⟩ : ∃ a, (init fun _ => ⟨true, 0, 0, none⟩).addChunk 0x1000 0x9000 =
    .ok a := ⟨_, rfl⟩
  obtain ⟨i, hG, hmarked, hspare, hchunk, hfirst, hlast⟩ :=
    oneRegion (by decide) (by decide) (by decide) ha
  obtain ⟨a', he, hiff⟩ := removeChunk_exact_iff (b := 0x3001) (e := 0x4001) hG
    (by simpa using hmarked) hspare (by simpa using hchunk) (List.pairwise_singleton _ _)
    (by decide) (by decide)
  refine ⟨a, [i], a', ha, hG, he, hiff.mpr ?_⟩
  simp only [List.mem_singleton, forall_eq, Removable, hfirst, hlast]
  decide

/-- **A segment inside the range** stays on the list. -/
theorem removeChunk_inside : ∃ a G a',
    (init fun _ => ⟨true, 0, 0, none⟩).addChunk 0x1000 0x2000 = .ok a ∧
      a.links.Path (.head .segFree) G none ∧ (∀ i ∈ G, (a.segs i).free = false) ∧
      (∃ i, (a.segs i).free = true) ∧ (∀ i ∈ G, Chunk (a.segs i).begin (a.segs i).blocks) ∧
      (G.Pairwise fun i j => Disjoint (a.segs i).pages (a.segs j).pages) ∧
      a.removeChunk 0x1000 0x2000 = .ok a' ∧ ¬RemovedExactly a G 0x1000 0x2000 a' := by
  obtain ⟨a, ha⟩ : ∃ a, (init fun _ => ⟨true, 0, 0, none⟩).addChunk 0x1000 0x2000 =
    .ok a := ⟨_, rfl⟩
  obtain ⟨i, hG, hmarked, hspare, hchunk, hfirst, hlast⟩ :=
    oneRegion (by decide) (by decide) (by decide) ha
  have hmarked' : ∀ j ∈ [i], (a.segs j).free = false := by simpa using hmarked
  have hchunk' : ∀ j ∈ [i], Chunk (a.segs j).begin (a.segs j).blocks := by simpa using hchunk
  have hd : [i].Pairwise fun i j => Disjoint (a.segs i).pages (a.segs j).pages :=
    List.pairwise_singleton _ _
  obtain ⟨a', he, hiff⟩ := removeChunk_cuts (b := 0x1000) (e := 0x2000) hG
    hmarked' hspare hchunk' hd (by decide) (by decide)
  refine ⟨a, [i], a', ha, hG, hmarked', hspare, hchunk', hd, he, fun hrem => ?_⟩
  have := (exact_nodesAt_iff hchunk' hd (by decide) (by decide)).mp (hiff.mp hrem) i (by simp)
  simp only [Removable, hfirst, hlast] at this
  exact absurd this (by decide)

end OwnOS.PFAllocator
