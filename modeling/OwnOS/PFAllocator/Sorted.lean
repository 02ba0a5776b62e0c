import OwnOS.PFAllocator.FirstFit

/-!
# The order of the free list

The comment on `addChunk` says that the free areas stand in the order of their addresses
(`PFAllocator.cpp:22-30`). The loop compares the new segment with a segment and its successor, and
so finds its place between two of them or behind the last one; there is no place in front of the
first. A segment below the first one is stored at the end of the list.

* `insertFree_separated`: a segment above the first one keeps the list sorted and coalesced.
* `insertFree_head`: the first segment never gets another begin.
* **`addChunk_sorted_iff`**: after any sequence of `addChunk(begin, end)` with disjoint regions the
  free list is sorted, coalesced and exact if and only if no region lies below the first one that
  was added.
-/

namespace OwnOS.PFAllocator

open Lib Lib.Word

/-- The free list is in increasing order, has the pages `P`, and no two segments touch. -/
def SortedCoalesced (a : PFAllocator) (P : Set Nat) : Prop :=
  ∃ F, a.links.Path (.head .segFree) F none ∧
    (F.Pairwise fun i j => (a.segs i).begin < (a.segs j).begin) ∧
    a.pagesIn F = P ∧ ∀ i ∈ F, ∀ j ∈ F, i ≠ j → (a.segs i).fin ≠ (a.segs j).begin

/-- `x` ends before `y` begins, with a page between them. -/
def Sep (x y : Node) : Prop := x.fin.toNat < y.begin.toNat

variable {a a' : PFAllocator} {L : Head → List Node} {F : List Node} {c n s : Node} {P : Set Nat}

theorem Node.Ok.begin_lt_fin (h : n.Ok) : n.begin.toNat < n.fin.toNat := by
  have := h.pos
  rw [h.fin_toNat]
  omega

/-- Of two segments without a common page the lower one ends first. -/
theorem fin_le_begin (hc : c.Ok) (hs : s.Ok) (hd : Disjoint c.pages s.pages)
    (hlt : c.begin < s.begin) :
    c.fin.toNat ≤ s.begin.toNat := by
  have hlt' := UInt32.lt_iff_toNat_lt.mp hlt
  have hc' := hc.aligned
  have hs' := hs.aligned
  have hfin := hc.toFits.fin_toNat
  by_contra hgt
  refine Set.disjoint_left.mp hd ?_ hs.first_mem
  refine ⟨Nat.div_le_div_right hlt'.le, ?_⟩
  omega

/-- Two segments without a common page begin at different addresses. -/
theorem begin_ne (hc : c.Ok) (hs : s.Ok) (hd : Disjoint c.pages s.pages) : c.begin ≠ s.begin := by
  intro heq
  refine Set.disjoint_left.mp hd hc.first_mem ?_
  rw [heq]
  exact hs.first_mem

/-- Two segments that are joined end where the second one does. -/
theorem join_fin (h : c.fin = s.begin) (i : SegPtr) :
    Node.fin ⟨i, c.begin, c.blocks + s.blocks⟩ = s.fin := by
  show c.begin + (c.blocks + s.blocks) * chunkSize = s.begin + s.blocks * chunkSize
  rw [UInt32.add_mul, ← UInt32.add_assoc, ← h]
  rfl

/-- The next segment, grown downwards, ends where it did. -/
theorem join_fin' (h : s.fin = n.begin) (i : SegPtr) :
    Node.fin ⟨i, s.begin, n.blocks + s.blocks⟩ = n.fin := by
  rw [UInt32.add_comm]
  exact join_fin h i

/-! ## One insertion -/

/-- The first segment keeps its begin. -/
theorem insertFree_head (s c : Node) (l : List Node) :
    ∃ m l', insertFree s (c :: l) = m :: l' ∧ m.begin = c.begin := by
  cases l with
  | nil =>
    unfold insertFree
    split
    · exact ⟨_, _, rfl, rfl⟩
    · exact ⟨_, _, rfl, rfl⟩
  | cons n l =>
    unfold insertFree
    split
    · split
      · simp only
        split
        · exact ⟨_, _, rfl, rfl⟩
        · exact ⟨_, _, rfl, rfl⟩
      · split
        · exact ⟨_, _, rfl, rfl⟩
        · exact ⟨_, _, rfl, rfl⟩
    · exact ⟨_, _, rfl, rfl⟩

/-- Every segment begins where the new one or an old one did. -/
theorem insertFree_begin (s : Node) :
    ∀ F : List Node, ∀ m ∈ insertFree s F, ∃ x ∈ s :: F, m.begin = x.begin
  | [], m, hm => ⟨m, hm, rfl⟩
  | [c], m, hm => by
    unfold insertFree at hm
    split at hm
    · obtain rfl := List.mem_singleton.mp hm
      exact ⟨c, by simp, rfl⟩
    · exact ⟨m, by simpa [or_comm] using hm, rfl⟩
  | c :: n :: l, m, hm => by
    unfold insertFree at hm
    split at hm
    · split at hm
      · simp only at hm
        split at hm
        · rcases List.mem_cons.mp hm with rfl | hm
          · exact ⟨c, by simp, rfl⟩
          · exact ⟨m, by simp [hm], rfl⟩
        · rcases List.mem_cons.mp hm with rfl | hm
          · exact ⟨c, by simp, rfl⟩
          · exact ⟨m, by simp [List.mem_cons.mp hm], rfl⟩
      · split at hm
        · simp only [List.mem_cons] at hm
          rcases hm with rfl | rfl | hm
          · exact ⟨m, by simp, rfl⟩
          · exact ⟨s, by simp, rfl⟩
          · exact ⟨m, by simp [hm], rfl⟩
        · simp only [List.mem_cons] at hm
          exact ⟨m, by simp only [List.mem_cons]; tauto, rfl⟩
    · rcases List.mem_cons.mp hm with rfl | hm
      · exact ⟨m, by simp, rfl⟩
      · obtain ⟨x, hx, hb⟩ := insertFree_begin s (n :: l) m hm
        refine ⟨x, ?_, hb⟩
        rcases List.mem_cons.mp hx with rfl | hx
        · exact List.mem_cons_self
        · exact List.mem_cons_of_mem _ (List.mem_cons_of_mem _ hx)

/-- What is separated from a segment is separated from everything above it. -/
theorem Sep.trans_le (h : Sep c n) (hle : n.begin.toNat ≤ s.begin.toNat) :
    Sep c s := lt_of_lt_of_le h hle

/-- **A segment above the first one** keeps the list separated. -/
theorem insertFree_separated (s : Node) (hs : s.Ok) : ∀ (l : List Node) (c : Node),
    (∀ m ∈ c :: l, m.Ok) → (∀ m ∈ c :: l, Disjoint m.pages s.pages) → (c :: l).Pairwise Sep →
      c.begin < s.begin → (insertFree s (c :: l)).Pairwise Sep
  | [], c, hok, hd, _, hlt => by
    have hc := hok c List.mem_cons_self
    have hle := fin_le_begin hc hs (hd c List.mem_cons_self) hlt
    unfold insertFree
    split
    · exact List.pairwise_singleton _ _
    · rename_i hne
      have hne' : c.fin.toNat ≠ s.begin.toNat := fun e => hne (UInt32.toNat_inj.mp e)
      rw [List.pairwise_pair]
      exact lt_of_le_of_ne hle hne'
  | n :: l, c, hok, hd, hsep, hlt => by
    have hc := hok c List.mem_cons_self
    have hn := hok n (by simp)
    have hle := fin_le_begin hc hs (hd c List.mem_cons_self) hlt
    obtain ⟨hcl, hnl⟩ := List.pairwise_cons.mp hsep
    obtain ⟨hn', hl⟩ := List.pairwise_cons.mp hnl
    unfold insertFree
    split
    · rename_i hbetween
      have hsn := fin_le_begin hs hn (hd n (by simp)).symm hbetween.2
      split
      · rename_i hm
        have hfin := join_fin hm c.id
        simp only
        split
        · rename_i hm2
          refine List.pairwise_cons.mpr ⟨fun m hml => ?_, hl⟩
          have := join_fin (c := ⟨c.id, c.begin, c.blocks + s.blocks⟩) hm2 c.id
          unfold Sep
          rw [this]
          exact hn' m hml
        · rename_i hm2
          rw [hfin] at hm2
          have hne : s.fin.toNat ≠ n.begin.toNat := fun e => hm2 (UInt32.toNat_inj.mp e)
          refine List.pairwise_cons.mpr ⟨fun m hml => ?_, hnl⟩
          unfold Sep
          rw [hfin]
          rcases List.mem_cons.mp hml with rfl | hml
          · omega
          · have h1 := hn' m hml
            have h2 := hn.begin_lt_fin
            unfold Sep at h1
            omega
      · rename_i hm
        have hne : c.fin.toNat ≠ s.begin.toNat := fun e => hm (UInt32.toNat_inj.mp e)
        have hcs : Sep c s := lt_of_le_of_ne hle hne
        split
        · rename_i hm2
          refine List.pairwise_cons.mpr
            ⟨fun m hml => ?_, List.pairwise_cons.mpr ⟨fun m hml => ?_, hl⟩⟩
          · rcases List.mem_cons.mp hml with rfl | hml
            · exact hcs
            · exact hcl m (List.mem_cons_of_mem _ hml)
          · unfold Sep
            rw [join_fin' hm2 n.id]
            exact hn' m hml
        · rename_i hm2
          have hne2 : s.fin.toNat ≠ n.begin.toNat := fun e => hm2 (UInt32.toNat_inj.mp e)
          have hsn' : Sep s n := lt_of_le_of_ne hsn hne2
          refine List.pairwise_cons.mpr
            ⟨fun m hml => ?_, List.pairwise_cons.mpr ⟨fun m hml => ?_, hnl⟩⟩
          · rcases List.mem_cons.mp hml with rfl | hml
            · exact hcs
            · exact hcl m hml
          · rcases List.mem_cons.mp hml with rfl | hml
            · exact hsn'
            · refine hsn'.trans_le ?_
              exact (hn.begin_lt_fin.trans (hn' m hml)).le
    · -- the walk goes on: the new segment lies above `n` as well
      rename_i hbetween
      have hns : n.begin < s.begin := by
        have hge := UInt32.not_lt.mp fun h => hbetween ⟨hlt, h⟩
        have hne := begin_ne hn hs (hd n (by simp))
        rw [UInt32.lt_iff_toNat_lt]
        refine lt_of_le_of_ne (UInt32.le_iff_toNat_le.mp hge) ?_
        exact fun e => hne (UInt32.toNat_inj.mp e)
      have hrec := insertFree_separated s hs l n (fun m hm => hok m (List.mem_cons_of_mem _ hm))
        (fun m hm => hd m (List.mem_cons_of_mem _ hm)) hnl hns
      refine List.pairwise_cons.mpr ⟨fun m hm => ?_, hrec⟩
      obtain ⟨x, hx, hb⟩ := insertFree_begin s (n :: l) m hm
      refine (hcl n List.mem_cons_self).trans_le ?_
      rw [hb]
      simp only [List.mem_cons] at hx
      rcases hx with rfl | rfl | hx
      · exact (UInt32.lt_iff_toNat_lt.mp hns).le
      · exact le_refl _
      · exact (hn.begin_lt_fin.trans (hn' x hx)).le

/-! ## Sequences of regions -/

/-- The invariant of a sequence of `addChunk` calls: the free list starts at `b₀`, where the first
region did; and it is separated as long as no region lies below (`low`). -/
structure Ordered (b₀ : UInt32) (low : Prop) (a : PFAllocator) (P : Set Nat)
    (L : Head → List Node) :
    Prop where
  inv : Inv (a, []) P L
  first : ∃ m l, L .segFree = m :: l ∧ m.begin = b₀
  sep : ¬low → (L .segFree).Pairwise Sep

variable {b₀ : UInt32} {low : Prop}

theorem Inv.ok_free (h : Inv (a, []) P L) (hn : n ∈ L .segFree) : n.Ok := h.ok n (by simp [all, hn])

theorem Inv.mem_pages_iff (h : Inv (a, []) P L) (p : Nat) :
    p ∈ P ↔ ∃ m ∈ L .segFree, p ∈ m.pages := by
  have hU : L .segUsed = [] := by simpa using h.live.symm
  rw [h.covers.union p]
  simp [all, hU]

/-- The first region. -/
theorem ordered_first {segs : SegPtr → Seg} {r : UInt32 × UInt32} (hb : r.1.toNat % 4096 = 0)
    (he : r.2.toNat % 4096 = 0) (hlt : r.1 < r.2) (hadd : (init segs).addChunk r.1 r.2 = .ok a) :
    ∃ L, Ordered r.1 low a (onePages r) L := by
  obtain ⟨i, h⟩ := (inv_init segs).addChunk hb he hlt (Set.disjoint_empty _) hadd
  rw [Set.union_empty] at h
  refine ⟨_, h, ⟨rounded i r.1 r.2, [], ?_, ?_⟩, fun _ => ?_⟩
  · rw [Function.update_self]
    rfl
  · rw [rounded_eq hb he]
  · rw [Function.update_self]
    exact List.pairwise_singleton _ _

/-- One more region. -/
theorem Ordered.addChunk {r : UInt32 × UInt32} (h : Ordered b₀ low a P L)
    (hb : r.1.toNat % 4096 = 0) (he : r.2.toNat % 4096 = 0) (hlt : r.1 < r.2)
    (hlow : ¬low → b₀ < r.1) (hd : Disjoint (onePages r) P) (hadd : a.addChunk r.1 r.2 = .ok a') :
    ∃ L', Ordered b₀ low a' (onePages r ∪ P) L' := by
  obtain ⟨m, l, hF, hm⟩ := h.first
  obtain ⟨i, h'⟩ := h.inv.addChunk hb he hlt hd hadd
  obtain ⟨hok, hpages⟩ := rounded_ok hb he hlt i
  have hbegin : (rounded i r.1 r.2).begin = r.1 := by rw [rounded_eq hb he]
  have hdisj : ∀ x ∈ L .segFree, Disjoint x.pages (rounded i r.1 r.2).pages := by
    intro x hx
    rw [hpages]
    refine (hd.mono_right fun p hp => ?_).symm
    exact (h.inv.mem_pages_iff p).mpr ⟨x, hx, hp⟩
  refine ⟨_, h', ?_, fun hno => ?_⟩
  · obtain ⟨m', l', hF', hm'⟩ := insertFree_head (rounded i r.1 r.2) m l
    exact ⟨m', l', by rw [Function.update_self, hF, hF'], hm'.trans hm⟩
  · rw [Function.update_self, hF]
    refine insertFree_separated _ hok l m ?_ ?_ ?_ ?_
    · exact fun x hx => h.inv.ok_free (hF ▸ hx)
    · exact fun x hx => hdisj x (hF ▸ hx)
    · rw [← hF]
      exact h.sep hno
    · rw [hm, hbegin]
      exact hlow hno

/-- A region that does not lie below the first lies above it. -/
theorem Regions.lt_of_le {r₀ r : UInt32 × UInt32} {rs : List (UInt32 × UInt32)}
    (h : Regions (r₀ :: rs)) (hr : r ∈ rs) (hle : r₀.1 ≤ r.1) : r₀.1 < r.1 := by
  have h₀ := UInt32.lt_iff_toNat_lt.mp (h.nonempty r₀ List.mem_cons_self)
  have h₁ := UInt32.lt_iff_toNat_lt.mp (h.nonempty r (List.mem_cons_of_mem _ hr))
  have hle' := UInt32.le_iff_toNat_le.mp hle
  rw [UInt32.lt_iff_toNat_lt]
  rcases (List.pairwise_cons.mp h.disjoint).1 r hr with hd | hd
  · exact lt_of_lt_of_le h₀ (UInt32.le_iff_toNat_le.mp hd)
  · have := UInt32.le_iff_toNat_le.mp hd
    omega

theorem addRegions_ordered {segs : SegPtr → Seg} {r₀ : UInt32 × UInt32}
    {rs : List (UInt32 × UInt32)} (hrs : Regions (r₀ :: rs))
    (h₀ : addRegions (init segs) (r₀ :: rs) = .ok a) :
    ∃ L, Ordered r₀.1 (∃ r ∈ rs, r.1 < r₀.1) a (regionPages (r₀ :: rs)) L := by
  obtain ⟨a₁, hadd, hrest⟩ := Res.bind_eq_ok.mp h₀
  obtain ⟨hb, he⟩ := hrs.aligned r₀ List.mem_cons_self
  have h₁ : ∃ L, Ordered r₀.1 (∃ r ∈ rs, r.1 < r₀.1) a₁ (onePages r₀) L :=
    ordered_first hb he (hrs.nonempty r₀ List.mem_cons_self) hadd
  rw [regionPages_cons, Set.union_comm]
  refine addRegions_induction (I := fun a P => ∃ L, Ordered r₀.1 (∃ r ∈ rs, r.1 < r₀.1) a P L) ?_
    hrs.tail hrs.tail_disjoint h₁ hrest
  rintro r hr a a' P ⟨L, h⟩ hd hadd
  obtain ⟨hb, he⟩ := hrs.tail.aligned r hr
  refine h.addChunk hb he (hrs.tail.nonempty r hr) (fun hno => ?_) hd hadd
  exact hrs.lt_of_le hr (UInt32.not_lt.mp fun hlt => hno ⟨r, hr, hlt⟩)

/-- A separated list is sorted and coalesced. -/
theorem Ordered.sortedCoalesced (h : Ordered b₀ low a P L) (hno : ¬low) : SortedCoalesced a P := by
  have hsep := h.sep hno
  have hrep := h.inv.rep
  have hview : ∀ m ∈ L .segFree, (a.segs m.id).begin = m.begin ∧ (a.segs m.id).fin = m.fin :=
    fun m hm => ⟨(hrep.owns_of_mem hm).1, hrep.fin_eq hm⟩
  refine ⟨ids (L .segFree), hrep.path .segFree, ?_, ?_, ?_⟩
  · rw [ids, List.pairwise_map]
    refine hsep.imp_of_mem ?_
    intro x y hx hy hxy
    rw [(hview x hx).1, (hview y hy).1, UInt32.lt_iff_toNat_lt]
    exact (h.inv.ok_free hx).begin_lt_fin.trans hxy
  · rw [hrep.pagesIn_eq .segFree]
    ext p
    exact (h.inv.mem_pages_iff p).symm
  · -- of two segments the lower one ends before the other begins
    have hapart : (L .segFree).Pairwise fun x y => x.fin ≠ y.begin ∧ y.fin ≠ x.begin := by
      refine hsep.imp_of_mem ?_
      intro x y hx hy hxy
      have hx' := (h.inv.ok_free hx).begin_lt_fin
      have hy' := (h.inv.ok_free hy).begin_lt_fin
      unfold Sep at hxy
      refine ⟨fun e => ?_, fun e => ?_⟩
      · rw [e] at hxy
        omega
      · rw [e] at hy'
        omega
    have : Std.Symm fun x y : Node => x.fin ≠ y.begin ∧ y.fin ≠ x.begin := ⟨fun _ _ hxy => hxy.symm⟩
    intro i hi j hj hij
    obtain ⟨x, hx, rfl⟩ := List.mem_map.mp hi
    obtain ⟨y, hy, rfl⟩ := List.mem_map.mp hj
    rw [(hview x hx).2, (hview y hy).1]
    exact (hapart.forall hx hy fun e => hij (congrArg Node.id e)).1

/-- In a sorted list no page lies below the first segment. -/
theorem Ordered.first_le (h : Ordered b₀ low a P L) (hs : SortedCoalesced a P) {b : UInt32}
    (hb : b.toNat % 4096 = 0) (hp : b.toNat / 4096 ∈ P) : b₀ ≤ b := by
  obtain ⟨F, hpath, hsorted, -, -⟩ := hs
  obtain rfl := hpath.unique (h.inv.rep.path .segFree)
  obtain ⟨m, l, hF, rfl⟩ := h.first
  obtain ⟨x, hx, hmem⟩ := (h.inv.mem_pages_iff _).mp hp
  have hle : x.begin.toNat ≤ b.toNat := by
    have := hmem.1
    have := (h.inv.ok_free hx).aligned
    omega
  have hview : ∀ n ∈ L .segFree, (a.segs n.id).begin = n.begin :=
    fun n hn => (h.inv.rep.owns_of_mem hn).1
  rw [UInt32.le_iff_toNat_le]
  have hm : m ∈ L .segFree := by simp [hF]
  rw [hF] at hx
  rcases List.mem_cons.mp hx with rfl | hx
  · exact hle
  · have hx' : x ∈ L .segFree := by simp [hF, hx]
    rw [hF, ids_cons, List.pairwise_cons] at hsorted
    have hlt := hsorted.1 x.id (mem_ids_of_mem hx)
    rw [hview m hm, hview x hx'] at hlt
    exact (UInt32.lt_iff_toNat_lt.mp hlt).le.trans hle

/-- **When the free list is sorted and coalesced**: exactly if no region lies below the one that was
added first. -/
theorem addChunk_sorted_iff {segs : SegPtr → Seg} {rs : List (UInt32 × UInt32)} (hrs : Regions rs)
    (h₀ : addRegions (init segs) rs = .ok a) :
    SortedCoalesced a (regionPages rs) ↔ ∀ r₀ ∈ rs.head?, ∀ r ∈ rs, r₀.1 ≤ r.1 := by
  cases rs with
  | nil =>
    obtain rfl : init segs = a := Except.ok.inj h₀
    refine ⟨fun _ r₀ hr₀ => absurd hr₀ (by simp), fun _ =>
      ⟨[], rfl, List.Pairwise.nil, ?_, by simp⟩⟩
    ext p
    simp [pagesIn, regionPages]
  | cons r₀ rs =>
    obtain ⟨L, h⟩ := addRegions_ordered hrs h₀
    simp only [List.head?_cons, Option.mem_def, Option.some.injEq, forall_eq']
    constructor
    · intro hs r hr
      have hr' := UInt32.lt_iff_toNat_lt.mp (hrs.nonempty r hr)
      obtain ⟨hb, he⟩ := hrs.aligned r hr
      refine h.first_le hs hb ⟨r, hr, le_refl _, ?_⟩
      omega
    · intro hle
      refine h.sortedCoalesced ?_
      rintro ⟨r, hr, hlt⟩
      exact absurd hlt (UInt32.not_lt.mpr (hle r (List.mem_cons_of_mem _ hr)))

/-- Two regions with a third between them, which joins both. -/
theorem addChunk_sorted_gap : ∃ a,
    addRegions (init fun _ => ⟨true, 0, 0, none⟩) [(0x1000, 0x2000), (0x3000, 0x4000),
      (0x2000, 0x3000)] = .ok a ∧
    SortedCoalesced a (regionPages [(0x1000, 0x2000), (0x3000, 0x4000), (0x2000, 0x3000)]) := by
  obtain ⟨a, ha⟩ : ∃ a, addRegions (init fun _ => ⟨true, 0, 0, none⟩)
      [(0x1000, 0x2000), (0x3000, 0x4000), (0x2000, 0x3000)] = .ok a := ⟨_, rfl⟩
  refine ⟨a, ha, (addChunk_sorted_iff ⟨by simp, by simp, by simp⟩ ha).mpr ?_⟩
  simp

/-- **A region below the first** is stored behind it. -/
theorem addChunk_below : ∃ a, Regions [(0x3000, 0x4000), (0x1000, 0x2000)] ∧
    addRegions (init fun _ => ⟨true, 0, 0, none⟩) [(0x3000, 0x4000), (0x1000, 0x2000)] = .ok a ∧
      ¬SortedCoalesced a (regionPages [(0x3000, 0x4000), (0x1000, 0x2000)]) := by
  have hrs : Regions [(0x3000, 0x4000), (0x1000, 0x2000)] := ⟨by simp, by simp, by simp⟩
  obtain ⟨a, ha⟩ : ∃ a, addRegions (init fun _ => ⟨true, 0, 0, none⟩)
      [(0x3000, 0x4000), (0x1000, 0x2000)] = .ok a := ⟨_, rfl⟩
  refine ⟨a, hrs, ha, fun hs => ?_⟩
  obtain ⟨L, h⟩ := addRegions_ordered hrs ha
  have hp : (0x1000 : UInt32).toNat / 4096 ∈ regionPages [(0x3000, 0x4000), (0x1000, 0x2000)] :=
    ⟨(0x1000, 0x2000), by simp, by decide⟩
  exact absurd (h.first_le hs (by decide) hp) (by decide)

end OwnOS.PFAllocator
