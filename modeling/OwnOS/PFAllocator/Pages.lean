import OwnOS.Lib.Word
import OwnOS.PFAllocator.Spec

/-!
# The pages of a segment

A segment describes `blocks` page frames from `begin` on. `Node.Fits` is what the arithmetic of the
code needs to be exact: a page-aligned begin and an end below 4 GiB, so that
`begin + blocks*ChunkSize` does not wrap. `Node.Ok` asks for a page as well.

* `join_fits`: two segments that touch make one, with the pages of both.
* `insertFree_pages`: `addChunk(Seg *)` adds no page that the segment and the list did not have.
-/

namespace OwnOS.PFAllocator

open Lib Lib.Word

/-- The numbers of the pages from `begin` on, `blocks` of them. -/
def pagesOf (begin blocks : UInt32) : Set Nat :=
  Set.Ico (begin.toNat / 4096) (begin.toNat / 4096 + blocks.toNat)

/-- The pages a descriptor describes. -/
def Seg.pages (s : Seg) : Set Nat := pagesOf s.begin s.blocks

/-- The pages of a node. -/
def Node.pages (n : Node) : Set Nat := pagesOf n.begin n.blocks

/-- A segment whose end the code computes exactly: page-aligned, and below 4 GiB. -/
structure Node.Fits (n : Node) : Prop where
  aligned : n.begin.toNat % 4096 = 0
  bound : n.begin.toNat + n.blocks.toNat * 4096 < 4294967296

/-- A segment as the lists should hold it: it fits and is not empty. -/
structure Node.Ok (n : Node) : Prop extends n.Fits where
  pos : 0 < n.blocks.toNat

variable {c n s : Node}

theorem chunkSize_toNat : chunkSize.toNat = 4096 := rfl

theorem Node.Fits.fin_toNat (h : n.Fits) : n.fin.toNat = n.begin.toNat + n.blocks.toNat * 4096 := by
  have hb := h.bound
  have hm : (n.blocks * chunkSize).toNat = n.blocks.toNat * 4096 :=
    toNat_mul_of_lt (by rw [chunkSize_toNat]; omega)
  rw [Node.fin, toNat_add_of_lt (by rw [hm]; exact hb), hm]

/-- The page a segment begins with. -/
theorem Node.Ok.first_mem (h : n.Ok) : n.begin.toNat / 4096 ∈ n.pages := by
  have := h.pos
  exact ⟨le_refl _, by omega⟩

/-- `x & ~(ChunkSize-1)`. -/
theorem roundDown_toNat (x : UInt32) :
    (x &&& ~~~(chunkSize - 1)).toNat = x.toNat / 4096 * 4096 := by
  rw [toNat_and_not_sub_one (k := 12) (by rfl), chunkSize_toNat]

/-- The segment from `x` to `y`, as the code computes its blocks: it fits and has the pages
between. -/
theorem span_fits {x y : UInt32} (hx : x.toNat % 4096 = 0) (hy : y.toNat % 4096 = 0)
    (hle : x.toNat ≤ y.toNat) (i : SegPtr) :
    ((y - x) / chunkSize).toNat = y.toNat / 4096 - x.toNat / 4096 ∧
      Node.Fits ⟨i, x, (y - x) / chunkSize⟩ ∧
      Node.pages ⟨i, x, (y - x) / chunkSize⟩ = Set.Ico (x.toNat / 4096) (y.toNat / 4096) := by
  have hlt := toNat_lt y
  have hb : ((y - x) / chunkSize).toNat = y.toNat / 4096 - x.toNat / 4096 := by
    rw [UInt32.toNat_div, toNat_sub_of_le hle, chunkSize_toNat]
    omega
  refine ⟨hb, ⟨hx, ?_⟩, ?_⟩
  · simp only [hb]
    omega
  · simp only [Node.pages, pagesOf, hb]
    rw [Nat.add_sub_cancel' (Nat.div_le_div_right hle)]

/-- Joining two segments that touch: a segment that fits, with the pages of both. -/
theorem join_fits (hc : c.Fits) (hs : s.Fits) (h : c.fin = s.begin) (i : SegPtr) :
    (c.blocks + s.blocks).toNat = c.blocks.toNat + s.blocks.toNat ∧
      Node.Fits ⟨i, c.begin, c.blocks + s.blocks⟩ ∧
      Node.pages ⟨i, c.begin, c.blocks + s.blocks⟩ = c.pages ∪ s.pages := by
  have hf := hc.fin_toNat
  rw [h] at hf
  have hcb := hc.bound
  have hsb := hs.bound
  have ha := hc.aligned
  have hadd : (c.blocks + s.blocks).toNat = c.blocks.toNat + s.blocks.toNat :=
    toNat_add_of_lt (by omega)
  refine ⟨hadd, ⟨ha, ?_⟩, ?_⟩
  · have hsum : c.begin.toNat + (c.blocks.toNat + s.blocks.toNat) * 4096 < 4294967296 := by
      rw [hf] at hsb
      rw [Nat.add_mul, ← Nat.add_assoc]
      exact hsb
    exact hadd.symm ▸ hsum
  · have hd : (c.begin.toNat + c.blocks.toNat * 4096) / 4096 =
        c.begin.toNat / 4096 + c.blocks.toNat := by omega
    simp only [Node.pages, pagesOf, hadd, hf, hd]
    rw [Set.Ico_union_Ico_eq_Ico (by omega) (by omega), Nat.add_assoc]

/-- The join the other way round, as `addChunk` lets the next segment grow downwards. -/
theorem join_fits' (hs : s.Fits) (hn : n.Fits) (h : s.fin = n.begin) (i : SegPtr) :
    (n.blocks + s.blocks).toNat = n.blocks.toNat + s.blocks.toNat ∧
      Node.Fits ⟨i, s.begin, n.blocks + s.blocks⟩ ∧
      Node.pages ⟨i, s.begin, n.blocks + s.blocks⟩ = n.pages ∪ s.pages := by
  have := join_fits hs hn h i
  rw [UInt32.add_comm, Set.union_comm, Nat.add_comm] at this
  exact this

/-! ## Chunks up to 4 GiB -/

/-- Blocks from a page boundary on, at least one, that do not reach beyond 4 GiB. -/
structure Chunk (begin blocks : UInt32) : Prop where
  aligned : begin.toNat % 4096 = 0
  bound : begin.toNat + blocks.toNat * 4096 ≤ 4294967296
  pos : 0 < blocks.toNat

theorem Node.Ok.chunk (h : n.Ok) : Chunk n.begin n.blocks := ⟨h.aligned, h.bound.le, h.pos⟩

theorem Chunk.ok (h : Chunk n.begin n.blocks)
    (hb : n.begin.toNat + n.blocks.toNat * 4096 < 4294967296) : n.Ok := ⟨⟨h.aligned, hb⟩, h.pos⟩

/-- Fewer of the blocks. -/
theorem Chunk.mono {begin blocks blocks' : UInt32} (h : Chunk begin blocks) (h0 : 0 < blocks'.toNat)
    (hle : blocks'.toNat ≤ blocks.toNat) : Chunk begin blocks' where
  aligned := h.aligned
  bound := (Nat.add_le_add_left (Nat.mul_le_mul_right 4096 hle) _).trans h.bound
  pos := h0

/-- The blocks behind the first `num`: a chunk with the same end. -/
theorem Chunk.drop {begin blocks num : UInt32} (h : Chunk begin blocks)
    (hlt : num.toNat < blocks.toNat) :
    (begin + num * chunkSize).toNat = begin.toNat + num.toNat * 4096 ∧
      (blocks - num).toNat = blocks.toNat - num.toNat ∧
      Chunk (begin + num * chunkSize) (blocks - num) := by
  have ha := h.aligned
  have hb := h.bound
  have hmul : (num * chunkSize).toNat = num.toNat * 4096 := by
    refine toNat_mul_of_lt ?_
    rw [chunkSize_toNat]
    omega
  have hbegin : (begin + num * chunkSize).toNat = begin.toNat + num.toNat * 4096 := by
    rw [toNat_add_of_lt, hmul]
    rw [hmul]
    omega
  have hsub : (blocks - num).toNat = blocks.toNat - num.toNat := toNat_sub_of_le hlt.le
  refine ⟨hbegin, hsub, ?_, ?_, ?_⟩
  · rw [hbegin]
    omega
  · rw [hbegin, hsub]
    omega
  · rw [hsub]
    omega

/-- What `allocChunk(num)` leaves of a segment: nothing, or the blocks behind the first `num`. -/
theorem rest_cases {num : UInt32} (hc : Chunk c.begin c.blocks) (hle : num ≤ c.blocks) :
    (rest c num = [] ∧ c.blocks.toNat = num.toNat) ∨
      ∃ m, rest c num = [m] ∧ m.id = c.id ∧ Chunk m.begin m.blocks ∧
        m.begin.toNat + m.blocks.toNat * 4096 = c.begin.toNat + c.blocks.toNat * 4096 ∧
        m.pages =
          Set.Ico (c.begin.toNat / 4096 + num.toNat) (c.begin.toNat / 4096 + c.blocks.toNat) := by
  have hle' := UInt32.le_iff_toNat_le.mp hle
  have hsub : (c.blocks - num).toNat = c.blocks.toNat - num.toNat := toNat_sub_of_le hle'
  unfold rest
  split
  · rename_i hz
    have hzero : c.blocks.toNat - num.toNat = 0 := by
      rw [← hsub, hz]
      rfl
    exact Or.inl ⟨rfl, by omega⟩
  · rename_i hz
    have hlt : num.toNat < c.blocks.toNat := by
      rcases Nat.lt_or_ge num.toNat c.blocks.toNat with hlt | hge
      · exact hlt
      · refine absurd (UInt32.toNat_inj.mp ?_) hz
        rw [hsub, Nat.sub_eq_zero_of_le hge]
        rfl
    obtain ⟨hbegin, hblocks, hdrop⟩ := hc.drop hlt
    refine Or.inr ⟨_, rfl, rfl, hdrop, ?_, ?_⟩
    · simp only [hbegin, hblocks]
      omega
    · have hdiv : (c.begin.toNat + num.toNat * 4096) / 4096 = c.begin.toNat / 4096 + num.toNat := by
        omega
      simp only [Node.pages, pagesOf, hbegin, hblocks, hdiv]
      rw [Nat.add_assoc, Nat.add_sub_cancel' hlt.le]

/-! ## `addChunk(Seg *)` -/

/-- `addChunk(Seg *)` adds no page: every segment of the new free list fits, and its pages are
pages of the segment or of the old list. -/
theorem insertFree_pages (s : Node) : ∀ F : List Node, (∀ m ∈ s :: F, m.Fits) →
    ∀ m ∈ insertFree s F, m.Fits ∧ ∀ p ∈ m.pages, ∃ x ∈ s :: F, p ∈ x.pages
  | [], hf, m, hm => ⟨hf m hm, fun _ hp => ⟨m, hm, hp⟩⟩
  | [c], hf, m, hm => by
    unfold insertFree at hm
    split at hm
    · rename_i hfin
      obtain ⟨-, hj, hp⟩ := join_fits (hf c (by simp)) (hf s (by simp)) hfin c.id
      obtain rfl := List.mem_singleton.mp hm
      refine ⟨hj, fun p hmem => ?_⟩
      rw [hp] at hmem
      rcases hmem with h | h
      · exact ⟨c, by simp, h⟩
      · exact ⟨s, by simp, h⟩
    · have hm' : m ∈ [s, c] := by simpa [or_comm] using hm
      exact ⟨hf m hm', fun _ hp => ⟨m, hm', hp⟩⟩
  | c :: n :: l, hf, m, hm => by
    have hkeep : ∀ m ∈ s :: c :: n :: l, m.Fits ∧ ∀ p ∈ m.pages, ∃ x ∈ s :: c :: n :: l,
        p ∈ x.pages :=
      fun m hm => ⟨hf m hm, fun _ hp => ⟨m, hm, hp⟩⟩
    have hs := hf s (by simp)
    have hc := hf c (by simp)
    have hn := hf n (by simp)
    unfold insertFree at hm
    split at hm
    · split at hm
      · rename_i hfin
        obtain ⟨-, hj, hp⟩ := join_fits hc hs hfin c.id
        simp only at hm
        split at hm
        · rename_i hfin2
          obtain ⟨-, hj2, hp2⟩ := join_fits hj hn hfin2 c.id
          rcases List.mem_cons.mp hm with rfl | hm
          · refine ⟨hj2, fun p hmem => ?_⟩
            rw [hp2, hp] at hmem
            rcases hmem with (h | h) | h
            · exact ⟨c, by simp, h⟩
            · exact ⟨s, by simp, h⟩
            · exact ⟨n, by simp, h⟩
          · exact hkeep m (by simp [hm])
        · rcases List.mem_cons.mp hm with rfl | hm
          · refine ⟨hj, fun p hmem => ?_⟩
            rw [hp] at hmem
            rcases hmem with h | h
            · exact ⟨c, by simp, h⟩
            · exact ⟨s, by simp, h⟩
          · exact hkeep m (List.mem_cons_of_mem _ (List.mem_cons_of_mem _ hm))
      · split at hm
        · rename_i hfin
          obtain ⟨-, hj, hp⟩ := join_fits' hs hn hfin n.id
          simp only [List.mem_cons] at hm
          rcases hm with rfl | rfl | hm
          · exact hkeep m (by simp)
          · refine ⟨hj, fun p hmem => ?_⟩
            rw [hp] at hmem
            rcases hmem with h | h
            · exact ⟨n, by simp, h⟩
            · exact ⟨s, by simp, h⟩
          · exact hkeep m (by simp [hm])
        · simp only [List.mem_cons] at hm
          rcases hm with rfl | rfl | rfl | hm
          · exact hkeep m (by simp)
          · exact hkeep m (by simp)
          · exact hkeep m (by simp)
          · exact hkeep m (by simp [hm])
    · rcases List.mem_cons.mp hm with rfl | hm
      · exact hkeep m (by simp)
      · have hsub : ∀ x ∈ s :: n :: l, x ∈ s :: c :: n :: l := fun x hx => by
          rcases List.mem_cons.mp hx with rfl | hx
          · exact List.mem_cons_self
          · exact List.mem_cons_of_mem _ (List.mem_cons_of_mem _ hx)
        obtain ⟨hfm, hp⟩ := insertFree_pages s (n :: l) (fun x hx => hf x (hsub x hx)) m hm
        refine ⟨hfm, fun p hmem => ?_⟩
        obtain ⟨x, hx, hpx⟩ := hp p hmem
        exact ⟨x, hsub x hx, hpx⟩

end OwnOS.PFAllocator
