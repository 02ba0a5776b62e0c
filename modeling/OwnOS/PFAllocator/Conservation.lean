import OwnOS.Lib.Cover
import OwnOS.Lib.Run
import OwnOS.PFAllocator.Pages

/-!
# No page is lost: runs of `allocChunk` and `freeChunk`

The free list is built by `addChunk(begin, end)` from disjoint, page-aligned, non-empty regions;
then any number of `allocChunk(n)` and `freeChunk(a)` calls follow, `a` being an address that
`allocChunk` returned and that was not freed since. `Conserved` is what should hold in every state:
both lists end, share no `Seg`, and the pages of their segments are disjoint and make up exactly
the pages of the regions; the segments of the used list are the addresses handed out.

The code does not keep it. `freeChunk` hands `addChunk(Seg *)` a segment whose `np` still points
into the used list (`PFAllocator.cpp:213-215`), and on the two branches that store it at the end of
the free list (`:39`, `:79`) nothing resets `np`. The free list then runs on into the used list
(`conservation_fails`).

* `FreeOk`: the freed segment is the last one of the used list, or `addChunk(Seg *)` coalesces it or
  puts it between two free segments (`joinsTail` is false).
* **`pages_conserved`**: in every run whose `freeChunk` calls are all `FreeOk`, every state reached
  is `Conserved`, and the next call returns or panics.
-/

namespace OwnOS.PFAllocator

open Lib Lib.Word

/-! ## The pages of the lists -/

variable {a : PFAllocator} {L : Head → List Node} {N F : List Node} {c n s : Node} {P : Set Nat}

/-- Joining two good segments that touch. -/
theorem join_ok (hc : c.Ok) (hs : s.Ok) (h : c.fin = s.begin) (i : SegPtr) :
    Node.Ok ⟨i, c.begin, c.blocks + s.blocks⟩ := by
  obtain ⟨hadd, hf, -⟩ := join_fits hc.toFits hs.toFits h i
  have := hc.pos
  exact ⟨hf, by show 0 < (c.blocks + s.blocks).toNat; omega⟩

/-- **`addChunk(Seg *)` keeps the pages**: the free list after it covers the segment and what the
list covered. -/
theorem insertFree_covers (s : Node) : ∀ (F N : List Node) (P : Set Nat),
    (∀ m ∈ s :: F, m.Ok) → Covers Node.pages (s :: F ++ N) P →
      (∀ m ∈ insertFree s F, m.Ok) ∧ Covers Node.pages (insertFree s F ++ N) P
  | [], N, P, hok, h => ⟨hok, h⟩
  | [c], N, P, hok, h => by
    have hs := hok s List.mem_cons_self
    have hc := hok c (by simp)
    have h' : Covers Node.pages (c :: s :: N) P := h.perm (List.Perm.swap _ _ _)
    unfold insertFree
    split
    · rename_i hm
      have hj := join_ok hc hs hm c.id
      exact ⟨by simpa using hj, h'.merge (join_fits hc.toFits hs.toFits hm c.id).2.2⟩
    · exact ⟨by simp [hs, hc], h'⟩
  | c :: n :: l, N, P, hok, h => by
    have hs := hok s List.mem_cons_self
    have hc := hok c (by simp)
    have hn := hok n (by simp)
    have hl : ∀ m ∈ l, m.Ok := fun m hm => hok m (by simp [hm])
    have h' : Covers Node.pages (c :: s :: n :: (l ++ N)) P := h.perm (List.Perm.swap _ _ _)
    unfold insertFree
    split
    · split
      · rename_i hm
        have hj := join_ok hc hs hm c.id
        have hcs := h'.merge (join_fits hc.toFits hs.toFits hm c.id).2.2
        simp only
        split
        · rename_i hm2
          refine ⟨fun m hmem => ?_, hcs.merge (join_fits hj.toFits hn.toFits hm2 c.id).2.2⟩
          rcases List.mem_cons.mp hmem with rfl | hmem
          · exact join_ok hj hn hm2 c.id
          · exact hl m hmem
        · refine ⟨fun m hmem => ?_, hcs⟩
          rcases List.mem_cons.mp hmem with rfl | hmem
          · exact hj
          · rcases List.mem_cons.mp hmem with rfl | hmem
            · exact hn
            · exact hl m hmem
      · split
        · rename_i hm2
          obtain ⟨hadd, hj, hp⟩ := join_fits' hs.toFits hn.toFits hm2 n.id
          have hns : Covers Node.pages (n :: s :: c :: (l ++ N)) P := by
            refine h'.perm (((List.Perm.swap n s _).cons c).trans ?_)
            exact (List.Perm.swap n c _).trans ((List.Perm.swap s c _).cons n)
          refine ⟨fun m hmem => ?_, (hns.merge hp).perm (List.Perm.swap _ _ _)⟩
          rcases List.mem_cons.mp hmem with rfl | hmem
          · exact hc
          · rcases List.mem_cons.mp hmem with rfl | hmem
            · exact ⟨hj, by have := hn.pos; show 0 < (n.blocks + s.blocks).toNat; omega⟩
            · exact hl m hmem
        · refine ⟨fun m hmem => ?_, h'⟩
          simp only [List.mem_cons] at hmem
          rcases hmem with rfl | rfl | rfl | hmem
          · exact hc
          · exact hs
          · exact hn
          · exact hl m hmem
    · -- the walk goes on: `c` joins the rest that stays
      have hrec := insertFree_covers s (n :: l) (c :: N) P
        (fun m hm => hok m (by
          rcases List.mem_cons.mp hm with rfl | hm
          · exact List.mem_cons_self
          · exact List.mem_cons_of_mem _ (List.mem_cons_of_mem _ hm)))
        (h.perm (List.Perm.cons s (List.perm_middle (a := c)).symm))
      refine ⟨fun m hm => ?_, hrec.2.perm List.perm_middle⟩
      rcases List.mem_cons.mp hm with rfl | hm
      · exact hc
      · exact hrec.1 m hm

/-- The nodes in play, one of the free list first. -/
theorem all_perm_free {A B : List Node} (hF : L .segFree = A ++ c :: B) :
    (all L []).Perm (c :: (A ++ B ++ L .segUsed)) := by
  simp only [all, hF, List.append_nil, List.append_assoc, List.cons_append]
  exact List.perm_middle

/-- The nodes in play after `R` has taken the place of a free node and `u` has joined the used
list. -/
theorem all_perm_taken (A R B : List Node) (u : Node) :
    (all (Function.update (Function.update L .segFree (A ++ R ++ B)) .segUsed
      (insertUsed u (L .segUsed))) []).Perm (u :: (R ++ (A ++ B ++ L .segUsed))) := by
  simp only [all, Function.update_self,
    Function.update_of_ne (show Head.segFree ≠ .segUsed by decide), List.append_nil]
  refine (List.Perm.append_left _ (insertUsed_perm _ _)).trans ?_
  refine List.perm_middle.trans (List.Perm.cons _ ?_)
  simp only [List.append_assoc]
  exact List.perm_append_comm_assoc _ _ _

/-- Taking `num` blocks off a segment: what is taken and what stays are chunks that end where the
segment ends or below, and together they have the pages of the segment. -/
theorem rest_covers {num : UInt32} (hc : Chunk c.begin c.blocks) (h0 : 0 < num.toNat)
    (hle : num ≤ c.blocks) (i : SegPtr) (h : Covers Node.pages (c :: N) P) :
    (∀ m ∈ ⟨i, c.begin, num⟩ :: rest c num, Chunk m.begin m.blocks ∧
      m.begin.toNat + m.blocks.toNat * 4096 ≤ c.begin.toNat + c.blocks.toNat * 4096) ∧
      Covers Node.pages (⟨i, c.begin, num⟩ :: (rest c num ++ N)) P := by
  have hle' := UInt32.le_iff_toNat_le.mp hle
  have htaken : Chunk c.begin num ∧ c.begin.toNat + num.toNat * 4096 ≤
      c.begin.toNat + c.blocks.toNat * 4096 :=
    ⟨hc.mono h0 hle', Nat.add_le_add_left (Nat.mul_le_mul_right 4096 hle') _⟩
  rcases rest_cases hc hle with ⟨hrest, heq⟩ | ⟨m, hrest, -, hm, hend, hpages⟩
  · rw [hrest]
    refine ⟨by simpa using htaken, h.replace ?_⟩
    simp only [Node.pages, pagesOf, heq]
  · rw [hrest]
    refine ⟨?_, h.split ?_ ?_⟩
    · simp only [List.mem_cons, List.not_mem_nil, or_false]
      rintro x (rfl | rfl)
      · exact htaken
      · exact ⟨hm, hend.le⟩
    · rw [hpages]
      simp only [Node.pages, pagesOf]
      rw [Set.Ico_union_Ico_eq_Ico (by omega) (by omega)]
    · rw [hpages]
      simp only [Node.pages, pagesOf]
      rw [Set.disjoint_left]
      intro x hx hy
      exact absurd hx.2 (Nat.not_lt.mpr hy.1)

/-! ## Runs -/

/-- The calls of a run. -/
inductive Op where
  | alloc (num : UInt16)
  | free (addr : UInt32)
  deriving DecidableEq

/-- The allocator with the addresses `allocChunk` returned and nobody freed since. -/
abbrev State := PFAllocator × List UInt32

/-- One call. -/
def step (s : State) : Op → Res State
  | .alloc num => do
    let (a, r) ← s.1.allocChunk num
    .ok (a, r :: s.2)
  | .free addr => do
    let a ← s.1.freeChunk addr
    .ok (a, s.2.erase addr)

/-- The calls the kernel may make: at least one block, and only an address it holds. -/
def Legal (s : State) : Op → Prop
  | .alloc num => 1 ≤ num
  | .free addr => addr ∈ s.2

instance (s : State) (o : Op) : Decidable (Legal s o) :=
  match o with
  | .alloc num => inferInstanceAs (Decidable (1 ≤ num))
  | .free addr => inferInstanceAs (Decidable (addr ∈ s.2))

/-- The freed segment is the last one of the used list, or `addChunk(Seg *)` does not store it
unmerged at the end of the free list. -/
def FreeOk (s : State) : Op → Prop
  | .alloc _ => True
  | .free addr => ∀ n ∈ s.1.nodes .segUsed, n.begin = addr →
      (s.1.segs n.id).np = none ∨ joinsTail n (s.1.nodes .segFree) = false

instance (s : State) (o : Op) : Decidable (FreeOk s o) :=
  match o with
  | .alloc _ => inferInstanceAs (Decidable True)
  | .free addr => inferInstanceAs (Decidable (∀ n ∈ s.1.nodes .segUsed, n.begin = addr →
      (s.1.segs n.id).np = none ∨ joinsTail n (s.1.nodes .segFree) = false))

/-- Register regions one after the other, as `mbi_read` does. -/
def addRegions : PFAllocator → List (UInt32 × UInt32) → Res PFAllocator
  | a, [] => .ok a
  | a, r :: rs => do
    let a ← a.addChunk r.1 r.2
    addRegions a rs

/-- Page-aligned, non-empty, pairwise disjoint regions `[begin, end)`. -/
structure Regions (rs : List (UInt32 × UInt32)) : Prop where
  aligned : ∀ r ∈ rs, r.1.toNat % 4096 = 0 ∧ r.2.toNat % 4096 = 0
  nonempty : ∀ r ∈ rs, r.1 < r.2
  disjoint : rs.Pairwise fun r r' => r.2 ≤ r'.1 ∨ r'.2 ≤ r.1

/-- The pages of the regions. -/
def regionPages (rs : List (UInt32 × UInt32)) : Set Nat :=
  {p | ∃ r ∈ rs, p ∈ Set.Ico (r.1.toNat / 4096) (r.2.toNat / 4096)}

/-- **Conservation**: the two lists end and share no `Seg`; the pages of their segments are
pairwise disjoint and are exactly `P`; the segments of the used list begin at the addresses handed
out. -/
def Conserved (s : State) (P : Set Nat) : Prop :=
  ∃ F U : List SegPtr,
    s.1.links.Path (.head .segFree) F none ∧ s.1.links.Path (.head .segUsed) U none ∧
    F.Disjoint U ∧ Covers (fun i => (s.1.segs i).pages) (F ++ U) P ∧
    s.2.Perm (U.map fun i => (s.1.segs i).begin)

/-- The invariant of a run, over the represented lists. -/
structure Inv (s : State) (P : Set Nat) (L : Head → List Node) : Prop where
  rep : Rep s.1 L []
  ok : ∀ n ∈ all L [], n.Ok
  covers : Covers Node.pages (all L []) P
  live : s.2.Perm ((L .segUsed).map (·.begin))

namespace Inv

variable {st st' : State}

theorem conserved (h : Inv st P L) : Conserved st P := by
  refine ⟨ids (L .segFree), ids (L .segUsed), h.rep.path _, h.rep.path _, ?_, ?_, ?_⟩
  · exact fun i hF hU => h.rep.ids_disjoint (k := .segFree) (by decide) hF hU
  · have hc := h.covers
    simp only [all, List.append_nil] at hc
    have hv : ∀ n ∈ L .segFree ++ L .segUsed, (st.1.segs n.id).pages = n.pages := fun n hn => by
      have hm : n ∈ all L [] := by simpa [all] using hn
      obtain ⟨hb, hl⟩ := h.rep.owns.view n hm
      rw [Seg.pages, Node.pages, hb, hl]
    rw [← ids_append]
    refine ⟨?_, fun p => ?_⟩
    · rw [ids, List.pairwise_map]
      refine hc.disjoint.imp_of_mem fun hx hy hd => ?_
      rwa [hv _ hx, hv _ hy]
    · rw [hc.union p]
      constructor
      · rintro ⟨n, hn, hp⟩
        exact ⟨n.id, mem_ids_of_mem hn, by rwa [hv n hn]⟩
      · rintro ⟨i, hi, hp⟩
        obtain ⟨n, hn, rfl⟩ := List.mem_map.mp hi
        exact ⟨n, hn, by rwa [hv n hn] at hp⟩
  · refine h.live.trans (List.Perm.of_eq ?_)
    rw [ids, List.map_map]
    exact List.map_congr_left fun n hn => (h.rep.owns_of_mem hn).1.symm

theorem alloc {num : UInt16} (h : Inv st P L) (h0 : 1 ≤ num) :
    (∃ msg, step st (.alloc num) = .error (.panic msg)) ∨
      ∃ st' L', step st (.alloc num) = .ok st' ∧ Inv st' P L' := by
  rcases allocChunk_spec h.rep num with ⟨msg, he⟩ | ⟨A, c, B, i, a', hF, -, hle, he, hrep⟩
  · exact Or.inl ⟨msg, by simp only [step, he, Res.error_bind]⟩
  · have hstep : step st (.alloc num) = .ok (a', c.begin :: st.2) := by
      simp only [step, he, Res.ok_bind]
    have hnum : 0 < num.toUInt32.toNat := by
      have h1 : (1 : UInt16).toNat ≤ num.toNat := UInt16.le_iff_toNat_le.mp h0
      have h2 : (1 : UInt16).toNat = 1 := rfl
      rw [UInt16.toNat_toUInt32]
      omega
    have hall := all_perm_free hF
    have hall' := all_perm_taken (L := L) A (rest c num.toUInt32) B ⟨i, c.begin, num.toUInt32⟩
    have hc : c.Ok := h.ok c (hall.mem_iff.mpr List.mem_cons_self)
    obtain ⟨hok, hcov⟩ := rest_covers hc.chunk hnum hle i (h.covers.perm hall)
    refine Or.inr ⟨_, _, hstep, ⟨hrep, fun n hn => ?_, hcov.perm hall'.symm, ?_⟩⟩
    · have hn' := hall'.mem_iff.mp hn
      rw [← List.cons_append, List.mem_append] at hn'
      rcases hn' with hn' | hn'
      · exact (hok n hn').1.ok (lt_of_le_of_lt (hok n hn').2 hc.bound)
      · exact h.ok n (hall.mem_iff.mpr (List.mem_cons_of_mem _ hn'))
    · simp only [Function.update_self]
      refine (List.Perm.cons _ h.live).trans ?_
      exact ((insertUsed_perm ⟨i, c.begin, num.toUInt32⟩ (L .segUsed)).map Node.begin).symm

/-- Two segments in play that begin at one address are one. -/
theorem begin_inj (h : Inv st P L) (hn : n ∈ all L []) (hs : s ∈ all L []) (e : n.begin = s.begin) :
    n = s := by
  refine h.covers.eq_of_mem hn hs (h.ok n hn).first_mem ?_
  rw [e]
  exact (h.ok s hs).first_mem

theorem free {addr : UInt32} (h : Inv st P L) (hl : addr ∈ st.2) (hok : FreeOk st (.free addr)) :
    ∃ st' L', step st (.free addr) = .ok st' ∧ Inv st' P L' := by
  obtain ⟨s, hs, rfl⟩ := List.mem_map.mp (h.live.mem_iff.mp hl)
  obtain ⟨A, B, hU⟩ := List.append_of_mem hs
  have hmem : ∀ n, n ∈ L .segUsed → n ∈ all L [] := fun n hn => by simp [all, hn]
  have hA : ∀ m ∈ A, m.begin ≠ s.begin := by
    intro m hm e
    obtain rfl := h.begin_inj (hmem m (by rw [hU]; simp [hm])) (hmem s hs) e
    have hnd := (h.rep.path .segUsed).nodup
    rw [hU, ids_append, List.nodup_append] at hnd
    exact hnd.2.2 _ (mem_ids_of_mem hm) _ List.mem_cons_self rfl
  have htail : B = [] ∨ joinsTail s (L .segFree) = false := by
    have := hok s (by rw [h.rep.nodes_eq]; exact hs) rfl
    rw [h.rep.nodes_eq] at this
    refine this.imp_left fun hnp => ?_
    have hd := (h.rep.deref_next hU).symm.trans hnp
    cases B with
    | nil => rfl
    | cons m B => exact absurd hd (by simp)
  obtain ⟨a', he, hrep⟩ := freeChunk_spec h.rep hU hA rfl htail
  have hstep : step st (.free s.begin) = .ok (a', st.2.erase s.begin) := by
    simp only [step, he, Res.ok_bind]
  have hall : (all L []).Perm (s :: L .segFree ++ (A ++ B)) := by
    simp only [all, hU, List.append_nil, List.cons_append]
    refine (List.Perm.append_left _ List.perm_middle).trans ?_
    exact List.perm_middle
  have hall' : all (Function.update (Function.update L .segUsed (A ++ B)) .segFree
      (insertFree s (L .segFree))) [] = insertFree s (L .segFree) ++ (A ++ B) := by
    simp only [all, Function.update_self,
      Function.update_of_ne (show Head.segUsed ≠ .segFree by decide), List.append_nil]
  obtain ⟨hok', hcov⟩ := insertFree_covers s (L .segFree) (A ++ B) P
    (fun m hm => h.ok m (hall.mem_iff.mpr (List.mem_append_left _ hm))) (h.covers.perm hall)
  refine ⟨_, _, hstep, ⟨hrep, fun n hn => ?_, by rw [hall']; exact hcov, ?_⟩⟩
  · rw [hall', List.mem_append] at hn
    rcases hn with hn | hn
    · exact hok' n hn
    · exact h.ok n (hall.mem_iff.mpr (List.mem_append_right _ hn))
  · simp only [Function.update_of_ne (show Head.segUsed ≠ .segFree by decide), Function.update_self]
    refine (h.live.erase s.begin).trans ?_
    rw [hU, List.map_append, List.map_cons]
    refine (List.perm_middle.erase s.begin).trans ?_
    rw [List.erase_cons_head, List.map_append]

theorem step (h : Inv st P L) {o : Op} (hl : Legal st o) (hok : FreeOk st o) :
    (∃ msg, PFAllocator.step st o = .error (.panic msg)) ∨
      ∃ st' L', PFAllocator.step st o = .ok st' ∧ Inv st' P L' := by
  cases o with
  | alloc num => exact h.alloc hl
  | free addr => exact Or.inr (h.free hl hok)

end Inv

/-! ## The initial free list -/

/-- A page-aligned region is registered as it is. -/
theorem rounded_eq {b e : UInt32} (hb : b.toNat % 4096 = 0) (he : e.toNat % 4096 = 0) (i : SegPtr) :
    rounded i b e = ⟨i, b, (e - b) / chunkSize⟩ := by
  have hround : ∀ x : UInt32, x.toNat % 4096 = 0 → x &&& ~~~(chunkSize - 1) = x := fun x hx => by
    refine UInt32.toNat_inj.mp ?_
    rw [roundDown_toNat]
    omega
  unfold rounded
  rw [hround b hb, hround e he]

theorem rounded_ok {b e : UInt32} (hb : b.toNat % 4096 = 0) (he : e.toNat % 4096 = 0) (hlt : b < e)
    (i : SegPtr) :
    (rounded i b e).Ok ∧ (rounded i b e).pages = Set.Ico (b.toNat / 4096) (e.toNat / 4096) := by
  have hlt' := UInt32.lt_iff_toNat_lt.mp hlt
  obtain ⟨hblocks, hfits, hpages⟩ := span_fits hb he hlt'.le i
  rw [rounded_eq hb he]
  exact ⟨⟨hfits, by simp only [hblocks]; omega⟩, hpages⟩

/-- One more region on top of a free list that covers `P`. -/
theorem Inv.addChunk {b e : UInt32} {a' : PFAllocator} (h : Inv (a, []) P L)
    (hb : b.toNat % 4096 = 0) (he : e.toNat % 4096 = 0) (hlt : b < e)
    (hd : Disjoint (Set.Ico (b.toNat / 4096) (e.toNat / 4096)) P) (hadd : a.addChunk b e = .ok a') :
    ∃ i, Inv (a', []) (Set.Ico (b.toNat / 4096) (e.toNat / 4096) ∪ P)
      (Function.update L .segFree (insertFree (rounded i b e) (L .segFree))) := by
  rcases addChunk_spec h.rep b e with ⟨msg, hpan⟩ | ⟨i, a₁, hok, hrep⟩
  · exact absurd (hpan.symm.trans hadd) (by simp)
  · obtain rfl : a₁ = a' := Except.ok.inj (hok.symm.trans hadd)
    obtain ⟨hnode, hpages⟩ := rounded_ok hb he hlt i
    have hU : L .segUsed = [] := by simpa using h.live.symm
    have hcov : Covers Node.pages (L .segFree ++ []) P := by simpa [all, hU] using h.covers
    rw [← hpages] at hd ⊢
    obtain ⟨hok', hcov'⟩ := insertFree_covers (rounded i b e) (L .segFree) [] _ (fun m hm => by
      rcases List.mem_cons.mp hm with rfl | hm
      · exact hnode
      · exact h.ok m (by simp [all, hm])) (hcov.cons hd)
    have hall : all (Function.update L .segFree (insertFree (rounded i b e) (L .segFree))) [] =
        insertFree (rounded i b e) (L .segFree) ++ [] := by
      simp only [all, Function.update_self,
        Function.update_of_ne (show Head.segUsed ≠ .segFree by decide), hU, List.append_nil]
    refine ⟨i, ⟨hrep, fun n hn => ?_, by rw [hall]; exact hcov', ?_⟩⟩
    · rw [hall, List.append_nil] at hn
      exact hok' n hn
    · rw [Function.update_of_ne (show Head.segUsed ≠ .segFree by decide), hU]
      exact List.Perm.refl _

/-- The pages of one region. -/
def onePages (r : UInt32 × UInt32) : Set Nat := Set.Ico (r.1.toNat / 4096) (r.2.toNat / 4096)

theorem regionPages_cons (r : UInt32 × UInt32) (rs : List (UInt32 × UInt32)) :
    regionPages (r :: rs) = onePages r ∪ regionPages rs := by
  ext p
  simp [regionPages, onePages]

/-- Regions that do not meet have no page in common. -/
theorem Regions.tail_disjoint {r : UInt32 × UInt32} {rs : List (UInt32 × UInt32)}
    (h : Regions (r :: rs)) : Disjoint (regionPages rs) (onePages r) := by
  obtain ⟨hfar, -⟩ := List.pairwise_cons.mp h.disjoint
  refine Set.disjoint_left.mpr ?_
  rintro p ⟨r', hr', hp⟩ hq
  rcases hfar r' hr' with hle | hle
  · have := Nat.div_le_div_right (c := 4096) (UInt32.le_iff_toNat_le.mp hle)
    exact absurd hq.2 (Nat.not_lt.mpr (this.trans hp.1))
  · have := Nat.div_le_div_right (c := 4096) (UInt32.le_iff_toNat_le.mp hle)
    exact absurd hp.2 (Nat.not_lt.mpr (this.trans hq.1))

theorem Regions.tail {r : UInt32 × UInt32} {rs : List (UInt32 × UInt32)} (h : Regions (r :: rs)) :
    Regions rs where
  aligned x hx := h.aligned x (List.mem_cons_of_mem _ hx)
  nonempty x hx := h.nonempty x (List.mem_cons_of_mem _ hx)
  disjoint := (List.pairwise_cons.mp h.disjoint).2

/-- **Induction over the regions**: what every `addChunk` of a region outside the pages so far
keeps, a sequence of disjoint regions keeps. -/
theorem addRegions_induction {I : PFAllocator → Set Nat → Prop} :
    ∀ {rs : List (UInt32 × UInt32)} {a a' : PFAllocator} {P : Set Nat},
      (∀ r ∈ rs, ∀ a a' P, I a P → Disjoint (onePages r) P → a.addChunk r.1 r.2 = .ok a' →
        I a' (onePages r ∪ P)) →
      Regions rs → Disjoint (regionPages rs) P → I a P → addRegions a rs = .ok a' →
        I a' (regionPages rs ∪ P)
  | [], a, a', P, _, _, _, h, he => by
    obtain rfl : a = a' := Except.ok.inj he
    have hP : regionPages [] ∪ P = P := by simp [regionPages]
    rwa [hP]
  | r :: rs, a, a', P, hstep, hrs, hd, h, he => by
    rw [regionPages_cons, Set.disjoint_union_left] at hd
    obtain ⟨a₁, hadd, he'⟩ := Res.bind_eq_ok.mp he
    have h₁ := hstep r List.mem_cons_self a a₁ P h hd.1 hadd
    have hd' : Disjoint (regionPages rs) (onePages r ∪ P) :=
      Set.disjoint_union_right.mpr ⟨hrs.tail_disjoint, hd.2⟩
    have h' := addRegions_induction (fun x hx => hstep x (List.mem_cons_of_mem _ hx))
      hrs.tail hd' h₁ he'
    rwa [regionPages_cons, Set.union_comm (onePages r), Set.union_assoc]

/-- Registering disjoint regions on top of a free list that covers `P`. -/
theorem addRegions_inv {rs : List (UInt32 × UInt32)} (hrs : Regions rs)
    (hd : Disjoint (regionPages rs) P) (h : Inv (a, []) P L) {a' : PFAllocator}
    (he : addRegions a rs = .ok a') : ∃ L', Inv (a', []) (regionPages rs ∪ P) L' := by
  refine addRegions_induction (I := fun a P => ∃ L, Inv (a, []) P L) ?_ hrs hd ⟨L, h⟩ he
  rintro r hr a a' P ⟨L, h⟩ hd hadd
  obtain ⟨hb, he⟩ := hrs.aligned r hr
  obtain ⟨i, h'⟩ := h.addChunk hb he (hrs.nonempty r hr) hd hadd
  exact ⟨_, h'⟩

theorem inv_init (segs : SegPtr → Seg) : Inv (init segs, []) ∅ (fun _ => []) :=
  ⟨rep_init segs, by simp [all], by simpa [all] using Covers.nil, by simp⟩

/-- **Conservation along runs**: from a free list of disjoint regions, in every run whose
`freeChunk` calls free the last segment of the used list or one that does not end up unmerged at
the end of the free list, the state reached is conserved, and the next such call returns or
panics. -/
theorem pages_conserved {segs : SegPtr → Seg} {rs : List (UInt32 × UInt32)} {a₀ : PFAllocator}
    {ops : List Op} {st : State} (hrs : Regions rs) (h₀ : addRegions (init segs) rs = .ok a₀)
    (hr : Run step (fun s o => Legal s o ∧ FreeOk s o) (a₀, []) ops st) :
    Conserved st (regionPages rs) ∧
      ∀ o, Legal st o → FreeOk st o →
        (∃ st', step st o = .ok st') ∨ ∃ msg, step st o = .error (.panic msg) := by
  obtain ⟨L, h⟩ := addRegions_inv hrs (Set.disjoint_empty _) (inv_init segs) h₀
  rw [Set.union_empty] at h
  have hinv : ∃ L, Inv st (regionPages rs) L := by
    refine hr.invariant (I := fun s => ∃ L, Inv s (regionPages rs) L) ?_ ⟨L, h⟩
    rintro s o s' ⟨L, h⟩ ⟨hl, hok⟩ hs
    rcases h.step hl hok with ⟨msg, he⟩ | ⟨s'', L', he, h'⟩
    · rw [he] at hs
      exact absurd hs (by simp)
    · rw [he] at hs
      obtain rfl := Except.ok.inj hs
      exact ⟨L', h'⟩
  obtain ⟨L', h'⟩ := hinv
  refine ⟨h'.conserved, fun o hl hok => ?_⟩
  rcases h'.step hl hok with ⟨msg, he⟩ | ⟨s'', -, he, -⟩
  · exact Or.inr ⟨msg, he⟩
  · exact Or.inl ⟨s'', he⟩

/-- Three pages; two are allocated one by one and freed in the reverse order. -/
theorem pages_conserved_lifo :
    ∃ a₀ st, addRegions (init fun _ => ⟨true, 0, 0, none⟩) [(0x1000, 0x4000)] = .ok a₀ ∧
      Run step (fun s o => Legal s o ∧ FreeOk s o) (a₀, [])
        [.alloc 1, .alloc 1, .free 0x2000, .free 0x1000] st ∧
      Conserved st (regionPages [(0x1000, 0x4000)]) := by
  have hrs : Regions [(0x1000, 0x4000)] := ⟨by simp, by simp, by simp⟩
  obtain ⟨a₀, st, h₀, hr⟩ : ∃ a₀ st,
      addRegions (init fun _ => ⟨true, 0, 0, none⟩) [(0x1000, 0x4000)] = .ok a₀ ∧
      Run step (fun s o => Legal s o ∧ FreeOk s o) (a₀, [])
        [.alloc 1, .alloc 1, .free 0x2000, .free 0x1000] st := ⟨_, _, rfl, run_of_play rfl⟩
  exact ⟨a₀, st, h₀, hr, (pages_conserved hrs h₀ hr).1⟩

/-! ## The failing runs -/

/-- Some descriptor is met on the walks of both lists. -/
def sharesSeg (a : PFAllocator) : Bool :=
  (walk maxNumSeg a (.head .segFree)).any fun i => (walk maxNumSeg a (.head .segUsed)).contains i

theorem Conserved.not_sharesSeg {st : State} (h : Conserved st P) : sharesSeg st.1 = false := by
  obtain ⟨F, U, hF, hU, hd, -, -⟩ := h
  have hlen : ∀ l : List SegPtr, l.Nodup → l.length ≤ maxNumSeg := fun l hl => by
    simpa using List.Nodup.length_le_card hl
  unfold sharesSeg
  rw [walk_eq hF (hlen F hF.nodup), walk_eq hU (hlen U hU.nodup)]
  simp only [List.any_eq_false, List.contains_iff_mem]
  exact fun i hi hi' => hd hi hi'

/-- **The free list runs on into the used list.** Of three pages two are allocated; the first is
freed while the second is still in use. -/
theorem conservation_fails :
    ∃ a₀ st, Regions [(0x1000, 0x4000)] ∧
      addRegions (init fun _ => ⟨true, 0, 0, none⟩) [(0x1000, 0x4000)] = .ok a₀ ∧
      Run step Legal (a₀, []) [.alloc 1, .alloc 1, .free 0x1000] st ∧
      ∀ P, ¬ Conserved st P := by
  refine ⟨_, _, ⟨by simp, by simp, by simp⟩, rfl, run_of_play rfl, fun P h => ?_⟩
  exact absurd h.not_sharesSeg (by decide)

end OwnOS.PFAllocator
