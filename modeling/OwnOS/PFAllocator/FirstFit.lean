import OwnOS.PFAllocator.Conservation

/-!
# `allocChunk` is a first fit

`WellFormed a F U` is an allocator in order: the free list passes the descriptors `F` and the used
list `U`, they share none, exactly these are marked not free, and their page intervals are not empty
and pairwise disjoint.

* **`allocChunk_firstFit`**: with a descriptor to spare and a free segment of `n` blocks,
  `allocChunk(n)` takes the first `n` pages of the first such segment and nothing else.
* **`allocChunk_returns_iff`**: in every state that calls of `addChunk` and `allocChunk` lead to,
  whatever their arguments, `allocChunk(n)` returns exactly if a descriptor is free and a free
  segment has `n` blocks. The pool of 128 descriptors runs out before the memory does
  (`allocChunk_outOfSegs`).
-/

namespace OwnOS.PFAllocator

open Lib Lib.Word

/-- An allocator whose free list is `F` and whose used list is `U`. -/
structure WellFormed (a : PFAllocator) (F U : List SegPtr) : Prop where
  free : a.links.Path (.head .segFree) F none
  used : a.links.Path (.head .segUsed) U none
  apart : F.Disjoint U
  flag : ∀ i, (a.segs i).free = false ↔ i ∈ F ∨ i ∈ U
  chunk : ∀ i ∈ F ++ U, Chunk (a.segs i).begin (a.segs i).blocks
  disjoint : (F ++ U).Pairwise fun i j => Disjoint (a.segs i).pages (a.segs j).pages

/-- The pages of the descriptors `F`. -/
def pagesIn (a : PFAllocator) (F : List SegPtr) : Set Nat := {p | ∃ i ∈ F, p ∈ (a.segs i).pages}

variable {a a' : PFAllocator} {F U : List SegPtr} {L : Head → List Node}
  {N : List Node} {c n s : Node} {P : Set Nat} {i : SegPtr}

/-! ## Descriptors as nodes -/

/-- The nodes of the descriptors `F`. -/
def nodesAt (a : PFAllocator) (F : List SegPtr) : List Node := F.map a.nodeAt

theorem ids_nodesAt : ids (a.nodesAt F) = F := by
  unfold ids nodesAt
  rw [List.map_map]
  exact List.map_id F

theorem eq_ids_of_nodesAt {A B : List Node} (hF : a.nodesAt F = A ++ c :: B) :
    F = ids A ++ c.id :: ids B := by
  have : ids (a.nodesAt F) = ids (A ++ c :: B) := congrArg ids hF
  rwa [ids_nodesAt, ids_append, ids_cons] at this

/-- The nodes of the two lists. -/
def listsAt (a : PFAllocator) (F U : List SegPtr) : Head → List Node
  | .segFree => a.nodesAt F
  | .segUsed => a.nodesAt U

theorem WellFormed.rep (h : WellFormed a F U) : Rep a (a.listsAt F U) [] where
  path k := by
    cases k with
    | segFree =>
      show a.links.Path _ (ids (a.nodesAt F)) none
      rw [ids_nodesAt]
      exact h.free
    | segUsed =>
      show a.links.Path _ (ids (a.nodesAt U)) none
      rw [ids_nodesAt]
      exact h.used
  owns := by
    have hids : ids (all (a.listsAt F U) []) = F ++ U := by
      simp only [all, List.append_nil, ids_append]
      exact congrArg₂ (· ++ ·) ids_nodesAt ids_nodesAt
    refine ⟨?_, ?_, ?_⟩
    · rw [hids, List.nodup_append]
      exact ⟨h.free.nodup, h.used.nodup, fun x hx y hy hxy => h.apart hx (hxy ▸ hy)⟩
    · intro m hm
      simp only [all, List.append_nil, List.mem_append] at hm
      rcases hm with hm | hm
      · obtain ⟨j, -, rfl⟩ := List.mem_map.mp hm
        exact ⟨rfl, rfl⟩
      · obtain ⟨j, -, rfl⟩ := List.mem_map.mp hm
        exact ⟨rfl, rfl⟩
    · intro j
      rw [hids, List.mem_append]
      exact h.flag j

theorem Rep.pages_eq {D : List Node} (h : Rep a L D) (hn : n ∈ all L D) :
    (a.segs n.id).pages = n.pages := by
  obtain ⟨hb, hl⟩ := h.owns.view n hn
  rw [Seg.pages, Node.pages, hb, hl]

/-- Lists of chunks that cover a set are in order. -/
theorem Rep.wellFormed (h : Rep a L []) (hchunk : ∀ m ∈ all L [], Chunk m.begin m.blocks)
    (hcov : Covers Node.pages (all L []) P) :
    WellFormed a (ids (L .segFree)) (ids (L .segUsed)) where
  free := h.path .segFree
  used := h.path .segUsed
  apart _ hF hU := h.ids_disjoint (k := .segFree) (by decide) hF hU
  flag j := by
    rw [h.owns.flag j]
    simp only [all, List.append_nil, ids_append, List.mem_append]
  chunk j hj := by
    rw [← ids_append] at hj
    obtain ⟨m, hm, rfl⟩ := List.mem_map.mp hj
    have hm' : m ∈ all L [] := by simpa [all] using hm
    obtain ⟨hb, hl⟩ := h.owns.view m hm'
    rw [hb, hl]
    exact hchunk m hm'
  disjoint := by
    have hd := hcov.disjoint
    simp only [all, List.append_nil] at hd
    rw [← ids_append, ids, List.pairwise_map]
    refine hd.imp_of_mem ?_
    intro x y hx hy hxy
    rw [h.pages_eq (by simpa [all] using hx), h.pages_eq (by simpa [all] using hy)]
    exact hxy

theorem Rep.pagesIn_eq {D : List Node} (h : Rep a L D) (k : Head) :
    a.pagesIn (ids (L k)) = {p | ∃ m ∈ L k, p ∈ m.pages} := by
  have hmem : ∀ m ∈ L k, m ∈ all L D := fun m hm => mem_all.mpr (Or.inl ⟨k, hm⟩)
  ext p
  constructor
  · rintro ⟨j, hj, hp⟩
    obtain ⟨m, hm, rfl⟩ := List.mem_map.mp hj
    exact ⟨m, hm, by rwa [h.pages_eq (hmem m hm)] at hp⟩
  · rintro ⟨m, hm, hp⟩
    exact ⟨m.id, mem_ids_of_mem hm, by rwa [h.pages_eq (hmem m hm)]⟩

theorem mem_listsAt {k : Head} (hn : n ∈ a.listsAt F U k) : n = a.nodeAt n.id := by
  cases k with
  | segFree =>
    obtain ⟨j, -, rfl⟩ := List.mem_map.mp hn
    rfl
  | segUsed =>
    obtain ⟨j, -, rfl⟩ := List.mem_map.mp hn
    rfl

theorem WellFormed.chunk_node (h : WellFormed a F U) (hn : n ∈ all (a.listsAt F U) []) :
    Chunk n.begin n.blocks := by
  obtain ⟨k, hk⟩ := (mem_all.mp hn).resolve_right (by simp)
  have hid : n.id ∈ F ++ U := by
    rw [List.mem_append]
    cases k with
    | segFree => exact Or.inl (ids_nodesAt (a := a) (F := F) ▸ mem_ids_of_mem hk)
    | segUsed => exact Or.inr (ids_nodesAt (a := a) (F := U) ▸ mem_ids_of_mem hk)
  rw [mem_listsAt hk]
  exact h.chunk n.id hid

theorem WellFormed.covers (h : WellFormed a F U) :
    Covers Node.pages (all (a.listsAt F U) []) {p | ∃ m ∈ all (a.listsAt F U) [], p ∈ m.pages} where
  disjoint := by
    have hall : all (a.listsAt F U) [] = (F ++ U).map a.nodeAt := by
      rw [List.map_append]
      exact congrArg (_ ++ ·) (List.append_nil _)
    rw [hall, List.pairwise_map]
    exact h.disjoint
  union _ := Iff.rfl

/-! ## First fit -/

/-- The pages a free list keeps when `c` gives up its first `num` blocks. -/
theorem rest_pages {num : UInt32} (hc : Chunk c.begin c.blocks) (hle : num ≤ c.blocks)
    (hd : ∀ m ∈ N, Disjoint c.pages m.pages) (p : Nat) :
    (∃ m ∈ rest c num ++ N, p ∈ m.pages) ↔ (∃ m ∈ c :: N, p ∈ m.pages) ∧
      p ∉ Set.Ico (c.begin.toNat / 4096) (c.begin.toNat / 4096 + num.toNat) := by
  have hle' := UInt32.le_iff_toNat_le.mp hle
  have hout : ∀ m ∈ N, p ∈ m.pages →
      p ∉ Set.Ico (c.begin.toNat / 4096) (c.begin.toNat / 4096 + num.toNat) := by
    intro m hm hp hin
    refine Set.disjoint_left.mp (hd m hm) ?_ hp
    exact ⟨hin.1, lt_of_lt_of_le hin.2 (Nat.add_le_add_left hle' _)⟩
  have hrest : (∃ m ∈ rest c num, p ∈ m.pages) ↔
      p ∈ c.pages ∧ p ∉ Set.Ico (c.begin.toNat / 4096) (c.begin.toNat / 4096 + num.toNat) := by
    rcases rest_cases hc hle with ⟨he, heq⟩ | ⟨m, he, -, -, -, hpages⟩
    · rw [he]
      simp only [Node.pages, pagesOf, heq, List.not_mem_nil, false_and, exists_false, false_iff]
      exact fun hp => hp.2 hp.1
    · rw [he]
      simp only [List.mem_singleton, exists_eq_left]
      rw [hpages]
      simp only [Node.pages, pagesOf, Set.mem_Ico]
      omega
  simp only [List.mem_append, List.mem_cons, or_and_right, exists_or, exists_eq_left]
  rw [hrest]
  constructor
  · rintro (hp | ⟨m, hm, hp⟩)
    · exact Or.inl hp
    · exact Or.inr ⟨⟨m, hm, hp⟩, hout m hm hp⟩
  · rintro (hp | ⟨hp, -⟩)
    · exact Or.inl hp
    · exact Or.inr hp

theorem ids_rest {num : UInt32} : (ids (rest c num)).Sublist [c.id] := by
  unfold rest
  split
  · exact List.nil_sublist _
  · exact List.Sublist.refl _

/-- What `allocChunk(num)` does with the segment `c` and the new used segment `i`. -/
structure Takes (a a' : PFAllocator) (F U : List SegPtr) (num : UInt16) (c i : SegPtr)
    (F' U' : List SegPtr) : Prop where
  wellFormed : WellFormed a' F' U'
  freePages : a'.pagesIn F' = a.pagesIn F \
    Set.Ico ((a.segs c).begin.toNat / 4096) ((a.segs c).begin.toNat / 4096 + num.toNat)
  fresh : (a.segs i).free = true
  usedSegs : U'.Perm (i :: U)
  usedNew : (a'.segs i).begin = (a.segs c).begin ∧ (a'.segs i).blocks = num.toUInt32
  usedOld : ∀ j ∈ U, (a'.segs j).begin = (a.segs j).begin ∧ (a'.segs j).blocks = (a.segs j).blocks
  freeSegs : F'.Sublist F
  freeOld : ∀ j ∈ F, j ≠ c → j ∈ F' ∧ (a'.segs j).begin = (a.segs j).begin ∧
    (a'.segs j).blocks = (a.segs j).blocks

/-- The lists that `allocChunk` leaves are in order. -/
theorem WellFormed.taken {num : UInt32} {A B : List Node} (h : WellFormed a F U)
    (hF : a.nodesAt F = A ++ c :: B) (h0 : 0 < num.toNat) (hle : num ≤ c.blocks)
    (hrep : Rep a'
    (Function.update (Function.update (a.listsAt F U) .segFree (A ++ rest c num ++ B)) .segUsed
      (insertUsed ⟨i, c.begin, num⟩ (a.nodesAt U))) []) :
    WellFormed a' (ids (A ++ rest c num ++ B))
        (ids (insertUsed ⟨i, c.begin, num⟩ (a.nodesAt U))) := by
  have hall := all_perm_free (L := a.listsAt F U) hF
  have hall' := all_perm_taken (L := a.listsAt F U) A (rest c num) B ⟨i, c.begin, num⟩
  have hc : Chunk c.begin c.blocks := h.chunk_node (hall.mem_iff.mpr List.mem_cons_self)
  obtain ⟨hok, hcov⟩ := rest_covers hc h0 hle i (h.covers.perm hall)
  refine hrep.wellFormed (fun m hm => ?_) (hcov.perm hall'.symm)
  have hm' := hall'.mem_iff.mp hm
  rw [← List.cons_append, List.mem_append] at hm'
  rcases hm' with hm' | hm'
  · exact (hok m hm').1
  · exact h.chunk_node (hall.mem_iff.mpr (List.mem_cons_of_mem _ hm'))

theorem WellFormed.takes {num : UInt16} {A B : List Node} (h : WellFormed a F U)
    (hF : a.nodesAt F = A ++ c :: B) (h1 : 1 ≤ num) (hle : num.toUInt32 ≤ c.blocks)
    (hi : (a.segs i).free = true)
    (hrep : Rep a' (Function.update (Function.update (a.listsAt F U) .segFree
      (A ++ rest c num.toUInt32 ++ B)) .segUsed
        (insertUsed ⟨i, c.begin, num.toUInt32⟩ (a.nodesAt U))) []) :
    Takes a a' F U num c.id i (ids (A ++ rest c num.toUInt32 ++ B))
      (ids (insertUsed ⟨i, c.begin, num.toUInt32⟩ (a.nodesAt U))) := by
  have h0 : 0 < num.toUInt32.toNat := by
    rw [UInt16.toNat_toUInt32]
    exact UInt16.le_iff_toNat_le.mp h1
  have hids := eq_ids_of_nodesAt hF
  have hc : c = a.nodeAt c.id := mem_listsAt (F := F) (U := U) (k := .segFree) (by
    show c ∈ a.nodesAt F
    rw [hF]
    simp)
  have hbegin : (a.segs c.id).begin = c.begin := congrArg Node.begin hc.symm
  have hU : Function.update (Function.update (a.listsAt F U) .segFree
      (A ++ rest c num.toUInt32 ++ B)) .segUsed
        (insertUsed ⟨i, c.begin, num.toUInt32⟩ (a.nodesAt U)) .segUsed =
      insertUsed ⟨i, c.begin, num.toUInt32⟩ (a.nodesAt U) := Function.update_self _ _ _
  have hfree : Function.update (Function.update (a.listsAt F U) .segFree
      (A ++ rest c num.toUInt32 ++ B)) .segUsed
        (insertUsed ⟨i, c.begin, num.toUInt32⟩ (a.nodesAt U)) .segFree =
      A ++ rest c num.toUInt32 ++ B := by
    rw [Function.update_of_ne (by decide), Function.update_self]
  have hmemU : ∀ m, m ∈ insertUsed ⟨i, c.begin, num.toUInt32⟩ (a.nodesAt U) ↔
      m = ⟨i, c.begin, num.toUInt32⟩ ∨ m ∈ a.nodesAt U := by
    intro m
    rw [(insertUsed_perm _ _).mem_iff, List.mem_cons]
  refine ⟨h.taken hF h0 hle hrep, ?_, hi, ?_, ?_, ?_, ?_, ?_⟩
  · have hall := all_perm_free (L := a.listsAt F U) hF
    have hd := (List.pairwise_cons.mp (h.covers.perm hall).disjoint).1
    have hpages := hrep.pagesIn_eq .segFree
    have hpages₀ := h.rep.pagesIn_eq .segFree
    rw [hfree] at hpages
    rw [show a.listsAt F U .segFree = A ++ c :: B from hF, ids_append, ids_cons, ← hids] at hpages₀
    rw [hpages, hpages₀, hbegin, ← UInt16.toNat_toUInt32]
    ext p
    have hsplit := rest_pages (N := A ++ B) (h.chunk_node (hall.mem_iff.mpr List.mem_cons_self)) hle
      (fun m hm => hd m (List.mem_append_left _ hm)) p
    have hperm : (A ++ rest c num.toUInt32 ++ B).Perm (rest c num.toUInt32 ++ (A ++ B)) := by
      rw [List.append_assoc]
      exact List.perm_append_comm_assoc _ _ _
    have hleft : (∃ m ∈ A ++ rest c num.toUInt32 ++ B, p ∈ m.pages) ↔
        ∃ m ∈ rest c num.toUInt32 ++ (A ++ B), p ∈ m.pages :=
      exists_congr fun m => and_congr_left fun _ => hperm.mem_iff
    have hright : (∃ m ∈ A ++ c :: B, p ∈ m.pages) ↔ ∃ m ∈ c :: (A ++ B), p ∈ m.pages :=
      exists_congr fun m => and_congr_left fun _ => List.perm_middle.mem_iff
    exact hleft.trans (hsplit.trans (and_congr_left fun _ => hright.symm))
  · have hperm := (insertUsed_perm ⟨i, c.begin, num.toUInt32⟩ (a.nodesAt U)).map Node.id
    have hU' : (a.nodesAt U).map Node.id = U := ids_nodesAt
    rw [List.map_cons, hU'] at hperm
    exact hperm
  · rw [hbegin]
    exact hrep.owns_of_mem (k := .segUsed) (hU ▸ (hmemU _).mpr (Or.inl rfl))
  · intro j hj
    exact hrep.owns_of_mem (n := a.nodeAt j) (k := .segUsed)
      (hU ▸ (hmemU _).mpr (Or.inr (List.mem_map_of_mem hj)))
  · rw [hids, ids_append, ids_append, List.append_assoc]
    exact List.Sublist.append_left (List.Sublist.append_right ids_rest _) _
  · intro j hj hne
    have hj' : a.nodeAt j ∈ A ++ c :: B := by
      rw [← hF]
      exact List.mem_map_of_mem hj
    have hmem : a.nodeAt j ∈ A ++ rest c num.toUInt32 ++ B := by
      simp only [List.mem_append, List.mem_cons] at hj' ⊢
      rcases hj' with hj' | hj' | hj'
      · exact Or.inl (Or.inl hj')
      · exact absurd (congrArg Node.id hj') hne
      · exact Or.inr hj'
    exact ⟨mem_ids_of_mem hmem, hrep.owns_of_mem (n := a.nodeAt j) (k := .segFree) (hfree ▸ hmem)⟩

/-- **`allocChunk` is an exact first fit.** -/
theorem allocChunk_firstFit {num : UInt16} (h : WellFormed a F U)
    (hspare : ∃ i, (a.segs i).free = true) (h1 : 1 ≤ num)
    (hfit : ∃ j ∈ F, num.toUInt32 ≤ (a.segs j).blocks) :
    ∃ c a' i F' U', (F.find? fun j => num.toUInt32 ≤ (a.segs j).blocks) = some c ∧
      a.allocChunk num = .ok (a', (a.segs c).begin) ∧ Takes a a' F U num c i F' U' := by
  rcases allocChunk_cases h.rep num with ⟨hnone, -⟩ | ⟨hsmall, -⟩ |
      ⟨A, c, B, i, a', hi, hF, hA, hle, he, hrep⟩
  · obtain ⟨i, hi⟩ := hspare
    exact absurd (hi.symm.trans (hnone i)) (by simp)
  · obtain ⟨j, hj, hle⟩ := hfit
    exact absurd (hsmall (a.nodeAt j) (List.mem_map_of_mem hj)) (UInt32.not_lt.mpr hle)
  · have hnode : ∀ m ∈ A ++ c :: B, m = a.nodeAt m.id := by
      intro m hm
      rw [← hF] at hm
      exact mem_listsAt hm
    have hc := hnode c (by simp)
    refine ⟨c.id, a', i, _, _, ?_, ?_, h.takes hF h1 hle hi hrep⟩
    · rw [List.find?_eq_some_iff_append]
      refine ⟨?_, ids A, ids B, eq_ids_of_nodesAt hF, ?_⟩
      · rw [hc] at hle
        exact decide_eq_true hle
      · intro j hj
        obtain ⟨m, hm, rfl⟩ := List.mem_map.mp hj
        have hlt := hA m hm
        rw [hnode m (by simp [hm])] at hlt
        rw [Bool.not_eq_true', decide_eq_false_iff_not]
        exact UInt32.not_le.mpr hlt
    · rw [he]
      exact congrArg (fun b => Except.ok (a', b)) (congrArg Node.begin hc)

/-- The states that conserve the pages are in order. -/
theorem Inv.wellFormed {st : State} (h : Inv st P L) :
    WellFormed st.1 (ids (L .segFree)) (ids (L .segUsed)) :=
  h.rep.wellFormed (fun m hm => (h.ok m hm).chunk) h.covers

/-- Three pages, of which two are asked for. -/
theorem allocChunk_firstFit_two : ∃ a F U,
    addRegions (init fun _ => ⟨true, 0, 0, none⟩) [(0x1000, 0x4000)] = .ok a ∧ WellFormed a F U ∧
      ∃ c a' i F' U', a.allocChunk 2 = .ok (a', 0x1000) ∧ Takes a a' F U 2 c i F' U' := by
  obtain ⟨a, j, k, ha, hnodes, hspare⟩ : ∃ a j k,
      addRegions (init fun _ => ⟨true, 0, 0, none⟩) [(0x1000, 0x4000)] = .ok a ∧
      a.nodes .segFree = [⟨j, 0x1000, 3⟩] ∧ (a.segs k).free = true :=
    ⟨_, ⟨0, by decide⟩, ⟨1, by decide⟩, rfl, rfl, rfl⟩
  obtain ⟨L, h⟩ := addRegions_inv ⟨by simp, by simp, by simp⟩ (Set.disjoint_empty _) (inv_init _) ha
  have hF : L .segFree = [⟨j, 0x1000, 3⟩] := (h.rep.nodes_eq .segFree).symm.trans hnodes
  obtain ⟨hbegin, hblocks⟩ := h.rep.owns_of_mem (n := ⟨j, 0x1000, 3⟩) (k := .segFree) (by simp [hF])
  obtain ⟨c, a', i, F', U', hfind, he, htakes⟩ := allocChunk_firstFit h.wellFormed
    ⟨k, hspare⟩ (show (1 : UInt16) ≤ 2 by decide)
      ⟨j, by simp [hF], by rw [hblocks]; simp only; decide⟩
  have hc : c = j := by
    have := List.mem_of_find?_eq_some hfind
    simpa [hF] using this
  subst hc
  rw [hbegin] at he
  exact ⟨a, _, _, ha, h.wellFormed, c, a', i, F', U', he, htakes⟩

/-! ## When `allocChunk` returns -/

/-- The calls that fill and empty the free list. -/
inductive Call where
  | add (begin end_ : UInt32)
  | alloc (num : UInt16)
  deriving DecidableEq

/-- One call. -/
def call (a : PFAllocator) : Call → Res PFAllocator
  | .add begin end_ => a.addChunk begin end_
  | .alloc num => do
    let (a, _) ← a.allocChunk num
    .ok a

theorem call_rep {o : Call} (h : ∃ L, Rep a L []) (hs : call a o = .ok a') : ∃ L, Rep a' L [] := by
  obtain ⟨L, h⟩ := h
  cases o with
  | add begin end_ =>
    rcases addChunk_spec h begin end_ with ⟨msg, he⟩ | ⟨i, a₁, he, h'⟩
    · exact absurd (he.symm.trans hs) (by simp)
    · obtain rfl := Except.ok.inj (he.symm.trans hs)
      exact ⟨_, h'⟩
  | alloc num =>
    obtain ⟨⟨a₁, r⟩, hr, ha⟩ := Res.bind_eq_ok.mp hs
    obtain rfl := Except.ok.inj ha
    rcases allocChunk_spec h num with ⟨msg, he⟩ | ⟨A, c, B, i, a₂, -, -, -, he, h'⟩
    · exact absurd (he.symm.trans hr) (by simp)
    · obtain ⟨rfl, -⟩ := Prod.mk.inj (Except.ok.inj (he.symm.trans hr))
      exact ⟨_, h'⟩

/-- Both lists of a reachable state end. -/
theorem run_rep {segs : SegPtr → Seg} {os : List Call}
    (hr : Run call (fun _ _ => True) (init segs) os a) : ∃ L, Rep a L [] :=
  hr.invariant (I := fun a => ∃ L, Rep a L []) (fun _ _ _ h _ hs => call_rep h hs)
    ⟨_, rep_init segs⟩

/-- Some segment of the free list has `num` blocks. -/
def HasRoom (a : PFAllocator) (num : UInt16) : Prop :=
  ∃ F, a.links.Path (.head .segFree) F none ∧ ∃ j ∈ F, num.toUInt32 ≤ (a.segs j).blocks

theorem Rep.hasRoom_iff {num : UInt16} (h : Rep a L []) :
    HasRoom a num ↔ ∃ m ∈ L .segFree, num.toUInt32 ≤ m.blocks := by
  constructor
  · rintro ⟨F, hF, j, hj, hle⟩
    obtain rfl := hF.unique (h.path .segFree)
    obtain ⟨m, hm, rfl⟩ := List.mem_map.mp hj
    exact ⟨m, hm, by rwa [(h.owns_of_mem hm).2] at hle⟩
  · rintro ⟨m, hm, hle⟩
    exact ⟨_, h.path .segFree, m.id, mem_ids_of_mem hm, by rwa [(h.owns_of_mem hm).2]⟩

/-- **`allocChunk` returns** exactly if a descriptor is free and a segment has the blocks; it panics
otherwise. -/
theorem allocChunk_returns_iff {segs : SegPtr → Seg} {os : List Call} (num : UInt16)
    (hr : Run call (fun _ _ => True) (init segs) os a) :
    ((∃ r, a.allocChunk num = .ok r) ↔ (∃ i, (a.segs i).free = true) ∧ HasRoom a num) ∧
      ((∃ r, a.allocChunk num = .ok r) ∨ ∃ msg, a.allocChunk num = .error (.panic msg)) := by
  obtain ⟨L, h⟩ := run_rep hr
  rw [h.hasRoom_iff]
  rcases allocChunk_cases h num with ⟨hnone, he⟩ | ⟨hsmall, he⟩ |
      ⟨A, c, B, i, a', hi, hF, -, hle, he, -⟩
  · refine ⟨⟨fun ⟨r, hok⟩ => absurd (he.symm.trans hok) (by simp), ?_⟩, Or.inr ⟨_, he⟩⟩
    rintro ⟨⟨i, hi⟩, -⟩
    exact absurd (hi.symm.trans (hnone i)) (by simp)
  · refine ⟨⟨fun ⟨r, hok⟩ => absurd (he.symm.trans hok) (by simp), ?_⟩, Or.inr ⟨_, he⟩⟩
    rintro ⟨-, m, hm, hle⟩
    exact absurd (hsmall m hm) (UInt32.not_lt.mpr hle)
  · refine ⟨⟨fun _ => ⟨⟨i, hi⟩, c, ?_, hle⟩, fun _ => ⟨_, he⟩⟩, Or.inl ⟨_, he⟩⟩
    rw [hF]
    simp

/-! ## Running out of descriptors -/

/-- A region of 512 pages, of which `k` are allocated one by one. -/
def ones (k : Nat) : List Call := .add 0x1000 0x201000 :: List.replicate k (.alloc 1)

/-- One segment is free, the `n` frames from `s` on, and `k` segments are used. -/
structure OneFree (a : PFAllocator) (s n k : Nat) (L : Head → List Node) : Prop where
  rep : Rep a L []
  free : ∃ m, L .segFree = [m] ∧ m.begin.toNat = s * 4096 ∧ m.blocks.toNat = n
  used : (L .segUsed).length = k
  bound : s + n < 0x100000

/-- A descriptor is free. -/
theorem OneFree.spare {s n k : Nat} (h : OneFree a s n k L) (hk : k < 127) :
    ∃ i, (a.segs i).free = true := by
  obtain ⟨m, hm, -⟩ := h.free
  refine h.rep.owns.exists_free ?_
  simp only [all, hm, List.length_append, List.length_cons, List.length_nil, h.used, maxNumSeg]
  omega

/-- **A chunk is cut off** the free segment. -/
theorem OneFree.alloc {s n k : Nat} (h : OneFree a s n k L) (num : UInt16) (hk : k < 127)
    (hnum : num.toNat < n) : ∃ a' addr L', a.allocChunk num = .ok (a', addr) ∧
      addr.toNat = s * 4096 ∧ OneFree a' (s + num.toNat) (n - num.toNat) (k + 1) L' := by
  obtain ⟨m, hm, hbegin, hblocks⟩ := h.free
  have hbound := h.bound
  have hto : num.toUInt32.toNat = num.toNat := rfl
  rcases allocChunk_cases h.rep num with ⟨hnone, -⟩ | ⟨hsmall, -⟩ |
    ⟨A, c, B, i, a', -, hF, -, -, he, hrep⟩
  · obtain ⟨i, hi⟩ := h.spare hk
    exact absurd (hi.symm.trans (hnone i)) (by simp)
  · have := UInt32.lt_iff_toNat_lt.mp (hsmall m (by simp [hm]))
    omega
  · rw [hm] at hF
    obtain ⟨rfl, rfl, rfl⟩ : A = [] ∧ c = m ∧ B = [] := by
      cases A with
      | nil => simpa [eq_comm] using hF
      | cons x A => simp at hF
    have hsub : (c.blocks - num.toUInt32).toNat = n - num.toNat := by
      rw [toNat_sub_of_le (by omega), hblocks, hto]
    have hz : c.blocks - num.toUInt32 ≠ 0 := by
      intro hz
      rw [hz] at hsub
      have : (0 : UInt32).toNat = 0 := rfl
      omega
    have hmul : (num.toUInt32 * chunkSize).toNat = num.toNat * 4096 := by
      rw [toNat_mul_of_lt (by rw [hto, chunkSize_toNat]; omega), hto, chunkSize_toNat]
    have hadd : (c.begin + num.toUInt32 * chunkSize).toNat = (s + num.toNat) * 4096 := by
      rw [toNat_add_of_lt (by rw [hmul]; omega), hmul, hbegin]
      omega
    refine ⟨a', _, _, he, hbegin, hrep, ⟨⟨c.id, c.begin + num.toUInt32 * chunkSize,
      c.blocks - num.toUInt32⟩, ?_, hadd, hsub⟩, ?_, by omega⟩
    · rw [Function.update_of_ne (by decide), Function.update_self, rest, if_neg hz]
      rfl
    · rw [Function.update_self, (insertUsed_perm _ _).length_eq, List.length_cons, h.used]

theorem run_ones (k : Nat) (hk : k ≤ 127) :
    ∃ a L, Run call (fun _ _ => True) (init fun _ => ⟨true, 0, 0, none⟩) (ones k) a ∧
      OneFree a (1 + k) (512 - k) k L := by
  induction k with
  | zero =>
    obtain ⟨a, ha⟩ : ∃ a, (init fun _ => ⟨true, 0, 0, none⟩).addChunk 0x1000 0x201000 =
      .ok a := ⟨_, rfl⟩
    refine ⟨a, ?_⟩
    rcases addChunk_spec (rep_init fun _ => ⟨true, 0, 0, none⟩) 0x1000 0x201000 with
      ⟨msg, he⟩ | ⟨i, a₁, he, hrep⟩
    · exact absurd (he.symm.trans ha) (by simp)
    · obtain rfl := Except.ok.inj (he.symm.trans ha)
      refine ⟨_, Run.cons trivial ha (Run.nil _), hrep,
        ⟨rounded i 0x1000 0x201000, ?_, ?_, ?_⟩, rfl,
        by omega⟩
      · rw [Function.update_self]
        rfl
      · rfl
      · rfl
  | succ k ih =>
    obtain ⟨a, L, hr, h⟩ := ih (by omega)
    have hone : (1 : UInt16).toNat = 1 := rfl
    obtain ⟨a', addr, L', hs, -, h'⟩ := h.alloc 1 (by omega) (by omega)
    have hcall : call a (.alloc 1) = .ok a' := by
      unfold call
      simp only [hs, Res.ok_bind]
    refine ⟨a', L', ?_, h'⟩
    have hones : ones (k + 1) = ones k ++ [.alloc 1] := by
      rw [ones, ones, List.replicate_succ', List.cons_append]
    rw [hones]
    exact hr.append (Run.cons trivial hcall (Run.nil _))

/-- A segment with a block is free. -/
theorem OneFree.hasRoom {s n k : Nat} (h : OneFree a s n k L) (hn : 0 < n) : HasRoom a 1 := by
  obtain ⟨m, hm, -, hblocks⟩ := h.free
  refine h.rep.hasRoom_iff.mpr ⟨m, by simp [hm], ?_⟩
  rw [UInt32.le_iff_toNat_le, hblocks]
  exact hn

/-- With three allocations behind it, a fourth returns. -/
theorem allocChunk_returns_fourth : ∃ a,
    Run call (fun _ _ => True) (init fun _ => ⟨true, 0, 0, none⟩) (ones 3) a ∧
      ∃ r, a.allocChunk 1 = .ok r := by
  obtain ⟨a, L, hr, h⟩ := run_ones 3 (by decide)
  exact ⟨a, hr, (allocChunk_returns_iff 1 hr).1.mpr ⟨h.spare (by decide), h.hasRoom (by decide)⟩⟩

/-- With 127 segments in use no descriptor is left for another. -/
theorem OneFree.full {s n : Nat} (h : OneFree a s n 127 L) (num : UInt16) :
    ∃ e, a.allocChunk num = .error e := by
  obtain ⟨m, hm, -⟩ := h.free
  have hfull : (all L []).length = maxNumSeg := by
    simp only [all, hm, List.length_append, List.length_cons, List.length_nil, h.used, maxNumSeg]
  rcases allocChunk_cases h.rep num with ⟨-, he⟩ | ⟨-, he⟩ | ⟨A, c, B, i, a', hi, -⟩
  · exact ⟨_, he⟩
  · exact ⟨_, he⟩
  · exact absurd (hi.symm.trans (h.rep.owns.none_free hfull i)) (by simp)

/-- **Out of descriptors**: after 127 allocations of one page, 385 pages are free and the next
allocation panics. -/
theorem allocChunk_outOfSegs : ∃ a,
    Run call (fun _ _ => True) (init fun _ => ⟨true, 0, 0, none⟩) (ones 127) a ∧ HasRoom a 1 ∧
      ¬∃ r, a.allocChunk 1 = .ok r := by
  obtain ⟨a, L, hr, h⟩ := run_ones 127 (le_refl _)
  refine ⟨a, hr, h.hasRoom (by decide), ?_⟩
  obtain ⟨e, he⟩ := h.full 1
  rintro ⟨r, hok⟩
  exact absurd (he.symm.trans hok) (by simp)

end OwnOS.PFAllocator
