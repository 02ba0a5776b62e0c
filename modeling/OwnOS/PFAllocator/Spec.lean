import OwnOS.PFAllocator.Lists

/-!
# What the allocator's routines do to the lists

One specification for each routine of `PFAllocator.cpp`, from a state that represents two lists:
the routine returns, and the state it leaves represents the lists the pure functions of this file
compute.

* `insertFree`: where `addChunk(Seg *)` puts a segment, with the three ways it coalesces.
* `joinsTail`: the segment ends up unmerged at the end of the free list. On that branch the code
  stores the address of the segment (`PFAllocator.cpp:39`, `:79`) and leaves its `np` as it was, so
  `addChunkSeg_spec` asks for a segment whose `np` is NULL there.
* `insertUsed`: where `usedChunk` puts a segment.
* `take`: the first segment with enough blocks, as `allocChunk` finds it.
-/

namespace OwnOS.PFAllocator

open Lib

/-! ## `addChunk(Seg *)` -/

/-- The free list after `addChunk(seg)`. -/
def insertFree (s : Node) : List Node → List Node
  | [] => [s]
  | [c] => if c.fin = s.begin then [{ c with blocks := c.blocks + s.blocks }] else [c, s]
  | c :: n :: l =>
    if c.begin < s.begin ∧ s.begin < n.begin then
      if c.fin = s.begin then
        let c' : Node := { c with blocks := c.blocks + s.blocks }
        if c'.fin = n.begin then { c' with blocks := c'.blocks + n.blocks } :: l else c' :: n :: l
      else if s.fin = n.begin then
        c :: { n with begin := s.begin, blocks := n.blocks + s.blocks } :: l
      else c :: s :: n :: l
    else c :: insertFree s (n :: l)

/-- `addChunk(seg)` reaches the end of the free list and stores `seg` there without coalescing. -/
def joinsTail (s : Node) : List Node → Bool
  | [] => true
  | [c] => c.fin ≠ s.begin
  | c :: n :: l => if c.begin < s.begin ∧ s.begin < n.begin then false else joinsTail s (n :: l)

variable {a a' : PFAllocator} {D F₁ F₂ : List Node} {L : Head → List Node} {k : Head}
  {c n s : Node} {fuel : Nat}

theorem Rep.fin_eq (h : Rep a L D) (hn : n ∈ L k) : (a.segs n.id).fin = n.fin := by
  obtain ⟨hb, hl⟩ := h.owns_of_mem hn
  rw [Seg.fin, Node.fin, hb, hl]

theorem Rep.detached_view (h : Rep a L (s :: D)) :
    (a.segs s.id).begin = s.begin ∧ (a.segs s.id).blocks = s.blocks :=
  h.owns.view s (mem_all.mpr (Or.inr List.mem_cons_self))

theorem Rep.detached_fin (h : Rep a L (s :: D)) : (a.segs s.id).fin = s.fin := by
  rw [Seg.fin, Node.fin, h.detached_view.1, h.detached_view.2]

/-- The walk one node further: the location is that node's `np` field. -/
theorem after_snoc (F : List Node) (c : Node) :
    (Loc.head k : SegLoc).after (ids (F ++ [c])) = .next c.id := by
  rw [ids_append, Loc.after_append]
  rfl

theorem Rep.deref_next (h : Rep a L D) (hL : L k = F₁ ++ c :: F₂) :
    a.deref (.next c.id) = (ids F₂).head? := by
  rw [← after_snoc (k := k) F₁ c]
  exact h.deref_after (by rw [hL, List.append_assoc]; rfl)

/-- Coalescing with the segment before: `(*cseg)->blocks += seg->blocks; freeSeg(seg)`. -/
theorem Rep.mergePrev (h : Rep a L (s :: D)) (hL : L k = F₁ ++ c :: F₂) :
    Rep ((a.modify c.id fun x => { x with blocks := x.blocks + (a.segs s.id).blocks }).freeSeg s.id)
      (Function.update L k (F₁ ++ { c with blocks := c.blocks + s.blocks } :: F₂)) D := by
  have hc : c ∈ L k := by rw [hL]; simp
  obtain ⟨hb, hl⟩ := h.owns_of_mem hc
  exact (h.modify (n := { c with blocks := c.blocks + s.blocks }) hL rfl hb
    (by simp [hl, h.detached_view.2]) rfl rfl).freeSeg

/-- Coalescing two listed neighbours: `(*cseg)->blocks += (*nseg)->blocks`, and `*nseg` is freed. -/
theorem Rep.mergeNext (h : Rep a L D) (hL : L k = F₁ ++ c :: n :: F₂) :
    Rep (((a.modify c.id fun x => { x with blocks := x.blocks + (a.segs n.id).blocks }).freeSeg
        n.id).assign (.next c.id)
          (((a.modify c.id fun x => { x with blocks := x.blocks + (a.segs n.id).blocks }).freeSeg
            n.id).segs n.id).np)
      (Function.update L k (F₁ ++ { c with blocks := c.blocks + n.blocks } :: F₂)) D := by
  have hc : c ∈ L k := by rw [hL]; simp
  have hn : n ∈ L k := by rw [hL]; simp
  obtain ⟨hcb, hcl⟩ := h.owns_of_mem hc
  obtain ⟨-, hnl⟩ := h.owns_of_mem hn
  have h' := h.modify (n := { c with blocks := c.blocks + n.blocks })
    (f := fun x => { x with blocks := x.blocks + (a.segs n.id).blocks }) hL rfl hcb
    (by simp only; rw [hcl, hnl]) rfl rfl
  have hL' : Function.update L k (F₁ ++ { c with blocks := c.blocks + n.blocks } :: n :: F₂) k =
      F₁ ++ [{ c with blocks := c.blocks + n.blocks }] ++ n :: F₂ := by
    rw [Function.update_self, List.append_assoc]; rfl
  have := h'.drop hL'
  rw [Function.update_idem, after_snoc, List.append_assoc] at this
  exact this

/-- Coalescing with the segment behind, which grows downwards:
`(*nseg)->blocks += seg->blocks; (*nseg)->begin = seg->begin; freeSeg(seg)`. -/
theorem Rep.growDown (h : Rep a L (s :: D)) (hL : L k = F₁ ++ c :: n :: F₂) :
    Rep (((a.modify n.id fun x => { x with blocks := x.blocks + (a.segs s.id).blocks }).modify n.id
        fun x => { x with begin := ((a.modify n.id fun x =>
          { x with blocks := x.blocks + (a.segs s.id).blocks }).segs s.id).begin }).freeSeg s.id)
      (Function.update L k
        (F₁ ++ c :: { n with begin := s.begin, blocks := n.blocks + s.blocks } :: F₂)) D := by
  have hn : n ∈ L k := by rw [hL]; simp
  obtain ⟨hnb, hnl⟩ := h.owns_of_mem hn
  have hL' : L k = (F₁ ++ [c]) ++ n :: F₂ := by rw [hL, List.append_assoc]; rfl
  have h2 := h.modify (n := { n with blocks := n.blocks + s.blocks })
    (f := fun x => { x with blocks := x.blocks + (a.segs s.id).blocks }) hL' rfl hnb
    (by simp only; rw [hnl, h.detached_view.2]) rfl rfl
  have hL2 := Function.update_self (β := fun _ => List Node) k
    (F₁ ++ [c] ++ { n with blocks := n.blocks + s.blocks } :: F₂) L
  obtain ⟨-, hn2l⟩ := h2.owns_of_mem (n := { n with blocks := n.blocks + s.blocks }) (k := k)
    (by rw [hL2]; simp)
  have h3 := h2.modify (n := { n with begin := s.begin, blocks := n.blocks + s.blocks })
    (f := fun x => { x with begin := s.begin }) hL2 rfl rfl hn2l rfl rfl
  rw [Function.update_idem, List.append_assoc] at h3
  rw [h2.detached_view.1]
  exact h3.freeSeg

/-- Storing `seg` between two neighbours:
`seg->np = *nseg; (*cseg)->np = seg`. -/
theorem Rep.linkBetween (h : Rep a L (s :: D)) (hL : L k = F₁ ++ c :: n :: F₂) :
    Rep ((a.assign (.next s.id) (some n.id)).assign (.next c.id) (some s.id))
      (Function.update L k (F₁ ++ c :: s :: n :: F₂)) D := by
  have hL' : L k = (F₁ ++ [c]) ++ n :: F₂ := by rw [hL, List.append_assoc]; rfl
  have h' := h.assign_detached (p := some n.id)
  have hnp : ((a.assign (.next s.id) (some n.id)).segs s.id).np =
      (a.assign (.next s.id) (some n.id)).deref ((Loc.head k).after (ids (F₁ ++ [c]))) := by
    rw [h'.deref_after hL', assign_segs, if_pos rfl]
    rfl
  have := h'.link hL' hnp
  rw [after_snoc, List.append_assoc] at this
  exact this

/-- Storing `seg` after the last segment, where its own `np` is NULL. -/
theorem Rep.linkLast (h : Rep a L (s :: D)) (hL : L k = F₁ ++ [c]) (hnp : (a.segs s.id).np = none) :
    Rep (a.assign (.next c.id) (some s.id)) (Function.update L k (F₁ ++ [c, s])) D := by
  have hL' : L k = (F₁ ++ [c]) ++ [] := by rw [hL, List.append_nil]
  have := h.link hL' (hnp.trans (h.deref_after hL').symm)
  rw [after_snoc, List.append_assoc] at this
  exact this

theorem addChunkLoop_spec (h : Rep a L (s :: D)) (hL : L .segFree = F₁ ++ F₂)
    (hne : F₂ = [] → F₁ = []) (hnp : (a.segs s.id).np = none ∨ joinsTail s F₂ = false)
    (hfuel : F₂.length < fuel) :
    ∃ a', addChunkLoop fuel a s.id ((Loc.head .segFree).after (ids F₁)) = .ok a' ∧
      Rep a' (Function.update L .segFree (F₁ ++ insertFree s F₂)) D := by
  obtain ⟨hsb, hsl⟩ := h.detached_view
  induction F₂ generalizing F₁ fuel with
  | nil =>
    obtain ⟨fuel, rfl⟩ : ∃ m, fuel = m + 1 := ⟨fuel - 1, by omega⟩
    have hd := h.deref_after hL
    simp only [ids_nil, List.head?_nil] at hd
    have hnp : (a.segs s.id).np = none := by simpa [joinsTail] using hnp
    refine ⟨_, by simp only [addChunkLoop, hd]; rfl, ?_⟩
    exact h.link hL (hnp.trans hd.symm)
  | cons c F₂ ih =>
    obtain ⟨fuel, rfl⟩ : ∃ m, fuel = m + 1 := ⟨fuel - 1, by omega⟩
    have hd := h.deref_after hL
    simp only [ids_cons, List.head?_cons] at hd
    have hdn := h.deref_next hL
    have hc : c ∈ L .segFree := by rw [hL]; simp
    have hcf := h.fin_eq hc
    obtain ⟨hcb, hcl⟩ := h.owns_of_mem hc
    cases F₂ with
    | nil =>
      simp only [ids_nil, List.head?_nil] at hdn
      simp only [addChunkLoop, hd, hdn, hcf, hsb, insertFree]
      by_cases hm : c.fin = s.begin
      · rw [if_pos hm, if_pos hm]
        exact ⟨_, rfl, h.mergePrev hL⟩
      · rw [if_neg hm, if_neg hm]
        have hnp : (a.segs s.id).np = none := by simpa [joinsTail, hm] using hnp
        exact ⟨_, rfl, h.linkLast hL hnp⟩
    | cons n F₂ =>
      simp only [ids_cons, List.head?_cons] at hdn
      have hn : n ∈ L .segFree := by rw [hL]; simp
      obtain ⟨hnb, hnl⟩ := h.owns_of_mem hn
      simp only [addChunkLoop, hd, hdn, hcf, hcb, hsb, hnb, h.detached_fin]
      by_cases hb : c.begin < s.begin ∧ s.begin < n.begin
      · simp only [insertFree, if_pos hb]
        by_cases hm : c.fin = s.begin
        · -- merged into `c`; then `n` may join as well
          rw [if_pos hm, if_pos hm]
          have h2 := h.mergePrev hL
          have hL2 := Function.update_self (β := fun _ => List Node) Head.segFree
            (F₁ ++ { c with blocks := c.blocks + s.blocks } :: n :: F₂) L
          have hc2 := h2.fin_eq (n := { c with blocks := c.blocks + s.blocks }) (k := .segFree)
            (by rw [hL2]; simp)
          obtain ⟨hn2b, -⟩ := h2.owns_of_mem (n := n) (k := .segFree) (by rw [hL2]; simp)
          simp only at hc2
          rw [hc2, hn2b]
          by_cases hm2 : Node.fin { c with blocks := c.blocks + s.blocks } = n.begin
          · rw [if_pos hm2, if_pos hm2]
            have h3 := h2.mergeNext hL2
            rw [Function.update_idem] at h3
            exact ⟨_, rfl, h3⟩
          · rw [if_neg hm2, if_neg hm2]
            exact ⟨_, rfl, h2⟩
        · rw [if_neg hm, if_neg hm]
          by_cases hm2 : s.fin = n.begin
          · -- `n` grows downwards over `seg`
            rw [if_pos hm2, if_pos hm2]
            exact ⟨_, rfl, h.growDown hL⟩
          · rw [if_neg hm2, if_neg hm2]
            exact ⟨_, rfl, h.linkBetween hL⟩
      · simp only [insertFree, if_neg hb]
        have hnp' : (a.segs s.id).np = none ∨ joinsTail s (n :: F₂) = false := by
          simpa [joinsTail, hb] using hnp
        have hL' : L .segFree = F₁ ++ [c] ++ n :: F₂ := by rw [hL, List.append_assoc]; rfl
        have hfuel' : (n :: F₂).length < fuel := by simp only [List.length_cons] at hfuel ⊢; omega
        obtain ⟨a', he, h'⟩ := ih hL' (by simp) hnp' hfuel'
        rw [after_snoc] at he
        rw [List.append_assoc] at h'
        exact ⟨a', he, h'⟩

/-- **`addChunk(Seg *)`** on a detached segment whose `np` is NULL, or that does not end up at the
tail of the free list. -/
theorem addChunkSeg_spec (h : Rep a L (s :: D))
    (hnp : (a.segs s.id).np = none ∨ joinsTail s (L .segFree) = false) :
    ∃ a', a.addChunkSeg s.id = .ok a' ∧
      Rep a' (Function.update L .segFree (insertFree s (L .segFree))) D := by
  have hL : L .segFree = [] ++ L .segFree := rfl
  exact addChunkLoop_spec h hL (fun _ => rfl) hnp (Nat.lt_succ_of_le (h.length_le .segFree))

/-! ## `usedChunk` -/

/-- The used list after `usedChunk(seg)`. -/
def insertUsed (s : Node) : List Node → List Node
  | [] => [s]
  | [c] => [c, s]
  | c :: n :: l =>
    if c.begin < s.begin ∧ s.begin < n.begin then c :: s :: n :: l else c :: insertUsed s (n :: l)

theorem insertUsed_perm (s : Node) : ∀ U : List Node, (insertUsed s U).Perm (s :: U)
  | [] => List.Perm.refl _
  | [c] => List.Perm.swap _ _ _
  | c :: n :: l => by
    unfold insertUsed
    split
    · exact List.Perm.swap _ _ _
    · exact ((insertUsed_perm s (n :: l)).cons c).trans (List.Perm.swap _ _ _)

theorem usedChunkLoop_spec (h : Rep a L (s :: D)) (hL : L .segUsed = F₁ ++ F₂)
    (hne : F₂ = [] → F₁ = []) (hnp : (a.segs s.id).np = none) (hfuel : F₂.length < fuel) :
    ∃ a', usedChunkLoop fuel a s.id ((Loc.head .segUsed).after (ids F₁)) = .ok a' ∧
      Rep a' (Function.update L .segUsed (F₁ ++ insertUsed s F₂)) D := by
  obtain ⟨hsb, -⟩ := h.detached_view
  induction F₂ generalizing F₁ fuel with
  | nil =>
    obtain ⟨fuel, rfl⟩ : ∃ m, fuel = m + 1 := ⟨fuel - 1, by omega⟩
    have hd := h.deref_after hL
    simp only [ids_nil, List.head?_nil] at hd
    refine ⟨_, by simp only [usedChunkLoop, hd]; rfl, ?_⟩
    exact h.link hL (hnp.trans hd.symm)
  | cons c F₂ ih =>
    obtain ⟨fuel, rfl⟩ : ∃ m, fuel = m + 1 := ⟨fuel - 1, by omega⟩
    have hd := h.deref_after hL
    simp only [ids_cons, List.head?_cons] at hd
    have hdn := h.deref_next hL
    obtain ⟨hcb, -⟩ := h.owns_of_mem (n := c) (k := .segUsed) (by rw [hL]; simp)
    cases F₂ with
    | nil =>
      simp only [ids_nil, List.head?_nil] at hdn
      simp only [usedChunkLoop, hd, hdn, insertUsed]
      exact ⟨_, rfl, h.linkLast hL hnp⟩
    | cons n F₂ =>
      simp only [ids_cons, List.head?_cons] at hdn
      obtain ⟨hnb, -⟩ := h.owns_of_mem (n := n) (k := .segUsed) (by rw [hL]; simp)
      simp only [usedChunkLoop, hd, hdn, hcb, hsb, hnb, insertUsed]
      by_cases hb : c.begin < s.begin ∧ s.begin < n.begin
      · rw [if_pos hb, if_pos hb]
        exact ⟨_, rfl, h.linkBetween hL⟩
      · rw [if_neg hb, if_neg hb]
        have hL' : L .segUsed = F₁ ++ [c] ++ n :: F₂ := by rw [hL, List.append_assoc]; rfl
        have hfuel' : (n :: F₂).length < fuel := by simp only [List.length_cons] at hfuel ⊢; omega
        obtain ⟨a', he, h'⟩ := ih hL' (by simp) hfuel'
        rw [after_snoc] at he
        rw [List.append_assoc] at h'
        exact ⟨a', he, h'⟩

/-- **`usedChunk`** on a detached segment with `np` NULL. -/
theorem usedChunk_spec (h : Rep a L (s :: D)) (hnp : (a.segs s.id).np = none) :
    ∃ a', a.usedChunk s.id = .ok a' ∧
      Rep a' (Function.update L .segUsed (insertUsed s (L .segUsed))) D := by
  have hL : L .segUsed = [] ++ L .segUsed := rfl
  exact usedChunkLoop_spec h hL (fun _ => rfl) hnp (Nat.lt_succ_of_le (h.length_le .segUsed))

/-! ## `allocChunk` -/

/-- What `allocChunk(num)` leaves of the segment it takes the blocks from. -/
def rest (c : Node) (num : UInt32) : List Node :=
  if c.blocks - num = 0 then []
  else [⟨c.id, c.begin + num * chunkSize, c.blocks - num⟩]

/-- The stores of `allocChunk` once it has found the segment `c` (`PFAllocator.cpp:136-149`). -/
theorem take_spec {u : Node} (h : Rep a L (u :: D)) (hL : L .segFree = F₁ ++ c :: F₂)
    (num : UInt32) :
    let a₁ := a.modify u.id fun s =>
      { s with begin := (a.segs c.id).begin, blocks := num, np := none }
    let a₂ := a₁.modify c.id fun s =>
      { s with blocks := s.blocks - num, begin := s.begin + num * chunkSize }
    let a₃ := if (a₂.segs c.id).blocks = 0 then
        (a₂.freeSeg c.id).assign ((Loc.head .segFree).after (ids F₁))
          ((a₂.freeSeg c.id).segs c.id).np
      else a₂
    ∃ a', a₃.usedChunk u.id = .ok a' ∧ (a'.segs u.id).begin = c.begin ∧
      Rep a' (Function.update (Function.update L .segFree (F₁ ++ rest c num ++ F₂)) .segUsed
        (insertUsed ⟨u.id, c.begin, num⟩ (L .segUsed))) D := by
  intro a₁ a₂ a₃
  have hc : c ∈ L .segFree := by rw [hL]; simp
  have hne : c.id ≠ u.id := fun e => h.detached_not_mem (k := .segFree) (e ▸ mem_ids_of_mem hc)
  obtain ⟨hcb, hcl⟩ := h.owns_of_mem hc
  have h₁ : Rep a₁ L (⟨u.id, c.begin, num⟩ :: D) :=
    h.modify_detached (n := ⟨u.id, c.begin, num⟩) rfl hcb rfl rfl
  have hc₁ : a₁.segs c.id = a.segs c.id := modify_segs_of_ne hne
  have h₂ : Rep a₂ (Function.update L .segFree
      (F₁ ++ ⟨c.id, c.begin + num * chunkSize, c.blocks - num⟩ :: F₂))
        (⟨u.id, c.begin, num⟩ :: D) := by
    refine h₁.modify (n := ⟨c.id, c.begin + num * chunkSize, c.blocks - num⟩) hL rfl ?_ ?_ rfl rfl
    · simp only [hc₁, hcb]
    · simp only [hc₁, hcl]
  have hb₂ : (a₂.segs c.id).blocks = c.blocks - num := by
    simp only [a₂, modify_segs_self, hc₁, hcl]
  have hu₂ : (a₂.segs u.id).np = none := by
    simp only [a₂, a₁, modify_segs_of_ne hne.symm, modify_segs_self]
  -- the emptied segment leaves the list and its descriptor the pool of used ones
  have h₃ : Rep a₃ (Function.update L .segFree (F₁ ++ rest c num ++ F₂))
    (⟨u.id, c.begin, num⟩ :: D) ∧
      (a₃.segs u.id).np = none := by
    simp only [a₃, hb₂, rest]
    by_cases hz : c.blocks - num = 0
    · rw [if_pos hz, if_pos hz, List.append_nil]
      have hd := h₂.drop (Function.update_self (β := fun _ => List Node) Head.segFree _ L)
      rw [Function.update_idem] at hd
      refine ⟨hd, ?_⟩
      have hloc : ((Loc.head .segFree : SegLoc).after (ids F₁)) ≠ .next u.id := by
        intro e
        rcases Loc.after_mem (Loc.head .segFree : SegLoc) (ids F₁) with e' | ⟨j, hj, e'⟩
        · rw [e'] at e; exact absurd e (by simp)
        · rw [e', Loc.next.injEq] at e
          refine h.detached_not_mem (k := .segFree) ?_
          rw [hL, ids_append, ← e]
          exact List.mem_append_left _ hj
      rw [assign_segs, if_neg hloc, PFAllocator.freeSeg, modify_segs_of_ne hne.symm]
      exact hu₂
    · rw [if_neg hz, if_neg hz, List.append_assoc]
      exact ⟨h₂, hu₂⟩
  obtain ⟨a', he, h'⟩ := usedChunk_spec h₃.1 h₃.2
  rw [Function.update_of_ne (show Head.segUsed ≠ .segFree by decide)] at h'
  refine ⟨a', he, ?_, h'⟩
  refine (h'.owns_of_mem (n := ⟨u.id, c.begin, num⟩) (k := .segUsed) ?_).1
  rw [Function.update_self]
  exact (insertUsed_perm _ _).mem_iff.mpr List.mem_cons_self

/-- The first segment of the free list that has enough blocks is taken; without one, the panic. -/
theorem allocChunkLoop_spec {u : Node} (h : Rep a L (u :: D)) (hL : L .segFree = F₁ ++ F₂)
    (hfuel : F₂.length < fuel) (num : UInt16) :
    (∀ c ∈ F₂, c.blocks < num.toUInt32) ∧
        allocChunkLoop fuel a num u.id ((Loc.head .segFree).after (ids F₁)) =
          .error (.panic "PFAallocator::cannot allocate segment") ∨
      ∃ P c Q a', F₂ = P ++ c :: Q ∧ (∀ m ∈ P, m.blocks < num.toUInt32) ∧
        num.toUInt32 ≤ c.blocks ∧
        allocChunkLoop fuel a num u.id ((Loc.head .segFree).after (ids F₁)) = .ok (a', c.begin) ∧
        Rep a' (Function.update (Function.update L .segFree (F₁ ++ P ++ rest c num.toUInt32 ++ Q))
          .segUsed (insertUsed ⟨u.id, c.begin, num.toUInt32⟩ (L .segUsed))) D := by
  induction F₂ generalizing F₁ fuel with
  | nil =>
    obtain ⟨fuel, rfl⟩ : ∃ m, fuel = m + 1 := ⟨fuel - 1, by omega⟩
    have hd := h.deref_after hL
    simp only [ids_nil, List.head?_nil] at hd
    exact Or.inl ⟨by simp, by simp only [allocChunkLoop, hd]⟩
  | cons c F₂ ih =>
    obtain ⟨fuel, rfl⟩ : ∃ m, fuel = m + 1 := ⟨fuel - 1, by omega⟩
    have hd := h.deref_after hL
    simp only [ids_cons, List.head?_cons] at hd
    obtain ⟨-, hcl⟩ := h.owns_of_mem (n := c) (k := .segFree) (by rw [hL]; simp)
    simp only [allocChunkLoop, hd, hcl]
    by_cases hb : c.blocks ≥ num.toUInt32
    · obtain ⟨a', he, hbegin, h'⟩ := take_spec h hL num.toUInt32
      refine Or.inr ⟨[], c, F₂, a', rfl, by simp, hb, ?_, by rw [List.append_nil]; exact h'⟩
      rw [if_pos hb]
      exact Res.bind_eq_ok.mpr ⟨a', he, by rw [hbegin]⟩
    · rw [if_neg hb]
      have hlt : c.blocks < num.toUInt32 := UInt32.not_le.mp hb
      have hL' : L .segFree = F₁ ++ [c] ++ F₂ := by rw [hL, List.append_assoc]; rfl
      have hfuel' : F₂.length < fuel := by simp only [List.length_cons] at hfuel; omega
      have hrec := ih hL' hfuel'
      rw [after_snoc] at hrec
      rcases hrec with ⟨hall, he⟩ | ⟨P, d, Q, a', rfl, hP, hd', he, h'⟩
      · refine Or.inl ⟨fun m hm => ?_, he⟩
        rcases List.mem_cons.mp hm with rfl | hm
        · exact hlt
        · exact hall m hm
      · refine Or.inr ⟨c :: P, d, Q, a', rfl, fun m hm => ?_, hd', he, ?_⟩
        · rcases List.mem_cons.mp hm with rfl | hm
          · exact hlt
          · exact hP m hm
        · simpa [List.append_assoc] using h'

/-- **`allocChunk`** from a represented state: the panic for want of a descriptor, the panic for
want of a segment, or the first segment with enough blocks gives them up. -/
theorem allocChunk_cases (h : Rep a L []) (num : UInt16) :
    ((∀ i, (a.segs i).free = false) ∧
        a.allocChunk num = .error (.panic "PFAllocator:cannot find free segment")) ∨
      ((∀ c ∈ L .segFree, c.blocks < num.toUInt32) ∧
        a.allocChunk num = .error (.panic "PFAallocator::cannot allocate segment")) ∨
      ∃ P c Q i a', (a.segs i).free = true ∧ L .segFree = P ++ c :: Q ∧
        (∀ m ∈ P, m.blocks < num.toUInt32) ∧
        num.toUInt32 ≤ c.blocks ∧ a.allocChunk num = .ok (a', c.begin) ∧
        Rep a' (Function.update (Function.update L .segFree (P ++ rest c num.toUInt32 ++ Q))
          .segUsed (insertUsed ⟨i, c.begin, num.toUInt32⟩ (L .segUsed))) [] := by
  unfold allocChunk
  cases hg : a.getSeg with
  | error e =>
    obtain ⟨rfl, hnone⟩ := getSeg_error hg
    exact Or.inl ⟨hnone, rfl⟩
  | ok r =>
    obtain ⟨a₁, i⟩ := r
    have h₁ := h.getSeg hg
    have hL : L .segFree = [] ++ L .segFree := rfl
    rcases allocChunkLoop_spec h₁ hL (Nat.lt_succ_of_le (h.length_le .segFree)) num with
      ⟨hall, he⟩ | ⟨P, c, Q, a', hF, hP, hb, he, h'⟩
    · exact Or.inr (Or.inl ⟨hall, he⟩)
    · exact Or.inr (Or.inr ⟨P, c, Q, i, a', (getSeg_inv hg).1, hF, hP, hb, he, h'⟩)

/-- `allocChunk` panics, or takes the blocks from the first segment that has them. -/
theorem allocChunk_spec (h : Rep a L []) (num : UInt16) :
    (∃ msg, a.allocChunk num = .error (.panic msg)) ∨
      ∃ P c Q i a', L .segFree = P ++ c :: Q ∧ (∀ m ∈ P, m.blocks < num.toUInt32) ∧
        num.toUInt32 ≤ c.blocks ∧ a.allocChunk num = .ok (a', c.begin) ∧
        Rep a' (Function.update (Function.update L .segFree (P ++ rest c num.toUInt32 ++ Q))
          .segUsed (insertUsed ⟨i, c.begin, num.toUInt32⟩ (L .segUsed))) [] := by
  rcases allocChunk_cases h num with ⟨-, he⟩ | ⟨-, he⟩ | ⟨P, c, Q, i, a', -, hspec⟩
  · exact Or.inl ⟨_, he⟩
  · exact Or.inl ⟨_, he⟩
  · exact Or.inr ⟨P, c, Q, i, a', hspec⟩

/-! ## `freeChunk` -/

theorem freeChunkLoop_spec {addr : UInt32} {P Q : List Node} (h : Rep a L [])
    (hL : L .segUsed = F₁ ++ (P ++ s :: Q)) (hP : ∀ m ∈ P, m.begin ≠ addr) (hs : s.begin = addr)
    (htail : Q = [] ∨ joinsTail s (L .segFree) = false) (hfuel : (P ++ s :: Q).length < fuel) :
    ∃ a', freeChunkLoop fuel a addr ((Loc.head .segUsed).after (ids F₁)) = .ok a' ∧
      Rep a' (Function.update (Function.update L .segUsed (F₁ ++ (P ++ Q))) .segFree
        (insertFree s (L .segFree))) [] := by
  induction P generalizing F₁ fuel with
  | nil =>
    obtain ⟨fuel, rfl⟩ : ∃ m, fuel = m + 1 := ⟨fuel - 1, by omega⟩
    simp only [List.nil_append] at hL ⊢
    have hd := h.deref_after hL
    simp only [ids_cons, List.head?_cons] at hd
    obtain ⟨hsb, -⟩ := h.owns_of_mem (n := s) (k := .segUsed) (by rw [hL]; simp)
    simp only [freeChunkLoop, hd, hsb, if_pos hs]
    have h₁ := h.unlink hL
    have hloc : ((Loc.head .segUsed : SegLoc).after (ids F₁)) ≠ .next s.id :=
      fun e => h.loc_ne_post hL (i := s.id) List.mem_cons_self e.symm
    -- the freed segment still carries the pointer to its successor on the used list
    have hnp : ((a.assign ((Loc.head .segUsed).after (ids F₁)) (a.segs s.id).np).segs s.id).np =
        (ids Q).head? := by
      rw [assign_segs, if_neg hloc]
      exact h.deref_next hL
    have hfree : Function.update L .segUsed (F₁ ++ Q) Head.segFree = L .segFree :=
      Function.update_of_ne (by decide) _ _
    have := addChunkSeg_spec h₁ (by
      rw [hnp, hfree]
      rcases htail with rfl | ht
      · exact Or.inl rfl
      · exact Or.inr ht)
    rwa [hfree] at this
  | cons m P ih =>
    obtain ⟨fuel, rfl⟩ : ∃ m, fuel = m + 1 := ⟨fuel - 1, by omega⟩
    have hd := h.deref_after hL
    simp only [List.cons_append, ids_cons, List.head?_cons] at hd
    obtain ⟨hmb, -⟩ := h.owns_of_mem (n := m) (k := .segUsed) (by rw [hL]; simp)
    simp only [freeChunkLoop, hd, hmb, if_neg (hP m List.mem_cons_self)]
    have hL' : L .segUsed = F₁ ++ [m] ++ (P ++ s :: Q) := by rw [hL, List.append_assoc]; rfl
    have hfuel' : (P ++ s :: Q).length < fuel := by
      simp only [List.cons_append, List.length_cons] at hfuel; omega
    have := ih hL' (fun x hx => hP x (List.mem_cons_of_mem _ hx)) hfuel'
    rw [after_snoc] at this
    simpa [List.append_assoc] using this

/-- **`freeChunk`** of an address on the used list, where the first segment that begins there is
the last one of the used list or does not end up at the tail of the free list. -/
theorem freeChunk_spec {addr : UInt32} {P Q : List Node} (h : Rep a L [])
    (hL : L .segUsed = P ++ s :: Q) (hP : ∀ m ∈ P, m.begin ≠ addr) (hs : s.begin = addr)
    (htail : Q = [] ∨ joinsTail s (L .segFree) = false) :
    ∃ a', a.freeChunk addr = .ok a' ∧
      Rep a' (Function.update (Function.update L .segUsed (P ++ Q)) .segFree
        (insertFree s (L .segFree))) [] := by
  have hlen := h.length_le .segUsed
  rw [hL] at hlen
  have hL' : L .segUsed = [] ++ (P ++ s :: Q) := hL
  exact freeChunkLoop_spec h hL' hP hs htail (Nat.lt_succ_of_le hlen)

/-! ## `addChunk(begin, end)` -/

/-- The segment `addChunk(begin, end)` registers under the descriptor `i`: both ends rounded down to
a page. -/
def rounded (i : SegPtr) (begin end_ : UInt32) : Node :=
  ⟨i, begin &&& ~~~(chunkSize - 1),
    ((end_ &&& ~~~(chunkSize - 1)) - (begin &&& ~~~(chunkSize - 1))) / chunkSize⟩

/-- **`addChunk(begin, end)`**: the panic for want of a descriptor, or the rounded range is inserted
into the free list. -/
theorem addChunk_spec (h : Rep a L []) (begin end_ : UInt32) :
    (∃ msg, a.addChunk begin end_ = .error (.panic msg)) ∨
      ∃ i a', a.addChunk begin end_ = .ok a' ∧
        Rep a' (Function.update L .segFree (insertFree (rounded i begin end_) (L .segFree)))
          [] := by
  unfold addChunk
  cases hg : a.getSeg with
  | error e =>
    rw [(getSeg_error hg).1]
    exact Or.inl ⟨_, rfl⟩
  | ok r =>
    obtain ⟨a₁, i⟩ := r
    have h₁ := (h.getSeg hg).modify_detached (n := rounded i begin end_)
      (f := fun s => { s with begin := (rounded i begin end_).begin,
                              blocks := (rounded i begin end_).blocks,
                              np := none }) rfl rfl rfl rfl
    obtain ⟨a', he, h'⟩ := addChunkSeg_spec h₁ (Or.inl (by simp [rounded]))
    exact Or.inr ⟨i, a', he, h'⟩

end OwnOS.PFAllocator
