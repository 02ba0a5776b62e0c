import OwnOS.PFAllocator.Model

/-!
# The allocator's lists

The two intrusive lists of a `PFAllocator`, read as lists of nodes. `Rep a L D` says that the state
`a` holds the lists `L`, one for each head, and that the nodes `D` are detached: their descriptors
are taken from the pool but linked nowhere, as a routine has them in hand between two stores.

* `Owns a N`: the descriptors marked not free are exactly those of `N`, which are distinct, and
  hold the `begin` and `blocks` of their nodes.
* `Rep.link`, `Rep.unlink`, `Rep.drop`, `Rep.modify`: what one store of the code does to the lists.
* `nodes`: the lists as a bounded walk reads them, which is `L` on every represented state
  (`Rep.nodes_eq`).
-/

namespace OwnOS.PFAllocator

open Lib

/-- A descriptor of one of the lists, with the fields the routines read. -/
structure Node where
  id : SegPtr
  begin : UInt32
  blocks : UInt32
  deriving DecidableEq

/-- `begin + blocks*ChunkSize`. -/
def Node.fin (n : Node) : UInt32 := n.begin + n.blocks * chunkSize

/-- The descriptors of a list of nodes. -/
def ids (l : List Node) : List SegPtr := l.map (·.id)

@[simp] theorem ids_nil : ids [] = [] := rfl

@[simp] theorem ids_cons (n : Node) (l : List Node) : ids (n :: l) = n.id :: ids l := rfl

@[simp] theorem ids_append (l₁ l₂ : List Node) : ids (l₁ ++ l₂) = ids l₁ ++ ids l₂ :=
  List.map_append

theorem mem_ids_of_mem {n : Node} {l : List Node} (h : n ∈ l) : n.id ∈ ids l :=
  List.mem_map_of_mem h

/-- All nodes in play: the free list, the used list and the detached ones. -/
def all (L : Head → List Node) (D : List Node) : List Node := L .segFree ++ (L .segUsed ++ D)

theorem mem_all {L : Head → List Node} {D : List Node} {n : Node} :
    n ∈ all L D ↔ (∃ k, n ∈ L k) ∨ n ∈ D := by
  simp only [all, List.mem_append]
  constructor
  · rintro (h | h | h)
    · exact Or.inl ⟨_, h⟩
    · exact Or.inl ⟨_, h⟩
    · exact Or.inr h
  · rintro (⟨k, h⟩ | h)
    · cases k
      · exact Or.inl h
      · exact Or.inr (Or.inl h)
    · exact Or.inr (Or.inr h)

/-- Moving one node from a list to the detached ones keeps the nodes in play. -/
theorem all_move {L : Head → List Node} {D pre post : List Node} {n : Node} {k : Head}
    (hL : L k = pre ++ n :: post) :
    (all L D).Perm (all (Function.update L k (pre ++ post)) (n :: D)) := by
  have hmid : ∀ X Y : List Node, (X ++ (pre ++ n :: post) ++ Y).Perm
      (X ++ (pre ++ post) ++ n :: Y) :=
    fun X Y => by
      refine (List.Perm.append_right Y (List.Perm.append_left X List.perm_middle)).trans ?_
      refine (List.Perm.append_right Y List.perm_middle).trans ?_
      rw [List.cons_append]
      exact List.perm_middle.symm
  cases k with
  | segFree =>
    simp only [all, Function.update_self, hL, Function.update_of_ne
      (show Head.segUsed ≠ .segFree by decide)]
    refine (hmid [] (L .segUsed ++ D)).trans ?_
    simp only [List.nil_append]
    refine List.Perm.append_left _ ?_
    exact List.perm_middle.symm
  | segUsed =>
    simp only [all, Function.update_self, hL, Function.update_of_ne
      (show Head.segFree ≠ .segUsed by decide)]
    simpa [List.append_assoc] using hmid (L .segFree) D

/-! ## Ownership of the descriptors -/

/-- The descriptors in use are those of `N`, each once, with the fields of their nodes. -/
structure Owns (a : PFAllocator) (N : List Node) : Prop where
  nodup : (ids N).Nodup
  view : ∀ n ∈ N, (a.segs n.id).begin = n.begin ∧ (a.segs n.id).blocks = n.blocks
  flag : ∀ i, (a.segs i).free = false ↔ i ∈ ids N

variable {a a' : PFAllocator} {N N' D pre post : List Node} {L : Head → List Node} {k : Head}
  {n s : Node} {c : SegLoc} {p : Option SegPtr} {f : Seg → Seg} {i : SegPtr}

theorem Owns.perm (h : Owns a N) (hp : N.Perm N') : Owns a N' where
  nodup := (hp.map _).nodup_iff.mp h.nodup
  view n hn := h.view n (hp.mem_iff.mpr hn)
  flag i := (h.flag i).trans (hp.map _).mem_iff

theorem Owns.head_not_mem (h : Owns a (s :: N)) : s.id ∉ ids N :=
  (List.nodup_cons.mp h.nodup).1

/-- A store of a pointer changes no node. -/
theorem Owns.assign (h : Owns a N) : Owns (a.assign c p) N where
  nodup := h.nodup
  view n hn := by simpa using h.view n hn
  flag i := by simpa using h.flag i

/-- A store to `begin` and `blocks` of one descriptor changes that node. -/
theorem Owns.modify (h : Owns a (s :: N)) (hid : n.id = s.id)
    (hb : (f (a.segs s.id)).begin = n.begin) (hl : (f (a.segs s.id)).blocks = n.blocks)
    (hf : (f (a.segs s.id)).free = (a.segs s.id).free) : Owns (a.modify s.id f) (n :: N) where
  nodup := by
    have := h.nodup
    rwa [ids_cons, ← hid, ← ids_cons] at this
  view m hm := by
    rcases List.mem_cons.mp hm with rfl | hm
    · rw [hid, modify_segs_self]
      exact ⟨hb, hl⟩
    · have hne : m.id ≠ s.id := fun e => h.head_not_mem (e ▸ mem_ids_of_mem hm)
      rw [modify_segs_of_ne hne]
      exact h.view m (List.mem_cons_of_mem _ hm)
  flag j := by
    have := h.flag j
    by_cases hj : j = s.id
    · subst hj
      rw [modify_segs_self, hf, this, ids_cons, ids_cons, hid]
    · rw [modify_segs_of_ne hj, this, ids_cons, ids_cons, hid]

/-- `freeSeg` gives a descriptor back to the pool. -/
theorem Owns.freeSeg (h : Owns a (s :: N)) : Owns (a.freeSeg s.id) N where
  nodup := (List.nodup_cons.mp h.nodup).2
  view m hm := by
    have hne : m.id ≠ s.id := fun e => h.head_not_mem (e ▸ mem_ids_of_mem hm)
    rw [PFAllocator.freeSeg, modify_segs_of_ne hne]
    exact h.view m (List.mem_cons_of_mem _ hm)
  flag j := by
    by_cases hj : j = s.id
    · subst hj
      simp [PFAllocator.freeSeg, h.head_not_mem]
    · rw [PFAllocator.freeSeg, modify_segs_of_ne hj, h.flag j, ids_cons, List.mem_cons]
      exact ⟨fun hm => hm.resolve_left hj, Or.inr⟩

/-- `getSeg` takes a descriptor that was not in use, and changes nothing else. -/
theorem getSeg_inv (h : a.getSeg = .ok (a', i)) :
    (a.segs i).free = true ∧ a' = a.modify i fun s => { s with free := false } := by
  unfold getSeg at h
  split at h
  · rename_i j hj
    have hfree := List.find?_some hj
    simp only [Except.ok.injEq, Prod.mk.injEq] at h
    obtain ⟨rfl, rfl⟩ := h
    exact ⟨by simpa using hfree, rfl⟩
  · exact absurd h (by simp)

/-- The only way `getSeg` fails is the panic, when every descriptor is in use. -/
theorem getSeg_error {e : Halt} (h : a.getSeg = .error e) :
    e = .panic "PFAllocator:cannot find free segment" ∧ ∀ i, (a.segs i).free = false := by
  unfold getSeg at h
  split at h
  · exact absurd h (by simp)
  · rename_i hnone
    refine ⟨(Except.error.inj h).symm, fun i => ?_⟩
    simpa using List.find?_eq_none.mp hnone i (List.mem_finRange i)

theorem Owns.getSeg (h : Owns a N) (hg : a.getSeg = .ok (a', i)) :
    Owns a' (⟨i, (a.segs i).begin, (a.segs i).blocks⟩ :: N) := by
  obtain ⟨hfree, rfl⟩ := getSeg_inv hg
  have hi : i ∉ ids N := by
    rw [← h.flag i, hfree]
    exact Bool.noConfusion
  refine ⟨List.nodup_cons.mpr ⟨hi, h.nodup⟩, fun m hm => ?_, fun j => ?_⟩
  · rcases List.mem_cons.mp hm with rfl | hm
    · simp
    · have hne : m.id ≠ i := fun e => hi (e ▸ mem_ids_of_mem hm)
      rw [modify_segs_of_ne hne]
      exact h.view m hm
  · by_cases hj : j = i
    · subst hj; simp
    · rw [modify_segs_of_ne hj, h.flag j, ids_cons, List.mem_cons]
      exact ⟨Or.inr, fun hm => hm.resolve_left hj⟩

theorem Owns.length_le (h : Owns a N) : N.length ≤ maxNumSeg := by
  have := List.Nodup.length_le_card h.nodup
  simpa [ids] using this

theorem Owns.exists_free (h : Owns a N) (hlt : N.length < maxNumSeg) :
    ∃ i, (a.segs i).free = true := by
  by_contra hno
  have hall : ∀ i, i ∈ ids N := by
    intro i
    rw [← h.flag i, ← Bool.not_eq_true]
    exact fun hi => hno ⟨i, hi⟩
  have hcard : (ids N).toFinset = Finset.univ := Finset.eq_univ_iff_forall.mpr
    fun i => by simpa using hall i
  have hle := List.toFinset_card_le (ids N)
  rw [hcard, Finset.card_univ, Fintype.card_fin, ids, List.length_map] at hle
  omega

theorem Owns.none_free (h : Owns a N) (heq : N.length = maxNumSeg) (i : SegPtr) :
    (a.segs i).free = false := by
  have hcard : (ids N).toFinset = Finset.univ := by
    refine Finset.eq_univ_of_card _ ?_
    rw [List.toFinset_card_of_nodup h.nodup, ids, List.length_map, heq, Fintype.card_fin]
  rw [h.flag i, ← List.mem_toFinset, hcard]
  exact Finset.mem_univ i

/-! ## The represented lists -/

/-- The state `a` holds the lists `L`, with the nodes `D` detached. -/
structure Rep (a : PFAllocator) (L : Head → List Node) (D : List Node) : Prop where
  path : ∀ k, a.links.Path (.head k) (ids (L k)) none
  owns : Owns a (all L D)

namespace Rep

theorem owns_of_mem (h : Rep a L D) (hn : n ∈ L k) :
    (a.segs n.id).begin = n.begin ∧ (a.segs n.id).blocks = n.blocks :=
  h.owns.view n (mem_all.mpr (Or.inl ⟨k, hn⟩))

/-- The nodes of one list are not those of another. -/
theorem ids_disjoint (h : Rep a L D) {k' : Head} (hk : k' ≠ k) (hn : i ∈ ids (L k)) :
    i ∉ ids (L k') := by
  intro hm
  have hnd := h.owns.nodup
  simp only [all, ids_append, List.nodup_append, List.mem_append] at hnd
  cases k <;> cases k'
  · exact hk rfl
  · exact hnd.2.2 i hn i (Or.inl hm) rfl
  · exact hnd.2.2 i hm i (Or.inl hn) rfl
  · exact hk rfl

theorem detached_not_mem (h : Rep a L (s :: D)) : s.id ∉ ids (L k) := by
  intro hm
  have hnd := h.owns.nodup
  simp only [all, ids_append, ids_cons, List.nodup_append, List.mem_append, List.mem_cons] at hnd
  cases k
  · exact hnd.2.2 _ hm _ (Or.inr (Or.inl rfl)) rfl
  · exact hnd.2.1.2.2 _ hm _ (Or.inl rfl) rfl

/-- The location the walk of list `k` has in hand past `pre` belongs to no other list. -/
theorem loc_ne (h : Rep a L D) (hL : L k = pre ++ post) {k' : Head} (hk : k' ≠ k) :
    (.head k' : SegLoc) ≠ (Loc.head k).after (ids pre) ∧
      ∀ i ∈ ids (L k'), (.next i : SegLoc) ≠ (Loc.head k).after (ids pre) := by
  rcases Loc.after_mem (Loc.head k : SegLoc) (ids pre) with e | ⟨j, hj, e⟩
  · rw [e]
    exact ⟨fun e' => hk (Loc.head.inj e'), fun i _ => by simp⟩
  · rw [e]
    refine ⟨by simp, fun i hi e' => ?_⟩
    rw [Loc.next.injEq] at e'
    have hjk : j ∈ ids (L k) := by rw [hL, ids_append]; exact List.mem_append_left _ hj
    exact h.ids_disjoint hk hjk (e' ▸ hi)

/-- The location past `pre` is not the `np` field of a node after it. -/
theorem loc_ne_post (h : Rep a L D) (hL : L k = pre ++ post) (hi : i ∈ ids post) :
    (.next i : SegLoc) ≠ (Loc.head k).after (ids pre) := by
  have hpath := h.path k
  rw [hL, ids_append] at hpath
  exact hpath.ne_after hi

/-- The pointer in hand past `pre` leads through `post`. -/
theorem path_post (h : Rep a L D) (hL : L k = pre ++ post) :
    a.links.Path ((Loc.head k).after (ids pre)) (ids post) none := by
  have := h.path k
  rw [hL, ids_append, Links.path_append] at this
  exact this.2

/-- What the walk of list `k` reads at the location past `pre`. -/
theorem deref_after (h : Rep a L D) (hL : L k = pre ++ post) :
    a.deref ((Loc.head k).after (ids pre)) = (ids post).head? := by
  have := h.path_post hL
  cases post with
  | nil => exact this
  | cons m post => exact this.1

/-- **Linking** a detached node: the location past `pre` takes its address, and its own `np` holds
what the location held. -/
theorem link (h : Rep a L (s :: D)) (hL : L k = pre ++ post)
    (hnp : (a.segs s.id).np = a.deref ((Loc.head k).after (ids pre))) :
    Rep (a.assign ((Loc.head k).after (ids pre)) (some s.id))
      (Function.update L k (pre ++ s :: post)) D where
  owns := by
    refine (h.owns.perm ?_).assign
    have := all_move (L := Function.update L k (pre ++ s :: post)) (D := D) (k := k)
      (Function.update_self k _ L)
    rw [Function.update_idem, ← hL, Function.update_eq_self] at this
    exact this.symm
  path k' := by
    rw [links_assign]
    by_cases hk : k' = k
    · subst hk
      have hpath := h.path k'
      rw [hL, ids_append] at hpath
      rw [Function.update_self, ids_append]
      refine hpath.link (fun hm => h.detached_not_mem (k := k') ?_) hnp
      rw [hL, ids_append]
      exact List.mem_append_left _ hm
    · obtain ⟨h1, h2⟩ := h.loc_ne hL hk
      rw [Function.update_of_ne hk]
      exact (h.path k').set_of_not_mem h1 h2

/-- **Unlinking** a node: the location before it takes its `np`. -/
theorem unlink (h : Rep a L D) (hL : L k = pre ++ n :: post) :
    Rep (a.assign ((Loc.head k).after (ids pre)) (a.segs n.id).np)
      (Function.update L k (pre ++ post)) (n :: D) where
  owns := (h.owns.perm (all_move hL)).assign
  path k' := by
    rw [links_assign]
    by_cases hk : k' = k
    · subst hk
      have hpath := h.path k'
      rw [hL, ids_append] at hpath
      rw [Function.update_self, ids_append]
      exact hpath.unlink
    · obtain ⟨h1, h2⟩ := h.loc_ne hL hk
      rw [Function.update_of_ne hk]
      exact (h.path k').set_of_not_mem h1 h2

/-- `freeSeg` on a detached node. -/
theorem freeSeg (h : Rep a L (s :: D)) : Rep (a.freeSeg s.id) L D where
  path k := by
    rw [PFAllocator.freeSeg, links_modify (by rfl)]
    exact h.path k
  owns := by
    refine Owns.freeSeg (h.owns.perm ?_)
    simp only [all]
    exact (List.Perm.append_left _ List.perm_middle).trans List.perm_middle

theorem freeSeg_assign (a : PFAllocator) (i : SegPtr) (c : SegLoc) (p : Option SegPtr) :
    (a.freeSeg i).assign c p = (a.assign c p).freeSeg i := by
  cases c with
  | head k => cases k <;> rfl
  | next j =>
    simp only [assign, PFAllocator.freeSeg, PFAllocator.modify, PFAllocator.mk.injEq, and_true]
    funext x
    by_cases hij : i = j
    · subst hij; by_cases hx : x = i <;> simp [hx]
    · have hji : j ≠ i := fun e => hij e.symm
      by_cases hx : x = i
      · subst hx; simp [hij, hji]
      · by_cases hx' : x = j
        · subst hx'; simp [hij, hji]
        · simp [hx, hx']

/-- **Dropping** a node: its descriptor is marked free and the location before it takes its `np`,
in the order of the code. -/
theorem drop (h : Rep a L D) (hL : L k = pre ++ n :: post) :
    Rep ((a.freeSeg n.id).assign ((Loc.head k).after (ids pre)) ((a.freeSeg n.id).segs n.id).np)
      (Function.update L k (pre ++ post)) D := by
  have hnp : ((a.freeSeg n.id).segs n.id).np = (a.segs n.id).np := by simp [PFAllocator.freeSeg]
  rw [freeSeg_assign, hnp]
  exact (h.unlink hL).freeSeg

/-- A store to `begin` and `blocks` of a listed node. -/
theorem modify (h : Rep a L D) (hL : L k = pre ++ s :: post) (hid : n.id = s.id)
    (hb : (f (a.segs s.id)).begin = n.begin) (hl : (f (a.segs s.id)).blocks = n.blocks)
    (hf : (f (a.segs s.id)).free = (a.segs s.id).free)
    (hnp : (f (a.segs s.id)).np = (a.segs s.id).np) :
    Rep (a.modify s.id f) (Function.update L k (pre ++ n :: post)) D where
  path k' := by
    rw [links_modify hnp]
    by_cases hk : k' = k
    · subst hk
      have := h.path k'
      rw [hL] at this
      simpa [Function.update_self, hid] using this
    · rw [Function.update_of_ne hk]
      exact h.path k'
  owns := by
    have hmv : ∀ m, (m :: all (Function.update L k (pre ++ post)) D).Perm
        (all (Function.update L k (pre ++ m :: post)) D) := fun m => by
      have := all_move (L := Function.update L k (pre ++ m :: post)) (D := D) (k := k)
        (Function.update_self k _ L)
      rw [Function.update_idem] at this
      refine (this.trans ?_).symm
      simp only [all]
      exact (List.Perm.append_left _ List.perm_middle).trans List.perm_middle
    have h1 := hmv s
    rw [← hL, Function.update_eq_self] at h1
    exact ((h.owns.perm h1.symm).modify hid hb hl hf).perm (hmv n)

/-- A store to the fields of a detached node; its `np` belongs to no list. -/
theorem modify_detached (h : Rep a L (s :: D)) (hid : n.id = s.id)
    (hb : (f (a.segs s.id)).begin = n.begin) (hl : (f (a.segs s.id)).blocks = n.blocks)
    (hf : (f (a.segs s.id)).free = (a.segs s.id).free) : Rep (a.modify s.id f) L (n :: D) where
  path k := by
    refine (h.path k).congr ?_ fun j hj => ?_
    · cases k <;> rfl
    · have hne : j ≠ s.id := fun e => h.detached_not_mem (k := k) (e ▸ hj)
      show ((a.modify s.id f).segs j).np = (a.segs j).np
      rw [modify_segs_of_ne hne]
  owns := by
    have hp : ∀ m, (m :: all L D).Perm (all L (m :: D)) := fun m => by
      simp only [all]
      exact ((List.Perm.append_left _ List.perm_middle).trans List.perm_middle).symm
    exact ((h.owns.perm (hp s).symm).modify hid hb hl hf).perm (hp n)

/-- A store to the `np` field of a detached node. -/
theorem assign_detached (h : Rep a L (s :: D)) : Rep (a.assign (.next s.id) p) L (s :: D) where
  path k := by
    rw [links_assign]
    refine (h.path k).set_of_not_mem (by simp) fun j hj e => ?_
    rw [Loc.next.injEq] at e
    exact h.detached_not_mem (k := k) (e ▸ hj)
  owns := h.owns.assign

theorem getSeg (h : Rep a L D) (hg : a.getSeg = .ok (a', i)) :
    Rep a' L (⟨i, (a.segs i).begin, (a.segs i).blocks⟩ :: D) where
  path k := by
    obtain ⟨-, rfl⟩ := getSeg_inv hg
    rw [links_modify (by rfl)]
    exact h.path k
  owns := by
    refine (h.owns.getSeg hg).perm ?_
    simp only [all]
    exact ((List.Perm.append_left _ List.perm_middle).trans List.perm_middle).symm

theorem length_le (h : Rep a L D) (k : Head) : (L k).length ≤ maxNumSeg := by
  have := h.owns.length_le
  simp only [all, List.length_append] at this
  cases k <;> omega

end Rep

/-! ## Reading the lists off a state -/

/-- The descriptors a walk from `pp` passes, at most `fuel` of them. -/
def walk : Nat → PFAllocator → SegLoc → List SegPtr
  | 0, _, _ => []
  | fuel + 1, a, pp =>
    match a.deref pp with
    | none => []
    | some i => i :: walk fuel a (.next i)

/-- The node a descriptor holds. -/
def nodeAt (a : PFAllocator) (i : SegPtr) : Node := ⟨i, (a.segs i).begin, (a.segs i).blocks⟩

/-- The list of head `k`, as a walk of at most 128 descriptors reads it. -/
def nodes (a : PFAllocator) (k : Head) : List Node :=
  (walk maxNumSeg a (.head k)).map a.nodeAt

theorem walk_eq {fuel : Nat} {l : List SegPtr} (h : a.links.Path c l none) (hl : l.length ≤ fuel) :
    walk fuel a c = l := by
  induction l generalizing fuel c with
  | nil =>
    cases fuel with
    | zero => rfl
    | succ fuel =>
      have hd : a.deref c = none := h
      simp only [walk, hd]
  | cons i l ih =>
    cases fuel with
    | zero => exact absurd hl (by simp)
    | succ fuel =>
      have hd : a.deref c = some i := h.1
      simp only [walk, hd]
      rw [ih h.2 (by simpa using hl)]

/-- On a represented state the walk reads the list. -/
theorem Rep.nodes_eq (h : Rep a L D) (k : Head) : a.nodes k = L k := by
  unfold nodes
  rw [walk_eq (h.path k) (by simpa [ids] using h.length_le k), ids, List.map_map]
  conv_rhs => rw [← List.map_id (L k)]
  refine List.map_congr_left fun n hn => ?_
  obtain ⟨hb, hl⟩ := h.owns_of_mem hn
  simp [nodeAt, hb, hl]

/-- The constructor leaves both lists empty. -/
theorem rep_init (segs : SegPtr → Seg) : Rep (init segs) (fun _ => []) [] where
  path k := by cases k <;> rfl
  owns := ⟨by simp [all], fun n hn => by simp [all] at hn, fun i => by simp [init, all]⟩

end OwnOS.PFAllocator
