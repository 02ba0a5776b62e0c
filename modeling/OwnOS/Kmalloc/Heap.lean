import OwnOS.Kmalloc.Spec
import OwnOS.Lib.Run
import OwnOS.PFAllocator.Boot

/-!
# The heap along runs of `kmalloc` and `kfree`

After `init_kmalloc`, any number of `kmalloc(size)` and `kfree(p)` calls follow, `p` being a pointer
that `kmalloc` returned and that was not freed since. `HeapOk` is the representation invariant: the
headers form a ring from `base` in address order, tile the arena, and carry the used bit exactly for
the live blocks, which therefore are disjoint and large enough.

Two defects break it.

* `kmalloc` takes a free block as soon as `rsize <= p->size`. With a remainder of 0 bytes the new
  header is the old one (its `next` is set to itself and its `size` to 0: "size==0になったら? 未定",
  `kmalloc.cpp:37-38`); with 4 bytes the two overlap.
* `kfree` joins the freed block with a free one behind it without looking at `next_free`. If that
  one was `next_free`, the next search starts at a header that is no longer in the ring.

* **`heap_ok`**: in every run whose `kmalloc` calls find a block with room for one more header and
  whose `kfree` calls do not join `next_free` into the block before it, every state is `HeapOk`, and
  the next such call returns or panics.
-/

namespace OwnOS.Kmalloc

open Lib Lib.Word

/-! ## Runs -/

/-- The calls of a run. -/
inductive Op where
  | malloc (size : UInt32)
  | free (addr : UInt32)
  deriving DecidableEq

/-- The heap with the pointers `kmalloc` returned and nobody freed since, and their sizes. -/
abbrev State := Kmalloc × List (UInt32 × UInt32)

/-- One call. -/
def step (s : State) : Op → Res State
  | .malloc size => do
    let (h, p) ← s.1.kmalloc size
    .ok (h, (p, size) :: s.2)
  | .free addr => do
    let h ← s.1.kfree addr
    .ok (h, s.2.filter fun e => e.1 ≠ addr)

/-- The calls the kernel may make: a size that can be rounded, and only a pointer it holds. -/
def Legal (s : State) : Op → Prop
  | .malloc size => size.toNat + 11 < 4294967296
  | .free addr => addr ∈ s.2.map Prod.fst

instance (s : State) (o : Op) : Decidable (Legal s o) :=
  match o with
  | .malloc size => inferInstanceAs (Decidable (size.toNat + 11 < 4294967296))
  | .free addr => inferInstanceAs (Decidable (addr ∈ s.2.map Prod.fst))

/-- The block a search found, if it did, has room for one more header. -/
def RoomForHeader (h : Kmalloc) (rsize : UInt32) : Res UInt32 → Prop
  | .ok p => rsize.toNat + 8 ≤ (h.size p).toNat
  | .error _ => True

instance (h : Kmalloc) (rsize : UInt32) : (r : Res UInt32) → Decidable (RoomForHeader h rsize r)
  | .ok p => inferInstanceAs (Decidable (rsize.toNat + 8 ≤ (h.size p).toNat))
  | .error _ => inferInstanceAs (Decidable True)

/-- `malloc`: the first free block from `next_free` on with room for the request has room for one
more header. `free`: the header behind the block is not `next_free`, unless it is `base`. -/
def StepOk (s : State) : Op → Prop
  | .malloc size =>
    RoomForHeader s.1 (roundSize size) (search pointers s.1 (roundSize size) s.1.nextFree)
  | .free addr =>
    resetPtr (s.1.next (addr - headerSize)) ≠ resetPtr s.1.nextFree ∨
      resetPtr (s.1.next (addr - headerSize)) = resetPtr s.1.base

instance (s : State) : (o : Op) → Decidable (StepOk s o)
  | .malloc size => inferInstanceAs (Decidable (RoomForHeader s.1 (roundSize size) _))
  | .free _ => inferInstanceAs (Decidable (_ ∨ _))

/-! ## The representation invariant -/

/-- Following `next` from each header, with the used bit stripped, leads to the next one, which lies
`size` bytes further; the bit is set exactly for live blocks. The last one leads back to `base`. -/
def Follows (h : Kmalloc) (live : List UInt32) : List UInt32 → Prop
  | [] => True
  | [x] => resetPtr (h.next x) = resetPtr h.base ∧ isUsed (h.next x) = false
  | x :: y :: hs => resetPtr (h.next x) = y ∧ x.toNat + (h.size x).toNat = y.toNat ∧
    (isUsed (h.next x) = true ↔ y + headerSize ∈ live) ∧ Follows h live (y :: hs)

/-- The bytes of the block of a live pointer. -/
def blockBytes (h : Kmalloc) (e : UInt32 × UInt32) : Set Nat :=
  Set.Ico (e.1 - headerSize).toNat
    ((e.1 - headerSize).toNat + (h.size (e.1 - headerSize)).toNat)

/-- **The representation invariant**, with the headers `hs` and the live pointers `live`. -/
structure HeapOk (h : Kmalloc) (live : List (UInt32 × UInt32)) (hs : List UInt32) : Prop where
  first : hs.head? = some (resetPtr h.base)
  ring : Follows h (live.map Prod.fst) hs
  increasing : hs.Pairwise (· < ·)
  total : (hs.map fun x => (h.size x).toNat).sum = 0x20000
  header : ∀ x ∈ hs, headerSize ≤ h.size x
  base_free : isUsed h.base = false ∧ resetPtr h.base + headerSize ∉ live.map Prod.fst
  block : ∀ e ∈ live, e.1 - headerSize ∈ hs
  disjoint : live.Pairwise fun e e' => Disjoint (blockBytes h e) (blockBytes h e')
  inside : ∀ e ∈ live, blockBytes h e ⊆ Set.Ico h.base.toNat (h.base.toNat + 0x20000)
  room : ∀ e ∈ live, Set.Ico e.1.toNat (e.1.toNat + e.2.toNat) ⊆ blockBytes h e

/-- The invariant of a run, over the blocks. -/
structure Inv (s : State) (l : List Blk) : Prop where
  arena : Arena s.1 l
  nextFree : ∃ b ∈ l, b.req = none ∧ b.addr = s.1.nextFree
  live : s.2.Perm (l.filterMap Blk.payload)

variable {s : State} {h : Kmalloc} {l P Q : List Blk} {b c f : Blk}

theorem Arena.eq_of_addr (h' : Arena h l) (hb : b ∈ l) (hc : c ∈ l) (e : c.addr = b.addr) :
    c = b := by
  obtain ⟨P, Q, rfl⟩ := List.append_of_mem hb
  by_contra hne
  refine h'.ring.addr_inj (c := c) ?_ e
  simp only [List.mem_append, List.mem_cons] at hc ⊢
  tauto

theorem Arena.read_mem (h' : Arena h l) (hb : b ∈ l) : h.size b.addr = b.size := by
  obtain ⟨P, Q, rfl⟩ := List.append_of_mem hb
  have := h'.ring.read.1
  rwa [size, resetPtr_ptr (h'.addr_even hb), ← resetPtr_of_even (h'.addr_even hb)] at this

theorem payload_eq_some {e : UInt32 × UInt32} :
    b.payload = some e ↔ b.req = some e.2 ∧ e.1 = b.addr + headerSize := by
  unfold Blk.payload
  rw [Option.map_eq_some_iff]
  constructor
  · rintro ⟨r, hr, rfl⟩
    exact ⟨hr, rfl⟩
  · rintro ⟨hr, he⟩
    exact ⟨e.2, hr, by rw [← he]⟩

namespace Inv

theorem mem_live (h' : Inv s l) {e : UInt32 × UInt32} :
    e ∈ s.2 ↔ ∃ b ∈ l, b.req = some e.2 ∧ e.1 = b.addr + headerSize := by
  rw [h'.live.mem_iff, List.mem_filterMap]
  simp only [payload_eq_some]

/-- A block is in use exactly when its pointer is live. -/
theorem used_iff (h' : Inv s l) (hb : b ∈ l) :
    b.req.isSome = true ↔ b.addr + headerSize ∈ s.2.map Prod.fst := by
  rw [List.mem_map]
  constructor
  · intro hr
    obtain ⟨r, hr⟩ := Option.isSome_iff_exists.mp hr
    exact ⟨(b.addr + headerSize, r), h'.mem_live.mpr ⟨b, hb, hr, rfl⟩, rfl⟩
  · rintro ⟨e, he, heq⟩
    obtain ⟨c, hc, hr, hec⟩ := h'.mem_live.mp he
    rw [heq] at hec
    have hbc : b.addr = c.addr := by
      have := congrArg (· - headerSize) hec
      simpa only [UInt32.add_sub_cancel] using this
    rw [h'.arena.eq_of_addr hc hb hbc, hr]
    rfl

theorem blockBytes_eq (h' : Inv s l) (hb : b ∈ l) {e : UInt32 × UInt32}
    (he : e.1 = b.addr + headerSize) :
    blockBytes s.1 e = Set.Ico b.addr.toNat (b.addr.toNat + b.size.toNat) := by
  rw [blockBytes, he, UInt32.add_sub_cancel, h'.arena.read_mem hb]

/-- The ring, over a suffix of the blocks. -/
theorem follows (h' : Inv s l) : ∀ (Q P : List Blk), l = P ++ Q →
    Follows s.1 (s.2.map Prod.fst) (Q.map (·.addr))
  | [], P, _ => trivial
  | [b], P, hl => by
    subst hl
    have ha := h'.arena.addr_even (b := b) (by simp)
    have hlast : s.1.mem b.addr = s.1.base := h'.arena.ring.read.2.2.1
    simp only [List.map_cons, List.map_nil, Follows, next, resetPtr_of_even ha, hlast]
    exact ⟨trivial, isUsed_of_even h'.arena.base_even⟩
  | b :: c :: Q, P, hl => by
    have hrec := follows h' (c :: Q) (P ++ [b]) (by rw [hl, List.append_assoc]; rfl)
    subst hl
    have hb : b ∈ P ++ b :: c :: Q := by simp
    have hc : c ∈ P ++ b :: c :: Q := by simp
    have ha := h'.arena.addr_even hb
    have hca := h'.arena.addr_even hc
    have hnext : s.1.next b.addr = c.ptr := by
      rw [next, resetPtr_of_even ha]
      exact h'.arena.ring.read.2.2.1.1
    simp only [List.map_cons, Follows, hnext, resetPtr_ptr hca, isUsed_ptr hca]
    refine ⟨trivial, ?_, h'.used_iff hc, hrec⟩
    rw [h'.arena.read_mem hb]
    obtain ⟨m, -, h1, h2, -⟩ := tiles_append.mp h'.arena.tiles
    exact (congrArg (· + b.size.toNat) h1).trans h2.symm

/-- **The invariant over the blocks gives the one over the headers.** -/
theorem heapOk (h' : Inv s l) : HeapOk s.1 s.2 (l.map (·.addr)) := by
  have hlive : ∀ e ∈ s.2, ∃ b ∈ l, b.req = some e.2 ∧ e.1 = b.addr + headerSize :=
    fun e he => h'.mem_live.mp he
  have hbase := h'.arena.base_even
  constructor
  · cases l with
    | nil => exact absurd rfl h'.arena.ring.ne_nil
    | cons b l =>
      rw [resetPtr_of_even hbase, h'.arena.head_free.2]
      rfl
  · exact h'.follows l [] rfl
  · rw [List.pairwise_map]
    refine h'.arena.tiles.pairwise.imp_of_mem fun {x y} hx _ hxy => ?_
    have := (h'.arena.ok x hx).header
    rw [UInt32.lt_iff_toNat_lt]
    omega
  · rw [List.map_map]
    have hsum := h'.arena.tiles.sum
    have hmap : l.map ((fun x => (s.1.size x).toNat) ∘ fun b => b.addr) =
        l.map fun b => b.size.toNat := by
      refine List.map_congr_left fun b hb => ?_
      simp only [Function.comp, h'.arena.read_mem hb]
    rw [hmap]
    omega
  · intro x hx
    obtain ⟨b, hb, rfl⟩ := List.mem_map.mp hx
    rw [h'.arena.read_mem hb, UInt32.le_iff_toNat_le]
    exact (h'.arena.ok b hb).header
  · refine ⟨isUsed_of_even hbase, fun hm => ?_⟩
    rw [resetPtr_of_even hbase] at hm
    cases l with
    | nil => exact absurd rfl h'.arena.ring.ne_nil
    | cons b l =>
      obtain ⟨hfree, haddr⟩ := h'.arena.head_free
      rw [haddr] at hm
      have := (h'.used_iff (b := b) List.mem_cons_self).mpr hm
      rw [hfree] at this
      exact absurd this (by simp)
  · intro e he
    obtain ⟨b, hb, -, heq⟩ := hlive e he
    rw [heq, UInt32.add_sub_cancel]
    exact List.mem_map_of_mem hb
  · refine (h'.live.pairwise_iff fun {x y} hd => hd.symm).mpr ?_
    refine List.pairwise_filterMap.mpr ?_
    refine h'.arena.tiles.pairwise.imp_of_mem fun {x y} hx hy hxy e he e' he' => ?_
    rw [h'.blockBytes_eq hx (payload_eq_some.mp he).2,
      h'.blockBytes_eq hy (payload_eq_some.mp he').2, Set.disjoint_left]
    exact fun z hz hz' => absurd (hz'.1.trans_lt hz.2) (Nat.not_lt.mpr hxy)
  · intro e he
    obtain ⟨b, hb, -, heq⟩ := hlive e he
    rw [h'.blockBytes_eq hb heq]
    obtain ⟨h1, h2⟩ := h'.arena.tiles.bounds hb
    exact Set.Ico_subset_Ico h1 h2
  · intro e he
    obtain ⟨b, hb, hr, heq⟩ := hlive e he
    have hroom := (h'.arena.ok b hb).room e.2 hr
    have hbound := (h'.arena.addr_bounds hb).2
    have h8 : headerSize.toNat = 8 := rfl
    have hadd : e.1.toNat = b.addr.toNat + 8 := by
      rw [heq, toNat_add_of_lt (by rw [h8]; omega), h8]
    rw [h'.blockBytes_eq hb heq, hadd]
    exact Set.Ico_subset_Ico (by omega) (by omega)

/-! ## The steps -/

theorem roundSize_toNat {size : UInt32} (hs : size.toNat + 11 < 4294967296) :
    (roundSize size).toNat = (size.toNat + 11) / 4 * 4 := by
  have h8 : headerSize.toNat = 8 := rfl
  have h4 : kmallocAlign.toNat = 4 := rfl
  have h1 : (1 : UInt32).toNat = 1 := rfl
  have hneg : -kmallocAlign = ~~~(kmallocAlign - 1) := rfl
  have ha : (size + headerSize).toNat = size.toNat + 8 := by
    rw [toNat_add_of_lt (by rw [h8]; omega), h8]
  have hb : (size + headerSize + kmallocAlign).toNat = size.toNat + 12 ∨
      size.toNat + 12 = 4294967296 := by
    by_cases hlt : size.toNat + 12 < 4294967296
    · left
      rw [toNat_add_of_lt (by rw [ha, h4]; omega), ha, h4]
    · right
      omega
  have hc : (size + headerSize + kmallocAlign - 1).toNat = size.toNat + 11 := by
    rcases hb with hb | hb
    · rw [toNat_sub_of_le (by rw [hb, h1]; omega), hb, h1]
      omega
    · have hsz : size = 4294967284 := UInt32.toNat_inj.mp (by
        have : (4294967284 : UInt32).toNat = 4294967284 := rfl
        omega)
      rw [hsz]
      rfl
  rw [roundSize, hneg, toNat_and_not_sub_one (k := 2) (by rfl), hc, h4]

theorem malloc (h' : Inv s l) {size : UInt32} (hl : Legal s (.malloc size))
    (hok : StepOk s (.malloc size)) :
    (∃ msg, step s (.malloc size) = .error (.panic msg)) ∨
      ∃ s' l', step s (.malloc size) = .ok s' ∧ Inv s' l' := by
  obtain ⟨b, hb, hbf, hbn⟩ := h'.nextFree
  obtain ⟨P, Q, rfl⟩ := List.append_of_mem hb
  have hba := h'.arena.addr_even hb
  have hptr : s.1.nextFree = b.ptr := by rw [← hbn, ptr_of_free hba hbf]
  have hround := roundSize_toNat hl
  rcases h'.arena.search_spec (roundSize size) hbf with
    ⟨msg, he⟩ | ⟨P', f, Q', hsplit, hf, -, he⟩
  · refine Or.inl ⟨msg, ?_⟩
    simp only [step, kmalloc, hptr, he, Res.error_bind]
  · have harena := h'.arena
    rw [hsplit] at harena
    have hroom : (roundSize size).toNat + 8 ≤ f.size.toNat := by
      simp only [StepOk, hptr, he, RoomForHeader, harena.ring.read.1] at hok
      exact hok
    obtain ⟨h₂, hc, hnf, -, h₂'⟩ := harena.carve size hf (by omega) (by omega) hroom (by omega)
    refine Or.inr
      ⟨(h₂, (f.addr + f.size - roundSize size + headerSize, size) :: s.2), _, ?_, h₂', ?_, ?_⟩
    · simp only [step, kmalloc, hptr, he, Res.ok_bind, hc]
    · exact ⟨⟨f.addr, f.size - roundSize size, none⟩, by simp, rfl, hnf.symm⟩
    · have hlive := h'.live
      rw [hsplit] at hlive
      have hfp : f.payload = none := by rw [Blk.payload, hf]; rfl
      simp only [List.filterMap_append, List.filterMap_cons, hfp] at hlive ⊢
      exact (hlive.cons _).trans List.perm_middle.symm

/-- `kfree` hides no live pointer but that of the block it frees. -/
theorem release_payload (b f : Blk) (Q : List Blk) :
    (release b f Q).filterMap Blk.payload = (b :: Q).filterMap Blk.payload := by
  unfold release
  split
  · rename_i hb
    simp [List.filterMap_cons, Blk.payload, hb]
  · simp [List.filterMap_cons, Blk.payload]
  · rename_i n Q hb
    split
    · rename_i hn
      simp [List.filterMap_cons, Blk.payload, hb, hn]
    · simp [List.filterMap_cons, Blk.payload, hb]
  · rename_i n Q hb
    split
    · rename_i hn
      simp [List.filterMap_cons, Blk.payload, hn]
    · simp [List.filterMap_cons, Blk.payload]

/-- A free block keeps its address through `kfree`, unless it is the one behind. -/
theorem release_free {g : Blk} (hg : g ∈ b :: Q) (hfree : g.req = none)
    (hne : ∀ n Q', Q = n :: Q' → n.req = none → g ≠ n ∨ g ∈ Q') :
    ∃ g' ∈ release b f Q, g'.req = none ∧ g'.addr = g.addr := by
  unfold release
  split
  · obtain rfl := List.mem_singleton.mp hg
    exact ⟨_, List.mem_cons_self, rfl, rfl⟩
  · exact ⟨g, by simpa using Or.inl (List.mem_singleton.mp hg), hfree, rfl⟩
  · rename_i n Q' hb
    rcases List.mem_cons.mp hg with rfl | hg
    · split
      · exact ⟨_, List.mem_cons_self, rfl, rfl⟩
      · exact ⟨_, List.mem_cons_self, rfl, rfl⟩
    · split
      · rename_i hn
        have hg' : g ∈ Q' := by
          rcases hne n Q' rfl hn with h | h
          · exact (List.mem_cons.mp hg).resolve_left h
          · exact h
        exact ⟨g, List.mem_cons_of_mem _ hg', hfree, rfl⟩
      · exact ⟨g, List.mem_cons_of_mem _ hg, hfree, rfl⟩
  · rename_i n Q' hb
    rcases List.mem_cons.mp hg with rfl | hg
    · split
      · exact ⟨g, List.mem_cons_self, hfree, rfl⟩
      · exact ⟨g, List.mem_cons_self, hfree, rfl⟩
    · split
      · rename_i hn
        have hg' : g ∈ Q' := by
          rcases hne n Q' rfl hn with h | h
          · exact (List.mem_cons.mp hg).resolve_left h
          · exact h
        exact ⟨g, List.mem_cons_of_mem _ (List.mem_cons_of_mem _ hg'), hfree, rfl⟩
      · exact ⟨g, List.mem_cons_of_mem _ (List.mem_cons_of_mem _ hg), hfree, rfl⟩

/-- A live pointer is that of a block behind another: the first block is never in use. -/
theorem split_live (h' : Inv s l) {addr : UInt32} (hl : Legal s (.free addr)) :
    ∃ e ∈ s.2, ∃ P b f Q, l = P ++ b :: f :: Q ∧ f.req = some e.2 ∧ e.1 = f.addr + headerSize ∧
      e.1 = addr := by
  obtain ⟨e, he, rfl⟩ := List.mem_map.mp hl
  obtain ⟨f, hf, hr, heq⟩ := h'.mem_live.mp he
  obtain ⟨P, Q, rfl⟩ := List.append_of_mem hf
  rcases List.eq_nil_or_concat P with rfl | ⟨P, b, rfl⟩
  · have := h'.arena.head_free.1
    rw [hr] at this
    exact absurd this (by simp)
  · exact ⟨e, he, P, b, f, Q, by simp, hr, heq, rfl⟩

theorem free (h' : Inv s l) {addr : UInt32} (hl : Legal s (.free addr))
    (hok : StepOk s (.free addr)) :
    ∃ s' l', step s (.free addr) = .ok s' ∧ Inv s' l' := by
  obtain ⟨e, he, P, b, f, Q, rfl, hr, heq, rfl⟩ := h'.split_live hl
  have hf : f ∈ P ++ b :: f :: Q := by simp
  obtain ⟨h₂, hk, -, hnf, h₂'⟩ := kfree_spec h'.arena
  rw [heq] at hok ⊢
  have hfa := h'.arena.addr_even hf
  have hba : b.addr.toNat % 2 = 0 := h'.arena.addr_even (by simp)
  refine ⟨(h₂, s.2.filter fun x => x.1 ≠ f.addr + headerSize), P ++ release b f Q, ?_, h₂', ?_, ?_⟩
  · simp only [step, hk, Res.ok_bind]
  · obtain ⟨g, hg, hgf, hgn⟩ := h'.nextFree
    simp only [hnf, ← hgn]
    rcases List.mem_append.mp hg with hg | hg
    · exact ⟨g, List.mem_append_left _ hg, hgf, rfl⟩
    · have hgQ : g ∈ b :: Q := by
        simp only [List.mem_cons] at hg ⊢
        rcases hg with hg | rfl | hg
        · exact Or.inl hg
        · rw [hr] at hgf
          exact absurd hgf (by simp)
        · exact Or.inr hg
      have hne : ∀ n Q', Q = n :: Q' → n.req = none → g ≠ n ∨ g ∈ Q' := by
        rintro n Q' rfl hn
        left
        rintro rfl
        -- the block behind `f` would be `next_free`
        have hga := h'.arena.addr_even (b := g) (by simp)
        have hsplit := h'.arena.shift
        have hnext : s.1.next f.addr = g.ptr := by
          rw [next, resetPtr_of_even hfa]
          exact hsplit.ring.read.2.2.1.1
        unfold StepOk at hok
        simp only [UInt32.add_sub_cancel, hnext, resetPtr_ptr hga, ← hgn, resetPtr_of_even hga,
          ne_eq, not_true_eq_false, false_or] at hok
        exact hsplit.shift.ring.ne_base (by simp) hok
      obtain ⟨g', hg', hfree, haddr⟩ := release_free (f := f) hgQ hgf hne
      exact ⟨g', List.mem_append_right _ hg', hfree, haddr⟩
  · have hfp : f.payload = some (f.addr + headerSize, e.2) := payload_eq_some.mpr ⟨hr, rfl⟩
    have hother : ∀ c ∈ P ++ b :: Q, ∀ x, c.payload = some x →
        decide (x.1 ≠ f.addr + headerSize) = true := by
      intro c hc x hx
      rw [decide_eq_true_iff, (payload_eq_some.mp hx).2]
      intro heq'
      have haddr : c.addr = f.addr := by
        have := congrArg (· - headerSize) heq'
        simpa only [UInt32.add_sub_cancel] using this
      refine h'.arena.shift.ring.addr_inj ?_ haddr
      simpa only [List.append_assoc, List.cons_append, List.nil_append] using hc
    have hkeep : (((P ++ b :: Q).filterMap Blk.payload).filter
        fun x => x.1 ≠ f.addr + headerSize) = (P ++ b :: Q).filterMap Blk.payload := by
      rw [List.filter_eq_self]
      intro x hx
      obtain ⟨c, hc, hcx⟩ := List.mem_filterMap.mp hx
      exact hother c hc x hcx
    have hrel : (P ++ release b f Q).filterMap Blk.payload =
        (P ++ b :: Q).filterMap Blk.payload := by
      rw [List.filterMap_append, release_payload, ← List.filterMap_append]
    refine (h'.live.filter _).trans (List.Perm.of_eq ?_)
    rw [hrel, ← hkeep]
    simp only [List.filterMap_append, List.filterMap_cons, List.filter_append, hfp]
    cases b.payload <;> simp [List.filter_cons]

theorem step (h' : Inv s l) {o : Op} (hl : Legal s o) (hok : StepOk s o) :
    (∃ msg, Kmalloc.step s o = .error (.panic msg)) ∨
      ∃ s' l', Kmalloc.step s o = .ok s' ∧ Inv s' l' := by
  cases o with
  | malloc size => exact h'.malloc hl hok
  | free addr => exact Or.inr (h'.free hl hok)

end Inv

/-! ## Runs from `init_kmalloc` -/

/-- `init_kmalloc` on a free list of page-aligned segments below 4 GiB leaves one free block. -/
theorem initKmalloc_block {pfa pfa' : PFAllocator} {F : Nat → Prop} {mem : UInt32 → UInt32}
    (hfree : pfa.FreeIn F) (hinit : initKmalloc pfa mem = .ok (pfa', h)) :
    Inv (h, []) [⟨h.base, arenaSize, none⟩] := by
  obtain ⟨L, hrep, hL⟩ := hfree
  obtain ⟨r, halloc, hr⟩ := Res.bind_eq_ok.mp hinit
  rcases PFAllocator.allocChunk_spec hrep 0x20 with ⟨msg, he⟩ | ⟨A, c, B, i, a', hF, -, hle, he, -⟩
  · exact absurd (he.symm.trans halloc) (by simp)
  · obtain rfl := Except.ok.inj (he.symm.trans halloc)
    have hc := (hL c (by rw [hF]; simp)).1
    have hblocks : 0x20 ≤ c.blocks.toNat := UInt32.le_iff_toNat_le.mp hle
    have hal := hc.aligned
    have hbd := hc.bound
    have ha4 : c.begin.toNat % 4 = 0 := by omega
    have hroom : c.begin.toNat + 0x20000 < 4294967296 := by omega
    have ha2 : c.begin.toNat % 2 = 0 := by omega
    have hreset := resetPtr_of_even ha2
    have h4 : (4 : UInt32).toNat = 4 := rfl
    have hadd : (c.begin + 4).toNat = c.begin.toNat + 4 := toNat_add_of_lt (by rw [h4]; omega)
    have hne : c.begin ≠ c.begin + 4 := ne_of_toNat_lt (by omega)
    obtain ⟨-, rfl⟩ := Prod.mk.inj (Except.ok.inj hr)
    refine ⟨⟨⟨?_, ?_⟩, ⟨rfl, rfl⟩, ha4, hroom, ?_⟩, ?_, List.Perm.refl _⟩
    · exact (ptr_of_free (b := ⟨c.begin, arenaSize, none⟩) ha2 rfl).symm
    · simp only [setSize, setNext, store, hreset, Function.update_self, Function.update_of_ne hne]
      exact ⟨trivial, rfl⟩
    · intro b hb
      obtain rfl := List.mem_singleton.mp hb
      have hsize : arenaSize.toNat = 0x20000 := rfl
      exact ⟨by simp only [hsize]; omega, by simp only [hsize], by simp⟩
    · exact ⟨_, List.mem_cons_self, rfl, rfl⟩

theorem initKmalloc_inv {pfa pfa' : PFAllocator} {F : Nat → Prop} {mem : UInt32 → UInt32}
    (hfree : pfa.FreeIn F) (hinit : initKmalloc pfa mem = .ok (pfa', h)) :
    ∃ l, Inv (h, []) l :=
  ⟨_, initKmalloc_block hfree hinit⟩

theorem run_inv {pfa pfa' : PFAllocator} {F : Nat → Prop} {mem : UInt32 → UInt32} {h₀ : Kmalloc}
    {ops : List Op} {st : State} (hfree : pfa.FreeIn F)
    (hinit : initKmalloc pfa mem = .ok (pfa', h₀))
    (hr : Run step (fun s o => Legal s o ∧ StepOk s o) (h₀, []) ops st) : ∃ l, Inv st l := by
  refine hr.invariant (I := fun s => ∃ l, Inv s l) ?_ (initKmalloc_inv hfree hinit)
  rintro s o s' ⟨l, h⟩ ⟨hl, hok⟩ hs
  rcases h.step hl hok with ⟨msg, he⟩ | ⟨s'', l', he, h'⟩
  · rw [he] at hs
    exact absurd hs (by simp)
  · rw [he] at hs
    obtain rfl := Except.ok.inj hs
    exact ⟨l', h'⟩

/-- **The heap keeps its representation invariant** in every run whose `kmalloc` calls find a block
with room for one more header and whose `kfree` calls do not join `next_free` into the block before
it; and the next such call returns or panics. -/
theorem heap_ok {pfa pfa' : PFAllocator} {F : Nat → Prop} {mem : UInt32 → UInt32} {h₀ : Kmalloc}
    {ops : List Op} {st : State} (hfree : pfa.FreeIn F)
    (hinit : initKmalloc pfa mem = .ok (pfa', h₀))
    (hr : Run step (fun s o => Legal s o ∧ StepOk s o) (h₀, []) ops st) :
    (∃ hs, HeapOk st.1 st.2 hs) ∧
      ∀ o, Legal st o → StepOk st o →
        (∃ st', step st o = .ok st') ∨ ∃ msg, step st o = .error (.panic msg) := by
  obtain ⟨l, h'⟩ := run_inv hfree hinit hr
  refine ⟨⟨_, h'.heapOk⟩, fun o hl hok => ?_⟩
  rcases h'.step hl hok with ⟨msg, he⟩ | ⟨s'', -, he, -⟩
  · exact Or.inr ⟨msg, he⟩
  · exact Or.inl ⟨s'', he⟩

/-- One MiB of free memory. -/
def oneMiB : PFAllocator.MmapEntry := ⟨0x100000, 0, 0x100000, 0, 1⟩

/-- The heap at the begin of that memory, and the allocator it was taken from. -/
def bootHeap : Res (PFAllocator × PFAllocator × Kmalloc) := do
  let pfa ← (PFAllocator.init fun _ => ⟨true, 0, 0, none⟩).addChunk oneMiB.addrLow
    (oneMiB.addrLow + oneMiB.lenLow)
  let (pfa', h) ← initKmalloc pfa fun _ => 0
  .ok (pfa, pfa', h)

/-- The state after a run from it. -/
def runFromBoot (legal : State → Op → Prop) [∀ s o, Decidable (legal s o)] (ops : List Op) :
    Option State :=
  match bootHeap with
  | .ok (_, _, h) => play step legal (h, []) ops
  | .error _ => none

/-- The allocator with the memory of one clean entry. -/
theorem freeIn_of_addChunk {e : PFAllocator.MmapEntry} {pfa : PFAllocator} (hclean : e.Clean)
    (hadd : (PFAllocator.init fun _ => ⟨true, 0, 0, none⟩).addChunk e.addrLow
    (e.addrLow + e.lenLow) = .ok pfa) :
    pfa.FreeIn fun _ => True := by
  rcases (PFAllocator.freeIn_init (fun _ => ⟨true, 0, 0, none⟩) fun _ => True).addChunk hclean
    (fun _ _ _ => trivial) with ⟨msg, he⟩ | ⟨a, he, hf⟩
  · exact absurd (he.symm.trans hadd) (by simp)
  · obtain rfl := Except.ok.inj (he.symm.trans hadd)
    exact hf

theorem bootHeap_inv {r : PFAllocator × PFAllocator × Kmalloc} (h : bootHeap = .ok r) :
    r.1.FreeIn (fun _ => True) ∧ initKmalloc r.1 (fun _ => 0) = .ok r.2 := by
  obtain ⟨pfa, hadd, h⟩ := Res.bind_eq_ok.mp h
  obtain ⟨r', hinit, h⟩ := Res.bind_eq_ok.mp h
  obtain rfl := Except.ok.inj h
  exact ⟨freeIn_of_addChunk ⟨rfl, by decide, by decide⟩ hadd, hinit⟩

theorem runFromBoot_run {legal : State → Op → Prop} [∀ s o, Decidable (legal s o)] {ops : List Op}
    {st : State} (h : runFromBoot legal ops = some st) :
    ∃ r, bootHeap = .ok r ∧ Run step legal (r.2.2, []) ops st := by
  unfold runFromBoot at h
  split at h
  · rename_i pfa pfa' h₀ he
    exact ⟨_, he, run_of_play h⟩
  · exact absurd h (by simp)

/-- Three blocks, freed out of order. -/
theorem heap_ok_three :
    ∃ r st, bootHeap = .ok r ∧
      Run step (fun s o => Legal s o ∧ StepOk s o) (r.2.2, [])
        [.malloc 100, .malloc 1, .malloc 0x1000, .free 0x11ff9c, .free 0x11ff90] st ∧
      ∃ hs, HeapOk st.1 st.2 hs := by
  have hplay : (runFromBoot (fun s o => Legal s o ∧ StepOk s o)
      [.malloc 100, .malloc 1, .malloc 0x1000, .free 0x11ff9c, .free 0x11ff90]).isSome = true := by
    decide +kernel
  obtain ⟨st, hst⟩ := Option.isSome_iff_exists.mp hplay
  obtain ⟨r, hr, hrun⟩ := runFromBoot_run hst
  obtain ⟨hfree, hinit⟩ := bootHeap_inv hr
  exact ⟨r, st, hr, hrun, (heap_ok hfree hinit hrun).1⟩

/-- **A request for the whole arena** leaves its header with size 0, pointing at itself. -/
theorem heap_breaks :
    ∃ r st, bootHeap = .ok r ∧ Run step Legal (r.2.2, []) [.malloc 0x1fff8] st ∧
      ∀ hs, ¬ HeapOk st.1 st.2 hs := by
  have hplay : (runFromBoot Legal [.malloc 0x1fff8]).any
      (fun st => st.1.size st.1.base = 0) = true := by
    decide +kernel
  obtain ⟨st, hst, h0⟩ := (Option.any_eq_true _ _).mp hplay
  obtain ⟨r, hr, hrun⟩ := runFromBoot_run hst
  refine ⟨r, st, hr, hrun, fun hs h => ?_⟩
  have h8 := h.header _ (List.mem_of_head? h.first)
  have hsize : st.1.size (resetPtr st.1.base) = st.1.size st.1.base := by
    simp only [size, resetPtr, UInt32.and_assoc, UInt32.and_self]
  rw [hsize, of_decide_eq_true h0] at h8
  exact absurd h8 (by decide)

end OwnOS.Kmalloc
