import OwnOS.Kmalloc.Heap

/-!
# The roving pointer

`next_free` is where the next search of `kmalloc` starts. `kfree` joins up to three blocks into the
lowest one and never looks at it: when the block behind the freed one is `next_free`, its header is
joined away and the next search starts outside the ring.

* **`nextFree_onRing`**: in every run in which each `kmalloc` leaves room for a header in the block
  it carves from and no `kfree` joins `next_free` into the block before it, `next_free` is an unused
  header of the ring, so is every block the search finds, and `kfree` of a live block returns.
-/

namespace OwnOS.Kmalloc

open Lib Lib.Word

variable {s : State} {h : Kmalloc} {l P Q : List Blk} {b : Blk} {p : UInt32}

/-- The `n`-th pointer of the ring from `base`, with its used bit. -/
def ringPtr (h : Kmalloc) : Nat → UInt32
  | 0 => h.base
  | n + 1 => h.next (ringPtr h n)

/-- `p` is a header reachable from `base` that is not marked used. -/
def OnRing (h : Kmalloc) (p : UInt32) : Prop :=
  ∃ n, resetPtr (ringPtr h n) = resetPtr p ∧ isUsed (ringPtr h n) = false

/-- `kmalloc` leaves room for a header in the block it carves from. -/
def LeavesHeader (s : State) : Op → Prop
  | .malloc size => StepOk s (.malloc size)
  | .free _ => True

/-- `kfree` does not join `next_free` into the block before it. -/
def KeepsNextFree (s : State) : Op → Prop
  | .malloc _ => True
  | .free addr => StepOk s (.free addr)

instance (s : State) : (o : Op) → Decidable (LeavesHeader s o)
  | .malloc size => inferInstanceAs (Decidable (StepOk s (.malloc size)))
  | .free _ => isTrue trivial

instance (s : State) : (o : Op) → Decidable (KeepsNextFree s o)
  | .malloc _ => isTrue trivial
  | .free addr => inferInstanceAs (Decidable (StepOk s (.free addr)))

theorem stepOk_of (o : Op) (h₁ : LeavesHeader s o) (h₂ : KeepsNextFree s o) : StepOk s o := by
  cases o with
  | malloc size => exact h₁
  | free addr => exact h₂

/-- The pointer to a block comes after those to the blocks before it. -/
theorem Arena.ringPtr_eq (h' : Arena h (P ++ b :: Q)) : ringPtr h P.length = b.ptr := by
  induction P using List.reverseRecOn generalizing b Q with
  | nil => exact h'.chain.1
  | append_singleton P c ih =>
    have hc : Arena h (P ++ c :: b :: Q) := by
      simpa only [List.append_assoc, List.cons_append, List.nil_append] using h'
    obtain ⟨-, hnext, hch, -⟩ := hc.ring.read
    rw [List.length_append, List.length_singleton]
    change h.next (ringPtr h P.length) = b.ptr
    rw [ih hc, hnext]
    exact hch.1

/-- A free block is on the ring. -/
theorem Arena.onRing (h' : Arena h l) (hb : b ∈ l) (hfree : b.req = none) : OnRing h b.addr := by
  have ha := h'.addr_even hb
  obtain ⟨P, Q, rfl⟩ := List.append_of_mem hb
  refine ⟨P.length, ?_, ?_⟩
  · rw [h'.ringPtr_eq, resetPtr_ptr ha, resetPtr_of_even ha]
  · rw [h'.ringPtr_eq, isUsed_ptr ha, hfree]
    rfl

namespace Inv

/-- `next_free` is on the ring. -/
theorem nextFree_mem (h' : Inv s l) : OnRing s.1 s.1.nextFree := by
  obtain ⟨b, hb, hfree, haddr⟩ := h'.nextFree
  rw [← haddr]
  exact h'.arena.onRing hb hfree

/-- The search stops at a block of the ring. -/
theorem search_mem (h' : Inv s l) {rsize : UInt32}
    (hs : search pointers s.1 rsize s.1.nextFree = .ok p) : OnRing s.1 p := by
  obtain ⟨b, hb, hfree, haddr⟩ := h'.nextFree
  obtain ⟨P, Q, rfl⟩ := List.append_of_mem hb
  have hptr : s.1.nextFree = b.ptr := by rw [← haddr, ptr_of_free (h'.arena.addr_even hb) hfree]
  rw [hptr] at hs
  rcases h'.arena.search_spec rsize hfree with ⟨msg, he⟩ | ⟨P', f, Q', hsplit, hf, -, he⟩
  · exact absurd (he.symm.trans hs) (by simp)
  · obtain rfl := Except.ok.inj (he.symm.trans hs)
    have hmem : f ∈ P ++ b :: Q := by
      rw [hsplit]
      simp
    rw [ptr_of_free (h'.arena.addr_even hmem) hf]
    exact h'.arena.onRing hmem hf

/-- `kfree` of a live block returns. -/
theorem free_returns (h' : Inv s l) {addr : UInt32} (hl : Legal s (.free addr)) :
    ∃ s', Kmalloc.step s (.free addr) = .ok s' := by
  obtain ⟨e, -, P, b, f, Q, rfl, -, heq, rfl⟩ := h'.split_live hl
  obtain ⟨h₂, hk, -⟩ := kfree_spec h'.arena
  rw [← heq] at hk
  simp only [Kmalloc.step, hk, Res.ok_bind]
  exact ⟨_, rfl⟩

end Inv

/-! ## Sizes that wrap

From `0xfffffffd` on the rounded size wraps to 8, the header alone. Such a call does to the heap
what one for no bytes does. -/

/-- The size that a block of the rounded size has room for. -/
def fittedSize (size : UInt32) : UInt32 := roundSize size - headerSize

/-- The call with that size. -/
def Op.fitted : Op → Op
  | .malloc size => .malloc (fittedSize size)
  | .free addr => .free addr

/-- The state with these sizes. -/
def fitted (s : State) : State := (s.1, s.2.map fun e => (e.1, fittedSize e.2))

/-- The rounded size has room for a header, and only a live pointer is freed. -/
def HoldsHeader (s : State) : Op → Prop
  | .malloc size => 8 ≤ (roundSize size).toNat
  | .free addr => addr ∈ s.2.map Prod.fst

instance (s : State) : (o : Op) → Decidable (HoldsHeader s o)
  | .malloc size => inferInstanceAs (Decidable (8 ≤ (roundSize size).toNat))
  | .free addr => inferInstanceAs (Decidable (addr ∈ s.2.map Prod.fst))

theorem fitted_live (s : State) : (fitted s).2.map Prod.fst = s.2.map Prod.fst := by
  unfold fitted
  rw [List.map_map]
  rfl

/-- A rounded size is a multiple of the alignment. -/
theorem roundSize_mod (size : UInt32) : (roundSize size).toNat % 4 = 0 := by
  have h4 : kmallocAlign.toNat = 4 := rfl
  have hneg : -kmallocAlign = ~~~(kmallocAlign - 1) := rfl
  rw [roundSize, hneg, toNat_and_not_sub_one (k := 2) (by rfl), h4, Nat.mul_mod_left]

/-- It is rounded to the same size, and without a carry. -/
theorem roundSize_fittedSize {size : UInt32} (h : 8 ≤ (roundSize size).toNat) :
    (fittedSize size).toNat + 11 < 4294967296 ∧ roundSize (fittedSize size) = roundSize size := by
  have h8 : headerSize.toNat = 8 := rfl
  have hmod := roundSize_mod size
  have hlt := toNat_lt (roundSize size)
  have hf : (fittedSize size).toNat = (roundSize size).toNat - 8 := by
    unfold fittedSize
    rw [toNat_sub_of_le (by rw [h8]; exact h), h8]
  have hsmall : (fittedSize size).toNat + 11 < 4294967296 := by omega
  refine ⟨hsmall, UInt32.toNat_inj.mp ?_⟩
  rw [Inv.roundSize_toNat hsmall, hf]
  omega

namespace HoldsHeader

/-- With the size that fits the call may be made as well. -/
theorem fitted {o : Op} (h : HoldsHeader s o) (hok : StepOk s o) :
    Legal (fitted s) o.fitted ∧ StepOk (fitted s) o.fitted := by
  cases o with
  | malloc size =>
    obtain ⟨hsmall, hround⟩ := roundSize_fittedSize h
    refine ⟨hsmall, ?_⟩
    show RoomForHeader s.1 (roundSize (fittedSize size))
      (search _ s.1 (roundSize (fittedSize size)) _)
    rw [hround]
    exact hok
  | free addr =>
    refine ⟨?_, hok⟩
    show addr ∈ (Kmalloc.fitted s).2.map Prod.fst
    rw [fitted_live]
    exact h

/-- It does what the call does. -/
theorem step {o : Op} {s' : State} (h : HoldsHeader s o) (hs : Kmalloc.step s o = .ok s') :
    Kmalloc.step (Kmalloc.fitted s) o.fitted = .ok (Kmalloc.fitted s') := by
  cases o with
  | malloc size =>
    obtain ⟨⟨h₁, p⟩, hk, hs⟩ := Res.bind_eq_ok.mp hs
    obtain rfl := Except.ok.inj hs
    have hk' : s.1.kmalloc (fittedSize size) = .ok (h₁, p) := by
      unfold kmalloc at hk ⊢
      rw [(roundSize_fittedSize h).2]
      exact hk
    show (s.1.kmalloc (fittedSize size) >>= fun r => _) = _
    rw [hk', Res.ok_bind]
    rfl
  | free addr =>
    obtain ⟨h₁, hk, hs⟩ := Res.bind_eq_ok.mp hs
    obtain rfl := Except.ok.inj hs
    show (s.1.kfree addr >>= fun h => _) = _
    rw [hk, Res.ok_bind]
    unfold Kmalloc.fitted
    simp only [List.filter_map]
    rfl

end HoldsHeader

/-- **The roving pointer stays on the ring** in every run in which no `kfree` joins `next_free` into
the block before it; so `kmalloc` carves from the ring only, and `kfree` of a live block returns. -/
theorem nextFree_onRing {pfa pfa' : PFAllocator} {F : Nat → Prop} {mem : UInt32 → UInt32}
    {h₀ : Kmalloc} {ops : List Op} {st : State} (hfree : pfa.FreeIn F)
    (hinit : initKmalloc pfa mem = .ok (pfa', h₀))
    (hr : Run step (fun s o => (HoldsHeader s o ∧ LeavesHeader s o) ∧ KeepsNextFree s o)
    (h₀, []) ops st) :
    OnRing st.1 st.1.nextFree ∧
      (∀ size p, search pointers st.1 (roundSize size) st.1.nextFree = .ok p → OnRing st.1 p) ∧
      ∀ addr, Legal st (.free addr) → ∃ st', step st (.free addr) = .ok st' := by
  obtain ⟨l, h'⟩ : ∃ l, Inv (fitted st) l := by
    refine hr.invariant (I := fun s => ∃ l, Inv (fitted s) l) ?_ (initKmalloc_inv hfree hinit)
    rintro s o s' ⟨l, h⟩ ⟨⟨hf, hroom⟩, hkeeps⟩ hs
    obtain ⟨hl, hok⟩ := hf.fitted (stepOk_of o hroom hkeeps)
    have hs' := hf.step hs
    rcases h.step hl hok with ⟨msg, he⟩ | ⟨s'', l', he, h'⟩
    · exact absurd (he.symm.trans hs') (by simp)
    · obtain rfl := Except.ok.inj (he.symm.trans hs')
      exact ⟨l', h'⟩
  refine ⟨h'.nextFree_mem, fun _ _ hs => h'.search_mem hs, fun addr hl => ?_⟩
  have hl : Legal (fitted st) (.free addr) := by
    change addr ∈ (fitted st).2.map Prod.fst
    rw [fitted_live]
    exact hl
  obtain ⟨s', hs'⟩ := h'.free_returns hl
  obtain ⟨h₁, hk, -⟩ := Res.bind_eq_ok.mp hs'
  have hk : st.1.kfree addr = .ok h₁ := hk
  refine ⟨(h₁, st.2.filter fun e => e.1 ≠ addr), ?_⟩
  simp only [step, hk, Res.ok_bind]

/-- Three blocks, and the last of them freed and carved again: it is `next_free`. -/
def nearlyFull : List Op :=
  [.malloc 0x8000, .malloc 0x8000, .malloc 0xf000, .free 0x118000, .malloc 0x4000]

theorem nextFree_onRing_nearlyFull : ∃ r st, bootHeap = .ok r ∧
    Run step (fun s o => (HoldsHeader s o ∧ LeavesHeader s o) ∧ KeepsNextFree s o) (r.2.2, [])
      nearlyFull st ∧
      st.1.nextFree ≠ st.1.base ∧ OnRing st.1 st.1.nextFree := by
  have hplay : (runFromBoot (fun s o => (HoldsHeader s o ∧ LeavesHeader s o) ∧ KeepsNextFree s o)
      nearlyFull).any (fun st => st.1.nextFree ≠ st.1.base) = true := by
    decide +kernel
  obtain ⟨st, hst, hne⟩ := (Option.any_eq_true _ _).mp hplay
  obtain ⟨r, hr, hrun⟩ := runFromBoot_run hst
  obtain ⟨hfree, hinit⟩ := bootHeap_inv hr
  exact ⟨r, st, hr, hrun, of_decide_eq_true hne, (nextFree_onRing hfree hinit hrun).1⟩

/-- A set of pointers that holds `base` and is closed under `next` holds the ring. -/
theorem ringPtr_mem {ring : List UInt32} (hbase : h.base ∈ ring)
    (hnext : ∀ p ∈ ring, h.next p ∈ ring) (n : Nat) : ringPtr h n ∈ ring := by
  induction n with
  | zero => exact hbase
  | succ n ih => exact hnext _ ih

/-- The ring after the block before `next_free` is freed. -/
def lostRing : List UInt32 := [0x100000, 0x100fe9, 0x10fff0, 0x11bff9]

/-- **Freeing the block before `next_free`** leaves it outside the ring. -/
theorem nextFree_lost : ∃ r st, bootHeap = .ok r ∧
    Run step (fun s o => Legal s o ∧ LeavesHeader s o) (r.2.2, [])
      (nearlyFull ++ [.free 0x10fff8]) st ∧ ¬ OnRing st.1 st.1.nextFree := by
  have hplay : (runFromBoot (fun s o => Legal s o ∧ LeavesHeader s o)
      (nearlyFull ++ [.free 0x10fff8])).any (fun st => lostRing.contains st.1.base &&
        lostRing.all fun p => lostRing.contains (st.1.next p) &&
          resetPtr p != resetPtr st.1.nextFree) = true := by
    decide +kernel
  obtain ⟨st, hst, hring⟩ := (Option.any_eq_true _ _).mp hplay
  simp only [Bool.and_eq_true, List.contains_iff_mem, List.all_eq_true, bne_iff_ne] at hring
  obtain ⟨hbase, hall⟩ := hring
  obtain ⟨r, hr, hrun⟩ := runFromBoot_run hst
  refine ⟨r, st, hr, hrun, ?_⟩
  rintro ⟨n, hn, -⟩
  exact (hall _ (ringPtr_mem hbase (fun p hp => (hall p hp).1) n)).2 hn

end OwnOS.Kmalloc
