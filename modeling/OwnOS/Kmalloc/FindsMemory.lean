import OwnOS.Kmalloc.Roving

/-!
# Whether `kmalloc` finds memory

`kmalloc` searches from `next_free` on and gives up when it meets `base`: the free blocks before
`next_free`, `base` among them, are not looked at. So a request can panic while a block large enough
lies there.

* **`kmalloc_finds_iff`**: on every ring and for every request, `kmalloc` ends and serves the
  request whenever a free block exceeds it by a header, exactly when a block from `next_free` on is
  large enough, or no such block lies before `next_free`. (A `base` in use would not stop the
  search; then any block that is large enough will do, and without one the search never ends.)
-/

namespace OwnOS.Kmalloc

open Lib Lib.Word

variable {h : Kmalloc} {P Q L : List Blk} {b f : Blk} {size : UInt32}

/-- The block keeps room for a header when the request is carved off it. -/
def Blk.Exceeds (rsize : UInt32) (f : Blk) : Prop :=
  f.req = none ∧ rsize.toNat + headerSize.toNat ≤ f.size.toNat

/-- `kmalloc` returns a block. -/
def Serves (h : Kmalloc) (size : UInt32) : Prop := ∃ r, h.kmalloc size = .ok r

/-- **`kmalloc` finds memory**: it ends, and it returns a block if one exceeds the request. -/
def FindsMemory (h : Kmalloc) (L : List Blk) (size : UInt32) : Prop :=
  (Serves h size ∨ ∃ msg, h.kmalloc size = .error (.panic msg)) ∧
    ((∃ f ∈ L, f.Exceeds (roundSize size)) → Serves h size)

theorem Blk.Exceeds.fits {rsize : UInt32} (hf : f.Exceeds rsize) : f.Fits rsize :=
  ⟨hf.1, UInt32.le_iff_toNat_le.mpr (by have := hf.2; omega)⟩

theorem serves_of_search {p : UInt32} (hs : search pointers h (roundSize size) h.nextFree = .ok p) :
    Serves h size :=
  ⟨h.carve p (roundSize size), by simp only [kmalloc, hs, Res.ok_bind]⟩

theorem kmalloc_error {e : Halt} (hs : search pointers h (roundSize size) h.nextFree = .error e) :
    h.kmalloc size = .error e := by
  simp only [kmalloc, hs, Res.error_bind]

theorem FindsMemory.of_serves (hs : Serves h size) : FindsMemory h L size :=
  ⟨Or.inl hs, fun _ => hs⟩

namespace Ring

variable (h' : Ring h (P ++ b :: Q)) (hb : b.req = none) (hnf : h.nextFree = b.addr)
include h' hb hnf

theorem nextFree_eq : h.nextFree = b.ptr := by
  rw [hnf, ptr_of_free (h'.even b (by simp)) hb]

/-- A block from `next_free` on that fits serves the request. -/
theorem serves_from (hf : f ∈ b :: Q) (hfit : f.Fits (roundSize size)) : Serves h size := by
  cases hbase : isUsed h.base with
  | true =>
    obtain ⟨p, hp⟩ := h'.search_round hb hbase (List.mem_append_right _ hf) hfit
    exact serves_of_search (h'.nextFree_eq hb hnf ▸ hp)
  | false =>
    cases hfind : (b :: Q).find? fun c => decide (c.Fits (roundSize size)) with
    | none => exact absurd (decide_eq_true hfit) (List.find?_eq_none.mp hfind f hf)
    | some g =>
      obtain ⟨hg, M, N, hsplit, hM⟩ := List.find?_eq_some_iff_append.mp hfind
      have hs := h'.search_takes hb hbase hsplit (fun c hc => by simpa using hM c hc)
        (of_decide_eq_true hg)
      exact serves_of_search (h'.nextFree_eq hb hnf ▸ hs)

/-- Without one, and with `base` unused, `kmalloc` panics. -/
theorem kmalloc_panics (hbase : isUsed h.base = false)
    (hno : ∀ c ∈ b :: Q, ¬ c.Fits (roundSize size)) :
    h.kmalloc size = .error (.panic "malloc error \n") :=
  kmalloc_error (h'.nextFree_eq hb hnf ▸ h'.search_panics hb hbase hno)

/-- With `base` in use and no block that fits, `kmalloc` does not end. -/
theorem kmalloc_hangs (hbase : isUsed h.base = true)
    (hno : ∀ c ∈ P ++ b :: Q, ¬ c.Fits (roundSize size)) : h.kmalloc size = .error .hang :=
  kmalloc_error (h'.nextFree_eq hb hnf ▸ h'.search_hang hbase hno pointers (by simp) hb)

end Ring

/-- **When `kmalloc` finds memory**: the ring is `P ++ b :: Q` from `base`, with `next_free` at
`b`. -/
theorem kmalloc_finds_iff (h' : Ring h (P ++ b :: Q)) (hb : b.req = none)
    (hnf : h.nextFree = b.addr) (size : UInt32) :
    FindsMemory h (P ++ b :: Q) size ↔
      (∃ f ∈ b :: Q, f.Fits (roundSize size)) ∨
        (isUsed h.base = false ∧ ∀ f ∈ P, ¬ f.Exceeds (roundSize size)) ∨
        (isUsed h.base = true ∧ ∃ f ∈ P, f.Fits (roundSize size)) := by
  by_cases hfrom : ∃ f ∈ b :: Q, f.Fits (roundSize size)
  · obtain ⟨f, hf, hfit⟩ := hfrom
    exact iff_of_true (.of_serves (h'.serves_from hb hnf hf hfit)) (Or.inl ⟨f, hf, hfit⟩)
  · have hno : ∀ c ∈ b :: Q, ¬ c.Fits (roundSize size) := fun c hc hfit => hfrom ⟨c, hc, hfit⟩
    simp only [hfrom, false_or]
    cases hbase : isUsed h.base with
    | false =>
      have hpanic := h'.kmalloc_panics hb hnf hbase hno
      have hserves : ¬ Serves h size := by
        rintro ⟨r, hr⟩
        exact absurd (hr.symm.trans hpanic) (by simp)
      simp only [FindsMemory, hserves, false_or, imp_false, Bool.false_eq_true, false_and, or_false,
        true_and]
      constructor
      · rintro ⟨-, hex⟩ f hf he
        exact hex ⟨f, List.mem_append_left _ hf, he⟩
      · refine fun hP => ⟨⟨_, hpanic⟩, ?_⟩
        rintro ⟨f, hf, he⟩
        rcases List.mem_append.mp hf with hf | hf
        · exact hP f hf he
        · exact hno f hf he.fits
    | true =>
      simp only [Bool.true_eq_false, false_and, false_or, true_and]
      constructor
      · rintro ⟨hend, -⟩
        by_contra hP
        have hall : ∀ c ∈ P ++ b :: Q, ¬ c.Fits (roundSize size) := by
          intro c hc hfit
          rcases List.mem_append.mp hc with hc | hc
          · exact hP ⟨c, hc, hfit⟩
          · exact hno c hc hfit
        have hhang := h'.kmalloc_hangs hb hnf hbase hall
        rcases hend with ⟨r, hr⟩ | ⟨msg, hm⟩
        · exact absurd (hr.symm.trans hhang) (by simp)
        · exact absurd (hm.symm.trans hhang) (by simp)
      · rintro ⟨f, hf, hfit⟩
        obtain ⟨p, hp⟩ := h'.search_round hb hbase (List.mem_append_left _ hf) hfit
        exact .of_serves (serves_of_search (h'.nextFree_eq hb hnf ▸ hp))

/-- The block at the top freed, carved again, and so the one `next_free` is at. -/
def carveTop : List Op := [.malloc 0x10000, .malloc 0x8000, .free 0x110000, .malloc 0x9000]

/-- The blocks before `next_free` after it. -/
def carveTopBefore : List Blk :=
  [⟨0x100000, 0x7ff0, none⟩, ⟨0x107ff0, 0x8008, some 0x8000⟩]

/-- The blocks from `next_free` on. -/
def carveTopFrom : List Blk :=
  [⟨0x10fff8, 0x7000, none⟩, ⟨0x116ff8, 0x9008, some 0x9000⟩]

theorem carveTop_ring : ∃ r st, bootHeap = .ok r ∧
    Run step (fun s o => Legal s o ∧ StepOk s o) (r.2.2, []) carveTop st ∧
      HeaderRing st.1 (carveTopBefore ++ carveTopFrom) ∧ st.1.nextFree = 0x10fff8 ∧
        isUsed st.1.base = false := by
  have hplay : (runFromBoot (fun s o => Legal s o ∧ StepOk s o) carveTop).any
      (fun st => Chain st.1.mem st.1.base (carveTopBefore ++ carveTopFrom) st.1.base ∧
        st.1.base = 0x100000 ∧ st.1.nextFree = 0x10fff8) = true := by
    decide +kernel
  obtain ⟨st, hst, h⟩ := (Option.any_eq_true _ _).mp hplay
  obtain ⟨hch, hbase, hnf⟩ := of_decide_eq_true h
  obtain ⟨r, hr, hrun⟩ := runFromBoot_run hst
  refine ⟨r, st, hr, hrun, ⟨⟨hch, ?_, ?_, ?_⟩, ?_, ?_⟩, hnf, ?_⟩
  · rw [hbase]
    exact ⟨rfl, rfl, rfl, rfl, rfl⟩
  · simp [carveTopBefore, carveTopFrom]
  · simp [carveTopBefore, carveTopFrom]
  · rw [hbase]
    decide
  · simp [carveTopBefore, carveTopFrom]
  · rw [hbase]
    rfl

theorem kmalloc_finds_carveTop : ∃ r st, bootHeap = .ok r ∧
    Run step (fun s o => Legal s o ∧ StepOk s o) (r.2.2, []) carveTop st ∧
      FindsMemory st.1 (carveTopBefore ++ carveTopFrom) 0x6000 := by
  obtain ⟨r, st, hr, hrun, hring, hnf, -⟩ := carveTop_ring
  refine ⟨r, st, hr, hrun, (kmalloc_finds_iff hring.toRing rfl hnf 0x6000).mpr (Or.inl ?_)⟩
  exact ⟨⟨0x10fff8, 0x7000, none⟩, List.mem_cons_self, rfl, by decide⟩

/-- **A spurious panic**: the 0x7ff0 bytes at `base` would do for 0x7800, but lie before
`next_free`. -/
theorem kmalloc_misses : ∃ r st, bootHeap = .ok r ∧
    Run step (fun s o => Legal s o ∧ StepOk s o) (r.2.2, []) carveTop st ∧
      Ring st.1 (carveTopBefore ++ carveTopFrom) ∧ st.1.nextFree = 0x10fff8 ∧
        (0x7800 : UInt32).toNat + 11 < 4294967296 ∧
        ¬ FindsMemory st.1 (carveTopBefore ++ carveTopFrom) 0x7800 := by
  obtain ⟨r, st, hr, hrun, hring, hnf, hbase⟩ := carveTop_ring
  refine ⟨r, st, hr, hrun, hring.toRing, hnf, by decide, fun hfinds => ?_⟩
  have hno : ∀ c ∈ carveTopFrom, ¬ c.Fits (roundSize 0x7800) := by
    simp only [carveTopFrom, List.mem_cons, List.not_mem_nil, or_false]
    rintro c (rfl | rfl)
    · decide
    · decide
  have hpanic := hring.kmalloc_panics rfl hnf hbase hno
  obtain ⟨r', hr'⟩ := hfinds.2 ⟨⟨0x100000, 0x7ff0, none⟩, by simp [carveTopBefore], rfl, by decide⟩
  exact absurd (hr'.symm.trans hpanic) (by simp)

end OwnOS.Kmalloc
