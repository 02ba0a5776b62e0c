import OwnOS.Fork.Clean
import OwnOS.Kmalloc.Heap
import OwnOS.PFAllocator.FirstFit
import OwnOS.VarMem.StraightFork

/-!
# Forks fill the table

A fork takes a slot of the process table, descriptors of the page-frame allocator and memory of the
heap. On a machine with 2 GiB it takes two descriptors (`Rising.fork`), so the 32 slots run out
before the 128 descriptors do: from the processes that `kinit` makes there (`Ready`) every `fork`
returns while a slot is free (`fork_returns`), and the next one writes through NULL
(`fork_uses_null`).
-/

namespace OwnOS

open Lib VarMem

/-! ## Memory -/

namespace Kmalloc

variable {h : Kmalloc} {n : ℕ}

/-- The search of `kmalloc` starts at a free block that has `n` bytes beside its header. -/
def HasRoom (h : Kmalloc) (n : ℕ) : Prop :=
  ∃ f Q P, Arena h (P ++ f :: Q) ∧ f.req = none ∧ h.nextFree = f.addr ∧ n + 8 ≤ f.size.toNat

/-- **`kmalloc` returns** from a heap that has room, and takes what it rounds the request to. -/
theorem HasRoom.kmalloc (size : UInt32) (hroom : HasRoom h (n + (roundSize size).toNat))
    (hsize : size.toNat + 11 < 4294967296) :
    ∃ h' a, h.kmalloc size = .ok (h', a) ∧ HasRoom h' n := by
  obtain ⟨f, Q, P, harena, hfree, hnext, hn⟩ := hroom
  have hround := Inv.roundSize_toNat hsize
  have hptr : h.nextFree = f.ptr := by
    rw [hnext, ptr_of_free (harena.addr_even (by simp)) hfree]
  have hbase := isUsed_of_even harena.base_even
  have hfit : f.Fits (roundSize size) := ⟨hfree, UInt32.le_iff_toNat_le.mpr (by omega)⟩
  have hsearch := harena.ring.toRing.search_takes (M := []) hfree hbase rfl
    (fun c hc => absurd hc (by simp)) hfit
  obtain ⟨h₂, hcarve, hnf, -, harena₂⟩ := harena.carve size hfree (by omega) (by omega)
    (show (roundSize size).toNat + 8 ≤ f.size.toNat by omega) (by omega)
  have hsub : (f.size - roundSize size).toNat = f.size.toNat - (roundSize size).toNat :=
    Word.toNat_sub_of_le (by omega)
  refine ⟨h₂, f.addr + f.size - roundSize size + headerSize, ?_,
    ⟨⟨f.addr, f.size - roundSize size, none⟩, _, P, harena₂, rfl, hnf, ?_⟩⟩
  · simp only [Kmalloc.kmalloc, hptr, hsearch, Res.ok_bind, hcarve]
  · simp only [hsub]
    omega

end Kmalloc

namespace Kernel

variable {k k' : Kernel} {heap : Kmalloc} {pid : Int} {n : ℕ}

theorem newMm_returns (heap : Kmalloc) (h : heap.HasRoom (n + 40)) :
    ∃ heap', newMm heap = .ok heap' ∧ heap'.HasRoom n := by
  have h8 : (Kmalloc.roundSize sizeofMmStruct).toNat = 16 := by decide
  have h16 : (Kmalloc.roundSize sizeofMmRegion).toNat = 24 := by decide
  obtain ⟨heap₁, a₁, h₁, hroom₁⟩ := Kmalloc.HasRoom.kmalloc (n := n + 24) sizeofMmStruct
    (by rw [h8]; exact h) (by decide)
  obtain ⟨heap₂, a₂, h₂, hroom₂⟩ := Kmalloc.HasRoom.kmalloc (n := n) sizeofMmRegion
    (by rw [h16]; exact hroom₁) (by decide)
  refine ⟨heap₂, ?_, hroom₂⟩
  unfold newMm
  rw [h₁, Res.ok_bind]
  simp only
  rw [h₂, Res.ok_bind]

/-- The regions of `clone_mm`, with the memory for them. -/
theorem addRegions_returns {cr3 : UInt32} : ∀ {l : List Region} {m m' : Machine} {heap : Kmalloc},
    l.foldlM (fun m p => m.cloneRegion p cr3) m = .ok m' → heap.HasRoom (n + 24 * l.length) →
    ∃ heap', l.foldlM (addRegion cr3) (m, heap) = .ok (m', heap') ∧ heap'.HasRoom n
  | [], m, m', heap, h, hroom => by
    obtain rfl := Except.ok.inj h
    exact ⟨heap, rfl, hroom⟩
  | p :: l, m, m', heap, h, hroom => by
    rw [List.foldlM_cons] at h
    obtain ⟨m₁, h₁, h⟩ := Res.bind_eq_ok.mp h
    have h16 : (Kmalloc.roundSize sizeofMmRegion).toNat = 24 := by decide
    obtain ⟨heap₁, a, ha, hroom₁⟩ := Kmalloc.HasRoom.kmalloc (n := n + 24 * l.length)
      (h := heap) sizeofMmRegion (by
        rw [h16]
        rw [List.length_cons] at hroom
        exact hroom) (by decide)
    obtain ⟨heap', hrest, hroom'⟩ := addRegions_returns h hroom₁
    refine ⟨heap', ?_, hroom'⟩
    have hone : addRegion cr3 (m, heap) p = .ok (m₁, heap₁) := by
      unfold addRegion
      simp only
      rw [ha, Res.ok_bind]
      simp only
      rw [h₁, Res.ok_bind]
    rw [List.foldlM_cons, hone, Res.ok_bind, hrest]

theorem makeSysProcHeap_returns (h : heap.HasRoom (n + 88)) :
    ∃ heap', makeSysProcHeap heap = .ok heap' ∧ heap'.HasRoom n := by
  have h16 : (Kmalloc.roundSize sizeofMmRegion).toNat = 24 := by decide
  obtain ⟨heap₁, h₁, hroom₁⟩ := newMm_returns (n := n + 48) heap h
  obtain ⟨heap₂, a₂, h₂, hroom₂⟩ := Kmalloc.HasRoom.kmalloc (n := n + 24) sizeofMmRegion
    (by rw [h16]; exact hroom₁) (by decide)
  obtain ⟨heap₃, a₃, h₃, hroom₃⟩ := Kmalloc.HasRoom.kmalloc (n := n) sizeofMmRegion
    (by rw [h16]; exact hroom₂) (by decide)
  refine ⟨heap₃, ?_, hroom₃⟩
  unfold makeSysProcHeap
  rw [h₁, Res.ok_bind]
  simp only [Machine.stackRegions, List.foldlM_cons, List.foldlM_nil, h₂, h₃,
    Res.ok_bind, Res.pure_eq]

end Kernel

/-! ## Page frames -/

namespace PFAllocator

variable {a : PFAllocator} {L : Head → List Node} {s n j : ℕ} {nums : List UInt16}

/-- The pages of a row of requests. -/
def pages (nums : List UInt16) : ℕ := (nums.map UInt16.toNat).sum

@[simp] theorem pages_cons (num : UInt16) (nums : List UInt16) :
    pages (num :: nums) = num.toNat + pages nums := rfl

theorem eq_frameAddr {addr : UInt32} (h : addr.toNat = s * 4096) (hs : s < 0x100000) :
    addr = frameAddr s := by
  rw [← UInt32.toNat_inj, h, frameAddr_toNat hs, Nat.mul_comm]

/-- The chunks follow one another, until the descriptors run out. -/
theorem OneFree.answers (h : OneFree a s n j L) (hj : j ≤ 127)
    (hn : pages (nums.take (127 - j)) < n) (i : ℕ) : (a.answers nums)[i]? =
      if i < nums.length ∧ j + i < 127 then some (frameAddr (s + pages (nums.take i)))
      else none := by
  induction nums generalizing a s n j L i with
  | nil => simp [PFAllocator.answers]
  | cons num nums ih =>
    rcases Nat.eq_or_lt_of_le hj with rfl | hlt
    · obtain ⟨e, he⟩ := h.full num
      rw [PFAllocator.answers, he, if_neg (by omega)]
      rfl
    · have htake : (num :: nums).take (127 - j) = num :: nums.take (127 - (j + 1)) := by
        rw [show 127 - j = 127 - (j + 1) + 1 by omega, List.take_succ_cons]
      rw [htake, pages_cons] at hn
      obtain ⟨a', addr, L', he, haddr, h'⟩ := h.alloc num hlt (by omega)
      have hbound := h.bound
      rw [PFAllocator.answers, he, eq_frameAddr haddr (by omega)]
      cases i with
      | zero =>
        rw [if_pos ⟨by simp, by omega⟩]
        rfl
      | succ i =>
        simp only [List.getElem?_cons_succ, List.length_cons, List.take_succ_cons, pages_cons]
        rw [ih h' (by omega) (by omega)]
        refine if_congr (by omega) ?_ rfl
        rw [Nat.add_assoc]

/-- A row of requests returns while there are descriptors and frames. -/
theorem OneFree.allocChunks (h : OneFree a s n j L) (nums : List UInt16)
    (hj : j + nums.length ≤ 127) (hn : pages nums < n) :
    ∃ a' L', a.allocChunks nums = .ok a' ∧
      OneFree a' (s + pages nums) (n - pages nums) (j + nums.length) L' := by
  induction nums generalizing a s n j L with
  | nil => exact ⟨a, L, rfl, h⟩
  | cons num nums ih =>
    rw [pages_cons] at hn ⊢
    rw [List.length_cons] at hj ⊢
    obtain ⟨a₁, addr, L₁, he, -, h₁⟩ := h.alloc num (by omega) (by omega)
    obtain ⟨a', L', he', h'⟩ := ih h₁ (by omega) (by omega)
    refine ⟨a', L', ?_, ?_⟩
    · rw [PFAllocator.allocChunks, he, Res.ok_bind]
      exact he'
    · rw [show s + (num.toNat + pages nums) = s + num.toNat + pages nums by omega,
        show n - (num.toNat + pages nums) = n - num.toNat - pages nums by omega,
        show j + (nums.length + 1) = j + 1 + nums.length by omega]
      exact h'

theorem OneFree.freeIn (h : OneFree a s n j L) : FreeIn a fun _ => True := by
  obtain ⟨m, hm, hbegin, hblocks⟩ := h.free
  have hbound := h.bound
  refine ⟨L, h.rep, fun x hx => ⟨?_, fun _ _ => trivial⟩⟩
  rw [hm] at hx
  obtain rfl := List.mem_singleton.mp hx
  exact ⟨by omega, by omega⟩

end PFAllocator

namespace Kernel

variable {vm vm' : Machine} {pfa : PFAllocator} {s n j t : ℕ} {nums : List UInt16}
  {L : PFAllocator.Head → List PFAllocator.Node}

theorem answeredBy_old (use : Use) {i : ℕ} (hi : i < vm.handed.length) :
    (answeredBy vm pfa nums).answers use i = vm.answers use i := if_pos hi

theorem answeredBy_new (use : Use) (i : ℕ) :
    (answeredBy vm pfa nums).answers use (vm.handed.length + i) =
      ((pfa.answers nums)[i]?).getD 1 := by
  unfold answeredBy
  simp [List.getD_eq_getElem?_getD]

/-- All answers are low where the frames end below 4 MiB. -/
theorem lowAnswers_answeredBy (hold : LowAnswers vm) (h : PFAllocator.OneFree pfa s n j L)
    (h0 : 0 < s) (hj : j ≤ 127) (hn : PFAllocator.pages (nums.take (127 - j)) < n)
    (hlow : ∀ i < 127 - j, s + PFAllocator.pages (nums.take i) < 1024) :
    LowAnswers (answeredBy vm pfa nums) := by
  have hnew : ∀ i : ℕ, (((pfa.answers nums)[i]?).getD 1).toNat < 0x400000 ∧
      ((pfa.answers nums)[i]?).getD 1 ≠ 0 := by
    intro i
    rw [h.answers hj hn i]
    split
    · rename_i hi
      have hlt := hlow i (by omega)
      have hto := frameAddr_toNat (f := s + PFAllocator.pages (nums.take i)) (by omega)
      refine ⟨by simp only [Option.getD_some, hto]; omega, fun he => ?_⟩
      have := congrArg UInt32.toNat he
      rw [Option.getD_some, hto] at this
      have h00 : (0 : UInt32).toNat = 0 := rfl
      omega
    · exact ⟨by decide, by decide⟩
  refine ⟨fun use k hu => ?_, fun k => ?_⟩
  · by_cases hk : k < vm.handed.length
    · rw [answeredBy_old use hk]
      exact hold.touched use k hu
    · obtain ⟨i, rfl⟩ := Nat.exists_eq_add_of_le (not_lt.mp hk)
      rw [answeredBy_new]
      exact (hnew i).1
  · by_cases hk : k < vm.handed.length
    · rw [answeredBy_old .pageDir hk]
      exact hold.dirs k
    · obtain ⟨i, rfl⟩ := Nat.exists_eq_add_of_le (not_lt.mp hk)
      rw [answeredBy_new]
      exact (hnew i).2

/-- The allocator has one free segment above all chunks of the machine, descriptors for `t` requests
of one page, and whatever it can answer lies below 4 MiB. -/
def Frames (pfa : PFAllocator) (vm : Machine) (t : ℕ) : Prop :=
  ∃ s n j L, PFAllocator.OneFree pfa s n j L ∧ 0 < s ∧ j + t ≤ 127 ∧ 127 - j < n ∧
    s + (127 - j) ≤ 1024 ∧
    ∀ g ∈ vm.handed, g.addr.toNat / 4096 + g.num ≤ s

theorem pages_onePage {i : ℕ} (hi : i ≤ 128) : PFAllocator.pages (onePage.take i) = i := by
  unfold onePage PFAllocator.pages
  rw [List.take_replicate, List.map_replicate, List.sum_replicate]
  have h1 : (1 : UInt16).toNat = 1 := rfl
  have h128 : PFAllocator.maxNumSeg = 128 := rfl
  rw [h1, h128, smul_eq_mul]
  omega

/-- **Two requests of one page**: what the machine sees of them, and the allocator after them. -/
theorem Frames.spend (h : Frames pfa vm (t + 2)) (hold : LowAnswers vm) :
    LowAnswers (answeredBy vm pfa onePage) ∧ ∃ s, Rising (answeredBy vm pfa onePage) s (t + 2) ∧
      ∀ vm', Rising vm' (s + 2) t → vm'.handed.length = vm.handed.length + 2 →
        ∃ pfa', taken pfa onePage vm vm' = .ok pfa' ∧ Frames pfa' vm' t := by
  obtain ⟨s, n, j, L, hone, h0, hj, hn, hs, hbelow⟩ := h
  have hpages := pages_onePage (i := 127 - j) (by omega)
  have hlen : onePage.length = 128 := List.length_replicate
  refine ⟨lowAnswers_answeredBy hold hone h0 (by omega) (by omega) fun i hi => ?_, s,
    ⟨fun use i hi => ?_, hbelow, by omega⟩, fun vm' hr hlen' => ?_⟩
  · rw [pages_onePage (by omega)]
    omega
  · show (answeredBy vm pfa onePage).answers use (vm.handed.length + i) = _
    rw [answeredBy_new, hone.answers (by omega) (by omega), if_pos (by omega), Option.getD_some,
      pages_onePage (by omega)]
  · have htake : onePage.take (vm'.handed.length - vm.handed.length) = [1, 1] := by
      rw [hlen', Nat.add_sub_cancel_left]
      rfl
    have htwo : PFAllocator.pages [1, 1] = 2 := rfl
    obtain ⟨pfa', L', he, h'⟩ := hone.allocChunks [1, 1] (by simp; omega) (by omega)
    refine ⟨pfa', by rw [taken, htake, he], s + 2, n - 2, j + 2, L',
      h', by omega, by omega, by omega, by omega, hr.below⟩

end Kernel

namespace Kernel

variable {k k' : Kernel} {heap : Kmalloc} {pid : Int} {n t : ℕ} {b : UInt32} {role : Roles}
  {A : ℕ → List UInt32}

/-! ## One process more -/

/-- The address spaces with the allocator behind them. -/
theorem spaces_answeredBy {vm : Machine} {pfa : PFAllocator} {nums : List UInt16}
    (h : Spaces vm b role A) (hlow : LowAnswers (answeredBy vm pfa nums)) :
    Spaces (answeredBy vm pfa nums) b role A :=
  h.reanswer (fun use _ hi => answeredBy_old use hi) hlow

/-- `makeSysProc` returns. -/
theorem makeSysProc_returns (hs : Spaces k.vm b role A) (hn : 512 ≤ k.vm.nrValidPages)
    (hframes : Frames k.pfa k.vm (t + 2)) (hroom : k.heap.HasRoom (n + 88))
    (hprocs : k.vm.procs.length < Machine.nrProc) :
    ∃ k' q role', k.makeSysProc = .ok k' ∧ Spaces k'.vm b role' A ∧
      k'.vm.nrValidPages = k.vm.nrValidPages ∧ Frames k'.pfa k'.vm t ∧ k'.heap.HasRoom n ∧
      k'.vm.procs = k.vm.procs ++ [q] ∧ k'.sched = k.sched := by
  obtain ⟨hlow, s, hrise, hspend⟩ := hframes.spend hs.owned.lowFrames
  have hs₀ := spaces_answeredBy hs hlow
  obtain ⟨vm, q, hvm, hrise', hlen, hq, hn', -⟩ := hrise.makeSysProc hs₀.owned hn hprocs
  obtain ⟨role', hs', -⟩ := hs₀.makeSysProc hvm
  obtain ⟨pfa, hpfa, hframes'⟩ := hspend vm hrise' hlen
  obtain ⟨heap, hheap, hroom'⟩ := makeSysProcHeap_returns hroom
  refine ⟨{ k with vm, heap, pfa }, q, role', ?_, hs', hn', hframes', hroom', hq, rfl⟩
  unfold makeSysProc
  rw [hvm, Res.ok_bind, hpfa, Res.ok_bind, hheap, Res.ok_bind]

/-- A kernel with 2 GiB, and frames and memory for all the processes of the table. -/
structure Ready (k : Kernel) : Prop where
  sched : Sched.Inv k.sched
  inStep : InStep k
  spaces : ∃ b role A, Spaces k.vm b role A
  straight : 512 ≤ k.vm.nrValidPages
  frames : Frames k.pfa k.vm (2 * (32 - k.vm.procs.length))
  room : k.heap.HasRoom (0x10000 - 88 * k.vm.procs.length)
  running : ∃ current p, k.sched.pCurrent = some current ∧ k.vm.procs[current.val]? = some p

/-- The pid `fork` looks up is that of the new process, so `wakeup` finds one. -/
theorem wakeup_clone {clone : Sched.ProcPtr} (current : Sched.ProcPtr) (h : Sched.Inv k.sched)
    (hclone : k.sched.isFree clone = true) : ∃ s,
    ({ k.sched.withProc clone (k.sched.cloneOf current) with pidGen := k.sched.pidGen + 1 } :
      Sched).wakeup k.sched.pidGen = .ok s ∧ Sched.Inv s ∧
    s.isFree = Function.update k.sched.isFree clone false ∧ s.pCurrent = k.sched.pCurrent := by
  have hinv : Sched.Inv { k.sched.withProc clone (k.sched.cloneOf current) with
      pidGen := k.sched.pidGen + 1 } :=
    (h.alloc hclone (x := k.sched.cloneOf current) rfl).congr rfl rfl fun _ => rfl
  obtain ⟨p, hp⟩ : ∃ p, ({ k.sched.withProc clone (k.sched.cloneOf current) with
      pidGen := k.sched.pidGen + 1 } : Sched).getProc k.sched.pidGen = some p := by
    refine Option.isSome_iff_exists.mp (List.find?_isSome.mpr ⟨clone, List.mem_finRange clone, ?_⟩)
    simp [Sched.withProc, Sched.cloneOf]
  obtain ⟨t, hput, hinv', heq⟩ := hinv.wakeup hp
  refine ⟨_, heq, hinv', (wakeup_isFree heq).trans rfl, ?_⟩
  exact hput.moves.pCurrent

/-- The memory part of `fork`: its chunks, and the memory of the heap. -/
theorem copyProcess_returns {vm m₁ m₂ m₃ : Machine} {pdir : UInt32} {src : Proc}
    (h₁ : vm.allocChunk .pageDir 1 = .ok (m₁, pdir)) (h₂ : m₁.copyKernelDir pdir = .ok m₂)
    (h₃ : src.regions.foldlM (fun m p => m.cloneRegion p pdir) m₂ = .ok m₃)
    (hroom : heap.HasRoom (n + 24 * src.regions.length + 40)) :
    ∃ heap', copyProcess vm heap src = .ok ((m₃, heap'), pdir) ∧ heap'.HasRoom n := by
  obtain ⟨heap₁, hmm, hroom₁⟩ := newMm_returns (n := n + 24 * src.regions.length) heap hroom
  obtain ⟨heap₂, hadd, hroom₂⟩ := addRegions_returns h₃ hroom₁
  refine ⟨heap₂, ?_, hroom₂⟩
  unfold copyProcess cloneMm
  rw [hmm, Res.ok_bind, h₁, Res.ok_bind]
  simp only
  rw [h₂, Res.ok_bind, hadd, Res.ok_bind]

/-- The first free slot is the next of the machine. -/
theorem InStep.slot_eq {clone : Sched.ProcPtr} (h : InStep k) (hclone : k.sched.isFree clone = true)
    (hfirst : ∀ p < clone, k.sched.isFree p = false) : clone.val = k.vm.procs.length := by
  refine le_antisymm ?_ ?_
  · by_contra hlt
    have hp : (⟨k.vm.procs.length, by omega⟩ : Sched.ProcPtr) < clone := not_le.mp hlt
    exact absurd ((h.slots _).mp (hfirst _ hp)) (lt_irrefl _)
  · by_contra hlt
    exact absurd (hclone.symm.trans ((h.slots clone).mpr (not_le.mp hlt))) (by simp)

/-- **With a free slot `fork` returns**, and leaves a kernel like it. -/
theorem fork_returns (h : Ready k) (hfree : ¬ k.TableFull) :
    ∃ pid k', k.fork = .ok (pid, k') ∧ Ready k' := by
  obtain ⟨b, role, A, hspaces⟩ := h.spaces
  obtain ⟨current, src, hcur, hsrc⟩ := h.running
  obtain ⟨clone, hclone, hfirst, halloc⟩ := allocProc_free hfree
  have hslot := h.inStep.slot_eq hclone hfirst
  have hlen : k.vm.procs.length < 32 := hslot ▸ clone.isLt
  have hvcur : k.vm.pCurrent = some current.val := by
    rw [h.inStep.current, hcur]
    rfl
  -- the two chunks
  have hframes := h.frames
  rw [show 2 * (32 - k.vm.procs.length) = 2 * (32 - (k.vm.procs.length + 1)) +
    2 by omega] at hframes
  obtain ⟨hlow, s, hrise, hspend⟩ := hframes.spend hspaces.owned.lowFrames
  have hspaces₀ := spaces_answeredBy hspaces hlow
  obtain ⟨vm, hvm, hrise', hhanded, -⟩ := hrise.fork hspaces₀ h.straight hlen hvcur hsrc
  obtain ⟨pfa, hpfa, hframes'⟩ := hspend vm hrise' hhanded
  obtain ⟨m₁, pdir, m₂, m₃, m₄, stack, m₅, h₁, h₂, h₃, h₄, h₅, rfl⟩ :=
    @VarMem.fork_parts (answeredBy k.vm k.pfa onePage) _ _ _ hvcur hsrc hvm
  obtain ⟨role', i, p, q, hspaces', -, -, hprocs, hcur', hpages, -⟩ := hspaces₀.fork hvm
  obtain ⟨sched, hwake, hinv, hsfree, hscur⟩ := wakeup_clone current h.sched hclone
  -- the memory of the heap
  obtain ⟨-, -, hregions⟩ := hspaces.owned.procs src (List.mem_of_getElem? hsrc)
  have hroom :
        k.heap.HasRoom (0x10000 - 88 * (k.vm.procs.length + 1) + 24 * src.regions.length + 40) := by
    have htwo : src.regions.length = 2 := by rw [hregions]; rfl
    rw [htwo, show 0x10000 - 88 * (k.vm.procs.length + 1) + 24 * 2 + 40 =
      0x10000 - 88 * k.vm.procs.length by omega]
    exact h.room
  obtain ⟨heap, hcopy, hroom'⟩ := copyProcess_returns h₁ h₂ h₃ hroom
  have hstack : setupStack m₃ src = .ok (m₅, stack + 0x1000 - 4) := by
    unfold setupStack
    rw [h₄, Res.ok_bind]
    simp only
    rw [h₅, Res.ok_bind]
  have hprocs' : m₅.procs ++ [(⟨pdir, src.regions, stack + 0x1000 - 4⟩ : Proc)] =
      k.vm.procs ++ [q] :=
    hprocs
  have hplen : (m₅.procs ++ [(⟨pdir, src.regions, stack + 0x1000 - 4⟩ : Proc)]).length =
      k.vm.procs.length + 1 := by
    rw [hprocs', List.length_append]
    rfl
  refine ⟨k.sched.pidGen, ⟨sched, _, heap, pfa⟩, ?_, ⟨hinv, ⟨?_, ?_⟩, ⟨b, role', A, hspaces'⟩,
    h.straight.trans_eq hpages.symm, ?_, ?_, ⟨current, src, hscur.trans hcur, ?_⟩⟩⟩
  · have hpfa' : taken k.pfa onePage k.vm m₅ = .ok pfa := hpfa
    rw [fork_eq halloc hcur, hsrc, show Que.follow (some src) = .ok src from rfl,
      lift_ok, ok_bind, hcopy, lift_ok, ok_bind, hstack, lift_ok, ok_bind, hpfa', lift_ok, ok_bind,
      hwake, lift_ok, ok_bind]
  · intro p
    change sched.isFree p = false ↔ p.val < (m₅.procs ++ _).length
    rw [hplen, hsfree]
    by_cases hp : p = clone
    · subst hp
      simp [hslot]
    · rw [Function.update_of_ne hp, h.inStep.slots p]
      have : p.val ≠ clone.val := fun e => hp (Fin.ext e)
      omega
  · rw [hcur']
    change k.vm.pCurrent = sched.pCurrent.map Fin.val
    rw [hvcur, hscur, hcur]
    rfl
  · change Frames pfa _ (2 * (32 - (m₅.procs ++ _).length))
    rw [hplen]
    exact hframes'
  · change heap.HasRoom (0x10000 - 88 * (m₅.procs ++ _).length)
    rw [hplen]
    exact hroom'
  · change (m₅.procs ++ _)[current.val]? = _
    rw [hprocs', List.getElem?_append_left (List.getElem?_eq_some_iff.mp hsrc).1]
    exact hsrc

/-! ## A run that fills the table -/

/-- **Forks return as long as there are slots.** -/
theorem forks_return (h : Ready k) : ∀ n ≤ k.freeSlots, ∃ k', Forks k n k' ∧ Ready k'
  | 0, _ => ⟨k, .nil k, h⟩
  | n + 1, hn => by
    obtain ⟨k₁, hrun, h₁⟩ := forks_return h n (by omega)
    have hfree : ¬ k₁.TableFull := by
      rw [tableFull_iff]
      have := hrun.freeSlots
      omega
    obtain ⟨current, -, hcur, -⟩ := h₁.running
    obtain ⟨pid, k', hfork, h'⟩ := fork_returns h₁ hfree
    exact ⟨k', .fork hrun ⟨rfl, by simp [hcur]⟩ hfork, h'⟩

/-- `init_tasks` returns, with two processes then. -/
theorem initTasks_returns (hs : Spaces k.vm b role A) (hn : 512 ≤ k.vm.nrValidPages)
    (hframes : Frames k.pfa k.vm 64) (hroom : k.heap.HasRoom 0x10000) (hprocs : k.vm.procs = [])
    (hsched : k.sched = Sched.boot Sched.irqQueInit) :
    ∃ k', k.initTasks = .ok k' ∧ Ready k' ∧ k'.freeSlots = 30 := by
  have hlen : k.vm.procs.length < Machine.nrProc := by
    rw [hprocs]
    decide
  obtain ⟨k₁, p, role₁, h₁, hs₁, hn₁, hframes₁, hroom₁, hp₁, hsched₁⟩ := makeSysProc_returns
    (n := 0x10000 - 88) (t := 62) hs hn hframes (by
      rw [show 0x10000 - 88 + 88 = 0x10000 by norm_num]
      exact hroom) hlen
  rw [hprocs] at hp₁
  obtain ⟨k₂, q, role₂, h₂, hs₂, hn₂, hframes₂, hroom₂, hp₂, hsched₂⟩ := makeSysProc_returns
    (n := 0x10000 - 88 * 2) (t := 60) hs₁ (hn₁ ▸ hn) hframes₁ (by
      rw [show 0x10000 - 88 * 2 + 88 = 0x10000 - 88 by norm_num]
      exact hroom₁) (by simp [hp₁, Machine.nrProc])
  have hprocs₂ : k₂.vm.procs = [p, q] := by
    rw [hp₂, hp₁]
    rfl
  have hrun : k₂.vm.run 0 = .ok { k₂.vm with pCurrent := some 0, cr3 := some p.cr3 } := by
    have hp₀ : k₂.vm.procs[0]? = some p := by
      rw [hprocs₂]
      rfl
    unfold Machine.run
    simp only [hp₀]
  -- the table
  have hplay : ((Sched.boot Sched.irqQueInit).initTasks.toOption).any
    (fun s => s.pCurrent = some 0 ∧
      ∀ p, s.isFree p = decide (2 ≤ p.val)) = true := by
    decide +kernel
  obtain ⟨s, hsome, hplay⟩ := (Option.any_eq_true _ _).mp hplay
  have htasks := Res.of_toOption hsome
  obtain ⟨hcur, hfree⟩ := of_decide_eq_true hplay
  obtain ⟨pinit, pkernel, t, -, -, -, -, -, hinv⟩ := Sched.initTasks_inv (Sched.boot_inv _) htasks
  refine ⟨{ k₂ with sched := s, vm := { k₂.vm with pCurrent := some 0, cr3 := some p.cr3 } }, ?_,
    ⟨hinv, ⟨fun i => ?_, ?_⟩, ⟨b, role₂, A, (hs₂.run hrun).1⟩, ?_, ?_, ?_, ⟨0, p, hcur, ?_⟩⟩, ?_⟩
  · have hsched' : k₂.sched.initTasks = .ok s := by rw [hsched₂, hsched₁, hsched, htasks]
    unfold initTasks
    rw [h₁, Res.ok_bind, h₂, Res.ok_bind, hsched', Res.ok_bind, hrun, Res.ok_bind]
  · change s.isFree i = false ↔ i.val < k₂.vm.procs.length
    rw [hfree, hprocs₂, decide_eq_false_iff_not, not_le]
    rfl
  · change some 0 = s.pCurrent.map Fin.val
    rw [hcur]
    rfl
  · show 512 ≤ k₂.vm.nrValidPages
    rw [hn₂, hn₁]
    exact hn
  · change Frames k₂.pfa _ (2 * (32 - k₂.vm.procs.length))
    rw [hprocs₂]
    exact hframes₂
  · change k₂.heap.HasRoom (0x10000 - 88 * k₂.vm.procs.length)
    rw [hprocs₂]
    exact hroom₂
  · change k₂.vm.procs[0]? = some p
    rw [hprocs₂]
    rfl
  · unfold freeSlots
    simp only [hfree]
    decide +kernel

/-! ## A machine with 2 GiB -/

/-- 2 GiB from 1 MiB on, where the kernel is loaded. -/
def twoGiB : PFAllocator.MultibootInfo where
  flags := 0x60
  mmap := [⟨0x100000, 0, 0x7ff00000, 0, 1⟩]
  sections := [⟨0x100000, 0x40000⟩]

/-- `mbi_read` leaves the memory above the kernel. -/
theorem twoGiB_read :
    ∃ g L, PFAllocator.mbiRead ⟨PFAllocator.init fun _ => ⟨true, 0, 0, none⟩, 0⟩ twoGiB
    PFAllocator.multibootBootloaderMagic = .ok g ∧ g.memSize = 0x80000000 ∧
      PFAllocator.OneFree g.pfa 320 0x7fec0 0 L := by
  have hcut : ∀ g, PFAllocator.readMmap ⟨PFAllocator.init fun _ => ⟨true, 0, 0, none⟩, 0⟩
    twoGiB.mmap =
      .ok g → PFAllocator.SectionsOk g.pfa twoGiB.sections := by
    intro g hg
    obtain rfl := Except.ok.inj hg
    exact ⟨by unfold PFAllocator.RemoveOk; decide, fun a _ => trivial⟩
  have hmap : ∀ m ∈ twoGiB.mmap, m.available → m.Clean := by
    intro m hm _
    obtain rfl := List.mem_singleton.mp hm
    exact ⟨rfl, by decide, by decide⟩
  rcases @PFAllocator.mbiRead_freeIn (fun _ => ⟨true, 0, 0, none⟩) 0 twoGiB (by decide) (by decide)
    (by decide) hmap (by unfold PFAllocator.Shdr.Clean; decide) hcut with
      ⟨msg, he⟩ | ⟨g, he, L, hrep, -⟩
  · exact absurd he (by rintro ⟨⟩)
  · have hfree := hrep.nodes_eq .segFree
    have hused := hrep.nodes_eq .segUsed
    obtain rfl := Except.ok.inj he
    refine ⟨_, L, rfl, by decide, hrep,
      ⟨⟨⟨0, by decide⟩, 0x140000, 0x7fec0⟩, ?_, by decide, by decide⟩,
      ?_, by decide⟩
    · rw [← hfree]
      decide
    · rw [← hused]
      decide

/-- `kinit` there. -/
def twoGiBBoot : Res Kernel :=
  kinit (fun _ => ⟨true, 0, 0, none⟩) (fun _ _ => 0) (fun _ => 0) Sched.irqQueInit twoGiB
    PFAllocator.multibootBootloaderMagic

/-- The machine before paging. -/
def unpaged : Machine := ⟨fun _ _ => 0, none, fun _ _ => 1, [], 0x80000000, 0, [], none⟩

theorem pagingChunks_twoGiB : pagingChunks 0x80000000 = 1 :: 1 :: 512 :: onePage := rfl

theorem pages_pagingChunks {i : ℕ} (hi : i ≤ 128) :
    PFAllocator.pages ((pagingChunks 0x80000000).take (i + 3)) = 514 + i := by
  rw [pagingChunks_twoGiB]
  simp only [List.take_succ_cons, PFAllocator.pages_cons]
  rw [pages_onePage hi]
  have h1 : (1 : UInt16).toNat = 1 := rfl
  have h512 : (512 : UInt16).toNat = 512 := rfl
  omega

section Paging

variable {pfa : PFAllocator} {L : PFAllocator.Head → List PFAllocator.Node}

/-- The chunks of `initPaging` follow one another from frame 341 on. -/
theorem unpaged_answers (h : PFAllocator.OneFree pfa 341 n 3 L) (hn : 635 < n) (use : Use) {i : ℕ}
    (hi : i < 124) : (answeredBy unpaged pfa (pagingChunks 0x80000000)).answers use i =
      frameAddr (341 + PFAllocator.pages ((pagingChunks 0x80000000).take i)) := by
  have hpages : PFAllocator.pages ((pagingChunks 0x80000000).take (127 - 3)) = 635 :=
    pages_pagingChunks (i := 121) (by omega)
  have hnew := @answeredBy_new unpaged pfa (pagingChunks 0x80000000) use i
  rw [show unpaged.handed.length + i = i from Nat.zero_add i] at hnew
  have hlen : i < (pagingChunks 0x80000000).length := by
    rw [pagingChunks_twoGiB]
    simp only [List.length_cons, onePage, List.length_replicate, PFAllocator.maxNumSeg]
    omega
  rw [hnew, h.answers (by omega) (by rw [hpages]; exact hn), if_pos ⟨hlen, by omega⟩,
    Option.getD_some]

theorem unpaged_lowAnswers (h : PFAllocator.OneFree pfa 341 n 3 L) (hn : 635 < n) :
    LowAnswers (answeredBy unpaged pfa (pagingChunks 0x80000000)) := by
  have hpages : PFAllocator.pages ((pagingChunks 0x80000000).take (127 - 3)) = 635 :=
    pages_pagingChunks (i := 121) (by omega)
  refine lowAnswers_answeredBy ⟨fun _ _ _ => (by decide : (1 : UInt32).toNat < 0x400000),
    fun _ => (by decide : (1 : UInt32) ≠ 0)⟩ h (by omega) (by omega)
    (by rw [hpages]; exact hn) fun i hi => ?_
  by_cases h3 : i < 3
  · have hall : ∀ i < 3, PFAllocator.pages ((pagingChunks 0x80000000).take i) ≤ 2 := by decide
    have := hall i h3
    omega
  · obtain ⟨i, rfl⟩ := Nat.exists_eq_add_of_le' (not_lt.mp h3)
    rw [pages_pagingChunks (by omega)]
    omega

/-- **`initPaging` returns**, with its chunks in the frames from 341 to 855. -/
theorem unpaged_boot (h : PFAllocator.OneFree pfa 341 n 3 L) (hn : 635 < n) :
    ∃ m b, (answeredBy unpaged pfa (pagingChunks 0x80000000)).initPaging = .ok m ∧
      Spaces m b (Owned.bootRoles m b) (fun _ => stackPages) ∧ m.nrValidPages = 512 ∧ m.procs = [] ∧
      m.handed.length = 4 ∧ ∀ g ∈ m.handed, g.addr.toNat / 4096 + g.num ≤ 856 := by
  obtain ⟨m₀, hm₀⟩ : ∃ m₀, m₀ = answeredBy unpaged pfa (pagingChunks 0x80000000) := ⟨_, rfl⟩
  have hans : ∀ use, ∀ i < 124, m₀.answers use i =
      frameAddr (341 + PFAllocator.pages ((pagingChunks 0x80000000).take i)) :=
    fun use i hi => hm₀ ▸ unpaged_answers h hn use hi
  have hnr : m₀.nrValidPages = 512 := by
    rw [hm₀]
    show (0x80000000 / dirEntrySize).toNat = 512
    decide
  have hoff : m₀.cr3 = none := by rw [hm₀]; rfl
  have hnone : m₀.handed = [] := by rw [hm₀]; rfl
  have hprocs : m₀.procs = [] := by rw [hm₀]; rfl
  have hcur : m₀.pCurrent = none := by rw [hm₀]; rfl
  have hdir : m₀.answers .pageDir m₀.handed.length = 0x155000 := by
    rw [hnone]
    exact hans .pageDir 0 (by omega)
  have hother : m₀.answers .other (m₀.handed.length + 1) = 0x156000 := by
    rw [hnone]
    exact hans .other 1 (by omega)
  have htables : m₀.answers .kernelTable (m₀.handed.length + 2) = 0x157000 := by
    rw [hnone]
    exact hans .kernelTable 2 (by omega)
  have hvram : m₀.answers .vramTable (m₀.handed.length + 3) = 0x357000 := by
    rw [hnone]
    exact hans .vramTable 3 (by omega)
  rw [← hm₀]
  obtain ⟨m, hm⟩ := Machine.initPaging_total hoff hdir hother htables hvram (by omega)
    (by rw [hnone]; decide) (by rw [hnone]; decide) (by rw [hnone, hnr]; decide)
    (by rw [hnone, hnr]; decide)
  obtain ⟨b, hb⟩ := Machine.initPaging_spec hoff hm
  have hn₁ : m.nrValidPages = 512 := by
    rw [hb.same]
    exact hnr
  have hhanded := hb.handed (by omega)
  rw [← hb.tables_eq, htables, ← hb.dir_eq, hdir, hother, hvram, hn₁, hnone] at hhanded
  have hlow : LowAnswers m₀ := hm₀ ▸ unpaged_lowAnswers h hn
  have hstraight : ∀ g ∈ m.handed, g.use = .kernelTable → ∀ f ∈ g.frames, f < 1024 := by
    rw [hhanded]
    intro g hg hu f hf
    simp only [List.mem_cons, List.not_mem_nil, or_false] at hg
    rcases hg with rfl | rfl | rfl | rfl
    · exact absurd hu (by decide)
    · exact lt_of_lt_of_le hf.2 (by decide)
    · exact absurd hu (by decide)
    · exact absurd hu (by decide)
  refine ⟨m, b, hm, Spaces.boot hb hprocs (Owned.boot hb ?_ ?_ hprocs hcur hstraight hlow),
    hn₁, ?_, ?_, ?_⟩
  · rw [hnone]
    trivial
  · rw [hnone]
    exact fun g hg => absurd hg List.not_mem_nil
  · rw [hb.same]
    exact hprocs
  · rw [hhanded]
    rfl
  · rw [hhanded]
    decide

end Paging

/-- A heap in the free segment. -/
theorem initKmalloc_returns {pfa : PFAllocator} {L : PFAllocator.Head → List PFAllocator.Node}
    {s j : ℕ} (h : PFAllocator.OneFree pfa s n j L) (hj : j < 127) (hn : 32 < n)
    (mem : UInt32 → UInt32) :
    ∃ pfa' heap L', Kmalloc.initKmalloc pfa mem = .ok (pfa', heap) ∧ heap.HasRoom (0x10000 + 12) ∧
      PFAllocator.OneFree pfa' (s + 32) (n - 32) (j + 1) L' := by
  obtain ⟨pfa', addr, L', he, -, h'⟩ := h.alloc 0x20 hj hn
  obtain ⟨heap, hinit⟩ : ∃ heap, Kmalloc.initKmalloc pfa mem = .ok (pfa', heap) := by
    unfold Kmalloc.initKmalloc
    rw [he, Res.ok_bind]
    exact ⟨_, rfl⟩
  have hblock := Kmalloc.initKmalloc_block h.freeIn hinit
  obtain ⟨f, hf, hfree, haddr⟩ := hblock.nextFree
  obtain rfl := List.mem_singleton.mp hf
  exact ⟨pfa', heap, L', hinit, ⟨_, [], [], hblock.arena, rfl, haddr.symm,
    show 0x10000 + 12 + 8 ≤ Kmalloc.arenaSize.toNat by decide⟩, h'⟩

/-- **The kernel starts** on 2 GiB, with two processes then. -/
theorem twoGiB_starts : ∃ k, twoGiBBoot = .ok k ∧ Ready k ∧ k.freeSlots = 30 := by
  obtain ⟨g, L, hread, hmem, h₀⟩ := twoGiB_read
  -- `tss`, `idt` and `gdt`
  obtain ⟨pfa₁, L₁, h₁, hone₁⟩ := h₀.allocChunks [1, 10, 10] (by decide) (by decide)
  obtain ⟨m, b, hpaging, hs, hn, hprocs, hlen, hbelow⟩ :=
    unpaged_boot (n := 0x7feab) hone₁ (by omega)
  -- the four chunks of `initPaging`, and the heap
  obtain ⟨pfa₂, L₂, h₂, hone₂⟩ := hone₁.allocChunks [1, 1, 512, 1] (by decide) (by decide)
  obtain ⟨pfa₃, heap, L₃, h₃, hroom, hone₃⟩ :=
    initKmalloc_returns (s := 856) (n := 0x7fca8) (j := 7)
    hone₂ (by omega) (by omega) (fun _ => 0)
  obtain ⟨heap₁, x, hx, hroom₁⟩ := Kmalloc.HasRoom.kmalloc (n := 0x10000) 4
    (by rw [show (Kmalloc.roundSize 4).toNat = 12 by decide]; exact hroom) (by decide)
  obtain ⟨k, hk, hready, hslots⟩ :=
    initTasks_returns (k := ⟨Sched.boot Sched.irqQueInit, m, heap₁, pfa₃⟩)
    hs (by rw [hn]) ⟨888, 0x7fc88, 8, L₃, hone₃, by omega, by omega, by omega, by omega,
      fun g hg => (hbelow g hg).trans (by omega)⟩ hroom₁ hprocs rfl
  refine ⟨k, ?_, hready, hslots⟩
  have htaken : taken pfa₁ (pagingChunks 0x80000000) unpaged m = .ok pfa₂ := by
    unfold taken
    rw [hlen]
    exact h₂
  unfold twoGiBBoot kinit
  rw [hread, Res.ok_bind, h₁, Res.ok_bind]
  simp only [hmem]
  change ((answeredBy unpaged pfa₁ (pagingChunks 0x80000000)).initPaging >>= _) = _
  rw [hpaging, Res.ok_bind]
  change (taken pfa₁ (pagingChunks 0x80000000) unpaged m >>= _) = _
  rw [htaken, Res.ok_bind, h₃, Res.ok_bind]
  simp only [hx, Res.ok_bind]
  exact hk

/-- **The 31st fork uses NULL**: with 2 GiB the process table is full before the allocator has run
out of descriptors. -/
theorem fork_uses_null : ∃ k k', twoGiBBoot = .ok k ∧ Forks k 30 k' ∧ k'.fork = .error .nullProc ∧
    ¬ CleanFork k' := by
  obtain ⟨k, hk, hready, hslots⟩ := twoGiB_starts
  obtain ⟨k', hrun, -⟩ := forks_return hready 30 hslots.ge
  have hnull : k'.fork = .error .nullProc := by
    refine fork_full (tableFull_iff.mpr ?_)
    have := hrun.freeSlots
    omega
  exact ⟨k, k', hk, hrun, hnull, fun h => h.notNull hnull⟩

/-- The second fork is clean. -/
theorem fork_clean_second : ∃ k k', twoGiBBoot = .ok k ∧ Forks k 1 k' ∧ CleanFork k' := by
  obtain ⟨k, hk, hready, hslots⟩ := twoGiB_starts
  obtain ⟨k', hrun, hready'⟩ := forks_return hready 1 (by omega)
  obtain ⟨current, -, hcur, -⟩ := hready'.running
  exact ⟨k, k', hk, hrun, (fork_clean_iff hrun ⟨rfl, by simp [hcur]⟩).mpr (by omega)⟩

end Kernel

end OwnOS
