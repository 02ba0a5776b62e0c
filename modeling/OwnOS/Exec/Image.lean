import OwnOS.Exec.Call
import OwnOS.VarMem.Space

/-!
# What a loaded program looks like (`elf_loader.cpp:67-108`)

`load_elf_executable` reads `p_memsz` bytes of the file to `p_vaddr`; `p_filesz` is never looked at.
So the bytes of a segment behind `p_filesz`, which should be zero, are those that follow in the
file.

* `Loading.loadSegments`: the memory after the loop over the program headers, for segments that do
  not meet.
* `loadElf_image_iff`: when it is what the headers ask for.
-/

namespace OwnOS.VarMem

open Lib Lib.Word Machine

/-- `Elf32_Phdr`, with the field that the loader does not read. -/
structure Elf32Phdr extends Phdr where
  pFilesz : UInt32

/-- The address is one of `[p_vaddr, p_vaddr + p_memsz)`. -/
def Phdr.Mem (phdr : Phdr) (u : UInt32) : Prop := (u - phdr.pVaddr).toNat < phdr.pMemsz.toNat

/-- **A program**: accepted by the checks, its segments pairwise disjoint and outside the kernel's
slots. -/
structure Program (m : Machine) (file : ElfFile) (hdrs : List Elf32Phdr) : Prop where
  valid : file.valid = true
  phdrs : file.phdrs = hdrs.map Elf32Phdr.toPhdr
  sizes : ∀ h ∈ hdrs, h.pType = ptLoad → h.pFilesz.toNat ≤ h.pMemsz.toNat
  disjoint : hdrs.Pairwise fun a b =>
    a.pType = ptLoad → b.pType = ptLoad → ∀ u, a.toPhdr.Mem u → ¬ b.toPhdr.Mem u
  outside : ∀ h ∈ hdrs, h.pType = ptLoad →
    ¬ KernelSlot m h.pVaddr ∧ ∀ u, h.toPhdr.Mem u → ¬ KernelSlot m u

/-- **The image of a segment**: the bytes of the file, and zeros behind them. -/
structure Image (m : Machine) (c : UInt32) (file : ElfFile) (hdr : Elf32Phdr) : Prop where
  data : ∀ k < hdr.pFilesz.toNat,
    m.byteOf c (hdr.pVaddr + UInt32.ofNat k) = some (file.read hdr.pOffset k)
  bss : ∀ k, hdr.pFilesz.toNat ≤ k → k < hdr.pMemsz.toNat →
    m.byteOf c (hdr.pVaddr + UInt32.ofNat k) = some 0

/-- **A load in progress**: the address space of the process, and its kernel stack outside of it. -/
structure Loading (m₀ m : Machine) (p : Proc) (s : UInt32) (K : Set (Nat × Fin 1024))
    (R : Set UInt32) :
    Prop where
  same : m = { m₀ with phys := m.phys, handed := m.handed }
  space : Space m K R p.cr3 (freeSlots m₀)
  stackUsed : frameOf s ∈ inUse m
  stackApart : ∀ (n : Node) f, n.slot ∈ freeSlots m₀ → layout m (frameOf p.cr3) n = some f →
    f ≠ frameOf s

/-- **A process that can load a program**: it runs, and the kernel addresses its kernel stack, its
tables and the chunks for new ones directly. -/
structure CanLoad (m : Machine) (p : Proc) (s : UInt32) (K : Set (Nat × Fin 1024))
    (R : Set UInt32) :
    Prop where
  loading : Loading m m p s K R
  stack : KernelStack m p s K R
  cr3 : m.cr3 = some p.cr3
  dirApart : frameOf s ≠ frameOf p.cr3
  tables : Gives m .pageTable R

variable {m m₀ m' : Machine} {p : Proc} {s : UInt32} {K : Set (Nat × Fin 1024)} {R : Set UInt32}
  {file : ElfFile} {phdr : Phdr} {pdir u v size w : UInt32} {slots : Set (Fin 1024)}

/-! ## The pages of a segment -/

theorem toNat_sub_eq (u v : UInt32) :
    (u - v).toNat = (4294967296 - v.toNat + u.toNat) % 4294967296 :=
  UInt32.toNat_sub u v

/-- A range outside the kernel's slots leaves out some pages: both addresses are in the slot of the
VRAM. -/
theorem pages_lt (h : ∀ u : UInt32, (u - v).toNat < size.toNat → ¬ KernelSlot m u) :
    (v.toNat + size.toNat + 4095) / 4096 - v.toNat / 4096 < 1048576 := by
  have h1 : KernelSlot m 0xe0000000 := Or.inr rfl
  have h2 : KernelSlot m 0xe0100000 := Or.inr rfl
  have hn1 : (0xe0000000 : UInt32).toNat = 3758096384 := rfl
  have hn2 : (0xe0100000 : UInt32).toNat = 3759144960 := rfl
  have ho1 := Nat.le_of_not_lt fun hlt => h _ hlt h1
  have ho2 := Nat.le_of_not_lt fun hlt => h _ hlt h2
  rw [toNat_sub_eq, hn1] at ho1
  rw [toNat_sub_eq, hn2] at ho2
  have hv := toNat_lt v
  have hs := toNat_lt size
  omega

theorem pageAt_toNat_mod {k : Nat} (hk : k < 1048576) :
    (pageAt v k).toNat = (v.toNat / 4096 + k) * 4096 % 4294967296 := by
  have h1 : (0x1000 : UInt32).toNat = 4096 := rfl
  have hk' : (UInt32.ofNat k).toNat = k :=
    UInt32.toNat_ofNat_of_lt' (by change k < 4294967296; omega)
  unfold pageAt
  rw [UInt32.toNat_add, UInt32.toNat_mul, floor4k_toNat, hk', h1]
  omega

section Pages

variable (hall : (v.toNat + size.toNat + 4095) / 4096 - v.toNat / 4096 < 1048576)

include hall

/-- Every byte of the range is on one of its pages. -/
theorem page_of_mem (hu : (u - v).toNat < size.toNat) : ∃ w ∈ rangePages v size, SamePage u w := by
  have hnum := pageNum_eq hall
  have hv := toNat_lt v
  have hun := toNat_lt u
  rw [toNat_sub_eq] at hu
  have hk : (v.toNat % 4096 + (4294967296 - v.toNat + u.toNat) % 4294967296) / 4096 <
      pageNum v size := by
    omega
  refine ⟨_, List.mem_map.mpr ⟨_, List.mem_range.mpr hk, rfl⟩, samePage_iff.mpr ?_⟩
  rw [pageAt_toNat_mod (by omega)]
  omega

/-- A page of the range is the first one, or has a byte of it. -/
theorem mem_of_page (hw : w ∈ rangePages v size) : SamePage v w ∨ (w - v).toNat < size.toNat := by
  have hnum := pageNum_eq hall
  have hv := toNat_lt v
  obtain ⟨k, hk, rfl⟩ := List.mem_map.mp hw
  have hk := List.mem_range.mp hk
  have hp := pageAt_toNat_mod (v := v) (k := k) (by omega)
  rw [samePage_iff, toNat_sub_eq, hp]
  omega

end Pages

/-! ## One segment -/

theorem offset_of_add {k : Nat} (hk : k < 4294967296) : (v + UInt32.ofNat k - v).toNat = k := by
  have h : (UInt32.ofNat k).toNat = k :=
    UInt32.toNat_ofNat_of_lt' (by change k < 4294967296; exact hk)
  have hv := toNat_lt v
  rw [toNat_sub_eq, UInt32.toNat_add, h]
  omega

theorem eq_add_offset (u v : UInt32) : u = v + UInt32.ofNat (u - v).toNat := by
  rw [UInt32.ofNat_toNat]
  grind

/-- **`file->read`** to pages that are there: the bytes of the range, and no others. -/
theorem Space.readFile (bytes : Nat → UInt8) (n : Nat) (dest : UInt32) (h : Space m K R pdir slots)
    (hc : m.cr3 = some pdir) (hn : n < 4294967296)
    (hd : ∀ u : UInt32, (u - dest).toNat < n → dirIndex u ∈ slots ∧
    ∃ f, layout m (frameOf pdir) (.page (dirIndex u) (tableIndex u)) = some f) :
    ∃ m', m.readFile bytes n dest = .ok m' ∧ m' = { m with phys := m'.phys } ∧
      Space m' K R pdir slots ∧
      (∀ n : Node, n.slot ∈ slots → layout m' (frameOf pdir) n = layout m (frameOf pdir) n) ∧
      ∀ u, dirIndex u ∈ slots → m'.byteOf pdir u =
        if (u - dest).toNat < n then some (bytes (u - dest).toNat) else m.byteOf pdir u := by
  refine loop_total (I := fun n s => s = { m with phys := s.phys } ∧ Space s K R pdir slots ∧
    (∀ n : Node, n.slot ∈ slots → layout s (frameOf pdir) n = layout m (frameOf pdir) n) ∧
    ∀ u, dirIndex u ∈ slots → s.byteOf pdir u =
      if (u - dest).toNat < n then some (bytes (u - dest).toNat) else m.byteOf pdir u) ?_ ?_
  · exact ⟨rfl, h, fun _ _ => rfl, fun u _ => (if_neg (Nat.not_lt_zero _)).symm⟩
  · rintro k hk t ⟨he, ht, hlay, hbytes⟩
    have hoff := offset_of_add (v := dest) (hk.trans hn)
    obtain ⟨hs, f, hf⟩ := hd (dest + UInt32.ofNat k) (by rw [hoff]; exact hk)
    have hf' :=
      (hlay (.page (dirIndex (dest + UInt32.ofNat k)) (tableIndex (dest + UInt32.ofNat k)))
        hs).trans hf
    have hct : t.cr3 = some pdir := by rw [he]; exact hc
    refine ⟨_, Space.storeByte_eq (x := bytes k) hct hf', ?_, ?_, ?_, ?_⟩
    · rw [he]
      rfl
    · exact (ht.write hs hf' rfl fun y hy => setWord_phys_of_ne hy).1
    · intro n hns
      unfold layout
      rw [(ht.write hs hf' rfl fun y hy => setWord_phys_of_ne hy).2 n hns]
      exact hlay n hns
    · intro u hu
      rw [ht.byteOf_setByte hs hf' hu, hbytes u hu]
      by_cases hek : u = dest + UInt32.ofNat k
      · rw [if_pos hek, hek, hoff, if_pos (Nat.lt_succ_self k)]
      · have hne : (u - dest).toNat ≠ k := fun e => hek (e ▸ eq_add_offset u dest)
        rw [if_neg hek]
        by_cases hlt : (u - dest).toNat < k
        · rw [if_pos hlt, if_pos (Nat.lt_succ_of_lt hlt)]
        · rw [if_neg hlt, if_neg (by omega)]

namespace Loading

/-- What a segment leaves alone. -/
def Outside (m₀ : Machine) (phdr : Phdr) : Prop :=
  phdr.pType = ptLoad → ¬ KernelSlot m₀ phdr.pVaddr ∧ ∀ u, phdr.Mem u → ¬ KernelSlot m₀ u

/-- **One turn of the loop over the program headers.** -/
theorem loadSegment (h : Loading m₀ m p s K R) (hc : m₀.cr3 = some p.cr3)
    (hg : Gives m₀ .pageTable R) (hout : Outside m₀ phdr) :
    (m.loadSegment file p.cr3 phdr = .error (.panic "PFAallocator::cannot allocate segment") ∧
        m.enableSpace phdr.pVaddr phdr.pMemsz p.cr3 userpage .data =
          .error (.panic "PFAallocator::cannot allocate segment")) ∨
      ∃ m', m.loadSegment file p.cr3 phdr = .ok m' ∧ Loading m₀ m' p s K R ∧
        (phdr.pType = ptLoad → ∀ u, phdr.Mem u →
          m'.byteOf p.cr3 u = some (file.read phdr.pOffset (u - phdr.pVaddr).toNat)) ∧
        ∀ u x, ¬ KernelSlot m₀ u → (phdr.pType = ptLoad → ¬ phdr.Mem u) →
          m.byteOf p.cr3 u = some x → m'.byteOf p.cr3 u = some x := by
  unfold Machine.loadSegment
  by_cases ht : phdr.pType = ptLoad
  swap
  · simp only [if_neg ht]
    exact Or.inr ⟨m, rfl, h, fun e => absurd e ht, fun u x _ _ hx => hx⟩
  obtain ⟨hv, hmem⟩ := hout ht
  have hall := pages_lt hmem
  have hgm : Gives m .pageTable R := by
    rw [h.same]
    exact hg
  -- the pages lie outside the kernel's slots, as the bytes do
  have hslots : ∀ w ∈ rangePages phdr.pVaddr phdr.pMemsz, dirIndex w ∈ freeSlots m₀ := by
    intro w hw
    rcases mem_of_page hall hw with hp | hu
    · exact hp.1 ▸ hv
    · exact hmem w hu
  have hnodes : ∀ n ∈ nodesOf (rangePages phdr.pVaddr phdr.pMemsz), n.slot ∈ freeSlots m₀ := by
    rintro n ⟨w, hw, rfl | rfl⟩
    · exact hslots w hw
    · exact hslots w hw
  have hopen : m.enableSpace phdr.pVaddr phdr.pMemsz p.cr3 userpage .data =
        .error (.panic "PFAallocator::cannot allocate segment") ∨
      ∃ m', m.enableSpace phdr.pVaddr phdr.pMemsz p.cr3 userpage .data = .ok m' ∧
        Enabled .data (frameOf p.cr3) userpage
          (nodesOf (rangePages phdr.pVaddr phdr.pMemsz)) m m' :=
    h.space.dir.enableSpace h.space.direct hslots hgm rfl
  simp only [if_pos ht]
  rcases hopen with herr | ⟨m₁, hm₁, he⟩
  · left
    rw [herr, Res.error_bind]
    exact ⟨rfl, rfl⟩
  have hsp₁ := h.space.enabled he hgm
  have hcr : m₁.cr3 = some p.cr3 := by
    rw [he.same, h.same]
    exact hc
  obtain ⟨m', hm', hs', hsp', hlay, hbytes⟩ := hsp₁.readFile (file.read phdr.pOffset)
    phdr.pMemsz.toNat phdr.pVaddr hcr (toNat_lt _) fun u hu => by
      refine ⟨hmem u hu, he.extends_.defined _ (page_mem_nodesOf.mpr ?_)⟩
      exact page_of_mem hall hu
  refine Or.inr ⟨m', by rw [hm₁, Res.ok_bind, hm'], ⟨?_, hsp', ?_, ?_⟩, fun _ u hu => ?_,
    fun u x hk hu hx => ?_⟩
  · rw [hs', he.same, h.same]
  · have hu : inUse m' = inUse m₁ := by
      rw [hs']
      rfl
    rw [hu]
    exact he.extends_.grows h.stackUsed
  · intro n f hn hf
    rw [hlay n hn] at hf
    rcases he.extends_.cases hf with hm | hm
    · exact h.stackApart n f hn hm
    · rintro rfl
      exact (he.extends_.fresh n _ hm hf).1 h.stackUsed
  · exact (hbytes u (hmem u hu)).trans (if_pos hu)
  · refine (hbytes u hk).trans ((if_neg (hu ht)).trans ?_)
    exact h.space.byteOf_enabled he hnodes hk hx

/-- **The loop over the program headers.** -/
theorem loadSegments {l : List Phdr} (h : Loading m₀ m p s K R) (hc : m₀.cr3 = some p.cr3)
    (hg : Gives m₀ .pageTable R) (hout : ∀ phdr ∈ l, Outside m₀ phdr)
    (hdisj : l.Pairwise fun a b => a.pType = ptLoad → b.pType = ptLoad → ∀ u, a.Mem u → ¬ b.Mem u) :
    l.foldlM (fun m phdr => m.loadSegment file p.cr3 phdr) m =
        .error (.panic "PFAallocator::cannot allocate segment") ∨
      ∃ m', l.foldlM (fun m phdr => m.loadSegment file p.cr3 phdr) m = .ok m' ∧
        Loading m₀ m' p s K R ∧ (∀ phdr ∈ l, phdr.pType = ptLoad → ∀ u, phdr.Mem u →
          m'.byteOf p.cr3 u = some (file.read phdr.pOffset (u - phdr.pVaddr).toNat)) ∧
        ∀ u x, ¬ KernelSlot m₀ u → (∀ phdr ∈ l, phdr.pType = ptLoad → ¬ phdr.Mem u) →
          m.byteOf p.cr3 u = some x → m'.byteOf p.cr3 u = some x := by
  induction l generalizing m with
  | nil => exact Or.inr ⟨m, rfl, h, fun phdr hp => absurd hp List.not_mem_nil, fun u x _ _ hx => hx⟩
  | cons phdr l ih =>
    rw [List.foldlM_cons]
    obtain ⟨hfirst, hrest⟩ := List.pairwise_cons.mp hdisj
    rcases h.loadSegment hc hg (hout phdr List.mem_cons_self) with ⟨herr, -⟩ |
      ⟨m₁, hm₁, h₁, hin, hkeep⟩
    · left
      rw [herr, Res.error_bind]
    rw [hm₁, Res.ok_bind]
    rcases ih h₁ (fun q hq => hout q (List.mem_cons_of_mem _ hq)) hrest with herr |
      ⟨m', hm', h', hin', hkeep'⟩
    · exact Or.inl herr
    refine Or.inr ⟨m', hm', h', fun q hq ht u hu => ?_, fun u x hk hu hx => ?_⟩
    · rcases List.mem_cons.mp hq with rfl | hq
      · -- the later segments do not meet this one
        exact hkeep' u _ ((hout q List.mem_cons_self ht).2 u hu)
          (fun r hr hrt => hfirst r hr ht hrt u hu) (hin ht u hu)
      · exact hin' q hq ht u hu
    · exact hkeep' u x hk (fun q hq => hu q (List.mem_cons_of_mem _ hq))
        (hkeep u x hk (hu phdr List.mem_cons_self) hx)

/-- `after_exec` writes to the kernel stack, outside of the address space. -/
theorem byteOf_setWord {i : Fin 1024} {x : UInt32} (h : Loading m₀ m p s K R)
    (hne : frameOf s ≠ frameOf p.cr3) (hu : ¬ KernelSlot m₀ u) :
    (m.setWord (frameOf s) i x).byteOf p.cr3 u = m.byteOf p.cr3 u := by
  have hd : (m.setWord (frameOf s) i x).phys (frameOf p.cr3) = m.phys (frameOf p.cr3) :=
    setWord_phys_of_ne hne.symm
  refine byteOf_congr ?_ fun f hf =>
    setWord_phys_of_ne (h.stackApart (.page (dirIndex u) (tableIndex u)) f hu hf)
  unfold layout
  rw [entry_page_congr hd fun f hf => setWord_phys_of_ne
    (h.stackApart (.table (dirIndex u)) f hu hf)]

end Loading

/-! ## The whole load -/

theorem CanLoad.kernelStack (h : CanLoad m₀ p s K R) (hl : Loading m₀ m p s K R) :
    KernelStack m p s K R := by
  refine ⟨?_, h.stack.top, hl.space.direct.reaches, h.stack.reached, h.stack.free⟩
  rw [hl.same]
  exact h.stack.current

/-- **The loader**: every segment holds `p_memsz` bytes of the file, and the process goes on at
`e_entry`; or the allocator has no chunk left. -/
theorem loadElf_bytes {hdrs : List Elf32Phdr} (h : CanLoad m p s K R) (hp : Program m file hdrs) :
    m.loadElfExecutable file = .error (.panic "PFAallocator::cannot allocate segment") ∨
      ∃ m', m.loadElfExecutable file = .ok (m', true) ∧
        (∀ hdr ∈ hdrs, hdr.pType = ptLoad → ∀ k < hdr.pMemsz.toNat,
          m'.byteOf p.cr3 (hdr.pVaddr + UInt32.ofNat k) = some (file.read hdr.pOffset k)) ∧
        m'.load (regAddr p .pc) = .ok file.eEntry := by
  unfold loadElfExecutable
  simp only [hp.valid, if_true, h.stack.current, hp.phdrs]
  have hout : ∀ q ∈ hdrs.map Elf32Phdr.toPhdr, Loading.Outside m q := by
    intro q hq
    obtain ⟨hdr, hh, rfl⟩ := List.mem_map.mp hq
    exact hp.outside hdr hh
  rcases h.loading.loadSegments (l := hdrs.map Elf32Phdr.toPhdr) h.cr3 h.tables hout
      (List.pairwise_map.mpr hp.disjoint) with herr | ⟨m₁, hm₁, h₁, hbytes, -⟩
  · left
    rw [herr, Res.error_bind]
  · have hst := h.kernelStack h₁
    have hpc : m₁.afterExec p.stackTop file.eEntry =
        .ok (m₁.setWord (frameOf s) Reg.pc.word file.eEntry) :=
      hst.setReg .pc file.eEntry
    refine Or.inr ⟨_, by rw [hm₁, Res.ok_bind, hpc, Res.ok_bind], fun hdr hh ht k hk => ?_, ?_⟩
    · have hoff := offset_of_add (v := hdr.pVaddr) (hk.trans (toNat_lt _))
      have hin : hdr.toPhdr.Mem (hdr.pVaddr + UInt32.ofNat k) := by
        rw [Phdr.Mem, hoff]
        exact hk
      rw [h₁.byteOf_setWord h.dirApart ((hp.outside hdr hh ht).2 _ hin),
        hbytes hdr.toPhdr (List.mem_map_of_mem hh) ht _ hin, hoff]
    · rw [(hst.setWord _ _).load, setWord_phys_self]

/-- **When a loaded program looks as its headers say**: exactly when the file has zeros behind the
initialised part of every segment. -/
theorem loadElf_image_iff (m : Machine) (p : Proc) (s : UInt32) (K : Set (Nat × Fin 1024))
    (R : Set UInt32) (file : ElfFile) (hdrs : List Elf32Phdr) (h : CanLoad m p s K R)
    (hp : Program m file hdrs) :
    m.loadElfExecutable file = .error (.panic "PFAallocator::cannot allocate segment") ∨
      ∃ m', m.loadElfExecutable file = .ok (m', true) ∧
        (((∀ hdr ∈ hdrs, hdr.pType = ptLoad → Image m' p.cr3 file hdr) ∧
            m'.load (regAddr p .pc) = .ok file.eEntry) ↔
          ∀ hdr ∈ hdrs, hdr.pType = ptLoad → ∀ k, hdr.pFilesz.toNat ≤ k → k < hdr.pMemsz.toNat →
            file.read hdr.pOffset k = 0) := by
  rcases loadElf_bytes h hp with herr | ⟨m', hm', hbytes, hpc⟩
  · exact Or.inl herr
  refine Or.inr
    ⟨m', hm', fun hi hdr hh ht k hlo hhi => ?_, fun hz => ⟨fun hdr hh ht => ⟨?_, ?_⟩, hpc⟩⟩
  · have hb := (hi.1 hdr hh ht).bss k hlo hhi
    rw [hbytes hdr hh ht k hhi] at hb
    exact Option.some.inj hb
  · exact fun k hk => hbytes hdr hh ht k (hk.trans_le (hp.sizes hdr hh ht))
  · intro k hlo hhi
    rw [hbytes hdr hh ht k hhi, hz hdr hh ht k hlo hhi]

/-- The processes of a run can load programs. -/
theorem Spaces.canLoad {b : UInt32} {role : Roles} {A : Nat → List UInt32} (h : Spaces m b role A)
    (hp : (m.pCurrent.bind fun i => m.procs[i]?) = some p) (hg : Gives m .pageTable low) :
    ∃ s, CanLoad m p s (lowWords p.cr3 b) low := by
  obtain ⟨hc, hsp⟩ := h.space hp
  obtain ⟨-, -, -, -, -, hd⟩ := h.current hp
  obtain ⟨s, c, hc', hst, hrole⟩ := Spaces.kernelStack h hp
  obtain rfl : p.cr3 = c := Option.some.inj (hc.symm.trans hc')
  obtain ⟨g, hgm, -, hf⟩ := h.owned.grant _ _ hrole
  refine ⟨s, ⟨rfl, hsp, Or.inl ⟨g, hgm, hf⟩, fun n f hn hl => ?_⟩, hst, hc, ?_, hg⟩
  · rintro rfl
    rcases h.node_role hd n hn hl with hr | hr
    · rw [hrole] at hr
      exact absurd hr (by simp)
    · rw [hrole] at hr
      exact absurd hr (by simp)
  · intro e
    rw [e, hd] at hrole
    exact absurd hrole (by simp)

/-- A program of one segment is loaded when there are chunks for its pages. -/
theorem CanLoad.loads {hdr : Elf32Phdr} (h : CanLoad m p s K R) (hp : Program m file [hdr])
    (hroom : ∃ m₁, m.enableSpace hdr.pVaddr hdr.pMemsz p.cr3 userpage .data = .ok m₁) :
    ∃ m', m.loadElfExecutable file = .ok (m', true) := by
  obtain ⟨m₁, hm₁⟩ := hroom
  have hout : Loading.Outside m hdr.toPhdr := hp.outside hdr (List.mem_singleton_self _)
  rcases @Loading.loadSegment m m p s K R file hdr.toPhdr h.loading h.cr3 h.tables hout with
    ⟨-, herr⟩ | ⟨m₂, hm₂, h₂, -⟩
  · rw [hm₁] at herr
    exact absurd herr (by simp)
  · have hpc : m₂.afterExec p.stackTop file.eEntry =
        .ok (m₂.setWord (frameOf s) Reg.pc.word file.eEntry) :=
      (h.kernelStack h₂).setReg .pc file.eEntry
    refine ⟨m₂.setWord (frameOf s) Reg.pc.word file.eEntry, ?_⟩
    unfold loadElfExecutable
    simp only [hp.valid, if_true, h.stack.current, hp.phdrs]
    rw [List.map_singleton, List.foldlM_cons, hm₂, Res.ok_bind, List.foldlM_nil, Res.pure_eq,
      Res.ok_bind, hpc, Res.ok_bind]

/-! ## Programs of one page -/

/-- A segment on the page at `0x50000000`. -/
theorem onePage_program {hdr : Elf32Phdr} (hn : m.nrValidPages = 1) (hvalid : file.valid = true)
    (hphdrs : file.phdrs = [hdr.toPhdr]) (hv : hdr.pVaddr = 0x50000000)
    (hpage : hdr.pMemsz.toNat ≤ 0x1000) (hle : hdr.pFilesz.toNat ≤ hdr.pMemsz.toNat) :
    Program m file [hdr] := by
  have hbegin : (0x50000000 : UInt32).toNat = 1342177280 := rfl
  have hslot : ∀ u : UInt32, (u - 0x50000000).toNat < 0x1000 → ¬ KernelSlot m u := by
    intro u hu
    have hlt := toNat_lt u
    rw [toNat_sub_eq, hbegin] at hu
    unfold KernelSlot
    rw [hn]
    show ¬ (u.toNat / 0x400000 < 1 ∨ u.toNat / 0x400000 = 0x380)
    omega
  refine ⟨hvalid, hphdrs, ?_, List.pairwise_singleton _ _, ?_⟩
  · intro h hh _
    obtain rfl := List.mem_singleton.mp hh
    exact hle
  · intro h hh _
    obtain rfl := List.mem_singleton.mp hh
    refine ⟨?_, fun u hu => hslot u ?_⟩
    · rw [hv]
      exact hslot _ (by decide)
    · rw [← hv]
      exact lt_of_lt_of_le hu hpage

/-- A process that has been started loads a program of one page. -/
theorem onePage_loads (file : ElfFile) (hdr : Elf32Phdr) (hvalid : file.valid = true)
    (hphdrs : file.phdrs = [hdr.toPhdr]) (hv : hdr.pVaddr = 0x50000000)
    (hpage : hdr.pMemsz.toNat ≤ 0x1000) (hnum : pageNum hdr.pVaddr hdr.pMemsz = 1)
    (hle : hdr.pFilesz.toNat ≤ hdr.pMemsz.toNat) : ∃ m p s K R m', CanLoad m p s K R ∧
      Program m file [hdr] ∧ m.loadElfExecutable file = .ok (m', true) := by
  obtain ⟨-, m, p, b, role, -, -, hs, hb, hlen, hcur, hprocs, hn⟩ := bumpMachine_run
  have hp : m.procs[0]? = some p := by rw [hprocs]; rfl
  have hbind : (m.pCurrent.bind fun i => m.procs[i]?) = some p := by rw [hcur]; exact hp
  obtain ⟨s, hl⟩ := hs.canLoad hbind (hb.gives .pageTable)
  have hprogram := onePage_program hn hvalid hphdrs hv hpage hle
  obtain ⟨-, -, -, -, ha, hd⟩ := hs.current hbind
  obtain ⟨m₁, h₁, -⟩ := hb.enableSpace hdr.pVaddr hdr.pMemsz hs.owned (by rw [hnum]; omega) ha hd
    (Or.inl rfl : Use.data = .data ∨ _)
  obtain ⟨m', hm'⟩ := hl.loads hprogram ⟨m₁, h₁⟩
  exact ⟨m, p, s, _, _, m', hl, hprogram, hm'⟩

/-- The header of `oneByte`, without a byte in the file. -/
def oneByteHdr : Elf32Phdr := ⟨⟨ptLoad, 0x1000, 0x50000000, 1⟩, 0⟩

/-- A segment without initialised data: its byte is the one of the file. -/
theorem bss_not_zero : ∃ m p s K R m', CanLoad m p s K R ∧ Program m oneByte [oneByteHdr] ∧
    m.loadElfExecutable oneByte = .ok (m', true) ∧ ¬ Image m' p.cr3 oneByte oneByteHdr := by
  obtain ⟨m, p, s, K, R, m', hl, hp, hm'⟩ := onePage_loads oneByte oneByteHdr (by decide) rfl rfl
    (by decide) (by decide) (by decide)
  refine ⟨m, p, s, K, R, m', hl, hp, hm', fun hi => ?_⟩
  rcases loadElf_bytes hl hp with herr | ⟨m₁, hm₁, hbytes, -⟩
  · rw [hm'] at herr
    exact absurd herr (by simp)
  · obtain rfl := (Prod.mk.inj (Except.ok.inj (hm'.symm.trans hm₁))).1
    have hb := hbytes _ (List.mem_singleton_self _) rfl 0 (by decide)
    rw [hi.bss 0 (by decide) (by decide)] at hb
    exact absurd hb (by decide)

/-- An instruction at `0x50000000` and a zero in the file behind it. -/
def padded : ElfFile where
  eIdent := xhIdent
  eType := etExec
  eMachine := em386
  eEntry := 0x50000000
  phdrs := [⟨ptLoad, 0x1000, 0x50000000, 2⟩]
  read _ k := if k = 0 then 0x90 else 0

/-- The header of `padded`: the byte behind the instruction is not initialised data. -/
def paddedHdr : Elf32Phdr := ⟨⟨ptLoad, 0x1000, 0x50000000, 2⟩, 1⟩

/-- A zero in the file is what the loader puts in the place of the byte that is not initialised. -/
theorem padded_image : ∃ (m : Machine) (p : Proc) (m' : Machine),
    m.loadElfExecutable padded = .ok (m', true) ∧ Image m' p.cr3 padded paddedHdr ∧
    m'.byteOf p.cr3 0x50000000 = some 0x90 ∧ m'.byteOf p.cr3 0x50000001 = some 0 ∧
    m'.load (regAddr p .pc) = .ok 0x50000000 := by
  obtain ⟨m, p, s, K, R, m', hl, hp, hm'⟩ := onePage_loads padded paddedHdr (by decide) rfl rfl
    (by decide) (by decide) (by decide)
  rcases loadElf_image_iff m p s K R padded [paddedHdr] hl hp with herr | ⟨m₁, hm₁, hiff⟩
  · rw [hm'] at herr
    exact absurd herr (by simp)
  · have hz : ∀ hdr ∈ [paddedHdr], hdr.pType = ptLoad → ∀ k, hdr.pFilesz.toNat ≤ k →
        k < hdr.pMemsz.toNat → padded.read hdr.pOffset k = 0 := by
      intro hdr hh _ k hlo _
      obtain rfl := List.mem_singleton.mp hh
      have h1 : paddedHdr.pFilesz.toNat = 1 := rfl
      exact if_neg (by omega)
    obtain ⟨himg, hpc⟩ := hiff.mpr hz
    have hi := himg _ (List.mem_singleton_self _) rfl
    exact ⟨m, p, m₁, hm₁, hi, hi.data 0 (by decide), hi.bss 1 (by decide) (by decide), hpc⟩

end OwnOS.VarMem
