import OwnOS.PFAllocator.Remove

/-!
# Boot: `mbi_read` fills the free list

`mbi_read` (`mbi_read.cpp:32-163`) registers every memory-map entry of type 1 or 3 with `addChunk`,
then takes the sections of the kernel's ELF image out with `removeChunk`. The multiboot structure is
the flags, the memory map and the section headers it points at; what `mbi_read` prints is left out.

`BootSafe` is what the free list is for: each page it describes lies inside an available region and
meets no section. The code does not always reach it (`boot_unsafe`: on the usual memory map of a PC
the hole between 640 KiB and 1 MiB becomes free memory). What goes wrong:

* `addChunk` drops `addr_high`, adds in 32 bits and rounds the begin of a region downwards
  (`MmapEntry.Clean` excludes the three);
* `removeChunk` rounds the end upwards in 32 bits (`Shdr.Clean`), and mistreats a segment that ends
  below the section or lies inside it (`Cuttable`).

* **`boot_safe`**: with clean entries and sections, and cuttable segments before each `removeChunk`,
  `mbi_read` panics for want of a descriptor or leaves a safe free list.
-/

namespace OwnOS.PFAllocator

open Lib Lib.Word

/-- `multiboot_memory_map_t`. -/
structure MmapEntry where
  addrLow : UInt32
  addrHigh : UInt32
  lenLow : UInt32
  lenHigh : UInt32
  type : UInt32
  deriving DecidableEq

/-- The fields of an `Elf32_Shdr` that `mbi_read` reads. -/
structure Shdr where
  shAddr : UInt32
  shSize : UInt32
  deriving DecidableEq

/-- What `mbi_read` reads of the `multiboot_info_t`. -/
structure MultibootInfo where
  flags : UInt32
  mmap : List MmapEntry
  sections : List Shdr

/-- `MULTIBOOT_BOOTLOADER_MAGIC`. -/
def multibootBootloaderMagic : UInt32 := 0x2BADB002

/-- `CHECK_FLAG`. -/
def checkFlag (flags bit : UInt32) : Bool := flags &&& (1 <<< bit) ≠ 0

/-- The globals `mbi_read` writes: `pFAllocator` and `bootinfo.mem_size`. -/
structure Globals where
  pfa : PFAllocator
  memSize : UInt32

/-- An entry `mbi_read` registers: type 1 or 3 (`mbi_read.cpp:122`). -/
def MmapEntry.available (m : MmapEntry) : Prop := m.type = 0x01 ∨ m.type = 0x03

instance (m : MmapEntry) : Decidable m.available := inferInstanceAs (Decidable (_ ∨ _))

/-- The loop over the memory map (`mbi_read.cpp:111-138`). -/
def readMmap : Globals → List MmapEntry → Res Globals
  | g, [] => .ok g
  | g, m :: ms =>
    if m.available then do
      let addrEnd := m.addrLow + m.lenLow
      let memSize := if g.memSize < addrEnd then addrEnd else g.memSize
      let pfa ← g.pfa.addChunk m.addrLow (m.addrLow + m.lenLow)
      readMmap ⟨pfa, memSize⟩ ms
    else readMmap g ms

/-- The loop over the section headers (`mbi_read.cpp:150-158`). -/
def readSections : PFAllocator → List Shdr → Res PFAllocator
  | a, [] => .ok a
  | a, sh :: shs => do
    let a ← a.removeChunk sh.shAddr (sh.shAddr + sh.shSize)
    readSections a shs

/-- `mbi_read`. -/
def mbiRead (g : Globals) (info : MultibootInfo) (magic : UInt32) : Res Globals :=
  if magic ≠ multibootBootloaderMagic then .ok g
  else if checkFlag info.flags 4 ∧ checkFlag info.flags 5 then .ok g
  else do
    let g ← if checkFlag info.flags 6 then readMmap { g with memSize := 0 } info.mmap else .ok g
    if checkFlag info.flags 5 then do
      let pfa ← readSections g.pfa info.sections
      .ok { g with pfa }
    else .ok g

/-! ## What the free list should hold -/

/-- The bytes of the region an entry describes, with its 64-bit base and length. -/
def MmapEntry.region (m : MmapEntry) : Set Nat :=
  Set.Ico (m.addrHigh.toNat * 4294967296 + m.addrLow.toNat)
    (m.addrHigh.toNat * 4294967296 + m.addrLow.toNat +
      (m.lenHigh.toNat * 4294967296 + m.lenLow.toNat))

/-- `[sh_addr, sh_addr+sh_size)`. -/
def Shdr.range (sh : Shdr) : Set Nat :=
  Set.Ico sh.shAddr.toNat (sh.shAddr.toNat + sh.shSize.toNat)

/-- The bytes of a page. -/
def pageBytes (p : Nat) : Set Nat := Set.Ico (p * 4096) (p * 4096 + 4096)

/-- The page lies inside one available region. -/
def Available (ms : List MmapEntry) (p : Nat) : Prop :=
  ∃ m ∈ ms, m.available ∧ pageBytes p ⊆ m.region

/-- **Boot memory safety**: the free list ends, and every page it describes lies inside an available
region and meets no section. -/
def BootSafe (info : MultibootInfo) (a : PFAllocator) : Prop :=
  ∃ F : List SegPtr, a.links.Path (.head .segFree) F none ∧ ∀ i ∈ F, ∀ p ∈ (a.segs i).pages,
    Available info.mmap p ∧ ∀ sh ∈ info.sections, Disjoint (pageBytes p) sh.range

/-- An entry whose pages `addChunk` registers as they are: below 4 GiB, and the begin on a page
boundary or the low parts without a page boundary between them. -/
structure MmapEntry.Clean (m : MmapEntry) : Prop where
  addrHigh : m.addrHigh = 0
  bound : m.addrLow.toNat + m.lenLow.toNat < 4294967296
  aligned : m.addrLow.toNat % 4096 = 0 ∨
    m.addrLow.toNat / 4096 = (m.addrLow.toNat + m.lenLow.toNat) / 4096

/-- A section whose end can be rounded up in 32 bits. -/
def Shdr.Clean (sh : Shdr) : Prop := sh.shAddr.toNat + sh.shSize.toNat + 4095 < 4294967296

/-- Every free segment is one that `removeChunk` treats rightly. -/
def RemoveOk (a : PFAllocator) (sh : Shdr) : Prop :=
  ∀ n ∈ a.nodes .segFree, Cuttable (removeBegin sh.shAddr) (removeEnd (sh.shAddr + sh.shSize)) n

/-- The condition on the state before every turn of the loop over the sections. -/
def SectionsOk : PFAllocator → List Shdr → Prop
  | _, [] => True
  | a, sh :: shs => RemoveOk a sh ∧
    ∀ a', a.removeChunk sh.shAddr (sh.shAddr + sh.shSize) = .ok a' → SectionsOk a' shs

/-! ## The two loops -/

/-- The free list holds only segments that fit and whose pages are in `P`. -/
def FreeIn (a : PFAllocator) (P : Nat → Prop) : Prop :=
  ∃ L : Head → List Node, Rep a L [] ∧ ∀ n ∈ L .segFree, n.Fits ∧ ∀ p ∈ n.pages, P p

variable {a : PFAllocator} {P : Nat → Prop} {m : MmapEntry} {sh : Shdr}

theorem available_of_mem {ms : List MmapEntry} (hm : m ∈ ms) (ha : m.available) (hc : m.Clean)
    {p : Nat} (hlo : m.addrLow.toNat ≤ p * 4096)
    (hhi : p * 4096 + 4096 ≤ m.addrLow.toNat + m.lenLow.toNat) : Available ms p := by
  refine ⟨m, hm, ha, Set.Ico_subset_Ico ?_ ?_⟩
  · rw [hc.addrHigh]
    simpa using hlo
  · rw [hc.addrHigh]
    have h0 : (0 : UInt32).toNat = 0 := rfl
    omega

/-- What `addChunk` registers for a clean entry fits, and its pages are those of the region. -/
theorem rounded_clean (hc : m.Clean) (i : SegPtr) :
    (rounded i m.addrLow (m.addrLow + m.lenLow)).Fits ∧
      ∀ p ∈ (rounded i m.addrLow (m.addrLow + m.lenLow)).pages,
        m.addrLow.toNat ≤ p * 4096 ∧ p * 4096 + 4096 ≤ m.addrLow.toNat + m.lenLow.toNat := by
  have hend : (m.addrLow + m.lenLow).toNat = m.addrLow.toNat + m.lenLow.toNat :=
    toNat_add_of_lt hc.bound
  have hB := roundDown_toNat m.addrLow
  have hE := roundDown_toNat (m.addrLow + m.lenLow)
  rw [hend] at hE
  obtain ⟨-, hf, hp⟩ := span_fits (x := m.addrLow &&& ~~~(chunkSize - 1))
    (y := (m.addrLow + m.lenLow) &&& ~~~(chunkSize - 1)) (by rw [hB]; omega) (by rw [hE]; omega)
    (by rw [hB, hE]; omega) i
  refine ⟨hf, fun p hmem => ?_⟩
  have hmem' : p ∈ Set.Ico (m.addrLow.toNat / 4096 * 4096 / 4096)
      ((m.addrLow.toNat + m.lenLow.toNat) / 4096 * 4096 / 4096) := by
    rw [← hB, ← hE, ← hp]
    exact hmem
  obtain ⟨h1, h2⟩ := hmem'
  rcases hc.aligned with hal | hal
  · omega
  · omega

theorem FreeIn.addChunk (h : FreeIn a P) (hc : m.Clean)
    (hP : ∀ p, m.addrLow.toNat ≤ p * 4096 →
      p * 4096 + 4096 ≤ m.addrLow.toNat + m.lenLow.toNat → P p) :
    (∃ msg, a.addChunk m.addrLow (m.addrLow + m.lenLow) = .error (.panic msg)) ∨
      ∃ a', a.addChunk m.addrLow (m.addrLow + m.lenLow) = .ok a' ∧ FreeIn a' P := by
  obtain ⟨L, hrep, hL⟩ := h
  rcases addChunk_spec hrep m.addrLow (m.addrLow + m.lenLow) with he | ⟨i, a', he, hrep'⟩
  · exact Or.inl he
  · obtain ⟨hf, hp⟩ := rounded_clean hc i
    refine Or.inr ⟨a', he, _, hrep', fun n hn => ?_⟩
    rw [Function.update_self] at hn
    have hfits : ∀ x ∈ rounded i m.addrLow (m.addrLow + m.lenLow) :: L .segFree, x.Fits := by
      intro x hx
      rcases List.mem_cons.mp hx with rfl | hx
      · exact hf
      · exact (hL x hx).1
    obtain ⟨hn', hpn⟩ := insertFree_pages _ _ hfits n hn
    refine ⟨hn', fun p hmem => ?_⟩
    obtain ⟨x, hx, hpx⟩ := hpn p hmem
    rcases List.mem_cons.mp hx with rfl | hx
    · exact hP p (hp p hpx).1 (hp p hpx).2
    · exact (hL x hx).2 p hpx

/-- **The loop over the memory map** registers only pages of available regions. -/
theorem readMmap_freeIn {all : List MmapEntry} : ∀ {ms : List MmapEntry} {g : Globals},
    (∀ m ∈ ms, m ∈ all) → (∀ m ∈ ms, m.available → m.Clean) → FreeIn g.pfa (Available all) →
      (∃ msg, readMmap g ms = .error (.panic msg)) ∨
        ∃ g', readMmap g ms = .ok g' ∧ FreeIn g'.pfa (Available all)
  | [], g, _, _, h => Or.inr ⟨g, rfl, h⟩
  | m :: ms, g, hsub, hcl, h => by
    have hsub' : ∀ x ∈ ms, x ∈ all := fun x hx => hsub x (List.mem_cons_of_mem _ hx)
    have hcl' : ∀ x ∈ ms, x.available → x.Clean := fun x hx => hcl x (List.mem_cons_of_mem _ hx)
    unfold readMmap
    by_cases ha : m.available
    · rw [if_pos ha]
      have hm := hcl m List.mem_cons_self ha
      rcases h.addChunk hm fun p hlo hhi => available_of_mem (hsub m List.mem_cons_self)
        ha hm hlo hhi with ⟨msg, he⟩ | ⟨a', he, h'⟩
      · exact Or.inl ⟨msg, by simp only [he, Res.error_bind]⟩
      · simp only [he, Res.ok_bind]
        exact readMmap_freeIn hsub' hcl' h'
    · rw [if_neg ha]
      exact readMmap_freeIn hsub' hcl' h

/-- A page outside the rounded range meets no byte of the section. -/
theorem Outside.disjoint (hc : sh.Clean) {p : Nat}
    (h : Outside (removeBegin sh.shAddr) (removeEnd (sh.shAddr + sh.shSize)) p) :
    Disjoint (pageBytes p) sh.range := by
  have hsum : (sh.shAddr + sh.shSize).toNat = sh.shAddr.toNat + sh.shSize.toNat := by
    unfold Shdr.Clean at hc
    exact toNat_add_of_lt (by omega)
  have hE := removeEnd_toNat (e := sh.shAddr + sh.shSize) (by rw [hsum]; exact hc)
  rw [hsum] at hE
  unfold Outside at h
  rw [removeBegin_toNat, hE] at h
  rw [Set.disjoint_left]
  intro x hx hx'
  have h1 := hx.1
  have h2 := hx.2
  have h3 := hx'.1
  have h4 := hx'.2
  rcases h with h | h
  · omega
  · omega

theorem FreeIn.removeChunk (h : FreeIn a P) (hc : sh.Clean) (hok : RemoveOk a sh) :
    (∃ msg, a.removeChunk sh.shAddr (sh.shAddr + sh.shSize) = .error (.panic msg)) ∨
      ∃ a', a.removeChunk sh.shAddr (sh.shAddr + sh.shSize) = .ok a' ∧
        FreeIn a' fun p => P p ∧ Disjoint (pageBytes p) sh.range := by
  obtain ⟨L, hrep, hL⟩ := h
  have hsum : (sh.shAddr + sh.shSize).toNat = sh.shAddr.toNat + sh.shSize.toNat := by
    unfold Shdr.Clean at hc
    exact toNat_add_of_lt (by omega)
  have hcut : ∀ n ∈ L .segFree, n.Fits ∧
      Cuttable (removeBegin sh.shAddr) (removeEnd (sh.shAddr + sh.shSize)) n :=
    fun n hn => ⟨(hL n hn).1, hok n (by rw [hrep.nodes_eq]; exact hn)⟩
  rcases removeChunk_spec hrep (by rw [hsum]; omega) (by rw [hsum]; exact hc) hcut with
    he | ⟨a', F', he, hrep', hF'⟩
  · exact Or.inl he
  · refine Or.inr ⟨a', he, _, hrep', fun n hn => ?_⟩
    rw [Function.update_self] at hn
    obtain ⟨hf, hp⟩ := hF' n hn
    refine ⟨hf, fun p hmem => ?_⟩
    obtain ⟨hout, x, hx, hpx⟩ := hp p hmem
    exact ⟨(hL x hx).2 p hpx, hout.disjoint hc⟩

/-- **The loop over the sections** takes their pages out. -/
theorem readSections_freeIn : ∀ {shs : List Shdr} {a : PFAllocator} {P : Nat → Prop},
    (∀ sh ∈ shs, sh.Clean) → SectionsOk a shs → FreeIn a P →
      (∃ msg, readSections a shs = .error (.panic msg)) ∨
        ∃ a', readSections a shs = .ok a' ∧
          FreeIn a' fun p => P p ∧ ∀ sh ∈ shs, Disjoint (pageBytes p) sh.range
  | [], a, P, _, _, h => by
    obtain ⟨L, hrep, hL⟩ := h
    refine Or.inr ⟨a, rfl, L, hrep, fun n hn => ⟨(hL n hn).1, fun p hp => ?_⟩⟩
    exact ⟨(hL n hn).2 p hp, by simp⟩
  | sh :: shs, a, P, hcl, hok, h => by
    unfold readSections
    rcases h.removeChunk (hcl sh List.mem_cons_self) hok.1 with ⟨msg, he⟩ | ⟨a₁, he, h₁⟩
    · exact Or.inl ⟨msg, by rw [he, Res.error_bind]⟩
    · rw [he, Res.ok_bind]
      rcases readSections_freeIn (fun x hx => hcl x (List.mem_cons_of_mem _ hx))
          (hok.2 a₁ he) h₁ with
        he' | ⟨a', he', L, hrep, hL⟩
      · exact Or.inl he'
      · refine Or.inr ⟨a', he', L, hrep, fun n hn => ⟨(hL n hn).1, fun p hp => ?_⟩⟩
        obtain ⟨⟨hP, hsh⟩, hshs⟩ := (hL n hn).2 p hp
        refine ⟨hP, fun x hx => ?_⟩
        rcases List.mem_cons.mp hx with rfl | hx
        · exact hsh
        · exact hshs x hx

/-- A represented free list, read through the descriptors. -/
theorem FreeIn.bootSafe {info : MultibootInfo} (h : FreeIn a fun p => Available info.mmap p ∧
    ∀ sh ∈ info.sections, Disjoint (pageBytes p) sh.range) : BootSafe info a := by
  obtain ⟨L, hrep, hL⟩ := h
  refine ⟨ids (L .segFree), hrep.path _, fun i hi p hp => ?_⟩
  obtain ⟨n, hn, rfl⟩ := List.mem_map.mp hi
  obtain ⟨hb, hl⟩ := hrep.owns_of_mem hn
  rw [Seg.pages, hb, hl] at hp
  exact (hL n hn).2 p hp

theorem freeIn_init (segs : SegPtr → Seg) (P : Nat → Prop) : FreeIn (init segs) P :=
  ⟨_, rep_init segs, by simp⟩

/-- What `mbi_read` leaves when it runs both loops, the available entries and the sections are
clean, and before every `removeChunk` no free segment ends below the section or lies inside it. -/
theorem mbiRead_freeIn {segs : SegPtr → Seg} {memSize : UInt32} {info : MultibootInfo}
    (h4 : checkFlag info.flags 4 = false) (h5 : checkFlag info.flags 5 = true)
    (h6 : checkFlag info.flags 6 = true) (hmap : ∀ m ∈ info.mmap, m.available → m.Clean)
    (hsec : ∀ sh ∈ info.sections, sh.Clean)
    (hcut : ∀ g, readMmap ⟨init segs, 0⟩ info.mmap = .ok g → SectionsOk g.pfa info.sections) :
    (∃ msg, mbiRead ⟨init segs, memSize⟩ info multibootBootloaderMagic = .error (.panic msg)) ∨
      ∃ g, mbiRead ⟨init segs, memSize⟩ info multibootBootloaderMagic = .ok g ∧
        FreeIn g.pfa fun p => Available info.mmap p ∧
          ∀ sh ∈ info.sections, Disjoint (pageBytes p) sh.range := by
  have hrun : mbiRead ⟨init segs, memSize⟩ info multibootBootloaderMagic =
      readMmap ⟨init segs, 0⟩ info.mmap >>= fun g =>
        readSections g.pfa info.sections >>= fun pfa => .ok { g with pfa } := by
    simp [mbiRead, h4, h5, h6]
  rw [hrun]
  rcases readMmap_freeIn (g := ⟨init segs, 0⟩) (fun m hm => hm) hmap (freeIn_init segs _) with
    ⟨msg, he⟩ | ⟨g, he, hfree⟩
  · exact Or.inl ⟨msg, by rw [he, Res.error_bind]⟩
  · rw [he, Res.ok_bind]
    rcases readSections_freeIn hsec (hcut g he) hfree with ⟨msg, he'⟩ | ⟨a', he', hfree'⟩
    · exact Or.inl ⟨msg, by rw [he', Res.error_bind]⟩
    · exact Or.inr ⟨{ g with pfa := a' }, by rw [he', Res.ok_bind], hfree'⟩

/-- **Boot memory safety** of `mbi_read`, when it runs both loops, the available entries and the
sections are clean, and before every `removeChunk` no free segment ends below the section or lies
inside it: it panics for want of a descriptor, or leaves a safe free list. -/
theorem boot_safe {segs : SegPtr → Seg} {memSize : UInt32} {info : MultibootInfo}
    (h4 : checkFlag info.flags 4 = false) (h5 : checkFlag info.flags 5 = true)
    (h6 : checkFlag info.flags 6 = true) (hmap : ∀ m ∈ info.mmap, m.available → m.Clean)
    (hsec : ∀ sh ∈ info.sections, sh.Clean)
    (hcut : ∀ g, readMmap ⟨init segs, 0⟩ info.mmap = .ok g → SectionsOk g.pfa info.sections) :
    (∃ msg, mbiRead ⟨init segs, memSize⟩ info multibootBootloaderMagic = .error (.panic msg)) ∨
      ∃ g, mbiRead ⟨init segs, memSize⟩ info multibootBootloaderMagic = .ok g ∧
        BootSafe info g.pfa :=
  (mbiRead_freeIn h4 h5 h6 hmap hsec hcut).imp_right fun ⟨g, he, hfree⟩ => ⟨g, he, hfree.bootSafe⟩

/-- The memory above 1 MiB with a reserved entry, and two sections at its begin and in its
middle. -/
def highMemory : MultibootInfo where
  flags := 0x60
  mmap := [⟨0x100000, 0, 0x700000, 0, 1⟩, ⟨0xfffc0000, 0, 0x40000, 0, 2⟩]
  sections := [⟨0x100000, 0x4800⟩, ⟨0x200000, 0x1000⟩]

theorem boot_safe_highMemory :
    ∃ g, mbiRead ⟨init fun _ => ⟨true, 0, 0, none⟩, 0⟩ highMemory multibootBootloaderMagic = .ok g ∧
      BootSafe highMemory g.pfa := by
  have hcut : ∀ g, readMmap ⟨init fun _ => ⟨true, 0, 0, none⟩, 0⟩ highMemory.mmap = .ok g →
      SectionsOk g.pfa highMemory.sections := by
    intro g hg
    obtain rfl := Except.ok.inj hg
    refine ⟨by unfold RemoveOk; decide, fun a ha => ?_⟩
    obtain rfl := Except.ok.inj ha
    exact ⟨by unfold RemoveOk; decide, fun a _ => trivial⟩
  have hmap : ∀ m ∈ highMemory.mmap, m.available → m.Clean := by
    intro m hm ha
    simp only [highMemory, List.mem_cons, List.not_mem_nil, or_false] at hm
    rcases hm with rfl | rfl
    · exact ⟨rfl, by decide, by decide⟩
    · exact absurd ha (by decide)
  rcases @boot_safe (fun _ => ⟨true, 0, 0, none⟩) 0 highMemory
    (by decide) (by decide) (by decide) hmap (by unfold Shdr.Clean; decide) hcut with ⟨msg, he⟩ | h
  · exact absurd he (by rintro ⟨⟩)
  · exact h

/-- The memory map of a PC: 639 KiB of low memory and the memory above 1 MiB, where the kernel is
loaded. -/
def pcMemory : MultibootInfo where
  flags := 0x60
  mmap := [⟨0, 0, 0x9fc00, 0, 1⟩, ⟨0x100000, 0, 0xf00000, 0, 1⟩]
  sections := [⟨0x100000, 0x5000⟩]

theorem BootSafe.nodes {info : MultibootInfo} (h : BootSafe info a) :
    ∀ n ∈ a.nodes .segFree, ∀ p ∈ n.pages, Available info.mmap p := by
  obtain ⟨F, hF, hsafe⟩ := h
  have hlen : F.length ≤ maxNumSeg := by simpa using List.Nodup.length_le_card hF.nodup
  intro n hn p hp
  rw [PFAllocator.nodes, walk_eq hF hlen] at hn
  obtain ⟨i, hi, rfl⟩ := List.mem_map.mp hn
  exact (hsafe i hi p hp).1

/-- **The hole below 1 MiB becomes free memory**: removing the kernel's section from the memory
above 1 MiB lets the low segment grow from 636 KiB up to 1 MiB. -/
theorem boot_unsafe :
    ∃ g, mbiRead ⟨init fun _ => ⟨true, 0, 0, none⟩, 0⟩ pcMemory multibootBootloaderMagic = .ok g ∧
      ¬ BootSafe pcMemory g.pfa := by
  refine ⟨_, rfl, fun h => ?_⟩
  have hpage := h.nodes ⟨⟨0, by decide⟩, 0, 0x100⟩ (by decide) 0xa0
    (by unfold Node.pages pagesOf; simp)
  obtain ⟨m, hm, -, hsub⟩ := hpage
  have hin : 0xa0000 ∈ m.region := hsub (by unfold pageBytes; simp)
  simp only [pcMemory, List.mem_cons, List.not_mem_nil, or_false] at hm
  rcases hm with rfl | rfl
  · exact absurd hin.2 (by decide)
  · exact absurd hin.1 (by decide)

end OwnOS.PFAllocator
