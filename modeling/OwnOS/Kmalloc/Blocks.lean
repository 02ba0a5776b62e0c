import OwnOS.Kmalloc.Model
import OwnOS.Lib.Tiling
import OwnOS.Lib.Word

/-!
# The blocks of the heap

The arena read as a list of blocks. `Chain mem p l q`: the pointer `p` leads through the headers of
exactly the blocks `l`, each pointer carrying the used bit of the block it points at, and the
pointer in the last header is `q`. `Ring h l`: the chain of `base` comes back to `base`, and the
blocks tile the 0x20 pages. `Arena h l`: they are aligned too, and large enough.

A block in use remembers the size it was asked for (`req`), so that the list says what every holder
of a pointer was promised.
-/

namespace OwnOS.Kmalloc

open Lib Lib.Word

/-- A block: the address of its header, its size, and the request it serves if it is in use. -/
structure Blk where
  addr : UInt32
  size : UInt32
  req : Option UInt32
  deriving DecidableEq

/-- The pointer to a block, with its used bit. -/
def Blk.ptr (b : Blk) : UInt32 := setUsed b.addr b.req.isSome

/-- What `kmalloc` returned for a block in use, and the size it was asked for. -/
def Blk.payload (b : Blk) : Option (UInt32 × UInt32) := b.req.map fun r => (b.addr + headerSize, r)

/-- The pointer `p` leads through the blocks `l`; the pointer in the last header is `q`. -/
def Chain (mem : UInt32 → UInt32) : UInt32 → List Blk → UInt32 → Prop
  | p, [], q => p = q
  | p, b :: l, q => p = b.ptr ∧ mem (b.addr + 4) = b.size ∧ Chain mem (mem b.addr) l q

instance decidableChain (mem : UInt32 → UInt32) :
    (p : UInt32) → (l : List Blk) → (q : UInt32) → Decidable (Chain mem p l q)
  | p, [], q => inferInstanceAs (Decidable (p = q))
  | p, b :: l, q =>
    have := decidableChain mem (mem b.addr) l q
    inferInstanceAs (Decidable (p = b.ptr ∧ mem (b.addr + 4) = b.size ∧ Chain mem (mem b.addr) l q))

/-- **The ring of the heap `h` is the blocks `l`**: from `base` back to `base`, tiling the arena.
The lowest bit of an address is free for the used bit, and no block is empty. -/
structure Ring (h : Kmalloc) (l : List Blk) : Prop where
  chain : Chain h.mem h.base l h.base
  tiles : Tiles (·.addr.toNat) (·.size.toNat) (resetPtr h.base).toNat l
    ((resetPtr h.base).toNat + 0x20000)
  even : ∀ b ∈ l, b.addr.toNat % 2 = 0
  nonempty : ∀ b ∈ l, 0 < b.size.toNat

/-- A ring whose blocks have room for their headers. -/
structure HeaderRing (h : Kmalloc) (l : List Blk) : Prop extends Ring h l where
  bound : (resetPtr h.base).toNat + 0x20000 ≤ 4294967296
  header : ∀ b ∈ l, 8 ≤ b.size.toNat

/-- What the code keeps of the blocks' addresses and sizes. -/
structure Blk.Ok (b : Blk) : Prop where
  header : 8 ≤ b.size.toNat
  aligned : b.size.toNat % 4 = 0
  room : ∀ r, b.req = some r → r.toNat + 8 ≤ b.size.toNat

/-- **The blocks `l` make up the heap `h`**, with the alignment that `init_kmalloc` and `kmalloc`
keep. -/
structure Arena (h : Kmalloc) (l : List Blk) : Prop where
  chain : Chain h.mem h.base l h.base
  tiles : Tiles (·.addr.toNat) (·.size.toNat) h.base.toNat l (h.base.toNat + 0x20000)
  base_aligned : h.base.toNat % 4 = 0
  bound : h.base.toNat + 0x20000 < 4294967296
  ok : ∀ b ∈ l, b.Ok

/-! ## Pointers -/

variable {mem : UInt32 → UInt32} {p q x v : UInt32} {l l₁ l₂ P Q : List Blk} {b c : Blk}
  {h : Kmalloc}

theorem resetPtr_toNat (p : UInt32) : (resetPtr p).toNat = p.toNat / 2 * 2 := by
  have h1 : (1 : UInt32) = 2 - 1 := rfl
  have h2 : (2 : UInt32).toNat = 2 := rfl
  rw [resetPtr, h1, toNat_and_not_sub_one (k := 1) (by rfl), h2]

theorem resetPtr_of_even (h : p.toNat % 2 = 0) : resetPtr p = p := by
  refine UInt32.toNat_inj.mp ?_
  rw [resetPtr_toNat]
  omega

theorem isUsed_iff : isUsed p = true ↔ p.toNat % 2 = 1 := by
  have h1 : (1 : UInt32) = 2 - 1 := rfl
  have h2 : (2 : UInt32).toNat = 2 := rfl
  have hm : (p &&& 1).toNat = p.toNat % 2 := by
    rw [h1, toNat_and_sub_one (k := 1) (by rfl), h2]
  unfold isUsed
  rw [decide_eq_true_iff, ne_eq, ← UInt32.toNat_inj, hm]
  have h0 : (0 : UInt32).toNat = 0 := rfl
  omega

theorem isUsed_of_even (h : p.toNat % 2 = 0) : isUsed p = false := by
  rw [← Bool.not_eq_true, isUsed_iff]
  omega

theorem setUsed_true_toNat (h : p.toNat % 2 = 0) : (setUsed p true).toNat = p.toNat + 1 := by
  have h1 : (1 : UInt32).toNat = 1 := rfl
  rw [setUsed, if_pos rfl, UInt32.toNat_or, h1]
  have hp : 2 ^ 1 * (p.toNat / 2) = p.toNat := by omega
  have := Nat.two_pow_add_eq_or_of_lt (i := 1) (b := 1) (by omega) (p.toNat / 2)
  rw [hp] at this
  exact this.symm

theorem setUsed_false (h : p.toNat % 2 = 0) : setUsed p false = p := by
  rw [setUsed, if_neg (by simp)]
  exact resetPtr_of_even h

theorem ptr_of_free (ha : b.addr.toNat % 2 = 0) (hb : b.req = none) : b.ptr = b.addr := by
  rw [Blk.ptr, hb]
  exact setUsed_false ha

/-- A pointer to a block leads to its header and tells whether it is in use. -/
theorem resetPtr_ptr (ha : b.addr.toNat % 2 = 0) : resetPtr b.ptr = b.addr := by
  cases hb : b.req with
  | none => rw [ptr_of_free ha hb, resetPtr_of_even ha]
  | some r =>
    refine UInt32.toNat_inj.mp ?_
    rw [resetPtr_toNat, Blk.ptr, hb, Option.isSome_some, setUsed_true_toNat ha]
    omega

theorem isUsed_ptr (ha : b.addr.toNat % 2 = 0) : isUsed b.ptr = b.req.isSome := by
  cases hb : b.req with
  | none => rw [ptr_of_free ha hb, isUsed_of_even ha, Option.isSome_none]
  | some r =>
    rw [Blk.ptr, hb, Option.isSome_some, isUsed_iff, setUsed_true_toNat ha]
    omega

/-! ## Chains -/

theorem chain_append : Chain mem p (l₁ ++ l₂) q ↔ ∃ r, Chain mem p l₁ r ∧ Chain mem r l₂ q := by
  induction l₁ generalizing p with
  | nil => simp [Chain]
  | cons b l₁ ih =>
    simp only [List.cons_append, Chain, ih]
    constructor
    · rintro ⟨h1, h2, r, h3, h4⟩
      exact ⟨r, ⟨h1, h2, h3⟩, h4⟩
    · rintro ⟨r, ⟨h1, h2, h3⟩, h4⟩
      exact ⟨h1, h2, r, h3, h4⟩

/-- A chain survives in any memory that agrees on its headers. -/
theorem Chain.congr {mem' : UInt32 → UInt32} (h : Chain mem p l q)
    (hm : ∀ b ∈ l, mem' b.addr = mem b.addr ∧ mem' (b.addr + 4) = mem (b.addr + 4)) :
    Chain mem' p l q := by
  induction l generalizing p with
  | nil => exact h
  | cons b l ih =>
    obtain ⟨h1, h2, h3⟩ := h
    obtain ⟨hn, hs⟩ := hm b List.mem_cons_self
    refine ⟨h1, hs.trans h2, ?_⟩
    rw [hn]
    exact ih h3 fun c hc => hm c (List.mem_cons_of_mem _ hc)

/-! ## The geometry of a ring -/

namespace Ring

/-- Two blocks of the ring with one address are one. -/
theorem addr_inj (h' : Ring h (P ++ b :: Q)) (hc : c ∈ P ++ Q) : c.addr ≠ b.addr := by
  intro heq
  have haddr : c.addr.toNat = b.addr.toNat := congrArg UInt32.toNat heq
  rcases List.mem_append.mp hc with hc | hc
  · have := h'.tiles.apart.1 c hc
    have := h'.nonempty c (by simp [hc])
    omega
  · have := h'.tiles.apart.2 c hc
    have := h'.nonempty b (by simp)
    omega

theorem head_eq (h' : Ring h (b :: l)) : resetPtr h.base = b.addr ∧ h.base = b.ptr :=
  ⟨UInt32.toNat_inj.mp h'.tiles.1.symm, h'.chain.1⟩

/-- A block behind another one is not the first. -/
theorem ne_base (h' : Ring h (P ++ b :: Q)) (hP : P ≠ []) : b.addr ≠ resetPtr h.base := by
  cases P with
  | nil => exact absurd rfl hP
  | cons d P =>
    rw [(head_eq (l := P ++ b :: Q) h').1]
    exact fun e => h'.addr_inj (c := d) (by simp) e.symm

theorem ne_nil (h' : Ring h l) : l ≠ [] := by
  rintro rfl
  have := h'.tiles
  simp at this

/-- What the code reads through a pointer to a block. -/
theorem read (h' : Ring h (P ++ b :: Q)) :
    h.size b.ptr = b.size ∧ h.next b.ptr = h.mem b.addr ∧ Chain h.mem (h.mem b.addr) Q h.base ∧
      Chain h.mem h.base P b.ptr := by
  have ha := h'.even b (by simp)
  obtain ⟨r, hP, hr, hs, hQ⟩ := chain_append.mp h'.chain
  refine ⟨?_, ?_, hQ, hr ▸ hP⟩
  · rw [size, resetPtr_ptr ha]
    exact hs
  · rw [next, resetPtr_ptr ha]

theorem length_lt (h' : Ring h l) : l.length < pointers := by
  have hsum : l.length ≤ (l.map (·.size.toNat)).sum := by
    have hpos : ∀ n ∈ l.map (·.size.toNat), 1 ≤ n := by
      intro n hn
      obtain ⟨b, hb, rfl⟩ := List.mem_map.mp hn
      exact h'.nonempty b hb
    have := List.card_nsmul_le_sum _ 1 hpos
    simpa using this
  have := h'.tiles.sum
  unfold pointers
  omega

end Ring

namespace HeaderRing

/-- A block counted to those before the place looked at. -/
theorem shift (h' : HeaderRing h (P ++ b :: Q)) : HeaderRing h ((P ++ [b]) ++ Q) := by
  rwa [← List.append_cons]

theorem addr_bounds (h' : HeaderRing h l) (hb : b ∈ l) :
    (resetPtr h.base).toNat ≤ b.addr.toNat ∧ b.addr.toNat + b.size.toNat ≤ 4294967296 := by
  obtain ⟨h1, h2⟩ := h'.tiles.bounds hb
  have := h'.bound
  exact ⟨h1, by omega⟩

theorem addr_add_four (h' : HeaderRing h l) (hb : b ∈ l) :
    (b.addr + 4).toNat = b.addr.toNat + 4 := by
  obtain ⟨-, h1⟩ := h'.addr_bounds hb
  have h2 := h'.header b hb
  have h4 : (4 : UInt32).toNat = 4 := rfl
  exact toNat_add_of_lt (by rw [h4]; omega)

/-- The header words of the other blocks are not words of a block. -/
theorem header_ne (h' : HeaderRing h (P ++ b :: Q)) (hc : c ∈ P ++ Q) (h1 : b.addr.toNat ≤ x.toNat)
    (h2 : x.toNat < b.addr.toNat + b.size.toNat) : c.addr ≠ x ∧ c.addr + 4 ≠ x := by
  have hcm : c ∈ P ++ b :: Q := by
    rcases List.mem_append.mp hc with hc | hc
    · exact List.mem_append_left _ hc
    · exact List.mem_append_right _ (List.mem_cons_of_mem _ hc)
  have hs := h'.header c hcm
  have h4 := h'.addr_add_four hcm
  have hap : c.addr.toNat + c.size.toNat ≤ b.addr.toNat ∨
      b.addr.toNat + b.size.toNat ≤ c.addr.toNat := by
    rcases List.mem_append.mp hc with hc | hc
    · exact Or.inl (h'.tiles.apart.1 c hc)
    · exact Or.inr (h'.tiles.apart.2 c hc)
  constructor
  · rintro rfl
    omega
  · rintro rfl
    omega

end HeaderRing

/-! ## The alignment of the arena -/

namespace Arena

theorem shift (h' : Arena h (P ++ b :: Q)) : Arena h ((P ++ [b]) ++ Q) := by
  rwa [← List.append_cons]

theorem base_even (h' : Arena h l) : h.base.toNat % 2 = 0 := by
  have := h'.base_aligned
  omega

theorem reset_base (h' : Arena h l) : resetPtr h.base = h.base := resetPtr_of_even h'.base_even

theorem addr_aligned (h' : Arena h l) (hb : b ∈ l) : b.addr.toNat % 4 = 0 := by
  obtain ⟨P, Q, rfl⟩ := List.append_of_mem hb
  obtain ⟨m, hP, hQ⟩ := tiles_append.mp h'.tiles
  have hsum : ∀ l : List Blk, (∀ b ∈ l, b.Ok) → (l.map (·.size.toNat)).sum % 4 = 0 := by
    intro l hl
    induction l with
    | nil => rfl
    | cons c l ih =>
      have h1 := (hl c List.mem_cons_self).aligned
      have h2 := ih fun d hd => hl d (List.mem_cons_of_mem _ hd)
      rw [List.map_cons, List.sum_cons]
      omega
  have h1 := hP.sum
  have h2 := hsum P fun b hb => h'.ok b (List.mem_append_left _ hb)
  have h3 := h'.base_aligned
  have h4 : b.addr.toNat = m := hQ.1
  omega

theorem addr_even (h' : Arena h l) (hb : b ∈ l) : b.addr.toNat % 2 = 0 := by
  have := h'.addr_aligned hb
  omega

/-- The arena is a ring. -/
theorem ring (h' : Arena h l) : HeaderRing h l where
  chain := h'.chain
  tiles := by
    rw [h'.reset_base]
    exact h'.tiles
  even := fun b hb => h'.addr_even hb
  nonempty := fun b hb => Nat.lt_of_lt_of_le (by omega) (h'.ok b hb).header
  bound := by
    have := h'.bound
    rw [h'.reset_base]
    omega
  header := fun b hb => (h'.ok b hb).header

/-- A ring in an aligned arena. -/
theorem of_ring (h' : HeaderRing h l) (hbase : h.base.toNat % 4 = 0)
    (hbound : h.base.toNat + 0x20000 < 4294967296) (hok : ∀ b ∈ l, b.Ok) : Arena h l where
  chain := h'.chain
  tiles := by
    have := h'.tiles
    rwa [resetPtr_of_even (show h.base.toNat % 2 = 0 by omega)] at this
  base_aligned := hbase
  bound := hbound
  ok := hok

theorem addr_bounds (h' : Arena h l) (hb : b ∈ l) :
    h.base.toNat ≤ b.addr.toNat ∧ b.addr.toNat + b.size.toNat < 4294967296 := by
  obtain ⟨h1, h2⟩ := h'.tiles.bounds hb
  have := h'.bound
  exact ⟨h1, by omega⟩

theorem head_free (h' : Arena h (b :: l)) : b.req = none ∧ h.base = b.addr := by
  obtain ⟨haddr, hptr⟩ := h'.ring.head_eq
  rw [h'.reset_base] at haddr
  refine ⟨?_, haddr⟩
  have hu := isUsed_ptr (h'.addr_even (b := b) List.mem_cons_self)
  rw [← hptr, isUsed_of_even h'.base_even] at hu
  exact Option.isNone_iff_eq_none.mp (Option.isSome_eq_false_iff.mp hu.symm)

end Arena

end OwnOS.Kmalloc
