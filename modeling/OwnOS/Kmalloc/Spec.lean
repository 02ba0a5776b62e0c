import OwnOS.Kmalloc.Search

/-!
# What `kmalloc` and `kfree` do to the blocks

* `Arena.search_spec`: the search of `kmalloc` ends with the panic or at a free block with enough
  room.
* `Arena.carve`: the block found gives up its tail. The remainder has to hold a header: with a
  remainder of 0 or 4 bytes the new header lies on the old one.
* `HeaderRing.concat`, `HeaderRing.markFree`: the stores of `kfree`; `HeaderRing.kfree` puts them
  together, and `kfree_spec` says that the alignment stays.
-/

namespace OwnOS.Kmalloc

open Lib Lib.Word

variable {h h₂ : Kmalloc} {p q x v : UInt32} {P Q M N : List Blk} {b c f : Blk}

/-! ## Replacing blocks -/

/-- **Replacing** the blocks `M` by `N` in their place: the memory changes only inside `M`, and what
was a chain and a tiling through `M` is one through `N`. -/
theorem HeaderRing.replace (h' : HeaderRing h (P ++ (M ++ Q))) (hbase : h₂.base = h.base)
    (hframe : ∀ x, (∀ b ∈ M, ¬ (b.addr.toNat ≤ x.toNat ∧ x.toNat < b.addr.toNat + b.size.toNat)) →
      h₂.mem x = h.mem x)
    (hchain : ∀ p q, Chain h.mem p M q → Chain h₂.mem p N q)
    (htiles : ∀ a e, Tiles (·.addr.toNat) (·.size.toNat) a M e →
      Tiles (·.addr.toNat) (·.size.toNat) a N e)
    (heven : ∀ b ∈ N, b.addr.toNat % 2 = 0) (h8 : ∀ b ∈ N, 8 ≤ b.size.toNat) :
    HeaderRing h₂ (P ++ (N ++ Q)) := by
  have hout : ∀ c ∈ P ++ Q, h₂.mem c.addr = h.mem c.addr ∧
      h₂.mem (c.addr + 4) = h.mem (c.addr + 4) := by
    intro c hc
    have hne : ∀ b ∈ M, ∀ x, b.addr.toNat ≤ x.toNat → x.toNat < b.addr.toNat + b.size.toNat →
        c.addr ≠ x ∧ c.addr + 4 ≠ x := by
      intro b hb x h1 h2
      obtain ⟨M₁, M₂, rfl⟩ := List.append_of_mem hb
      have h'' : HeaderRing h ((P ++ M₁) ++ b :: (M₂ ++ Q)) := by
        simpa only [List.append_assoc, List.cons_append] using h'
      refine h''.header_ne ?_ h1 h2
      rcases List.mem_append.mp hc with hc | hc
      · exact List.mem_append_left _ (List.mem_append_left _ hc)
      · exact List.mem_append_right _ (List.mem_append_right _ hc)
    exact ⟨hframe _ fun b hb hx => (hne b hb _ hx.1 hx.2).1 rfl,
      hframe _ fun b hb hx => (hne b hb _ hx.1 hx.2).2 rfl⟩
  obtain ⟨r, hP, hMQ⟩ := chain_append.mp h'.chain
  obtain ⟨s, hM, hQ⟩ := chain_append.mp hMQ
  obtain ⟨m, tP, tMQ⟩ := tiles_append.mp h'.tiles
  obtain ⟨n, tM, tQ⟩ := tiles_append.mp tMQ
  have hall : ∀ {p : Blk → Prop}, (∀ b ∈ P ++ (M ++ Q), p b) → (∀ b ∈ N, p b) →
      ∀ b ∈ P ++ (N ++ Q), p b := by
    intro p hold hnew b hb
    simp only [List.mem_append] at hb hold
    rcases hb with hb | hb | hb
    · exact hold b (Or.inl hb)
    · exact hnew b hb
    · exact hold b (Or.inr (Or.inr hb))
  refine ⟨⟨?_, ?_, hall h'.even heven, ?_⟩, ?_, hall h'.header h8⟩
  · rw [hbase]
    refine chain_append.mpr ⟨r, hP.congr fun c hc => hout c (List.mem_append_left _ hc), ?_⟩
    refine chain_append.mpr ⟨s, hchain r s hM, ?_⟩
    exact hQ.congr fun c hc => hout c (List.mem_append_right _ hc)
  · rw [hbase]
    exact tiles_append.mpr ⟨m, tP, tiles_append.mpr ⟨n, htiles m n tM, tQ⟩⟩
  · exact hall h'.nonempty fun b hb => Nat.lt_of_lt_of_le (by omega) (h8 b hb)
  · rw [hbase]
    exact h'.bound

/-! ## The search -/

/-- **The search** from a free block: the panic, or a free block with enough room. -/
theorem Arena.search_spec (h' : Arena h (P ++ b :: Q)) (rsize : UInt32) (hb : b.req = none) :
    (∃ msg, search pointers h rsize b.ptr = .error (.panic msg)) ∨
      ∃ P' f Q', P ++ b :: Q = P' ++ f :: Q' ∧ f.req = none ∧ rsize ≤ f.size ∧
        search pointers h rsize b.ptr = .ok f.ptr := by
  have hr := h'.ring.toRing
  have hbu := isUsed_of_even h'.base_even
  cases hfind : (b :: Q).find? fun c => decide (c.Fits rsize) with
  | none =>
    refine Or.inl ⟨_, hr.search_panics hb hbu fun c hc => ?_⟩
    simpa using List.find?_eq_none.mp hfind c hc
  | some f =>
    obtain ⟨hf, M, N, hsplit, hM⟩ := List.find?_eq_some_iff_append.mp hfind
    have hfit := of_decide_eq_true hf
    refine Or.inr ⟨P ++ M, f, N, by rw [hsplit, List.append_assoc], hfit.1, hfit.2, ?_⟩
    exact hr.search_takes hb hbu hsplit (fun c hc => by simpa using hM c hc) hfit

/-! ## Carving -/

/-- Replacing blocks by sound ones leaves the blocks sound. -/
theorem Arena.ok_replace (h' : Arena h (P ++ (M ++ Q))) (hN : ∀ b ∈ N, b.Ok) :
    ∀ b ∈ P ++ (N ++ Q), b.Ok := by
  intro b hb
  have hold := h'.ok b
  simp only [List.mem_append] at hb hold
  rcases hb with hb | hb | hb
  · exact hold (Or.inl hb)
  · exact hN b hb
  · exact hold (Or.inr (Or.inr hb))

/-- Words whose addresses differ as numbers are different words. -/
theorem ne_of_toNat_lt (hlt : p.toNat < q.toNat) : p ≠ q := by
  rintro rfl
  omega

/-- **Carving** a block for a request off the end of a free one that keeps room for a header. -/
theorem Arena.carve {rsize : UInt32} (h' : Arena h (P ++ f :: Q)) (req : UInt32) (hf : f.req = none)
    (h8 : 8 ≤ rsize.toNat) (h4 : rsize.toNat % 4 = 0) (hroom : rsize.toNat + 8 ≤ f.size.toNat)
    (hreq : req.toNat + 8 ≤ rsize.toNat) :
    ∃ h₂, h.carve f.ptr rsize = (h₂, f.addr + f.size - rsize + headerSize) ∧
      h₂.nextFree = f.addr ∧ h₂.base = h.base ∧
      Arena h₂ (P ++ ⟨f.addr, f.size - rsize, none⟩ ::
        ⟨f.addr + f.size - rsize, rsize, some req⟩ :: Q) := by
  have hmem : f ∈ P ++ f :: Q := by simp
  have hfok := h'.ok f hmem
  have hfa := h'.addr_aligned hmem
  obtain ⟨-, hfb⟩ := h'.addr_bounds hmem
  have hf4 := h'.ring.addr_add_four hmem
  obtain ⟨hsz, -, -, -⟩ := h'.ring.read
  have hfs := hfok.aligned
  obtain ⟨np, hnp⟩ : ∃ np, np = f.addr + f.size - rsize := ⟨_, rfl⟩
  have hend : (f.addr + f.size).toNat = f.addr.toNat + f.size.toNat := toNat_add_of_lt hfb
  have hnpN : np.toNat = f.addr.toNat + f.size.toNat - rsize.toNat := by
    rw [hnp, toNat_sub_of_le (by rw [hend]; omega), hend]
  have hsub : (f.size - rsize).toNat = f.size.toNat - rsize.toNat := toNat_sub_of_le (by omega)
  have hnpe : np.toNat % 2 = 0 := by omega
  have h4' : (4 : UInt32).toNat = 4 := rfl
  have hnp4 : (np + 4).toNat = np.toNat + 4 := toNat_add_of_lt (by rw [h4']; omega)
  -- the four words are different, since the remainder has room for a header
  have ne1 : f.addr ≠ f.addr + 4 := ne_of_toNat_lt (by omega)
  have ne2 : f.addr ≠ np := ne_of_toNat_lt (by omega)
  have ne3 : f.addr ≠ np + 4 := ne_of_toNat_lt (by omega)
  have ne4 : f.addr + 4 ≠ np := ne_of_toNat_lt (by omega)
  have ne5 : f.addr + 4 ≠ np + 4 := ne_of_toNat_lt (by omega)
  have ne6 : np ≠ np + 4 := ne_of_toNat_lt (by omega)
  have hu : resetPtr (setUsed np true) = np :=
    resetPtr_ptr (b := ⟨np, rsize, some req⟩) hnpe
  have hfe := h'.addr_even hmem
  have hfp := ptr_of_free hfe hf
  have hreset := resetPtr_of_even hfe
  rw [hfp] at hsz
  have hmem4 : h.mem (f.addr + 4) = f.size := by
    rw [← hsz, size, hreset]
  rw [← hnp]
  refine ⟨⟨Function.update (Function.update (Function.update (Function.update h.mem np
    (h.mem f.addr)) (np + 4) rsize) f.addr (setUsed np true)) (f.addr + 4) (f.size - rsize),
    h.base, f.addr⟩, ?_, rfl, rfl, ?_⟩
  · simp only [Kmalloc.carve, hfp, size, next, setNext, setSize, store, hreset, hmem4, ← hnp, hu,
      Function.update_of_ne ne1.symm, Function.update_of_ne ne4, Function.update_of_ne ne5]
  · have h'' : HeaderRing h (P ++ ([f] ++ Q)) := h'.ring
    have hnew : ∀ b ∈ [(⟨f.addr, f.size - rsize, none⟩ : Blk), ⟨np, rsize, some req⟩], b.Ok ∧
        b.addr.toNat % 2 = 0 := by
      intro b hb
      simp only [List.mem_cons, List.not_mem_nil, or_false] at hb
      rcases hb with rfl | rfl
      · exact ⟨⟨by simp only; omega, by simp only; omega, by simp⟩, hfe⟩
      · refine ⟨⟨h8, h4, fun r hr => ?_⟩, hnpe⟩
        obtain rfl := Option.some.inj hr
        exact hreq
    refine Arena.of_ring (h''.replace (N := [⟨f.addr, f.size - rsize, none⟩, ⟨np, rsize, some req⟩])
      rfl ?_ ?_ ?_ (fun b hb => (hnew b hb).2) fun b hb => (hnew b hb).1.header)
        h'.base_aligned h'.bound
      (h'.ok_replace (M := [f]) fun b hb => (hnew b hb).1)
    · intro x hx
      have hx := hx f List.mem_cons_self
      have hne : ∀ y : UInt32, f.addr.toNat ≤ y.toNat → y.toNat < f.addr.toNat + f.size.toNat →
          x ≠ y := by
        rintro y h1 h2 rfl
        exact hx ⟨h1, h2⟩
      simp only [Function.update_of_ne (hne (f.addr + 4) (by omega) (by omega)),
        Function.update_of_ne (hne f.addr (by omega) (by omega)),
        Function.update_of_ne (hne (np + 4) (by omega) (by omega)),
        Function.update_of_ne (hne np (by omega) (by omega))]
    · rintro p q ⟨hp, -, hq⟩
      have hq : h.mem f.addr = q := hq
      refine ⟨?_, ?_, ?_, ?_, ?_⟩
      · rw [hp, hfp]
        exact (ptr_of_free (b := ⟨f.addr, f.size - rsize, none⟩) hfe rfl).symm
      · exact Function.update_self _ _ _
      · simp only [Function.update_of_ne ne1, Function.update_self]
        rfl
      · simp only [Function.update_of_ne ne5.symm, Function.update_of_ne ne3.symm,
          Function.update_self]
      · simp only [Function.update_of_ne ne4.symm, Function.update_of_ne ne2.symm,
          Function.update_of_ne ne6, Function.update_self]
        exact hq
    · rintro a e ⟨h1, h2⟩
      simp only [tiles_cons, tiles_nil] at h1 h2 ⊢
      omega

/-! ## Freeing -/

/-- **Taking in** the block behind a free one. -/
theorem HeaderRing.concat (h' : HeaderRing h (P ++ b :: c :: Q)) (hb : b.req = none)
    (hp : resetPtr p = b.addr) (hq : resetPtr q = c.addr) :
    HeaderRing (h.concat p q) (P ++ ⟨b.addr, b.size + c.size, none⟩ :: Q) := by
  have hbm : b ∈ P ++ b :: c :: Q := by simp
  have hcm : c ∈ P ++ b :: c :: Q := by simp
  obtain ⟨-, hbb⟩ := h'.addr_bounds hbm
  obtain ⟨-, hcb⟩ := h'.addr_bounds hcm
  have hb4 := h'.addr_add_four hbm
  have hc4 := h'.addr_add_four hcm
  have hba := h'.even b hbm
  have hca := h'.even c hcm
  have hb8 := h'.header b hbm
  have hc8 := h'.header c hcm
  have hadj : c.addr.toNat = b.addr.toNat + b.size.toNat := by
    obtain ⟨m, -, h1, h2, -⟩ := tiles_append.mp h'.tiles
    have h1 : b.addr.toNat = m := h1
    have h2 : c.addr.toNat = m + b.size.toNat := h2
    omega
  have hsum : b.size.toNat + c.size.toNat ≤ 0x20000 := by
    have h1 := (h'.tiles.bounds hbm).1
    have h2 := (h'.tiles.bounds hcm).2
    omega
  have hadd : (b.size + c.size).toNat = b.size.toNat + c.size.toNat := toNat_add_of_lt (by omega)
  have ne1 : b.addr ≠ b.addr + 4 := ne_of_toNat_lt (by omega)
  have ne2 : b.addr + 4 ≠ c.addr := ne_of_toNat_lt (by omega)
  have hreadb : h.mem (b.addr + 4) = b.size := by
    have := h'.read.1
    rwa [size, resetPtr_ptr hba] at this
  have hreadc : h.mem (c.addr + 4) = c.size := by
    have := h'.shift.read.1
    rwa [size, resetPtr_ptr hca] at this
  have hcat : h.concat p q = ⟨Function.update (Function.update h.mem (b.addr + 4)
      (b.size + c.size)) b.addr (h.mem c.addr), h.base, h.nextFree⟩ := by
    simp only [Kmalloc.concat, size, next, setNext, setSize, store, hp, hq, hreadb, hreadc,
      Function.update_of_ne ne2.symm]
  rw [hcat]
  have h'' : HeaderRing h (P ++ ([b, c] ++ Q)) := h'
  refine h''.replace (N := [⟨b.addr, b.size + c.size, none⟩]) rfl ?_ ?_ ?_ ?_ ?_
  · intro x hx
    have hx := hx b List.mem_cons_self
    have hne : ∀ y : UInt32, b.addr.toNat ≤ y.toNat → y.toNat < b.addr.toNat + b.size.toNat →
        x ≠ y := by
      rintro y h1 h2 rfl
      exact hx ⟨h1, h2⟩
    simp only [Function.update_of_ne (hne b.addr (by omega) (by omega)),
      Function.update_of_ne (hne (b.addr + 4) (by omega) (by omega))]
  · rintro r s ⟨hr, -, -, -, hs⟩
    have hs : h.mem c.addr = s := hs
    refine ⟨?_, ?_, ?_⟩
    · rw [hr, ptr_of_free hba hb]
      exact (ptr_of_free (b := ⟨b.addr, b.size + c.size, none⟩) hba rfl).symm
    · simp only [Function.update_of_ne ne1.symm, Function.update_self]
    · simp only [Function.update_self]
      exact hs
  · rintro a e ⟨h1, h2, h3⟩
    simp only [tiles_cons, tiles_nil] at h1 h2 h3 ⊢
    omega
  · intro d hd
    obtain rfl := List.mem_singleton.mp hd
    exact hba
  · intro d hd
    obtain rfl := List.mem_singleton.mp hd
    simp only
    omega

/-- **Clearing the used bit** of a block: it stands in the header before it. -/
theorem HeaderRing.markFree (h' : HeaderRing h (P ++ b :: c :: Q)) (hp : resetPtr p = b.addr) :
    HeaderRing (h.setNext p c.addr) (P ++ b :: { c with req := none } :: Q) := by
  have hbm : b ∈ P ++ b :: c :: Q := by simp
  have hcm : c ∈ P ++ b :: c :: Q := by simp
  have hb4 := h'.addr_add_four hbm
  have hc4 := h'.addr_add_four hcm
  have hca := h'.even c hcm
  have hb8 := h'.header b hbm
  have hne : ∀ x : UInt32, b.addr.toNat < x.toNat →
      Function.update h.mem b.addr c.addr x = h.mem x :=
    fun x hx => Function.update_of_ne (ne_of_toNat_lt hx).symm _ _
  have hlt : b.addr.toNat < c.addr.toNat := by
    have := (List.pairwise_append.mp h'.tiles.pairwise).2.1
    have := (List.pairwise_cons.mp this).1 c List.mem_cons_self
    omega
  have h'' : HeaderRing h (P ++ ([b, c] ++ Q)) := h'
  refine h''.replace (N := [b, { c with req := none }]) rfl ?_ ?_ ?_ ?_ ?_
  · intro x hx
    have hx := hx b List.mem_cons_self
    simp only [setNext, store, hp]
    refine Function.update_of_ne ?_ _ _
    rintro rfl
    exact hx ⟨Nat.le_refl _, by omega⟩
  · rintro r s ⟨hr, hbs, -, hcs, hs⟩
    simp only [setNext, store, hp]
    refine ⟨hr, ?_, ?_, ?_, ?_⟩
    · rw [hne _ (by omega)]
      exact hbs
    · rw [Function.update_self]
      exact (ptr_of_free (b := { c with req := none }) hca rfl).symm
    · rw [hne _ (by simp only; omega)]
      exact hcs
    · simp only [hne _ hlt]
      exact hs
  · exact fun a e ht => ht
  · intro d hd
    simp only [List.mem_cons, List.not_mem_nil, or_false] at hd
    rcases hd with rfl | rfl
    · exact h'.even _ hbm
    · exact hca
  · intro d hd
    simp only [List.mem_cons, List.not_mem_nil, or_false] at hd
    rcases hd with rfl | rfl
    · exact hb8
    · exact h'.header c hcm

/-- The loop of `kfree` goes along a chain up to the first pointer to the block to free. -/
theorem findPrev_chain {M : List Blk} {fuel : Nat} (hfuel : M.length < fuel)
    (heven : ∀ d ∈ M ++ [c], d.addr.toNat % 2 = 0)
    (hne : ∀ d ∈ (M ++ [c]).tail, d.addr ≠ resetPtr x) (hq : resetPtr q = resetPtr x)
    (hch : Chain h.mem p (M ++ [c]) q) :
    findPrev fuel h x p = .ok (c.ptr, q) := by
  induction M generalizing p fuel with
  | nil =>
    obtain ⟨fuel, rfl⟩ : ∃ n, fuel = n + 1 := ⟨fuel - 1, by omega⟩
    obtain ⟨rfl, -, hnext⟩ := hch
    have hnext : h.next c.ptr = q := by
      rw [next, resetPtr_ptr (heven c (by simp))]
      exact hnext
    simp only [findPrev, hnext, hq, ne_eq, not_true_eq_false, if_false]
  | cons d M ih =>
    rw [List.length_cons] at hfuel
    obtain ⟨fuel, rfl⟩ : ∃ n, fuel = n + 1 := ⟨fuel - 1, by omega⟩
    obtain ⟨rfl, -, hch⟩ := hch
    have hnext : h.next d.ptr = h.mem d.addr := by rw [next, resetPtr_ptr (heven d (by simp))]
    -- the next header is not the one to free: that one comes behind the chain
    obtain ⟨e, he, hptr⟩ : ∃ e ∈ M ++ [c], h.mem d.addr = e.ptr := by
      cases M with
      | nil => exact ⟨c, by simp, hch.1⟩
      | cons e M => exact ⟨e, by simp, hch.1⟩
    have hgo : resetPtr (h.mem d.addr) ≠ resetPtr x := by
      rw [hptr, resetPtr_ptr (heven e (List.mem_cons_of_mem _ he))]
      exact hne e he
    simp only [findPrev, hnext, if_pos hgo]
    exact ih (by omega) (fun e he => heven e (List.mem_cons_of_mem _ he))
      (fun e he => hne e (List.mem_of_mem_tail he)) hch

/-- The loop of `kfree` finds the block before the one to free. -/
theorem HeaderRing.findPrev_behind (h' : HeaderRing h (P ++ b :: f :: Q)) :
    findPrev pointers h f.addr h.base = .ok (b.ptr, f.ptr) := by
  have hfa := h'.even f (by simp)
  have hsplit := h'.shift
  obtain ⟨-, -, -, hch⟩ := hsplit.read
  refine findPrev_chain ?_ (fun d hd => h'.even d ?_) (fun d hd => ?_) ?_ hch
  · have := h'.length_lt
    rw [List.length_append] at this
    omega
  · simp only [List.mem_append, List.mem_cons, List.not_mem_nil, or_false] at hd ⊢
    tauto
  · rw [resetPtr_of_even hfa]
    exact hsplit.addr_inj (List.mem_append_left _ (List.mem_of_mem_tail hd))
  · rw [resetPtr_ptr hfa, resetPtr_of_even hfa]

/-- For the first block the loop goes around the whole ring. -/
theorem HeaderRing.findPrev_first (h' : HeaderRing h (f :: Q)) :
    ∃ c ∈ f :: Q, findPrev pointers h f.addr h.base = .ok (c.ptr, f.ptr) := by
  have hfa := h'.even f (by simp)
  obtain ⟨M, c, hM⟩ := List.eq_nil_or_concat (f :: Q) |>.resolve_left (by simp)
  rw [List.concat_eq_append] at hM
  have hch := h'.chain
  have hlen := h'.length_lt
  rw [hM, List.length_append] at hlen
  refine ⟨c, by simp [hM], ?_⟩
  rw [← h'.head_eq.2]
  rw [hM] at hch
  refine findPrev_chain (by omega) (fun d hd => h'.even d (hM ▸ hd)) (fun d hd => ?_) ?_ hch
  · rw [← hM, List.tail_cons] at hd
    rw [resetPtr_of_even hfa]
    exact h'.addr_inj (P := []) hd
  · rw [h'.head_eq.1, resetPtr_of_even hfa]

/-- The blocks from `b` on after `kfree` of the block `f` behind it: `f` joins a free neighbour on
either side. -/
def release (b f : Blk) (Q : List Blk) : List Blk :=
  match b.req, Q with
  | none, [] => [⟨b.addr, b.size + f.size, none⟩]
  | some _, [] => [b, { f with req := none }]
  | none, n :: Q =>
    if n.req = none then ⟨b.addr, b.size + f.size + n.size, none⟩ :: Q
    else ⟨b.addr, b.size + f.size, none⟩ :: n :: Q
  | some _, n :: Q =>
    if n.req = none then b :: ⟨f.addr, f.size + n.size, none⟩ :: Q
    else b :: { f with req := none } :: n :: Q

/-- **`kfree`** of a block behind another one. -/
theorem HeaderRing.kfree (h' : HeaderRing h (P ++ b :: f :: Q)) :
    ∃ h₂, h.kfree (f.addr + headerSize) = .ok h₂ ∧ h₂.base = h.base ∧ h₂.nextFree = h.nextFree ∧
      HeaderRing h₂ (P ++ release b f Q) := by
  have hba : b.addr.toNat % 2 = 0 := h'.even b (by simp)
  have hfa : f.addr.toNat % 2 = 0 := h'.even f (by simp)
  have hfree : f.addr + headerSize - headerSize = f.addr := UInt32.add_sub_cancel _ _
  have hfind := h'.findPrev_behind
  have hf' := h'.shift
  have hfb : resetPtr f.addr ≠ resetPtr h.base := by
    rw [resetPtr_of_even hfa]
    exact hf'.ne_base (by simp)
  have hnext : h.next f.ptr = h.mem f.addr := hf'.read.2.1
  have hQ := hf'.read.2.2.1
  have hbp := resetPtr_ptr hba
  have hfr := resetPtr_of_even hfa
  have hbf : h.next b.ptr = f.ptr := h'.read.2.1.trans h'.read.2.2.1.1
  have hclear : setUsed f.ptr false = f.addr := by
    rw [setUsed, if_neg (by simp)]
    exact resetPtr_ptr hfa
  have hclear' := setUsed_false hfa
  unfold Kmalloc.kfree
  simp only [hfree, hfind, Res.ok_bind, if_neg hfb, hnext, isUsed_ptr hba, hbf, hclear, hclear']
  cases Q with
  | nil =>
    have hlast : h.mem f.addr = h.base := hQ
    simp only [hlast, if_true, Bool.not_true, Bool.false_eq_true, if_false]
    cases hb : b.req with
    | none =>
      simp only [release, hb, Option.isSome_none, Bool.not_false, if_true]
      exact ⟨_, rfl, rfl, rfl, h'.concat hb hbp hfr⟩
    | some r =>
      simp only [release, hb, Option.isSome_some, Bool.not_true, Bool.false_eq_true, if_false]
      exact ⟨_, rfl, rfl, rfl, h'.markFree hbp⟩
  | cons n Q =>
    have hn : h.mem f.addr = n.ptr := hQ.1
    have hna : n.addr.toNat % 2 = 0 := h'.even n (by simp)
    have hnp := resetPtr_ptr hna
    have hn' := h'.shift.shift
    have hnb : resetPtr n.ptr ≠ resetPtr h.base := by
      rw [hnp]
      exact hn'.ne_base (by simp)
    simp only [hn, if_neg hnb, isUsed_ptr hna]
    cases hb : b.req with
    | none =>
      have h₁ := h'.concat hb hbp hfr
      simp only [release, hb, Option.isSome_none, Bool.not_false, if_true]
      cases hnr : n.req with
      | none =>
        simp only [Option.isSome_none, Bool.not_false, if_true]
        exact ⟨_, rfl, rfl, rfl, h₁.concat rfl hbp hnp⟩
      | some s =>
        simp only [Option.isSome_some, Bool.not_true, Bool.false_eq_true, if_false]
        exact ⟨_, rfl, rfl, rfl, h₁⟩
    | some r =>
      have h₁ := h'.markFree hbp
      simp only [release, hb, Option.isSome_some, Bool.not_true, Bool.false_eq_true, if_false]
      cases hnr : n.req with
      | none =>
        have h₃ := h₁.shift.concat rfl (p := f.addr) (q := n.ptr) hfr hnp
        simp only [Option.isSome_none, Bool.not_false, if_true]
        refine ⟨_, rfl, rfl, rfl, ?_⟩
        simpa only [List.append_assoc, List.cons_append, List.nil_append] using h₃
      | some s =>
        simp only [Option.isSome_some, Bool.not_true, Bool.false_eq_true, if_false]
        exact ⟨_, rfl, rfl, rfl, h₁⟩

/-- The blocks of `release` are sound if those it puts together are. -/
theorem release_ok (hb : b.Ok) (hf : f.Ok) (hQ : ∀ c ∈ Q, c.Ok)
    (hsum : b.size.toNat + f.size.toNat + (Q.map (·.size.toNat)).sum < 4294967296) :
    ∀ c ∈ release b f Q, c.Ok := by
  have hjoin : ∀ {x y : Blk}, x.Ok → y.Ok → x.size.toNat + y.size.toNat < 4294967296 →
      (⟨x.addr, x.size + y.size, none⟩ : Blk).Ok := by
    intro x y hx hy hlt
    have hadd : (x.size + y.size).toNat = x.size.toNat + y.size.toNat := toNat_add_of_lt hlt
    have h1 := hx.header
    have h2 := hx.aligned
    have h3 := hy.aligned
    exact ⟨by simp only; omega, by simp only; omega, by simp⟩
  have hfree : ({ f with req := none } : Blk).Ok := ⟨hf.header, hf.aligned, by simp⟩
  have hbf := hjoin hb hf (by omega)
  have hbfn : (b.size + f.size).toNat = b.size.toNat + f.size.toNat := toNat_add_of_lt (by omega)
  cases Q with
  | nil =>
    cases hr : b.req with
    | none =>
      simp only [release, hr, List.mem_singleton]
      rintro c rfl
      exact hbf
    | some r =>
      simp only [release, hr, List.mem_cons, List.not_mem_nil, or_false]
      rintro c (rfl | rfl)
      · exact hb
      · exact hfree
  | cons n Q =>
    rw [List.map_cons, List.sum_cons] at hsum
    have hn := hQ n List.mem_cons_self
    cases hr : b.req with
    | none =>
      simp only [release, hr]
      split
      · rintro c hc
        rcases List.mem_cons.mp hc with rfl | hc
        · exact hjoin (x := ⟨b.addr, b.size + f.size, none⟩) hbf hn (by simp only; omega)
        · exact hQ c (List.mem_cons_of_mem _ hc)
      · rintro c hc
        rcases List.mem_cons.mp hc with rfl | hc
        · exact hbf
        · exact hQ c hc
    | some r =>
      simp only [release, hr]
      split
      · rintro c hc
        simp only [List.mem_cons] at hc
        rcases hc with rfl | rfl | hc
        · exact hb
        · exact hjoin hf hn (by omega)
        · exact hQ c (List.mem_cons_of_mem _ hc)
      · rintro c hc
        simp only [List.mem_cons] at hc hQ
        rcases hc with rfl | rfl | hc
        · exact hb
        · exact hfree
        · exact hQ c hc

/-- `kfree` keeps the arena aligned. -/
theorem kfree_spec (h' : Arena h (P ++ b :: f :: Q)) :
    ∃ h₂, h.kfree (f.addr + headerSize) = .ok h₂ ∧ h₂.base = h.base ∧ h₂.nextFree = h.nextFree ∧
      Arena h₂ (P ++ release b f Q) := by
  obtain ⟨h₂, hk, hbase, hnf, h₂'⟩ := h'.ring.kfree
  refine ⟨h₂, hk, hbase, hnf, Arena.of_ring h₂' (hbase ▸ h'.base_aligned) (hbase ▸ h'.bound) ?_⟩
  have hsum := h'.tiles.sum
  have hbound := h'.bound
  simp only [List.map_append, List.map_cons, List.sum_append, List.sum_cons] at hsum
  intro c hc
  rcases List.mem_append.mp hc with hc | hc
  · exact h'.ok c (List.mem_append_left _ hc)
  · refine release_ok (h'.ok b (by simp)) (h'.ok f (by simp))
      (fun d hd => h'.ok d (by simp [hd])) ?_ c hc
    omega

end OwnOS.Kmalloc
