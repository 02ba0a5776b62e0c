import OwnOS.Kmalloc.Blocks

/-!
# The search of `kmalloc`

The search goes from one unused header to the next, from `next_free` on, and stops when it meets
`base`. `Chain` says where that walk leads, so the facts are about the blocks of a chain, wherever
it comes from:

* `nextUnused_dropWhile`: the inner loop passes over the blocks in use.
* `search_found`: the search takes the first block of the chain that fits.
* `search_none`: if none does before the chain comes to an unused `base`, it panics.
* `search_hang`: in a ring whose `base` is in use it never meets `base`. Nothing in `kmalloc.cpp`
  marks `base`: "(!=base|KMALLOC_USED)なので", `kmalloc.cpp:43-44`.
-/

namespace OwnOS.Kmalloc

open Lib Lib.Word

variable {h : Kmalloc} {p q rsize : UInt32} {fuel : Nat} {P Q M N L : List Blk} {b c f : Blk}

/-- The block is in use. -/
def Blk.used (b : Blk) : Bool := b.req.isSome

/-- The search takes the block for `rsize` bytes. -/
def Blk.Fits (rsize : UInt32) (b : Blk) : Prop := b.req = none ∧ rsize ≤ b.size

instance (rsize : UInt32) (b : Blk) : Decidable (b.Fits rsize) :=
  inferInstanceAs (Decidable (_ ∧ _))

theorem used_eq_false :
    b.used = false ↔ b.req = none := Option.isSome_eq_false_iff.trans Option.isNone_iff_eq_none

/-- The inner loop leads to the first block not in use, or to the end of the chain. -/
theorem nextUnused_dropWhile (hch : Chain h.mem (h.next p) L q)
    (heven : ∀ c ∈ L, c.addr.toNat % 2 = 0) (hq : isUsed q = false) (hlen : L.length < fuel) :
    ∃ r, nextUnused fuel h p = .ok r ∧ isUsed r = false ∧
    Chain h.mem r (L.dropWhile Blk.used) q := by
  induction L generalizing p fuel with
  | nil =>
    obtain ⟨fuel, rfl⟩ : ∃ m, fuel = m + 1 := ⟨fuel - 1, by omega⟩
    have hp : h.next p = q := hch
    refine ⟨q, ?_, hq, rfl⟩
    simp only [nextUnused, hp, hq]
    rfl
  | cons c L ih =>
    obtain ⟨fuel, rfl⟩ : ∃ m, fuel = m + 1 := ⟨fuel - 1, by omega⟩
    obtain ⟨hp, hs, hch⟩ := hch
    have hc := heven c List.mem_cons_self
    have hu := isUsed_ptr hc
    simp only [nextUnused, hp]
    cases hused : c.used with
    | false =>
      have hcu : isUsed c.ptr = false := hu.trans hused
      rw [List.dropWhile_cons_of_neg (by rw [hused]; exact Bool.false_ne_true)]
      exact ⟨c.ptr, by simp only [hcu, Bool.false_eq_true, if_false], hcu, rfl, hs, hch⟩
    | true =>
      have hcu : isUsed c.ptr = true := hu.trans hused
      have hnext : h.next c.ptr = h.mem c.addr := by rw [next, resetPtr_ptr hc]
      have hlen' : L.length < fuel := by
        rw [List.length_cons] at hlen
        omega
      rw [List.dropWhile_cons_of_pos hused, if_pos hcu]
      exact ih (hnext ▸ hch) (fun d hd => heven d (List.mem_cons_of_mem _ hd)) hlen'

/-- What the search reads at the first block of a chain. -/
theorem Chain.read_head (hch : Chain h.mem p (b :: L) q) (hb : b.addr.toNat % 2 = 0) :
    p = b.ptr ∧ h.size p = b.size ∧ Chain h.mem (h.next p) L q := by
  obtain ⟨rfl, hs, hL⟩ := hch
  refine ⟨rfl, ?_, ?_⟩
  · rw [size, resetPtr_ptr hb]
    exact hs
  · rw [next, resetPtr_ptr hb]
    exact hL

/-- The first block behind an unused one is not in use, and the search goes on from it if it is not
`base`. -/
theorem search_next (fuel : Nat) {d : Blk} (hch : Chain h.mem p (d :: L) q) (hp : isUsed p = false)
    (heven : ∀ c ∈ d :: L, c.addr.toNat % 2 = 0) (hq : isUsed q = false) (hd : ¬ d.Fits rsize)
    (hlen : L.length < pointers) :
    ∃ r, isUsed r = false ∧ Chain h.mem r (L.dropWhile Blk.used) q ∧
      search (fuel + 1) h rsize p = if resetPtr r ≠ resetPtr h.base then search fuel h rsize r
        else .error (.panic "malloc error \n") := by
  have hde := heven d List.mem_cons_self
  obtain ⟨rfl, hsize, hL⟩ := hch.read_head hde
  have hfree : d.req = none := by
    rw [isUsed_ptr hde] at hp
    exact used_eq_false.mp hp
  have hsmall : ¬ rsize ≤ h.size d.ptr := by
    rw [hsize]
    exact fun hle => hd ⟨hfree, hle⟩
  obtain ⟨r, hr, hru, hrch⟩ :=
    nextUnused_dropWhile hL (fun c hc => heven c (List.mem_cons_of_mem _ hc)) hq hlen
  refine ⟨r, hru, hrch, ?_⟩
  rw [search, if_neg hsmall, hr, Res.ok_bind]

/-- An unused pointer leads to an unused block. -/
theorem Chain.head_free (hch : Chain h.mem p (c :: L) q) (hp : isUsed p = false)
    (hc : c.addr.toNat % 2 = 0) : c.req = none ∧ resetPtr p = c.addr := by
  obtain ⟨rfl, -⟩ := hch
  rw [isUsed_ptr hc] at hp
  exact ⟨used_eq_false.mp hp, resetPtr_ptr hc⟩

/-- **The search takes the first block that fits**, if the free blocks before it are not `base`. -/
theorem search_found (hch : Chain h.mem p (M ++ f :: N) q) (hp : isUsed p = false)
    (heven : ∀ c ∈ M ++ f :: N, c.addr.toNat % 2 = 0) (hq : isUsed q = false)
    (hM : ∀ c ∈ M, ¬ c.Fits rsize) (hf : f.Fits rsize)
    (hbase : ∀ c ∈ (M ++ f :: N).tail, c.req = none → c.addr ≠ resetPtr h.base)
    (hlen : (M ++ f :: N).length ≤ pointers) (hfuel : M.length < fuel) :
    search fuel h rsize p = .ok f.ptr := by
  induction fuel generalizing p M with
  | zero => exact absurd hfuel (Nat.not_lt_zero _)
  | succ fuel ih =>
    cases M with
    | nil =>
      obtain ⟨rfl, hsize, -⟩ := hch.read_head (heven f (by simp))
      rw [search, hsize, if_pos hf.2]
    | cons d M =>
      have hlen' : (M ++ f :: N).length < pointers := hlen
      obtain ⟨r, hru, hrch, hs⟩ :=
        search_next (L := M ++ f :: N) fuel hch hp heven hq (hM d (by simp)) hlen'
      -- the walk goes on at the first free block of `M`, or at `f`
      have hdrop : (M ++ f :: N).dropWhile Blk.used = M.dropWhile Blk.used ++ f :: N := by
        have hfu : ¬ f.used = true := by
          rw [used_eq_false.mpr hf.1]
          exact Bool.false_ne_true
        rw [List.dropWhile_append, List.dropWhile_cons_of_neg hfu]
        split
        · rename_i hnil
          rw [List.isEmpty_iff.mp hnil, List.nil_append]
        · rfl
      have hsub : ∀ c ∈ M.dropWhile Blk.used, c ∈ M :=
        fun c hc => (List.dropWhile_suffix _).subset hc
      have hsub' : ∀ c ∈ M.dropWhile Blk.used ++ f :: N, c ∈ M ++ f :: N := by
        rw [← hdrop]
        exact fun c hc => (List.dropWhile_suffix _).subset hc
      have hle : (M.dropWhile Blk.used).length ≤ M.length := List.length_dropWhile_le _ _
      rw [hdrop] at hrch
      have hne : resetPtr r ≠ resetPtr h.base := by
        obtain ⟨c, L, hcL⟩ :=
          List.exists_cons_of_ne_nil (l := M.dropWhile Blk.used ++ f :: N) (by simp)
        rw [hcL] at hrch hsub'
        have hc := hsub' c List.mem_cons_self
        obtain ⟨hfree, hrc⟩ := hrch.head_free hru (heven c (List.mem_cons_of_mem _ hc))
        rw [hrc]
        exact hbase c hc hfree
      rw [hs, if_pos hne]
      refine ih hrch hru (fun c hc => heven c (List.mem_cons_of_mem _ (hsub' c hc)))
        (fun c hc => hM c (List.mem_cons_of_mem _ (hsub c hc)))
        (fun c hc => hbase c (hsub' c (List.mem_of_mem_tail hc))) ?_ ?_
      · simp only [List.length_append, List.length_cons] at hlen' ⊢
        omega
      · simp only [List.length_cons] at hfuel
        omega

/-- **If no block fits up to an unused `base`, the search panics.** -/
theorem search_none (hch : Chain h.mem p L h.base) (hL : L ≠ []) (hp : isUsed p = false)
    (heven : ∀ c ∈ L, c.addr.toNat % 2 = 0) (hbase : isUsed h.base = false)
    (hno : ∀ c ∈ L, ¬ c.Fits rsize) (htail : ∀ c ∈ L.tail, c.addr ≠ resetPtr h.base)
    (hlen : L.length ≤ pointers) (hfuel : L.length ≤ fuel) :
    search fuel h rsize p = .error (.panic "malloc error \n") := by
  induction fuel generalizing p L with
  | zero => exact absurd (List.length_pos_iff.mpr hL) (by omega)
  | succ fuel ih =>
    obtain ⟨d, L, rfl⟩ := List.exists_cons_of_ne_nil hL
    obtain ⟨r, hru, hrch, hs⟩ := search_next fuel hch hp heven hbase (hno d (by simp)) hlen
    have hsub : ∀ c ∈ L.dropWhile Blk.used, c ∈ L := fun c hc => (List.dropWhile_suffix _).subset hc
    rw [hs]
    rcases hdrop : L.dropWhile Blk.used with _ | ⟨c, L'⟩
    · rw [hdrop] at hrch
      obtain rfl : r = h.base := hrch
      rw [if_neg (not_not.mpr rfl)]
    · have hc := hsub c (by rw [hdrop]; exact List.mem_cons_self)
      have hle : (c :: L').length ≤ L.length := hdrop ▸ List.length_dropWhile_le _ _
      rw [hdrop] at hrch hsub
      obtain ⟨-, hrc⟩ := hrch.head_free hru (heven c (List.mem_cons_of_mem _ hc))
      rw [if_pos (hrc ▸ htail c hc)]
      rw [List.length_cons] at hlen hfuel
      refine ih hrch (List.cons_ne_nil _ _) hru
        (fun e he => heven e (List.mem_cons_of_mem _ (hsub e he)))
        (fun e he => hno e (List.mem_cons_of_mem _ (hsub e he)))
        (fun e he => htail e (hsub e (List.mem_of_mem_tail he))) (by omega) (by omega)

namespace Ring

/-- The ring read from one of its blocks: round to the pointer to that block. -/
theorem rotate (h' : Ring h (P ++ b :: Q)) : Chain h.mem b.ptr (b :: (Q ++ P)) b.ptr := by
  obtain ⟨-, -, hQ, hP⟩ := h'.read
  obtain ⟨r, -, hr, hs, -⟩ := chain_append.mp h'.chain
  exact ⟨rfl, hs, chain_append.mpr ⟨h.base, hQ, hP⟩⟩

/-- The ring read from one of its blocks up to `base`. -/
theorem suffix (h' : Ring h (P ++ b :: Q)) : Chain h.mem b.ptr (b :: Q) h.base := by
  obtain ⟨r, -, hr, hs, hQ⟩ := chain_append.mp h'.chain
  exact ⟨rfl, hs, hQ⟩

/-- A free block is not a `base` in use. -/
theorem free_ne_base (h' : Ring h L) (hbase : isUsed h.base = true) (hc : c ∈ L)
    (hfree : c.req = none) :
    c.addr ≠ resetPtr h.base := by
  obtain ⟨d, L, rfl⟩ := List.exists_cons_of_ne_nil h'.ne_nil
  obtain ⟨hd, hptr⟩ := h'.head_eq
  rw [hptr, isUsed_ptr (h'.even d List.mem_cons_self)] at hbase
  rcases List.mem_cons.mp hc with rfl | hc
  · rw [hfree] at hbase
    exact absurd hbase Bool.false_ne_true
  · rw [hd]
    exact h'.addr_inj (P := []) hc

/-- **In a ring whose `base` is in use, a search for which no block is large enough never ends.** -/
theorem search_hang (h' : Ring h L) (hbase : isUsed h.base = true) (hno : ∀ c ∈ L, ¬ c.Fits rsize)
    (fuel : Nat) (hc : c ∈ L) (hfree : c.req = none) :
    search fuel h rsize c.ptr = .error .hang := by
  induction fuel generalizing c with
  | zero => rfl
  | succ fuel ih =>
    obtain ⟨P, Q, rfl⟩ := List.append_of_mem hc
    have hrot : ∀ d ∈ c :: (Q ++ P), d ∈ P ++ c :: Q := by
      intro d hd
      simp only [List.mem_cons, List.mem_append] at hd ⊢
      tauto
    have heven : ∀ d ∈ c :: (Q ++ P), d.addr.toNat % 2 = 0 := fun d hd => h'.even d (hrot d hd)
    have hcu : isUsed c.ptr = false := (isUsed_ptr (h'.even c hc)).trans (used_eq_false.mpr hfree)
    have hlen : (Q ++ P).length < pointers := by
      have := h'.length_lt
      simp only [List.length_append, List.length_cons] at this ⊢
      omega
    obtain ⟨r, hru, hrch, hs⟩ := search_next fuel h'.rotate hcu heven hcu (hno c hc) hlen
    -- the next free block, which is `c` again if there is no other
    obtain ⟨d, hd, hdfree, rfl⟩ : ∃ d ∈ P ++ c :: Q, d.req = none ∧ r = d.ptr := by
      rcases hdrop : (Q ++ P).dropWhile Blk.used with _ | ⟨d, L'⟩
      · rw [hdrop] at hrch
        exact ⟨c, hc, hfree, hrch⟩
      · have hd : d ∈ Q ++ P := (List.dropWhile_suffix _).subset (hdrop ▸ List.mem_cons_self)
        have hd' := List.mem_cons_of_mem c hd
        rw [hdrop] at hrch
        exact ⟨d, hrot d hd', (hrch.head_free hru (heven d hd')).1, hrch.1⟩
    have hne : resetPtr d.ptr ≠ resetPtr h.base := by
      rw [resetPtr_ptr (h'.even d hd)]
      exact h'.free_ne_base hbase hd hdfree
    rw [hs, if_pos hne]
    exact ih hd hdfree

/-- A block behind another one is not `base`. -/
theorem behind_ne_base (h' : Ring h (P ++ b :: Q)) (hc : c ∈ Q) : c.addr ≠ resetPtr h.base := by
  obtain ⟨M, N, rfl⟩ := List.append_of_mem hc
  have hsplit : Ring h ((P ++ b :: M) ++ c :: N) := by
    simpa only [List.append_assoc, List.cons_append] using h'
  exact hsplit.ne_base (by simp)

/-- What the search needs of the part of the ring from a free block on. -/
theorem search_ready (h' : Ring h (P ++ b :: Q)) (hb : b.req = none) :
    isUsed b.ptr = false ∧ (∀ c ∈ b :: Q, c.addr.toNat % 2 = 0) ∧ (b :: Q).length ≤ pointers := by
  have heven : ∀ c ∈ b :: Q, c.addr.toNat % 2 = 0 :=
    fun c hc => h'.even c (List.mem_append_right _ hc)
  refine ⟨(isUsed_ptr (heven b List.mem_cons_self)).trans (used_eq_false.mpr hb), heven, ?_⟩
  have := h'.length_lt
  rw [List.length_append] at this
  omega

/-- **The search takes the first block from `next_free` on that fits.** -/
theorem search_takes (h' : Ring h (P ++ b :: Q)) (hb : b.req = none) (hbase : isUsed h.base = false)
    (hsplit : b :: Q = M ++ f :: N) (hM : ∀ c ∈ M, ¬ c.Fits rsize) (hf : f.Fits rsize) :
    search pointers h rsize b.ptr = .ok f.ptr := by
  obtain ⟨hbu, heven, hlen⟩ := h'.search_ready hb
  have hch := h'.suffix
  have htail : ∀ c ∈ (b :: Q).tail, c.req = none → c.addr ≠ resetPtr h.base :=
    fun c hc _ => h'.behind_ne_base hc
  rw [hsplit] at hch heven hlen htail
  refine search_found hch hbu heven hbase hM hf htail hlen ?_
  rw [List.length_append, List.length_cons] at hlen
  omega

/-- **It panics if none does**, whatever lies before `next_free`. -/
theorem search_panics (h' : Ring h (P ++ b :: Q)) (hb : b.req = none)
    (hbase : isUsed h.base = false) (hno : ∀ c ∈ b :: Q, ¬ c.Fits rsize) :
    search pointers h rsize b.ptr = .error (.panic "malloc error \n") := by
  obtain ⟨hbu, heven, hlen⟩ := h'.search_ready hb
  exact search_none h'.suffix (List.cons_ne_nil _ _) hbu heven hbase hno
    (fun c hc => h'.behind_ne_base hc) hlen hlen

/-- With a `base` in use the search goes all the way round. -/
theorem search_takes_round (h' : Ring h (P ++ b :: Q)) (hb : b.req = none)
    (hbase : isUsed h.base = true) (hsplit : b :: (Q ++ P) = M ++ f :: N)
    (hM : ∀ c ∈ M, ¬ c.Fits rsize) (hf : f.Fits rsize) :
    search pointers h rsize b.ptr = .ok f.ptr := by
  have hrot : ∀ c ∈ b :: (Q ++ P), c ∈ P ++ b :: Q := by
    intro c hc
    simp only [List.mem_cons, List.mem_append] at hc ⊢
    tauto
  obtain ⟨hbu, -, -⟩ := h'.search_ready hb
  have hlen : (b :: (Q ++ P)).length ≤ pointers := by
    have := h'.length_lt
    simp only [List.length_append, List.length_cons] at this ⊢
    omega
  have hch := h'.rotate
  have heven : ∀ c ∈ b :: (Q ++ P), c.addr.toNat % 2 = 0 := fun c hc => h'.even c (hrot c hc)
  have htail : ∀ c ∈ (b :: (Q ++ P)).tail, c.req = none → c.addr ≠ resetPtr h.base :=
    fun c hc => h'.free_ne_base hbase (hrot c (List.mem_cons_of_mem _ hc))
  rw [hsplit] at hch heven hlen htail
  refine search_found hch hbu heven hbu hM hf htail hlen ?_
  rw [List.length_append, List.length_cons] at hlen
  omega

/-- Then any block that fits will do. -/
theorem search_round (h' : Ring h (P ++ b :: Q)) (hb : b.req = none) (hbase : isUsed h.base = true)
    (hf : f ∈ P ++ b :: Q) (hfit : f.Fits rsize) : ∃ p, search pointers h rsize b.ptr = .ok p := by
  have hrot : f ∈ b :: (Q ++ P) := by
    simp only [List.mem_cons, List.mem_append] at hf ⊢
    tauto
  cases hfind : (b :: (Q ++ P)).find? fun c => decide (c.Fits rsize) with
  | none => exact absurd (decide_eq_true hfit) (List.find?_eq_none.mp hfind f hrot)
  | some g =>
    obtain ⟨hg, M, N, hsplit, hM⟩ := List.find?_eq_some_iff_append.mp hfind
    exact ⟨g.ptr, h'.search_takes_round hb hbase hsplit (fun c hc => by simpa using hM c hc)
      (of_decide_eq_true hg)⟩

end Ring

end OwnOS.Kmalloc
