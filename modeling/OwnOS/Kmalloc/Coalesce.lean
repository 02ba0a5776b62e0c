import OwnOS.Kmalloc.FindsMemory

/-!
# What `kfree` leaves

`kfree` joins the freed block with its free neighbours, so a heap without two free blocks in a row
stays one. The four cases of `kfree` are those of `release`; `Release` names what they have in
common.

* **`kfree_coalesces`**: `kfree` of a block in use returns, the other blocks in use stay as they
  are, no two free blocks end up in a row, and the free bytes grow by the size of the block.
-/

namespace OwnOS.Kmalloc

open Lib Lib.Word

variable {h : Kmalloc} {l P Q L : List Blk} {b c f n : Blk}

/-- One of two blocks is in use. -/
def Blk.Apart (b c : Blk) : Prop := b.used = true ∨ c.used = true

/-- No two blocks in a row are free. -/
def Coalesced (l : List Blk) : Prop := l.IsChain Blk.Apart

/-- The bytes of the blocks not in use. -/
def freeBytes (l : List Blk) : Nat := ((l.filter fun b => !b.used).map (·.size.toNat)).sum

theorem freeBytes_append : freeBytes (P ++ Q) = freeBytes P + freeBytes Q := by
  simp only [freeBytes, List.filter_append, List.map_append, List.sum_append]

theorem freeBytes_cons :
    freeBytes (b :: l) = (if b.used then 0 else b.size.toNat) + freeBytes l := by
  cases hb : b.used with
  | true => simp only [freeBytes, List.filter_cons, hb, Bool.not_true, Bool.false_eq_true, if_false,
      if_true, Nat.zero_add]
  | false =>
      simp only [freeBytes, List.filter_cons, hb, Bool.not_false, Bool.false_eq_true, if_false,
      if_true, List.map_cons, List.sum_cons]

/-- The head of a block list is in use, if there is one. -/
def HeadUsed (l : List Blk) : Prop := ∀ c ∈ l.head?, c.used = true

theorem coalesced_cons : Coalesced (b :: l) ↔ (b.used = true ∨ HeadUsed l) ∧ Coalesced l := by
  rw [Coalesced, List.isChain_cons]
  refine and_congr ?_ Iff.rfl
  constructor
  · intro h
    by_cases hb : b.used = true
    · exact Or.inl hb
    · exact Or.inr fun c hc => (h c hc).resolve_left hb
  · rintro (hb | hl) c hc
    · exact Or.inl hb
    · exact Or.inr (hl c hc)

/-- Whether the blocks before a list fit it depends on whether its head is in use alone. -/
theorem coalesced_append_congr (hbc : b.used = c.used) (h : Coalesced (P ++ b :: Q))
    (hL : Coalesced (c :: L)) : Coalesced (P ++ c :: L) := by
  rw [Coalesced, List.isChain_append] at h ⊢
  refine ⟨h.1, hL, fun x hx y hy => ?_⟩
  obtain rfl : c = y := by simpa using hy
  have := h.2.2 x hx b (by simp)
  rwa [Blk.Apart, hbc] at this

/-! ## The four cases -/

/-- The list `L` is `b`, the freed block `f` and the blocks `Q` behind it after `kfree`. -/
inductive Release (b f : Blk) (Q : List Blk) : List Blk → Prop
  | both (n Q') (hb : b.used = false) (hQ : Q = n :: Q') (hn : n.used = false) :
    Release b f Q (⟨b.addr, b.size + f.size + n.size, none⟩ :: Q')
  | prev (hb : b.used = false) (hQ : HeadUsed Q) :
      Release b f Q (⟨b.addr, b.size + f.size, none⟩ :: Q)
  | next (n Q') (hb : b.used = true) (hQ : Q = n :: Q') (hn : n.used = false) :
    Release b f Q (b :: ⟨f.addr, f.size + n.size, none⟩ :: Q')
  | neither (hb : b.used = true) (hQ : HeadUsed Q) :
      Release b f Q (b :: { f with req := none } :: Q)

theorem release_cases (b f : Blk) (Q : List Blk) : Release b f Q (release b f Q) := by
  cases Q with
  | nil =>
    cases hb : b.req with
    | none =>
      simp only [release, hb]
      exact .prev (used_eq_false.mpr hb) (by simp [HeadUsed])
    | some r =>
      simp only [release, hb]
      exact .neither (by simp [Blk.used, hb]) (by simp [HeadUsed])
  | cons n Q =>
    cases hb : b.req with
    | none =>
      simp only [release, hb]
      split
      · rename_i hn
        exact .both n Q (used_eq_false.mpr hb) rfl (used_eq_false.mpr hn)
      · rename_i hn
        exact .prev (used_eq_false.mpr hb)
          (by simpa [HeadUsed, Blk.used, Option.isSome_iff_ne_none] using hn)
    | some r =>
      simp only [release, hb]
      split
      · rename_i hn
        exact .next n Q (by simp [Blk.used, hb]) rfl (used_eq_false.mpr hn)
      · rename_i hn
        exact .neither (by simp [Blk.used, hb])
          (by simpa [HeadUsed, Blk.used, Option.isSome_iff_ne_none] using hn)

namespace Release

/-- The blocks in use are those of before. -/
theorem filter_used (hr : Release b f Q L) : L.filter Blk.used = (b :: Q).filter Blk.used := by
  have hfree : ∀ a s, Blk.used ⟨a, s, none⟩ = false := fun _ _ => rfl
  cases hr with
  | both n Q' hb hQ hn => simp [hQ, hb, hn, hfree]
  | prev hb hQ => simp [hb, hfree]
  | next n Q' hb hQ hn => simp [hQ, hb, hn, hfree]
  | neither hb hQ => simp [hb, hfree]

/-- No two free blocks are in a row. -/
theorem coalesced (hr : Release b f Q L) (hc : Coalesced (P ++ b :: f :: Q)) :
    Coalesced (P ++ L) := by
  have hQ : Coalesced Q := by
    have := List.IsChain.right_of_append hc
    exact (coalesced_cons.mp (coalesced_cons.mp this).2).2
  cases hr with
  | both n Q' hb hQn hn =>
    subst hQn
    obtain ⟨hhead, hQ'⟩ := coalesced_cons.mp hQ
    have hhead := hhead.resolve_left (by simp [hn])
    exact coalesced_append_congr (b := b) hb hc (coalesced_cons.mpr ⟨Or.inr hhead, hQ'⟩)
  | prev hb hhead =>
    exact coalesced_append_congr (b := b) hb hc (coalesced_cons.mpr ⟨Or.inr hhead, hQ⟩)
  | next n Q' hb hQn hn =>
    subst hQn
    obtain ⟨hhead, hQ'⟩ := coalesced_cons.mp hQ
    have hhead := hhead.resolve_left (by simp [hn])
    refine coalesced_append_congr (b := b) rfl hc (coalesced_cons.mpr ⟨Or.inl hb, ?_⟩)
    exact coalesced_cons.mpr ⟨Or.inr hhead, hQ'⟩
  | neither hb hhead =>
    refine coalesced_append_congr (b := b) rfl hc (coalesced_cons.mpr ⟨Or.inl hb, ?_⟩)
    exact coalesced_cons.mpr ⟨Or.inr hhead, hQ⟩

/-- The free bytes grow by the block. -/
theorem freeBytes (hr : Release b f Q L) (hf : f.used = true)
    (hsum : b.size.toNat + f.size.toNat + (Q.map (·.size.toNat)).sum < 4294967296) :
    Kmalloc.freeBytes L = Kmalloc.freeBytes (b :: f :: Q) + f.size.toNat := by
  have hfree : ∀ a s, Blk.used ⟨a, s, none⟩ = false := fun _ _ => rfl
  cases hr with
  | both n Q' hb hQ hn =>
    subst hQ
    rw [List.map_cons, List.sum_cons] at hsum
    have h1 : (b.size + f.size).toNat = b.size.toNat + f.size.toNat := toNat_add_of_lt (by omega)
    have h2 : (b.size + f.size + n.size).toNat = b.size.toNat + f.size.toNat + n.size.toNat := by
      rw [toNat_add_of_lt (by omega), h1]
    simp only [freeBytes_cons, hfree, hb, hf, hn, h2, Bool.false_eq_true, if_false, if_true]
    omega
  | prev hb hQ =>
    have h1 : (b.size + f.size).toNat = b.size.toNat + f.size.toNat := toNat_add_of_lt (by omega)
    simp only [freeBytes_cons, hfree, hb, hf, h1, Bool.false_eq_true, if_false, if_true]
    omega
  | next n Q' hb hQ hn =>
    subst hQ
    rw [List.map_cons, List.sum_cons] at hsum
    have h1 : (f.size + n.size).toNat = f.size.toNat + n.size.toNat := toNat_add_of_lt (by omega)
    simp only [freeBytes_cons, hfree, hb, hf, hn, h1, Bool.false_eq_true, if_false, if_true]
    omega
  | neither hb hQ =>
    simp only [freeBytes_cons, hfree, hb, hf, Bool.false_eq_true, if_false, if_true]
    omega

end Release

/-! ## `kfree` on the ring -/

/-- A block in use is behind another one, if `base` is not in use. -/
theorem HeaderRing.split_used (h' : HeaderRing h l) (hbase : isUsed h.base = false) (hf : f ∈ l)
    (hu : f.used = true) : ∃ P b Q, l = P ++ b :: f :: Q := by
  obtain ⟨P, Q, rfl⟩ := List.append_of_mem hf
  rcases List.eq_nil_or_concat P with rfl | ⟨P, b, rfl⟩
  · have hptr := (Ring.head_eq h'.toRing).2
    rw [hptr, isUsed_ptr (h'.even f hf)] at hbase
    exact absurd (hbase.symm.trans hu) Bool.false_ne_true
  · exact ⟨P, b, Q, by simp⟩

/-- **`kfree` is exact and coalescing.** -/
theorem kfree_coalesces (h' : HeaderRing h l) (hbase : isUsed h.base = false) (hc : Coalesced l)
    (hf : f ∈ l) (hu : f.used = true) :
    ∃ h₂ l₂, h.kfree (f.addr + headerSize) = .ok h₂ ∧ h₂.base = h.base ∧ HeaderRing h₂ l₂ ∧
      Coalesced l₂ ∧ (l₂.filter Blk.used = l.filter fun c => c.used && decide (c ≠ f)) ∧
        freeBytes l₂ = freeBytes l + f.size.toNat := by
  obtain ⟨P, b, Q, rfl⟩ := h'.split_used hbase hf hu
  obtain ⟨h₂, hk, hb₂, -, h₂'⟩ := h'.kfree
  have hr := release_cases b f Q
  refine ⟨h₂, _, hk, hb₂, h₂', hr.coalesced hc, ?_, ?_⟩
  · have hsplit := h'.shift
    have hne : ∀ c ∈ P ++ b :: Q, c ≠ f := by
      rintro c hmem rfl
      exact hsplit.addr_inj (c := c) (by simpa using hmem) rfl
    have hkeep : ∀ {M : List Blk}, (∀ c ∈ M, c ∈ P ++ b :: Q) →
        (M.filter fun c => c.used && decide (c ≠ f)) = M.filter Blk.used := by
      intro M hM
      refine List.filter_congr fun c hc => ?_
      rw [decide_eq_true (hne c (hM c hc)), Bool.and_true]
    have hdrop : ((f :: Q).filter fun c => c.used && decide (c ≠ f)) = Q.filter Blk.used := by
      rw [List.filter_cons_of_neg (by simp), hkeep fun c hc => by simp [hc]]
    have hbf : (decide (b ≠ f)) = true := decide_eq_true (hne b (by simp))
    rw [List.filter_append, hr.filter_used, List.filter_append, hkeep fun c hc => by simp [hc],
      List.filter_cons, List.filter_cons, hdrop, hbf, Bool.and_true]
  · have hsum := h'.tiles.sum
    have hbound := h'.bound
    simp only [List.map_append, List.map_cons, List.sum_append, List.sum_cons] at hsum
    have hfb := hr.freeBytes hu (by omega)
    rw [freeBytes_append, freeBytes_append, hfb]
    omega

theorem kfree_coalesces_carveTop : ∃ r st, bootHeap = .ok r ∧
    Run step (fun s o => Legal s o ∧ StepOk s o) (r.2.2, []) carveTop st ∧
      ∃ h₂ l₂, st.1.kfree 0x107ff8 = .ok h₂ ∧ HeaderRing h₂ l₂ ∧ Coalesced l₂ ∧
        freeBytes l₂ = 0x7ff0 + 0x7000 + 0x8008 := by
  obtain ⟨r, st, hr, hrun, hring, -, hbase⟩ := carveTop_ring
  have hc : Coalesced (carveTopBefore ++ carveTopFrom) := by
    simp [Coalesced, carveTopBefore, carveTopFrom, Blk.Apart, Blk.used]
  obtain ⟨h₂, l₂, hk, -, h₂', hc₂, -, hfree⟩ :=
    kfree_coalesces (f := ⟨0x107ff0, 0x8008, some 0x8000⟩) hring hbase hc
      (by simp [carveTopBefore]) rfl
  exact ⟨r, st, hr, hrun, h₂, l₂, hk, h₂', hc₂, hfree⟩

end OwnOS.Kmalloc
