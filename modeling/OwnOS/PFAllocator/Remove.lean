import OwnOS.PFAllocator.Pages

/-!
# `removeChunk`: taking a range out of the free list

`removeChunk` (`PFAllocator.cpp:164-205`) compares every free segment with the range `[b, e)`,
rounded outwards to pages. What it does is right for a segment that begins above `e`, and for one
that reaches `b` and is not inside the range. It is wrong for the two others:

* a segment that ends below `b` passes the test `eAddr_rm >= bAddr_chk`; its left part is then
  computed as `[begin, b)`, so the segment grows up to the range;
* a segment inside the range leaves both parts empty, and no branch unlinks it.

`Cuttable b e n` says that `n` is neither. `removeChunk_spec` is what the routine does to a free
list of cuttable segments: every page it leaves was there before and lies outside the range.
-/

namespace OwnOS.PFAllocator

open Lib Lib.Word

/-- The page `p` lies outside `[b, e)`, for page-aligned `b` and `e`. -/
def Outside (b e : UInt32) (p : Nat) : Prop := p < b.toNat / 4096 ∨ e.toNat / 4096 ≤ p

/-- A segment that `removeChunk` treats rightly: it begins above `e`; or it reaches `b`, and is not
inside the range unless it is empty. -/
def Cuttable (b e : UInt32) (n : Node) : Prop :=
  e < n.begin ∨ b ≤ n.fin ∧ ¬ (b ≤ n.begin ∧ n.fin ≤ e ∧ n.blocks ≠ 0)

instance (b e : UInt32) (n : Node) : Decidable (Cuttable b e n) :=
  inferInstanceAs (Decidable (_ ∨ _))

/-- A page-aligned range. -/
structure Range (b e : UInt32) : Prop where
  begin_aligned : b.toNat % 4096 = 0
  end_aligned : e.toNat % 4096 = 0
  le : b.toNat ≤ e.toNat

variable {a : PFAllocator} {L : Head → List Node} {F₁ F₂ : List Node} {n : Node} {b e : UInt32}

theorem Node.Fits.fin_aligned (h : n.Fits) : n.fin.toNat % 4096 = 0 := by
  rw [h.fin_toNat, Nat.add_mul_mod_self_right]
  exact h.aligned

theorem Node.Fits.mem_pages (h : n.Fits) {p : Nat} :
    p ∈ n.pages ↔ n.begin.toNat / 4096 ≤ p ∧ p < n.fin.toNat / 4096 := by
  rw [h.fin_toNat, Nat.add_mul_div_right _ _ (by omega)]
  exact Iff.rfl

/-! ## One segment -/

/-- What `removeChunk` makes of the segment `n`; `i` is the descriptor for a part that splits
off. -/
def cutNode (b e : UInt32) (i : SegPtr) (n : Node) : List Node :=
  if e < n.begin then [n]
  else if n.begin < b then
    if e < n.fin then
      [⟨n.id, n.begin, (b - n.begin) / chunkSize⟩, ⟨i, e, (n.fin - e) / chunkSize⟩]
    else [⟨n.id, n.begin, (b - n.begin) / chunkSize⟩]
  else if e < n.fin then [⟨n.id, e, (n.fin - e) / chunkSize⟩]
  else [n]

/-- A part of the segment splits off. -/
def Splits (b e : UInt32) (n : Node) : Prop := ¬e < n.begin ∧ n.begin < b ∧ e < n.fin

instance (b e : UInt32) (n : Node) : Decidable (Splits b e n) := inferInstanceAs (Decidable (_ ∧ _))

/-- The part `[begin, b)` below the range. -/
theorem left_pages (hr : Range b e) (hn : n.begin.toNat % 4096 = 0) (hb : n.begin < b)
    (i : SegPtr) :
    Node.Fits ⟨i, n.begin, (b - n.begin) / chunkSize⟩ ∧
      Node.pages ⟨i, n.begin, (b - n.begin) / chunkSize⟩ =
        Set.Ico (n.begin.toNat / 4096) (b.toNat / 4096) := by
  obtain ⟨-, hf, hp⟩ := span_fits hn hr.begin_aligned (UInt32.lt_iff_toNat_lt.mp hb).le i
  exact ⟨hf, hp⟩

/-- The part `[e, fin)` above the range. -/
theorem right_pages (hr : Range b e) (hn : n.fin.toNat % 4096 = 0) (he : e < n.fin) (i : SegPtr) :
    Node.Fits ⟨i, e, (n.fin - e) / chunkSize⟩ ∧
      Node.pages ⟨i, e, (n.fin - e) / chunkSize⟩ =
        Set.Ico (e.toNat / 4096) (n.fin.toNat / 4096) := by
  obtain ⟨-, hf, hp⟩ := span_fits hr.end_aligned hn (UInt32.lt_iff_toNat_lt.mp he).le i
  exact ⟨hf, hp⟩

/-- The parts of a cuttable segment: pages of it, outside the range. -/
theorem cutNode_outside (hr : Range b e) (hn : n.Fits) (hc : Cuttable b e n) {i : SegPtr} {m : Node}
    (hm : m ∈ cutNode b e i n) : m.Fits ∧ ∀ p ∈ m.pages, Outside b e p ∧ p ∈ n.pages := by
  have hleft : ¬e < n.begin → n.begin < b →
    ∀ j, ∀ p ∈ Node.pages ⟨j, n.begin, (b - n.begin) / chunkSize⟩,
      Outside b e p ∧ p ∈ n.pages := by
    intro he hb j p hp
    obtain ⟨-, hpages⟩ := left_pages hr hn.aligned hb j
    have hfin := UInt32.le_iff_toNat_le.mp (hc.resolve_left he).1
    rw [hpages] at hp
    rw [hn.mem_pages]
    exact ⟨Or.inl hp.2, hp.1, lt_of_lt_of_le hp.2 (Nat.div_le_div_right hfin)⟩
  have hright : ¬e < n.begin → e < n.fin → ∀ j, ∀ p ∈ Node.pages ⟨j, e, (n.fin - e) / chunkSize⟩,
      Outside b e p ∧ p ∈ n.pages := by
    intro he hfin j p hp
    obtain ⟨-, hpages⟩ := right_pages hr hn.fin_aligned hfin j
    have he' := UInt32.le_iff_toNat_le.mp (UInt32.not_lt.mp he)
    rw [hpages] at hp
    rw [hn.mem_pages]
    exact ⟨Or.inr hp.1, (Nat.div_le_div_right he').trans hp.1, hp.2⟩
  unfold cutNode at hm
  split at hm
  · rename_i he
    obtain rfl := List.mem_singleton.mp hm
    refine ⟨hn, fun p hp => ⟨Or.inr ?_, hp⟩⟩
    have := UInt32.lt_iff_toNat_lt.mp he
    exact (Nat.div_le_div_right this.le).trans hp.1
  · rename_i he
    split at hm
    · rename_i hb
      split at hm
      · rename_i hfin
        simp only [List.mem_cons, List.not_mem_nil, or_false] at hm
        rcases hm with rfl | rfl
        · exact ⟨(left_pages hr hn.aligned hb _).1, hleft he hb _⟩
        · exact ⟨(right_pages hr hn.fin_aligned hfin _).1, hright he hfin _⟩
      · obtain rfl := List.mem_singleton.mp hm
        exact ⟨(left_pages hr hn.aligned hb _).1, hleft he hb _⟩
    · rename_i hb
      split at hm
      · rename_i hfin
        obtain rfl := List.mem_singleton.mp hm
        exact ⟨(right_pages hr hn.fin_aligned hfin _).1, hright he hfin _⟩
      · rename_i hfin
        obtain rfl := List.mem_singleton.mp hm
        -- inside the range: no page, or it would not be cuttable
        have h0 : m.blocks = 0 := by
          by_contra h0
          exact (hc.resolve_left he).2 ⟨UInt32.not_lt.mp hb, UInt32.not_lt.mp hfin, h0⟩
        refine ⟨hn, fun p hp => absurd hp.2 ?_⟩
        have hp1 := hp.1
        rw [h0]
        exact Nat.not_lt.mpr hp1

/-- The part that split off is met once more and stays as it is. -/
theorem cutNode_right (hle : b ≤ e) (i j : SegPtr) (x : UInt32) :
    cutNode b e j ⟨i, e, (x - e) / chunkSize⟩ = [⟨i, e, (x - e) / chunkSize⟩] := by
  have hfin : Node.fin ⟨i, e, (x - e) / chunkSize⟩ - e = (x - e) / chunkSize * chunkSize := by
    show e + (x - e) / chunkSize * chunkSize - e = _
    rw [UInt32.add_comm, UInt32.add_sub_cancel]
  have hdiv : (x - e) / chunkSize * chunkSize / chunkSize = (x - e) / chunkSize := by
    have hmul : ((x - e) / chunkSize * chunkSize).toNat = (x - e).toNat / 4096 * 4096 := by
      have := Word.toNat_lt (x - e)
      rw [toNat_mul_of_lt, UInt32.toNat_div, chunkSize_toNat]
      rw [UInt32.toNat_div, chunkSize_toNat]
      omega
    refine UInt32.toNat_inj.mp ?_
    rw [UInt32.toNat_div, hmul, UInt32.toNat_div, chunkSize_toNat]
    omega
  unfold cutNode
  simp only
  rw [if_neg (UInt32.lt_irrefl e), if_neg (UInt32.not_lt.mpr hle)]
  split
  · rw [hfin, hdiv]
  · rfl

/-! ## The loop -/

/-- Splitting a listed node: it takes `(b₁, l₁)`, and the detached node takes `(b₂, l₂)` and is
linked behind it. -/
theorem Rep.splitOff {u : Node} {D : List Node} {k : Head} (h : Rep a L (u :: D))
    (hL : L k = F₁ ++ n :: F₂) (b₁ l₁ b₂ l₂ : UInt32) :
    let a₁ := a.modify n.id fun s => { s with begin := b₁, blocks := l₁ }
    let a₂ := a₁.modify u.id fun s =>
      { s with begin := b₂, blocks := l₂, np := (a₁.segs n.id).np }
    Rep (a₂.assign (.next n.id) (some u.id))
      (Function.update L k (F₁ ++ ⟨n.id, b₁, l₁⟩ :: ⟨u.id, b₂, l₂⟩ :: F₂)) D := by
  intro a₁ a₂
  have hne : n.id ≠ u.id := fun hid =>
    h.detached_not_mem (k := k) (hid ▸ mem_ids_of_mem (by rw [hL]; simp))
  have h₁ : Rep a₁ (Function.update L k (F₁ ++ ⟨n.id, b₁, l₁⟩ :: F₂)) (u :: D) :=
    h.modify hL rfl rfl rfl rfl rfl
  have h₂ : Rep a₂ (Function.update L k (F₁ ++ ⟨n.id, b₁, l₁⟩ :: F₂)) (⟨u.id, b₂, l₂⟩ :: D) :=
    h₁.modify_detached rfl rfl rfl rfl
  have hL₂ : Function.update L k (F₁ ++ ⟨n.id, b₁, l₁⟩ :: F₂) k =
      (F₁ ++ [⟨n.id, b₁, l₁⟩]) ++ F₂ := by rw [Function.update_self, List.append_assoc]; rfl
  have hnp : (a₂.segs u.id).np = a₂.deref ((Loc.head k).after (ids (F₁ ++ [⟨n.id, b₁, l₁⟩]))) := by
    have hkeep : (a₂.segs n.id).np = (a₁.segs n.id).np := by
      simp only [a₂, modify_segs_of_ne hne]
    have hself : (a₂.segs u.id).np = (a₁.segs n.id).np := by simp only [a₂, modify_segs_self]
    rw [after_snoc, hself]
    exact hkeep.symm
  have h₃ := h₂.link hL₂ hnp
  rw [Function.update_idem, after_snoc, List.append_assoc] at h₃
  exact h₃

/-- **The body of the loop**: the segment is cut, or a part would split off and no descriptor is
left. -/
theorem removeFrom_cut {D : List Node} (h : Rep a L D) (hL : L .segFree = F₁ ++ n :: F₂) :
    (Splits b e n ∧ maxNumSeg ≤ (all L D).length ∧ ∃ msg, a.removeFrom n.id b e =
      .error (.panic msg)) ∨
      ∃ a' i, a.removeFrom n.id b e = .ok a' ∧
        Rep a' (Function.update L .segFree (F₁ ++ (cutNode b e i n ++ F₂))) D := by
  have hmem : n ∈ L .segFree := by rw [hL]; simp
  obtain ⟨hb, -⟩ := h.owns_of_mem hmem
  have hkeep : Rep a (Function.update L .segFree (F₁ ++ ([n] ++ F₂))) D := by
    rw [List.singleton_append, ← hL, Function.update_eq_self]
    exact h
  simp only [removeFrom, h.fin_eq hmem, hb, cutNode]
  by_cases he : e < n.begin
  · rw [if_neg (UInt32.not_le.mpr he)]
    exact Or.inr ⟨a, n.id, rfl, by rw [if_pos he]; exact hkeep⟩
  · rw [if_pos (UInt32.not_lt.mp he)]
    simp only [if_neg he]
    by_cases hnb : n.begin < b
    · rw [if_neg (UInt32.not_le.mpr hnb), if_pos hnb]
      simp only [if_pos hnb]
      by_cases hfe : e < n.fin
      · rw [if_neg (UInt32.not_le.mpr hfe), if_pos hfe]
        simp only [if_pos hfe]
        cases hg : a.getSeg with
        | error err =>
          obtain ⟨rfl, hnone⟩ := getSeg_error hg
          refine Or.inl ⟨⟨he, hnb, hfe⟩, ?_, _, rfl⟩
          by_contra hlt
          obtain ⟨i, hi⟩ := h.owns.exists_free (Nat.not_le.mp hlt)
          exact absurd (hi.symm.trans (hnone i)) (by simp)
        | ok q =>
          obtain ⟨a₁, i⟩ := q
          exact Or.inr ⟨_, i, rfl, (h.getSeg hg).splitOff hL n.begin ((b - n.begin) / chunkSize) e
            ((n.fin - e) / chunkSize)⟩
      · rw [if_pos (UInt32.not_lt.mp hfe), if_neg (UInt32.lt_irrefl _)]
        simp only [if_neg hfe]
        exact Or.inr ⟨_, n.id, rfl, h.modify hL rfl rfl rfl rfl rfl⟩
    · rw [if_pos (UInt32.not_lt.mp hnb), if_neg (UInt32.lt_irrefl _)]
      simp only [if_neg hnb]
      by_cases hfe : e < n.fin
      · rw [if_neg (UInt32.not_le.mpr hfe), if_pos hfe]
        simp only [if_pos hfe]
        exact Or.inr ⟨_, n.id, rfl, h.modify hL rfl rfl rfl rfl rfl⟩
      · rw [if_pos (UInt32.not_lt.mp hfe), if_neg (UInt32.lt_irrefl _)]
        simp only [if_neg hfe]
        exact Or.inr ⟨a, n.id, rfl, hkeep⟩

/-- Every segment of a list is cut. -/
inductive Cuts (b e : UInt32) : List Node → List Node → Prop
  | nil : Cuts b e [] []
  | cons {n : Node} {F F' : List Node} (i : SegPtr) (h : Cuts b e F F') :
      Cuts b e (n :: F) (cutNode b e i n ++ F')

/-- Segments that stay as they are. -/
theorem Cuts.of_fixed {r F F' : List Node} (hr : ∀ m ∈ r, ∀ i, cutNode b e i m = [m])
    (h : Cuts b e (r ++ F) F') : ∃ F'', F' = r ++ F'' ∧ Cuts b e F F'' := by
  induction r generalizing F' with
  | nil => exact ⟨F', rfl, h⟩
  | cons m r ih =>
    cases h with
    | cons i h =>
      obtain ⟨F'', rfl, h'⟩ := ih (fun x hx => hr x (List.mem_cons_of_mem _ hx)) h
      rw [hr m List.mem_cons_self i]
      exact ⟨F'', rfl, h'⟩

/-- The descriptor keeps one part, and the part that splits off is never cut again. -/
theorem cutNode_eq (hle : b ≤ e) (i : SegPtr) (n : Node) :
    ∃ l r, cutNode b e i n = l :: r ∧ l.id = n.id ∧ r.length = (if Splits b e n then 1 else 0) ∧
      ∀ m ∈ r, ¬Splits b e m ∧ ∀ j, cutNode b e j m = [m] := by
  by_cases hs : Splits b e n
  · refine ⟨⟨n.id, n.begin, (b - n.begin) / chunkSize⟩, [⟨i, e, (n.fin - e) / chunkSize⟩], ?_,
      rfl, ?_, ?_⟩
    · rw [cutNode, if_neg hs.1, if_pos hs.2.1, if_pos hs.2.2]
    · rw [if_pos hs]
      rfl
    · simp only [List.mem_singleton, forall_eq]
      exact ⟨fun hs' => UInt32.not_lt.mpr hle hs'.2.1, fun j => cutNode_right hle i j n.fin⟩
  · rw [if_neg hs]
    unfold cutNode
    split
    · exact ⟨_, [], rfl, rfl, rfl, by simp⟩
    · rename_i he
      split
      · rename_i hb
        rw [if_neg fun hfin => hs ⟨he, hb, hfin⟩]
        exact ⟨_, [], rfl, rfl, rfl, by simp⟩
      · split
        · exact ⟨_, [], rfl, rfl, rfl, by simp⟩
        · exact ⟨_, [], rfl, rfl, rfl, by simp⟩

theorem all_length (D : List Node) :
    (all L D).length = (L .segFree).length + ((L .segUsed).length + D.length) := by
  simp only [all, List.length_append]

/-- The loop, past the segments `F₁`. Every segment it passes stays on the list, so 128 bounds the
number of turns; the part that splits off is passed as well, and left as it is. It panics only if
the descriptors do not last for the segments that split. -/
theorem removeChunkLoop_cuts (hle : b ≤ e) {D : List Node} {fuel : Nat} : ∀ {a : PFAllocator}
    {L : Head → List Node} {F₁ F₂ : List Node}, Rep a L D → L .segFree = F₁ ++ F₂ →
      fuel + F₁.length = maxNumSeg + 1 →
      (maxNumSeg < (all L D).length + F₂.countP (Splits b e ·) ∧
        ∃ msg, removeChunkLoop fuel a b e ((Loc.head .segFree).after (ids F₁)) =
          .error (.panic msg)) ∨
        ∃ a' F', removeChunkLoop fuel a b e ((Loc.head .segFree).after (ids F₁)) = .ok a' ∧
          Rep a' (Function.update L .segFree (F₁ ++ F')) D ∧ Cuts b e F₂ F' := by
  induction fuel with
  | zero =>
    intro a L F₁ F₂ h hL hfuel
    have := h.length_le .segFree
    rw [hL, List.length_append] at this
    omega
  | succ fuel ih =>
    intro a L F₁ F₂ h hL hfuel
    have hd := h.deref_after hL
    cases F₂ with
    | nil =>
      simp only [ids_nil, List.head?_nil] at hd
      refine Or.inr ⟨a, [], by simp only [removeChunkLoop, hd], ?_, Cuts.nil⟩
      rw [← hL, Function.update_eq_self]
      exact h
    | cons n F₂ =>
      simp only [ids_cons, List.head?_cons] at hd
      simp only [removeChunkLoop, hd]
      rcases removeFrom_cut h hL with ⟨hs, hfull, msg, he⟩ | ⟨a₁, i, he, h₁⟩
      · refine Or.inl ⟨?_, msg, by rw [he, Res.error_bind]⟩
        rw [List.countP_cons_of_pos (by simpa using hs)]
        omega
      · rw [he, Res.ok_bind]
        obtain ⟨l, r, hcut, hid, hr, hfixed⟩ := cutNode_eq hle i n
        rw [hcut] at h₁
        have hL₁ : Function.update L .segFree (F₁ ++ (l :: r ++ F₂)) Head.segFree =
            (F₁ ++ [l]) ++ (r ++ F₂) := by rw [Function.update_self, List.append_assoc]; rfl
        have hlen : fuel + (F₁ ++ [l]).length = maxNumSeg + 1 := by
          rw [List.length_append, List.length_singleton]
          omega
        have hrec := ih h₁ hL₁ hlen
        rw [after_snoc, hid] at hrec
        rcases hrec with ⟨hfull, hpanic⟩ | ⟨a', F', he', h', hcuts⟩
        · refine Or.inl ⟨?_, hpanic⟩
          have hall : (all (Function.update L .segFree (F₁ ++ (l :: r ++ F₂))) D).length =
              (all L D).length + r.length := by
            rw [all_length, all_length, Function.update_self, Function.update_of_ne (by decide), hL]
            simp only [List.length_append, List.length_cons]
            omega
          have hcount : r.countP (Splits b e ·) = 0 := by
            rw [List.countP_eq_zero]
            exact fun m hm => by simpa using (hfixed m hm).1
          rw [hall, List.countP_append, hcount, hr] at hfull
          rw [List.countP_cons]
          simp only [decide_eq_true_eq]
          omega
        · obtain ⟨F'', rfl, hrest⟩ := hcuts.of_fixed fun m hm => (hfixed m hm).2
          rw [Function.update_idem, List.append_assoc] at h'
          refine Or.inr ⟨a', l :: (r ++ F''), he', h', ?_⟩
          have := Cuts.cons (n := n) i hrest
          rwa [hcut] at this

theorem Cuts.outside (hr : Range b e) {F F' : List Node} (h : Cuts b e F F')
    (hF : ∀ n ∈ F, n.Fits ∧ Cuttable b e n) :
    ∀ m ∈ F', m.Fits ∧ ∀ p ∈ m.pages, Outside b e p ∧ ∃ x ∈ F, p ∈ x.pages := by
  induction h with
  | nil => simp
  | cons i h ih =>
    intro m hm
    rcases List.mem_append.mp hm with hm | hm
    · obtain ⟨hn, hc⟩ := hF _ List.mem_cons_self
      obtain ⟨hfits, hp⟩ := cutNode_outside hr hn hc hm
      exact ⟨hfits, fun p hpm => ⟨(hp p hpm).1, _, List.mem_cons_self, (hp p hpm).2⟩⟩
    · obtain ⟨hfits, hp⟩ := ih (fun x hx => hF x (List.mem_cons_of_mem _ hx)) m hm
      refine ⟨hfits, fun p hpm => ⟨(hp p hpm).1, ?_⟩⟩
      obtain ⟨x, hx, hpx⟩ := (hp p hpm).2
      exact ⟨x, List.mem_cons_of_mem _ hx, hpx⟩

/-- `bAddr_rm` after rounding. -/
def removeBegin (b : UInt32) : UInt32 := b &&& ~~~(chunkSize - 1)

/-- `eAddr_rm` after rounding. -/
def removeEnd (e : UInt32) : UInt32 := (e + (chunkSize - 1)) &&& ~~~(chunkSize - 1)

theorem removeBegin_toNat (b : UInt32) : (removeBegin b).toNat = b.toNat / 4096 * 4096 :=
  roundDown_toNat b

theorem removeEnd_toNat (h : e.toNat + 4095 < 4294967296) :
    (removeEnd e).toNat = (e.toNat + 4095) / 4096 * 4096 := by
  have h1 : (chunkSize - 1).toNat = 4095 := rfl
  rw [removeEnd, roundDown_toNat, toNat_add_of_lt (by rw [h1]; exact h), h1]

theorem rounded_range (hle : b.toNat ≤ e.toNat) (hwrap : e.toNat + 4095 < 4294967296) :
    Range (removeBegin b) (removeEnd e) := by
  constructor
  · rw [removeBegin_toNat]; omega
  · rw [removeEnd_toNat hwrap]; omega
  · rw [removeBegin_toNat, removeEnd_toNat hwrap]; omega

/-- **`removeChunk`** on a free list of cuttable segments: the panic for want of a descriptor, or
every page left was there before and lies outside the rounded range. -/
theorem removeChunk_spec (h : Rep a L []) (hle : b.toNat ≤ e.toNat)
    (hwrap : e.toNat + 4095 < 4294967296)
    (hF : ∀ n ∈ L .segFree, n.Fits ∧ Cuttable (removeBegin b) (removeEnd e) n) :
    (∃ msg, a.removeChunk b e = .error (.panic msg)) ∨
      ∃ a' F', a.removeChunk b e = .ok a' ∧ Rep a' (Function.update L .segFree F') [] ∧
        ∀ m ∈ F', m.Fits ∧ ∀ p ∈ m.pages,
          Outside (removeBegin b) (removeEnd e) p ∧ ∃ x ∈ L .segFree, p ∈ x.pages := by
  have hr := rounded_range hle hwrap
  have hL : L .segFree = [] ++ L .segFree := rfl
  rcases removeChunkLoop_cuts (UInt32.le_iff_toNat_le.mpr hr.le) h hL rfl with
    ⟨-, msg, he⟩ | ⟨a', F', he, h', hcuts⟩
  · exact Or.inl ⟨msg, he⟩
  · exact Or.inr ⟨a', F', he, h', hcuts.outside hr hF⟩

end OwnOS.PFAllocator
