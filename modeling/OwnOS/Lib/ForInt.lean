import OwnOS.Lib.Signed

/-!
# Loops over a range of `int`s

`forInt lo hi f s` is `for (int i = lo; i < hi; i++)` with the body `f · i`, from the state `s`. Two
rules, for bounds that hold counts: an invariant (`forInt_invariant`), and a fact that one turn
brings about and no turn undoes (`forInt_reaches`). Nothing here names a program.
-/

namespace OwnOS.Lib

variable {σ : Type}

/-- `for (int i = lo; i < hi; i++)`. -/
def forInt (lo hi : Int32) (f : σ → Int32 → σ) (s : σ) : σ :=
  (List.range (hi.toInt - lo.toInt).toNat).foldl (fun s k => f s (lo + Int32.ofNat k)) s

variable {lo hi i : Int32} {a b k : Nat} {f : σ → Int32 → σ} {s : σ} {I P : σ → Prop}

theorem isNat_ofNat (h : k < 2147483648) : IsNat (Int32.ofNat k) k := by
  rw [IsNat, Int32.toInt_ofNat']
  exact IsNat.bmod (by omega) (by omega)

/-- The turns of a loop between two counts. -/
theorem forInt_eq (hlo : IsNat lo a) (hhi : IsNat hi b) (f : σ → Int32 → σ) (s : σ) :
    forInt lo hi f s = (List.range (b - a)).foldl (fun s k => f s (lo + Int32.ofNat k)) s := by
  rw [forInt, hlo, hhi, show ((b : Int) - a).toNat = b - a by omega]

/-- The variable of turn `k`. -/
theorem isNat_turn (hlo : IsNat lo a) (hhi : IsNat hi b) (hk : k < b - a) :
    IsNat (lo + Int32.ofNat k) (a + k) := by
  have := hhi.lt
  exact hlo.add (isNat_ofNat (by omega)) (by omega)

/-- **Invariant** of a loop. -/
theorem forInt_invariant (hlo : IsNat lo a) (hhi : IsNat hi b) (h0 : I s)
    (hstep : ∀ s i k, IsNat i k → a ≤ k → k < b → I s → I (f s i)) : I (forInt lo hi f s) := by
  rw [forInt_eq hlo hhi]
  refine List.foldlRecOn _ _ h0 fun s hs k hk => ?_
  have hk := List.mem_range.mp hk
  exact hstep s _ (a + k) (isNat_turn hlo hhi hk) (by omega) (by omega) hs

/-- **A turn that makes `P` true**, in a loop where no turn makes it false, makes it true at the
end. -/
theorem forInt_reaches (hlo : IsNat lo a) (hhi : IsNat hi b) (hik : IsNat i k) (hak : a ≤ k)
    (hkb : k < b) (hhit : ∀ s, P (f s i)) (hkeep : ∀ s j, P s → P (f s j)) :
    P (forInt lo hi f s) := by
  have hturn : i = lo + Int32.ofNat (k - a) := by
    have := isNat_turn hlo hhi (k := k - a) (by omega)
    rw [Nat.add_sub_cancel' hak] at this
    exact Int32.toInt_inj.mp (hik.trans this.symm)
  obtain ⟨l, r, hsplit⟩ := List.append_of_mem (List.mem_range.mpr (show k - a < b - a by omega))
  rw [forInt_eq hlo hhi, hsplit, List.foldl_append, List.foldl_cons, ← hturn]
  exact List.foldlRecOn _ _ (hhit _) fun s hs j _ => hkeep s _ hs

end OwnOS.Lib
