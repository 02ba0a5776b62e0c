import OwnOS.Lib.Bytes
import OwnOS.Lib.Word

/-!
# Words in a memory of bytes

A memory of bytes read and written in words of four, low byte first, at any address. Words that do
not overlap (`Apart`) behave like the cells of a memory of words: `eqOn_store` carries a store of a
word from the one memory to the other, and `store_frame` says which bytes it leaves alone. Nothing
here names a program.
-/

namespace OwnOS.Lib

/-- A memory of bytes. -/
abbrev ByteMem := UInt32 → UInt8

namespace ByteMem

/-- The word at `a`. -/
def load (m : ByteMem) (a : UInt32) : UInt32 := Buf.le32 (fun k => m (a + UInt32.ofNat k)) 0

/-- `v` to the word at `a`. -/
def store (m : ByteMem) (a v : UInt32) : ByteMem :=
  fun x => if x - a < 4 then (v >>> (8 * (x - a))).toUInt8 else m x

/-- The words at the addresses `W` lie in the address space and do not overlap. -/
structure Apart (W : Set UInt32) : Prop where
  fits : ∀ a ∈ W, a.toNat + 4 ≤ 4294967296
  apart : ∀ a ∈ W, ∀ b ∈ W, a ≠ b → a.toNat + 4 ≤ b.toNat ∨ b.toNat + 4 ≤ a.toNat

/-- The bytes of the words at `W`. -/
def bytesOf (W : Set UInt32) : Set UInt32 :=
  {x | ∃ a ∈ W, a.toNat ≤ x.toNat ∧ x.toNat < a.toNat + 4}

variable {m : ByteMem} {w : UInt32 → UInt32} {W : Set UInt32} {a b v x : UInt32} {k : Nat}

/-- The four bytes of a word are the word. -/
theorem le32_bytes (v : UInt32) :
    v.toUInt8.toUInt32 ||| ((v >>> 8).toUInt8.toUInt32 <<< 8) |||
      ((v >>> 16).toUInt8.toUInt32 <<< 16) ||| ((v >>> 24).toUInt8.toUInt32 <<< 24) = v := by
  apply UInt32.eq_of_toBitVec_eq
  apply BitVec.eq_of_getLsbD_eq
  intro i hi
  have h8 : UInt32.toBitVec 8 % 32 = 8#32 := rfl
  have h16 : UInt32.toBitVec 16 % 32 = 16#32 := rfl
  have h24 : UInt32.toBitVec 24 % 32 = 24#32 := rfl
  simp only [UInt32.toBitVec_or, UInt32.toBitVec_shiftLeft, UInt8.toBitVec_toUInt32,
    UInt32.toBitVec_toUInt8, UInt32.toBitVec_shiftRight, BitVec.getLsbD_or, h8, h16, h24,
    BitVec.shiftLeft_eq', BitVec.ushiftRight_eq', BitVec.getLsbD_shiftLeft, BitVec.getLsbD_setWidth,
    BitVec.getLsbD_ushiftRight]
  grind

/-- The bytes of a stored word. -/
theorem store_add (m : ByteMem) (a v : UInt32) {k : UInt32} (hk : k < 4) :
    m.store a v (a + k) = (v >>> (8 * k)).toUInt8 := by
  have hsub : a + k - a = k := by rw [UInt32.add_comm, UInt32.add_sub_cancel]
  rw [store, hsub, if_pos hk]

theorem load_eq (m : ByteMem) (a : UInt32) : m.load a = (m (a + 0)).toUInt32 |||
    ((m (a + 1)).toUInt32 <<< 8) ||| ((m (a + 2)).toUInt32 <<< 16) |||
      ((m (a + 3)).toUInt32 <<< 24) := rfl

theorem load_store_self (m : ByteMem) (a v : UInt32) : (m.store a v).load a = v := by
  have h0 : m.store a v (a + 0) = (v >>> 0).toUInt8 := m.store_add a v (by decide)
  have h1 : m.store a v (a + 1) = (v >>> 8).toUInt8 := m.store_add a v (by decide)
  have h2 : m.store a v (a + 2) = (v >>> 16).toUInt8 := m.store_add a v (by decide)
  have h3 : m.store a v (a + 3) = (v >>> 24).toUInt8 := m.store_add a v (by decide)
  rw [load_eq, h0, h1, h2, h3, UInt32.shiftRight_zero, le32_bytes]

/-- A store leaves the bytes outside its word alone. -/
theorem store_of_outside (ha : a.toNat + 4 ≤ 4294967296)
    (hx : x.toNat < a.toNat ∨ a.toNat + 4 ≤ x.toNat) :
    m.store a v x = m x := by
  refine if_neg fun hlt => ?_
  have hlt := UInt32.lt_iff_toNat_lt.mp hlt
  have h4 : (4 : UInt32).toNat = 4 := rfl
  have := x.toNat_lt
  rw [UInt32.toNat_sub, h4] at hlt
  omega

/-- The bytes of a word, by number. -/
theorem byte_toNat (ha : a.toNat + 4 ≤ 4294967296) (hk : k < 4) :
    (a + UInt32.ofNat k).toNat = a.toNat + k := by
  have hword : (UInt32.ofNat k).toNat = k :=
    UInt32.toNat_ofNat_of_lt' (by change k < 4294967296; omega)
  rw [Word.toNat_add_of_lt (by omega), hword]

/-- Memories with the same bytes there have the same word. -/
theorem load_congr {m' : ByteMem} (h : ∀ k < 4, m' (a + UInt32.ofNat k) = m (a + UInt32.ofNat k)) :
    m'.load a = m.load a :=
  Buf.le32_congr fun k hk => by
    rw [Nat.zero_add]
    exact h k hk

theorem load_store_of_apart (ha : a.toNat + 4 ≤ 4294967296) (hb : b.toNat + 4 ≤ 4294967296)
    (hab : a.toNat + 4 ≤ b.toNat ∨ b.toNat + 4 ≤ a.toNat) : (m.store a v).load b = m.load b := by
  refine load_congr fun k hk => store_of_outside ha ?_
  rw [byte_toNat hb hk]
  omega

/-! ## Words as cells -/

/-- **A store of a word**, in the memory of bytes and in the memory of words. -/
theorem eqOn_store (hW : Apart W) (ha : a ∈ W) (h : Set.EqOn m.load w W) (v : UInt32) :
    Set.EqOn (m.store a v).load (Function.update w a v) W := by
  intro b hb
  by_cases hab : a = b
  · subst hab
    rw [load_store_self, Function.update_self]
  · rw [load_store_of_apart (hW.fits a ha) (hW.fits b hb) (hW.apart a ha b hb hab),
      Function.update_of_ne (Ne.symm hab)]
    exact h hb

/-- **A store of a word** leaves the bytes outside the words alone. -/
theorem store_frame (hW : Apart W) (ha : a ∈ W) (m : ByteMem) (v : UInt32) :
    Set.EqOn (m.store a v) m (bytesOf W)ᶜ := by
  intro x hx
  refine store_of_outside (hW.fits a ha) ?_
  by_contra hin
  exact hx ⟨a, ha, by omega, by omega⟩

end ByteMem

end OwnOS.Lib
