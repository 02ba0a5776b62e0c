import OwnOS.Ata.Registers

/-!
# Which sector the drive is told (`ata.cpp:391-454`)

The driver has three ways to write the number of a sector: 48 bits from `2^28` on, 28 bits for a
drive that says it can, and a cylinder, a head and a sector for the others. What the drive makes of
the registers is `address`.

* `address_addressed`: **the drive gets the number that was asked for**, whichever way it is
  written, except that a cylinder is a `u16_t`: past 65536 cylinders of 16 heads of 63 sectors the
  number wraps around.
-/

namespace OwnOS.Ata

open Lib

/-- The sectors that a cylinder, a head and a sector tell apart. -/
def chsSectors : Nat := 66060288

namespace Chan

/-- The number of the sector, for a command of the mode. -/
def address (c : Chan) (mode : LbaMode) : Nat := if mode = .lba48 then c.address48 else c.address28

def sectors (c : Chan) (mode : LbaMode) : Nat := if mode = .lba48 then c.count16 else c.count8

end Chan

/-! ## Bytes of a word -/

theorem toNat_byte (x : UInt32) {k : UInt32} (hk : k.toNat < 32) :
    (x >>> k).toUInt8.toNat = x.toNat / 2 ^ k.toNat % 256 := by
  rw [UInt32.toNat_toUInt8, UInt32.toNat_shiftRight, Nat.mod_eq_of_lt hk, Nat.shiftRight_eq_div_pow]

/-- The mask keeps the `n` bits from `k` on, and the shift brings them down. -/
theorem toNat_byte_masked (x m : UInt32) {k : UInt32} {n : Nat} (hk : k.toNat < 32) (hn : n ≤ 8)
    (hm : m.toNat = (2 ^ n - 1) * 2 ^ k.toNat) :
    ((x &&& m) >>> k).toUInt8.toNat = x.toNat / 2 ^ k.toNat % 2 ^ n := by
  have hand : (x.toNat &&& m.toNat) / 2 ^ k.toNat = x.toNat / 2 ^ k.toNat % 2 ^ n := by
    apply Nat.eq_of_testBit_eq
    intro i
    rw [Nat.testBit_div_two_pow, Nat.testBit_and, hm, Nat.testBit_mul_two_pow,
      Nat.testBit_mod_two_pow, Nat.testBit_div_two_pow, Nat.testBit_two_pow_sub_one]
    simp [Bool.and_comm]
  have hle : 2 ^ n ≤ 2 ^ 8 := Nat.pow_le_pow_right (by omega) hn
  have hlt := Nat.mod_lt (x.toNat / 2 ^ k.toNat) (Nat.two_pow_pos n)
  rw [toNat_byte _ hk, UInt32.toNat_and, hand]
  exact Nat.mod_eq_of_lt (by omega)

/-! ## The drive register -/

/-- The two bits of the drive register and its lower half. -/
theorem select_bits (slavebit : Fin 2) {head : UInt8} (hh : head.toNat < 16) :
    ∀ base : UInt8, base = 0xA0 ∨ base = 0xE0 →
      let select := base ||| UInt8.ofNat slavebit.val <<< 4 ||| head
      (select &&& 0x0F) = head ∧ (select &&& 0x40 = 0 ↔ base = 0xA0) ∧
        (select &&& 0x10 = 0 ↔ slavebit = 0) := by
  have hall : ∀ (slavebit : Fin 2) (k : Fin 16), ∀ base ∈ [(0xA0 : UInt8), 0xE0],
      let select := base ||| UInt8.ofNat slavebit.val <<< 4 ||| UInt8.ofNat k.val
      (select &&& 0x0F) = UInt8.ofNat k.val ∧ (select &&& 0x40 = 0 ↔ base = 0xA0) ∧
        (select &&& 0x10 = 0 ↔ slavebit = 0) := by decide +kernel
  intro base hbase
  have h := hall slavebit ⟨head.toNat, hh⟩ base (by simpa using hbase)
  rwa [show UInt8.ofNat head.toNat = head from UInt8.ofNat_toNat] at h

variable {c : Chan} {slavebit : Fin 2} {io : LbaIo} {numsects : UInt8} {capabilities : UInt16}
  {lba : UInt32}

namespace Chan

/-- The drive that is asked is the one of the entry. -/
theorem selected_addressed (hh : io.head.toNat < 16) :
    (c.addressed slavebit io numsects).selected = slavebit := by
  have hbit : (c.addressed slavebit io numsects).select &&& 0x10 = 0 ↔ slavebit = 0 := by
    refine (select_bits slavebit hh _ ?_).2.2
    split
    · exact Or.inl rfl
    · exact Or.inr rfl
  unfold selected
  by_cases hs : slavebit = 0
  · rw [if_pos (hbit.mpr hs), hs]
  · rw [if_neg fun h => hs (hbit.mp h)]
    omega

/-- A count of one byte, with 0 for 256 or 65536. -/
theorem sectors_addressed (hn : numsects ≠ 0) :
    (c.addressed slavebit io numsects).sectors io.mode = numsects.toNat := by
  have hpos : numsects.toNat ≠ 0 := fun h => hn (UInt8.toNat.inj h)
  unfold sectors addressed
  by_cases hm : io.mode = .lba48
  · simp only [hm, if_true, count16]
    rw [if_neg (by simpa using hpos)]
    simp
  · simp only [hm, if_false, count8, Latch.push]
    rw [if_neg hn]

/-- A sector number of 28 bits. -/
theorem address28_addressed_lba (hm : io.mode = .lba28) (hh : io.head.toNat < 16) :
    (c.addressed slavebit io numsects).address28 =
      io.io0.toNat + 256 * io.io1.toNat + 65536 * io.io2.toNat + 16777216 * io.head.toNat := by
  obtain ⟨hlow, h40, -⟩ := select_bits slavebit hh 0xE0 (Or.inr rfl)
  have h40 : ¬ _ := mt h40.mp (by decide)
  simp only [address28, addressed, hm, reduceCtorEq, if_false, Latch.push, hlow]
  rw [if_pos h40]

/-- A cylinder, a head and a sector. -/
theorem address28_addressed_chs (hm : io.mode = .chs) (hh : io.head.toNat < 16) :
    (c.addressed slavebit io numsects).address28 =
      ((io.io1.toNat + 256 * io.io2.toNat) * 16 + io.head.toNat) * 63 + io.io0.toNat - 1 := by
  obtain ⟨hlow, h40, -⟩ := select_bits slavebit hh 0xA0 (Or.inl rfl)
  simp only [address28, addressed, hm, reduceCtorEq, if_true, if_false, Latch.push, hlow]
  rw [if_neg (not_not.mpr (h40.mpr rfl))]

theorem address48_addressed (hm : io.mode = .lba48) :
    (c.addressed slavebit io numsects).address48 =
      io.io0.toNat + 256 * io.io1.toNat + 65536 * io.io2.toNat + 16777216 * io.io3.toNat := by
  simp [address48, addressed, hm]

end Chan

/-! ## The three ways -/

namespace Ide

/-- The mode that is chosen. -/
theorem lbaIo_mode (capabilities : UInt16) (lba : UInt32) :
    (lbaIo capabilities lba).mode =
      if lba ≥ 0x10000000 then .lba48 else if capabilities &&& 0x200 ≠ 0 then .lba28 else .chs := by
  unfold lbaIo
  split
  · rfl
  · split <;> rfl

/-- The sector counts from 1, and the rest of the number is a multiple of 63. -/
theorem chs_parts (hl : lba.toNat < 268435456) :
    (lba % 63 + 1).toUInt8.toNat = lba.toNat % 63 + 1 ∧
      (lba + 1 - (lba % 63 + 1).toUInt8.toUInt32).toNat = lba.toNat / 63 * 63 := by
  have hlt := Nat.mod_lt lba.toNat (show 63 > 0 by omega)
  have hmod : (lba % 63).toNat = lba.toNat % 63 := UInt32.toNat_mod ..
  have h1 : (lba % 63 + 1).toNat = lba.toNat % 63 + 1 := by
    rw [Word.toNat_add_of_lt (by rw [hmod]; change _ + 1 < _; omega), hmod]
    rfl
  have h8 : (lba % 63 + 1).toUInt8.toNat = lba.toNat % 63 + 1 := by
    rw [UInt32.toNat_toUInt8, h1]
    exact Nat.mod_eq_of_lt (by omega)
  have h2 : (lba + 1).toNat = lba.toNat + 1 := by
    rw [Word.toNat_add_of_lt (by change _ + 1 < _; omega)]
    rfl
  have h32 : (lba % 63 + 1).toUInt8.toUInt32.toNat = lba.toNat % 63 + 1 := h8
  refine ⟨h8, ?_⟩
  rw [Word.toNat_sub_of_le (by omega), h2, h32]
  omega

/-- Four bits. -/
theorem lbaIo_head (capabilities : UInt16) (lba : UInt32) :
    (lbaIo capabilities lba).head.toNat < 16 := by
  unfold lbaIo
  split
  · exact Nat.zero_lt_succ 15
  · rename_i hl
    have hl : lba.toNat < 268435456 := by
      rw [ge_iff_le, UInt32.le_iff_toNat_le] at hl
      exact Nat.not_le.mp hl
    split
    · rw [toNat_byte_masked lba 0xF000000 (n := 4) (by decide) (by omega) (by decide)]
      exact Nat.mod_lt _ (by decide)
    · dsimp only
      have h := (chs_parts hl).2
      rw [UInt32.toNat_toUInt8, UInt32.toNat_div, UInt32.toNat_mod, h,
        show ((16 : UInt32) * 63).toNat = 1008 from rfl, show (63 : UInt32).toNat = 63 from rfl]
      omega

theorem address_lba48 (hl : lba ≥ 0x10000000) :
    (c.addressed slavebit (lbaIo capabilities lba) numsects).address48 = lba.toNat := by
  have hlt := Word.toNat_lt lba
  have hm : (lbaIo capabilities lba).mode = .lba48 := by rw [lbaIo_mode, if_pos hl]
  have h0 : (lbaIo capabilities lba).io0.toNat = lba.toNat / 1 % 256 := by
    rw [lbaIo, if_pos hl]
    exact toNat_byte_masked lba _ (n := 8) (by decide) (by omega) (by decide)
  have h1 : (lbaIo capabilities lba).io1.toNat = lba.toNat / 256 % 256 := by
    rw [lbaIo, if_pos hl]
    exact toNat_byte_masked lba _ (n := 8) (by decide) (by omega) (by decide)
  have h2 : (lbaIo capabilities lba).io2.toNat = lba.toNat / 65536 % 256 := by
    rw [lbaIo, if_pos hl]
    exact toNat_byte_masked lba _ (n := 8) (by decide) (by omega) (by decide)
  have h3 : (lbaIo capabilities lba).io3.toNat = lba.toNat / 16777216 % 256 := by
    rw [lbaIo, if_pos hl]
    exact toNat_byte_masked lba _ (n := 8) (by decide) (by omega) (by decide)
  rw [Chan.address48_addressed hm, h0, h1, h2, h3]
  omega

theorem address_lba28 (hl : ¬ lba ≥ 0x10000000) (hc : capabilities &&& 0x200 ≠ 0) :
    (c.addressed slavebit (lbaIo capabilities lba) numsects).address28 = lba.toNat := by
  have hlt : lba.toNat < 268435456 := by
    rw [ge_iff_le, UInt32.le_iff_toNat_le] at hl
    exact Nat.not_le.mp hl
  have hm : (lbaIo capabilities lba).mode = .lba28 := by rw [lbaIo_mode, if_neg hl, if_pos hc]
  have h0 : (lbaIo capabilities lba).io0.toNat = lba.toNat / 1 % 256 := by
    rw [lbaIo, if_neg hl, if_pos hc]
    exact toNat_byte_masked lba _ (n := 8) (by decide) (by omega) (by decide)
  have h1 : (lbaIo capabilities lba).io1.toNat = lba.toNat / 256 % 256 := by
    rw [lbaIo, if_neg hl, if_pos hc]
    exact toNat_byte_masked lba _ (n := 8) (by decide) (by omega) (by decide)
  have h2 : (lbaIo capabilities lba).io2.toNat = lba.toNat / 65536 % 256 := by
    rw [lbaIo, if_neg hl, if_pos hc]
    exact toNat_byte_masked lba _ (n := 8) (by decide) (by omega) (by decide)
  have hh : (lbaIo capabilities lba).head.toNat = lba.toNat / 16777216 % 16 := by
    rw [lbaIo, if_neg hl, if_pos hc]
    exact toNat_byte_masked lba _ (n := 4) (by decide) (by omega) (by decide)
  rw [Chan.address28_addressed_lba hm (lbaIo_head ..), h0, h1, h2, hh]
  omega

/-- The cylinder loses what is above its 16 bits. -/
theorem address_chs (hl : ¬ lba ≥ 0x10000000) (hc : ¬ capabilities &&& 0x200 ≠ 0) :
    (c.addressed slavebit (lbaIo capabilities lba) numsects).address28 =
      lba.toNat % chsSectors := by
  have hlt : lba.toNat < 268435456 := by
    rw [ge_iff_le, UInt32.le_iff_toNat_le] at hl
    exact Nat.not_le.mp hl
  have hm : (lbaIo capabilities lba).mode = .chs := by rw [lbaIo_mode, if_neg hl, if_neg hc]
  obtain ⟨hsect, hrest⟩ := chs_parts hlt
  have hcyl : ((lba + 1 - (lba % 63 + 1).toUInt8.toUInt32) / (16 * 63)).toUInt16.toNat
      = lba.toNat / 1008 % 65536 := by
    rw [UInt32.toNat_toUInt16, UInt32.toNat_div, hrest,
      show ((16 : UInt32) * 63).toNat = 1008 from rfl]
    omega
  have h0 : (lbaIo capabilities lba).io0.toNat = lba.toNat % 63 + 1 := by
    rw [lbaIo, if_neg hl, if_neg hc]
    exact hsect
  have h1 : (lbaIo capabilities lba).io1.toNat = lba.toNat / 1008 % 65536 % 256 := by
    rw [lbaIo, if_neg hl, if_neg hc]
    dsimp only
    rw [UInt16.toNat_toUInt8, UInt16.toNat_and, UInt16.toNat_shiftRight, hcyl]
    exact (Nat.mod_eq_of_lt (lt_of_le_of_lt Nat.and_le_right (by decide))).trans
      (Nat.and_two_pow_sub_one_eq_mod _ 8)
  have h2 : (lbaIo capabilities lba).io2.toNat = lba.toNat / 1008 % 65536 / 256 := by
    rw [lbaIo, if_neg hl, if_neg hc]
    dsimp only
    rw [UInt16.toNat_toUInt8, UInt16.toNat_and, UInt16.toNat_shiftRight, hcyl,
      show (255 : UInt16).toNat = 2 ^ 8 - 1 from rfl, Nat.and_two_pow_sub_one_eq_mod,
      show (8 : UInt16).toNat % 16 = 8 from rfl, Nat.shiftRight_eq_div_pow]
    omega
  have hh : (lbaIo capabilities lba).head.toNat = lba.toNat / 63 % 16 := by
    rw [lbaIo, if_neg hl, if_neg hc]
    dsimp only
    rw [UInt32.toNat_toUInt8, UInt32.toNat_div, UInt32.toNat_mod, hrest,
      show ((16 : UInt32) * 63).toNat = 1008 from rfl, show (63 : UInt32).toNat = 63 from rfl]
    omega
  rw [Chan.address28_addressed_chs hm (lbaIo_head ..), h0, h1, h2, hh, chsSectors]
  omega

/-- **The sector that the drive is told**: the one that was asked for, up to the 65536 cylinders of
the oldest way to write it. -/
theorem address_addressed (c : Chan) (slavebit : Fin 2) (capabilities : UInt16) (lba : UInt32)
    (numsects : UInt8) :
    (c.addressed slavebit (lbaIo capabilities lba) numsects).address (lbaIo capabilities lba).mode =
      if (lbaIo capabilities lba).mode = .chs then lba.toNat % chsSectors else lba.toNat := by
  unfold Chan.address
  rw [lbaIo_mode]
  by_cases hl : lba ≥ 0x10000000
  · simp only [if_pos hl, if_true, reduceCtorEq, if_false]
    exact address_lba48 hl
  · by_cases hc : capabilities &&& 0x200 ≠ 0
    · simp only [if_neg hl, if_pos hc, reduceCtorEq, if_false]
      exact address_lba28 hl hc
    · simp only [if_neg hl, if_neg hc, reduceCtorEq, if_true, if_false]
      exact address_chs hl hc

/-- **The drive is told the sector that was asked for exactly when** it takes sector numbers, or the
number is below the 65536 cylinders of 16 heads of 63 sectors, or it is so large that the 48 bits
are used whatever the drive says. -/
theorem address_exact_iff (c : Chan) (slavebit : Fin 2) (capabilities : UInt16) (lba : UInt32)
    (numsects : UInt8) :
    (c.addressed slavebit (lbaIo capabilities lba) numsects).address
      (lbaIo capabilities lba).mode = lba.toNat ↔
      capabilities &&& 0x200 ≠ 0 ∨ lba.toNat < chsSectors ∨ 268435456 ≤ lba.toNat := by
  have h48 : lba ≥ 0x10000000 ↔ 268435456 ≤ lba.toNat := UInt32.le_iff_toNat_le
  rw [address_addressed, lbaIo_mode]
  by_cases hl : lba ≥ 0x10000000
  · simp [hl, h48.mp hl]
  by_cases hc : capabilities &&& 0x200 ≠ 0
  · simp [hl, hc]
  have hlt : ¬ 268435456 ≤ lba.toNat := mt h48.mpr hl
  rw [if_neg hl, if_neg hc, if_pos rfl, or_iff_right hc, or_iff_left hlt]
  constructor
  · intro h
    have hmod := Nat.mod_lt lba.toNat (show chsSectors > 0 by decide)
    omega
  · exact Nat.mod_eq_of_lt

end Ide

end OwnOS.Ata
