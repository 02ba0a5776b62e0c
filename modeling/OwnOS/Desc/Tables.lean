import OwnOS.Desc.Model

/-!
# The tables that the processor reads

* `readSegment_setSegdesc`: the processor reads the base and the rights that `set_segdesc` was
  given, and a limit above 1 MiB rounded up to whole pages (`segment_exact_iff`).
* `gdt_entries`: the global table holds flat segments for the kernel, for the tasks and for the
  users, the TSS, and nothing else.
* `deliver_iff`: **an interrupt enters its handler, and `int` does from a process only for 0x30 and
  0x80**, for all but one: the loop of `initIDT` ends before the last entry, and that one is what
  was in memory before.
-/

namespace OwnOS.Desc

open Lib Buf

variable {m m' : Buf} {a desc n i j k : Nat} {addr limit offset : UInt32} {ar : UInt16}

/-! ## Bytes and words -/

theorem le16_word (w : UInt16) : w.toUInt8.toUInt16 ||| (highByte w).toUInt16 <<< 8 = w := by
  refine UInt16.toNat.inj ?_
  have hw := w.toNat_lt
  have hlow : w.toUInt8.toUInt16.toNat = w.toNat % 256 := by simp
  have hhigh : ((highByte w).toUInt16 <<< 8).toNat = 2 ^ 8 * (w.toNat / 256) := by
    simp [highByte, Nat.shiftRight_eq_div_pow, Nat.shiftLeft_eq]
    omega
  rw [UInt16.toNat_or, hlow, hhigh, Nat.or_comm, ← Nat.two_pow_add_eq_or_of_lt
    (Nat.mod_lt _ (by decide))]
  omega

/-- The entry `d` is at the address. -/
def Holds (m : Buf) (a : Nat) (d : Buf) : Prop := ∀ k < 8, m (a + k) = d k

theorem Holds.le16 {d : Buf} (h : Holds m a d) (hk : k + 1 < 8) (w : UInt16)
    (hlow : d k = w.toUInt8) (hhigh : d (k + 1) = highByte w) : m.le16 (a + k) = w := by
  have h1 := h (k + 1) hk
  rw [← Nat.add_assoc] at h1
  rw [Buf.le16, h k (by omega), h1, hlow, hhigh]
  exact le16_word w

theorem toNat_and_low (x : UInt32) {k : Nat} {y : UInt32} (hy : y.toNat = 2 ^ k - 1) :
    (x &&& y).toNat = x.toNat % 2 ^ k := by
  rw [UInt32.toNat_and, hy, Nat.and_two_pow_sub_one_eq_mod]

theorem toNat_accessRight (ar : UInt16) : (ar &&& 0xff).toUInt8.toNat = ar.toNat % 256 := by
  rw [UInt16.toNat_toUInt8, UInt16.toNat_and]
  change (ar.toNat &&& 2 ^ 8 - 1) % 256 = _
  rw [Nat.and_two_pow_sub_one_eq_mod]
  omega

/-! ## Segments -/

/-- The low half of the byte is the top of the limit, and the high half has the flags. -/
theorem toNat_limitHigh (limit : UInt32) (ar : UInt16) :
    (((limit >>> 16) &&& 0x0f).toUInt8 ||| ((ar >>> 8) &&& 0xf0).toUInt8).toNat =
      16 * (ar.toNat / 4096) + limit.toNat / 65536 % 16 := by
  have har := ar.toNat_lt
  have hflags : ∀ y < 256, y &&& 240 = y / 16 * 16 := by decide +kernel
  have hlow : ((limit >>> 16) &&& 0x0f).toUInt8.toNat = limit.toNat / 65536 % 16 := by
    rw [UInt32.toNat_toUInt8, toNat_and_low _ (k := 4) rfl, UInt32.toNat_shiftRight,
      Nat.shiftRight_eq_div_pow]
    change limit.toNat / 65536 % 16 % 256 = _
    omega
  have hhigh : ((ar >>> 8) &&& 0xf0).toUInt8.toNat = 2 ^ 4 * (ar.toNat / 4096) := by
    rw [UInt16.toNat_toUInt8, UInt16.toNat_and, UInt16.toNat_shiftRight, Nat.shiftRight_eq_div_pow]
    change (ar.toNat / 256 &&& 240) % 256 = _
    rw [hflags _ (by omega)]
    omega
  rw [UInt8.toNat_or, hlow, hhigh, Nat.or_comm, ← Nat.two_pow_add_eq_or_of_lt
    (Nat.mod_lt _ (by decide))]

/-- The flag of whole pages. -/
theorem toNat_or_pages (ar : UInt16) :
    8 ≤ (ar ||| 0x8000).toNat / 4096 ∧ (ar ||| 0x8000).toNat % 256 = ar.toNat % 256 := by
  rw [UInt16.toNat_or]
  constructor
  · rw [Nat.le_div_iff_mul_le (by decide)]
    exact Nat.right_le_or
  · have h := Nat.or_mod_two_pow (a := ar.toNat) (b := 32768) (n := 8)
    rw [Nat.or_zero] at h
    exact h

theorem toNat_base (addr : UInt32) :
    (addr &&& 0xffff).toUInt16.toNat + 65536 * ((addr >>> 16) &&& 0xff).toUInt8.toNat +
    16777216 * ((addr >>> 24) &&& 0xff).toUInt8.toNat = addr.toNat := by
  have h := addr.toNat_lt
  rw [UInt32.toNat_toUInt16, UInt32.toNat_toUInt8, UInt32.toNat_toUInt8,
    toNat_and_low _ (k := 16) rfl, toNat_and_low _ (k := 8) rfl, toNat_and_low _ (k := 8) rfl,
    UInt32.toNat_shiftRight, UInt32.toNat_shiftRight,
    Nat.shiftRight_eq_div_pow, Nat.shiftRight_eq_div_pow]
  change addr.toNat % 65536 % 65536 + 65536 * (addr.toNat / 65536 % 256 % 256) +
    16777216 * (addr.toNat / 16777216 % 256 % 256) = _
  omega

/-- The descriptor for a limit that is in units already. -/
def rawSegdesc (addr limit : UInt32) (ar : UInt16) : SegDesc :=
  { limitLow := (limit &&& 0xffff).toUInt16
    limitHigh := ((limit >>> 16) &&& 0x0f).toUInt8 ||| ((ar >>> 8) &&& 0xf0).toUInt8
    accessRight := (ar &&& 0xff).toUInt8
    baseLow := (addr &&& 0xffff).toUInt16
    baseMid := ((addr >>> 16) &&& 0xff).toUInt8
    baseHigh := ((addr >>> 24) &&& 0xff).toUInt8 }

theorem setSegdesc_eq (addr limit : UInt32) (ar : UInt16) : setSegdesc addr limit ar =
    if limit > 0xfffff then rawSegdesc addr (limit / 0x1000) (ar ||| 0x8000)
    else rawSegdesc addr limit ar := by
  unfold setSegdesc
  by_cases h : limit > 0xfffff
  · simp only [if_pos h]
    rfl
  · simp only [if_neg h]
    rfl

theorem readSegment_raw (h : Holds m a (rawSegdesc addr limit ar).bytes) : readSegment m a =
    { base := addr.toNat
      limit := if 32768 ≤ ar.toNat then 4096 * (limit.toNat % 1048576) + 4095
      else limit.toNat % 1048576
      type := ar.toNat % 16
      plain := ar.toNat / 16 % 2 = 1
      dpl := ar.toNat / 32 % 4
      present := 128 ≤ ar.toNat % 256 } := by
  have har := ar.toNat_lt
  have h0 : m.le16 a = (limit &&& 0xffff).toUInt16 := h.le16 (k := 0) (by decide) _ rfl rfl
  have h2 : m.le16 (a + 2) = (addr &&& 0xffff).toUInt16 := h.le16 (by decide) _ rfl rfl
  have h4 : m (a + 4) = ((addr >>> 16) &&& 0xff).toUInt8 := h 4 (by decide)
  have h5 : m (a + 5) = (ar &&& 0xff).toUInt8 := h 5 (by decide)
  have h6 : m (a + 6) = ((limit >>> 16) &&& 0x0f).toUInt8 ||| ((ar >>> 8) &&& 0xf0).toUInt8 :=
    h 6 (by decide)
  have h7 : m (a + 7) = ((addr >>> 24) &&& 0xff).toUInt8 := h 7 (by decide)
  have hlow : (limit &&& 0xffff).toUInt16.toNat = limit.toNat % 65536 := by
    rw [UInt32.toNat_toUInt16, toNat_and_low _ (k := 16) rfl]
    omega
  unfold readSegment
  rw [h0, h2, h4, h5, h6, h7, toNat_base, toNat_limitHigh, toNat_accessRight, hlow]
  have hraw : limit.toNat % 65536 +
    65536 * ((16 * (ar.toNat / 4096) + limit.toNat / 65536 % 16) % 16) =
      limit.toNat % 1048576 := by omega
  have hpages : (128 ≤ 16 * (ar.toNat / 4096) + limit.toNat / 65536 % 16) = (32768 ≤ ar.toNat) :=
    propext (by omega)
  have htype : ar.toNat % 256 % 16 = ar.toNat % 16 := by omega
  have hplain : ar.toNat % 256 / 16 % 2 = ar.toNat / 16 % 2 := by omega
  have hdpl : ar.toNat % 256 / 32 % 4 = ar.toNat / 32 % 4 := by omega
  simp only [hraw, hpages, htype, hplain, hdpl]

/-- What the processor should read. -/
def segmentOf (addr limit : UInt32) (ar : UInt16) : Segment :=
  { base := addr.toNat
    limit :=
      if 0xfffff < limit.toNat then 4096 * (limit.toNat / 4096) + 4095
      else if 32768 ≤ ar.toNat then 4096 * limit.toNat + 4095
      else limit.toNat
    type := ar.toNat % 16
    plain := ar.toNat / 16 % 2 = 1
    dpl := ar.toNat / 32 % 4
    present := 128 ≤ ar.toNat % 256 }

/-- **The processor reads what `set_segdesc` was given**, but for a limit above 1 MiB. -/
theorem readSegment_setSegdesc (h : Holds m a (setSegdesc addr limit ar).bytes) :
    readSegment m a = segmentOf addr limit ar := by
  have hlimit := limit.toNat_lt
  rw [setSegdesc_eq] at h
  unfold segmentOf
  split at h
  · rename_i hlt
    have hlt' : 0xfffff < limit.toNat := UInt32.lt_iff_toNat_lt.mp hlt
    obtain ⟨hpages, hlow⟩ := toNat_or_pages ar
    have htop : 32768 ≤ (ar ||| 0x8000).toNat := by omega
    have hdiv : (limit / 0x1000).toNat = limit.toNat / 4096 := UInt32.toNat_div ..
    have hsmall : limit.toNat / 4096 % 1048576 = limit.toNat / 4096 := by omega
    have htype : (ar ||| 0x8000).toNat % 16 = ar.toNat % 16 := by omega
    have hplain : (ar ||| 0x8000).toNat / 16 % 2 = ar.toNat / 16 % 2 := by omega
    have hdpl : (ar ||| 0x8000).toNat / 32 % 4 = ar.toNat / 32 % 4 := by omega
    rw [readSegment_raw h, if_pos htop, if_pos hlt', hdiv, hsmall, htype, hplain, hdpl, hlow]
  · rename_i hlt
    have hlt' : ¬ 0xfffff < limit.toNat := fun h => hlt (UInt32.lt_iff_toNat_lt.mpr h)
    have hsmall : limit.toNat % 1048576 = limit.toNat := by omega
    rw [readSegment_raw h, if_neg hlt', hsmall]

/-- **The segment ends where it was asked to exactly when** the limit is one of at most 1 MiB, or
the last byte of a page. -/
theorem segment_exact_iff (h : Holds m a (setSegdesc addr limit ar).bytes)
    (har : ar.toNat < 32768) :
    (readSegment m a).limit = limit.toNat ↔ limit.toNat ≤ 0xfffff ∨ limit.toNat % 4096 = 4095 := by
  rw [readSegment_setSegdesc h, segmentOf]
  dsimp only
  split_ifs <;> omega

/-- The TSS ends one byte behind its structure. -/
theorem segment_exact_iff_tss :
    (readSegment (setSegdesc 0x5000 sizeofTSS32 TYPE_TSS).bytes 0).limit = sizeofTSS32.toNat := by
  have h : Holds (setSegdesc 0x5000 sizeofTSS32 TYPE_TSS).bytes 0
      (setSegdesc 0x5000 sizeofTSS32 TYPE_TSS).bytes :=
    fun k _ => congrArg _ (Nat.zero_add k)
  exact (segment_exact_iff h (by decide)).mpr (Or.inl (by decide))

/-! ## Tables -/

/-- The first `N` entries of a table. -/
def Entries (m : Buf) (desc N : Nat) (f : Nat → Buf) : Prop := ∀ i < N, Holds m (desc + 8 * i) (f i)

theorem entries_self (m : Buf) (desc N : Nat) :
    Entries m desc N fun i k => m (desc + 8 * i + k) := fun _ _ _ _ => rfl

/-- Writing an entry. -/
theorem Entries.setEntry {N : Nat} {f : Nat → Buf} (h : Entries m desc N f) (j : Nat) (d : Buf) :
    Entries (setEntry m desc j d) desc N (Function.update f j d) := by
  intro i hi k hk
  by_cases hij : i = j
  · rw [hij, Function.update_self]
    exact put_add hk
  · rw [Function.update_of_ne hij, ← h i hi k hk]
    unfold Desc.setEntry
    rcases Nat.lt_or_gt_of_ne hij with hlt | hgt
    · exact put_of_lt (by omega)
    · exact put_of_le (by omega)

theorem Entries.congr {N : Nat} {f g : Nat → Buf} (h : Entries m desc N f)
    (hfg : ∀ i < N, ∀ k < 8, f i k = g i k) :
    Entries m desc N g := fun i hi k hk => (h i hi k hk).trans (hfg i hi k hk)

/-- Writing the first entries in turn. -/
theorem Entries.setEntries {N c : Nat} {f d : Nat → Buf} {step : Buf → Nat → Buf}
    (h : Entries m desc N f)
    (hstep : ∀ m j, j < c → Entries m desc N (fun i => if i < j then d i else f i) →
    Entries (step m j) desc N (Function.update (fun i => if i < j then d i else f i) j (d j))) :
    Entries ((List.range c).foldl step m) desc N fun i => if i < c then d i else f i := by
  induction c with
  | zero => exact h
  | succ c ih =>
    have hlast := hstep _ c (by omega) (ih fun m j hj => hstep m j (by omega))
    rw [List.range_succ, List.foldl_append, List.foldl_cons, List.foldl_nil]
    refine hlast.congr fun i _ k _ => ?_
    by_cases hi : i = c
    · rw [hi, Function.update_self, if_pos (by omega)]
    · rw [Function.update_of_ne hi]
      by_cases hlt : i < c
      · rw [if_pos hlt, if_pos (by omega)]
      · rw [if_neg hlt, if_neg (by omega)]

/-! ## The gates -/

def Handlers.gate (h : Handlers) (n : Nat) : GateDesc :=
  let kernel := UInt32.ofNat KCSeg
  if n < 0x10 ∨ n = 0x20 ∨ n = 0x21 then setGatedesc (h.isr n) kernel AR_INT
  else if n = 0x30 ∨ n = 0x80 then setGatedesc (h.isr 0x30) kernel AR_INT_p3
  else setGatedesc h.invalid kernel AR_INT

/-- The loop that copies the first gate. -/
theorem invalid_entries {f : Nat → Buf} (h : Entries m desc 256 f) (d : Buf) :
    Entries ((List.range 0xff).foldl (fun m i => setEntry m desc i fun k => m (desc + k))
      (setEntry m desc 0 d)) desc 256 fun i => if i < 255 then d else f i := by
  have h0 := h.setEntry 0 d
  refine (h0.setEntries (d := fun _ => d) fun m' j hj hm => ?_).congr fun i _ k _ => ?_
  · have hfirst : Holds m' (desc + 8 * 0) d := by
      have hzero := hm 0 (by decide)
      dsimp only at hzero
      rwa [Function.update_self, ite_self] at hzero
    refine (hm.setEntry j _).congr fun i _ k hk => ?_
    by_cases hij : i = j
    · rw [hij, Function.update_self, Function.update_self]
      exact hfirst k hk
    · rw [Function.update_of_ne hij, Function.update_of_ne hij]
  · by_cases hi : i < 255
    · rw [if_pos hi, if_pos hi]
    · rw [if_neg hi, if_neg hi, Function.update_of_ne (by omega)]

/-- **Every gate but the last one is set.** -/
theorem initIDT_entries (h : Handlers) (desc : Nat) (m : Buf) :
    Entries (initIDT h desc m) desc 256 fun n =>
    if n = 255 then fun k => m (desc + 8 * 255 + k) else (h.gate n).bytes := by
  have hinvalid := invalid_entries (entries_self m desc 256)
    (setGatedesc h.invalid (UInt32.ofNat KCSeg) AR_INT).bytes
  have hlow := hinvalid.setEntries (c := 0x10)
    (d := fun i => (setGatedesc (h.isr i) (UInt32.ofNat KCSeg) AR_INT).bytes)
      fun m j _ hm => hm.setEntry j _
  refine Entries.congr ((((hlow.setEntry 0x20 _).setEntry 0x21 _).setEntry 0x30 _).setEntry 0x80 _)
    fun n hn k _ => ?_
  unfold Handlers.gate
  simp only [Function.update_apply]
  split_ifs <;> first | rfl | omega | subst_vars; rfl

/-! ## The rest of the memory -/

theorem setEntry_outside {N : Nat} (hj : j < N) (hk : k < desc ∨ desc + 8 * N ≤ k) (d : Buf) :
    setEntry m desc j d k = m k := by
  rcases hk with hk | hk
  · exact put_of_lt (by omega)
  · exact put_of_le (by omega)

theorem foldl_same {step : Buf → Nat → Buf} (h : ∀ m j, j < n → step m j k = m k) :
    (List.range n).foldl step m k = m k := by
  induction n with
  | zero => rfl
  | succ n ih =>
    rw [List.range_succ, List.foldl_append, List.foldl_cons, List.foldl_nil, h _ n (by omega)]
    exact ih fun m j hj => h m j (by omega)

theorem initIDT_outside (h : Handlers) (hk : k < desc ∨ desc + 2048 ≤ k) :
    initIDT h desc m k = m k := by
  have hset {m : Buf} {j : Nat} (hj : j < 256) (d : Buf) : setEntry m desc j d k = m k :=
    setEntry_outside hj hk d
  unfold initIDT
  dsimp only
  rw [hset (by decide), hset (by decide), hset (by decide), hset (by decide), foldl_same
    fun m j hj => hset (by omega) _, foldl_same fun m j hj => hset (by omega) _, hset (by decide)]

theorem zero_words (n : Nat) :
    (List.range n).foldl (fun m i => m.put (desc + 4 * i) 4 fun _ => 0) m =
    m.put desc (4 * n) fun _ => 0 := by
  induction n with
  | zero => exact (put_nil m desc _).symm
  | succ n ih =>
    rw [List.range_succ, List.foldl_append, List.foldl_cons, List.foldl_nil, ih]
    exact put_append m desc (4 * n) 4 fun _ => 0

theorem initGDT_outside (tssaddr : UInt32) (hk : k < desc ∨ desc + 16384 ≤ k) :
    initGDT tssaddr desc m k = m k := by
  have hset {m : Buf} {j : Nat} (hj : j < 2048) (d : Buf) : setEntry m desc j d k = m k :=
    setEntry_outside hj hk d
  have hzero : m.put desc 16384 (fun _ => 0) k = m k := by
    rcases hk with hk | hk
    · exact put_of_lt hk
    · exact put_of_le hk
  unfold initGDT
  dsimp only
  rw [hset (by decide), hset (by decide), hset (by decide), hset (by decide),
    hset (by decide), hset (by decide), hset (by decide), zero_words]
  exact hzero

/-! ## The global table -/

/-- A segment over all addresses. -/
def flat (type dpl : Nat) : Segment := ⟨0, 4294967295, type, true, dpl, true⟩

/-- The segments of the kernel at level 0, of the tasks at level 1 and of the users at level 3. -/
def segments (tssaddr : UInt32) : Nat → Segment
  | 1 => flat 10 0
  | 2 => flat 2 0
  | 4 => ⟨tssaddr.toNat, 104, 9, false, 0, true⟩
  | 5 => flat 10 3
  | 6 => flat 2 3
  | 8 => flat 10 1
  | 9 => flat 2 1
  | _ => ⟨0, 0, 0, false, 0, false⟩

theorem initGDT_entries (tssaddr : UInt32) (desc : Nat) (m : Buf) :
    Entries (initGDT tssaddr desc m) desc 2048 fun n =>
    if n = 1 then (setSegdesc 0 0xffffffff AR_CODE32).bytes
    else if n = 2 then (setSegdesc 0 0xffffffff AR_DATA32).bytes
    else if n = 4 then (setSegdesc tssaddr sizeofTSS32 TYPE_TSS).bytes
    else if n = 5 then (setSegdesc 0 0xffffffff AR_USERCODE32).bytes
    else if n = 6 then (setSegdesc 0 0xffffffff AR_USERDATA32).bytes
    else if n = 8 then (setSegdesc 0 0xffffffff AR_TASKCODE32).bytes
    else if n = 9 then (setSegdesc 0 0xffffffff AR_TASKDATA32).bytes
    else fun _ => 0 := by
  have hzero :
      Entries ((List.range 0x1000).foldl (fun m i => m.put (desc + 4 * i) 4 fun _ => 0) m) desc 2048
      fun _ _ => 0 := by
    rw [zero_words]
    intro i hi k hk
    exact put_of_mem (by omega) (by omega)
  refine Entries.congr
    (((((((hzero.setEntry 1 _).setEntry 2 _).setEntry 5 _).setEntry 6 _).setEntry 8 _).setEntry
    9 _).setEntry 4 _) fun n _ k _ => ?_
  simp only [Function.update_apply]
  split_ifs <;> first | rfl | omega

theorem readSegment_zero (h : Holds m a fun _ => 0) :
    readSegment m a = ⟨0, 0, 0, false, 0, false⟩ := by
  have h0 : m.le16 a = 0 := h.le16 (k := 0) (by decide) _ rfl rfl
  have h2 : m.le16 (a + 2) = 0 := h.le16 (by decide) _ rfl rfl
  unfold readSegment
  rw [h0, h2, h 4 (by decide), h 5 (by decide), h 6 (by decide), h 7 (by decide)]
  rfl

/-- **The global table** has these segments and no others. -/
theorem gdt_entries (tssaddr : UInt32) (desc : Nat) (m : Buf) (hi : 8 * i + 7 ≤ (lgdt desc).limit) :
    readSegment (initGDT tssaddr desc m) (desc + 8 * i) = segments tssaddr i := by
  have hlt : i < 10 := by
    change 8 * i + 7 ≤ 80 at hi
    omega
  have h := initGDT_entries tssaddr desc m i (by omega)
  interval_cases i
  · exact readSegment_zero h
  · exact readSegment_setSegdesc h
  · exact readSegment_setSegdesc h
  · exact readSegment_zero h
  · exact readSegment_setSegdesc h
  · exact readSegment_setSegdesc h
  · exact readSegment_setSegdesc h
  · exact readSegment_zero h
  · exact readSegment_setSegdesc h
  · exact readSegment_setSegdesc h

/-! ## Interrupts -/

/-- The address of the handler that the gate names. -/
def Handlers.handler (h : Handlers) (n : Nat) : UInt32 :=
  if n < 0x10 ∨ n = 0x20 ∨ n = 0x21 then h.isr n
  else if n = 0x30 ∨ n = 0x80 then h.isr 0x30
  else h.invalid

/-- The level from which `int` may be used: everybody for the calls of the kernel, and the kernel
for the others. -/
def gateLevel (n : Nat) : Nat := if n = 0x30 ∨ n = 0x80 then 3 else 0

/-- The memory with both tables. -/
def tables (h : Handlers) (tssaddr : UInt32) (idt gdt : Nat) (m : Buf) : Buf :=
  initGDT tssaddr gdt (initIDT h idt m)

/-- What should happen at an interrupt. -/
def delivered (h : Handlers) (n : Nat) (software : Bool) (cpl : Nat) : Except Fault Entry :=
  if software ∧ gateLevel n < cpl then .error (.gp (8 * n + 2))
  else .ok ⟨KCSeg, (h.handler n).toNat, 0, true⟩

theorem readOffset (h : Holds m a (setGatedesc offset (UInt32.ofNat KCSeg) ar).bytes) :
    (m.le16 a).toNat + 65536 * (m.le16 (a + 6)).toNat = offset.toNat ∧
    (m.le16 (a + 2)).toNat = KCSeg ∧
      (m (a + 5)).toNat = ar.toNat % 256 := by
  have hoff := offset.toNat_lt
  have h0 : m.le16 a = (offset &&& 0xffff).toUInt16 := h.le16 (k := 0) (by decide) _ rfl rfl
  have h6 : m.le16 (a + 6) = ((offset >>> 16) &&& 0xffff).toUInt16 := h.le16 (by decide) _ rfl rfl
  have h2 : m.le16 (a + 2) = (UInt32.ofNat KCSeg).toUInt16 := h.le16 (by decide) _ rfl rfl
  have h5 : m (a + 5) = (ar &&& 0xff).toUInt8 := h 5 (by decide)
  refine ⟨?_, ?_, ?_⟩
  · rw [h0, h6, UInt32.toNat_toUInt16, UInt32.toNat_toUInt16, toNat_and_low _ (k := 16) rfl,
      toNat_and_low _ (k := 16) rfl, UInt32.toNat_shiftRight, Nat.shiftRight_eq_div_pow]
    change offset.toNat % 65536 % 65536 + 65536 * (offset.toNat / 65536 % 65536 % 65536) = _
    omega
  · rw [h2]
    rfl
  · rw [h5, toNat_accessRight]

/-- The code segment of the kernel may be entered from every level. -/
theorem codeSegment_kernel {gdt : Nat} (h : readSegment m (gdt + 8 * 1) = flat 10 0)
    (cpl ext : Nat) :
    codeSegment m (lgdt gdt) KCSeg cpl ext = .ok (flat 10 0) := by
  unfold codeSegment
  have hlimit : ¬ (lgdt gdt).limit < 8 * (KCSeg / 8) + 7 := (by decide : ¬ 80 < 8 * (8 / 8) + 7)
  have hread : readSegment m ((lgdt gdt).base + 8 * (KCSeg / 8)) = flat 10 0 := h
  have hselector : ¬ KCSeg / 4 = 0 := by decide
  have hcode : ¬ (¬ (flat 10 0).isCode = true ∨ cpl < (flat 10 0).dpl) := by
    rintro (hc | hc)
    · exact hc rfl
    · exact Nat.not_lt_zero _ hc
  rw [if_neg hselector, if_neg hlimit, hread, if_neg hcode]
  rfl

/-- The processor takes a gate that is present. -/
theorem deliver_gate {idt gdt cpl : Nat} {software : Bool}
    (hg : Holds m (idt + 8 * n) (setGatedesc offset (UInt32.ofNat KCSeg) ar).bytes)
    (hseg : readSegment m (gdt + 8 * 1) = flat 10 0) (hn : n < 256)
    (htype : ar.toNat % 256 % 32 = 14) (hpresent : 128 ≤ ar.toNat % 256) :
    deliver m (lidt idt) (lgdt gdt) n software cpl =
      if software ∧ ar.toNat % 256 / 32 % 4 < cpl then .error (.gp (8 * n + 2))
      else .ok ⟨KCSeg, offset.toNat, 0, true⟩ := by
  obtain ⟨hoffset, hselector, hright⟩ := readOffset hg
  have hlimit : ¬ (lidt idt).limit < 8 * n + 7 := by
    change ¬ 2047 < 8 * n + 7
    omega
  have hbase : (lidt idt).base + 8 * n = idt + 8 * n := rfl
  unfold deliver
  rw [if_neg hlimit, hbase, hright, if_neg (fun h => h.1 htype), hselector, hoffset]
  dsimp only
  rw [codeSegment_kernel hseg]
  cases software with
  | false =>
    rw [if_neg fun h => absurd h.1 (by decide), if_neg (by omega), if_neg fun h =>
      absurd h.1 (by decide), htype]
    rfl
  | true =>
    by_cases hlevel : ar.toNat % 256 / 32 % 4 < cpl
    · have hc : true = true ∧ ar.toNat % 256 / 32 % 4 < cpl := ⟨rfl, hlevel⟩
      rw [if_pos hc, if_pos hc]
      rfl
    · rw [if_neg fun h => hlevel h.2, if_neg (by omega), if_neg fun h => hlevel h.2, htype]
      rfl

section

variable {h : Handlers} {tssaddr : UInt32} {idt gdt cpl : Nat} {software : Bool}

/-- Both tables are in memory. -/
theorem tables_entries (h : Handlers) (tssaddr : UInt32) (m : Buf)
    (hapart : idt + 2048 ≤ gdt ∨ gdt + 16384 ≤ idt) (hn : n < 256) :
    Holds (tables h tssaddr idt gdt m) (idt + 8 * n)
        (if n = 255 then fun k => m (idt + 8 * 255 + k) else (h.gate n).bytes) ∧
      readSegment (tables h tssaddr idt gdt m) (gdt + 8 * 1) = flat 10 0 := by
  refine ⟨fun k hk => ?_, readSegment_setSegdesc (initGDT_entries tssaddr gdt _ 1 (by decide))⟩
  rw [tables, initGDT_outside tssaddr (by omega)]
  exact initIDT_entries h idt m n hn k hk

theorem deliver_tables (hapart : idt + 2048 ≤ gdt ∨ gdt + 16384 ≤ idt) (hn : n < 255) :
    deliver (tables h tssaddr idt gdt m) (lidt idt) (lgdt gdt) n software cpl =
      delivered h n software cpl := by
  obtain ⟨hg, hseg⟩ := tables_entries h tssaddr m hapart (by omega : n < 256)
  rw [if_neg (by omega)] at hg
  unfold Handlers.gate at hg
  unfold delivered gateLevel Handlers.handler
  split_ifs at hg with h1 h2
  · rw [if_neg (by omega : ¬(n = 0x30 ∨ n = 0x80)), if_pos h1, deliver_gate hg hseg
      (by omega) rfl (by decide)]
    rfl
  · rw [if_pos h2, if_neg h1, if_pos h2, deliver_gate hg hseg (by omega) rfl (by decide)]
    rfl
  · rw [if_neg h2, if_neg h1, if_neg h2, deliver_gate hg hseg (by omega) rfl (by decide)]
    rfl

/-- **Every interrupt but the last one is delivered as it should, whatever was in memory
before.** -/
theorem deliver_iff (hapart : idt + 2048 ≤ gdt ∨ gdt + 16384 ≤ idt) (hn : n < 256)
    (hcpl : cpl ≤ 3) :
    (∀ m, deliver (tables h tssaddr idt gdt m) (lidt idt) (lgdt gdt) n software cpl =
      delivered h n software cpl) ↔ n ≠ 255 := by
  constructor
  · rintro hall rfl
    -- the last entry lets everybody enter at another address
    let gate := (setGatedesc (h.invalid + 1) (UInt32.ofNat KCSeg) AR_INT_p3).bytes
    let m : Buf := Buf.put (fun _ => 0) (idt + 8 * 255) 8 gate
    obtain ⟨hg, hseg⟩ := tables_entries h tssaddr m hapart (by decide : 255 < 256)
    rw [if_pos rfl] at hg
    have hgate : Holds (tables h tssaddr idt gdt m) (idt + 8 * 255) gate :=
      fun k hk => (hg k hk).trans (put_add hk)
    have hopen := (hall m).symm.trans (deliver_gate hgate hseg (by decide) rfl (by decide))
    have hlevel : ¬ (software = true ∧ AR_INT_p3.toNat % 256 / 32 % 4 < cpl) := fun hc =>
      Nat.not_lt.mpr hcpl hc.2
    rw [if_neg hlevel, delivered] at hopen
    split at hopen
    · exact absurd hopen (by simp)
    · have hsame : h.invalid = h.invalid + 1 :=
        UInt32.toNat.inj (congrArg Entry.offset (Except.ok.inj hopen))
      have hzero : (0 : UInt32) = 1 :=
        (UInt32.add_right_inj h.invalid).mp ((UInt32.add_zero _).trans hsame)
      exact absurd hzero (by decide)
  · intro hne m
    exact deliver_tables hapart (by omega)

end

/-- A process calls the kernel; the memory was all ones before. -/
theorem deliver_iff_call :
    deliver (tables ⟨fun n => UInt32.ofNat (0x101000 + 16 * n), 0x102000⟩ 0x5000 0x10000 0x1A000
      fun _ => 0xff) (lidt 0x10000) (lgdt 0x1A000) 0x30 true 3 = .ok ⟨8, 0x101300, 0, true⟩ :=
  (deliver_iff (by decide) (by decide) (by decide)).mpr (by decide) fun _ => 0xff

end OwnOS.Desc
