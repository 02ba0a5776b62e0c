import OwnOS.Lib.ForInt

/-!
# The console (`printf.cpp:8-72,163-191`, `printf.h:3-10`)

`vx_putchar` draws the glyph of a character into the frame buffer and moves the cursor; a newline,
or the last column of a line, moves it to the next line, from the last line to the first one, and
clears that line. `Ram` is the memory with two logs, of the addresses that were written and of those
a glyph byte was read from.

`font_of` takes a `char`, and a `char` is signed: the glyph of a byte from 128 on is looked for
before the table.

* `fill_spec`: what clearing a range of pixel lines does.
* `Inv.putchars`: the cursor stays on the screen and the writes in the frame buffer, for any
  characters.
* `console_safe_iff`: **printing is safe exactly for characters below 128.**
-/

namespace OwnOS.Console

open Lib

/-- `Vram::VramInfo`. The frame buffer is a range of addresses, and has room for a character. -/
structure VramInfo where
  vx : UInt32
  vy : UInt32
  vram : UInt32
  hvx : 8 ≤ vx.toNat
  hvy : 16 ≤ vy.toNat
  fits : vram.toNat + vy.toNat * vx.toNat ≤ 4294967296

/-- `Font`: `new char[4096]` is a range of addresses. -/
structure Font where
  fonts : UInt32
  fits : fonts.toNat + 4096 ≤ 4294967296

namespace Font

def vx : UInt32 := 8

def vy : UInt32 := 16

/-- `fonts + 16 * c`, with the signed value of the byte. -/
def fontOf (font : Font) (c : UInt8) : UInt32 := font.fonts + (16 * c.toInt8.toInt32).toUInt32

end Font

/-- The globals that `init_vx_printf` sets and `vx_putchar` only reads. -/
structure Screen where
  vramInfo : VramInfo
  font : Font
  fgcolor : UInt8
  bgcolor : UInt8

structure Ram where
  mem : UInt32 → UInt8
  /-- The addresses written so far. -/
  written : List UInt32
  /-- The addresses glyph bytes were read from. -/
  glyphs : List UInt32

/-- `*p = v`. -/
def Ram.store (m : Ram) (p : UInt32) (v : UInt8) : Ram :=
  { m with mem := fun q => if q = p then v else m.mem q, written := p :: m.written }

/-! ## Drawing -/

/-- The pixels of a glyph byte and their bits. -/
def pixels : List (UInt32 × UInt8) :=
  [(0, 0x80), (1, 0x40), (2, 0x20), (3, 0x10), (4, 0x08), (5, 0x04), (6, 0x02), (7, 0x01)]

/-- One turn of the loop of `putfont8`. -/
def putRow (g : Screen) (screen afont : UInt32) (m : Ram) (i : Int32) : Ram :=
  let p := screen + i.toUInt32 * g.vramInfo.vx
  let d := m.mem (afont + i.toUInt32)
  let m := { m with glyphs := (afont + i.toUInt32) :: m.glyphs }
  pixels.foldl (fun m jb => if d &&& jb.2 ≠ 0 then m.store (p + jb.1) g.fgcolor else m) m

def putfont8 (g : Screen) (screen : UInt32) (c : UInt8) (m : Ram) : Ram :=
  forInt 0 16 (putRow g screen (g.font.fontOf c)) m

/-- The two loops of `cls` and `cls_line`, over the pixel lines from `lo` to `hi`. -/
def fill (g : Screen) (lo hi : Int32) (m : Ram) : Ram :=
  let vxSize := g.vramInfo.vx.toInt32
  forInt lo hi (fun m y => forInt 0 vxSize (fun m x =>
    m.store (g.vramInfo.vram + (y * vxSize + x).toUInt32) g.bgcolor) m) m

def cls (g : Screen) (m : Ram) : Ram := fill g 0 g.vramInfo.vy.toInt32 m

/-- `font->vy` is unsigned, and so are the products. -/
def clsLine (g : Screen) (nline : Int32) (m : Ram) : Ram :=
  fill g (nline.toUInt32 * Font.vy).toInt32 ((nline + 1).toUInt32 * Font.vy).toInt32 m

/-! ## The cursor -/

/-- The globals of the console. -/
structure Terminal where
  screen : Screen
  ram : Ram
  xpos : UInt32
  ypos : UInt32
  columns : UInt32
  lines : UInt32

/-- `init_vx_printf`; `font` and `mem` are what `new Font()` leaves. -/
def init (mem : UInt32 → UInt8) (v : VramInfo) (font : Font) : Terminal :=
  let g : Screen := { vramInfo := v, font, fgcolor := 0, bgcolor := 7 }
  { screen := g, ram := cls g ⟨mem, [], []⟩, xpos := 0, ypos := 0, columns := v.vx / Font.vx,
    lines := v.vy / Font.vy }

namespace Terminal

/-- The label `newline`. -/
def newline (k : Terminal) : Terminal :=
  let ypos := if k.ypos + 1 ≥ k.lines then 0 else k.ypos + 1
  { k with xpos := 0, ypos, ram := clsLine k.screen ypos.toInt32 k.ram }

def vxPutchar (k : Terminal) (c : UInt8) : Terminal :=
  if c = 10 ∨ c = 13 then k.newline
  else
    let v := k.screen.vramInfo
    let k := { k with
      ram := putfont8 k.screen (v.vram + k.xpos * Font.vx + k.ypos * v.vx * Font.vy) c k.ram
      xpos := k.xpos + 1 }
    if k.xpos ≥ k.columns then k.newline else k

def putchars (k : Terminal) (cs : List UInt8) : Terminal := cs.foldl vxPutchar k

end Terminal

/-! ## What is safe -/

def VramInfo.InFrame (v : VramInfo) (p : UInt32) : Prop :=
  v.vram.toNat ≤ p.toNat ∧ p.toNat < v.vram.toNat + v.vy.toNat * v.vx.toNat

/-- Every byte written so far lies in the frame buffer. -/
def Ram.Inside (m : Ram) (v : VramInfo) : Prop := ∀ p ∈ m.written, v.InFrame p

def Font.InTable (font : Font) (p : UInt32) : Prop :=
  font.fonts.toNat ≤ p.toNat ∧ p.toNat < font.fonts.toNat + 4096

/-- The line has the background colour. -/
def Cleared (g : Screen) (line : UInt32) (m : Ram) : Prop :=
  ∀ x y : UInt32, x < g.vramInfo.vx → y / Font.vy = line →
    m.mem (g.vramInfo.vram + (y * g.vramInfo.vx + x)) = g.bgcolor

/-- The cursor is on the screen, and at the start of a line the line is clear; the writes lie in the
frame buffer, and every glyph byte was read from the table. -/
structure Terminal.Safe (k : Terminal) : Prop where
  xpos : k.xpos < k.columns
  ypos : k.ypos < k.lines
  cleared : k.xpos = 0 → Cleared k.screen k.ypos k.ram
  written : k.ram.Inside k.screen.vramInfo
  glyphs : ∀ p ∈ k.ram.glyphs, k.screen.font.InTable p

variable {v : VramInfo} {g : Screen} {m : Ram} {x y p : UInt32} {c : UInt8}
  {k : Terminal} {cs : List UInt8}

/-! ## Addresses -/

namespace VramInfo

theorem vx_lt (v : VramInfo) : v.vx.toNat < 2147483648 := by
  have := Nat.mul_le_mul_right v.vx.toNat v.hvy
  have := v.fits
  omega

theorem vy_lt (v : VramInfo) : v.vy.toNat < 2147483648 := by
  have := Nat.mul_le_mul_left v.vy.toNat v.hvx
  have := v.fits
  omega

/-- The address of a pixel, without wrap-around. -/
theorem pixel_toNat (hx : x.toNat < v.vx.toNat) (hy : y.toNat < v.vy.toNat) :
    (v.vram + (y * v.vx + x)).toNat = v.vram.toNat + (y.toNat * v.vx.toNat + x.toNat) ∧
      y.toNat * v.vx.toNat + x.toNat < v.vy.toNat * v.vx.toNat := by
  have hrow : (y.toNat + 1) * v.vx.toNat ≤ v.vy.toNat * v.vx.toNat := Nat.mul_le_mul_right _ hy
  have := v.fits
  rw [Nat.add_mul, Nat.one_mul] at hrow
  have hmul : (y * v.vx).toNat = y.toNat * v.vx.toNat := Word.toNat_mul_of_lt (by omega)
  have hadd : (y * v.vx + x).toNat = y.toNat * v.vx.toNat + x.toNat := by
    rw [Word.toNat_add_of_lt (by omega), hmul]
  refine ⟨?_, by omega⟩
  rw [Word.toNat_add_of_lt (by omega), hadd]

theorem pixel_inFrame (hx : x.toNat < v.vx.toNat) (hy : y.toNat < v.vy.toNat) :
    v.InFrame (v.vram + (y * v.vx + x)) := by
  obtain ⟨heq, hlt⟩ := pixel_toNat hx hy
  unfold InFrame
  omega

end VramInfo

/-! ## Clearing -/

theorem store_inside (h : m.Inside v) (hp : v.InFrame p) (c : UInt8) : (m.store p c).Inside v := by
  intro q hq
  rcases List.mem_cons.mp hq with rfl | hq
  · exact hp
  · exact h q hq

theorem store_mem_self (m : Ram) (p : UInt32) (c : UInt8) : (m.store p c).mem p = c := if_pos rfl

/-- A byte that has the value keeps it. -/
theorem store_mem_of_eq (h : m.mem p = c) (q : UInt32) : (m.store q c).mem p = c := by
  by_cases hpq : p = q
  · exact if_pos hpq
  · exact (if_neg hpq).trans h

variable {lo hi : Int32} {a b : Nat}

/-- **What clearing pixel lines does**: it writes in the frame buffer, and the lines get the
background colour. -/
theorem fill_spec (hlo : IsNat lo a) (hhi : IsNat hi b) (hb : b ≤ g.vramInfo.vy.toNat) :
    (m.Inside g.vramInfo → (fill g lo hi m).Inside g.vramInfo) ∧
    (fill g lo hi m).glyphs = m.glyphs ∧
    ∀ x y : UInt32, x < g.vramInfo.vx → a ≤ y.toNat → y.toNat < b →
      (fill g lo hi m).mem (g.vramInfo.vram + (y * g.vramInfo.vx + x)) = g.bgcolor := by
  have hvx : IsNat g.vramInfo.vx.toInt32 g.vramInfo.vx.toNat := IsNat.ofWord g.vramInfo.vx_lt
  have haddr (y x : Int32) : (y * g.vramInfo.vx.toInt32 + x).toUInt32 =
      y.toUInt32 * g.vramInfo.vx + x.toUInt32 := by
    rw [Int32.toUInt32_add, Int32.toUInt32_mul, UInt32.toUInt32_toInt32]
  refine ⟨fun hm => ?_, ?_, fun x y hx hay hyb => ?_⟩
  · refine forInt_invariant (I := (Ram.Inside · g.vramInfo)) hlo hhi hm fun m y ny hy _ hyb hm => ?_
    refine forInt_invariant (I := (Ram.Inside · g.vramInfo)) isNat_zero hvx hm
        fun m x nx hx _ hxb hm =>
      store_inside hm ?_ _
    rw [haddr]
    exact VramInfo.pixel_inFrame (by rw [hx.toUInt32]; exact hxb) (by rw [hy.toUInt32]; omega)
  · refine forInt_invariant (I := (Ram.glyphs · = m.glyphs)) hlo hhi rfl fun t y _ _ _ _ ht => ?_
    exact forInt_invariant (I := (Ram.glyphs · = m.glyphs)) isNat_zero hvx ht
      fun t x _ _ _ _ ht => ht
  · have hx := UInt32.lt_iff_toNat_lt.mp hx
    have := g.vramInfo.vy_lt
    have := g.vramInfo.vx_lt
    have hxn : IsNat x.toInt32 x.toNat := IsNat.ofWord (by omega)
    have hyn : IsNat y.toInt32 y.toNat := IsNat.ofWord (by omega)
    -- the turn of the pixel clears it, and the others write the background colour too
    let P (t : Ram) := t.mem (g.vramInfo.vram + (y * g.vramInfo.vx + x)) = g.bgcolor
    refine forInt_reaches (P := P) hlo hhi hyn hay hyb (fun t => ?_) fun t y' ht => ?_
    · refine forInt_reaches (P := P) isNat_zero hvx hxn (Nat.zero_le _) hx (fun t => ?_)
        fun t x' ht => store_mem_of_eq ht _
      rw [haddr]
      exact store_mem_self _ _ _
    · exact forInt_invariant (I := P) isNat_zero hvx ht fun t x' _ _ _ _ ht => store_mem_of_eq ht _

/-! ## The glyph -/

theorem putRow_inside {screen afont : UInt32} {i : Int32}
    (hrow : ∀ j : UInt32, j.toNat < 8 →
    g.vramInfo.InFrame (screen + i.toUInt32 * g.vramInfo.vx + j))
    (hm : m.Inside g.vramInfo) : (putRow g screen afont m i).Inside g.vramInfo := by
  refine List.foldlRecOn (motive := (Ram.Inside · g.vramInfo)) _ _ hm fun m hm jb hjb => ?_
  have hj : ∀ jb ∈ pixels, jb.1.toNat < 8 := by simp [pixels]
  split
  · exact store_inside hm (hrow _ (hj jb hjb)) _
  · exact hm

/-- The pixels of a character on the screen lie in the frame buffer. -/
theorem glyph_inFrame {xp yp i j : UInt32} (hx : xp.toNat < v.vx.toNat / 8)
    (hy : yp.toNat < v.vy.toNat / 16) (hi : i.toNat < 16) (hj : j.toNat < 8) :
    v.InFrame (v.vram + xp * Font.vx + yp * v.vx * Font.vy + i * v.vx + j) := by
  have := v.vx_lt
  have := v.vy_lt
  have h8 : (8 : UInt32).toNat = 8 := rfl
  have h16 : (16 : UInt32).toNat = 16 := rfl
  have haddr : v.vram + xp * Font.vx + yp * v.vx * Font.vy + i * v.vx + j =
      v.vram + ((yp * 16 + i) * v.vx + (xp * 8 + j)) := by
    have h8 : Font.vx = 8 := rfl
    have h16 : Font.vy = 16 := rfl
    rw [h8, h16]
    generalize v.vx = vx
    generalize v.vram = vram
    grind
  rw [haddr]
  refine VramInfo.pixel_inFrame ?_ ?_
  · rw [UInt32.toNat_add, UInt32.toNat_mul, h8]
    omega
  · rw [UInt32.toNat_add, UInt32.toNat_mul, h16]
    omega

/-- **Where drawing a character writes.** -/
theorem putfont8_inside {xp yp : UInt32} (hx : xp.toNat < g.vramInfo.vx.toNat / 8)
    (hy : yp.toNat < g.vramInfo.vy.toNat / 16) (hm : m.Inside g.vramInfo) :
    (putfont8 g (g.vramInfo.vram + xp * Font.vx + yp * g.vramInfo.vx * Font.vy) c m).Inside
      g.vramInfo := by
  have h16 : IsNat 16 16 := rfl
  refine forInt_invariant (I := (Ram.Inside · g.vramInfo)) isNat_zero h16 hm
    fun m i n hi _ hn hm => ?_
  refine putRow_inside (fun j hj => ?_) hm
  exact glyph_inFrame hx hy (by rw [hi.toUInt32]; exact hn) hj

/-- The offset of a glyph in the table, by the signed value of the byte. -/
theorem glyph_offset (c : UInt8) :
    (16 * c.toInt8.toInt32).toInt = if c.toNat < 128 then 16 * (c.toNat : Int)
    else 16 * c.toNat - 4096 := by
  have := c.toNat_lt
  have hsign : c.toInt8.toInt = if c.toNat < 128 then (c.toNat : Int) else c.toNat - 256 := by
    have hbmod : c.toInt8.toInt = (c.toNat : Int).bmod 256 := BitVec.toInt_eq_toNat_bmod _
    rw [hbmod, Int.bmod_def]
    split <;> split <;> omega
  have hmul : (16 * c.toInt8.toInt32).toInt = (16 * c.toInt8.toInt).bmod 4294967296 := by
    rw [Int32.toInt_mul, Int8.toInt_toInt32]
    rfl
  rw [hmul, hsign]
  split
  · exact Int.bmod_eq_of_le (by omega) (by omega)
  · rw [Int.bmod_eq_of_le (by omega) (by omega)]
    omega

theorem glyph_inTable (font : Font) {i : UInt32} (hc : c.toNat < 128) (hi : i.toNat < 16) :
    font.InTable (font.fontOf c + i) := by
  have hoff := glyph_offset c
  rw [if_pos hc] at hoff
  have hnat : IsNat (16 * c.toInt8.toInt32) (16 * c.toNat) := by
    rw [IsNat, hoff]
    push_cast
    rfl
  have hword := hnat.toUInt32
  have := font.fits
  have hglyph : (font.fontOf c).toNat = font.fonts.toNat + 16 * c.toNat := by
    rw [Font.fontOf, Word.toNat_add_of_lt (by omega), hword]
  unfold Font.InTable
  rw [Word.toNat_add_of_lt (by omega), hglyph]
  omega

/-- **The glyph of a byte from 128 on** is not in the table. -/
theorem glyph_not_inTable (font : Font) (hc : 128 ≤ c.toNat) :
    ¬ font.InTable (font.fontOf c + 0) := by
  have hoff := glyph_offset c
  rw [if_neg (by omega)] at hoff
  have := c.toNat_lt
  have hneg := IsNat.toUInt32_of_neg (a := 16 * c.toInt8.toInt32) (by omega)
  have := font.fits
  unfold Font.InTable Font.fontOf
  rw [UInt32.add_zero, UInt32.toNat_add]
  omega

theorem putRow_glyphs (g : Screen) (screen afont : UInt32) (m : Ram) (i : Int32) :
    (putRow g screen afont m i).glyphs = (afont + i.toUInt32) :: m.glyphs := by
  refine List.foldlRecOn (motive := (Ram.glyphs · = (afont + i.toUInt32) :: m.glyphs)) _ _ rfl
    fun t ht jb _ => ?_
  split
  · exact ht
  · exact ht

/-- Drawing a character below 128 reads the table only. -/
theorem putfont8_glyphs (hc : c.toNat < 128) (p : UInt32) (hm : ∀ q ∈ m.glyphs, g.font.InTable q) :
    ∀ q ∈ (putfont8 g p c m).glyphs, g.font.InTable q := by
  have h16 : IsNat 16 16 := rfl
  refine forInt_invariant (I := fun m : Ram => ∀ q ∈ m.glyphs, g.font.InTable q) isNat_zero h16 hm
    fun m i n hi _ hn hm q hq => ?_
  rw [putRow_glyphs] at hq
  rcases List.mem_cons.mp hq with rfl | hq
  · exact glyph_inTable g.font hc (by rw [hi.toUInt32]; exact hn)
  · exact hm q hq

/-- Drawing a character reads the first byte of its glyph. -/
theorem putfont8_reads (g : Screen) (p : UInt32) (c : UInt8) (m : Ram) :
    g.font.fontOf c + 0 ∈ (putfont8 g p c m).glyphs := by
  have h16 : IsNat 16 16 := rfl
  refine forInt_reaches (P := (g.font.fontOf c + 0 ∈ Ram.glyphs ·)) isNat_zero h16
    isNat_zero le_rfl (by omega) (fun m => ?_) fun m i hm => ?_
  · rw [putRow_glyphs]
    exact List.mem_cons_self
  · rw [putRow_glyphs]
    exact List.mem_cons_of_mem _ hm

/-! ## The cursor -/

/-- **Clearing a text line.** -/
theorem clsLine_spec {line : UInt32} (hl : line.toNat < g.vramInfo.vy.toNat / 16) :
    (m.Inside g.vramInfo → (clsLine g line.toInt32 m).Inside g.vramInfo) ∧
    (clsLine g line.toInt32 m).glyphs = m.glyphs ∧ Cleared g line (clsLine g line.toInt32 m) := by
  have := g.vramInfo.vy_lt
  have h16 : Font.vy.toNat = 16 := rfl
  have hline : IsNat line.toInt32 line.toNat := IsNat.ofWord (by omega)
  have hone : IsNat 1 1 := rfl
  have hlow : IsNat (line.toInt32.toUInt32 * Font.vy).toInt32 (line.toNat * 16) := by
    have hmul : (line.toInt32.toUInt32 * Font.vy).toNat = line.toNat * 16 := by
      rw [Word.toNat_mul_of_lt, hline.toUInt32, h16]
      rw [hline.toUInt32, h16]
      omega
    rw [← hmul]
    exact IsNat.ofWord (by omega)
  have hhigh : IsNat ((line.toInt32 + 1).toUInt32 * Font.vy).toInt32 ((line.toNat + 1) * 16) := by
    have hnext := (hline.add hone (by omega)).toUInt32
    have hmul : ((line.toInt32 + 1).toUInt32 * Font.vy).toNat = (line.toNat + 1) * 16 := by
      rw [Word.toNat_mul_of_lt, hnext, h16]
      rw [hnext, h16]
      omega
    rw [← hmul]
    exact IsNat.ofWord (by omega)
  obtain ⟨hin, hgl, hclear⟩ := fill_spec (g := g) (m := m) hlow hhigh (by omega)
  refine ⟨hin, hgl, fun x y hx hy => ?_⟩
  have hdiv := congrArg UInt32.toNat hy
  rw [UInt32.toNat_div, h16] at hdiv
  exact hclear x y hx (by omega) (by omega)

namespace Terminal

/-- What holds after any characters. -/
structure Inv (k : Terminal) : Prop where
  columns : k.columns = k.screen.vramInfo.vx / Font.vx
  lines : k.lines = k.screen.vramInfo.vy / Font.vy
  xpos : k.xpos < k.columns
  ypos : k.ypos < k.lines
  cleared : k.xpos = 0 → Cleared k.screen k.ypos k.ram
  written : k.ram.Inside k.screen.vramInfo

theorem columns_toNat (hcol : k.columns = k.screen.vramInfo.vx / Font.vx) :
    k.columns.toNat = k.screen.vramInfo.vx.toNat / 8 := by
  rw [hcol, UInt32.toNat_div]
  rfl

theorem lines_toNat (hlin : k.lines = k.screen.vramInfo.vy / Font.vy) :
    k.lines.toNat = k.screen.vramInfo.vy.toNat / 16 := by
  rw [hlin, UInt32.toNat_div]
  rfl

/-- The next line is a line of the screen. -/
theorem newline_ypos (hlin : k.lines = k.screen.vramInfo.vy / Font.vy) :
    k.newline.ypos < k.lines := by
  have hlines := lines_toNat hlin
  have := k.screen.vramInfo.hvy
  rw [UInt32.lt_iff_toNat_lt]
  change (if k.ypos + 1 ≥ k.lines then 0 else k.ypos + 1).toNat < _
  split
  · rw [hlines]
    exact Nat.div_pos this (by omega)
  · rename_i hnext
    exact UInt32.lt_iff_toNat_lt.mp (UInt32.not_le.mp hnext)

theorem newline_line (hlin : k.lines = k.screen.vramInfo.vy / Font.vy) :
    k.newline.ypos.toNat < k.screen.vramInfo.vy.toNat / 16 := by
  rw [← lines_toNat hlin]
  exact UInt32.lt_iff_toNat_lt.mp (newline_ypos hlin)

theorem newline_inv (hcol : k.columns = k.screen.vramInfo.vx / Font.vx)
    (hlin : k.lines = k.screen.vramInfo.vy / Font.vy) (hw : k.ram.Inside k.screen.vramInfo) :
    k.newline.Inv := by
  obtain ⟨hin, -, hclear⟩ := clsLine_spec (g := k.screen) (m := k.ram) (newline_line hlin)
  have hx : (0 : UInt32) < k.columns := by
    rw [UInt32.lt_iff_toNat_lt, columns_toNat hcol]
    exact Nat.div_pos k.screen.vramInfo.hvx (by omega)
  exact ⟨hcol, hlin, hx, newline_ypos hlin, fun _ => hclear, hin hw⟩

theorem newline_glyphs (hlin : k.lines = k.screen.vramInfo.vy / Font.vy) :
    k.newline.ram.glyphs = k.ram.glyphs :=
  (clsLine_spec (g := k.screen) (m := k.ram) (newline_line hlin)).2.1

/-- The console after the glyph is drawn. -/
def drawn (k : Terminal) (c : UInt8) : Terminal :=
  { k with
    ram := putfont8 k.screen
      (k.screen.vramInfo.vram + k.xpos * Font.vx + k.ypos * k.screen.vramInfo.vx * Font.vy)
      c k.ram
    xpos := k.xpos + 1 }

/-- **What printing a character does**: a newline, or a glyph and a newline behind the last
column. -/
theorem vxPutchar_cases (k : Terminal) (c : UInt8) :
    ((c = 10 ∨ c = 13) ∧ k.vxPutchar c = k.newline) ∨
    (k.columns ≤ k.xpos + 1 ∧ k.vxPutchar c = (k.drawn c).newline) ∨
    (k.xpos + 1 < k.columns ∧ k.vxPutchar c = k.drawn c) := by
  unfold vxPutchar
  by_cases hc : c = 10 ∨ c = 13
  · exact Or.inl ⟨hc, if_pos hc⟩
  · rw [if_neg hc]
    by_cases hx : k.columns ≤ k.xpos + 1
    · exact Or.inr (Or.inl ⟨hx, if_pos hx⟩)
    · exact Or.inr (Or.inr ⟨UInt32.not_le.mp hx, if_neg hx⟩)

theorem Inv.drawn_inside (h : k.Inv) (c : UInt8) : (k.drawn c).ram.Inside k.screen.vramInfo := by
  refine putfont8_inside ?_ ?_ h.written
  · rw [← columns_toNat h.columns]
    exact UInt32.lt_iff_toNat_lt.mp h.xpos
  · rw [← lines_toNat h.lines]
    exact UInt32.lt_iff_toNat_lt.mp h.ypos

/-- **Printing a character keeps the invariant.** -/
theorem Inv.vxPutchar (h : k.Inv) (c : UInt8) : (k.vxPutchar c).Inv := by
  have hin := h.drawn_inside c
  rcases vxPutchar_cases k c with ⟨-, heq⟩ | ⟨-, heq⟩ | ⟨hx, heq⟩
  · rw [heq]
    exact newline_inv h.columns h.lines h.written
  · rw [heq]
    exact newline_inv (k := k.drawn c) h.columns h.lines hin
  · rw [heq]
    refine ⟨h.columns, h.lines, hx, h.ypos, fun h0 => ?_, hin⟩
    -- inside a line the cursor is not at its start
    have hnat := congrArg UInt32.toNat (show k.xpos + 1 = 0 from h0)
    have hcur := UInt32.lt_iff_toNat_lt.mp h.xpos
    have hone : (1 : UInt32).toNat = 1 := rfl
    have hzero : (0 : UInt32).toNat = 0 := rfl
    have := k.screen.vramInfo.vx_lt
    rw [columns_toNat h.columns] at hcur
    rw [UInt32.toNat_add, hone, hzero] at hnat
    omega

/-- The glyph bytes a character reads, if it is printed. -/
theorem Inv.vxPutchar_glyphs (h : k.Inv) (c : UInt8) :
    (k.vxPutchar c).ram.glyphs = k.ram.glyphs ∧ (c = 10 ∨ c = 13) ∨
    (k.vxPutchar c).ram.glyphs = (k.drawn c).ram.glyphs := by
  rcases vxPutchar_cases k c with ⟨hc, heq⟩ | ⟨-, heq⟩ | ⟨-, heq⟩
  · rw [heq]
    exact Or.inl ⟨newline_glyphs h.lines, hc⟩
  · rw [heq]
    exact Or.inr (newline_glyphs (k := k.drawn c) h.lines)
  · rw [heq]
    exact Or.inr rfl

theorem Inv.putchars (h : k.Inv) (cs : List UInt8) : (k.putchars cs).Inv :=
  List.foldlRecOn (motive := Inv) cs _ h fun _ hk c _ => hk.vxPutchar c

/-- A glyph byte of a character below 128 is in the table. -/
theorem Inv.glyphs_vxPutchar (h : k.Inv) (hc : c.toNat < 128)
    (hg : ∀ p ∈ k.ram.glyphs, k.screen.font.InTable p) :
    ∀ p ∈ (k.vxPutchar c).ram.glyphs, k.screen.font.InTable p := by
  rcases h.vxPutchar_glyphs c with ⟨heq, -⟩ | heq
  · rw [heq]
    exact hg
  · rw [heq]
    exact putfont8_glyphs hc _ hg

@[simp] theorem vxPutchar_screen (k : Terminal) (c : UInt8) :
    (k.vxPutchar c).screen = k.screen := by
  rcases vxPutchar_cases k c with ⟨-, heq⟩ | ⟨-, heq⟩ | ⟨-, heq⟩ <;> rw [heq] <;> rfl

@[simp] theorem putchars_screen (k : Terminal) (cs : List UInt8) :
    (k.putchars cs).screen = k.screen :=
  List.foldlRecOn (motive := (Terminal.screen · = k.screen)) cs _ rfl fun t ht c _ =>
    (vxPutchar_screen t c).trans ht

theorem putchars_snoc (k : Terminal) (cs : List UInt8) (c : UInt8) :
    k.putchars (cs ++ [c]) = (k.putchars cs).vxPutchar c := List.foldl_concat ..

/-- Characters below 128 read the table only. -/
theorem Inv.glyphs_putchars (h : k.Inv) (hcs : ∀ c ∈ cs, c.toNat < 128)
    (hg : ∀ p ∈ k.ram.glyphs, k.screen.font.InTable p) :
    ∀ p ∈ (k.putchars cs).ram.glyphs, k.screen.font.InTable p := by
  induction cs using List.reverseRecOn with
  | nil => exact hg
  | append_singleton cs c ih =>
    have hcs' := List.forall_mem_append.mp hcs
    have hprint := (h.putchars cs).glyphs_vxPutchar (hcs'.2 c (List.mem_singleton.mpr rfl))
    rw [putchars_screen] at hprint
    rw [putchars_snoc]
    exact hprint (ih hcs'.1)

/-- A character from 128 on makes a read outside the table. -/
theorem Inv.reads_outside (h : k.Inv) (hc : 128 ≤ c.toNat) : ¬ (k.vxPutchar c).Safe := by
  intro hsafe
  have hread := putfont8_reads k.screen
    (k.screen.vramInfo.vram + k.xpos * Font.vx + k.ypos * k.screen.vramInfo.vx * Font.vy) c k.ram
  rcases h.vxPutchar_glyphs c with ⟨-, rfl | rfl⟩ | heq
  · exact absurd hc (by decide)
  · exact absurd hc (by decide)
  · have hin := hsafe.glyphs (k.screen.font.fontOf c + 0) (heq ▸ hread)
    rw [vxPutchar_screen] at hin
    exact glyph_not_inTable k.screen.font hc hin

end Terminal

/-! ## Runs -/

theorem init_inv (mem : UInt32 → UInt8) (v : VramInfo) (font : Font) : (init mem v font).Inv := by
  obtain ⟨hin, -, hclear⟩ := fill_spec (g := ⟨v, font, 0, 7⟩) (m := ⟨mem, [], []⟩) isNat_zero
    (IsNat.ofWord v.vy_lt) le_rfl
  have hzero : (0 : UInt32).toNat = 0 := rfl
  have hvx := v.hvx
  have hvy := v.hvy
  refine ⟨rfl, rfl, ?_, ?_, fun _ x y hx hy => ?_, hin fun p hp => by cases hp⟩
  · rw [UInt32.lt_iff_toNat_lt, Terminal.columns_toNat (k := init mem v font) rfl]
    exact Nat.div_pos hvx (by omega)
  · rw [UInt32.lt_iff_toNat_lt, Terminal.lines_toNat (k := init mem v font) rfl]
    exact Nat.div_pos hvy (by omega)
  · have hdiv : y.toNat / 16 = 0 := (UInt32.toNat_div y 16).symm.trans (congrArg UInt32.toNat hy)
    exact hclear x y hx (Nat.zero_le _) (by omega)

theorem init_glyphs (mem : UInt32 → UInt8) (v : VramInfo) (font : Font) :
    (init mem v font).ram.glyphs = [] := by
  exact (fill_spec (g := ⟨v, font, 0, 7⟩) (m := ⟨mem, [], []⟩) isNat_zero
    (IsNat.ofWord v.vy_lt) le_rfl).2.1

/-- **When printing is safe**: no character is 128 or above. -/
theorem console_safe_iff (mem : UInt32 → UInt8) (v : VramInfo) (font : Font) (cs : List UInt8) :
    (∀ l, l <+: cs → ((init mem v font).putchars l).Safe) ↔ ∀ c ∈ cs, c < 0x80 := by
  have hinv := init_inv mem v font
  constructor
  · intro hsafe c hc
    by_contra hge
    obtain ⟨l, r, rfl⟩ := List.append_of_mem hc
    have hprint := hsafe (l ++ [c]) ⟨r, by simp⟩
    rw [Terminal.putchars_snoc] at hprint
    exact (hinv.putchars l).reads_outside (UInt8.le_iff_toNat_le.mp (UInt8.not_lt.mp hge)) hprint
  · intro hcs l hl
    have hl' : ∀ c ∈ l, c.toNat < 128 := fun c hc => UInt8.lt_iff_toNat_lt.mp (hcs c (hl.subset hc))
    have hglyphs := hinv.glyphs_putchars hl' (by rw [init_glyphs]; exact fun p hp => by cases hp)
    obtain ⟨-, -, hx, hy, hclear, hin⟩ := hinv.putchars l
    exact ⟨hx, hy, hclear, hin, by rwa [Terminal.putchars_screen]⟩

/-- A frame buffer of one character. -/
def smallest : VramInfo where
  vx := 8
  vy := 16
  vram := 0xe0000000
  hvx := by decide
  hvy := by decide
  fits := by decide

def hankaku : Font where
  fonts := 0x800000
  fits := by decide

/-- The glyph of the first byte with the top bit is read 2048 bytes before the table. -/
theorem putchar_reads_outside :
    0x7ff800 ∈ ((init (fun _ => 0) smallest hankaku).vxPutchar 0x80).ram.glyphs ∧
    ¬ ((init (fun _ => 0) smallest hankaku).putchars [0x80]).Safe := by
  have hinv := init_inv (fun _ => 0) smallest hankaku
  exact ⟨by decide +kernel, hinv.reads_outside (c := 0x80) (by decide)⟩

end OwnOS.Console
