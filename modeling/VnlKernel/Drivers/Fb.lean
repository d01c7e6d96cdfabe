import VnlKernel.Kernel.Multiboot

/-!
# The framebuffer: `src/drivers/fb.c`

Pixels of 32 bits. The sums and products that say where a pixel is are taken in 32 bits, and
only then added to the address of the first one.
-/

namespace VnlKernel

open ByteMem Bits

/-- The file's static variables. -/
structure Fb where
  /-- `s_fb_ok`. -/
  ok : Bool
  /-- `s_fb`. -/
  info : FBInfo
  /-- `s_fb_virt`. -/
  virt : Nat

/-- `fb_multiboot_init`, once it knows what the loader says. -/
def fbMultibootInit (info : FBInfo) : Fb :=
  if info.fbType ≠ 1 then ⟨false, info, 0⟩
  else if info.bpp ≠ 32 then ⟨false, info, 0⟩
  else
    let nbytes := u64 (info.pitch * info.height)
    let p1 := alignUpPage (u64 (info.addr + nbytes))
    if info.addr > 0xFFFFFFFF ∨ p1 > 2 ^ 32 then ⟨false, info, 0⟩ else ⟨true, info, info.addr⟩

namespace Fb

/-- `virt_start`, the address from which `kernel_main` maps the picture once it has page tables of
its own. -/
def virtStart : Nat := 0xFFFFFFFFD0000000

/-- What `kernel_main` does to `s_fb_virt` then, with what its own walk over the tags has found. -/
def kernelMainMap (fb : Fb) (v : FbVars) : Fb :=
  if v.physFramebufferAddr ≠ 0 ∧ v.fbHeight > 0 ∧ v.fbPitch > 0 then
    { fb with virt := u64 (virtStart + (v.physFramebufferAddr - alignDown v.physFramebufferAddr 4096)) }
  else fb

/-- `s_fb_virt + y * s_fb.pitch + x * 4`. -/
def pixelPtr (fb : Fb) (x y : Nat) : Nat := u64 (fb.virt + u32 (y * fb.info.pitch) + u32 (x * 4))

/-- `fb_plot`. -/
def plot (fb : Fb) (m : Mem) (x y c : Nat) : Mem :=
  if !fb.ok ∨ x ≥ fb.info.width ∨ y ≥ fb.info.height then m else writeLE m (fb.pixelPtr x y) 4 c

/-- `fb_get_pixel`. -/
def getPixel (fb : Fb) (m : Mem) (x y : Nat) : Nat :=
  if !fb.ok ∨ x ≥ fb.info.width ∨ y ≥ fb.info.height then 0 else readLE m (fb.pixelPtr x y) 4

/-- The first `n` turns of `for (col = 0; col < w; col++) p[col] = c;`. -/
def fillCols (m : Mem) (p c : Nat) : Nat → Mem
  | 0 => m
  | n + 1 => writeLE (fillCols m p c n) (u64 (p + 4 * n)) 4 c

/-- The first `n` turns of `for (row = 0; row < h; row++)`. -/
def fillRows (fb : Fb) (m : Mem) (x y w c : Nat) : Nat → Mem
  | 0 => m
  | n + 1 => fillCols (fb.fillRows m x y w c n) (fb.pixelPtr x (u32 (y + n))) c w

/-- `fb_fill_rect`. -/
def fillRect (fb : Fb) (m : Mem) (x y w h c : Nat) : Mem :=
  if !fb.ok ∨ w = 0 ∨ h = 0 then m
  else if x ≥ fb.info.width ∨ y ≥ fb.info.height then m
  else
    let w := if u32 (x + w) > fb.info.width then fb.info.width - x else w
    let h := if u32 (y + h) > fb.info.height then fb.info.height - y else h
    fb.fillRows m x y w c h

end Fb

/-! ## Glyphs -/

/-- `glyph_index`, of `src/lib/fonts.c`. A negative character has no glyph of its own. -/
def glyphIndex (ch : UInt8) : Nat :=
  if ch = 0x20 then 0
  else if 0x30 ≤ ch ∧ ch ≤ 0x39 then 1 + (ch.toNat - 0x30)
  else if 0x41 ≤ ch ∧ ch ≤ 0x5A then 11 + (ch.toNat - 0x41)
  else if 0x61 ≤ ch ∧ ch ≤ 0x7A then 11 + (ch.toNat - 0x61)
  else match ch with
    | 0x21 => 37 | 0x40 => 38 | 0x23 => 39
    | 0x24 => 40 | 0x25 => 41 | 0x5E => 42
    | 0x26 => 43 | 0x2A => 44 | 0x3D => 45
    | 0x2D => 46 | 0x2B => 47 | 0x5F => 48
    | 0x3C => 49 | 0x3E => 50 | 0x28 => 51
    | 0x29 => 52 | 0x7B => 53 | 0x7D => 54
    | 0x5B => 55 | 0x5D => 56 | 0x3A => 57
    | 0x3B => 58 | 0x2E => 59 | 0x2C => 60
    | 0x27 => 61 | 0x22 => 62 | 0x2F => 63
    | 0x5C => 64 | 0x7C => 65 | 0x7E => 66
    | 0x3F => 67
    | _ => 0

/-- `GLYPH_NUM`. -/
def glyphNum : Nat := 128

/-- `g_vnl_fonts`: the bits of each row of each glyph. -/
abbrev Fonts := Nat → Nat → UInt8

/-- `glyph_blit`. -/
def glyphBlit (fonts : Fonts) (fb : Fb) (m : Mem) (x y idx fg bg : Nat) : Mem :=
  if idx ≥ glyphNum then m
  else
    (List.range 8).foldl (fun m yy =>
      (List.range 8).foldl (fun m xx =>
        let color := if (fonts idx yy).toNat.testBit (7 - xx) then fg else bg
        fb.plot m (u32 (x + xx)) (u32 (y + yy)) color) m) m

/-- `fb_draw_gchar`. -/
def fbDrawGchar (fonts : Fonts) (fb : Fb) (m : Mem) (px py : Nat) (ch : UInt8) (fg bg : Nat) : Mem :=
  glyphBlit fonts fb m px py (glyphIndex ch) fg bg

/-! ## The console on the framebuffer -/

/-- `FB_CON_PAD`. -/
def fbConPad : Nat := 0

/-- `FB_CON_TOP`. -/
def fbConTop : Nat := 0

/-- `FB_MIRROR_COLS`. -/
def fbMirrorCols : Nat := 80

/-- `FB_MIRROR_ROWS`. -/
def fbMirrorRows : Nat := 25

/-- The red, green and blue of `fb_vga16_rgb`. -/
def vga16 (idx : Nat) : Nat × Nat × Nat :=
  match idx with
  | 0 => (0, 0, 0) | 1 => (0, 0, 170) | 2 => (0, 170, 0) | 3 => (0, 170, 170)
  | 4 => (170, 0, 0) | 5 => (170, 0, 170) | 6 => (170, 85, 0) | 7 => (170, 170, 170)
  | 8 => (85, 85, 85) | 9 => (85, 85, 255) | 10 => (85, 255, 85) | 11 => (85, 255, 255)
  | 12 => (255, 85, 85) | 13 => (255, 85, 255) | 14 => (255, 255, 85) | _ => (255, 255, 255)

/-- `fb_vga16_rgb`. -/
def fbVga16Rgb (idx : Nat) : Nat :=
  let (r, g, b) := vga16 (idx &&& 15)
  0xFF000000 ||| (r <<< 16) ||| (g <<< 8) ||| b

/-- `fb_attr_to_colors`: the foreground, and the background. -/
def fbAttrToColors (attr : UInt8) : Nat × Nat :=
  (fbVga16Rgb (attr.toNat &&& 0x0F), fbVga16Rgb ((attr.toNat >>> 4) &&& 0x0F))

/-- `fb_console_scroll_gfx_one_line`: the pictures of all rows but the first move up. -/
def fbConsoleScrollGfxOneLine (fb : Fb) (m : Mem) (attr : UInt8) : Mem :=
  if !fb.ok then m
  else
    let top := fbConTop
    let left := fbConPad
    let textW := fbMirrorCols * 8
    let textW := if u32 (left + textW) > fb.info.width then fb.info.width - left else textW
    let bot := fbMirrorRows * 8
    let bot := if bot > fb.info.height then fb.info.height else bot
    let line := 8
    let textH := if bot > top then bot - top else 0
    if textH ≤ line then m
    else
      let base := u64 (fb.virt + u32 (top * fb.info.pitch) + left * 4)
      let span := textW * 4
      let m := (List.range (textH - line)).foldl (fun m r =>
        memmove m (u64 (base + r * fb.info.pitch)) (u64 (base + (r + line) * fb.info.pitch)) span) m
      fb.fillRect m left (bot - line) textW line (fbAttrToColors attr).2

/-- The console's part of the file's static variables, and the memory that it draws in. -/
structure FbConsole where
  fb : Fb
  mem : Mem
  /-- `fb_m_row`. -/
  mRow : Int
  /-- `fb_m_col`. -/
  mCol : Int

/-- A coordinate from an `int`. -/
def u32OfInt (i : Int) : Nat := (i % 2 ^ 32).toNat

/-- `(col + 8) & ~7`. -/
def tabStop (col : Int) : Int := (col + 8) / 8 * 8

namespace FbConsole

/-- `fb_console_mirror_cursor`. -/
def mirrorCursor (f : FbConsole) (row col : Int) : FbConsole :=
  if !f.fb.ok then f
  else
    { f with
      mRow := if row < 0 then 0 else if row ≥ fbMirrorRows then fbMirrorRows - 1 else row
      mCol := if col < 0 then 0 else if col ≥ fbMirrorCols then fbMirrorCols - 1 else col }

/-- `fb_console_reset`, with what `vga_get_attr` returns. -/
def reset (f : FbConsole) (attr : UInt8) : FbConsole :=
  let f := { f with mRow := 0, mCol := 0 }
  if !f.fb.ok then f
  else if fbConTop < f.fb.info.height then
    { f with
      mem := f.fb.fillRect f.mem 0 fbConTop f.fb.info.width (f.fb.info.height - fbConTop) (fbAttrToColors attr).2 }
  else f

/-- Draw a character at the cursor. -/
def draw (fonts : Fonts) (f : FbConsole) (ch attr : UInt8) : FbConsole :=
  let (fg, bg) := fbAttrToColors attr
  let px := u32 (fbConPad + u32OfInt f.mCol * 8)
  let py := u32 (fbConTop + u32OfInt f.mRow * 8)
  { f with mem := fbDrawGchar fonts f.fb f.mem px py ch fg bg }

/-- `if (fb_m_col >= FB_MIRROR_COLS) { fb_m_col = 0; fb_m_row++; }`. -/
def wrap (f : FbConsole) : FbConsole :=
  if f.mCol ≥ fbMirrorCols then { f with mCol := 0, mRow := f.mRow + 1 } else f

/-- The cases of `fb_console_putchar`. -/
def putcharCases (fonts : Fonts) (f : FbConsole) (c attr : UInt8) : FbConsole :=
  if c = 0x0A then { f with mCol := 0, mRow := f.mRow + 1 }
  else if c = 0x0D then { f with mCol := 0 }
  else if c = 0x08 then
    if f.mCol > 0 then { f with mCol := f.mCol - 1 }.draw fonts 0x20 attr else f
  else if c = 0x09 then { f with mCol := tabStop f.mCol }.wrap
  else
    let f := f.draw fonts c attr
    { f with mCol := f.mCol + 1 }.wrap

/-- The loop at the end of `fb_console_putchar`. -/
def scrollRows (f : FbConsole) (attr : UInt8) : FbConsole :=
  if f.mRow ≥ fbMirrorRows then
    scrollRows { f with mem := fbConsoleScrollGfxOneLine f.fb f.mem attr, mRow := f.mRow - 1 } attr
  else f
termination_by (f.mRow - fbMirrorRows + 1).toNat

/-- `fb_console_putchar`. -/
def putchar (fonts : Fonts) (f : FbConsole) (c attr : UInt8) : FbConsole :=
  if !f.fb.ok then f else (f.putcharCases fonts c attr).scrollRows attr

end FbConsole

end VnlKernel
