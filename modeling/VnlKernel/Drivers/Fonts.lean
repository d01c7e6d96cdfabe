import VnlKernel.Drivers.Fb

/-!
# The font: `src/lib/fonts.c`

A glyph is eight rows of eight bits. The table has room for 128 glyphs, and those behind the last
one that is given are zeros.
-/

namespace VnlKernel

/-- The glyphs that the source gives. -/
def vnlGlyphs : List (List UInt8) :=
  [
    [0x00, 0x00, 0x00, 0x00, 0x00, 0x00, 0x00, 0x00],
    [0x3C, 0x66, 0x66, 0x66, 0x66, 0x66, 0x3C, 0x00],
    [0x18, 0x38, 0x18, 0x18, 0x18, 0x18, 0x3C, 0x00],
    [0x3C, 0x66, 0x06, 0x0C, 0x18, 0x30, 0x7E, 0x00],
    [0x3C, 0x66, 0x06, 0x1C, 0x06, 0x66, 0x3C, 0x00],
    [0x0C, 0x1C, 0x3C, 0x6C, 0x7E, 0x0C, 0x0C, 0x00],
    [0x7E, 0x60, 0x7C, 0x06, 0x06, 0x66, 0x3C, 0x00],
    [0x3C, 0x66, 0x60, 0x7C, 0x66, 0x66, 0x3C, 0x00],
    [0x7E, 0x06, 0x0C, 0x18, 0x18, 0x18, 0x18, 0x00],
    [0x3C, 0x66, 0x66, 0x3C, 0x66, 0x66, 0x3C, 0x00],
    [0x3C, 0x66, 0x66, 0x3E, 0x06, 0x66, 0x3C, 0x00],
    [0x18, 0x3C, 0x66, 0x66, 0x7E, 0x66, 0x66, 0x00],
    [0x7C, 0x66, 0x66, 0x7C, 0x66, 0x66, 0x7C, 0x00],
    [0x3C, 0x66, 0x60, 0x60, 0x60, 0x66, 0x3C, 0x00],
    [0x78, 0x6C, 0x66, 0x66, 0x66, 0x6C, 0x78, 0x00],
    [0x7E, 0x60, 0x60, 0x7C, 0x60, 0x60, 0x7E, 0x00],
    [0x7E, 0x60, 0x60, 0x7C, 0x60, 0x60, 0x60, 0x00],
    [0x3C, 0x66, 0x60, 0x6E, 0x66, 0x66, 0x3C, 0x00],
    [0x66, 0x66, 0x66, 0x7E, 0x66, 0x66, 0x66, 0x00],
    [0x3C, 0x18, 0x18, 0x18, 0x18, 0x18, 0x3C, 0x00],
    [0x1E, 0x0C, 0x0C, 0x0C, 0x4C, 0x78, 0x30, 0x00],
    [0x66, 0x6C, 0x78, 0x70, 0x78, 0x6C, 0x66, 0x00],
    [0x60, 0x60, 0x60, 0x60, 0x60, 0x60, 0x7E, 0x00],
    [0x63, 0x77, 0x7F, 0x6B, 0x63, 0x63, 0x63, 0x00],
    [0x66, 0x76, 0x7E, 0x7E, 0x6E, 0x66, 0x66, 0x00],
    [0x3C, 0x66, 0x66, 0x66, 0x66, 0x66, 0x3C, 0x00],
    [0x7C, 0x66, 0x66, 0x7C, 0x60, 0x60, 0x60, 0x00],
    [0x3C, 0x66, 0x66, 0x6A, 0x6C, 0x38, 0x0E, 0x00],
    [0x7C, 0x66, 0x66, 0x7C, 0x6C, 0x66, 0x66, 0x00],
    [0x3C, 0x66, 0x60, 0x3C, 0x06, 0x66, 0x3C, 0x00],
    [0x7E, 0x18, 0x18, 0x18, 0x18, 0x18, 0x18, 0x00],
    [0x66, 0x66, 0x66, 0x66, 0x66, 0x66, 0x3C, 0x00],
    [0x66, 0x66, 0x66, 0x66, 0x3C, 0x3C, 0x18, 0x00],
    [0x63, 0x63, 0x63, 0x6B, 0x77, 0x63, 0x63, 0x00],
    [0x66, 0x66, 0x3C, 0x18, 0x3C, 0x66, 0x66, 0x00],
    [0x66, 0x66, 0x66, 0x3C, 0x18, 0x18, 0x18, 0x00],
    [0x7E, 0x06, 0x0C, 0x18, 0x30, 0x60, 0x7E, 0x00],
    [0x18, 0x18, 0x18, 0x18, 0x00, 0x18, 0x18, 0x00],
    [0x3C, 0x42, 0x5A, 0x5A, 0x42, 0x3C, 0x00, 0x00],
    [0x24, 0x24, 0x7E, 0x24, 0x7E, 0x24, 0x24, 0x00],
    [0x1C, 0x3E, 0x60, 0x3C, 0x06, 0x7C, 0x38, 0x00],
    [0x62, 0x66, 0x0C, 0x18, 0x30, 0x66, 0x46, 0x00],
    [0x3C, 0x66, 0x3C, 0x38, 0x6C, 0x66, 0x3B, 0x00],
    [0x3C, 0x66, 0x66, 0x3C, 0x6A, 0x66, 0x3B, 0x00],
    [0x18, 0x3C, 0x7E, 0x3C, 0x18, 0x00, 0x00, 0x00],
    [0x00, 0x00, 0x7E, 0x00, 0x00, 0x7E, 0x00, 0x00],
    [0x00, 0x00, 0x00, 0x7E, 0x00, 0x00, 0x00, 0x00],
    [0x18, 0x18, 0x7E, 0x18, 0x18, 0x00, 0x00, 0x00],
    [0x00, 0x00, 0x00, 0x00, 0x00, 0x00, 0x00, 0x7E],
    [0x30, 0x18, 0x0C, 0x06, 0x0C, 0x18, 0x30, 0x00],
    [0x06, 0x0C, 0x18, 0x30, 0x18, 0x0C, 0x06, 0x00],
    [0x0C, 0x18, 0x30, 0x30, 0x30, 0x18, 0x0C, 0x00],
    [0x30, 0x18, 0x0C, 0x0C, 0x0C, 0x18, 0x30, 0x00],
    [0x0E, 0x18, 0x18, 0x70, 0x18, 0x18, 0x0E, 0x00],
    [0x70, 0x18, 0x18, 0x0E, 0x18, 0x18, 0x70, 0x00],
    [0x3C, 0x60, 0x60, 0x60, 0x60, 0x60, 0x3C, 0x00],
    [0x3C, 0x06, 0x06, 0x06, 0x06, 0x06, 0x3C, 0x00],
    [0x00, 0x18, 0x18, 0x00, 0x18, 0x18, 0x00, 0x00],
    [0x00, 0x18, 0x18, 0x00, 0x18, 0x18, 0x08, 0x00],
    [0x00, 0x00, 0x00, 0x18, 0x18, 0x00, 0x00, 0x00],
    [0x00, 0x00, 0x00, 0x18, 0x18, 0x08, 0x00, 0x00],
    [0x18, 0x18, 0x00, 0x00, 0x00, 0x00, 0x00, 0x00],
    [0x36, 0x36, 0x00, 0x00, 0x00, 0x00, 0x00, 0x00],
    [0x0C, 0x18, 0x30, 0x60, 0x00, 0x00, 0x00, 0x00],
    [0x60, 0x30, 0x18, 0x0C, 0x00, 0x00, 0x00, 0x00],
    [0x18, 0x18, 0x18, 0x18, 0x18, 0x18, 0x18, 0x18],
    [0x00, 0x00, 0x3B, 0x6E, 0x00, 0x00, 0x00, 0x00],
    [0x3C, 0x42, 0x02, 0x04, 0x08, 0x00, 0x08, 0x00]
  ]

/-- `g_vnl_fonts`. -/
def gVnlFonts : Fonts := fun idx yy => (vnlGlyphs.getD idx []).getD yy 0

/-- The first glyph is the space's, and nothing is drawn of it. -/
theorem gVnlFonts_space (yy : Nat) : gVnlFonts 0 yy = 0 := by
  have hrow : ∀ b ∈ vnlGlyphs.getD 0 [], b = 0 := by decide
  unfold gVnlFonts
  rw [List.getD_eq_getElem?_getD]
  cases hb : (vnlGlyphs.getD 0 [])[yy]? with
  | none => rfl
  | some b => exact hrow b (List.mem_of_getElem? hb)

end VnlKernel
