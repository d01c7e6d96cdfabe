import VnlKernel.Logged

/-!
# The text screen: `src/drivers/vga.c`

Eighty columns and twenty-five rows of cells, and a cursor. What is written to the cells is
noted down, and so is every step to another row.
-/

namespace VnlKernel

/-- `VGA_WIDTH`. -/
def vgaWidth : Nat := 80

/-- `VGA_HEIGHT`. -/
def vgaHeight : Nat := 25

/-- What `vga_putchar` does to the screen. -/
inductive VgaEvent where
  /-- A cell is written. -/
  | cell (row col : Nat)
  /-- `cur_row++`. -/
  | nextRow
  /-- All rows move up by one. -/
  | scroll
deriving DecidableEq

/-- The file's static variables, and the cells from `VGA_MEM` on. -/
structure Vga where
  mem : Nat → UInt16
  curRow : Nat
  curCol : Nat
  curColor : UInt8

/-- `VGA_WHITE` on `VGA_BLACK`. -/
def vgaWhite : UInt8 := 15

/-- `make_entry`; a character that is negative fills the attribute with ones. -/
def makeEntry (c color : UInt8) : UInt16 :=
  (if c < 0x80 then c.toUInt16 else 0xFF00 ||| c.toUInt16) ||| (color.toUInt16 <<< 8)

namespace Vga

/-- `vga_set_color`, with the attribute that the two colours make. -/
def setColor (v : Vga) (color : UInt8) : Vga := { v with curColor := color }

/-- `vga_set_cursor`. -/
def setCursor (v : Vga) (row col : Nat) : Vga :=
  { v with
    curRow := if row ≥ vgaHeight then vgaHeight - 1 else row
    curCol := if col ≥ vgaWidth then vgaWidth - 1 else col }

/-- Write a cell. -/
def write (v : Vga) (row col : Nat) (entry : UInt16) : Vga :=
  { v with mem := fun i => if i = row * vgaWidth + col then entry else v.mem i }

/-- `scroll`. -/
def scroll (v : Vga) : Vga :=
  { v with
    mem := fun i =>
      if i < (vgaHeight - 1) * vgaWidth then v.mem (i + vgaWidth)
      else if i < vgaHeight * vgaWidth then makeEntry 0x20 v.curColor else v.mem i
    curRow := vgaHeight - 1 }

/-- `cur_col = 0; cur_row++`. -/
def nextRow (v : Vga) : Logged VgaEvent Vga := do
  .note .nextRow
  return { v with curCol := 0, curRow := v.curRow + 1 }

/-- The cases of `vga_putchar`. -/
def putcharCases (v : Vga) (c : UInt8) : Logged VgaEvent Vga :=
  if c = 0x0A then v.nextRow
  else if c = 0x0D then return { v with curCol := 0 }
  else if c = 0x09 then
    let col := (v.curCol + 8) / 8 * 8
    if col ≥ vgaWidth then { v with curCol := col }.nextRow else return { v with curCol := col }
  else if c = 0x08 then
    if v.curCol > 0 then do
      let v := { v with curCol := v.curCol - 1 }
      .note (.cell v.curRow v.curCol)
      return v.write v.curRow v.curCol (makeEntry 0x20 v.curColor)
    else return v
  else do
    .note (.cell v.curRow v.curCol)
    let v := v.write v.curRow v.curCol (makeEntry c v.curColor)
    let v := { v with curCol := v.curCol + 1 }
    if v.curCol ≥ vgaWidth then v.nextRow else return v

/-- `vga_putchar`. -/
def putchar (v : Vga) (c : UInt8) : Logged VgaEvent Vga := do
  let v ← v.putcharCases c
  if v.curRow ≥ vgaHeight then
    .note .scroll
    return v.scroll
  else return v

end Vga

end VnlKernel
