import VnlKernel.Drivers.Fonts
import VnlKernel.Drivers.Mouse
import VnlKernel.Kernel.Printf

/-!
# The session with a pointer: `src/kernel/gui.c`

There is no second buffer: the pointer is drawn over the picture on the framebuffer, and what it
covers is kept aside and put back before anything else is drawn.
-/

namespace VnlKernel

open ByteMem Bits

namespace Fb

/-- The loop of `fb_draw_string`. -/
def drawChars (fonts : Fonts) (fb : Fb) (m : Mem) (cx y fg bg : Nat) : CStr → Mem
  | [] => m
  | c :: s => drawChars fonts fb (glyphBlit fonts fb m cx y (glyphIndex c) fg bg) (u32 (cx + 8)) y fg bg s

/-- `fb_draw_string`. -/
def drawString (fonts : Fonts) (fb : Fb) (m : Mem) (x y : Nat) (s : CStr) (fg bg : Nat) : Mem :=
  if !fb.ok then m else drawChars fonts fb m x y fg bg s

/-- `(int)fb.width`. -/
def intWidth (fb : Fb) : Int := toInt32 fb.info.width

/-- `(int)fb.height`. -/
def intHeight (fb : Fb) : Int := toInt32 fb.info.height

/-- `px >= 0 && px < (int)fb.width && py >= 0 && py < (int)fb.height`. -/
def inside (fb : Fb) (px py : Int) : Prop := px ≥ 0 ∧ px < fb.intWidth ∧ py ≥ 0 ∧ py < fb.intHeight

instance (fb : Fb) (px py : Int) : Decidable (fb.inside px py) := inferInstanceAs (Decidable (_ ∧ _))

end Fb

/-! ## The pointer -/

/-- `CURSOR_W`. -/
def cursorW : Nat := 12

/-- `CURSOR_H`. -/
def cursorH : Nat := 19

/-- `cursor_shape`. -/
def cursorShape : List CStr :=
  [
    cstr "B",
    cstr "BWB",
    cstr "BWWB",
    cstr "BWWWB",
    cstr "BWWWWB",
    cstr "BWWWWWB",
    cstr "BWWWWWWB",
    cstr "BWWWWWWWB",
    cstr "BWWWWWWWWB",
    cstr "BWWWWWWWWWB",
    cstr "BWWWWWBBBBB",
    cstr "BWWBWWB",
    cstr "BWB BWWB",
    cstr "BB  BWWB",
    cstr "     BWWB",
    cstr "     BWWB",
    cstr "      BWB",
    cstr "      BB",
    cstr "       B"
  ]

/-- `s_saved_bg`, `s_cursor_visible`, `s_cur_x` and `s_cur_y`. -/
structure GuiCursor where
  savedBg : Nat → Nat → Nat
  visible : Bool
  curX : Int
  curY : Int

namespace GuiCursor

/-- A turn of the loop in `hide_cursor`. -/
def restore (fb : Fb) (cur : GuiCursor) (r : Nat) (m : Mem) (c : Nat) : Mem :=
  let px := cur.curX + c
  let py := cur.curY + r
  if fb.inside px py then fb.plot m (toU32 px) (toU32 py) (cur.savedBg r c) else m

/-- `hide_cursor`. -/
def hide (fb : Fb) (cur : GuiCursor) (m : Mem) : Mem × GuiCursor :=
  if !cur.visible then (m, cur)
  else
    let m := (List.range cursorH).foldl (fun m r => (List.range cursorW).foldl (cur.restore fb r) m) m
    (m, { cur with visible := false })

/-- "Save background": the two loops fill the whole table. -/
def save (fb : Fb) (cur : GuiCursor) (m : Mem) : GuiCursor :=
  { cur with
    savedBg := fun r c =>
      let px := cur.curX + c
      let py := cur.curY + r
      if fb.inside px py then fb.getPixel m (toU32 px) (toU32 py) else 0 }

/-- A turn of the loop "Draw cursor". -/
def drawPixel (fb : Fb) (cur : GuiCursor) (row : CStr) (r : Nat) (m : Mem) (c : Nat) : Mem :=
  let ch := row.getD c 0
  if ch = ascii ' ' then m
  else
    let color := if ch = ascii 'W' then 0xFFFFFFFF else 0xFF000000
    let px := cur.curX + c
    let py := cur.curY + r
    if fb.inside px py then fb.plot m (toU32 px) (toU32 py) color else m

/-- "Draw cursor". -/
def draw (fb : Fb) (cur : GuiCursor) (m : Mem) : Mem :=
  (List.range cursorH).foldl (fun m r =>
    let row := cursorShape.getD r []
    (List.range (min row.length cursorW)).foldl (cur.drawPixel fb row r) m) m

/-- `show_cursor`. -/
def showAt (fb : Fb) (cur : GuiCursor) (x y : Int) (m : Mem) : Mem × GuiCursor :=
  let (m, cur) := cur.hide fb m
  let cur := { cur with curX := x, curY := y }
  let cur := cur.save fb m
  (cur.draw fb m, { cur with visible := true })

end GuiCursor

/-! ## The window and its buttons -/

/-- `a - b` in 32 bits. -/
def sub32 (a b : Nat) : Nat := u32 (a + (2 ^ 32 - u32 b))

structure GuiButton where
  x : Nat
  y : Nat
  w : Nat
  h : Nat
  label : CStr

/-- Whether the mouse is over a button, and whether it is pressed there. -/
structure ButtonLook where
  hover : Bool
  press : Bool
deriving DecidableEq

namespace GuiButton

/-- `draw_ui_button`. -/
def draw (fonts : Fonts) (fb : Fb) (b : GuiButton) (look : ButtonLook) (m : Mem) : Mem :=
  let bgColor := if look.press then 0xFF353550 else if look.hover then 0xFF65658C else 0xFF505075
  let border := if look.press then 0xFF202035 else 0xFF353550
  let textCol := if look.hover then 0xFFFFFFFF else 0xFFE8E8F5
  let m := fb.fillRect m b.x b.y b.w b.h border
  let m := fb.fillRect m (u32 (b.x + 1)) (u32 (b.y + 1)) (sub32 b.w 2) (sub32 b.h 2) bgColor
  let slen := b.label.length
  let tx := u32 (b.x + sub32 b.w (slen * 8) / 2)
  let ty := u32 (b.y + sub32 b.h 8 / 2)
  fb.drawString fonts m tx ty b.label textCol bgColor

/-- `in_btn1` and `in_btn2`. -/
def hit (b : GuiButton) (mx my : Int) : Bool :=
  mx ≥ toInt32 b.x && mx < toInt32 (b.x + b.w) && my ≥ toInt32 b.y && my < toInt32 (b.y + b.h)

end GuiButton

def guiBg : Nat := 0xFF2D2D3D
def guiBar : Nat := 0xFF3A3A5C
def guiFg : Nat := 0xFFE8E8F5
def guiDim : Nat := 0xFF9A9AB8

namespace Fb

def winW : Nat := 420

def winH : Nat := 240

def winX (fb : Fb) : Nat := if fb.info.width > winW then (fb.info.width - winW) / 2 else 10

def winY (fb : Fb) : Nat := if fb.info.height > winH then (fb.info.height - winH) / 2 else 80

def barH (fb : Fb) : Nat :=
  let barH := if 40 > fb.info.height / 4 then fb.info.height / 8 else 40
  if barH < 24 then 24 else barH

def btn1 (fb : Fb) : GuiButton := ⟨u32 (fb.winX + 40), u32 (fb.winY + winH - 50), 140, 32, cstr "Click Me"⟩

def btn2 (fb : Fb) : GuiButton :=
  ⟨u32 (fb.winX + winW - 140 - 40), u32 (fb.winY + winH - 50), 140, 32, cstr "Exit GUI"⟩

/-- The line with the number of clicks. -/
def drawClicks (fonts : Fonts) (fb : Fb) (clickBuf : CStr) (m : Mem) : Mem :=
  fb.drawString fonts m (u32 (fb.winX + 20)) (u32 (fb.winY + 65)) clickBuf 0xFFFFFF00 0xFF282838

end Fb

/-- What `click_buf` holds: it is written again at each click, by
`ksprintf(click_buf, sizeof(click_buf), "Total Clicks Registered: %d", click_count);`. -/
def clickText (clickCount : Int) : Outcome CStr := do
  let format := cstr "Total Clicks Registered: %d"
  let ap : VaList := ⟨fun _ => BitVec.ofInt 64 clickCount, fun _ => []⟩
  let r ← (kvsnprintf (CString.ofStr format) (format.length + 1) (some 64) 0 ap).out
  return r.text

/-! ## The session -/

/-- The variables of the loop that decide what is drawn. -/
structure GuiUi where
  mx : Int
  my : Int
  clickCount : Int
  btn1 : ButtonLook
  btn2 : ButtonLook
  prevButtons : UInt8
  exitSession : Bool
  mouseMoved : Bool
  redrawUi : Bool

/-- What a turn of the loop polls: a key, or -1, and the moves that wait. -/
structure GuiInput where
  key : Int
  moves : List MouseMove

namespace GuiUi

/-- `if (mx < 0) mx = 0; if (mx >= (int)fb.width) mx = (int)fb.width - 1;`. -/
def clamp (x width : Int) : Int :=
  let x := if x < 0 then 0 else x
  if x ≥ width then width - 1 else x

/-- The body of `while (mouse_poll(&dx, &dy, &buttons))`. -/
def move (fb : Fb) (ui : GuiUi) (p : MouseMove) : GuiUi :=
  let mx := clamp (ui.mx + p.dx) fb.intWidth
  let my := clamp (ui.my - p.dy) fb.intHeight
  let mouseMoved := ui.mouseMoved || p.dx ≠ 0 || p.dy ≠ 0
  let inBtn1 := fb.btn1.hit mx my
  let inBtn2 := fb.btn2.hit mx my
  let bDown : Bool := p.buttons &&& 1 ≠ 0
  let prevDown : Bool := ui.prevButtons &&& 1 ≠ 0
  let clicked1 := inBtn1 && prevDown && !bDown
  let clicked2 := inBtn2 && prevDown && !bDown
  let new1 : ButtonLook := ⟨inBtn1, inBtn1 && bDown⟩
  let new2 : ButtonLook := ⟨inBtn2, inBtn2 && bDown⟩
  { mx, my, mouseMoved
    clickCount := if clicked1 then ui.clickCount + 1 else ui.clickCount
    exitSession := ui.exitSession || clicked2
    btn1 := new1
    btn2 := new2
    redrawUi := ui.redrawUi || clicked1 || new1 ≠ ui.btn1 || new2 ≠ ui.btn2
    prevButtons := p.buttons }

/-- All moves that wait. -/
def poll (fb : Fb) (ui : GuiUi) (moves : List MouseMove) : GuiUi :=
  moves.foldl (move fb) { ui with mouseMoved := false, redrawUi := false }

/-- What is drawn if `redraw_ui`. -/
def drawUi (fonts : Fonts) (fb : Fb) (ui : GuiUi) (clickBuf : CStr) (m : Mem) : Mem :=
  let m := fb.drawClicks fonts clickBuf m
  let m := fb.btn1.draw fonts fb ui.btn1 m
  fb.btn2.draw fonts fb ui.btn2 m

/-- `k >= 0`, and Esc or a `q`. -/
def quits (k : Int) : Bool := k = 27 || k = 0x71 || k = 0x51

end GuiUi

/-- The session: its variables, the memory that it draws in, and whether the loop is over. -/
structure GuiSession where
  ui : GuiUi
  mem : Mem
  cursor : GuiCursor
  left : Bool

namespace GuiSession

/-- What is drawn if the mouse moved, or if `redraw_ui`. -/
def redraw (fonts : Fonts) (fb : Fb) (s : GuiSession) (clickBuf : CStr) : GuiSession :=
  let (m, cursor) := s.cursor.hide fb s.mem
  let m := if s.ui.redrawUi then s.ui.drawUi fonts fb clickBuf m else m
  let (m, cursor) := cursor.showAt fb s.ui.mx s.ui.my m
  { s with mem := m, cursor := cursor }

/-- A turn of the loop. -/
def frame (fonts : Fonts) (fb : Fb) (s : GuiSession) (i : GuiInput) : Outcome GuiSession := do
  if GuiUi.quits i.key then return { s with left := true }
  else
    let ui := s.ui.poll fb i.moves
    let s := { s with ui := ui, left := ui.exitSession }
    if ui.mouseMoved || ui.redrawUi then
      let clickBuf ← clickText ui.clickCount
      return s.redraw fonts fb clickBuf
    else return s

/-- The loop, as long as something comes in. -/
def run (fonts : Fonts) (fb : Fb) : GuiSession → List GuiInput → Outcome GuiSession
  | s, [] => return s
  | s, i :: is => if s.left then return s else do
      let s ← s.frame fonts fb i
      s.run fonts fb is

end GuiSession

namespace Fb

/-- What `gui_session_run` draws before it shows the pointer. -/
def drawGui (fonts : Fonts) (fb : Fb) (clickBuf : CStr) (m : Mem) : Mem :=
  let m := fb.fillRect m 0 0 fb.info.width fb.info.height guiBg
  let m := fb.fillRect m 0 0 fb.info.width fb.barH guiBar
  let m := fb.drawString fonts m 12 11
    (cstr "VNL :0   Interactive GUI Environment (Double-Buffered Cursor)") guiFg guiBar
  let y := fb.barH + 20
  let m := fb.drawString fonts m 12 y (cstr "Welcome to the real-time VNL GUI framework.") guiFg guiBg
  let m := fb.drawString fonts m 12 (y + 16)
    (cstr "Move your mouse to control the cursor pointer smoothly.") guiDim guiBg
  let m := fb.drawString fonts m 12 (y + 32)
    (cstr "Press Esc or q, or click the Exit button below to return to the shell.") guiDim guiBg
  let winX := fb.winX
  let winY := fb.winY
  let m := fb.fillRect m (u32 (winX + 6)) (u32 (winY + 6)) winW winH 0xFF151520
  let m := fb.fillRect m winX winY winW winH 0xFF3D3D4D
  let m := fb.fillRect m (u32 (winX + 2)) (u32 (winY + 2)) (winW - 4) (winH - 4) 0xFF282838
  let m := fb.fillRect m (u32 (winX + 2)) (u32 (winY + 2)) (winW - 4) 28 0xFF4A4A6C
  let m := fb.drawString fonts m (u32 (winX + 12)) (u32 (winY + 10)) (cstr "Control Panel") guiFg 0xFF4A4A6C
  let m := fb.drawString fonts m (u32 (winX + 20)) (u32 (winY + 45))
    (cstr "Mouse input processing is fully live.") guiFg 0xFF282838
  let m := fb.drawClicks fonts clickBuf m
  let m := fb.btn1.draw fonts fb ⟨false, false⟩ m
  fb.btn2.draw fonts fb ⟨false, false⟩ m

/-- The variables of `gui_session_run` when its loop begins. -/
def guiUi (fb : Fb) : GuiUi where
  mx := fb.info.width / 2
  my := fb.info.height / 2
  clickCount := 0
  btn1 := ⟨false, false⟩
  btn2 := ⟨false, false⟩
  prevButtons := 0
  exitSession := false
  mouseMoved := false
  redrawUi := false

/-- Up to the loop of `gui_session_run`, from what is in memory and in `s_saved_bg`. -/
def guiStart (fonts : Fonts) (fb : Fb) (m : Mem) (cursor : GuiCursor) : Outcome GuiSession := do
  let clickBuf ← clickText 0
  let m := fb.drawGui fonts clickBuf m
  let ui := fb.guiUi
  let (m, cursor) := { cursor with visible := false }.showAt fb ui.mx ui.my m
  return ⟨ui, m, cursor, false⟩

end Fb

end VnlKernel
