import VnlKernel.Drivers.Vga
import VnlKernel.Drivers.Fb

/-!
# The console: `src/drivers/vga.c` and its mirror in `src/drivers/fb.c`

`Vga` is the text screen as the line editor sees it. Here it is with all that goes on: the
cursor is a pair of `int`s that anything may be asked for, each store to `VGA_MEM` and to a
port is noted down, the hook is told, and the console on the framebuffer is called to follow.
-/

namespace VnlKernel

/-- `VGAEvent`. -/
inductive VgaHookEvent where
  | putchar
  | clear
  | cursor
deriving DecidableEq

/-- What a call does to the outside. -/
inductive ConsoleEvent where
  /-- A store to `VGA_MEM[i]`. -/
  | store (i : Int)
  | outb (port : Nat) (value : UInt8)
  /-- A call of the hook. -/
  | hook (ev : VgaHookEvent) (x y : Int) (c color : UInt8)
deriving DecidableEq

/-- The static variables of `vga.c` with `VGA_MEM`, and what `fb.c` keeps. -/
structure Console where
  curRow : Int
  curCol : Int
  curColor : UInt8
  cells : Int → UInt16
  /-- `s_vga_hook` is set. -/
  hooked : Bool
  mirror : FbConsole

namespace Console

/-- `if (s_vga_hook) s_vga_hook(ev, x, y, c, cur_color);`. -/
def callHook (s : Console) (ev : VgaHookEvent) (x y : Int) (c : UInt8) : Logged ConsoleEvent Unit :=
  if s.hooked then .note (.hook ev x y c s.curColor) else pure ()

/-- `update_hw_cursor`. -/
def updateHwCursor (s : Console) : Logged ConsoleEvent Unit := do
  let pos := ((s.curRow * vgaWidth + s.curCol) % 2 ^ 16).toNat
  .note (.outb 0x3D4 0x0F)
  .note (.outb 0x3D5 (UInt8.ofNat (pos &&& 0xFF)))
  .note (.outb 0x3D4 0x0E)
  .note (.outb 0x3D5 (UInt8.ofNat (pos >>> 8)))

/-- `VGA_MEM[i] = entry;`. -/
def store (s : Console) (i : Int) (entry : UInt16) : Logged ConsoleEvent Console := do
  .note (.store i)
  return { s with cells := fun k => if k = i then entry else s.cells k }

/-- `vga_set_color`. -/
def setColor (s : Console) (fg bg : Nat) : Console :=
  { s with curColor := UInt8.ofNat ((bg <<< 4) ||| (fg &&& 0x0F)) }

/-- `vga_set_cursor`. -/
def setCursor (s : Console) (row col : Int) : Logged ConsoleEvent Console := do
  let row : Int := if row < 0 then 0 else row
  let row : Int := if row ≥ vgaHeight then vgaHeight - 1 else row
  let col : Int := if col < 0 then 0 else col
  let col : Int := if col ≥ vgaWidth then vgaWidth - 1 else col
  let s := { s with curRow := row, curCol := col }
  s.updateHwCursor
  let s := { s with mirror := s.mirror.mirrorCursor row col }
  s.callHook .cursor col row 0
  return s

/-- The loop of `vga_clear`. -/
def clearCells (s : Console) : Logged ConsoleEvent Console :=
  .forUpTo (fun i s => s.store i (makeEntry 0x20 s.curColor)) s (vgaWidth * vgaHeight)

/-- `vga_clear`. -/
def clear (s : Console) : Logged ConsoleEvent Console := do
  let s ← s.clearCells
  let s := { s with curRow := 0, curCol := 0 }
  s.updateHwCursor
  let s := { s with mirror := s.mirror.reset s.curColor }
  s.callHook .clear 0 0 0
  return s

/-- The inner loop of `scroll`. -/
def scrollRow (r : Nat) (s : Console) : Logged ConsoleEvent Console :=
  .forUpTo (fun c s => s.store (r * vgaWidth + c) (s.cells ((r + 1) * vgaWidth + c))) s vgaWidth

/-- `scroll`. -/
def scroll (s : Console) : Logged ConsoleEvent Console := do
  let s ← .forUpTo scrollRow s (vgaHeight - 1)
  let s ← .forUpTo (fun c s => s.store ((vgaHeight - 1) * vgaWidth + c) (makeEntry 0x20 s.curColor)) s vgaWidth
  return { s with curRow := vgaHeight - 1 }

/-- `if (cur_col >= VGA_WIDTH) { cur_col = 0; cur_row++; }`. -/
def wrap (s : Console) : Console :=
  if s.curCol ≥ vgaWidth then { s with curCol := 0, curRow := s.curRow + 1 } else s

/-- The cases of `vga_putchar`. -/
def putcharCases (s : Console) (c : UInt8) : Logged ConsoleEvent Console :=
  if c = 0x0A then return { s with curCol := 0, curRow := s.curRow + 1 }
  else if c = 0x0D then return { s with curCol := 0 }
  else if c = 0x09 then return { s with curCol := tabStop s.curCol }.wrap
  else if c = 0x08 then
    if s.curCol > 0 then
      let s := { s with curCol := s.curCol - 1 }
      s.store (s.curRow * vgaWidth + s.curCol) (makeEntry 0x20 s.curColor)
    else return s
  else do
    let s ← s.store (s.curRow * vgaWidth + s.curCol) (makeEntry c s.curColor)
    return { s with curCol := s.curCol + 1 }.wrap

/-- `vga_putchar`. -/
def putchar (fonts : Fonts) (s : Console) (c : UInt8) : Logged ConsoleEvent Console := do
  s.callHook .putchar s.curCol s.curRow c
  let s ← s.putcharCases c
  let s ← (if s.curRow ≥ vgaHeight then s.scroll else pure s)
  s.updateHwCursor
  return { s with mirror := s.mirror.putchar fonts c s.curColor }

end Console

/-! ## Calls, one after the other -/

/-- A call from outside. -/
inductive ConsoleOp where
  | setColor (fg bg : Nat)
  | setCursor (row col : Int)
  | clear
  | putchar (c : UInt8)
deriving DecidableEq

def ConsoleOp.run (fonts : Fonts) (s : Console) : ConsoleOp → Logged ConsoleEvent Console
  | .setColor fg bg => return s.setColor fg bg
  | .setCursor row col => s.setCursor row col
  | .clear => s.clear
  | .putchar c => s.putchar fonts c

def Console.runOps (fonts : Fonts) : Console → List ConsoleOp → Logged ConsoleEvent Console
  | s, [] => pure s
  | s, op :: ops => do
      let s ← op.run fonts s
      s.runOps fonts ops

/-- The states that the kernel comes to: the static variables are zero at first, and what is in
memory is whatever was there. `gui.c` and `desktop.c` reset the mirror and set the hook on their
own. -/
inductive Console.Booted (fonts : Fonts) : Console → Prop
  | boot (cells : Int → UInt16) (mem : ByteMem.Mem) :
      Booted fonts ⟨0, 0, 0, cells, false, ⟨⟨false, ⟨0, 0, 0, 0, 0, 0⟩, 0⟩, mem, 0, 0⟩⟩
  | call {s s' : Console} (op : ConsoleOp) : Booted fonts s → (op.run fonts s).out = .done s' → Booted fonts s'
  | setHook {s : Console} (hook : Bool) : Booted fonts s → Booted fonts { s with hooked := hook }
  | fbInit {s : Console} (info : FBInfo) : Booted fonts s →
      Booted fonts { s with mirror := { s.mirror with fb := fbMultibootInit info } }
  | mapFb {s : Console} (v : FbVars) : Booted fonts s →
      Booted fonts { s with mirror := { s.mirror with fb := s.mirror.fb.kernelMainMap v } }
  | resetMirror {s : Console} : Booted fonts s → Booted fonts { s with mirror := s.mirror.reset s.curColor }
  /-- Others draw on the framebuffer. -/
  | drawn {s : Console} (mem : ByteMem.Mem) : Booted fonts s →
      Booted fonts { s with mirror := { s.mirror with mem := mem } }

end VnlKernel
