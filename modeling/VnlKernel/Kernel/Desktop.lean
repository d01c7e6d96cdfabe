import VnlKernel.Logged
import VnlKernel.Drivers.Console

/-!
# The terminals of the desktop: `src/kernel/desktop.c`

What is printed while the desktop is on goes through the hook of the console into the window that
has the focus, if it is a terminal. A window is an address; what follows when there is none behind
it is not known, so the call ends there. -/

namespace VnlKernel

open Logged

/-- `TERM_COLS`. -/
def termCols : Nat := 60

/-- `TERM_ROWS`. -/
def termRows : Nat := 25

/-- `TERM_BUF_SIZE`. -/
def termBufSize : Nat := termCols * termRows

inductive WindowKind where
  | term
  | browser
  | explorer
  | music
  | snake
deriving DecidableEq

/-- `Window`, as far as the hook looks at it. -/
structure Window where
  kind : WindowKind
  termBuffer : Int → UInt16
  termCursorX : Int
  termCursorY : Int

/-- What the hook does. -/
inductive DesktopEvent where
  /-- A store to `term_buffer`. -/
  | store (i : Int)
deriving DecidableEq

/-- The arguments of a call of the hook. -/
structure HookCall where
  ev : VgaHookEvent
  x : Int
  y : Int
  c : UInt8
  color : UInt8
deriving DecidableEq

/-! ## The terminal of a window -/

/-- A cell of `term_buffer`: the character, unsigned, and the colour. -/
def termEntry (c color : UInt8) : UInt16 := c.toUInt16 ||| (color.toUInt16 <<< 8)

namespace Window

/-- `win->term_buffer[i] = entry;`. -/
def storeTerm (win : Window) (i : Int) (entry : UInt16) : Logged DesktopEvent Window := do
  note (.store i)
  return { win with termBuffer := fun k => if k = i then entry else win.termBuffer k }

/-- The cursor is behind the last column. -/
def termWrap (win : Window) : Window :=
  if win.termCursorX ≥ termCols then { win with termCursorX := 0, termCursorY := win.termCursorY + 1 } else win

/-- The cases of `vga_universal_hook`. -/
def hookCases (win : Window) (e : HookCall) : Logged DesktopEvent Window :=
  match e.ev with
  | .clear => do
      let win ← forUpTo (fun i win => win.storeTerm i (termEntry 0x20 e.color)) win termBufSize
      return { win with termCursorX := 0, termCursorY := 0 }
  | .cursor => return { win with termCursorX := e.x, termCursorY := e.y }
  | .putchar =>
      if e.c = 0x0A then return { win with termCursorX := 0, termCursorY := win.termCursorY + 1 }
      else if e.c = 0x0D then return { win with termCursorX := 0 }
      else if e.c = 0x08 then
        let win := if win.termCursorX > 0 then { win with termCursorX := win.termCursorX - 1 } else win
        win.storeTerm (win.termCursorY * termCols + win.termCursorX) (termEntry 0x20 e.color)
      else if win.termCursorX < termCols ∧ win.termCursorY < termRows then do
        let win ← win.storeTerm (win.termCursorY * termCols + win.termCursorX) (termEntry e.c e.color)
        return { win with termCursorX := win.termCursorX + 1 }.termWrap
      else return win

/-- The rows move up by one. -/
def termScroll (win : Window) (color : UInt8) : Logged DesktopEvent Window := do
  let win ← forUpTo (fun i win => win.storeTerm i (win.termBuffer (i + termCols))) win
    (termCols * (termRows - 1))
  let win ← forUpTo (fun i win => win.storeTerm (termCols * (termRows - 1) + i) (termEntry 0x20 color)) win
    termCols
  return { win with termCursorY := termRows - 1 }

/-- `vga_universal_hook`, on a terminal. -/
def hook (win : Window) (e : HookCall) : Logged DesktopEvent Window := do
  let win ← win.hookCases e
  if win.termCursorY ≥ termRows then win.termScroll e.color else return win

/-- The terminal of a window that `window_create` has just made. -/
def created (kind : WindowKind) : Window where
  kind := kind
  termBuffer := fun i => if kind = .term ∧ 0 ≤ i ∧ i < termBufSize then termEntry 0x20 15 else 0
  termCursorX := 0
  termCursorY := 0

end Window

/-! ## The window that has the focus -/

/-- The windows that are allocated, and `focused_win`. -/
structure Desktop where
  mem : Nat → Option Window
  focusedWin : Nat

namespace Desktop

/-- Follow a pointer. -/
def deref (s : Desktop) (p : Nat) : Logged DesktopEvent Window :=
  match s.mem p with
  | some win => pure win
  | none => lift (.panic "no window")

/-- The window at `p` is now `win`. -/
def put (s : Desktop) (p : Nat) (win : Window) : Desktop :=
  { s with mem := fun q => if q = p then some win else s.mem q }

/-- `vga_universal_hook`. -/
def hook (s : Desktop) (e : HookCall) : Logged DesktopEvent Desktop :=
  if s.focusedWin = 0 then return s
  else do
    let win ← s.deref s.focusedWin
    if win.kind ≠ .term then return s
    else do
      let win ← win.hook e
      return s.put s.focusedWin win

/-- Calls of the hook, one after the other. -/
def hooks : Desktop → List HookCall → Logged DesktopEvent Desktop
  | s, [] => pure s
  | s, e :: es => do
      let s ← s.hook e
      s.hooks es

end Desktop

end VnlKernel
