import VnlKernel.Drivers.Vga
import VnlKernel.Lib.CString
import VnlKernel.Shell.VarStore

/-!
# The line editor: `readline` of `src/shell/shell.c`

Keys come from the keyboard, or as bytes from the serial line. The line is edited in the buffer,
and after most keys it is written anew from the column where it began. It is never longer than
fits on the row. The last lines entered can be recalled.
-/

namespace VnlKernel

open ByteMem CString

/-- `CMD_MAX`. -/
def cmdMax : Nat := 256

/-- `HIST_MAX`. -/
def histMax : Nat := 32

/-- `history` and `hist_count`; a row is the string in it. -/
structure History where
  row : Nat → CStr
  count : Nat

/-- `history[i % HIST_MAX]`. -/
def History.get (h : History) (i : Nat) : CStr := h.row (i % histMax)

/-- `push_history`. -/
def pushHistory (h : History) (line : CStr) : History :=
  if line = [] then h
  else if h.count > 0 ∧ h.get (h.count - 1) = line then h
  else
    { row := fun i => if i = h.count % histMax then line.take (cmdMax - 1) else h.row i
      count := h.count + 1 }

/-! ## Keys -/

/-- `KEY_UP` and the codes behind it. -/
def keyUp : Int := 0x80
def keyDown : Int := 0x81
def keyLeft : Int := 0x82
def keyRight : Int := 0x83
def keyHome : Int := 0x84
def keyEnd : Int := 0x85
def keyDel : Int := 0x86

/-- Where a key comes from: the keyboard's buffer, or the serial line. -/
inductive Input where
  | key (c : UInt8)
  | serial (c : UInt8)
deriving DecidableEq

/-- `(int)c` of a `char`. -/
def charInt (c : UInt8) : Int := if c < 0x80 then c.toNat else (c.toNat : Int) - 256

/-- `k` when the inner loop is left. -/
def Input.code : Input → Int
  | .key c => c.toNat
  | .serial c => if c = 0x0D ∨ c = 0x0A then 0x0A else if c = 127 ∨ c = 0x08 then 0x08 else charInt c

/-! ## The line -/

/-- `start_row`, `start_col` and `limit`. -/
structure LinePlace where
  row : Nat
  col : Nat
  limit : Nat

/-- What changes while a line is edited. -/
structure LineEdit where
  buf : Mem
  len : Nat
  cur : Nat
  histIdx : Nat
  vga : Vga

/-- `for (int i = ...; i < ...; i++) vga_putchar(buf[i])`. -/
def putGlyphs (v : Vga) (buf : Mem) (i : Nat) : Nat → Logged VgaEvent Vga
  | 0 => pure v
  | n + 1 => do
      let v ← v.putchar (buf i)
      putGlyphs v buf (i + 1) n

/-- Write the line anew; it was `old` long before, and what it has lost is overwritten. -/
def LineEdit.redraw (s : LineEdit) (p : LinePlace) (old : Nat) : Logged VgaEvent LineEdit := do
  let v := (s.vga.setColor vgaWhite).setCursor p.row p.col
  let v ← putGlyphs v s.buf 0 s.len
  let v ← putGlyphs v (fun _ => 0x20) s.len (old - s.len)
  return { s with vga := v.setCursor p.row (p.col + s.cur) }

/-- Place the cursor. -/
def LineEdit.moveTo (s : LineEdit) (p : LinePlace) (cur : Nat) : LineEdit :=
  { s with cur := cur, vga := s.vga.setCursor p.row (p.col + cur) }

/-- `strncpy(buf, history[hist_idx % HIST_MAX], limit)` and what follows it. -/
def LineEdit.recall (s : LineEdit) (h : History) (p : LinePlace) (idx : Nat) : LineEdit :=
  let buf := setByte (strncpy s.buf 0 (h.get idx) p.limit) p.limit 0
  let len := (strOf buf 0 (p.limit + 1)).length
  { s with buf := buf, len := len, cur := len, histIdx := idx }

/-- `memmove(buf+cur-1, buf+cur, len-cur)` and what follows it. -/
def LineEdit.backspace (s : LineEdit) : LineEdit :=
  let buf := memmove s.buf (s.cur - 1) s.cur (s.len - s.cur)
  { s with buf := setByte buf (s.len - 1) 0, cur := s.cur - 1, len := s.len - 1 }

/-- `memmove(buf+cur, buf+cur+1, len-cur-1)` and what follows it. -/
def LineEdit.delete (s : LineEdit) : LineEdit :=
  let buf := memmove s.buf s.cur (s.cur + 1) (s.len - s.cur - 1)
  { s with buf := setByte buf (s.len - 1) 0, len := s.len - 1 }

/-- `memmove(buf+cur+1, buf+cur, len-cur)` and what follows it. -/
def LineEdit.insert (s : LineEdit) (c : UInt8) : LineEdit :=
  let buf := setByte (memmove s.buf (s.cur + 1) s.cur (s.len - s.cur)) s.cur c
  { s with buf := setByte buf (s.len + 1) 0, cur := s.cur + 1, len := s.len + 1 }

/-- `buf[0] = '\0'; len = cur = 0`. -/
def LineEdit.clear (s : LineEdit) (idx : Nat) : LineEdit :=
  { s with buf := setByte s.buf 0 0, len := 0, cur := 0, histIdx := idx }

/-- The loop's body for a key other than Enter. -/
def editKey (h : History) (p : LinePlace) (s : LineEdit) (k : Int) : Logged VgaEvent LineEdit :=
  if k = 0x08 then
    if s.cur > 0 then s.backspace.redraw p s.len else return s
  else if k = keyDel then
    if s.cur < s.len then s.delete.redraw p s.len else return s
  else if k = keyLeft then
    if s.cur > 0 then return s.moveTo p (s.cur - 1) else return s
  else if k = keyRight then
    if s.cur < s.len then return s.moveTo p (s.cur + 1) else return s
  else if k = keyHome then return s.moveTo p 0
  else if k = keyEnd then return s.moveTo p s.len
  else if k = keyUp then
    if s.histIdx > 0 then (s.recall h p (s.histIdx - 1)).redraw p s.len else return s
  else if k = keyDown then
    if s.histIdx < h.count then
      if s.histIdx + 1 = h.count then (s.clear (s.histIdx + 1)).redraw p s.len
      else (s.recall h p (s.histIdx + 1)).redraw p s.len
    else s.redraw p s.len
  else if toU32 k ≥ 32 ∧ k < keyUp ∧ s.len < p.limit then (s.insert (UInt8.ofNat (toU32 k))).redraw p s.len
  else return s

/-- What `readline` returns and what it leaves. -/
structure LineResult where
  len : Nat
  buf : Mem
  vga : Vga

/-- What Enter does. -/
def finishLine (p : LinePlace) (s : LineEdit) : Logged VgaEvent LineResult := do
  let v := (s.vga.setColor vgaWhite).setCursor p.row (p.col + s.len)
  let v ← v.putchar 0x0A
  return ⟨s.len, setByte s.buf s.len 0, v⟩

/-- The loop; when there are no more keys it waits for ever. -/
def editLoop (h : History) (p : LinePlace) (s : LineEdit) : List Input → Logged VgaEvent LineResult
  | [] => .lift .timeout
  | i :: keys =>
      if i.code = 0x0A then finishLine p s
      else do
        let s ← editKey h p s i.code
        editLoop h p s keys

/-- The room on a row, behind a column. -/
def roomBehind (maxlen col : Nat) : Nat := if col + (maxlen - 1) > 79 then 79 - col else maxlen - 1

/-- Where the line begins, and how long it may become; the columns are never negative. -/
def startLine (v : Vga) (maxlen : Nat) : Logged VgaEvent (LinePlace × Vga) := do
  let v := v.setColor vgaWhite
  let col := if v.curCol > 79 then 79 else v.curCol
  let limit := roomBehind maxlen col
  if limit < 1 then
    -- no room on this row: start on the next one
    let v ← v.putchar 0x0A
    let v := v.setColor vgaWhite
    let col := if v.curCol > 79 then 0 else v.curCol
    let limit := roomBehind maxlen col
    return (⟨v.curRow, col, if limit < 1 then 1 else limit⟩, v)
  else return (⟨v.curRow, col, limit⟩, v)

/-- `readline(buf, maxlen)`, with the keys that come. -/
def readline (h : History) (v : Vga) (buf : Mem) (maxlen : Nat) (keys : List Input) :
    Logged VgaEvent LineResult := do
  let (p, v) ← startLine v maxlen
  editLoop h p ⟨buf, 0, 0, h.count, v⟩ keys

end VnlKernel
