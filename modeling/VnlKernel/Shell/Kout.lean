import VnlKernel.Shell.Block

/-!
# Where output goes: the redirection hook of `src/lib/printf.c`

There is one pointer, `kout_buf`. While it is not null, `kputchar` writes to the buffer it
points to instead of the screen. The shell captures the output of a command by pointing it
at a static buffer, running the command, and setting it to null; there are four such buffers,
one for each construct that captures.

Two fields of the model are not the program's: `calls` and `yields` record what was done and
what captures came to, and nothing reads them.
-/

namespace VnlKernel

/-- `SH_PIPE_BUF`, the size of each of the buffers. -/
def shPipeBuf : Nat := 4096

/-- The static buffers that output is captured in: the `outbuf` of command substitution, the
`outbuf` of backquotes, `redir_obuf` and `pipe_buf`. -/
inductive OutBuf where
  | dollar
  | tick
  | redir
  | pipe
deriving DecidableEq

/-- What can be done to the hook and to the buffers behind it. -/
inductive KoutCall where
  | redirect (b : OutBuf)
  | reset
  | put (c : UInt8)
  /-- Newlines at the end of a buffer are overwritten. -/
  | strip (b : OutBuf)
  /-- `pipe_buf[0] = '\0'`. -/
  | clear
deriving DecidableEq

structure Kout where
  /-- `kout_buf`, `kout_len`, `kout_cap`. -/
  buf : Option OutBuf
  len : Nat
  cap : Nat
  /-- What the buffers hold, up to the NUL. -/
  bufs : OutBuf → CStr
  /-- The serial line and the VGA text. -/
  screen : CStr
  calls : List KoutCall
  yields : List CStr

namespace Kout

/-- `kout_redirect(buf, SH_PIPE_BUF)`. What the buffer holds stays. -/
def redirect (k : Kout) (b : OutBuf) : Kout :=
  { k with buf := some b, len := 0, cap := shPipeBuf, calls := k.calls ++ [.redirect b] }

/-- `kout_reset`. -/
def reset (k : Kout) : Kout :=
  { k with buf := none, len := 0, cap := 0, calls := k.calls ++ [.reset] }

/-- `kputchar`. -/
def putchar (k : Kout) (c : UInt8) : Kout :=
  match k.buf with
  | some b =>
      if k.len + 1 < k.cap then
        { k with
          bufs := fun b' => if b' = b then (k.bufs b).take k.len ++ [c] else k.bufs b'
          len := k.len + 1
          calls := k.calls ++ [.put c] }
      else { k with calls := k.calls ++ [.put c] }
  | none => { k with screen := k.screen ++ [c], calls := k.calls ++ [.put c] }

/-- Print a string. -/
def puts (k : Kout) (s : CStr) : Kout := s.foldl putchar k

/-- `while(ol>0&&(outbuf[ol-1]=='\n'||outbuf[ol-1]=='\r')) outbuf[--ol]='\0'`. -/
def stripNewlines (s : CStr) : CStr := s.rdropWhile fun c => c = newline || c = 0x0D

def strip (k : Kout) (b : OutBuf) : Kout :=
  { k with
    bufs := fun b' => if b' = b then stripNewlines (k.bufs b) else k.bufs b'
    calls := k.calls ++ [.strip b] }

def clear (k : Kout) : Kout :=
  { k with
    bufs := fun b' => if b' = .pipe then [] else k.bufs b'
    calls := k.calls ++ [.clear] }

/-- Nothing redirected, and the static buffers as they are at the start. -/
def init : Kout := ⟨none, 0, 0, fun _ => [], [], [], []⟩

end Kout

end VnlKernel
