import VnlKernel.Kernel.Printf
import VnlKernel.Lib.ExchangeSort
import VnlKernel.Shell.Kout
import VnlKernel.Shell.VarStore

/-!
# Two filters: `tail` and `sort` of `src/shell/shell.c`

A filter's input is a file or, in a pipeline, the value of `STDIN_CONTENT`. `tail` counts the
newlines, and then goes through the text a second time up to the newline in front of what is to
be printed. `sort` copies the text to a buffer, ends each line there with a NUL, sorts an array
of pointers to the lines by exchanging them, and prints what they point to.

What a command prints is its result here.
-/

namespace VnlKernel

open ByteMem CString

variable {σ : Type}

/-! ## `cmd_tail` -/

/-- The loop over the arguments: `n`, and the file. -/
def tailArgs : List CStr → Int → Option CStr → Int × Option CStr
  | [], n, path => (n, path)
  | [arg], n, _ => (n, some arg)
  | arg :: num :: args, n, path =>
      if arg = cstr "-n" then tailArgs args (strtol10 num) path else tailArgs (num :: args) n (some arg)

/-- Where the text comes from, up to `src = ...`; nothing if there is no such file. -/
def tailSource (fs : FrameService σ) (v : Vfs σ) (input : DevInput) (st : VarStore) :
    Option CStr → Outcome (Vfs σ × Option CStr)
  | some path => do
      let (v, fd) ← vfsOpen v path vfsORead
      if fd < 0 then return (v, none)
      else
        let (v, r) := vfsRead fs v input fd (shPipeBuf - 1)
        let (v, _) := vfsClose v fd
        return (v, some (strOf r.bytes 0 r.ret.toNat))
  | none => return (v, some ((st.get (cstr "STDIN_CONTENT")).getD []))

/-- `while(*p){if(*p=='\n'){ln2++;if(ln2==skip){p++;break;}}p++;}`. -/
def tailLoop (skip : Int) : CStr → Int → CStr
  | [], _ => []
  | c :: p, ln2 =>
      if c = newline then
        if ln2 + 1 = skip then p else tailLoop skip p (ln2 + 1)
      else tailLoop skip p ln2

def cmdTail (fs : FrameService σ) (v : Vfs σ) (input : DevInput) (st : VarStore) (argv : List CStr) :
    Outcome (Vfs σ × CStr) := do
  let (n, path) := tailArgs (argv.drop 1) 10 none
  let (v, src) ← tailSource fs v input st path
  match src with
  | none =>
      let out ← kprintf (cstr "tail: not found\n") noArgs
      return (v, out)
  | some src =>
      let total : Int := src.count newline
      let skip := if total > n then toInt32 (toU32 (total - n)) else 0
      let out ← kprintf (cstr "%s") (strArg (tailLoop skip src 0))
      return (v, out)

/-! ## `cmd_sort` -/

/-- `strcmp`. -/
def strcmp : CStr → CStr → Int
  | [], [] => 0
  | [], d :: _ => -d.toNat
  | c :: _, [] => c.toNat
  | c :: s, d :: t => if c = d then strcmp s t else (c.toNat : Int) - d.toNat

/-- `while(*p&&*p!='\n')p++`. -/
def lineEnd (buf : Mem) : Nat → Nat → Outcome Nat
  | 0, _ => .timeout
  | fuel + 1, p => if buf p ≠ 0 ∧ buf p ≠ newline then lineEnd buf fuel (p + 1) else .done p

/-- "grab the lines": the buffer with a NUL behind each of them, and where they begin. -/
def grabLines : Nat → Mem → Nat → List Nat → Outcome (Mem × List Nat)
  | 0, _, _, _ => .timeout
  | fuel + 1, buf, p, lines =>
      if buf p ≠ 0 ∧ lines.length < 256 then do
        let q ← lineEnd buf fuel p
        if buf q ≠ 0 then grabLines fuel (setByte buf q 0) (q + 1) (lines ++ [p])
        else grabLines fuel buf q (lines ++ [p])
      else .done (buf, lines)

/-- The line that a pointer into the buffer points to. -/
def lineAt (buf : Mem) (p : Nat) : CStr := strOf buf p shPipeBuf

/-- The last loop. -/
def printLines (buf : Mem) : List Nat → Outcome CStr
  | [] => .done []
  | p :: lines => do
      let out ← kprintf (cstr "%s\n") (strArg (lineAt buf p))
      let rest ← printLines buf lines
      return out ++ rest

/-- `cmd_sort`; `stack` is what its buffer holds before. -/
def cmdSort (fuel : Nat) (stack : Mem) (st : VarStore) : Outcome CStr :=
  match st.get (cstr "STDIN_CONTENT") with
  | none => .done []
  | some sc => do
      let (buf, lines) ← grabLines fuel (strncpy stack 0 sc (shPipeBuf - 1)) 0 []
      printLines buf (ExchangeSort.sort (fun a b => strcmp (lineAt buf a) (lineAt buf b) > 0) lines)

end VnlKernel
