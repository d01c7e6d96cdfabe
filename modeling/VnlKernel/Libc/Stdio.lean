import VnlKernel.Kernel.Printf
import VnlKernel.Libc.Malloc

/-!
# Formatted output of user programs: `ports/libc/libc.c`

The C library has a formatter of its own. It knows `%s`, `%d`, `%u` and `%x`, without flags
and widths, works in a buffer of 1024 bytes, and looks at the buffer's size in most places
where it stores to it. What goes to the caller is copied from there at the end, followed by
a NUL. `vasprintf` formats twice: once to know the length, once for the text.

As in the kernel's formatter, the buffer is kept as the bytes stored so far.
-/

namespace VnlKernel

open ByteMem Bits

namespace Libc

/-- `sizeof(buf)`. -/
def stdioBufSize : Nat := 1024

/-- `while (... && pos < (int)sizeof(buf)-1) buf[pos++] = ...`. -/
def storeWhile : CStr → CStr → Logged FmtEvent CStr
  | text, [] => pure text
  | text, c :: s =>
      if text.length < stdioBufSize - 1 then do
        let text ← storeChar text c
        storeWhile text s
      else pure text

/-- `-val` of an `int`. -/
def negInt (val : Int) : Int := toInt32 (toU32 (-val))

/-- `while (val) { tmp[len++] = '0' + (val % 10); val /= 10; }` of an `int`. -/
def intLoop : Nat → Int → CStr
  | 0, _ => []
  | fuel + 1, val =>
      if val = 0 then [] else UInt8.ofNat (toU32 (0x30 + val.tmod 10)) :: intLoop fuel (val.tdiv 10)

/-- `tmp` for `%d`. -/
def intTmp (val : Int) : CStr := if val = 0 then [ascii '0'] else intLoop 16 val

/-- `tmp` for `%u` and `%x`. -/
def uintTmp (val base : Nat) : CStr :=
  if val = 0 then [ascii '0'] else (Numeral.divide base 16 val).map (digitChar false)

/-- The loop over the format. -/
def vsnprintfLoop (m : Mem) (ap : VaList) : Nat → Nat → Nat → CStr → Logged FmtEvent CStr
  | 0, _, _, _ => .lift .timeout
  | fuel + 1, fmt, i, text => do
      let c ← loadFmt m fmt
      if c = 0 ∨ ¬ text.length < stdioBufSize - 1 then return text
      else if c ≠ ascii '%' then
        let text ← storeChar text c
        vsnprintfLoop m ap fuel (fmt + 1) i text
      else
        let spec ← loadFmt m (fmt + 1)
        if spec = ascii 's' then
          let text ← storeWhile text (ap.string i)
          vsnprintfLoop m ap fuel (fmt + 2) (i + 1) text
        else if spec = ascii 'd' then
          let val := ap.int i
          let text ← (if val < 0 then storeChar text (ascii '-') else pure text)
          let text ← storeWhile text (intTmp (if val < 0 then negInt val else val)).reverse
          vsnprintfLoop m ap fuel (fmt + 2) (i + 1) text
        else if spec = ascii 'u' then
          let text ← storeWhile text (uintTmp (ap.uint i) 10).reverse
          vsnprintfLoop m ap fuel (fmt + 2) (i + 1) text
        else if spec = ascii 'x' then
          let text ← storeWhile text (uintTmp (ap.uint i) 16).reverse
          vsnprintfLoop m ap fuel (fmt + 2) (i + 1) text
        else
          let text ← storeChar text (ascii '%')
          if spec ≠ 0 then
            let text ← storeChar text spec
            vsnprintfLoop m ap fuel (fmt + 2) i text
          else vsnprintfLoop m ap fuel (fmt + 1) i text

/-- Byte `i` of the buffer, once the NUL is there. What was never stored is what the stack had
there. -/
def bufByte (stack : Nat → UInt8) (text : CStr) (i : Nat) : UInt8 :=
  if i = text.length then 0 else text.getD i (stack i)

/-- `copy_len`, with its comparison of `int`s. -/
def copyLen (size pos : Nat) : Nat := if (pos : Int) < toInt32 size then pos else sub64 size 1

/-- Half of all addresses are the user's. -/
def userHalf : Nat := 2 ^ 47

/-- `vsnprintf(str, size, format, ap)`: the memory afterwards, and the result. -/
def vsnprintf (m : Mem) (fuel : Nat) (stack : Nat → UInt8) (str size format : Nat) (ap : VaList) :
    Logged FmtEvent (Mem × Nat) := do
  let text ← vsnprintfLoop m ap fuel format 0 []
  .note (.store text.length)
  let n := copyLen size text.length
  .note (.copy n)
  -- a copy longer than that ends at an address that is not the program's
  if n ≥ userHalf then .lift (.panic "Page Fault")
  else
    .note (.nul n)
    let m : Mem := fun a => if str ≤ a ∧ a < str + n then bufByte stack text (a - str) else m a
    return (setByte m (str + n) 0, text.length)

/-- `vasprintf(strp, fmt, ap)`. No result of `vsnprintf` is negative. -/
def vasprintf (mmap : Nat → Option Nat) (fuel : Nat) (stack : Nat → UInt8) (h : LibcHeap) (strp fmt : Nat)
    (ap : VaList) : Logged FmtEvent (LibcHeap × Int) := do
  let (m, len) ← vsnprintf h.mem fuel stack 0 0 fmt ap
  let (h, str) ← .lift (malloc mmap fuel { h with mem := m } (len + 1))
  if str = 0 then return (h, -1)
  else
    let (m, len2) ← vsnprintf h.mem fuel stack str (len + 1) fmt ap
    return ({ h with mem := write64 m strp str }, len2)

end Libc

end VnlKernel
