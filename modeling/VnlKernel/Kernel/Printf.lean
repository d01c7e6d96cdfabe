import VnlKernel.Kernel.Errno
import VnlKernel.Lib.CString
import VnlKernel.Lib.Numeral
import VnlKernel.Logged

/-!
# Formatted output: `src/lib/printf.c`

`kvsnprintf` walks along the format with a pointer and fills a buffer of 2048 bytes from
the front; what is in it is copied out, or printed, at the end. Single characters go through
the macro `EMIT`, which stops in front of the buffer's last byte, and numbers through
`fmt_uint`, which does not look at the buffer's size at all. A string that does not fit is
never put out to its end.

The buffer is kept as the bytes stored so far. Each store, and each read of the format, is
noted down with its place; where a store is past the end the machine would go on with memory
that is no longer what it was, and the model goes on as if there were room.
-/

namespace VnlKernel

open ByteMem Bits

/-- What a formatter does with the format, with its own buffer and with the caller's. -/
inductive FmtEvent where
  /-- It reads the format at `a`. -/
  | read (a : Nat)
  /-- It stores to `buf[i]`. -/
  | store (i : Nat)
  /-- It copies the first `n` bytes of `buf` to the caller's. -/
  | copy (n : Nat)
  /-- It stores a NUL to the caller's at `n`. -/
  | nul (n : Nat)
deriving DecidableEq

/-- A `va_list`: the words that were passed, and the string at the address that a word is. -/
structure VaList where
  word : Nat → BitVec 64
  str : BitVec 64 → CStr

/-- A character constant. -/
def ascii (c : Char) : UInt8 := UInt8.ofNat c.toNat

namespace VaList

/-- `va_arg(ap, int)`. -/
def int (ap : VaList) (i : Nat) : Int := ((ap.word i).setWidth 32).toInt

/-- `va_arg(ap, unsigned int)`. -/
def uint (ap : VaList) (i : Nat) : Nat := ((ap.word i).setWidth 32).toNat

/-- `va_arg(ap, const char *)`, with `"(null)"` for a null pointer. -/
def string (ap : VaList) (i : Nat) : CStr := if ap.word i = 0 then cstr "(null)" else ap.str (ap.word i)

end VaList

/-- `*fmt`. -/
def loadFmt (m : Mem) (fmt : Nat) : Logged FmtEvent UInt8 := do
  .note (.read fmt)
  return m fmt

/-- `buf[pos++] = c`. -/
def storeChar (text : CStr) (c : UInt8) : Logged FmtEvent CStr := do
  .note (.store text.length)
  return text ++ [c]

/-- A loop of stores. -/
def storeAll : CStr → CStr → Logged FmtEvent CStr
  | text, [] => pure text
  | text, c :: s => do
      let text ← storeChar text c
      storeAll text s

/-! ## `fmt_uint` -/

/-- `dig_low` and `dig_up`. -/
def digitChar (upper : Bool) (d : Nat) : UInt8 :=
  if d < 10 then ascii '0' + UInt8.ofNat d
  else if upper then ascii 'A' + UInt8.ofNat (d - 10)
  else ascii 'a' + UInt8.ofNat (d - 10)

/-- `tmp`: the digits, the last one first. There are 64 of them at most. -/
def tmpDigits (val base : Nat) (upper : Bool) : CStr :=
  if val = 0 then [ascii '0'] else (Numeral.divide base 64 val).map (digitChar upper)

def fmtUint (text : CStr) (val base : Nat) (upper : Bool) (width : Int) (pad : UInt8)
    (left signPlus negative : Bool) : Logged FmtEvent CStr := do
  let tmp := tmpDigits val base upper
  let pre := if negative then [ascii '-'] else if signPlus then [ascii '+'] else []
  let total : Int := (tmp.length + pre.length : Nat)
  let padding := if width > total then (width - total).toNat else 0
  let text ← (if !left && pad = ascii ' ' then storeAll text (List.replicate padding (ascii ' ')) else pure text)
  let text ← storeAll text pre
  let text ← (if !left && pad = ascii '0' then storeAll text (List.replicate padding (ascii '0')) else pure text)
  let text ← storeAll text tmp.reverse
  if left then storeAll text (List.replicate padding (ascii ' ')) else return text

/-! ## `kvsnprintf` -/

/-- `sizeof(buf)`. -/
def fmtBufSize : Nat := 2048

/-- `EMIT`. -/
def emit (text : CStr) (c : UInt8) : Logged FmtEvent CStr :=
  if text.length < fmtBufSize - 1 then storeChar text c else pure text

def emitAll : CStr → CStr → Logged FmtEvent CStr
  | text, [] => pure text
  | text, c :: s => do
      let text ← emit text c
      emitAll text s

/-- `while (*s) EMIT(*s++);`. Without room `EMIT` does not look at its argument, so that `s` stays
where it is and the loop never ends. -/
def emitString : CStr → CStr → Logged FmtEvent CStr
  | text, [] => pure text
  | text, c :: s =>
      if text.length < fmtBufSize - 1 then do
        let text ← storeChar text c
        emitString text s
      else .lift .timeout

/-- `left`, `sign_plus` and `pad`. -/
structure FmtFlags where
  left : Bool
  signPlus : Bool
  pad : UInt8
deriving DecidableEq

def noFlags : FmtFlags := ⟨false, false, ascii ' '⟩

/-- "Flags"; nothing comes of `#`. -/
def readFlags (m : Mem) : Nat → Nat → FmtFlags → Logged FmtEvent (Nat × FmtFlags)
  | 0, _, _ => .lift .timeout
  | fuel + 1, fmt, f => do
      let c ← loadFmt m fmt
      if c = ascii '-' then readFlags m fuel (fmt + 1) { f with left := true }
      else if c = ascii '+' then readFlags m fuel (fmt + 1) { f with signPlus := true }
      else if c = ascii '0' then readFlags m fuel (fmt + 1) { f with pad := ascii '0' }
      else if c = ascii '#' then readFlags m fuel (fmt + 1) f
      else return (fmt, f)

def isDigit (c : UInt8) : Bool := ascii '0' ≤ c && c ≤ ascii '9'

/-- `width * 10 + (c - '0')`, as an `int`. -/
def widthDigit (width : Int) (c : UInt8) : Int := toInt32 (toU32 (width * 10 + (c.toNat - 0x30)))

def readDigits (m : Mem) : Nat → Nat → Int → Logged FmtEvent (Nat × Int)
  | 0, _, _ => .lift .timeout
  | fuel + 1, fmt, width => do
      let c ← loadFmt m fmt
      if isDigit c then readDigits m fuel (fmt + 1) (widthDigit width c) else return (fmt, width)

/-- "Width": the pointer behind it, the next argument, and the width. -/
def readWidth (m : Mem) (fuel : Nat) (ap : VaList) (fmt i : Nat) : Logged FmtEvent (Nat × Nat × Int) := do
  let c ← loadFmt m fmt
  if c = ascii '*' then return (fmt + 1, i + 1, ap.int i)
  else
    let (fmt, width) ← readDigits m fuel fmt 0
    return (fmt, i, width)

/-- "Length modifier": whether there is one; `l`, `ll` and `z` mean the same. -/
def readLength (m : Mem) (fmt : Nat) : Logged FmtEvent (Nat × Bool) := do
  let c ← loadFmt m fmt
  if c = ascii 'l' then
    let c ← loadFmt m (fmt + 1)
    return (if c = ascii 'l' then fmt + 2 else fmt + 1, true)
  else if c = ascii 'z' then return (fmt + 1, true)
  else return (fmt, false)

/-- The labels of the `switch`. -/
inductive FmtConv where
  | char
  | string
  | signed
  | unsigned (base : Nat) (upper : Bool)
  | binary
  | pointer
  | percent
  | ignored
  | other (c : UInt8)
deriving DecidableEq

def convOf (spec : UInt8) : FmtConv :=
  if spec = ascii 'c' then .char
  else if spec = ascii 's' then .string
  else if spec = ascii 'd' ∨ spec = ascii 'i' then .signed
  else if spec = ascii 'u' then .unsigned 10 false
  else if spec = ascii 'x' ∨ spec = ascii 'X' then .unsigned 16 (spec = ascii 'X')
  else if spec = ascii 'o' then .unsigned 8 false
  else if spec = ascii 'b' then .binary
  else if spec = ascii 'p' then .pointer
  else if spec = ascii '%' then .percent
  else if spec = ascii 'n' then .ignored
  else .other spec

/-- A directive, with its width. -/
structure FmtSpec where
  flags : FmtFlags
  width : Int
  long : Bool
  conv : FmtConv

/-- From behind the `%` to behind the conversion: the pointer, the next argument, and what was read.
-/
def readSpec (m : Mem) (fuel : Nat) (ap : VaList) (fmt i : Nat) : Logged FmtEvent (Nat × Nat × FmtSpec) := do
  let (fmt, flags) ← readFlags m fuel fmt noFlags
  let (fmt, i, width) ← readWidth m fuel ap fmt i
  let (fmt, long) ← readLength m fmt
  let spec ← loadFmt m fmt
  return (fmt + 1, i, ⟨flags, width, long, convOf spec⟩)

/-- The value of a signed conversion. -/
def signedArg (ap : VaList) (i : Nat) (long : Bool) : BitVec 64 :=
  if long then ap.word i else ((ap.word i).setWidth 32).signExtend 64

/-- The value of an unsigned one. -/
def unsignedArg (ap : VaList) (i : Nat) (long : Bool) : Nat := if long then (ap.word i).toNat else ap.uint i

/-- The `switch`: the buffer behind it, and the next argument. -/
def convert (ap : VaList) (i : Nat) (text : CStr) (d : FmtSpec) : Logged FmtEvent (CStr × Nat) :=
  let ⟨left, signPlus, pad⟩ := d.flags
  match d.conv with
  | .char => do
      let text ← emit text ((ap.word i).setWidth 8).toNat.toUInt8
      return (text, i + 1)
  | .string => do
      let s := ap.string i
      let slen := toInt32 s.length
      let padN := if d.width > slen then (d.width - slen).toNat else 0
      let text ← (if !left then emitAll text (List.replicate padN (ascii ' ')) else pure text)
      let text ← emitString text s
      let text ← (if left then emitAll text (List.replicate padN (ascii ' ')) else pure text)
      return (text, i + 1)
  | .signed => do
      let v := signedArg ap i d.long
      let neg := v.msb
      let uv := if neg then (-v).toNat else v.toNat
      let text ← fmtUint text uv 10 false d.width pad left signPlus neg
      return (text, i + 1)
  | .unsigned base upper => do
      let text ← fmtUint text (unsignedArg ap i d.long) base upper d.width pad left false false
      return (text, i + 1)
  | .binary => do
      let text ← fmtUint text (ap.word i).toNat 2 false d.width pad left false false
      return (text, i + 1)
  | .pointer => do
      let text ← emitAll text (cstr "0x")
      let text ← fmtUint text (ap.word i).toNat 16 false 16 (ascii '0') false false false
      return (text, i + 1)
  | .percent => do
      let text ← emit text (ascii '%')
      return (text, i)
  | .ignored => return (text, i)
  | .other c => do
      let text ← emitAll text [ascii '%', c]
      return (text, i)

/-- The loop over the format. -/
def kvsnprintfLoop (m : Mem) (ap : VaList) : Nat → Nat → Nat → CStr → Logged FmtEvent CStr
  | 0, _, _, _ => .lift .timeout
  | fuel + 1, fmt, i, text => do
      let c ← loadFmt m fmt
      if c = 0 ∨ ¬ text.length < fmtBufSize - 1 then return text
      else if c ≠ ascii '%' then
        let text ← emit text c
        kvsnprintfLoop m ap fuel (fmt + 1) i text
      else
        let (fmt, i, d) ← readSpec m fuel ap (fmt + 1) i
        let (text, i) ← convert ap i text d
        kvsnprintfLoop m ap fuel fmt i text

/-- What was copied out or printed, and the result. -/
structure FmtResult where
  text : CStr
  pos : Nat
deriving DecidableEq

/-- `kvsnprintf(out, out_size, fmt, ap)`; without an `out` the text is printed, as far as its first
NUL. -/
def kvsnprintf (m : Mem) (fuel : Nat) (out : Option Nat) (fmt : Nat) (ap : VaList) : Logged FmtEvent FmtResult := do
  let text ← kvsnprintfLoop m ap fuel fmt 0 []
  .note (.store text.length)
  match out with
  | some outSize => do
      let n := if text.length < outSize then text.length else sub64 outSize 1
      .note (.copy n)
      .note (.nul n)
      return ⟨text.take n, text.length⟩
  | none => return ⟨text.takeWhile (· ≠ 0), text.length⟩

/-- `kprintf(format, ...)` with a format that is a string constant: what it prints. -/
def kprintf (format : CStr) (ap : VaList) : Outcome CStr := do
  let r ← (kvsnprintf (CString.ofStr format) (format.length + 1) none 0 ap).out
  return r.text

/-- No arguments. -/
def noArgs : VaList := ⟨fun _ => 0, fun _ => []⟩

/-- One string. -/
def strArg (s : CStr) : VaList := ⟨fun _ => 1, fun _ => s⟩

end VnlKernel
