import VnlKernel.Kernel.Errno
import VnlKernel.Libc.Malloc

/-!
# Streams that write to memory: `ports/libc/libc.c`

A `FILE` is a file descriptor or a buffer that grows. `open_memstream` makes one of
the second kind: the buffer has 128 bytes to begin with, and the stream remembers the
two variables of the program in which it keeps the buffer's address and length up to
date. `fwrite` doubles the buffer when the bytes and the NUL behind them do not fit.

What the kernel answers to `mmap` is a parameter, as in the heap's model. So is what it
answers to `write`, which a stream with a file descriptor calls.
-/

namespace VnlKernel.Libc

open ByteMem Bits

/-- `sizeof(FILE)`. -/
def fileLen : Nat := 56

/-! ## The fields of a `FILE` -/

namespace File

/-- `stream->fd`. -/
def fd (m : Mem) (f : Nat) : Int := toInt32 (readLE m f 4)

/-- `stream->buf_ptr`. -/
def bufPtr (m : Mem) (f : Nat) : Nat := read64 m (f + 8)

/-- `stream->size_ptr`. -/
def sizePtr (m : Mem) (f : Nat) : Nat := read64 m (f + 16)

/-- `stream->buf`. -/
def buf (m : Mem) (f : Nat) : Nat := read64 m (f + 24)

/-- `stream->cap`. -/
def cap (m : Mem) (f : Nat) : Nat := read64 m (f + 32)

/-- `stream->len`. -/
def len (m : Mem) (f : Nat) : Nat := read64 m (f + 40)

/-- `stream->is_memstream`, an `int` read as a truth value. -/
def isMemstream (m : Mem) (f : Nat) : Bool := readLE m (f + 48) 4 ≠ 0

def setFd (m : Mem) (f : Nat) (v : Int) : Mem := writeLE m f 4 (toU32 v)

def setBufPtr (m : Mem) (f v : Nat) : Mem := write64 m (f + 8) v

def setSizePtr (m : Mem) (f v : Nat) : Mem := write64 m (f + 16) v

def setBuf (m : Mem) (f v : Nat) : Mem := write64 m (f + 24) v

def setCap (m : Mem) (f v : Nat) : Mem := write64 m (f + 32) v

def setLen (m : Mem) (f v : Nat) : Mem := write64 m (f + 40) v

def setIsMemstream (m : Mem) (f : Nat) (v : Bool) : Mem := writeLE m (f + 48) 4 v.toNat

end File

/-! ## `open_memstream` -/

/-- The kernel's answers to `mmap` depend on the ranges it has returned already. -/
def openMemstream (mmap : List MapRange → Nat → Option Nat) (fuel : Nat) (h : LibcHeap) (ptr sizeloc : Nat) :
    Outcome (LibcHeap × Nat) := do
  let (h, f) ← calloc (mmap h.obtained) fuel h 1 fileLen
  if f = 0 then return (h, 0)
  let m := File.setFd h.mem f (-1)
  let m := File.setBufPtr m f ptr
  let m := File.setSizePtr m f sizeloc
  let m := File.setCap m f 128
  let (h, buf) ← malloc (mmap h.obtained) fuel { h with mem := m } (File.cap m f)
  let m := File.setBuf h.mem f buf
  if File.buf m f = 0 then
    let h ← free fuel { h with mem := m } f
    return (h, 0)
  else
    let m := setByte m (File.buf m f) 0
    let m := File.setLen m f 0
    let m := File.setIsMemstream m f true
    let m := write64 m ptr (File.buf m f)
    return ({ h with mem := write64 m sizeloc 0 }, f)

/-! ## `fwrite` and `fflush` -/

/-- `stream->len + total >= stream->cap`: the bytes and a NUL do not fit. -/
def fwriteFull (m : Mem) (f total : Nat) : Prop := u64 (File.len m f + total) ≥ File.cap m f

instance (m : Mem) (f total : Nat) : Decidable (fwriteFull m f total) := inferInstanceAs (Decidable (_ ≥ _))

/-- `stream->cap * 2 + total`. -/
def newCap (m : Mem) (f total : Nat) : Nat := u64 (u64 (File.cap m f * 2) + total)

/-- The buffer grows if it has to. False when there is no memory for it. -/
def fwriteGrow (mmap : Nat → Option Nat) (fuel : Nat) (h : LibcHeap) (f total : Nat) :
    Outcome (LibcHeap × Bool) :=
  if fwriteFull h.mem f total then do
    let cap := newCap h.mem f total
    let (h, newBuf) ← realloc mmap fuel h (File.buf h.mem f) cap
    if newBuf = 0 then return (h, false)
    else
      let m := File.setBuf h.mem f newBuf
      let m := File.setCap m f cap
      return ({ h with mem := write64 m (File.bufPtr m f) newBuf }, true)
  else return (h, true)

/-- The bytes go behind those that are there, and a NUL behind them. -/
def fwriteStore (m : Mem) (ptr f total : Nat) : Mem :=
  let m := memcpy m (u64 (File.buf m f + File.len m f)) ptr total
  let m := File.setLen m f (u64 (File.len m f + total))
  let m := setByte m (u64 (File.buf m f + File.len m f)) 0
  write64 m (File.sizePtr m f) (File.len m f)

/-- A division by zero ends the program. -/
def fwrite (mmap : Nat → Option Nat) (write : Int → Nat → Nat → Int) (fuel : Nat) (h : LibcHeap)
    (ptr size nmemb f : Nat) : Outcome (LibcHeap × Nat) := do
  let total := u64 (size * nmemb)
  if File.isMemstream h.mem f = true then
    let (h, room) ← fwriteGrow mmap fuel h f total
    if room = true then return ({ h with mem := fwriteStore h.mem ptr f total }, nmemb)
    else return (h, 0)
  else
    let r := write (File.fd h.mem f) ptr total
    if r < 0 then return (h, 0)
    else if size = 0 then .panic "division by zero"
    else return (h, r.toNat / size)

/-- The second component is what the call returns. -/
def fflush (h : LibcHeap) (f : Nat) : LibcHeap × Int :=
  if File.isMemstream h.mem f = true then
    if File.buf h.mem f ≠ 0 then
      let m := setByte h.mem (u64 (File.buf h.mem f + File.len h.mem f)) 0
      let m := write64 m (File.bufPtr m f) (File.buf m f)
      ({ h with mem := write64 m (File.sizePtr m f) (File.len m f) }, 0)
    else (h, 0)
  else (h, 0)

end VnlKernel.Libc
