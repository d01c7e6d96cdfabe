import VnlKernel.Lib.Bits
import VnlKernel.Logged

/-!
# Copies of bytes: `src/lib/string.c` and `ports/libc/libc.c`

The kernel and the C library have the same loops, written twice. Pointers are words of 64
bits, and a loop takes its pointer one step further than it stores.

Each store of `strncpy` is noted down with its address, so that what is written can be told
apart from what is changed.
-/

namespace VnlKernel

open ByteMem Bits

/-! ## `strncpy` -/

/-- `while (n && (*dst++ = *src++)) n--;`. What it leaves: the memory, `dst` and `n`. -/
def strncpyCopy (m : Mem) (dst src : Nat) : Nat → Logged Nat (Mem × Nat × Nat)
  | 0 => pure (m, dst, 0)
  | n + 1 => do
      .note dst
      let c := m src
      let m := setByte m dst c
      if c ≠ 0 then strncpyCopy m (u64 (dst + 1)) (u64 (src + 1)) n else return (m, u64 (dst + 1), n + 1)

/-- `while (n--) *dst++ = '\0';`. -/
def strncpyPad (m : Mem) (dst : Nat) : Nat → Logged Nat Mem
  | 0 => pure m
  | n + 1 => do
      .note dst
      strncpyPad (setByte m dst 0) (u64 (dst + 1)) n

/-- The body that both copies of `strncpy` have. The second component is what is returned. -/
def strncpyLoops (m : Mem) (dst src n : Nat) : Logged Nat (Mem × Nat) := do
  let (m, p, n) ← strncpyCopy m dst src n
  let m ← strncpyPad m p n
  return (m, dst)

/-! ## `memmove` -/

/-- `while (n--) *d++ = *s++;`. -/
def copyUp (m : Mem) (d s : Nat) : Nat → Mem
  | 0 => m
  | n + 1 => copyUp (setByte m d (m s)) (u64 (d + 1)) (u64 (s + 1)) n

/-- `while (n--) *--d = *--s;`. -/
def copyDown (m : Mem) (d s : Nat) : Nat → Mem
  | 0 => m
  | n + 1 => copyDown (setByte m (sub64 d 1) (m (sub64 s 1))) (sub64 d 1) (sub64 s 1) n

/-- The body that both copies of `memmove` have. The second component is what is returned. -/
def memmoveLoops (m : Mem) (dst src n : Nat) : Mem × Nat :=
  if dst < src then (copyUp m dst src n, dst) else (copyDown m (u64 (dst + n)) (u64 (src + n)) n, dst)

/-! ## The kernel's functions and the library's -/

namespace Kstring

def strncpy (m : Mem) (dst src n : Nat) : Logged Nat (Mem × Nat) := strncpyLoops m dst src n

def memmove (m : Mem) (dst src n : Nat) : Mem × Nat := memmoveLoops m dst src n

end Kstring

namespace Libc

def strncpy (m : Mem) (dst src n : Nat) : Logged Nat (Mem × Nat) := strncpyLoops m dst src n

def memmove (m : Mem) (dst src n : Nat) : Mem × Nat := memmoveLoops m dst src n

end Libc

end VnlKernel
