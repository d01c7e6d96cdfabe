import VnlKernel.Lib.Bitmap
import VnlKernel.Types

/-!
# The physical memory manager: `src/mm/pmm.c`

A bitmap with one bit per 4 KiB frame, set while the frame is in use, and two
counters. `pmm_alloc` scans it from the start. Frames are handed around as
physical addresses, with zero for "none": frame 0 is below 1 MiB and never free.
-/

namespace VnlKernel

open Bits

/-- `MAX_FRAMES`. -/
def maxFrames : Nat := 1024 * 1024

/-- `BITMAP_SIZE`. -/
def bitmapSize : Nat := maxFrames / 8

/-- The file's static variables. -/
structure Pmm where
  bitmap : Nat → UInt8
  totalFrames : Nat
  freeFrames : Nat

def Pmm.bmSet (p : Pmm) (frame : Nat) : Pmm := { p with bitmap := Bitmap.set p.bitmap frame }

def Pmm.bmClear (p : Pmm) (frame : Nat) : Pmm := { p with bitmap := Bitmap.clear p.bitmap frame }

def Pmm.bmTest (p : Pmm) (frame : Nat) : Bool := Bitmap.test p.bitmap frame

/-- `bm_set(frame); free_frames--`. -/
def Pmm.markUsed (p : Pmm) (frame : Nat) : Pmm :=
  let p := p.bmSet frame
  { p with freeFrames := sub64 p.freeFrames 1 }

/-- `bm_clear(frame); free_frames++`. -/
def Pmm.markFree (p : Pmm) (frame : Nat) : Pmm :=
  let p := p.bmClear frame
  { p with freeFrames := u64 (p.freeFrames + 1) }

/-- The loop of `pmm_init`: `n` frames from `f` on become free. -/
def freeFrom (p : Pmm) : Nat → Nat → Pmm
  | 0, _ => p
  | n + 1, f => freeFrom (p.markFree f) n (f + 1)

def pmmInit (memUpperKb : Nat) : Pmm :=
  let total := u64 (memUpperKb * 1024) / pageSize
  let total := if total > maxFrames then maxFrames else total
  let firstFree := alignUpPage 0x100000 / pageSize
  freeFrom { bitmap := fun _ => 0xFF, totalFrames := total, freeFrames := 0 }
    (total - firstFree) firstFree

/-- The loop of `pmm_reserve`: the `n` frames from `f` on, as far as there are frames. -/
def reserveFrom (p : Pmm) : Nat → Nat → Pmm
  | 0, _ => p
  | n + 1, f =>
      if f < p.totalFrames then reserveFrom (if !p.bmTest f then p.markUsed f else p) n (f + 1)
      else p

def pmmReserve (p : Pmm) (base len : Nat) : Pmm :=
  let first := alignDown base pageSize / pageSize
  let last := alignUpPage (u64 (base + len)) / pageSize
  reserveFrom p (last - first) first

/-- `pmm_alloc`: the allocator afterwards and the frame's address, zero for `NULL`. -/
def pmmAlloc (p : Pmm) : Pmm × Nat :=
  match Bitmap.scanBytes p.bitmap bitmapSize 0 with
  | none => (p, 0)
  | some frame =>
      if p.totalFrames ≤ frame then (p, 0)
      else (p.markUsed frame, u64 (frame * pageSize))

def pmmFree (p : Pmm) (frame : Nat) : Pmm :=
  let f := frame / pageSize
  -- double-free guard
  if !p.bmTest f then p else p.markFree f

end VnlKernel
