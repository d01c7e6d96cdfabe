import VnlKernel.Kernel.Errno
import VnlKernel.Logged
import VnlKernel.Mm.Pmm

/-!
# Boot information: the tag loops of `src/kernel/main.c` and `src/drivers/fb.c`

The loader leaves a block of tags in memory: the size of the block, and eight bytes in,
one tag after the other, each beginning with its type and size. The kernel goes through
it four times, with a loop of its own each time. Reads of the block are noted down, and
so is every step from a tag to the next.
-/

namespace VnlKernel

open ByteMem Bits

/-- What a loop does with the block. -/
inductive WalkEvent where
  /-- It reads `n` bytes at `a`. -/
  | read (a n : Nat)
  /-- It goes from the tag at `ptr` to what it takes for the next one. -/
  | advance (ptr next : Nat)
deriving DecidableEq

/-- Load a number of `n` bytes. -/
def loadLE (m : Mem) (a n : Nat) : Logged WalkEvent Nat := do
  .note (.read a n)
  return readLE m a n

/-- `MB2_TAG_END`. -/
def mb2TagEnd : Nat := 0

/-- `MB2_TAG_MEM`. -/
def mb2TagMem : Nat := 4

/-- `MB2_TAG_MMAP`. -/
def mb2TagMmap : Nat := 6

/-- `MB2_TAG_FB`. -/
def mb2TagFb : Nat := 8

/-- `ALIGN_UP(size, 8)` of a 32-bit size, in 32 bits. -/
def alignUpTag (size : Nat) : Nat := u32 (size + 7) &&& (2 ^ 32 - 8)

/-- The loop: `body` says where the next tag is, or that the loop is left here. -/
def tagLoop {α : Type} (stop : Nat) (body : α → Nat → Logged WalkEvent (α × Option Nat)) :
    Nat → α → Nat → Logged WalkEvent α
  | 0, _, _ => .lift .timeout
  | fuel + 1, a, ptr =>
      if ptr < stop then do
        let (a, next) ← body a ptr
        match next with
        | none => return a
        | some next =>
            .note (.advance ptr next)
            tagLoop stop body fuel a next
      else return a

/-- What the four loops begin with. -/
def walkTags {α : Type} (m : Mem) (mbInfo fuel : Nat) (body : α → Nat → Logged WalkEvent (α × Option Nat))
    (a : α) : Logged WalkEvent α := do
  let totalSize ← loadLE m mbInfo 4
  tagLoop (u64 (mbInfo + totalSize)) body fuel a (u64 (mbInfo + 8))

/-! ## `parse_mb2_mmap` -/

/-- The loop over a memory map's entries; what is not usable is reserved. -/
def mmapEntries (m : Mem) (entries : Nat) : Nat → Nat → Pmm → Logged WalkEvent Pmm
  | 0, _, p => pure p
  | n + 1, i, p => do
      let type ← loadLE m (entries + 24 * i + 16) 4
      if type ≠ 1 then
        let addr ← loadLE m (entries + 24 * i) 8
        let len ← loadLE m (entries + 24 * i + 8) 8
        mmapEntries m entries n (i + 1) (pmmReserve p addr len)
      else mmapEntries m entries n (i + 1) p

/-- `(tag->size - 16) / mmap->entry_size`, as an `int`. -/
def numEntries (size entrySize : Nat) : Int := toInt32 (u32 (size + (2 ^ 32 - 16)) / entrySize)

/-- What `parse_mb2_mmap` does at a memory map. -/
def mmapTag (m : Mem) (p : Pmm) (ptr : Nat) : Logged WalkEvent Pmm := do
  let size ← loadLE m (ptr + 4) 4
  let entrySize ← loadLE m (ptr + 8) 4
  -- the division traps, and the handler of the exception halts
  if entrySize = 0 then .lift (.panic "Divide Error")
  else mmapEntries m (ptr + 16) (numEntries size entrySize).toNat 0 p

def mmapBody (m : Mem) (p : Pmm) (ptr : Nat) : Logged WalkEvent (Pmm × Option Nat) := do
  let type ← loadLE m ptr 4
  if type = mb2TagEnd then return (p, none)
  let p ← (if type = mb2TagMmap then mmapTag m p ptr else pure p)
  let size ← loadLE m (ptr + 4) 4
  return (p, some (u64 (ptr + alignUpTag size)))

def parseMb2Mmap (m : Mem) (fuel : Nat) (p : Pmm) (mbInfoPhys : Nat) : Logged WalkEvent Pmm :=
  walkTags m mbInfoPhys fuel (mmapBody m) p

/-! ## `parse_mb2_memory` -/

def memoryBody (m : Mem) (memKb : Nat) (ptr : Nat) : Logged WalkEvent (Nat × Option Nat) := do
  let type ← loadLE m ptr 4
  if type = mb2TagEnd then return (memKb, none)
  if type = mb2TagMem then
    -- KiB above the first MiB
    let memUpper ← loadLE m (ptr + 12) 4
    return (memUpper + 1024, none)
  let size ← loadLE m (ptr + 4) 4
  return (memKb, some (u64 (ptr + alignUpTag size)))

/-- `parse_mb2_memory`, in KiB; without the tag it assumes 128 MiB. -/
def parseMb2Memory (m : Mem) (fuel mbInfoPhys : Nat) : Logged WalkEvent Nat :=
  walkTags m mbInfoPhys fuel (memoryBody m) (128 * 1024)

/-! ## `parse_fb_tag` -/

structure FBInfo where
  addr : Nat
  pitch : Nat
  width : Nat
  height : Nat
  bpp : Nat
  fbType : Nat

/-- `sizeof(MB2TagFB)`. -/
def mb2TagFbSize : Nat := 31

def fbBody (m : Mem) (r : Bool × FBInfo) (ptr : Nat) : Logged WalkEvent ((Bool × FBInfo) × Option Nat) := do
  let type ← loadLE m ptr 4
  let sz ← loadLE m (ptr + 4) 4
  if type = mb2TagEnd then return (r, none)
  if type = mb2TagFb ∧ mb2TagFbSize ≤ sz then
    let addr ← loadLE m (ptr + 8) 8
    let pitch ← loadLE m (ptr + 16) 4
    let width ← loadLE m (ptr + 20) 4
    let height ← loadLE m (ptr + 24) 4
    let bpp ← loadLE m (ptr + 28) 1
    let fbType ← loadLE m (ptr + 29) 1
    return ((width > 0 && height > 0 && pitch > 0 && addr ≠ 0, ⟨addr, pitch, width, height, bpp, fbType⟩), none)
  return (r, some (u64 (ptr + alignUpTag sz)))

/-- `parse_fb_tag`: its result, and what it filled `info` with. -/
def parseFbTag (m : Mem) (fuel mbPhys : Nat) (info : FBInfo) : Logged WalkEvent (Bool × FBInfo) :=
  walkTags m mbPhys fuel (fbBody m) (false, info)

/-! ## `kernel_main` -/

/-- `phys_framebuffer_addr` and the variables next to it. -/
structure FbVars where
  physFramebufferAddr : Nat
  fbWidth : Nat
  fbHeight : Nat
  fbPitch : Nat
  fbBpp : Nat

/-- What the loop of `kernel_main` does at a framebuffer tag, of whatever size. -/
def kernelMainFb (m : Mem) (ptr : Nat) : Logged WalkEvent FbVars := do
  let addr ← loadLE m (ptr + 8) 8
  let width ← loadLE m (ptr + 20) 4
  let height ← loadLE m (ptr + 24) 4
  let pitch ← loadLE m (ptr + 16) 4
  let bpp ← loadLE m (ptr + 28) 1
  return ⟨addr, width, height, pitch, bpp⟩

/-- This loop goes on behind a framebuffer tag, and rounds the address of the next tag rather than
its distance. -/
def kernelMainBody (m : Mem) (v : FbVars) (ptr : Nat) : Logged WalkEvent (FbVars × Option Nat) := do
  let type ← loadLE m ptr 4
  if type = mb2TagEnd then return (v, none)
  let v ← (if type = mb2TagFb then kernelMainFb m ptr else pure v)
  let size ← loadLE m (ptr + 4) 4
  return (v, some (u64 (ptr + size + 7) &&& (2 ^ 64 - 8)))

/-- The tag loop of `kernel_main`. -/
def kernelMainTags (m : Mem) (fuel mbInfo : Nat) (v : FbVars) : Logged WalkEvent FbVars :=
  walkTags m mbInfo fuel (kernelMainBody m) v

end VnlKernel
