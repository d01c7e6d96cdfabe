import VnlKernel.Kernel.Errno
import VnlKernel.Lib.Scan
import VnlKernel.Mm.Heap

/-!
# Shared memory objects: `src/kernel/shm.c`

A table of named objects, each a list of physical frames. Frames come from the
physical allocator and their bytes are reached at their physical addresses, so the
code here runs over a `FrameService`: what it needs of the memory below, next to
what the heap needs of it.
-/

namespace VnlKernel

open ByteMem Bits

/-- Physical memory as the kernel's upper half sees it. `supply` bounds the pages that the heap can
still be given, whatever is allocated and freed in between. -/
structure FrameService (σ : Type) extends Pager σ where
  /-- The allocator afterwards and a frame's address, zero for `NULL`. -/
  alloc : σ → σ × Nat
  free : σ → Nat → σ
  /-- The bytes of physical memory. -/
  phys : σ → Mem
  setPhys : σ → Mem → σ
  supply_alloc : ∀ s, supply (alloc s).1 ≤ supply s
  supply_free : ∀ s f, supply (free s f) ≤ supply s
  supply_setPhys : ∀ s m, supply (setPhys s m) ≤ supply s

/-- `SHM_MAX_OBJECTS`. -/
def shmMaxObjects : Nat := 32

/-- `SHM_NAME_MAX`. -/
def shmNameMax : Nat := 64

/-- `SHM_MAX_PAGES`. -/
def shmMaxPages : Nat := 1024

structure ShmObject where
  used : Bool
  name : CStr
  pages : Nat → Nat
  size : Nat

def ShmObject.zero : ShmObject := ⟨false, [], fun _ => 0, 0⟩

/-- `shm_objs`. -/
def ShmTable := Nat → ShmObject

def ShmTable.set (t : ShmTable) (i : Nat) (o : ShmObject) : ShmTable :=
  fun j => if j = i then o else t j

def shmInit : ShmTable := fun _ => .zero

/-- `shm_open_object`; its flags are ignored. -/
def shmOpenObject (t : ShmTable) (name : CStr) : ShmTable × Int :=
  match Scan.first (fun i => (t i).used && (t i).name = name) shmMaxObjects 0 with
  | some i => (t, i)
  | none =>
      match Scan.first (fun i => !(t i).used) shmMaxObjects 0 with
      | some i => (t.set i { ShmObject.zero with name := name.take (shmNameMax - 1), used := true }, i)
      | none => (t, -enomem)

/-- Is `idx` an object in use? -/
def shmValid (t : ShmTable) (idx : Int) : Bool :=
  0 ≤ idx && idx < shmMaxObjects && (t idx.toNat).used

/-- The pages an object of this size needs. -/
def pagesFor (size : Nat) : Nat := u64 (size + (pageSize - 1)) / pageSize

variable {σ : Type}

/-- Give the pages `[i, i + n)` back, those that are there. -/
def shmFreePages (fs : FrameService σ) (s : σ) (pages : Nat → Nat) : Nat → Nat → σ × (Nat → Nat)
  | 0, _ => (s, pages)
  | n + 1, i =>
      if pages i ≠ 0 then
        shmFreePages fs (fs.free s (pages i)) (fun j => if j = i then 0 else pages j) n (i + 1)
      else shmFreePages fs s pages n (i + 1)

/-- The undo loop of a failed growth: it frees without looking. -/
def shmUndoPages (fs : FrameService σ) (s : σ) (pages : Nat → Nat) : Nat → Nat → σ × (Nat → Nat)
  | 0, _ => (s, pages)
  | n + 1, i =>
      shmUndoPages fs (fs.free s (pages i)) (fun j => if j = i then 0 else pages j) n (i + 1)

/-- Allocate and clear the pages `[i, i + n)`; false when memory ran out, with what was allocated
since `old` given back. -/
def shmGrowPages (fs : FrameService σ) (old : Nat) (s : σ) (pages : Nat → Nat) :
    Nat → Nat → σ × (Nat → Nat) × Bool
  | 0, _ => (s, pages, true)
  | n + 1, i =>
      let (s, frame) := fs.alloc s
      if frame = 0 then
        let (s, pages) := shmUndoPages fs s pages (i - old) old
        (s, pages, false)
      else
        let s := fs.setPhys s (memset (fs.phys s) frame 0 pageSize)
        shmGrowPages fs old s (fun j => if j = i then frame else pages j) n (i + 1)

def shmTruncate (fs : FrameService σ) (s : σ) (t : ShmTable) (idx : Int) (length : Nat) :
    σ × ShmTable × Int :=
  if !shmValid t idx then (s, t, -einval)
  else
    let shm := t idx.toNat
    let oldPages := pagesFor shm.size
    let newPages := pagesFor length
    if newPages > shmMaxPages then (s, t, -efbig)
    else
      let (s, pages, ok) := shmGrowPages fs oldPages s shm.pages (newPages - oldPages) oldPages
      if !ok then (s, t.set idx.toNat { shm with pages := pages }, -enomem)
      else
        let (s, pages) := shmFreePages fs s pages (oldPages - newPages) newPages
        (s, t.set idx.toNat { shm with pages := pages, size := length }, 0)

/-- The copy loop of `shm_read` and `shm_write`: `left` bytes from offset `off` on, page by page.
Calls `copy m address done chunk` for each piece, and stops short, with false, at a missing page. -/
def shmCopy (pages : Nat → Nat) (copy : Mem → Nat → Nat → Nat → Mem) :
    Nat → Mem → Nat → Nat → Nat → Mem × Bool
  | 0, m, _, _, _ => (m, true)
  | fuel + 1, m, off, done, left =>
      if left = 0 then (m, true)
      else
        let pageIdx := off / pageSize
        let pageOff := off % pageSize
        let chunk := if pageSize - pageOff > left then left else pageSize - pageOff
        if pages pageIdx = 0 then (m, false)
        else
          shmCopy pages copy fuel (copy m (pages pageIdx + pageOff) done chunk)
            (off + chunk) (done + chunk) (left - chunk)

/-- `shm_read`: the result, the offset afterwards, and the bytes that went to the caller. -/
def shmRead (phys : Mem) (t : ShmTable) (idx : Int) (len off : Nat) : Int × Nat × (Nat → UInt8) :=
  if !shmValid t idx then (-einval, off, fun _ => 0)
  else
    let shm := t idx.toNat
    if shm.size ≤ off then (0, off, fun _ => 0)
    else
      let avail := shm.size - off
      let toRead := if len < avail then len else avail
      -- the caller's buffer is a memory of its own
      let gather := fun (out : Mem) a done chunk x =>
        if done ≤ x ∧ x < done + chunk then phys (a + (x - done)) else out x
      let (out, ok) := shmCopy shm.pages gather toRead (fun _ => 0) off 0 toRead
      if !ok then (-efault, off, out) else (toInt32 toRead, u64 (off + toRead), out)

def shmWrite (fs : FrameService σ) (s : σ) (t : ShmTable) (idx : Int) (buf : Nat → UInt8)
    (len off : Nat) : σ × ShmTable × Int × Nat :=
  if !shmValid t idx then (s, t, -einval, off)
  else
    let newEnd := u64 (off + len)
    let (s, t, r) :=
      if newEnd > (t idx.toNat).size then shmTruncate fs s t idx newEnd else (s, t, 0)
    if r < 0 then (s, t, r, off)
    else
      let scatter := fun (m : Mem) a done chunk x =>
        if a ≤ x ∧ x < a + chunk then buf (done + (x - a)) else m x
      let (m, ok) := shmCopy (t idx.toNat).pages scatter len (fs.phys s) off 0 len
      let s := fs.setPhys s m
      if !ok then (s, t, -efault, off) else (s, t, toInt32 len, u64 (off + len))

def shmGetPagePhys (t : ShmTable) (idx : Int) (pageOffset : Nat) : Nat :=
  if !shmValid t idx then 0
  else
    let pageIdx := pageOffset / pageSize
    if pageIdx ≥ shmMaxPages then 0 else (t idx.toNat).pages pageIdx

def shmDestroy (fs : FrameService σ) (s : σ) (t : ShmTable) (idx : Int) : σ × ShmTable :=
  if !shmValid t idx then (s, t)
  else
    let shm := t idx.toNat
    let (s, pages) := shmFreePages fs s shm.pages (pagesFor shm.size) 0
    (s, t.set idx.toNat { shm with pages := pages, used := false })

end VnlKernel
