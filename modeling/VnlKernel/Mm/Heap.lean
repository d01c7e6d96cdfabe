import VnlKernel.Types

/-!
# The kernel heap: `src/mm/heap.c`

A boundary-tag allocator. The heap is one run of virtual memory cut into blocks.
A block starts with a header of three words (its size with bit 0 as the "used"
flag, then two free-list links) and ends with a footer word that repeats the
first. Free blocks are threaded on a doubly linked list; `kmalloc` takes the
first that fits, splitting it when enough is left over, and grows the heap by
whole pages when none does. `kfree` merges a block with the one after it.

Growing takes pages from elsewhere: a frame from the physical allocator, mapped
at the address the heap ends at. That service is the `Pager` the heap is built
over. It hands back what the fresh frame happens to contain, because nothing
clears it, and it fails when memory is exhausted, where `heap.c` calls `kpanic`.
-/

namespace VnlKernel

open ByteMem Bits

/-- The service that `pmm_alloc` and `vmm_map` give the heap together. -/
structure Pager (σ : Type) where
  /-- Map a fresh frame at a virtual address; returns the bytes the frame holds. -/
  mapPage : σ → Nat → Option (σ × (Nat → UInt8))
  /-- How many more pages can be had. -/
  supply : σ → Nat
  supply_lt : ∀ {s s' : σ} {va : Nat} {frame : Nat → UInt8},
    mapPage s va = some (s', frame) → supply s' < supply s

/-- The heap's own state: `free_list`, `heap_end`, and the memory they point into. -/
structure Heap (σ : Type) where
  mem : Mem
  freeList : Nat
  heapEnd : Nat
  pages : σ

/-- `sizeof(BlockHeader)`. -/
def headerSize : Nat := 24

/-- `sizeof(BlockFooter)`. -/
def footerSize : Nat := 8

/-- `MIN_BLOCK`. -/
def minBlock : Nat := headerSize + footerSize + 16

/-! ## Internal helpers -/

def blkSize (m : Mem) (h : Nat) : Nat := read64 m h &&& (2 ^ 64 - 2)

def blkUsed (m : Mem) (h : Nat) : Bool := read64 m h &&& 1 ≠ 0

def getFooter (m : Mem) (h : Nat) : Nat := sub64 (u64 (h + blkSize m h)) footerSize

def nextBlock (m : Mem) (h : Nat) : Nat := u64 (h + blkSize m h)

/-- `h->prev_free`. -/
def prevFree (m : Mem) (h : Nat) : Nat := read64 m (h + 8)

/-- `h->next_free`. -/
def nextFree (m : Mem) (h : Nat) : Nat := read64 m (h + 16)

def setPrevFree (m : Mem) (h v : Nat) : Mem := write64 m (h + 8) v

def setNextFree (m : Mem) (h v : Nat) : Mem := write64 m (h + 16) v

def setSize (m : Mem) (h sz : Nat) (used : Bool) : Mem :=
  let m := write64 m h (sz ||| used.toNat)
  write64 m (getFooter m h) (sz ||| used.toNat)

variable {σ : Type}

def freeListRemove (s : Heap σ) (h : Nat) : Heap σ :=
  let s :=
    if prevFree s.mem h ≠ 0 then
      { s with mem := setNextFree s.mem (prevFree s.mem h) (nextFree s.mem h) }
    else { s with freeList := nextFree s.mem h }
  let s :=
    if nextFree s.mem h ≠ 0 then
      { s with mem := setPrevFree s.mem (nextFree s.mem h) (prevFree s.mem h) }
    else s
  { s with mem := setPrevFree (setNextFree s.mem h 0) h 0 }

def freeListInsert (s : Heap σ) (h : Nat) : Heap σ :=
  let s := { s with mem := setPrevFree (setNextFree s.mem h s.freeList) h 0 }
  let s :=
    if s.freeList ≠ 0 then { s with mem := setPrevFree s.mem s.freeList h } else s
  { s with freeList := h }

/-- The frame's bytes become visible at the page it is mapped at. -/
def overlay (m : Mem) (va : Nat) (frame : Nat → UInt8) : Mem :=
  fun x => if va ≤ x ∧ x < va + pageSize then frame (x - va) else m x

/-- The page loop that `heap_expand` and `heap_init` share: `n` pages from `va` on. -/
def mapPages (pg : Pager σ) (msg : String) : Nat → Nat → Heap σ → Outcome (Heap σ)
  | 0, _, s => .done s
  | n + 1, va, s =>
      match pg.mapPage s.pages va with
      | none => .panic msg
      | some (pages, frame) =>
          mapPages pg msg n (u64 (va + pageSize))
            { s with pages := pages, mem := overlay s.mem va frame }

def heapExpand (pg : Pager σ) (s : Heap σ) (extra : Nat) : Outcome (Heap σ) := do
  let extra := alignUpPage extra
  let s ← mapPages pg "heap: OOM expanding heap" (extra / pageSize) s.heapEnd s
  -- one free block covering the new region
  let h := s.heapEnd
  let m := setSize s.mem h extra false
  let m := setPrevFree (setNextFree m h 0) h 0
  return freeListInsert { s with mem := m, heapEnd := u64 (s.heapEnd + extra) } h

/-! ## Public API -/

/-- `heap_init`, on whatever memory and free list the machine happens to hold. -/
def heapInit (pg : Pager σ) (s : Heap σ) (base initialSize : Nat) : Outcome (Heap σ) := do
  let initialSize := alignUpPage initialSize
  let s ← mapPages pg "heap_init: OOM" (initialSize / pageSize) base { s with heapEnd := base }
  let m := setSize s.mem base initialSize false
  let m := setPrevFree (setNextFree m base 0) base 0
  return { s with mem := m, freeList := base, heapEnd := u64 (base + initialSize) }

/-- The block size `kmalloc` looks for: the request with its tags, rounded. -/
def blockSizeFor (size : Nat) : Nat :=
  let size := alignUp (u64 (size + headerSize + footerSize)) 8
  if size < minBlock then minBlock else size

/-- The first-fit walk along the free list; zero when no block is large enough. -/
def firstFit (m : Mem) (size : Nat) : Nat → Nat → Outcome Nat
  | 0, _ => .timeout
  | fuel + 1, h =>
      if h = 0 then .done 0
      else if size ≤ blkSize m h then .done h
      else firstFit m size fuel (nextFree m h)

/-- What `kmalloc` does with the block it found: unlink it, and split it if it pays. -/
def takeBlock (s : Heap σ) (h size : Nat) : Heap σ × Nat :=
  let s := freeListRemove s h
  let leftover := sub64 (blkSize s.mem h) size
  let s :=
    if minBlock ≤ leftover then
      let m := setSize s.mem h size true
      let rest := nextBlock m h
      let m := setSize m rest leftover false
      let m := setPrevFree (setNextFree m rest 0) rest 0
      freeListInsert { s with mem := m } rest
    else { s with mem := setSize s.mem h (blkSize s.mem h) true }
  (s, u64 (h + headerSize))

/-- `kmalloc`: the heap afterwards and the pointer returned, zero for `NULL`. -/
def kmalloc (pg : Pager σ) : Nat → Heap σ → Nat → Outcome (Heap σ × Nat)
  | 0, _, _ => .timeout
  | fuel + 1, s, size =>
      if size = 0 then .done (s, 0)
      else do
        let size := blockSizeFor size
        let h ← firstFit s.mem size (fuel + 1) s.freeList
        if h ≠ 0 then return takeBlock s h size
        -- no fit: expand the heap and retry, with the size already rounded
        let s ← heapExpand pg s (u64 (size + pageSize))
        kmalloc pg fuel s size

def kcalloc (pg : Pager σ) (fuel : Nat) (s : Heap σ) (n size : Nat) : Outcome (Heap σ × Nat) := do
  let total := u64 (n * size)
  let (s, p) ← kmalloc pg fuel s total
  return if p ≠ 0 then ({ s with mem := memset s.mem p 0 total }, p) else (s, p)

/-- The forward merge in `kfree`; the merge with the previous block is left out in the source. -/
def coalesceNext (s : Heap σ) (h : Nat) : Heap σ :=
  let nxt := nextBlock s.mem h
  if nxt < s.heapEnd ∧ !blkUsed s.mem nxt then
    let s := freeListRemove s nxt
    { s with mem := setSize s.mem h (u64 (blkSize s.mem h + blkSize s.mem nxt)) false }
  else s

def kfree (s : Heap σ) (ptr : Nat) : Outcome (Heap σ) :=
  if ptr = 0 then .done s
  else
    let h := sub64 ptr headerSize
    if !blkUsed s.mem h then .panic "Assertion failed: blk_used(h)"
    else
      let s := { s with mem := setSize s.mem h (blkSize s.mem h) false }
      let s := coalesceNext s h
      .done (freeListInsert s h)

def krealloc (pg : Pager σ) (fuel : Nat) (s : Heap σ) (ptr size : Nat) :
    Outcome (Heap σ × Nat) :=
  if ptr = 0 then kmalloc pg fuel s size
  else do
    let h := sub64 ptr headerSize
    let oldSize := sub64 (sub64 (blkSize s.mem h) headerSize) footerSize
    let (s, newPtr) ← kmalloc pg fuel s size
    if newPtr = 0 then return (s, 0)
    let s := { s with mem := memcpy s.mem newPtr ptr (if oldSize < size then oldSize else size) }
    let s ← kfree s ptr
    return (s, newPtr)

end VnlKernel
