import VnlKernel.Types

/-!
# The heap of user programs: `ports/libc/libc.c`

A first-fit allocator. Every block begins with a `struct block_hdr` of 24 bytes:
its length, whether it is free, and the address of the next block. All blocks,
free or not, stand on one list that starts at `free_list_head`. `malloc` takes the
first free block that is long enough, whole; when there is none it asks the kernel
for a range of at least 64 KiB, puts it at the end of the list and splits it.
`free` marks the block and then walks the list once, joining free neighbours.

What the kernel answers to `mmap` is a parameter: the address of the range, or
nothing for `MAP_FAILED`. The ranges it gave are kept in `obtained`, which no code
reads.
-/

namespace VnlKernel

open ByteMem Bits

/-- What one `mmap` returned. -/
structure MapRange where
  addr : Nat
  len : Nat
deriving DecidableEq

/-- The address just past the range. -/
def MapRange.lim (r : MapRange) : Nat := r.addr + r.len

namespace Libc

/-- Memory, `free_list_head`, and the ranges `malloc` has had from `mmap` so far. -/
structure LibcHeap where
  mem : Mem
  freeListHead : Nat
  obtained : List MapRange

/-- `sizeof(struct block_hdr)`. -/
def hdrLen : Nat := 24

/-! ## The fields of a header -/

/-- `b->size`. -/
def size (m : Mem) (b : Nat) : Nat := read64 m b

/-- `b->free`, an `int` read as a truth value. -/
def isFree (m : Mem) (b : Nat) : Bool := readLE m (b + 8) 4 ≠ 0

/-- `b->next`. -/
def next (m : Mem) (b : Nat) : Nat := read64 m (b + 16)

def setSize (m : Mem) (b v : Nat) : Mem := write64 m b v

def setFree (m : Mem) (b : Nat) (v : Bool) : Mem := writeLE m (b + 8) 4 v.toNat

def setNext (m : Mem) (b v : Nat) : Mem := write64 m (b + 16) v

/-! ## `malloc` -/

/-- `(size + 7) & ~7ULL`. -/
def round8 (n : Nat) : Nat := u64 (n + 7) &&& (2 ^ 64 - 8)

/-- The search of `malloc`: the first block that fits, or the last of the list (`prev`). -/
def mallocScan (m : Mem) (n : Nat) : Nat → Nat → Nat → Outcome (Nat ⊕ Nat)
  | 0, _, _ => .timeout
  | fuel + 1, curr, prev =>
      if curr = 0 then .done (.inr prev)
      else if isFree m curr = true ∧ n ≤ size m curr then .done (.inl curr)
      else mallocScan m n fuel (next m curr) curr

/-- `chunk_size`. -/
def chunkSize (n : Nat) : Nat := if u64 (n + hdrLen) < 65536 then 65536 else u64 (n + hdrLen)

/-- A range that `mmap` gave becomes one block behind `prev`. -/
def mallocLink (h : LibcHeap) (n prev block : Nat) : LibcHeap :=
  let m := setSize h.mem block (sub64 (chunkSize n) hdrLen)
  let m := setFree m block false
  let m := setNext m block 0
  let obtained := h.obtained ++ [⟨block, chunkSize n⟩]
  if prev ≠ 0 then { h with mem := setNext m prev block, obtained := obtained }
  else { mem := m, freeListHead := block, obtained := obtained }

/-- "If block has extra remaining space, split it". -/
def mallocSplit (h : LibcHeap) (n block : Nat) : LibcHeap :=
  if size h.mem block > u64 (n + hdrLen + 8) then
    let nextBlock := u64 (block + hdrLen + n)
    let m := setSize h.mem nextBlock (sub64 (sub64 (size h.mem block) n) hdrLen)
    let m := setFree m nextBlock true
    let m := setNext m nextBlock (next m block)
    let m := setSize m block n
    { h with mem := setNext m block nextBlock }
  else h

def malloc (mmap : Nat → Option Nat) (fuel : Nat) (h : LibcHeap) (n : Nat) :
    Outcome (LibcHeap × Nat) := do
  if n = 0 then return (h, 0)
  match ← mallocScan h.mem (round8 n) fuel h.freeListHead 0 with
  | .inl curr => return ({ h with mem := setFree h.mem curr false }, u64 (curr + hdrLen))
  | .inr prev =>
      match mmap (chunkSize (round8 n)) with
      | none => return (h, 0)
      | some block => do
          let h := mallocLink h (round8 n) prev block
          return (mallocSplit h (round8 n) block, u64 (block + hdrLen))

/-! ## `free` -/

/-- "Merge adjacent free blocks": one pass over the list. -/
def mergeLoop : Nat → Mem → Nat → Outcome Mem
  | 0, _, _ => .timeout
  | fuel + 1, m, curr =>
      if curr = 0 then .done m
      else
        let m :=
          if isFree m curr = true ∧ next m curr ≠ 0 ∧ isFree m (next m curr) = true then
            let m := setSize m curr (u64 (size m curr + (hdrLen + size m (next m curr))))
            setNext m curr (next m (next m curr))
          else m
        mergeLoop fuel m (next m curr)

def free (fuel : Nat) (h : LibcHeap) (ptr : Nat) : Outcome LibcHeap := do
  if ptr = 0 then return h
  let m ← mergeLoop fuel (setFree h.mem (sub64 ptr hdrLen) true) h.freeListHead
  return { h with mem := m }

/-! ## `realloc` and `calloc` -/

def realloc (mmap : Nat → Option Nat) (fuel : Nat) (h : LibcHeap) (ptr n : Nat) :
    Outcome (LibcHeap × Nat) := do
  if ptr = 0 then malloc mmap fuel h n
  else if n = 0 then
    let h ← free fuel h ptr
    return (h, 0)
  else if n ≤ size h.mem (sub64 ptr hdrLen) then return (h, ptr)
  else
    let (h, newPtr) ← malloc mmap fuel h n
    if newPtr ≠ 0 then
      let m := memcpy h.mem newPtr ptr (size h.mem (sub64 ptr hdrLen))
      let h ← free fuel { h with mem := m } ptr
      return (h, newPtr)
    else return (h, newPtr)

def calloc (mmap : Nat → Option Nat) (fuel : Nat) (h : LibcHeap) (nmemb n : Nat) :
    Outcome (LibcHeap × Nat) := do
  let total := u64 (nmemb * n)
  let (h, ptr) ← malloc mmap fuel h total
  if ptr ≠ 0 then return ({ h with mem := memset h.mem ptr 0 total }, ptr) else return (h, ptr)

end Libc

end VnlKernel
