import VnlKernel.Kernel.Shm

/-!
# Page tables: `src/mm/vmm.c` and `src/mm/uspace.c`

Four levels of tables, a frame each, with 512 entries of eight bytes. An entry holds the
address of the next table, or of a page, and flags in its low bits. Tables are reached at
their physical addresses: the boot code maps the low four gigabytes at themselves. A root
made for a user program has no such map, as only the upper half is copied into it; what is
modelled is what the code does where the low memory is mapped.

The walk goes from the root down, and makes the tables that are missing if it is asked to.
Invalidating the translation cache is left out; nothing here reads through it.
-/

namespace VnlKernel

open ByteMem Bits

/-- `VMM_FLAG_PRESENT`. -/
def vmmFlagPresent : Nat := 1

/-- `VMM_FLAG_WRITE`. -/
def vmmFlagWrite : Nat := 2

/-- `VMM_FLAG_USER`. -/
def vmmFlagUser : Nat := 4

/-- `VMM_FLAG_HUGE`. -/
def vmmFlagHuge : Nat := 128

/-- `PML4_IDX`. -/
def pml4Idx (va : Nat) : Nat := (va >>> 39) &&& 0x1FF

/-- `PDPT_IDX`. -/
def pdptIdx (va : Nat) : Nat := (va >>> 30) &&& 0x1FF

/-- `PD_IDX`. -/
def pdIdx (va : Nat) : Nat := (va >>> 21) &&& 0x1FF

/-- `PT_IDX`. -/
def ptIdx (va : Nat) : Nat := (va >>> 12) &&& 0x1FF

/-- The index that the walk takes in a table, by the level it is at. -/
def levelIdx (level va : Nat) : Nat :=
  match level with
  | 3 => pml4Idx va
  | 2 => pdptIdx va
  | 1 => pdIdx va
  | _ => 0

/-- `&table[idx]`. -/
def entryAt (table idx : Nat) : Nat := u64 (table + 8 * idx)

/-- Is the `PRESENT` bit set? -/
def isPresent (entry : Nat) : Bool := entry &&& vmmFlagPresent ≠ 0

/-- Does the walk stop here, at an entry for a large page? It does not look at the root's. -/
def stopsAt (level entry : Nat) : Bool := level ≠ 3 && entry &&& vmmFlagHuge ≠ 0

variable {σ : Type}

/-- `alloc_pt_frame`: a cleared frame. -/
def allocPtFrame (fs : FrameService σ) (s : σ) : Outcome (σ × Nat) :=
  let (s, frame) := fs.alloc s
  if frame = 0 then .panic "VMM: out of physical memory"
  else .done (fs.setPhys s (memset (fs.phys s) frame 0 pageSize), frame)

/-- The loop of `vmm_get_pte_pml4_phys` from a level on; zero is `NULL`. -/
def vmmWalk (fs : FrameService σ) (virt : Nat) (create : Bool) : Nat → σ → Nat → Outcome (σ × Nat)
  | 0, s, table => .done (s, entryAt table (ptIdx virt))
  | level + 1, s, table =>
      let slot := entryAt table (levelIdx (level + 1) virt)
      let entry := read64 (fs.phys s) slot
      if !isPresent entry then
        if !create then .done (s, 0)
        else do
          let (s, frame) ← allocPtFrame fs s
          let s := fs.setPhys s (write64 (fs.phys s) slot (frame ||| vmmFlagPresent ||| vmmFlagWrite))
          vmmWalk fs virt create level s frame
      else if stopsAt (level + 1) entry then .done (s, 0)
      else vmmWalk fs virt create level s (alignDown entry pageSize)

def vmmGetPtePml4Phys (fs : FrameService σ) (s : σ) (rootPhys virt : Nat) (create : Bool) :
    Outcome (σ × Nat) := vmmWalk fs virt create 3 s rootPhys

/-- `*pte = value`; the identity map makes memory of address zero too. -/
def setPte (fs : FrameService σ) (s : σ) (pte value : Nat) : σ :=
  fs.setPhys s (write64 (fs.phys s) pte value)

def vmmMapInPml4 (fs : FrameService σ) (s : σ) (pml4Phys virt phys flags : Nat) : Outcome σ := do
  let (s, pte) ← vmmGetPtePml4Phys fs s pml4Phys virt true
  return setPte fs s pte (alignDown phys pageSize ||| flags ||| vmmFlagPresent)

/-- The loop of `vmm_lookup_phys_pml4` from a level on. -/
def vmmLookup (phys : Mem) (virt : Nat) : Nat → Nat → Nat
  | 0, table =>
      let pte := read64 phys (entryAt table (ptIdx virt))
      if !isPresent pte then 0 else alignDown pte pageSize ||| (virt &&& (pageSize - 1))
  | level + 1, table =>
      let entry := read64 phys (entryAt table (levelIdx (level + 1) virt))
      if !isPresent entry then 0
      else if stopsAt (level + 1) entry then 0
      else vmmLookup phys virt level (alignDown entry pageSize)

def vmmLookupPhysPml4 (phys : Mem) (rootPhys virt : Nat) : Nat := vmmLookup phys virt 3 rootPhys

/-- `uspace_create_pml4`, where `read_cr3()` is `cr3`: the new root, zero if there is no frame. It
shares the top of the address space with the one that is current, and nothing else. -/
def uspaceCreatePml4 (fs : FrameService σ) (s : σ) (cr3 : Nat) : σ × Nat :=
  let (s, phys) := fs.alloc s
  if phys = 0 then (s, 0)
  else
    let s := fs.setPhys s (memset (fs.phys s) phys 0 pageSize)
    (fs.setPhys s (write64 (fs.phys s) (entryAt phys 511) (read64 (fs.phys s) (entryAt cr3 511))), phys)

end VnlKernel
