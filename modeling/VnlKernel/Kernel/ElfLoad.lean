import VnlKernel.Kernel.Errno
import VnlKernel.Logged
import VnlKernel.Mm.Vmm

/-!
# The program loader: `src/kernel/elf_load.c`

A program is a file in memory: a header, a table of program headers, and somewhere in the
file the bytes of the segments. Every access to the file is noted down, with where it ends
and how long the file is. The file is not in the memory that the loader changes.
-/

namespace VnlKernel

open ByteMem Bits

variable {σ : Type}

/-- What `vmm_map_in_pml4` is asked for in every user page. -/
def userPageFlags : Nat := vmmFlagPresent ||| vmmFlagWrite ||| vmmFlagUser

/-- The loop that gives `n` pages from `va` on a frame each, a cleared one; false when memory ran
out. It stands in the loader, and in `SYS_BRK`, `SYS_MMAP` and `SYS_EXECVE`. -/
def mapFreshPages (fs : FrameService σ) (pml4Phys : Nat) : Nat → Nat → σ → Outcome (σ × Bool)
  | 0, _, s => .done (s, true)
  | n + 1, va, s =>
      let (s, frame) := fs.alloc s
      if frame = 0 then .done (s, false)
      else do
        let s ← vmmMapInPml4 fs (fs.setPhys s (memset (fs.phys s) frame 0 pageSize)) pml4Phys va frame userPageFlags
        mapFreshPages fs pml4Phys n (u64 (va + pageSize)) s

/-- `vnl_copy_to_user_va`, with `n` bytes left, the next of them byte `i`. It ends at a byte that is
not mapped, and does not say so. -/
def vnlCopyToUserVa {E : Type} (fs : FrameService σ) (pml4 dstVa : Nat) (src : Nat → Logged E UInt8) :
    Nat → Nat → σ → Logged E σ
  | 0, _, s => pure s
  | n + 1, i, s =>
      let pa := vmmLookupPhysPml4 (fs.phys s) pml4 (u64 (dstVa + i))
      if pa = 0 then pure s
      else do
        let c ← src i
        vnlCopyToUserVa fs pml4 dstVa src n (i + 1) (fs.setPhys s (setByte (fs.phys s) pa c))

/-- `sizeof(Elf64_Ehdr)`. -/
def elf64EhdrSize : Nat := 64

/-- `sizeof(Elf64_Phdr)`. -/
def elf64PhdrSize : Nat := 56

/-- `PT_LOAD`. -/
def ptLoad : Nat := 1

/-- `ET_EXEC`. -/
def etExec : Nat := 2

/-- `EM_X86_64`. -/
def emX8664 : Nat := 62

/-- `Elf64_Ehdr`, what the loader looks at. -/
structure Elf64Ehdr where
  eIdent : List UInt8
  eType : Nat
  eMachine : Nat
  eEntry : Nat
  ePhoff : Nat
  ePhentsize : Nat
  ePhnum : Nat

def elf64Ehdr (elf : Mem) : Elf64Ehdr where
  eIdent := (List.range 5).map elf
  eType := readLE elf 16 2
  eMachine := readLE elf 18 2
  eEntry := read64 elf 24
  ePhoff := read64 elf 32
  ePhentsize := readLE elf 54 2
  ePhnum := readLE elf 56 2

/-- `Elf64_Phdr`, what the loader looks at. -/
structure Elf64Phdr where
  pType : Nat
  pOffset : Nat
  pVaddr : Nat
  pFilesz : Nat
  pMemsz : Nat

def elf64Phdr (elf : Mem) (off : Nat) : Elf64Phdr where
  pType := readLE elf off 4
  pOffset := read64 elf (off + 8)
  pVaddr := read64 elf (off + 16)
  pFilesz := read64 elf (off + 32)
  pMemsz := read64 elf (off + 40)

/-- Where the program header `i` is in the file. -/
def phdrAt (eh : Elf64Ehdr) (i : Nat) : Nat := u64 (eh.ePhoff + i * eh.ePhentsize)

/-- The checks of the header: 64 bits, an executable for this machine, and a table that fits. -/
def ehdrValid (eh : Elf64Ehdr) (elfLen : Nat) : Bool :=
  eh.eIdent = [0x7F, 0x45, 0x4C, 0x46, 2] && eh.eType = etExec && eh.eMachine = emX8664
    && eh.ePhentsize = elf64PhdrSize && eh.ePhnum ≠ 0 && u64 (eh.ePhoff + eh.ePhnum * elf64PhdrSize) ≤ elfLen

/-- One segment: its pages, then its bytes from the file; zero or a negative error number. -/
def elfLoadSegment (fs : FrameService σ) (pml4Phys : Nat) (elf : Mem) (elfLen : Nat) (ph : Elf64Phdr) (s : σ) :
    Logged Access (σ × Int) := do
  let v0 := alignDown ph.pVaddr pageSize
  let v1 := alignUpPage (u64 (ph.pVaddr + ph.pMemsz))
  if v1 < v0 then return (s, -einval)
  let (s, mapped) ← .lift (mapFreshPages fs pml4Phys ((v1 - v0) / pageSize) v0 s)
  if !mapped then return (s, -enomem)
  if elfLen < u64 (ph.pOffset + ph.pFilesz) then return (s, -enoexec)
  let s ← vnlCopyToUserVa fs pml4Phys ph.pVaddr (fun i => do
    .note (.span (u64 (ph.pOffset + i) + 1) elfLen)
    return elf (u64 (ph.pOffset + i))) ph.pFilesz 0 s
  return (s, 0)

/-- The loop over the program headers, with `n` left; the end of the highest segment. -/
def elfLoadLoop (fs : FrameService σ) (pml4Phys : Nat) (elf : Mem) (elfLen : Nat) (eh : Elf64Ehdr) :
    Nat → Nat → Nat → σ → Logged Access (σ × Except Int Nat)
  | 0, _, maxEnd, s => pure (s, .ok maxEnd)
  | n + 1, i, maxEnd, s => do
      .note (.span (phdrAt eh i + elf64PhdrSize) elfLen)
      let ph := elf64Phdr elf (phdrAt eh i)
      if ph.pType ≠ ptLoad then elfLoadLoop fs pml4Phys elf elfLen eh n (i + 1) maxEnd s
      else
        let (s, r) ← elfLoadSegment fs pml4Phys elf elfLen ph s
        if r ≠ 0 then return (s, .error r)
        elfLoadLoop fs pml4Phys elf elfLen eh n (i + 1) (max maxEnd (u64 (ph.pVaddr + ph.pMemsz))) s

/-- `elf_load_exec`: an error number, or the entry point and where the heap begins. -/
def elfLoadExec (fs : FrameService σ) (pml4Phys : Nat) (elf : Mem) (elfLen : Nat) (s : σ) :
    Logged Access (σ × Except Int (Nat × Nat)) := do
  if elfLen < elf64EhdrSize then return (s, .error (-enoexec))
  .note (.span elf64EhdrSize elfLen)
  let eh := elf64Ehdr elf
  if !ehdrValid eh elfLen then return (s, .error (-enoexec))
  let (s, r) ← elfLoadLoop fs pml4Phys elf elfLen eh eh.ePhnum 0 0 s
  return (s, r.map fun maxEnd => (eh.eEntry, alignUpPage maxEnd))

end VnlKernel
