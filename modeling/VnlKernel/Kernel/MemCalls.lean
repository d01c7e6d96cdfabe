import VnlKernel.Fs.Vfs
import VnlKernel.Kernel.ElfLoad

/-!
# A program's memory: `SYS_BRK` and `SYS_MMAP` of `src/kernel/syscall.c`

The heap ends at `brk_end` and grows page by page; other memory is mapped from a cursor on,
or where the program says. Either takes fresh frames, or shows the frames of a device: the
screen, or an object of shared memory. What can go wrong is noticed between these steps.
-/

namespace VnlKernel

open Bits

/-- `Task`, what it says of the program's memory. -/
structure TaskMem where
  cr3Phys : Nat
  brkStart : Nat
  brkEnd : Nat
  mmapNext : Nat
deriving DecidableEq

/-- `VNL_MAP_FIXED`. -/
def vnlMapFixed : Nat := 0x10

/-- `VNL_MAP_ANONYMOUS`. -/
def vnlMapAnonymous : Nat := 0x20

variable {σ : Type}

/-- `SYS_BRK`. -/
def sysBrk (fs : FrameService σ) (s : σ) (t : TaskMem) (nb : Nat) : Outcome (σ × TaskMem × Int) :=
  if t.brkStart = 0 ∧ t.brkEnd = 0 then .done (s, t, if nb = 0 then 0 else -enomem)
  else if nb = 0 then .done (s, t, toInt64 t.brkEnd)
  else if nb < t.brkStart then .done (s, t, toInt64 t.brkEnd)
  else do
    let oldPg := alignUpPage t.brkEnd
    let newPg := alignUpPage nb
    let (s, all) ← mapFreshPages fs t.cr3Phys ((newPg - oldPg) / pageSize) oldPg s
    if all then return (s, { t with brkEnd := nb }, toInt64 nb)
    else return (s, t, toInt64 t.brkEnd)

/-- The loops of `SYS_MMAP` over the pages of a device, with `n` pages left; false at a page that
there is not. -/
def mapDevicePages (fs : FrameService σ) (pml4Phys va : Nat) (page : Nat → Option Nat) :
    Nat → Nat → σ → Outcome (σ × Bool)
  | 0, _, s => .done (s, true)
  | n + 1, i, s =>
      match page i with
      | none => .done (s, false)
      | some phys => do
          let s ← vmmMapInPml4 fs s pml4Phys (u64 (va + i * pageSize)) phys userPageFlags
          mapDevicePages fs pml4Phys va page n (i + 1) s

/-- A page of the screen. -/
def fbPage (r : FbRegion) (i : Nat) : Option Nat := some (u64 (r.physStart + i * pageSize))

/-- A page of an object of shared memory, from an offset on. -/
def shmPage (t : ShmTable) (idx : Int) (off : Int) (i : Nat) : Option Nat :=
  let phys := shmGetPagePhys t idx (u64 (toU64 off + i * pageSize))
  if phys = 0 then none else some phys

/-- `SYS_MMAP`; the protection that is asked for is ignored. -/
def sysMmap (fs : FrameService σ) (fb : Option FbRegion) (v : Vfs σ) (t : TaskMem) (addr len flags : Nat)
    (fd off : Int) : Outcome (Vfs σ × TaskMem × Int) :=
  if len = 0 ∨ len > 64 * 1024 * 1024 then .done (v, t, -einval)
  else
    let mapLen := alignUpPage len
    let fixed := hasFlag flags vnlMapFixed
    let va := if fixed then alignDown addr pageSize else t.mmapNext
    let t := if fixed then t else { t with mmapNext := u64 (t.mmapNext + mapLen) }
    if hasFlag flags vnlMapAnonymous then
      if off ≠ 0 then .done (v, t, -einval)
      else do
        let (s, all) ← mapFreshPages fs t.cr3Phys (mapLen / pageSize) va v.heap.pages
        return (v.setFrames s, t, if all then toInt64 va else -enomem)
    else if fd < 0 then .done (v, t, -ebadf)
    else
      match vfsNodeFromFd v fd with
      | none => .done (v, t, -enodev)
      | some slot =>
          let fn := v.nodes slot
          if fn.type ≠ .chr then .done (v, t, -enodev)
          else if fn.devMajor = devFbMajor then
            match fb with
            | none => .done (v, t, -enodev)
            | some r =>
                if off ≠ 0 then .done (v, t, -einval)
                else do
                  let fileMap := if len > r.byteLen then r.byteLen else len
                  let (s, _) ← mapDevicePages fs t.cr3Phys va (fbPage r) (alignUpPage fileMap / pageSize) 0
                    v.heap.pages
                  return (v.setFrames s, t, toInt64 va)
          else if fn.devMajor = devShmMajor then do
            let (s, all) ← mapDevicePages fs t.cr3Phys va (shmPage v.shm fn.devMinor off)
              (alignUpPage len / pageSize) 0 v.heap.pages
            return (v.setFrames s, t, if all then toInt64 va else -einval)
          else .done (v, t, -enodev)

end VnlKernel
