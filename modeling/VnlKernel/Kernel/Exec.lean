import VnlKernel.Kernel.MemCalls
import VnlKernel.Kernel.Uaccess
import VnlKernel.Lib.CString

/-!
# Another program in a task: `SYS_EXECVE` of `src/kernel/syscall.c`

The file is read into a buffer of the heap, a root is made, the loader fills it from the
buffer, and the stack is mapped. Not before all of that has worked does the task change.
Everything that is allocated in the heap on the way, and given back, is noted down.
-/

namespace VnlKernel

open ByteMem Bits CString

/-- `Registers`: what the stub and the processor have saved of a program. -/
structure Registers where
  gs : Nat
  fs : Nat
  es : Nat
  ds : Nat
  r15 : Nat
  r14 : Nat
  r13 : Nat
  r12 : Nat
  r11 : Nat
  r10 : Nat
  r9 : Nat
  r8 : Nat
  rbp : Nat
  rdi : Nat
  rsi : Nat
  rdx : Nat
  rcx : Nat
  rbx : Nat
  rax : Nat
  intNo : Nat
  errCode : Nat
  rip : Nat
  cs : Nat
  rflags : Nat
  rsp : Nat
  ss : Nat
deriving DecidableEq

/-- What a call does with the heap. -/
inductive HeapCall where
  | kmalloc (p : Nat)
  | kfree (p : Nat)
deriving DecidableEq

/-- `VNL_USER_STACK_BASE`. -/
def vnlUserStackBase : Nat := 0x7F800000

/-- `VNL_USER_STACK_PAGES`. -/
def vnlUserStackPages : Nat := 48

/-- The code segment of a program. -/
def userCs : Nat := 0x1B

/-- How much of a file is read. -/
def execFileMax : Nat := 512 * 1024

variable {σ : Type}

/-- `kmalloc`, noted down. -/
def kmallocLogged (pg : Pager σ) (fuel : Nat) (heap : Heap σ) (size : Nat) : Logged HeapCall (Heap σ × Nat) := do
  let (heap, p) ← .lift (kmalloc pg fuel heap size)
  .note (.kmalloc p)
  return (heap, p)

/-- `kfree`, noted down. -/
def kfreeLogged (heap : Heap σ) (p : Nat) : Logged HeapCall (Heap σ) := do
  .note (.kfree p)
  .lift (kfree heap p)

/-- What there is when the loader is called: a file of `len` bytes at `buf`, and a new root. -/
structure ExecImage (σ : Type) where
  vfs : Vfs σ
  buf : Nat
  len : Nat
  root : Nat

/-- The memory from the buffer on. -/
def ExecImage.elf (im : ExecImage σ) : Mem := fun off => im.vfs.heap.mem (u64 (im.buf + off))

/-- The file is read: the buffer, and how many bytes there are in it. What a device delivers when
its read fails is not looked at. -/
def execRead (fs : FrameService σ) (fuel : Nat) (input : DevInput) (v : Vfs σ) (path : CStr) :
    Logged HeapCall (Except (Vfs σ × Int) (Vfs σ × Nat × Nat)) := do
  let (v, fd) ← .lift (vfsOpen v path vfsORead)
  if fd < 0 then return .error (v, -enoent)
  let (heap, buf) ← kmallocLogged fs.toPager fuel v.heap execFileMax
  let v := { v with heap := heap }
  if buf = 0 then return .error ((vfsClose v fd).1, -enomem)
  let (v, x) := vfsRead fs v input fd execFileMax
  let v := { v with heap := { v.heap with mem := copyIn v.heap.mem buf x.bytes x.ret.toNat } }
  let v := (vfsClose v fd).1
  if x.ret < 64 then
    let heap ← kfreeLogged v.heap buf
    return .error ({ v with heap := heap }, -enoexec)
  return .ok (v, buf, x.ret.toNat)

/-- `SYS_EXECVE` until it calls the loader, or what it returns before that. `path` is what lies
where the path is put. The root that is current is the task's. -/
def execPrepare (fs : FrameService σ) (fuel : Nat) (input : DevInput) (path : Mem) (v : Vfs σ) (t : TaskMem)
    (r : Registers) : Logged HeapCall (Except (Vfs σ × Int) (ExecImage σ)) := do
  if r.cs ≠ userCs then return .error (v, -eperm)
  let (res, path) := copyUserCstring (fs.phys v.heap.pages) t.cr3Phys r.rdi path 256
  if res < 0 then return .error (v, -efault)
  match ← execRead fs fuel input v (strOf path 0 256) with
  | .error e => return .error e
  | .ok (v, buf, n) =>
      let (s, root) := uspaceCreatePml4 fs v.heap.pages t.cr3Phys
      let v := v.setFrames s
      if root = 0 then
        let heap ← kfreeLogged v.heap buf
        return .error ({ v with heap := heap }, -enomem)
      return .ok ⟨v, buf, n, root⟩

/-- The rest: the loader, the stack, and the task. -/
def ExecImage.start (fs : FrameService σ) (im : ExecImage σ) (t : TaskMem) (r : Registers) :
    Logged HeapCall (Vfs σ × TaskMem × Registers × Int) := do
  let (s, loaded) ← .lift (elfLoadExec fs im.root im.elf im.len im.vfs.heap.pages).out
  let v := im.vfs.setFrames s
  match loaded with
  | .error _ =>
      let heap ← kfreeLogged v.heap im.buf
      return ({ v with heap := heap }, t, r, -enoexec)
  | .ok (entry, brk) =>
      let heap ← kfreeLogged v.heap im.buf
      let v := { v with heap := heap }
      let (s, stkOk) ← .lift (mapFreshPages fs im.root vnlUserStackPages vnlUserStackBase v.heap.pages)
      let v := v.setFrames s
      if !stkOk then return (v, t, r, -enomem)
      let sp := vnlUserStackBase + vnlUserStackPages * pageSize - 0x40
      let s ← .lift (vnlCopyToUserVa (E := Empty) fs im.root sp (fun _ => pure 0) 8 0 v.heap.pages).out
      let s ← .lift (vnlCopyToUserVa (E := Empty) fs im.root (sp + 8) (fun _ => pure 0) 8 0 s).out
      return (v.setFrames s, ⟨im.root, brk, brk, 0x40000000⟩, { r with rip := entry, rsp := sp, rdi := 0, rsi := sp + 8 }, 0)

/-- `SYS_EXECVE`, with its result in `rax`; the other arguments are ignored. -/
def sysExecve (fs : FrameService σ) (fuel : Nat) (input : DevInput) (path : Mem) (v : Vfs σ) (t : TaskMem)
    (r : Registers) : Logged HeapCall (Vfs σ × TaskMem × Registers × Int) := do
  match ← execPrepare fs fuel input path v t r with
  | .error (v, e) => return (v, t, { r with rax := toU64 e }, e)
  | .ok im =>
      let (v, t, r, ret) ← im.start fs t r
      return (v, t, { r with rax := toU64 ret }, ret)

end VnlKernel
