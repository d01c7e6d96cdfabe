import VnlKernel.Fs.Dirs
import VnlKernel.Kernel.ElfLoad
import VnlKernel.Kernel.Epoll
import VnlKernel.Kernel.Uaccess
import VnlKernel.Lib.CString

/-!
# System calls that hand something out: `src/kernel/syscall.c`

Each of them makes an object in the kernel's own memory, gives it to `vnl_copy_to_user_va`
with the address that the program named, and returns what it would have returned anyway.
So a call comes in two parts here: what it does until it copies, and the rest, which is the
same for all.
-/

namespace VnlKernel

open ByteMem Bits CString

variable {σ : Type}

/-- A call that is about to copy. One that fails copies nothing. -/
structure CopyOut (σ : Type) where
  net : Net σ
  /-- What it will return. -/
  ret : Int
  dst : Nat
  object : List UInt8
  /-- What it gives to `kfree` afterwards. -/
  kbuf : Nat

def CopyOut.fail (n : Net σ) (e : Int) : CopyOut σ := ⟨n, e, 0, [], 0⟩

def CopyOut.phys (fs : FrameService σ) (c : CopyOut σ) : Mem := fs.phys c.net.vfs.heap.pages

/-- The rest of the call: the copy, and what is left to do. -/
def CopyOut.finish (fs : FrameService σ) (cr3Phys : Nat) (c : CopyOut σ) : Outcome (Net σ × Int) := do
  let heap := c.net.vfs.heap
  let s ← (vnlCopyToUserVa (E := Empty) fs cr3Phys c.dst (fun i => pure (c.object.getD i 0)) c.object.length 0
    heap.pages).out
  let heap ← kfree { heap with pages := s } c.kbuf
  return ({ c.net with vfs := { c.net.vfs with heap := heap } }, c.ret)

/-! ## What the calls hand out -/

def vfsStat (v : Vfs σ) (path : CStr) : Option (VFSNodeType × Nat) :=
  let inode := vfsResolve v path
  if inode < 0 then none
  else
    match nodeGet v (toU32 inode) with
    | none => none
    | some i => some ((v.nodes i).type, (v.nodes i).size)

/-- `st_mode`. -/
def statMode : VFSNodeType → Nat
  | .dir => 0o40000 ||| 0o755
  | .chr => 0o20000 ||| 0o666
  | .file => 0o100000 ||| 0o644

/-- A `struct linux_stat` as `SYS_STAT` and `SYS_FSTAT` fill it in: mode, size, block size and
blocks among zeros. -/
def linuxStat (type : VFSNodeType) (size : Nat) : List UInt8 :=
  List.replicate 24 0 ++ leBytes 4 (statMode type) ++ List.replicate 20 0
    ++ leBytes 8 size ++ leBytes 8 512 ++ leBytes 8 (u64 (size + 511) / 512) ++ List.replicate 48 0

/-- `SYS_STAT` and `SYS_LSTAT`; `path` is what lies where the path is put. -/
def sysStat (fs : FrameService σ) (cr3Phys : Nat) (path : Mem) (n : Net σ) (arg1 arg2 : Nat) : CopyOut σ :=
  let (r, path) := copyUserCstring (fs.phys n.vfs.heap.pages) cr3Phys arg1 path 256
  if r < 0 then .fail n (-efault)
  else
    match vfsStat n.vfs (strOf path 0 256) with
    | none => .fail n (-enoent)
    | some (type, size) => ⟨n, 0, arg2, linuxStat type size, 0⟩

/-- `SYS_FSTAT`. -/
def sysFstat (n : Net σ) (fd : Int) (arg2 : Nat) : CopyOut σ :=
  match vfsNodeFromFd n.vfs fd with
  | none => .fail n (-ebadf)
  | some i => ⟨n, 0, arg2, linuxStat (n.vfs.nodes i).type (n.vfs.nodes i).size, 0⟩

/-- `SYS_GETCWD`; `junk` and `buf` are what lies where the arrays are put. -/
def sysGetcwd (fuel : Nat) (junk : Int → UInt8) (buf : Mem) (n : Net σ) (arg1 arg2 : Nat) :
    Outcome (CopyOut σ) := do
  match ← (vfsGetcwd n.vfs junk fuel (some buf) 256).out with
  | none => return .fail n (-erange)
  | some buf =>
      let len := (strOf buf 0 256).length + 1
      if len > arg2 then return .fail n (-erange)
      return ⟨n, len, arg1, strOf buf 0 256 ++ [0], 0⟩

/-- `SYS_GETDENTS64`. -/
def sysGetdents64 (fs : FrameService σ) (fuel : Nat) (n : Net σ) (fd : Int) (dirp count : Nat) :
    Outcome (CopyOut σ) := do
  let (heap, kbuf) ← kmalloc fs.toPager fuel n.vfs.heap count
  if kbuf = 0 then return .fail { n with vfs := { n.vfs with heap := heap } } (-enomem)
  let heap := { heap with mem := memset heap.mem kbuf 0 count }
  let (v, rDents, out) := vfsGetdents64 { n.vfs with heap := heap } fd count
  let heap := { v.heap with mem := copyIn v.heap.mem kbuf (fun i => out.getD i 0) out.length }
  let n := { n with vfs := { v with heap := heap } }
  if rDents < 0 then return ⟨n, rDents, 0, [], kbuf⟩
  return ⟨n, rDents, dirp, out.take rDents.toNat, kbuf⟩

/-- `SYS_SOCKETPAIR`; the protocol is ignored. -/
def sysSocketpair (n : Net σ) (domain type : Int) (sv : Nat) : CopyOut σ :=
  match unixSocketpair n domain type false with
  | (n, _, r, some (a, b)) => ⟨n, r, sv, leBytes 4 (toU32 a) ++ leBytes 4 (toU32 b), 0⟩
  | (n, _, r, none) => .fail n r

/-- A `struct epoll_event`: the events, a gap, and the data. -/
def epollEventBytes (e : EpollEvent) : List UInt8 := leBytes 4 e.events ++ List.replicate 4 0 ++ leBytes 8 e.data

/-- The end of `sys_epoll_wait`, if there is one. -/
def epollCopyOut (n : Net σ) (eventsPtr : Nat) : EpollReply → Option (CopyOut σ)
  | .sleep _ => none
  | .ret r events =>
      if r > 0 then some ⟨n, r, eventsPtr, (events.map fun e => epollEventBytes e.2).flatten, 0⟩
      else some (.fail n r)

/-! ## All of them -/

/-- A call that hands something out, with its arguments. -/
inductive OutCall where
  /-- Also `SYS_LSTAT`. -/
  | stat (path buf : Nat)
  | fstat (fd : Int) (buf : Nat)
  | getcwd (buf size : Nat)
  | getdents64 (fd : Int) (dirp count : Nat)
  | socketpair (domain type : Int) (sv : Nat)
  | epollWait (epfd : Int) (events : Nat) (maxevents timeout : Int)
  /-- The call before, after it has been asleep. -/
  | epollAgain (w : EpollWait) (events : Nat)

/-- What there is on the kernel's stack before a call. -/
structure StackBytes where
  path : Mem
  buf : Mem
  tmp : Int → UInt8

/-- A call until it copies; none where it has gone to sleep. -/
def OutCall.start (fs : FrameService σ) (fuel : Nat) (junk : StackBytes) (eps : Epolls) (cr3Phys : Nat)
    (n : Net σ) : OutCall → Outcome (Option (CopyOut σ))
  | .stat path buf => .done (some (sysStat fs cr3Phys junk.path n path buf))
  | .fstat fd buf => .done (some (sysFstat n fd buf))
  | .getcwd buf size => do return some (← sysGetcwd fuel junk.tmp junk.buf n buf size)
  | .getdents64 fd dirp count => do return some (← sysGetdents64 fs fuel n fd dirp count)
  | .socketpair domain type sv => .done (some (sysSocketpair n domain type sv))
  | .epollWait epfd events maxevents timeout =>
      .done (epollCopyOut n events (sysEpollWait n eps epfd maxevents timeout))
  | .epollAgain w events => .done (epollCopyOut n events (epollTurn n eps w))

end VnlKernel
