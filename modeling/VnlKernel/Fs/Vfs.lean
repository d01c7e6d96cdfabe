import VnlKernel.Kernel.Shm

/-!
# The file system: `src/fs/vfs.c` and `src/fs/devfs.c`

A flat table of nodes in which the tree is spelled out by parent inode numbers, and
one table of open descriptors for the whole kernel. Paths are read twice by two
different parsers: `vfs_resolve` walks them component by component, and
`resolve_parent` cuts them at the last slash.

File contents live in heap blocks, so a call may halt the machine for want of
memory: operations that touch the heap return an `Outcome`. What a caller passes in
or gets back through a buffer is a function from index to byte with a length beside
it, and every transfer says which indices of the file it touched.
-/

namespace VnlKernel

open ByteMem Bits

def vfsNameMax : Nat := 64
def vfsMaxNodes : Nat := 256
def vfsMaxFds : Nat := 64
def vfsInodeRoot : Nat := 0

def vfsORead : Nat := 1
def vfsOWrite : Nat := 2
def vfsOCreate : Nat := 4
def vfsOTrunc : Nat := 8
def vfsORdwr : Nat := vfsORead ||| vfsOWrite

def devFbMajor : Nat := 29
def devNullMajor : Nat := 1
def devShmMajor : Nat := 24
def devKeyboardMajor : Nat := 11
def devMouseMajor : Nat := 12
def devSerialMajor : Nat := 4

/-- `flags & bit`. -/
def hasFlag (flags bit : Nat) : Bool := flags &&& bit ≠ 0

inductive VFSNodeType where
  | file
  | dir
  | chr
deriving DecidableEq

structure VFSNode where
  used : Bool
  type : VFSNodeType
  inode : Nat
  parent : Nat
  devMajor : Nat
  devMinor : Nat
  name : CStr
  data : Nat
  size : Nat
  capacity : Nat
deriving DecidableEq

def VFSNode.zero : VFSNode := ⟨false, .file, 0, 0, 0, 0, [], 0, 0, 0⟩

structure FDEntry where
  isOpen : Bool
  inode : Nat
  offset : Nat
  flags : Nat
deriving DecidableEq

def FDEntry.zero : FDEntry := ⟨false, 0, 0, 0⟩

/-- The file's static variables, the shared memory table, and the heap. -/
structure Vfs (σ : Type) where
  nodes : Nat → VFSNode
  nextInode : Nat
  cwd : Nat
  fds : Nat → FDEntry
  shm : ShmTable
  heap : Heap σ

variable {σ : Type}

def Vfs.setNode (v : Vfs σ) (i : Nat) (n : VFSNode) : Vfs σ :=
  { v with nodes := fun j => if j = i then n else v.nodes j }

def Vfs.setFd (v : Vfs σ) (i : Nat) (e : FDEntry) : Vfs σ :=
  { v with fds := fun j => if j = i then e else v.fds j }

/-- The frames below, after a call into shared memory. -/
def Vfs.setFrames (v : Vfs σ) (s : σ) : Vfs σ := { v with heap := { v.heap with pages := s } }

/-! ## Finding nodes -/

/-- `node_get`: the slot of a node. -/
def nodeGet (v : Vfs σ) (inode : Nat) : Option Nat :=
  Scan.first (fun i => (v.nodes i).used && (v.nodes i).inode = inode) vfsMaxNodes 0

/-- `node_alloc`: a free slot. The caller fills a zeroed node in. -/
def nodeAlloc (v : Vfs σ) : Option Nat :=
  Scan.first (fun i => !(v.nodes i).used) vfsMaxNodes 0

/-- The slot of the first child of `cur` with this name. -/
def findChild (v : Vfs σ) (cur : Nat) (name : CStr) : Option Nat :=
  Scan.first (fun i => (v.nodes i).used && (v.nodes i).parent = cur && (v.nodes i).name = name)
    vfsMaxNodes 0

def slash : UInt8 := 0x2F

def dot : CStr := [0x2E]

def dotdot : CStr := [0x2E, 0x2E]

/-- At most `n` bytes up to the next slash, and the rest. -/
def takeComponent : Nat → CStr → CStr × CStr
  | 0, path => ([], path)
  | _ + 1, [] => ([], [])
  | n + 1, c :: path =>
      if c = slash then ([], c :: path)
      else
        let (comp, rest) := takeComponent n path
        (c :: comp, rest)

/-- Skip one slash. -/
def skipSlash : CStr → CStr
  | [] => []
  | c :: path => if c = slash then path else c :: path

/-- The loop of `vfs_resolve`. Every turn consumes a byte, so the length of the path is fuel enough;
the inode reached, or nothing. -/
def resolveLoop (v : Vfs σ) : Nat → Nat → CStr → Option Nat
  | _, cur, [] => some cur
  | 0, _, _ :: _ => none
  | fuel + 1, cur, c :: path =>
      let (component, rest) := takeComponent (vfsNameMax - 1) (c :: path)
      let rest := skipSlash rest
      if component = dot then resolveLoop v fuel cur rest
      else if component = dotdot then
        match nodeGet v cur with
        | some i => resolveLoop v fuel (v.nodes i).parent rest
        | none => resolveLoop v fuel cur rest
      else
        match findChild v cur component with
        | some i => resolveLoop v fuel (v.nodes i).inode rest
        | none => none

def vfsResolve (v : Vfs σ) (path : CStr) : Int :=
  match path with
  | [] => toInt32 v.cwd
  | c :: rest =>
      let (cur, path) := if c = slash then (vfsInodeRoot, rest) else (v.cwd, c :: rest)
      match resolveLoop v path.length cur path with
      | some inode => toInt32 inode
      | none => -1

/-- The position of the last slash. -/
def lastSlash : CStr → Option Nat
  | [] => none
  | c :: path =>
      match lastSlash path with
      | some k => some (k + 1)
      | none => if c = slash then some 0 else none

/-- `resolve_parent`: the parent's inode or a negative number, and the leaf. -/
def resolveParent (v : Vfs σ) (path : CStr) : Int × CStr :=
  match lastSlash path with
  | none => (toInt32 v.cwd, path.take (vfsNameMax - 1))
  | some plen =>
      let parentPath := if plen = 0 then [slash] else path.take (if plen ≥ 256 then 255 else plen)
      (vfsResolve v parentPath, (path.drop (plen + 1)).take (vfsNameMax - 1))

/-! ## Creating and removing -/

/-- What the three creating calls do once they have a parent and a leaf: check the parent, take a
slot and fill it in. -/
def createNode (v : Vfs σ) (parent : Int) (leaf : CStr) (type : VFSNodeType) (major minor : Nat) :
    Option (Vfs σ × Nat) :=
  match nodeGet v (toU32 parent) with
  | none => none
  | some p =>
      if (v.nodes p).type ≠ .dir then none
      else
        match nodeAlloc v with
        | none => none
        | some i =>
            let node : VFSNode :=
              { VFSNode.zero with
                used := true, type := type, inode := v.nextInode, parent := toU32 parent,
                devMajor := major, devMinor := minor, name := leaf.take (vfsNameMax - 1) }
            let v := v.setNode i node
            some ({ v with nextInode := u32 (v.nextInode + 1) }, node.inode)

/-- What `vfs_mkdir` and `vfs_mknod_chr` share. -/
def makeNode (v : Vfs σ) (path : CStr) (type : VFSNodeType) (major minor : Nat) : Vfs σ × Int :=
  if vfsResolve v path ≥ 0 then (v, -1)
  else
    let (parent, leaf) := resolveParent v path
    if parent < 0 ∨ leaf = [] then (v, -1)
    else
      match createNode v parent leaf type major minor with
      | none => (v, -1)
      | some (v, _) => (v, 0)

def vfsMkdir (v : Vfs σ) (path : CStr) : Vfs σ × Int := makeNode v path .dir 0 0

def vfsMknodChr (v : Vfs σ) (path : CStr) (major minor : Nat) : Vfs σ × Int :=
  makeNode v path .chr (major % 2 ^ 16) (minor % 2 ^ 16)

def vfsUnlink (fs : FrameService σ) (v : Vfs σ) (path : CStr) : Outcome (Vfs σ × Int) :=
  let inode := vfsResolve v path
  if inode < 0 then .done (v, -1)
  else if toU32 inode = vfsInodeRoot then .done (v, -1)
  else
    match nodeGet v (toU32 inode) with
    | none => .done (v, -1)
    | some i =>
        let n := v.nodes i
        -- refuse to remove a non-empty directory
        if n.type = .dir ∧
            (Scan.first (fun j => (v.nodes j).used && (v.nodes j).parent = toU32 inode)
              vfsMaxNodes 0).isSome then .done (v, -1)
        else do
          let v :=
            if n.type = .chr ∧ n.devMajor = devShmMajor then
              let (s, shm) := shmDestroy fs v.heap.pages v.shm n.devMinor
              { v.setFrames s with shm := shm }
            else v
          let heap ← kfree v.heap n.data
          return ({ v.setNode i .zero with heap := heap }, 0)

/-! ## Descriptors -/

/-- The first free descriptor from 3 on. -/
def freeFd (v : Vfs σ) : Option Nat :=
  Scan.first (fun i => !(v.fds i).isOpen) (vfsMaxFds - 3) 3

/-- Is `fd` an open descriptor? -/
def fdOpen (v : Vfs σ) (fd : Int) : Bool :=
  0 ≤ fd && fd < vfsMaxFds && (v.fds fd.toNat).isOpen

/-- The text `"/dev/shm/"`. -/
def devShmPrefix : CStr := [0x2F, 0x64, 0x65, 0x76, 0x2F, 0x73, 0x68, 0x6D, 0x2F]

/-- The first part of `vfs_open`: find the inode, by way of shared memory if the path says so. On an
early return, the result. -/
def openLookup (v : Vfs σ) (path : CStr) (flags : Nat) : Vfs σ × (Int ⊕ Int) :=
  if path.take 9 = devShmPrefix then
    let (shm, idx) := shmOpenObject v.shm (path.drop 9)
    if idx < 0 then (v, .inr idx)
    else
      let v := { v with shm := shm }
      let inode := vfsResolve v path
      if inode < 0 then
        if !hasFlag flags vfsOCreate then (v, .inr (-1))
        else
          let (v, r) := vfsMknodChr v path devShmMajor idx.toNat
          if r < 0 then (v, .inr (-1)) else (v, .inl (vfsResolve v path))
      else (v, .inl inode)
  else (v, .inl (vfsResolve v path))

/-- The second part: create the file if it is not there. -/
def openCreate (v : Vfs σ) (path : CStr) (flags : Nat) (inode : Int) : Vfs σ × (Int ⊕ Int) :=
  if inode < 0 then
    if !hasFlag flags vfsOCreate then (v, .inr (-1))
    else
      let (parent, leaf) := resolveParent v path
      if parent < 0 then (v, .inr (-1))
      else
        match createNode v parent leaf .file 0 0 with
        | none => (v, .inr (-1))
        | some (v, inode) => (v, .inl (toInt32 inode))
  else (v, .inl inode)

/-- The last part: truncate if asked to, and fill the descriptor in. -/
def openInode (v : Vfs σ) (fd flags : Nat) (inode : Int) : Outcome (Vfs σ × Int) :=
  match nodeGet v (toU32 inode) with
  | none => .done (v, -1)
  | some i =>
      if (v.nodes i).type = .dir then .done (v, -1)
      else do
        let v ←
          if hasFlag flags vfsOTrunc ∧ (v.nodes i).type = .file then do
            let heap ← kfree v.heap (v.nodes i).data
            let v := v.setNode i { v.nodes i with data := 0, size := 0, capacity := 0 }
            pure { v with heap := heap }
          else pure v
        let offset :=
          if hasFlag flags vfsOWrite ∧ !hasFlag flags vfsOTrunc then (v.nodes i).size else 0
        return (v.setFd fd ⟨true, toU32 inode, offset, flags⟩, fd)

def vfsOpen (v : Vfs σ) (path : CStr) (flags : Nat) : Outcome (Vfs σ × Int) :=
  match freeFd v with
  | none => .done (v, -1)
  | some fd =>
      match openLookup v path flags with
      | (v, .inr r) => .done (v, r)
      | (v, .inl inode) =>
          match openCreate v path flags inode with
          | (v, .inr r) => .done (v, r)
          | (v, .inl inode) => openInode v fd flags inode

def vfsOpenStd (v : Vfs σ) (path : CStr) (flags : Nat) (target : Int) : Vfs σ × Int :=
  if target < 0 ∨ target ≥ 3 then (v, -1)
  else if (v.fds target.toNat).isOpen then (v, -1)
  else
    let inode := vfsResolve v path
    if inode < 0 then (v, -1)
    else
      match nodeGet v (toU32 inode) with
      | none => (v, -1)
      | some i =>
          if (v.nodes i).type = .dir then (v, -1)
          else (v.setFd target.toNat ⟨true, toU32 inode, 0, flags⟩, target)

def vfsClose (v : Vfs σ) (fd : Int) : Vfs σ × Int :=
  if !fdOpen v fd then (v, -1)
  else (v.setFd fd.toNat { v.fds fd.toNat with isOpen := false }, 0)

def vfsDup (v : Vfs σ) (oldfd : Int) : Vfs σ × Int :=
  if !fdOpen v oldfd then (v, -ebadf)
  else
    match freeFd v with
    | none => (v, -emfile)
    | some newfd => (v.setFd newfd (v.fds oldfd.toNat), newfd)

def vfsDup2 (v : Vfs σ) (oldfd newfd : Int) : Vfs σ × Int :=
  if !fdOpen v oldfd then (v, -ebadf)
  else if newfd < 0 ∨ newfd ≥ vfsMaxFds then (v, -ebadf)
  else if oldfd = newfd then (v, newfd)
  else (v.setFd newfd.toNat (v.fds oldfd.toNat), newfd)

def vfsSetCwd (v : Vfs σ) (inode : Nat) : Vfs σ := { v with cwd := inode }

/-- `vfs_node_from_fd`: the slot of the node behind a descriptor. -/
def vfsNodeFromFd (v : Vfs σ) (fd : Int) : Option Nat :=
  if !fdOpen v fd then none else nodeGet v (v.fds fd.toNat).inode

def vfsLseek (v : Vfs σ) (fd offset whence : Int) : Vfs σ × Int :=
  match vfsNodeFromFd v fd with
  | none => (v, -ebadf)
  | some i =>
      let n := v.nodes i
      if n.type = .chr then (v, 0)
      else
        let e := v.fds fd.toNat
        let target : Option Int :=
          if whence = 0 then some offset
          else if whence = 1 then some (toInt64 (toU64 (toInt64 e.offset + offset)))
          else if whence = 2 then some (toInt64 (toU64 (toInt64 n.size + offset)))
          else none
        match target with
        | none => (v, -einval)
        | some pos =>
            if pos < 0 then (v, -einval)
            else (v.setFd fd.toNat { e with offset := toU64 pos }, pos)

def vfsFcntl (v : Vfs σ) (fd cmd : Int) (arg : Nat) : Vfs σ × Int :=
  if !fdOpen v fd then (v, -ebadf)
  else if cmd = 3 then (v, toInt32 (v.fds fd.toNat).flags)
  else if cmd = 4 then (v.setFd fd.toNat { v.fds fd.toNat with flags := arg % 2 ^ 32 }, 0)
  else (v, -einval)

/-! ## Reading and writing -/

/-- What a transfer came to: its result, the indices of the file it touched, `len` of them from `lo`
on, and for a read the bytes it delivered. -/
structure Xfer where
  ret : Int
  lo : Nat
  len : Nat
  bytes : Nat → UInt8

def Xfer.fail (r : Int) : Xfer := ⟨r, 0, 0, fun _ => 0⟩

/-- What the input drivers hold: for a device and a length, the result and the bytes of a read. -/
def DevInput := Nat → Nat → Int × (Nat → UInt8)

/-- `devfs_chr_read`: the result, the offset afterwards, and the bytes delivered. -/
def devfsChrRead (fs : FrameService σ) (v : Vfs σ) (input : DevInput) (n : VFSNode) (len off : Nat) :
    Int × Nat × (Nat → UInt8) :=
  if n.devMajor = devNullMajor ∨ n.devMajor = devFbMajor then (0, off, fun _ => 0)
  else if n.devMajor = devShmMajor then shmRead (fs.phys v.heap.pages) v.shm n.devMinor len off
  else if n.devMajor = devMouseMajor ∧ len < 3 then (-einval, off, fun _ => 0)
  else if n.devMajor = devKeyboardMajor ∨ n.devMajor = devMouseMajor
      ∨ n.devMajor = devSerialMajor then
    let (r, bytes) := input n.devMajor len
    (r, off, bytes)
  else (-enodev, off, fun _ => 0)

/-- `devfs_chr_write`: the state, the result, and the offset afterwards. -/
def devfsChrWrite (fs : FrameService σ) (v : Vfs σ) (n : VFSNode) (buf : Nat → UInt8)
    (len off : Nat) : Vfs σ × Int × Nat :=
  if n.devMajor = devNullMajor ∨ n.devMajor = devSerialMajor then (v, toInt32 len, off)
  else if n.devMajor = devFbMajor then (v, -einval, off)
  else if n.devMajor = devShmMajor then
    let (s, shm, r, off) := shmWrite fs v.heap.pages v.shm n.devMinor buf len off
    ({ v.setFrames s with shm := shm }, r, off)
  else (v, -enodev, off)

/-- `memcpy(dst, buf, len)` from a caller's buffer. -/
def copyIn (m : Mem) (dst : Nat) (buf : Nat → UInt8) (len : Nat) : Mem :=
  fun x => if dst ≤ x ∧ x < dst + len then buf (x - dst) else m x

def vfsRead (fs : FrameService σ) (v : Vfs σ) (input : DevInput) (fd : Int) (len : Nat) :
    Vfs σ × Xfer :=
  if !fdOpen v fd then (v, .fail (-1))
  else
    let e := v.fds fd.toNat
    if !hasFlag e.flags vfsORead then (v, .fail (-1))
    else
      match nodeGet v e.inode with
      | none => (v, .fail (-1))
      | some i =>
          let n := v.nodes i
          if n.type = .chr then
            let (r, off, bytes) := devfsChrRead fs v input n len e.offset
            (v.setFd fd.toNat { e with offset := off }, ⟨r, 0, 0, bytes⟩)
          else
            let avail := sub64 n.size e.offset
            if avail = 0 then (v, ⟨0, e.offset, 0, fun _ => 0⟩)
            else
              let toRead := if len < avail then len else avail
              let src := u64 (n.data + e.offset)
              (v.setFd fd.toNat { e with offset := u64 (e.offset + toRead) },
                ⟨toInt32 toRead, e.offset, toRead, fun k => v.heap.mem (src + k)⟩)

def vfsWrite (fs : FrameService σ) (fuel : Nat) (v : Vfs σ) (fd : Int) (buf : Nat → UInt8)
    (len : Nat) : Outcome (Vfs σ × Xfer) :=
  if !fdOpen v fd then .done (v, .fail (-1))
  else
    let e := v.fds fd.toNat
    if !hasFlag e.flags vfsOWrite then .done (v, .fail (-1))
    else
      match nodeGet v e.inode with
      | none => .done (v, .fail (-1))
      | some i =>
          if (v.nodes i).type = .chr then
            let (v, r, off) := devfsChrWrite fs v (v.nodes i) buf len e.offset
            .done (v.setFd fd.toNat { e with offset := off }, .fail r)
          else if (v.nodes i).type ≠ .file then .done (v, .fail (-1))
          else do
            let newEnd := u64 (e.offset + len)
            let grown ←
              if newEnd > (v.nodes i).capacity then do
                let newCap := u64 (newEnd + 256)
                let (heap, newData) ← krealloc fs.toPager fuel v.heap (v.nodes i).data newCap
                let v := { v with heap := heap }
                if newData = 0 then pure (v, false)
                else
                  pure (v.setNode i { v.nodes i with data := newData, capacity := newCap }, true)
              else pure (v, true)
            if !grown.2 then return (grown.1, .fail (-1))
            let v := grown.1
            let n := v.nodes i
            let dst := u64 (n.data + e.offset)
            let v := { v with heap := { v.heap with mem := copyIn v.heap.mem dst buf len } }
            let offset := u64 (e.offset + len)
            let v := v.setFd fd.toNat { e with offset := offset }
            let v := if offset > n.size then v.setNode i { n with size := offset } else v
            return (v, ⟨toInt32 len, e.offset, len, buf⟩)

def vfsFtruncate (fs : FrameService σ) (fuel : Nat) (v : Vfs σ) (fd length : Int) :
    Outcome (Vfs σ × Int) :=
  match vfsNodeFromFd v fd with
  | none => .done (v, -ebadf)
  | some i =>
      let n := v.nodes i
      if n.type = .chr ∧ n.devMajor = devShmMajor then
        let (s, shm, r) := shmTruncate fs v.heap.pages v.shm n.devMinor (toU64 length)
        .done ({ v.setFrames s with shm := shm }, r)
      else if n.type = .file then
        if length < 0 then .done (v, -einval)
        else if toU64 length > n.capacity then do
          let newCap := alignUpPage (u64 (toU64 length + 256))
          let (heap, newData) ← krealloc fs.toPager fuel v.heap n.data newCap
          let v := { v with heap := heap }
          if newData = 0 then return (v, -enomem)
          return (v.setNode i { n with data := newData, capacity := newCap, size := toU64 length }, 0)
        else .done (v.setNode i { n with size := toU64 length }, 0)
      else .done (v, -einval)

/-! ## Device control -/

/-- What `fb_get_mmap_region` reports of the screen, when there is one. -/
structure FbRegion where
  physStart : Nat
  byteLen : Nat
  lineLength : Nat
  width : Nat
  height : Nat
  bpp : Nat

/-- `fb_fix_screeninfo`, less the fields that stay zero. -/
structure FbFixScreeninfo where
  id : CStr
  smemStart : Nat
  smemLen : Nat
  type : Nat
  visual : Nat
  lineLength : Nat
deriving DecidableEq

/-- `fb_var_screeninfo`, less the fields that stay zero. -/
structure FbVarScreeninfo where
  xres : Nat
  yres : Nat
  xresVirtual : Nat
  yresVirtual : Nat
  bitsPerPixel : Nat
  redOffset : Nat
  redLength : Nat
  greenOffset : Nat
  greenLength : Nat
  blueOffset : Nat
  blueLength : Nat
deriving DecidableEq

/-- What is left at the caller's address. -/
inductive ScreenInfo where
  | untouched
  | fix (info : FbFixScreeninfo)
  | var (info : FbVarScreeninfo)
deriving DecidableEq

def fbiogetVscreeninfo : Nat := 0x4600
def fbiogetFscreeninfo : Nat := 0x4602

/-- The text `"VNLFB"`. -/
def fbId : CStr := [0x56, 0x4E, 0x4C, 0x46, 0x42]

def devfsChrIoctl (fb : Option FbRegion) (n : VFSNode) (request arg : Nat) : Int × ScreenInfo :=
  if n.type ≠ .chr ∨ arg = 0 then (-einval, .untouched)
  else if n.devMajor ≠ devFbMajor then (-enotty, .untouched)
  else if request = fbiogetFscreeninfo then
    match fb with
    | none => (-enodev, .fix ⟨fbId, 0, 0, 0, 0, 0⟩)
    | some r =>
        (0, .fix ⟨fbId, r.physStart, if r.byteLen > 0xFFFFFFFF then 0xFFFFFFFF else r.byteLen, 1, 2,
          r.lineLength⟩)
  else if request = fbiogetVscreeninfo then
    match fb with
    | none => (-enodev, .var ⟨0, 0, 0, 0, 0, 0, 0, 0, 0, 0, 0⟩)
    | some r => (0, .var ⟨r.width, r.height, r.width, r.height, r.bpp, 16, 8, 8, 8, 0, 8⟩)
  else (-enotty, .untouched)

def vfsIoctl (fb : Option FbRegion) (v : Vfs σ) (fd : Int) (request arg : Nat) : Int × ScreenInfo :=
  if !fdOpen v fd then (-ebadf, .untouched)
  else
    match nodeGet v (v.fds fd.toNat).inode with
    | none => (-enotty, .untouched)
    | some i =>
        if (v.nodes i).type ≠ .chr then (-enotty, .untouched)
        else devfsChrIoctl fb (v.nodes i) request arg

/-! ## Starting -/

/-- Make directories, ignoring the results. -/
def mkdirs (v : Vfs σ) : List CStr → Vfs σ
  | [] => v
  | p :: ps => mkdirs (vfsMkdir v p).1 ps

/-- `vfs_init`; the working directory and shared memory are left as they are. -/
def vfsInit (cwd : Nat) (shm : ShmTable) (heap : Heap σ) : Vfs σ :=
  let root : VFSNode := { VFSNode.zero with used := true, type := .dir, name := [slash] }
  mkdirs
    { nodes := fun i => if i = 0 then root else .zero
      nextInode := 1
      cwd := cwd
      fds := fun _ => .zero
      shm := shm
      heap := heap }
    [cstr "/bin", cstr "/etc", cstr "/tmp", cstr "/home", cstr "/usr", cstr "/usr/bin", cstr "/var",
      cstr "/var/cache"]

/-- Make character devices, ignoring the results. -/
def mknods (v : Vfs σ) : List (CStr × Nat × Nat) → Vfs σ
  | [] => v
  | (p, major, minor) :: ps => mknods (vfsMknodChr v p major minor).1 ps

def devfsInit (v : Vfs σ) : Vfs σ :=
  let v := if vfsResolve v (cstr "/dev") < 0 then (vfsMkdir v (cstr "/dev")).1 else v
  let v := mkdirs v [cstr "/dev/shm", cstr "/dev/input"]
  mknods v
    [(cstr "/dev/fb0", devFbMajor, 0), (cstr "/dev/null", devNullMajor, 3),
      (cstr "/dev/input/keyboard", devKeyboardMajor, 0), (cstr "/dev/input/mouse", devMouseMajor, 0),
      (cstr "/dev/ttyS0", devSerialMajor, 0)]

end VnlKernel
