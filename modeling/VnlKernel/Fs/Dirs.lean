import VnlKernel.Fs.Vfs
import VnlKernel.Logged

/-!
# Directories in `src/fs/vfs.c`

Two calls list a directory. `vfs_readdir` takes a path and hands out names, with a slash behind
those of directories; `vfs_getdents64` takes a descriptor and writes records, as many as fit,
and the descriptor's offset counts the records there have been. Either goes through the node
table from front to back.

`vfs_getcwd` goes from the working directory up to the root and builds the path from its end
to its front. What it does with its two arrays is noted down, and indices are integers, since
they may be negative.
-/

namespace VnlKernel

open ByteMem Bits

variable {σ : Type}

/-! ## Listing by path -/

/-- The entry of a node: its name, with a slash behind it where it is a directory and the slash
fits. -/
def readdirName (n : VFSNode) : CStr :=
  let name := n.name.take (vfsNameMax - 1)
  if n.type = .dir ∧ name.length < vfsNameMax - 1 then name ++ [slash] else name

/-- The loop of `vfs_readdir`, over the slots from `i` on. -/
def readdirLoop (v : Vfs σ) (inode : Nat) (max : Int) : Nat → Nat → List CStr → List CStr
  | 0, _, names => names
  | left + 1, i, names =>
      if (names.length : Int) < max then
        let n := v.nodes i
        if n.used ∧ n.parent = inode ∧ n.inode ≠ inode then
          readdirLoop v inode max left (i + 1) (names ++ [readdirName n])
        else readdirLoop v inode max left (i + 1) names
      else names

/-- `vfs_readdir`: the result, and the names. -/
def vfsReaddir (v : Vfs σ) (path : CStr) (max : Int) : Int × List CStr :=
  let inode := vfsResolve v path
  if inode < 0 then (-1, [])
  else
    match nodeGet v (toU32 inode) with
    | none => (-1, [])
    | some d =>
        if (v.nodes d).type ≠ .dir then (-1, [])
        else
          let names := readdirLoop v (toU32 inode) max vfsMaxNodes 0 []
          (names.length, names)

/-! ## Listing by descriptor -/

/-- The low bytes of a number, the lowest first. -/
def leBytes : Nat → Nat → List UInt8
  | 0, _ => []
  | k + 1, v => UInt8.ofNat v :: leBytes k (v / 256)

/-- A `struct dirent` as it is written: inode, offset, length and type, then the name, and zeros up
to the length. -/
def direntBytes (ino off reclen type : Nat) (name : CStr) : List UInt8 :=
  leBytes 8 ino ++ leBytes 8 off ++ leBytes 2 reclen ++ leBytes 1 type ++ name
    ++ List.replicate (reclen - 19 - name.length) 0

/-- `(19 + name_len + 1 + 7) & ~7ULL`. -/
def direntReclen (nameLen : Nat) : Nat := alignDown (19 + nameLen + 1 + 7) 8

def direntType : VFSNodeType → Nat
  | .dir => 4
  | .chr => 2
  | .file => 8

/-- The loop of `vfs_getdents64`, over the slots from `i` on: the offset afterwards, and all that is
written. The first `skip` children have been listed already. -/
def getdentsLoop (v : Vfs σ) (inode count skip : Nat) : Nat → Nat → Nat → Nat → List UInt8 → Nat × List UInt8
  | 0, _, _, off, out => (off, out)
  | left + 1, i, passed, off, out =>
      let n := v.nodes i
      if n.used ∧ n.parent = inode ∧ n.inode ≠ inode then
        if passed < skip then getdentsLoop v inode count skip left (i + 1) (passed + 1) off out
        else
          let reclen := direntReclen n.name.length
          if out.length + reclen > count then (off, out)
          else
            getdentsLoop v inode count skip left (i + 1) (passed + 1) (u64 (off + 1))
              (out ++ direntBytes n.inode (u64 (off + 1)) reclen (direntType n.type) n.name)
      else getdentsLoop v inode count skip left (i + 1) passed off out

/-- `vfs_getdents64`: the result, and the bytes written to the front of the buffer. -/
def vfsGetdents64 (v : Vfs σ) (fd : Int) (count : Nat) : Vfs σ × Int × List UInt8 :=
  if !fdOpen v fd then (v, -ebadf, [])
  else
    let e := v.fds fd.toNat
    match nodeGet v e.inode with
    | none => (v, -enotdir, [])
    | some d =>
        let dir := v.nodes d
        if dir.type ≠ .dir then (v, -enotdir, [])
        else
          let written (off : Nat) (out : List UInt8) : Vfs σ × Int × List UInt8 :=
            (v.setFd fd.toNat { e with offset := off }, toInt32 out.length, out)
          if e.offset = 0 ∧ direntReclen 1 > count then written 0 []
          else
            let (off, out) :=
              if e.offset = 0 then (1, direntBytes dir.inode 1 (direntReclen 1) 4 dot) else (e.offset, [])
            if off = 1 ∧ out.length + direntReclen 2 > count then written off out
            else
              let (off, out) :=
                if off = 1 then (2, out ++ direntBytes dir.parent 2 (direntReclen 2) 4 dotdot)
                else (off, out)
              let (off, out) := getdentsLoop v dir.inode count (off - 2) vfsMaxNodes 0 0 off out
              written off out

/-! ## The working directory's path -/

/-- An access of `vfs_getcwd` to one of its arrays. -/
inductive CwdAccess where
  | tmp (i : Int)
  | buf (i : Nat)
deriving DecidableEq

/-- `sizeof(tmp)`. -/
def cwdTmpSize : Nat := 1024

/-- Inside the arrays. -/
def CwdAccess.Inside (bufsz : Nat) : CwdAccess → Prop
  | .tmp i => 0 ≤ i ∧ i < cwdTmpSize
  | .buf i => i < bufsz

/-- Note several things down. -/
def noteAll (es : List CwdAccess) : Logged CwdAccess Unit := ⟨es, .done ()⟩

/-- `while (n--) *dst++ = '\0'`. -/
def padZeros : Nat → Nat → Mem → Logged CwdAccess Mem
  | 0, _, buf => pure buf
  | n + 1, k, buf => do
      Logged.note (.buf k)
      padZeros n (k + 1) (setByte buf k 0)

/-- `strncpy(buf, src, n)` from the byte `k` on; `reads` is the access that reading a byte is. A
terminator that is copied is not counted, so `n` zeros follow it. -/
def copyString (src : Nat → UInt8) (reads : Nat → List CwdAccess) : Nat → Nat → Mem → Logged CwdAccess Mem
  | 0, _, buf => pure buf
  | n + 1, k, buf => do
      noteAll (reads k)
      Logged.note (.buf k)
      if src k = 0 then padZeros (n + 1) (k + 1) (setByte buf k (src k))
      else copyString src reads n (k + 1) (setByte buf k (src k))

/-- The loop of `vfs_getcwd`: the position afterwards, and what `tmp` holds. -/
def cwdLoop (v : Vfs σ) : Nat → Nat → Int → (Int → UInt8) → Logged CwdAccess (Int × (Int → UInt8))
  | 0, _, _, _ => .lift .timeout
  | fuel + 1, cur, pos, tmp =>
      if cur = vfsInodeRoot then pure (pos, tmp)
      else
        match nodeGet v cur with
        | none => pure (pos, tmp)
        | some i =>
            let name := (v.nodes i).name
            let pos := pos - name.length
            if pos < 1 then pure (pos, tmp)
            else do
              noteAll ((List.range name.length).map fun k : Nat => .tmp (pos + k))
              let tmp := fun x => if pos ≤ x ∧ x < pos + name.length then name.getD (x - pos).toNat 0 else tmp x
              Logged.note (.tmp (pos - 1))
              let tmp := fun x => if x = pos - 1 then slash else tmp x
              cwdLoop v fuel (v.nodes i).parent (pos - 1) tmp

/-- `vfs_getcwd`: the buffer afterwards. `junk` is what lies where `tmp` is put, and around it. -/
def vfsGetcwd (v : Vfs σ) (junk : Int → UInt8) (fuel : Nat) (buf : Option Mem) (bufsz : Nat) :
    Logged CwdAccess (Option Mem) :=
  match buf with
  | none => pure none
  | some buf =>
      if bufsz = 0 then pure none
      else if v.cwd = vfsInodeRoot then do
        let buf ← copyString (fun k => if k = 0 then slash else 0) (fun _ => []) bufsz 0 buf
        pure (some buf)
      else do
        Logged.note (.tmp (cwdTmpSize - 1))
        let tmp := fun x : Int => if x = cwdTmpSize - 1 then 0 else junk x
        let (pos, tmp) ← cwdLoop v fuel v.cwd (cwdTmpSize - 1) tmp
        Logged.note (.tmp pos)
        let (pos, tmp) ←
          if tmp pos = 0 then do
            Logged.note (.tmp (pos - 1))
            pure (pos - 1, fun x => if x = pos - 1 then slash else tmp x)
          else pure (pos, tmp)
        let buf ← copyString (fun k => tmp (pos + k)) (fun k => [.tmp (pos + k)]) (bufsz - 1) 0 buf
        Logged.note (.buf (bufsz - 1))
        pure (some (setByte buf (bufsz - 1) 0))

end VnlKernel
