import VnlKernel.Fs.Vfs
import VnlKernel.Lib.RingBuf

/-!
# Local sockets: `src/net/un_socket.c`

A table of 24 slots. Descriptors from 128 on are slot numbers, and a slot is handed
out again as soon as it is free. A connection is two slots that name each other as
peers, a listener keeps the slots it has not yet handed to anyone in a short queue, and
each slot has a ring of received bytes and one of received descriptors.

A call that has to wait polls: it goes to sleep and looks at its slot again later,
by the slot's number and without asking whether it is still the same socket. Here such
a call returns `sleep` with what it needs to go on, and a second function is the rest
of the call.

Besides its result each call returns a log of what it did to the table. Nothing in the
kernel reads it; it is there so that a run can be said to move this byte or that
descriptor.
-/

namespace VnlKernel

open Bits

def afUnix : Int := 1
def sockStream : Int := 1
def unixSockFdBase : Int := 128
def unixSockMax : Nat := 24
def rxCap : Nat := 8192
def acceptQ : Nat := 8
def fdsCap : Nat := 16
def peerNone : Int := -1
def oNonblock : Nat := 2048
def solSocket : Int := 1
def scmRights : Int := 1
/-- `sizeof(struct cmsghdr)`. -/
def cmsghdrSize : Nat := 16
/-- `sizeof` of a socket's `path`. -/
def sockPathMax : Nat := 120

instance : NeZero rxCap := ⟨by decide⟩

instance : NeZero fdsCap := ⟨by decide⟩

inductive SkState where
  | unused
  | created
  | bound
  | listening
  | connected
deriving DecidableEq

structure USock where
  used : Bool
  state : SkState
  path : CStr
  rx : RingBuf UInt8 rxCap
  peerIdx : Int
  listenQ : Nat → Int
  nWait : Nat
  fdsRx : RingBuf Int fdsCap
  flags : Nat

/-- A slot filled with zeros. Its peer is slot 0, not `PEER_NONE`. -/
def USock.zero : USock :=
  { used := false, state := .unused, path := [], rx := .fresh fun _ => 0, peerIdx := 0
    listenQ := fun _ => 0, nWait := 0, fdsRx := .fresh fun _ => 0, flags := 0 }

/-- A slot as `alloc_slot` hands it out. -/
def USock.fresh : USock := { USock.zero with used := true, state := .created, peerIdx := peerNone }

/-- The table, and the file system that sockets are bound in and descriptors come from. -/
structure Net (σ : Type) where
  socks : Nat → USock
  vfs : Vfs σ

variable {σ : Type}

def Net.setSock (n : Net σ) (i : Nat) (s : USock) : Net σ :=
  { n with socks := fun j => if j = i then s else n.socks j }

def unixSocketInit (v : Vfs σ) : Net σ := ⟨fun _ => .zero, v⟩

def idxFromFd (fd : Int) : Option Nat :=
  if fd < unixSockFdBase ∨ fd ≥ unixSockFdBase + unixSockMax then none
  else some (fd - unixSockFdBase).toNat

/-- The descriptor of a slot. -/
def fdOf (i : Nat) : Int := unixSockFdBase + i

/-- What most calls begin with: the slot of a descriptor, if it is in use. -/
def sockOf (n : Net σ) (fd : Int) : Option Nat :=
  match idxFromFd fd with
  | none => none
  | some i => if (n.socks i).used then some i else none

def unixIsSockfd (n : Net σ) (fd : Int) : Bool := (sockOf n fd).isSome

/-- The scan of `alloc_slot`. -/
def freeSlot (n : Net σ) : Option Nat := Scan.first (fun i => !(n.socks i).used) unixSockMax 0

def allocSlot (n : Net σ) : Option (Net σ × Nat) :=
  match freeSlot n with
  | none => none
  | some i => some (n.setSock i .fresh, i)

/-! ## The log -/

/-- Something a call did. -/
inductive Ev where
  /-- A slot was handed out as a socket of its own. -/
  | opened (i : Nat)
  | paired (a b : Nat)
  /-- A slot was connected to itself. -/
  | looped (i : Nat)
  /-- Slot `s` was connected to the client `c` and put into the queue of `l`. -/
  | linked (c s l : Nat)
  /-- The first entry of the queue of `l` was handed out. -/
  | accepted (l s : Nat)
  /-- The first entry of the queue of `l` was dropped: the slot is not in use. -/
  | stale (l : Nat) (s : Int)
  /-- A call on `i` stored bytes for `j`. -/
  | pushed (i j : Nat) (bytes : List UInt8)
  | popped (j : Nat) (bytes : List UInt8)
  /-- A call on `i` queued `r` for `j`, in place of `f`. -/
  | sent (i j : Nat) (f r : Int)
  | received (j : Nat) (fds : List Int)
  /-- Slot `i` was given up, with these descriptors still queued for it. -/
  | closed (i : Nat) (fds : List Int)
  | openFile (path : CStr) (flags : Nat)
  | closeFile (fd : Int)
  | dupFile (fd : Int)
  | unlinkFile (path : CStr)

/-- What a caller gets: the result, and what was copied out to it. `controllen` is `none` where
`msg_controllen` is left as it was. -/
structure Ans where
  ret : Int
  bytes : List UInt8
  fds : List Int
  controllen : Option Nat

def Ans.plain (r : Int) : Ans := ⟨r, [], [], none⟩

structure IoVec where
  base : Option (Nat → UInt8)
  len : Nat

structure MsgHdr where
  iov : List IoVec
  control : Option (Nat → UInt8)
  controllen : Nat

/-- What a sleeping call needs to go on. The slot is a number. -/
inductive Wait where
  | read (i : Nat) (len : Nat)
  | recvmsg (i : Nat) (msg : MsgHdr)
  | accept (i : Nat)

def Wait.slot : Wait → Nat
  | .read i _ => i
  | .recvmsg i _ => i
  | .accept i => i

/-- How a call that may sleep goes on. -/
inductive Reply where
  | ret (a : Ans)
  | sleep (w : Wait)

/-! ## Rings -/

/-- `push_rx`: the slot afterwards, the result, and the bytes stored. -/
def pushRx (dst : USock) (data : Nat → UInt8) (len : Nat) : USock × Int × List UInt8 :=
  let (k, rx) := dst.rx.pushLoop data len 0
  ({ dst with rx := rx }, if k = len then toInt32 len else -enomem, RingBuf.slice data 0 k)

/-- `pop_rx`: nothing when it goes to sleep, else the slot afterwards, the result, and the bytes
copied out. -/
def popRx (s : USock) (len : Nat) : Option (USock × Int × List UInt8) :=
  if s.rx.tl = s.rx.hd ∧ s.peerIdx ≠ peerNone then
    if hasFlag s.flags oNonblock then some (s, -eagain, []) else none
  else
    let (out, rx) := s.rx.popLoop len
    some ({ s with rx := rx }, toInt32 out.length, out)

/-! ## Opening -/

def unixSocket (n : Net σ) (domain type : Int) : Net σ × List Ev × Int :=
  if domain ≠ afUnix then (n, [], -einval)
  else if type ≠ sockStream then (n, [], -einval)
  else
    match allocSlot n with
    | none => (n, [], -enomem)
    | some (n, i) => (n, [.opened i], fdOf i)

/-- `unix_socketpair`: the result, and what is stored through `sv`. -/
def unixSocketpair (n : Net σ) (domain type : Int) (svNull : Bool) :
    Net σ × List Ev × Int × Option (Int × Int) :=
  if svNull then (n, [], -efault, none)
  else if domain ≠ afUnix ∨ type ≠ sockStream then (n, [], -einval, none)
  else
    match allocSlot n with
    | none => (n, [], -enomem, none)
    | some (n, a) =>
        match allocSlot n with
        | none => (n.setSock a { n.socks a with used := false }, [], -enomem, none)
        | some (n, b) =>
            let n := n.setSock a { n.socks a with state := .connected, peerIdx := b }
            let n := n.setSock b { n.socks b with state := .connected, peerIdx := a }
            (n, [.paired a b], 0, some (fdOf a, fdOf b))

/-- The eight bytes of a `uint64_t`. -/
def le64 (v : Nat) : Nat → UInt8 := ByteMem.write64 (fun _ => 0) 0 v

def unixEventfd (n : Net σ) (initval flags : Nat) : Net σ × List Ev × Int :=
  match allocSlot n with
  | none => (n, [], -enomem)
  | some (n, i) =>
      let s : USock := { n.socks i with state := .connected, peerIdx := i, flags := u32 flags }
      if u32 initval > 0 then
        let (s, _, bytes) := pushRx s (le64 (u32 initval)) 8
        (n.setSock i s, [.looped i, .pushed i i bytes], fdOf i)
      else (n.setSock i s, [.looped i], fdOf i)

/-! ## Connecting -/

/-- A `sockaddr_un`: the family at the front, then the path. -/
def addrFamily (addr : Nat → UInt8) : Nat := (addr 0).toNat + 256 * (addr 1).toNat

/-- The path as a string, from its `plen` bytes. -/
def addrPath (addr : Nat → UInt8) (plen : Nat) : CStr :=
  (RingBuf.slice addr 2 plen).takeWhile (· ≠ 0)

/-- The check of an address that `unix_bind` and `unix_connect` share; the path. -/
def checkAddr (addr : Option (Nat → UInt8)) (addrlen : Nat) : Option CStr :=
  match addr with
  | none => none
  | some addr =>
      if addrlen < 3 then none
      else if (addrFamily addr : Int) ≠ afUnix then none
      else
        let plen := sub64 addrlen 2
        if plen = 0 ∨ plen ≥ sockPathMax then none else some (addrPath addr plen)

/-- `VFS_O_RDWR | VFS_O_CREATE | VFS_O_TRUNC`. -/
def bindFlags : Nat := vfsORdwr ||| vfsOCreate ||| vfsOTrunc

def unixBind (n : Net σ) (fd : Int) (addr : Option (Nat → UInt8)) (addrlen : Nat) :
    Outcome (Net σ × List Ev × Int) :=
  match sockOf n fd with
  | none => .done (n, [], -ebadf)
  | some i =>
      if (n.socks i).state ≠ .created then .done (n, [], -einval)
      else
        match checkAddr addr addrlen with
        | none => .done (n, [], -einval)
        | some path =>
            -- the path is in the slot before the checks that may refuse it
            let n := n.setSock i { n.socks i with path := path }
            if path = [] then .done (n, [], -einval)
            else if vfsResolve n.vfs path ≥ 0 then .done (n, [], -eaddrinuse)
            else if (Scan.first (fun k => (n.socks k).used && k ≠ i && (n.socks k).path ≠ []
                && (n.socks k).path = path) unixSockMax 0).isSome then .done (n, [], -eaddrinuse)
            else do
              let (v, tfd) ← vfsOpen n.vfs path bindFlags
              let n := { n with vfs := v }
              if tfd < 0 then return (n, [.openFile path bindFlags], -eio)
              let n := { n with vfs := (vfsClose n.vfs tfd).1 }
              return (n.setSock i { n.socks i with state := .bound },
                [.openFile path bindFlags, .closeFile tfd], 0)

def unixListen (n : Net σ) (fd : Int) : Net σ × Int :=
  match sockOf n fd with
  | none => (n, -ebadf)
  | some i =>
      if (n.socks i).state ≠ .bound then (n, -einval)
      else (n.setSock i { n.socks i with state := .listening }, 0)

def findListener (n : Net σ) (path : CStr) : Option Nat :=
  Scan.first (fun k => (n.socks k).used && (n.socks k).state = .listening && (n.socks k).path = path)
    unixSockMax 0

def unixConnect (n : Net σ) (fd : Int) (addr : Option (Nat → UInt8)) (addrlen : Nat) :
    Net σ × List Ev × Int :=
  match sockOf n fd with
  | none => (n, [], -ebadf)
  | some ci =>
      if (n.socks ci).state ≠ .created then (n, [], -einval)
      else
        match checkAddr addr addrlen with
        | none => (n, [], -einval)
        | some path =>
            match findListener n path with
            | none => (n, [], -econnrefused)
            | some li =>
                match allocSlot n with
                | none => (n, [], -enomem)
                | some (n, si) =>
                    let n := n.setSock si { n.socks si with state := .connected }
                    let n := n.setSock ci { n.socks ci with state := .connected, peerIdx := si }
                    let n := n.setSock si { n.socks si with peerIdx := ci }
                    let L := n.socks li
                    if L.nWait ≥ acceptQ then
                      let n := n.setSock si { n.socks si with used := false }
                      (n.setSock ci { n.socks ci with peerIdx := peerNone, state := .created }, [],
                        -econnrefused)
                    else
                      (n.setSock li
                        { L with listenQ := fun k => if k = L.nWait then (si : Int) else L.listenQ k,
                                 nWait := L.nWait + 1 }, [.linked ci si li], 0)

/-- The rest of `unix_accept`, from the first look at the queue on. -/
def acceptFrom (n : Net σ) (i : Nat) : Net σ × List Ev × Reply :=
  let L := n.socks i
  if L.nWait = 0 then
    if hasFlag L.flags oNonblock then (n, [], .ret (.plain (-eagain))) else (n, [], .sleep (.accept i))
  else
    let si := L.listenQ 0
    let n := n.setSock i
      { L with listenQ := fun k => if k < L.nWait - 1 then L.listenQ (k + 1) else L.listenQ k,
               nWait := L.nWait - 1 }
    if si < 0 ∨ si ≥ unixSockMax ∨ !(n.socks si.toNat).used then
      (n, [.stale i si], .ret (.plain (-eio)))
    else (n, [.accepted i si.toNat], .ret (.plain (unixSockFdBase + si)))

def unixAccept (n : Net σ) (fd : Int) : Net σ × List Ev × Reply :=
  match sockOf n fd with
  | none => (n, [], .ret (.plain (-ebadf)))
  | some i =>
      if (n.socks i).state ≠ .listening then (n, [], .ret (.plain (-einval))) else acceptFrom n i

/-! ## Reading and writing -/

/-- The rest of `unix_sock_read`: `pop_rx`. -/
def readFrom (n : Net σ) (i len : Nat) : Net σ × List Ev × Reply :=
  match popRx (n.socks i) len with
  | none => (n, [], .sleep (.read i len))
  | some (s, r, out) => (n.setSock i s, [.popped i out], .ret { Ans.plain r with bytes := out })

def unixSockRead (n : Net σ) (fd : Int) (len : Nat) : Net σ × List Ev × Reply :=
  match sockOf n fd with
  | none => (n, [], .ret (.plain (-ebadf)))
  | some i =>
      if (n.socks i).state ≠ .connected then (n, [], .ret (.plain (-enotconn))) else readFrom n i len

/-- What the two sending calls begin with: the slot and its peer, or the error. -/
def sendTo (n : Net σ) (fd : Int) : Except Int (Nat × Nat) :=
  match sockOf n fd with
  | none => .error (-ebadf)
  | some i =>
      if (n.socks i).state ≠ .connected ∨ (n.socks i).peerIdx = peerNone then .error (-enotconn)
      else .ok (i, (n.socks i).peerIdx.toNat)

def unixSockWrite (n : Net σ) (fd : Int) (buf : Nat → UInt8) (len : Nat) : Net σ × List Ev × Int :=
  match sendTo n fd with
  | .error e => (n, [], e)
  | .ok (i, j) =>
      let (peer, r, stored) := pushRx (n.socks j) buf len
      (n.setSock j peer, [.pushed i j stored], r)

/-! ## Messages -/

/-- The first loop of `unix_sock_sendmsg`, over the peer's slot: the bytes stored, and the total or
an error. -/
def sendIovs : List IoVec → Int → USock → USock × List UInt8 × Except Int Int
  | [], total, peer => (peer, [], .ok total)
  | v :: vs, total, peer =>
      if v.len = 0 then sendIovs vs total peer
      else
        match v.base with
        | none => (peer, [], .error (-efault))
        | some data =>
            let (peer, sent, stored) := pushRx peer data v.len
            if sent < 0 then (peer, stored, .error sent)
            else
              let (peer, more, r) := sendIovs vs (total + sent) peer
              (peer, stored ++ more, r)

/-- One descriptor of an `SCM_RIGHTS` message: queue it, or a duplicate of it. A negative result
ends the call. -/
def sendFd (n : Net σ) (i j : Nat) (f : Int) : Net σ × List Ev × Int :=
  let isSock := unixIsSockfd n f
  let (v, r) := if isSock then (n.vfs, f) else vfsDup n.vfs f
  if !isSock ∧ r < 0 then (n, [], r)
  else
    let n := { n with vfs := v }
    match (n.socks j).fdsRx.push r with
    | none =>
        if unixIsSockfd n r then (n, [], -enomem)
        else ({ n with vfs := (vfsClose n.vfs r).1 }, [.dupFile f, .closeFile r], -enomem)
    | some q => (n.setSock j { n.socks j with fdsRx := q }, [.sent i j f r], 0)

/-- The loop over the descriptors of one control message. -/
def sendFds (i j : Nat) (fds : Nat → Int) : Nat → Nat → Net σ → Net σ × List Ev × Int
  | 0, _, n => (n, [], 0)
  | k + 1, f, n =>
      let (n, log, r) := sendFd n i j (fds f)
      if r < 0 then (n, log, r)
      else
        let (n, log', r) := sendFds i j fds k (f + 1) n
        (n, log ++ log', r)

/-- The `int` at an address. -/
def readInt (m : Nat → UInt8) (a : Nat) : Int := toInt32 (ByteMem.readLE m a 4)

/-- The loop over control messages. The offset wraps like any `size_t`, so the loop need not end. -/
def sendControl (i j : Nat) (control : Nat → UInt8) (controllen : Nat) :
    Nat → Nat → Net σ → Outcome (Net σ × List Ev × Int)
  | 0, _, _ => .timeout
  | fuel + 1, offset, n =>
      if u64 (offset + cmsghdrSize) ≤ controllen then
        let cmsgLen := ByteMem.read64 control offset
        if cmsgLen < cmsghdrSize ∨ u64 (offset + cmsgLen) > controllen then .done (n, [], 0)
        else
          let (n, log, r) :=
            if readInt control (offset + 8) = solSocket ∧ readInt control (offset + 12) = scmRights then
              sendFds i j (fun f => readInt control (offset + cmsghdrSize + 4 * f))
                ((cmsgLen - cmsghdrSize) / 4) 0 n
            else (n, [], 0)
          if r < 0 then .done (n, log, r)
          else do
            let (n, log', r) ←
              sendControl i j control controllen fuel (u64 (offset + alignUp cmsgLen 8)) n
            return (n, log ++ log', r)
      else .done (n, [], 0)

def unixSockSendmsg (fuel : Nat) (n : Net σ) (fd : Int) (msg : Option MsgHdr) :
    Outcome (Net σ × List Ev × Int) :=
  match sendTo n fd with
  | .error e => .done (n, [], e)
  | .ok (i, j) =>
      match msg with
      | none => .done (n, [], -efault)
      | some msg =>
          let (peer, stored, sent) := sendIovs msg.iov 0 (n.socks j)
          let n := n.setSock j peer
          match sent with
          | .error e => .done (n, [.pushed i j stored], e)
          | .ok total =>
              match msg.control with
              | none => .done (n, [.pushed i j stored], total)
              | some control =>
                  if msg.controllen < cmsghdrSize then .done (n, [.pushed i j stored], total)
                  else do
                    let (n, log, r) ← sendControl i j control msg.controllen fuel 0 n
                    return (n, .pushed i j stored :: log, if r < 0 then r else total)

/-- The first loop of `unix_sock_recvmsg`: nothing when it goes to sleep, else the slot, the bytes
copied out, and the total or an error. It stops when the ring is empty, so it sleeps before it has
taken anything or not at all. -/
def recvIovs : List IoVec → Int → USock → Option (USock × List UInt8 × Except Int Int)
  | [], total, s => some (s, [], .ok total)
  | v :: vs, total, s =>
      if v.len = 0 then recvIovs vs total s
      else if v.base.isNone then some (s, [], .error (-efault))
      else
        match popRx s v.len with
        | none => none
        | some (s, recvd, out) =>
            if recvd < 0 then some (s, out, .error recvd)
            else if s.rx.tl = s.rx.hd then some (s, out, .ok (total + recvd))
            else
              match recvIovs vs (total + recvd) s with
              | none => none
              | some (s, more, r) => some (s, out ++ more, r)

/-- The rest of `unix_sock_recvmsg`, from the first loop on. -/
def recvFrom (n : Net σ) (i : Nat) (msg : MsgHdr) : Net σ × List Ev × Reply :=
  match recvIovs msg.iov 0 (n.socks i) with
  | none => (n, [], .sleep (.recvmsg i msg))
  | some (s, out, .error e) => (n.setSock i s, [.popped i out], .ret { Ans.plain e with bytes := out })
  | some (s, out, .ok total) =>
      if msg.control.isSome ∧ msg.controllen ≥ cmsghdrSize then
        let (fds, q) := s.fdsRx.popLoop ((msg.controllen - cmsghdrSize) / 4)
        (n.setSock i { s with fdsRx := q }, [.popped i out, .received i fds],
          .ret ⟨total, out, fds, some (if fds.length > 0 then cmsghdrSize + fds.length * 4 else 0)⟩)
      else (n.setSock i s, [.popped i out], .ret ⟨total, out, [], some 0⟩)

def unixSockRecvmsg (n : Net σ) (fd : Int) (msg : Option MsgHdr) : Net σ × List Ev × Reply :=
  match sockOf n fd with
  | none => (n, [], .ret (.plain (-ebadf)))
  | some i =>
      if (n.socks i).state ≠ .connected then (n, [], .ret (.plain (-enotconn)))
      else
        match msg with
        | none => (n, [], .ret (.plain (-efault)))
        | some msg => recvFrom n i msg

/-! ## Closing -/

/-- `p->peer_idx = PEER_NONE` for the peer of slot `i`, if it still is one. -/
def unlinkPeer (n : Net σ) (i : Nat) : Net σ :=
  let s := n.socks i
  if s.peerIdx ≠ peerNone ∧ 0 ≤ s.peerIdx ∧ s.peerIdx < unixSockMax then
    let p := n.socks s.peerIdx.toNat
    if p.used ∧ p.peerIdx = i then n.setSock s.peerIdx.toNat { p with peerIdx := peerNone } else n
  else n

/-- Close the queued descriptors that are not sockets. -/
def closeFds (n : Net σ) : List Int → Vfs σ → Vfs σ
  | [], v => v
  | fd :: fds, v => closeFds n fds (if fd ≥ 0 ∧ !unixIsSockfd n fd then (vfsClose v fd).1 else v)

def unixSockClose (fs : FrameService σ) (n : Net σ) (fd : Int) : Outcome (Net σ × List Ev × Int) :=
  match sockOf n fd with
  | none => .done (n, [], -ebadf)
  | some i => do
      let n := unlinkPeer n i
      let n := n.setSock i { n.socks i with peerIdx := peerNone }
      let s := n.socks i
      let (v, log) ←
        if (s.state = .bound ∨ s.state = .listening) ∧ s.path ≠ [] then do
          let (v, _) ← vfsUnlink fs n.vfs s.path
          pure (v, [Ev.unlinkFile s.path])
        else pure (n.vfs, [])
      let fds := (s.fdsRx.popLoop fdsCap).1
      let n := { n with vfs := closeFds n fds v }
      return (n.setSock i .zero, log ++ [.closed i fds], 0)

/-! ## The rest -/

def unixSockFcntl (n : Net σ) (fd cmd : Int) (arg : Nat) : Net σ × Int :=
  match sockOf n fd with
  | none => (n, -ebadf)
  | some i =>
      if cmd = 3 then (n, toInt32 (n.socks i).flags)
      else if cmd = 4 then (n.setSock i { n.socks i with flags := u32 arg }, 0)
      else (n, -einval)

def pollIn : Nat := 1
def pollOut : Nat := 4
def pollHup : Nat := 16

def unixSockPoll (n : Net σ) (fd : Int) (events : Nat) : Nat :=
  match sockOf n fd with
  | none => 0
  | some i =>
      let s := n.socks i
      let inBit :=
        if hasFlag events pollIn ∧ (s.rx.tl ≠ s.rx.hd ∨ s.peerIdx = peerNone) then pollIn else 0
      let outBit :=
        if hasFlag events pollOut ∧ s.peerIdx ≠ peerNone then
          let p := n.socks s.peerIdx.toNat
          if (p.rx.tl + rxCap - 1 - p.rx.hd) % rxCap > 0 then pollOut else 0
        else 0
      let hupBit := if s.peerIdx = peerNone ∧ s.state = .connected then pollHup else 0
      inBit ||| outBit ||| hupBit

end VnlKernel
