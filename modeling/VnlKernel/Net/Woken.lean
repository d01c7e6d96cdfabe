import VnlKernel.Lib.RingTake
import VnlKernel.Net.UnSocket

/-!
# Calls that have slept: `src/net/un_socket.c`

A call enters the kernel with interrupts off, so nobody comes in between until it
returns or goes to sleep. `task_sleep` turns them on (`sti; int 0x81`), and the task
comes back from it with them on. From then on the timer may put any other task in
between, and that task may call into the same table. Here what is left of a call that
has slept is cut at every access to the table; what it does with its own variables and
with its caller's memory goes along with the access before it.

Reading and receiving share `pop_rx`, which knows by `Caller` where it returns to.
`memmove` copies entry by entry; the entries are small numbers, so of the four bytes of
one only the lowest changes.
-/

namespace VnlKernel

open Bits RingBuf

variable {σ : Type}

/-- What `pop_rx` accesses next. -/
inductive PopAt where
  /-- The tail, for the condition of the loop that sleeps. A call that was woken is here. -/
  | poll
  | head (t : Fin rxCap)
  | peer
  | flags
  | take (k : Taker UInt8 rxCap)

/-- Where `pop_rx` returns to. `unix_sock_recvmsg` has filled some buffers then. -/
inductive Caller where
  | read
  | recvmsg (msg : MsgHdr) (rest : List IoVec) (total : Int) (out : List UInt8)

/-- What `unix_accept` accesses next. -/
inductive AcceptAt where
  /-- `n_wait`, for the condition of the loop that sleeps. -/
  | poll
  | flags
  /-- `listen_q[0]`. -/
  | first
  /-- `n_wait`, for the length that is given to `memmove`. -/
  | count (si : Int)
  /-- `memmove` has copied `k` of the `w - 1` entries. -/
  | move (si : Int) (w k : Nat)
  /-- `n_wait--`: read, and with `w` read written back. -/
  | drop (si : Int)
  | dropped (si : Int) (w : Nat)
  /-- `socks[si].used`. -/
  | check (si : Int)
deriving DecidableEq

/-- What is left of a call that has slept on slot `i`. -/
inductive Woken where
  | pop (i : Nat) (c : Caller) (len : Nat) (pos : PopAt)
  /-- `unix_sock_recvmsg` before the next buffer. -/
  | loop (i : Nat) (msg : MsgHdr) (rest : List IoVec) (total : Int) (out : List UInt8)
  /-- `unix_sock_recvmsg` after a buffer, about to look whether the ring is empty: at the tail, and
  with the tail `t` read at the head. -/
  | after (i : Nat) (msg : MsgHdr) (rest : List IoVec) (total : Int) (out : List UInt8)
  | afterTail (i : Nat) (msg : MsgHdr) (rest : List IoVec) (total : Int) (out : List UInt8)
      (t : Fin rxCap)
  /-- The loop over the queued descriptors. -/
  | fds (i : Nat) (total : Int) (out : List UInt8) (k : Taker Int fdsCap)
  | accept (i : Nat) (pos : AcceptAt)

/-- A call as it is when it is woken. -/
def Woken.ofWait : Wait → Woken
  | .read i len => .pop i .read len .poll
  | .recvmsg i msg => .loop i msg msg.iov 0 []
  | .accept i => .accept i .poll

/-! ## Reading -/

/-- One access of `pop_rx`: the slot, the byte that has left the ring if one has, and how it goes on
or what it returns. -/
def PopAt.go (s : USock) (len : Nat) :
    PopAt → USock × Option UInt8 × (PopAt ⊕ Int × List UInt8)
  | .poll => (s, none, .inl (.head s.rx.tl))
  | .head t => (s, none, .inl (if t = s.rx.hd then .peer else .take (.start len)))
  | .peer => (s, none, .inl (if s.peerIdx ≠ peerNone then .flags else .take (.start len)))
  | .flags =>
      if hasFlag s.flags oNonblock then (s, none, .inr (-eagain, []))
      -- asleep once more
      else (s, none, .inl .poll)
  | .take k =>
      match k.go s.rx with
      | (rx, b, some k) => ({ s with rx := rx }, b, .inl (.take k))
      | (rx, b, none) => ({ s with rx := rx }, b, .inr (toInt32 k.out.length, k.out))

/-- What `pop_rx` has returned is passed on. -/
def Caller.resume (i : Nat) (r : Int) (bytes : List UInt8) : Caller → Woken ⊕ Ans
  | .read => .inr { Ans.plain r with bytes := bytes }
  | .recvmsg msg rest total out =>
      if r < 0 then .inr { Ans.plain r with bytes := out ++ bytes }
      else .inl (.after i msg rest (total + r) (out ++ bytes))

/-- `unix_sock_recvmsg` after its first loop. -/
def recvControl (i : Nat) (msg : MsgHdr) (total : Int) (out : List UInt8) : Woken ⊕ Ans :=
  if msg.control.isSome ∧ msg.controllen ≥ cmsghdrSize then
    .inl (.fds i total out (.start ((msg.controllen - cmsghdrSize) / 4)))
  else .inr ⟨total, out, [], some 0⟩

/-- The first loop of `unix_sock_recvmsg`, as far as the next `pop_rx`. -/
def nextIov (i : Nat) (msg : MsgHdr) : List IoVec → Int → List UInt8 → Woken ⊕ Ans
  | [], total, out => recvControl i msg total out
  | v :: vs, total, out =>
      if v.len = 0 then nextIov i msg vs total out
      else if v.base.isNone then .inr { Ans.plain (-efault) with bytes := out }
      else .inl (.pop i (.recvmsg msg vs total out) v.len .poll)

/-! ## Accepting -/

/-- One access of `unix_accept`: the slot of the listener, and how it goes on or what it returns.
With no entry left `memmove` is told to copy almost the whole address space; and a count below
zero is more than `nWait` can say. The run is not followed any further then. -/
def AcceptAt.go (n : Net σ) (s : USock) : AcceptAt → Outcome (USock × (AcceptAt ⊕ Int))
  | .poll => .done (s, .inl (if s.nWait = 0 then .flags else .first))
  | .flags => .done (s, if hasFlag s.flags oNonblock then .inr (-eagain) else .inl .poll)
  | .first => .done (s, .inl (.count (s.listenQ 0)))
  | .count si =>
      if s.nWait = 0 then .panic "memmove over the end of memory"
      else .done (s, .inl (.move si s.nWait 0))
  | .move si w k =>
      if k < w - 1 then
        .done ({ s with listenQ := fun m => if m = k then s.listenQ (k + 1) else s.listenQ m },
          .inl (.move si w (k + 1)))
      else .done (s, .inl (.drop si))
  | .drop si => .done (s, .inl (.dropped si s.nWait))
  | .dropped si w =>
      if w = 0 then .panic "n_wait below zero"
      else .done ({ s with nWait := w - 1 }, .inl (.check si))
  | .check si =>
      if si < 0 ∨ si ≥ unixSockMax ∨ !(n.socks si.toNat).used then .done (s, .inr (-eio))
      else .done (s, .inr (unixSockFdBase + si))

/-- What is logged when `unix_accept` returns after it has taken `si` out of the queue. -/
def acceptLog (n : Net σ) (i : Nat) : AcceptAt → List Ev
  | .check si =>
      if si < 0 ∨ si ≥ unixSockMax ∨ !(n.socks si.toNat).used then [.stale i si]
      else [.accepted i si.toNat]
  | _ => []

/-! ## One access -/

/-- One access of a call that has slept: the table, what is logged, and what is left of the call or
its answer. A byte counts as taken when the tail has moved past it. -/
def Woken.go (n : Net σ) : Woken → Outcome (Net σ × List Ev × (Woken ⊕ Ans))
  | .pop i c len pos =>
      match pos.go (n.socks i) len with
      | (s, b, next) =>
          .done (n.setSock i s, (b.map fun b => Ev.popped i [b]).toList,
            match next with
            | .inl pos => .inl (.pop i c len pos)
            | .inr (r, bytes) => c.resume i r bytes)
  | .loop i msg rest total out => .done (n, [], nextIov i msg rest total out)
  | .after i msg rest total out =>
      .done (n, [], .inl (.afterTail i msg rest total out (n.socks i).rx.tl))
  | .afterTail i msg rest total out t =>
      .done (n, [], if t = (n.socks i).rx.hd then recvControl i msg total out
        else .inl (.loop i msg rest total out))
  | .fds i total out k =>
      match k.go (n.socks i).fdsRx with
      | (q, fd, next) =>
          .done (n.setSock i { n.socks i with fdsRx := q },
            (fd.map fun fd => Ev.received i [fd]).toList,
            match next with
            | some k => .inl (.fds i total out k)
            | none => .inr ⟨total, out, k.out,
                some (if k.out.length > 0 then cmsghdrSize + k.out.length * 4 else 0)⟩)
  | .accept i pos => do
      let (s, next) ← pos.go n (n.socks i)
      return (n.setSock i s, acceptLog n i pos,
        match next with
        | .inl pos => .inl (.accept i pos)
        | .inr r => .inr (.plain r))

end VnlKernel
